import ProvenC.Qpack.Instructions

/-!
# The encoder stream in pieces

What has not made a whole instruction is held for the next bytes, up to a limit that no instruction
which is carried out passes.
-/

namespace ProvenC.Qpack.Feeding

open List Bytes Lib.Scanning
open Qpack.Table Qpack.Instructions

/-- `struct proven_qpack_dec` with `ib`, an encoder-stream instruction not yet whole. -/
structure Feeder where
  dec : Decoder
  ib : List Byte
deriving DecidableEq, Repr

/-- The inner loop of `proven_qpack_dec_feed`: the whole instructions at the front of some bytes. -/
def qpExecute (d : Decoder) (bytes : List Byte) : Except Decoder (Decoder × List Byte) :=
  driveAll qpEncInstr d bytes

def qpFeedLoop : Nat → Feeder → List Byte → Except Feeder Feeder
  | 0, f, _ => .ok f
  | turns + 1, f, input =>
    if input = [] then .ok f
    else if f.ib = [] then
      match qpExecute f.dec input with
      | .error d => .error { f with dec := d }
      | .ok (d, rest) => if qpIbMax d < rest.length then .error { f with dec := d } else .ok { dec := d, ib := rest }
    else
      let take := min input.length (qpIbMax f.dec - f.ib.length)
      if take = 0 then .error f
      else
        let ib := f.ib ++ input.take take
        match qpExecute f.dec ib with
        | .error d => .error { dec := d, ib := ib }
        | .ok (d, rest) =>
          if qpIbMax d ≤ rest.length then .error { dec := d, ib := rest }
          else qpFeedLoop turns { dec := d, ib := rest } (input.drop take)

/-- `proven_qpack_dec_feed`; every turn but the last takes a byte. -/
def qpackDecFeed (f : Feeder) (input : List Byte) : Except Feeder Feeder := qpFeedLoop (input.length + 1) f input

def qpackDecFeeds : Feeder → List (List Byte) → Except Feeder Feeder
  | f, [] => .ok f
  | f, piece :: rest =>
    match qpackDecFeed f piece with
    | .error f => .error f
    | .ok f => qpackDecFeeds f rest

theorem instr_settled (d : Decoder) : Settled (qpEncInstr d) := (enc_instr_scans d).1

theorem instr_consumes (d : Decoder) : Consumes (qpEncInstr d) := (enc_instr_scans d).2

theorem execute_append (d : Decoder) (bytes more : List Byte) : qpExecute d (bytes ++ more) = match qpExecute d bytes with
      | .error last => .error last
      | .ok (last, rest) => qpExecute last (rest ++ more) := by
  unfold qpExecute
  rw [drive_all_append instr_consumes (fun d => (instr_settled d).steady) d bytes more]
  cases driveAll qpEncInstr d bytes with
  | error | ok => rfl

structure Grown (d d' : Decoder) (read : Nat) : Prop where
  maxCap : d'.maxCap = d.maxCap
  cap : d.cap ≤ d.maxCap → d'.cap ≤ d'.maxCap
  inserts : d'.inserts ≤ d.inserts + read

theorem execute_grown (d : Decoder) (bytes : List Byte) : d.cap ≤ d.maxCap → match qpExecute d bytes with
      | .error last => Grown d last bytes.length
      | .ok (last, rest) => Grown d last (bytes.length - rest.length) ∧ rest.length ≤ bytes.length := by
  unfold qpExecute
  induction d, bytes using drive_all_induction instr_consumes with
  | none_ d =>
    intro room
    exact ⟨⟨rfl, id, Nat.le_add_right _ _⟩, le_refl _⟩
  | bad d bytes fault some stepped =>
    intro room
    rw [drive_all_bad some stepped]
    exact ⟨rfl, id, Nat.le_add_right _ _⟩
  | short d bytes some stepped =>
    intro room
    rw [drive_all_short stepped]
    exact ⟨⟨rfl, id, Nat.le_add_right _ _⟩, le_refl _⟩
  | got d bytes next rest stepped ih =>
    intro room
    have carried := (enc_instr_facts room stepped).2
    have shorter := instr_consumes d _ _ _ stepped
    have least := carried.inserts
    have later := ih (carried.cap room)
    rw [drive_all_got instr_consumes stepped]
    cases outcome : driveAll qpEncInstr next rest with
    | error last =>
      rw [outcome] at later
      have more := later.inserts
      exact ⟨later.maxCap.trans carried.maxCap, fun room => later.cap (carried.cap room), by omega⟩
    | ok reached =>
      rw [outcome] at later
      have more := later.1.inserts
      have less := later.2
      exact ⟨⟨later.1.maxCap.trans carried.maxCap, fun room => later.1.cap (carried.cap room), by omega⟩, by omega⟩

def Agrees (fresh : Decoder) (seen : List Byte) : Except Feeder Feeder → Prop
  | .ok f => qpExecute fresh seen = .ok (f.dec, f.ib)
  | .error f => qpExecute fresh seen = .error f.dec ∨
      ∃ rest, qpExecute fresh seen = .ok (f.dec, rest) ∧ qpIbMax f.dec ≤ rest.length

theorem long_waits {d : Decoder} {rest : List Byte} (more : List Byte) (room : d.cap ≤ d.maxCap)
    (long : qpIbMax d ≤ rest.length) (waits : qpEncInstr d rest = .short) :
    qpExecute d (rest ++ more) = .error d ∨ qpExecute d (rest ++ more) = .ok (d, rest ++ more) := by
  cases stepped : qpEncInstr d (rest ++ more) with
  | short => exact Or.inr (drive_all_short stepped)
  | bad fault =>
    refine Or.inl (drive_all_bad ?_ stepped)
    intro nothing
    rw [nothing] at stepped
    cases stepped
  | got next left =>
    -- It would be no longer than the limit, and so have been whole before.
    have few := (enc_instr_facts room stepped).1
    rw [length_append] at few
    obtain ⟨front, whole⟩ := (instr_settled d).steady.suffix _ _ _ stepped
    have ends : more <:+ left := by
      refine suffix_of_suffix_length_le (suffix_append rest more) ⟨front, whole⟩ ?_
      omega
    obtain ⟨kept, rfl⟩ := ends
    rw [(instr_settled d).tight _ _ _ _ stepped] at waits
    cases waits

theorem limit_positive (d : Decoder) : 0 < qpIbMax d := by
  unfold qpIbMax
  omega

variable {fresh : Decoder}

theorem agrees_longer {seen : List Byte} {f : Feeder} (more : List Byte) (room : fresh.cap ≤ fresh.maxCap)
    (agrees : Agrees fresh seen (.error f)) : Agrees fresh (seen ++ more) (.error f) := by
  have appended := execute_append fresh seen more
  have grown := execute_grown fresh seen room
  cases agrees with
  | inl failed =>
    rw [failed] at appended
    exact Or.inl appended
  | inr waiting =>
    obtain ⟨rest, reached, long⟩ := waiting
    rw [reached] at appended grown
    have waits := (drive_all_rest instr_consumes (fun d => (instr_settled d).steady) reached).2
    have positive := limit_positive f.dec
    cases waits with
    | inl nothing =>
      rw [nothing, length_nil] at long
      omega
    | inr waits =>
      cases long_waits more (grown.1.cap room) long waits with
      | inl failed => exact Or.inl (appended.trans failed)
      | inr still =>
        refine Or.inr ⟨rest ++ more, appended.trans still, ?_⟩
        rw [length_append]
        omega

theorem feed_loop_agrees (room : fresh.cap ≤ fresh.maxCap) (turns : Nat) (seen : List Byte) (f : Feeder)
    (input : List Byte) (enough : input.length < turns) (agrees : Agrees fresh seen (.ok f)) :
    Agrees fresh (seen ++ input) (qpFeedLoop turns f input) := by
  induction turns generalizing seen f input with
  | zero => omega
  | succ turns ih =>
    have agrees' : qpExecute fresh seen = .ok (f.dec, f.ib) := agrees
    rw [qpFeedLoop]
    split
    next nothing =>
      rw [nothing, append_nil]
      exact agrees
    rename_i some
    have positive : 0 < input.length := length_pos_iff.mpr some
    split
    · -- Nothing is held: straight from the input.
      rename_i empty
      have appended := execute_append fresh seen input
      rw [agrees', empty] at appended
      simp only [nil_append] at appended
      cases outcome : qpExecute f.dec input with
      | error d =>
        rw [outcome] at appended
        exact Or.inl appended
      | ok reached =>
        obtain ⟨d, rest⟩ := reached
        rw [outcome] at appended
        simp only
        split
        next long =>
          exact Or.inr ⟨rest, appended, le_of_lt long⟩
        · exact appended
    simp only
    split
    · -- The limit is reached.
      refine agrees_longer input room (Or.inr ⟨f.ib, agrees', ?_⟩)
      omega
    rename_i takes
    generalize min input.length (qpIbMax f.dec - f.ib.length) = take at takes
    have appended := execute_append fresh seen (input.take take)
    rw [agrees'] at appended
    simp only at appended
    have joined : seen ++ input = seen ++ input.take take ++ input.drop take := by
      rw [append_assoc, take_append_drop]
    rw [joined]
    cases outcome : qpExecute f.dec (f.ib ++ input.take take) with
    | error d =>
      rw [outcome] at appended
      exact agrees_longer _ room (Or.inl appended)
    | ok reached =>
      obtain ⟨d, rest⟩ := reached
      rw [outcome] at appended
      simp only
      split
      next long =>
        exact agrees_longer _ room (Or.inr ⟨rest, appended, long⟩)
      refine ih _ _ _ ?_ appended
      rw [length_drop]
      omega

theorem feeds_agree (room : fresh.cap ≤ fresh.maxCap) (pieces : List (List Byte)) (seen : List Byte)
    (f : Feeder) (agrees : Agrees fresh seen (.ok f)) : Agrees fresh (seen ++ pieces.flatten) (qpackDecFeeds f pieces) := by
  induction pieces generalizing seen f with
  | nil =>
    rw [flatten_nil, append_nil]
    exact agrees
  | cons piece pieces ih =>
    have now := feed_loop_agrees room (piece.length + 1) seen f piece (Nat.lt_succ_self _) agrees
    rw [flatten_cons, ← append_assoc, qpackDecFeeds]
    cases fed : qpackDecFeed f piece with
    | error f' =>
      rw [qpackDecFeed] at fed
      rw [fed] at now
      exact agrees_longer _ room now
    | ok f' =>
      rw [qpackDecFeed] at fed
      rw [fed] at now
      exact ih _ f' now

def verdict : Except Feeder Feeder → Bool × Decoder
  | .ok f => (true, f.dec)
  | .error f => (false, f.dec)

theorem agrees_verdict {stream : List Byte} {result : Except Feeder Feeder} (room : fresh.cap ≤ fresh.maxCap)
    (unfinished : ∀ d rest, qpExecute fresh stream = .ok (d, rest) → rest.length < qpIbMax fresh)
    (agrees : Agrees fresh stream result) : match qpExecute fresh stream with
    | .ok (d, rest) => result = .ok ⟨d, rest⟩
    | .error d => verdict result = (false, d) := by
  have grown := execute_grown fresh stream room
  cases executed : qpExecute fresh stream with
  | error d =>
    cases result with
    | ok f => exact absurd (executed.symm.trans agrees) (by nofun)
    | error f =>
      cases agrees with
      | inl failed =>
        rw [executed] at failed
        cases failed
        rfl
      | inr waiting =>
        obtain ⟨rest, reached, -⟩ := waiting
        exact absurd (executed.symm.trans reached) (by nofun)
  | ok reached =>
    obtain ⟨d, rest⟩ := reached
    rw [executed] at grown
    have short := unfinished d rest executed
    cases result with
    | ok f =>
      have same := executed.symm.trans agrees
      cases same
      rfl
    | error f =>
      cases agrees with
      | inl failed => exact absurd (executed.symm.trans failed) (by nofun)
      | inr waiting =>
        obtain ⟨rest', reached, long⟩ := waiting
        cases executed.symm.trans reached
        have limit : qpIbMax f.dec = qpIbMax fresh := by
          unfold qpIbMax
          rw [grown.1.maxCap]
        omega

theorem created_room {maxCapacity : Nat} (created : qpackDecCreate maxCapacity = some fresh) :
    32 ≤ fresh.maxCap ∧ fresh.maxCap ≤ 2 ^ 20 ∧ fresh.cap ≤ fresh.maxCap ∧ fresh.inserts = 0 := by
  unfold qpackDecCreate at created
  split at created
  · contradiction
  rename_i allowed
  cases created
  exact ⟨Nat.le_of_not_lt fun less => allowed (Or.inl less), Nat.le_of_not_lt fun less => allowed (Or.inr less),
    Nat.zero_le _, rfl⟩

theorem fresh_agrees (fresh : Decoder) : Agrees fresh [] (.ok ⟨fresh, []⟩) := rfl

/-- The encoder stream in any pieces. The decoder and the verdict are those of one call with all of it; whole
instructions are never refused for being cut, and what is held has changed nothing yet. -/
theorem feeding_in_pieces {maxCapacity : Nat} {fresh : Decoder} (created : qpackDecCreate maxCapacity = some fresh)
    (pieces : List (List Byte))
    (unfinished : ∀ d rest, qpExecute fresh pieces.flatten = .ok (d, rest) → rest.length < qpIbMax fresh) :
    verdict (qpackDecFeeds ⟨fresh, []⟩ pieces) = verdict (qpackDecFeed ⟨fresh, []⟩ pieces.flatten) ∧
      (∀ d rest, qpExecute fresh pieces.flatten = .ok (d, rest) → qpackDecFeeds ⟨fresh, []⟩ pieces = .ok ⟨d, rest⟩) ∧
      ∀ f, qpackDecFeeds ⟨fresh, []⟩ pieces = .ok f → ∃ complete, pieces.flatten = complete ++ f.ib ∧
        qpackDecFeed ⟨fresh, []⟩ complete = .ok ⟨f.dec, []⟩ := by
  obtain ⟨-, -, room, -⟩ := created_room created
  have fed (stream : List Byte) : Agrees fresh stream (qpackDecFeed ⟨fresh, []⟩ stream) :=
    feed_loop_agrees room _ [] _ stream (Nat.lt_succ_self _) (fresh_agrees fresh)
  have cut : Agrees fresh pieces.flatten (qpackDecFeeds ⟨fresh, []⟩ pieces) :=
    feeds_agree room pieces [] _ (fresh_agrees fresh)
  have inPieces := agrees_verdict room unfinished cut
  have atOnce := agrees_verdict room unfinished (fed pieces.flatten)
  refine ⟨?_, ?_, ?_⟩
  · cases executed : qpExecute fresh pieces.flatten with
    | error d =>
      rw [executed] at inPieces atOnce
      exact inPieces.trans atOnce.symm
    | ok reached =>
      rw [executed] at inPieces atOnce
      exact congrArg verdict (inPieces.trans atOnce.symm)
  · intro d rest executed
    rw [executed] at inPieces
    exact inPieces
  intro f accepted
  rw [accepted] at cut
  have executed : qpExecute fresh pieces.flatten = .ok (f.dec, f.ib) := cut
  obtain ⟨complete, whole, reached⟩ := drive_all_complete instr_consumes instr_settled executed
  refine ⟨complete, whole, ?_⟩
  have reached' : qpExecute fresh complete = .ok (f.dec, []) := reached
  have result := agrees_verdict room (fun d rest again => by
    cases reached'.symm.trans again
    exact limit_positive fresh) (fed complete)
  rw [reached'] at result
  exact result

/-- A capacity, an insertion and the start of another, a byte or two at a time. -/
theorem feeding_in_pieces_example :
    verdict (qpackDecFeeds ⟨(qpackDecCreate 64).get rfl, []⟩ [[0x3f], [0x21, 0x41], [], [0x61], [0x01], [0x62, 0x41]]) =
        verdict (qpackDecFeed ⟨(qpackDecCreate 64).get rfl, []⟩ [0x3f, 0x21, 0x41, 0x61, 0x01, 0x62, 0x41]) ∧
      (verdict (qpackDecFeed ⟨(qpackDecCreate 64).get rfl, []⟩ [0x3f, 0x21, 0x41, 0x61, 0x01, 0x62, 0x41])).2.inserts = 1 := by
  have created : qpackDecCreate 64 = some ((qpackDecCreate 64).get rfl) := (Option.some_get rfl).symm
  refine ⟨(feeding_in_pieces created [[0x3f], [0x21, 0x41], [], [0x61], [0x01], [0x62, 0x41]] ?_).1, by decide +kernel⟩
  intro d rest executed
  have left : (match qpExecute ((qpackDecCreate 64).get rfl) [0x3f, 0x21, 0x41, 0x61, 0x01, 0x62, 0x41] with
      | .ok reached => reached.2.length
      | .error _ => 0) = 1 := by decide +kernel
  have executed' : qpExecute ((qpackDecCreate 64).get rfl) [0x3f, 0x21, 0x41, 0x61, 0x01, 0x62, 0x41] = .ok (d, rest) :=
    executed
  rw [executed'] at left
  rw [show rest.length = 1 from left]
  decide +kernel

def Reached (d : Decoder) : Prop :=
  ∃ maxCapacity fresh pieces ib, qpackDecCreate maxCapacity = some fresh ∧
    (List.flatten pieces).length ≤ Integer.quicVarintMax ∧ qpackDecFeeds ⟨fresh, []⟩ pieces = .ok ⟨d, ib⟩

theorem reached_small {d : Decoder} (reached : Reached d) :
    32 ≤ d.maxCap ∧ d.maxCap ≤ 2 ^ 20 ∧ d.inserts ≤ Integer.quicVarintMax := by
  obtain ⟨maxCapacity, fresh, pieces, ib, created, short, fed⟩ := reached
  obtain ⟨least, most, room, none_⟩ := created_room created
  have cut := feeds_agree room pieces [] _ (fresh_agrees fresh)
  have grown := execute_grown fresh pieces.flatten room
  rw [fed] at cut
  have executed : qpExecute fresh pieces.flatten = .ok (d, ib) := cut
  rw [executed] at grown
  have few := grown.1.inserts
  have same := grown.1.maxCap
  refine ⟨by omega, by omega, ?_⟩
  omega

end ProvenC.Qpack.Feeding

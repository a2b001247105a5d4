import ProvenC.H2.Calls
import ProvenC.Hpack.Independence

/-!
# The scratch of a header block

Four times the list limit holds any field of a block but not any that takes its name from the table.
-/

namespace ProvenC.H2.Scratch

open Bytes Lib.Outcome Hpack.Integer Hpack.Table Hpack.Huffman Hpack.Decoder Hpack.Independence
open H2.Frame H2.Conn H2.Reader H2.Calls

/-- A block reads to its end and leaves the table `after`, with scratch enough for each line; `needs` is what each takes of it. -/
inductive Reads (limit : Nat) : HpTable → Bool → Bool → List Byte → List Nat → HpTable → Prop
  | done (table : HpTable) (owed begun : Bool) : Reads limit table owed begun [] [] table
  | update {table after : HpTable} {owed : Bool} {b : Byte} {tail rest : List Byte} {size : Nat} {needs : List Nat}
      (isUpdate : b.val / 32 = 1) (int : hpInt 5 (b :: tail) = some (size, rest)) (within : size ≤ limit)
      (later : Reads limit (hpTableShrinkTo { table with max := size } size) false false rest needs after) :
      Reads limit table owed false (b :: tail) needs after
  | line {table after : HpTable} {begun : Bool} {b : Byte} {tail : List Byte} {big : Nat} {line : Line} {needs : List Nat}
      (isLine : b.val / 32 ≠ 1) (read : decodeLine table big 0 b (b :: tail) = .ok line)
      (later : Reads limit (if line.insert then hpTableAdd table line.field.name line.field.value else table) false true
        line.rest needs after) :
      Reads limit table false begun (b :: tail) (line.used :: needs) after

structure Stands (s : Decoding) (table : HpTable) (owed begun : Bool) (input : List Byte) : Prop where
  table : s.table = table
  owed : s.updateOwed = owed
  rest : s.rest = input
  begun : s.begun = true → begun = true ∨ ∃ b tail, input = b :: tail ∧ b.val / 32 ≠ 1

def Ends (scratch : Nat) (needs : List Nat) (after : HpTable) (ran : Decoding × Bool) : Prop :=
  if ∀ need ∈ needs, need ≤ scratch then ran.2 = true ∧ ran.1.table = after else ran.2 = false

theorem ends_cons {scratch need : Nat} {needs : List Nat} {after : HpTable} {ran : Decoding × Bool} (fits : need ≤ scratch)
    (ends : Ends scratch needs after ran) : Ends scratch (need :: needs) after ran := by
  unfold Ends at *
  simpa only [List.forall_mem_cons, fits, true_and] using ends

theorem ends_short {scratch need : Nat} {needs : List Nat} {after : HpTable} {ran : Decoding × Bool} (short : ¬ need ≤ scratch)
    (failed : ran.2 = false) : Ends scratch (need :: needs) after ran := by
  unfold Ends
  rw [if_neg (fun all => short (all need List.mem_cons_self))]
  exact failed

theorem loop_ends {limit : Nat} {cap : Capacity} {table after : HpTable} {owed begun : Bool} {input : List Byte} {needs : List Nat}
    (reads : Reads limit table owed begun input needs after) {s : Decoding} {fuel : Nat}
    (stands : Stands s table owed begun input) (enough : input.length + (if s.isOver then 0 else 1) < fuel) :
    Ends cap.scratch needs after (decodeLoop cap limit fuel s) := by
  induction reads generalizing s fuel with
  | done table owed begun =>
    obtain ⟨fuel, rfl⟩ : ∃ n, fuel = n + 1 := ⟨fuel - 1, by omega⟩
    rw [decodeLoop, stands.rest]
    unfold Ends
    rw [if_pos (fun _ there => absurd there List.not_mem_nil)]
    exact ⟨rfl, stands.table⟩
  | @update table after owed b tail rest size needs isUpdate int within later ih =>
    obtain ⟨fuel, rfl⟩ : ∃ n, fuel = n + 1 := ⟨fuel - 1, by omega⟩
    have fresh : s.begun = false := by
      rw [Bool.eq_false_iff]
      intro begun
      rcases stands.begun begun with wrong | ⟨b', tail', same, isLine⟩
      · cases wrong
      · cases same
        exact isLine isUpdate
    have less := int_shorter int
    rw [decodeLoop, stands.rest]
    dsimp only
    rw [decodeTurn, if_pos isUpdate, fresh, if_neg Bool.false_ne_true, stands.rest, int]
    dsimp only
    rw [if_neg (by omega)]
    exact ih ⟨by rw [stands.table], rfl, rfl, fun wrong => by cases wrong⟩ (by dsimp only; omega)
  | @line table after begun b tail big line needs isLine read later ih =>
    obtain ⟨less, need, -, used, reread⟩ := line_needs read
    rw [Nat.zero_add] at used
    rw [← used] at reread
    have turn (t : Decoding) (there : Stands t table false begun (b :: tail)) (fuel : Nat)
        (room : (b :: tail).length + (if t.isOver then 0 else 1) < fuel + 1) (fits : line.used ≤ cap.scratch - (if t.isOver then 0 else t.used)) :
        Ends cap.scratch (line.used :: needs) after (decodeLoop cap limit (fuel + 1) t) := by
      rw [decodeLoop, there.rest]
      dsimp only
      rw [decodeTurn, if_neg isLine, there.owed, if_neg Bool.false_ne_true, there.table, there.rest, reread, if_pos fits]
      refine ends_cons (by omega) (ih ⟨?_, there.owed, rfl, fun _ => .inl rfl⟩ ?_)
      · unfold takeLine
        rw [there.table]
      unfold takeLine
      cases isOver : t.isOver <;> rw [isOver] at room <;> simp only [Bool.true_or, if_true, Bool.false_eq_true, if_false] at room ⊢
      · split <;> omega
      · omega
    have again (t : Decoding) (there : Stands t table false begun (b :: tail)) (isOver : t.isOver = true) (fuel : Nat)
        (room : (b :: tail).length < fuel + 1) :
        Ends cap.scratch (line.used :: needs) after (decodeLoop cap limit (fuel + 1) t) := by
      by_cases fits : line.used ≤ cap.scratch
      · exact turn t there fuel (by rw [if_pos isOver]; exact room) (by rw [if_pos isOver]; omega)
      apply ends_short fits
      rw [decodeLoop, there.rest]
      dsimp only
      rw [decodeTurn, if_neg isLine, there.owed, if_neg Bool.false_ne_true, there.table, there.rest, reread,
        if_pos isOver, if_neg (by omega)]
      dsimp only
      rw [if_pos isOver]
    obtain ⟨fuel, rfl⟩ : ∃ n, fuel = n + 1 := ⟨fuel - 1, by omega⟩
    by_cases isOver : s.isOver = true
    · rw [if_pos isOver] at enough
      exact again s stands isOver fuel enough
    rw [if_neg isOver] at enough
    by_cases fits : line.used ≤ cap.scratch - s.used
    · exact turn s stands fuel (by rw [if_neg isOver]; exact enough) (by rw [if_neg isOver]; exact fits)
    obtain ⟨fuel, rfl⟩ : ∃ n, fuel = n + 1 := ⟨fuel - 1, by omega⟩
    rw [decodeLoop, stands.rest]
    dsimp only
    rw [decodeTurn, if_neg isLine, stands.owed, if_neg Bool.false_ne_true, stands.table, stands.rest, reread,
      if_neg isOver, if_neg fits]
    dsimp only
    rw [if_neg isOver]
    refine again _ ?_ ?_ fuel (by omega)
    · exact ⟨rfl, rfl, rfl, fun _ => .inr ⟨b, tail, rfl, isLine⟩⟩
    · rfl

/-- The block is decoded, and asked what its list is for or refused as a list; the table is `after`. -/
def Taken (c : H2Conn) (block : List Byte) (after : HpTable) : Prop :=
  ∃ d fields, h2cOnBlock c block = onList { c with dec := some d } fields ∧
    (hpackDecodeMarked (blockDecoder c) block (blockCapacity c)).1 = d ∧ d.failed = false ∧ d.table = after

theorem decode_ends {d : HpackDecoder} (alive : d.failed = false) {block : List Byte} {needs : List Nat} {after : HpTable}
    (reads : Reads d.limit d.table d.updateOwed false block needs after) (cap : Capacity) :
    if ∀ need ∈ needs, need ≤ cap.scratch then
      (hpackDecodeMarked d block cap).1.failed = false ∧ (hpackDecodeMarked d block cap).1.table = after ∧
        ((∃ out, (hpackDecodeMarked d block cap).2 = .ok out) ∨ (hpackDecodeMarked d block cap).2 = .error .outOfBounds)
    else (hpackDecodeMarked d block cap).1.failed = true ∧ (hpackDecodeMarked d block cap).2 = .error .invalidFormat := by
  have ends := @loop_ends d.limit cap _ _ _ _ _ _ reads (decodeStart d block) (decodeFuel block) ⟨rfl, rfl, rfl, fun begun => by cases begun⟩
    (by unfold decodeFuel decodeStart; simp only [Bool.false_eq_true, if_false]; omega)
  unfold Ends at ends
  unfold hpackDecodeMarked
  rw [alive, if_neg Bool.false_ne_true]
  split at ends
  next fits =>
    rw [if_pos fits]
    simp only [ends.1, Bool.not_true, Bool.false_eq_true, if_false, true_and]
    refine ⟨ends.2, ?_⟩
    split
    · exact .inr rfl
    · exact .inl ⟨_, rfl⟩
  rename_i over_
  rw [if_neg over_]
  simp only [ends, Bool.not_false, if_true, and_self]

def smallListConfig : H2Config :=
  { server := true, maxConcurrentStreams := 0, initialWindow := 0, maxFrameSize := 0, maxHeaderListBytes := 64
    headerTableBytes := none, maxBufferedOutput := 0, maxResetDebt := 0, enableConnectProtocol := false }

def smallList : H2Conn := (h2ConnCreate smallListConfig).get (by decide)

def codedZeros : List Byte := 0xf3 :: List.replicate 115 0

def longName : List Byte := 0x40 :: codedZeros ++ [0]

def nameFromTable : List Byte := 0x7e :: codedZeros

def longNameSent : H2Conn :=
  run smallList [.feed (h2Preface ++ h2PutHeader 0 h2Settings 0 0 ++ h2PutHeader longName.length h2Headers 5 1 ++ longName)]

end ProvenC.H2.Scratch

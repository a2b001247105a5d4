import ProvenC.Ws.Reading
import ProvenC.Ws.Text

/-!
# The decoder on the way through a stream

Between two calls the decoder stands in a header, in a control frame or in a data frame. What it
still has to say is what the whole stream says from there.
-/

namespace ProvenC.Ws.Pieces

open List Bytes Lib.BigEndian Lib.Unicode Lib.Streaming Text.Prefixes Ws.Frame
  ProvenC.Ws.Header ProvenC.Ws.Reading ProvenC.Ws.Decoder ProvenC.Ws.Text

def faultErr : WsFault → ProvenErr
  | .protocol => .invalidFormat
  | .data => .invalidEncoding
  | .tooBig => .outOfBounds

/-- The pieces of a message are put together, with `held` before them. -/
def assemble (held : Option WsMessage) : WsEvent → Option (List WsHappening × Option WsMessage)
  | .data text first last compressed bytes =>
    let m : WsMessage := (held.getD { text := text, compressed := compressed, content := [] })
    if first ≠ held.isNone ∨ m.text ≠ text ∨ m.compressed ≠ compressed then none
    else
      let whole : WsMessage := { m with content := m.content ++ bytes }
      if last then some ([.message whole], none) else some ([], some whole)
  | .ping payload => some ([.ping payload], held)
  | .pong payload => some ([.pong payload], held)
  | .close code reason => some ([.close code reason], held)

def assembleAll (held : Option WsMessage) : List WsEvent → Option (List WsHappening × Option WsMessage)
  | [] => some ([], held)
  | event :: events =>
    (assemble held event).bind fun first =>
      (assembleAll first.2 events).map fun later => (first.1 ++ later.1, later.2)

theorem assemble_append {held between after : Option WsMessage} {events events' : List WsEvent} {first later : List WsHappening}
    (front : assembleAll held events = some (first, between)) (back : assembleAll between events' = some (later, after)) :
    assembleAll held (events ++ events') = some (first ++ later, after) := by
  induction events generalizing held first with
  | nil =>
    cases front
    exact back
  | cons event events ih =>
    rw [assembleAll] at front
    rw [cons_append, assembleAll]
    obtain ⟨one, here, rest⟩ := Option.bind_eq_some_iff.mp front
    obtain ⟨others, there, same⟩ := Option.map_eq_some_iff.mp rest
    cases same
    rw [here, Option.bind_some, ih there, Option.map_some, append_assoc]

variable {f : WsFrame} {d : WsDecoder} {rules : WsRules} {message held : Option WsMessage} {m : WsMessage}
  {input rest stream : List Byte}

theorem mask_unmasked (f : WsFrame) (bytes : List Byte) (offset : Nat) :
    (if f.masked then wsMask bytes f.mask offset else bytes) = unmasked f offset bytes := by
  unfold unmasked wsMask
  refine if_congr Iff.rfl ?_ rfl
  congr 1
  funext i b
  rw [show (offset + i) &&& 3 = (offset + i) % 4 from Nat.and_two_pow_sub_one_eq_mod (offset + i) 2]

theorem unmasked_append (f : WsFrame) (offset : Nat) (front back : List Byte) :
    unmasked f offset (front ++ back) = unmasked f offset front ++ unmasked f (offset + front.length) back := by
  unfold unmasked
  cases f.masked with
  | false => rfl
  | true =>
    rw [if_pos rfl, if_pos rfl, if_pos rfl, mapIdx_append]
    congr 2
    funext i b
    rw [add_assoc, add_comm i]

theorem unmasked_length (f : WsFrame) (offset : Nat) (bytes : List Byte) : (unmasked f offset bytes).length = bytes.length := by
  unfold unmasked
  split_ifs
  · exact length_mapIdx
  · rfl

theorem close_code_valid (code : Nat) : wsCloseCodeIsValid code = true ↔ MaySend code := by
  unfold wsCloseCodeIsValid MaySend
  simp only [Bool.or_eq_true, Bool.and_eq_true, decide_eq_true_eq, or_assoc]

theorem close_parse_closing (payload : List Byte) :
    (∀ fault, closing payload = .error fault → wsCloseParse payload = .error (faultErr fault)) ∧
    (∀ said, closing payload = .ok said → wsCloseParse payload = .ok said) := by
  match payload with
  | [] => exact ⟨fun _ wrong => (by cases wrong), fun said same => by cases same; rfl⟩
  | [_] => exact ⟨fun fault same => by cases same; rfl, fun _ wrong => (by cases wrong)⟩
  | hi :: lo :: reason =>
    have number : bigEndian [hi, lo] = hi.val * 256 + lo.val := by
      unfold bigEndian
      simp only [foldl_cons, foldl_nil, zero_mul, zero_add]
    rw [closing, wsCloseParse, number]
    by_cases refused : ¬ MaySend (hi.val * 256 + lo.val)
    · rw [if_pos refused, if_pos (fun valid => refused ((close_code_valid _).mp valid))]
      exact ⟨fun fault same => by cases same; rfl, fun _ wrong => (by cases wrong)⟩
    rw [if_neg refused, if_neg (not_not.mpr ((close_code_valid _).mpr (not_not.mp refused)))]
    by_cases wrong : ¬ Utf8Text reason
    · rw [if_pos wrong, if_pos (fun fine => wrong ((utf8_ok_iff _).mp fine))]
      exact ⟨fun fault same => by cases same; rfl, fun _ wrong => (by cases wrong)⟩
    rw [if_neg wrong, if_neg (not_not.mpr ((utf8_ok_iff _).mpr (not_not.mp wrong)))]
    exact ⟨fun _ wrong => (by cases wrong), fun said same => by cases same; rfl⟩

structure HeaderWaits (d : WsDecoder) : Prop where
  more : wsFrameParse d.header = .error .needMore
  agreed : d.allowCompressed = false → reservedBit d.header = false

theorem reserved_front {header : List Byte} (some_ : header ≠ []) (more : List Byte) :
    reservedBit (header ++ more) = reservedBit header := by
  cases header with
  | nil => exact absurd rfl some_
  | cons b header => rfl

theorem parse_error {data : List Byte} {err : ProvenErr} (failed : wsFrameParse data = .error err) :
    err = .needMore ∨ err = .invalidFormat := by
  by_contra other
  have passed : wsFrameParse data ≠ .error .invalidFormat := by
    rw [failed]
    intro same
    cases same
    exact other (Or.inr rfl)
  match data with
  | [] =>
    cases failed
    exact other (Or.inl rfl)
  | [b0] =>
    obtain ⟨_, _, waits⟩ := parse_first passed
    rw [waits rfl] at failed
    cases failed
    exact other (Or.inl rfl)
  | b0 :: b1 :: tail =>
    obtain ⟨op, _, _, said⟩ := parse_second passed
    rw [said] at failed
    cases read : wsLengthOf (b1.val % 128) tail with
    | error e =>
      rw [read] at failed
      cases failed
      unfold wsLengthOf at read
      dsimp only at read
      split_ifs at read <;> cases read <;> exact other (by decide)
    | ok got =>
      rw [read] at failed
      dsimp only at failed
      split_ifs at failed
      cases failed
      exact other (Or.inl rfl)

theorem refused_stays {data : List Byte} (refused : wsFrameParse data = .error .invalidFormat) (more : List Byte) :
    headAt (data ++ more) = none ∧ ¬ Begun (data ++ more) := by
  constructor
  · cases found : headAt (data ++ more) with
    | none => rfl
    | some head =>
      obtain ⟨f, rest⟩ := head
      obtain ⟨wellFormed, form, shortest, split⟩ := head_at_iff.mp found
      rcases append_eq_append_iff.mp split with ⟨missing, header, _⟩ | ⟨over_, whole, _⟩
      · by_cases nothing : missing = []
        · rw [nothing, append_nil] at header
          have heads : Heads f data [] := ⟨wellFormed, form, shortest, by rw [append_nil, header]⟩
          obtain ⟨n, parsed, _⟩ := parse_heads heads
          rw [parsed] at refused
          cases refused
        have begun : Begun data := ⟨f, form, missing, wellFormed, shortest_holds shortest,
          fun control => shortest_field shortest (wellFormed.small control), nothing, Or.inr ⟨shortest, header.symm⟩⟩
        rw [parse_of_begun begun] at refused
        cases refused
      have heads : Heads f data over_ := ⟨wellFormed, form, shortest, whole⟩
      obtain ⟨n, parsed, _⟩ := parse_heads heads
      rw [parsed] at refused
      cases refused
  rintro ⟨f, form, later, wellFormed, holds, small, some_, part⟩
  rw [append_assoc] at part
  have begun : Begun data := ⟨f, form, more ++ later, wellFormed, holds, small,
    fun nothing => some_ (append_eq_nil_iff.mp nothing).2, part⟩
  rw [parse_of_begun begun] at refused
  cases refused

theorem gather_spec (input : List Byte) : ∀ {d : WsDecoder}, HeaderWaits d → (∀ fed, wsGather d input = .error fed →
      (fed = wsQuiet { d with header := d.header ++ input } [] ∧ HeaderWaits fed.state) ∨
      ((∃ d' rest, fed = wsFail d' .invalidFormat rest) ∧ ∀ rules message more, rules.compression = d.allowCompressed →
        headTurn rules message (d.header ++ input ++ more) = .stops (failing message .protocol))) ∧
    (∀ d' rest, wsGather d input = .ok (d', rest) →
      ∃ header f, d' = { d with header := header, frame := f } ∧ rest.length < input.length ∧
        ∀ more, headAt (d.header ++ input ++ more) = some (f, rest ++ more) ∧
          (d.allowCompressed = false → reservedBit (d.header ++ input ++ more) = false)) := by
  induction input with
  | nil =>
    intro d waits
    rw [wsGather]
    refine ⟨fun fed done => ?_, fun d' rest done => (nomatch done)⟩
    cases done
    rw [append_nil]
    exact Or.inl ⟨rfl, waits⟩
  | cons b input ih =>
    intro d waits
    have split : ∀ more : List Byte, d.header ++ b :: input ++ more = (d.header ++ [b]) ++ (input ++ more) := by
      intro more
      rw [append_assoc, append_assoc, cons_append, singleton_append]
    rw [wsGather]
    by_cases bit : (d.header ++ [b]).length = 1 ∧ b.val / 64 % 2 = 1 ∧ ¬ d.allowCompressed = true
    · rw [if_pos bit]
      refine ⟨fun fed done => ?_, fun d' rest done => (nomatch done)⟩
      cases done
      obtain ⟨one, set_, disagreed⟩ := bit
      refine Or.inr ⟨⟨_, _, rfl⟩, fun rules message more agreed => ?_⟩
      have first : d.header = [] := by
        rw [length_append, length_singleton] at one
        exact length_eq_zero_iff.mp (by omega)
      have refused : rules.compression = false ∧ reservedBit (d.header ++ b :: input ++ more) = true := by
        rw [agreed, first]
        exact ⟨Bool.eq_false_iff.mpr disagreed, decide_eq_true set_⟩
      unfold headTurn
      rw [if_pos refused]
    rw [if_neg bit]
    have bits : d.allowCompressed = false → reservedBit (d.header ++ [b]) = false := by
      intro disagreed
      by_cases first : d.header = []
      · rw [first, nil_append] at bit ⊢
        refine decide_eq_false fun set_ => bit ⟨rfl, set_, ?_⟩
        rw [disagreed]
        decide
      rw [reserved_front first]
      exact waits.agreed disagreed
    have allBits : ∀ more, d.allowCompressed = false → reservedBit (d.header ++ b :: input ++ more) = false := by
      intro more disagreed
      rw [split, reserved_front (by simp)]
      exact bits disagreed
    cases parsed : wsFrameParse (d.header ++ [b]) with
    | ok got =>
      obtain ⟨f, n⟩ := got
      refine ⟨fun fed done => (nomatch done), fun d' rest done => ?_⟩
      cases done
      refine ⟨d.header ++ [b], f, rfl, Nat.lt_succ_self _, fun more => ⟨?_, allBits more⟩⟩
      -- had the header ended before `b`, it would have been found without it
      obtain ⟨⟨wellFormed, form, shortest, whole⟩, _, inside⟩ := heads_of_parse parsed
      have exactly : (d.header ++ [b]).drop n = [] := by
        cases left : (d.header ++ [b]).drop n with
        | nil => rfl
        | cons c later =>
          rw [left] at whole
          have before : d.header = headerBytes form f ++ (c :: later).dropLast := by
            have cut := congrArg List.dropLast whole
            rw [dropLast_concat, dropLast_append_of_ne_nil (cons_ne_nil _ _)] at cut
            exact cut
          obtain ⟨n', parsed', _⟩ := parse_heads ⟨wellFormed, form, shortest, before⟩
          rw [waits.more] at parsed'
          cases parsed'
      rw [exactly, append_nil] at whole
      refine head_at_iff.mpr ⟨wellFormed, form, shortest, ?_⟩
      rw [split, whole]
    | error err =>
      rcases parse_error parsed with rfl | rfl
      · dsimp only
        obtain ⟨stopped, found⟩ := @ih { d with header := d.header ++ [b] } ⟨parsed, bits⟩
        dsimp only at stopped found
        have again : ∀ more : List Byte, d.header ++ [b] ++ input ++ more = d.header ++ b :: input ++ more := by
          intro more
          rw [split, append_assoc]
        refine ⟨fun fed done => ?_, fun d' rest done => ?_⟩
        · rcases stopped fed done with ⟨quiet, waits'⟩ | ⟨failed, refused⟩
          · refine Or.inl ⟨?_, waits'⟩
            rw [quiet, append_assoc, singleton_append]
          refine Or.inr ⟨failed, fun rules message more agreed => ?_⟩
          rw [← again]
          exact refused rules message more agreed
        obtain ⟨header, f, same, shorter, reads⟩ := found d' rest done
        refine ⟨header, f, same, Nat.lt_succ_of_lt shorter, fun more => ?_⟩
        rw [← again]
        exact reads more
      refine ⟨fun fed done => ?_, fun d' rest done => (nomatch done)⟩
      cases done
      refine Or.inr ⟨⟨_, _, rfl⟩, fun rules message more agreed => ?_⟩
      have fine : ¬ (rules.compression = false ∧ reservedBit (d.header ++ b :: input ++ more) = true) := by
        rintro ⟨disagreed, set_⟩
        rw [allBits more (agreed ▸ disagreed)] at set_
        cases set_
      obtain ⟨none_, notBegun⟩ := refused_stays parsed (input ++ more)
      unfold headTurn
      rw [if_neg fine, split, none_]
      rw [if_neg notBegun]

end ProvenC.Ws.Pieces

import ProvenC.Ws.Header
import ProvenC.Text.Prefixes

/-!
# What a stream of frames says (RFC 6455, section 5 to 7)

The stream is read as a whole: frame after frame, with the payload of every frame unmasked from its
beginning and the fragments of a message put together.
-/

namespace ProvenC.Ws.Reading

open Bytes Lib.BigEndian Lib.Unicode Text.Prefixes Ws.Frame Ws.Header
open scoped Classical

structure WsMessage where
  text : Bool
  compressed : Bool
  content : List Byte
  deriving DecidableEq

def WsMessage.plain (m : WsMessage) : Bool := m.text && !m.compressed

inductive WsHappening where
  | message (m : WsMessage)
  | ping (payload : List Byte)
  | pong (payload : List Byte)
  | close (code : Nat) (reason : List Byte)
  deriving DecidableEq

inductive WsFault where
  | protocol
  | data
  | tooBig
  deriving DecidableEq

def WsFault.code : WsFault → Nat
  | .protocol => 1002
  | .data => 1007
  | .tooBig => 1009

/-- What was agreed: whether frames are masked, whether messages may be compressed, how large a
message may be (0: as large as it likes). -/
structure WsRules where
  masked : Bool
  compression : Bool
  maxMessage : Nat

structure WsReading where
  happenings : List WsHappening
  message : Option WsMessage
  closed : Bool
  fault : Option WsFault

def waiting (message : Option WsMessage) : WsReading := { happenings := [], message := message, closed := false, fault := none }

def failing (message : Option WsMessage) (fault : WsFault) : WsReading :=
  { happenings := [], message := message, closed := false, fault := some fault }

def WsReading.after (reading : WsReading) (happenings : List WsHappening) : WsReading :=
  { reading with happenings := happenings ++ reading.happenings }

inductive WsTurn where
  | stops (reading : WsReading)
  | goes (happenings : List WsHappening) (message : Option WsMessage) (rest : List Byte)

/-- Byte `i` of a payload is masked with byte `i % 4` of the mask. -/
def unmasked (f : WsFrame) (offset : Nat) (bytes : List Byte) : List Byte :=
  if f.masked then bytes.mapIdx fun i b => b ^^^ f.mask.getD ((offset + i) % 4) 0 else bytes

def MaySend (code : Nat) : Prop := (1000 ≤ code ∧ code ≤ 1003) ∨ (1007 ≤ code ∧ code ≤ 1014) ∨ (3000 ≤ code ∧ code ≤ 4999)

noncomputable def closing : List Byte → Except WsFault (Nat × List Byte)
  | [] => .ok (1005, [])
  | [_] => .error .protocol
  | hi :: lo :: reason =>
    if ¬ MaySend (bigEndian [hi, lo]) then .error .protocol
    else if ¬ Utf8Text reason then .error .data
    else .ok (bigEndian [hi, lo], reason)

/-- A control frame of which `held` was read. -/
noncomputable def controlTurn (f : WsFrame) (message : Option WsMessage) (held stream : List Byte) : WsTurn :=
  if held.length + stream.length < f.length then .stops (waiting message)
  else
    let payload := unmasked f 0 (held ++ stream.take (f.length - held.length))
    let rest := stream.drop (f.length - held.length)
    match f.opcode with
    | .close =>
      match closing payload with
      | .error fault => .stops (failing message fault)
      | .ok (code, reason) =>
        .stops { happenings := [.close code reason], message := message, closed := true, fault := none }
    | .ping => .goes [.ping payload] message rest
    | _ => .goes [.pong payload] message rest

/-- A data frame of which `offset` bytes stand in the message already. -/
noncomputable def dataTurn (f : WsFrame) (m : WsMessage) (offset : Nat) (stream : List Byte) : WsTurn :=
  let arrived : WsMessage := { m with content := m.content ++ unmasked f offset (stream.take (f.length - offset)) }
  let rest := stream.drop (f.length - offset)
  if m.plain ∧ ¬ Utf8Prefix arrived.content then .stops (failing arrived .data)
  else if offset + stream.length < f.length then .stops (waiting arrived)
  else if f.fin then
    if m.plain ∧ ¬ Utf8Text arrived.content then .stops (failing arrived .data)
    else .goes [.message arrived] none rest
  else .goes [] arrived rest

def messageOf (f : WsFrame) : Option WsMessage → Option WsMessage
  | some m => if f.opcode = .continuation then some m else none
  | none => if f.opcode = .continuation then none else some { text := f.opcode = .text, compressed := f.rsv1, content := [] }

noncomputable def frameTurn (rules : WsRules) (message : Option WsMessage) (f : WsFrame) (stream : List Byte) : WsTurn :=
  if f.masked ≠ rules.masked then .stops (failing message .protocol)
  else if f.opcode.control then controlTurn f message [] stream
  else
    match messageOf f message with
    | none => .stops (failing message .protocol)
    | some m =>
      if rules.maxMessage ≠ 0 ∧ rules.maxMessage < m.content.length + f.length then .stops (failing message .tooBig)
      else dataTurn f m 0 stream

noncomputable def headAt (stream : List Byte) : Option (WsFrame × List Byte) :=
  if heads : ∃ head : WsFrame × List Byte, Heads head.1 stream head.2 then some heads.choose else none

def reservedBit (stream : List Byte) : Bool := stream.head?.any fun b => b.val / 64 % 2 = 1

noncomputable def headTurn (rules : WsRules) (message : Option WsMessage) (stream : List Byte) : WsTurn :=
  if rules.compression = false ∧ reservedBit stream then .stops (failing message .protocol)
  else
    match headAt stream with
    | some (f, rest) => frameTurn rules message f rest
    | none => .stops (if Begun stream then waiting message else failing message .protocol)

variable {rules : WsRules} {message next : Option WsMessage} {f : WsFrame} {m : WsMessage}
  {happenings : List WsHappening} {stream rest : List Byte}

theorem head_unique {f' : WsFrame} {rest' : List Byte} (heads : Heads f stream rest) (heads' : Heads f' stream rest') :
    f = f' ∧ rest = rest' := by
  obtain ⟨n, parsed, rfl⟩ := parse_heads heads
  obtain ⟨n', parsed', rfl⟩ := parse_heads heads'
  rw [parsed] at parsed'
  cases parsed'
  exact ⟨rfl, rfl⟩

theorem head_at_iff : headAt stream = some (f, rest) ↔ Heads f stream rest := by
  unfold headAt
  constructor
  · intro found
    by_cases heads : ∃ head : WsFrame × List Byte, Heads head.1 stream head.2
    · rw [dif_pos heads] at found
      have same := Option.some.inj found
      have chosen := heads.choose_spec
      rw [same] at chosen
      exact chosen
    rw [dif_neg heads] at found
    cases found
  intro heads
  have some_ : ∃ head : WsFrame × List Byte, Heads head.1 stream head.2 := ⟨(f, rest), heads⟩
  obtain ⟨sameFrame, sameRest⟩ := head_unique some_.choose_spec heads
  rw [dif_pos some_]
  exact congrArg some (Prod.ext sameFrame sameRest)

theorem heads_shorter (heads : Heads f stream rest) : rest.length < stream.length := by
  obtain ⟨n, parsed, rfl⟩ := parse_heads heads
  obtain ⟨_, two, inside⟩ := heads_of_parse parsed
  rw [List.length_drop]
  omega

theorem control_turn_shorter {held : List Byte} (goes : controlTurn f message held stream = .goes happenings next rest) :
    rest.length ≤ stream.length := by
  have dropped : ∀ n, (stream.drop n).length ≤ stream.length := by
    intro n
    rw [List.length_drop]
    exact Nat.sub_le _ _
  unfold controlTurn at goes
  by_cases part : held.length + stream.length < f.length
  · rw [if_pos part] at goes
    cases goes
  rw [if_neg part] at goes
  dsimp only at goes
  split at goes
  · split at goes <;> cases goes
  · cases goes
    exact dropped _
  · cases goes
    exact dropped _

theorem data_turn_shorter {offset : Nat} (goes : dataTurn f m offset stream = .goes happenings next rest) :
    rest.length ≤ stream.length := by
  have dropped : ∀ n, (stream.drop n).length ≤ stream.length := by
    intro n
    rw [List.length_drop]
    exact Nat.sub_le _ _
  unfold dataTurn at goes
  dsimp only at goes
  split_ifs at goes <;> cases goes <;> exact dropped _

theorem head_turn_shorter (goes : headTurn rules message stream = .goes happenings next rest) : rest.length < stream.length := by
  unfold headTurn at goes
  by_cases refused : rules.compression = false ∧ reservedBit stream = true
  · rw [if_pos refused] at goes
    cases goes
  rw [if_neg refused] at goes
  cases found : headAt stream with
  | none =>
    rw [found] at goes
    cases goes
  | some head =>
    obtain ⟨f, body⟩ := head
    rw [found] at goes
    have shorter := heads_shorter (head_at_iff.mp found)
    refine lt_of_le_of_lt ?_ shorter
    unfold frameTurn at goes
    dsimp only at goes
    split_ifs at goes
    · exact control_turn_shorter goes
    split at goes
    · cases goes
    split_ifs at goes
    exact data_turn_shorter goes

noncomputable def reading (rules : WsRules) (message : Option WsMessage) (stream : List Byte) : WsReading :=
  match _turned : headTurn rules message stream with
  | .stops reading => reading
  | .goes happenings next rest => (reading rules next rest).after happenings
termination_by stream.length
decreasing_by exact head_turn_shorter ‹_›

noncomputable def onward (rules : WsRules) : WsTurn → WsReading
  | .stops reading => reading
  | .goes happenings message rest => (reading rules message rest).after happenings

theorem reading_turn (rules : WsRules) (message : Option WsMessage) (stream : List Byte) :
    reading rules message stream = onward rules (headTurn rules message stream) := by
  rw [reading]
  split
  next turned =>
    rw [turned]
    rfl
  rename_i turned
  rw [turned]
  rfl

end ProvenC.Ws.Reading

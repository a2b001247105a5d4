import ProvenC.Ws.Pieces

/-!
# One call of the decoder

Wherever the decoder stands, what a call reports and where it leaves the decoder is what the stream
says from there, whatever follows the bytes of the call.
-/

namespace ProvenC.Ws.Following

open List Bytes Lib.Unicode Lib.Streaming Text.Prefixes Ws.Frame Ws.Header
  ProvenC.Ws.Reading ProvenC.Ws.Decoder ProvenC.Ws.Text ProvenC.Ws.Pieces

/-- The decoder is in the message `m`, of which `held` was delivered. -/
structure Carries (d : WsDecoder) (m : WsMessage) (held : Option WsMessage) : Prop where
  inside : d.inMessage = true
  text : d.messageText = m.text
  compressed : d.messageCompressed = m.compressed
  size : d.messageSize = m.content.length
  delivered : held = if d.messageStarted then some m else none
  fresh : d.messageStarted = false → m.content = []
  waits : m.plain = true → Waits d.utf8 m.content

def Stands (d : WsDecoder) : Option WsMessage → Option WsMessage → Prop
  | none, held => d.inMessage = false ∧ held = none
  | some m, held => Carries d m held

def contentOf : Option WsMessage → List Byte
  | none => []
  | some m => m.content

structure InStep (rules : WsRules) (d : WsDecoder) (message held : Option WsMessage) : Prop where
  masked : d.expectMasked = rules.masked
  compression : d.allowCompressed = rules.compression
  maxMessage : d.maxMessage = rules.maxMessage
  fine : d.failed = none
  opened : d.closed = false
  stands : Stands d message held
  bounded : rules.maxMessage ≠ 0 → (contentOf message).length ≤ rules.maxMessage

structure InFrame (rules : WsRules) (d : WsDecoder) (message : Option WsMessage) : Prop where
  gathered : d.header = []
  control : d.frame.opcode.control = true → d.control.length + d.remaining = d.frame.length
  opened : d.frame.opcode.control = false → message.isSome = true
  data : d.frame.opcode.control = false → d.offset + d.remaining = d.frame.length
  fits : d.frame.opcode.control = false → rules.maxMessage ≠ 0 → (contentOf message).length + d.remaining ≤ rules.maxMessage

structure Rests (rules : WsRules) (d : WsDecoder) (message held : Option WsMessage) : Prop where
  step : InStep rules d message held
  framed : d.inFrame = true → InFrame rules d message ∧ 0 < d.remaining
  between : d.inFrame = false → HeaderWaits d

noncomputable def frameLeft (d : WsDecoder) (message : Option WsMessage) (stream : List Byte) : WsTurn :=
  if d.frame.opcode.control then controlTurn d.frame message d.control stream
  else
    match message with
    | none => .stops (waiting none)
    | some m => dataTurn d.frame m d.offset stream

noncomputable def readingFrom (rules : WsRules) (d : WsDecoder) (message : Option WsMessage) (stream : List Byte) : WsReading :=
  if d.inFrame then onward rules (frameLeft d message stream) else reading rules message (d.header ++ stream)

/-- A call met what the stream says from where it began, and left no more than `bound` bytes of its input. -/
structure Meets (rules : WsRules) (message held : Option WsMessage) (says_ : List Byte → WsReading) (bound : Nat) (fed : WsFed) :
    Prop where
  failed : ∀ err, fed.err = some err → fed.event = none ∧ fed.state.failed = some err ∧
    ∃ fault, err = faultErr fault ∧ ∀ more, ∃ message', contentOf message <+: contentOf message' ∧ says_ more = failing message' fault
  fine : fed.err = none → fed.state.failed = none ∧ fed.rest.length ≤ bound ∧
    ∃ happenings held', assembleAll held fed.event.toList = some (happenings, held') ∧
      (fed.state.closed = true → ∃ message', contentOf held' = contentOf message' ∧
        ∀ more, says_ more = { happenings := happenings, message := message', closed := true, fault := none }) ∧
      (fed.state.closed = false → ∃ message', Rests rules fed.state message' held' ∧
        ∀ more, says_ more = (readingFrom rules fed.state message' (fed.rest ++ more)).after happenings)

variable {rules : WsRules} {d : WsDecoder} {message held : Option WsMessage} {m : WsMessage} {f : WsFrame}
  {rest front back : List Byte}

theorem stands_content (stands : Stands d message held) : contentOf held = contentOf message := by
  cases message with
  | none => rw [stands.2]
  | some m =>
    rw [stands.delivered]
    cases started : d.messageStarted with
    | true => rfl
    | false => exact (stands.fresh started).symm

theorem fail_meets {says_ : List Byte → WsReading} {bound : Nat} {d : WsDecoder} {rest : List Byte} (fault : WsFault)
    (failing_ : ∀ more, ∃ message', contentOf message <+: contentOf message' ∧ says_ more = failing message' fault) :
    Meets rules message held says_ bound (wsFail d (faultErr fault) rest) where
  failed := fun err same => by
    cases same
    exact ⟨rfl, rfl, fault, rfl, failing_⟩
  fine := nofun

variable {message' : Option WsMessage}

theorem quiet_meets {says_ : List Byte → WsReading} {bound : Nat} {d : WsDecoder} {rest : List Byte}
    (rests : Rests rules d message' held) (inside : rest.length ≤ bound)
    (onward_ : ∀ more, says_ more = readingFrom rules d message' (rest ++ more)) :
    Meets rules message held says_ bound (wsQuiet d rest) where
  failed := nofun
  fine := fun _ => by
    refine ⟨rests.step.fine, inside, [], held, rfl, fun closed => ?_, fun _ => ⟨message', rests, onward_⟩⟩
    have opened := rests.step.opened
    rw [show d.closed = true from closed] at opened
    cases opened

theorem report_meets {says_ : List Byte → WsReading} {bound : Nat} {d : WsDecoder} {rest : List Byte} {held' : Option WsMessage}
    {event : WsEvent} {happenings : List WsHappening} (rests : Rests rules d message' held') (inside : rest.length ≤ bound)
    (assembled : assemble held event = some (happenings, held'))
    (onward_ : ∀ more, says_ more = (readingFrom rules d message' (rest ++ more)).after happenings) :
    Meets rules message held says_ bound (wsReport d event rest) where
  failed := nofun
  fine := fun _ => by
    refine ⟨rests.step.fine, inside, happenings, held', ?_, fun closed => ?_, fun _ => ⟨message', rests, onward_⟩⟩
    · show assembleAll held [event] = _
      rw [assembleAll, assembled, Option.bind_some, assembleAll, Option.map_some, append_nil]
    have opened := rests.step.opened
    rw [show d.closed = true from closed] at opened
    cases opened

theorem control_turn_append {gathered : List Byte} (inside : gathered.length + front.length ≤ f.length) :
    controlTurn f message gathered (front ++ back) = controlTurn f message (gathered ++ front) back := by
  have left : f.length - gathered.length = front.length + (f.length - (gathered ++ front).length) := by
    rw [length_append]
    omega
  have whole : gathered ++ (front ++ back).take (f.length - gathered.length) =
      gathered ++ front ++ back.take (f.length - (gathered ++ front).length) := by
    rw [left, take_append, take_of_length_le (by omega), Nat.add_sub_cancel_left, append_assoc]
  have later : (front ++ back).drop (f.length - gathered.length) = back.drop (f.length - (gathered ++ front).length) := by
    rw [left, drop_append, drop_eq_nil_of_le (by omega), Nat.add_sub_cancel_left, nil_append]
  unfold controlTurn
  rw [whole, later, length_append, length_append, add_assoc]

theorem data_turn_append {offset : Nat} (inside : offset + front.length ≤ f.length) :
    dataTurn f m offset (front ++ back) =
      dataTurn f { m with content := m.content ++ unmasked f offset front } (offset + front.length) back := by
  have left : f.length - offset = front.length + (f.length - (offset + front.length)) := by omega
  have whole : unmasked f offset ((front ++ back).take (f.length - offset)) =
      unmasked f offset front ++ unmasked f (offset + front.length) (back.take (f.length - (offset + front.length))) := by
    rw [left, take_append, take_of_length_le (by omega), Nat.add_sub_cancel_left, unmasked_append]
  have later : (front ++ back).drop (f.length - offset) = back.drop (f.length - (offset + front.length)) := by
    rw [left, drop_append, drop_eq_nil_of_le (by omega), Nat.add_sub_cancel_left, nil_append]
  unfold dataTurn
  rw [whole, later, length_append, ← add_assoc]
  dsimp only
  rw [append_assoc]
  rfl

theorem header_fresh (gathered : d.header = []) : HeaderWaits d where
  more := by
    rw [gathered]
    rfl
  agreed := fun _ => by
    rw [gathered]
    rfl

theorem heads_reserved {stream : List Byte} (heads : Heads f stream rest) : reservedBit stream = f.rsv1 := by
  obtain ⟨_, form, _, rfl⟩ := heads
  rw [front_cons]
  exact (first_byte_fields f).2.2.2

theorem in_step_moved (step : InStep rules d message held) (header control : List Byte) (remaining offset : Nat) (inFrame : Bool) :
    let d' := { d with header := header, control := control, inFrame := inFrame, remaining := remaining, offset := offset }
    InStep rules d' message held := by
  intro d'
  have stands : Stands d' message held := by
    cases message with
    | none => exact step.stands
    | some m =>
      have carries : Carries d m held := step.stands
      exact { carries with }
  exact { step with stands := stands }

theorem header_spec (step : InStep rules d message held) (agreed : d.allowCompressed = false → d.frame.rsv1 = false) (rest : List Byte) :
    (∀ fed, wsHeader d rest = .error fed → ∃ d' fault, fed = wsFail d' (faultErr fault) rest ∧
      ∀ more, frameTurn rules message d.frame (rest ++ more) = .stops (failing message fault)) ∧
    (∀ d', wsHeader d rest = .ok d' → d'.inFrame = true ∧ ∃ message', InStep rules d' message' held ∧ InFrame rules d' message' ∧
      contentOf message' = contentOf message ∧
      ∀ more, frameTurn rules message d.frame (rest ++ more) = frameLeft d' message' (rest ++ more)) := by
  unfold wsHeader
  dsimp only
  by_cases wrongMask : d.frame.masked ≠ d.expectMasked
  · have refused : ∀ stream, frameTurn rules message d.frame stream = .stops (failing message .protocol) := by
      intro stream
      unfold frameTurn
      rw [if_pos (by rw [← step.masked]; exact wrongMask)]
    rw [if_pos wrongMask]
    refine ⟨fun fed done => ?_, fun d' done => (nomatch done)⟩
    cases done
    exact ⟨_, .protocol, rfl, fun more => refused _⟩
  have fine : ¬ (d.frame.rsv1 = true ∧ ¬ d.allowCompressed = true) := by
    rintro ⟨set_, disagreed⟩
    rw [agreed (Bool.eq_false_iff.mpr disagreed)] at set_
    cases set_
  rw [if_neg wrongMask, if_neg fine]
  rw [step.masked] at wrongMask
  by_cases control : d.frame.opcode.control = true
  · rw [if_pos control]
    refine ⟨fun fed done => (nomatch done), fun d' done => ?_⟩
    cases done
    have notData : ¬ d.frame.opcode.control = false := by
      rw [control]
      decide
    refine ⟨rfl, message, ?_, ?_, rfl, fun more => ?_⟩
    · exact in_step_moved step [] [] d.frame.length 0 true
    · exact ⟨rfl, fun _ => zero_add _, fun data => absurd data notData, fun data => absurd data notData,
        fun data => absurd data notData⟩
    unfold frameLeft frameTurn
    rw [if_neg wrongMask, if_pos control, if_pos control]
  rw [if_neg control]
  have isData : ∀ {p : Prop}, d.frame.opcode.control = true → p := fun wrong => absurd wrong control
  have turn : ∀ stream, frameTurn rules message d.frame stream =
      match messageOf d.frame message with
      | none => .stops (failing message .protocol)
      | some m =>
        if rules.maxMessage ≠ 0 ∧ rules.maxMessage < m.content.length + d.frame.length then .stops (failing message .tooBig)
        else dataTurn d.frame m 0 stream := by
    intro stream
    unfold frameTurn
    exact (if_neg wrongMask).trans (if_neg control)
  cases message with
  | none =>
    obtain ⟨outside, none_⟩ := step.stands
    have notInside : ¬ d.inMessage = true := by
      rw [outside]
      decide
    by_cases continues : d.frame.opcode = .continuation
    · have nothing : messageOf d.frame none = none := if_pos continues
      rw [if_pos ⟨continues, notInside⟩]
      refine ⟨fun fed done => ?_, fun d' done => (nomatch done)⟩
      cases done
      refine ⟨_, .protocol, rfl, fun more => ?_⟩
      rw [turn, nothing]
    have begins : messageOf d.frame none = some { text := d.frame.opcode = .text, compressed := d.frame.rsv1, content := [] } :=
      if_neg continues
    rw [if_neg (fun both => continues both.1), if_neg (fun both => notInside both.2), if_neg continues]
    dsimp only
    have same : (d.maxMessage ≠ 0 ∧ d.maxMessage - 0 < d.frame.length) ↔
        (rules.maxMessage ≠ 0 ∧ rules.maxMessage < d.frame.length) := by rw [step.maxMessage, Nat.sub_zero]
    by_cases tooBig : rules.maxMessage ≠ 0 ∧ rules.maxMessage < d.frame.length
    · rw [if_pos (same.mpr tooBig)]
      refine ⟨fun fed done => ?_, fun d' done => (nomatch done)⟩
      cases done
      refine ⟨_, .tooBig, rfl, fun more => ?_⟩
      rw [turn, begins]
      dsimp only
      rw [if_pos ⟨tooBig.1, by rw [length_nil, zero_add]; exact tooBig.2⟩]
    rw [if_neg (fun wrong => tooBig (same.mp wrong))]
    refine ⟨fun fed done => (nomatch done), fun d' done => ?_⟩
    cases done
    refine ⟨rfl, some { text := d.frame.opcode = .text, compressed := d.frame.rsv1, content := [] }, ?_, ?_, rfl, fun more => ?_⟩
    · exact
        { masked := step.masked
          compression := step.compression
          maxMessage := step.maxMessage
          fine := step.fine
          opened := step.opened
          stands :=
            { inside := rfl
              text := rfl
              compressed := rfl
              size := rfl
              delivered := none_
              fresh := fun _ => rfl
              waits := fun _ => waits_nothing }
          bounded := fun _ => Nat.zero_le _ }
    · exact ⟨rfl, isData, fun _ => rfl, fun _ => zero_add _, fun _ limited => by
        show ([] : List Byte).length + d.frame.length ≤ rules.maxMessage
        rw [length_nil, zero_add]
        exact not_lt.mp fun large => tooBig ⟨limited, large⟩⟩
    rw [turn, begins]
    unfold frameLeft
    dsimp only
    rw [if_neg control, length_nil, zero_add, if_neg tooBig]
  | some m =>
    have carries : Carries d m held := step.stands
    by_cases continues : d.frame.opcode = .continuation
    · have goesOn : messageOf d.frame (some m) = some m := if_pos continues
      rw [if_neg (fun both => both.2 carries.inside), if_neg (fun both => both.1 continues), if_pos continues]
      dsimp only
      have same : (d.maxMessage ≠ 0 ∧ d.maxMessage - d.messageSize < d.frame.length) ↔
          (rules.maxMessage ≠ 0 ∧ rules.maxMessage < m.content.length + d.frame.length) := by
        rw [step.maxMessage, carries.size]
        refine and_congr_right fun limited => ?_
        have bounded : m.content.length ≤ rules.maxMessage := step.bounded limited
        omega
      by_cases tooBig : rules.maxMessage ≠ 0 ∧ rules.maxMessage < m.content.length + d.frame.length
      · rw [if_pos (same.mpr tooBig)]
        refine ⟨fun fed done => ?_, fun d' done => (nomatch done)⟩
        cases done
        refine ⟨_, .tooBig, rfl, fun more => ?_⟩
        rw [turn, goesOn]
        dsimp only
        rw [if_pos tooBig]
      rw [if_neg (fun wrong => tooBig (same.mp wrong))]
      refine ⟨fun fed done => (nomatch done), fun d' done => ?_⟩
      cases done
      refine ⟨rfl, some m, ?_, ?_, rfl, fun more => ?_⟩
      · exact in_step_moved step [] d.control d.frame.length 0 true
      · exact ⟨rfl, isData, fun _ => rfl, fun _ => zero_add _, fun _ limited =>
          not_lt.mp fun large => tooBig ⟨limited, large⟩⟩
      rw [turn, goesOn]
      unfold frameLeft
      dsimp only
      rw [if_neg control, if_neg tooBig]
    have nothing : messageOf d.frame (some m) = none := if_neg continues
    rw [if_neg (fun both => continues both.1), if_pos ⟨continues, carries.inside⟩]
    refine ⟨fun fed done => ?_, fun d' done => (nomatch done)⟩
    cases done
    refine ⟨_, .protocol, rfl, fun more => ?_⟩
    rw [turn, nothing]

theorem control_turn_whole {gathered : List Byte} (whole : gathered.length = f.length) (stream : List Byte) :
    controlTurn f message gathered stream = match f.opcode with
      | .close =>
        match closing (unmasked f 0 gathered) with
        | .error fault => .stops (failing message fault)
        | .ok (code, reason) =>
          .stops { happenings := [.close code reason], message := message, closed := true, fault := none }
      | .ping => .goes [.ping (unmasked f 0 gathered)] message stream
      | _ => .goes [.pong (unmasked f 0 gathered)] message stream := by
  unfold controlTurn
  rw [if_neg (by omega), whole, tsub_self, take_zero, append_nil, drop_zero] <;> rfl

theorem control_spec (step : InStep rules d message held) (framed : d.inFrame = true) (inFrame : InFrame rules d message)
    (control : d.frame.opcode.control = true) (rest : List Byte) :
    Meets rules message held (fun more => onward rules (controlTurn d.frame message d.control (rest ++ more)))
      (rest.length - min d.remaining rest.length) (wsControl d rest) := by
  have notData : ∀ {p : Prop}, d.frame.opcode.control = false → p := by
    intro p data
    rw [control] at data
    cases data
  have whole := inFrame.control control
  have taken : (rest.take (min d.remaining rest.length)).length = min d.remaining rest.length := by
    rw [length_take]
    omega
  have left : (rest.drop (min d.remaining rest.length)).length = rest.length - min d.remaining rest.length := length_drop
  have turned : ∀ more, controlTurn d.frame message d.control (rest ++ more) =
      controlTurn d.frame message (d.control ++ rest.take (min d.remaining rest.length))
        (rest.drop (min d.remaining rest.length) ++ more) := by
    intro more
    rw [← control_turn_append (by omega), ← append_assoc, take_append_drop]
  have parts : (d.control ++ rest.take (min d.remaining rest.length)).length = d.control.length + min d.remaining rest.length := by
    rw [length_append, taken]
  unfold wsControl
  dsimp only
  by_cases waits : 0 < d.remaining - min d.remaining rest.length
  · rw [if_pos waits]
    have rests : Rests rules
        { d with control := d.control ++ rest.take (min d.remaining rest.length),
                 remaining := d.remaining - min d.remaining rest.length } message held := by
      refine ⟨in_step_moved step d.header _ _ d.offset d.inFrame, fun _ => ⟨⟨inFrame.gathered, fun _ => ?_, notData, notData, notData⟩, waits⟩, ?_⟩
      · show (d.control ++ rest.take (min d.remaining rest.length)).length + (d.remaining - min d.remaining rest.length) =
          d.frame.length
        omega
      intro wrong
      rw [show d.inFrame = false from wrong] at framed
      cases framed
    refine quiet_meets rests (le_of_eq left) fun more => ?_
    unfold readingFrom frameLeft
    dsimp only
    rw [if_pos framed, if_pos control, turned]
  rw [if_neg waits, mask_unmasked]
  have ended : ∀ more, controlTurn d.frame message d.control (rest ++ more) = _ := fun more =>
    (turned more).trans (control_turn_whole (by omega) _)
  have rests : ∀ payload : List Byte, Rests rules
      { d with control := payload, remaining := d.remaining - min d.remaining rest.length, inFrame := false } message held := by
    intro payload
    exact ⟨in_step_moved step d.header _ _ d.offset _, nofun, fun _ => header_fresh inFrame.gathered⟩
  have next : ∀ (payload more : List Byte), reading rules message (rest.drop (min d.remaining rest.length) ++ more) =
      readingFrom rules { d with control := payload, remaining := d.remaining - min d.remaining rest.length, inFrame := false }
        message (rest.drop (min d.remaining rest.length) ++ more) := by
    intro payload more
    unfold readingFrom
    dsimp only
    rw [if_neg (by decide), inFrame.gathered, nil_append]
  generalize unmasked d.frame 0 (d.control ++ rest.take (min d.remaining rest.length)) = payload at *
  cases opcode : d.frame.opcode with
  | close =>
    rw [opcode] at ended
    dsimp only at ended ⊢
    obtain ⟨refused, accepted⟩ := close_parse_closing payload
    cases closed : closing payload with
    | error fault =>
      rw [refused fault closed]
      rw [closed] at ended
      refine fail_meets fault fun more => ⟨message, prefix_refl _, ?_⟩
      rw [ended]
      rfl
    | ok said =>
      obtain ⟨code, reason⟩ := said
      rw [accepted _ closed]
      rw [closed] at ended
      refine ⟨nofun, fun _ => ⟨step.fine, le_of_eq left, [.close code reason], held, rfl, ?_, nofun⟩⟩
      refine fun _ => ⟨message, stands_content step.stands, fun more => ?_⟩
      rw [ended]
      rfl
  | ping | pong =>
    rw [opcode] at ended
    dsimp only at ended ⊢
    refine report_meets (rests payload) (le_of_eq left) rfl fun more => ?_
    rw [ended, ← next]
    rfl
  | continuation | text | binary =>
    rw [opcode] at control
    cases control

theorem unmasked_nil (f : WsFrame) (offset : Nat) : unmasked f offset [] = [] :=
  length_eq_zero_iff.mp (unmasked_length f offset [])

theorem data_turn_whole {offset : Nat} (whole : offset = f.length) (good : ¬ (m.plain = true ∧ ¬ Utf8Prefix m.content))
    (stream : List Byte) : (f.fin = false → dataTurn f m offset stream = .goes [] m stream) ∧
    (f.fin = true → m.plain = true ∧ ¬ Utf8Text m.content → dataTurn f m offset stream = .stops (failing m .data)) ∧
    (f.fin = true → ¬ (m.plain = true ∧ ¬ Utf8Text m.content) → dataTurn f m offset stream = .goes [.message m] none stream) := by
  unfold dataTurn
  rw [whole, tsub_self, take_zero, unmasked_nil, append_nil, drop_zero]
  dsimp only
  rw [if_neg good, if_neg (show ¬ f.length + stream.length < f.length by omega)]
  refine ⟨fun more => if_neg (by rw [more]; decide), fun last torn => ?_, fun last fine => ?_⟩
  · rw [if_pos last, if_pos torn]
  · rw [if_pos last, if_neg fine]

theorem data_turn_bad {offset : Nat} (plain : m.plain = true) (bad : ¬ Utf8Prefix m.content) (stream : List Byte) :
    ∃ m' : WsMessage, m.content <+: m'.content ∧ dataTurn f m offset stream = .stops (failing (some m') .data) := by
  refine ⟨{ m with content := m.content ++ unmasked f offset (stream.take (f.length - offset)) }, prefix_append _ _, ?_⟩
  unfold dataTurn
  rw [if_pos ⟨plain, fun begins => bad (prefix_shorter begins)⟩]

theorem assemble_piece (carries : Carries d m held) (last : Bool) (piece : List Byte) :
    assemble held (.data d.messageText (!d.messageStarted) last d.messageCompressed piece) =
      if last then some ([.message { m with content := m.content ++ piece }], none)
      else some ([], some { m with content := m.content ++ piece }) := by
  have delivered := carries.delivered
  unfold assemble
  dsimp only
  cases started : d.messageStarted with
  | true =>
    rw [started, if_pos rfl] at delivered
    rw [delivered, Option.getD_some, if_neg]
    rintro (wrong | wrong | wrong)
    · exact wrong rfl
    · exact wrong carries.text.symm
    · exact wrong carries.compressed.symm
  | false =>
    rw [started, if_neg (by decide)] at delivered
    have nothing := carries.fresh started
    rw [delivered, Option.getD_none, if_neg]
    · rw [nothing, carries.text, carries.compressed]
    · rintro (wrong | wrong | wrong) <;> exact wrong rfl

theorem carries_piece {d' : WsDecoder} {piece utf8 : List Byte} (carries : Carries d m held) (inside : d'.inMessage = true)
    (text : d'.messageText = d.messageText) (compressed : d'.messageCompressed = d.messageCompressed)
    (size : d'.messageSize = d.messageSize + piece.length) (started : d'.messageStarted = true) (kept : d'.utf8 = utf8)
    (waits : m.plain = true → Waits utf8 (m.content ++ piece)) :
    Carries d' { m with content := m.content ++ piece } (some { m with content := m.content ++ piece }) where
  inside := inside
  text := text.trans carries.text
  compressed := compressed.trans carries.compressed
  size := by rw [size, carries.size, length_append]
  delivered := by rw [started, if_pos rfl]
  fresh := fun wrong => by rw [started] at wrong; cases wrong
  waits := fun plain => by rw [kept]; exact waits plain

theorem in_step_piece {d' : WsDecoder} {held' : Option WsMessage} (step : InStep rules d message held)
    (same : d'.expectMasked = d.expectMasked ∧ d'.allowCompressed = d.allowCompressed ∧ d'.maxMessage = d.maxMessage ∧
      d'.failed = d.failed ∧ d'.closed = d.closed) (stands : Stands d' message' held')
    (bounded : rules.maxMessage ≠ 0 → (contentOf message').length ≤ rules.maxMessage) : InStep rules d' message' held' where
  masked := same.1.trans step.masked
  compression := same.2.1.trans step.compression
  maxMessage := same.2.2.1.trans step.maxMessage
  fine := same.2.2.2.1.trans step.fine
  opened := same.2.2.2.2.trans step.opened
  stands := stands
  bounded := bounded

theorem rests_outside (step : InStep rules d message held) (outside : d.inFrame = false) (gathered : d.header = []) :
    Rests rules d message held where
  step := step
  framed := fun wrong => by rw [outside] at wrong; cases wrong
  between := fun _ => header_fresh gathered

theorem reading_outside (outside : d.inFrame = false) (gathered : d.header = []) (stream : List Byte) :
    readingFrom rules d message stream = reading rules message stream := by
  unfold readingFrom
  rw [outside, if_neg (by decide), gathered, nil_append]

theorem data_spec (step : InStep rules d (some m) held) (framed : d.inFrame = true) (inFrame : InFrame rules d (some m))
    (data : d.frame.opcode.control = false) (rest : List Byte) : (∀ fed, wsData d rest = .error fed →
      Meets rules (some m) held (fun more => onward rules (dataTurn d.frame m d.offset (rest ++ more)))
        (rest.length - min d.remaining rest.length) fed) ∧
    (∀ d' rest', wsData d rest = .ok (d', rest') → rest' = rest ∧ d.remaining = 0 ∧ d'.inFrame = false ∧
      Rests rules d' (some m) held ∧
      ∀ more, onward rules (dataTurn d.frame m d.offset (rest ++ more)) = readingFrom rules d' (some m) (rest' ++ more)) := by
  have carries : Carries d m held := step.stands
  have notControl : ∀ {p : Prop}, d.frame.opcode.control = true → p := by
    intro p control
    rw [data] at control
    cases control
  have whole := inFrame.data data
  have taken : (rest.take (min d.remaining rest.length)).length = min d.remaining rest.length := by
    rw [length_take]
    omega
  have left : (rest.drop (min d.remaining rest.length)).length = rest.length - min d.remaining rest.length := length_drop
  have pieceLength : (unmasked d.frame d.offset (rest.take (min d.remaining rest.length))).length = min d.remaining rest.length := by
    rw [unmasked_length, taken]
  have turned : ∀ more, dataTurn d.frame m d.offset (rest ++ more) =
      dataTurn d.frame { m with content := m.content ++ unmasked d.frame d.offset (rest.take (min d.remaining rest.length)) }
        (d.offset + min d.remaining rest.length) (rest.drop (min d.remaining rest.length) ++ more) := by
    intro more
    have split := @data_turn_append m d.frame (rest.take (min d.remaining rest.length))
      (rest.drop (min d.remaining rest.length) ++ more) d.offset (by omega)
    rw [← append_assoc, take_append_drop, taken] at split
    exact split
  unfold wsData
  dsimp only
  by_cases idle : min d.remaining rest.length = 0 ∧ 0 < d.remaining
  · rw [if_pos idle]
    refine ⟨fun fed done => ?_, fun d' rest' done => (nomatch done)⟩
    cases done
    have rests : Rests rules d (some m) held := ⟨step, fun _ => ⟨inFrame, idle.2⟩, fun wrong => by rw [framed] at wrong; cases wrong⟩
    refine quiet_meets rests (by omega) fun more => ?_
    unfold readingFrom frameLeft
    rw [if_pos framed, if_neg (by rw [data]; decide)]
  have checks : (d.messageText && !d.messageCompressed) = m.plain := by
    rw [carries.text, carries.compressed]
    rfl
  rw [if_neg idle, mask_unmasked, checks]
  generalize unmasked d.frame d.offset (rest.take (min d.remaining rest.length)) = piece at *
  have within : min d.remaining rest.length ≤ d.remaining := Nat.min_le_left _ _
  generalize min d.remaining rest.length = t at *
  have extended : m.content <+: m.content ++ piece := prefix_append _ _
  have begun : m.plain = true → Waits d.utf8 m.content := carries.waits
  cases fed : (if m.plain then wsUtf8Feed d.utf8 piece else .ok d.utf8 : Except ProvenErr (List Byte)) with
  | error err =>
    dsimp only
    refine ⟨fun fed' done => ?_, fun d' rest' done => (nomatch done)⟩
    cases done
    cases plain : m.plain with
    | false =>
      rw [plain, if_neg (by decide)] at fed
      cases fed
    | true =>
      rw [plain, if_pos rfl] at fed
      obtain ⟨rfl, bad⟩ := (utf8_feed_spec (begun plain) piece).2 err fed
      refine fail_meets .data fun more => ?_
      obtain ⟨m', longer, stopped⟩ := @data_turn_bad { m with content := m.content ++ piece } d.frame (d.offset + t) plain bad
        (rest.drop t ++ more)
      refine ⟨some m', extended.trans longer, ?_⟩
      rw [turned, stopped]
      rfl
  | ok utf8 =>
    have kept : m.plain = true → Waits utf8 (m.content ++ piece) := by
      intro plain
      rw [plain, if_pos rfl] at fed
      exact (utf8_feed_spec (begun plain) piece).1 utf8 fed
    have good : ¬ (m.plain = true ∧ ¬ Utf8Prefix (m.content ++ piece)) := fun ⟨plain, bad⟩ => bad (waits_begin (kept plain))
    have fits : rules.maxMessage ≠ 0 → (m.content ++ piece).length + (d.remaining - t) ≤ rules.maxMessage := by
      intro limited
      have room : m.content.length + d.remaining ≤ rules.maxMessage := inFrame.fits data limited
      rw [length_append]
      omega
    have bounded : rules.maxMessage ≠ 0 →
        (contentOf (some { m with content := m.content ++ piece })).length ≤ rules.maxMessage :=
      fun limited => le_trans (Nat.le_add_right _ _) (fits limited)
    dsimp only
    by_cases frameDone : d.remaining - t = 0
    · have ended := fun more => @data_turn_whole { m with content := m.content ++ piece } d.frame (d.offset + t) (by omega) good
        (rest.drop t ++ more)
      rw [decide_eq_true frameDone, Bool.true_and]
      cases fin : d.frame.fin with
      | true =>
        by_cases torn : m.plain = true ∧ utf8 ≠ []
        · rw [if_pos ⟨rfl, torn⟩]
          refine ⟨fun fed' done => ?_, fun d' rest' done => (nomatch done)⟩
          cases done
          refine fail_meets .data fun more => ⟨some { m with content := m.content ++ piece }, extended, ?_⟩
          have notText : m.plain = true ∧ ¬ Utf8Text (m.content ++ piece) :=
            ⟨torn.1, fun isText => torn.2 ((waits_text (kept torn.1)).mp isText)⟩
          rw [turned, (ended more).2.1 fin notText]
          rfl
        rw [if_neg (fun wrong => torn wrong.2), if_neg (fun wrong => wrong.2 rfl)]
        refine ⟨fun fed' done => ?_, fun d' rest' done => (nomatch done)⟩
        cases done
        have fine : ¬ (m.plain = true ∧ ¬ Utf8Text (m.content ++ piece)) := by
          rintro ⟨plain, notText⟩
          by_cases nothing : utf8 = []
          · exact notText ((waits_text (kept plain)).mpr nothing)
          · exact torn ⟨plain, nothing⟩
        have empty : rules.maxMessage ≠ 0 → (contentOf none).length ≤ rules.maxMessage := fun _ => Nat.zero_le _
        refine report_meets (rests_outside (in_step_piece step ⟨rfl, rfl, rfl, rfl, rfl⟩ (show Stands _ none none from ⟨rfl, rfl⟩)
          empty) rfl inFrame.gathered) (le_of_eq left) (assemble_piece carries true piece) fun more => ?_
        rw [turned, (ended more).2.2 fin fine]
        refine congrArg (WsReading.after · _) (reading_outside ?_ ?_ _).symm
        · rfl
        · exact inFrame.gathered
      | false =>
        rw [if_neg (fun wrong => Bool.false_ne_true wrong.1)]
        by_cases empty : t = 0
        · rw [if_pos ⟨empty, Bool.false_ne_true⟩]
          refine ⟨fun fed' done => (nomatch done), fun d' rest' done => ?_⟩
          cases done
          have nothing : piece = [] := length_eq_zero_iff.mp (pieceLength.trans empty)
          have same : ({ m with content := m.content ++ piece } : WsMessage) = m := by rw [nothing, append_nil]
          have bounded : rules.maxMessage ≠ 0 → (contentOf (some m)).length ≤ rules.maxMessage := step.bounded
          have size : d.messageSize + t = m.content.length := by rw [empty]; exact carries.size
          have waits : m.plain = true → Waits utf8 m.content := fun plain => by
            have later := kept plain
            rw [nothing, append_nil] at later
            exact later
          refine ⟨by rw [empty, drop_zero], by omega, rfl, rests_outside (in_step_piece step ⟨rfl, rfl, rfl, rfl, rfl⟩
            (show Stands _ (some m) held from { carries with size := size, waits := waits }) bounded) rfl inFrame.gathered,
            fun more => ?_⟩
          rw [turned, (ended more).1 fin, same]
          refine (reading_outside ?_ ?_ _).symm
          · rfl
          · exact inFrame.gathered
        rw [if_neg (fun wrong => empty wrong.1)]
        refine ⟨fun fed' done => ?_, fun d' rest' done => (nomatch done)⟩
        cases done
        refine report_meets (rests_outside (in_step_piece step ⟨rfl, rfl, rfl, rfl, rfl⟩ (show Stands _ (some _) (some _) from
          carries_piece carries carries.inside rfl rfl (by rw [pieceLength]) rfl rfl kept) bounded) rfl inFrame.gathered)
          (le_of_eq left) (assemble_piece carries false piece) fun more => ?_
        rw [turned, (ended more).1 fin]
        refine congrArg (WsReading.after · _) (reading_outside ?_ ?_ _).symm
        · rfl
        · exact inFrame.gathered
    rw [decide_eq_false frameDone, Bool.false_and, if_neg (fun wrong => Bool.false_ne_true wrong.1),
      if_neg (fun wrong => idle ⟨wrong.1, by omega⟩)]
    refine ⟨fun fed' done => ?_, fun d' rest' done => (nomatch done)⟩
    cases done
    have advanced : d.offset + t + (d.remaining - t) = d.frame.length := by omega
    have framed' : InFrame rules { d with remaining := d.remaining - t, offset := d.offset + t }
        (some { m with content := m.content ++ piece }) :=
      ⟨inFrame.gathered, notControl, fun _ => rfl, fun _ => advanced, fun _ limited => fits limited⟩
    refine report_meets ⟨in_step_piece step ⟨rfl, rfl, rfl, rfl, rfl⟩ (show Stands _ (some _) (some _) from
      carries_piece carries carries.inside rfl rfl (by rw [pieceLength]) rfl rfl kept) bounded,
      fun _ => ⟨{ framed' with }, Nat.pos_of_ne_zero frameDone⟩, fun wrong => ?_⟩ (le_of_eq left)
      (assemble_piece carries false piece) fun more => ?_
    · rw [show d.inFrame = false from wrong] at framed
      cases framed
    rw [turned]
    unfold readingFrom frameLeft
    dsimp only
    rw [if_pos (show (if false = true then false else d.inFrame) = true from framed), if_neg (by rw [data]; decide)]
    rfl

end ProvenC.Ws.Following

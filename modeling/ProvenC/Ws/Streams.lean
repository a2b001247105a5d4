import ProvenC.Ws.Following

/-!
# Whole streams

However a stream is cut into calls, the decoder says what the stream says.
-/

namespace ProvenC.Ws.Streams

open List Bytes Lib.Streaming Text.Prefixes Ws.Frame Ws.Header Ws.Reading
  ProvenC.Ws.Decoder ProvenC.Ws.Text ProvenC.Ws.Pieces ProvenC.Ws.Following

variable {rules : WsRules} {d : WsDecoder} {message held : Option WsMessage} {rest stream : List Byte} {fed : WsFed}
  {says_ : List Byte → WsReading} {bound : Nat}

theorem meets_wider {bound' : Nat} (meets : Meets rules message held says_ bound fed) (wider : bound ≤ bound') :
    Meets rules message held says_ bound' fed where
  failed := meets.failed
  fine := fun none_ => by
    obtain ⟨fine, inside, rest⟩ := meets.fine none_
    exact ⟨fine, le_trans inside wider, rest⟩

theorem meets_same {message' : Option WsMessage} {says' : List Byte → WsReading} (meets : Meets rules message' held says' bound fed)
    (content : contentOf message' = contentOf message) (same : ∀ more, says_ more = says' more) :
    Meets rules message held says_ bound fed where
  failed := by
    intro err failed
    rw [← content, funext same]
    exact meets.failed err failed
  fine := by
    intro none_
    rw [funext same]
    exact meets.fine none_

theorem reading_inside (framed : d.inFrame = true) (stream : List Byte) :
    readingFrom rules d message stream = onward rules (frameLeft d message stream) := if_pos framed

theorem frame_left_control (control : d.frame.opcode.control = true) (stream : List Byte) :
    frameLeft d message stream = controlTurn d.frame message d.control stream := if_pos control

theorem frame_left_data {m : WsMessage} (data : ¬ d.frame.opcode.control = true) (stream : List Byte) :
    frameLeft d (some m) stream = dataTurn d.frame m d.offset stream := if_neg data

theorem frame_spec (goes : WsDecoder → List Byte → WsFed) (rest : List Byte) (step : InStep rules d message held) (framed : d.inFrame = true)
    (inFrame : InFrame rules d message)
    (after : ∀ d' message', Rests rules d' message' held → d'.inFrame = false → d.remaining = 0 →
      Meets rules message' held (fun more => readingFrom rules d' message' (rest ++ more)) rest.length (goes d' rest)) :
    Meets rules message held (fun more => onward rules (frameLeft d message (rest ++ more)))
      (rest.length - min d.remaining rest.length) (if d.frame.opcode.control then wsControl d rest else
          match wsData d rest with
          | .error fed => fed
          | .ok (d', rest') => goes d' rest') := by
  by_cases control : d.frame.opcode.control = true
  · rw [if_pos control]
    refine meets_same (control_spec step framed inFrame control rest) rfl fun more => ?_
    rw [frame_left_control control]
  rw [if_neg control]
  have data := Bool.eq_false_iff.mpr control
  obtain ⟨m, rfl⟩ := Option.isSome_iff_exists.mp (inFrame.opened data)
  obtain ⟨stopped, went⟩ := data_spec step framed inFrame data rest
  cases fed : wsData d rest with
  | error fed' =>
    refine meets_same (stopped fed' fed) rfl fun more => ?_
    rw [frame_left_data control]
  | ok next =>
    obtain ⟨d', rest'⟩ := next
    obtain ⟨rfl, empty, outside, rests, onward_⟩ := went d' rest' fed
    have later := after d' (some m) rests outside empty
    rw [empty, Nat.zero_min, Nat.sub_zero]
    refine meets_same later rfl fun more => ?_
    rw [frame_left_data control, onward_]

theorem in_step_header (step : InStep rules d message held) (header : List Byte) (f : WsFrame) :
    InStep rules { d with header := header, frame := f } message held := by
  have stands : Stands { d with header := header, frame := f } message held := by
    cases message with
    | none => exact step.stands
    | some m =>
      have carries : Carries d m held := step.stands
      exact { carries with }
  exact { step with stands := stands }

theorem loop_spec (rules : WsRules) : ∀ left {d : WsDecoder} {message held : Option WsMessage} {rest : List Byte},
    Rests rules d message held → rest.length < left →
    Meets rules message held (fun more => readingFrom rules d message (rest ++ more)) (rest.length - 1) (wsLoop left d rest) := by
  intro left
  induction left with
  | zero => exact fun _ enough => absurd enough (Nat.not_lt_zero _)
  | succ left ih =>
    intro d message held rest rests enough
    rw [wsLoop]
    unfold wsEnter
    cases framed : d.inFrame with
    | true =>
      obtain ⟨inFrame, more⟩ := rests.framed framed
      rw [if_pos rfl]
      dsimp only
      have round := frame_spec (wsLoop left) rest rests.step framed inFrame
        (fun _ _ _ _ empty => absurd more (by omega))
      refine meets_same (meets_wider round ?_) rfl fun more => reading_inside framed _
      by_cases nothing : rest.length = 0
      · omega
      · omega
    | false =>
      rw [if_neg (by decide)]
      have fromHeader : ∀ more, readingFrom rules d message (rest ++ more) =
          onward rules (headTurn rules message (d.header ++ rest ++ more)) := by
        intro more
        unfold readingFrom
        rw [framed, if_neg (by decide), reading_turn, append_assoc]
      obtain ⟨stopped, found⟩ := gather_spec rest (rests.between framed)
      cases gathered : wsGather d rest with
      | error fed =>
        dsimp only
        rcases stopped fed gathered with ⟨rfl, waits⟩ | ⟨⟨d', rest', rfl⟩, refused⟩
        · have still : Rests rules { d with header := d.header ++ rest } message held :=
            { step := in_step_header rests.step _ d.frame
              framed := fun wrong => absurd (framed.symm.trans wrong) Bool.false_ne_true
              between := fun _ => waits }
          refine quiet_meets still (Nat.zero_le _) fun more => ?_
          unfold readingFrom
          dsimp only
          rw [framed, if_neg (by decide), if_neg (by decide), append_assoc, nil_append]
        refine fail_meets .protocol fun more => ⟨message, prefix_refl _, ?_⟩
        rw [fromHeader, refused rules message more rests.step.compression.symm]
        rfl
      | ok next =>
        obtain ⟨d', rest'⟩ := next
        obtain ⟨header, f, rfl, shorter, reads⟩ := found d' rest' gathered
        dsimp only
        have agreed : d.allowCompressed = false → f.rsv1 = false := by
          intro disagreed
          obtain ⟨headed, bit⟩ := reads []
          rw [← heads_reserved (head_at_iff.mp headed)]
          exact bit disagreed
        have turned : ∀ more, headTurn rules message (d.header ++ rest ++ more) = frameTurn rules message f (rest' ++ more) := by
          intro more
          obtain ⟨headed, bit⟩ := reads more
          unfold headTurn
          rw [if_neg, headed]
          rintro ⟨disagreed, set_⟩
          rw [bit (rests.step.compression.trans disagreed)] at set_
          cases set_
        obtain ⟨refused, entered⟩ := header_spec (in_step_header rests.step header f) agreed rest'
        cases checked : wsHeader { d with header := header, frame := f } rest' with
        | error fed =>
          obtain ⟨d', fault, rfl, failing_⟩ := refused fed checked
          dsimp only
          refine fail_meets fault fun more => ⟨message, prefix_refl _, ?_⟩
          rw [fromHeader, turned, failing_]
          rfl
        | ok d' =>
          obtain ⟨inside, message', step', inFrame', content, goes⟩ := entered d' checked
          dsimp only
          have round := frame_spec (wsLoop left) rest' step' inside inFrame' fun d'' message'' rests'' outside _ =>
            meets_wider (ih rests'' (by omega)) (Nat.sub_le _ _)
          refine meets_same (meets_wider round (by omega)) content fun more => ?_
          rw [fromHeader, turned, goes]

theorem gather_suffix (input : List Byte) : ∀ d : WsDecoder, (∀ fed, wsGather d input = .error fed → fed.rest <:+ input) ∧
    (∀ d' rest, wsGather d input = .ok (d', rest) → rest <:+ input) := by
  induction input with
  | nil =>
    intro d
    rw [wsGather]
    refine ⟨fun fed done => ?_, fun d' rest done => (by cases done)⟩
    cases done
    exact suffix_refl _
  | cons b input ih =>
    intro d
    have later : input <:+ b :: input := suffix_cons b input
    rw [wsGather]
    split_ifs
    · refine ⟨fun fed done => ?_, fun d' rest done => (by cases done)⟩
      cases done
      exact later
    split
    · refine ⟨fun fed done => (by cases done), fun d' rest done => ?_⟩
      cases done
      exact later
    · obtain ⟨stopped, found⟩ := ih { d with header := d.header ++ [b] }
      exact ⟨fun fed done => (stopped fed done).trans later, fun d' rest done => (found d' rest done).trans later⟩
    refine ⟨fun fed done => ?_, fun d' rest done => (by cases done)⟩
    cases done
    exact later

theorem header_rest (d : WsDecoder) (rest : List Byte) (refused : wsHeader d rest = .error fed) : fed.rest = rest := by
  unfold wsHeader at refused
  dsimp only at refused
  split_ifs at refused <;> cases refused <;> rfl

theorem control_suffix (d : WsDecoder) (rest : List Byte) : (wsControl d rest).rest <:+ rest := by
  unfold wsControl
  dsimp only
  rw [mask_unmasked]
  split
  · exact drop_suffix _ _
  split
  · split <;> exact drop_suffix _ _
  · exact drop_suffix _ _
  · exact drop_suffix _ _

theorem data_suffix (d : WsDecoder) (rest : List Byte) :
    (∀ fed, wsData d rest = .error fed → fed.rest <:+ rest) ∧ (∀ d' rest', wsData d rest = .ok (d', rest') → rest' <:+ rest) := by
  have dropped : rest.drop (min d.remaining rest.length) <:+ rest := drop_suffix _ _
  unfold wsData
  dsimp only
  by_cases idle : min d.remaining rest.length = 0 ∧ 0 < d.remaining
  · rw [if_pos idle]
    refine ⟨fun fed done => ?_, fun d' rest done => (nomatch done)⟩
    cases done
    exact suffix_refl _
  rw [if_neg idle, mask_unmasked]
  split
  · refine ⟨fun fed done => ?_, fun d' rest done => (nomatch done)⟩
    cases done
    exact dropped
  rename_i utf8 _
  by_cases torn : (decide (d.remaining - min d.remaining rest.length = 0) && d.frame.fin) = true ∧
      (d.messageText && !d.messageCompressed) = true ∧ utf8 ≠ []
  · rw [if_pos torn]
    refine ⟨fun fed done => ?_, fun d' rest done => (nomatch done)⟩
    cases done
    exact dropped
  rw [if_neg torn]
  by_cases empty : min d.remaining rest.length = 0 ∧
      ¬ (decide (d.remaining - min d.remaining rest.length = 0) && d.frame.fin) = true
  · rw [if_pos empty]
    refine ⟨fun fed done => (nomatch done), fun d' rest done => ?_⟩
    cases done
    exact dropped
  rw [if_neg empty]
  refine ⟨fun fed done => ?_, fun d' rest done => (nomatch done)⟩
  cases done
  exact dropped

theorem loop_suffix : ∀ left (d : WsDecoder) (rest : List Byte), (wsLoop left d rest).rest <:+ rest := by
  intro left
  induction left with
  | zero => exact fun _ rest => suffix_refl rest
  | succ left ih =>
    intro d rest
    have inside : ∀ (d : WsDecoder) (rest' : List Byte), rest' <:+ rest →
        (if d.frame.opcode.control then wsControl d rest'
          else match wsData d rest' with | .error fed => fed | .ok (d', rest'') => wsLoop left d' rest'').rest <:+ rest := by
      intro d rest' ends
      split_ifs
      · exact (control_suffix d rest').trans ends
      obtain ⟨stopped, went⟩ := data_suffix d rest'
      cases fed : wsData d rest' with
      | error fed' => exact (stopped fed' fed).trans ends
      | ok next =>
        obtain ⟨d', rest''⟩ := next
        exact (ih d' rest'').trans ((went d' rest'' fed).trans ends)
    rw [wsLoop]
    unfold wsEnter
    by_cases framed : d.inFrame = true
    · rw [if_pos framed]
      exact inside d rest (suffix_refl rest)
    rw [if_neg framed]
    obtain ⟨stopped, found⟩ := gather_suffix rest d
    cases gathered : wsGather d rest with
    | error fed => exact stopped fed gathered
    | ok next =>
      obtain ⟨d', rest'⟩ := next
      have ends := found d' rest' gathered
      dsimp only
      cases checked : wsHeader d' rest' with
      | error fed =>
        dsimp only
        rw [header_rest d' rest' checked]
        exact ends
      | ok d'' => exact inside d'' rest' ends

theorem feed_spec (rests : Rests rules d message held) (input : List Byte) :
    Meets rules message held (fun more => readingFrom rules d message (input ++ more)) (input.length - 1)
      (wsLoop (input.length + 1) d input) ∧ wsDecoderFeed d input =
      { err := (wsLoop (input.length + 1) d input).err
        ended := (wsLoop (input.length + 1) d input).err.isNone && (wsLoop (input.length + 1) d input).state.closed
        state := (wsLoop (input.length + 1) d input).state
        items := (wsLoop (input.length + 1) d input).event.toList
        used := input.length - (wsLoop (input.length + 1) d input).rest.length } := by
  refine ⟨loop_spec rules _ rests (Nat.lt_succ_self _), ?_⟩
  unfold wsDecoderFeed
  rw [rests.step.fine, rests.step.opened, if_neg (by decide), if_neg (by decide)]

theorem reading_rests (rests : Rests rules d message held) :
    ∃ message', contentOf message' = contentOf message ∧ readingFrom rules d message [] = waiting message' := by
  cases framed : d.inFrame with
  | false =>
    obtain ⟨more, agreed⟩ := rests.between framed
    refine ⟨message, rfl, ?_⟩
    have notHead : headAt d.header = none := by
      cases found : headAt d.header with
      | none => rfl
      | some head =>
        obtain ⟨n, parsed, _⟩ := parse_heads (head_at_iff.mp found)
        rw [more] at parsed
        cases parsed
    unfold readingFrom
    rw [framed, if_neg (by decide), reading_turn, append_nil]
    unfold headTurn
    rw [if_neg, notHead]
    · dsimp only
      rw [if_pos (begun_of_parse more)]
      rfl
    rintro ⟨disagreed, set_⟩
    rw [agreed (rests.step.compression.trans disagreed)] at set_
    cases set_
  | true =>
    obtain ⟨inFrame, left⟩ := rests.framed framed
    rw [reading_inside framed]
    by_cases control : d.frame.opcode.control = true
    · have part := inFrame.control control
      refine ⟨message, rfl, ?_⟩
      rw [frame_left_control control]
      unfold controlTurn
      rw [length_nil, if_pos (by omega)]
      rfl
    have data := Bool.eq_false_iff.mpr control
    obtain ⟨m, rfl⟩ := Option.isSome_iff_exists.mp (inFrame.opened data)
    have carries : Carries d m held := rests.step.stands
    have part := inFrame.data data
    refine ⟨some m, rfl, ?_⟩
    rw [frame_left_data control]
    unfold dataTurn
    rw [take_nil, unmasked_nil, append_nil, length_nil]
    rw [if_neg (fun wrong => wrong.2 (waits_begin (carries.waits wrong.1))), if_pos (by omega)]
    rfl

structure Says (reading : WsReading) (held : Option WsMessage) (ran : Ran WsDecoder WsEvent ProvenErr) : Prop where
  assembled : ∃ held', assembleAll held ran.items = some (reading.happenings, held') ∧
    contentOf held' <+: contentOf reading.message ∧ (ran.err = none → contentOf held' = contentOf reading.message)
  err : ran.err = reading.fault.map faultErr
  closed : ran.ended = reading.closed
  failed : ran.err ≠ none → ran.state.failed = ran.err
  finished : ran.ended = true → ran.state.failed = none ∧ ran.state.closed = true

theorem calls_say (rules : WsRules) (offers : List Nat) :
    ∀ {d : WsDecoder} {message held : Option WsMessage} {stream : List Byte} {ran : Ran WsDecoder WsEvent ProvenErr},
      Rests rules d message held → calls wsDecoderFeed d stream offers = some ran →
      Says (readingFrom rules d message stream) held ran := by
  have nothing : ∀ {d : WsDecoder} {message held : Option WsMessage} {ran : Ran WsDecoder WsEvent ProvenErr},
      Rests rules d message held → ran = { err := none, ended := false, state := d, items := [], used := 0 } →
      Says (readingFrom rules d message []) held ran := by
    intro d message held ran rests same
    obtain ⟨message', content, waits⟩ := reading_rests rests
    subst same
    rw [waits]
    have held_ : contentOf held = contentOf message' := (stands_content rests.step.stands).trans content.symm
    exact ⟨⟨held, rfl, by rw [held_]; exact prefix_refl _, fun _ => held_⟩, rfl, rfl, fun wrong => absurd rfl wrong,
      fun wrong => absurd wrong Bool.false_ne_true⟩
  induction offers with
  | nil =>
    intro d message held stream ran rests called
    rw [calls] at called
    by_cases empty : stream = []
    · rw [if_pos empty] at called
      rw [empty]
      exact nothing rests (Option.some.inj called).symm
    rw [if_neg empty] at called
    cases called
  | cons offer offers ih =>
    intro d message held stream ran rests called
    rw [calls] at called
    by_cases empty : stream = []
    · rw [if_pos empty] at called
      rw [empty]
      exact nothing rests (Option.some.inj called).symm
    rw [if_neg empty] at called
    dsimp only at called
    obtain ⟨meets, fed⟩ := feed_spec rests (stream.take offer)
    have whole : stream.take offer ++ stream.drop offer = stream := take_append_drop offer stream
    have ends := loop_suffix ((stream.take offer).length + 1) d (stream.take offer)
    generalize wsLoop ((stream.take offer).length + 1) d (stream.take offer) = result at meets fed ends
    rw [fed] at called
    dsimp only at called
    cases failed : result.err with
    | some err =>
      rw [failed, Option.isSome_some, if_pos (Or.inl rfl)] at called
      obtain rfl := (Option.some.inj called).symm
      obtain ⟨event, state, fault, rfl, failing_⟩ := meets.failed err failed
      obtain ⟨message', longer, says_⟩ := failing_ (stream.drop offer)
      rw [whole] at says_
      rw [says_]
      refine ⟨⟨held, ?_, ?_, fun wrong => (by cases wrong)⟩, rfl, rfl, fun _ => state, fun wrong => (by cases wrong)⟩
      · rw [event]
        rfl
      rw [stands_content rests.step.stands]
      exact longer
    | none =>
      obtain ⟨fine, inside, happenings, held', assembled, closing_, going⟩ := meets.fine failed
      rw [failed] at called
      cases closed : result.state.closed with
      | true =>
        rw [closed, Option.isNone_none, Bool.true_and, if_pos (Or.inr rfl)] at called
        obtain rfl := (Option.some.inj called).symm
        obtain ⟨message', content, says_⟩ := closing_ closed
        have here := says_ (stream.drop offer)
        rw [whole] at here
        rw [here]
        exact ⟨⟨held', assembled, by rw [content], fun _ => content⟩, rfl, rfl,
          fun wrong => absurd rfl wrong, fun _ => ⟨fine, closed⟩⟩
      | false =>
        rw [closed, Bool.and_false, if_neg (fun wrong => wrong.elim (fun yes => by cases yes) (fun yes => by cases yes))] at called
        obtain ⟨later, laterCalled, rfl⟩ := Option.map_eq_some_iff.mp called
        obtain ⟨message', rests', says_⟩ := going closed
        have split : stream.drop ((stream.take offer).length - result.rest.length) = result.rest ++ stream.drop offer := by
          obtain ⟨front, cut⟩ := ends
          have sizes := congrArg List.length cut
          rw [length_append] at sizes
          have place : (stream.take offer).length - result.rest.length = front.length := by omega
          have joined : stream = front ++ (result.rest ++ stream.drop offer) := by
            rw [← append_assoc, cut, whole]
          rw [place]
          exact (congrArg (List.drop front.length) joined).trans drop_left
        rw [split] at laterCalled
        have rest := ih rests' laterCalled
        have here := says_ (stream.drop offer)
        rw [whole] at here
        rw [here]
        obtain ⟨⟨held'', laterAssembled, longer, whole'⟩, err, ended, stays, over_⟩ := rest
        exact ⟨⟨held'', assemble_append assembled laterAssembled, longer, whole'⟩, err, ended, stays, over_⟩

theorem calls_finish (rules : WsRules) (offers : List Nat) :
    ∀ {d : WsDecoder} {message held : Option WsMessage} {stream : List Byte}, Rests rules d message held →
      (∀ offer ∈ offers, 0 < offer) → stream.length ≤ offers.length → ∃ ran, calls wsDecoderFeed d stream offers = some ran := by
  induction offers with
  | nil =>
    intro d message held stream _ _ enough
    rw [calls, if_pos (length_eq_zero_iff.mp (Nat.le_zero.mp enough))]
    exact ⟨_, rfl⟩
  | cons offer offers ih =>
    intro d message held stream rests positive enough
    rw [calls]
    by_cases empty : stream = []
    · rw [if_pos empty]
      exact ⟨_, rfl⟩
    rw [if_neg empty]
    obtain ⟨meets, fed⟩ := feed_spec rests (stream.take offer)
    generalize wsLoop ((stream.take offer).length + 1) d (stream.take offer) = result at meets fed
    rw [fed]
    by_cases stopped : result.err.isSome = true ∨ (result.err.isNone && result.state.closed) = true
    · rw [if_pos stopped]
      exact ⟨_, rfl⟩
    rw [if_neg stopped]
    have failed : result.err = none := Option.not_isSome_iff_eq_none.mp fun some_ => stopped (Or.inl some_)
    obtain ⟨_, inside, _, held', _, _, going⟩ := meets.fine failed
    have opened : result.state.closed = false := by
      rw [failed, Option.isNone_none, Bool.true_and] at stopped
      exact Bool.eq_false_iff.mpr fun closed => stopped (Or.inr closed)
    obtain ⟨message', rests', _⟩ := going opened
    have offered := positive offer mem_cons_self
    have some_ := length_pos_iff.mpr empty
    rw [length_cons] at enough
    rw [length_take] at inside
    obtain ⟨ran, called⟩ := @ih _ _ _ (stream.drop ((stream.take offer).length - result.rest.length)) rests'
      (fun other among => positive other (mem_cons_of_mem offer among))
      (by rw [length_drop, length_take]; omega)
    rw [called]
    exact ⟨_, rfl⟩

def decoderOf (rules : WsRules) : WsDecoder :=
  if rules.compression then wsDecoderAllowCompressed (wsDecoderInit rules.masked rules.maxMessage)
  else wsDecoderInit rules.masked rules.maxMessage

theorem decoder_rests (rules : WsRules) : Rests rules (decoderOf rules) none none := by
  have outside : (decoderOf rules).inFrame = false ∧ (decoderOf rules).header = [] := by
    unfold decoderOf
    split <;> exact ⟨rfl, rfl⟩
  refine rests_outside ?_ outside.1 outside.2
  unfold decoderOf
  split
  next agreed =>
    exact ⟨rfl, agreed.symm, rfl, rfl, rfl, ⟨rfl, rfl⟩, fun _ => Nat.zero_le _⟩
  rename_i disagreed
  exact ⟨rfl, (Bool.eq_false_iff.mpr disagreed).symm, rfl, rfl, rfl, ⟨rfl, rfl⟩, fun _ => Nat.zero_le _⟩

theorem fault_code (fault : WsFault) : wsCloseCodeFor (faultErr fault) = fault.code := by
  cases fault <;> rfl

/-- Cut anywhere, a stream is decoded to what it says: the same messages and control frames in the same
order, the same close, the same error after the same bytes and with the same close code. -/
theorem stream_decoded (rules : WsRules) (stream : List Byte) :
    (∀ offers, (∀ offer ∈ offers, 0 < offer) → stream.length ≤ offers.length →
      ∃ ran, calls wsDecoderFeed (decoderOf rules) stream offers = some ran) ∧
    ∀ offers ran, calls wsDecoderFeed (decoderOf rules) stream offers = some ran →
      (∃ held, assembleAll none ran.items = some ((reading rules none stream).happenings, held) ∧
        contentOf held <+: contentOf (reading rules none stream).message ∧
        (ran.err = none → contentOf held = contentOf (reading rules none stream).message)) ∧
      ran.ended = (reading rules none stream).closed ∧ ran.err = (reading rules none stream).fault.map faultErr ∧
      ran.err.map wsCloseCodeFor = (reading rules none stream).fault.map WsFault.code ∧
      (ran.err ≠ none → ∀ more, wsDecoderFeed ran.state more =
        { err := ran.err, ended := false, state := ran.state, items := [], used := 0 }) ∧
      (ran.ended = true → ∀ more, wsDecoderFeed ran.state more =
        { err := if more = [] then none else some .eof, ended := true, state := ran.state, items := [], used := 0 }) := by
  refine ⟨fun offers positive enough => calls_finish rules offers (decoder_rests rules) positive enough, ?_⟩
  intro offers ran called
  have says_ := calls_say rules offers (decoder_rests rules) called
  have whole : readingFrom rules (decoderOf rules) none stream = reading rules none stream := by
    refine reading_outside ?_ ?_ stream <;> unfold decoderOf <;> split <;> rfl
  rw [whole] at says_
  refine ⟨says_.assembled, says_.closed, says_.err, ?_, ?_, ?_⟩
  · rw [says_.err, Option.map_map]
    exact congrFun (congrArg Option.map (funext fault_code)) _
  · intro failed more
    have kept := says_.failed failed
    unfold wsDecoderFeed
    rw [kept, if_pos (Option.isSome_iff_ne_none.mpr failed)]
  intro ended more
  obtain ⟨fine, closed⟩ := says_.finished ended
  unfold wsDecoderFeed
  rw [fine, closed, if_neg (by decide), if_pos rfl]

/-- A fragmented text with a ping inside, in three calls that cut a header, a payload and a frame. -/
theorem stream_decoded_fragments : (reading { masked := false, compression := false, maxMessage := 0 } none
      [0x01, 0x02, 0x48, 0xC3, 0x89, 0x00, 0x80, 0x01, 0xA9]).happenings =
      [.ping [], .message { text := true, compressed := false, content := [0x48, 0xC3, 0xA9] }] := by
  obtain ⟨_, decoded⟩ := stream_decoded { masked := false, compression := false, maxMessage := 0 }
    [0x01, 0x02, 0x48, 0xC3, 0x89, 0x00, 0x80, 0x01, 0xA9]
  obtain ⟨ran, called, assembled⟩ : ∃ ran, calls wsDecoderFeed (decoderOf { masked := false, compression := false, maxMessage := 0 })
      [0x01, 0x02, 0x48, 0xC3, 0x89, 0x00, 0x80, 0x01, 0xA9] [1, 2, 2, 9, 9, 9] = some ran ∧
      assembleAll none ran.items =
        some ([.ping [], .message { text := true, compressed := false, content := [0x48, 0xC3, 0xA9] }], none) := ⟨_, rfl, by decide⟩
  obtain ⟨⟨held, same, _⟩, _⟩ := decoded _ ran called
  rw [assembled] at same
  exact (Prod.ext_iff.mp (Option.some.inj same)).1.symm

end ProvenC.Ws.Streams

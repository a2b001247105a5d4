import ProvenC.Http.Body

/-!
# A body in pieces

A call of the decoder does what a byte-by-byte decoder does with the bytes it consumed, so that the
pieces a body arrives in do not matter.
-/

namespace ProvenC.Http.Feeding

open List Bytes Http.Head Http.Body Lib.Streaming

def bodyByte (body : HttpBody) (c : Byte) : Reaction HttpBody Byte ProvenErr :=
  if body.kind = .untilClose then
    if body.maxBody - body.total < 1 then .failed { body with state := .failed } .outOfBounds
    else .on { body with total := body.total + 1 } [c]
  else if body.state = .data then
    let taken := { body with remaining := body.remaining - 1, total := body.total + 1 }
    if taken.remaining = 0 then
      if taken.kind = .length then .ended { taken with done := true } [c] else .on { taken with state := .dataCr } [c]
    else .on taken [c]
  else
    match bodyTurn body c with
    | .failed body err => .failed { body with state := .failed } err
    | .ended body => .ended body []
    | .on body | .count body => .on body []

structure Midway (body : HttpBody) : Prop where
  going : body.done = false
  fine : body.state ≠ .failed
  bounded : body.kind = .untilClose → body.total ≤ body.maxBody ∧ body.state = .data
  some_ : body.kind ≠ .untilClose → body.state = .data → 0 < body.remaining

theorem run_until_close (body : HttpBody) (kind : body.kind = .untilClose) (input : List Byte)
    (room : body.total + input.length ≤ body.maxBody) : run bodyByte body input =
      { err := none, ended := false, state := { body with total := body.total + input.length }, items := input
        used := input.length } := by
  induction input generalizing body with
  | nil => rfl
  | cons c rest ih =>
    rw [length_cons] at room
    have one : bodyByte body c = .on { body with total := body.total + 1 } [c] := by
      unfold bodyByte
      rw [if_pos kind, if_neg (by omega)]
    rw [run, one]
    dsimp only
    rw [ih { body with total := body.total + 1 } kind (by dsimp only; omega)]
    unfold Ran.after
    dsimp only
    rw [length_cons, add_assoc, add_comm 1]
    rfl

theorem run_past_limit (body : HttpBody) (kind : body.kind = .untilClose) (bounded : body.total ≤ body.maxBody)
    (input : List Byte) (past : body.maxBody < body.total + input.length) :
    (run bodyByte body input).err = some .outOfBounds ∧
      (run bodyByte body input).items = input.take (body.maxBody - body.total) := by
  induction input generalizing body with
  | nil => exact absurd bounded (not_le.mpr past)
  | cons c rest ih =>
    rw [length_cons] at past
    rw [run]
    by_cases full : body.maxBody - body.total < 1
    · have one : bodyByte body c = .failed { body with state := .failed } .outOfBounds := by
        unfold bodyByte
        rw [if_pos kind, if_pos full]
      have none_ : body.maxBody - body.total = 0 := by omega
      rw [one, none_]
      exact ⟨rfl, rfl⟩
    have one : bodyByte body c = .on { body with total := body.total + 1 } [c] := by
      unfold bodyByte
      rw [if_pos kind, if_neg full]
    obtain ⟨failed, items⟩ := ih { body with total := body.total + 1 } kind (by dsimp only; omega)
      (by dsimp only; omega)
    rw [one]
    unfold Ran.after
    dsimp only at items ⊢
    obtain ⟨left, some_⟩ := Nat.exists_eq_add_of_lt (not_lt.mp full)
    have fewer : body.maxBody - (body.total + 1) = left := by omega
    have more : body.maxBody - body.total = left + 1 := by omega
    rw [failed, items, fewer, more]
    exact ⟨rfl, rfl⟩

theorem run_data_inside (body : HttpBody) (kind : body.kind ≠ .untilClose) (state : body.state = .data)
    (input : List Byte) (inside : input.length < body.remaining) : run bodyByte body input =
      { err := none, ended := false
        state := { body with remaining := body.remaining - input.length, total := body.total + input.length }
        items := input, used := input.length } := by
  induction input generalizing body with
  | nil => rfl
  | cons c rest ih =>
    rw [length_cons] at inside
    have one : bodyByte body c = .on { body with remaining := body.remaining - 1, total := body.total + 1 } [c] := by
      unfold bodyByte
      rw [if_neg kind, if_pos state]
      dsimp only
      rw [if_neg (by omega)]
    rw [run, one]
    dsimp only
    rw [ih { body with remaining := body.remaining - 1, total := body.total + 1 } kind state (by dsimp only; omega)]
    unfold Ran.after
    dsimp only
    rw [length_cons, Nat.sub_sub, add_assoc, add_comm 1]
    rfl

def dataEnd (body : HttpBody) (items : List Byte) (used : Nat) : Ran HttpBody Byte ProvenErr :=
  if body.kind = .length then
    { err := none, ended := true
      state := { body with remaining := 0, total := body.total + used, done := true }, items := items, used := used }
  else
    { err := none, ended := false
      state := { body with remaining := 0, total := body.total + used, state := .dataCr }, items := items, used := used }

theorem run_data_whole (body : HttpBody) (kind : body.kind ≠ .untilClose) (state : body.state = .data)
    (input : List Byte) (some_ : input ≠ []) (whole : input.length = body.remaining) :
    run bodyByte body input = dataEnd body input input.length := by
  obtain ⟨front, last, rfl⟩ := (eq_nil_or_concat input).resolve_left some_
  rw [concat_eq_append, length_append, length_singleton] at whole ⊢
  have before := run_data_inside body kind state front (by omega)
  rw [run_append bodyByte [last] (by rw [before]) (by rw [before]), before]
  have one : bodyByte { body with remaining := body.remaining - front.length, total := body.total + front.length } last =
      if body.kind = .length then
        .ended { body with remaining := 0, total := body.total + (front.length + 1), done := true } [last]
      else .on { body with remaining := 0, total := body.total + (front.length + 1), state := .dataCr } [last] := by
    unfold bodyByte
    have left : body.remaining - front.length - 1 = 0 := by omega
    rw [if_neg kind, if_pos state, if_pos left, left]
    rfl
  rw [run, one]
  unfold dataEnd
  by_cases length : body.kind = .length
  · rw [if_pos length, if_pos length]
    rfl
  rw [if_neg length, if_neg length]
  rfl

variable {body : HttpBody}

theorem body_byte_framing (kind : body.kind ≠ .untilClose) (state : body.state ≠ .data) (c : Byte) : bodyByte body c =
      match bodyTurn body c with
      | .failed body err => .failed { body with state := .failed } err
      | .ended body => .ended body []
      | .on body | .count body => .on body [] := by
  unfold bodyByte
  rw [if_neg kind, if_neg state]

structure Onward (body next : HttpBody) : Prop where
  kind : next.kind = body.kind
  going : next.done = body.done
  fine : next.state ≠ .failed
  some_ : next.state = .data → 0 < next.remaining

theorem switch_onward {next : HttpBody} {c : Byte} (turned : bodySwitch body c = .count next ∨ bodySwitch body c = .on next) :
    Onward body next := by
  obtain ⟨kind, state, sizeDigits, done, remaining, total, maxBody, lineBytes, trailerCap, trailers⟩ := body
  cases state with
  | data | failed => rcases turned with wrong | wrong <;> cases wrong
  | size =>
    unfold bodySwitch at turned
    dsimp only at turned
    cases hex : httpHex c with
    | some d =>
      rw [hex] at turned
      dsimp only at turned
      split_ifs at turned <;> rcases turned with found | found <;> cases found
      exact ⟨rfl, rfl, nofun, nofun⟩
    | none =>
      rw [hex] at turned
      dsimp only at turned
      split_ifs at turned <;> rcases turned with found | found <;> cases found <;> exact ⟨rfl, rfl, nofun, nofun⟩
  | sizeLf =>
    unfold bodySwitch at turned
    dsimp only at turned
    split_ifs at turned with line last room <;> rcases turned with found | found <;> cases found
    · exact ⟨rfl, rfl, nofun, nofun⟩
    · exact ⟨rfl, rfl, nofun, fun _ => Nat.pos_of_ne_zero last⟩
  | ext | dataCr | dataLf | trailerStart | trailerName | trailerValue | trailerLf | finalLf =>
    unfold bodySwitch at turned
    dsimp only at turned
    split_ifs at turned <;> rcases turned with found | found <;> cases found <;> exact ⟨rfl, rfl, nofun, nofun⟩

theorem keep_byte_same {kept : HttpBody} {c : Byte} (found : keepByte body c = some kept) :
    kept = { body with trailers := kept.trailers } := by
  unfold keepByte at found
  cases buffer : body.trailers with
  | none =>
    rw [buffer] at found
    cases found
    rfl
  | some buf =>
    rw [buffer] at found
    dsimp only at found
    split_ifs at found <;> cases found <;> rfl

theorem turn_onward {next : HttpBody} {c : Byte} (turned : bodyTurn body c = .count next ∨ bodyTurn body c = .on next) :
    Onward body next := by
  unfold bodyTurn at turned
  cases kept : keepByte body c with
  | none =>
    rw [kept] at turned
    rcases turned with wrong | wrong <;> cases wrong
  | some after =>
    have same := keep_byte_same kept
    have keeps : ∀ {other : HttpBody}, Onward after other → Onward body other := by
      intro other onward
      refine ⟨?_, ?_, onward.fine, onward.some_⟩
      · rw [onward.kind, same]
      · rw [onward.going, same]
    rw [kept] at turned
    dsimp only at turned
    cases switched : bodySwitch after c with
    | failed body err =>
      rw [switched] at turned
      rcases turned with wrong | wrong <;> cases wrong
    | ended body =>
      rw [switched] at turned
      rcases turned with wrong | wrong <;> cases wrong
    | on other =>
      rw [switched] at turned
      rcases turned with wrong | found
      · cases wrong
      · cases found
        exact keeps (switch_onward (Or.inr switched))
    | count other =>
      have onward := switch_onward (Or.inl switched)
      rw [switched] at turned
      dsimp only [countByte] at turned
      split_ifs at turned <;> rcases turned with found | found <;> cases found
      all_goals exact keeps ⟨onward.kind, onward.going, onward.fine, onward.some_⟩

theorem onward_midway {next : HttpBody} (midway : Midway body) (kind : body.kind ≠ .untilClose) (onward : Onward body next) :
    Midway next :=
  ⟨onward.going.trans midway.going, onward.fine, fun wrong => absurd (onward.kind ▸ wrong) kind, fun _ => onward.some_⟩

theorem loop_data (midway : Midway body) (kind : body.kind ≠ .untilClose) (state : body.state = .data)
    (i : Nat) (input : List Byte) (some_ : input ≠ []) :
    ∃ take, 0 < take ∧ take ≤ input.length ∧ (run bodyByte body (input.take take)).err = none ∧
      bodyLoop body i input = { run bodyByte body (input.take take) with used := i + take } ∧
      (run bodyByte body (input.take take)).used = take ∧
      ((run bodyByte body (input.take take)).ended = false → Midway (run bodyByte body (input.take take)).state) := by
  obtain ⟨c, rest, rfl⟩ := exists_cons_of_ne_nil some_
  have positive := midway.some_ kind state
  rw [bodyLoop, if_pos state]
  dsimp only
  by_cases longer : body.remaining < (c :: rest).length
  · have long : ((c :: rest).take body.remaining).length = body.remaining := by
      rw [length_take, min_eq_left (le_of_lt longer)]
    have nonempty : (c :: rest).take body.remaining ≠ [] := by
      intro nothing
      rw [nothing] at long
      exact absurd long.symm (ne_of_gt positive)
    have ran := run_data_whole body kind state _ nonempty long
    rw [long] at ran
    refine ⟨body.remaining, positive, le_of_lt longer, ?_⟩
    rw [ran, if_pos longer, Nat.sub_self]
    unfold dataEnd
    by_cases length : body.kind = .length
    · rw [if_pos length, if_pos rfl, if_pos length]
      exact ⟨rfl, rfl, rfl, nofun⟩
    rw [if_neg length, if_pos rfl, if_neg length]
    exact ⟨rfl, rfl, rfl, fun _ => ⟨midway.going, nofun, fun wrong => absurd wrong kind, nofun⟩⟩
  have all : (c :: rest).take (c :: rest).length = c :: rest := take_length
  refine ⟨(c :: rest).length, Nat.succ_pos _, le_refl _, ?_⟩
  rw [all, if_neg longer, all]
  by_cases whole : body.remaining - (c :: rest).length = 0
  · have same : (c :: rest).length = body.remaining := by omega
    rw [run_data_whole body kind state _ some_ same, if_pos whole, whole]
    unfold dataEnd
    by_cases length : body.kind = .length
    · rw [if_pos length, if_pos length]
      exact ⟨rfl, rfl, rfl, nofun⟩
    rw [if_neg length, if_neg length]
    exact ⟨rfl, rfl, rfl, fun _ => ⟨midway.going, nofun, fun wrong => absurd wrong kind, nofun⟩⟩
  rw [run_data_inside body kind state _ (by omega), if_neg whole]
  exact ⟨rfl, rfl, rfl, fun _ => ⟨midway.going, midway.fine, fun wrong => absurd wrong kind,
    fun _ _ => Nat.pos_of_ne_zero whole⟩⟩

theorem loop_follows (input : List Byte) : ∀ (body : HttpBody) (i : Nat), Midway body → body.kind ≠ .untilClose →
      (∀ err, (bodyLoop body i input).err = some err →
        (run bodyByte body input).err = some err ∧ (bodyLoop body i input).items = (run bodyByte body input).items ∧
          (bodyLoop body i input).state = (run bodyByte body input).state) ∧ ((bodyLoop body i input).err = none →
        ∃ take, take ≤ input.length ∧ (input ≠ [] → 0 < take) ∧
          bodyLoop body i input = { run bodyByte body (input.take take) with used := i + take } ∧
          (run bodyByte body (input.take take)).used = take ∧
          ((run bodyByte body (input.take take)).ended = false → Midway (run bodyByte body (input.take take)).state)) := by
  induction input with
  | nil =>
    intro body i midway _
    refine ⟨fun _ wrong => (by cases wrong), fun _ => ⟨0, le_refl 0, fun some_ => absurd rfl some_, rfl, rfl, fun _ => midway⟩⟩
  | cons c rest ih =>
    intro body i midway kind
    by_cases state : body.state = .data
    · obtain ⟨take, positive, within, fine, same, used, further⟩ := loop_data midway kind state i (c :: rest) (cons_ne_nil _ _)
      refine ⟨?_, fun _ => ⟨take, within, fun _ => positive, same, used, further⟩⟩
      intro err failed
      rw [same] at failed
      dsimp only at failed
      rw [fine] at failed
      cases failed
    rw [bodyLoop, if_neg state, run, body_byte_framing kind state]
    have later : ∀ next, (bodyTurn body c = .count next ∨ bodyTurn body c = .on next) → bodyByte body c = .on next [] →
        (∀ err, (bodyLoop next (i + 1) rest).err = some err → ((run bodyByte next rest).after [] 1).err = some err ∧
            (bodyLoop next (i + 1) rest).items = ((run bodyByte next rest).after [] 1).items ∧
            (bodyLoop next (i + 1) rest).state = ((run bodyByte next rest).after [] 1).state) ∧
        ((bodyLoop next (i + 1) rest).err = none → ∃ take, take ≤ (c :: rest).length ∧ (c :: rest ≠ [] → 0 < take) ∧
            bodyLoop next (i + 1) rest = { run bodyByte body ((c :: rest).take take) with used := i + take } ∧
            (run bodyByte body ((c :: rest).take take)).used = take ∧
            ((run bodyByte body ((c :: rest).take take)).ended = false →
              Midway (run bodyByte body ((c :: rest).take take)).state)) := by
      intro next turned one
      have onward := turn_onward turned
      have kindNext : next.kind ≠ .untilClose := by
        rw [onward.kind]
        exact kind
      obtain ⟨fails, takes⟩ := ih next (i + 1) (onward_midway midway kind onward) kindNext
      refine ⟨fun err failed => fails err failed, ?_⟩
      intro fine
      obtain ⟨take, within, _, same, used, further⟩ := takes fine
      refine ⟨take + 1, Nat.succ_le_succ within, fun _ => Nat.succ_pos take, ?_⟩
      rw [take_succ_cons, run, one]
      unfold Ran.after
      dsimp only
      rw [same, used]
      refine ⟨?_, add_comm 1 take, further⟩
      dsimp only
      rw [add_assoc, add_comm 1 take]
      rfl
    have one := body_byte_framing kind state c
    cases turned : bodyTurn body c with
    | failed after err =>
      refine ⟨?_, fun wrong => (by cases wrong)⟩
      intro other failed
      cases failed
      exact ⟨rfl, rfl, rfl⟩
    | ended after =>
      refine ⟨fun _ wrong => (by cases wrong), fun _ => ⟨1, Nat.succ_le_succ (Nat.zero_le _), fun _ => Nat.one_pos, ?_⟩⟩
      rw [turned] at one
      rw [take_succ_cons, take_zero, run, one]
      exact ⟨rfl, rfl, fun wrong => (by cases wrong)⟩
    | on next =>
      rw [turned] at one
      exact later next (Or.inr turned) one
    | count next =>
      rw [turned] at one
      exact later next (Or.inl turned) one

theorem feed_midway (midway : Midway body) (input : List Byte) : httpBodyFeed body input = if body.kind = .untilClose then
        if body.maxBody - body.total < input.length then httpBodyFail body .outOfBounds else
          { err := none, ended := false, state := { body with total := body.total + input.length }, items := input
            used := input.length }
      else bodyLoop body 0 input := by
  have notDone : ¬ body.done = true := Bool.eq_false_iff.mp midway.going
  unfold httpBodyFeed
  rw [if_neg midway.fine, if_neg notDone]

theorem feed_follows : Follows bodyByte Midway httpBodyFeed where
  taken := by
    intro body input midway fine
    rw [feed_midway midway] at fine ⊢
    by_cases kind : body.kind = .untilClose
    · rw [if_pos kind] at fine ⊢
      have bounded := (midway.bounded kind).1
      by_cases past : body.maxBody - body.total < input.length
      · rw [if_pos past] at fine
        cases fine
      rw [if_neg past]
      dsimp only
      rw [take_length, run_until_close body kind input (by omega)]
      exact ⟨le_refl _, rfl⟩
    rw [if_neg kind] at fine ⊢
    obtain ⟨take, within, _, same, used, _⟩ := (loop_follows input body 0 midway kind).2 fine
    rw [same]
    dsimp only
    rw [zero_add]
    exact ⟨within, (with_used used).symm⟩
  moves := by
    intro body input midway some_ fine
    rw [feed_midway midway] at fine ⊢
    by_cases kind : body.kind = .untilClose
    · rw [if_pos kind] at fine ⊢
      by_cases past : body.maxBody - body.total < input.length
      · rw [if_pos past] at fine
        cases fine
      rw [if_neg past]
      exact length_pos_iff.mpr some_
    rw [if_neg kind] at fine ⊢
    obtain ⟨take, _, positive, same, _, _⟩ := (loop_follows input body 0 midway kind).2 fine
    rw [same]
    dsimp only
    have moved := positive some_
    omega
  keeps := by
    intro body input midway fine goes
    rw [feed_midway midway] at fine goes ⊢
    by_cases kind : body.kind = .untilClose
    · rw [if_pos kind] at fine ⊢
      have bounded := (midway.bounded kind).1
      by_cases past : body.maxBody - body.total < input.length
      · rw [if_pos past] at fine
        cases fine
      rw [if_neg past]
      refine ⟨midway.going, midway.fine, fun _ => ⟨?_, (midway.bounded kind).2⟩, fun other => absurd kind other⟩
      dsimp only
      omega
    rw [if_neg kind] at fine goes ⊢
    obtain ⟨take, _, _, same, _, further⟩ := (loop_follows input body 0 midway kind).2 fine
    rw [same] at goes ⊢
    exact further goes
  fails := by
    intro body input midway err failed
    rw [feed_midway midway] at failed ⊢
    by_cases kind : body.kind = .untilClose
    · rw [if_pos kind] at failed ⊢
      by_cases past : body.maxBody - body.total < input.length
      · rw [if_pos past] at failed ⊢
        cases failed
        have bounded := (midway.bounded kind).1
        exact ⟨(run_past_limit body kind bounded input (by omega)).1, nil_prefix⟩
      rw [if_neg past] at failed
      cases failed
    rw [if_neg kind] at failed ⊢
    obtain ⟨sameErr, sameItems, _⟩ := (loop_follows input body 0 midway kind).1 err failed
    rw [sameItems]
    exact ⟨sameErr, prefix_refl _⟩

end ProvenC.Http.Feeding

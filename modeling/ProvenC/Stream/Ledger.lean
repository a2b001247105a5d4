import ProvenC.Stream.Writer

/-!
# No byte lost or repeated

What the inner writer has accepted, followed by what is buffered, is what was accepted from the caller.
-/

namespace ProvenC.Stream.Ledger

open List Bytes Lib.Cells Lib.Runs Stream.Writer

variable {Behind : Type} {inner : Inner Behind}

structure Took (sink sink' : Sink Behind) (chunk : List Byte) (r : ResultSize) : Prop where
  partly : r.value ≤ chunk.length
  delivered : sink'.delivered = sink.delivered ++ chunk.take r.value
  trouble : chunk ≠ [] → sink'.trouble = sink.trouble.or (failureOf r)

variable {sink sink' : Sink Behind} {chunk : List Byte} {r : ResultSize}

theorem inner_took (ran : innerWritePartial inner sink chunk = (r, sink')) : Took sink sink' chunk r := by
  unfold innerWritePartial at ran
  split at ran
  next empty =>
    obtain ⟨rfl, rfl⟩ := Prod.mk.inj ran
    refine ⟨Nat.zero_le _, ?_, fun some => absurd empty some⟩
    rw [take_zero, append_nil]
  obtain ⟨rfl, rfl⟩ := Prod.mk.inj ran
  exact ⟨inner.partly sink.behind chunk, rfl, fun _ => rfl⟩

theorem failure_none : failureOf r = none ↔ r.err = none ∧ r.value ≠ 0 := by
  unfold failureOf
  cases r.err with
  | some | none => simp

theorem failure_some (failed : r.err ≠ none ∨ r.value = 0) : failureOf r = some (r.err.getD .io) := by
  unfold failureOf
  cases found : r.err with
  | some e => rfl
  | none =>
    rcases failed with errs | stalls
    · exact absurd found errs
    rw [if_pos stalls]
    rfl

variable {cells : Nat → Byte} {sent : Nat}

theorem range_ne_nil {len : Nat} (more : sent < len) : range cells sent (len - sent) ≠ [] := by
  intro empty
  have none := @range_length _ cells sent (len - sent)
  rw [empty, length_nil] at none
  omega

theorem range_taken {len n : Nat} (partly : n ≤ len - sent) : range cells sent (len - sent) =
      (range cells sent (len - sent)).take n ++ range cells (sent + n) (len - (sent + n)) := by
  have behind := @range_drop _ cells sent (len - sent) n partly
  rw [Nat.sub_sub] at behind
  rw [behind, take_append_drop]

theorem kept_tail {len n : Nat} (partly : n ≤ len - sent) :
    range cells sent (len - sent) = (range cells sent (len - sent)).take n ++
      range (if len - (sent + n) > 0 ∧ sent + n > 0 then moved cells 0 (sent + n) (len - (sent + n)) else cells) 0
        (len - (sent + n)) := by
  have tail : range (if len - (sent + n) > 0 ∧ sent + n > 0 then moved cells 0 (sent + n) (len - (sent + n)) else cells)
      0 (len - (sent + n)) = range cells (sent + n) (len - (sent + n)) := by
    apply range_eq
    intro i inside
    split
    · exact moved_inside inside
    · rw [show sent + n = 0 by omega]
  rw [tail]
  exact range_taken partly

variable {s s' : Buffered} {e : Option ProvenErr}

theorem drain_loop (healthy : s.err = none) (calm : sink.trouble = none) (within : sent ≤ s.len)
    (ran : drainLoop inner s sink sent = (e, s', sink')) :
    s'.size = s.size ∧ s'.len ≤ s.len ∧ s'.err = e ∧ sink'.trouble = e ∧
      sink'.delivered ++ s'.held = sink.delivered ++ range s.buf sent (s.len - sent) ∧ (e = none → s'.len = 0) := by
  fun_induction drainLoop inner s sink sent with
  | case1 sink sent more r middle asked failed keep buf e' =>
    obtain ⟨rfl, rfl, rfl⟩ := ran
    have took := inner_took asked
    have partly := took.partly
    rw [range_length] at partly
    have fails : r.err ≠ none ∨ r.value = 0 := failed.imp id And.left
    have marked := took.trouble (range_ne_nil more)
    rw [calm, Option.none_or, failure_some fails] at marked
    refine ⟨rfl, Nat.sub_le _ _, rfl, marked, ?_, fun none => absurd none (Option.some_ne_none _)⟩
    rw [took.delivered, append_assoc]
    exact congrArg (sink.delivered ++ ·) (kept_tail partly).symm
  | case2 sink sent more r middle asked failed ih =>
    have took := inner_took asked
    have partly := took.partly
    rw [range_length] at partly
    have passes : r.err = none ∧ r.value ≠ 0 := by
      constructor
      · by_contra errs
        exact failed (Or.inl errs)
      intro stalls
      exact failed (Or.inr ⟨stalls, by omega⟩)
    have marked := took.trouble (range_ne_nil more)
    rw [calm, Option.none_or, failure_none.mpr passes] at marked
    obtain ⟨size, shorter, answer, trouble, balance, emptied⟩ := ih marked (by omega) ran
    refine ⟨size, shorter, answer, trouble, ?_, emptied⟩
    rw [balance, took.delivered, append_assoc, ← range_taken partly]
  | case3 sink sent done =>
    obtain ⟨rfl, rfl, rfl⟩ := ran
    refine ⟨rfl, Nat.zero_le _, healthy, calm, ?_, fun _ => rfl⟩
    rw [show s.len - sent = 0 by omega]
    rfl

structure Sound (s : Buffered) (sink : Sink Behind) : Prop where
  positive : 0 < s.size
  room : s.len ≤ s.size
  marked : sink.trouble = s.err

theorem drain_sound (sound : Sound s sink) (ran : bufferedDrain inner s sink = (e, s', sink')) :
    Sound s' sink' ∧ s'.size = s.size ∧ s'.err = e ∧
      sink'.delivered ++ s'.held = sink.delivered ++ s.held ∧ (e = none → s'.len = 0) := by
  unfold bufferedDrain at ran
  split at ran
  next e' broken =>
    obtain ⟨rfl, rfl, rfl⟩ := ran
    exact ⟨sound, rfl, broken, rfl, fun none => absurd none (Option.some_ne_none e')⟩
  rename_i healthy
  split at ran
  next empty =>
    obtain ⟨rfl, rfl, rfl⟩ := ran
    exact ⟨sound, rfl, healthy, rfl, fun _ => empty⟩
  have calm := sound.marked.trans healthy
  obtain ⟨size, shorter, answer, trouble, balance, emptied⟩ := drain_loop healthy calm (Nat.zero_le _) ran
  have room := sound.room
  refine ⟨⟨?_, by omega, trouble.trans answer.symm⟩, size, answer, balance, emptied⟩
  rw [size]
  exact sound.positive

structure Wrote (s : Buffered) (sink : Sink Behind) (chunk : List Byte) (r : ResultSize) (s' : Buffered)
    (sink' : Sink Behind) : Prop where
  sound : Sound s' sink'
  answer : r.err = s'.err
  partly : r.value ≤ chunk.length
  moves : r.err = none → r.value ≠ 0
  balance : sink'.delivered ++ s'.held = sink.delivered ++ s.held ++ chunk.take r.value

theorem keep_wrote
    (sound : Sound s sink) (healthy : s.err = none) (some : chunk ≠ []) (fits : s.len + chunk.length ≤ s.size)
    (ran : keepChunk s sink chunk = (r, s', sink')) : Wrote s sink chunk r s' sink' := by
  obtain ⟨rfl, rfl, rfl⟩ := ran
  have positive := length_pos_iff.mpr some
  refine ⟨⟨sound.positive, fits, sound.marked⟩, healthy.symm, le_refl _, fun _ => Nat.pos_iff_ne_zero.mp positive, ?_⟩
  rw [take_length, append_assoc]
  congr 1
  change range (storedAll s.buf s.len chunk) 0 (s.len + chunk.length) = range s.buf 0 s.len ++ chunk
  rw [range_append, zero_add, stored_all_range]
  congr 1
  apply range_eq
  intro i inside
  exact stored_all_outside _ _ _ (.inl (by omega))

theorem pass_wrote (sound : Sound s sink) (healthy : s.err = none) (empty : s.len = 0) (some : chunk ≠ [])
    (ran : passThrough inner s sink chunk = (r, s', sink')) : Wrote s sink chunk r s' sink' := by
  have calm := sound.marked.trans healthy
  have nothing : s.held = [] := by
    unfold Buffered.held
    rw [empty]
    rfl
  unfold passThrough at ran
  cases asked : innerWritePartial inner sink chunk with
  | mk answer middle =>
    have took := inner_took asked
    have marked := took.trouble some
    rw [calm, Option.none_or] at marked
    have balance : middle.delivered ++ s.held = sink.delivered ++ s.held ++ chunk.take answer.value := by
      rw [nothing, append_nil, append_nil, took.delivered]
    rw [asked] at ran
    dsimp only at ran
    split at ran
    next e errs =>
      obtain ⟨rfl, rfl, rfl⟩ := ran
      rw [failure_some (.inl (errs ▸ Option.some_ne_none e)), errs] at marked
      exact ⟨⟨sound.positive, sound.room, marked⟩, errs, took.partly,
        fun passes => absurd (errs.symm.trans passes) (Option.some_ne_none e), balance⟩
    rename_i passes
    split at ran
    next stalls =>
      obtain ⟨rfl, rfl, rfl⟩ := ran
      rw [failure_some (.inr stalls.1), passes] at marked
      exact ⟨⟨sound.positive, sound.room, marked⟩, rfl, took.partly,
        fun passes => absurd passes (Option.some_ne_none _), balance⟩
    rename_i moves
    obtain ⟨rfl, rfl, rfl⟩ := ran
    have moved : r.value ≠ 0 := fun stalls => moves ⟨stalls, length_pos_iff.mpr some⟩
    rw [failure_none.mpr ⟨passes, moved⟩] at marked
    exact ⟨⟨sound.positive, sound.room, marked.trans healthy.symm⟩, passes.trans healthy.symm, took.partly,
      fun _ => moved, balance⟩

theorem wrote_after {s₁ : Buffered} {sink₁ : Sink Behind}
    (same : sink₁.delivered ++ s₁.held = sink.delivered ++ s.held) (wrote : Wrote s₁ sink₁ chunk r s' sink') :
    Wrote s sink chunk r s' sink' :=
  ⟨wrote.sound, wrote.answer, wrote.partly, wrote.moves, by rw [wrote.balance, same]⟩

theorem wrote_nothing {e : ProvenErr}
    (sound : Sound s' sink') (answer : s'.err = some e) (same : sink'.delivered ++ s'.held = sink.delivered ++ s.held) :
    Wrote s sink chunk ⟨some e, 0⟩ s' sink' :=
  ⟨sound, answer.symm, Nat.zero_le _, fun passes => absurd passes (Option.some_ne_none e),
    by rw [same, take_zero, append_nil]⟩

theorem write_wrote (sound : Sound s sink) (some : chunk ≠ []) (ran : bufferedWrite inner s sink chunk = (r, s', sink')) :
    Wrote s sink chunk r s' sink' := by
  unfold bufferedWrite at ran
  split at ran
  next e broken =>
    obtain ⟨rfl, rfl, rfl⟩ := ran
    exact wrote_nothing sound broken rfl
  rename_i healthy
  split at ran
  · split at ran
    next e s₁ sink₁ drained =>
      obtain ⟨rfl, rfl, rfl⟩ := ran
      obtain ⟨sound₁, -, answer, same, -⟩ := drain_sound sound drained
      exact wrote_nothing sound₁ answer same
    rename_i s₁ sink₁ drained
    obtain ⟨sound₁, -, answer, same, emptied⟩ := drain_sound sound drained
    exact wrote_after same (pass_wrote sound₁ answer (emptied rfl) some ran)
  rename_i small
  split at ran
  · split at ran
    next e s₁ sink₁ drained =>
      obtain ⟨rfl, rfl, rfl⟩ := ran
      obtain ⟨sound₁, -, answer, same, -⟩ := drain_sound sound drained
      exact wrote_nothing sound₁ answer same
    rename_i s₁ sink₁ drained
    obtain ⟨sound₁, size, answer, same, emptied⟩ := drain_sound sound drained
    have empty := emptied rfl
    exact wrote_after same (keep_wrote sound₁ answer some (by omega) ran)
  have room := sound.room
  exact keep_wrote sound healthy some (by omega) ran

structure Kept (w : World Behind) : Prop where
  sound : Sound w.s w.sink
  balance : w.sink.delivered ++ w.s.held = w.accepted

def Call.carries : Call → Prop
  | .writePartial chunk => chunk ≠ []
  | .write chunk => chunk ≠ []
  | .flush => True

variable {w : World Behind}

theorem opened_kept {behind : Behind} {buf : Nat → Byte} {size : Nat}
    (created : opened behind buf size = some w) : Kept w := by
  unfold opened at created
  split at created
  · cases created
  rename_i positive
  obtain rfl := Option.some.inj created
  exact ⟨⟨Nat.pos_of_ne_zero positive, Nat.zero_le _, rfl⟩, rfl⟩

variable {w' : World Behind}

theorem write_partial_kept (kept : Kept w) (ran : writePartial inner w chunk = (r, w')) :
    Kept w' ∧ r.value ≤ chunk.length ∧ w'.accepted = w.accepted ++ chunk.take r.value ∧
      (chunk ≠ [] → w'.sink.trouble = r.err ∧ (r.err = none → r.value ≠ 0)) := by
  unfold writePartial at ran
  split at ran
  next empty =>
    obtain ⟨rfl, rfl⟩ := ran
    refine ⟨kept, Nat.zero_le _, ?_, fun some => absurd empty some⟩
    rw [take_zero, append_nil]
  rename_i some
  obtain ⟨rfl, rfl⟩ := ran
  have wrote := write_wrote kept.sound some (Eq.refl (bufferedWrite inner w.s w.sink chunk))
  refine ⟨⟨wrote.sound, ?_⟩, wrote.partly, rfl, fun _ => ⟨wrote.sound.marked.trans wrote.answer.symm, wrote.moves⟩⟩
  rw [← kept.balance]
  exact wrote.balance

theorem write_kept (kept : Kept w) (ran : write inner w chunk = (e, w')) :
    Kept w' ∧ (∃ n ≤ chunk.length, w'.accepted = w.accepted ++ chunk.take n) ∧
      (e = none → w'.accepted = w.accepted ++ chunk) ∧ (chunk ≠ [] → w'.sink.trouble = e) := by
  fun_induction write inner w chunk with
  | case1 w =>
    obtain ⟨rfl, rfl⟩ := ran
    refine ⟨kept, ⟨0, Nat.zero_le _, (append_nil _).symm⟩, fun _ => (append_nil _).symm, fun some => ?_⟩
    exact absurd rfl some
  | case2 w chunk some e value middle part =>
    obtain ⟨rfl, rfl⟩ := ran
    obtain ⟨kept', partly, accepted, marked⟩ := write_partial_kept kept part
    exact ⟨kept', ⟨value, partly, accepted⟩, fun none => absurd none (Option.some_ne_none e), fun some => (marked some).1⟩
  | case3 w chunk some middle part =>
    obtain ⟨-, -, -, marked⟩ := write_partial_kept kept part
    exact absurd rfl ((marked some).2 rfl)
  | case4 w chunk some value middle part moves ih =>
    obtain ⟨kept', partly, accepted, marked⟩ := write_partial_kept kept part
    obtain ⟨kept'', ⟨n, within, last⟩, whole, trouble⟩ := ih kept' ran
    rw [length_drop] at within
    dsimp only at partly
    refine ⟨kept'', ⟨value + n, by omega, ?_⟩, ?_, ?_⟩
    · rw [last, accepted, append_assoc, ← take_add]
    · intro passes
      rw [whole passes, accepted, append_assoc, take_append_drop]
    intro _
    by_cases rest : chunk.drop value = []
    · rw [rest, write, dif_pos rfl] at ran
      obtain ⟨rfl, rfl⟩ := ran
      exact (marked some).1
    · exact trouble rest

theorem inner_flush_delivered (sink : Sink Behind) :
    (innerFlush inner sink).2.delivered = sink.delivered ∧ (innerFlush inner sink).2.trouble = sink.trouble := by
  unfold innerFlush
  split
  all_goals exact ⟨rfl, rfl⟩

theorem flush_kept (kept : Kept w) (ran : flush inner w = (e, w')) :
    Kept w' ∧ w'.accepted = w.accepted ∧ (w'.sink.trouble ≠ none → w'.sink.trouble = e) ∧
      (e = none → w'.sink.delivered = w'.accepted) := by
  unfold flush bufferedFlush at ran
  cases drained : bufferedDrain inner w.s w.sink with
  | mk outcome after =>
    obtain ⟨s, sink⟩ := after
    obtain ⟨sound, -, answer, same, emptied⟩ := drain_sound kept.sound drained
    rw [kept.balance] at same
    rw [drained] at ran
    cases outcome with
    | some failed =>
      obtain ⟨rfl, rfl⟩ := ran
      exact ⟨⟨sound, same⟩, rfl, fun _ => sound.marked.trans answer, fun none => absurd none (Option.some_ne_none failed)⟩
    | none =>
      obtain ⟨rfl, rfl⟩ := ran
      obtain ⟨delivered, trouble⟩ := @inner_flush_delivered _ inner sink
      have calm := trouble.trans (sound.marked.trans answer)
      have nothing : s.held = [] := by
        unfold Buffered.held
        rw [emptied rfl]
        rfl
      rw [nothing, append_nil] at same
      refine ⟨⟨⟨sound.positive, sound.room, trouble.trans sound.marked⟩, ?_⟩, rfl, fun some => absurd calm some, fun _ => ?_⟩
      · change (innerFlush inner sink).2.delivered ++ s.held = w.accepted
        rw [delivered, nothing, append_nil, same]
      · exact delivered.trans same

theorem call_kept (c : Call) (kept : Kept w) : Kept (next inner w c) := by
  cases c with
  | writePartial chunk => exact (write_partial_kept kept (Eq.refl (writePartial inner w chunk))).1
  | write chunk => exact (write_kept kept (Eq.refl (write inner w chunk))).1
  | flush => exact (flush_kept kept (Eq.refl (flush inner w))).1

theorem broken_next {e : ProvenErr} (broken : w.s.err = some e) (c : Call) : next inner w c = w := by
  have refused (chunk : List Byte) (carries : chunk ≠ []) : writePartial inner w chunk = (⟨some e, 0⟩, w) := by
    unfold writePartial bufferedWrite
    rw [if_neg carries, broken]
    dsimp only
    rw [take_zero, append_nil]
  cases c with
  | writePartial chunk =>
    change (writePartial inner w chunk).2 = w
    by_cases carries : chunk = []
    · rw [carries, writePartial, if_pos rfl]
    · rw [refused chunk carries]
  | write chunk =>
    change (write inner w chunk).2 = w
    by_cases carries : chunk = []
    · rw [carries, write, dif_pos rfl]
    · rw [write, dif_neg carries, refused chunk carries]
  | flush =>
    change (flush inner w).2 = w
    unfold flush bufferedFlush bufferedDrain
    rw [broken]

theorem broken_run {e : ProvenErr} (broken : w.s.err = some e) (later : List Call) : run (next inner) w later = w := by
  induction later with
  | nil => rfl
  | cons c later ih => rw [run_cons, broken_next broken, ih]

theorem trouble_reported {e : ProvenErr} (kept : Kept w) (c : Call) (carries : Call.carries c)
    (trouble : (next inner w c).sink.trouble = some e) : (call inner w c).1 = some e := by
  cases c with
  | writePartial chunk =>
    obtain ⟨-, -, -, marked⟩ := write_partial_kept kept (Eq.refl (writePartial inner w chunk))
    exact (marked carries).1.symm.trans trouble
  | write chunk =>
    obtain ⟨-, -, -, marked⟩ := write_kept kept (Eq.refl (write inner w chunk))
    exact (marked carries).symm.trans trouble
  | flush =>
    obtain ⟨-, -, marked, -⟩ := flush_kept kept (Eq.refl (flush inner w))
    have some := marked (by
      intro none
      cases trouble.symm.trans none)
    exact some.symm.trans trouble

/-- The bytes the inner writer has accepted, then those buffered, are the bytes accepted from the
caller. -/
theorem buffered_writer_conserves (inner : Inner Behind) (behind : Behind) (buf : Nat → Byte) (size : Nat)
    (start : World Behind) (created : opened behind buf size = some start) (calls : List Call) :
    let w := run (next inner) start calls
    w.sink.delivered ++ w.s.held = w.accepted ∧
      (∀ chunk, (write inner w chunk).1 = none → (write inner w chunk).2.accepted = w.accepted ++ chunk) ∧
      (∀ chunk, ∃ n ≤ chunk.length, (write inner w chunk).2.accepted = w.accepted ++ chunk.take n) ∧
      (w.sink.trouble ≠ none → ∀ later, run (next inner) w later = w) ∧
      (∀ c e, Call.carries c → (next inner w c).sink.trouble = some e → (call inner w c).1 = some e) ∧
      ((flush inner w).1 = none → (flush inner w).2.sink.delivered = (flush inner w).2.accepted) := by
  have kept : Kept (run (next inner) start calls) :=
    run_invariant (fun _ c kept => call_kept c kept) (opened_kept created) calls
  refine ⟨kept.balance, ?_, ?_, ?_, ?_, ?_⟩
  · intro chunk passes
    obtain ⟨-, -, whole, -⟩ := write_kept kept (Eq.refl (write inner _ chunk))
    exact whole passes
  · intro chunk
    obtain ⟨-, parts, -, -⟩ := write_kept kept (Eq.refl (write inner _ chunk))
    exact parts
  · intro trouble later
    obtain ⟨e, broken⟩ := Option.ne_none_iff_exists'.mp trouble
    exact broken_run (kept.sound.marked.symm.trans broken) later
  · intro c e carries trouble
    exact trouble_reported kept c carries trouble
  intro passes
  obtain ⟨-, -, -, delivered⟩ := flush_kept kept (Eq.refl (flush inner _))
  exact delivered passes

def oneByte : Inner Bool where
  writeFn fresh chunk := if fresh then (⟨none, min 1 chunk.length⟩, false) else (⟨some .noMem, 0⟩, false)
  flushFn := none
  partly := by
    intro fresh chunk
    split
    · exact Nat.min_le_right _ _
    · exact Nat.zero_le _

theorem buffered_writer_conserves_failing :
    let w := run (next oneByte) ⟨⟨fun _ => 0, 2, 0, none⟩, ⟨true, [], none⟩, []⟩ [.write [7], .flush, .write [1, 2, 3]]
    w.sink.delivered ++ w.s.held = w.accepted :=
  (buffered_writer_conserves oneByte true (fun _ => 0) 2 ⟨⟨fun _ => 0, 2, 0, none⟩, ⟨true, [], none⟩, []⟩ rfl
    [.write [7], .flush, .write [1, 2, 3]]).1

/-- After the failure an empty write still returns without an error. -/
theorem empty_write_passes : ∃ w : World Bool,
    run (next oneByte) ⟨⟨fun _ => 0, 2, 0, none⟩, ⟨false, [], none⟩, []⟩ [.writePartial [1, 2, 3]] = w ∧
      w.sink.trouble = some .noMem ∧ (call oneByte w (.write [])).1 = none ∧ (call oneByte w (.writePartial [])).1 = none ∧
      (call oneByte w .flush).1 = some .noMem := by
  refine ⟨_, rfl, rfl, ?_, rfl, rfl⟩
  rw [call, write, dif_pos rfl]

end ProvenC.Stream.Ledger

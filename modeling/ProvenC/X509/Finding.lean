import ProvenC.X509.Trust

/-!
# What the search finds

A call that fails leaves the marks and the entries before it as they were, and unless the budget ran out no
acceptable path goes through them. From there to the verification of a chain.
-/

namespace ProvenC.X509.Finding

open List Function Bytes X509.Fields X509.Hosts X509.Paths X509.Search
open X509.Trust Lib.Searching

def Holds (leaf : Cert) (issuers : List Cert) (path : Nat → Cert) : Prop :=
  (List.range (issuers.length + 1)).map path = leaf :: issuers

variable {leaf : Cert} {issuers : List Cert} {path : Nat → Cert}

theorem holds_parts (holds : Holds leaf issuers path) :
    path 0 = leaf ∧ ((List.range issuers.length).map fun i => path (i + 1)) = issuers := by
  unfold Holds at holds
  rw [range_succ_eq_map, map_cons, map_map] at holds
  exact List.cons.inj holds

theorem holds_last (holds : Holds leaf issuers path) : path issuers.length = issuers.getLastD leaf := by
  unfold Holds at holds
  rw [List.range_succ, map_append, map_singleton] at holds
  have last := congrArg (fun entries => entries.getLastD leaf) holds
  rw [getLastD_concat, getLastD_cons] at last
  exact last

theorem holds_start (leaf) : Holds leaf [] fun _ => leaf := rfl

theorem holds_push (holds : Holds leaf issuers path) (c : Cert) :
    Holds leaf (issuers ++ [c]) (Function.update path (issuers.length + 1) c) := by
  unfold Holds at holds ⊢
  rw [length_append, length_singleton, List.range_succ, map_append, map_singleton, update_self, ← cons_append, ← holds]
  congr 1
  refine map_congr_left ?_
  intro i inside
  have below := mem_range.mp inside
  exact update_of_ne (by omega) _ _

theorem holds_pop {c : Cert} (holds : Holds leaf (issuers ++ [c]) path) : Holds leaf issuers path := by
  unfold Holds at holds ⊢
  rw [length_append, length_singleton, List.range_succ, map_append, map_singleton, ← cons_append] at holds
  exact (append_inj' holds rfl).1

structure Ready (leaf : Cert) (issuers : List Cert) (used : Nat → Bool) (cv : Cv) : Prop where
  path : Holds leaf issuers cv.path
  marks : cv.used = used
  fault : cv.fault ≠ .none

variable {used : Nat → Bool} {setting : Setting} {cv next : Cv}

theorem note_keeps (cv) (fault : Fault) :
    (cvNote cv fault).path = cv.path ∧ (cvNote cv fault).used = cv.used ∧ (cvNote cv fault).budget = cv.budget := by
  unfold cvNote
  split <;> exact ⟨rfl, rfl, rfl⟩

theorem ready_note (ready : Ready leaf issuers used cv) {fault : Fault} (faulty : fault ≠ .none) :
    Ready leaf issuers used (cvNote cv fault) := by
  obtain ⟨same_path, same_used, -⟩ := note_keeps cv fault
  refine ⟨same_path ▸ ready.path, same_used.trans ready.marks, ?_⟩
  unfold cvNote
  split
  · exact faulty
  · exact ready.fault

variable {found : Bool}

theorem finish_pushed {c : Cert} (finished : cvFinish setting cv (issuers.length + 1 + 1) = (found, next)) :
    cvFinish setting cv ((issuers ++ [c]).length + 1) = (found, next) := by
  rw [length_append, length_singleton]
  exact finished

theorem finish_cases (ready : Ready leaf issuers used cv)
    (finished : cvFinish setting cv (issuers.length + 1) = (found, next)) :
    (found = true ∧ cvCheckPath setting.use setting.now leaf issuers = .none ∧ next.depth = issuers.length + 1) ∨
      (found = false ∧ cvCheckPath setting.use setting.now leaf issuers ≠ .none ∧
        Ready leaf issuers used next ∧ next.budget = cv.budget) := by
  obtain ⟨first, rest⟩ := holds_parts ready.path
  unfold cvFinish at finished
  rw [Nat.add_sub_cancel, first, rest] at finished
  dsimp only at finished
  split at finished
  next clean =>
    obtain ⟨rfl, rfl⟩ := Prod.mk.inj finished
    exact .inl ⟨rfl, clean, rfl⟩
  rename_i faulty
  obtain ⟨rfl, rfl⟩ := Prod.mk.inj finished
  exact .inr ⟨rfl, faulty, ready_note ready faulty, (note_keeps cv _).2.2⟩

def Dry (cv : Cv) : Prop := cv.budget = 0

/-- No acceptable path goes on from here as `ends` says. -/
def Refuted (setting : Setting) (leaf : Cert) (ends : List Cert → Prop) : Prop :=
  ∀ full, ends full → cvCheckPath setting.use setting.now leaf full ≠ .none

theorem itself_refutes (anchor : Cert) :
    Refutes (tryItself setting (issuers.length + 1) (issuers.getLastD leaf)) (Ready leaf issuers used) Dry
      (fun anchor => Refuted setting leaf fun full => anchor.der = (issuers.getLastD leaf).der ∧ full = issuers) anchor := by
  intro state next ready turn
  unfold tryItself at turn
  split at turn
  · cases finished : cvFinish setting state (issuers.length + 1) with
    | mk found after =>
      rw [finished] at turn
      rcases finish_cases ready finished with ⟨rfl, -⟩ | ⟨rfl, faulty, ready', same⟩
      · cases (Prod.mk.inj turn).1
      obtain rfl := (Prod.mk.inj turn).2
      refine ⟨ready', fun dry => same.trans dry, .inr ?_⟩
      rintro full ⟨-, rfl⟩
      exact faulty
  rename_i other
  obtain rfl := (Prod.mk.inj turn).2
  refine ⟨ready, id, .inr ?_⟩
  rintro full ⟨same, -⟩
  exact absurd same other

theorem itself_answers {anchor : Cert} (stored : anchor ∈ setting.anchors) (ready : Ready leaf issuers used cv)
    (turn : tryItself setting (issuers.length + 1) (issuers.getLastD leaf) anchor cv = (.answer found, next)) :
    found = true ∧ ∃ full, Ends setting leaf used issuers full ∧
      cvCheckPath setting.use setting.now leaf full = .none ∧ next.depth = full.length + 1 := by
  unfold tryItself at turn
  split at turn
  next same =>
    cases finished : cvFinish setting cv (issuers.length + 1) with
    | mk found' after =>
      rw [finished] at turn
      rcases finish_cases ready finished with ⟨rfl, clean, depth⟩ | ⟨rfl, -⟩
      · obtain ⟨answered, rfl⟩ := Prod.mk.inj turn
        exact ⟨(Turn.answer.inj answered).symm, issuers, Ends.itself stored same, clean, depth⟩
      · cases (Prod.mk.inj turn).1
  · cases (Prod.mk.inj turn).1

theorem spent_note (ready : Ready leaf issuers used cv) (some_left : cv.budget ≠ 0) {fault : Fault}
    (faulty : fault ≠ .none) : Ready leaf issuers used (cvNote { cv with budget := cv.budget - 1 } fault) ∧
      (Dry cv → Dry (cvNote { cv with budget := cv.budget - 1 } fault)) := by
  have spent : Ready leaf issuers used { cv with budget := cv.budget - 1 } := ⟨ready.path, ready.marks, ready.fault⟩
  exact ⟨ready_note spent faulty, fun dry => absurd dry some_left⟩

theorem anchor_refutes (anchor : Cert) :
    Refutes (tryAnchor setting (issuers.length + 1) (issuers.getLastD leaf)) (Ready leaf issuers used) Dry
      (fun anchor => Refuted setting leaf fun full =>
        Issued setting.verifier (issuers.getLastD leaf) anchor ∧ full = issuers ++ [anchor]) anchor := by
  intro state next ready turn
  unfold tryAnchor at turn
  split at turn
  next other =>
    obtain rfl := (Prod.mk.inj turn).2
    refine ⟨ready, id, .inr ?_⟩
    rintro full ⟨issued, -⟩
    exact absurd issued.1 other
  split at turn
  · cases (Prod.mk.inj turn).1
  rename_i some_left
  dsimp only at turn
  split at turn
  next faulty =>
    obtain rfl := (Prod.mk.inj turn).2
    obtain ⟨ready', dry⟩ := spent_note ready some_left faulty
    refine ⟨ready', dry, .inr ?_⟩
    rintro full ⟨issued, -⟩
    exact absurd issued.2 faulty
  have pushed : Ready leaf (issuers ++ [anchor]) used
      { state with budget := state.budget - 1, path := Function.update state.path (issuers.length + 1) anchor } :=
    ⟨holds_push ready.path anchor, ready.marks, ready.fault⟩
  split at turn
  · cases (Prod.mk.inj turn).1
  rename_i after finished
  obtain rfl := (Prod.mk.inj turn).2
  rcases finish_cases pushed (finish_pushed finished) with ⟨wrong, -⟩ | ⟨-, faulty, ready', -⟩
  · cases wrong
  refine ⟨⟨holds_pop ready'.path, ready'.marks, ready'.fault⟩, fun dry => absurd dry some_left, .inr ?_⟩
  rintro full ⟨-, rfl⟩
  exact faulty

theorem anchor_answers {anchor : Cert} (stored : anchor ∈ setting.anchors)
    (room : issuers.length + 1 < provenCertMaxDepth) (ready : Ready leaf issuers used cv)
    (turn : tryAnchor setting (issuers.length + 1) (issuers.getLastD leaf) anchor cv = (.answer found, next)) :
    (found = true ∧ ∃ full, Ends setting leaf used issuers full ∧
        cvCheckPath setting.use setting.now leaf full = .none ∧ next.depth = full.length + 1) ∨
      (found = false ∧ Ready leaf issuers used next ∧ Dry next) := by
  unfold tryAnchor at turn
  split at turn
  · cases (Prod.mk.inj turn).1
  rename_i same
  split at turn
  next dry =>
    obtain ⟨answered, rfl⟩ := Prod.mk.inj turn
    exact .inr ⟨(Turn.answer.inj answered).symm, ready, dry⟩
  dsimp only at turn
  split at turn
  · cases (Prod.mk.inj turn).1
  rename_i signed
  have pushed : Ready leaf (issuers ++ [anchor]) used
      { cv with budget := cv.budget - 1, path := Function.update cv.path (issuers.length + 1) anchor } :=
    ⟨holds_push ready.path anchor, ready.marks, ready.fault⟩
  split at turn
  next after finished =>
    obtain ⟨answered, rfl⟩ := Prod.mk.inj turn
    rcases finish_cases pushed (finish_pushed finished) with ⟨-, clean, depth⟩ | ⟨wrong, -⟩
    · have issued : Issued setting.verifier (issuers.getLastD leaf) anchor := ⟨not_not.mp same, not_not.mp signed⟩
      exact .inl ⟨(Turn.answer.inj answered).symm, _, Ends.anchor room stored issued, clean, depth⟩
    · cases wrong
  · cases (Prod.mk.inj turn).1

structure Answers (setting : Setting) (leaf : Cert) (issuers : List Cert) (used : Nat → Bool)
    (call : Cv → Bool × Cv) : Prop where
  found : ∀ cv next, Ready leaf issuers used cv → call cv = (true, next) →
    ∃ full, Ends setting leaf used issuers full ∧ cvCheckPath setting.use setting.now leaf full = .none ∧
      next.depth = full.length + 1
  failed : ∀ cv next, Ready leaf issuers used cv → call cv = (false, next) →
    Ready leaf issuers used next ∧ (Dry cv → Dry next) ∧
      (Dry next ∨ Refuted setting leaf (Ends setting leaf used issuers))

theorem answers_of {call : Cv → Bool × Cv}
    (either : ∀ cv found next, Ready leaf issuers used cv → call cv = (found, next) →
      (found = true ∧ ∃ full, Ends setting leaf used issuers full ∧
          cvCheckPath setting.use setting.now leaf full = .none ∧ next.depth = full.length + 1) ∨
        (found = false ∧ Ready leaf issuers used next ∧ (Dry cv → Dry next) ∧
          (Dry next ∨ Refuted setting leaf (Ends setting leaf used issuers)))) :
    Answers setting leaf issuers used call := by
  constructor
  all_goals intro cv next ready called
  · rcases either cv true next ready called with ⟨-, found⟩ | ⟨wrong, -⟩
    · exact found
    · cases wrong
  rcases either cv false next ready called with ⟨wrong, -⟩ | ⟨-, failed⟩
  · cases wrong
  · exact failed

def Extended (setting : Setting) (leaf : Cert) (used : Nat → Bool) (issuers : List Cert) (candidate : Cert × Nat)
    (full : List Cert) : Prop :=
  used candidate.2 = false ∧ Issued setting.verifier (issuers.getLastD leaf) candidate.1 ∧
    Ends setting leaf (Function.update used candidate.2 true) (issuers ++ [candidate.1]) full

theorem extra_pushed (ready : Ready leaf issuers used cv) (candidate : Cert × Nat) :
    Ready leaf (issuers ++ [candidate.1]) (Function.update used candidate.2 true)
      { cv with
        budget := cv.budget - 1
        used := Function.update cv.used candidate.2 true
        path := Function.update cv.path (issuers.length + 1) candidate.1 } :=
  ⟨holds_push ready.path candidate.1, by rw [← ready.marks], ready.fault⟩

theorem extra_refutes {deeper : Cv → Bool × Cv} (candidate : Cert × Nat)
    (answers : Answers setting leaf (issuers ++ [candidate.1]) (Function.update used candidate.2 true) deeper) :
    Refutes (tryExtra setting deeper (issuers.length + 1) (issuers.getLastD leaf)) (Ready leaf issuers used) Dry
      (fun candidate => Refuted setting leaf (Extended setting leaf used issuers candidate)) candidate := by
  intro state next ready turn
  unfold tryExtra at turn
  split at turn
  next other =>
    obtain rfl := (Prod.mk.inj turn).2
    refine ⟨ready, id, .inr ?_⟩
    rintro full ⟨free, issued, -⟩
    rcases other with taken | other
    · rw [ready.marks, free] at taken
      cases taken
    · exact absurd issued.1 other
  rename_i unused
  push Not at unused
  split at turn
  · cases (Prod.mk.inj turn).1
  rename_i some_left
  dsimp only at turn
  split at turn
  next faulty =>
    obtain rfl := (Prod.mk.inj turn).2
    obtain ⟨ready', dry⟩ := spent_note ready some_left faulty
    refine ⟨ready', dry, .inr ?_⟩
    rintro full ⟨-, issued, -⟩
    exact absurd issued.2 faulty
  split at turn
  · cases (Prod.mk.inj turn).1
  rename_i after failed
  obtain rfl := (Prod.mk.inj turn).2
  obtain ⟨ready', -, refuted⟩ := answers.failed _ _ (extra_pushed ready candidate) failed
  -- the mark goes back to what it was
  have restored : Function.update after.used candidate.2 false = used := by
    have free : used candidate.2 = false := by
      rw [← ready.marks]
      simpa using unused.1
    rw [ready'.marks, update_idem, ← free, update_eq_self]
  refine ⟨⟨holds_pop ready'.path, restored, ready'.fault⟩, fun dry => absurd dry some_left, ?_⟩
  rcases refuted with dry | refuted
  · exact .inl dry
  right
  rintro full ⟨-, -, ends⟩
  exact refuted full ends

theorem extra_answers {deeper : Cv → Bool × Cv} {candidate : Cert × Nat}
    (answers : Answers setting leaf (issuers ++ [candidate.1]) (Function.update used candidate.2 true) deeper)
    (sent : Sent setting.extra candidate.2 candidate.1)
    (room : issuers.length + 1 < provenCertMaxDepth) (ready : Ready leaf issuers used cv)
    (turn : tryExtra setting deeper (issuers.length + 1) (issuers.getLastD leaf) candidate cv = (.answer found, next)) :
    (found = true ∧ ∃ full, Ends setting leaf used issuers full ∧
        cvCheckPath setting.use setting.now leaf full = .none ∧ next.depth = full.length + 1) ∨
      (found = false ∧ Ready leaf issuers used next ∧ Dry next) := by
  unfold tryExtra at turn
  split at turn
  · cases (Prod.mk.inj turn).1
  rename_i unused
  push Not at unused
  split at turn
  next dry =>
    obtain ⟨answered, rfl⟩ := Prod.mk.inj turn
    exact .inr ⟨(Turn.answer.inj answered).symm, ready, dry⟩
  dsimp only at turn
  split at turn
  · cases (Prod.mk.inj turn).1
  rename_i signed
  split at turn
  next after searched =>
    obtain ⟨answered, rfl⟩ := Prod.mk.inj turn
    obtain ⟨full, ends, clean, depth⟩ := answers.found _ _ (extra_pushed ready candidate) searched
    have free : used candidate.2 = false := by
      rw [← ready.marks]
      simpa using unused.1
    exact .inl ⟨(Turn.answer.inj answered).symm, full,
      Ends.extra room sent free ⟨unused.2, not_not.mp signed⟩ ends, clean, depth⟩
  · cases (Prod.mk.inj turn).1

theorem refuted_all (itself : ∀ anchor ∈ setting.anchors,
      Refuted setting leaf fun full => anchor.der = (issuers.getLastD leaf).der ∧ full = issuers)
    (anchored : ∀ anchor ∈ setting.anchors, issuers.length + 1 < provenCertMaxDepth → Refuted setting leaf fun full =>
        Issued setting.verifier (issuers.getLastD leaf) anchor ∧ full = issuers ++ [anchor])
    (extended : ∀ candidate ∈ setting.extra.zipIdx, issuers.length + 1 < provenCertMaxDepth →
      Refuted setting leaf (Extended setting leaf used issuers candidate)) :
    Refuted setting leaf (Ends setting leaf used issuers) := by
  intro full ends
  cases ends with
  | itself stored same => exact itself _ stored _ ⟨same, rfl⟩
  | anchor room stored issued => exact anchored _ stored room _ ⟨issued, rfl⟩
  | @extra _ _ _ pick c room sent free issued ends =>
    exact extended (c, pick) (mem_zipIdx_iff_getElem?.mpr sent) room full ⟨free, issued, ends⟩

theorem search_zero (n : Nat) (cv : Cv) : cvSearch setting 0 n cv =
      match loop (tryItself setting n (cv.path (n - 1))) setting.anchors cv with
      | (.answer found, cv) => (found, cv)
      | (.goOn, cv) => (false, cvNote cv .tooDeep) := by
  rw [cvSearch] <;> rcases loop (tryItself setting n (cv.path (n - 1))) setting.anchors cv with ⟨found | _, after⟩ <;> rfl

theorem search_succ (left n : Nat) (cv : Cv) : cvSearch setting (left + 1) n cv =
      match loop (tryItself setting n (cv.path (n - 1))) setting.anchors cv with
      | (.answer found, cv') => (found, cv')
      | (.goOn, cv') =>
        match loop (tryAnchor setting n (cv.path (n - 1))) setting.anchors cv' with
        | (.answer found, cv') => (found, cv')
        | (.goOn, cv') =>
          match loop (tryExtra setting (cvSearch setting left (n + 1)) n (cv.path (n - 1))) setting.extra.zipIdx cv' with
          | (.answer found, cv') => (found, cv')
          | (.goOn, cv') => (false, cv') := by
  rw [cvSearch] <;> rcases loop (tryItself setting n (cv.path (n - 1))) setting.anchors cv with ⟨found | _, after⟩ <;> rfl

theorem search_answers (left : Nat) (issuers : List Cert) (used : Nat → Bool)
    (deep : issuers.length + 1 + left = provenCertMaxDepth) :
    Answers setting leaf issuers used (cvSearch setting left (issuers.length + 1)) := by
  induction left generalizing issuers used with
  | zero =>
    refine answers_of ?_
    intro cv found next ready called
    rw [search_zero, Nat.add_sub_cancel, holds_last ready.path] at called
    cases first : loop (tryItself setting (issuers.length + 1) (issuers.getLastD leaf)) setting.anchors cv with
    | mk turn after =>
      rw [first] at called
      cases turn with
      | answer answered =>
        obtain ⟨rfl, rfl⟩ := Prod.mk.inj called
        obtain ⟨anchor, stored, before, ready', -, turn⟩ :=
          loop_answers (fun anchor _ => itself_refutes anchor) ready first
        exact .inl (itself_answers stored ready' turn)
      | goOn =>
        obtain ⟨rfl, rfl⟩ := Prod.mk.inj called
        obtain ⟨ready', dry, refuted⟩ := loop_goes_on (fun anchor _ => itself_refutes anchor) ready first
        obtain ⟨-, -, same⟩ := note_keeps after .tooDeep
        refine .inr ⟨rfl, ready_note ready' (by decide), fun was => same.trans (dry was), ?_⟩
        rcases refuted with dry | refuted
        · exact .inl (same.trans dry)
        · exact .inr (refuted_all refuted (fun _ _ room => by omega) (fun _ _ room => by omega))
  | succ left ih =>
    have room : issuers.length + 1 < provenCertMaxDepth := by omega
    have deeper : ∀ candidate : Cert × Nat, Answers setting leaf (issuers ++ [candidate.1])
        (Function.update used candidate.2 true) (cvSearch setting left (issuers.length + 1 + 1)) := by
      intro candidate
      have answers := ih (issuers ++ [candidate.1]) (Function.update used candidate.2 true)
        (by rw [length_append, length_singleton]; omega)
      rw [length_append, length_singleton] at answers
      exact answers
    refine answers_of ?_
    intro cv found next ready called
    rw [search_succ, Nat.add_sub_cancel, holds_last ready.path] at called
    cases first : loop (tryItself setting (issuers.length + 1) (issuers.getLastD leaf)) setting.anchors cv with
    | mk turn after =>
      rw [first] at called
      cases turn with
      | answer answered =>
        obtain ⟨rfl, rfl⟩ := Prod.mk.inj called
        obtain ⟨anchor, stored, before, ready', -, turn⟩ :=
          loop_answers (fun anchor _ => itself_refutes anchor) ready first
        exact .inl (itself_answers stored ready' turn)
      | goOn =>
        obtain ⟨ready₁, dry₁, refuted₁⟩ := loop_goes_on (fun anchor _ => itself_refutes anchor) ready first
        dsimp only at called
        cases second : loop (tryAnchor setting (issuers.length + 1) (issuers.getLastD leaf)) setting.anchors after with
        | mk turn after₂ =>
          rw [second] at called
          cases turn with
          | answer answered =>
            obtain ⟨rfl, rfl⟩ := Prod.mk.inj called
            obtain ⟨anchor, stored, before, ready', -, turn⟩ :=
              loop_answers (fun anchor _ => anchor_refutes anchor) ready₁ second
            rcases anchor_answers stored room ready' turn with answer | ⟨rfl, ready', dry⟩
            · exact .inl answer
            · exact .inr ⟨rfl, ready', fun _ => dry, .inl dry⟩
          | goOn =>
            obtain ⟨ready₂, dry₂, refuted₂⟩ := loop_goes_on (fun anchor _ => anchor_refutes anchor) ready₁ second
            dsimp only at called
            cases third : loop (tryExtra setting (cvSearch setting left (issuers.length + 1 + 1))
                (issuers.length + 1) (issuers.getLastD leaf)) setting.extra.zipIdx after₂ with
            | mk turn after₃ =>
              rw [third] at called
              cases turn with
              | answer answered =>
                obtain ⟨rfl, rfl⟩ := Prod.mk.inj called
                obtain ⟨candidate, sent, before, ready', -, turn⟩ :=
                  loop_answers (fun candidate _ => extra_refutes candidate (deeper candidate)) ready₂ third
                rcases extra_answers (deeper candidate) (mem_zipIdx_iff_getElem?.mp sent) room ready' turn
                  with answer | ⟨rfl, ready', dry⟩
                · exact .inl answer
                · exact .inr ⟨rfl, ready', fun _ => dry, .inl dry⟩
              | goOn =>
                obtain ⟨ready₃, dry₃, refuted₃⟩ :=
                  loop_goes_on (fun candidate _ => extra_refutes candidate (deeper candidate)) ready₂ third
                obtain ⟨rfl, rfl⟩ := Prod.mk.inj called
                refine .inr ⟨rfl, ready₃, fun was => dry₃ (dry₂ (dry₁ was)), ?_⟩
                rcases refuted₁ with dry | refuted₁
                · exact .inl (dry₃ (dry₂ dry))
                rcases refuted₂ with dry | refuted₂
                · exact .inl (dry₃ dry)
                rcases refuted₃ with dry | refuted₃
                · exact .inl dry
                exact .inr (refuted_all refuted₁ (fun anchor stored _ => refuted₂ anchor stored)
                  (fun candidate sent _ => refuted₃ candidate sent))

theorem setting_read (verifier : Verifier) (others : List (List Byte)) (options : Options) :
    Read (settingOf verifier others options) := by
  constructor
  · exact options.anchors.read
  intro c inside
  obtain ⟨der, -, parsed⟩ := mem_filterMap.mp (mem_of_mem_take inside)
  rw [cert_parse_der parsed]
  exact parsed

theorem start_ready (leaf) : Ready leaf [] (fun _ => false) (cvStart leaf) := by
  refine ⟨holds_start leaf, rfl, ?_⟩
  intro same
  cases same

theorem whole_search (verifier : Verifier) (leaf : Cert) (others : List (List Byte)) (options : Options) :
    Answers (settingOf verifier others options) leaf [] (fun _ => false)
      (cvSearch (settingOf verifier others options) (provenCertMaxDepth - 1) 1) :=
  search_answers (provenCertMaxDepth - 1) [] (fun _ => false) rfl

theorem err_of_none {fault : Fault} : errOf fault = none ↔ fault = .none := by
  cases fault <;> decide

theorem verify_ok {verifier : Verifier} {first : List Byte} {others : List (List Byte)} {options : Options}
    {leaf : Cert} (parsed : certParse first = some leaf) : (certVerify verifier (first :: others) options).err = none ↔
      (searchFrom verifier leaf others options).1 = true ∧
        (options.host ≠ [] → matchesHost leaf options.host = true) := by
  simp only [certVerify, parsed, err_of_none]
  cases searched : searchFrom verifier leaf others options with
  | mk found cv =>
    cases found with
    | true =>
      by_cases mismatch : options.host ≠ [] ∧ matchesHost leaf options.host = false
      · rw [if_pos ⟨rfl, mismatch.1, mismatch.2⟩]
        constructor
        · intro wrong
          cases wrong
        rintro ⟨-, matched⟩
        rw [matched mismatch.1] at mismatch
        cases mismatch.2
      rw [if_neg fun all => mismatch all.2]
      simp only [if_true, true_and, true_iff]
      intro named
      by_contra unmatched
      exact mismatch ⟨named, by simpa using unmatched⟩
    | false =>
      have failed := (whole_search verifier leaf others options).failed _ _ (start_ready leaf) searched
      simp [failed.1.fault]

/-- A verified chain has a trusted path and the right name; and a chain that has both is verified, unless the
search came to the end of its signature checks. -/
theorem verify_finds_paths (verifier : Verifier) (chain : List (List Byte)) (options : Options) :
    ((certVerify verifier chain options).err = none →
      ∃ first others leaf issuers, chain = first :: others ∧ certParse first = some leaf ∧
        (options.host ≠ [] → matchesHost leaf options.host = true) ∧
        Trusted (settingOf verifier others options) leaf issuers) ∧
    ∀ first others leaf issuers, chain = first :: others → certParse first = some leaf →
      (options.host ≠ [] → matchesHost leaf options.host = true) →
      Trusted (settingOf verifier others options) leaf issuers → (searchFrom verifier leaf others options).2.budget ≠ 0 →
      (certVerify verifier chain options).err = none := by
  constructor
  · intro verified
    cases chain with
    | nil => cases verified
    | cons first others =>
      cases parsed : certParse first with
      | none => simp [certVerify, parsed] at verified
      | some leaf =>
        obtain ⟨found, matched⟩ := (verify_ok parsed).mp verified
        have leaf_read : certParse leaf.der = some leaf := by
          rw [cert_parse_der parsed]
          exact parsed
        obtain ⟨issuers, ends, clean, -⟩ := (whole_search verifier leaf others options).found _ _
          (start_ready leaf) (Prod.ext found rfl)
        exact ⟨first, others, leaf, issuers, rfl, parsed, matched,
          (trusted_iff (setting_read verifier others options) leaf_read issuers).mpr ⟨ends, clean⟩⟩
  rintro first others leaf issuers rfl parsed matched trusted some_left
  rw [verify_ok parsed]
  refine ⟨?_, matched⟩
  by_contra missed
  have missed' : (searchFrom verifier leaf others options).1 = false := by simpa using missed
  have leaf_read : certParse leaf.der = some leaf := by
    rw [cert_parse_der parsed]
    exact parsed
  obtain ⟨ends, clean⟩ := (trusted_iff (setting_read verifier others options) leaf_read issuers).mp trusted
  obtain ⟨-, -, dry | refuted⟩ := (whole_search verifier leaf others options).failed _ _ (start_ready leaf)
    (Prod.ext missed' rfl)
  · exact some_left dry
  · exact refuted issuers ends clean

def plainLeaf : List Byte :=
  [ 0x30, 0x81, 0xd8, 0x30, 0x81, 0x8b, 0xa0, 0x03, 0x02, 0x01, 0x02, 0x02, 0x01, 0x01, 0x30, 0x05, 0x06, 0x03, 0x2b, 0x65,
    0x70, 0x30, 0x0c, 0x31, 0x0a, 0x30, 0x08, 0x06, 0x03, 0x55, 0x04, 0x03, 0x0c, 0x01, 0x43, 0x30, 0x1e, 0x17, 0x0d, 0x37,
    0x30, 0x30, 0x31, 0x30, 0x31, 0x30, 0x30, 0x30, 0x30, 0x30, 0x30, 0x5a, 0x17, 0x0d, 0x34, 0x39, 0x30, 0x31, 0x30, 0x31,
    0x30, 0x30, 0x30, 0x30, 0x30, 0x30, 0x5a, 0x30, 0x0c, 0x31, 0x0a, 0x30, 0x08, 0x06, 0x03, 0x55, 0x04, 0x03, 0x0c, 0x01,
    0x4c, 0x30, 0x2a, 0x30, 0x05, 0x06, 0x03, 0x2b, 0x65, 0x70, 0x03, 0x21, 0, 0, 0, 0, 0, 0, 0, 0, 0, 0, 0, 0, 0, 0, 0, 0,
    0, 0, 0, 0, 0, 0, 0, 0, 0, 0, 0, 0, 0, 0, 0, 0, 0, 0xa3, 0x12, 0x30, 0x10, 0x30, 0x0e, 0x06, 0x03, 0x55, 0x1d, 0x11,
    0x04, 0x07, 0x30, 0x05, 0x82, 0x03, 0x78, 0x2e, 0x63, 0x30, 0x05, 0x06, 0x03, 0x2b, 0x65, 0x70, 0x03, 0x41, 0, 0, 0, 0,
    0, 0, 0, 0, 0, 0, 0, 0, 0, 0, 0, 0, 0, 0, 0, 0, 0, 0, 0, 0, 0, 0, 0, 0, 0, 0, 0, 0, 0, 0, 0, 0, 0, 0, 0, 0, 0, 0, 0, 0,
    0, 0, 0, 0, 0, 0, 0, 0, 0, 0, 0, 0, 0, 0, 0, 0, 0, 0, 0, 0, 0 ]

def plainAuthority : List Byte :=
  [ 0x30, 0x81, 0x96, 0x30, 0x81, 0x89, 0xa0, 0x03, 0x02, 0x01, 0x02, 0x02, 0x01, 0x01, 0x30, 0x05, 0x06, 0x03, 0x2b, 0x65,
    0x70, 0x30, 0x0c, 0x31, 0x0a, 0x30, 0x08, 0x06, 0x03, 0x55, 0x04, 0x03, 0x0c, 0x01, 0x43, 0x30, 0x1e, 0x17, 0x0d, 0x37,
    0x30, 0x30, 0x31, 0x30, 0x31, 0x30, 0x30, 0x30, 0x30, 0x30, 0x30, 0x5a, 0x17, 0x0d, 0x34, 0x39, 0x30, 0x31, 0x30, 0x31,
    0x30, 0x30, 0x30, 0x30, 0x30, 0x30, 0x5a, 0x30, 0x0c, 0x31, 0x0a, 0x30, 0x08, 0x06, 0x03, 0x55, 0x04, 0x03, 0x0c, 0x01,
    0x43, 0x30, 0x2a, 0x30, 0x05, 0x06, 0x03, 0x2b, 0x65, 0x70, 0x03, 0x21, 0, 0, 0, 0, 0, 0, 0, 0, 0, 0, 0, 0, 0, 0, 0, 0,
    0, 0, 0, 0, 0, 0, 0, 0, 0, 0, 0, 0, 0, 0, 0, 0, 0, 0xa3, 0x10, 0x30, 0x0e, 0x30, 0x0c, 0x06, 0x03, 0x55, 0x1d, 0x13,
    0x04, 0x05, 0x30, 0x03, 0x01, 0x01, 0xff, 0x30, 0x05, 0x06, 0x03, 0x2b, 0x65, 0x70, 0x03, 0x01, 0 ]

def credulous : Verifier :=
  { digestOf := fun _ data => data
    rsaVerifyPkcs1 := fun _ _ _ _ _ => true
    rsaVerifyPss := fun _ _ _ _ _ _ => true
    ecdsaVerifyDer := fun _ _ _ _ => true
    ed25519Verify := fun _ _ _ => true }

def plainOptions : Options :=
  { anchors := (Store.empty.addDer plainAuthority).getD Store.empty, host := [120, 46, 99], now := 0, use := .server }

/-- The chain may hold the same certificates over again, and bytes that are none. -/
theorem verify_finds_paths_once :
    ∃ first others leaf issuers, [plainLeaf, [0], plainLeaf, plainAuthority, plainAuthority] = first :: others ∧
      certParse first = some leaf ∧ (plainOptions.host ≠ [] → matchesHost leaf plainOptions.host = true) ∧
      Trusted (settingOf credulous others plainOptions) leaf issuers :=
  (verify_finds_paths credulous [plainLeaf, [0], plainLeaf, plainAuthority, plainAuthority] plainOptions).1
    (by decide +kernel)

end ProvenC.X509.Finding

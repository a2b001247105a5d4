import Mathlib

/-!
# Segments and their evaluation on a stack

A list of segments is read from the left: some are skipped, some go up by one, and the others are
pushed. Going up from an empty stack has no result.
-/

namespace ProvenC.Lib.Segments

open List

variable {Segment : Type} (skips ups : Segment → Bool)

def stackStep (stack : List Segment) (segment : Segment) : Option (List Segment) :=
  if ups segment then
    match stack with
    | [] => none
    | _ :: below => some below
  else if skips segment then some stack
  else some (segment :: stack)

def stackEval : List Segment → List Segment → Option (List Segment)
  | stack, [] => some stack
  | stack, segment :: later => (stackStep skips ups stack segment).bind fun next => stackEval next later

variable {skips ups}

variable {stack : List Segment} {segment : Segment}

theorem stack_eval_cons {next : List Segment} (later : List Segment)
    (step : stackStep skips ups stack segment = some next) :
    stackEval skips ups stack (segment :: later) = stackEval skips ups next later := by
  rw [stackEval, step]
  rfl

theorem stack_step_none : stackStep skips ups stack segment = none ↔ ups segment = true ∧ stack = [] := by
  unfold stackStep
  cases up : ups segment with
  | true =>
    rw [if_pos rfl]
    cases stack with
    | nil => exact iff_of_true rfl ⟨rfl, rfl⟩
    | cons top below => exact iff_of_false nofun nofun
  | false =>
    rw [if_neg nofun]
    split_ifs <;> exact iff_of_false nofun nofun

theorem stack_eval_append (stack front back : List Segment) : stackEval skips ups stack (front ++ back) =
      (stackEval skips ups stack front).bind fun next => stackEval skips ups next back := by
  induction front generalizing stack with
  | nil => rfl
  | cons segment front ih =>
    rw [cons_append, stackEval, stackEval]
    cases stackStep skips ups stack segment with
    | none => rfl
    | some next => exact ih next

theorem stack_eval_none (stack segments : List Segment) : stackEval skips ups stack segments = none ↔
      ∃ before segment later, segments = before ++ segment :: later ∧ ups segment = true ∧
        stackEval skips ups stack before = some [] := by
  induction segments generalizing stack with
  | nil =>
    apply iff_of_false nofun
    intro found
    obtain ⟨before, segment, later, split, _⟩ := found
    exact append_ne_nil_of_right_ne_nil before (cons_ne_nil _ _) split.symm
  | cons first rest ih =>
    cases step : stackStep skips ups stack first with
    | none =>
      obtain ⟨up, rfl⟩ := stack_step_none.mp step
      rw [stackEval, step]
      exact iff_of_true rfl ⟨[], first, rest, rfl, up, rfl⟩
    | some next =>
      rw [stack_eval_cons rest step, ih next]
      constructor
      · intro found
        obtain ⟨before, segment, later, rfl, up, empty⟩ := found
        exact ⟨first :: before, segment, later, rfl, up, (stack_eval_cons before step).trans empty⟩
      intro found
      obtain ⟨before, segment, later, split, up, empty⟩ := found
      cases before with
      | nil =>
        obtain ⟨rfl, rfl⟩ := List.cons.inj split
        have stackEmpty : stack = [] := Option.some.inj empty
        rw [stack_step_none.mpr ⟨up, stackEmpty⟩] at step
        cases step
      | cons head before =>
        obtain ⟨rfl, rfl⟩ := List.cons.inj split
        exact ⟨before, segment, later, rfl, up, (stack_eval_cons before step).symm.trans empty⟩

theorem stack_eval_members {segments result : List Segment} (evaluated : stackEval skips ups stack segments = some result) (among : segment ∈ result) :
    segment ∈ stack ∨ (segment ∈ segments ∧ skips segment = false ∧ ups segment = false) := by
  induction segments generalizing stack with
  | nil =>
    cases evaluated
    exact Or.inl among
  | cons first rest ih =>
    cases step : stackStep skips ups stack first with
    | none =>
      rw [stackEval, step] at evaluated
      cases evaluated
    | some next =>
      rw [stack_eval_cons rest step] at evaluated
      rcases ih evaluated with before | ⟨later, plain⟩
      · unfold stackStep at step
        cases up : ups first with
        | true =>
          rw [up, if_pos rfl] at step
          cases stack with
          | nil => cases step
          | cons top below =>
            cases step
            exact Or.inl (mem_cons_of_mem top before)
        | false =>
          rw [up, if_neg nofun] at step
          cases skip : skips first with
          | true =>
            rw [skip, if_pos rfl] at step
            cases step
            exact Or.inl before
          | false =>
            rw [skip, if_neg nofun] at step
            cases step
            rcases mem_cons.mp before with rfl | kept
            · exact Or.inr ⟨mem_cons_self, skip, up⟩
            · exact Or.inl kept
      · exact Or.inr ⟨mem_cons_of_mem first later, plain⟩

theorem stack_eval_plain (stack : List Segment) {names : List Segment}
    (plain : ∀ name ∈ names, skips name = false ∧ ups name = false) (later : List Segment) :
    stackEval skips ups stack (names ++ later) = stackEval skips ups (names.reverse ++ stack) later := by
  induction names generalizing stack with
  | nil => rfl
  | cons name names ih =>
    obtain ⟨first, rest⟩ := forall_mem_cons.mp plain
    have step : stackStep skips ups stack name = some (name :: stack) := by
      unfold stackStep
      rw [first.1, first.2]
      rfl
    rw [cons_append, stack_eval_cons _ step, ih _ rest, reverse_cons, append_assoc]
    rfl

variable {Letter : Type}

theorem parts_exist [DecidableEq Letter] (mark : Letter) (text : List Letter) :
    ∃ parts, parts ≠ [] ∧ (∀ part ∈ parts, mark ∉ part) ∧ text = List.intercalate [mark] parts := by
  induction text with
  | nil => exact ⟨[[]], cons_ne_nil _ _, by simp, rfl⟩
  | cons letter text ih =>
    obtain ⟨parts, some_, unmarked, rfl⟩ := ih
    by_cases isMark : letter = mark
    · refine ⟨[] :: parts, cons_ne_nil _ _, forall_mem_cons.mpr ⟨not_mem_nil, unmarked⟩, ?_⟩
      rw [intercalate_cons_of_ne_nil some_, isMark]
      rfl
    · cases parts with
      | nil => exact absurd rfl some_
      | cons part parts =>
        obtain ⟨first, rest⟩ := forall_mem_cons.mp unmarked
        refine ⟨(letter :: part) :: parts, cons_ne_nil _ _, forall_mem_cons.mpr ⟨?_, rest⟩, ?_⟩
        · intro among
          rcases mem_cons.mp among with same | later
          · exact isMark same.symm
          · exact first later
        · cases parts with
          | nil => rfl
          | cons next parts => rw [intercalate_cons_cons, intercalate_cons_cons]; rfl

theorem intercalate_cons_mark (mark : Letter) (first : List Letter) {later : List (List Letter)} (some_ : later ≠ []) :
    List.intercalate [mark] (first :: later) = first ++ mark :: List.intercalate [mark] later := by
  rw [intercalate_cons_of_ne_nil some_, append_assoc]
  rfl

theorem intercalate_last (mark : Letter) (front : List (List Letter)) (last : List Letter) :
    List.intercalate [mark] (front ++ [last]) = front.flatMap (fun part => part ++ [mark]) ++ last := by
  induction front with
  | nil => exact intercalate_singleton
  | cons first front ih =>
    rw [cons_append, intercalate_cons_mark mark first (append_ne_nil_of_right_ne_nil front (cons_ne_nil _ _)),
      ih, flatMap_cons, append_assoc, append_assoc]
    rfl

end ProvenC.Lib.Segments

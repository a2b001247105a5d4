import Mathlib.Data.List.Basic

/-!
# Loops that may answer

A loop over candidates that changes a state and may leave with an answer. What it went past is refuted,
unless the state has come to a doubt that never goes away.
-/

namespace ProvenC.Lib.Searching

open List

inductive Turn where
  | goOn
  | answer (found : Bool)
  deriving DecidableEq, Repr

variable {ι σ : Type}

def loop (body : ι → σ → Turn × σ) : List ι → σ → Turn × σ
  | [], state => (.goOn, state)
  | item :: more, state =>
    match body item state with
    | (.goOn, next) => loop body more next
    | (.answer found, next) => (.answer found, next)

/-- A turn that goes on keeps `Inv` and `Doubt`, and refutes its candidate unless it is in doubt. -/
def Refutes (body : ι → σ → Turn × σ) (Inv Doubt : σ → Prop) (refuted : ι → Prop) (item : ι) : Prop :=
  ∀ state next, Inv state → body item state = (.goOn, next) →
    Inv next ∧ (Doubt state → Doubt next) ∧ (Doubt next ∨ refuted item)

variable {body : ι → σ → Turn × σ} {Inv Doubt : σ → Prop} {refuted : ι → Prop}

theorem loop_goes_on {items : List ι} (turns : ∀ item ∈ items, Refutes body Inv Doubt refuted item)
    {state last : σ} (start : Inv state) (went : loop body items state = (.goOn, last)) :
    Inv last ∧ (Doubt state → Doubt last) ∧ (Doubt last ∨ ∀ item ∈ items, refuted item) := by
  induction items generalizing state with
  | nil =>
    obtain rfl := (Prod.mk.inj went).2
    exact ⟨start, id, Or.inr (by simp)⟩
  | cons item more ih =>
    cases turn : body item state with
    | mk outcome next =>
      rw [loop, turn] at went
      cases outcome with
      | answer found => cases (Prod.mk.inj went).1
      | goOn =>
        obtain ⟨kept, doubts, this_one⟩ := turns item (mem_cons_self ..) state next start turn
        obtain ⟨kept', doubts', others⟩ :=
          ih (fun other inside => turns other (mem_cons_of_mem _ inside)) kept went
        refine ⟨kept', fun doubt => doubts' (doubts doubt), ?_⟩
        rcases this_one with doubt | refuted_here
        · exact Or.inl (doubts' doubt)
        rcases others with doubt | refuted_there
        · exact Or.inl doubt
        right
        intro other inside
        rcases mem_cons.mp inside with rfl | inside
        · exact refuted_here
        · exact refuted_there other inside

theorem loop_answers {items : List ι} (turns : ∀ item ∈ items, Refutes body Inv Doubt refuted item)
    {state last : σ} {found : Bool} (start : Inv state) (ended : loop body items state = (.answer found, last)) :
    ∃ item ∈ items, ∃ before, Inv before ∧ (Doubt state → Doubt before) ∧ body item before = (.answer found, last) := by
  induction items generalizing state with
  | nil => cases (Prod.mk.inj ended).1
  | cons item more ih =>
    cases turn : body item state with
    | mk outcome next =>
      rw [loop, turn] at ended
      cases outcome with
      | answer here =>
        obtain ⟨same, rfl⟩ := Prod.mk.inj ended
        obtain rfl := Turn.answer.inj same
        exact ⟨item, mem_cons_self .., state, start, id, turn⟩
      | goOn =>
        obtain ⟨kept, doubts, -⟩ := turns item (mem_cons_self ..) state next start turn
        obtain ⟨other, inside, before, ready, doubts', ended'⟩ :=
          ih (fun other inside => turns other (mem_cons_of_mem _ inside)) kept ended
        exact ⟨other, mem_cons_of_mem _ inside, before, ready, fun doubt => doubts' (doubts doubt), ended'⟩

end ProvenC.Lib.Searching

import Mathlib.Data.List.Infix

/-!
# Dotted names

A name is a list whose labels are kept apart by `dot`.
-/

namespace ProvenC.Lib.Dotted

open List

variable {α : Type} (dot : α)

def Under (name base : List α) : Prop :=
  base = [] ∨ (base.head? = some dot ∧ base <:+ name ∧ base ≠ name) ∨
    (base.head? ≠ some dot ∧ (base = name ∨ dot :: base <:+ name))

variable {dot}

theorem under_root (name : List α) : Under dot name [] := .inl rfl

theorem under_self {name : List α} (plain : name.head? ≠ some dot) : Under dot name name :=
  .inr (.inr ⟨plain, .inl rfl⟩)

theorem under_of_dotted {name base : List α} (ends : dot :: base <:+ name) : Under dot name base := by
  by_cases leading : base.head? = some dot
  · refine .inr (.inl ⟨leading, (suffix_cons dot base).trans ends, ?_⟩)
    intro same
    have longer := ends.length_le
    rw [same, length_cons] at longer
    omega
  · exact .inr (.inr ⟨leading, .inr ends⟩)

theorem under_below {rest base : List α} (label : List α) (below : Under dot rest base) :
    Under dot (label ++ dot :: rest) base := by
  have ends : dot :: rest <:+ label ++ dot :: rest := suffix_append _ _
  rcases below with rfl | ⟨leading, suffix, _⟩ | ⟨plain, rfl | suffix⟩
  · exact under_root _
  · refine .inr (.inl ⟨leading, suffix.trans ((suffix_cons dot rest).trans ends), ?_⟩)
    intro same
    have short := suffix.length_le
    rw [same, length_append, length_cons] at short
    omega
  · exact under_of_dotted ends
  · exact under_of_dotted (suffix.trans ((suffix_cons dot rest).trans ends))

theorem under_meets {label rest base : List α} (below : Under dot (label ++ dot :: rest) base) :
    Under dot rest base ∨ Under dot base rest ∨ (base = rest ∧ base.head? = some dot) := by
  have ends : dot :: rest <:+ label ++ dot :: rest := suffix_append _ _
  rcases below with rfl | ⟨leading, suffix, _⟩ | ⟨plain, rfl | suffix⟩
  · exact .inl (under_root _)
  · rcases suffix_or_suffix_of_suffix suffix ends with inside | outside
    · rcases suffix_cons_iff.mp inside with rfl | inside
      · exact .inr (.inl (under_of_dotted (suffix_refl _)))
      by_cases same : base = rest
      · exact .inr (.inr ⟨same, leading⟩)
      · exact .inl (.inr (.inl ⟨leading, inside, same⟩))
    · exact .inr (.inl (under_of_dotted outside))
  · exact .inr (.inl (under_of_dotted ends))
  rcases suffix_or_suffix_of_suffix suffix ends with inside | outside
  · rcases suffix_cons_iff.mp inside with same | inside
    · obtain rfl := (List.cons.inj same).2
      exact .inl (under_self plain)
    · exact .inl (under_of_dotted inside)
  rcases suffix_cons_iff.mp outside with same | outside
  · obtain rfl := (List.cons.inj same).2
    exact .inl (under_self plain)
  · exact .inr (.inl (under_of_dotted outside))

end ProvenC.Lib.Dotted

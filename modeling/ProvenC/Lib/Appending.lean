import ProvenC.Lib.Cells

/-!
# Output written from a place on

Cells and the place where the next value goes.
-/

namespace ProvenC.Lib.Appending

open Lib.Cells

variable {Value : Type}

structure Output (Value : Type) where
  cells : Nat → Value
  place : Nat

def put (out : Output Value) (values : List Value) : Output Value :=
  ⟨storedAll out.cells out.place values, out.place + values.length⟩

/-- The step wrote `text`, and stored nothing from `reach` on. -/
structure Wrote (out out' : Output Value) (text : List Value) (reach : Nat) : Prop where
  place : out'.place = out.place + text.length
  written : range out'.cells out.place text.length = text
  within : text.length ≤ reach
  outside : ∀ i, i < out.place ∨ out.place + reach ≤ i → out'.cells i = out.cells i

variable {out out' out'' : Output Value} {text more : List Value} {reach reach' : Nat}

theorem wrote_nothing (out : Output Value) (reach : Nat) : Wrote out out [] reach :=
  ⟨rfl, rfl, Nat.zero_le _, fun _ _ => rfl⟩

theorem wrote_put (out : Output Value) (text : List Value) : Wrote out (put out text) text text.length :=
  ⟨rfl, stored_all_range _ _ _, le_refl _, fun _ outside => stored_all_outside _ _ _ outside⟩

theorem Wrote.further (wrote : Wrote out out' text reach) (enough : reach ≤ reach') : Wrote out out' text reach' :=
  ⟨wrote.place, wrote.written, wrote.within.trans enough, fun i outside => wrote.outside i (by omega)⟩

theorem Wrote.next (first : Wrote out out' text reach) (second : Wrote out' out'' more reach') :
    Wrote out out'' (text ++ more) (reach + reach') := by
  have place := first.place
  have within := first.within
  have withinMore := second.within
  refine ⟨?_, ?_, ?_, fun i outside => ?_⟩
  · rw [second.place, place, List.length_append, add_assoc]
  · rw [List.length_append, range_append, ← place, second.written]
    congr 1
    refine Eq.trans (range_eq fun i inside => ?_) first.written
    exact second.outside _ (Or.inl (by omega))
  · rw [List.length_append]
    omega
  · rw [second.outside i (by omega), first.outside i (by omega)]

theorem Wrote.instead {scratched : Nat → Value} (wrote : Wrote ⟨scratched, out.place⟩ out' text reach)
    (outside : ∀ i, i < out.place ∨ out.place + reach ≤ i → scratched i = out.cells i) : Wrote out out' text reach :=
  ⟨wrote.place, wrote.written, wrote.within, fun i away => (wrote.outside i away).trans (outside i away)⟩

end ProvenC.Lib.Appending

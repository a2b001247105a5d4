import Mathlib
import ProvenC.Lib.Cells

/-!
# Lines of a text

A line ends before the first newline, or with the text; a carriage return right before the newline is
not part of it.
-/

namespace ProvenC.Lib.Lines

open List Cells

variable {Char : Type} [DecidableEq Char] (newline carriage : Char)

def stripped (line : List Char) : List Char :=
  if line.getLast? = some carriage then line.dropLast else line

def content (text : List Char) : List Char := text.takeWhile (· ≠ newline)

def firstLine (text : List Char) : List Char :=
  if (content newline text).length < text.length then stripped carriage (content newline text) else content newline text

def afterLine (text : List Char) : List Char := (text.dropWhile (· ≠ newline)).drop 1

variable {newline carriage}

theorem no_newline {text : List Char} (plain : newline ∉ text) : ∀ c ∈ text, decide (c ≠ newline) = true := by
  intro c there
  apply decide_eq_true
  rintro rfl
  exact plain there

theorem line_ended {before rest : List Char} (plain : newline ∉ before) :
    content newline (before ++ newline :: rest) = before ∧
      firstLine newline carriage (before ++ newline :: rest) = stripped carriage before ∧
      afterLine newline (before ++ newline :: rest) = rest := by
  have taken : content newline (before ++ newline :: rest) = before := by
    unfold content
    rw [takeWhile_append_of_pos (no_newline plain), takeWhile_cons_of_neg (by simp), append_nil]
  refine ⟨taken, ?_, ?_⟩
  · unfold firstLine
    rw [taken, if_pos (by simp)]
  unfold afterLine
  rw [dropWhile_append_of_pos (no_newline plain), dropWhile_cons_of_neg (by simp)]
  rfl

theorem line_open {text : List Char} (plain : newline ∉ text) :
    content newline text = text ∧ firstLine newline carriage text = text ∧ afterLine newline text = [] := by
  have taken : content newline text = text := takeWhile_eq_self_iff.mpr (no_newline plain)
  refine ⟨taken, ?_, ?_⟩
  · unfold firstLine
    rw [taken, if_neg (lt_irrefl _)]
  unfold afterLine
  rw [dropWhile_eq_nil_iff.mpr (no_newline plain)]
  rfl

theorem stripped_nil : stripped carriage [] = [] := by
  unfold stripped
  rw [if_neg]
  exact Option.some_ne_none carriage ∘ Eq.symm

theorem stripped_concat (line : List Char) (c : Char) :
    stripped carriage (line ++ [c]) = if c = carriage then line else line ++ [c] := by
  unfold stripped
  rw [List.getLast?_append, List.getLast?_singleton, Option.some_or, dropLast_concat]
  exact if_congr Option.some_inj rfl rfl

theorem line_up_to (buf : Nat → Char) (low i : Nat) :
    range buf low ((if i > low ∧ buf (i - 1) = carriage then i - 1 else i) - low) = stripped carriage (range buf low (i - low)) := by
  by_cases some_ : i > low
  · have last : range buf low (i - low) = range buf low (i - 1 - low) ++ [buf (i - 1)] := by
      rw [show i - low = i - 1 - low + 1 by omega, range_append, Cells.range_one]
      congr 3
      omega
    rw [last, stripped_concat]
    by_cases same : buf (i - 1) = carriage
    · rw [if_pos ⟨some_, same⟩, if_pos same]
    · rw [if_neg (fun both => same both.2), if_neg same, last]
  rw [if_neg (fun both => some_ both.1), show i - low = 0 by omega]
  exact stripped_nil.symm

/-- The first of `count` places from `place` on that holds `c`. -/
def firstAt (buf : Nat → Char) (c : Char) (place : Nat) : Nat → Option Nat
  | 0 => none
  | count + 1 => if buf place = c then some place else firstAt buf c (place + 1) count

theorem first_at_none {buf : Nat → Char} {c : Char} {place count : Nat} (searched : firstAt buf c place count = none) :
    c ∉ range buf place count := by
  induction count generalizing place with
  | zero => exact not_mem_nil
  | succ count ih =>
    unfold firstAt at searched
    split at searched
    · cases searched
    rename_i other
    rw [Cells.range_succ, mem_cons]
    rintro (same | there)
    · exact other same.symm
    · exact ih searched there

theorem first_at_some {buf : Nat → Char} {c : Char} {place count i : Nat} (found : firstAt buf c place count = some i) :
    place ≤ i ∧ i < place + count ∧ buf i = c ∧ c ∉ range buf place (i - place) := by
  induction count generalizing place with
  | zero => cases found
  | succ count ih =>
    unfold firstAt at found
    split at found
    next here =>
      obtain rfl := Option.some.inj found
      refine ⟨le_refl _, by omega, here, ?_⟩
      rw [tsub_self]
      exact not_mem_nil
    rename_i other
    obtain ⟨low, high, here, none_⟩ := ih found
    refine ⟨by omega, by omega, here, ?_⟩
    rw [show i - place = i - (place + 1) + 1 by omega, Cells.range_succ, mem_cons]
    rintro (same | there)
    · exact other same.symm
    · exact none_ there

theorem stripped_le (line : List Char) : (stripped carriage line).length ≤ line.length := by
  unfold stripped
  split
  · rw [length_dropLast]
    omega
  · exact le_refl _

theorem first_line_le (text : List Char) : (firstLine newline carriage text).length ≤ (content newline text).length := by
  unfold firstLine
  split
  · exact stripped_le _
  · exact le_refl _

variable (newline) in
theorem newline_cases (text : List Char) :
    newline ∉ text ∨ ∃ before rest, newline ∉ before ∧ text = before ++ newline :: rest := by
  by_cases there : newline ∈ text
  · obtain ⟨before, rest, same, first⟩ := eq_append_cons_of_mem there
    exact Or.inr ⟨before, rest, first, same⟩
  · exact Or.inl there

theorem content_longer {held rest : List Char} {c : Char} (plain : newline ∉ held) (other : c ≠ newline) :
    held.length < (content newline (held ++ c :: rest)).length := by
  unfold content
  rw [takeWhile_append_of_pos (no_newline plain), takeWhile_cons, if_pos (decide_eq_true other),
    length_append, length_cons]
  omega

theorem line_tight {line rest : List Char} (plain : newline ∉ line) (other : carriage ≠ newline) :
    content newline (line ++ carriage :: newline :: rest) = line ++ [carriage] ∧
      firstLine newline carriage (line ++ carriage :: newline :: rest) = line := by
  have plain' : newline ∉ line ++ [carriage] := by
    rw [mem_append, mem_singleton]
    rintro (there | same)
    · exact plain there
    · exact other same.symm
  have joined : line ++ carriage :: newline :: rest = (line ++ [carriage]) ++ newline :: rest := by
    rw [append_assoc, singleton_append]
  obtain ⟨whole, stripped_, -⟩ := @line_ended _ _ newline carriage _ rest plain'
  rw [joined]
  refine ⟨whole, ?_⟩
  rw [stripped_, stripped_concat, if_pos rfl]

theorem line_longer {text : List Char} {size : Nat} (long : size < (content newline text).length)
    (loose : ¬∃ line rest, line.length = size ∧ newline ∉ line ∧ text = line ++ carriage :: newline :: rest) :
    size < (firstLine newline carriage text).length := by
  rcases newline_cases newline text with plain | ⟨before, rest, plain, same⟩
  · obtain ⟨whole, line, -⟩ := @line_open _ _ newline carriage _ plain
    rw [line]
    rw [whole] at long
    exact long
  obtain ⟨whole, line, -⟩ := @line_ended _ _ newline carriage _ rest plain
  rw [← same] at whole line
  rw [whole] at long
  rw [line]
  rcases eq_nil_or_concat before with rfl | ⟨front, c, rfl⟩
  · exact absurd long (Nat.not_lt_zero _)
  rw [concat_eq_append] at *
  rw [stripped_concat]
  split
  next last =>
    subst last
    rw [length_append, length_singleton] at long
    by_contra short
    refine loose ⟨front, rest, by omega, fun there => plain (mem_append_left _ there), ?_⟩
    rw [same, append_assoc]
    rfl
  · exact long

end ProvenC.Lib.Lines

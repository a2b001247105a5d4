import ProvenC.Hpack.Tables
import ProvenC.Lib.Fifo

/-!
# The dynamic table (RFC 7541, section 4)

The ring of entries and the byte arena behind it hold a queue, oldest entry first; here the table is
that queue and the size in force.
-/

namespace ProvenC.Hpack.Table

open Bytes Lib.Fifo

@[ext]
structure Field where
  name : List Byte
  value : List Byte
  deriving DecidableEq, Repr

def hpackEntryOverhead : Nat := 32

def fieldSize (field : Field) : Nat :=
  field.name.length + field.value.length + hpackEntryOverhead

theorem field_size_pos (field : Field) : 0 < fieldSize field := by
  simp [fieldSize, hpackEntryOverhead]

structure HpTable where
  entries : List Field
  max : Nat
  deriving DecidableEq, Repr

namespace HpTable

def count (table : HpTable) : Nat := table.entries.length

def size (table : HpTable) : Nat := total fieldSize table.entries

end HpTable

/-- `hp_at`: index 0 is the newest. -/
def hpAt (table : HpTable) (newestFirst : Nat) : Option Field :=
  table.entries.reverse[newestFirst]?

def hpTableShrinkTo (table : HpTable) (max : Nat) : HpTable :=
  { table with entries := evictTo fieldSize max table.entries }

def hpTableAdd (table : HpTable) (name value : List Byte) : HpTable :=
  let need := name.length + value.length + hpackEntryOverhead
  if table.max < need then hpTableShrinkTo table 0
  else
    let room := hpTableShrinkTo table (table.max - need)
    { room with entries := room.entries ++ [⟨name, value⟩] }

@[simp] theorem shrink_max (table : HpTable) (max : Nat) : (hpTableShrinkTo table max).max = table.max := rfl

@[simp] theorem add_max (table : HpTable) (name value : List Byte) : (hpTableAdd table name value).max = table.max := by
  unfold hpTableAdd
  simp only
  split <;> rfl

theorem shrink_size (table : HpTable) (max : Nat) : (hpTableShrinkTo table max).size ≤ max :=
  total_evict_to fieldSize max table.entries

theorem add_size (table : HpTable) (name value : List Byte) : (hpTableAdd table name value).size ≤ table.max := by
  unfold hpTableAdd
  simp only
  split
  · exact (shrink_size table 0).trans (Nat.zero_le _)
  have kept := shrink_size table (table.max - (name.length + value.length + hpackEntryOverhead))
  simp only [HpTable.size, total_append, total_cons, total_nil, fieldSize] at kept ⊢
  omega

theorem add_suffix {left right : HpTable} (name value : List Byte) (max : left.max ≤ right.max)
    (fits : fieldSize ⟨name, value⟩ ≤ left.max) (suffix : left.entries <:+ right.entries) :
    (hpTableAdd left name value).entries <:+ (hpTableAdd right name value).entries := by
  have need : fieldSize ⟨name, value⟩ = name.length + value.length + hpackEntryOverhead := rfl
  unfold hpTableAdd
  simp only
  rw [if_neg (by omega), if_neg (by omega)]
  obtain ⟨front, same⟩ := evict_to_mono fieldSize
    (show left.max - fieldSize ⟨name, value⟩ ≤ right.max - fieldSize ⟨name, value⟩ by omega) suffix
  exact ⟨front, by simp only [hpTableShrinkTo]; rw [← need, ← same, List.append_assoc]⟩

theorem hp_at_lt {table : HpTable} {index : Nat} {field : Field}
    (found : hpAt table index = some field) : index < table.count := by
  obtain ⟨inside, -⟩ := List.getElem?_eq_some_iff.mp found
  simpa [HpTable.count] using inside

theorem hp_at_suffix {left right : HpTable} (suffix : left.entries <:+ right.entries)
    {index : Nat} {field : Field} (found : hpAt left index = some field) : hpAt right index = some field := by
  unfold hpAt
  rw [suffix_reverse_get suffix (hp_at_lt found)]
  exact found

end ProvenC.Hpack.Table

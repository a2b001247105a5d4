import Mathlib

/-!
# Unicode text as bytes and as 16-bit units

Scalar values, the UTF-8 grammar of RFC 3629 section 4, and the two encodings. A byte is a
`Fin 256`, a unit a `Fin 65536`.
-/

namespace ProvenC.Lib.Unicode

open List

def IsScalar (cp : Nat) : Prop := cp < 0xD800 ∨ (0xDFFF < cp ∧ cp < 0x110000)

instance (cp : Nat) : Decidable (IsScalar cp) := inferInstanceAs (Decidable (_ ∨ _))

local instance octetNeZero : NeZero 256 := ⟨by decide⟩

instance unitNeZero : NeZero 65536 := ⟨by decide⟩

def octet (value : Nat) : Fin 256 := Fin.ofNat 256 value

def unit16 (value : Nat) : Fin 65536 := Fin.ofNat 65536 value

theorem octet_val (value : Nat) : (octet value).val = value % 256 := rfl

theorem unit16_val (value : Nat) : (unit16 value).val = value % 65536 := rfl

def Tail (byte : Fin 256) : Prop := 0x80 ≤ byte.val ∧ byte.val ≤ 0xBF

/-- `UTF8-char`: the lead bytes E0, ED, F0 and F4 narrow the range of the second byte. -/
inductive Utf8Char : List (Fin 256) → Prop where
  | one (a : Fin 256) (lead : a.val < 0x80) : Utf8Char [a]
  | two (a b : Fin 256) (lead : 0xC2 ≤ a.val ∧ a.val ≤ 0xDF) (second : Tail b) : Utf8Char [a, b]
  | three (a b c : Fin 256) (lead : 0xE0 ≤ a.val ∧ a.val ≤ 0xEF) (second : Tail b) (third : Tail c)
      (low : a.val = 0xE0 → 0xA0 ≤ b.val) (high : a.val = 0xED → b.val ≤ 0x9F) : Utf8Char [a, b, c]
  | four (a b c d : Fin 256) (lead : 0xF0 ≤ a.val ∧ a.val ≤ 0xF4) (second : Tail b) (third : Tail c) (fourth : Tail d)
      (low : a.val = 0xF0 → 0x90 ≤ b.val) (high : a.val = 0xF4 → b.val ≤ 0x8F) : Utf8Char [a, b, c, d]

/-- `UTF8-octets`: any number of characters. -/
inductive Utf8Text : List (Fin 256) → Prop where
  | nil : Utf8Text []
  | char (first rest : List (Fin 256)) (isChar : Utf8Char first) (isText : Utf8Text rest) : Utf8Text (first ++ rest)

def utf8Of (cp : Nat) : List (Fin 256) :=
  if cp < 0x80 then [octet cp]
  else if cp < 0x800 then [octet (0xC0 + cp / 64), octet (0x80 + cp % 64)]
  else if cp < 0x10000 then [octet (0xE0 + cp / 4096), octet (0x80 + cp / 64 % 64), octet (0x80 + cp % 64)]
  else
    [octet (0xF0 + cp / 262144), octet (0x80 + cp / 4096 % 64), octet (0x80 + cp / 64 % 64), octet (0x80 + cp % 64)]

def utf16Of (cp : Nat) : List (Fin 65536) :=
  if cp < 0x10000 then [unit16 cp]
  else [unit16 (0xD800 + (cp - 0x10000) / 1024), unit16 (0xDC00 + (cp - 0x10000) % 1024)]

def utf8Text (cps : List Nat) : List (Fin 256) := cps.flatMap utf8Of

def utf16Text (cps : List Nat) : List (Fin 65536) := cps.flatMap utf16Of

def Scalars (cps : List Nat) : Prop := ∀ cp ∈ cps, IsScalar cp

instance (cps : List Nat) : Decidable (Scalars cps) := inferInstanceAs (Decidable (∀ cp ∈ cps, IsScalar cp))

def Utf16Text (units : List (Fin 65536)) : Prop := ∃ cps, Scalars cps ∧ units = utf16Text cps

variable {cp : Nat}

theorem utf8_of_positive (cp : Nat) : 0 < (utf8Of cp).length := by
  unfold utf8Of
  split_ifs <;> exact Nat.succ_pos _

theorem utf16_of_positive (cp : Nat) : 0 < (utf16Of cp).length := by
  unfold utf16Of
  split_ifs <;> exact Nat.succ_pos _

theorem utf8_of_char (scalar : IsScalar cp) : Utf8Char (utf8Of cp) := by
  unfold IsScalar at scalar
  unfold utf8Of
  split_ifs with one two three
  · apply Utf8Char.one
    rw [octet_val]
    omega
  · apply Utf8Char.two
    · rw [octet_val]
      omega
    unfold Tail
    rw [octet_val]
    omega
  · apply Utf8Char.three
    · rw [octet_val]
      omega
    · unfold Tail
      rw [octet_val]
      omega
    · unfold Tail
      rw [octet_val]
      omega
    · rw [octet_val, octet_val]
      omega
    rw [octet_val, octet_val]
    omega
  apply Utf8Char.four
  · rw [octet_val]
    omega
  · unfold Tail
    rw [octet_val]
    omega
  · unfold Tail
    rw [octet_val]
    omega
  · unfold Tail
    rw [octet_val]
    omega
  · rw [octet_val, octet_val]
    omega
  rw [octet_val, octet_val]
  omega

theorem octet_eq {b : Fin 256} {value : Nat} (same : b.val = value) : b = octet value := by
  apply Fin.ext
  rw [octet_val, ← same, Nat.mod_eq_of_lt b.isLt]

theorem char_utf8_of {char : List (Fin 256)} (isChar : Utf8Char char) : ∃ cp, IsScalar cp ∧ char = utf8Of cp := by
  cases isChar with
  | one a lead =>
    refine ⟨a.val, Or.inl (by omega), ?_⟩
    unfold utf8Of
    rw [if_pos lead, ← octet_eq rfl]
  | two a b lead second =>
    unfold Tail at second
    refine ⟨(a.val - 0xC0) * 64 + (b.val - 0x80), Or.inl (by omega), ?_⟩
    unfold utf8Of
    rw [if_neg (by omega), if_pos (by omega), ← octet_eq (b := a) (by omega), ← octet_eq (b := b) (by omega)]
  | three a b c lead second third low high =>
    unfold Tail at second third
    refine ⟨(a.val - 0xE0) * 4096 + (b.val - 0x80) * 64 + (c.val - 0x80), ?_, ?_⟩
    · unfold IsScalar
      omega
    unfold utf8Of
    rw [if_neg (by omega), if_neg (by omega), if_pos (by omega), ← octet_eq (b := a) (by omega),
      ← octet_eq (b := b) (by omega), ← octet_eq (b := c) (by omega)]
  | four a b c d lead second third fourth low high =>
    unfold Tail at second third fourth
    refine ⟨(a.val - 0xF0) * 262144 + (b.val - 0x80) * 4096 + (c.val - 0x80) * 64 + (d.val - 0x80), ?_, ?_⟩
    · unfold IsScalar
      omega
    unfold utf8Of
    rw [if_neg (by omega), if_neg (by omega), if_neg (by omega), ← octet_eq (b := a) (by omega),
      ← octet_eq (b := b) (by omega), ← octet_eq (b := c) (by omega), ← octet_eq (b := d) (by omega)]

theorem text_iff_scalars (bytes : List (Fin 256)) : Utf8Text bytes ↔ ∃ cps, Scalars cps ∧ bytes = utf8Text cps := by
  constructor
  · intro isText
    induction isText with
    | nil => exact ⟨[], fun _ among => absurd among not_mem_nil, rfl⟩
    | char first rest isChar _ ih =>
      obtain ⟨cp, scalar, rfl⟩ := char_utf8_of isChar
      obtain ⟨cps, scalars, rfl⟩ := ih
      exact ⟨cp :: cps, forall_mem_cons.mpr ⟨scalar, scalars⟩, rfl⟩
  intro isText
  obtain ⟨cps, scalars, rfl⟩ := isText
  induction cps with
  | nil => exact Utf8Text.nil
  | cons cp cps ih =>
    obtain ⟨scalar, later⟩ := forall_mem_cons.mp scalars
    exact Utf8Text.char _ _ (utf8_of_char scalar) (ih later)

theorem utf8_text_append {front back : List (Fin 256)} (frontText : Utf8Text front) (backText : Utf8Text back) :
    Utf8Text (front ++ back) := by
  induction frontText with
  | nil => exact backText
  | char first rest isChar _ ih =>
    rw [append_assoc]
    exact Utf8Text.char first _ isChar ih

theorem utf8_char_ascii {char : List (Fin 256)} {byte : Fin 256} (isChar : Utf8Char char) (among : byte ∈ char)
    (ascii : byte.val < 0x80) : char = [byte] := by
  have notTail : ∀ {other : Fin 256}, Tail other → byte ≠ other := by
    intro other tail same
    rw [same] at ascii
    exact absurd tail.1 (not_le.mpr ascii)
  have notLead : ∀ {other : Fin 256}, 0x80 ≤ other.val → byte ≠ other := by
    intro other high same
    rw [same] at ascii
    omega
  cases isChar with
  | one a lead => rw [mem_singleton.mp among]
  | two a b lead second =>
    rcases mem_cons.mp among with same | among
    · exact absurd same (notLead (by omega))
    · exact absurd (mem_singleton.mp among) (notTail second)
  | three a b c lead second third low high =>
    rcases mem_cons.mp among with same | among
    · exact absurd same (notLead (by omega))
    rcases mem_cons.mp among with same | among
    · exact absurd same (notTail second)
    · exact absurd (mem_singleton.mp among) (notTail third)
  | four a b c d lead second third fourth low high =>
    rcases mem_cons.mp among with same | among
    · exact absurd same (notLead (by omega))
    rcases mem_cons.mp among with same | among
    · exact absurd same (notTail second)
    rcases mem_cons.mp among with same | among
    · exact absurd same (notTail third)
    · exact absurd (mem_singleton.mp among) (notTail fourth)

theorem utf8_text_split {front back : List (Fin 256)} {byte : Fin 256} (isText : Utf8Text (front ++ byte :: back))
    (ascii : byte.val < 0x80) : Utf8Text front ∧ Utf8Text back := by
  generalize whole : front ++ byte :: back = bytes at isText
  induction isText generalizing front with
  | nil => exact absurd whole (append_ne_nil_of_right_ne_nil front (cons_ne_nil _ _))
  | char first rest isChar isText ih =>
    rcases append_eq_append_iff.mp whole with ⟨middle, atFirst, atRest⟩ | ⟨middle, atFront, atRest⟩
    · cases middle with
      | nil =>
        rw [append_nil] at atFirst
        subst atFirst
        rw [nil_append] at atRest
        have later : ([] : List (Fin 256)) ++ byte :: back = rest := atRest
        have frontText := Utf8Text.char first [] isChar Utf8Text.nil
        rw [append_nil] at frontText
        exact ⟨frontText, (ih later).2⟩
      | cons head middle =>
        obtain ⟨rfl, sameRest⟩ := List.cons.inj atRest
        have single := utf8_char_ascii isChar (by rw [atFirst]; simp) ascii
        rw [atFirst, append_eq_singleton_iff] at single
        rcases single with ⟨frontNil, middleNil⟩ | ⟨_, wrong⟩
        · have noMiddle : middle = [] := (List.cons.inj middleNil).2
          rw [frontNil, sameRest, noMiddle]
          exact ⟨Utf8Text.nil, isText⟩
        · cases wrong
    obtain ⟨middleText, backText⟩ := ih atRest.symm
    rw [atFront]
    exact ⟨Utf8Text.char first middle isChar middleText, backText⟩

end ProvenC.Lib.Unicode

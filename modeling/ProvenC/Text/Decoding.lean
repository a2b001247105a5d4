import ProvenC.Text.Utf

/-!
# The decoders accept the encoded scalar values

A decoder finds a whole character exactly where the input begins with the form of a scalar value,
and finds that value. The writers write that form.
-/

namespace ProvenC.Text.Decoding

open List Bytes Lib.Unicode Text.Utf

variable {cp len : Nat}

theorem low_six (value : Nat) : value &&& 0x3F = value % 64 := Nat.and_two_pow_sub_one_eq_mod value 6

theorem shifted_or (cp value : Nat) : (cp <<< 6) ||| (value &&& 0x3F) = cp * 64 + value % 64 := by
  rw [low_six]
  have small : value % 64 < 2 ^ 6 := Nat.mod_lt _ (by decide)
  rw [← Nat.shiftLeft_add_eq_or_of_lt small, Nat.shiftLeft_eq]

theorem lead_or (lead : Nat) {bits value : Nat} (small : value < 2 ^ bits) : 2 ^ bits * lead ||| value = 2 ^ bits * lead + value :=
  (Nat.two_pow_add_eq_or_of_lt small lead).symm

theorem follow_or (value : Nat) : 0x80 ||| (value &&& 0x3F) = 0x80 + value % 64 := by
  rw [low_six]
  have small : value % 64 < 2 ^ 7 := by omega
  exact lead_or 1 small

theorem utf8_rest_cons (left i lo hi cp : Nat) (b : Byte) (rest : List Byte) :
    utf8Rest (left + 1) i lo hi cp (b :: rest) =
      if b.val < lo ∨ hi < b.val then .bad i else utf8Rest left (i + 1) 0x80 0xBF (cp * 64 + b.val % 64) rest := by
  rw [utf8Rest, shifted_or]

theorem decode_utf8_of (scalar : IsScalar cp) (rest : List Byte) :
    utf8DecodeSpan (utf8Of cp ++ rest) = .whole cp (utf8Of cp).length := by
  unfold IsScalar at scalar
  unfold utf8Of
  split_ifs with one two three
  · rw [singleton_append, utf8DecodeSpan, octet_val, Nat.mod_eq_of_lt (by omega), if_pos one]
    rfl
  · rw [cons_append, singleton_append, utf8DecodeSpan, octet_val, Nat.mod_eq_of_lt (by omega),
      if_neg (by omega), if_neg (by omega), if_pos (by omega), utf8_rest_cons, octet_val, if_neg (by omega), utf8Rest]
    have low : 192 + cp / 64 &&& 0x1F = (192 + cp / 64) % 32 := Nat.and_two_pow_sub_one_eq_mod _ 5
    rw [low]
    congr 1
    omega
  · rw [cons_append, cons_append, singleton_append, utf8DecodeSpan, octet_val,
      Nat.mod_eq_of_lt (by omega), if_neg (by omega), if_neg (by omega), if_neg (by omega), if_pos (by omega),
      utf8_rest_cons, octet_val, if_neg (by split_ifs <;> omega), utf8_rest_cons, octet_val, if_neg (by omega), utf8Rest]
    have low : 224 + cp / 4096 &&& 0x0F = (224 + cp / 4096) % 16 := Nat.and_two_pow_sub_one_eq_mod _ 4
    rw [low]
    congr 1
    omega
  rw [cons_append, cons_append, cons_append, singleton_append, utf8DecodeSpan, octet_val,
    Nat.mod_eq_of_lt (by omega), if_neg (by omega), if_neg (by omega), if_neg (by omega), if_neg (by omega),
    if_pos (by omega), utf8_rest_cons, octet_val, if_neg (by split_ifs <;> omega), utf8_rest_cons, octet_val,
    if_neg (by omega), utf8_rest_cons, octet_val, if_neg (by omega), utf8Rest]
  have low : 240 + cp / 262144 &&& 0x07 = (240 + cp / 262144) % 8 := Nat.and_two_pow_sub_one_eq_mod _ 3
  rw [low]
  congr 1
  omega

theorem utf8_rest_whole {left i lo hi value : Nat} {bytes : List Byte}
    (found : utf8Rest (left + 1) i lo hi value bytes = .whole cp len) :
    ∃ b rest, bytes = b :: rest ∧ lo ≤ b.val ∧ b.val ≤ hi ∧
      utf8Rest left (i + 1) 0x80 0xBF (value * 64 + b.val % 64) rest = .whole cp len := by
  cases bytes with
  | nil => cases found
  | cons b rest =>
    rw [utf8_rest_cons] at found
    split at found
    · cases found
    rename_i inside
    exact ⟨b, rest, rfl, by omega, by omega, found⟩

theorem utf8_rest_done {i lo hi value : Nat} {bytes : List Byte} (found : utf8Rest 0 i lo hi value bytes = .whole cp len) :
    cp = value ∧ len = i := by
  obtain ⟨one, two⟩ := Decoded.whole.inj found
  exact ⟨one.symm, two.symm⟩

theorem char_two {a b : Byte} (lead : 0xC2 ≤ a.val ∧ a.val < 0xE0) (second : 0x80 ≤ b.val ∧ b.val ≤ 0xBF)
    (value : cp = (a.val &&& 0x1F) * 64 + b.val % 64) : IsScalar cp ∧ utf8Of cp = [a, b] := by
  have low : a.val &&& 0x1F = a.val % 32 := Nat.and_two_pow_sub_one_eq_mod _ 5
  rw [low] at value
  refine ⟨Or.inl (by omega), ?_⟩
  unfold utf8Of
  rw [if_neg (by omega), if_pos (by omega), ← octet_eq (b := a) (by omega), ← octet_eq (b := b) (by omega)]

theorem char_three {a b c : Byte} (lead : 0xE0 ≤ a.val ∧ a.val < 0xF0)
    (second : (if a.val = 0xE0 then 0xA0 else 0x80) ≤ b.val ∧ b.val ≤ if a.val = 0xED then 0x9F else 0xBF)
    (third : 0x80 ≤ c.val ∧ c.val ≤ 0xBF) (value : cp = ((a.val &&& 0x0F) * 64 + b.val % 64) * 64 + c.val % 64) :
    IsScalar cp ∧ utf8Of cp = [a, b, c] := by
  have low : a.val &&& 0x0F = a.val % 16 := Nat.and_two_pow_sub_one_eq_mod _ 4
  rw [low] at value
  unfold IsScalar utf8Of
  split_ifs at second with e0 ed
  · exact absurd (e0.symm.trans ed) (by decide)
  all_goals
    refine ⟨by omega, ?_⟩
    rw [if_neg (by omega), if_neg (by omega), if_pos (by omega), ← octet_eq (b := a) (by omega),
      ← octet_eq (b := b) (by omega), ← octet_eq (b := c) (by omega)]

theorem char_four {a b c d : Byte} (lead : 0xF0 ≤ a.val ∧ a.val < 0xF5)
    (second : (if a.val = 0xF0 then 0x90 else 0x80) ≤ b.val ∧ b.val ≤ if a.val = 0xF4 then 0x8F else 0xBF)
    (third : 0x80 ≤ c.val ∧ c.val ≤ 0xBF) (fourth : 0x80 ≤ d.val ∧ d.val ≤ 0xBF)
    (value : cp = (((a.val &&& 0x07) * 64 + b.val % 64) * 64 + c.val % 64) * 64 + d.val % 64) :
    IsScalar cp ∧ utf8Of cp = [a, b, c, d] := by
  have low : a.val &&& 0x07 = a.val % 8 := Nat.and_two_pow_sub_one_eq_mod _ 3
  rw [low] at value
  unfold IsScalar utf8Of
  split_ifs at second with f0 f4
  · exact absurd (f0.symm.trans f4) (by decide)
  all_goals
    refine ⟨by omega, ?_⟩
    rw [if_neg (by omega), if_neg (by omega), if_neg (by omega), ← octet_eq (b := a) (by omega),
      ← octet_eq (b := b) (by omega), ← octet_eq (b := c) (by omega), ← octet_eq (b := d) (by omega)]

theorem decode_utf8_whole {s : List Byte} (found : utf8DecodeSpan s = .whole cp len) :
    IsScalar cp ∧ len = (utf8Of cp).length ∧ s = utf8Of cp ++ s.drop len := by
  cases s with
  | nil => cases found
  | cons a rest =>
    rw [utf8DecodeSpan] at found
    by_cases one : a.val < 0x80
    · rw [if_pos one] at found
      obtain ⟨rfl, rfl⟩ := Decoded.whole.inj found
      have form : utf8Of a.val = [a] := by
        unfold utf8Of
        rw [if_pos one, ← octet_eq rfl]
      rw [form]
      exact ⟨Or.inl (by omega), rfl, rfl⟩
    rw [if_neg one] at found
    by_cases low : a.val < 0xC2
    · rw [if_pos low] at found
      cases found
    rw [if_neg low] at found
    by_cases two : a.val < 0xE0
    · rw [if_pos two] at found
      obtain ⟨b, rest, rfl, least, most, found⟩ := utf8_rest_whole found
      obtain ⟨value, rfl⟩ := utf8_rest_done found
      obtain ⟨scalar, form⟩ := char_two ⟨by omega, two⟩ ⟨least, most⟩ value
      rw [form]
      exact ⟨scalar, rfl, rfl⟩
    rw [if_neg two] at found
    by_cases three : a.val < 0xF0
    · rw [if_pos three] at found
      obtain ⟨b, rest, rfl, least, most, found⟩ := utf8_rest_whole found
      obtain ⟨c, rest, rfl, least', most', found⟩ := utf8_rest_whole found
      obtain ⟨value, rfl⟩ := utf8_rest_done found
      obtain ⟨scalar, form⟩ := char_three ⟨by omega, three⟩ ⟨least, most⟩ ⟨least', most'⟩ value
      rw [form]
      exact ⟨scalar, rfl, rfl⟩
    rw [if_neg three] at found
    by_cases four : a.val < 0xF5
    · rw [if_pos four] at found
      obtain ⟨b, rest, rfl, least, most, found⟩ := utf8_rest_whole found
      obtain ⟨c, rest, rfl, least', most', found⟩ := utf8_rest_whole found
      obtain ⟨d, rest, rfl, least'', most'', found⟩ := utf8_rest_whole found
      obtain ⟨value, rfl⟩ := utf8_rest_done found
      obtain ⟨scalar, form⟩ :=
        char_four ⟨by omega, four⟩ ⟨least, most⟩ ⟨least', most'⟩ ⟨least'', most''⟩ value
      rw [form]
      exact ⟨scalar, rfl, rfl⟩
    rw [if_neg four] at found
    cases found

theorem utf8_put_of (scalar : IsScalar cp) : utf8Put cp (utf8Width cp) = utf8Of cp := by
  unfold IsScalar at scalar
  unfold utf8Width utf8Of
  split_ifs with one two three
  · rfl
  · have lead : 0xC0 ||| (cp >>> 6) = 0xC0 + cp / 64 := by
      rw [Nat.shiftRight_eq_div_pow]
      exact lead_or 3 (show cp / 2 ^ 6 < 2 ^ 6 by omega)
    unfold utf8Put
    rw [lead, follow_or]
    rfl
  · have lead : 0xE0 ||| (cp >>> 12) = 0xE0 + cp / 4096 := by
      rw [Nat.shiftRight_eq_div_pow]
      exact lead_or 7 (show cp / 2 ^ 12 < 2 ^ 5 by omega)
    unfold utf8Put
    rw [lead, follow_or, follow_or, Nat.shiftRight_eq_div_pow]
    rfl
  have lead : 0xF0 ||| (cp >>> 18) = 0xF0 + cp / 262144 := by
    rw [Nat.shiftRight_eq_div_pow]
    exact lead_or 15 (show cp / 2 ^ 18 < 2 ^ 4 by omega)
  unfold utf8Put
  rw [lead, follow_or, follow_or, follow_or, Nat.shiftRight_eq_div_pow, Nat.shiftRight_eq_div_pow]
  rfl

theorem utf16_put_of (cp : Nat) : utf16Put cp = utf16Of cp := by
  unfold utf16Put utf16Of
  by_cases pair : 0x10000 ≤ cp
  · have low : (cp - 0x10000) &&& 0x3FF = (cp - 0x10000) % 1024 := Nat.and_two_pow_sub_one_eq_mod _ 10
    rw [if_pos pair, if_neg (by omega), low, Nat.shiftRight_eq_div_pow]
    rfl
  rw [if_neg pair, if_pos (by omega)]
  rfl

theorem decode_utf16_of (scalar : IsScalar cp) (rest : List Unit16) :
    utf16Decode (utf16Of cp ++ rest) = .whole cp (utf16Of cp).length := by
  unfold IsScalar at scalar
  unfold utf16Of
  split_ifs with one
  · rw [singleton_append]
    unfold utf16Decode
    dsimp only
    rw [unit16_val, Nat.mod_eq_of_lt (by omega), if_pos (by omega)]
    rfl
  rw [cons_append, singleton_append]
  unfold utf16Decode
  dsimp only
  rw [unit16_val, unit16_val, Nat.mod_eq_of_lt (show 0xD800 + (cp - 0x10000) / 1024 < 65536 by omega),
    Nat.mod_eq_of_lt (show 0xDC00 + (cp - 0x10000) % 1024 < 65536 by omega), if_neg (by omega), if_neg (by omega),
    if_neg (by omega), Nat.shiftLeft_eq]
  have value : 0x10000 + (0xD800 + (cp - 0x10000) / 1024 - 0xD800) * 2 ^ 10 +
      (0xDC00 + (cp - 0x10000) % 1024 - 0xDC00) = cp := by omega
  rw [value]
  rfl

theorem unit_eq {u : Unit16} {value : Nat} (same : u.val = value) : u = unit16 value := by
  apply Fin.ext
  rw [unit16_val, ← same, Nat.mod_eq_of_lt u.isLt]

theorem decode_utf16_whole {s : List Unit16} (found : utf16Decode s = .whole cp len) :
    IsScalar cp ∧ len = (utf16Of cp).length ∧ s = utf16Of cp ++ s.drop len := by
  cases s with
  | nil => cases found
  | cons u rest =>
    have top := u.isLt
    unfold utf16Decode at found
    dsimp only at found
    split_ifs at found with plain low
    · obtain ⟨rfl, rfl⟩ := Decoded.whole.inj found
      have form : utf16Of u.val = [u] := by
        unfold utf16Of
        rw [if_pos (by omega), ← unit_eq rfl]
      rw [form]
      refine ⟨?_, rfl, rfl⟩
      unfold IsScalar
      omega
    · cases rest with
      | nil => cases found
      | cons v rest =>
        have top' := v.isLt
        dsimp only at found
        split_ifs at found with high
        obtain ⟨rfl, rfl⟩ := Decoded.whole.inj found
        rw [Nat.shiftLeft_eq]
        have form : utf16Of (0x10000 + (u.val - 0xD800) * 2 ^ 10 + (v.val - 0xDC00)) = [u, v] := by
          unfold utf16Of
          rw [if_neg (by omega), ← unit_eq (u := u) (by omega), ← unit_eq (u := v) (by omega)]
        rw [form]
        refine ⟨?_, rfl, rfl⟩
        unfold IsScalar
        omega

end ProvenC.Text.Decoding

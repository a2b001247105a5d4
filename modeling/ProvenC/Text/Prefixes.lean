import ProvenC.Text.Decoding

/-!
# Beginnings of texts

What is read of a text may end inside a character. The decoder tells the three cases apart: a whole
character, the beginning of one, and what no text begins with.
-/

namespace ProvenC.Text.Prefixes

open List Bytes Lib.Unicode Text.Utf Text.Decoding

def Utf8Prefix (bytes : List Byte) : Prop := ∃ more, Utf8Text (bytes ++ more)

variable {cp len : Nat} {bytes front back : List Byte}

theorem prefix_of_text (isText : Utf8Text bytes) : Utf8Prefix bytes := ⟨[], by rwa [append_nil]⟩

theorem prefix_shorter (begins : Utf8Prefix (front ++ back)) : Utf8Prefix front := by
  obtain ⟨more, isText⟩ := begins
  exact ⟨back ++ more, by rwa [← append_assoc]⟩

theorem text_after_char (scalar : IsScalar cp) : Utf8Text (utf8Of cp ++ bytes) ↔ Utf8Text bytes := by
  constructor
  · intro isText
    obtain ⟨cps, scalars, whole⟩ := (text_iff_scalars _).mp isText
    cases cps with
    | nil =>
      have positive := utf8_of_positive cp
      have zero := congrArg List.length whole
      rw [length_append, utf8Text, flatMap_nil, length_nil] at zero
      omega
    | cons first cps =>
      obtain ⟨firstScalar, later⟩ := forall_mem_cons.mp scalars
      rw [utf8Text, flatMap_cons] at whole
      have here := decode_utf8_of scalar bytes
      rw [whole, decode_utf8_of firstScalar] at here
      obtain ⟨same, _⟩ := Decoded.whole.inj here
      rw [same] at whole
      rw [append_cancel_left whole]
      exact (text_iff_scalars _).mpr ⟨cps, later, rfl⟩
  · exact fun isText => Utf8Text.char _ _ (utf8_of_char scalar) isText

theorem text_after_text (isText : Utf8Text front) : Utf8Text (front ++ back) ↔ Utf8Text back := by
  induction isText with
  | nil => exact Iff.rfl
  | char first rest isChar _ ih =>
    obtain ⟨cp, scalar, rfl⟩ := char_utf8_of isChar
    rw [append_assoc, text_after_char scalar]
    exact ih

theorem prefix_after_text (isText : Utf8Text front) : Utf8Prefix (front ++ back) ↔ Utf8Prefix back := by
  unfold Utf8Prefix
  refine exists_congr fun more => ?_
  rw [append_assoc]
  exact text_after_text isText

theorem rest_bad_stable {left i lo hi value span : Nat} (bad : utf8Rest left i lo hi value bytes = .bad span) (more : List Byte) :
    utf8Rest left i lo hi value (bytes ++ more) = .bad span := by
  induction left generalizing i lo hi value bytes with
  | zero => cases bad
  | succ left ih =>
    cases bytes with
    | nil => cases bad
    | cons b rest =>
      rw [cons_append, utf8_rest_cons] at *
      by_cases outside : b.val < lo ∨ hi < b.val
      · rw [if_pos outside] at bad ⊢
        exact bad
      rw [if_neg outside] at bad ⊢
      exact ih bad

theorem decode_bad_stable {span : Nat} (bad : utf8DecodeSpan bytes = .bad span) (more : List Byte) :
    utf8DecodeSpan (bytes ++ more) = .bad span := by
  cases bytes with
  | nil => cases bad
  | cons b rest =>
    rw [cons_append, utf8DecodeSpan] at *
    split_ifs at bad ⊢
    all_goals first | exact bad | exact rest_bad_stable bad more

theorem decode_bad_begins {span : Nat} (bad : utf8DecodeSpan bytes = .bad span) : ¬ Utf8Prefix bytes := by
  intro begins
  obtain ⟨more, isText⟩ := begins
  have still := decode_bad_stable bad more
  obtain ⟨cps, scalars, whole⟩ := (text_iff_scalars _).mp isText
  rw [whole] at still
  cases cps with
  | nil => cases still
  | cons first cps =>
    rw [utf8Text, flatMap_cons, decode_utf8_of (forall_mem_cons.mp scalars).1] at still
    cases still

theorem rest_more_completes {left i lo hi value : Nat} (range : lo ≤ hi) (top : hi < 256)
    (waits : utf8Rest left i lo hi value bytes = .more) :
    ∃ more cp, more ≠ [] ∧ utf8Rest left i lo hi value (bytes ++ more) = .whole cp (i + left) ∧ bytes.length + more.length = left := by
  induction left generalizing i lo hi value bytes with
  | zero => cases waits
  | succ left ih =>
    cases bytes with
    | cons b rest =>
      rw [utf8_rest_cons] at waits
      by_cases outside : b.val < lo ∨ hi < b.val
      · rw [if_pos outside] at waits
        cases waits
      rw [if_neg outside] at waits
      obtain ⟨more, cp, some_, whole, long⟩ := ih (by decide) (by decide) waits
      refine ⟨more, cp, some_, ?_, by rw [length_cons]; omega⟩
      rw [cons_append, utf8_rest_cons, if_neg outside, whole]
      congr 1
      omega
    | nil =>
      have fills : ∀ n i value, ∃ cp, utf8Rest n i 0x80 0xBF value (List.replicate n (byteOf 0x80)) = .whole cp (i + n) := by
        intro n
        induction n with
        | zero => exact fun i value => ⟨value, rfl⟩
        | succ n fillsLater =>
          intro i value
          obtain ⟨cp, whole⟩ := fillsLater (i + 1) (value * 64 + (byteOf 0x80).val % 64)
          refine ⟨cp, ?_⟩
          rw [replicate_succ, utf8_rest_cons, if_neg (by decide), whole]
          congr 1
          omega
      have first : (byteOf lo).val = lo := Nat.mod_eq_of_lt (by omega)
      obtain ⟨cp, whole⟩ := fills left (i + 1) (value * 64 + (byteOf lo).val % 64)
      refine ⟨byteOf lo :: List.replicate left (byteOf 0x80), cp, cons_ne_nil _ _, ?_, ?_⟩
      · rw [nil_append, utf8_rest_cons, first, if_neg (by omega)]
        rw [first] at whole
        rw [whole]
        congr 1
        omega
      rw [length_cons, length_replicate, length_nil]
      omega

theorem decode_more_completes (some_ : bytes ≠ []) (waits : utf8DecodeSpan bytes = .more) :
    ∃ more cp, more ≠ [] ∧ IsScalar cp ∧ bytes ++ more = utf8Of cp := by
  cases bytes with
  | nil => exact absurd rfl some_
  | cons b rest =>
    have completed : ∃ more cp, more ≠ [] ∧
        utf8DecodeSpan (b :: rest ++ more) = .whole cp ((b :: rest).length + more.length) := by
      rw [utf8DecodeSpan] at waits
      have put : ∀ more, utf8DecodeSpan (b :: rest ++ more) = utf8DecodeSpan (b :: (rest ++ more)) := fun _ => rfl
      by_cases one : b.val < 0x80
      · rw [if_pos one] at waits
        cases waits
      rw [if_neg one] at waits
      by_cases stray : b.val < 0xC2
      · rw [if_pos stray] at waits
        cases waits
      rw [if_neg stray] at waits
      by_cases two : b.val < 0xE0
      · rw [if_pos two] at waits
        obtain ⟨more, cp, some', whole, long⟩ := rest_more_completes (by decide) (by decide) waits
        refine ⟨more, cp, some', ?_⟩
        rw [put, utf8DecodeSpan, if_neg one, if_neg stray, if_pos two, whole, length_cons]
        congr 1
        omega
      rw [if_neg two] at waits
      by_cases three : b.val < 0xF0
      · rw [if_pos three] at waits
        obtain ⟨more, cp, some', whole, long⟩ := rest_more_completes
          (by split_ifs <;> omega) (by split_ifs <;> omega) waits
        refine ⟨more, cp, some', ?_⟩
        rw [put, utf8DecodeSpan, if_neg one, if_neg stray, if_neg two, if_pos three, whole, length_cons]
        congr 1
        omega
      rw [if_neg three] at waits
      by_cases four : b.val < 0xF5
      · rw [if_pos four] at waits
        obtain ⟨more, cp, some', whole, long⟩ := rest_more_completes
          (by split_ifs <;> omega) (by split_ifs <;> omega) waits
        refine ⟨more, cp, some', ?_⟩
        rw [put, utf8DecodeSpan, if_neg one, if_neg stray, if_neg two, if_neg three, if_pos four, whole, length_cons]
        congr 1
        omega
      rw [if_neg four] at waits
      cases waits
    obtain ⟨more, cp, some', whole⟩ := completed
    obtain ⟨scalar, _, split⟩ := decode_utf8_whole whole
    rw [← length_append, drop_length, append_nil] at split
    exact ⟨more, cp, some', scalar, split⟩

theorem decode_more_begins (some_ : bytes ≠ []) (waits : utf8DecodeSpan bytes = .more) : Utf8Prefix bytes ∧ ¬ Utf8Text bytes := by
  constructor
  · obtain ⟨more, cp, _, scalar, whole⟩ := decode_more_completes some_ waits
    refine ⟨more, ?_⟩
    have isText := (@text_after_char cp [] scalar).mpr Utf8Text.nil
    rw [append_nil] at isText
    rw [whole]
    exact isText
  intro isText
  obtain ⟨cps, scalars, whole⟩ := (text_iff_scalars _).mp isText
  rw [whole] at waits some_
  cases cps with
  | nil => exact some_ rfl
  | cons first cps =>
    rw [utf8Text, flatMap_cons, decode_utf8_of (forall_mem_cons.mp scalars).1] at waits
    cases waits

end ProvenC.Text.Prefixes

import ProvenC.Text.Conversion
import ProvenC.Text.Prefixes

/-!
# Text in bytes

The three encodings a reader decodes, each a decoder of characters from bytes; a text is its characters
and what no character begins with.
-/

namespace ProvenC.Text.Streams

open List Bytes Lib.Unicode Text.Utf Text.Decoding Text.Prefixes
open Text.Conversion

inductive TextEncoding where
  | utf8
  | utf16le
  | utf16be
  | auto
  deriving DecidableEq, Repr

def unitFrom (enc : TextEncoding) (a b : Byte) : Unit16 :=
  if enc = .utf16le then unitOf (a.val ||| (b.val <<< 8)) else unitOf ((a.val <<< 8) ||| b.val)

def bytesOfUnit (enc : TextEncoding) (u : Unit16) : List Byte :=
  if enc = .utf16le then [byteOf (u.val &&& 0xFF), byteOf (u.val >>> 8)] else [byteOf (u.val >>> 8), byteOf (u.val &&& 0xFF)]

def pairs (enc : TextEncoding) : List Byte → List Unit16
  | a :: b :: rest => unitFrom enc a b :: pairs enc rest
  | _ => []

def decodeBytes (enc : TextEncoding) (bytes : List Byte) : Decoded :=
  if enc = .utf8 then utf8DecodeSpan bytes
  else
    match utf16Decode (pairs enc bytes) with
    | .whole cp len => .whole cp (2 * len)
    | .more => .more
    | .bad span => .bad span

def form (enc : TextEncoding) (cp : Nat) : List Byte :=
  if enc = .utf8 then utf8Of cp else (utf16Of cp).flatMap (bytesOfUnit enc)

variable (enc : TextEncoding)
include enc

theorem unit_from_of (u : Unit16) : ∃ a b, bytesOfUnit enc u = [a, b] ∧ unitFrom enc a b = u := by
  have top := u.isLt
  have low : u.val &&& 0xFF = u.val % 256 := Nat.and_two_pow_sub_one_eq_mod _ 8
  have high : u.val >>> 8 = u.val / 256 := Nat.shiftRight_eq_div_pow _ 8
  have joined : (u.val / 256) <<< 8 ||| u.val % 256 = u.val := by
    rw [← Nat.shiftLeft_add_eq_or_of_lt (show u.val % 256 < 2 ^ 8 by omega), Nat.shiftLeft_eq]
    omega
  by_cases little : enc = .utf16le
  · refine ⟨byteOf (u.val &&& 0xFF), byteOf (u.val >>> 8), by rw [bytesOfUnit, if_pos little], ?_⟩
    rw [unitFrom, if_pos little, byte_of_val, byte_of_val, low, high, Nat.mod_mod,
      Nat.mod_eq_of_lt (show u.val / 256 < 256 by omega), Nat.or_comm, joined]
    exact (unit_eq rfl).symm
  refine ⟨byteOf (u.val >>> 8), byteOf (u.val &&& 0xFF), by rw [bytesOfUnit, if_neg little], ?_⟩
  rw [unitFrom, if_neg little, byte_of_val, byte_of_val, low, high, Nat.mod_mod,
    Nat.mod_eq_of_lt (show u.val / 256 < 256 by omega), joined]
  exact (unit_eq rfl).symm

theorem pairs_units (units : List Unit16) (rest : List Byte) :
    pairs enc (units.flatMap (bytesOfUnit enc) ++ rest) = units ++ pairs enc rest := by
  induction units with
  | nil => rfl
  | cons u units ih =>
    obtain ⟨a, b, split, same⟩ := unit_from_of enc u
    rw [flatMap_cons, split, append_assoc, cons_append, singleton_append, pairs, same, ih, cons_append]

theorem bytes_of_unit_from (a b : Byte) : bytesOfUnit enc (unitFrom enc a b) = [a, b] := by
  have a_top := a.isLt
  have b_top := b.isLt
  have join : ∀ x y : Byte, (x.val <<< 8 ||| y.val) = x.val * 256 + y.val := by
    intro x y
    rw [← Nat.shiftLeft_add_eq_or_of_lt (show y.val < 2 ^ 8 from y.isLt), Nat.shiftLeft_eq]
  have val : ∀ v : Nat, v < 65536 → (unitOf v).val = v := fun v small => Nat.mod_eq_of_lt small
  have low : ∀ v : Nat, v &&& 0xFF = v % 256 := fun v => Nat.and_two_pow_sub_one_eq_mod v 8
  have high : ∀ v : Nat, v >>> 8 = v / 256 := fun v => Nat.shiftRight_eq_div_pow v 8
  have back : ∀ (c : Byte) (v : Nat), v % 256 = c.val → byteOf v = c := fun c v same => Fin.ext same
  by_cases little : enc = .utf16le
  · rw [unitFrom, if_pos little, Nat.or_comm, join, bytesOfUnit, if_pos little, val _ (by omega), low, high,
      back a _ (by omega), back b _ (by omega)]
  rw [unitFrom, if_neg little, join, bytesOfUnit, if_neg little, val _ (by omega), low, high,
    back a _ (by omega), back b _ (by omega)]

theorem pairs_front {bytes : List Byte} {front later : List Unit16} (same : pairs enc bytes = front ++ later) :
    bytes = front.flatMap (bytesOfUnit enc) ++ bytes.drop (2 * front.length) := by
  induction front generalizing bytes with
  | nil => rfl
  | cons u front ih =>
    match bytes, same with
    | [], same => cases same
    | [_], same => cases same
    | a :: b :: rest, same =>
      rw [pairs, cons_append] at same
      obtain ⟨rfl, rest_same⟩ := List.cons.inj same
      rw [flatMap_cons, bytes_of_unit_from, length_cons, show 2 * (front.length + 1) = 2 * front.length + 1 + 1 by omega,
        drop_succ_cons, drop_succ_cons, append_assoc, ← ih rest_same]
      rfl

theorem pairs_length (bytes : List Byte) : (pairs enc bytes).length = bytes.length / 2 := by
  fun_induction pairs enc bytes with
  | case1 a b rest ih =>
    rw [length_cons, ih, length_cons, length_cons]
    omega
  | case2 bytes other =>
    match bytes, other with
    | [], _ => simp
    | [_], _ => simp
    | a :: b :: rest, other => exact absurd rfl (other a b rest)

theorem unit_bytes_length (units : List Unit16) : (units.flatMap (bytesOfUnit enc)).length = 2 * units.length := by
  induction units with
  | nil => rfl
  | cons u units ih =>
    obtain ⟨a, b, split, -⟩ := unit_from_of enc u
    rw [flatMap_cons, length_append, ih, split, length_cons, length_cons, length_cons, length_nil]
    omega

omit enc

structure Streamed {α : Type} (decode : List α → Decoded) (form : Nat → List α) : Prop extends DecodesForm decode form where
  badStays : ∀ items more span, decode items = .bad span → ∃ span', decode (items ++ more) = .bad span'
  moreShort : ∀ items, decode items = .more → items.length < 4
  nothing : decode [] = .more

theorem utf16_bad_stays {units more : List Unit16} {span : Nat} (bad : utf16Decode units = .bad span) :
    utf16Decode (units ++ more) = .bad span := by
  cases units with
  | nil => cases bad
  | cons u rest =>
    rw [cons_append]
    unfold utf16Decode at bad ⊢
    dsimp only at bad ⊢
    split_ifs at bad ⊢ with plain low
    · exact bad
    · cases rest with
      | nil => cases bad
      | cons v rest => exact bad

theorem utf16_more_short {units : List Unit16} (more : utf16Decode units = .more) : units.length ≤ 1 := by
  match units, more with
  | [], _ => exact Nat.zero_le _
  | [_], _ => exact le_refl _
  | u :: v :: rest, more =>
    unfold utf16Decode at more
    dsimp only at more
    split_ifs at more

theorem utf8_more_short {bytes : List Byte} (more : utf8DecodeSpan bytes = .more) : bytes.length < 4 := by
  by_cases some_ : bytes = []
  · rw [some_]
    decide
  obtain ⟨rest, cp, more_, -, split⟩ := decode_more_completes some_ more
  have lengths := congrArg List.length split
  have positive := length_pos_iff.mpr more_
  have four : (utf8Of cp).length ≤ 4 := by
    unfold utf8Of
    split_ifs <;> simp
  rw [length_append] at lengths
  omega

theorem pairs_longer (enc : TextEncoding) (bytes more : List Byte) :
    ∃ later, pairs enc (bytes ++ more) = pairs enc bytes ++ later := by
  fun_induction pairs enc bytes with
  | case1 a b rest ih =>
    obtain ⟨later, same⟩ := ih
    refine ⟨later, ?_⟩
    rw [cons_append, cons_append, pairs, same, cons_append]
  | case2 bytes other => exact ⟨pairs enc (bytes ++ more), rfl⟩

variable {enc : TextEncoding}

theorem decode_bytes_wide (wide : enc ≠ .utf8) (bytes : List Byte) : decodeBytes enc bytes =
      match utf16Decode (pairs enc bytes) with
      | .whole cp len => .whole cp (2 * len)
      | .more => .more
      | .bad span => .bad span := if_neg wide

theorem form_wide (wide : enc ≠ .utf8) (cp : Nat) : form enc cp = (utf16Of cp).flatMap (bytesOfUnit enc) := if_neg wide

theorem wide_streams (wide : enc ≠ .utf8) : Streamed (decodeBytes enc) (form enc) where
  whole := by
    intro cp rest scalar
    rw [decode_bytes_wide wide, form_wide wide, pairs_units, decode_utf16_of scalar, unit_bytes_length]
  found := by
    intro bytes cp len found
    rw [decode_bytes_wide wide] at found
    cases decoded : utf16Decode (pairs enc bytes) with
    | more | bad => rw [decoded] at found; cases found
    | whole cp' len' =>
      rw [decoded] at found
      obtain ⟨rfl, rfl⟩ := Decoded.whole.inj found
      obtain ⟨scalar, rfl, split⟩ := decode_utf16_whole decoded
      refine ⟨scalar, ?_, ?_⟩
      · rw [form_wide wide, unit_bytes_length]
      rw [form_wide wide]
      exact pairs_front enc split
  positive := by
    intro cp
    rw [form_wide wide, unit_bytes_length]
    have positive := utf16_of_positive cp
    omega
  nothing := by
    rw [decode_bytes_wide wide]
    rfl
  badStays := by
    intro bytes more span bad
    rw [decode_bytes_wide wide] at bad
    cases decoded : utf16Decode (pairs enc bytes) with
    | more | whole => rw [decoded] at bad; cases bad
    | bad span' =>
      obtain ⟨later, same⟩ := pairs_longer enc bytes more
      refine ⟨span', ?_⟩
      rw [decode_bytes_wide wide, same, utf16_bad_stays decoded]
  moreShort := by
    intro bytes more
    rw [decode_bytes_wide wide] at more
    cases decoded : utf16Decode (pairs enc bytes) with
    | whole | bad => rw [decoded] at more; cases more
    | more =>
      have short := utf16_more_short decoded
      rw [pairs_length] at short
      omega

theorem utf8_streams : Streamed (decodeBytes .utf8) (form .utf8) where
  whole := utf8_decodes.whole
  found := utf8_decodes.found
  positive := utf8_decodes.positive
  badStays := fun _ more span bad => ⟨span, decode_bad_stable bad more⟩
  moreShort := fun _ more => utf8_more_short more
  nothing := rfl

theorem utf16_streams : Streamed utf16Decode utf16Of where
  whole := utf16_decodes.whole
  found := utf16_decodes.found
  positive := utf16_decodes.positive
  badStays := fun _ _ span bad => ⟨span, utf16_bad_stays bad⟩
  moreShort := fun _ more => lt_of_le_of_lt (utf16_more_short more) (by decide)
  nothing := rfl

theorem text_streams (enc : TextEncoding) : Streamed (decodeBytes enc) (form enc) := by
  by_cases narrow : enc = .utf8
  · rw [narrow]
    exact utf8_streams
  · exact wide_streams narrow

variable {α : Type} {decode : List α → Decoded} {form : Nat → List α}

def Stuck (decode : List α → Decoded) (tail : List α) : Prop := ∀ cp len, decode tail ≠ .whole cp len

def readText (decode : List α → Decoded) : Nat → List α → List Nat × List α
  | 0, items => ([], items)
  | left + 1, items =>
    match decode items with
    | .whole cp len => (cp :: (readText decode left (items.drop len)).1, (readText decode left (items.drop len)).2)
    | .more => ([], items)
    | .bad _ => ([], items)

theorem read_text_of (streamed : Streamed decode form) {cps : List Nat} (scalars : Scalars cps) {tail : List α}
    (stuck : Stuck decode tail) {left : Nat} (enough : cps.length < left) :
    readText decode left (cps.flatMap form ++ tail) = (cps, tail) := by
  induction cps generalizing left with
  | nil =>
    cases left with
    | zero => cases enough
    | succ left =>
      rw [flatMap_nil, nil_append, readText]
      cases decoded : decode tail with
      | whole cp len => exact absurd decoded (stuck cp len)
      | more => rfl
      | bad span => rfl
  | cons cp cps ih =>
    obtain ⟨scalar, later⟩ := forall_mem_cons.mp scalars
    cases left with
    | zero => cases enough
    | succ left =>
      rw [length_cons] at enough
      rw [flatMap_cons, append_assoc, readText, streamed.whole cp _ scalar]
      dsimp only
      rw [drop_left, ih later (by omega)]

theorem arrived_split (streamed : Streamed decode form) {cps : List Nat} (scalars : Scalars cps) {tail : List α}
    (stuck : Stuck decode tail) {front back : List α} (same : front ++ back = cps.flatMap form ++ tail) :
    ∃ whole later part, cps = whole ++ later ∧ front = whole.flatMap form ++ part ∧ Stuck decode part ∧
      part ++ back = later.flatMap form ++ tail ∧ (∀ span, decode part = .bad span → later = []) := by
  induction cps generalizing front with
  | nil =>
    refine ⟨[], [], front, rfl, rfl, ?_, same, fun _ _ => rfl⟩
    intro cp len whole
    obtain ⟨scalar, long, split⟩ := streamed.found _ _ _ whole
    have again := streamed.whole cp (front.drop len ++ back) scalar
    rw [← append_assoc, ← split, same, flatMap_nil, nil_append] at again
    exact stuck _ _ again
  | cons cp cps ih =>
    obtain ⟨scalar, later_scalars⟩ := forall_mem_cons.mp scalars
    rw [flatMap_cons, append_assoc] at same
    by_cases long : (form cp).length ≤ front.length
    · have begins : front = form cp ++ front.drop (form cp).length := by
        have taken := congrArg (List.take (form cp).length) same
        rw [take_append_of_le_length long, take_left] at taken
        have parts := (take_append_drop (form cp).length front).symm
        rw [taken] at parts
        exact parts
      have rest : front.drop (form cp).length ++ back = cps.flatMap form ++ tail := by
        rw [begins, append_assoc] at same
        exact append_cancel_left same
      obtain ⟨whole, later, part, split, arrived, part_stuck, ahead, bad⟩ := ih later_scalars rest
      refine ⟨cp :: whole, later, part, by rw [split]; rfl, ?_, part_stuck, ahead, bad⟩
      rw [flatMap_cons, append_assoc, ← arrived]
      exact begins
    refine ⟨[], cp :: cps, front, rfl, rfl, ?_, by rw [flatMap_cons, append_assoc]; exact same, ?_⟩
    · intro other len whole
      obtain ⟨scalar', long', split⟩ := streamed.found _ _ _ whole
      have here := streamed.whole other (front.drop len ++ back) scalar'
      rw [← append_assoc, ← split, same, streamed.whole cp _ scalar] at here
      obtain ⟨rfl, -⟩ := Decoded.whole.inj here
      have lengths := congrArg List.length split
      rw [length_append] at lengths
      omega
    intro span bad
    obtain ⟨span', still⟩ := streamed.badStays _ back _ bad
    rw [same, streamed.whole cp _ scalar] at still
    cases still

end ProvenC.Text.Streams

import ProvenC.Bytes
import ProvenC.Lib.BigEndian
import ProvenC.Lib.Scanning

/-!
# Variable-length integers (RFC 9000, section 16)

The two highest bits of the first byte tell how many bytes there are.
-/

namespace ProvenC.Quic.Varint

open Bytes Lib.BigEndian Lib.Scanning

def quicVarintMax : Nat := 1 <<< 62 - 1

def quicVarintLen (v : Nat) : Nat :=
  if v < 64 then 1 else if v < 16384 then 2 else if v < 1073741824 then 4 else if v ≤ quicVarintMax then 8 else 0

def lengthBits (n : Nat) : Nat := if n = 1 then 0x00 else if n = 2 then 0x40 else if n = 4 then 0x80 else 0xc0

/-- `proven_quic_varint_put`: no bytes above the maximum. -/
def quicVarintPut (v : Nat) : List Byte :=
  match bigEndianBytes (quicVarintLen v) v with
  | [] => []
  | first :: rest => byteOf (first.val ||| lengthBits (quicVarintLen v)) :: rest

variable {Fault : Type}

def quicRdVarint : Scanner Byte Fault Nat
  | [] => .short
  | first :: rest =>
    let n := 1 <<< (first.val >>> 6)
    if rest.length + 1 < n then .short
    else .got ((rest.take (n - 1)).foldl (fun v byte => v * 256 + byte.val) (first.val % 64)) (rest.drop (n - 1))

def quicRdUint (bytes : Nat) : Scanner Byte Fault Nat := do
  let taken ← count bytes
  pure (bigEndian taken)

/-- `proven_quic_wr_t`: what is written, into `cap` bytes, while `ok`. -/
structure Writer where
  out : List Byte
  cap : Nat
  ok : Bool
deriving DecidableEq, Repr

def quicWrBytes (w : Writer) (bytes : List Byte) : Writer :=
  if !w.ok || w.cap - w.out.length < bytes.length then { w with ok := false }
  else { w with out := w.out ++ bytes }

def quicWrVarint (w : Writer) (v : Nat) : Writer :=
  if quicVarintPut v = [] then { w with ok := false } else quicWrBytes w (quicVarintPut v)

def quicWrUint (w : Writer) (v bytes : Nat) : Writer := quicWrBytes w (bigEndianBytes bytes v)

theorem fold_bytes (start : Nat) (bytes : List Byte) :
    bytes.foldl (fun v byte => v * 256 + byte.val) start = start * 256 ^ bytes.length + bigEndian bytes := by
  induction bytes using List.reverseRecOn with
  | nil => simp [bigEndian]
  | append_singleton bytes byte ih =>
    rw [List.foldl_concat, ih, big_endian_concat, List.length_append, List.length_singleton, pow_succ]
    ring

theorem varint_len_cases {v : Nat} (small : v ≤ quicVarintMax) :
    ∃ k < 4, quicVarintLen v = 2 ^ k ∧ lengthBits (quicVarintLen v) = 64 * k ∧ v < 64 * 256 ^ (2 ^ k - 1) := by
  have top : quicVarintMax = 2 ^ 62 - 1 := rfl
  unfold quicVarintLen
  split
  · exact ⟨0, by decide, rfl, rfl, by omega⟩
  split
  · exact ⟨1, by decide, rfl, rfl, by omega⟩
  split
  · exact ⟨2, by decide, rfl, rfl, by omega⟩
  · exact ⟨3, by decide, rfl, rfl, by omega⟩

theorem varint_len_none {v : Nat} (large : quicVarintMax < v) : quicVarintLen v = 0 := by
  have top : quicVarintMax = 2 ^ 62 - 1 := rfl
  unfold quicVarintLen
  rw [if_neg (by omega), if_neg (by omega), if_neg (by omega), if_neg (by omega)]

theorem marked_byte : ∀ first < 64, ∀ k < 4, (first ||| 64 * k) = first + 64 * k := by decide

theorem varint_put_shape {v : Nat} (small : v ≤ quicVarintMax) :
    ∃ k < 4, ∃ first < 64, ∃ rest, quicVarintPut v = byteOf (first + 64 * k) :: rest ∧ quicVarintLen v = 2 ^ k ∧
      rest.length = 2 ^ k - 1 ∧ v = first * 256 ^ rest.length + bigEndian rest := by
  obtain ⟨k, few, length, bits, less⟩ := varint_len_cases small
  have positive : 0 < 2 ^ k := Nat.two_pow_pos k
  have wide : 64 * 256 ^ (2 ^ k - 1) ≤ 256 ^ 2 ^ k := by
    have more : 256 ^ 2 ^ k = 256 ^ (2 ^ k - 1) * 256 := by rw [← pow_succ, Nat.sub_add_cancel positive]
    omega
  have value := big_endian_of_bytes (Nat.lt_of_lt_of_le less wide)
  have size := big_endian_bytes_length (2 ^ k) v
  have form : quicVarintPut v = match bigEndianBytes (2 ^ k) v with
      | [] => []
      | first :: rest => byteOf (first.val ||| 64 * k) :: rest := by
    unfold quicVarintPut
    rw [bits, length]
  cases bytes : bigEndianBytes (2 ^ k) v with
  | nil =>
    rw [bytes, List.length_nil] at size
    omega
  | cons first rest =>
    rw [bytes] at value size form
    rw [big_endian_head] at value
    rw [List.length_cons] at size
    have length' : rest.length = 2 ^ k - 1 := by omega
    have low : first.val < 64 := by
      by_contra high
      have more : 64 * 256 ^ rest.length ≤ first.val * 256 ^ rest.length := Nat.mul_le_mul_right _ (by omega)
      rw [length'] at more value
      omega
    have marked := marked_byte first.val low k few
    exact ⟨k, few, first.val, low, rest, by rw [form]; simp only [marked], length, length', value.symm⟩

theorem varint_put_length (v : Nat) : (quicVarintPut v).length = quicVarintLen v := by
  rcases Nat.lt_or_ge quicVarintMax v with large | small
  · unfold quicVarintPut
    rw [varint_len_none large]
    rfl
  obtain ⟨k, -, first, -, rest, bytes, length, size, -⟩ := varint_put_shape small
  have positive : 0 < 2 ^ k := Nat.two_pow_pos k
  rw [bytes, length, List.length_cons, size]
  omega

theorem varint_put_some {v : Nat} (small : v ≤ quicVarintMax) : quicVarintPut v ≠ [] := by
  obtain ⟨k, -, first, -, rest, bytes, -⟩ := varint_put_shape small
  rw [bytes]
  nofun

theorem varint_put_none {v : Nat} (large : quicVarintMax < v) : quicVarintPut v = [] := by
  apply List.length_eq_zero_iff.mp
  rw [varint_put_length, varint_len_none large]

theorem rd_varint_put {v : Nat} (small : v ≤ quicVarintMax) (more : List Byte) :
    (quicRdVarint : Scanner Byte Fault Nat) (quicVarintPut v ++ more) = .got v more := by
  obtain ⟨k, few, first, low, rest, bytes, -, size, value⟩ := varint_put_shape small
  have byte : (byteOf (first + 64 * k)).val = first + 64 * k := by
    rw [byte_of_val]
    omega
  have high : (first + 64 * k) >>> 6 = k := by
    rw [Nat.shiftRight_eq_div_pow]
    omega
  have rem : (first + 64 * k) % 64 = first := by omega
  have positive : 0 < 2 ^ k := Nat.two_pow_pos k
  rw [bytes, List.cons_append]
  unfold quicRdVarint
  simp only [byte, high, rem, Nat.one_shiftLeft]
  rw [if_neg (by rw [List.length_append]; omega), ← size, List.take_left, List.drop_left, fold_bytes, ← value]

theorem rd_varint_got {input rest : List Byte} {v : Nat}
    (read : (quicRdVarint : Scanner Byte Fault Nat) input = .got v rest) :
    v ≤ quicVarintMax ∧ ∃ taken, input = taken ++ rest ∧ taken ≠ [] ∧
      ∀ more, (quicRdVarint : Scanner Byte Fault Nat) (taken ++ more) = .got v more := by
  cases input with
  | nil => cases read
  | cons first tail =>
    unfold quicRdVarint at read
    simp only at read
    have high : first.val >>> 6 < 4 := by
      rw [Nat.shiftRight_eq_div_pow]
      omega
    split at read
    · cases read
    rename_i enough
    generalize shift : first.val >>> 6 = k at read high enough
    cases read
    have eight : 1 <<< k ≤ 8 := by
      rw [Nat.one_shiftLeft]
      exact Nat.pow_le_pow_right (by decide) (show k ≤ 3 by omega)
    have length : (tail.take (1 <<< k - 1)).length = 1 <<< k - 1 := List.length_take_of_le (by omega)
    refine ⟨?_, first :: tail.take (1 <<< k - 1), ?_, nofun, ?_⟩
    · have low := big_endian_lt (tail.take (1 <<< k - 1))
      have most : 256 ^ (tail.take (1 <<< k - 1)).length ≤ 256 ^ 7 := Nat.pow_le_pow_right (by decide) (by omega)
      have under : first.val % 64 * 256 ^ (tail.take (1 <<< k - 1)).length ≤
          63 * 256 ^ (tail.take (1 <<< k - 1)).length := Nat.mul_le_mul_right _ (by omega)
      have top : quicVarintMax = 64 * 256 ^ 7 - 1 := rfl
      rw [fold_bytes]
      omega
    · rw [List.cons_append, List.take_append_drop]
    intro more
    rw [List.cons_append]
    unfold quicRdVarint
    simp only [shift]
    rw [if_neg (by rw [List.length_append]; omega), List.take_left' length, List.drop_left' length]

theorem consumes_rd_varint : Consumes (quicRdVarint : Scanner Byte Fault Nat) := by
  intro input v rest read
  obtain ⟨-, taken, whole, some, -⟩ := rd_varint_got read
  have positive := List.length_pos_iff.mpr some
  rw [whole, List.length_append]
  omega

theorem rd_varint_not_bad (input : List Byte) (fault : Fault) : (quicRdVarint : Scanner Byte Fault Nat) input ≠ .bad fault := by
  cases input with
  | nil => nofun
  | cons first tail =>
    unfold quicRdVarint
    simp only
    split <;> nofun

theorem settled_rd_varint : Settled (quicRdVarint : Scanner Byte Fault Nat) where
  steady :=
    { got := by
        intro input more v rest read
        obtain ⟨-, taken, whole, -, always⟩ := rd_varint_got read
        rw [whole, List.append_assoc, always]
      bad := by
        intro input more fault read
        exact absurd read (rd_varint_not_bad input fault)
      suffix := by
        intro input v rest read
        obtain ⟨-, taken, whole, -, -⟩ := rd_varint_got read
        exact ⟨taken, whole.symm⟩ }
  tight := by
    intro input more v rest read
    obtain ⟨-, taken, whole, -, always⟩ := rd_varint_got read
    rw [← List.append_assoc, List.append_cancel_right_eq] at whole
    rw [whole, always]

theorem settled_rd_uint (bytes : Nat) : Settled (quicRdUint bytes : Scanner Byte Fault Nat) :=
  settled_bind (settled_count bytes) fun _ => settled_pure _

theorem rd_uint_put {v bytes : Nat} (small : v < 256 ^ bytes) (more : List Byte) :
    (quicRdUint bytes : Scanner Byte Fault Nat) (bigEndianBytes bytes v ++ more) = .got v more := by
  have length := big_endian_bytes_length bytes v
  unfold quicRdUint
  rw [bind_apply]
  unfold count
  rw [if_pos (by rw [List.length_append]; omega), List.take_left' length, List.drop_left' length]
  simp only [Scan.andThen, pure_apply, big_endian_of_bytes small]

theorem rd_uint_got {bytes v : Nat} {input rest : List Byte}
    (read : (quicRdUint bytes : Scanner Byte Fault Nat) input = .got v rest) : v < 256 ^ bytes := by
  unfold quicRdUint at read
  obtain ⟨taken, between, counted, ended⟩ := bind_scanned read
  cases ended
  have less := big_endian_lt taken
  rwa [(count_got counted).1] at less

section Then

variable {Value : Type} {later : Nat → Scanner Byte Fault Value}

theorem rd_varint_then {v : Nat} (small : v ≤ quicVarintMax) (more : List Byte) :
    (quicRdVarint >>= later) (quicVarintPut v ++ more) = later v more := bind_got (rd_varint_put small more)

theorem rd_uint_then {v bytes : Nat} (small : v < 256 ^ bytes) (more : List Byte) :
    (quicRdUint bytes >>= later) (bigEndianBytes bytes v ++ more) = later v more := bind_got (rd_uint_put small more)

theorem count_then {later : List Byte → Scanner Byte Fault Value} {n : Nat} {bytes : List Byte} (length : bytes.length = n)
    (more : List Byte) : (count n >>= later) (bytes ++ more) = later bytes more := by
  refine bind_got ?_
  unfold count
  rw [if_pos (by rw [List.length_append]; omega), List.take_left' length, List.drop_left' length]

theorem then_read {input rest : List Byte} {value : Value} (read : (quicRdVarint >>= later) input = .got value rest) :
    ∃ v between, v ≤ quicVarintMax ∧ (quicRdVarint : Scanner Byte Fault Nat) input = .got v between ∧
      later v between = .got value rest := by
  obtain ⟨v, between, first, read⟩ := bind_scanned read
  exact ⟨v, between, (rd_varint_got first).1, first, read⟩

end Then

/-- One put of a writer; `refuse` clears `ok`. -/
inductive Put where
  | varint (v : Nat)
  | uint (v size : Nat)
  | raw (bytes : List Byte)
  | refuse
deriving DecidableEq, Repr

def Put.run (w : Writer) : Put → Writer
  | .varint v => quicWrVarint w v
  | .uint v size => quicWrUint w v size
  | .raw bytes => quicWrBytes w bytes
  | .refuse => { w with ok := false }

def runPuts (w : Writer) (puts : List Put) : Writer := puts.foldl Put.run w

def Put.form : Put → Option (List Byte)
  | .varint v => if v ≤ quicVarintMax then some (quicVarintPut v) else none
  | .uint v size => some (bigEndianBytes size v)
  | .raw bytes => some bytes
  | .refuse => none

def formOf : List Put → Option (List Byte)
  | [] => some []
  | put :: rest =>
    match put.form, formOf rest with
    | some bytes, some more => some (bytes ++ more)
    | _, _ => none

theorem form_append {first second : List Put} {front back : List Byte} (form : formOf first = some front)
    (later : formOf second = some back) : formOf (first ++ second) = some (front ++ back) := by
  induction first generalizing front with
  | nil =>
    cases form
    exact later
  | cons put rest ih =>
    rw [formOf] at form
    cases here : put.form with
    | none => rw [here] at form; cases form
    | some bytes =>
      cases more : formOf rest with
      | none => rw [here, more] at form; cases form
      | some after =>
        rw [here, more] at form
        cases form
        rw [List.cons_append, formOf, here, ih more, List.append_assoc]

theorem put_run (w : Writer) (put : Put) : put.run w = match put.form with
      | none => { w with ok := false }
      | some bytes => quicWrBytes w bytes := by
  cases put with
  | varint v =>
    simp only [Put.run, Put.form, quicWrVarint]
    by_cases small : v ≤ quicVarintMax
    · rw [if_pos small, if_neg (varint_put_some small)]
    · rw [if_neg small, if_pos (varint_put_none (Nat.not_le.mp small))]
  | uint | raw | refuse => rfl

theorem wr_bytes_fits {w : Writer} {bytes : List Byte} (ok : w.ok = true) (fits : bytes.length ≤ w.cap - w.out.length) :
    quicWrBytes w bytes = { w with out := w.out ++ bytes } := by
  unfold quicWrBytes
  rw [ok, if_neg (by simp only [Bool.not_true, Bool.false_or, decide_eq_true_eq]; omega)]

theorem puts_fit {puts : List Put} {w : Writer} {bytes : List Byte} (ok : w.ok = true) (form : formOf puts = some bytes)
    (fits : bytes.length ≤ w.cap - w.out.length) : runPuts w puts = { w with out := w.out ++ bytes } := by
  induction puts generalizing w bytes with
  | nil =>
    cases form
    rw [List.append_nil]
    rfl
  | cons put puts ih =>
    rw [formOf] at form
    cases first : put.form with
    | none => rw [first] at form; cases form
    | some front =>
      cases later : formOf puts with
      | none => rw [first, later] at form; cases form
      | some more =>
        rw [first, later] at form
        cases form
        rw [List.length_append] at fits
        have run : put.run w = { w with out := w.out ++ front } := by
          rw [put_run, first]
          exact wr_bytes_fits ok (by omega)
        have rest := @ih { w with out := w.out ++ front } more ok later
          (by simp only [List.length_append]; omega)
        unfold runPuts at rest ⊢
        rw [List.foldl_cons, run, rest]
        simp only [List.append_assoc]

theorem varint_len_mono {small large : Nat} (ordered : small ≤ large) (most : large ≤ quicVarintMax) :
    quicVarintLen small ≤ quicVarintLen large := by
  unfold quicVarintLen
  split_ifs <;> omega

theorem run_not_ok {w : Writer} (stopped : w.ok = false) (put : Put) : (put.run w).ok = false := by
  rw [put_run]
  cases put.form with
  | none => rfl
  | some bytes =>
    simp only [quicWrBytes, stopped, Bool.not_false, Bool.true_or, if_true]

theorem puts_refused {w : Writer} {puts : List Put} (refused : w.ok = false ∨ ∃ put ∈ puts, put.form = none) :
    (runPuts w puts).ok = false := by
  unfold runPuts
  induction puts generalizing w with
  | nil =>
    cases refused with
    | inl stopped => exact stopped
    | inr some_ =>
      obtain ⟨put, member, -⟩ := some_
      cases member
  | cons put puts ih =>
    rw [List.foldl_cons]
    refine ih ?_
    cases refused with
    | inl stopped => exact Or.inl (run_not_ok stopped put)
    | inr some_ =>
      obtain ⟨put', member, none_⟩ := some_
      cases member with
      | head =>
        left
        rw [put_run, none_]
      | tail _ later => exact Or.inr ⟨put', later, none_⟩

theorem put_extends (w : Writer) (put : Put) : w.out <+: (put.run w).out ∧ (put.run w).cap = w.cap := by
  rw [put_run]
  cases put.form with
  | none => exact ⟨List.prefix_refl _, rfl⟩
  | some bytes =>
    simp only [quicWrBytes]
    split
    · exact ⟨List.prefix_refl _, rfl⟩
    · exact ⟨List.prefix_append _ _, rfl⟩

theorem puts_extend (w : Writer) (puts : List Put) : w.out <+: (runPuts w puts).out ∧ (runPuts w puts).cap = w.cap := by
  unfold runPuts
  induction puts generalizing w with
  | nil => exact ⟨List.prefix_refl _, rfl⟩
  | cons put puts ih =>
    rw [List.foldl_cons]
    have first := put_extends w put
    have rest := ih (put.run w)
    exact ⟨first.1.trans rest.1, rest.2.trans first.2⟩

example : quicVarintPut 15293 = [0x7b, 0xbd] := by decide

end ProvenC.Quic.Varint

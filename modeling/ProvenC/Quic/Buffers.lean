import ProvenC.Bytes

/-!
# The bytes a stream holds

A receive queue keeps its bytes in a buffer that moves them to the front when it runs out of room behind
them; a send queue in a ring that never moves them while they wait.
-/

namespace ProvenC.Quic.Buffers

open Bytes

/-- `n` bytes of `source` copied to `at_`. -/
def qcopy (p : Nat → Byte) (at_ : Nat) (source : Nat → Byte) (n : Nat) : Nat → Byte :=
  fun i => if at_ ≤ i ∧ i < at_ + n then source (i - at_) else p i

/-- The byte `i` of a list, for copying it. -/
def bytesOf (bytes : List Byte) : Nat → Byte := fun i => bytes.getD i 0

theorem copy_inside {p source : Nat → Byte} {at_ n i : Nat} (inside : i < n) :
    qcopy p at_ source n (at_ + i) = source i := by
  rw [qcopy, if_pos (by omega), Nat.add_sub_cancel_left]

theorem copy_outside {p source : Nat → Byte} {at_ n i : Nat} (outside : i < at_ ∨ at_ + n ≤ i) :
    qcopy p at_ source n i = p i := by
  rw [qcopy, if_neg (by omega)]

/-- `cap` doubled until it holds `n`, at most `fuel` times. -/
def doubled : Nat → Nat → Nat → Nat
  | 0, cap, _ => cap
  | fuel + 1, cap, n => if cap < n then doubled fuel (cap * 2) n else cap

/-- `while (cap < n) cap *= 2`: `n` times are enough. -/
def qcapDouble (cap n : Nat) : Nat := doubled n cap n

/-- `qcap_for`: the capacity a buffer grown from 1 KiB by doubling has when it holds `n`. -/
def qcapFor (n : Nat) : Nat := qcapDouble 1024 n

theorem doubled_holds {fuel cap n : Nat} (some_ : 0 < cap) (enough : n ≤ cap + fuel) : n ≤ doubled fuel cap n := by
  induction fuel generalizing cap with
  | zero => exact enough
  | succ fuel ih =>
    rw [doubled]
    split
    · exact ih (by omega) (by omega)
    · omega

theorem cap_double_holds {cap : Nat} (some_ : 0 < cap) (n : Nat) : n ≤ qcapDouble cap n :=
  doubled_holds some_ (Nat.le_add_left _ _)

/-- `proven_qbuf_t`: the bytes `[head, head + len)` of `p`. -/
structure QBuf where
  p : Nat → Byte
  cap : Nat
  head : Nat
  len : Nat
  peak : Nat
  last : Nat

def QBuf.none : QBuf := { p := fun _ => 0, cap := 0, head := 0, len := 0, peak := 0, last := 0 }

/-- The byte `i` after the head. -/
def QBuf.at (b : QBuf) (i : Nat) : Byte := b.p (b.head + i)

def QBuf.Fits (b : QBuf) : Prop := b.head + b.len ≤ b.cap

def firstCap (last : Nat) : Nat := if last = 0 then 1024 else last

/-- `qbuf_reserve`, from where there is no room behind the head: the bytes move to the front. -/
def qbufFront (b : QBuf) : QBuf :=
  if 0 < b.head then { b with p := qcopy b.p 0 (fun i => b.p (b.head + i)) b.len, head := 0 } else b

/-- `qbuf_reserve`, from where the memory is too small; the new memory holds `junk`. -/
def qbufGrow (junk : Nat → Byte) (b : QBuf) (n : Nat) : QBuf :=
  let cap := qcapDouble (if b.cap = 0 then firstCap b.last else b.cap) n
  { b with p := fun i => if i < b.cap then b.p i else junk i, cap := cap }

/-- `qbuf_reserve`: room for `n` bytes from the head. -/
def qbufReserve (junk : Nat → Byte) (b : QBuf) (n : Nat) : QBuf :=
  let b := { b with peak := max b.peak n }
  if n ≤ b.cap - b.head then b
  else
    let b := qbufFront b
    if n ≤ b.cap then b else qbufGrow junk b n

def qbufGiveBack (b : QBuf) : QBuf :=
  let b := { b with head := 0 }
  let b :=
    if 4096 < b.cap then
      { b with last := max (qcapFor b.peak) (b.last - b.last / 8), p := fun _ => 0, cap := 0 }
    else b
  { b with peak := 0 }

/-- `qbuf_drop`: bytes taken from the front. -/
def qbufDrop (b : QBuf) (n : Nat) : QBuf :=
  let b := { b with head := b.head + n, len := b.len - n }
  if b.len = 0 then qbufGiveBack b else b

/-- The bytes laid over the buffer `at_` after the head; only a hole before them is zeroed. -/
def qbufPut (junk : Nat → Byte) (b : QBuf) (at_ : Nat) (bytes : List Byte) : QBuf :=
  let need := at_ + bytes.length
  let b :=
    if b.len < need then
      let b := qbufReserve junk b need
      { b with
        p := if b.len < at_ then qcopy b.p (b.head + b.len) (fun _ => 0) (at_ - b.len) else b.p
        len := need }
    else b
  { b with p := qcopy b.p (b.head + at_) (bytesOf bytes) bytes.length }

theorem first_cap_some (last : Nat) : 0 < firstCap last := by
  unfold firstCap
  split <;> omega

theorem front_spec {b : QBuf} (fits : b.Fits) :
    (qbufFront b).head = 0 ∧ (qbufFront b).len = b.len ∧ (qbufFront b).cap = b.cap ∧
      (∀ i < b.len, (qbufFront b).at i = b.at i) ∧ (qbufFront b).Fits := by
  unfold qbufFront
  split
  · refine ⟨rfl, rfl, rfl, fun i inside => ?_, ?_⟩
    · have copied := @copy_inside b.p (fun i => b.p (b.head + i)) 0 b.len i inside
      exact copied
    unfold QBuf.Fits at *
    dsimp only
    omega
  · exact ⟨by omega, rfl, rfl, fun _ _ => rfl, fits⟩

theorem grow_spec {b : QBuf} (fits : b.Fits) (junk : Nat → Byte) (n : Nat) :
    (qbufGrow junk b n).head = b.head ∧ (qbufGrow junk b n).len = b.len ∧ n ≤ (qbufGrow junk b n).cap ∧
      ∀ i < b.len, (qbufGrow junk b n).at i = b.at i := by
  refine ⟨rfl, rfl, ?_, fun i inside => ?_⟩
  · have some_ : 0 < if b.cap = 0 then firstCap b.last else b.cap := by
      split
      · exact first_cap_some _
      · omega
    exact cap_double_holds some_ n
  have held : b.head + i < b.cap := by
    have within : b.head + b.len ≤ b.cap := fits
    omega
  exact if_pos held

theorem reserve_spec {b : QBuf} (fits : b.Fits) (junk : Nat → Byte) (n : Nat) :
    (qbufReserve junk b n).len = b.len ∧ (qbufReserve junk b n).head + n ≤ (qbufReserve junk b n).cap ∧
      ∀ i < b.len, (qbufReserve junk b n).at i = b.at i := by
  have within : b.head + b.len ≤ b.cap := fits
  obtain ⟨head, len, cap, same, moved⟩ := @front_spec { b with peak := max b.peak n } fits
  unfold qbufReserve
  dsimp only
  split
  next room =>
    exact ⟨rfl, by dsimp only at room ⊢; omega, fun _ _ => rfl⟩
  split
  next room =>
    exact ⟨len, by rw [head]; omega, same⟩
  obtain ⟨growHead, growLen, holds, grown⟩ := grow_spec moved junk n
  refine ⟨growLen.trans len, by rw [growHead, head]; omega, fun i inside => ?_⟩
  exact (grown i (by rw [len]; exact inside)).trans (same i inside)

theorem put_spec {b : QBuf} (fits : b.Fits) (junk : Nat → Byte) (at_ : Nat) (bytes : List Byte) :
    (qbufPut junk b at_ bytes).Fits ∧ (qbufPut junk b at_ bytes).len = max b.len (at_ + bytes.length) ∧
      (∀ i < bytes.length, (qbufPut junk b at_ bytes).at (at_ + i) = bytes.getD i 0) ∧
      ∀ i < b.len, i < at_ ∨ at_ + bytes.length ≤ i → (qbufPut junk b at_ bytes).at i = b.at i := by
  have within : b.head + b.len ≤ b.cap := fits
  unfold qbufPut
  dsimp only
  split
  next need =>
    obtain ⟨len, room, same⟩ := reserve_spec fits junk (at_ + bytes.length)
    refine ⟨room, by dsimp only; omega, fun i inside => ?_, fun i inside outside => ?_⟩
    · unfold QBuf.at
      dsimp only
      rw [← add_assoc, copy_inside inside, bytesOf]
    have kept := same i inside
    unfold QBuf.at at kept ⊢
    dsimp only
    rw [copy_outside (by omega)]
    split
    · rw [copy_outside (by omega), kept]
    · exact kept
  rename_i enough
  refine ⟨within, by omega, fun i inside => ?_, fun i _ outside => ?_⟩
  · unfold QBuf.at
    dsimp only
    rw [← add_assoc, copy_inside inside, bytesOf]
  unfold QBuf.at
  dsimp only
  rw [copy_outside (by omega)]

theorem drop_spec {b : QBuf} (fits : b.Fits) {n : Nat} (some_ : n ≤ b.len) :
    (qbufDrop b n).Fits ∧ (qbufDrop b n).len = b.len - n ∧ ∀ i < b.len - n, (qbufDrop b n).at i = b.at (n + i) := by
  have within : b.head + b.len ≤ b.cap := fits
  unfold qbufDrop
  dsimp only
  split
  next empty =>
    unfold qbufGiveBack QBuf.Fits
    dsimp only at empty ⊢
    refine ⟨?_, ?_, fun i inside => absurd inside (by omega)⟩
    · split
      · show 0 + (b.len - n) ≤ 0
        omega
      show 0 + (b.len - n) ≤ b.cap
      omega
    · split <;> rfl
  refine ⟨?_, rfl, fun i _ => ?_⟩
  · unfold QBuf.Fits
    dsimp only
    omega
  unfold QBuf.at
  dsimp only
  rw [add_assoc]

/-- `proven_qring_t`: the bytes `[head, head + len)` of `p`, wrapping at `cap`. -/
structure QRing where
  p : Nat → Byte
  cap : Nat
  head : Nat
  len : Nat
  peak : Nat
  last : Nat

def QRing.none : QRing := { p := fun _ => 0, cap := 0, head := 0, len := 0, peak := 0, last := 0 }

/-- `ring_pos`: the position of the byte `i` after the head. -/
def ringPos (r : QRing) (i : Nat) : Nat := if r.cap ≤ r.head + i then r.head + i - r.cap else r.head + i

/-- The byte `i` after the head. -/
def QRing.at (r : QRing) (i : Nat) : Byte := r.p (ringPos r i)

structure QRing.Fits (r : QRing) : Prop where
  held : r.len ≤ r.cap
  inside : r.head < r.cap ∨ r.head = 0

/-- `ring_reserve`, from where the memory is too small: the bytes are copied out unwrapped. -/
def ringGrow (junk : Nat → Byte) (r : QRing) (n : Nat) : QRing :=
  let cap := qcapDouble (if r.cap = 0 then firstCap r.last else r.cap * 2) n
  let first := min (r.cap - r.head) r.len
  { r with
    p := qcopy (qcopy junk 0 (fun i => r.p (r.head + i)) first) first r.p (r.len - first)
    cap := cap
    head := 0 }

/-- `ring_reserve`: room for `n` bytes in all. -/
def ringReserve (junk : Nat → Byte) (r : QRing) (n : Nat) : QRing :=
  let r := { r with peak := max r.peak n }
  if n ≤ r.cap then r else ringGrow junk r n

/-- `ring_put`: bytes added at the end, in at most two parts. -/
def ringPut (r : QRing) (source : List Byte) : QRing :=
  let at_ := ringPos r r.len
  let n := source.length
  let first := min (r.cap - at_) n
  { r with
    p := qcopy (qcopy r.p at_ (bytesOf source) first) 0 (fun i => bytesOf source (first + i)) (n - first)
    len := r.len + n }

/-- `ring_drop`, from where the ring is empty: it is given back as a buffer is. -/
def ringGiveBack (r : QRing) : QRing :=
  let r := { r with head := 0 }
  let r :=
    if 4096 < r.cap then
      { r with last := max (qcapFor r.peak) (r.last - r.last / 8), p := fun _ => 0, cap := 0 }
    else r
  { r with peak := 0 }

/-- `ring_drop`: bytes taken from the front. -/
def ringDrop (r : QRing) (n : Nat) : QRing :=
  let r := { r with head := ringPos r n, len := r.len - n }
  if r.len = 0 then ringGiveBack r else r

end ProvenC.Quic.Buffers

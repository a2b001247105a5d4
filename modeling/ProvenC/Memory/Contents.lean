import ProvenC.Memory.Array

/-!
# The array is a list of values

Every call on an array does to the values of its elements what the operation on lists does, with
the values at entry: also when an element it is given is one of the array's own, and when the
block moves.
-/

namespace ProvenC.Memory.Contents

open List Bytes Lib.Cells Memory.Arena Memory.Array
open Map.Table (isPow2 sizeLimit)

/-- A block of `size` bytes that nobody else holds, before the end of the address space. -/
structure Fresh (held : Nat → Prop) (ptr size : Nat) : Prop where
  some_ : ptr ≠ 0
  fits : ptr + size < sizeLimit
  free : ∀ i < size, ¬held (ptr + i)

/-- What an allocator promises, where others hold the bytes `held`: its blocks are fresh, a block
that is resized keeps its bytes, and a request that fails leaves the block as it was. -/
structure Honest {World : Type} (alloc : Allocator World) (held : Nat → Prop) : Prop where
  allocated : ∀ world memory size align ptr world' memory',
    alloc.allocFn world memory size align = (.ok ptr, world', memory') → Fresh held ptr size
  resized : ∀ world memory old oldSize newSize align ptr world' memory',
    alloc.reallocFn world memory old oldSize newSize align = (.ok ptr, world', memory') →
      Fresh held ptr newSize ∧ (∀ i < min oldSize newSize, memory' (ptr + i) = memory (old + i)) ∧
        ∀ place, held place → memory' place = memory place
  refused : ∀ world memory old oldSize newSize align err world' memory',
    alloc.reallocFn world memory old oldSize newSize align = (.error err, world', memory') →
      (∀ i < oldSize, memory' (old + i) = memory (old + i)) ∧ ∀ place, held place → memory' place = memory place

structure Shape (held : Nat → Prop) (arr : ProvenArray) : Prop where
  element : 0 < arr.elemSize
  power : isPow2 arr.align = true
  within : arr.len ≤ arr.cap
  bytes : arr.cap * arr.elemSize < sizeLimit
  block : 0 < arr.cap → Fresh held arr.data (arr.cap * arr.elemSize)

/-- The bytes of the array with number `i`. -/
def slot (memory : Memory) (arr : ProvenArray) (i : Nat) : List Byte :=
  range memory (arr.data + i * arr.elemSize) arr.elemSize

def contents (memory : Memory) (arr : ProvenArray) : List (List Byte) := (List.range arr.len).map (slot memory arr)

/-- The values of `count` elements from `place` on. -/
def values (memory : Memory) (place elemSize count : Nat) : List (List Byte) :=
  (List.range count).map fun i => range memory (place + i * elemSize) elemSize

/-- A range of `size` bytes that a call may read: somebody else's, or elements of the array. -/
def Given (held : Nat → Prop) (arr : ProvenArray) (ptr size : Nat) : Prop :=
  (∀ i < size, held (ptr + i)) ∨ ∃ i, ptr = arr.data + i * arr.elemSize ∧ i * arr.elemSize + size ≤ arr.len * arr.elemSize

variable {World : Type} {alloc : Allocator World} {held : Nat → Prop} {arr arr' : ProvenArray}
variable {memory memory' : Memory} {s s' : State World}

theorem ckd_mul_some {a b product : Nat} (made : ckdMul a b = some product) : a * b < sizeLimit ∧ product = a * b := by
  unfold ckdMul at made
  split at made
  next fits =>
    exact ⟨fits, (Option.some.inj made).symm⟩
  · cases made

theorem contents_length (memory : Memory) (arr : ProvenArray) : (contents memory arr).length = arr.len := by
  unfold contents
  rw [length_map, length_range]

theorem contents_get (memory : Memory) (arr : ProvenArray) (i : Nat) :
    (contents memory arr)[i]? = if i < arr.len then some (slot memory arr i) else none := by
  unfold contents
  rw [List.getElem?_map]
  by_cases inside : i < arr.len
  · rw [List.getElem?_range inside, if_pos inside]
    rfl
  rw [List.getElem?_eq_none (by rw [length_range]; omega), if_neg inside]
  rfl

theorem slot_inside {i n : Nat} (inside : i < n) (elemSize : Nat) : i * elemSize + elemSize ≤ n * elemSize := by
  have step := Nat.mul_le_mul_right elemSize (Nat.succ_le_of_lt inside)
  rw [Nat.succ_mul] at step
  exact step

theorem slot_eq {i j : Nat} (same : arr'.elemSize = arr.elemSize)
    (bytes : ∀ k < arr.elemSize, memory' (arr'.data + j * arr.elemSize + k) = memory (arr.data + i * arr.elemSize + k)) :
    slot memory' arr' j = slot memory arr i := by
  unfold slot
  rw [same]
  exact range_eq bytes

theorem contents_eq (len : arr'.len = arr.len) (same : arr'.elemSize = arr.elemSize)
    (bytes : ∀ k < arr.len * arr.elemSize, memory' (arr'.data + k) = memory (arr.data + k)) :
    contents memory' arr' = contents memory arr := by
  unfold contents
  rw [len]
  apply map_congr_left
  intro i among
  have inside := slot_inside (mem_range.mp among) arr.elemSize
  apply slot_eq same
  intro k within
  rw [add_assoc, add_assoc]
  exact bytes _ (by omega)

theorem contents_append (memory : Memory) (arr : ProvenArray) (source count : Nat) :
    contents (moved memory (arr.data + arr.len * arr.elemSize) source (count * arr.elemSize))
        { arr with len := arr.len + count } =
      contents memory arr ++ values memory source arr.elemSize count := by
  have before : ∀ i < arr.len,
      slot (moved memory (arr.data + arr.len * arr.elemSize) source (count * arr.elemSize)) arr i = slot memory arr i := by
    intro i among
    have inside := slot_inside among arr.elemSize
    apply slot_eq rfl
    intro k within
    exact moved_outside (.inl (by omega))
  have new : ∀ i < count,
      slot (moved memory (arr.data + arr.len * arr.elemSize) source (count * arr.elemSize)) arr (arr.len + i) =
        range memory (source + i * arr.elemSize) arr.elemSize := by
    intro i among
    have inside := slot_inside among arr.elemSize
    unfold slot
    apply range_eq
    intro k within
    rw [add_mul, show arr.data + (arr.len * arr.elemSize + i * arr.elemSize) + k =
      arr.data + arr.len * arr.elemSize + (i * arr.elemSize + k) by omega, moved_inside (by omega), ← add_assoc]
  unfold contents values
  rw [range_add, map_append, map_map]
  congr 1
  · exact map_congr_left fun i among => before i (mem_range.mp among)
  · exact map_congr_left fun i among => new i (mem_range.mp among)

variable {ptr : Nat}

theorem held_apart {size base cap : Nat} (fresh : Fresh held base cap) (holds : ∀ i < size, held (ptr + i))
    (positive : 0 < size) (positive' : 0 < cap) : Apart ptr size base cap := by
  unfold Apart
  by_contra meet
  rw [not_or, not_le, not_le] at meet
  by_cases first : ptr ≤ base
  · have here := holds (base - ptr) (by omega)
    rw [show ptr + (base - ptr) = base + 0 by omega] at here
    exact fresh.free 0 positive' here
  have here := holds 0 positive
  rw [show ptr + 0 = base + (ptr - base) by omega] at here
  exact fresh.free _ (by omega) here

theorem valid_shape (shape : Shape held arr) : arrayIsValid arr = true := by
  unfold arrayIsValid ckdMul
  have element := shape.element
  have within := shape.within
  rw [if_neg (by rw [shape.power]; rintro (no | no); exacts [by omega, by cases no]), if_neg (by omega),
    if_neg (fun no => (shape.block no.1).some_ no.2), if_neg (fun no => (shape.block (by omega)).some_ no.2),
    if_pos shape.bytes]
  rfl

theorem own_captured {i size : Nat} (fresh : Fresh held arr.data (arr.cap * arr.elemSize)) (within : arr.len ≤ arr.cap)
    (inside : i * arr.elemSize + size ≤ arr.len * arr.elemSize) :
    bufrefCapture arr.data (arr.cap * arr.elemSize) (arr.data + i * arr.elemSize) size = some (i * arr.elemSize) := by
  have room := Nat.mul_le_mul_right arr.elemSize within
  have some_ := fresh.some_
  have fits := fresh.fits
  unfold bufrefCapture ckdAdd
  rw [if_neg (by omega), if_pos fits, if_pos (by omega)]
  dsimp only
  rw [if_neg (by omega), if_neg (by omega), Nat.add_sub_cancel_left]

theorem held_uncaptured {size base cap : Nat} (block : 0 < cap → Fresh held base cap)
    (holds : ∀ i < size, held (ptr + i)) (positive : 0 < size) : bufrefCapture base cap ptr size = none := by
  unfold bufrefCapture
  split
  · rfl
  split
  next finish ptrFinish ends ends' =>
    obtain ⟨_, rfl⟩ := ckd_add_some ends
    obtain ⟨_, rfl⟩ := ckd_add_some ends'
    split
    · rfl
    split
    · rfl
    have some_ : 0 < cap := by omega
    rcases held_apart (block some_) holds positive some_ with before | behind
    all_goals omega
  · rfl

theorem held_no_overlap {size base cap : Nat} (block : 0 < cap → Fresh held base cap)
    (holds : ∀ i < size, held (ptr + i)) : rangeOverlaps base cap ptr size = false := by
  unfold rangeOverlaps
  split
  · rfl
  rename_i some_
  have positive : 0 < cap := by omega
  have fits := (block positive).fits
  have finish : rangeEnd base cap = base + cap := by
    unfold rangeEnd ckdAdd
    rw [if_pos fits]
    rfl
  have ends : rangeEnd ptr size ≤ ptr + size ∧ rangeEnd ptr size < sizeLimit := by
    unfold rangeEnd ckdAdd
    split
    next within =>
      exact ⟨le_refl _, within⟩
    change sizeLimit - 1 ≤ ptr + size ∧ sizeLimit - 1 < sizeLimit
    unfold sizeLimit at *
    omega
  rw [decide_eq_false_iff_not, finish]
  rcases held_apart (block positive) holds (by omega) positive with before | behind
  · omega
  · omega

structure Kept (s s' : State World) : Prop where
  arr : s'.arr = s.arr
  contents : contents s'.memory s'.arr = contents s.memory s.arr

/-- The array has room for `extra` more, and what was about to be copied from `src` is at `src'`. -/
structure Grown (held : Nat → Prop) (s : State World) (extra src bytes : Nat) (s' : State World) (src' : Nat) : Prop where
  shape : Shape held s'.arr
  len : s'.arr.len = s.arr.len
  elemSize : s'.arr.elemSize = s.arr.elemSize
  room : s.arr.len + extra ≤ s'.arr.cap
  own : ∀ k < s.arr.len * s.arr.elemSize, s'.memory (s'.arr.data + k) = s.memory (s.arr.data + k)
  source : ∀ i < bytes, s'.memory (src' + i) = s.memory (src + i)
  given : Given held s'.arr src' bytes

theorem kept_refl (s : State World) : Kept s s := ⟨rfl, rfl⟩

variable {src : Nat}

theorem grown_refl {extra bytes : Nat} (shape : Shape held s.arr) (room : s.arr.len + extra ≤ s.arr.cap)
    (given : Given held s.arr src bytes) : Grown held s extra src bytes s src :=
  ⟨shape, rfl, rfl, room, fun _ _ => rfl, fun _ _ => rfl, given⟩

variable (honest : Honest alloc held)
include honest

theorem resize_refused (shape : Shape held s.arr) {newBytes newCap : Nat} {err : ProvenErr}
    (refused : arrayResize alloc s (s.arr.cap * s.arr.elemSize) newBytes newCap = (.error err, s')) : Kept s s' := by
  unfold arrayResize at refused
  split at refused
  next err' world memory answer =>
    obtain ⟨_, rfl⟩ := Prod.mk.inj refused
    refine ⟨rfl, contents_eq rfl rfl fun k within => ?_⟩
    have room := Nat.mul_le_mul_right s.arr.elemSize shape.within
    exact (honest.refused _ _ _ _ _ _ _ _ _ answer).1 k (by omega)
  · cases (Prod.mk.inj refused).1

theorem resize_done (shape : Shape held s.arr) {newCap : Nat} (more : s.arr.cap ≤ newCap)
    (fits : newCap * s.arr.elemSize < sizeLimit)
    (resized : arrayResize alloc s (s.arr.cap * s.arr.elemSize) (newCap * s.arr.elemSize) newCap = (.ok (), s')) :
    s'.arr = { s.arr with data := s'.arr.data, cap := newCap } ∧ Shape held s'.arr ∧
      (∀ k < s.arr.len * s.arr.elemSize, s'.memory (s'.arr.data + k) = s.memory (s.arr.data + k)) ∧
      ∀ place, held place → s'.memory place = s.memory place := by
  have within := Nat.mul_le_mul_right s.arr.elemSize shape.within
  have larger := Nat.mul_le_mul_right s.arr.elemSize more
  unfold arrayResize at resized
  split at resized
  · cases (Prod.mk.inj resized).1
  rename_i data world memory answer
  obtain ⟨_, rfl⟩ := Prod.mk.inj resized
  obtain ⟨fresh, copied, others⟩ := honest.resized _ _ _ _ _ _ _ _ _ answer
  refine ⟨rfl, ⟨shape.element, shape.power, le_trans shape.within more, fits, fun _ => fresh⟩, ?_, others⟩
  exact fun k inside => copied k (by omega)

theorem resize_grown (shape : Shape held s.arr) (extra : Nat) {bytes newCap : Nat}
    (given : Given held s.arr src bytes) (positive : 0 < bytes) (more : s.arr.cap ≤ newCap)
    (room : s.arr.len + extra ≤ newCap) (fits : newCap * s.arr.elemSize < sizeLimit)
    (resized : arrayResize alloc s (s.arr.cap * s.arr.elemSize) (newCap * s.arr.elemSize) newCap = (.ok (), s')) :
    Grown held s extra src bytes s'
      (rebased (bufrefCapture s.arr.data (s.arr.cap * s.arr.elemSize) src bytes) s'.arr.data src) := by
  obtain ⟨fields, shape', own, others⟩ := resize_done honest shape more fits resized
  have len : s'.arr.len = s.arr.len := by rw [fields]
  have elemSize : s'.arr.elemSize = s.arr.elemSize := by rw [fields]
  have cap : s'.arr.cap = newCap := by rw [fields]
  rw [← cap] at room
  rcases given with outside | ⟨i, rfl, inside⟩
  · have block : 0 < s.arr.cap * s.arr.elemSize → Fresh held s.arr.data (s.arr.cap * s.arr.elemSize) := fun some_ =>
      shape.block (Nat.pos_of_mul_pos_right some_)
    rw [held_uncaptured block outside positive]
    exact ⟨shape', len, elemSize, room, own, fun k inside => others _ (outside k inside), .inl outside⟩
  have some_ : 0 < s.arr.cap := by
    by_contra none_
    have bound := shape.within
    rw [show s.arr.len = 0 by omega] at inside
    omega
  rw [own_captured (shape.block some_) shape.within inside]
  refine ⟨shape', len, elemSize, room, own, fun k within => ?_, .inr ⟨i, ?_, ?_⟩⟩
  · change s'.memory (s'.arr.data + i * s.arr.elemSize + k) = _
    rw [add_assoc, add_assoc]
    exact own _ (by omega)
  · rw [elemSize]
    rfl
  rw [elemSize, len]
  exact inside

omit honest in
theorem doubled_reaches (need : Nat) (fits : need < sizeLimit) :
    ∀ left newCap, sizeLimit ≤ newCap * 2 ^ left → need ≤ doubled need left newCap ∧ newCap ≤ max need (doubled need left newCap) := by
  intro left
  induction left with
  | zero =>
    intro newCap reaches
    unfold doubled
    omega
  | succ left ih =>
    intro newCap reaches
    unfold doubled
    split
    · split
      · omega
      have further := ih (newCap * 2) (by rw [mul_assoc, ← Nat.pow_succ']; exact reaches)
      omega
    · omega

theorem make_room (shape : Shape held s.arr) (extra : Nat) {bytes : Nat}
    (given : Given held s.arr src bytes) (positive : 0 < bytes) (some_ : src ≠ 0) :
    (∃ err s', arrayMakeRoom alloc s extra src bytes = (.error err, s') ∧ Kept s s') ∨
      ∃ src' s', arrayMakeRoom alloc s extra src bytes = (.ok src', s') ∧ Grown held s extra src bytes s' src' := by
  have looks : decide (src ≠ 0 ∧ 0 < bytes) = true := decide_eq_true ⟨some_, positive⟩
  have oldBytes : ckdMul s.arr.cap s.arr.elemSize = some (s.arr.cap * s.arr.elemSize) := if_pos shape.bytes
  have element := shape.element
  unfold arrayMakeRoom
  rw [oldBytes]
  cases added : ckdAdd s.arr.len extra with
  | none => exact .inl ⟨_, _, rfl, kept_refl s⟩
  | some need =>
    obtain ⟨fits, rfl⟩ := ckd_add_some added
    dsimp only
    rw [looks, if_pos rfl]
    have apart : ¬(true = true ∧ bufrefCapture s.arr.data (s.arr.cap * s.arr.elemSize) src bytes = none ∧
        rangeOverlaps s.arr.data (s.arr.cap * s.arr.elemSize) src bytes = true) := by
      rintro ⟨_, uncaptured, overlaps⟩
      rcases given with outside | ⟨i, rfl, inside⟩
      · rw [held_no_overlap (fun some_ => shape.block (Nat.pos_of_mul_pos_right some_)) outside] at overlaps
        cases overlaps
      have cap : 0 < s.arr.cap := by
        by_contra none_
        have bound := shape.within
        rw [show s.arr.len = 0 by omega] at inside
        omega
      rw [own_captured (shape.block cap) shape.within inside] at uncaptured
      cases uncaptured
    rw [if_neg apart]
    split
    next room =>
      exact .inr ⟨src, s, rfl, grown_refl shape room given⟩
    rename_i full
    have start : 1 ≤ if s.arr.cap = 0 then 8 else s.arr.cap := by
      split
      · omega
      · omega
    have reached := doubled_reaches (s.arr.len + extra) fits 64 (if s.arr.cap = 0 then 8 else s.arr.cap)
      (Nat.mul_le_mul_right (2 ^ 64) start)
    have larger : s.arr.cap ≤ if s.arr.cap = 0 then 8 else s.arr.cap := by
      split
      · omega
      · exact le_refl _
    cases sized : ckdMul (doubled (s.arr.len + extra) 64 (if s.arr.cap = 0 then 8 else s.arr.cap)) s.arr.elemSize with
    | none => exact .inl ⟨_, _, rfl, kept_refl s⟩
    | some newBytes =>
      obtain ⟨within, rfl⟩ := ckd_mul_some sized
      dsimp only
      split
      next err s' refused =>
        exact .inl ⟨err, s', rfl, resize_refused honest shape refused⟩
      rename_i s' resized
      exact .inr ⟨_, s', rfl, resize_grown honest shape extra given positive (by omega) reached.1 within resized⟩

omit honest

def Follows (held : Nat → Prop) (s : State World) (expected : List (List Byte)) :
    Except ProvenErr Unit × State World → Prop
  | (.error _, s') => Kept s s'
  | (.ok (), s') =>
    Shape held s'.arr ∧ s'.arr.elemSize = s.arr.elemSize ∧ contents s'.memory s'.arr = expected

def OutGiven (held : Nat → Prop) (arr : ProvenArray) (outElement : Nat) : Prop :=
  outElement = 0 ∨ ∀ i < arr.elemSize, held (outElement + i)

theorem grown_contents {extra bytes src' : Nat} (grown : Grown held s extra src bytes s' src') :
    contents s'.memory s'.arr = contents s.memory s.arr := contents_eq grown.len grown.elemSize grown.own

theorem given_apart (place count : Nat) {size : Nat} (shape : Shape held arr) (holds : ∀ i < size, held (ptr + i))
    (positive : 0 < size) (some_ : 0 < count) (low : arr.data ≤ place)
    (high : place + count ≤ arr.data + arr.cap * arr.elemSize) : Apart place count ptr size := by
  have cap : 0 < arr.cap * arr.elemSize := by omega
  have apart := held_apart (shape.block (Nat.pos_of_mul_pos_right cap)) holds positive cap
  exact apart_within (apart_symm apart) low (by omega) (le_refl _) (le_refl _)

variable {element : Nat}

theorem place_follows (shape : Shape held s.arr) (room : s.arr.len + 1 ≤ s.arr.cap)
    (given : Given held s.arr element s.arr.elemSize) :
    ∃ s', arrayPlace s element = some (.ok (), s') ∧ Shape held s'.arr ∧ s'.arr.elemSize = s.arr.elemSize ∧
      contents s'.memory s'.arr = contents s.memory s.arr ++ [range s.memory element s.arr.elemSize] := by
  have positive := shape.element
  have fits := shape.bytes
  have last := slot_inside (n := s.arr.cap) (i := s.arr.len) (by omega) s.arr.elemSize
  have apart : Apart (s.arr.data + s.arr.len * s.arr.elemSize) s.arr.elemSize element s.arr.elemSize := by
    rcases given with outside | ⟨i, rfl, inside⟩
    · exact given_apart _ _ shape outside positive positive (by omega) (by omega)
    · exact .inr (by omega)
  have offset : ckdMul s.arr.len s.arr.elemSize = some (s.arr.len * s.arr.elemSize) := if_pos (by omega)
  have copied : sysMemCopy s.memory (s.arr.data + s.arr.len * s.arr.elemSize) element s.arr.elemSize =
      some (moved s.memory (s.arr.data + s.arr.len * s.arr.elemSize) element s.arr.elemSize) := if_pos apart
  refine ⟨{ s with
    memory := moved s.memory (s.arr.data + s.arr.len * s.arr.elemSize) element s.arr.elemSize
    arr := { s.arr with len := s.arr.len + 1 } }, ?_, ?_, rfl, ?_⟩
  · unfold arrayPlace
    rw [offset]
    dsimp only
    rw [copied]
    rfl
  · exact ⟨shape.element, shape.power, room, shape.bytes, shape.block⟩
  have appended := contents_append s.memory s.arr element 1
  rw [one_mul] at appended
  rw [appended]
  unfold values
  rw [List.range_one, map_singleton, zero_mul, add_zero]

theorem push_follows (honest : Honest alloc held) (shape : Shape held s.arr)
    (given : element = 0 ∨ Given held s.arr element s.arr.elemSize) : ∃ answer, arrayPush alloc s element = some answer ∧
      Follows held s (contents s.memory s.arr ++ [range s.memory element s.arr.elemSize]) answer := by
  have positive := shape.element
  have within := shape.within
  have oldBytes : ckdMul s.arr.cap s.arr.elemSize = some (s.arr.cap * s.arr.elemSize) := if_pos shape.bytes
  unfold arrayPush
  rw [valid_shape shape]
  split
  · exact ⟨_, rfl, kept_refl s⟩
  rename_i some_
  have given' : Given held s.arr element s.arr.elemSize := by
    rcases given with none_ | given
    · exact absurd (.inr none_) some_
    · exact given
  split
  next full =>
    split
    · exact ⟨_, rfl, kept_refl s⟩
    rename_i newCap larger
    have more : s.arr.cap + 1 ≤ newCap := by
      split at larger
      · obtain rfl := Option.some.inj larger
        omega
      obtain ⟨_, rfl⟩ := ckd_mul_some larger
      omega
    rw [oldBytes]
    cases sized : ckdMul newCap s.arr.elemSize with
    | none => exact ⟨_, rfl, kept_refl s⟩
    | some newBytes =>
      obtain ⟨fits, rfl⟩ := ckd_mul_some sized
      dsimp only
      split
      · exact ⟨_, rfl, kept_refl s⟩
      split
      next err s' refused =>
        exact ⟨_, rfl, resize_refused honest shape refused⟩
      rename_i s' resized
      have grown := resize_grown honest shape 1 given' positive (by omega) (by omega) fits resized
      have given'' := grown.given
      generalize rebased _ _ _ = element' at grown given'' ⊢
      rw [← grown.elemSize] at given''
      obtain ⟨after, placed, shape', elemSize, expected⟩ :=
        place_follows grown.shape (by rw [grown.len]; exact grown.room) given''
      refine ⟨_, placed, shape', elemSize.trans grown.elemSize, ?_⟩
      rw [expected, grown_contents grown, grown.elemSize]
      congr 2
      exact range_eq grown.source
  obtain ⟨after, placed, shape', elemSize, expected⟩ := place_follows shape (by omega) given'
  exact ⟨_, placed, shape', elemSize, expected⟩

variable {outElement : Nat}

theorem take_follows (shape : Shape held s.arr) (offset : Nat) (given : OutGiven held s.arr outElement)
    (inside : offset + s.arr.elemSize ≤ s.arr.cap * s.arr.elemSize) :
    ∃ memory, arrayTake s outElement offset = some { s with memory := memory } ∧
      ∀ k < s.arr.cap * s.arr.elemSize, memory (s.arr.data + k) = s.memory (s.arr.data + k) := by
  have positive := shape.element
  unfold arrayTake
  split
  · exact ⟨s.memory, rfl, fun _ _ => rfl⟩
  rename_i some_
  have outside : ∀ i < s.arr.elemSize, held (outElement + i) := given.resolve_left some_
  have apart := given_apart (s.arr.data + offset) s.arr.elemSize shape outside positive positive
    (by omega) (by omega)
  have block := given_apart s.arr.data (s.arr.cap * s.arr.elemSize) shape outside positive
    (by omega) (le_refl _) (le_refl _)
  have copied : sysMemCopy s.memory outElement (s.arr.data + offset) s.arr.elemSize =
      some (moved s.memory outElement (s.arr.data + offset) s.arr.elemSize) := if_pos (apart_symm apart)
  rw [copied]
  exact ⟨_, rfl, fun k within => moved_apart (apart_symm block) within⟩

theorem contents_take (memory : Memory) {n : Nat} (fewer : n ≤ arr.len) (same : ∀ k < n * arr.elemSize, memory' (arr.data + k) = memory (arr.data + k)) :
    contents memory' { arr with len := n } = (contents memory arr).take n := by
  have whole : contents memory' { arr with len := n } = contents memory { arr with len := n } := contents_eq rfl rfl same
  rw [whole]
  unfold contents
  rw [← map_take, take_range, min_eq_left fewer]
  rfl

theorem shape_shorter {n : Nat} (shape : Shape held arr) (fewer : n ≤ arr.len) : Shape held { arr with len := n } :=
  ⟨shape.element, shape.power, le_trans fewer shape.within, shape.bytes, shape.block⟩

theorem pop_follows (shape : Shape held s.arr) (given : OutGiven held s.arr outElement) :
    ∃ answer, arrayPop s outElement = some answer ∧ Follows held s (contents s.memory s.arr).dropLast answer := by
  have positive := shape.element
  have within := shape.within
  have shorter := shape_shorter shape (Nat.sub_le s.arr.len 1)
  have left (memory : Memory) (same : ∀ k < s.arr.cap * s.arr.elemSize, memory (s.arr.data + k) = s.memory (s.arr.data + k)) :
      contents memory { s.arr with len := s.arr.len - 1 } = (contents s.memory s.arr).dropLast := by
    have room := Nat.mul_le_mul_right s.arr.elemSize (show s.arr.len - 1 ≤ s.arr.cap by omega)
    rw [contents_take s.memory (Nat.sub_le _ _) fun k inside => same k (by omega), dropLast_eq_take, contents_length]
  unfold arrayPop
  rw [valid_shape shape, if_neg (by decide)]
  split
  · exact ⟨_, rfl, kept_refl s⟩
  rename_i some_
  dsimp only
  split
  · exact ⟨_, rfl, shorter, rfl, left s.memory fun _ _ => rfl⟩
  have last := slot_inside (n := s.arr.cap) (i := s.arr.len - 1) (by omega) s.arr.elemSize
  have bytes := shape.bytes
  have offset : ckdMul (s.arr.len - 1) s.arr.elemSize = some ((s.arr.len - 1) * s.arr.elemSize) := if_pos (by omega)
  rw [offset]
  obtain ⟨memory, took, same⟩ := take_follows (s := { s with arr := { s.arr with len := s.arr.len - 1 } })
    shorter ((s.arr.len - 1) * s.arr.elemSize) given last
  dsimp only
  rw [took]
  exact ⟨_, rfl, shorter, rfl, left memory same⟩

theorem followed_spec (shape : Shape held arr) {index : Nat} (inside : index ≤ arr.len) (room : arr.len + 1 ≤ arr.cap)
    (given : Given held arr element arr.elemSize) (memory : Memory) : let place := arr.data + index * arr.elemSize
    let tail := (arr.len - index) * arr.elemSize
    let el := followed place tail element arr.elemSize
    Apart place arr.elemSize el arr.elemSize ∧
      ∀ k < arr.elemSize, moved memory (place + arr.elemSize) place tail (el + k) = memory (element + k) := by
  have positive := shape.element
  have whole : index * arr.elemSize + (arr.len - index) * arr.elemSize = arr.len * arr.elemSize := by
    rw [← add_mul, Nat.add_sub_cancel' inside]
  have last := slot_inside (n := arr.cap) (i := arr.len) (by omega) arr.elemSize
  intro place tail el
  rcases given with outside | ⟨i, rfl, within⟩
  · have block := given_apart arr.data (arr.cap * arr.elemSize) shape outside positive
      (by omega) (le_refl _) (le_refl _)
    have still : el = element := by
      apply if_neg
      rcases block with before | behind
      · omega
      · omega
    rw [still]
    refine ⟨apart_within block (by omega) (by omega) (le_refl _) (le_refl _), fun k inside => ?_⟩
    apply moved_outside
    rcases block with before | behind
    · omega
    · omega
  by_cases behind : index ≤ i
  · have split : index * arr.elemSize + (i - index) * arr.elemSize = i * arr.elemSize := by
      rw [← add_mul, Nat.add_sub_cancel' behind]
    have moves : el = place + arr.elemSize + (i - index) * arr.elemSize := by
      have here : place ≤ arr.data + i * arr.elemSize ∧ arr.data + i * arr.elemSize < place + tail := by omega
      refine (if_pos here).trans ?_
      omega
    rw [moves]
    refine ⟨.inl (by omega), fun k inside => ?_⟩
    rw [add_assoc (place + arr.elemSize), moved_inside (by omega)]
    congr 1
    omega
  have before := slot_inside (not_le.mp behind) arr.elemSize
  have still : el = arr.data + i * arr.elemSize := if_neg (by omega)
  rw [still]
  exact ⟨.inr (by omega), fun k inside => moved_outside (by omega)⟩

theorem contents_insert {index : Nat} (inside : index ≤ arr.len) (memory after : Memory) (value : List Byte)
    (before : ∀ k < index * arr.elemSize, after (arr.data + k) = memory (arr.data + k))
    (here : range after (arr.data + index * arr.elemSize) arr.elemSize = value)
    (behind : ∀ k < (arr.len - index) * arr.elemSize,
      after (arr.data + index * arr.elemSize + arr.elemSize + k) = memory (arr.data + index * arr.elemSize + k)) :
    contents after { arr with len := arr.len + 1 } = (contents memory arr).insertIdx index value := by
  apply ext_getElem?
  intro j
  rw [contents_get, List.getElem?_insertIdx, contents_get, contents_length, contents_get]
  dsimp only
  by_cases first : j < index
  · have within := slot_inside first arr.elemSize
    rw [if_pos (by omega), if_pos first, if_pos (by omega)]
    congr 1
    apply slot_eq rfl
    intro k inside
    change k < arr.elemSize at inside
    change after (arr.data + j * arr.elemSize + k) = memory (arr.data + j * arr.elemSize + k)
    rw [add_assoc]
    exact before _ (by omega)
  rw [if_neg first]
  by_cases same : j = index
  · subst same
    rw [if_pos (by omega), if_pos rfl, if_pos inside]
    exact congrArg some here
  rw [if_neg same]
  by_cases among : j < arr.len + 1
  · rw [if_pos among, if_pos (by omega)]
    congr 1
    apply slot_eq rfl
    intro k within
    change k < arr.elemSize at within
    change after (arr.data + j * arr.elemSize + k) = memory (arr.data + (j - 1) * arr.elemSize + k)
    have source : (j - 1) * arr.elemSize = index * arr.elemSize + (j - 1 - index) * arr.elemSize := by
      rw [← add_mul]
      congr 1
      omega
    have target : j * arr.elemSize = index * arr.elemSize + arr.elemSize + (j - 1 - index) * arr.elemSize := by
      rw [← Nat.succ_mul, ← add_mul]
      congr 1
      omega
    have last := slot_inside (n := arr.len - index) (i := j - 1 - index) (by omega) arr.elemSize
    rw [source, target]
    have moved_ := behind ((j - 1 - index) * arr.elemSize + k) (by omega)
    rw [show arr.data + (index * arr.elemSize + arr.elemSize + (j - 1 - index) * arr.elemSize) + k =
      arr.data + index * arr.elemSize + arr.elemSize + ((j - 1 - index) * arr.elemSize + k) by omega, moved_]
    congr 1
    omega
  · rw [if_neg among, if_neg (by omega)]

theorem insert_follows (honest : Honest alloc held) (shape : Shape held s.arr) (index : Nat)
    (given : element = 0 ∨ Given held s.arr element s.arr.elemSize) :
    ∃ answer, arrayInsert alloc s index element = some answer ∧
      Follows held s ((contents s.memory s.arr).insertIdx index (range s.memory element s.arr.elemSize)) answer := by
  have positive := shape.element
  unfold arrayInsert
  rw [valid_shape shape]
  split
  · exact ⟨_, rfl, kept_refl s⟩
  rename_i some_
  rw [not_or] at some_
  have given' := given.resolve_left some_.2
  split
  · exact ⟨_, rfl, kept_refl s⟩
  rename_i inside
  rw [not_lt] at inside
  rcases make_room honest shape 1 given' positive some_.2 with
    ⟨err, s', refused, kept⟩ | ⟨element', s', made, grown⟩
  · rw [refused]
    exact ⟨_, rfl, kept⟩
  rw [made]
  have shape' := grown.shape
  have room := grown.room
  have given'' := grown.given
  rw [← grown.elemSize] at given''
  rw [← grown.len] at inside room
  obtain ⟨apart, value⟩ := followed_spec shape' inside room given'' s'.memory
  have whole : index * s'.arr.elemSize + (s'.arr.len - index) * s'.arr.elemSize = s'.arr.len * s'.arr.elemSize := by
    rw [← add_mul, Nat.add_sub_cancel' inside]
  dsimp only
  rw [show sysMemCopy _ _ _ _ = some _ from if_pos apart]
  refine ⟨_, rfl, ⟨shape'.element, shape'.power, room, shape'.bytes, shape'.block⟩, grown.elemSize, ?_⟩
  rw [← grown_contents grown]
  dsimp only [sysMemMove]
  apply contents_insert inside
  · intro k before
    rw [moved_outside (by omega)]
    exact moved_outside (by omega)
  · have same : range s.memory element s.arr.elemSize = range s'.memory element' s'.arr.elemSize := by
      rw [grown.elemSize]
      exact (range_eq grown.source).symm
    rw [same]
    apply range_eq
    intro k within
    rw [moved_inside within]
    exact value k within
  intro k behind
  rw [moved_outside (by omega)]
  exact moved_inside behind

/-- The list without the element at `index`, the last one in its place. -/
def swapRemoved {Value : Type} (list : List Value) (index : Nat) : List Value :=
  match list.getLast? with
  | none => list
  | some last => (list.set index last).dropLast

theorem take_outside (shape : Shape held s.arr) {index : Nat} (given : OutGiven held s.arr outElement)
    (inside : index < s.arr.len) :
    ∃ memory, arrayTake s outElement (index * s.arr.elemSize) = some { s with memory := memory } ∧
      ∀ k < s.arr.len * s.arr.elemSize, memory (s.arr.data + k) = s.memory (s.arr.data + k) := by
  have within := shape.within
  have room := Nat.mul_le_mul_right s.arr.elemSize within
  obtain ⟨memory, took, same⟩ := take_follows shape (index * s.arr.elemSize) given
    (le_trans (slot_inside inside s.arr.elemSize) room)
  exact ⟨memory, took, fun k below => same k (by omega)⟩

theorem remove_follows (shape : Shape held s.arr) (index : Nat) (given : OutGiven held s.arr outElement) :
    ∃ answer, arrayRemoveAt s index outElement = some answer ∧
      Follows held s ((contents s.memory s.arr).eraseIdx index) answer := by
  unfold arrayRemoveAt
  rw [valid_shape shape, if_neg (by decide)]
  split
  · exact ⟨_, rfl, kept_refl s⟩
  rename_i inside
  rw [not_le] at inside
  obtain ⟨memory, took, same⟩ := take_outside shape given inside
  rw [took]
  refine ⟨_, rfl, shape_shorter shape (Nat.sub_le _ _), rfl, ?_⟩
  dsimp only [sysMemMove]
  apply ext_getElem?
  intro j
  rw [contents_get, List.getElem?_eraseIdx, contents_get, contents_get]
  have first := slot_inside inside s.arr.elemSize
  dsimp only
  by_cases before : j < index
  · have within := slot_inside before s.arr.elemSize
    rw [if_pos (by omega), if_pos before, if_pos (by omega)]
    congr 1
    apply slot_eq rfl
    intro k below
    change k < s.arr.elemSize at below
    change moved memory _ _ _ (s.arr.data + j * s.arr.elemSize + k) = s.memory (s.arr.data + j * s.arr.elemSize + k)
    rw [moved_outside (by omega), add_assoc]
    exact same _ (by omega)
  rw [if_neg before]
  by_cases among : j < s.arr.len - 1
  · rw [if_pos among, if_pos (by omega)]
    congr 1
    apply slot_eq rfl
    intro k below
    change k < s.arr.elemSize at below
    change moved memory _ _ _ (s.arr.data + j * s.arr.elemSize + k) =
      s.memory (s.arr.data + (j + 1) * s.arr.elemSize + k)
    have here : j * s.arr.elemSize = index * s.arr.elemSize + (j - index) * s.arr.elemSize := by
      rw [← add_mul, Nat.add_sub_cancel' (not_lt.mp before)]
    have last := slot_inside (n := s.arr.len - index - 1) (i := j - index) (by omega) s.arr.elemSize
    have next := slot_inside (n := s.arr.len) (i := j + 1) (by omega) s.arr.elemSize
    have above : (j + 1) * s.arr.elemSize = j * s.arr.elemSize + s.arr.elemSize := Nat.succ_mul _ _
    rw [show s.arr.data + j * s.arr.elemSize + k =
        s.arr.data + index * s.arr.elemSize + ((j - index) * s.arr.elemSize + k) by omega, moved_inside (by omega),
      show s.arr.data + index * s.arr.elemSize + s.arr.elemSize + ((j - index) * s.arr.elemSize + k) =
        s.arr.data + ((j + 1) * s.arr.elemSize + k) by omega, add_assoc]
    exact same _ (by omega)
  · rw [if_neg among, if_neg (by omega)]

theorem swap_follows (shape : Shape held s.arr) (index : Nat) (given : OutGiven held s.arr outElement) :
    ∃ answer, arraySwapRemove s index outElement = some answer ∧
      Follows held s (swapRemoved (contents s.memory s.arr) index) answer := by
  unfold arraySwapRemove
  rw [valid_shape shape, if_neg (by decide)]
  split
  · exact ⟨_, rfl, kept_refl s⟩
  rename_i inside
  rw [not_le] at inside
  obtain ⟨memory, took, same⟩ := take_outside shape given inside
  have shorter := shape_shorter shape (Nat.sub_le s.arr.len 1)
  have last := slot_inside (i := s.arr.len - 1) (n := s.arr.len) (by omega) s.arr.elemSize
  have list : swapRemoved (contents s.memory s.arr) index =
      ((contents s.memory s.arr).set index (slot s.memory s.arr (s.arr.len - 1))).dropLast := by
    unfold swapRemoved
    rw [List.getLast?_eq_getElem?, contents_length, contents_get, if_pos (by omega)]
  -- The slot with number `j` after the call, for what the memory is then.
  have slots (after : Memory) (others : ∀ j < s.arr.len - 1, slot after s.arr j =
      if j = index then slot s.memory s.arr (s.arr.len - 1) else slot s.memory s.arr j) :
      contents after { s.arr with len := s.arr.len - 1 } = swapRemoved (contents s.memory s.arr) index := by
    rw [list]
    apply ext_getElem?
    intro j
    rw [contents_get, List.getElem?_dropLast, length_set, contents_length, List.getElem?_set, contents_length,
      contents_get]
    by_cases among : j < s.arr.len - 1
    · rw [if_pos among, if_pos among]
      have here := others j among
      by_cases this : j = index
      · rw [if_pos this] at here
        rw [if_pos this.symm, if_pos (by omega)]
        exact congrArg some here
      rw [if_neg this] at here
      rw [if_neg (Ne.symm this), if_pos (by omega)]
      exact congrArg some here
    · rw [if_neg among, if_neg among]
  have kept (j : Nat) (among : j < s.arr.len) : slot memory s.arr j = slot s.memory s.arr j := by
    have within := slot_inside among s.arr.elemSize
    apply slot_eq rfl
    intro k below
    rw [add_assoc]
    exact same _ (by omega)
  rw [took]
  dsimp only [Option.bind_eq_bind, Option.bind_some]
  split
  next isLast =>
    refine ⟨_, rfl, shorter, rfl, slots memory fun j among => ?_⟩
    rw [if_neg (by omega)]
    exact kept j (by omega)
  rename_i notLast
  have first := slot_inside inside s.arr.elemSize
  have before := slot_inside (i := index) (n := s.arr.len - 1) (by omega) s.arr.elemSize
  have apart : Apart (s.arr.data + index * s.arr.elemSize) s.arr.elemSize
      (s.arr.data + (s.arr.len - 1) * s.arr.elemSize) s.arr.elemSize := .inl (by omega)
  rw [show sysMemCopy _ _ _ _ = some _ from if_pos apart]
  refine ⟨_, rfl, shorter, rfl, slots _ fun j among => ?_⟩
  split
  next here =>
    subst here
    rw [← kept (s.arr.len - 1) (by omega)]
    exact slot_eq rfl fun k below => moved_inside below
  rename_i other
  rw [← kept j (by omega)]
  apply slot_eq rfl
  intro k below
  apply moved_outside
  rcases Nat.lt_or_gt_of_ne other with less | more
  · have within := slot_inside less s.arr.elemSize
    omega
  have within := slot_inside more s.arr.elemSize
  omega

theorem extend_follows (honest : Honest alloc held) (shape : Shape held s.arr) {elements count : Nat}
    (given : elements = 0 ∨ Given held s.arr elements (count * s.arr.elemSize)) :
    Follows held s (contents s.memory s.arr ++ values s.memory elements s.arr.elemSize count)
      (arrayExtend alloc s elements count) := by
  have positive := shape.element
  unfold arrayExtend
  rw [valid_shape shape]
  split
  · exact kept_refl s
  rename_i some_
  split
  next none_ =>
    refine ⟨shape, rfl, ?_⟩
    rw [none_]
    unfold values
    rw [range_zero, map_nil, append_nil]
  rename_i count_
  have given' := given.resolve_left fun none_ => some_ (.inr ⟨by omega, none_⟩)
  cases sized : ckdMul count s.arr.elemSize with
  | none => exact kept_refl s
  | some bytes =>
    obtain ⟨_, rfl⟩ := ckd_mul_some sized
    have bytes : 0 < count * s.arr.elemSize := Nat.mul_pos (by omega) positive
    rcases make_room honest shape count given' bytes (fun none_ => some_ (.inr ⟨by omega, none_⟩)) with
      ⟨err, s', refused, kept⟩ | ⟨elements', s', made, grown⟩
    · dsimp only
      rw [refused]
      exact kept
    dsimp only
    rw [made]
    have shape' := grown.shape
    have room := grown.room
    rw [← grown.len] at room
    refine ⟨⟨shape'.element, shape'.power, room, shape'.bytes, shape'.block⟩, grown.elemSize, ?_⟩
    dsimp only [sysMemMove]
    rw [← grown.elemSize, contents_append, grown_contents grown]
    congr 1
    unfold values
    apply map_congr_left
    intro i among
    have inside := slot_inside (mem_range.mp among) s.arr.elemSize
    rw [grown.elemSize]
    apply range_eq
    intro k within
    rw [add_assoc, add_assoc]
    exact grown.source _ (by omega)

theorem reserve_follows (honest : Honest alloc held) (shape : Shape held s.arr) (newCap : Nat) :
    Follows held s (contents s.memory s.arr) (arrayReserve alloc s newCap) := by
  have oldBytes : ckdMul s.arr.cap s.arr.elemSize = some (s.arr.cap * s.arr.elemSize) := if_pos shape.bytes
  unfold arrayReserve
  rw [valid_shape shape, if_neg (by decide), oldBytes]
  split
  · exact ⟨shape, rfl, rfl⟩
  rename_i more
  cases sized : ckdMul newCap s.arr.elemSize with
  | none => exact kept_refl s
  | some newBytes =>
    obtain ⟨fits, rfl⟩ := ckd_mul_some sized
    dsimp only
    cases resized : arrayResize alloc s (s.arr.cap * s.arr.elemSize) (newCap * s.arr.elemSize) newCap with
    | mk answer s' =>
      cases answer with
      | error err => exact resize_refused honest shape resized
      | ok done =>
        obtain ⟨fields, shape', own, _⟩ := resize_done honest shape (by omega) fits resized
        have len : s'.arr.len = s.arr.len := by rw [fields]
        have elemSize : s'.arr.elemSize = s.arr.elemSize := by rw [fields]
        exact ⟨shape', elemSize, contents_eq len elemSize own⟩

theorem truncate_follows (shape : Shape held s.arr) (newLen : Nat) :
    Follows held s ((contents s.memory s.arr).take newLen) (arrayTruncate s newLen) := by
  unfold arrayTruncate
  rw [valid_shape shape, if_neg (by decide)]
  split
  · exact kept_refl s
  rename_i fewer
  rw [not_lt] at fewer
  exact ⟨shape_shorter shape fewer, rfl, contents_take s.memory fewer fun _ _ => rfl⟩

inductive ArrayCall where
  | push (element : Nat)
  | pop (outElement : Nat)
  | insert (index element : Nat)
  | extend (elements count : Nat)
  | removeAt (index outElement : Nat)
  | swapRemove (index outElement : Nat)
  | reserve (newCap : Nat)
  | clear
  | truncate (newLen : Nat)
  | elsewhere (change : Memory)

def perform (alloc : Allocator World) (s : State World) : ArrayCall → Option (Except ProvenErr Unit × State World)
  | .push element => arrayPush alloc s element
  | .pop outElement => arrayPop s outElement
  | .insert index element => arrayInsert alloc s index element
  | .extend elements count => some (arrayExtend alloc s elements count)
  | .removeAt index outElement => arrayRemoveAt s index outElement
  | .swapRemove index outElement => arraySwapRemove s index outElement
  | .reserve newCap => some (arrayReserve alloc s newCap)
  | .clear => some (.ok (), arrayClear s)
  | .truncate newLen => some (arrayTruncate s newLen)
  | .elsewhere change =>
    some (.ok (), { s with memory := fun place =>
      if s.arr.data ≤ place ∧ place < s.arr.data + s.arr.cap * s.arr.elemSize then s.memory place else change place })

def listCall (memory : Memory) (elemSize : Nat) (call : ArrayCall) (list : List (List Byte)) : List (List Byte) :=
  match call with
  | .push element => list ++ [range memory element elemSize]
  | .pop _ => list.dropLast
  | .insert index element => list.insertIdx index (range memory element elemSize)
  | .extend elements count => list ++ values memory elements elemSize count
  | .removeAt index _ => list.eraseIdx index
  | .swapRemove index _ => swapRemoved list index
  | .reserve _ => list
  | .clear => []
  | .truncate newLen => list.take newLen
  | .elsewhere _ => list

def Allowed (held : Nat → Prop) (s : State World) : ArrayCall → Prop
  | .push element => element = 0 ∨ Given held s.arr element s.arr.elemSize
  | .insert _ element => element = 0 ∨ Given held s.arr element s.arr.elemSize
  | .extend elements count => elements = 0 ∨ Given held s.arr elements (count * s.arr.elemSize)
  | .pop outElement => OutGiven held s.arr outElement
  | .removeAt _ outElement => OutGiven held s.arr outElement
  | .swapRemove _ outElement => OutGiven held s.arr outElement
  | _ => True

def AllAllowed (alloc : Allocator World) (held : Nat → Prop) : State World → List ArrayCall → Prop
  | _, [] => True
  | s, call :: calls =>
    Allowed held s call ∧ ∀ answer s', perform alloc s call = some (answer, s') → AllAllowed alloc held s' calls

def runBoth (alloc : Allocator World) : State World → List (List Byte) → List ArrayCall →
    Option (State World × List (List Byte))
  | s, list, [] => some (s, list)
  | s, list, call :: calls =>
    match perform alloc s call with
    | none => none
    | some (.error _, s') => runBoth alloc s' list calls
    | some (.ok (), s') => runBoth alloc s' (listCall s.memory s.arr.elemSize call list) calls

include honest

theorem call_follows (shape : Shape held s.arr) {call : ArrayCall} (allowed : Allowed held s call) :
    ∃ answer, perform alloc s call = some answer ∧
      Follows held s (listCall s.memory s.arr.elemSize call (contents s.memory s.arr)) answer := by
  cases call with
  | push element => exact push_follows honest shape allowed
  | pop outElement => exact pop_follows shape allowed
  | insert index element => exact insert_follows honest shape index allowed
  | extend elements count => exact ⟨_, rfl, extend_follows honest shape allowed⟩
  | removeAt index outElement => exact remove_follows shape index allowed
  | swapRemove index outElement => exact swap_follows shape index allowed
  | reserve newCap => exact ⟨_, rfl, reserve_follows honest shape newCap⟩
  | clear =>
    have cleared : arrayClear s = { s with arr := { s.arr with len := 0 } } := if_pos (valid_shape shape)
    refine ⟨_, rfl, ?_⟩
    rw [cleared]
    exact ⟨shape_shorter shape (Nat.zero_le _), rfl, rfl⟩
  | truncate newLen => exact ⟨_, rfl, truncate_follows shape newLen⟩
  | elsewhere change =>
    refine ⟨_, rfl, shape, rfl, contents_eq rfl rfl fun k within => ?_⟩
    have room := Nat.mul_le_mul_right s.arr.elemSize shape.within
    have here : s.arr.data ≤ s.arr.data + k ∧ s.arr.data + k < s.arr.data + s.arr.cap * s.arr.elemSize := by omega
    exact if_pos here

theorem run_follows (calls : List ArrayCall) (shape : Shape held s.arr) (allowed : AllAllowed alloc held s calls) :
    ∃ s', ∃ list, runBoth alloc s (contents s.memory s.arr) calls = some (s', list) ∧ Shape held s'.arr ∧
      contents s'.memory s'.arr = list := by
  induction calls generalizing s with
  | nil => exact ⟨s, _, rfl, shape, rfl⟩
  | cons call calls ih =>
    obtain ⟨⟨answer, s'⟩, done, follows⟩ := call_follows honest shape allowed.1
    have later := allowed.2 answer s' done
    unfold runBoth
    rw [done]
    cases answer with
    | error err =>
      have kept : Kept s s' := follows
      have shape' : Shape held s'.arr := by
        rw [kept.arr]
        exact shape
      rw [← kept.contents]
      exact ih shape' later
    | ok done_ =>
      obtain ⟨shape', _, expected⟩ := follows
      rw [← expected]
      exact ih shape' later

theorem create_shape {world world' : World} {initCap elemSize align : Nat}
    (created : arrayCreate alloc world memory initCap elemSize align = (.ok arr, world', memory')) :
    Shape held arr ∧ arr.len = 0 := by
  unfold arrayCreate at created
  split at created
  · cases (Prod.mk.inj created).1
  rename_i arguments
  rw [not_or, Bool.not_eq_false] at arguments
  split at created
  · split at created
    · cases (Prod.mk.inj created).1
    rename_i bytes sized
    obtain ⟨fits, rfl⟩ := ckd_mul_some sized
    split at created
    · cases (Prod.mk.inj created).1
    rename_i answer
    obtain rfl := Except.ok.inj (Prod.mk.inj created).1
    exact ⟨⟨Nat.pos_of_ne_zero arguments.1, arguments.2, Nat.zero_le _, fits,
      fun _ => honest.allocated _ _ _ _ _ _ _ answer⟩, rfl⟩
  rename_i none_
  obtain rfl := Except.ok.inj (Prod.mk.inj created).1
  obtain rfl : initCap = 0 := by omega
  refine ⟨⟨Nat.pos_of_ne_zero arguments.1, arguments.2, le_refl _, ?_, fun no => absurd no (by omega)⟩, rfl⟩
  rw [zero_mul]
  decide

omit honest

def behindLast : Allocator Nat :=
  { allocFn := fun taken memory size _ =>
      if 4096 + taken + size < sizeLimit then (.ok (4096 + taken), taken + size, memory) else (.error .noMem, taken, memory)
    reallocFn := fun taken memory old oldSize newSize _ =>
      if 4096 + taken + newSize < sizeLimit then
        (.ok (4096 + taken), taken + newSize, moved memory (4096 + taken) old (min oldSize newSize))
      else (.error .noMem, taken, memory) }

theorem behind_last_honest : Honest behindLast (· < 4096) := by
  constructor
  · intro taken memory size align ptr taken' memory' answer
    unfold behindLast at answer
    dsimp only at answer
    split at answer
    · obtain rfl := Except.ok.inj (Prod.mk.inj answer).1
      exact ⟨by omega, by assumption, fun i _ => by omega⟩
    · cases (Prod.mk.inj answer).1
  · intro taken memory old oldSize newSize align ptr taken' memory' answer
    unfold behindLast at answer
    dsimp only at answer
    split at answer
    · obtain ⟨same, rest⟩ := Prod.mk.inj answer
      obtain rfl := Except.ok.inj same
      obtain rfl := (Prod.mk.inj rest).2
      exact ⟨⟨by omega, by assumption, fun i _ => by omega⟩, fun i inside => moved_inside inside,
        fun place below => moved_outside (.inl (by omega))⟩
    · cases (Prod.mk.inj answer).1
  intro taken memory old oldSize newSize align err taken' memory' answer
  unfold behindLast at answer
  dsimp only at answer
  split at answer
  · cases (Prod.mk.inj answer).1
  obtain rfl := (Prod.mk.inj (Prod.mk.inj answer).2).2
  exact ⟨fun _ _ => rfl, fun _ _ => rfl⟩

end ProvenC.Memory.Contents

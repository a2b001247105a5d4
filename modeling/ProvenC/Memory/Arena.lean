import ProvenC.Map.Table
import ProvenC.Lib.Cells

/-!
# The arena

`proven_arena`: blocks are taken from the front of one buffer. The block taken last may grow or shrink
where it is; another one that grows is copied to the front.
-/

namespace ProvenC.Memory.Arena

open Bytes Lib.Cells Map.Table

def ckdAdd (a b : Nat) : Option Nat := if a + b < sizeLimit then some (a + b) else none

def ckdSub (a b : Nat) : Option Nat := if b ≤ a then some (a - b) else none

def wrapAdd (a b : Nat) : Nat := (a + b) % sizeLimit

def wrapSub (a b : Nat) : Nat := (a + sizeLimit - b) % sizeLimit

/-- `proven_uintptr_align_up`, the same as `proven_mem_align_up`. -/
def uintptrAlignUp (addr align : Nat) : Nat := memAlignUp addr align

structure Backing where
  ptr : Nat
  size : Nat
  fits : ptr + size ≤ sizeLimit

structure Arena where
  backing : Backing
  offset : Nat

/-- `proven_mem_mut_t`; the address 0 is the null pointer. -/
structure Block where
  ptr : Nat
  size : Nat
  deriving DecidableEq, Repr

abbrev Memory := Nat → Byte

def defaultAlignment : Nat := 8

def arenaCreate (backing : Backing) : Arena := { backing := backing, offset := 0 }

def arenaReset (arena : Arena) : Arena := { arena with offset := 0 }

/-- The end of `proven_arena_alloc_aligned`: the request fits or it does not. -/
def arenaCommit (arena : Arena) (required size : Nat) : Except ProvenErr Block × Arena :=
  if arena.backing.size < required then (.error .noMem, arena)
  else
    (.ok { ptr := wrapSub (wrapAdd arena.backing.ptr required) size, size := size }, { arena with offset := required })

def arenaAllocAligned (arena : Arena) (size align : Nat) : Except ProvenErr Block × Arena :=
  if arena.backing.ptr = 0 then (.error .invalidArg, arena)
  else if isPow2 align = false then (.error .invalidArg, arena)
  else if size = 0 then (.error .invalidArg, arena)
  else if arena.backing.size < arena.offset then (.error .invalidArg, arena)
  else
    match ckdAdd arena.backing.ptr arena.offset with
    | none => (.error .overflow, arena)
    | some currentAddr =>
      let alignedAddr := uintptrAlignUp currentAddr align
      if alignedAddr < arena.backing.ptr then (.error .overflow, arena)
      else
        match (ckdAdd arena.offset (wrapSub alignedAddr currentAddr)).bind (ckdAdd · size) with
        | none => (.error .overflow, arena)
        | some required => arenaCommit arena required size

def arenaAlloc (arena : Arena) (size : Nat) : Except ProvenErr Block × Arena :=
  arenaAllocAligned arena size defaultAlignment

def arenaResizeTail (arena : Arena) (oldOffset oldSize newSize : Nat) : Except ProvenErr Block × Arena :=
  let newOffset : Except ProvenErr Nat :=
    if oldSize ≤ newSize then
      match ckdAdd arena.offset (newSize - oldSize) with
      | none => .error .overflow
      | some newOffset => .ok newOffset
    else if arena.offset < oldSize - newSize then .error .noMem
    else .ok (arena.offset - (oldSize - newSize))
  match newOffset with
  | .error err => (.error err, arena)
  | .ok newOffset =>
    if arena.backing.size < newOffset then (.error .noMem, arena)
    else
      (.ok { ptr := wrapAdd arena.backing.ptr oldOffset, size := newSize }, { arena with offset := newOffset })

def arenaMove (arena : Arena) (memory : Memory) (oldOffset oldSize newSize align : Nat) :
    Except ProvenErr Block × Arena × Memory :=
  match arenaAllocAligned arena newSize align with
  | (.error err, arena) => (.error err, arena, memory)
  | (.ok block, arena) =>
    let copyAmount := if oldSize < newSize then oldSize else newSize
    (.ok block, arena, copiedUp memory block.ptr (wrapAdd arena.backing.ptr oldOffset) copyAmount)

def arenaReallocAligned (arena : Arena) (memory : Memory) (oldPtr oldSize newSize align : Nat) :
    Except ProvenErr Block × Arena × Memory :=
  if arena.backing.ptr = 0 then (.error .invalidArg, arena, memory)
  else if isPow2 align = false then (.error .invalidArg, arena, memory)
  else if newSize = 0 then (.ok { ptr := 0, size := 0 }, arena, memory)
  else if oldPtr = 0 then
    let taken := arenaAllocAligned arena newSize align
    (taken.1, taken.2, memory)
  else
    match ckdSub oldPtr arena.backing.ptr with
    | none => (.error .invalidArg, arena, memory)
    | some oldOffset =>
      if arena.offset < oldOffset then (.error .invalidArg, arena, memory)
      else
        match ckdAdd oldOffset oldSize with
        | none => (.error .invalidArg, arena, memory)
        | some oldOffsetEnd =>
          if arena.offset < oldOffsetEnd then (.error .invalidArg, arena, memory)
          else if oldOffsetEnd = arena.offset then
            let resized := arenaResizeTail arena oldOffset oldSize newSize
            (resized.1, resized.2, memory)
          else if newSize ≤ oldSize then
            (.ok { ptr := wrapAdd arena.backing.ptr oldOffset, size := newSize }, arena, memory)
          else arenaMove arena memory oldOffset oldSize newSize align

theorem pow2_power {align : Nat} (power : isPow2 align = true) : ∃ k, align = 2 ^ k := by
  unfold isPow2 at power
  rw [Bool.and_eq_true, bne_iff_ne, beq_iff_eq] at power
  exact Nat.ne_zero_and_sub_one_eq_zero_iff_isPowerOfTwo.mp power

theorem and_mask {value bits width : Nat} (fits : value < 2 ^ width) (within : bits ≤ width) :
    value &&& (2 ^ width - 1 - (2 ^ bits - 1)) = value / 2 ^ bits * 2 ^ bits := by
  have mask : 2 ^ width - 1 - (2 ^ bits - 1) = (2 ^ (width - bits) - 1) * 2 ^ bits := by
    have split : 2 ^ width = 2 ^ (width - bits) * 2 ^ bits := by
      rw [← Nat.pow_add, Nat.sub_add_cancel within]
    have low := Nat.two_pow_pos bits
    have high := Nat.two_pow_pos (width - bits)
    rw [Nat.sub_mul, ← split]
    omega
  rw [mask]
  apply Nat.eq_of_testBit_eq
  intro i
  rw [Nat.testBit_and, Nat.testBit_mul_two_pow, Nat.testBit_mul_two_pow, Nat.testBit_two_pow_sub_one,
    Nat.testBit_div_two_pow]
  by_cases low : bits ≤ i
  · rw [Nat.sub_add_cancel low]
    by_cases high : i - bits < width - bits
    · simp [low, high]
    have clear : value.testBit i = false :=
      Nat.testBit_lt_two_pow (lt_of_lt_of_le fits (Nat.pow_le_pow_right (by omega) (by omega)))
    simp [clear]
  · simp [low]

theorem align_up_spec {addr align : Nat} (power : isPow2 align = true) (result : uintptrAlignUp addr align ≠ 0) :
    addr ≤ uintptrAlignUp addr align ∧ uintptrAlignUp addr align < sizeLimit ∧ align ∣ uintptrAlignUp addr align := by
  obtain ⟨bits, rfl⟩ := pow2_power power
  have positive := Nat.two_pow_pos bits
  unfold uintptrAlignUp memAlignUp at result ⊢
  rw [if_neg (by rw [power]; decide)] at result ⊢
  by_cases reaches : sizeLimit ≤ addr + (2 ^ bits - 1)
  · rw [if_pos reaches] at result
    exact absurd rfl result
  rw [if_neg reaches] at result ⊢
  have within : bits ≤ 64 := by
    by_contra far
    have wide : sizeLimit < 2 ^ bits := Nat.pow_lt_pow_right (by omega) (not_le.mp far)
    omega
  have masked : addr + (2 ^ bits - 1) &&& sizeLimit - 1 - (2 ^ bits - 1) =
      (addr + (2 ^ bits - 1)) / 2 ^ bits * 2 ^ bits := and_mask (not_le.mp reaches) within
  rw [masked]
  have division := Nat.div_add_mod (addr + (2 ^ bits - 1)) (2 ^ bits)
  have small := Nat.mod_lt (addr + (2 ^ bits - 1)) positive
  rw [mul_comm] at division
  exact ⟨by omega, by omega, Nat.dvd_mul_left _ _⟩

structure Taken (arena : Arena) (size align : Nat) (block : Block) (after : Arena) : Prop where
  backing : after.backing = arena.backing
  power : isPow2 align = true
  positive : 0 < size
  whole : block.size = size
  behind : arena.backing.ptr + arena.offset ≤ block.ptr
  ends : block.ptr + size = arena.backing.ptr + after.offset
  inside : after.offset ≤ arena.backing.size
  aligned : align ∣ block.ptr

theorem ckd_add_some {a b sum : Nat} (added : ckdAdd a b = some sum) : a + b < sizeLimit ∧ sum = a + b := by
  unfold ckdAdd at added
  split at added
  next fits =>
    exact ⟨fits, (Option.some.inj added).symm⟩
  · cases added

theorem wrap_add_exact {a b : Nat} (fits : a + b < sizeLimit) : wrapAdd a b = a + b := Nat.mod_eq_of_lt fits

theorem wrap_sub_exact {a b : Nat} (fits : a < sizeLimit) (less : b ≤ a) : wrapSub a b = a - b := by
  unfold wrapSub
  rw [show a + sizeLimit - b = a - b + sizeLimit by omega, Nat.add_mod_right]
  exact Nat.mod_eq_of_lt (by omega)

variable {arena : Arena} {memory : Memory} {size align : Nat}

theorem commit_cases {required : Nat} (positive : 0 < size) (fits : size ≤ required) (power : isPow2 align = true)
    (behind : arena.offset ≤ required - size) (aligned : align ∣ arena.backing.ptr + (required - size)) :
    (∃ err, arenaCommit arena required size = (.error err, arena)) ∨
      ∃ block after, arenaCommit arena required size = (.ok block, after) ∧ Taken arena size align block after := by
  have room := arena.backing.fits
  unfold arenaCommit
  split
  · exact .inl ⟨_, rfl⟩
  rename_i inside
  right
  refine ⟨_, _, rfl, ?_⟩
  -- The end of the block may be the end of the address space: the sum wraps to 0, and back.
  have start : wrapSub (wrapAdd arena.backing.ptr required) size = arena.backing.ptr + (required - size) := by
    by_cases last : arena.backing.ptr + required = sizeLimit
    · unfold wrapAdd wrapSub
      rw [last, Nat.mod_self, zero_add, Nat.mod_eq_of_lt (by omega)]
      omega
    rw [wrap_add_exact (by omega), wrap_sub_exact (by omega) (by omega)]
    omega
  rw [start]
  constructor
  · rfl
  · exact power
  · exact positive
  · rfl
  · exact Nat.add_le_add_left behind _
  · change arena.backing.ptr + (required - size) + size = arena.backing.ptr + required
    omega
  · exact not_lt.mp inside
  · exact aligned

theorem alloc_cases (arena : Arena) (size align : Nat) :
    (∃ err, arenaAllocAligned arena size align = (.error err, arena)) ∨
      ∃ block after, arenaAllocAligned arena size align = (.ok block, after) ∧ Taken arena size align block after := by
  unfold arenaAllocAligned
  split
  · exact .inl ⟨_, rfl⟩
  rename_i some_
  split
  · exact .inl ⟨_, rfl⟩
  rename_i power
  split
  · exact .inl ⟨_, rfl⟩
  rename_i size_
  split
  · exact .inl ⟨_, rfl⟩
  · cases current : ckdAdd arena.backing.ptr arena.offset with
    | none => exact .inl ⟨_, rfl⟩
    | some currentAddr =>
      dsimp only
      split
      · exact .inl ⟨_, rfl⟩
      rename_i above
      obtain ⟨currentFits, rfl⟩ := ckd_add_some current
      rw [Bool.not_eq_false] at power
      obtain ⟨up, fits, divides⟩ := align_up_spec power (by omega :
        uintptrAlignUp (arena.backing.ptr + arena.offset) align ≠ 0)
      rw [wrap_sub_exact fits up]
      cases padded : ckdAdd arena.offset
          (uintptrAlignUp (arena.backing.ptr + arena.offset) align - (arena.backing.ptr + arena.offset)) with
      | none => exact .inl ⟨_, rfl⟩
      | some padding =>
        rw [Option.bind_some]
        obtain ⟨_, rfl⟩ := ckd_add_some padded
        cases added : ckdAdd (arena.offset +
            (uintptrAlignUp (arena.backing.ptr + arena.offset) align - (arena.backing.ptr + arena.offset)))
            size with
        | none => exact .inl ⟨_, rfl⟩
        | some required =>
          obtain ⟨_, rfl⟩ := ckd_add_some added
          apply commit_cases (Nat.pos_of_ne_zero size_) (by omega) power (by omega)
          rw [Nat.add_sub_cancel, ← add_assoc, Nat.add_sub_cancel' up]
          exact divides

structure Live where
  start : Nat
  size : Nat
  align : Nat
  deriving DecidableEq, Repr

structure Within (arena : Arena) (block : Live) : Prop where
  low : arena.backing.ptr ≤ block.start
  high : block.start + block.size ≤ arena.backing.ptr + arena.offset
  positive : 0 < block.size
  power : isPow2 block.align = true
  aligned : block.align ∣ block.start

structure Resized (arena : Arena) (block : Live) (newSize : Nat) (after : Arena) : Prop where
  backing : after.backing = arena.backing
  inside : after.offset ≤ arena.backing.size
  front : (block.start + block.size = arena.backing.ptr + arena.offset ∧
      block.start + newSize = arena.backing.ptr + after.offset) ∨ (newSize ≤ block.size ∧ after = arena)

theorem resize_cases {block : Live} {newSize : Nat} (within : Within arena block) (some_ : 0 < newSize)
    (inside : arena.offset ≤ arena.backing.size) (tail : block.start - arena.backing.ptr + block.size = arena.offset) :
    (∃ err, arenaResizeTail arena (block.start - arena.backing.ptr) block.size newSize = (.error err, arena)) ∨
      ∃ after, arenaResizeTail arena (block.start - arena.backing.ptr) block.size newSize =
        (.ok { ptr := block.start, size := newSize }, after) ∧ Resized arena block newSize after := by
  have low := within.low
  have room := arena.backing.fits
  have positive := within.positive
  have start : wrapAdd arena.backing.ptr (block.start - arena.backing.ptr) = block.start := by
    rw [wrap_add_exact (by omega)]
    omega
  have fitted (newOffset : Nat) (moves : newOffset = block.start - arena.backing.ptr + newSize) :
      (∃ err, (if arena.backing.size < newOffset then ((.error .noMem, arena) : Except ProvenErr Block × Arena)
          else (.ok { ptr := wrapAdd arena.backing.ptr (block.start - arena.backing.ptr), size := newSize },
            { arena with offset := newOffset })) = (.error err, arena)) ∨
        ∃ after, (if arena.backing.size < newOffset then ((.error .noMem, arena) : Except ProvenErr Block × Arena)
          else (.ok { ptr := wrapAdd arena.backing.ptr (block.start - arena.backing.ptr), size := newSize },
            { arena with offset := newOffset })) = (.ok { ptr := block.start, size := newSize }, after) ∧
          Resized arena block newSize after := by
    split
    · exact .inl ⟨_, rfl⟩
    rename_i fits
    right
    refine ⟨{ arena with offset := newOffset }, by rw [start], rfl, not_lt.mp fits, .inl ⟨by omega, ?_⟩⟩
    change block.start + newSize = arena.backing.ptr + newOffset
    omega
  unfold arenaResizeTail
  dsimp only
  split
  next newOffset err =>
    exact .inl ⟨_, rfl⟩
  rename_i newOffset moves
  apply fitted
  by_cases grows : block.size ≤ newSize
  · rw [if_pos grows] at moves
    cases added : ckdAdd arena.offset (newSize - block.size) with
    | none =>
      rw [added] at moves
      cases moves
    | some sum =>
      rw [added] at moves
      obtain ⟨_, rfl⟩ := ckd_add_some added
      obtain rfl := Except.ok.inj moves
      omega
  rw [if_neg grows, if_neg (by omega)] at moves
  obtain rfl := Except.ok.inj moves
  omega

theorem realloc_cases {block : Live} (within : Within arena block) (inside : arena.offset ≤ arena.backing.size)
    (memory : Memory) (newSize : Nat) :
    (∃ err, arenaReallocAligned arena memory block.start block.size newSize block.align = (.error err, arena, memory)) ∨
      (newSize = 0 ∧ arenaReallocAligned arena memory block.start block.size newSize block.align =
        (.ok { ptr := 0, size := 0 }, arena, memory)) ∨
      (0 < newSize ∧ ∃ after, arenaReallocAligned arena memory block.start block.size newSize block.align =
        (.ok { ptr := block.start, size := newSize }, after, memory) ∧ Resized arena block newSize after) ∨
      (block.size < newSize ∧ ∃ fresh after, arenaReallocAligned arena memory block.start block.size newSize block.align =
          (.ok fresh, after, moved memory fresh.ptr block.start block.size) ∧
        Taken arena newSize block.align fresh after) := by
  have low := within.low
  have high := within.high
  have positive := within.positive
  have room := arena.backing.fits
  have start : wrapAdd arena.backing.ptr (block.start - arena.backing.ptr) = block.start := by
    rw [wrap_add_exact (by omega)]
    omega
  unfold arenaReallocAligned
  split
  · exact .inl ⟨_, rfl⟩
  rename_i base
  rw [if_neg (by rw [within.power]; decide)]
  split
  next none_ =>
    exact .inr (.inl ⟨none_, rfl⟩)
  rename_i some_
  rw [if_neg (by omega)]
  have offset : ckdSub block.start arena.backing.ptr = some (block.start - arena.backing.ptr) := if_pos low
  have ends : ckdAdd (block.start - arena.backing.ptr) block.size =
      some (block.start - arena.backing.ptr + block.size) := if_pos (by omega)
  rw [offset]
  dsimp only
  rw [if_neg (by omega), ends]
  dsimp only
  rw [if_neg (by omega)]
  split
  next tail =>
    rcases resize_cases within (Nat.pos_of_ne_zero some_) inside tail with ⟨err, failed⟩ | ⟨after, done, resized⟩
    · rw [failed]
      exact .inl ⟨err, rfl⟩
    rw [done]
    exact .inr (.inr (.inl ⟨Nat.pos_of_ne_zero some_, after, rfl, resized⟩))
  split
  next less =>
    rw [start]
    exact .inr (.inr (.inl ⟨Nat.pos_of_ne_zero some_, arena, rfl, rfl, inside, .inr ⟨less, rfl⟩⟩))
  rename_i more
  rw [not_le] at more
  unfold arenaMove
  rcases alloc_cases arena newSize block.align with ⟨err, failed⟩ | ⟨fresh, after, done, taken⟩
  · rw [failed]
    exact .inl ⟨err, rfl⟩
  rw [done]
  right
  right
  right
  refine ⟨more, fresh, after, ?_, taken⟩
  have behind := taken.behind
  dsimp only
  rw [if_pos more, taken.backing, start, copied_up_moved (.inr (by omega))]

end ProvenC.Memory.Arena

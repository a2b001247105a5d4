import ProvenC.Bytes

/-!
# Sorting an array in place

The introsort of `proven_array_sort`: a three-way partition that parks entries equal to the pivot at the
two ends, heapsort when the depth budget is spent, insertion sort on short ranges.
-/

namespace ProvenC.Sort.Algorithm

open Bytes

structure Work (α Mind : Type) where
  items : Array α
  mind : Mind

abbrev Sorting (α Mind : Type) := StateT (Work α Mind) Option

/-- `proven_compare_fn_t`: negative, zero or positive. -/
abbrev CompareFn (α Mind : Type) := α → α → Mind → Int × Mind

variable {α Mind : Type} (cmp : CompareFn α Mind)

def elemAt (i : Nat) : Sorting α Mind α := fun w => w.items[i]?.map fun x => (x, w)

def memCopy (i : Nat) (x : α) : Sorting α Mind Unit := fun w =>
  if i < w.items.size then some ((), { w with items := w.items.setIfInBounds i x }) else none

def ask (x y : α) : Sorting α Mind Int := fun w =>
  some ((cmp x y w.mind).1, { w with mind := (cmp x y w.mind).2 })

def compareAt (i j : Nat) : Sorting α Mind Int := do
  let x ← elemAt i
  let y ← elemAt j
  ask cmp x y

def swapElements (i j : Nat) : Sorting α Mind Unit :=
  if i = j then pure ()
  else do
    let x ← elemAt i
    let y ← elemAt j
    memCopy i y
    memCopy j x

def sortInsertionCutoff : Nat := 12

def sortScratch : Nat := 128

def sortScratchAlign : Nat := 64

/-- The inner loop of the shifting path, from `j` down: the place `tmp` belongs at. -/
def shiftDown (base : Nat) (tmp : α) : Nat → Sorting α Mind Nat
  | 0 => pure 0
  | j + 1 => do
      let prev ← elemAt (base + j)
      let r ← ask cmp prev tmp
      if r > 0 then do
        memCopy (base + (j + 1)) prev
        shiftDown base tmp j
      else pure (j + 1)

def insertShifting (base i : Nat) : Sorting α Mind Unit := do
  let r ← compareAt cmp (base + i) (base + (i - 1))
  if r ≥ 0 then pure ()
  else do
    let tmp ← elemAt (base + i)
    let j ← shiftDown cmp base tmp i
    memCopy (base + j) tmp

/-- The body of the outer loop of the swapping path, from `j` down. -/
def insertSwapping (base : Nat) : Nat → Sorting α Mind Unit
  | 0 => pure ()
  | j + 1 => do
      let r ← compareAt cmp (base + (j + 1)) (base + j)
      if r ≥ 0 then pure ()
      else do
        swapElements (base + (j + 1)) (base + j)
        insertSwapping base j

/-- The outer loop: `left` rounds, from `i` up. -/
def insertEach (insert : Nat → Sorting α Mind Unit) : Nat → Nat → Sorting α Mind Unit
  | 0, _ => pure ()
  | left + 1, i => do
      insert i
      insertEach insert left (i + 1)

def insertionSort (size align base n : Nat) : Sorting α Mind Unit :=
  if n < 2 then pure ()
  else if size ≤ sortScratch ∧ align ≤ sortScratchAlign then insertEach (insertShifting cmp base) (n - 1) 1
  else insertEach (insertSwapping cmp base) (n - 1) 1

def rightAbove (base root n : Nat) : Sorting α Mind Bool :=
  if 2 * root + 2 < n then do
    let r ← compareAt cmp (base + (2 * root + 1)) (base + (2 * root + 2))
    pure (decide (r < 0))
  else pure false

def childOf (root : Nat) (right : Bool) : Nat := if right then 2 * root + 2 else 2 * root + 1

theorem child_of_later (root : Nat) (right : Bool) : root < childOf root right := by
  unfold childOf
  split <;> omega

def siftDown (base root n : Nat) : Sorting α Mind Unit :=
  if 2 * root + 1 ≥ n then pure ()
  else do
    let right ← rightAbove cmp base root n
    let r ← compareAt cmp (base + root) (base + childOf root right)
    if r ≥ 0 then pure ()
    else do
      swapElements (base + root) (base + childOf root right)
      siftDown base (childOf root right) n
termination_by n - root
decreasing_by
  have later := child_of_later root right
  omega

/-- The first loop of `heapsort_range`, from `i` down. -/
def heapify (base n : Nat) : Nat → Sorting α Mind Unit
  | 0 => pure ()
  | i + 1 => do
      siftDown cmp base i n
      heapify base n i

/-- The second loop, from `end` down. -/
def extract (base : Nat) : Nat → Sorting α Mind Unit
  | 0 => pure ()
  | last + 1 => do
      swapElements base (base + (last + 1))
      siftDown cmp base 0 (last + 1)
      extract base last

def heapsortRange (base n : Nat) : Sorting α Mind Unit :=
  if n < 2 then pure ()
  else do
    heapify cmp base n (n / 2)
    extract cmp base (n - 1)

def median3 (base a b c : Nat) : Sorting α Mind Nat := do
  let ab ← compareAt cmp (base + a) (base + b)
  let bc ← compareAt cmp (base + b) (base + c)
  let ac ← compareAt cmp (base + a) (base + c)
  if ab < 0 then
    if bc < 0 then pure b else pure (if ac < 0 then c else a)
  else if bc > 0 then pure b else pure (if ac < 0 then a else c)

/-- `[ == | < | unexamined | > | == ]`, with `pa`, `pb` at the starts of the second and the third
part and `pc`, `pd` at the ends of the third and the fourth. -/
structure Cursor where
  pa : Nat
  pb : Nat
  pc : Nat
  pd : Nat
  behind : 1 ≤ pb

mutual

def scanUp (base : Nat) (cursor : Cursor) : Sorting α Mind Cursor :=
  if cursor.pb ≤ cursor.pc then do
    let r ← compareAt cmp (base + cursor.pb) base
    if r ≤ 0 then
      if r = 0 then do
        swapElements (base + cursor.pa) (base + cursor.pb)
        scanUp base { cursor with pa := cursor.pa + 1, pb := cursor.pb + 1, behind := Nat.le_add_left 1 _ }
      else scanUp base { cursor with pb := cursor.pb + 1, behind := Nat.le_add_left 1 _ }
    else scanDown base cursor
  else scanDown base cursor
termination_by 2 * (cursor.pc + 1 - cursor.pb) + 1

def scanDown (base : Nat) (cursor : Cursor) : Sorting α Mind Cursor :=
  if cursor.pb ≤ cursor.pc then do
    let r ← compareAt cmp (base + cursor.pc) base
    if r ≥ 0 then
      if r = 0 then do
        swapElements (base + cursor.pc) (base + cursor.pd)
        scanDown base { cursor with pc := cursor.pc - 1, pd := cursor.pd - 1 }
      else scanDown base { cursor with pc := cursor.pc - 1 }
    else do
      swapElements (base + cursor.pb) (base + cursor.pc)
      scanUp base { cursor with pb := cursor.pb + 1, pc := cursor.pc - 1, behind := Nat.le_add_left 1 _ }
  else pure cursor
termination_by 2 * (cursor.pc + 1 - cursor.pb)
decreasing_by all_goals have := cursor.behind; simp_wf; omega

end

/-- Swap `count` elements of the runs at `a` and at `b`. -/
def vecSwap (a b : Nat) : Nat → Sorting α Mind Unit
  | 0 => pure ()
  | count + 1 => do
      swapElements a b
      vecSwap (a + 1) (b + 1) count

/-- One pass of the loop of `introsort` up to its recursive calls: how many elements are left of
the pivot's equals, and how many right of them. -/
def partition (base n : Nat) : Sorting α Mind (Nat × Nat) := do
  let m ← median3 cmp base 0 (n / 2) (n - 1)
  swapElements base (base + m)
  let cursor ← scanUp cmp base { pa := 1, pb := 1, pc := n - 1, pd := n - 1, behind := le_refl 1 }
  let leftEqual := cursor.pa
  let leftLess := cursor.pb - cursor.pa
  let rightMore := cursor.pd - cursor.pc
  let rightEqual := n - 1 - cursor.pd
  let s := if leftEqual < leftLess then leftEqual else leftLess
  vecSwap base (base + (cursor.pb - s)) s
  let s := if rightEqual < rightMore then rightEqual else rightMore
  vecSwap (base + cursor.pb) (base + (n - s)) s
  pure (leftLess, rightMore)

/-- The loop goes on with the longer side, one level deeper as the recursive call for the
shorter one is. -/
def introsort (size align : Nat) : Nat → Nat → Nat → Sorting α Mind Unit
  | 0, base, n => if n > sortInsertionCutoff then heapsortRange cmp base n else insertionSort cmp size align base n
  | depthBudget + 1, base, n =>
    if n > sortInsertionCutoff then do
      let (leftN, rightN) ← partition cmp base n
      if leftN < rightN then do
        introsort size align depthBudget base leftN
        introsort size align depthBudget (base + (n - rightN)) rightN
      else do
        introsort size align depthBudget (base + (n - rightN)) rightN
        introsort size align depthBudget base leftN
    else insertionSort cmp size align base n

/-- How often `n` is halved until it is at most one. -/
def levels (n : Nat) : Nat := if n > 1 then levels (n / 2) + 1 else 0

def depthLimit (n : Nat) : Nat := 2 * levels n + 1

/-- `proven_array_t`, what the sort reads of it: `len` elements of `elemSize` bytes each. -/
structure ProvenArray (elemSize : Nat) where
  items : Array (Vector Byte elemSize)
  align : Nat

def provenArraySort {elemSize : Nat} (cmp : CompareFn (Vector Byte elemSize) Mind) (arr : ProvenArray elemSize)
    (mind : Mind) : Option (ProvenArray elemSize × Mind) :=
  if arr.items.size < 2 ∨ elemSize = 0 then some (arr, mind)
  else
    let align := if arr.align = 0 then 1 else arr.align
    (introsort cmp elemSize align (depthLimit arr.items.size) 0 arr.items.size ⟨arr.items, mind⟩).map fun outcome =>
      ({ arr with items := outcome.2.items }, outcome.2.mind)

end ProvenC.Sort.Algorithm

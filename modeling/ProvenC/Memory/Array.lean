import ProvenC.Memory.Arena

/-!
# The array

`proven_array`: elements of one size in a block that an allocator resizes. Elements are named by their
addresses, so a call may be given one of the array's own.
-/

namespace ProvenC.Memory.Array

open Bytes Lib.Cells Map.Table Memory.Arena

/-- `proven_allocator_t`: what it answers, what it becomes, and the memory after it. -/
structure Allocator (World : Type) where
  allocFn : World → Memory → Nat → Nat → Except ProvenErr Nat × World × Memory
  reallocFn : World → Memory → Nat → Nat → Nat → Nat → Except ProvenErr Nat × World × Memory

/-- `proven_array_t`, but for its allocator. -/
structure ProvenArray where
  data : Nat
  len : Nat
  cap : Nat
  elemSize : Nat
  align : Nat
  deriving DecidableEq, Repr

structure State (World : Type) where
  arr : ProvenArray
  memory : Memory
  world : World

variable {World : Type}

def ckdMul (a b : Nat) : Option Nat := if a * b < sizeLimit then some (a * b) else none

def sysMemCopy (memory : Memory) (target source count : Nat) : Option Memory :=
  if Apart target count source count then some (moved memory target source count) else none

def sysMemMove (memory : Memory) (target source count : Nat) : Memory := moved memory target source count

def arrayCreate (alloc : Allocator World) (world : World) (memory : Memory) (initCap elemSize align : Nat) :
    Except ProvenErr ProvenArray × World × Memory :=
  if elemSize = 0 ∨ isPow2 align = false then (.error .invalidArg, world, memory)
  else if 0 < initCap then
    match ckdMul initCap elemSize with
    | none => (.error .noMem, world, memory)
    | some bytesNeeded =>
      match alloc.allocFn world memory bytesNeeded align with
      | (.error err, world, memory) => (.error err, world, memory)
      | (.ok data, world, memory) =>
        (.ok { data := data, len := 0, cap := initCap, elemSize := elemSize, align := align }, world, memory)
  else (.ok { data := 0, len := 0, cap := initCap, elemSize := elemSize, align := align }, world, memory)

def arrayIsValid (arr : ProvenArray) : Bool :=
  if arr.elemSize = 0 ∨ isPow2 arr.align = false then false
  else if arr.cap < arr.len then false
  else if 0 < arr.cap ∧ arr.data = 0 then false
  else if 0 < arr.len ∧ arr.data = 0 then false
  else (ckdMul arr.cap arr.elemSize).isSome

/-- The block of `s` is resized to `newCap` elements of `newBytes` bytes. -/
def arrayResize (alloc : Allocator World) (s : State World) (oldBytes newBytes newCap : Nat) :
    Except ProvenErr Unit × State World :=
  match alloc.reallocFn s.world s.memory s.arr.data oldBytes newBytes s.arr.align with
  | (.error err, world, memory) => (.error err, { s with world := world, memory := memory })
  | (.ok data, world, memory) =>
    (.ok (), { arr := { s.arr with data := data, cap := newCap }, world := world, memory := memory })

def arrayReserve (alloc : Allocator World) (s : State World) (newCap : Nat) : Except ProvenErr Unit × State World :=
  if arrayIsValid s.arr = false then (.error .invalidArg, s)
  else if newCap ≤ s.arr.cap then (.ok (), s)
  else
    match ckdMul newCap s.arr.elemSize, ckdMul s.arr.cap s.arr.elemSize with
    | some newBytes, some oldBytes => arrayResize alloc s oldBytes newBytes newCap
    | _, _ => (.error .outOfBounds, s)

/-- `proven_bufref_capture`: where `[ptr, ptr + size)` is in `[base, base + cap)`, if it is. -/
def bufrefCapture (base cap ptr size : Nat) : Option Nat :=
  if base = 0 ∨ ptr = 0 then none
  else
    match ckdAdd base cap, ckdAdd ptr size with
    | some finish, some ptrFinish =>
      if ptr < base ∨ finish < ptr then none else if finish < ptrFinish then none else some (ptr - base)
    | _, _ => none

def rangeEnd (base size : Nat) : Nat := (ckdAdd base size).getD (sizeLimit - 1)

def rangeOverlaps (base cap ptr size : Nat) : Bool :=
  if base = 0 ∨ ptr = 0 ∨ cap = 0 ∨ size = 0 then false
  else ptr < rangeEnd base cap ∧ base < rangeEnd ptr size

def rebased (ref : Option Nat) (data ptr : Nat) : Nat :=
  match ref with
  | none => ptr
  | some offset => data + offset

/-- The end of `proven_array_push`: there is room, and the element is copied behind the last. -/
def arrayPlace (s : State World) (element : Nat) : Option (Except ProvenErr Unit × State World) :=
  match ckdMul s.arr.len s.arr.elemSize with
  | none => some (.error .outOfBounds, s)
  | some offset => do
      let memory ← sysMemCopy s.memory (s.arr.data + offset) element s.arr.elemSize
      pure (.ok (), { s with memory := memory, arr := { s.arr with len := s.arr.len + 1 } })

def arrayPush (alloc : Allocator World) (s : State World) (element : Nat) :
    Option (Except ProvenErr Unit × State World) :=
  if arrayIsValid s.arr = false ∨ element = 0 then some (.error .invalidArg, s)
  else if s.arr.cap ≤ s.arr.len then
    match (if s.arr.cap = 0 then some 8 else ckdMul s.arr.cap 2) with
    | none => some (.error .outOfBounds, s)
    | some newCap =>
      match ckdMul newCap s.arr.elemSize, ckdMul s.arr.cap s.arr.elemSize with
      | some newBytes, some oldBytes =>
        let ref := bufrefCapture s.arr.data oldBytes element s.arr.elemSize
        if ref.any fun offset => oldBytes - offset < s.arr.elemSize then some (.error .invalidArg, s)
        else
          match arrayResize alloc s oldBytes newBytes newCap with
          | (.error err, s) => some (.error err, s)
          | (.ok (), s) => arrayPlace s (rebased ref s.arr.data element)
      | _, _ => some (.error .outOfBounds, s)
  else arrayPlace s element

/-- The element at `offset` is copied out, where that is asked for. -/
def arrayTake (s : State World) (outElement offset : Nat) : Option (State World) :=
  if outElement = 0 then some s
  else do
    let memory ← sysMemCopy s.memory outElement (s.arr.data + offset) s.arr.elemSize
    pure { s with memory := memory }

def arrayPop (s : State World) (outElement : Nat) : Option (Except ProvenErr Unit × State World) :=
  if arrayIsValid s.arr = false then some (.error .invalidArg, s)
  else if s.arr.len = 0 then some (.error .outOfBounds, s)
  else
    let s := { s with arr := { s.arr with len := s.arr.len - 1 } }
    if outElement = 0 then some (.ok (), s)
    else
      match ckdMul s.arr.len s.arr.elemSize with
      | none => some (.error .outOfBounds, s)
      | some offset => do
          let s ← arrayTake s outElement offset
          pure (.ok (), s)

/-- The loop of `array_make_room`; 64 rounds pass the largest size there is. -/
def doubled (need : Nat) : Nat → Nat → Nat
  | 0, newCap => newCap
  | left + 1, newCap =>
    if newCap < need then (if sizeLimit ≤ newCap * 2 then need else doubled need left (newCap * 2)) else newCap

/-- `array_make_room`: the address of what is about to be copied, as it is afterwards. -/
def arrayMakeRoom (alloc : Allocator World) (s : State World) (extra src srcBytes : Nat) :
    Except ProvenErr Nat × State World :=
  match ckdAdd s.arr.len extra, ckdMul s.arr.cap s.arr.elemSize with
  | some need, some oldBytes =>
    let looks : Bool := src ≠ 0 ∧ 0 < srcBytes
    let ref := if looks then bufrefCapture s.arr.data oldBytes src srcBytes else none
    if looks ∧ ref = none ∧ rangeOverlaps s.arr.data oldBytes src srcBytes then (.error .invalidArg, s)
    else if need ≤ s.arr.cap then (.ok src, s)
    else
      let newCap := doubled need 64 (if s.arr.cap = 0 then 8 else s.arr.cap)
      match ckdMul newCap s.arr.elemSize with
      | none => (.error .outOfBounds, s)
      | some newBytes =>
        match arrayResize alloc s oldBytes newBytes newCap with
        | (.error err, s) => (.error err, s)
        | (.ok (), s) => (.ok (rebased ref s.arr.data src), s)
  | _, _ => (.error .outOfBounds, s)

def arrayClear (s : State World) : State World :=
  if arrayIsValid s.arr then { s with arr := { s.arr with len := 0 } } else s

def arrayTruncate (s : State World) (newLen : Nat) : Except ProvenErr Unit × State World :=
  if arrayIsValid s.arr = false then (.error .invalidArg, s)
  else if s.arr.len < newLen then (.error .outOfBounds, s)
  else (.ok (), { s with arr := { s.arr with len := newLen } })

def followed (place tail element elemSize : Nat) : Nat :=
  if place ≤ element ∧ element < place + tail then place + (element - place) + elemSize else element

def arrayInsert (alloc : Allocator World) (s : State World) (index element : Nat) :
    Option (Except ProvenErr Unit × State World) :=
  if arrayIsValid s.arr = false ∨ element = 0 then some (.error .invalidArg, s)
  else if s.arr.len < index then some (.error .outOfBounds, s)
  else
    match arrayMakeRoom alloc s 1 element s.arr.elemSize with
    | (.error err, s) => some (.error err, s)
    | (.ok element, s) => do
        let place := s.arr.data + index * s.arr.elemSize
        let tail := (s.arr.len - index) * s.arr.elemSize
        let el := followed place tail element s.arr.elemSize
        let memory ← sysMemCopy (sysMemMove s.memory (place + s.arr.elemSize) place tail) place el s.arr.elemSize
        pure (.ok (), { s with memory := memory, arr := { s.arr with len := s.arr.len + 1 } })

def arrayRemoveAt (s : State World) (index outElement : Nat) : Option (Except ProvenErr Unit × State World) :=
  if arrayIsValid s.arr = false then some (.error .invalidArg, s)
  else if s.arr.len ≤ index then some (.error .outOfBounds, s)
  else do
    let s ← arrayTake s outElement (index * s.arr.elemSize)
    let place := s.arr.data + index * s.arr.elemSize
    let memory := sysMemMove s.memory place (place + s.arr.elemSize) ((s.arr.len - index - 1) * s.arr.elemSize)
    pure (.ok (), { s with memory := memory, arr := { s.arr with len := s.arr.len - 1 } })

def arraySwapRemove (s : State World) (index outElement : Nat) : Option (Except ProvenErr Unit × State World) :=
  if arrayIsValid s.arr = false then some (.error .invalidArg, s)
  else if s.arr.len ≤ index then some (.error .outOfBounds, s)
  else do
    let s ← arrayTake s outElement (index * s.arr.elemSize)
    let s := { s with arr := { s.arr with len := s.arr.len - 1 } }
    if index = s.arr.len then pure (.ok (), s)
    else
      let memory ← sysMemCopy s.memory (s.arr.data + index * s.arr.elemSize)
        (s.arr.data + s.arr.len * s.arr.elemSize) s.arr.elemSize
      pure (.ok (), { s with memory := memory })

def arrayExtend (alloc : Allocator World) (s : State World) (elements count : Nat) :
    Except ProvenErr Unit × State World :=
  if arrayIsValid s.arr = false ∨ (0 < count ∧ elements = 0) then (.error .invalidArg, s)
  else if count = 0 then (.ok (), s)
  else
    match ckdMul count s.arr.elemSize with
    | none => (.error .outOfBounds, s)
    | some bytes =>
      match arrayMakeRoom alloc s count elements bytes with
      | (.error err, s) => (.error err, s)
      | (.ok elements, s) =>
        let memory := sysMemMove s.memory (s.arr.data + s.arr.len * s.arr.elemSize) elements bytes
        (.ok (), { s with memory := memory, arr := { s.arr with len := s.arr.len + count } })

end ProvenC.Memory.Array

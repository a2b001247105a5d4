import ProvenC.Bytes
import ProvenC.Lib.Probing

/-!
# The hash map

`proven_map`: open addressing with linear probing, tombstones, and a rehash that grows only when the
live entries need the room.
-/

namespace ProvenC.Map.Table

open Bytes Lib.Probing

/-- Where `proven_size_t` ends. -/
def sizeLimit : Nat := 2 ^ 64

def isPow2 (x : Nat) : Bool := x != 0 && (x &&& (x - 1)) == 0

/-- `proven_mem_align_up`; zero stands for a failure. -/
def memAlignUp (addr align : Nat) : Nat :=
  if isPow2 align = false then 0
  else if sizeLimit ≤ addr + (align - 1) then 0
  else (addr + (align - 1)) &&& (sizeLimit - 1 - (align - 1))

/-- `proven_allocator_t`, its functions over what its context points at. -/
structure Allocator (World : Type) where
  allocFn : World → Nat → Nat → Except ProvenErr Nat × World
  freeFn : World → Nat → World

inductive KeyType where
  | int
  | u8Borrowed
  | u8Owned
  deriving DecidableEq, Repr

inductive MapKey where
  | id (id : Nat)
  | str (bytes : List Byte)
  deriving DecidableEq, Repr

/-- `key.str.size` -/
def MapKey.size : MapKey → Nat
  | .id _ => 0
  | .str bytes => bytes.length

structure Stored (V : Type) where
  copy : Option Nat
  value : V

abbrev Bucket (V : Type) := Slot MapKey (Stored V)

/-- `proven_map_t`. Of its fields `arrays` is not in the source and nothing reads it: it counts
the bucket arrays the map had before this one. -/
structure ProvenMap (World V : Type) where
  alloc : Allocator World
  storage : Nat
  storageSize : Nat
  buckets : List (Bucket V)
  len : Nat
  used : Nat
  cap : Nat
  elemSize : Nat
  align : Nat
  bucketStride : Nat
  payloadOffset : Nat
  keyType : KeyType
  hash : MapKey → Nat
  arrays : Nat

variable {World V : Type}

def headerSize : Nat := 24

def headerAlign : Nat := 8

def reqAlign (align : Nat) : Nat := if align > headerAlign then align else headerAlign

/-- Every bit of `v` copied into the `n` bits below it. -/
def smear (v n : Nat) : Nat := v ||| (v >>> n)

def nextPow2 (v : Nat) : Option Nat :=
  if v < 8 then some 8
  else if v > 2 ^ 63 then none
  else some (smear (smear (smear (smear (smear (smear (v - 1) 1) 2) 4) 8) 16) 32 + 1)

/-- The loop of `map_rehash_target`: `p` is doubled until it is not below the capacity asked for. -/
def doubleUp (target : Nat) : Nat → Nat → Option Nat
  | 0, _ => none
  | left + 1, p =>
    if p < target then (if sizeLimit ≤ 2 * p then none else doubleUp target left (2 * p)) else some p

/-- `alloc_buckets`: the address of a zeroed array of `cap` buckets. -/
def allocBuckets (alloc : Allocator World) (world : World) (cap bucketStride align : Nat) :
    Except ProvenErr Nat × World :=
  if sizeLimit ≤ cap * bucketStride then (.error .overflow, world)
  else alloc.allocFn world (cap * bucketStride) (reqAlign align)

def provenMapCreate (alloc : Allocator World) (world : World) (hash : MapKey → Nat) (initCap : Nat) (keyType : KeyType)
    (elemSize align : Nat) : Except ProvenErr (ProvenMap World V) × World :=
  if elemSize = 0 ∨ isPow2 align = false then (.error .invalidArg, world)
  else
    match nextPow2 initCap with
    | none => (.error .overflow, world)
    | some cap =>
      let payloadOffset := memAlignUp headerSize (reqAlign align)
      if payloadOffset = 0 then (.error .overflow, world)
      else if sizeLimit ≤ payloadOffset + elemSize then (.error .overflow, world)
      else
        let bucketStride := memAlignUp (payloadOffset + elemSize) (reqAlign align)
        if bucketStride = 0 then (.error .overflow, world)
        else
          match allocBuckets alloc world cap bucketStride align with
          | (.error err, world) => (.error err, world)
          | (.ok storage, world) =>
            (.ok { alloc, storage, storageSize := cap * bucketStride, buckets := List.replicate cap .empty
                   len := 0, used := 0, cap, elemSize, align, bucketStride, payloadOffset, keyType, hash
                   arrays := 0 }, world)

def provenMapIsValid (map : ProvenMap World V) : Bool :=
  map.elemSize != 0 && isPow2 map.align && decide (map.len ≤ map.used) && decide (map.used ≤ map.cap) &&
    (map.cap == 0 || isPow2 map.cap) &&
    (memAlignUp headerSize (reqAlign map.align) != 0 &&
      memAlignUp headerSize (reqAlign map.align) == map.payloadOffset) &&
    decide (map.payloadOffset + map.elemSize < sizeLimit) &&
    (memAlignUp (map.payloadOffset + map.elemSize) (reqAlign map.align) != 0 &&
      memAlignUp (map.payloadOffset + map.elemSize) (reqAlign map.align) == map.bucketStride) &&
    (map.cap == 0 || (decide (map.cap * map.bucketStride < sizeLimit) && map.storageSize == map.cap * map.bucketStride))

def offsetOverflows (map : ProvenMap World V) (idx : Nat) : Bool := decide (sizeLimit ≤ idx * map.bucketStride)

/-- The bucket at `idx`, which the mask keeps inside the array. -/
def bucketAt (map : ProvenMap World V) (idx : Nat) : Bucket V := map.buckets.getD idx .empty

/-- The first bucket to look at, and the one after `idx`. -/
def firstIdx (map : ProvenMap World V) (key : MapKey) : Nat := map.hash key &&& (map.cap - 1)

def nextIdx (map : ProvenMap World V) (idx : Nat) : Nat := (idx + 1) &&& (map.cap - 1)

/-- The loop of the lookups and of the removal: the bucket of `key`, or why there is none. -/
def probeKey (map : ProvenMap World V) (key : MapKey) : Nat → Nat → Except ProvenErr Nat
  | 0, _ => .error .notFound
  | left + 1, idx =>
    if offsetOverflows map idx then .error .overflow
    else
      match bucketAt map idx with
      | .empty => .error .notFound
      | .occupied k _ => if k = key then .ok idx else probeKey map key left (nextIdx map idx)
      | .tombstone => probeKey map key left (nextIdx map idx)

/-- `map_find_payload_mut` and `map_find_payload_const`: the bucket whose payload it is. -/
def mapFindPayload (map : ProvenMap World V) (key : MapKey) : Option Nat :=
  if map.cap = 0 then none else (probeKey map key map.cap (firstIdx map key)).toOption

def provenMapGet (map : ProvenMap World V) (key : MapKey) : Option V :=
  if provenMapIsValid map = false then none
  else
    match mapFindPayload map key with
    | none => none
    | some idx =>
      match bucketAt map idx with
      | .occupied _ stored => some stored.value
      | _ => none

def mapStoreKey (map : ProvenMap World V) (world : World) (key : MapKey) (copy : Option Nat) (duplicateOwned : Bool) :
    Except ProvenErr (Option Nat) × World :=
  if map.keyType ≠ .u8Owned ∨ duplicateOwned = false then (.ok copy, world)
  else if key.size = 0 then (.ok none, world)
  else
    match map.alloc.allocFn world key.size 1 with
    | (.error err, world) => (.error err, world)
    | (.ok address, world) => (.ok (some address), world)

/-- Put the key and its element into the bucket `target`, a tombstone or an empty one. -/
def takeBucket (map : ProvenMap World V) (world : World) (target : Nat) (tombstone : Bool) (key : MapKey)
    (copy : Option Nat) (element : V) (duplicateOwned : Bool) : Except ProvenErr Unit × ProvenMap World V × World :=
  match mapStoreKey map world key copy duplicateOwned with
  | (.error err, world) => (.error err, map, world)
  | (.ok copy, world) =>
    (.ok (), { map with
      buckets := map.buckets.set target (.occupied key ⟨copy, element⟩)
      len := map.len + 1
      used := if tombstone then map.used else map.used + 1 }, world)

/-- Change the value in the bucket `idx`. -/
def writePayload (map : ProvenMap World V) (idx : Nat) (element : V) : ProvenMap World V :=
  match bucketAt map idx with
  | .occupied key stored => { map with buckets := map.buckets.set idx (.occupied key { stored with value := element }) }
  | _ => map

/-- The loop of `map_insert_no_grow`, with the first tombstone it met. -/
def insertProbe (map : ProvenMap World V) (world : World) (key : MapKey) (copy : Option Nat) (element : V)
    (duplicateOwned : Bool) : Nat → Nat → Option Nat → Except ProvenErr Unit × ProvenMap World V × World
  | 0, _, some target => takeBucket map world target true key copy element duplicateOwned
  | 0, _, none => (.error .outOfBounds, map, world)
  | left + 1, idx, firstTombstone =>
    if offsetOverflows map idx then (.error .overflow, map, world)
    else
      match bucketAt map idx with
      | .empty =>
        takeBucket map world (firstTombstone.getD idx) firstTombstone.isSome key copy element duplicateOwned
      | .occupied k _ =>
        if k = key then (.ok (), writePayload map idx element, world)
        else insertProbe map world key copy element duplicateOwned left (nextIdx map idx) firstTombstone
      | .tombstone =>
        insertProbe map world key copy element duplicateOwned left (nextIdx map idx) (firstTombstone <|> some idx)

def mapInsertNoGrow (map : ProvenMap World V) (world : World) (key : MapKey) (copy : Option Nat) (element : V)
    (duplicateOwned : Bool) : Except ProvenErr Unit × ProvenMap World V × World :=
  insertProbe map world key copy element duplicateOwned map.cap (firstIdx map key) none

/-- The entries of the old array from bucket `i` on, put into the new map. -/
def migrate (old : ProvenMap World V) : List (Bucket V) → Nat → ProvenMap World V → World →
    Except ProvenErr Unit × ProvenMap World V × World
  | [], _, map, world => (.ok (), map, world)
  | bucket :: rest, i, map, world =>
    if offsetOverflows old i then (.error .overflow, map, world)
    else
      match bucket with
      | .occupied key stored =>
        match mapInsertNoGrow map world key stored.copy stored.value false with
        | (.ok (), map, world) => migrate old rest (i + 1) map world
        | (.error err, map, world) => (.error err, map, world)
      | _ => migrate old rest (i + 1) map world

def freshMap (map : ProvenMap World V) (newCap storage : Nat) : ProvenMap World V :=
  { map with
    storage, storageSize := newCap * map.bucketStride, buckets := List.replicate newCap .empty, cap := newCap
    len := 0, used := 0, arrays := map.arrays + 1 }

def mapRehashTarget (map : ProvenMap World V) (world : World) (targetCap : Nat) :
    Except ProvenErr Unit × ProvenMap World V × World :=
  match if isPow2 targetCap then some targetCap else doubleUp targetCap 64 1 with
  | none => (.error .overflow, map, world)
  | some newCap =>
    match allocBuckets map.alloc world newCap map.bucketStride map.align with
    | (.error err, world) => (.error err, map, world)
    | (.ok storage, world) =>
      match migrate map map.buckets 0 (freshMap map newCap storage) world with
      | (.error err, _, world) => (.error err, map, map.alloc.freeFn world storage)
      | (.ok (), newMap, world) => (.ok (), newMap, map.alloc.freeFn world map.storage)

def mapRehash (map : ProvenMap World V) (world : World) : Except ProvenErr Unit × ProvenMap World V × World :=
  if map.cap / 2 ≤ map.len then
    if sizeLimit ≤ map.cap * 2 then (.error .overflow, map, world) else mapRehashTarget map world (map.cap * 2)
  else mapRehashTarget map world map.cap

def provenMapReserve (map : ProvenMap World V) (world : World) (newCap : Nat) :
    Except ProvenErr Unit × ProvenMap World V × World :=
  if provenMapIsValid map = false then (.error .invalidArg, map, world)
  else if newCap ≤ map.cap then (.ok (), map, world)
  else mapRehashTarget map world newCap

def growThreshold (cap : Nat) : Nat :=
  let threshold := (if sizeLimit ≤ cap * 3 then cap else cap * 3) / 4
  if 1 < cap ∧ threshold = 0 then 1 else threshold

def stackTemp : Nat := 256

/-- The element kept aside while the array it may lie in is replaced: on the heap of `scratch`
when it is too large for the stack. -/
def keepElement (map : ProvenMap World V) (world : World) (aliased : Bool) (scratch : Allocator World) :
    Except ProvenErr (Option Nat) × World :=
  if aliased = false ∨ map.elemSize ≤ stackTemp then (.ok none, world)
  else
    match scratch.allocFn world map.elemSize map.align with
    | (.error err, world) => (.error err, world)
    | (.ok address, world) => (.ok (some address), world)

def dropElement (scratch : Allocator World) (world : World) : Option Nat → World
  | none => world
  | some address => scratch.freeFn world address

/-- `aliased`: the element lies in the map's own storage. No `scratch`: the map's allocator. -/
def provenMapSetWithScratch (map : ProvenMap World V) (world : World) (key : MapKey) (element : V) (aliased : Bool)
    (scratch : Option (Allocator World)) : Except ProvenErr Unit × ProvenMap World V × World :=
  if provenMapIsValid map = false ∨ map.cap = 0 then (.error .invalidArg, map, world)
  else
    let scratch := scratch.getD map.alloc
    if growThreshold map.cap ≤ map.used then
      match mapFindPayload map key with
      | some idx => (.ok (), writePayload map idx element, world)
      | none =>
        match keepElement map world aliased scratch with
        | (.error err, world) => (.error err, map, world)
        | (.ok temp, world) =>
          match mapRehash map world with
          | (.error err, map, world) => (.error err, map, dropElement scratch world temp)
          | (.ok (), map, world) =>
            let (result, map, world) :=
              mapInsertNoGrow map world key none element (decide (map.keyType = .u8Owned))
            (result, map, dropElement scratch world temp)
    else mapInsertNoGrow map world key none element (decide (map.keyType = .u8Owned))

def provenMapSet (map : ProvenMap World V) (world : World) (key : MapKey) (element : V) (aliased : Bool) :
    Except ProvenErr Unit × ProvenMap World V × World :=
  provenMapSetWithScratch map world key element aliased (some map.alloc)

/-- `map_release_owned_key` on the bucket `idx`. -/
def releaseOwnedKey (map : ProvenMap World V) (world : World) (idx : Nat) : World :=
  if map.keyType ≠ .u8Owned then world
  else
    match bucketAt map idx with
    | .occupied _ ⟨some address, _⟩ => map.alloc.freeFn world address
    | _ => world

def provenMapRemove (map : ProvenMap World V) (world : World) (key : MapKey) :
    Except ProvenErr Unit × ProvenMap World V × World :=
  if provenMapIsValid map = false then (.error .invalidArg, map, world)
  else if map.cap = 0 then (.error .notFound, map, world)
  else
    match probeKey map key map.cap (firstIdx map key) with
    | .error err => (.error err, map, world)
    | .ok idx =>
      (.ok (), { map with buckets := map.buckets.set idx .tombstone, len := map.len - 1 }, releaseOwnedKey map world idx)

/-- `proven_map_iter_t`, but for the map it belongs to. -/
structure ProvenMapIter where
  next : Nat
  storage : Nat
  cap : Nat

def provenMapIterInit (map : ProvenMap World V) : ProvenMapIter := ⟨0, map.storage, map.cap⟩

/-- The loop of `proven_map_iter_next`, with `left` buckets before the end. -/
def walkOn (map : ProvenMap World V) : Nat → Nat → Except ProvenErr (MapKey × V) × Nat
  | 0, next => (.error .eof, next)
  | left + 1, next =>
    if offsetOverflows map next then (.error .overflow, next + 1)
    else
      match bucketAt map next with
      | .occupied key stored => (.ok (key, stored.value), next + 1)
      | _ => walkOn map left (next + 1)

def provenMapIterNext (map : ProvenMap World V) (it : ProvenMapIter) : Except ProvenErr (MapKey × V) × ProvenMapIter :=
  if map.storage ≠ it.storage ∨ map.cap ≠ it.cap then (.error .invalidState, it)
  else if provenMapIsValid map = false then (.error .invalidArg, it)
  else ((walkOn map (map.cap - it.next) it.next).1, { it with next := (walkOn map (map.cap - it.next) it.next).2 })

end ProvenC.Map.Table

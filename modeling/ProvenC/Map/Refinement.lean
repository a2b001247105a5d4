import ProvenC.Lib.Replay
import ProvenC.Map.Operations

/-!
# The hash map is a finite map

From its creation on, through any calls, the map answers as a finite map would. A call may fail
only for want of memory, and then leaves the finite map as it was.
-/

namespace ProvenC.Map.Refinement

open Bytes Lib.Probing Lib.Replay Map.Table Map.Invariant
open Map.Inserting Map.Rehashing Map.Operations

variable {World V : Type}

inductive MapCall (World V : Type) where
  | set (key : MapKey) (element : V) (aliased : Bool)
  | setWithScratch (key : MapKey) (element : V) (aliased : Bool) (scratch : Option (Allocator World))
  | remove (key : MapKey)
  | reserve (newCap : Nat)
  | get (key : MapKey)

inductive MapAnswer (V : Type) where
  | result (result : Except ProvenErr Unit)
  | element (element : Option V)
  deriving DecidableEq

def mapStep : MapCall World V → ProvenMap World V × World → MapAnswer V × (ProvenMap World V × World)
  | .set key element aliased, (map, world) =>
    let (result, after) := provenMapSet map world key element aliased
    (.result result, after)
  | .setWithScratch key element aliased scratch, (map, world) =>
    let (result, after) := provenMapSetWithScratch map world key element aliased scratch
    (.result result, after)
  | .remove key, (map, world) =>
    let (result, after) := provenMapRemove map world key
    (.result result, after)
  | .reserve newCap, (map, world) =>
    let (result, after) := provenMapReserve map world newCap
    (.result result, after)
  | .get key, (map, world) => (.element (provenMapGet map key), (map, world))

abbrev FiniteMap (V : Type) := MapKey → Option V

def setSpec (alloc : Allocator World) (scratch : Option (Allocator World)) (key : MapKey) (element : V)
    (result : Except ProvenErr Unit) (before after : FiniteMap V) : Prop :=
  match result with
  | .ok () => after = Function.update before key (some element)
  | .error err => SetExcused alloc scratch err ∧ after = before

def mapSpec (alloc : Allocator World) : MapCall World V → MapAnswer V → FiniteMap V → FiniteMap V → Prop
  | .set key element _, .result result, before, after => setSpec alloc none key element result before after
  | .setWithScratch key element _ scratch, .result result, before, after =>
    setSpec alloc scratch key element result before after
  | .remove key, .result (.ok ()), before, after =>
    (before key).isSome = true ∧ after = Function.update before key none
  | .remove key, .result (.error err), before, after => err = .notFound ∧ before key = none ∧ after = before
  | .reserve _, .result (.ok ()), before, after => after = before
  | .reserve _, .result (.error err), before, after => Excused alloc err ∧ after = before
  | .get key, .element element, before, after => element = before key ∧ after = before
  | _, _, _, _ => False

structure Represents (alloc : Allocator World) (hash : MapKey → Nat) (map : ProvenMap World V) (finite : FiniteMap V) :
    Prop where
  sound : Sound map
  alloc : map.alloc = alloc
  hash : map.hash = hash
  contents : ∀ key value, finite key = some value ↔ Maps map key value

variable {alloc : Allocator World} {hash : MapKey → Nat} {map map' : ProvenMap World V} {finite : FiniteMap V}

theorem same_parts_rebucketed (rebucketed : Rebucketed map map') : map'.alloc = map.alloc ∧ map'.hash = map.hash := by
  obtain ⟨_, _, _, rfl⟩ := rebucketed
  exact ⟨rfl, rfl⟩

theorem same_parts_rehashed (rehashed : Rehashed map map') : map'.alloc = map.alloc ∧ map'.hash = map.hash := by
  obtain ⟨newCap, storage, _, _, _, rfl⟩ := rehashed
  exact ⟨rfl, rfl⟩

variable (represents : Represents alloc hash map finite)
include represents

theorem represents_same (sound : Sound map')
    (same : SameContents map map') (parts : map'.alloc = map.alloc ∧ map'.hash = map.hash) :
    Represents alloc hash map' finite where
  sound := sound
  alloc := parts.1.trans represents.alloc
  hash := parts.2.trans represents.hash
  contents := by
    intro key value
    rw [represents.contents, same key value]

theorem represents_updated {key : MapKey} {element : V} (sound : Sound map') (updated : Updated map map' key element)
    (parts : map'.alloc = map.alloc ∧ map'.hash = map.hash) :
    Represents alloc hash map' (Function.update finite key (some element)) where
  sound := sound
  alloc := parts.1.trans represents.alloc
  hash := parts.2.trans represents.hash
  contents := by
    intro k v
    rw [updated k v, Function.update_apply]
    split
    · rw [Option.some.injEq, eq_comm]
    · exact represents.contents k v

theorem represents_erased {key : MapKey}
    (sound : Sound map') (erased : Erased map map' key) (parts : map'.alloc = map.alloc ∧ map'.hash = map.hash) :
    Represents alloc hash map' (Function.update finite key none) where
  sound := sound
  alloc := parts.1.trans represents.alloc
  hash := parts.2.trans represents.hash
  contents := by
    intro k v
    rw [erased k v, Function.update_apply]
    split
    next same =>
      constructor
      · intro no
        cases no
      intro both
      exact absurd same both.1
    rename_i other
    rw [represents.contents k v]
    exact (and_iff_right other).symm

theorem set_admitted (world : World) (key : MapKey) (element : V) (aliased : Bool) (scratch : Option (Allocator World)) :
    ∃ finite', setSpec alloc scratch key element (provenMapSetWithScratch map world key element aliased scratch).1
        finite finite' ∧
      Represents alloc hash (provenMapSetWithScratch map world key element aliased scratch).2.1 finite' := by
  rcases set_updates represents.sound world key element aliased scratch with
    ⟨map', world', result, sound', updated, change⟩ | ⟨err, map', world', result, sound', same, excused, change⟩
  · rw [result]
    refine ⟨_, rfl, represents_updated represents sound' updated ?_⟩
    rcases change with ⟨placed, _⟩ | renewed
    · exact same_parts_rebucketed (placed_rebucketed placed)
    · exact same_parts_rehashed (renewed_rehashed renewed)
  rw [result]
  rw [represents.alloc] at excused
  refine ⟨finite, ⟨excused, rfl⟩, represents_same represents sound' same ?_⟩
  rcases change with rfl | renewed
  · exact ⟨rfl, rfl⟩
  · exact same_parts_rehashed (renewed_rehashed renewed)

omit represents

theorem set_excused_own {err : ProvenErr} (excused : SetExcused alloc (some alloc) err) : SetExcused alloc none err := by
  rcases excused with own | ⟨allocator, same, refuses⟩
  · exact Or.inl own
  obtain rfl := Option.some.inj same
  exact Or.inl (Or.inr refuses)

theorem step_admitted (call : MapCall World V) (state : ProvenMap World V × World) (finite : FiniteMap V)
    (represents : Represents alloc hash state.1 finite) :
    ∃ finite', mapSpec alloc call (mapStep call state).1 finite finite' ∧
      Represents alloc hash (mapStep call state).2.1 finite' := by
  obtain ⟨map, world⟩ := state
  have sound := represents.sound
  cases call with
  | set key element aliased =>
    obtain ⟨finite', admitted, represents'⟩ := set_admitted represents world key element aliased (some map.alloc)
    refine ⟨finite', ?_, represents'⟩
    change setSpec alloc none key element (provenMapSetWithScratch map world key element aliased (some map.alloc)).1 _ _
    have own : map.alloc = alloc := represents.alloc
    revert admitted
    rw [own]
    generalize (provenMapSetWithScratch map world key element aliased (some alloc)).1 = result
    cases result with
    | ok done => exact id
    | error err => exact fun admitted => ⟨set_excused_own admitted.1, admitted.2⟩
  | setWithScratch key element aliased scratch => exact set_admitted represents world key element aliased scratch
  | remove key =>
    rcases remove_erases sound world key with
      ⟨map', world', result, sound', ⟨value, maps⟩, erased, buried⟩ | ⟨result, absent⟩
    · simp only [mapStep, result]
      refine ⟨_, ⟨?_, rfl⟩, represents_erased represents sound' erased ?_⟩
      · rw [(represents.contents key value).mpr maps]
        rfl
      obtain ⟨_, _, _, _, rfl⟩ := buried
      exact ⟨rfl, rfl⟩
    simp only [mapStep, result]
    refine ⟨finite, ⟨rfl, ?_, rfl⟩, represents⟩
    cases is : finite key with
    | none => rfl
    | some value => exact absurd ((represents.contents key value).mp is) (absent value)
  | reserve newCap =>
    obtain ⟨answer, map', world', result, sound', same, excused, large, change⟩ := reserve_keeps sound world newCap
    have represents' : Represents alloc hash map' finite := by
      apply represents_same represents sound' same
      rcases change with rfl | ⟨_, moved⟩
      · exact ⟨rfl, rfl⟩
      · exact same_parts_rehashed moved.rehashed
    simp only [mapStep, result]
    refine ⟨finite, ?_, represents'⟩
    cases answer with
    | ok done => rfl
    | error err =>
      have own : map.alloc = alloc := represents.alloc
      rw [own] at excused
      exact ⟨excused err rfl, rfl⟩
  | get key =>
    refine ⟨finite, ⟨?_, rfl⟩, represents⟩
    apply Option.ext
    intro value
    rw [get_answers sound, represents.contents]

theorem create_represents (world world' : World) (initCap : Nat) (keyType : KeyType) (elemSize align : Nat)
    (created : provenMapCreate alloc world hash initCap keyType elemSize align = (.ok map, world')) :
    Represents alloc hash map (fun _ => none) := by
  unfold provenMapCreate at created
  split at created
  · cases created
  rename_i arguments
  push Not at arguments
  split at created
  · cases created
  rename_i cap rounded
  dsimp only at created
  split at created
  · cases created
  rename_i offset
  split at created
  · cases created
  rename_i reaches
  split at created
  · cases created
  rename_i stride
  split at created
  · cases created
  rename_i storage world'' answered
  cases created
  have fits : cap * memAlignUp (memAlignUp headerSize (reqAlign align) + elemSize) (reqAlign align) <
      sizeLimit := by
    unfold allocBuckets at answered
    split at answered
    · cases answered
    · omega
  have power := nextPow2_power rounded
  have positive : 0 < cap := by
    obtain ⟨e, rfl⟩ := power
    exact Nat.two_pow_pos e
  have aligned : isPow2 align = true := by
    cases is : isPow2 align with
    | false => exact absurd is arguments.2
    | true => rfl
  have none_ : ∀ (counts : Bucket V → Bool), counts Slot.empty = false →
      (List.replicate cap (Slot.empty : Bucket V)).countP counts = 0 := by
    intro counts uncounted
    rw [List.countP_replicate, if_neg (by rw [uncounted]; intro no; cases no)]
  refine ⟨⟨⟨arguments.1, aligned, rfl, offset, not_le.mp reaches, rfl, stride⟩, List.length_replicate,
    power, probed_empty _ _, (none_ _ rfl).symm, (none_ _ rfl).symm, positive, fits, rfl⟩, rfl, rfl, ?_⟩
  intro key value
  constructor
  · intro no
    cases no
  rintro ⟨copy, j, there⟩
  cases List.eq_of_mem_replicate (List.mem_of_getElem? there)

structure ChainInvariant (hash : MapKey → Nat) (map : ProvenMap World V) : Prop where
  whole : map.buckets.length = map.cap
  reachable : ∀ (j : Nat) (key : MapKey) (stored : Stored V), map.buckets[j]? = some (Slot.occupied key stored) →
    ∃ d, d < map.cap ∧ (hash key + d) % map.cap = j ∧
      ∀ e, e < d → map.buckets[(hash key + e) % map.cap]? ≠ some Slot.empty
  once : ∀ (i j : Nat) (key : MapKey) (stored other : Stored V), map.buckets[i]? = some (Slot.occupied key stored) →
    map.buckets[j]? = some (Slot.occupied key other) → i = j
  emptyLeft : ∃ j : Nat, map.buckets[j]? = some Slot.empty
  live : map.len = map.buckets.countP Slot.isLive
  used : map.used = map.buckets.countP Slot.isUsed
  probesEnd : ∀ key, ∃ d, d < map.cap ∧ (map.buckets[(hash key + d) % map.cap]? = some Slot.empty ∨
    ∃ stored, map.buckets[(hash key + d) % map.cap]? = some (Slot.occupied key stored))

include represents

theorem represents_chains : ChainInvariant hash map := by
  have sound := represents.sound
  have probed := sound.probed
  rw [represents.hash] at probed
  have spare := sound.spare
  rw [sound.used, ← sound.slots] at spare
  obtain ⟨j, isEmpty⟩ := empty_exists spare
  refine ⟨sound.slots, ?_, probed.unique, ⟨j, isEmpty⟩, sound.live, sound.used, fun key => ?_⟩
  · rw [← sound.slots]
    exact probed.reach
  rw [← sound.slots]
  obtain ⟨d, dIn, lands⟩ := spot_reaches (hash key) (List.getElem?_eq_some_iff.mp isEmpty).1
  refine ⟨d, dIn, Or.inl ?_⟩
  change map.buckets[spot map.buckets.length (hash key) d]? = _
  rw [lands, isEmpty]

theorem represents_counts : map.len = {key | (finite key).isSome = true}.ncard := by
  rw [represents.sound.live, ← keys_counted represents.sound.probed]
  congr 1
  ext key
  constructor
  · rintro ⟨stored, held⟩
    change (finite key).isSome = true
    rw [(represents.contents key stored.value).mpr ⟨stored.copy, held⟩]
    rfl
  intro some_
  obtain ⟨value, is⟩ := Option.isSome_iff_exists.mp some_
  obtain ⟨copy, held⟩ := (represents.contents key value).mp is
  exact ⟨⟨copy, value⟩, held⟩

omit represents

/-- Whatever the hash, the allocators and the calls: the answers are those of a finite map, which
the hash map holds in the end, its chains unbroken and its counts exact. -/
theorem map_is_finite_map (alloc : Allocator World) (world world' : World) (hash : MapKey → Nat) (initCap : Nat)
    (keyType : KeyType) (elemSize align : Nat) (map : ProvenMap World V)
    (created : provenMapCreate alloc world hash initCap keyType elemSize align = (.ok map, world'))
    (calls : List (MapCall World V)) : ∃ finite : FiniteMap V,
      Admits (mapSpec alloc) calls (replay mapStep calls (map, world')).1 (fun _ => none) finite ∧
      ChainInvariant hash (replay mapStep calls (map, world')).2.1 ∧
      (∀ key, provenMapGet (replay mapStep calls (map, world')).2.1 key = finite key) ∧
      (∀ key value, (∃ copy, Holds (replay mapStep calls (map, world')).2.1.buckets key ⟨copy, value⟩) ↔
        finite key = some value) ∧
      (replay mapStep calls (map, world')).2.1.len = {key | (finite key).isSome = true}.ncard := by
  have represents := create_represents world world' initCap keyType elemSize align created
  obtain ⟨finite, admitted, represents'⟩ := replay_admitted
    (fun state finite => Represents alloc hash state.1 finite) step_admitted calls (map, world') _ represents
  refine ⟨finite, admitted, represents_chains represents', fun key => ?_, fun key value => ?_, represents_counts represents'⟩
  · apply Option.ext
    intro value
    rw [get_answers represents'.sound, represents'.contents]
  · exact (represents'.contents key value).symm

def steady : Allocator Unit := ⟨fun world _ _ => (.ok 1, world), fun world _ => world⟩

def crowded : ProvenMap Unit Nat :=
  { alloc := steady, storage := 1, storageSize := 256, buckets := List.replicate 8 .empty, len := 0, used := 0, cap := 8
    elemSize := 8, align := 8, bucketStride := 32, payloadOffset := 24, keyType := .int, hash := fun _ => 5, arrays := 0 }

def crowdedCalls : List (MapCall Unit Nat) :=
  [.set (.id 1) 7 false, .set (.id 2) 8 false, .remove (.id 1), .reserve 9, .get (.id 2)]

theorem map_is_finite_map_crowded : ∃ finite : FiniteMap Nat,
      Admits (mapSpec steady) crowdedCalls (replay mapStep crowdedCalls (crowded, ())).1 (fun _ => none) finite ∧
      ChainInvariant (fun _ => 5) (replay mapStep crowdedCalls (crowded, ())).2.1 ∧
      (∀ key, provenMapGet (replay mapStep crowdedCalls (crowded, ())).2.1 key = finite key) ∧
      (∀ key value, (∃ copy, Holds (replay mapStep crowdedCalls (crowded, ())).2.1.buckets key ⟨copy, value⟩) ↔
        finite key = some value) ∧
      (replay mapStep crowdedCalls (crowded, ())).2.1.len = {key | (finite key).isSome = true}.ncard :=
  map_is_finite_map steady () () (fun _ => 5) 0 .int 8 8 crowded rfl crowdedCalls

end ProvenC.Map.Refinement

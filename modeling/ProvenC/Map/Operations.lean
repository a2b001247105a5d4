import ProvenC.Map.Rehashing

/-!
# What each operation does

One theorem for each operation: what it answers, what the map holds afterwards, and whether the
buckets stay where they are.
-/

namespace ProvenC.Map.Operations

open Bytes Lib.Probing Map.Table Map.Invariant Map.Inserting
open Map.Rehashing

variable {World V : Type} {map : ProvenMap World V}

theorem get_answers (sound : Sound map) (key : MapKey) (value : V) :
    provenMapGet map key = some value ↔ Maps map key value := by
  have positive := cap_positive sound
  unfold provenMapGet mapFindPayload
  rw [sound_valid sound, if_neg (by intro no; cases no), if_neg (by omega)]
  rcases probe_from_home sound key with ⟨idx, stored, found, inside, is⟩ | ⟨missed, absent⟩
  · have held : Maps map key stored.value := ⟨stored.copy, holds_bucket sound inside is⟩
    rw [found]
    simp only [Except.toOption, is, Option.some.injEq]
    constructor
    · intro same
      rw [← same]
      exact held
    · exact maps_functional sound held
  rw [missed]
  constructor
  · intro no
    cases no
  rintro ⟨copy, held⟩
  exact absurd held (absent _)

theorem same_contents_refl (map : ProvenMap World V) : SameContents map map := fun _ _ => Iff.rfl

theorem updated_after {first second third : ProvenMap World V} {key : MapKey} {value : V}
    (same : SameContents first second) (updated : Updated second third key value) : Updated first third key value := by
  intro k v
  rw [updated k v, same k v]

theorem threshold_room {cap used : Nat} (positive : 0 < cap) (below : used < growThreshold cap) : used + 1 < cap := by
  have little : growThreshold cap ≤ cap - 1 := by
    unfold growThreshold
    dsimp only
    split <;> split <;> omega
  omega

/-- A failure of `provenMapSetWithScratch` comes from a size or from one of the two allocators. -/
def SetExcused (alloc : Allocator World) (scratch : Option (Allocator World)) (err : ProvenErr) : Prop :=
  Excused alloc err ∨ ∃ allocator, scratch = some allocator ∧ Refuses allocator err

theorem keep_excused {world world' : World} {aliased : Bool} {scratch : Option (Allocator World)} {err : ProvenErr}
    (refused : keepElement map world aliased (scratch.getD map.alloc) = (.error err, world')) :
    SetExcused map.alloc scratch err := by
  unfold keepElement at refused
  split at refused
  · cases refused
  split at refused
  next answered =>
    cases refused
    cases scratch with
    | none => exact .inl (.inr ⟨world, map.elemSize, map.align, congrArg Prod.fst answered⟩)
    | some allocator => exact .inr ⟨allocator, rfl, world, map.elemSize, map.align, congrArg Prod.fst answered⟩
  · cases refused

/-- A set in a new array: there was no room for its key in the old one, and no tombstone is in the new one. -/
def Renewed (map map' : ProvenMap World V) : Prop :=
  growThreshold map.cap ≤ map.used ∧ ∃ between, Regrown map between ∧ Rebucketed between map' ∧ Counted between map'

theorem renewed_rehashed {map' : ProvenMap World V} (renewed : Renewed map map') : Rehashed map map' := by
  obtain ⟨_, between, regrown, rebucketed, _⟩ := renewed
  exact rehashed_rebucketed regrown.rehashed rebucketed

def InPlace (map map' : ProvenMap World V) : Prop := map'.used ≤ max map.used (growThreshold map.cap) ∧ Counted map map'

theorem set_updates (sound : Sound map) (world : World) (key : MapKey) (element : V) (aliased : Bool)
    (scratch : Option (Allocator World)) :
    (∃ map' world', provenMapSetWithScratch map world key element aliased scratch = (.ok (), map', world') ∧
      Sound map' ∧ Updated map map' key element ∧ (Placed map map' key element ∧ InPlace map map' ∨ Renewed map map')) ∨
    (∃ err map' world', provenMapSetWithScratch map world key element aliased scratch = (.error err, map', world') ∧
      Sound map' ∧ SameContents map map' ∧ SetExcused map.alloc scratch err ∧ (map' = map ∨ Renewed map map')) := by
  have positive := cap_positive sound
  unfold provenMapSetWithScratch
  rw [sound_valid sound, if_neg (by intro no; rcases no with no | no <;> [cases no; omega])]
  split
  next due =>
    unfold mapFindPayload
    rw [if_neg (by omega)]
    rcases probe_from_home sound key with ⟨idx, stored, found, inside, is⟩ | ⟨missed, absent⟩
    · rw [found]
      obtain ⟨placed, sound', updated, used, counted⟩ := write_updates sound inside is element
      exact .inl ⟨_, _, rfl, sound', updated, .inl ⟨placed, by omega, counted⟩⟩
    rw [missed]
    dsimp only [Except.toOption]
    cases kept : keepElement map world aliased (scratch.getD map.alloc) with
    | mk answer worldKept =>
      cases answer with
      | error err =>
        exact .inr ⟨err, map, worldKept, rfl, sound, same_contents_refl map, keep_excused kept, .inl rfl⟩
      | ok temp =>
        dsimp only
        rcases rehash_moves sound worldKept with ⟨map', world', result, regrown⟩ | ⟨err, world', result, excused⟩
        · have same := regrown.same
          rw [result]
          dsimp only
          rcases insert_updates regrown.sound (regrown_room sound regrown) world' key none element
              (decide (map'.keyType = .u8Owned)) with
            ⟨last, worldLast, done, placed, soundLast, updated, counted⟩ | ⟨err, worldLast, done, owned, refused⟩
          · rw [done]
            exact .inl ⟨last, _, rfl, soundLast, updated_after same updated,
              .inr ⟨due, map', regrown, placed_rebucketed placed, counted⟩⟩
          rw [done]
          have sameAlloc : map'.alloc = map.alloc := by
            obtain ⟨newCap, storage, _, _, _, rfl⟩ := regrown.rehashed
            rfl
          rw [sameAlloc] at refused
          exact .inr ⟨err, map', _, rfl, regrown.sound, same, .inl (.inr refused),
            .inr ⟨due, map', regrown, rebucketed_refl map', Nat.le_succ _, le_refl _⟩⟩
        rw [result]
        exact .inr ⟨err, map, _, rfl, sound, same_contents_refl map, .inl excused, .inl rfl⟩
  rename_i below
  have room := threshold_room positive (not_le.mp below)
  rcases insert_updates sound room world key none element (decide (map.keyType = .u8Owned)) with
    ⟨map', world', done, placed, sound', updated, counted⟩ | ⟨err, world', done, owned, refused⟩
  · have used := counted.used
    rw [done]
    exact .inl ⟨map', world', rfl, sound', updated, .inl ⟨placed, by omega, counted⟩⟩
  rw [done]
  exact .inr ⟨err, map, world', rfl, sound, same_contents_refl map, .inl (.inr refused), .inl rfl⟩

/-- Nothing is left under `key`, and nothing else is changed. -/
def Erased (map map' : ProvenMap World V) (key : MapKey) : Prop :=
  ∀ k v, Maps map' k v ↔ k ≠ key ∧ Maps map k v

/-- The bucket of `key` is a tombstone now. -/
def Buried (map map' : ProvenMap World V) (key : MapKey) : Prop :=
  ∃ idx stored, idx < map.cap ∧ bucketAt map idx = Slot.occupied key stored ∧
    map' = { map with buckets := map.buckets.set idx Slot.tombstone, len := map.len - 1 }

theorem buried_sound (sound : Sound map) {map' : ProvenMap World V} {key : MapKey} (buried : Buried map map' key) :
    Sound map' ∧ Erased map map' key := by
  obtain ⟨idx, stored, inside, is, rfl⟩ := buried
  have there : map.buckets[idx]? = some (Slot.occupied key stored) := by
    rw [bucket_there sound inside, is]
  have insideSlots : idx < map.buckets.length := by
    rw [sound.slots]
    exact inside
  have live := count_set Slot.isLive there (Slot.tombstone : Bucket V)
  have used := count_set Slot.isUsed there (Slot.tombstone : Bucket V)
  have liveNow : map.len - 1 = liveCount (map.buckets.set idx Slot.tombstone) := by
    rw [sound.live]
    exact Nat.sub_eq_of_eq_add live.symm
  have usedNow : map.used = usedCount (map.buckets.set idx Slot.tombstone) := by
    rw [sound.used]
    exact (Nat.add_right_cancel used).symm
  constructor
  · refine sound_rebucketed sound ?_ (probed_bury sound.probed insideSlots) liveNow usedNow sound.spare
    rw [List.length_set, sound.slots]
  intro k v
  constructor
  · rintro ⟨copy, j, held⟩
    rw [get_set insideSlots] at held
    split at held
    · cases held
    rename_i elsewhere
    refine ⟨fun same => ?_, copy, j, held⟩
    subst same
    exact elsewhere (sound.probed.unique j idx k ⟨copy, v⟩ stored held there)
  rintro ⟨other, copy, j, held⟩
  refine ⟨copy, j, ?_⟩
  rw [get_set insideSlots]
  split
  next same =>
    rw [same, there] at held
    cases held
    exact absurd rfl other
  · exact held

theorem remove_erases (sound : Sound map) (world : World) (key : MapKey) :
    (∃ map' world', provenMapRemove map world key = (.ok (), map', world') ∧ Sound map' ∧ (∃ value, Maps map key value) ∧
      Erased map map' key ∧ Buried map map' key) ∨
    (provenMapRemove map world key = (.error .notFound, map, world) ∧ ∀ value, ¬ Maps map key value) := by
  have positive := cap_positive sound
  unfold provenMapRemove
  rw [sound_valid sound, if_neg (by intro no; cases no), if_neg (by omega)]
  rcases probe_from_home sound key with ⟨idx, stored, found, inside, is⟩ | ⟨missed, absent⟩
  · rw [found]
    have buried : Buried map { map with buckets := map.buckets.set idx Slot.tombstone, len := map.len - 1 } key :=
      ⟨idx, stored, inside, is, rfl⟩
    obtain ⟨sound', erased⟩ := buried_sound sound buried
    exact .inl ⟨_, _, rfl, sound', ⟨stored.value, stored.copy, holds_bucket sound inside is⟩, erased, buried⟩
  rw [missed]
  refine .inr ⟨rfl, ?_⟩
  rintro value ⟨copy, held⟩
  exact absent _ held

theorem reserve_keeps (sound : Sound map) (world : World) (newCap : Nat) :
    ∃ answer map' world', provenMapReserve map world newCap = (answer, map', world') ∧ Sound map' ∧
      SameContents map map' ∧ (∀ err, answer = .error err → Excused map.alloc err) ∧
      (answer = .ok () → newCap ≤ map'.cap) ∧ (map' = map ∨ map.cap < newCap ∧ Moved map map' newCap) := by
  have little := len_le_used sound
  have spare := sound.spare
  unfold provenMapReserve
  rw [sound_valid sound, if_neg (by intro no; cases no)]
  split
  next enough =>
    exact ⟨_, _, _, rfl, sound, same_contents_refl map, (by intro err no; cases no), fun _ => enough, .inl rfl⟩
  rename_i more
  rcases rehash_target_moves sound world (by omega : map.len < newCap) with
    ⟨map', world', result, moved⟩ | ⟨err, world', result, excused⟩
  · exact ⟨_, _, _, result, moved.sound, moved.same, (by intro err no; cases no), fun _ => moved.large,
      .inr ⟨by omega, moved⟩⟩
  refine ⟨_, _, _, result, sound, same_contents_refl map, fun err' is => ?_, (by intro no; cases no), .inl rfl⟩
  cases is
  exact excused

end ProvenC.Map.Operations

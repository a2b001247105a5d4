import ProvenC.Map.Invariant

/-!
# What a lookup and an insertion do

A lookup ends at the bucket of its key, or shows that there is none. An insertion changes the
value of the bucket its key has, or takes one on the key's way.
-/

namespace ProvenC.Map.Inserting

open Bytes Lib.Probing Map.Table Map.Invariant

variable {World V : Type} {map : ProvenMap World V}

/-- The bucket looked at after `d` others neither ends a probe for `key` nor holds it. -/
def Passed (map : ProvenMap World V) (key : MapKey) (d : Nat) : Prop :=
  bucketAt map (spot map.cap (map.hash key) d) ≠ Slot.empty ∧
    ∀ stored, bucketAt map (spot map.cap (map.hash key) d) ≠ Slot.occupied key stored

variable {key : MapKey}

variable (sound : Sound map)
include sound

theorem passed_misses {d : Nat} (passed : ∀ e, e < d → Passed map key e)
    (ends : d = map.cap ∨ bucketAt map (spot map.cap (map.hash key) d) = Slot.empty) (stored : Stored V) :
    ¬ Holds map.buckets key stored := by
  have positive := cap_positive sound
  refine search_misses sound.probed (d := d) (fun e before entry there => ?_) ?_ stored
  · rw [sound.slots, bucket_there sound (spot_lt _ _ positive)] at there
    exact (passed e before).2 entry (Option.some.inj there)
  rw [sound.slots]
  rcases ends with whole | isEmpty
  · exact .inl whole
  right
  rw [bucket_there sound (spot_lt _ _ positive), isEmpty]

omit sound in
theorem passed_extend {d : Nat} (passed : ∀ e, e < d → Passed map key e) (this : Passed map key d) :
    ∀ e, e < d + 1 → Passed map key e := by
  intro e before
  rcases Nat.lt_succ_iff_lt_or_eq.mp before with earlier | same
  · exact passed e earlier
  rw [same]
  exact this

theorem probe_ends (key : MapKey) (left : Nat) : ∀ d, d + left = map.cap → (∀ e, e < d → Passed map key e) →
    (∃ idx stored, probeKey map key left (spot map.cap (map.hash key) d) = .ok idx ∧ idx < map.cap ∧
      bucketAt map idx = Slot.occupied key stored) ∨
    (probeKey map key left (spot map.cap (map.hash key) d) = .error .notFound ∧
      ∀ stored, ¬ Holds map.buckets key stored) := by
  induction left with
  | zero =>
    intro d whole passed
    exact .inr ⟨rfl, passed_misses sound passed (.inl whole)⟩
  | succ left ih =>
    intro d whole passed
    have inside : spot map.cap (map.hash key) d < map.cap := spot_lt _ _ (cap_positive sound)
    have onward := ih (d + 1) (by omega)
    unfold probeKey
    rw [offset_fits sound inside, next_spot sound]
    rw [if_neg (by intro no; cases no)]
    cases found : bucketAt map (spot map.cap (map.hash key) d) with
    | empty => exact .inr ⟨rfl, passed_misses sound passed (.inr found)⟩
    | occupied k stored =>
      by_cases same : k = key
      · subst same
        refine .inl ⟨_, stored, ?_, inside, found⟩
        exact if_pos rfl
      have this : Passed map key d := by
        refine ⟨?_, fun stored' is => ?_⟩
        · rw [found]
          intro no
          cases no
        rw [found] at is
        cases is
        exact same rfl
      dsimp only
      rw [if_neg same]
      exact onward (passed_extend passed this)
    | tombstone =>
      have this : Passed map key d := by
        constructor
        · rw [found]
          intro no
          cases no
        intro stored is
        rw [found] at is
        cases is
      exact onward (passed_extend passed this)

theorem probe_from_home (key : MapKey) :
    (∃ idx stored, probeKey map key map.cap (firstIdx map key) = .ok idx ∧ idx < map.cap ∧
      bucketAt map idx = Slot.occupied key stored) ∨
    (probeKey map key map.cap (firstIdx map key) = .error .notFound ∧ ∀ stored, ¬ Holds map.buckets key stored) := by
  rw [first_spot sound]
  exact probe_ends sound key map.cap 0 (by omega) (fun e before => absurd before (Nat.not_lt_zero e))

structure FreeBucket (map : ProvenMap World V) (key : MapKey) (target : Nat) (tombstone : Bool) : Prop where
  way : ∃ d, d < map.cap ∧ spot map.cap (map.hash key) d = target ∧
    ∀ e, e < d → bucketAt map (spot map.cap (map.hash key) e) ≠ Slot.empty
  slot : bucketAt map target = if tombstone then Slot.tombstone else Slot.empty
  absent : ∀ stored, ¬ Holds map.buckets key stored

def Remembered (map : ProvenMap World V) (key : MapKey) (d : Nat) (firstTombstone : Option Nat) : Prop :=
  ∀ target, firstTombstone = some target →
    ∃ e, e < d ∧ spot map.cap (map.hash key) e = target ∧ bucketAt map target = Slot.tombstone

omit sound in
theorem free_remembered {d target : Nat} (within : d ≤ map.cap)
    (passed : ∀ e, e < d → Passed map key e) (remembered : Remembered map key d (some target))
    (absent : ∀ stored, ¬ Holds map.buckets key stored) : FreeBucket map key target true := by
  obtain ⟨e, before, place, slot⟩ := remembered target rfl
  exact ⟨⟨e, by omega, place, fun e' earlier => (passed e' (by omega)).1⟩, slot, absent⟩

theorem insert_ends (world : World) (key : MapKey) (copy : Option Nat) (element : V)
    (duplicateOwned : Bool) (left : Nat) : ∀ d firstTombstone, d + left = map.cap →
    (∀ e, e < d → Passed map key e) → Remembered map key d firstTombstone →
    (∃ idx stored, bucketAt map idx = Slot.occupied key stored ∧ idx < map.cap ∧
      insertProbe map world key copy element duplicateOwned left (spot map.cap (map.hash key) d) firstTombstone =
        (.ok (), writePayload map idx element, world)) ∨ (∃ target tombstone, FreeBucket map key target tombstone ∧
      insertProbe map world key copy element duplicateOwned left (spot map.cap (map.hash key) d) firstTombstone =
        takeBucket map world target tombstone key copy element duplicateOwned) := by
  induction left with
  | zero =>
    intro d firstTombstone whole passed remembered
    have absent := passed_misses sound passed (.inl whole)
    right
    cases firstTombstone with
    | none =>
      have spare := sound.spare
      rw [sound.used, ← sound.slots] at spare
      obtain ⟨j, isEmpty⟩ := empty_exists spare
      have inside : j < map.cap := by
        rw [← sound.slots]
        exact (List.getElem?_eq_some_iff.mp isEmpty).1
      obtain ⟨e, before, place⟩ := spot_reaches (map.hash key) inside
      rw [bucket_there sound inside, ← place] at isEmpty
      exact absurd (Option.some.inj isEmpty) (passed e (by omega)).1
    | some target => exact ⟨target, true, free_remembered (by omega) passed remembered absent, rfl⟩
  | succ left ih =>
    intro d firstTombstone whole passed remembered
    have inside : spot map.cap (map.hash key) d < map.cap := spot_lt _ _ (cap_positive sound)
    have onward := ih (d + 1)
    unfold insertProbe
    rw [offset_fits sound inside, next_spot sound]
    rw [if_neg (by intro no; cases no)]
    cases found : bucketAt map (spot map.cap (map.hash key) d) with
    | empty =>
      have absent := passed_misses sound passed (.inr found)
      right
      cases firstTombstone with
      | none => exact ⟨_, false, ⟨⟨d, by omega, rfl, fun e before => (passed e before).1⟩, found, absent⟩, rfl⟩
      | some target => exact ⟨target, true, free_remembered (by omega) passed remembered absent, rfl⟩
    | occupied k stored =>
      dsimp only
      by_cases same : k = key
      · subst same
        rw [if_pos rfl]
        exact .inl ⟨_, stored, found, inside, rfl⟩
      have this : Passed map key d := by
        refine ⟨?_, fun stored' is => ?_⟩
        · rw [found]
          intro no
          cases no
        rw [found] at is
        cases is
        exact same rfl
      rw [if_neg same]
      refine onward firstTombstone (by omega) (passed_extend passed this) (fun target is => ?_)
      obtain ⟨e, before, place⟩ := remembered target is
      exact ⟨e, by omega, place⟩
    | tombstone =>
      have this : Passed map key d := by
        constructor
        · rw [found]
          intro no
          cases no
        intro stored is
        rw [found] at is
        cases is
      refine onward _ (by omega) (passed_extend passed this) (fun target is => ?_)
      cases firstTombstone with
      | none =>
        obtain rfl := Option.some.inj is
        exact ⟨d, by omega, rfl, found⟩
      | some first =>
        obtain ⟨e, before, place⟩ := remembered target is
        exact ⟨e, by omega, place⟩

def Maps (map : ProvenMap World V) (key : MapKey) (value : V) : Prop :=
  ∃ copy, Holds map.buckets key ⟨copy, value⟩

def Rebucketed (map map' : ProvenMap World V) : Prop :=
  ∃ buckets len used, map' = { map with buckets, len, used }

/-- One bucket, the key's own or one that is not live, is written for `key`. -/
def Placed (map map' : ProvenMap World V) (key : MapKey) (value : V) : Prop :=
  ∃ idx copy len used, idx < map.cap ∧ (∀ k stored, bucketAt map idx = Slot.occupied k stored → k = key) ∧
    map' = { map with buckets := map.buckets.set idx (Slot.occupied key ⟨copy, value⟩), len, used }

omit sound in
theorem placed_rebucketed {map' : ProvenMap World V} {value : V} (placed : Placed map map' key value) :
    Rebucketed map map' := by
  obtain ⟨idx, copy, len, used, inside, others, rfl⟩ := placed
  exact ⟨_, _, _, rfl⟩

/-- `value` is put under `key`, and nothing else is changed. -/
def Updated (map map' : ProvenMap World V) (key : MapKey) (value : V) : Prop :=
  ∀ k v, Maps map' k v ↔ if k = key then v = value else Maps map k v

theorem holds_bucket {idx : Nat} {stored : Stored V} (inside : idx < map.cap)
    (is : bucketAt map idx = Slot.occupied key stored) : Holds map.buckets key stored := by
  refine ⟨idx, ?_⟩
  rw [bucket_there sound inside, is]

theorem maps_functional {value other : V} (first : Maps map key value) (second : Maps map key other) : value = other := by
  obtain ⟨copy, held⟩ := first
  obtain ⟨copy', held'⟩ := second
  have same := holds_functional sound.probed held held'
  cases same
  rfl

theorem sound_rebucketed {buckets : List (Bucket V)} {len used : Nat}
    (slots : buckets.length = map.cap) (probed : Probed map.hash buckets) (live : len = liveCount buckets)
    (counted : used = usedCount buckets) (spare : used < map.cap) : Sound { map with buckets, len, used } :=
  ⟨⟨sound.geometry.element, sound.geometry.aligned, sound.geometry.offset, sound.geometry.offsetPositive,
    sound.geometry.reaches, sound.geometry.stride, sound.geometry.stridePositive⟩,
    slots, sound.power, probed, live, counted, spare, sound.fits, sound.storage⟩

theorem updated_set {idx len used : Nat} {copy : Option Nat} {value : V}
    (inside : idx < map.cap) (others : ∀ k stored, bucketAt map idx = Slot.occupied k stored → k = key)
    (alone : ∀ j stored, map.buckets[j]? = some (Slot.occupied key stored) → j = idx) :
    Updated map { map with buckets := map.buckets.set idx (Slot.occupied key ⟨copy, value⟩), len, used } key value := by
  have insideSlots : idx < map.buckets.length := by
    rw [sound.slots]
    exact inside
  intro k v
  by_cases isKey : k = key
  · subst isKey
    rw [if_pos rfl]
    constructor
    · rintro ⟨copy', j, there⟩
      rw [get_set insideSlots] at there
      split at there
      · cases there
        rfl
      rename_i elsewhere
      exact absurd (alone j _ there) elsewhere
    rintro rfl
    refine ⟨copy, idx, ?_⟩
    rw [get_set insideSlots, if_pos rfl]
  rw [if_neg isKey]
  constructor
  all_goals rintro ⟨copy', j, there⟩
  · rw [get_set insideSlots] at there
    split at there
    · cases there
      exact absurd rfl isKey
    · exact ⟨copy', j, there⟩
  refine ⟨copy', j, ?_⟩
  rw [get_set insideSlots]
  split
  next same =>
    rw [same, bucket_there sound inside] at there
    exact absurd (others k _ (Option.some.inj there)) isKey
  · exact there

structure Counted (map map' : ProvenMap World V) : Prop where
  used : map'.used ≤ map.used + 1
  dead : map'.used + map.len ≤ map.used + map'.len

theorem write_updates {idx : Nat} {stored : Stored V} (inside : idx < map.cap)
    (is : bucketAt map idx = Slot.occupied key stored) (element : V) :
    Placed map (writePayload map idx element) key element ∧ Sound (writePayload map idx element) ∧
      Updated map (writePayload map idx element) key element ∧ (writePayload map idx element).used = map.used ∧
      Counted map (writePayload map idx element) := by
  have there : map.buckets[idx]? = some (Slot.occupied key stored) := by
    rw [bucket_there sound inside, is]
  have counts := fun counts => count_set counts there (Slot.occupied key { stored with value := element })
  have live := counts Slot.isLive
  have used := counts Slot.isUsed
  have written : writePayload map idx element =
      { map with buckets := map.buckets.set idx (Slot.occupied key { stored with value := element }) } := by
    unfold writePayload
    rw [is]
  have own : ∀ k stored', bucketAt map idx = Slot.occupied k stored' → k = key := by
    intro k stored' is'
    rw [is] at is'
    cases is'
    rfl
  rw [written]
  refine ⟨⟨idx, _, _, _, inside, own, rfl⟩, sound_rebucketed sound ?_ (probed_rewrite sound.probed there _) ?_ ?_ sound.spare, ?_,
    rfl, Nat.le_succ _, le_refl _⟩
  · rw [List.length_set, sound.slots]
  · rw [sound.live]
    exact (Nat.add_right_cancel live).symm
  · rw [sound.used]
    exact (Nat.add_right_cancel used).symm
  apply updated_set sound inside own
  · intro j stored' there'
    exact sound.probed.unique j idx key stored' stored there' there

theorem take_updates {target : Nat} {tombstone : Bool}
    (free : FreeBucket map key target tombstone) (room : map.used + 1 < map.cap) (copy : Option Nat) (element : V) :
    let map' : ProvenMap World V := { map with
      buckets := map.buckets.set target (.occupied key ⟨copy, element⟩)
      len := map.len + 1
      used := if tombstone then map.used else map.used + 1 }
    Placed map map' key element ∧ Sound map' ∧ Updated map map' key element ∧ Counted map map' := by
  intro map'
  obtain ⟨d, before, place, full⟩ := free.way
  have inside : target < map.cap := by
    rw [← place]
    exact spot_lt _ _ (cap_positive sound)
  have there := bucket_there sound inside
  rw [free.slot] at there
  have live := count_set Slot.isLive there (Slot.occupied key ⟨copy, element⟩)
  have used := count_set Slot.isUsed there (Slot.occupied key ⟨copy, element⟩)
  have usedNow : (if tombstone then map.used else map.used + 1) =
      usedCount (map.buckets.set target (Slot.occupied key ⟨copy, element⟩)) := by
    rw [sound.used]
    cases tombstone with
    | false => exact used.symm
    | true => exact (Nat.add_right_cancel used).symm
  have liveNow : map.len + 1 = liveCount (map.buckets.set target (Slot.occupied key ⟨copy, element⟩)) := by
    rw [sound.live]
    cases tombstone <;> exact live.symm
  have little : (if tombstone then map.used else map.used + 1) ≤ map.used + 1 := by
    split <;> omega
  have own : ∀ k stored, bucketAt map target = Slot.occupied k stored → k = key := by
    intro k stored is
    rw [free.slot] at is
    cases tombstone <;> cases is
  refine ⟨⟨target, _, _, _, inside, own, rfl⟩, sound_rebucketed sound ?_ ?_ liveNow usedNow (by omega), ?_, little,
    by dsimp only [map']; omega⟩
  · rw [List.length_set, sound.slots]
  · rw [← place, ← sound.slots]
    refine probed_place sound.probed (by rw [sound.slots]; exact before) _ (fun e earlier => ?_) free.absent
    rw [sound.slots, bucket_there sound (spot_lt _ _ (cap_positive sound))]
    intro isEmpty
    exact full e earlier (Option.some.inj isEmpty)
  apply updated_set sound inside own
  · intro j stored held
    exact absurd ⟨j, held⟩ (free.absent stored)

def Refuses (alloc : Allocator World) (err : ProvenErr) : Prop :=
  ∃ world size align, (alloc.allocFn world size align).1 = .error err

theorem insert_updates (room : map.used + 1 < map.cap) (world : World) (key : MapKey)
    (copy : Option Nat) (element : V) (duplicateOwned : Bool) :
    (∃ map' world', mapInsertNoGrow map world key copy element duplicateOwned = (.ok (), map', world') ∧
      Placed map map' key element ∧ Sound map' ∧ Updated map map' key element ∧ Counted map map') ∨
    (∃ err world', mapInsertNoGrow map world key copy element duplicateOwned = (.error err, map, world') ∧
      duplicateOwned = true ∧ Refuses map.alloc err) := by
  unfold mapInsertNoGrow
  rw [first_spot sound]
  rcases insert_ends sound world key copy element duplicateOwned map.cap 0 none (by omega)
    (fun e before => absurd before (Nat.not_lt_zero e)) (fun target is => by cases is) with
    ⟨idx, stored, is, inside, result⟩ | ⟨target, tombstone, free, result⟩
  · rw [result]
    obtain ⟨placed, sound', updated, _, counted⟩ := write_updates sound inside is element
    exact .inl ⟨_, _, rfl, placed, sound', updated, counted⟩
  rw [result]
  unfold takeBucket
  cases kept : mapStoreKey map world key copy duplicateOwned with
  | mk answer world' =>
    cases answer with
    | ok copy' =>
      obtain ⟨placed, sound', updated, counted⟩ := take_updates sound free room copy' element
      exact .inl ⟨_, _, rfl, placed, sound', updated, counted⟩
    | error err =>
      refine .inr ⟨err, world', rfl, ?_⟩
      unfold mapStoreKey at kept
      split at kept
      · cases kept
      rename_i owned
      push Not at owned
      split at kept
      · cases kept
      split at kept
      next err' world'' refused =>
        cases kept
        refine ⟨by simpa using owned.2, world, key.size, 1, ?_⟩
        rw [refused]
      · cases kept

omit sound

end ProvenC.Map.Inserting

import ProvenC.Map.Inserting

/-!
# Rehashing keeps what the map holds

The entries of the old array go one by one into a new one.
-/

namespace ProvenC.Map.Rehashing

open List Bytes Lib.Probing Map.Table Map.Invariant Map.Inserting

variable {World V : Type} {map : ProvenMap World V}

def SameContents (map map' : ProvenMap World V) : Prop := ∀ key value, Maps map' key value ↔ Maps map key value

def Rehashed (map map' : ProvenMap World V) : Prop :=
  ∃ newCap storage, Rebucketed (freshMap map newCap storage) map'

theorem rebucketed_trans {first second third : ProvenMap World V} (one : Rebucketed first second)
    (two : Rebucketed second third) : Rebucketed first third := by
  obtain ⟨buckets, len, used, rfl⟩ := one
  obtain ⟨buckets', len', used', rfl⟩ := two
  exact ⟨buckets', len', used', rfl⟩

theorem rebucketed_refl (map : ProvenMap World V) : Rebucketed map map := ⟨map.buckets, map.len, map.used, rfl⟩

theorem rehashed_rebucketed {first second third : ProvenMap World V} (one : Rehashed first second)
    (two : Rebucketed second third) : Rehashed first third := by
  obtain ⟨newCap, storage, fresh⟩ := one
  exact ⟨newCap, storage, rebucketed_trans fresh two⟩

/-- The new map holds what stands in `before`. -/
def Carries (map : ProvenMap World V) (before : List (Bucket V)) : Prop :=
  ∀ key value, Maps map key value ↔ ∃ copy, Slot.occupied key ⟨copy, value⟩ ∈ before

theorem maps_member (key : MapKey) (value : V) :
    Maps map key value ↔ ∃ copy, Slot.occupied key ⟨copy, value⟩ ∈ map.buckets := by
  constructor
  · rintro ⟨copy, j, there⟩
    exact ⟨copy, mem_of_getElem? there⟩
  rintro ⟨copy, among⟩
  exact ⟨copy, mem_iff_getElem?.mp among⟩

variable {before : List (Bucket V)}

theorem carries_dead {bucket : Bucket V} (carries : Carries map before)
    (dead : ∀ key stored, bucket ≠ Slot.occupied key stored) : Carries map (before ++ [bucket]) := by
  intro key value
  rw [carries key value]
  constructor
  all_goals rintro ⟨copy, among⟩
  · exact ⟨copy, mem_append_left _ among⟩
  rcases mem_append.mp among with earlier | last
  · exact ⟨copy, earlier⟩
  · exact absurd (mem_singleton.mp last).symm (dead key _)

theorem carries_live {map' : ProvenMap World V} {key : MapKey} {stored : Stored V}
    (carries : Carries map before) (first : ∀ other, Slot.occupied key other ∉ before)
    (updated : Updated map map' key stored.value) : Carries map' (before ++ [Slot.occupied key stored]) := by
  intro k v
  rw [updated k v, carries k v]
  split
  next same =>
    subst same
    constructor
    · rintro rfl
      exact ⟨stored.copy, mem_append_right _ (mem_singleton_self _)⟩
    rintro ⟨copy, among⟩
    rcases mem_append.mp among with earlier | last
    · exact absurd earlier (first _)
    have same := mem_singleton.mp last
    cases same
    rfl
  rename_i other
  constructor
  all_goals rintro ⟨copy, among⟩
  · exact ⟨copy, mem_append_left _ among⟩
  rcases mem_append.mp among with earlier | last
  · exact ⟨copy, earlier⟩
  have same := mem_singleton.mp last
  cases same
  exact absurd rfl other

theorem key_first (sound : Sound map) {rest : List (Bucket V)} {key : MapKey} {stored : Stored V}
    (split : map.buckets = before ++ Slot.occupied key stored :: rest) (other : Stored V) :
    Slot.occupied key other ∉ before := by
  intro among
  obtain ⟨j, there⟩ := mem_iff_getElem?.mp among
  have jIn : j < before.length := (List.getElem?_eq_some_iff.mp there).1
  have atJ : map.buckets[j]? = some (Slot.occupied key other) := by
    rw [split, List.getElem?_append_left jIn, there]
  have atEnd : map.buckets[before.length]? = some (Slot.occupied key stored) := by
    rw [split, List.getElem?_append_right (le_refl _), tsub_self]
    rfl
  have same := sound.probed.unique j before.length key other stored atJ atEnd
  omega

theorem migrate_carries {old : ProvenMap World V} (soundOld : Sound old) (rest : List (Bucket V)) :
    ∀ (before : List (Bucket V)) (map : ProvenMap World V) (world : World), old.buckets = before ++ rest →
    Sound map → old.len < map.cap → map.used ≤ liveCount before → Carries map before →
    ∃ map' world', migrate old rest before.length map world = (.ok (), map', world') ∧
      Rebucketed map map' ∧ Sound map' ∧ map'.used ≤ old.len ∧ Carries map' old.buckets := by
  induction rest with
  | nil =>
    intro before map world split sound room used carries
    rw [append_nil] at split
    rw [soundOld.live, split]
    exact ⟨map, world, rfl, rebucketed_refl map, sound, used, carries⟩
  | cons bucket rest ih =>
    intro before map world split sound room used carries
    have inside : before.length < old.cap := by
      rw [← soundOld.slots, split, length_append, length_cons]
      omega
    have split' : old.buckets = (before ++ [bucket]) ++ rest := by
      rw [split, append_assoc, singleton_append]
    have onward := fun map world => ih (before ++ [bucket]) map world split'
    rw [length_append, length_singleton] at onward
    have counted : liveCount (before ++ [bucket]) = liveCount before + (if bucket.isLive then 1 else 0) := by
      unfold liveCount
      rw [countP_append, countP_singleton]
    have dead : (∀ key stored, bucket ≠ Slot.occupied key stored) →
        ∃ map' world', migrate old rest (before.length + 1) map world = (.ok (), map', world') ∧
          Rebucketed map map' ∧ Sound map' ∧ map'.used ≤ old.len ∧ Carries map' old.buckets := by
      intro notLive
      exact onward map world sound room (by omega) (carries_dead carries notLive)
    unfold migrate
    rw [offset_fits soundOld inside, if_neg (by intro no; cases no)]
    cases bucket with
    | empty => exact dead (fun key stored is => by cases is)
    | tombstone => exact dead (fun key stored is => by cases is)
    | occupied key stored =>
      have total : liveCount before + 1 ≤ old.len := by
        rw [soundOld.live, split']
        unfold liveCount at counted ⊢
        rw [countP_append, counted]
        exact Nat.le_add_right _ _
      rcases insert_updates sound (by omega) world key stored.copy stored.value false with
        ⟨map', world', result, placed, sound', updated, more⟩ | ⟨err, world', result, owned, refused⟩
      · have rebucketed := placed_rebucketed placed
        have sameCap : map'.cap = map.cap := by
          obtain ⟨_, _, _, rfl⟩ := rebucketed
          rfl
        obtain ⟨last, worldLast, done, further, soundLast, usedLast, carriesLast⟩ := onward map' world' sound' (by omega)
          (by rw [counted]; exact le_trans more.used (Nat.add_le_add_right used 1))
          (carries_live carries (key_first soundOld split) updated)
        refine ⟨last, worldLast, ?_, rebucketed_trans rebucketed further, soundLast, usedLast, carriesLast⟩
        dsimp only
        rw [result]
        exact done
      · cases owned

theorem fresh_sound (sound : Sound map) {newCap : Nat} (storage : Nat) (power : ∃ e, newCap = 2 ^ e)
    (fits : newCap * map.bucketStride < sizeLimit) : Sound (freshMap map newCap storage) := by
  have geometry := sound.geometry
  have none_ : ∀ (counts : Bucket V → Bool), counts Slot.empty = false →
      (List.replicate newCap (Slot.empty : Bucket V)).countP counts = 0 := by
    intro counts uncounted
    rw [countP_replicate, if_neg (by rw [uncounted]; intro no; cases no)]
  have positive : 0 < newCap := by
    obtain ⟨e, rfl⟩ := power
    exact Nat.two_pow_pos e
  exact ⟨⟨geometry.element, geometry.aligned, geometry.offset, geometry.offsetPositive, geometry.reaches,
    geometry.stride, geometry.stridePositive⟩, length_replicate, power, probed_empty _ _,
    (none_ Slot.isLive rfl).symm, (none_ Slot.isUsed rfl).symm, positive, fits, rfl⟩

theorem fresh_carries (map : ProvenMap World V) (newCap storage : Nat) : Carries (freshMap map newCap storage) [] := by
  intro key value
  constructor
  · rintro ⟨copy, j, there⟩
    have among := eq_of_mem_replicate (mem_of_getElem? there)
    cases among
  rintro ⟨copy, among⟩
  cases among

def Excused (alloc : Allocator World) (err : ProvenErr) : Prop := err = .overflow ∨ Refuses alloc err

/-- The capacity a rehash to `targetCap` takes. -/
def roundedCap (targetCap : Nat) : Option Nat := if isPow2 targetCap then some targetCap else doubleUp targetCap 64 1

theorem rounded_cap {targetCap newCap : Nat} (rounded : roundedCap targetCap = some newCap) (positive : 0 < targetCap) :
    (∃ e, newCap = 2 ^ e) ∧ targetCap ≤ newCap ∧ newCap < 2 * targetCap ∧ (isPow2 targetCap = true → newCap = targetCap) := by
  unfold roundedCap at rounded
  split at rounded
  next already =>
    obtain rfl := Option.some.inj rounded
    exact ⟨(isPow2_iff _).mp already, le_refl _, by omega, fun _ => rfl⟩
  rename_i between
  obtain ⟨power, large⟩ := doubleUp_power 64 ⟨0, rfl⟩ rounded
  exact ⟨power, large, doubleUp_least 64 (by omega) rounded, fun already => absurd already between⟩

structure Moved (map map' : ProvenMap World V) (targetCap : Nat) : Prop where
  rehashed : Rehashed map map'
  sound : Sound map'
  same : SameContents map map'
  used : map'.used ≤ map.len
  large : targetCap ≤ map'.cap
  least : map'.cap < 2 * targetCap
  exact_ : isPow2 targetCap = true → map'.cap = targetCap

theorem rehash_target_moves (sound : Sound map) (world : World) {targetCap : Nat} (room : map.len < targetCap) :
    (∃ map' world', mapRehashTarget map world targetCap = (.ok (), map', world') ∧ Moved map map' targetCap) ∨
    (∃ err world', mapRehashTarget map world targetCap = (.error err, map, world') ∧ Excused map.alloc err) := by
  unfold mapRehashTarget
  cases capacity : roundedCap targetCap with
  | none =>
    rw [show (if isPow2 targetCap then some targetCap else doubleUp targetCap 64 1) = none from capacity]
    exact Or.inr ⟨.overflow, world, rfl, Or.inl rfl⟩
  | some newCap =>
    rw [show (if isPow2 targetCap then some targetCap else doubleUp targetCap 64 1) = some newCap from capacity]
    obtain ⟨power, large, least, exact_⟩ := rounded_cap capacity (Nat.zero_lt_of_lt room)
    dsimp only
    unfold allocBuckets
    by_cases tooLarge : sizeLimit ≤ newCap * map.bucketStride
    · rw [if_pos tooLarge]
      exact Or.inr ⟨.overflow, world, rfl, Or.inl rfl⟩
    rw [if_neg tooLarge]
    cases answered : map.alloc.allocFn world (newCap * map.bucketStride) (reqAlign map.align) with
    | mk answer world' =>
      cases answer with
      | error err =>
        exact Or.inr ⟨err, world', rfl, Or.inr ⟨world, newCap * map.bucketStride, reqAlign map.align, by rw [answered]⟩⟩
      | ok storage =>
        have soundFresh := fresh_sound sound storage power (not_le.mp tooLarge)
        obtain ⟨map', worldDone, done, rebucketed, sound', used, carries⟩ := migrate_carries sound map.buckets []
          (freshMap map newCap storage) world' rfl soundFresh (lt_of_lt_of_le room large)
          (Nat.zero_le _) (fresh_carries map newCap storage)
        have capacity' : map'.cap = newCap := by
          obtain ⟨_, _, _, rfl⟩ := rebucketed
          rfl
        have same : SameContents map map' := by
          intro key value
          rw [carries key value, maps_member]
        left
        refine ⟨map', map.alloc.freeFn worldDone map.storage, ?_, ⟨newCap, storage, rebucketed⟩, sound', same, used,
          capacity' ▸ large, capacity' ▸ least, fun already => capacity'.trans (exact_ already)⟩
        dsimp only
        rw [show migrate map map.buckets 0 (freshMap map newCap storage) world' = (.ok (), map', worldDone) from done]

structure Regrown (map map' : ProvenMap World V) : Prop where
  rehashed : Rehashed map map'
  sound : Sound map'
  same : SameContents map map'
  used : map'.used ≤ map.len
  cap : map.len < map.cap / 2 ∧ map'.cap = map.cap ∨ map.cap / 2 ≤ map.len ∧ map'.cap = map.cap * 2

theorem regrown_room (sound : Sound map) {map' : ProvenMap World V} (regrown : Regrown map map') :
    map'.used + 1 < map'.cap := by
  have little := len_le_used sound
  have spare := sound.spare
  have used := regrown.used
  rcases regrown.cap with ⟨few, same⟩ | ⟨many, doubled⟩ <;> omega

theorem rehash_moves (sound : Sound map) (world : World) :
    (∃ map' world', mapRehash map world = (.ok (), map', world') ∧ Regrown map map') ∨
    (∃ err world', mapRehash map world = (.error err, map, world') ∧ Excused map.alloc err) := by
  have little := len_le_used sound
  have spare := sound.spare
  obtain ⟨e, power⟩ := sound.power
  unfold mapRehash
  split
  next many =>
    split
    · exact .inr ⟨.overflow, world, rfl, .inl rfl⟩
    rcases rehash_target_moves sound world (by omega : map.len < map.cap * 2) with
      ⟨map', world', result, moved⟩ | failed
    · have twice : isPow2 (map.cap * 2) = true := (isPow2_iff _).mpr ⟨e + 1, by rw [power, pow_succ]⟩
      exact .inl ⟨map', world', result, moved.rehashed, moved.sound, moved.same, moved.used,
        .inr ⟨many, moved.exact_ twice⟩⟩
    · exact .inr failed
  rename_i few
  rcases rehash_target_moves sound world (by omega : map.len < map.cap) with ⟨map', world', result, moved⟩ | failed
  · exact .inl ⟨map', world', result, moved.rehashed, moved.sound, moved.same, moved.used,
      .inl ⟨by omega, moved.exact_ ((isPow2_iff _).mpr ⟨e, power⟩)⟩⟩
  · exact .inr failed

end ProvenC.Map.Rehashing

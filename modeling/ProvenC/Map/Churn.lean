import ProvenC.Map.Refinement

/-!
# Memory under churn

Whatever is set and removed, the array has at most four times as many buckets as there were keys at some
time, or as were asked for.
-/

namespace ProvenC.Map.Churn

open List Bytes Lib.Probing Lib.Replay Map.Table Map.Invariant
open Map.Inserting Map.Rehashing Map.Operations Map.Refinement

variable {World V : Type} {map map' : ProvenMap World V} {key : MapKey}

def liveKeys (map : ProvenMap World V) : Set MapKey := {key | (provenMapGet map key).isSome = true}

theorem live_maps (sound : Sound map) : key ∈ liveKeys map ↔ ∃ value, Maps map key value := by
  change (provenMapGet map key).isSome = true ↔ _
  rw [Option.isSome_iff_exists]
  exact exists_congr (get_answers sound key)

theorem live_keys_counted (sound : Sound map) : (liveKeys map).ncard = map.len := by
  rw [sound.live, ← keys_counted sound.probed]
  congr 1
  ext key
  rw [live_maps sound]
  constructor
  · rintro ⟨value, copy, held⟩
    exact ⟨_, held⟩
  rintro ⟨stored, held⟩
  exact ⟨stored.value, stored.copy, held⟩

theorem same_len (sound : Sound map) (sound' : Sound map') (same : SameContents map map') : map'.len = map.len := by
  rw [← live_keys_counted sound, ← live_keys_counted sound']
  congr 1
  ext key
  rw [live_maps sound, live_maps sound']
  exact exists_congr (same key)

theorem align_divides {addr e : Nat} : 2 ^ e ∣ memAlignUp addr (2 ^ e) := by
  unfold memAlignUp
  split
  · exact Nat.dvd_zero _
  split
  · exact Nat.dvd_zero _
  rename_i fits
  have positive : 0 < 2 ^ e := Nat.two_pow_pos e
  have small : e ≤ 64 := by
    by_contra large
    have above : (2 : Nat) ^ 65 ≤ 2 ^ e := Nat.pow_le_pow_right (by decide) (by omega)
    unfold sizeLimit at fits
    omega
  have mask : sizeLimit - 1 - (2 ^ e - 1) = 2 ^ 64 - 2 ^ e := by
    unfold sizeLimit
    omega
  apply Nat.dvd_of_mod_eq_zero
  rw [mask, Nat.and_mod_two_pow, Nat.mod_eq_zero_of_dvd (Nat.dvd_sub (Nat.pow_dvd_pow 2 small) (Nat.dvd_refl _)),
    Nat.and_zero]

theorem stride_wide (sound : Sound map) : 8 ≤ map.bucketStride := by
  have geometry := sound.geometry
  obtain ⟨e, power⟩ := (isPow2_iff _).mp geometry.aligned
  have positive := Nat.pos_of_ne_zero geometry.stridePositive
  obtain ⟨f, wide⟩ : ∃ f, reqAlign map.align = 2 ^ f := by
    unfold reqAlign
    split
    · exact ⟨e, power⟩
    · exact ⟨3, rfl⟩
  have large : 8 ≤ reqAlign map.align := by
    unfold reqAlign headerAlign
    split <;> omega
  have divides := @align_divides (map.payloadOffset + map.elemSize) f
  rw [← wide, geometry.stride] at divides
  exact le_trans large (Nat.le_of_dvd positive divides)

structure Roomy (map : ProvenMap World V) : Prop where
  sound : Sound map
  eight : 8 ∣ map.cap
  room : 4 * map.used ≤ 3 * map.cap

theorem roomy_threshold (roomy : Roomy map) : growThreshold map.cap = map.cap * 3 / 4 := by
  have wide : map.cap * 8 ≤ map.cap * map.bucketStride := Nat.mul_le_mul_left _ (stride_wide roomy.sound)
  have fits := roomy.sound.fits
  have positive := cap_positive roomy.sound
  have eight := roomy.eight
  unfold growThreshold
  rw [if_neg (by omega : ¬ sizeLimit ≤ map.cap * 3)]
  rw [if_neg (by omega)]

def churns : MapCall World V → Bool
  | .set .. | .setWithScratch .. | .remove _ => true
  | .reserve _ | .get _ => false

structure Remade (call : MapCall World V) (map map' : ProvenMap World V) : Prop where
  arrays : map'.arrays = map.arrays + 1
  clean : map'.used = map'.len
  half : 2 * map'.used ≤ map'.cap
  due : churns call = true → 3 * map.cap ≤ 4 * map.used
  size : churns call = true → map'.cap = map.cap ∨ map.cap ≤ 2 * map.len ∧ map'.cap = 2 * map.cap
  asked : ∀ newCap, call = .reserve newCap → map'.cap ≤ 2 * newCap

structure Costs (call : MapCall World V) (map map' : ProvenMap World V) : Prop where
  roomy : Roomy map'
  used : map'.used ≤ map.used + 1
  array : map'.arrays = map.arrays ∧ map'.cap = map.cap ∨ Remade call map map'

theorem costs_nothing (roomy : Roomy map) (call : MapCall World V) : Costs call map map :=
  ⟨roomy, Nat.le_succ _, Or.inl ⟨rfl, rfl⟩⟩

theorem rebucketed_array (rebucketed : Rebucketed map map') : map'.cap = map.cap ∧ map'.arrays = map.arrays := by
  obtain ⟨_, _, _, rfl⟩ := rebucketed
  exact ⟨rfl, rfl⟩

theorem rehashed_arrays (rehashed : Rehashed map map') : map'.arrays = map.arrays + 1 := by
  obtain ⟨_, _, _, _, _, rfl⟩ := rehashed
  rfl

theorem renewed_costs (roomy : Roomy map) {call : MapCall World V} (set_ : churns call = true)
    (renewed : Renewed map map') (sound' : Sound map') : Costs call map map' := by
  have eight := roomy.eight
  have room := roomy.room
  have little := len_le_used roomy.sound
  have little' := len_le_used sound'
  have positive := cap_positive roomy.sound
  obtain ⟨due, between, regrown, rebucketed, counted⟩ := renewed
  rw [roomy_threshold roomy] at due
  have len := same_len roomy.sound regrown.sound regrown.same
  have few := regrown.used
  have more := counted.used
  have dead := counted.dead
  obtain ⟨cap, arrays⟩ := rebucketed_array rebucketed
  have noReserve : ∀ newCap, call = .reserve newCap → map'.cap ≤ 2 * newCap := by
    rintro newCap rfl
    cases set_
  have made := rehashed_arrays regrown.rehashed
  rcases regrown.cap with ⟨part, same⟩ | ⟨many, doubled⟩
  · have remade : Remade call map map' :=
      ⟨by omega, by omega, by omega, fun _ => by omega, fun _ => Or.inl (by omega), noReserve⟩
    exact ⟨⟨sound', by rw [cap, same]; exact eight, by omega⟩, by omega, Or.inr remade⟩
  have remade : Remade call map map' :=
    ⟨by omega, by omega, by omega, fun _ => by omega, fun _ => Or.inr (by omega), noReserve⟩
  exact ⟨⟨sound', by rw [cap, doubled]; exact Nat.dvd_mul_right_of_dvd eight 2, by omega⟩, by omega, Or.inr remade⟩

theorem set_costs (roomy : Roomy map) {call : MapCall World V} (set_ : churns call = true) (world : World) (key : MapKey)
    (element : V) (aliased : Bool) (scratch : Option (Allocator World)) :
    Costs call map (provenMapSetWithScratch map world key element aliased scratch).2.1 := by
  rcases set_updates roomy.sound world key element aliased scratch with
    ⟨map', world', result, sound', updated, change⟩ | ⟨err, map', world', result, sound', same, excused, change⟩
  · rw [result]
    rcases change with ⟨placed, below, counted⟩ | renewed
    · obtain ⟨cap, arrays⟩ := rebucketed_array (placed_rebucketed placed)
      have room := roomy.room
      rw [roomy_threshold roomy] at below
      have room' : 4 * map'.used ≤ 3 * map'.cap := by omega
      exact ⟨⟨sound', by rw [cap]; exact roomy.eight, room'⟩, counted.used, Or.inl ⟨arrays, cap⟩⟩
    · exact renewed_costs roomy set_ renewed sound'
  rw [result]
  rcases change with rfl | renewed
  · exact costs_nothing roomy call
  · exact renewed_costs roomy set_ renewed sound'

theorem reserve_costs (roomy : Roomy map) (world : World) (newCap : Nat) :
    Costs (.reserve newCap) map (provenMapReserve map world newCap).2.1 := by
  obtain ⟨answer, map', world', result, sound', same, excused, large, change⟩ := reserve_keeps roomy.sound world newCap
  rw [result]
  rcases change with rfl | ⟨more, moved⟩
  · exact costs_nothing roomy _
  have room := roomy.room
  have little := len_le_used roomy.sound
  have little' := len_le_used sound'
  have few := moved.used
  have large := moved.large
  have least := moved.least
  have len := same_len roomy.sound sound' same
  have twice : 2 * map.cap ∣ map'.cap := by
    obtain ⟨e, power⟩ := roomy.sound.power
    obtain ⟨f, power'⟩ := sound'.power
    have above : (2 : Nat) ^ e < 2 ^ f := by omega
    have later := (Nat.pow_lt_pow_iff_right (by decide)).mp above
    rw [power, power', ← Nat.pow_succ']
    exact Nat.pow_dvd_pow 2 later
  have enough : 2 * map.cap ≤ map'.cap := Nat.le_of_dvd (cap_positive sound') twice
  have eight : 8 ∣ map'.cap := (roomy.eight.trans (Nat.dvd_mul_left _ 2)).trans twice
  have asked : ∀ other, (.reserve newCap : MapCall World V) = .reserve other → map'.cap ≤ 2 * other := by
    intro other same
    cases same
    omega
  have remade : Remade (.reserve newCap) map map' :=
    ⟨rehashed_arrays moved.rehashed, by omega, by omega, Bool.noConfusion, Bool.noConfusion, asked⟩
  have room' : 4 * map'.used ≤ 3 * map'.cap := by omega
  have used : map'.used ≤ map.used + 1 := by omega
  exact ⟨⟨sound', eight, room'⟩, used, Or.inr remade⟩

theorem call_costs (roomy : Roomy map) (world : World) (call : MapCall World V) :
    Costs call map (mapStep call (map, world)).2.1 := by
  cases call with
  | set key element aliased => exact set_costs roomy rfl world key element aliased (some map.alloc)
  | setWithScratch key element aliased scratch => exact set_costs roomy rfl world key element aliased scratch
  | remove key =>
    rcases remove_erases roomy.sound world key with
      ⟨map', world', result, sound', held, erased, idx, stored, inside, is, rfl⟩ | ⟨result, absent⟩
    · simp only [mapStep, result]
      exact ⟨⟨sound', roomy.eight, roomy.room⟩, Nat.le_succ _, Or.inl ⟨rfl, rfl⟩⟩
    simp only [mapStep, result]
    exact costs_nothing roomy _
  | reserve newCap => exact reserve_costs roomy world newCap
  | get key => exact costs_nothing roomy _

def mapAfter (calls : List (MapCall World V)) (state : ProvenMap World V × World) : ProvenMap World V :=
  (replay mapStep calls state).2.1

variable {state : ProvenMap World V × World} {calls : List (MapCall World V)}

theorem after_first (call : MapCall World V) (rest : List (MapCall World V)) :
    mapAfter (call :: rest) state = mapAfter rest (mapStep call state).2 := rfl

theorem after_append (first second : List (MapCall World V)) :
    mapAfter (first ++ second) state = mapAfter second (replay mapStep first state).2 :=
  congrArg Prod.fst (replay_append first second state)

theorem after_roomy (roomy : Roomy state.1) (calls : List (MapCall World V)) : Roomy (mapAfter calls state) :=
  replay_kept (fun state => Roomy state.1) (fun call state roomy => (call_costs roomy state.2 call).roomy) calls state roomy

theorem after_used (roomy : Roomy state.1) (calls : List (MapCall World V)) :
    (mapAfter calls state).used ≤ state.1.used + calls.length :=
  replay_climbs (fun state => Roomy state.1) (fun state => state.1.used)
    (fun call state roomy => ⟨(call_costs roomy state.2 call).roomy, (call_costs roomy state.2 call).used⟩) calls state roomy

/-- One call keeps the capacity within four times what was live or asked for. -/
theorem call_capacity {n most : Nat} (roomy : Roomy state.1) (few : (liveKeys state.1).ncard ≤ n) {call : MapCall World V}
    (asked : ∀ newCap, call = .reserve newCap → newCap ≤ most) (below : state.1.cap ≤ 4 * max n most) :
    (mapStep call state).2.1.cap ≤ 4 * max n most := by
  obtain ⟨old, world⟩ := state
  dsimp only at roomy few below
  rw [live_keys_counted roomy.sound] at few
  rcases (call_costs roomy world call).array with ⟨_, same⟩ | remade
  · rw [same]
    exact below
  · cases call with
    | set key element aliased =>
      rcases remade.size rfl with same | ⟨many, doubled⟩ <;> omega
    | setWithScratch key element aliased scratch =>
      rcases remade.size rfl with same | ⟨many, doubled⟩ <;> omega
    | remove key =>
      rcases remade.size rfl with same | ⟨many, doubled⟩ <;> omega
    | reserve newCap =>
      have little := remade.asked newCap rfl
      have limit := asked newCap rfl
      omega
    | get key => exact below

theorem run_capacity {n most : Nat} (calls : List (MapCall World V)) : ∀ state : ProvenMap World V × World, Roomy state.1 →
    (∀ before, before <+: calls → (liveKeys (mapAfter before state)).ncard ≤ n) →
    (∀ newCap, MapCall.reserve newCap ∈ calls → newCap ≤ most) → state.1.cap ≤ 4 * max n most →
    (mapAfter calls state).cap ≤ 4 * max n most := by
  induction calls with
  | nil =>
    intro state roomy few asked below
    exact below
  | cons call rest ih =>
    intro state roomy few asked below
    have now : (liveKeys state.1).ncard ≤ n := few [] (List.nil_prefix ..)
    rw [after_first]
    refine ih _ (call_costs roomy state.2 call).roomy (fun before part => ?_) (fun newCap member => ?_) ?_
    · exact few (call :: before) (cons_prefix_cons.mpr ⟨rfl, part⟩)
    · exact asked newCap (mem_cons_of_mem _ member)
    · exact call_capacity roomy now (fun newCap is => asked newCap (is ▸ mem_cons_self)) below

/-- Memory stays within what is live. The capacity is at most four times the most keys that were live at any time, the
capacity at the beginning or one that was reserved; a new array holds no tombstone, and a set makes it larger only if half
of the buckets were live; and where two calls make a new array of one capacity, with only sets and removals after the
first, at least a quarter of the capacity as many come between them. -/
structure BoundedByLive (map : ProvenMap World V) (world : World) (calls : List (MapCall World V)) : Prop where
  capacity : ∀ n most, (∀ before, before <+: calls → (liveKeys (mapAfter before (map, world))).ncard ≤ n) →
    map.cap ≤ most → (∀ newCap, MapCall.reserve newCap ∈ calls → newCap ≤ most) →
    (mapAfter calls (map, world)).cap ≤ 4 * max n most
  dropped : ∀ before call, before ++ [call] <+: calls →
    let old := mapAfter before (map, world)
    let new := mapAfter (before ++ [call]) (map, world)
    new.arrays ≠ old.arrays → new.used = (liveKeys new).ncard ∧
      (churns call = true → new.cap = old.cap ∨ old.cap ≤ 2 * (liveKeys old).ncard ∧ new.cap = 2 * old.cap)
  spaced : ∀ before first between second, before ++ first :: (between ++ [second]) <+: calls →
    (∀ call ∈ between ++ [second], churns call = true) →
    let old := mapAfter before (map, world)
    let new := mapAfter (before ++ [first]) (map, world)
    let full := mapAfter (before ++ first :: between) (map, world)
    let next := mapAfter (before ++ first :: (between ++ [second])) (map, world)
    new.arrays ≠ old.arrays → full.cap = new.cap → next.arrays ≠ full.arrays → new.cap ≤ 4 * between.length

theorem call_remade (roomy : Roomy state.1) {call : MapCall World V}
    (changed : (mapStep call state).2.1.arrays ≠ state.1.arrays) : Remade call state.1 (mapStep call state).2.1 := by
  rcases (call_costs roomy state.2 call).array with ⟨same, _⟩ | remade
  · exact absurd same changed
  · exact remade

theorem created_roomy {alloc : Allocator World} {world world' : World} {hash : MapKey → Nat} {initCap elemSize align : Nat}
    {keyType : KeyType} (created : provenMapCreate alloc world hash initCap keyType elemSize align = (.ok map, world')) :
    Roomy map := by
  have sound := (create_represents world world' initCap keyType elemSize align created).sound
  unfold provenMapCreate at created
  split at created
  · cases created
  split at created
  · cases created
  rename_i cap rounded
  dsimp only at created
  iterate 3
    split at created
    · cases created
  split at created
  · cases created
  · cases created
    obtain ⟨e, power⟩ := nextPow2_power rounded
    have eight : 8 ≤ cap := nextPow2_eight rounded
    refine ⟨sound, ?_, Nat.zero_le _⟩
    change 2 ^ 3 ∣ cap
    rw [power] at eight ⊢
    exact Nat.pow_dvd_pow 2 ((Nat.pow_le_pow_iff_right (by decide)).mp (show 2 ^ 3 ≤ 2 ^ e from eight))

/-- Whatever the calls on a new map, its memory is bounded by what is live in it. -/
theorem memory_bounded (alloc : Allocator World) (world world' : World) (hash : MapKey → Nat) (initCap : Nat)
    (keyType : KeyType) (elemSize align : Nat) (map : ProvenMap World V)
    (created : provenMapCreate alloc world hash initCap keyType elemSize align = (.ok map, world'))
    (calls : List (MapCall World V)) : BoundedByLive map world' calls := by
  have roomy : Roomy (map, world').1 := created_roomy created
  refine ⟨fun n most few initial asked => ?_, fun before call part => ?_, fun before first between second part all_ => ?_⟩
  · exact run_capacity calls (map, world') roomy few asked (by dsimp only; omega)
  · have roomyOld := after_roomy roomy before
    have sound' := (after_roomy roomy (before ++ [call])).sound
    rw [after_append] at sound' ⊢
    intro old new changed
    have remade := call_remade roomyOld changed
    rw [live_keys_counted sound']
    refine ⟨remade.clean, fun set_ => ?_⟩
    rw [live_keys_counted roomyOld.sound]
    exact remade.size set_
  have roomyOld := after_roomy roomy before
  have roomyNew := after_roomy roomy (before ++ [first])
  have roomyFull := after_roomy roomy (before ++ first :: between)
  have climbs : (mapAfter (before ++ first :: between) (map, world')).used ≤
      (mapAfter (before ++ [first]) (map, world')).used + between.length := by
    rw [after_append, after_append]
    rw [after_append] at roomyNew
    exact after_used roomyNew between
  intro old new full next renewed same remadeAgain
  have half : 2 * new.used ≤ new.cap := by
    have split : new = (mapStep first (replay mapStep before (map, world')).2).2.1 := after_append before [first]
    rw [split] at renewed ⊢
    exact (call_remade roomyOld renewed).half
  have due : 3 * full.cap ≤ 4 * full.used := by
    have split : next = (mapStep second (replay mapStep (before ++ first :: between) (map, world')).2).2.1 := by
      have whole := @after_append World V (map, world') (before ++ first :: between) [second]
      rw [append_assoc] at whole
      exact whole
    rw [split] at remadeAgain
    exact (call_remade roomyFull remadeAgain).due (all_ second (mem_append_right _ (mem_singleton_self _)))
  have climbed : full.used ≤ new.used + between.length := climbs
  omega

theorem memory_bounded_crowded : BoundedByLive crowded () crowdedCalls :=
  memory_bounded steady () () (fun _ => 5) 0 .int 8 8 crowded rfl crowdedCalls

end ProvenC.Map.Churn

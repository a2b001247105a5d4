import ProvenC.Map.Refinement

/-!
# Walks over a map that changes meanwhile

The iterator tells a rehash by the address and the capacity of the bucket array. Until the first rehash
every entry that stays is met once.
-/

namespace ProvenC.Map.Walking

open List Bytes Lib.Probing Lib.Replay Map.Table Map.Invariant
open Map.Inserting Map.Rehashing Map.Operations Map.Refinement

variable {World V : Type} {map map' : ProvenMap World V}

def KeepsBuckets (map map' : ProvenMap World V) : Prop :=
  ∀ (j : Nat) (key : MapKey) (stored : Stored V), map.buckets[j]? = some (Slot.occupied key stored) →
    (∃ value, Maps map' key value) → ∃ stored', map'.buckets[j]? = some (Slot.occupied key stored')

def Changed (map map' : ProvenMap World V) : Prop :=
  map'.arrays = map.arrays + 1 ∨
    (map'.arrays = map.arrays ∧ map'.storage = map.storage ∧ map'.cap = map.cap ∧ KeepsBuckets map map')

theorem changed_not (map : ProvenMap World V) : Changed map map :=
  .inr ⟨rfl, rfl, rfl, fun _ _ stored there _ => ⟨stored, there⟩⟩

theorem changed_rehashed (rehashed : Rehashed map map') : Changed map map' := by
  obtain ⟨newCap, storage, _, _, _, rfl⟩ := rehashed
  exact .inl rfl

variable {key : MapKey}

theorem changed_placed (sound : Sound map) {value : V} (placed : Placed map map' key value) : Changed map map' := by
  obtain ⟨idx, copy, len, used, inside, others, rfl⟩ := placed
  refine .inr ⟨rfl, rfl, rfl, fun j k stored there _ => ?_⟩
  have insideSlots : idx < map.buckets.length := by
    rw [sound.slots]
    exact inside
  rw [get_set insideSlots]
  split
  next same =>
    rw [same, bucket_there sound inside] at there
    rw [others k stored (Option.some.inj there)]
    exact ⟨_, rfl⟩
  · exact ⟨stored, there⟩

theorem changed_buried (sound : Sound map) (buried : Buried map map' key) : Changed map map' := by
  have erased := (buried_sound sound buried).2
  obtain ⟨idx, stored, inside, is, rfl⟩ := buried
  refine .inr ⟨rfl, rfl, rfl, fun j k stored' there still => ?_⟩
  have insideSlots : idx < map.buckets.length := by
    rw [sound.slots]
    exact inside
  obtain ⟨value, held⟩ := still
  have other : k ≠ key := ((erased k value).mp held).1
  rw [get_set insideSlots]
  split
  next same =>
    rw [same, bucket_there sound inside, is] at there
    cases there
    exact absurd rfl other
  · exact ⟨stored', there⟩

theorem call_changes (sound : Sound map) (world : World) (call : MapCall World V) :
    Sound (mapStep call (map, world)).2.1 ∧ Changed map (mapStep call (map, world)).2.1 := by
  have setting : ∀ key element aliased scratch,
      Sound (provenMapSetWithScratch map world key element aliased scratch).2.1 ∧
        Changed map (provenMapSetWithScratch map world key element aliased scratch).2.1 := by
    intro key element aliased scratch
    rcases set_updates sound world key element aliased scratch with
      ⟨map', world', result, sound', updated, change⟩ | ⟨err, map', world', result, sound', same, excused, change⟩
    · rw [result]
      refine ⟨sound', ?_⟩
      rcases change with ⟨placed, _⟩ | renewed
      · exact changed_placed sound placed
      · exact changed_rehashed (renewed_rehashed renewed)
    rw [result]
    refine ⟨sound', ?_⟩
    rcases change with rfl | renewed
    · exact changed_not map'
    · exact changed_rehashed (renewed_rehashed renewed)
  cases call with
  | set key element aliased => exact setting key element aliased (some map.alloc)
  | setWithScratch key element aliased scratch => exact setting key element aliased scratch
  | remove key =>
    rcases remove_erases sound world key with ⟨map', world', result, sound', held, erased, buried⟩ | ⟨result, absent⟩
    all_goals simp only [mapStep, result]
    · exact ⟨sound', changed_buried sound buried⟩
    · exact ⟨sound, changed_not map⟩
  | reserve newCap =>
    obtain ⟨answer, map', world', result, sound', same, excused, large, change⟩ := reserve_keeps sound world newCap
    simp only [mapStep, result]
    refine ⟨sound', ?_⟩
    rcases change with rfl | ⟨_, moved⟩
    · exact changed_not map'
    · exact changed_rehashed moved.rehashed
  | get key => exact ⟨sound, changed_not map⟩

theorem walk_on_finds (sound : Sound map) (left : Nat) : ∀ next, next + left = map.cap →
    (∃ i key stored, next ≤ i ∧ i < map.cap ∧ map.buckets[i]? = some (Slot.occupied key stored) ∧
      (∀ j, next ≤ j → j < i → ∀ k other, map.buckets[j]? ≠ some (Slot.occupied k other)) ∧
      walkOn map left next = (.ok (key, stored.value), i + 1)) ∨
    ((∀ j, next ≤ j → ∀ k other, map.buckets[j]? ≠ some (Slot.occupied k other)) ∧
      walkOn map left next = (.error .eof, map.cap)) := by
  induction left with
  | zero =>
    intro next whole
    refine .inr ⟨fun j past k other there => ?_, ?_⟩
    · have inside := (List.getElem?_eq_some_iff.mp there).1
      rw [sound.slots] at inside
      omega
    rw [← whole]
    rfl
  | succ left ih =>
    intro next whole
    have inside : next < map.cap := by omega
    have there := bucket_there sound inside
    have onward : (∀ k other, bucketAt map next ≠ Slot.occupied k other) →
        (∃ i key stored, next ≤ i ∧ i < map.cap ∧ map.buckets[i]? = some (Slot.occupied key stored) ∧
          (∀ j, next ≤ j → j < i → ∀ k other, map.buckets[j]? ≠ some (Slot.occupied k other)) ∧
          walkOn map left (next + 1) = (.ok (key, stored.value), i + 1)) ∨
        ((∀ j, next ≤ j → ∀ k other, map.buckets[j]? ≠ some (Slot.occupied k other)) ∧
          walkOn map left (next + 1) = (.error .eof, map.cap)) := by
      intro dead
      have here : ∀ j, next ≤ j → ¬ next + 1 ≤ j → ∀ k other, map.buckets[j]? ≠ some (Slot.occupied k other) := by
        intro j past near k other is
        obtain rfl : j = next := by omega
        rw [there] at is
        exact dead k other (Option.some.inj is)
      rcases ih (next + 1) (by omega) with
        ⟨i, key, stored, past, insideI, is, between, result⟩ | ⟨nothing, result⟩
      · refine .inl ⟨i, key, stored, by omega, insideI, is, fun j pastJ before => ?_, result⟩
        by_cases far : next + 1 ≤ j
        · exact between j far before
        · exact here j pastJ far
      refine .inr ⟨fun j pastJ => ?_, result⟩
      by_cases far : next + 1 ≤ j
      · exact nothing j far
      · exact here j pastJ far
    unfold walkOn
    rw [offset_fits sound inside, if_neg (by intro no; cases no)]
    cases found : bucketAt map next with
    | empty => exact onward (by rw [found]; intro k other no; cases no)
    | tombstone => exact onward (by rw [found]; intro k other no; cases no)
    | occupied key stored =>
      rw [found] at there
      exact .inl ⟨next, key, stored, le_refl _, inside, there, by omega, rfl⟩

structure Walk (World V : Type) where
  map : ProvenMap World V
  world : World
  it : ProvenMapIter

inductive WalkCall (World V : Type) where
  | change (call : MapCall World V)
  | next

inductive WalkAnswer (V : Type) where
  | changed (answer : MapAnswer V)
  | next (result : Except ProvenErr (MapKey × V))
  deriving DecidableEq

def walkStep : WalkCall World V → Walk World V → WalkAnswer V × Walk World V
  | .change call, walk =>
    (.changed (mapStep call (walk.map, walk.world)).1,
      ⟨(mapStep call (walk.map, walk.world)).2.1, (mapStep call (walk.map, walk.world)).2.2, walk.it⟩)
  | .next, walk =>
    (.next (provenMapIterNext walk.map walk.it).1, { walk with it := (provenMapIterNext walk.map walk.it).2 })

def startWalk (map : ProvenMap World V) (world : World) : Walk World V := ⟨map, world, provenMapIterInit map⟩

def walked (start : Walk World V) (calls : List (WalkCall World V)) : Walk World V := (replay walkStep calls start).2

def answered (start : Walk World V) (calls : List (WalkCall World V)) : List (WalkAnswer V) :=
  (replay walkStep calls start).1

/-- The entry under `key` is returned. -/
def returns (key : MapKey) : WalkAnswer V → Bool
  | .next (.ok (k, _)) => decide (k = key)
  | _ => false

def Live (map : ProvenMap World V) (key : MapKey) : Prop := ∃ value, Maps map key value

def RehashedSince (start walk : Walk World V) : Prop := walk.map.arrays ≠ start.map.arrays

/-- What a walk promises whatever happens to the map meanwhile: until a rehash an entry that stays
is returned once, only what is in the map is returned, and after a rehash the walk is refused. -/
structure WalkSafe (start : Walk World V) (calls : List (WalkCall World V)) : Prop where
  atMostOnce : ∀ key, (∀ n, Live (walked start (calls.take n)).map key) → ¬ RehashedSince start (walked start calls) →
    (answered start calls).countP (returns key) ≤ 1
  onceByTheEnd : ∀ key, (∀ n, Live (walked start (calls.take n)).map key) →
    ¬ RehashedSince start (walked start calls) → WalkAnswer.next (.error .eof) ∈ answered start calls →
    (answered start calls).countP (returns key) = 1
  current : ∀ (n : Nat) key value, (answered start calls)[n]? = some (.next (.ok (key, value))) →
    Maps (walked start (calls.take n)).map key value
  refused : ∀ n : Nat, calls[n]? = some .next → RehashedSince start (walked start (calls.take n)) →
    (answered start calls)[n]? = some (.next (.error .invalidState))

def ComesBack (start walk : Walk World V) : Prop :=
  walk.map.storage = start.map.storage ∧ walk.map.cap = start.map.cap

def NeverBack (start : Walk World V) (calls : List (WalkCall World V)) : Prop :=
  ∀ n : Nat, calls[n]? = some .next → RehashedSince start (walked start (calls.take n)) →
    ¬ ComesBack start (walked start (calls.take n))

structure OnTheWay (start walk : Walk World V) : Prop where
  sound : Sound walk.map
  storage : walk.it.storage = start.map.storage
  cap : walk.it.cap = start.map.cap
  inside : walk.it.next ≤ start.map.cap
  later : start.map.arrays ≤ walk.map.arrays
  place : walk.map.arrays = start.map.arrays → ComesBack start walk

variable {start walk : Walk World V}

theorem start_on_the_way (sound : Sound map) (world : World) : OnTheWay (startWalk map world) (startWalk map world) :=
  ⟨sound, rfl, rfl, Nat.zero_le _, le_refl _, fun _ => ⟨rfl, rfl⟩⟩

theorem next_in_place (way : OnTheWay start walk) (back : ComesBack start walk) :
    (∃ i key stored, walk.it.next ≤ i ∧ i < walk.map.cap ∧ walk.map.buckets[i]? = some (Slot.occupied key stored) ∧
      (∀ j, walk.it.next ≤ j → j < i → ∀ k other, walk.map.buckets[j]? ≠ some (Slot.occupied k other)) ∧
      provenMapIterNext walk.map walk.it = (.ok (key, stored.value), { walk.it with next := i + 1 })) ∨
    ((∀ j, walk.it.next ≤ j → ∀ k other, walk.map.buckets[j]? ≠ some (Slot.occupied k other)) ∧
      provenMapIterNext walk.map walk.it = (.error .eof, { walk.it with next := walk.map.cap })) := by
  have inside := way.inside
  have same : ¬ (walk.map.storage ≠ walk.it.storage ∨ walk.map.cap ≠ walk.it.cap) := by
    rw [way.storage, way.cap, back.1, back.2]
    intro no
    rcases no with no | no <;> exact no rfl
  unfold provenMapIterNext
  rw [if_neg same, sound_valid way.sound, if_neg (by intro no; cases no)]
  rcases walk_on_finds way.sound (walk.map.cap - walk.it.next) walk.it.next (by rw [back.2]; omega) with
    ⟨i, key, stored, past, insideI, is, between, result⟩ | ⟨nothing, result⟩
  · rw [result]
    exact .inl ⟨i, key, stored, past, insideI, is, between, rfl⟩
  rw [result]
  exact .inr ⟨nothing, rfl⟩

theorem next_elsewhere (way : OnTheWay start walk) (gone : ¬ ComesBack start walk) :
    provenMapIterNext walk.map walk.it = (.error .invalidState, walk.it) := by
  unfold provenMapIterNext
  rw [way.storage, way.cap]
  apply if_pos
  by_contra neither
  push Not at neither
  exact gone neither

theorem on_the_way_step (call : WalkCall World V) (walk : Walk World V) (way : OnTheWay start walk) :
    OnTheWay start (walkStep call walk).2 := by
  cases call with
  | change call =>
    obtain ⟨sound', changed⟩ := call_changes way.sound walk.world call
    have later := way.later
    refine ⟨sound', way.storage, way.cap, way.inside, ?_, fun same => ?_⟩
    · change start.map.arrays ≤ (mapStep call (walk.map, walk.world)).2.1.arrays
      rcases changed with more | ⟨arrays, rest⟩ <;> omega
    change (mapStep call (walk.map, walk.world)).2.1.arrays = start.map.arrays at same
    rcases changed with more | ⟨arrays, storage, cap, kept⟩
    · omega
    obtain ⟨storage', cap'⟩ := way.place (arrays.symm.trans same)
    exact ⟨storage.trans storage', cap.trans cap'⟩
  | next =>
    by_cases back : ComesBack start walk
    · rcases next_in_place way back with ⟨i, key, stored, past, insideI, is, between, result⟩ | ⟨nothing, result⟩
      all_goals simp only [walkStep, result]
      · refine ⟨way.sound, way.storage, way.cap, ?_, way.later, way.place⟩
        rw [← back.2]
        exact insideI
      · exact ⟨way.sound, way.storage, way.cap, le_of_eq back.2, way.later, way.place⟩
    simp only [walkStep, next_elsewhere way back]
    exact way

theorem walked_on_the_way (way : OnTheWay start start) (calls : List (WalkCall World V)) :
    OnTheWay start (walked start calls) :=
  replay_kept (OnTheWay start) on_the_way_step calls start way

theorem walked_last (start : Walk World V) (calls : List (WalkCall World V)) (call : WalkCall World V) :
    walked start (calls ++ [call]) = (walkStep call (walked start calls)).2 := by
  unfold walked
  rw [replay_last]

theorem answered_last (start : Walk World V) (calls : List (WalkCall World V)) (call : WalkCall World V) :
    answered start (calls ++ [call]) = answered start calls ++ [(walkStep call (walked start calls)).1] := by
  unfold answered walked
  rw [replay_last]

theorem arrays_grow (sound : Sound walk.map) (call : WalkCall World V) :
    walk.map.arrays ≤ (walkStep call walk).2.map.arrays := by
  cases call with
  | change call =>
    obtain ⟨sound', changed⟩ := call_changes sound walk.world call
    change walk.map.arrays ≤ (mapStep call (walk.map, walk.world)).2.1.arrays
    rcases changed with more | ⟨arrays, rest⟩ <;> omega
  | next => exact le_refl _

/-- An entry that stays, in bucket `j`, is returned when the walk passes `j`. -/
structure Counted (key : MapKey) (j : Nat) (walk : Walk World V) (answers : List (WalkAnswer V)) : Prop where
  there : ∃ stored, walk.map.buckets[j]? = some (Slot.occupied key stored)
  passed : answers.countP (returns key) = if j < walk.it.next then 1 else 0
  ended : WalkAnswer.next (.error .eof) ∈ answers → walk.it.next = walk.map.cap

theorem counted_step {j : Nat} {answers : List (WalkAnswer V)} (way : OnTheWay start walk)
    (counted : Counted key j walk answers) (call : WalkCall World V) (live : Live (walkStep call walk).2.map key)
    (still : ¬ RehashedSince start (walkStep call walk).2) :
    Counted key j (walkStep call walk).2 (answers ++ [(walkStep call walk).1]) := by
  have grow := arrays_grow way.sound call
  have later := way.later
  have same : (walkStep call walk).2.map.arrays = start.map.arrays := Classical.not_not.mp still
  obtain ⟨stored, there⟩ := counted.there
  cases call with
  | change call =>
    have changed := (call_changes way.sound walk.world call).2
    simp only [walkStep] at same grow live ⊢
    rcases changed with more | ⟨arrays, storage, cap, kept⟩
    · omega
    refine ⟨kept j key stored there live, ?_, fun among => ?_⟩
    · rw [countP_append, counted.passed]
      exact add_zero _
    rcases mem_append.mp among with earlier | now
    · exact (counted.ended earlier).trans cap.symm
    · cases mem_singleton.mp now
  | next =>
    have back : ComesBack start walk := way.place same
    have insideJ : j < walk.map.cap := by
      rw [← way.sound.slots]
      exact (List.getElem?_eq_some_iff.mp there).1
    rcases next_in_place way back with ⟨i, k, other, past, insideI, is, between, result⟩ | ⟨nothing, result⟩
    all_goals simp only [walkStep, result]
    · have place : k = key ↔ j = i := by
        constructor
        all_goals rintro rfl
        · exact way.sound.probed.unique j i k stored other there is
        rw [there] at is
        cases is
        rfl
      have notBetween : walk.it.next ≤ j → i ≤ j := by
        intro pastJ
        by_contra before
        exact between j pastJ (by omega) key stored there
      refine ⟨⟨stored, there⟩, ?_, fun among => ?_⟩
      · rw [countP_append, counted.passed, countP_singleton]
        simp only [returns, decide_eq_true_eq, place]
        by_cases isJ : j = i
        · rw [if_pos isJ, if_neg (by omega), if_pos (by omega)]
        rw [if_neg isJ, add_zero]
        by_cases before : j < walk.it.next
        · rw [if_pos before, if_pos (by omega)]
        · rw [if_neg before, if_neg (by omega)]
      rcases mem_append.mp among with earlier | now
      · have atEnd := counted.ended earlier
        omega
      · cases mem_singleton.mp now
    refine ⟨⟨stored, there⟩, ?_, fun _ => rfl⟩
    have before : j < walk.it.next := by
      by_contra pastJ
      exact nothing j (by omega) key stored there
    rw [countP_append, counted.passed, if_pos before, if_pos insideJ]
    rfl

theorem walk_counts (way : OnTheWay start start) (fresh : start.it.next = 0)
    (calls : List (WalkCall World V)) (live : ∀ n, Live (walked start (calls.take n)).map key)
    (still : ¬ RehashedSince start (walked start calls)) :
    ∃ j, Counted key j (walked start calls) (answered start calls) := by
  induction calls using List.reverseRecOn with
  | nil =>
    obtain ⟨value, copy, j, there⟩ := live 0
    refine ⟨j, ⟨_, there⟩, ?_, fun no => by cases no⟩
    change 0 = if j < start.it.next then 1 else 0
    rw [fresh, if_neg (Nat.not_lt_zero j)]
  | append_singleton calls call ih =>
    have wayHere := walked_on_the_way way calls
    have grow := arrays_grow wayHere.sound call
    have later := wayHere.later
    have liveBefore : ∀ n, Live (walked start (calls.take n)).map key := by
      intro n
      have here := live (min n calls.length)
      rw [take_append_of_le_length (Nat.min_le_right _ _), ← take_eq_take_min] at here
      exact here
    have liveNow := live (calls.length + 1)
    rw [take_of_length_le (by rw [length_append, length_singleton])] at liveNow
    rw [walked_last] at still liveNow
    have stillBefore : ¬ RehashedSince start (walked start calls) := by
      intro rehashed
      apply still
      unfold RehashedSince at rehashed ⊢
      omega
    obtain ⟨j, counted⟩ := ih liveBefore stillBefore
    refine ⟨j, ?_⟩
    rw [walked_last, answered_last]
    exact counted_step wayHere counted call liveNow still

theorem answered_at {n : Nat} {call : WalkCall World V} (calls : List (WalkCall World V)) (there : calls[n]? = some call) :
    (answered start calls)[n]? = some (walkStep call (walked start (calls.take n))).1 :=
  replay_answer calls there start

theorem walk_current (way : OnTheWay start start) (calls : List (WalkCall World V)) {n : Nat} {value : V}
    (returned : (answered start calls)[n]? = some (.next (.ok (key, value)))) :
    Maps (walked start (calls.take n)).map key value := by
  have wayHere := walked_on_the_way way (calls.take n)
  cases called : calls[n]? with
  | none =>
    have beyond : calls.length ≤ n := List.getElem?_eq_none_iff.mp called
    have nothing : (answered start calls)[n]? = none := by
      apply List.getElem?_eq_none_iff.mpr
      unfold answered
      rw [replay_length]
      exact beyond
    rw [nothing] at returned
    cases returned
  | some call =>
    rw [answered_at calls called] at returned
    cases call with
    | change call => cases returned
    | next =>
      by_cases back : ComesBack start (walked start (calls.take n))
      · rcases next_in_place wayHere back with ⟨i, k, stored, past, insideI, is, between, result⟩ | ⟨nothing, result⟩
        all_goals simp only [walkStep, result] at returned
        · cases returned
          exact ⟨stored.copy, i, is⟩
        · cases returned
      simp only [walkStep, next_elsewhere wayHere back] at returned
      cases returned

theorem safe_iff_never_back (way : OnTheWay start start) (fresh : start.it.next = 0) (calls : List (WalkCall World V)) :
    WalkSafe start calls ↔ NeverBack start calls := by
  constructor
  · intro safe n called rehashed back
    have refused := safe.refused n called rehashed
    rw [answered_at calls called] at refused
    rcases next_in_place (walked_on_the_way way (calls.take n)) back with
      ⟨i, k, stored, past, insideI, is, between, result⟩ | ⟨nothing, result⟩
    · simp only [walkStep, result] at refused
      cases refused
    simp only [walkStep, result] at refused
    cases refused
  intro never
  refine ⟨fun key live still => ?_, fun key live still ended => ?_, fun n key value => walk_current way calls,
    fun n called rehashed => ?_⟩
  · obtain ⟨j, counted⟩ := walk_counts way fresh calls live still
    rw [counted.passed]
    split <;> omega
  · obtain ⟨j, counted⟩ := walk_counts way fresh calls live still
    obtain ⟨stored, there⟩ := counted.there
    have inside := (List.getElem?_eq_some_iff.mp there).1
    rw [(walked_on_the_way way calls).sound.slots] at inside
    rw [counted.passed, counted.ended ended, if_pos inside]
  rw [answered_at calls called]
  simp only [walkStep, next_elsewhere (walked_on_the_way way (calls.take n)) (never n called rehashed)]

def alternating : Allocator Nat := ⟨fun turn _ _ => (.ok (turn % 2 + 1), turn + 1), fun turn _ => turn⟩

def idHash : MapKey → Nat
  | .id id => id
  | .str _ => 0

def churn (first count : Nat) : List (WalkCall Nat Nat) :=
  (List.range count).flatMap fun i => [.change (.set (.id (first + i)) 0 false), .change (.remove (.id (first + i)))]

def smallMap : ProvenMap Nat Nat :=
  { alloc := alternating, storage := 1, storageSize := 256, buckets := List.replicate 8 .empty, len := 0, used := 0
    cap := 8, elemSize := 8, align := 8, bucketStride := 32, payloadOffset := 24, keyType := .int, hash := idHash
    arrays := 0 }

/-- Twelve keys set and removed make the map rehash twice into arrays of eight buckets, and the
walk goes on in the second of them, at the address of the first. -/
def churned : List (WalkCall Nat Nat) := churn 0 13 ++ [.next]

end ProvenC.Map.Walking

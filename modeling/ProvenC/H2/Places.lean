import ProvenC.Lib.Runs

/-!
# The stream table and its map

The streams are not in order, so a map names the place of a stream by its number. A stream whose slot is taken is
marked and found by walking the table.
-/

namespace ProvenC.H2.Places

open Lib.Runs

variable {State : Type}

/-- A stream at its place: its number, the mark `ST_UNMAPPED`, and the rest of it. -/
structure Placed (State : Type) where
  id : Nat
  unmapped : Bool
  state : State

structure StreamTable (State : Type) where
  streams : List (Placed State)
  cap : Nat
  map : Nat → Nat
  mapMask : Nat
  unmapped : Nat

def noStreams : StreamTable State := ⟨[], 0, fun _ => 0, 0, 0⟩

def StreamTable.slot (t : StreamTable State) (id : Nat) : Nat := (id >>> 1) &&& t.mapMask

def h2cPeek (t : StreamTable State) (id : Nat) : Option Nat :=
  if t.streams.length = 0 then none
  else if t.map (t.slot id) ≠ 0 ∧ (t.streams[t.map (t.slot id) - 1]?).any (·.id = id) then some (t.map (t.slot id) - 1)
  else if t.unmapped = 0 then none
  else t.streams.findIdx? (·.id = id)

/-- A stream at the next place, entered by `h2c_map`. -/
def h2cMap (t : StreamTable State) (s : Placed State) : StreamTable State :=
  if t.map (t.slot s.id) = 0 then
    { t with
      streams := t.streams ++ [{ s with unmapped := false }]
      map := Function.update t.map (t.slot s.id) (t.streams.length + 1) }
  else { t with streams := t.streams ++ [{ s with unmapped := true }], unmapped := t.unmapped + 1 }

/-- At least two slots for every place, in up to `doublings` doublings. -/
def slotsFor (cap : Nat) : Nat → Nat → Nat
  | 0, slots => slots
  | doublings + 1, slots => if slots / 2 < cap ∧ slots < 2 ^ 30 then slotsFor cap doublings (slots * 2) else slots

/-- The place is made for all the streams again when the table grows; `granted` is the allocator's answer. -/
def h2cAdd (cfgStreams : Nat) (granted : Bool) (t : StreamTable State) (id : Nat) (state : State) : Option (StreamTable State) :=
  if t.streams.length = t.cap then
    let cap := min (if t.cap ≠ 0 then t.cap * 2 % 2 ^ 32 else 4) cfgStreams
    if cap ≤ t.cap ∨ granted = false then none
    else some (h2cMap (t.streams.foldl h2cMap ⟨[], cap, fun _ => 0, slotsFor cap 27 8 - 1, 0⟩) ⟨id, false, state⟩)
  else some (h2cMap t ⟨id, false, state⟩)

def h2cRemove (t : StreamTable State) (place : Nat) : StreamTable State :=
  match t.streams[place]?, t.streams.getLast? with
  | some s, some last =>
    let t := if s.unmapped then { t with unmapped := t.unmapped - 1 } else { t with map := Function.update t.map (t.slot s.id) 0 }
    let t' := { t with streams := t.streams.dropLast }
    if place = t'.streams.length then t'
    else
      { t' with
        streams := t'.streams.set place last
        map := if last.unmapped then t.map else Function.update t.map (t.slot last.id) (place + 1) }
  | _, _ => t

inductive TableStep (State : Type) where
  | opens (granted : Bool) (id : Nat) (state : State)
  | removes (place : Nat)
  | frees

def tableNext (cfgStreams : Nat) (t : StreamTable State) : TableStep State → StreamTable State
  | .opens granted id state => if (h2cPeek t id).isSome then t else (h2cAdd cfgStreams granted t id state).getD t
  | .removes place => h2cRemove t place
  | .frees => if t.streams = [] then noStreams else t

/-- What the map knows: a stream that is not marked is the one its slot names, and a slot names such a stream. -/
structure Mapped (t : StreamTable State) : Prop where
  named : ∀ i s, t.streams[i]? = some s → s.unmapped = false → t.map (t.slot s.id) = i + 1
  known : ∀ k i, t.map k = i + 1 → ∃ s, t.streams[i]? = some s ∧ s.unmapped = false ∧ t.slot s.id = k
  counted : t.unmapped = t.streams.countP (·.unmapped)

theorem mapped_none (cap mask : Nat) : Mapped (⟨[], cap, fun _ => 0, mask, 0⟩ : StreamTable State) :=
  ⟨fun _ _ isAt => (by cases isAt), fun _ _ names => (by cases names), rfl⟩

theorem mapped_enter {t : StreamTable State} (mapped : Mapped t) (s : Placed State) : Mapped (h2cMap t s) := by
  have atEnd {i : Nat} {s' last : Placed State} (isAt : (t.streams ++ [last])[i]? = some s') :
      t.streams[i]? = some s' ∧ i < t.streams.length ∨ i = t.streams.length ∧ s' = last := by
    rw [List.getElem?_append] at isAt
    split_ifs at isAt with inside
    · exact Or.inl ⟨isAt, inside⟩
    rw [List.getElem?_singleton] at isAt
    split_ifs at isAt with zero
    exact Or.inr ⟨by omega, (Option.some.inj isAt).symm⟩
  have earlier {i : Nat} {s' : Placed State} (last : Placed State) (isAt : t.streams[i]? = some s') :
      (t.streams ++ [last])[i]? = some s' := by
    rw [List.getElem?_append_left (List.getElem?_eq_some_iff.mp isAt).1]
    exact isAt
  unfold h2cMap
  by_cases free : t.map (t.slot s.id) = 0
  · rw [if_pos free]
    refine ⟨fun i s' isAt unmarked => ?_, fun k i names => ?_, ?_⟩
    · change Function.update t.map (t.slot s.id) (t.streams.length + 1) (t.slot s'.id) = i + 1
      rcases atEnd isAt with ⟨before, -⟩ | ⟨rfl, rfl⟩
      · have named := mapped.named i s' before unmarked
        rw [Function.update_of_ne fun same => by rw [same, free] at named; cases named]
        exact named
      · exact Function.update_self ..
    · change Function.update t.map (t.slot s.id) (t.streams.length + 1) k = i + 1 at names
      by_cases own : k = t.slot s.id
      · rw [own, Function.update_self] at names
        obtain rfl : t.streams.length = i := by omega
        exact ⟨{ s with unmapped := false }, List.getElem?_concat_length .., rfl, own.symm⟩
      rw [Function.update_of_ne own] at names
      obtain ⟨s', isAt, rest⟩ := mapped.known k i names
      exact ⟨s', earlier _ isAt, rest⟩
    rw [List.countP_append, mapped.counted]
    rfl
  rw [if_neg free]
  refine ⟨fun i s' isAt unmarked => ?_, fun k i names => ?_, ?_⟩
  · rcases atEnd isAt with ⟨before, -⟩ | ⟨rfl, rfl⟩
    · exact mapped.named i s' before unmarked
    · cases unmarked
  · obtain ⟨s', isAt, rest⟩ := mapped.known k i names
    exact ⟨s', earlier _ isAt, rest⟩
  rw [List.countP_append, mapped.counted]
  rfl

theorem mapped_all (streams : List (Placed State)) {t : StreamTable State} (mapped : Mapped t) : Mapped (streams.foldl h2cMap t) := by
  induction streams generalizing t with
  | nil => exact mapped
  | cons s streams ih => exact ih (mapped_enter mapped s)

def StreamTable.opened (t : StreamTable State) : List (Nat × State) := t.streams.map fun s => (s.id, s.state)

theorem opened_enter (t : StreamTable State) (s : Placed State) : (h2cMap t s).opened = t.opened ++ [(s.id, s.state)] := by
  unfold h2cMap StreamTable.opened
  split_ifs <;> exact List.map_append

theorem opened_all (streams : List (Placed State)) (t : StreamTable State) :
    (streams.foldl h2cMap t).opened = t.opened ++ streams.map fun s => (s.id, s.state) := by
  induction streams generalizing t with
  | nil => exact (List.append_nil _).symm
  | cons s streams ih => rw [List.foldl_cons, ih, opened_enter, List.append_assoc, List.map_cons, List.singleton_append]

theorem add_spec {cfgStreams : Nat} {granted : Bool} {t t' : StreamTable State} {id : Nat} {state : State} (mapped : Mapped t)
    (added : h2cAdd cfgStreams granted t id state = some t') : Mapped t' ∧ t'.opened = t.opened ++ [(id, state)] := by
  unfold h2cAdd at added
  dsimp only at added
  by_cases full : t.streams.length = t.cap
  · rw [if_pos full] at added
    split_ifs at added
    all_goals
      cases added
      refine ⟨mapped_enter (mapped_all _ (mapped_none _ _)) _, ?_⟩
      rw [opened_enter, opened_all]
      rfl
  rw [if_neg full] at added
  cases added
  exact ⟨mapped_enter mapped _, opened_enter t _⟩

theorem peek_some {t : StreamTable State} {id i : Nat} (found : h2cPeek t id = some i) : ∃ s, t.streams[i]? = some s ∧ s.id = id := by
  unfold h2cPeek at found
  split_ifs at found with none mapped walked
  · obtain rfl := Option.some.inj found
    cases isAt : t.streams[t.map (t.slot id) - 1]? with
    | none =>
      rw [isAt] at mapped
      cases mapped.2
    | some s =>
      rw [isAt] at mapped
      exact ⟨s, rfl, of_decide_eq_true mapped.2⟩
  obtain ⟨inside, same, -⟩ := List.findIdx?_eq_some_iff_getElem.mp found
  exact ⟨_, List.getElem?_eq_getElem inside, of_decide_eq_true same⟩

theorem peek_none {t : StreamTable State} (mapped : Mapped t) {id : Nat} (found : h2cPeek t id = none) (s : Placed State)
    (isOpen : s ∈ t.streams) : s.id ≠ id := by
  rintro rfl
  unfold h2cPeek at found
  split_ifs at found with none names walked
  · rw [List.length_eq_zero_iff.mp none] at isOpen
    cases isOpen
  · obtain ⟨i, inside, isAt⟩ := List.getElem_of_mem isOpen
    rw [mapped.counted, List.countP_eq_zero] at walked
    have isAt' : t.streams[i]? = some s := isAt ▸ List.getElem?_eq_getElem inside
    have named := mapped.named i s isAt' (by simpa using walked s isOpen)
    rw [named] at names
    refine names ⟨Nat.succ_ne_zero i, ?_⟩
    rw [Nat.add_sub_cancel, isAt']
    exact decide_eq_true rfl
  · exact absurd (List.findIdx?_eq_none_iff.mp found s isOpen) (by simp)

theorem remove_nothing {t : StreamTable State} {place : Nat} (isAt : t.streams[place]? = none) : h2cRemove t place = t := by
  unfold h2cRemove
  rw [isAt]

theorem remove_eq {t : StreamTable State} {front : List (Placed State)} {last s : Placed State} {place : Nat}
    (shape : t.streams = front ++ [last]) (isAt : t.streams[place]? = some s) :
    h2cRemove t place =
      { t with
        streams := if place = front.length then front else front.set place last
        map :=
          let map := if s.unmapped then t.map else Function.update t.map (t.slot s.id) 0
          if place = front.length ∨ last.unmapped then map else Function.update map (t.slot last.id) (place + 1)
        unmapped := if s.unmapped then t.unmapped - 1 else t.unmapped } := by
  unfold h2cRemove
  rw [isAt, shape, List.getLast?_concat]
  dsimp only
  cases marked : s.unmapped <;> by_cases isLast : place = front.length <;> cases lastMarked : last.unmapped <;>
    simp [isLast, StreamTable.slot]

theorem last_of {streams : List (Placed State)} {place : Nat} {s : Placed State} (isAt : streams[place]? = some s) :
    ∃ front last, streams = front ++ [last] := by
  rcases List.eq_nil_or_concat streams with nil | ⟨front, last, shape⟩
  · rw [nil] at isAt
    cases isAt
  · exact ⟨front, last, shape.trans List.concat_eq_append⟩

theorem remove_perm {t : StreamTable State} {s : Placed State} {place : Nat} (isAt : t.streams[place]? = some s) :
    t.streams.Perm (s :: (h2cRemove t place).streams) := by
  obtain ⟨front, last, shape⟩ := last_of isAt
  rw [remove_eq shape isAt]
  dsimp only
  rw [shape] at isAt ⊢
  split_ifs with isLast
  · rw [isLast, List.getElem?_concat_length] at isAt
    rw [Option.some.inj isAt]
    exact List.perm_append_singleton s front
  obtain ⟨inside, same⟩ := List.getElem?_eq_some_iff.mp isAt
  rw [List.length_append] at inside
  have within : place < front.length := by
    change place < front.length + 1 at inside
    omega
  rw [List.getElem_append_left within] at same
  have parts := (List.getElem_cons_eraseIdx_perm within).symm
  rw [same] at parts
  refine (List.perm_append_singleton last front).trans ?_
  refine ((parts.cons last).trans (List.Perm.swap s last _)).trans ?_
  exact (List.set_perm_cons_eraseIdx within last).symm.cons s

section Removing

variable {t : StreamTable State} {front : List (Placed State)} {last s : Placed State} {place : Nat}
  (shape : t.streams = front ++ [last]) (isAt : t.streams[place]? = some s)

include shape isAt

theorem place_within : place ≤ front.length := by
  have inside := (List.getElem?_eq_some_iff.mp isAt).1
  rw [shape, List.length_append] at inside
  exact Nat.le_of_lt_succ inside

theorem remove_at {i : Nat} {s' : Placed State} : (h2cRemove t place).streams[i]? = some s' ↔
    i < front.length ∧ if i = place then s' = last else t.streams[i]? = some s' := by
  have within := place_within shape isAt
  rw [remove_eq shape isAt]
  dsimp only
  by_cases inside : i < front.length
  · rw [shape, List.getElem?_append_left inside]
    by_cases isLast : place = front.length
    · rw [if_pos isLast, if_neg (by omega)]
      exact ⟨fun at_ => ⟨inside, at_⟩, And.right⟩
    rw [if_neg isLast, List.getElem?_set]
    by_cases own : place = i
    · rw [if_pos own, if_pos own.symm, if_pos (by omega)]
      exact ⟨fun at_ => ⟨inside, (Option.some.inj at_).symm⟩, fun both => congrArg some both.2.symm⟩
    rw [if_neg own, if_neg (Ne.symm own)]
    exact ⟨fun at_ => ⟨inside, at_⟩, And.right⟩
  refine ⟨fun at_ => ?_, fun both => absurd both.1 inside⟩
  have inside' := (List.getElem?_eq_some_iff.mp at_).1
  split_ifs at inside'
  · exact absurd inside' inside
  rw [List.length_set] at inside'
  exact absurd inside' inside

theorem remove_map (k : Nat) : (h2cRemove t place).map k =
    if place ≠ front.length ∧ last.unmapped = false ∧ k = t.slot last.id then place + 1
    else if s.unmapped = false ∧ k = t.slot s.id then 0 else t.map k := by
  rw [remove_eq shape isAt]
  cases s.unmapped <;> cases last.unmapped <;> by_cases isLast : place = front.length <;>
    simp [isLast, Function.update_apply]

theorem remove_known (mapped : Mapped t) (k i : Nat) (names : (h2cRemove t place).map k = i + 1) :
    ∃ s', (h2cRemove t place).streams[i]? = some s' ∧ s'.unmapped = false ∧ t.slot s'.id = k := by
  have within := place_within shape isAt
  rw [remove_map shape isAt] at names
  split_ifs at names with moved cleared
  · obtain rfl : place = i := by omega
    exact ⟨last, (remove_at shape isAt).mpr ⟨by omega, by rw [if_pos rfl]⟩, moved.2.1, moved.2.2.symm⟩
  obtain ⟨s', isAt', unmarked, same⟩ := mapped.known k i names
  have inside := (List.getElem?_eq_some_iff.mp isAt').1
  rw [shape, List.length_append] at inside
  have other : i ≠ place := by
    rintro rfl
    obtain rfl := Option.some.inj (isAt.symm.trans isAt')
    exact cleared ⟨unmarked, same.symm⟩
  have before : i ≠ front.length := by
    rintro rfl
    rw [shape, List.getElem?_concat_length] at isAt'
    obtain rfl := Option.some.inj isAt'
    exact moved ⟨other.symm, unmarked, same.symm⟩
  refine ⟨s', (remove_at shape isAt).mpr ⟨?_, by rw [if_neg other]; exact isAt'⟩, unmarked, same⟩
  change i < front.length + 1 at inside
  omega

theorem remove_named (mapped : Mapped t) (i : Nat) (s' : Placed State) (isAt' : (h2cRemove t place).streams[i]? = some s')
    (unmarked : s'.unmapped = false) : (h2cRemove t place).map (t.slot s'.id) = i + 1 := by
  have atLast : t.streams[front.length]? = some last := by rw [shape, List.getElem?_concat_length]
  obtain ⟨inside, here⟩ := (remove_at shape isAt).mp isAt'
  rw [remove_map shape isAt]
  split_ifs at here with own
  · subst here own
    rw [if_pos ⟨Nat.ne_of_lt inside, unmarked, rfl⟩]
  have named := mapped.named i s' here unmarked
  rw [if_neg, if_neg, named]
  · rintro ⟨marked, same⟩
    rw [same, mapped.named _ _ isAt marked] at named
    omega
  rintro ⟨-, marked, same⟩
  rw [same, mapped.named _ _ atLast marked] at named
  omega

end Removing

theorem remove_mapped {t : StreamTable State} (mapped : Mapped t) (place : Nat) : Mapped (h2cRemove t place) := by
  cases isAt : t.streams[place]? with
  | none => exact (remove_nothing isAt).symm ▸ mapped
  | some s =>
    obtain ⟨front, last, shape⟩ := last_of isAt
    have same (id : Nat) : (h2cRemove t place).slot id = t.slot id := by
      rw [remove_eq shape isAt]
      rfl
    refine ⟨fun i s' isAt' unmarked => ?_, fun k i names => ?_, ?_⟩
    · rw [same]
      exact remove_named shape isAt mapped i s' isAt' unmarked
    · obtain ⟨s', here⟩ := remove_known shape isAt mapped k i names
      exact ⟨s', by rw [same]; exact here⟩
    have count := (remove_perm isAt).countP_eq (·.unmapped)
    rw [← mapped.counted, List.countP_cons] at count
    rw [remove_eq shape isAt] at count ⊢
    dsimp only at count ⊢
    split_ifs at count ⊢ <;> omega

structure SoundTable (t : StreamTable State) : Prop where
  mapped : Mapped t
  distinct : (t.opened.map Prod.fst).Nodup

theorem sound_next (cfgStreams : Nat) (t : StreamTable State) (step : TableStep State) (sound : SoundTable t) :
    SoundTable (tableNext cfgStreams t step) := by
  cases step with
  | opens granted id state =>
    unfold tableNext
    dsimp only
    cases found : h2cPeek t id with
    | some i => exact sound
    | none =>
      cases added : h2cAdd cfgStreams granted t id state with
      | none => exact sound
      | some t' =>
        obtain ⟨mapped, opened⟩ := add_spec sound.mapped added
        refine ⟨mapped, ?_⟩
        change (t'.opened.map Prod.fst).Nodup
        rw [opened, List.map_append, List.map_singleton, List.nodup_append_comm, List.singleton_append, List.nodup_cons]
        refine ⟨fun among => ?_, sound.distinct⟩
        unfold StreamTable.opened at among
        rw [List.map_map] at among
        obtain ⟨s, isOpen, same⟩ := List.mem_map.mp among
        exact peek_none sound.mapped found s isOpen same
  | removes place =>
    refine ⟨remove_mapped sound.mapped place, ?_⟩
    change ((h2cRemove t place).opened.map Prod.fst).Nodup
    cases isAt : t.streams[place]? with
    | none => exact (remove_nothing isAt).symm ▸ sound.distinct
    | some s =>
      have parts := ((remove_perm isAt).map fun s => (s.id, s.state)).map Prod.fst
      exact (List.nodup_cons.mp (parts.nodup_iff.mp sound.distinct)).2
  | frees =>
    unfold tableNext
    dsimp only
    split_ifs
    · exact ⟨mapped_none 0 0, List.nodup_nil⟩
    · exact sound

theorem peek_iff {t : StreamTable State} (sound : SoundTable t) (id i : Nat) :
    h2cPeek t id = some i ↔ ∃ s, t.streams[i]? = some s ∧ s.id = id := by
  refine ⟨peek_some, ?_⟩
  rintro ⟨s, isAt, same⟩
  cases found : h2cPeek t id with
  | none => exact absurd same (peek_none sound.mapped found s (List.mem_of_getElem? isAt))
  | some j =>
    obtain ⟨s', isAt', same'⟩ := peek_some found
    have number {k : Nat} {s : Placed State} (at_ : t.streams[k]? = some s) : (t.opened.map Prod.fst)[k]? = some s.id := by
      unfold StreamTable.opened
      rw [List.getElem?_map, List.getElem?_map, at_]
      rfl
    have inside := (List.getElem?_eq_some_iff.mp (number isAt')).1
    have one := (List.getElem?_inj inside sound.distinct).mp ((number isAt').trans (by rw [number isAt, same, same']))
    rw [one]

/-- Over every run a stream is found by its number exactly when it is open, the map and the count of the marked
streams are exact, and an opening or a removal keeps every other stream, the last one moved. -/
theorem table_holds (cfgStreams : Nat) (steps : List (TableStep State)) :
    let t := run (tableNext cfgStreams) noStreams steps
    (∀ id i, h2cPeek t id = some i ↔ ∃ s, t.streams[i]? = some s ∧ s.id = id) ∧
      (∀ i s, t.streams[i]? = some s → s.unmapped = false → t.map (t.slot s.id) = i + 1) ∧
      t.unmapped = t.streams.countP (·.unmapped) ∧ (∀ k, t.map k ≤ t.streams.length) ∧
      (∀ granted id state t', h2cAdd cfgStreams granted t id state = some t' → t'.opened = t.opened ++ [(id, state)]) ∧
      ∀ place s, t.streams[place]? = some s →
        t.opened.Perm ((s.id, s.state) :: (h2cRemove t place).opened) ∧
          ∀ i < t.streams.length - 1, (h2cRemove t place).streams[i]? =
            t.streams[if i = place then t.streams.length - 1 else i]? := by
  have sound := run_invariant (sound_next cfgStreams) (⟨mapped_none 0 0, List.nodup_nil⟩ : SoundTable (noStreams : StreamTable State)) steps
  generalize run (tableNext cfgStreams) noStreams steps = t at sound
  refine ⟨peek_iff sound, sound.mapped.named, sound.mapped.counted, fun k => ?_, fun _ _ _ _ added => (add_spec sound.mapped added).2,
    fun place s isAt => ⟨(remove_perm isAt).map _, fun i inside => ?_⟩⟩
  · cases names : t.map k with
    | zero => exact Nat.zero_le _
    | succ i =>
      obtain ⟨s, isAt, _⟩ := sound.mapped.known k i names
      exact (List.getElem?_eq_some_iff.mp isAt).1
  obtain ⟨front, last, shape⟩ := last_of isAt
  have length : t.streams.length - 1 = front.length := by rw [shape, List.length_append]; rfl
  rw [length] at inside ⊢
  split_ifs with own
  · rw [(remove_at shape isAt).mpr ⟨inside, by rw [if_pos own]⟩, shape, List.getElem?_concat_length]
  have here := List.getElem?_eq_getElem (show i < t.streams.length by omega)
  rw [(remove_at shape isAt).mpr ⟨inside, by rw [if_neg own]; exact here⟩, here]

end ProvenC.H2.Places

import ProvenC.Hpack.Table
import ProvenC.Lib.Circle

/-!
# The dynamic table in memory

One allocation: an array of entries used as a ring, and behind it the bytes of the names and values,
appended in order and moved to the front when the tail is reached.
-/

namespace ProvenC.Hpack.Arena

open List Bytes Lib.Cells Lib.Circle Lib.Fifo
open Hpack.Table (Field hpackEntryOverhead fieldSize)

structure HpEntry where
  place : Nat
  nameLen : Nat
  valueLen : Nat
  deriving DecidableEq, Repr

structure Memory where
  entries : Nat → HpEntry
  bytes : Nat → Byte

/-- `proven_hp_table_t`; `made`: there is memory. -/
structure HpArena where
  made : Bool
  memory : Memory
  slots : Nat
  cap : Nat
  head : Nat
  count : Nat
  lo : Nat
  hi : Nat
  size : Nat
  max : Nat

def emptyArena (max : Nat) : HpArena :=
  { made := false, memory := ⟨fun _ => ⟨0, 0, 0⟩, fun _ => 0⟩, slots := 0, cap := 0, head := 0, count := 0, lo := 0, hi := 0
    size := 0, max := max }

def hpTableFree (t : HpArena) : HpArena := { emptyArena t.max with memory := t.memory }

/-- `hp_at`: index 0 is the newest. -/
def hpAt (t : HpArena) (newestFirst : Nat) : HpEntry :=
  let place := t.head + t.count - 1 - newestFirst
  t.memory.entries (if t.slots ≤ place then place - t.slots else place)

def hpName (t : HpArena) (e : HpEntry) : List Byte := range t.memory.bytes e.place e.nameLen
def hpValue (t : HpArena) (e : HpEntry) : List Byte := range t.memory.bytes (e.place + e.nameLen) e.valueLen

def hpEvictOne (t : HpArena) : HpArena :=
  let e := t.memory.entries t.head
  let t := { t with
    size := t.size - (e.nameLen + e.valueLen + hpackEntryOverhead)
    lo := e.place + e.nameLen + e.valueLen
    head := (t.head + 1) % t.slots
    count := t.count - 1 }
  if t.count = 0 then { t with lo := 0, hi := 0, head := 0 } else t

/-- The loop of `hp_table_shrink_to`, which evicts at most as often as there are entries. -/
def evictAbove (max : Nat) : Nat → HpArena → HpArena
  | 0, t => t
  | left + 1, t => if 0 < t.count ∧ max < t.size then evictAbove max left (hpEvictOne t) else t

def hpTableShrinkTo (t : HpArena) (max : Nat) : HpArena :=
  let t := evictAbove max t.count t
  if t.count = 0 ∧ t.max = 0 then hpTableFree t else t

/-- Doubled until it is `want` or more. -/
def doubledTo (want : Nat) : Nat → Nat → Nat
  | 0, n => n
  | left + 1, n => if n < want then doubledTo want left (n * 2) else n

/-- A measure of the table that has to be `want`: as it is, or doubled from at least `first` and no more than `top`. -/
def grownTo (have_ want first top : Nat) : Nat :=
  if have_ < want then min (doubledTo want want (if have_ = 0 then first else have_)) top else have_

def topSlots (t : HpArena) : Nat := t.max / hpackEntryOverhead + 1

def wantedSlots (t : HpArena) (addSlots : Nat) : Nat := min (t.count + addSlots) (topSlots t)

def wantedBytes (t : HpArena) (addBytes : Nat) : Nat := min (t.hi - t.lo + addBytes) t.max

/-- The first `n` entries and their bytes, copied to the front of other memory; and the bytes there are. -/
def repacked (t : HpArena) (fresh : Memory) : Nat → Memory × Nat
  | 0 => (fresh, 0)
  | n + 1 =>
    let (memory, place) := repacked t fresh n
    let e := t.memory.entries ((t.head + n) % t.slots)
    ({ entries := stored memory.entries n { e with place := place }
       bytes := storedAll memory.bytes place (range t.memory.bytes e.place (e.nameLen + e.valueLen)) },
      place + (e.nameLen + e.valueLen))

/-- `hp_table_room`; `outcome` is what the allocator gives where it is asked. -/
def hpTableRoom (t : HpArena) (addSlots addBytes : Nat) (outcome : Option Memory) : Option HpArena :=
  let slots := grownTo t.slots (wantedSlots t addSlots) 8 (topSlots t)
  let cap := grownTo t.cap (wantedBytes t addBytes) 256 t.max
  if t.made ∧ slots = t.slots ∧ cap = t.cap then some t
  else if 2 ^ 30 < t.max then none
  else
    match outcome with
    | none => none
    | some fresh =>
      let (memory, place) := repacked t fresh t.count
      some { t with made := true, memory := memory, slots := slots, cap := cap, head := 0, lo := 0, hi := place }

/-- The places of the first `n` entries, `lo` lower. -/
def lowered (t : HpArena) : Nat → Nat → HpEntry
  | 0 => t.memory.entries
  | n + 1 =>
    let entries := lowered t n
    let at_ := (t.head + n) % t.slots
    stored entries at_ { entries at_ with place := (entries at_).place - t.lo }

def compacted (t : HpArena) : HpArena :=
  { t with
    memory := { entries := lowered t t.count, bytes := copiedUp t.memory.bytes 0 t.lo (t.hi - t.lo) }
    lo := 0
    hi := t.hi - t.lo }

def appended (t : HpArena) (name value : List Byte) : HpArena :=
  { t with
    memory := {
      entries := stored t.memory.entries ((t.head + t.count) % t.slots) ⟨t.hi, name.length, value.length⟩
      bytes := storedAll (storedAll t.memory.bytes t.hi name) (t.hi + name.length) value }
    hi := t.hi + (name.length + value.length)
    count := t.count + 1
    size := t.size + (name.length + value.length + hpackEntryOverhead) }

/-- `hp_table_add`, and whether it had memory. -/
def hpTableAdd (t : HpArena) (name value : List Byte) (outcome : Option Memory) : HpArena × Bool :=
  let need := name.length + value.length + hpackEntryOverhead
  if t.max < need then (hpTableShrinkTo t 0, true)
  else
    let t := hpTableShrinkTo t (t.max - need)
    match hpTableRoom t 1 (name.length + value.length) outcome with
    | none => (t, false)
    | some t =>
      (appended (if t.cap - t.hi < name.length + value.length then compacted t else t) name value, true)

def textOf (field : Field) : List Byte := field.name ++ field.value

def texts (queue : List Field) : List Byte := (queue.map textOf).flatten

/-- The entries of a queue whose bytes begin at `place`. -/
def laidOut : Nat → List Field → List HpEntry
  | _, [] => []
  | place, field :: rest =>
    ⟨place, field.name.length, field.value.length⟩ :: laidOut (place + (textOf field).length) rest

@[simp] theorem texts_nil : texts [] = [] := rfl

@[simp] theorem texts_cons (field : Field) (rest : List Field) : texts (field :: rest) = textOf field ++ texts rest := rfl

@[simp] theorem texts_append (front back : List Field) : texts (front ++ back) = texts front ++ texts back := by
  rw [texts, map_append, flatten_append]
  rfl

theorem text_length (field : Field) : (textOf field).length = field.name.length + field.value.length := length_append

theorem field_size_text (field : Field) : fieldSize field = (textOf field).length + hpackEntryOverhead := by
  rw [text_length]
  rfl

theorem total_texts (queue : List Field) :
    total fieldSize queue = (texts queue).length + hpackEntryOverhead * queue.length := by
  induction queue with
  | nil => rfl
  | cons field rest ih =>
    rw [total_cons, ih, field_size_text, texts_cons, length_append, length_cons, Nat.mul_succ]
    omega

theorem laid_out_length (place : Nat) (queue : List Field) : (laidOut place queue).length = queue.length := by
  induction queue generalizing place with
  | nil => rfl
  | cons field rest ih => rw [laidOut, length_cons, length_cons, ih]

theorem laid_out_append (place : Nat) (front back : List Field) :
    laidOut place (front ++ back) = laidOut place front ++ laidOut (place + (texts front).length) back := by
  induction front generalizing place with
  | nil => rfl
  | cons field rest ih =>
    rw [cons_append, laidOut, laidOut, ih, cons_append, texts_cons, length_append, add_assoc]

/-- The ring and the bytes hold `queue`, oldest first. -/
structure Holds (t : HpArena) (queue : List Field) : Prop where
  ring : around t.memory.entries t.slots t.head t.count = laidOut t.lo queue
  bytes : range t.memory.bytes t.lo (texts queue).length = texts queue
  span : t.hi = t.lo + (texts queue).length
  within : t.hi ≤ t.cap
  room : t.count ≤ t.slots
  size : t.size = total fieldSize queue
  head : t.head < t.slots ∨ t.slots = 0
  made : t.made = true → 0 < t.slots

variable {t : HpArena} {queue : List Field}

theorem holds_count (holds : Holds t queue) : t.count = queue.length := by
  have length := congrArg List.length holds.ring
  rwa [around_length, laid_out_length] at length

theorem holds_free : Holds (hpTableFree t) [] where
  ring := rfl
  bytes := rfl
  span := rfl
  within := le_refl _
  room := le_refl _
  size := rfl
  head := .inr rfl
  made := nofun

theorem range_texts {bytes : Nat → Byte} {place : Nat} {front back : List Field}
    (held : range bytes place (texts (front ++ back)).length = texts (front ++ back)) :
    range bytes place (texts front).length = texts front ∧
      range bytes (place + (texts front).length) (texts back).length = texts back := by
  rw [texts_append, length_append, range_append] at held
  exact append_inj held (range_length _ _)

theorem oldest_entry {field : Field} {rest : List Field} (holds : Holds t (field :: rest)) :
    t.memory.entries t.head = ⟨t.lo, field.name.length, field.value.length⟩ ∧
      around t.memory.entries t.slots ((t.head + 1) % t.slots) rest.length =
        laidOut (t.lo + (textOf field).length) rest := by
  have count := holds_count holds
  have ring := holds.ring
  have room := holds.room
  rw [length_cons] at count
  rw [count] at ring room
  have head : t.head < t.slots := holds.head.resolve_right (by omega)
  rw [around_front, laidOut, Nat.mod_eq_of_lt head] at ring
  exact cons_eq_cons.mp ring

theorem holds_evict {field : Field} {rest : List Field} (holds : Holds t (field :: rest)) :
    Holds (hpEvictOne t) rest := by
  obtain ⟨oldest, later⟩ := oldest_entry holds
  have count := holds_count holds
  rw [length_cons] at count
  have room := holds.room
  have head : t.head < t.slots := holds.head.resolve_right (by omega)
  have size : t.size = fieldSize field + total fieldSize rest := holds.size
  have left : t.size - (field.name.length + field.value.length + hpackEntryOverhead) = total fieldSize rest := by
    rw [size, show fieldSize field = field.name.length + field.value.length + hpackEntryOverhead from rfl]
    omega
  have place : t.lo + field.name.length + field.value.length = t.lo + (textOf field).length := by
    rw [text_length]
    omega
  unfold hpEvictOne
  simp only [oldest, count, Nat.add_sub_cancel, left, place]
  split
  next last =>
    obtain rfl : rest = [] := length_eq_zero_iff.mp last
    exact ⟨rfl, rfl, rfl, Nat.zero_le _, Nat.zero_le _, rfl, Or.inl (show 0 < t.slots by omega), holds.made⟩
  have apart := (@range_texts _ _ [field] rest holds.bytes).2
  have span := holds.span
  rw [texts_cons, length_append] at span
  refine ⟨later, ?_, ?_, holds.within, ?_, rfl, Or.inl (Nat.mod_lt _ (by omega)), holds.made⟩
  · simpa using apart
  · change t.hi = t.lo + (textOf field).length + (texts rest).length
    omega
  change rest.length ≤ t.slots
  omega

structure Kept (t t' : HpArena) : Prop where
  max : t'.max = t.max
  made : t'.made = t.made
  slots : t'.slots = t.slots
  cap : t'.cap = t.cap

theorem kept_refl (t : HpArena) : Kept t t := ⟨rfl, rfl, rfl, rfl⟩

theorem kept_trans {u v : HpArena} (first : Kept t u) (second : Kept u v) : Kept t v :=
  ⟨second.max.trans first.max, second.made.trans first.made, second.slots.trans first.slots, second.cap.trans first.cap⟩

theorem evict_one_kept (t : HpArena) : Kept t (hpEvictOne t) := by
  unfold hpEvictOne
  simp only
  split
  all_goals exact ⟨rfl, rfl, rfl, rfl⟩

theorem holds_above (max : Nat) (holds : Holds t queue) {left : Nat} (enough : left = queue.length) :
    Holds (evictAbove max left t) (evictTo fieldSize max queue) ∧ Kept t (evictAbove max left t) := by
  induction queue generalizing t left with
  | nil =>
    subst enough
    exact ⟨holds, kept_refl t⟩
  | cons field rest ih =>
    rw [length_cons] at enough
    subst enough
    have count := holds_count holds
    have size := holds.size
    rw [evictAbove, evictTo, ← size]
    by_cases over_ : max < t.size
    · rw [if_pos ⟨by rw [count]; exact Nat.succ_pos _, over_⟩, if_pos over_]
      obtain ⟨held, kept⟩ := ih (holds_evict holds) rfl
      exact ⟨held, kept_trans (evict_one_kept t) kept⟩
    rw [if_neg fun both => over_ both.2, if_neg over_]
    exact ⟨holds, kept_refl t⟩

theorem holds_shrink (max : Nat) (holds : Holds t queue) :
    Holds (hpTableShrinkTo t max) (evictTo fieldSize max queue) ∧ (hpTableShrinkTo t max).max = t.max ∧
      (0 < t.max → Kept t (hpTableShrinkTo t max)) := by
  obtain ⟨held, kept⟩ := holds_above max holds (holds_count holds)
  unfold hpTableShrinkTo
  simp only
  split
  next none_ =>
    have length := holds_count held
    rw [none_.1] at length
    rw [length_eq_zero_iff.mp length.symm]
    refine ⟨holds_free, kept.max, fun some_ => ?_⟩
    have max_ := kept.max
    omega
  · exact ⟨held, kept.max, fun _ => kept⟩

theorem laid_out_get (place : Nat) (front : List Field) (field : Field) (back : List Field) :
    (laidOut place (front ++ field :: back))[front.length]? =
      some ⟨place + (texts front).length, field.name.length, field.value.length⟩ := by
  have length := laid_out_length place front
  rw [laid_out_append, List.getElem?_append_right (by omega), length, tsub_self, laidOut]
  rfl

theorem held_entry {front back : List Field} {field : Field} (holds : Holds t (front ++ field :: back)) :
    t.memory.entries ((t.head + front.length) % t.slots) =
        ⟨t.lo + (texts front).length, field.name.length, field.value.length⟩ ∧
      range t.memory.bytes (t.lo + (texts front).length) (textOf field).length = textOf field := by
  have count := holds_count holds
  rw [length_append, length_cons] at count
  constructor
  · have here := laid_out_get t.lo front field back
    rw [← holds.ring, around_get (by omega)] at here
    exact Option.some.inj here
  have behind := (range_texts holds.bytes).2
  rw [texts_cons] at behind
  rw [length_append, range_append] at behind
  exact (append_inj behind (range_length _ _)).1

theorem doubled_to (want left n : Nat) (some_ : 0 < n) (enough : want ≤ n + left) :
    want ≤ doubledTo want left n ∧ n ≤ doubledTo want left n := by
  induction left generalizing n with
  | zero => exact ⟨by rw [doubledTo]; omega, le_refl _⟩
  | succ left ih =>
    rw [doubledTo]
    split
    · obtain ⟨reaches, grows⟩ := ih (n * 2) (by omega) (by omega)
      exact ⟨reaches, by omega⟩
    · exact ⟨by omega, le_refl _⟩

theorem grown_to {have_ want first top : Nat} (some_ : 0 < first) (within : want ≤ top) :
    have_ ≤ grownTo have_ want first top ∧ want ≤ grownTo have_ want first top := by
  unfold grownTo
  split
  next short =>
    have start : 0 < if have_ = 0 then first else have_ := by
      split
      · exact some_
      · omega
    obtain ⟨reaches, -⟩ := doubled_to want want _ start (Nat.le_add_left _ _)
    have enough : want ≤ min (doubledTo want want (if have_ = 0 then first else have_)) top := Nat.le_min.mpr ⟨reaches, within⟩
    exact ⟨by omega, enough⟩
  · exact ⟨le_refl _, by omega⟩

theorem grown_to_same {have_ want first top : Nat} (enough : want ≤ have_) : grownTo have_ want first top = have_ := by
  unfold grownTo
  rw [if_neg (by omega)]

theorem stored_all_range_before (cells : Nat → Byte) {place n : Nat} (values : List Byte) {before : List Byte}
    (held : range cells 0 place = before) (same : values.length = n) :
    range (storedAll cells place values) 0 (place + n) = before ++ values := by
  subst same
  rw [range_append, zero_add, stored_all_range, ← held]
  congr 1
  refine range_eq fun i inside => ?_
  exact stored_all_outside _ _ _ (.inl (by omega))

theorem repacked_holds {t : HpArena} {queue : List Field} (holds : Holds t queue) (fresh : Memory) {front back : List Field}
    (split : queue = front ++ back) : (repacked t fresh front.length).2 = (texts front).length ∧
      range (repacked t fresh front.length).1.entries 0 front.length = laidOut 0 front ∧
      range (repacked t fresh front.length).1.bytes 0 (texts front).length = texts front := by
  induction front using List.reverseRecOn generalizing back with
  | nil => exact ⟨rfl, rfl, rfl⟩
  | append_singleton front field ih =>
    have whole : queue = front ++ field :: back := by
      rw [split, append_assoc]
      rfl
    obtain ⟨place, entries, bytes⟩ := @ih (field :: back) whole
    obtain ⟨here, text⟩ := held_entry (whole ▸ holds)
    have step : repacked t fresh (front ++ [field]).length =
        ({ entries := stored (repacked t fresh front.length).1.entries front.length
             ⟨(texts front).length, field.name.length, field.value.length⟩
           bytes := storedAll (repacked t fresh front.length).1.bytes (texts front).length (textOf field) },
          (texts front).length + (textOf field).length) := by
      rw [length_append, length_singleton, repacked, here]
      simp only
      rw [place, ← text_length, text]
    have length : (texts (front ++ [field])).length = (texts front).length + (textOf field).length := by
      rw [texts_append, length_append, texts_cons, texts_nil, append_nil]
    rw [step, length]
    refine ⟨rfl, ?_, ?_⟩
    · rw [length_append, length_singleton, range_stored, entries, laid_out_append, zero_add]
      rfl
    · rw [stored_all_range_before _ _ bytes rfl, texts_append, texts_cons, texts_nil, append_nil]

variable {t' : HpArena} {outcome : Option Memory}

theorem holds_room (holds : Holds t queue) {addSlots addBytes : Nat} (some_ : 0 < addSlots) (room : hpTableRoom t addSlots addBytes outcome = some t') :
    Holds t' queue ∧ t'.max = t.max ∧ t'.made = true ∧ wantedSlots t addSlots ≤ t'.slots ∧
      wantedBytes t addBytes ≤ t'.cap := by
  obtain ⟨slotsGrow, slotsReach⟩ := @grown_to t.slots (wantedSlots t addSlots) 8 (topSlots t) (by decide) (Nat.min_le_right _ _)
  obtain ⟨capGrows, capReaches⟩ := @grown_to t.cap (wantedBytes t addBytes) 256 t.max (by decide) (Nat.min_le_right _ _)
  unfold hpTableRoom at room
  simp only at room
  split at room
  next there =>
    cases room
    exact ⟨holds, rfl, there.1, there.2.1 ▸ slotsReach, there.2.2 ▸ capReaches⟩
  split at room
  · cases room
  split at room
  · cases room
  rename_i fresh
  cases room
  obtain ⟨place, entries, bytes⟩ := @repacked_holds t queue holds fresh queue [] (append_nil _).symm
  have count := holds_count holds
  have fits := holds.room
  have within := holds.within
  have span := holds.span
  have one : 1 ≤ wantedSlots t addSlots := Nat.le_min.mpr ⟨by omega, Nat.succ_pos _⟩
  rw [← count] at place entries bytes
  refine ⟨⟨?_, ?_, ?_, ?_, ?_, holds.size, .inl ?_, fun _ => ?_⟩, rfl, rfl, slotsReach, capReaches⟩
  · rw [around_straight (by simp only; omega)]
    exact entries
  · exact bytes
  · simp only [zero_add]
    exact place
  · simp only [place]
    omega
  · simp only
    omega
  · simp only
    omega
  simp only
  omega

theorem room_there {addSlots addBytes : Nat} (made : t.made = true)
    (slots : wantedSlots t addSlots ≤ t.slots) (bytes : wantedBytes t addBytes ≤ t.cap) (outcome : Option Memory) :
    hpTableRoom t addSlots addBytes outcome = some t := by
  unfold hpTableRoom
  simp only [grown_to_same slots, grown_to_same bytes, made]
  rfl

theorem laid_out_lower (lo place : Nat) (queue : List Field) :
    (laidOut (lo + place) queue).map (fun e => { e with place := e.place - lo }) = laidOut place queue := by
  induction queue generalizing place with
  | nil => rfl
  | cons field rest ih =>
    rw [laidOut, laidOut, map_cons, Nat.add_sub_cancel_left, add_assoc, ih]

theorem lowered_place (room : t.count ≤ t.slots) {n i : Nat} (passed : n ≤ t.count) (live : i < t.count) :
    lowered t n ((t.head + i) % t.slots) = if i < n then
        { t.memory.entries ((t.head + i) % t.slots) with place := (t.memory.entries ((t.head + i) % t.slots)).place - t.lo }
      else t.memory.entries ((t.head + i) % t.slots) := by
  induction n with
  | zero => rw [if_neg (Nat.not_lt_zero i), lowered]
  | succ n ih =>
    have before := ih (by omega)
    rw [lowered]
    simp only
    by_cases here : i = n
    · subst here
      rw [stored, Function.update_self, before, if_neg (lt_irrefl i), if_pos (Nat.lt_succ_self i)]
    have other : (t.head + i) % t.slots ≠ (t.head + n) % t.slots := by
      rcases Nat.lt_or_gt_of_ne here with less | more
      · exact places_apart less (by omega)
      · exact (places_apart more (by omega)).symm
    rw [stored, Function.update_of_ne other, before]
    exact if_congr (by omega) rfl rfl

theorem holds_compacted (holds : Holds t queue) : Holds (compacted t) queue := by
  have span := holds.span
  have within := holds.within
  have live : t.hi - t.lo = (texts queue).length := by omega
  refine ⟨?_, ?_, ?_, ?_, holds.room, holds.size, holds.head, holds.made⟩
  · have lower := laid_out_lower t.lo 0 queue
    rw [add_zero, ← holds.ring] at lower
    change around (lowered t t.count) t.slots t.head t.count = laidOut 0 queue
    rw [← lower, around, around, map_map]
    refine map_congr_left fun i inside => ?_
    have passed := lowered_place holds.room (le_refl _) (mem_range.mp inside)
    rw [if_pos (mem_range.mp inside)] at passed
    exact passed
  · change range (copiedUp t.memory.bytes 0 t.lo (t.hi - t.lo)) 0 (texts queue).length = texts queue
    rw [copied_up_below (Nat.zero_le _), live]
    refine Eq.trans (range_eq fun i inside => ?_) holds.bytes
    exact moved_inside inside
  · change t.hi - t.lo = 0 + (texts queue).length
    omega
  change t.hi - t.lo ≤ t.cap
  omega

variable {name : List Byte}

theorem holds_appended {value : List Byte} (holds : Holds t queue)
    (room : t.count < t.slots) (bytes : t.hi + (name.length + value.length) ≤ t.cap) :
    Holds (appended t name value) (queue ++ [⟨name, value⟩]) := by
  have span := holds.span
  have text : texts (queue ++ [⟨name, value⟩]) = texts queue ++ (name ++ value) := by
    rw [texts_append, texts_cons, texts_nil, append_nil]
    rfl
  refine ⟨?_, ?_, ?_, bytes, room, ?_, holds.head, holds.made⟩
  · change around (stored t.memory.entries ((t.head + t.count) % t.slots) ⟨t.hi, name.length, value.length⟩) t.slots t.head
      (t.count + 1) = laidOut t.lo (queue ++ [⟨name, value⟩])
    rw [around_stored room, holds.ring, laid_out_append, span]
    rfl
  · change range (storedAll (storedAll t.memory.bytes t.hi name) (t.hi + name.length) value) t.lo
      (texts (queue ++ [⟨name, value⟩])).length = _
    rw [← stored_all_append, text, length_append, range_append, span, stored_all_range]
    congr 1
    refine Eq.trans (range_eq fun i inside => ?_) holds.bytes
    exact stored_all_outside _ _ _ (.inl (by omega))
  · change t.hi + (name.length + value.length) = t.lo + (texts (queue ++ [⟨name, value⟩])).length
    rw [text, length_append, length_append]
    omega
  change t.size + (name.length + value.length + hpackEntryOverhead) = total fieldSize (queue ++ [⟨name, value⟩])
  rw [total_append, holds.size]
  rfl

theorem top_slots_enough (holds : Holds t queue) {need : Nat}
    (fits : total fieldSize queue + need ≤ t.max) (whole : hpackEntryOverhead ≤ need) : t.count + 1 ≤ topSlots t := by
  have count := holds_count holds
  have parts := total_texts queue
  unfold topSlots
  unfold hpackEntryOverhead at *
  omega

theorem wanted_one {t : HpArena} {queue : List Field} (holds : Holds t queue) {n : Nat}
    (fits : total fieldSize queue + (n + hpackEntryOverhead) ≤ t.max) :
    wantedSlots t 1 = t.count + 1 ∧ wantedBytes t n = t.hi - t.lo + n := by
  have slots := top_slots_enough holds fits (Nat.le_add_left _ _)
  have span := holds.span
  have parts := total_texts queue
  exact ⟨min_eq_left slots, min_eq_left (by omega)⟩

theorem holds_add (holds : Holds t queue) {value : List Byte} (added : hpTableAdd t name value outcome = (t', true)) :
    Holds t' (Table.hpTableAdd ⟨queue, t.max⟩ name value).entries ∧ t'.max = t.max := by
  unfold hpTableAdd at added
  unfold Table.hpTableAdd Table.hpTableShrinkTo
  simp only at added ⊢
  split at added
  next large =>
    cases added
    rw [if_pos large]
    obtain ⟨held, max, -⟩ := holds_shrink 0 holds
    exact ⟨held, max⟩
  rename_i fits
  rw [if_neg fits]
  simp only
  obtain ⟨held, max, -⟩ := holds_shrink (t.max - (name.length + value.length + hpackEntryOverhead)) holds
  split at added
  · cases added
  rename_i roomy room
  cases added
  obtain ⟨kept, maxRoom, -, slots, cap⟩ := holds_room held Nat.one_pos room
  have size := total_evict_to fieldSize (t.max - (name.length + value.length + hpackEntryOverhead)) queue
  obtain ⟨oneSlot, itsBytes⟩ := @wanted_one _ _ held (name.length + value.length) (by rw [max]; omega)
  rw [oneSlot] at slots
  rw [itsBytes] at cap
  have countHeld := holds_count held
  have countKept := holds_count kept
  have spanHeld := held.span
  have spanKept := kept.span
  have withinKept := kept.within
  have maxes := maxRoom.trans max
  split
  next tail =>
    refine ⟨holds_appended (holds_compacted kept) ?_ ?_, maxes⟩
    · change roomy.count < roomy.slots
      omega
    change roomy.hi - roomy.lo + (name.length + value.length) ≤ roomy.cap
    omega
  · exact ⟨holds_appended kept (by omega) (by omega), maxes⟩

/-- There is memory for `entries` more with `bytes` bytes among them, as far as the table may have it. -/
structure Reserved (t : HpArena) (entries bytes : Nat) : Prop where
  made : t.made = true
  slots : wantedSlots t entries ≤ t.slots
  bytes : wantedBytes t bytes ≤ t.cap

theorem reserved_less {t t' : HpArena} {entries bytes entries' bytes' : Nat} (reserved : Reserved t entries bytes)
    (kept : Kept t t') (count : t'.count + entries' ≤ t.count + entries)
    (live : t'.hi - t'.lo + bytes' ≤ t.hi - t.lo + bytes) : Reserved t' entries' bytes' := by
  obtain ⟨made, slots, cap⟩ := reserved
  unfold wantedSlots topSlots at slots
  unfold wantedBytes at cap
  refine ⟨kept.made.trans made, ?_, ?_⟩
  · unfold wantedSlots topSlots
    rw [kept.max, kept.slots]
    omega
  unfold wantedBytes
  rw [kept.max, kept.cap]
  omega

theorem room_reserves (holds : Holds t queue) {entries bytes : Nat} (some_ : 0 < entries) (room : hpTableRoom t entries bytes outcome = some t') :
    Reserved t' entries bytes := by
  obtain ⟨kept, max, made, slots, cap⟩ := holds_room holds some_ room
  have count := (holds_count holds).trans (holds_count kept).symm
  have span := holds.span
  have spanKept := kept.span
  refine ⟨made, ?_, ?_⟩
  · unfold wantedSlots topSlots at slots ⊢
    rwa [max, ← count]
  unfold wantedBytes at cap ⊢
  rwa [max, spanKept, Nat.add_sub_cancel_left, ← @Nat.add_sub_cancel_left t.lo (texts queue).length, ← span]

theorem evicted_less {max : Nat} (holds : Holds t queue)
    (held : Holds t' (evictTo fieldSize max queue)) : t'.count ≤ t.count ∧ t'.hi - t'.lo ≤ t.hi - t.lo := by
  obtain ⟨front, same⟩ := evict_to_suffix fieldSize max queue
  have count := holds_count holds
  have countHeld := holds_count held
  have span := holds.span
  have spanHeld := held.span
  have length := congrArg List.length same
  have bytes := congrArg (fun all => (texts all).length) same
  rw [length_append] at length
  simp only [texts_append, length_append] at bytes
  constructor
  · omega
  · omega

theorem tidied (t : HpArena) (n : Nat) :
    ∃ roomy, (if t.cap - t.hi < n then compacted t else t) = roomy ∧ Kept t roomy ∧ roomy.count = t.count ∧
      roomy.hi - roomy.lo = t.hi - t.lo := by
  refine ⟨_, rfl, ?_⟩
  split
  · exact ⟨⟨rfl, rfl, rfl, rfl⟩, rfl, tsub_zero _⟩
  · exact ⟨kept_refl t, rfl, rfl⟩

theorem appended_kept (t : HpArena) (name value : List Byte) : Kept t (appended t name value) := ⟨rfl, rfl, rfl, rfl⟩

theorem reserved_add (holds : Holds t queue) (some_ : 0 < t.max) {value : List Byte} {entries bytes : Nat}
    (reserved : Reserved t (entries + 1) (name.length + value.length + bytes)) :
    ∃ t', Reserved t' entries bytes ∧ ∀ outcome, hpTableAdd t name value outcome = (t', true) := by
  unfold hpTableAdd
  simp only
  split
  · obtain ⟨held, -, kept⟩ := holds_shrink 0 holds
    obtain ⟨fewer, less⟩ := evicted_less holds held
    exact ⟨_, reserved_less reserved (kept some_) (by omega) (by omega), fun _ => rfl⟩
  rename_i fits
  obtain ⟨held, max, keeps⟩ := holds_shrink (t.max - (name.length + value.length + hpackEntryOverhead)) holds
  obtain ⟨fewer, less⟩ := evicted_less holds held
  have kept := keeps some_
  obtain ⟨made, slots, cap⟩ := @reserved_less _ _ _ _ 1 (name.length + value.length) reserved kept (by omega) (by omega)
  obtain ⟨roomy, same, tidy, count, live⟩ :=
    tidied (hpTableShrinkTo t (t.max - (name.length + value.length + hpackEntryOverhead))) (name.length + value.length)
  simp only [room_there made slots cap, same]
  refine ⟨_, reserved_less reserved (kept_trans kept (kept_trans tidy (appended_kept _ name value))) ?_ ?_, fun _ => rfl⟩
  · change roomy.count + 1 + entries ≤ _
    omega
  change roomy.hi + (name.length + value.length) - roomy.lo + bytes ≤ _
  omega

theorem at_held {front back : List Field} {field : Field} (holds : Holds t (front ++ field :: back)) :
    hpName t (hpAt t back.length) = field.name ∧ hpValue t (hpAt t back.length) = field.value := by
  have count := holds_count holds
  rw [length_append, length_cons] at count
  have room := holds.room
  have head : t.head < t.slots := holds.head.resolve_right (by omega)
  obtain ⟨entry, text⟩ := held_entry holds
  have here : hpAt t back.length = ⟨t.lo + (texts front).length, field.name.length, field.value.length⟩ := by
    rw [← entry, ← @place_wraps t.slots (t.head + front.length) (by omega)]
    unfold hpAt
    simp only
    rw [show t.head + t.count - 1 - back.length = t.head + front.length by omega]
  rw [text_length, range_append] at text
  rw [here]
  exact append_inj text (range_length _ _)

end ProvenC.Hpack.Arena

import ProvenC.Hpack.Arena

/-!
# The dynamic table over any calls

Whatever is added, and however the size in force moves, the ring and the bytes hold the queue of
RFC 7541, section 4; an entry there was no memory for is the only one missing.
-/

namespace ProvenC.Hpack.Queue

open List Bytes Lib.Cells Lib.Circle Lib.Fifo Hpack.Arena
open Hpack.Table (Field hpackEntryOverhead fieldSize field_size_pos)

/-- A new maximum is followed by a shrink to it, as in both `hpack_decode_marked` and `hpack_encoder_set_peer_table_bytes`. -/
inductive TableCall where
  | add (name value : List Byte) (outcome : Option Memory)
  | shrinkTo (size : Nat)
  | setMax (max : Nat)

def tableCall (t : HpArena) : TableCall → HpArena × Bool
  | .add name value outcome => hpTableAdd t name value outcome
  | .shrinkTo size => (hpTableShrinkTo t size, true)
  | .setMax max => (hpTableShrinkTo { t with max := max } max, true)

def prescribed (max : Nat) (queue : List Field) (stored : Bool) : TableCall → List Field
  | .add name value _ =>
    if max < fieldSize ⟨name, value⟩ then []
    else evictTo fieldSize (max - fieldSize ⟨name, value⟩) queue ++ if stored then [⟨name, value⟩] else []
  | .shrinkTo size => evictTo fieldSize size queue
  | .setMax max => evictTo fieldSize max queue

def afterCalls : List TableCall → HpArena → List Field → HpArena × List Field
  | [], t, queue => (t, queue)
  | call :: later, t, queue =>
    afterCalls later (tableCall t call).1 (prescribed t.max queue (tableCall t call).2 call)

def entryAt (t : HpArena) (i : Nat) : HpEntry := t.memory.entries ((t.head + i) % t.slots)

structure Exact (t : HpArena) (queue : List Field) : Prop where
  count : t.count = queue.length
  room : t.count ≤ t.slots
  fields : ∀ i field, queue[i]? = some field →
    hpName t (entryAt t i) = field.name ∧ hpValue t (entryAt t i) = field.value ∧ t.lo ≤ (entryAt t i).place ∧
      (entryAt t i).place + (entryAt t i).nameLen + (entryAt t i).valueLen ≤ t.hi
  order : ∀ i j, i < j → j < t.count → (entryAt t i).place + (entryAt t i).nameLen + (entryAt t i).valueLen ≤ (entryAt t j).place
  size : t.size = (queue.map fun field => field.name.length + field.value.length + hpackEntryOverhead).sum
  within : t.size ≤ t.max
  bytes : t.hi ≤ t.cap
  small : t.cap ≤ 2 ^ 30

structure Sound (t : HpArena) (queue : List Field) : Prop where
  holds : Holds t queue
  within : t.size ≤ t.max
  small : t.cap ≤ 2 ^ 30

variable {t : HpArena} {queue : List Field}

theorem evict_to_zero (queue : List Field) : evictTo fieldSize 0 queue = [] := by
  have light := total_evict_to fieldSize 0 queue
  cases left : evictTo fieldSize 0 queue with
  | nil => rfl
  | cons field rest =>
    rw [left, total_cons] at light
    have heavy := field_size_pos field
    omega

theorem shrink_cap (holds : Holds t queue) (max : Nat) : (hpTableShrinkTo t max).cap ≤ t.cap := by
  obtain ⟨-, kept⟩ := holds_above max holds (holds_count holds)
  unfold hpTableShrinkTo
  dsimp only
  split
  · exact Nat.zero_le _
  · exact kept.cap.le

theorem sound_shrink (sound : Sound t queue) (max : Nat) : Sound (hpTableShrinkTo t max) (evictTo fieldSize max queue) := by
  obtain ⟨held, same, -⟩ := holds_shrink max sound.holds
  refine ⟨held, ?_, (shrink_cap sound.holds max).trans sound.small⟩
  have lighter := total_suffix_le fieldSize (evict_to_suffix fieldSize max queue)
  rw [held.size, same]
  exact lighter.trans (sound.holds.size ▸ sound.within)

theorem grown_to_most {have_ want first top most : Nat} (held : have_ ≤ most) (high : top ≤ most) :
    grownTo have_ want first top ≤ most := by
  unfold grownTo
  split
  · exact (Nat.min_le_right _ _).trans high
  · exact held

theorem room_small {t' : HpArena} {addSlots addBytes : Nat} {outcome : Option Memory} (small : t.cap ≤ 2 ^ 30)
    (room : hpTableRoom t addSlots addBytes outcome = some t') : t'.cap ≤ 2 ^ 30 := by
  unfold hpTableRoom at room
  dsimp only at room
  split at room
  · cases room
    exact small
  split at room
  · cases room
  rename_i limit
  cases outcome with
  | none => cases room
  | some fresh =>
    cases room
    exact grown_to_most small (Nat.le_of_not_lt limit)

theorem add_small (holds : Holds t queue) (small : t.cap ≤ 2 ^ 30) (name value : List Byte) (outcome : Option Memory) :
    (hpTableAdd t name value outcome).1.cap ≤ 2 ^ 30 := by
  have shrunk (max : Nat) := (shrink_cap holds max).trans small
  unfold hpTableAdd
  dsimp only
  split
  · exact shrunk 0
  split
  · exact shrunk _
  rename_i roomy room
  have roomySmall := room_small (shrunk _) room
  split
  · exact roomySmall
  · exact roomySmall

theorem add_failed {name value : List Byte} {outcome : Option Memory} {t' : HpArena}
    (failed : hpTableAdd t name value outcome = (t', false)) :
    ¬ t.max < fieldSize ⟨name, value⟩ ∧ t' = hpTableShrinkTo t (t.max - fieldSize ⟨name, value⟩) := by
  unfold hpTableAdd at failed
  dsimp only at failed
  split at failed
  · cases failed
  rename_i fits
  split at failed
  · cases failed
    exact ⟨fits, rfl⟩
  · cases failed

theorem sound_add (sound : Sound t queue) (name value : List Byte) (outcome : Option Memory) :
    Sound (hpTableAdd t name value outcome).1
      (prescribed t.max queue (hpTableAdd t name value outcome).2 (.add name value outcome)) := by
  have small := add_small sound.holds sound.small name value outcome
  cases added : hpTableAdd t name value outcome with
  | mk t' stored =>
    rw [added] at small
    cases stored with
    | false =>
      obtain ⟨fits, rfl⟩ := add_failed added
      rw [prescribed, if_neg fits, if_neg Bool.false_ne_true, append_nil]
      exact sound_shrink sound _
    | true =>
      obtain ⟨held, same⟩ := holds_add sound.holds added
      have whole : (Table.hpTableAdd ⟨queue, t.max⟩ name value).entries = prescribed t.max queue true (.add name value outcome) := by
        unfold Table.hpTableAdd prescribed Table.hpTableShrinkTo
        dsimp only
        by_cases large : t.max < name.length + value.length + hpackEntryOverhead
        · rw [if_pos large, if_pos (show t.max < fieldSize ⟨name, value⟩ from large)]
          exact evict_to_zero queue
        rw [if_neg large, if_neg (show ¬ t.max < fieldSize ⟨name, value⟩ from large)]
        rfl
      refine ⟨whole ▸ held, ?_, small⟩
      rw [held.size, same]
      exact Table.add_size ⟨queue, t.max⟩ name value

theorem sound_call (sound : Sound t queue) (call : TableCall) :
    Sound (tableCall t call).1 (prescribed t.max queue (tableCall t call).2 call) := by
  cases call with
  | add name value outcome => exact sound_add sound name value outcome
  | shrinkTo size => exact sound_shrink sound size
  | setMax max =>
    have moved : Holds { t with max := max } queue := ⟨sound.holds.ring, sound.holds.bytes, sound.holds.span, sound.holds.within,
      sound.holds.room, sound.holds.size, sound.holds.head, sound.holds.made⟩
    obtain ⟨held, same, -⟩ := holds_shrink max moved
    refine ⟨held, ?_, (shrink_cap moved max).trans sound.small⟩
    change (hpTableShrinkTo { t with max := max } max).size ≤ _
    rw [held.size]
    exact (total_evict_to fieldSize max queue).trans same.ge

theorem sound_calls (sound : Sound t queue) (calls : List TableCall) :
    Sound (afterCalls calls t queue).1 (afterCalls calls t queue).2 := by
  induction calls generalizing t queue with
  | nil => exact sound
  | cons call later ih => exact ih (sound_call sound call)

theorem texts_take_le {i j : Nat} (queue : List Field) (before : i ≤ j) :
    (texts (queue.take i)).length ≤ (texts (queue.take j)).length := by
  rw [← take_append_drop i (queue.take j), take_take, min_eq_left before, texts_append, length_append]
  exact Nat.le_add_right _ _

theorem entry_here (holds : Holds t queue) {i : Nat} {field : Field} (here : queue[i]? = some field) :
    entryAt t i = ⟨t.lo + (texts (queue.take i)).length, field.name.length, field.value.length⟩ ∧
      hpName t (entryAt t i) = field.name ∧ hpValue t (entryAt t i) = field.value ∧
      (texts (queue.take (i + 1))).length = (texts (queue.take i)).length + (field.name.length + field.value.length) := by
  obtain ⟨inside, rfl⟩ := List.getElem?_eq_some_iff.mp here
  have split : queue = queue.take i ++ queue[i] :: queue.drop (i + 1) := by
    rw [← drop_eq_getElem_cons inside, take_append_drop]
  have length : (queue.take i).length = i := length_take_of_le inside.le
  obtain ⟨entry, text⟩ := held_entry (split ▸ holds)
  rw [length] at entry
  change entryAt t i = _ at entry
  rw [text_length, range_append] at text
  obtain ⟨name, value⟩ := append_inj text (range_length _ _)
  rw [entry]
  refine ⟨rfl, name, value, ?_⟩
  rw [take_succ_eq_append_getElem inside, texts_append, length_append, texts_cons, texts_nil, append_nil, text_length]

theorem exact_of_sound (sound : Sound t queue) : Exact t queue := by
  have holds := sound.holds
  have count := holds_count holds
  refine ⟨count, holds.room, fun i field here => ?_, fun i j before inside => ?_, holds.size, sound.within, holds.within, sound.small⟩
  · obtain ⟨entry, name, value, next⟩ := entry_here holds here
    have last := texts_take_le queue (show i + 1 ≤ queue.length from (List.getElem?_eq_some_iff.mp here).1)
    have span := holds.span
    rw [take_length] at last
    rw [entry] at name value ⊢
    exact ⟨name, value, Nat.le_add_right _ _, by dsimp only; omega⟩
  rw [count] at inside
  obtain ⟨first, -, -, next⟩ := entry_here holds (getElem?_eq_getElem (before.trans inside))
  obtain ⟨second, -, -, -⟩ := entry_here holds (getElem?_eq_getElem inside)
  have later := texts_take_le queue (show i + 1 ≤ j from before)
  rw [first, second]
  dsimp only
  omega

end ProvenC.Hpack.Queue

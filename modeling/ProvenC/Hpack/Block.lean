import ProvenC.Hpack.Arena
import ProvenC.Hpack.Synchrony
import ProvenC.Hpack.Writing

/-!
# A block written whole or not begun

The encoder with its table in memory and its output in cells.
-/

namespace ProvenC.Hpack.Block

open List Bytes Lib.Cells Lib.Fifo Lib.Appending
open Hpack.Tables (hpackStaticCount)
open Hpack.Table (Field HpTable fieldSize field_size_pos hpackEntryOverhead)
open Hpack.Integer Hpack.Arena Hpack.Writing
open Hpack.Decoder (hpackDefaultTableBytes hpackTableCeiling)
open Hpack.Encoder (hpIntSize hpackEncodeBound hpPutString searchStatic searchDynamic searchField reserveOf enters
  literalHead namePart encodeField encodeFields sizeUpdates)
open Hpack.Synchrony (Bounded Found listText search_sound index_readable encode_fields_max)

structure HpackEncoder where
  table : HpArena
  ownMax : Nat
  peerMax : Nat
  announceLow : Nat
  announce : Bool

def hpackEncoderCreate (maxTableBytes : Nat) : Except ProvenErr HpackEncoder :=
  if hpackTableCeiling < maxTableBytes then .error .invalidArg
  else
    let start := min maxTableBytes hpackDefaultTableBytes
    .ok { table := emptyArena start
          ownMax := maxTableBytes
          peerMax := hpackDefaultTableBytes
          announceLow := if start ≠ hpackDefaultTableBytes then start else 0
          announce := start ≠ hpackDefaultTableBytes }

def hpackEncoderSetPeerTableBytes (c : HpackEncoder) (peerMaxTableBytes : Nat) : HpackEncoder :=
  let now := min c.ownMax peerMaxTableBytes
  if now = c.table.max then { c with peerMax := peerMaxTableBytes }
  else
    { c with
      peerMax := peerMaxTableBytes
      announceLow := if c.announce = false ∨ now < c.announceLow then now else c.announceLow
      announce := true
      table := hpTableShrinkTo { c.table with max := now } now }

/-- The search of the dynamic table, from the `k`-th newest entry on; `left` are not yet seen. -/
def searchArena (t : HpArena) (reserve : Nat) (name value : List Byte) : Nat → Nat → Nat × Nat → Nat × Nat
  | 0, _, found => found
  | left + 1, k, (whole, byName) =>
    if whole = 0 ∧ (reserve = 0 ∨ byName = 0) then
      let e := hpAt t k
      if hpName t e ≠ name then searchArena t reserve name value left (k + 1) (whole, byName)
      else
        searchArena t reserve name value left (k + 1)
          (if hpValue t e = value then hpackStaticCount + k + 1 else whole,
            if byName = 0 then hpackStaticCount + k + 1 else byName)
    else (whole, byName)

def encodeFieldInto (state : HpArena × Output Byte) (header : Field × Bool) (outcome : Option Memory) :
    HpArena × Output Byte :=
  let (t, out) := state
  let name := header.1.name
  let value := header.1.value
  let reserve := reserveOf header
  let found := searchArena t reserve name value t.count 0 (searchStatic name value)
  if found.1 ≠ 0 ∧ reserve ≠ 2 then (t, putInt out 7 128 found.1)
  else
    let index := decide (reserve = 0 ∧ name.length + value.length + hpackEntryOverhead ≤ t.max)
    let out := if index then putInt out 6 64 found.2 else putInt out 4 (if reserve = 2 then 16 else 0) found.2
    let out := if found.2 = 0 then hpPutStringInto out name else out
    let out := hpPutStringInto out value
    (if index then (hpTableAdd t name value outcome).1 else t, out)

/-- The fields of a list, the first of which would ask the allocator for its `i`-th memory. -/
def encodeFieldsInto (outcomes : Nat → Option Memory) : Nat → HpArena × Output Byte → List (Field × Bool) → HpArena × Output Byte
  | _, state, [] => state
  | i, state, header :: rest => encodeFieldsInto outcomes (i + 1) (encodeFieldInto state header (outcomes i)) rest

def announceInto (c : HpackEncoder) (t : HpArena) (out : Output Byte) : Output Byte :=
  if c.announce then
    putInt (if c.announceLow < t.max then putInt out 5 32 c.announceLow else out) 5 32 t.max
  else out

/-- What a call leaves: its error, the encoder, the output and `*len`. -/
structure Encoded where
  err : Option ProvenErr
  encoder : HpackEncoder
  cells : Nat → Byte
  len : Nat

def reservedTable (t : HpArena) (headers : List (Field × Bool)) (outcome : Option Memory) : Option HpArena :=
  if 0 < t.max ∧ 0 < headers.length then hpTableRoom t headers.length (listText headers) outcome else some t

/-- `proven_hpack_encode` into `outSize` cells; each header with its `sensitive` mark. -/
def hpackEncode (c : HpackEncoder) (headers : List (Field × Bool)) (outSize : Nat) (cells : Nat → Byte) (len : Nat)
    (outcomes : Nat → Option Memory) : Encoded :=
  if outSize < len then ⟨some .invalidArg, c, cells, len⟩
  else if outSize - len < hpackEncodeBound headers then ⟨some .outOfBounds, c, cells, len⟩
  else
    match reservedTable c.table headers (outcomes 0) with
    | none => ⟨some .noMem, c, cells, len⟩
    | some t =>
      let (t, out) := encodeFieldsInto outcomes 1 (t, announceInto c t ⟨cells, len⟩) headers
      ⟨none, { c with table := t, announce := false }, out.cells, out.place⟩

def entriesOf (t : HpArena) : List Field :=
  ((List.range t.count).map fun k => ⟨hpName t (hpAt t k), hpValue t (hpAt t k)⟩).reverse

def abstracted (c : HpackEncoder) : Encoder.HpackEncoder :=
  { table := ⟨entriesOf c.table, c.table.max⟩
    ownMax := c.ownMax
    peerMax := c.peerMax
    announceLow := c.announceLow
    announce := c.announce }

variable {t : HpArena} {queue : List Field}

variable (holds : Holds t queue)
include holds

theorem at_index {newer older : List Field} {field : Field} (parts : queue.reverse = newer ++ field :: older) :
    hpName t (hpAt t newer.length) = field.name ∧ hpValue t (hpAt t newer.length) = field.value := by
  have oldest : queue = older.reverse ++ field :: newer.reverse := by
    rw [← reverse_reverse queue, parts, reverse_append, reverse_cons, append_assoc]
    rfl
  have here := at_held (oldest ▸ holds)
  rwa [length_reverse] at here

theorem read_older (older newer : List Field) (parts : queue.reverse = newer ++ older) :
    (List.range' newer.length older.length).map (fun k => (⟨hpName t (hpAt t k), hpValue t (hpAt t k)⟩ : Field)) = older := by
  induction older generalizing newer with
  | nil => rfl
  | cons field older ih =>
    obtain ⟨name, value⟩ := at_index holds parts
    have later := ih (newer ++ [field]) (by rw [parts, append_assoc]; rfl)
    rw [length_append, length_singleton] at later
    rw [length_cons, range'_succ, map_cons, name, value, later]

theorem entries_held : entriesOf t = queue := by
  have all := read_older holds queue.reverse [] rfl
  rw [length_reverse, length_nil, ← range_eq_range', ← holds_count holds] at all
  rw [entriesOf, all, reverse_reverse]

theorem search_held (reserve : Nat) (name value : List Byte)
    (older newer : List Field) (found : Nat × Nat) (parts : queue.reverse = newer ++ older) :
    searchArena t reserve name value older.length newer.length found =
      searchDynamic reserve name value older newer.length found := by
  induction older generalizing newer found with
  | nil => rfl
  | cons field older ih =>
    obtain ⟨nameHere, valueHere⟩ := at_index holds parts
    have later := fun found => ih (newer ++ [field]) found (by rw [parts, append_assoc]; rfl)
    simp only [length_append, length_singleton] at later
    obtain ⟨whole, byName⟩ := found
    rw [length_cons, searchArena, searchDynamic]
    simp only [nameHere, valueHere, later]

theorem search_field_held (header : Field × Bool) :
    searchArena t (reserveOf header) header.1.name header.1.value t.count 0
        (searchStatic header.1.name header.1.value) = searchField ⟨queue, t.max⟩ header := by
  have all := search_held holds (reserveOf header) header.1.name header.1.value queue.reverse []
    (searchStatic header.1.name header.1.value) rfl
  rw [length_reverse, ← holds_count holds] at all
  exact all

omit holds

def Short (header : Field × Bool) : Prop := header.1.name.length < 2 ^ 32 ∧ header.1.value.length < 2 ^ 32

instance (header : Field × Bool) : Decidable (Short header) := inferInstanceAs (Decidable (_ ∧ _))

def fieldReach (header : Field × Bool) : Nat := 1 + 2 * hpIntSize + header.1.name.length + header.1.value.length

theorem enters_eq (queue : List Field) (max : Nat) (header : Field × Bool) :
    decide (reserveOf header = 0 ∧ header.1.name.length + header.1.value.length + hpackEntryOverhead ≤ max) =
      enters ⟨queue, max⟩ header := rfl

theorem short_limit {n : Nat} (short : n < 2 ^ 32) : n < hpIntLimit 7 := by
  unfold hpIntLimit
  omega

theorem wrote_literal (out : Output Byte) {header : Field × Bool} (short : Short header) {width first byName : Nat}
    (wide : 0 < 2 ^ width - 1) (small : byName < hpIntLimit width) : Wrote out (hpPutStringInto
        (if byName = 0 then hpPutStringInto (putInt out width first byName) header.1.name
          else putInt out width first byName) header.1.value)
      (hpPutInt width first byName ++ namePart byName header.1.name ++ hpPutString header.1.value) (fieldReach header) := by
  have size : hpIntSize = 6 := rfl
  have value := fun out => wrote_string out (short_limit short.2)
  unfold namePart fieldReach
  split
  next unnamed =>
    subst unnamed
    have head := wrote_put out (hpPutInt width first 0)
    rw [put_int_nothing wide] at head
    exact ((head.next (wrote_string _ (short_limit short.1))).next (value _)).further (by omega)
  rw [append_nil]
  exact ((wrote_int out small).next (value _)).further (by omega)

theorem bounded_field {table : HpTable} (bounded : Bounded table) (header : Field × Bool) :
    Bounded (encodeField table header).2 := by
  unfold encodeField
  simp only
  split
  · exact bounded
  split
  · rw [Bounded, Table.add_max]
    exact ⟨Table.add_size _ _ _, bounded.2⟩
  · exact bounded

theorem field_into {t : HpArena} {queue : List Field} (holds : Holds t queue) (bounded : Bounded ⟨queue, t.max⟩)
    (out : Output Byte) (header : Field × Bool) {entries bytes : Nat}
    (ready : 0 < t.max → Reserved t (entries + 1) (header.1.name.length + header.1.value.length + bytes)) :
    ∃ t' out', (∀ outcome, encodeFieldInto (t, out) header outcome = (t', out')) ∧
      Holds t' (encodeField ⟨queue, t.max⟩ header).2.entries ∧ t'.max = t.max ∧ (0 < t.max → Reserved t' entries bytes) ∧
      (Short header → Wrote out out' (encodeField ⟨queue, t.max⟩ header).1 (fieldReach header)) := by
  have less : 0 < t.max → Reserved t entries bytes := fun some_ =>
    reserved_less (ready some_) (kept_refl t) (by omega) (by omega)
  obtain ⟨wholeFound, nameFound⟩ := search_sound ⟨queue, t.max⟩ header
  unfold encodeFieldInto encodeField
  simp only [search_field_held holds header]
  generalize searchField ⟨queue, t.max⟩ header = found at wholeFound nameFound ⊢
  have small : ∀ width, found.2 < hpIntLimit width := by
    intro width
    by_cases unnamed : found.2 = 0
    · rw [unnamed]
      exact lt_of_lt_of_le (by decide) (Nat.le_add_left (2 ^ 35) (2 ^ width - 1))
    obtain ⟨value, named⟩ := nameFound unnamed
    exact index_readable bounded named width
  split
  next indexed =>
    refine ⟨t, _, fun _ => rfl, holds, rfl, less, fun _ => ?_⟩
    have whole := index_readable bounded (wholeFound indexed.1) 7
    exact (wrote_int out whole).further (by unfold fieldReach; omega)
  rw [enters_eq queue]
  unfold literalHead
  by_cases remembered : enters ⟨queue, t.max⟩ header = true
  · have fits : reserveOf header = 0 ∧ fieldSize header.1 ≤ t.max := by simpa [enters] using remembered
    have some_ : 0 < t.max := lt_of_lt_of_le (field_size_pos header.1) fits.2
    obtain ⟨t', reserved, added⟩ := reserved_add holds some_ (ready some_)
    obtain ⟨held, max⟩ := holds_add holds (added none)
    simp only [remembered, if_true]
    refine ⟨t', _, fun outcome => by rw [added outcome], held, max, fun _ => reserved, fun short => ?_⟩
    exact wrote_literal out short (by decide) (small 6)
  simp only [if_neg remembered]
  refine ⟨t, _, fun _ => rfl, holds, rfl, less, fun short => ?_⟩
  exact wrote_literal out short (by decide) (small 4)

def listReach (headers : List (Field × Bool)) : Nat := (headers.map fieldReach).sum

theorem fields_into (holds : Holds t queue) (bounded : Bounded ⟨queue, t.max⟩)
    (out : Output Byte) (headers : List (Field × Bool))
    (ready : 0 < t.max → 0 < headers.length → Reserved t headers.length (listText headers)) :
    ∃ t' out', (∀ i outcomes, encodeFieldsInto outcomes i (t, out) headers = (t', out')) ∧
      Holds t' (encodeFields ⟨queue, t.max⟩ headers).2.entries ∧ t'.max = t.max ∧
      Bounded (encodeFields ⟨queue, t.max⟩ headers).2 ∧ ((∀ header ∈ headers, Short header) →
        Wrote out out' (encodeFields ⟨queue, t.max⟩ headers).1 (listReach headers)) := by
  induction headers generalizing t queue out with
  | nil => exact ⟨t, out, fun _ _ => rfl, holds, rfl, bounded, fun _ => wrote_nothing out _⟩
  | cons header headers ih =>
    obtain ⟨t₁, out₁, first, held, max, reserved, wrote⟩ := @field_into t queue holds bounded out header headers.length
      (listText headers) fun some_ => ready some_ (Nat.succ_pos _)
    have tableMax : (encodeField ⟨queue, t.max⟩ header).2.max = t₁.max :=
      (encode_fields_max [header] ⟨queue, t.max⟩).trans max.symm
    have table : (encodeField ⟨queue, t.max⟩ header).2 = ⟨(encodeField ⟨queue, t.max⟩ header).2.entries, t₁.max⟩ := by
      rw [← tableMax]
    have within := bounded_field bounded header
    rw [table] at within
    obtain ⟨t₂, out₂, later, heldLater, maxLater, boundedLater, wroteLater⟩ := ih held within out₁
      fun some_ _ => reserved (max ▸ some_)
    rw [← table] at heldLater boundedLater wroteLater
    refine ⟨t₂, out₂, fun i outcomes => ?_, heldLater, maxLater.trans max, boundedLater, fun short => ?_⟩
    · rw [encodeFieldsInto, first, later]
    exact (wrote (short header mem_cons_self)).next
      (wroteLater fun other member => short other (mem_cons_of_mem header member))

structure Sound (c : HpackEncoder) (queue : List Field) : Prop where
  holds : Holds c.table queue
  bounded : Bounded ⟨queue, c.table.max⟩
  own : c.ownMax ≤ hpackTableCeiling
  low : c.announce = true → c.announceLow ≤ hpackTableCeiling

variable {c : HpackEncoder}

theorem sound_start {maxTableBytes : Nat} (created : hpackEncoderCreate maxTableBytes = .ok c) : Sound c [] := by
  unfold hpackEncoderCreate at created
  split at created
  · cases created
  rename_i within
  cases created
  have default : hpackDefaultTableBytes ≤ hpackTableCeiling := by decide
  have start : min maxTableBytes hpackDefaultTableBytes ≤ hpackTableCeiling := (Nat.min_le_right _ _).trans default
  refine ⟨⟨rfl, rfl, rfl, le_refl _, le_refl _, rfl, Or.inr rfl, nofun⟩, ⟨Nat.zero_le _, start⟩,
    Nat.le_of_not_lt within, fun _ => ?_⟩
  simp only
  split
  · exact start
  · exact Nat.zero_le _

variable (sound : Sound c queue)
include sound

theorem sound_change (bytes : Nat) : ∃ queue', Sound (hpackEncoderSetPeerTableBytes c bytes) queue' := by
  obtain ⟨holds, bounded, own, low⟩ := sound
  unfold hpackEncoderSetPeerTableBytes
  simp only
  split
  · exact ⟨queue, holds, bounded, own, low⟩
  have now : min c.ownMax bytes ≤ hpackTableCeiling := (Nat.min_le_left _ _).trans own
  have same : Holds { c.table with max := min c.ownMax bytes } queue :=
    ⟨holds.ring, holds.bytes, holds.span, holds.within, holds.room, holds.size, holds.head, holds.made⟩
  obtain ⟨held, max, -⟩ := holds_shrink (min c.ownMax bytes) same
  refine ⟨_, held, ?_, own, fun _ => ?_⟩
  · rw [max]
    exact ⟨total_evict_to _ _ _, now⟩
  change (if _ then _ else _) ≤ _
  split
  · exact now
  rename_i pending
  exact low (by simpa using fun quiet => pending (Or.inl quiet))

theorem wrote_updates (max : t.max = c.table.max) (out : Output Byte) :
    Wrote out (announceInto c t out) (sizeUpdates (abstracted c)) (2 * hpIntSize) := by
  have size : hpIntSize = 6 := rfl
  have limit : ∀ n ≤ hpackTableCeiling, n < hpIntLimit 5 := by
    intro n small
    unfold hpackTableCeiling at small
    unfold hpIntLimit
    omega
  have last := fun out => @wrote_int out 5 32 _ (limit c.table.max sound.bounded.2)
  unfold announceInto sizeUpdates abstracted
  simp only [max]
  split
  next owed =>
    split
    · exact ((wrote_int out (limit _ (sound.low owed))).next (last _)).further (by omega)
    · exact (last out).further (by omega)
  · exact wrote_nothing out _

omit sound in
theorem reserved_table {t' : HpArena} (holds : Holds t queue) {headers : List (Field × Bool)}
    {outcome : Option Memory} (made : reservedTable t headers outcome = some t') : Holds t' queue ∧ t'.max = t.max ∧
      (0 < t'.max → 0 < headers.length → Reserved t' headers.length (listText headers)) := by
  unfold reservedTable at made
  split at made
  next needed =>
    obtain ⟨held, max, -⟩ := holds_room holds needed.2 made
    exact ⟨held, max, fun _ _ => room_reserves holds needed.2 made⟩
  rename_i unneeded
  cases made
  exact ⟨holds, rfl, fun some_ more => absurd ⟨some_, more⟩ unneeded⟩

theorem encode_cases (headers : List (Field × Bool))
    (outSize : Nat) (cells : Nat → Byte) (len : Nat) (outcomes : Nat → Option Memory) :
    (∃ err, hpackEncode c headers outSize cells len outcomes = ⟨some err, c, cells, len⟩) ∨
      ∃ t out, Holds t (encodeFields ⟨queue, c.table.max⟩ headers).2.entries ∧
        (encodeFields ⟨queue, c.table.max⟩ headers).2.max = t.max ∧
        Bounded (encodeFields ⟨queue, c.table.max⟩ headers).2 ∧ len + hpackEncodeBound headers ≤ outSize ∧
        (∀ others : Nat → Option Memory, others 0 = outcomes 0 → hpackEncode c headers outSize cells len others =
          ⟨none, { c with table := t, announce := false }, out.cells, out.place⟩) ∧
        ((∀ header ∈ headers, Short header) → Wrote ⟨cells, len⟩ out
          (sizeUpdates (abstracted c) ++ (encodeFields ⟨queue, c.table.max⟩ headers).1) (hpackEncodeBound headers)) := by
  unfold hpackEncode
  split
  · exact Or.inl ⟨_, rfl⟩
  split
  · exact Or.inl ⟨_, rfl⟩
  · cases reserved : reservedTable c.table headers (outcomes 0) with
    | none => exact Or.inl ⟨_, rfl⟩
    | some t =>
      obtain ⟨holds, max, ready⟩ := reserved_table sound.holds reserved
      have bounded := sound.bounded
      rw [← max] at bounded
      obtain ⟨t', out', same, held, maxAfter, within, wrote⟩ :=
        fields_into holds bounded (announceInto c t ⟨cells, len⟩) headers ready
      rw [max] at held maxAfter within wrote
      refine Or.inr ⟨t', out', held, (encode_fields_max headers _).trans maxAfter.symm, within, by omega,
        fun others first => ?_, fun short => ?_⟩
      · simp only [first, reserved, same]
      · exact (wrote_updates sound max _).next (wrote short)

inductive Step where
  | setPeer (bytes : Nat)
  | encode (headers : List (Field × Bool)) (outSize : Nat) (cells : Nat → Byte) (len : Nat)
      (outcomes : Nat → Option Memory)

def after (c : HpackEncoder) : Step → HpackEncoder
  | .setPeer bytes => hpackEncoderSetPeerTableBytes c bytes
  | .encode headers outSize cells len outcomes => (hpackEncode c headers outSize cells len outcomes).encoder

theorem sound_after (step : Step) : ∃ queue', Sound (after c step) queue' := by
  cases step with
  | setPeer bytes => exact sound_change sound bytes
  | encode headers outSize cells len outcomes =>
    rw [after]
    rcases encode_cases sound headers outSize cells len outcomes with ⟨err, failed⟩ | ⟨t, out, held, max, within, -, same, -⟩
    · rw [failed]
      exact ⟨queue, sound⟩
    rw [same outcomes rfl]
    have table : (encodeFields ⟨queue, c.table.max⟩ headers).2 =
        ⟨(encodeFields ⟨queue, c.table.max⟩ headers).2.entries, t.max⟩ := by
      rw [← max]
    rw [table] at within
    exact ⟨_, held, within, sound.own, nofun⟩

theorem sound_run (steps : List Step) : ∃ queue', Sound (steps.foldl after c) queue' := by
  induction steps generalizing c queue with
  | nil => exact ⟨queue, sound⟩
  | cons step steps ih =>
    obtain ⟨queue', next⟩ := sound_after sound step
    exact ih next

/-- A call that did not fail: the block the queue's encoder makes stands behind the prefix, within the bound, and the
encoder is as that one leaves it, with every insertion of the block made. -/
structure Whole (c : HpackEncoder) (headers : List (Field × Bool)) (outSize : Nat) (cells : Nat → Byte) (len : Nat)
    (done : Encoded) (block : List Byte) (next : Encoder.HpackEncoder) : Prop where
  err : done.err = none
  encoded : Encoder.hpackEncode (abstracted c) headers (outSize - len) = .ok (block, next)
  encoder : abstracted done.encoder = next
  place : done.len = len + block.length
  written : range done.cells len block.length = block
  bound : block.length ≤ hpackEncodeBound headers
  room : len + hpackEncodeBound headers ≤ outSize
  outside : ∀ i, i < len ∨ len + hpackEncodeBound headers ≤ i → done.cells i = cells i

/-- A call that failed did nothing, and one that did not fail did all, whatever the allocator would have given after the
first byte was written. -/
def AllOrNothing (c : HpackEncoder) (headers : List (Field × Bool)) (outSize : Nat) (cells : Nat → Byte) (len : Nat)
    (outcomes : Nat → Option Memory) : Prop :=
  (∃ err, hpackEncode c headers outSize cells len outcomes = ⟨some err, c, cells, len⟩) ∨
    ((∃ block next, Whole c headers outSize cells len (hpackEncode c headers outSize cells len outcomes) block next) ∧
      ∀ others : Nat → Option Memory, others 0 = outcomes 0 →
        hpackEncode c headers outSize cells len others = hpackEncode c headers outSize cells len outcomes)

theorem encode_sound (headers : List (Field × Bool))
    (short : ∀ header ∈ headers, Short header) (outSize : Nat) (cells : Nat → Byte) (len : Nat)
    (outcomes : Nat → Option Memory) : AllOrNothing c headers outSize cells len outcomes := by
  rcases encode_cases sound headers outSize cells len outcomes with failed | ⟨t, out, held, max, -, room, same, wrote⟩
  · exact Or.inl failed
  have entries := entries_held sound.holds
  have wroteAll := wrote short
  refine Or.inr ⟨⟨sizeUpdates (abstracted c) ++ (encodeFields ⟨queue, c.table.max⟩ headers).1,
    { abstracted c with table := (encodeFields ⟨queue, c.table.max⟩ headers).2, announce := false }, ?_⟩,
    fun others first => (same others first).trans (same outcomes rfl).symm⟩
  rw [same outcomes rfl]
  have encoded : Encoder.hpackEncode (abstracted c) headers (outSize - len) =
      .ok (sizeUpdates (abstracted c) ++ (encodeFields ⟨queue, c.table.max⟩ headers).1,
        { abstracted c with table := (encodeFields ⟨queue, c.table.max⟩ headers).2, announce := false }) := by
    unfold Encoder.hpackEncode
    rw [if_neg (by omega), show (abstracted c).table = ⟨queue, c.table.max⟩ by rw [← entries]; rfl]
  have encoder : abstracted { c with table := t, announce := false } =
      { abstracted c with table := (encodeFields ⟨queue, c.table.max⟩ headers).2, announce := false } := by
    unfold abstracted
    simp only [entries_held held, ← max]
  exact ⟨rfl, encoded, encoder, wroteAll.place, wroteAll.written, wroteAll.within, room, wroteAll.outside⟩

omit sound

def freshEncoder : HpackEncoder := ⟨emptyArena 4096, 4096, 4096, 0, false⟩

end ProvenC.Hpack.Block

import ProvenC.H2.Calls
import ProvenC.Hpack.Synchrony

/-!
# The table size the peer sets

The encoder is made with the first block, and told then of the size the peer set last.
-/

namespace ProvenC.H2.TableSize

open List Bytes Hpack.Decoder Hpack.Encoder Hpack.Synchrony H2.Frame H2.Conn H2.Reader H2.Calls
open Hpack.Table (Field fieldSize)

def SameTables (c next : H2Conn) : Prop :=
  next.enc = c.enc ∧ next.cfgTable = c.cfgTable ∧ next.peerTable = c.peerTable ∧ next.peerTableSet = c.peerTableSet

instance (c next : H2Conn) : Decidable (SameTables c next) := inferInstanceAs (Decidable (_ ∧ _ ∧ _ ∧ _))

/-- A size the peer sets, a list sent as one block, which the peer reads with the capacity `cap`, or anything else the
connection does. -/
inductive Turn where
  | setting (value : Nat)
  | block (id : Nat) (headers : List Field) (endStream : Bool) (marks : Option (List Bool)) (cap : Capacity)
  | other (next : H2Conn)

def elsewhere (c next : H2Conn) : H2Conn := if SameTables c next then next else c

def sized (c : H2Conn) (value : Nat) : H2Conn := h2cApplySetting c ⟨h2SettingsHeaderTableSize, value⟩

/-- The peer, which applies its sizes in the same order, reads every block that is sent as the fields it was made of. -/
def reads : H2Conn → HpackDecoder → List Turn → Bool
  | _, _, [] => true
  | c, d, .setting value :: turns => reads (sized c value) (hpackDecoderSetMaxTableBytes d value) turns
  | c, d, .other next :: turns => reads (elsewhere c next) d turns
  | c, d, .block id headers endStream marks cap :: turns =>
    match h2cSendBlock c id headers endStream marks with
    | (c', .error _) => reads c' d turns
    | (c', .ok block) =>
      match hpackDecodeMarked d block cap with
      | (_, .error _) => false
      | (d', .ok out) => decide (out.map Prod.fst = headers) && reads c' d' turns

def Turn.Roomy : Turn → Prop
  | .block _ headers _ marks cap => Adequate cap (marked headers marks)
  | _ => True

/-- Of the sizes set so far none was below the default, or the encoder has something to announce when it is made. -/
def Told (own : Nat) (sizes : List Nat) : Prop :=
  (∀ size ∈ sizes, hpackDefaultTableBytes ≤ size) ∨ own < hpackDefaultTableBytes ∨
    min own (sizes.getLastD hpackDefaultTableBytes) ≠ hpackDefaultTableBytes

def Meets : List Nat → H2Conn → List Turn → Prop
  | _, _, [] => True
  | sizes, c, .setting value :: turns => value ≤ hpackTableCeiling ∧ Meets (sizes ++ [value]) (sized c value) turns
  | sizes, c, .other next :: turns => Meets sizes (elsewhere c next) turns
  | sizes, c, .block id headers endStream marks _ :: turns =>
    (c.enc = none → Told c.cfgTable sizes) ∧ Meets sizes (h2cSendBlock c id headers endStream marks).1 turns

def peerDecoder : HpackDecoder :=
  { table := ⟨[], hpackDefaultTableBytes⟩, limit := hpackDefaultTableBytes, updateOwed := false, failed := false }

structure Unmade (sizes : List Nat) (c : H2Conn) (d : HpackDecoder) : Prop where
  unmade : c.enc = none
  alive : d.failed = false
  table : d.table = ⟨[], hpackDefaultTableBytes⟩
  limit : d.limit = c.peerTable
  ceiling : c.peerTable ≤ hpackTableCeiling
  last : c.peerTable = sizes.getLastD hpackDefaultTableBytes
  unset : c.peerTableSet = false → sizes = []
  owed : d.updateOwed = true → ∃ size ∈ sizes, size < hpackDefaultTableBytes

variable {sizes : List Nat} {c : H2Conn} {d : HpackDecoder}

theorem made_in_step (unmade : Unmade sizes c d) (told : Told c.cfgTable sizes) {enc : HpackEncoder}
    (made : blockEncoder c = .ok enc) : InStep enc d := by
  obtain ⟨none_, alive, table, limit, ceiling, last, unset, owed⟩ := unmade
  have settled : min c.cfgTable hpackDefaultTableBytes = hpackDefaultTableBytes →
      min c.cfgTable c.peerTable = hpackDefaultTableBytes → d.updateOwed = false := by
    intro start now
    rw [Bool.eq_false_iff]
    intro waits
    obtain ⟨size, member, below⟩ := owed waits
    rcases told with above | small | other
    · have := above size member
      omega
    · omega
    rw [← last] at other
    exact other now
  have newest : ([] : List Field) <:+ d.table.entries := nil_suffix
  unfold blockEncoder hpackEncoderCreate at made
  rw [none_] at made
  dsimp only at made
  split at made
  · cases made
  · cases made
    by_cases set : c.peerTableSet = true
    · rw [if_pos set]
      unfold hpackEncoderSetPeerTableBytes
      dsimp only
      split
      next same =>
        refine ⟨alive, limit, ceiling, same.symm, newest, Nat.zero_le _, ?_⟩
        dsimp only
        split
        next announced =>
          refine ⟨?_, Nat.zero_le _⟩
          split <;> omega
        rename_i fresh
        have full : min c.cfgTable hpackDefaultTableBytes = hpackDefaultTableBytes := by simpa using fresh
        exact ⟨by rw [table, full], settled full (same.trans full)⟩
      refine ⟨alive, limit, ceiling, rfl, newest, Nat.zero_le _, ?_⟩
      rw [if_pos rfl]
      exact ⟨lowest_le _ _ _, Nat.zero_le _⟩
    rw [if_neg set]
    have none_set := unset (Bool.eq_false_iff.mpr set)
    rw [none_set] at last owed
    refine ⟨alive, limit.trans last, (by decide : hpackDefaultTableBytes ≤ hpackTableCeiling), rfl, newest, Nat.zero_le _, ?_⟩
    dsimp only
    split
    next announced =>
      refine ⟨?_, Nat.zero_le _⟩
      split <;> omega
    rename_i fresh
    have full : min c.cfgTable hpackDefaultTableBytes = hpackDefaultTableBytes := by simpa using fresh
    refine ⟨by rw [table, full], Bool.eq_false_iff.mpr fun waits => ?_⟩
    obtain ⟨size, member, _⟩ := owed waits
    cases member

theorem unmade_sized (unmade : Unmade sizes c d) {value : Nat} (small : value ≤ hpackTableCeiling) :
    Unmade (sizes ++ [value]) (sized c value) (hpackDecoderSetMaxTableBytes d value) := by
  obtain ⟨none_, alive, table, limit, ceiling, last, unset, owed⟩ := unmade
  have decoder : hpackDecoderSetMaxTableBytes d value =
      { d with limit := value, updateOwed := if value < d.table.max then true else d.updateOwed } := by
    rw [hpackDecoderSetMaxTableBytes, if_neg (by omega)]
  rw [decoder]
  refine ⟨?_, alive, table, rfl, small, ?_, fun wrong => absurd (show true = false from wrong) (by decide), ?_⟩
  · show c.enc.map _ = none
    rw [none_]
    rfl
  · rw [getLastD_concat]
    rfl
  rw [table]
  split
  next below =>
    exact fun _ => ⟨value, mem_append_right _ mem_cons_self, below⟩
  intro waits
  obtain ⟨size, member, small⟩ := owed waits
  exact ⟨size, mem_append_left _ member, small⟩

def Together (sizes : List Nat) (c : H2Conn) (d : HpackDecoder) : Prop :=
  Unmade sizes c d ∨ ∃ enc, c.enc = some enc ∧ InStep enc d

theorem together_sized (together : Together sizes c d) {value : Nat} (small : value ≤ hpackTableCeiling) :
    Together (sizes ++ [value]) (sized c value) (hpackDecoderSetMaxTableBytes d value) := by
  rcases together with unmade | ⟨enc, made, step⟩
  · exact .inl (unmade_sized unmade small)
  refine .inr ⟨hpackEncoderSetPeerTableBytes enc value, ?_, in_step_change step small⟩
  show c.enc.map _ = _
  rw [made]
  rfl

theorem together_elsewhere (together : Together sizes c d) (next : H2Conn) : Together sizes (elsewhere c next) d := by
  unfold elsewhere
  split
  next same =>
    obtain ⟨enc, own, peer, set⟩ := same
    rcases together with ⟨none_, alive, table, limit, ceiling, last, unset, owed⟩ | ⟨made, there, step⟩
    · exact .inl ⟨enc.trans none_, alive, table, limit.trans peer.symm, peer ▸ ceiling, peer.trans last,
        fun off => unset (set.symm.trans off), owed⟩
    · exact .inr ⟨made, enc.trans there, step⟩
  · exact together

theorem encoder_in_step (together : Together sizes c d) (told : c.enc = none → Told c.cfgTable sizes) {enc : HpackEncoder}
    (made : blockEncoder c = .ok enc) : InStep enc d := by
  rcases together with unmade | ⟨there, same, step⟩
  · exact made_in_step unmade (told unmade.unmade) made
  unfold blockEncoder at made
  rw [same] at made
  cases made
  exact step

theorem bound_within {headers : List (Field × Bool)} {header : Field × Bool} (member : header ∈ headers) :
    header.1.name.length + header.1.value.length ≤ hpackEncodeBound headers := by
  unfold hpackEncodeBound
  have one := single_le_sum (fun _ _ => Nat.zero_le _) _ (mem_map_of_mem (f := fun header : Field × Bool =>
    1 + 2 * hpIntSize + header.1.name.length + header.1.value.length) member)
  omega

theorem marked_fields (headers : List Field) (marks : Option (List Bool)) :
    ((marked headers marks).map received).map Prod.fst = headers := by
  unfold marked received
  rw [map_map, map_map]
  exact zipIdx_map_fst 0 headers

theorem together_reads {turns : List Turn} (together : Together sizes c d) (meets : Meets sizes c turns)
    (roomy : ∀ turn ∈ turns, turn.Roomy) : reads c d turns = true := by
  induction turns generalizing sizes c d with
  | nil => rfl
  | cons turn turns ih =>
    obtain ⟨room, rooms⟩ := forall_mem_cons.mp roomy
    cases turn with
    | setting value => exact ih (together_sized together meets.1) meets.2 rooms
    | other next => exact ih (together_elsewhere together next) meets rooms
    | block id headers endStream marks cap =>
      obtain ⟨told, later⟩ := meets
      rw [reads]
      unfold h2cSendBlock at later ⊢
      dsimp only at later ⊢
      by_cases long : c.peerList < (headers.map fieldSize).sum
      · rw [if_pos long] at later ⊢
        exact ih together later rooms
      rw [if_neg long] at later ⊢
      cases made : blockEncoder c with
      | error err =>
        rw [made] at later
        exact ih together later rooms
      | ok enc =>
        have step := encoder_in_step together told made
        rw [made] at later
        dsimp only at later ⊢
        generalize bound_ : hpackEncodeBound (marked headers marks) = bound at later ⊢
        by_cases full : Wire.outMax < c.wire.out.length + (bound + 9 * (bound / c.peerFrame + 1))
        · rw [if_pos full] at later ⊢
          exact ih (.inr ⟨enc, rfl, step⟩) later rooms
        rw [if_neg full] at later ⊢
        have readable : Readable (marked headers marks) := by
          intro header member
          have within := bound_within member
          have most : Wire.outMax < hpStringLimit := by decide
          omega
        obtain ⟨block, after, encoded, next, decoded, stepNext⟩ :=
          @block_roundtrip _ _ step _ cap (bound + 9 * (bound / c.peerFrame + 1) - 9) readable room
            (by rw [bound_]; generalize bound / c.peerFrame = more; omega)
        rw [encoded] at later ⊢
        dsimp only at later ⊢
        rw [decoded]
        dsimp only
        rw [marked_fields, decide_eq_true rfl, Bool.true_and]
        exact ih (.inr ⟨after, rfl, stepNext⟩) later rooms

theorem created_together {config : H2Config} (created : h2ConnCreate config = some c) : Together [] c peerDecoder := by
  unfold h2ConnCreate at created
  dsimp only at created
  split at created
  · cases created
  · cases created
    exact .inl ⟨rfl, rfl, rfl, rfl, (by decide : hpackDefaultTableBytes ≤ hpackTableCeiling), rfl, fun _ => rfl, nofun⟩

/-- In every run in which the encoder, when the first block makes it, has something to announce if a size before was below
the default, the peer reads every block as the fields it was made of. -/
theorem peer_reads_blocks {config : H2Config} (created : h2ConnCreate config = some c) {turns : List Turn}
    (meets : Meets [] c turns) (roomy : ∀ turn ∈ turns, turn.Roomy) : reads c peerDecoder turns = true :=
  together_reads (created_together created) meets roomy

def pathBlock : Turn := .block 1 [⟨ascii ":path", ascii "/a"⟩] true none { headerCap := 4, scratch := 1024, maxList := 0 }

def clientConfig : H2Config :=
  { server := false, maxConcurrentStreams := 0, initialWindow := 0, maxFrameSize := 0, maxHeaderListBytes := 0
    headerTableBytes := none, maxBufferedOutput := 0, maxResetDebt := 0, enableConnectProtocol := false }

def client : H2Conn := (h2ConnCreate clientConfig).get (by decide)

theorem peer_reads_lowered : reads client peerDecoder [.setting 100, pathBlock] = true :=
  @peer_reads_blocks client clientConfig (Option.some_get _).symm [.setting 100, pathBlock]
    ⟨by decide, fun _ => .inr (.inr (by decide +kernel)), trivial⟩
    (forall_mem_cons.mpr ⟨trivial, forall_mem_cons.mpr
      ⟨⟨by decide +kernel, by decide +kernel, .inl rfl⟩, forall_mem_nil _⟩⟩)

/-- The size goes down and comes back before the first block: the peer waits for an update that never comes. -/
theorem size_dips_before_first_block : reads client peerDecoder [.setting 0, .setting 4096, pathBlock] = false := by
  decide +kernel

end ProvenC.H2.TableSize

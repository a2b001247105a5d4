import ProvenC.Quic.Accounts

/-!
# The records of what was sent

A packet on its way is recorded with the frames it carries, and each of these frames names bytes that
its queue has sent.
-/

namespace ProvenC.Quic.Records

open List Bytes Quic.RangeSet Quic.Queues Quic.Streams Quic.Frames
open Quic.Calls Quic.Sending Quic.Sides Quic.Opening Quic.Accounts
open Lib.Slots Lib.Runs

def Within (c : QuicConn) (lvl : Level) (f : FrameRec) : Prop :=
  match f.kind with
  | .crypto => f.off + f.len ≤ (c.sp lvl).cryptoTx.next
  | .stream => Used c f.id ∧ ∀ s ∈ c.streams, s.id = f.id → f.off + f.len ≤ s.tx.next
  | _ => True

structure Sendable (c : QuicConn) : Prop where
  table : Table c
  queues : ∀ s ∈ c.streams, Sound s.tx
  crypto : ∀ lvl, Sound (c.sp lvl).cryptoTx
  recorded : ∀ lvl, ∀ p ∈ (c.sp lvl).sent, ∀ f ∈ p.frames, Within c lvl f

structure Follows (c after : QuicConn) : Prop where
  used : ∀ id, Used c id → Used after id
  streams : ∀ s ∈ after.streams, (∃ before ∈ c.streams, before.id = s.id ∧ before.tx.next ≤ s.tx.next) ∨ ¬ Used c s.id
  crypto : ∀ lvl, (c.sp lvl).cryptoTx.next ≤ (after.sp lvl).cryptoTx.next

structure Onward (c after : QuicConn) : Prop where
  sendable : Sendable after
  follows : Follows c after

theorem follows_refl (c) : Follows c c :=
  ⟨fun _ used => used, fun s member => .inl ⟨s, member, rfl, le_rfl⟩, fun _ => le_rfl⟩

variable {c : QuicConn}

theorem follows_trans {middle after : QuicConn} (first : Follows c middle) (second : Follows middle after) :
    Follows c after := by
  refine ⟨fun id used => second.used id (first.used id used), fun s member => ?_,
    fun lvl => (first.crypto lvl).trans (second.crypto lvl)⟩
  rcases second.streams s member with ⟨between, inMiddle, same, less⟩ | unused
  · rw [← same]
    rcases first.streams between inMiddle with ⟨before, inTable, sameId, lessNext⟩ | unused
    · exact .inl ⟨before, inTable, sameId, lessNext.trans less⟩
    · exact .inr unused
  · exact .inr fun used => unused (first.used _ used)

theorem onward_refl (sendable : Sendable c) : Onward c c := ⟨sendable, follows_refl c⟩

theorem onward_trans {middle after : QuicConn} (first : Onward c middle) (second : Onward middle after) :
    Onward c after :=
  ⟨second.sendable, follows_trans first.follows second.follows⟩

variable {lvl : Level}

theorem within_follows {after : QuicConn} (follows : Follows c after) {f : FrameRec}
    (within : Within c lvl f) : Within after lvl f := by
  unfold Within at within ⊢
  split at within
  · exact within.trans (follows.crypto lvl)
  · refine ⟨follows.used _ within.1, fun s member same => ?_⟩
    rcases follows.streams s member with ⟨before, inTable, sameId, less⟩ | unused
    · exact (within.2 before inTable (sameId.trans same)).trans less
    · exact absurd (same ▸ within.1) unused
  · exact True.intro

def queuePart (s : QStream) : Nat × SendQ := (s.id, s.tx)

theorem queue_of_tx {after : QuicConn} (calm : Calm txPart c after) : Calm queuePart c after :=
  calm_map calm fun part => (part.id, part.tx)

theorem id_of_queue {after : QuicConn} (calm : Calm queuePart c after) : Calm QStream.id c after :=
  calm_map calm Prod.fst

variable (sendable : Sendable c)
include sendable

theorem onward_calm {after : QuicConn} (calm : Calm queuePart c after)
    (crypto : ∀ lvl, Sound (after.sp lvl).cryptoTx ∧ (c.sp lvl).cryptoTx.next ≤ (after.sp lvl).cryptoTx.next)
    (sent : ∀ lvl, ∀ p ∈ (after.sp lvl).sent, p ∈ (c.sp lvl).sent) : Onward c after := by
  have follows : Follows c after := by
    refine ⟨fun id used => (used_calm calm id).mpr used, fun s member => ?_, fun lvl => (crypto lvl).2⟩
    obtain ⟨before, inTable, same⟩ := calm_mem calm member
    have sameId : before.id = s.id := congrArg Prod.fst same
    have sameQueue : before.tx = s.tx := congrArg Prod.snd same
    exact .inl ⟨before, inTable, sameId, by rw [sameQueue]⟩
  refine ⟨⟨table_calm sendable.table (id_of_queue calm), fun s member => ?_, fun lvl => (crypto lvl).1,
    fun lvl p member f inside => ?_⟩, follows⟩
  · obtain ⟨before, inTable, same⟩ := calm_mem calm member
    have sameQueue : before.tx = s.tx := congrArg Prod.snd same
    rw [← sameQueue]
    exact sendable.queues before inTable
  · exact within_follows follows (sendable.recorded lvl p (sent lvl p member) f inside)

theorem onward_same {after : QuicConn} (calm : Calm queuePart c after) (spaces : after.sp = c.sp) : Onward c after := by
  refine onward_calm sendable calm (fun lvl => ?_) (fun lvl p member => ?_)
  · rw [spaces]
    exact ⟨sendable.crypto lvl, le_rfl⟩
  · rwa [spaces] at member

theorem onward_quiet {after : QuicConn} (calm : Calm queuePart c after)
    (account : sendAccount id after = sendAccount id c) : Onward c after :=
  onward_same sendable calm (congrArg SendAccount.sp account)

theorem onward_update {after : QuicConn} {id : Nat} {change : QStream → QStream}
    (streams : after.streams = update QStream.id id change c.streams) (kept : ∀ s, streamFind c id = some s →
      (change s).id = s.id ∧ s.tx.next ≤ (change s).tx.next ∧ Sound (change s).tx)
    (server : after.server = c.server) (localOpened : after.localOpened = c.localOpened)
    (peerOpened : after.peerOpened = c.peerOpened) (spaces : after.sp = c.sp) : Onward c after := by
  have ids : Calm QStream.id c after := by
    refine ⟨?_, server, localOpened, peerOpened⟩
    rw [streams]
    cases found : streamFind c id with
    | none => rw [update_absent QStream.id found]
    | some s =>
      rw [keys_update_found QStream.id found ((kept s found).1.trans (find_mem QStream.id found).2)]
  have table := table_calm sendable.table ids
  have each : ∀ s ∈ after.streams, (s ∈ c.streams) ∨
      ∃ before ∈ c.streams, before.id = s.id ∧ before.tx.next ≤ s.tx.next ∧ Sound s.tx := by
    rw [streams]
    refine forall_update QStream.id (fun s member => .inl member) (fun s found _ => ?_)
    obtain ⟨sameId, less, sound⟩ := kept s found
    exact .inr ⟨s, (find_mem QStream.id found).1, sameId.symm, less, sound⟩
  have follows : Follows c after := by
    refine ⟨fun id used => (used_calm ids id).mpr used, fun s member => ?_, fun lvl => by rw [spaces]⟩
    rcases each s member with same | ⟨before, inTable, sameId, less, _⟩
    · exact .inl ⟨s, same, rfl, le_rfl⟩
    · exact .inl ⟨before, inTable, sameId, less⟩
  refine ⟨⟨table, fun s member => ?_, fun lvl => ?_, fun lvl p member f inside => ?_⟩, follows⟩
  · rcases each s member with same | ⟨_, _, _, _, sound⟩
    · exact sendable.queues s same
    · exact sound
  · rw [spaces]
    exact sendable.crypto lvl
  rw [spaces] at member
  exact within_follows follows (sendable.recorded lvl p member f inside)

theorem onward_opened {after : QuicConn} {fresh : List QStream} (opens : Opened c after fresh) : Onward c after := by
  have spaces : after.sp = c.sp := by
    rw [opens.rest]
  have follows : Follows c after := by
    refine ⟨opens.keeps, fun s member => ?_, fun lvl => by rw [spaces]⟩
    rw [opens.streams] at member
    rcases mem_append.mp member with before | later
    · exact .inl ⟨s, before, rfl, le_rfl⟩
    · exact .inr (opens.unused s later)
  refine ⟨⟨table_opened sendable.table opens, fun s member => ?_, fun lvl => ?_, fun lvl p member f inside => ?_⟩, follows⟩
  · rw [opens.streams] at member
    rcases mem_append.mp member with before | later
    · exact sendable.queues s before
    rw [opens.new s later]
    exact empty_sound
  · rw [spaces]
    exact sendable.crypto lvl
  rw [spaces] at member
  exact within_follows follows (sendable.recorded lvl p member f inside)

theorem onward_for_peer {id : Nat} {result : QuicConn × Except TransportError (Option QStream)} (found : ForPeer c id result) : Onward c result.1 := by
  cases found with
  | found | ended | refused => exact onward_refl sendable
  | opened after s fresh _ _ opens _ _ => exact onward_opened sendable opens

omit sendable

theorem onward_fold {Item : Type} {f : QuicConn → Item → QuicConn} {ready : QuicConn → Item → Prop}
    (kept : ∀ c item, Sendable c → ready c item → Onward c (f c item))
    (stays : ∀ c after item, Follows c after → ready c item → ready after item) {items : List Item} {c : QuicConn}
    (sendable : Sendable c) (all : ∀ item ∈ items, ready c item) : Onward c (items.foldl f c) := by
  induction items generalizing c with
  | nil => exact onward_refl sendable
  | cons item items ih =>
    have one := kept c item sendable (all item mem_cons_self)
    refine onward_trans one (ih one.sendable fun other member => ?_)
    exact stays c _ other one.follows (all other (mem_cons_of_mem _ member))

theorem onward_each {Item : Type} {f : QuicConn → Item → QuicConn}
    (kept : ∀ c item, Sendable c → Onward c (f c item)) (items : List Item) (sendable : Sendable c) :
    Onward c (items.foldl f c) :=
  @onward_fold Item f (fun _ _ => True) (fun c item ready _ => kept c item ready) (fun _ _ _ _ _ => True.intro) items c
    sendable fun _ _ => True.intro

include sendable

theorem onward_free (id : Nat) : Onward c (streamMaybeFree c id) :=
  onward_quiet sendable (calm_free c id) (account_free c id)

theorem onward_space (lvl) {change : Space → Space} (sound : Sound (change (c.sp lvl)).cryptoTx)
    (next : (c.sp lvl).cryptoTx.next ≤ (change (c.sp lvl)).cryptoTx.next)
    (sent : ∀ p ∈ (change (c.sp lvl)).sent, p ∈ (c.sp lvl).sent) : Onward c (setSpace c lvl change) := by
  have place (other : Level) : (setSpace c lvl change).sp other = if other = lvl then change (c.sp lvl) else c.sp other := by
    show Function.update c.sp lvl (change (c.sp lvl)) other = _
    rw [Function.update_apply]
  refine onward_calm sendable (calm_space c lvl change) (fun other => ?_) (fun other p member => ?_)
  · rw [place]
    split
    next here =>
      rw [here]
      exact ⟨sound, next⟩
    · exact ⟨sendable.crypto other, le_rfl⟩
  rw [place] at member
  split at member
  next here =>
    rw [here]
    exact sent p member
  · exact member

theorem onward_frame_acked (lvl) (f : FrameRec) (within : Within c lvl f) : Onward c (frameAcked lvl c f) := by
  unfold frameAcked
  unfold Within at within
  split
  next kind =>
    rw [kind] at within
    obtain ⟨sound, next, _⟩ := acked_spec (sendable.crypto lvl) within false
    exact onward_space sendable lvl sound next.ge fun p member => member
  next kind =>
    rw [kind] at within
    split
    · exact onward_refl sendable
    rename_i s found
    obtain ⟨member, same⟩ := find_mem QStream.id found
    split
    · exact onward_refl sendable
    have acked : Onward c (streamAcked c s f) := by
      obtain ⟨sound, next, _⟩ := acked_spec (sendable.queues s member) (within.2 s member same) f.fin
      unfold streamAcked
      refine onward_update sendable rfl (fun other here => ?_) rfl rfl rfl rfl
      rw [same, found, Option.some.injEq] at here
      subst here
      exact ⟨rfl, next.ge, sound⟩
    exact onward_trans acked (onward_free acked.sendable _)
  · have marked : Onward c (setStream c f.id fun s => { s with txResetAcked := true }) :=
      onward_update sendable rfl
        (fun s found => ⟨rfl, le_rfl, sendable.queues s (find_mem QStream.id found).1⟩) rfl rfl rfl rfl
    exact onward_trans marked (onward_free marked.sendable _)
  · exact onward_refl sendable

theorem onward_frame_lost (lvl) (f : FrameRec) (within : Within c lvl f) : Onward c (frameLost lvl c f) := by
  -- A frame that only has something owed again changes no queue.
  have owed (id : Nat) {change : QStream → QStream} (kept : ∀ s, queuePart (change s) = queuePart s) :
      Onward c (setStream c id change) :=
    onward_quiet sendable (calm_set kept) rfl
  unfold frameLost
  unfold Within at within
  split
  next kind =>
    rw [kind] at within
    obtain ⟨sound, next, _⟩ := lost_spec (sendable.crypto lvl) within false
    exact onward_space sendable lvl sound next.ge fun p member => member
  next kind =>
    rw [kind] at within
    refine onward_update sendable rfl (fun s found => ?_) rfl rfl rfl rfl
    obtain ⟨member, same⟩ := find_mem QStream.id found
    split
    · exact ⟨rfl, le_rfl, sendable.queues s member⟩
    obtain ⟨sound, next, _⟩ := lost_spec (sendable.queues s member) (within.2 s member same) f.fin
    exact ⟨rfl, next.ge, sound⟩
  · exact owed f.id fun s => by split <;> rfl
  · exact owed f.id fun s => by split <;> rfl
  · exact onward_quiet sendable (calm_same rfl rfl rfl rfl) rfl
  · exact owed f.id fun s => by split <;> rfl
  · exact onward_quiet sendable (calm_same rfl rfl rfl rfl) rfl

omit sendable

def PacketWithin (lvl : Level) (c : QuicConn) (p : SentPacket) : Prop := ∀ f ∈ p.frames, Within c lvl f

theorem packet_within_follows (c after : QuicConn) (p : SentPacket) (follows : Follows c after)
    (within : PacketWithin lvl c p) : PacketWithin lvl after p :=
  fun f member => within_follows follows (within f member)

theorem onward_packet_acked (lvl) (c : QuicConn) (p : SentPacket) (sendable : Sendable c)
    (within : PacketWithin lvl c p) : Onward c (packetAcked lvl c p) :=
  onward_fold (fun _ f ready inside => onward_frame_acked ready lvl f inside)
    (fun _ _ _ follows inside => within_follows follows inside) sendable within

theorem onward_packet_lost (lvl) (c : QuicConn) (p : SentPacket) (sendable : Sendable c)
    (within : PacketWithin lvl c p) : Onward c (packetLost lvl c p) :=
  onward_fold (fun _ f ready inside => onward_frame_lost ready lvl f inside)
    (fun _ _ _ follows inside => within_follows follows inside) sendable within

include sendable

theorem onward_packets_acked {packets : List SentPacket}
    (recorded : ∀ p ∈ packets, p ∈ (c.sp lvl).sent) : Onward c (packets.foldl (packetAcked lvl) c) :=
  onward_fold (onward_packet_acked lvl) packet_within_follows sendable
    fun p member f inside => sendable.recorded lvl p (recorded p member) f inside

theorem onward_packets_lost {packets : List SentPacket}
    (recorded : ∀ p ∈ packets, p ∈ (c.sp lvl).sent) : Onward c (packets.foldl (packetLost lvl) c) :=
  onward_fold (onward_packet_lost lvl) packet_within_follows sendable
    fun p member f inside => sendable.recorded lvl p (recorded p member) f inside

theorem onward_keep (lvl) (stays : SentPacket → Bool) : Onward c (keepSent lvl stays c) :=
  onward_space sendable lvl (sendable.crypto lvl) le_rfl fun _ member => mem_of_mem_filter member

omit sendable in
theorem onward_range (lvl) (c : QuicConn) (range : Nat × Nat) (sendable : Sendable c) :
    Onward c (rangeAcked lvl c range) := by
  unfold rangeAcked
  have acked (gone : SentPacket → Bool) : Onward c (((c.sp lvl).sent.filter gone).foldl (packetAcked lvl) c) :=
    onward_packets_acked sendable fun p member => mem_of_mem_filter member
  exact onward_trans (acked _) (onward_keep (acked _).sendable lvl _)

theorem onward_ack (lvl) (largest : Nat) (ranges : List (Nat × Nat)) : Onward c (onAck lvl c largest ranges).1 := by
  unfold onAck
  split
  · exact onward_refl sendable
  · exact onward_each (onward_range lvl) ranges sendable

theorem onward_lost (lvl) (which : Nat → Bool) : Onward c (detectLost lvl c which) := by
  have lost (gone : SentPacket → Bool) : Onward c (((c.sp lvl).sent.filter gone).foldl (packetLost lvl) c) :=
    onward_packets_lost sendable fun p member => mem_of_mem_filter member
  exact onward_trans (lost _) (onward_keep (lost _).sendable lvl _)

theorem onward_probe (lvl) : Onward c (onProbe lvl c) := by
  have owed : Onward c (probeOwed lvl c) :=
    onward_space sendable lvl (sendable.crypto lvl) le_rfl fun _ member => member
  have oldest : Onward c (oldestLost lvl (probeOwed lvl c)) :=
    onward_trans owed (onward_packets_lost owed.sendable fun p member => mem_of_mem_take member)
  unfold onProbe
  split
  · exact onward_refl sendable
  split
  · exact oldest
  refine onward_trans oldest ?_
  have again := resend_spec (oldest.sendable.crypto lvl)
  exact onward_space oldest.sendable lvl again.1 le_rfl fun _ member => member

theorem onward_retry : Onward c (onRetry c) :=
  onward_space sendable .initial (resend_spec (sendable.crypto .initial)).1 le_rfl fun _ member => absurd member not_mem_nil

theorem onward_discard (lvl) : Onward c (spaceDiscard lvl c) := by
  unfold spaceDiscard
  split
  · exact onward_refl sendable
  · exact onward_space sendable lvl (free_sound (sendable.crypto lvl)) le_rfl fun _ member => absurd member not_mem_nil

theorem onward_fail (error : TransportError) : Onward c (connFail c error) := by
  refine onward_same sendable (calm_fail c error) ?_
  unfold connFail
  split <;> rfl

theorem onward_tx_reset (s : QStream) (code : Nat) : Onward c (streamTxReset c s code) := by
  unfold streamTxReset
  split
  · exact onward_refl sendable
  · exact onward_update sendable rfl (fun other _ => ⟨rfl, le_rfl, let_go_sound other.tx⟩) rfl rfl rfl rfl

theorem onward_stop_take (s : QStream) (code : Nat) : Onward c (stopTake c s code) := by
  unfold stopTake
  split
  · have reset := onward_tx_reset sendable s code
    refine onward_trans reset (onward_quiet reset.sendable ?_ rfl)
    exact calm_set fun s => rfl
  · exact onward_refl sendable

theorem onward_raise (s : QStream) (value : Nat) : Onward c (raiseTxMax c s value) := by
  refine onward_quiet sendable ?_ (account_raise c s value)
  unfold raiseTxMax
  split
  · exact calm_set fun s => rfl
  · exact calm_refl c

theorem onward_takes (junk : Nat → Byte) (f : Frame) (s : QStream) : Onward c (frameTakes junk f c s).1 := by
  cases f with
  | stream id off data fin => exact onward_quiet sendable (queue_of_tx (tx_calm_take junk c s off data fin)) (account_take junk c s off data fin)
  | resetStream id code finalSize =>
    exact onward_quiet sendable (queue_of_tx (tx_calm_reset_take c s code finalSize)) (account_reset_take c s code finalSize)
  | stopSending id code => exact onward_stop_take sendable s code
  | maxStreamData id value => exact onward_raise sendable s value
  | maxData | maxStreams | streamDataBlocked => exact onward_refl sendable

theorem onward_frame (junk : Nat → Byte) (f : Frame) : Onward c (onFrame junk c f).1 := by
  have run := frame_run junk c f
  generalize onFrame junk c f = result at run
  cases run with
  | refused => exact onward_refl sendable
  | data | streams => exact onward_same sendable (calm_same rfl rfl rfl rfl) rfl
  | left reached => exact onward_for_peer sendable (for_peer_of reached)
  | took _ reached =>
    have spec := onward_for_peer sendable (for_peer_of reached)
    exact onward_trans spec (onward_takes spec.sendable junk f _)

theorem onward_params (tp : PeerParams) (checks : ParamChecks) : Onward c (applyPeerParams c tp checks) := by
  have noted : Onward c { c with peerTp := tp, havePeerTp := true } := onward_same sendable (calm_same rfl rfl rfl rfl) rfl
  unfold applyPeerParams
  split
  · exact onward_trans noted (onward_fail noted.sendable _)
  split
  · exact onward_trans noted (onward_fail noted.sendable _)
  dsimp only
  split
  · refine onward_same sendable (calm_each rfl (fun s => ?_) rfl rfl rfl) rfl
    split <;> rfl
  · exact onward_same sendable (calm_same rfl rfl rfl rfl) rfl

theorem onward_params_after (news : TlsNews) : Onward c (paramsAfter c news) := by
  unfold paramsAfter
  split
  · exact onward_refl sendable
  split
  · exact onward_refl sendable
  · exact onward_params sendable _ _

theorem onward_zr_install (remembered : Option PeerParams) : Onward c (zrInstall c remembered) := by
  unfold zrInstall
  split
  · exact onward_refl sendable
  dsimp only
  split
  · exact onward_same sendable (calm_same rfl rfl rfl rfl) rfl
  · split <;> exact onward_same sendable (calm_same rfl rfl rfl rfl) rfl

theorem onward_zero_rtt : Onward c (zeroRttLost c) := by
  have lost (gone : SentPacket → Bool) :
      Onward c (((c.sp .application).sent.filter gone).foldl (packetLost .application) c) :=
    onward_packets_lost sendable fun p member => mem_of_mem_filter member
  exact onward_trans (lost _) (onward_keep (lost _).sendable .application _)

theorem onward_early_refused : Onward c (earlyRefused c) := by
  have lost := onward_zero_rtt sendable
  unfold earlyRefused
  split
  · exact lost
  refine onward_trans lost ?_
  generalize zeroRttLost c = middle at lost
  have limits : Onward middle (serverLimits middle) :=
    onward_same lost.sendable (calm_each rfl (fun s => by split <;> rfl) rfl rfl rfl) rfl
  unfold refusedLimits
  split
  · exact limits
  · exact onward_trans limits (onward_fail limits.sendable _)

theorem onward_early_after (news : TlsNews) : Onward c (earlyAfter c news) := by
  have installed : Onward c (earlyInstall c news) := by
    unfold earlyInstall
    split
    · exact onward_refl sendable
    · exact onward_zr_install sendable _
  unfold earlyAfter
  refine onward_trans installed ?_
  generalize earlyInstall c news = middle at installed
  have dropped : Onward middle (zrDrop { middle with early := news.early }) :=
    onward_same installed.sendable (calm_same rfl rfl rfl rfl) rfl
  unfold earlyTold
  split
  · exact onward_refl installed.sendable
  split
  · split
    · exact dropped
    · exact onward_trans dropped (onward_early_refused dropped.sendable)
  · exact onward_same installed.sendable (calm_same rfl rfl rfl rfl) rfl

theorem onward_handshake (news : TlsNews) : Onward c (handshakeAfter c news) := by
  have opened : Onward c (stateOpened c) := onward_same sendable (calm_same rfl rfl rfl rfl) rfl
  unfold handshakeAfter
  split
  · unfold established
    split
    · exact onward_trans opened (onward_discard opened.sendable .handshake)
    · exact onward_trans opened (onward_same opened.sendable (calm_same rfl rfl rfl rfl) rfl)
  · exact onward_refl sendable

theorem onward_limits (news : TlsNews) : Onward c (limitsAfter c news) := by
  have params := onward_params_after sendable news
  have early := onward_early_after params.sendable news
  unfold limitsAfter
  split
  · exact onward_trans params (onward_trans early (onward_handshake early.sendable news))
  · exact params

omit sendable in
theorem onward_crypto_write (junk : Nat → Byte) (news : TlsNews) (c : QuicConn) (lvl : Level) (sendable : Sendable c) :
    Onward c (cryptoWrite junk news c lvl) := by
  unfold cryptoWrite
  split
  · exact onward_refl sendable
  · exact onward_space sendable lvl (write_sound (sendable.crypto lvl) junk _) le_rfl fun _ member => member

theorem onward_tls (junk : Nat → Byte) (news : TlsNews) : Onward c (tlsAfter junk c news) := by
  have written : Onward c (pendingWritten junk news c) := onward_each (onward_crypto_write junk news) _ sendable
  unfold tlsAfter
  split
  · exact onward_trans written (onward_fail written.sendable _)
  have keyed : Onward c (keysAfter (pendingWritten junk news c) news) :=
    onward_trans written (onward_same written.sendable (calm_same rfl rfl rfl rfl) rfl)
  exact onward_trans keyed (onward_limits keyed.sendable news)

omit sendable

structure Packed (lvl : Level) (c : QuicConn) (pk : Packing) : Prop where
  onward : Onward c pk.1
  frames : ∀ f ∈ pk.2, Within pk.1 lvl f

variable {pk : Packing}

theorem packed_step {after : QuicConn} (packed : Packed lvl c pk)
    (onward : Onward pk.1 after) {f : FrameRec} (within : Within after lvl f) : Packed lvl c (after, pk.2 ++ [f]) := by
  refine ⟨onward_trans packed.onward onward, fun other member => ?_⟩
  rcases mem_append.mp member with before | here
  · exact within_follows onward.follows (packed.frames other before)
  · cases mem_singleton.mp here
    exact within

theorem packed_control {after : QuicConn} (packed : Packed lvl c pk)
    (onward : Onward pk.1 after) (kind : FrameKind) (id value : Nat) (silent : kind ≠ .crypto ∧ kind ≠ .stream) :
    Packed lvl c (after, pk.2 ++ [controlRec kind id value]) := by
  refine packed_step packed onward ?_
  unfold Within
  split
  next crypto =>
    exact absurd crypto silent.1
  next stream =>
    exact absurd stream silent.2
  · exact True.intro

theorem packed_crypto (rooms : List Nat) (packed : Packed lvl c pk) : Packed lvl c (putCrypto lvl rooms pk) := by
  induction rooms generalizing pk with
  | nil => exact packed
  | cons room rooms ih =>
    rw [putCrypto]
    split
    · exact packed
    split
    · exact packed
    split
    · exact packed
    rename_i piece given _
    have sound := packed.onward.sendable.crypto lvl
    have offered := next_offered sound given
    obtain ⟨sent, next, _⟩ := sent_spec sound offered.high false
    have put : Onward pk.1 (cryptoPut pk.1 lvl piece) :=
      onward_space packed.onward.sendable lvl sent (next.ge.trans' (le_max_left _ _)) fun _ member => member
    refine ih (packed_step packed put ?_)
    show piece.off + piece.len ≤ ((cryptoPut pk.1 lvl piece).sp lvl).cryptoTx.next
    have place : ((cryptoPut pk.1 lvl piece).sp lvl).cryptoTx =
        sendqSent (pk.1.sp lvl).cryptoTx piece.off piece.len false := by
      show (Function.update pk.1.sp lvl _ lvl).cryptoTx = _
      rw [Function.update_self]
    rw [place, next]
    exact le_max_right _ _

theorem packed_control_frames (fits : FrameRec → Bool)
    (packed : Packed lvl c pk) : Packed lvl c (putControl fits pk) := by
  have data (pk : Packing) (packed : Packed lvl c pk) : Packed lvl c (putMaxData fits pk) := by
    unfold putMaxData
    dsimp only
    split
    · refine packed_control packed ?_ .maxData _ _ ⟨nofun, nofun⟩
      exact onward_same packed.onward.sendable (calm_same rfl rfl rfl rfl) rfl
    · exact packed
  have streams (k : StreamKind) (pk : Packing) (packed : Packed lvl c pk) : Packed lvl c (putMaxStreams fits k pk) := by
    unfold putMaxStreams
    dsimp only
    split
    · refine packed_control packed ?_ (.maxStreams k) _ _ ⟨nofun, nofun⟩
      exact onward_same packed.onward.sendable (calm_same rfl rfl rfl rfl) rfl
    · exact packed
  have owing (o : Owing) (kept : ∀ s, queuePart (o.clear s) = queuePart s)
      (silent : ∀ s, (o.frame s).kind ≠ .crypto ∧ (o.frame s).kind ≠ .stream) (id : Nat) (pk : Packing)
      (packed : Packed lvl c pk) : Packed lvl c (putOwing fits o id pk) := by
    unfold putOwing
    split
    · exact packed
    split
    next s _ _ =>
      refine packed_step packed (onward_same packed.onward.sendable (calm_set kept) rfl) ?_
      unfold Within
      split
      next crypto =>
        exact absurd crypto (silent s).1
      next stream =>
        exact absurd stream (silent s).2
      · exact True.intro
    · exact packed
  have all (ids : List Nat) (pk : Packing) (packed : Packed lvl c pk) :
      Packed lvl c (ids.foldl (putStreamControl fits) pk) := by
    induction ids generalizing pk with
    | nil => exact packed
    | cons id ids ih =>
      refine ih _ ?_
      refine owing maxOwing (fun _ => rfl) (fun _ => by simp [maxOwing, controlRec]) id _ ?_
      refine owing stopOwing (fun _ => rfl) (fun _ => by simp [stopOwing, controlRec]) id _ ?_
      exact owing resetOwing (fun _ => rfl) (fun _ => by simp [resetOwing, controlRec]) id pk packed
  unfold putControl
  exact all _ _ (streams .uni _ (streams .bidi _ (data pk packed)))

theorem onward_piece (sendable : Sendable c) {s : QStream} (member : s ∈ c.streams) {room limit : Nat}
    {piece : Piece} (given : sendqNext s.tx room limit = some piece) :
    Onward c (putPiece c s piece) ∧ ∀ t ∈ (putPiece c s piece).streams, t.id = s.id →
      piece.off + piece.len ≤ t.tx.next := by
  have offered := next_offered (sendable.queues s member) given
  have same (t : QStream) (found : streamFind c s.id = some t) : t = s := by
    obtain ⟨inside, sameId⟩ := find_mem QStream.id found
    exact inj_on_of_nodup_map sendable.table.unique inside member sameId
  obtain ⟨sound, next, _⟩ := sent_spec (sendable.queues s member) offered.high piece.fin
  have found : streamFind c s.id = some s := by
    have some_ := (find_isSome QStream.id).mpr ⟨s, member, rfl⟩
    obtain ⟨t, here⟩ := Option.isSome_iff_exists.mp some_
    have shown : streamFind c s.id = some t := here
    rw [shown, same t shown]
  unfold putPiece
  refine ⟨onward_update sendable rfl (fun t here => ?_) rfl rfl rfl rfl, fun t inside sameId => ?_⟩
  · rw [same t here]
    exact ⟨rfl, by dsimp only; rw [next]; exact le_max_left _ _, sound⟩
  rcases mem_update QStream.id sendable.table.unique found inside with changed | ⟨_, other⟩
  · rw [changed]
    rw [next]
    exact le_max_right _ _
  · exact absurd sameId other

theorem packed_streams (rooms : List Nat) (k : Nat)
    (packed : Packed lvl c pk) : Packed lvl c (putStreams rooms k pk) := by
  induction rooms generalizing k pk with
  | nil => exact packed
  | cons room rooms ih =>
    rw [putStreams]
    split
    · exact packed
    split
    · exact packed
    split
    · exact ih _ packed
    split
    · exact ih _ packed
    rename_i s place _ _ piece given
    have member : s ∈ pk.1.streams := mem_of_getElem? place
    have sendable := packed.onward.sendable
    obtain ⟨put, reach⟩ := onward_piece sendable member given
    have turned : Onward pk.1 (cursorTo (putPiece pk.1 s piece) ((pk.1.cursor + k + 1) % pk.1.streams.length)) :=
      onward_trans put (onward_same put.sendable (calm_same rfl rfl rfl rfl) rfl)
    refine ih 0 (packed_step packed turned ?_)
    exact ⟨turned.follows.used _ (sendable.table.used s member), reach⟩

theorem packed_start (sendable : Sendable c) : Packed lvl c (c, []) :=
  ⟨onward_refl sendable, fun _ member => absurd member not_mem_nil⟩

theorem packed_build (sendable : Sendable c) (lvl : Level) (fill : Filling) : Packed lvl c (buildPacket c lvl fill) := by
  have crypto : Packed lvl c (packCrypto c lvl fill) := by
    unfold packCrypto
    split
    · exact packed_start sendable
    · exact packed_crypto _ (packed_start sendable)
  unfold buildPacket
  split
  · exact packed_start sendable
  split
  · exact packed_streams _ _ (packed_control_frames fill.fits crypto)
  · exact crypto

/-- What `seal` leaves of its level. -/
def sealed (lvl : Level) (fill : Filling) (pk : Packing) (sp : Space) : Space :=
  let eliciting := !pk.2.isEmpty || fill.other
  let sp' := { sp with nextPn := sp.nextPn + 1 }
  if (eliciting || fill.padded) ∧ sp.sent.length < qcMaxSent then
    { sp' with
      sent := sp.sent ++ [{ pn := sp.nextPn, zeroRtt := zeroRtt pk.1 lvl, frames := pk.2 }]
      probes := if eliciting then sp.probes - 1 else sp.probes }
  else sp'

theorem seal_eq (lvl) (fill : Filling) (pk : Packing) :
    sealPacket lvl fill pk = setSpace pk.1 lvl (sealed lvl fill pk) := rfl

theorem sealed_keeps (lvl) (fill : Filling) (pk : Packing) (sp : Space) : (sealed lvl fill pk sp).cryptoTx = sp.cryptoTx ∧
      ∀ p ∈ (sealed lvl fill pk sp).sent, p ∈ sp.sent ∨ p.frames = pk.2 := by
  unfold sealed
  dsimp only
  split
  · refine ⟨rfl, fun p member => ?_⟩
    rcases mem_append.mp member with before | here
    · exact .inl before
    · cases mem_singleton.mp here
      exact .inr rfl
  · exact ⟨rfl, fun p member => .inl member⟩

theorem onward_seal (packed : Packed lvl c pk) (fill : Filling) : Onward c (sealPacket lvl fill pk) := by
  have sendable := packed.onward.sendable
  obtain ⟨crypto, sent⟩ := sealed_keeps lvl fill pk (pk.1.sp lvl)
  have place (other : Level) :
      (sealPacket lvl fill pk).sp other = if other = lvl then sealed lvl fill pk (pk.1.sp lvl) else pk.1.sp other := by
    rw [seal_eq]
    show Function.update pk.1.sp lvl (sealed lvl fill pk (pk.1.sp lvl)) other = _
    rw [Function.update_apply]
  have queue (other : Level) : ((sealPacket lvl fill pk).sp other).cryptoTx = (pk.1.sp other).cryptoTx := by
    rw [place]
    split
    next here =>
      rw [here, crypto]
    · rfl
  have calm : Calm queuePart pk.1 (sealPacket lvl fill pk) := calm_seal lvl fill pk
  have follows : Follows pk.1 (sealPacket lvl fill pk) := by
    refine ⟨fun id used => (used_calm calm id).mpr used, fun s member => .inl ⟨s, member, rfl, le_rfl⟩, fun other => ?_⟩
    rw [queue]
  refine ⟨⟨table_calm sendable.table (id_of_queue calm), fun s member => sendable.queues s member, fun other => ?_,
    fun other p member f inside => ?_⟩, follows_trans packed.onward.follows follows⟩
  · rw [queue]
    exact sendable.crypto other
  rw [place] at member
  refine within_follows follows ?_
  split at member
  next here =>
    rcases sent p member with before | new
    · exact here ▸ sendable.recorded lvl p before f inside
    rw [new] at inside
    exact here ▸ packed.frames f inside
  · exact sendable.recorded other p member f inside

include sendable

theorem onward_write {junk : Nat → Byte} {after : QuicConn} {id : Nat} {data bytes : List Byte}
    {fin : Bool} (written : streamWrite junk c id data fin = some (after, bytes)) : Onward c after := by
  unfold streamWrite at written
  split at written
  · cases written
  split at written
  · cases written
  split at written
  · cases written
  rename_i here _ _
  dsimp only at written
  generalize min data.length (txRoom c here) = n at written
  cases written
  refine onward_update sendable rfl (fun s found => ?_) rfl rfl rfl rfl
  have sound := sendable.queues s (find_mem QStream.id found).1
  refine ⟨rfl, ?_, ?_⟩
  · dsimp only
    split
    all_goals exact le_rfl
  refine ended_sound ?_ _
  split
  · exact sound
  · exact write_sound sound junk _

theorem onward_write_step (junk : Nat → Byte) (id : Nat) (data : List Byte)
    (fin : Bool) : Onward c (writeStep junk c id data fin).1 := by
  unfold writeStep
  cases written : streamWrite junk c id data fin with
  | none => exact onward_refl sendable
  | some result => exact onward_write sendable written

theorem onward_reset (id code : Nat) : Onward c (streamReset c id code) := by
  unfold streamReset
  split
  · exact onward_refl sendable
  split
  · exact onward_refl sendable
  · exact onward_tx_reset sendable _ code

theorem onward_read_frame (junk : Nat → Byte) (f : Frame) : Onward c (readFrame junk c f).1 := by
  have frame := onward_frame sendable junk f
  unfold readFrame
  split
  · exact onward_refl sendable
  split
  next reached =>
    rwa [reached] at frame
  rename_i reached
  rw [reached] at frame
  exact onward_trans frame (onward_fail frame.sendable _)

theorem onward_read_ack (lvl) (largest : Nat) (ranges : List (Nat × Nat)) :
    Onward c (readAck lvl c largest ranges).1 := by
  have acked := onward_ack sendable lvl largest ranges
  unfold readAck
  split
  · exact onward_refl sendable
  split
  next reached =>
    rwa [reached] at acked
  rename_i reached
  rw [reached] at acked
  exact onward_trans acked (onward_fail acked.sendable _)

theorem onward_send (lvl) (fill : Filling) : Onward c (sendPacket c lvl fill).1 := by
  unfold sendPacket
  split
  · exact onward_refl sendable
  · exact onward_seal (packed_build sendable lvl fill) fill

theorem onward_read (id cap : Nat) : Onward c (readStep c id cap).1 := by
  unfold readStep
  split
  · exact onward_refl sendable
  rename_i taken
  exact onward_quiet sendable (queue_of_tx (tx_calm_read taken)) (account_read taken)

theorem onward_drain : Onward c (drainStep c) := by
  refine onward_same sendable (calm_drain c) ?_
  unfold drainStep
  split <;> rfl

theorem onward_step (step : ConnStep) : Onward c (connStep c step).1 := by
  cases step with
  | frame junk f => exact onward_read_frame sendable junk f
  | ack lvl largest ranges => exact onward_read_ack sendable lvl largest ranges
  | lost lvl which => exact onward_lost sendable lvl which
  | probe lvl => exact onward_probe sendable lvl
  | retry => exact onward_retry sendable
  | discard lvl =>
    show Onward c (discardStep lvl c)
    unfold discardStep
    split
    · exact onward_refl sendable
    · exact onward_discard sendable lvl
  | tls junk news =>
    show Onward c (tlsStep junk c news).1
    unfold tlsStep
    split
    · exact onward_tls sendable junk news
    · exact onward_refl sendable
  | refuse error => exact onward_fail sendable error
  | drain => exact onward_drain sendable
  | expire | elsewhere => exact onward_same sendable (calm_same rfl rfl rfl rfl) rfl
  | open_ k =>
    show Onward c (openStep c k)
    unfold openStep
    split
    · exact onward_refl sendable
    rename_i opened
    exact onward_opened sendable (stream_open_spec opened).1
  | write junk id data fin => exact onward_write_step sendable junk id data fin
  | room id =>
    show Onward c (streamRoom c id).1
    exact onward_quiet sendable (queue_of_tx (tx_of_both (calm_room c id))) (account_room c id)
  | read id cap => exact onward_read sendable id cap
  | reset id code => exact onward_reset sendable id code
  | stop id code =>
    show Onward c (streamStop c id code)
    exact onward_quiet sendable (queue_of_tx (tx_calm_stop c id code)) (account_stop c id code)
  | close code => exact onward_fail sendable _
  | poll =>
    show Onward c (connPoll c)
    exact onward_quiet sendable (queue_of_tx (tx_of_both (calm_poll c))) (account_poll c)
  | capWindow n =>
    show Onward c (capWindow c n)
    exact onward_quiet sendable (queue_of_tx (tx_of_both (calm_cap c n))) (account_cap c n)
  | setMaxStreams n =>
    show Onward c (setMaxStreams c n)
    exact onward_quiet sendable (queue_of_tx (tx_of_both (calm_max_streams c n))) (account_set_max_streams c n)
  | packet lvl fill => exact onward_send sendable lvl fill

omit sendable

theorem new_sendable (cfg : QuicConfig) (server : Bool) (now cwnd : Nat) : Sendable (connNew cfg server now cwnd) :=
  { table := ⟨nodup_nil, fun _ member => absurd member not_mem_nil⟩
    queues := fun _ member => absurd member not_mem_nil
    crypto := fun _ => empty_sound
    recorded := fun _ _ member => absurd member not_mem_nil }

end ProvenC.Quic.Records

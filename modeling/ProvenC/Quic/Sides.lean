import ProvenC.Quic.Calls

/-!
# The two sides of a stream

What an operation leaves of a stream: most change one side only, the receiving or the sending one, or
neither.
-/

namespace ProvenC.Quic.Sides

open Bytes Quic.RangeSet Quic.Queues Quic.Streams Quic.Frames
open Quic.Calls Lib.Slots Lib.Runs

structure RxPart where
  id : Nat
  isLocal : Bool
  hasRx : Bool
  rx : RecvQ
  rxReset : Bool
  rxStopped : Bool
  rxFinRead : Bool

def rxPart (s : QStream) : RxPart :=
  { id := s.id, isLocal := s.isLocal, hasRx := s.hasRx, rx := s.rx, rxReset := s.rxReset
    rxStopped := s.rxStopped, rxFinRead := s.rxFinRead }

structure TxPart where
  id : Nat
  isLocal : Bool
  hasTx : Bool
  tx : SendQ
  txMax : Nat
  txReset : Bool
  txResetOwed : Bool
  txResetAcked : Bool
  txResetFinal : Nat

def txPart (s : QStream) : TxPart :=
  { id := s.id, isLocal := s.isLocal, hasTx := s.hasTx, tx := s.tx, txMax := s.txMax, txReset := s.txReset
    txResetOwed := s.txResetOwed, txResetAcked := s.txResetAcked, txResetFinal := s.txResetFinal }

def bothParts (s : QStream) : RxPart × TxPart := (rxPart s, txPart s)

variable {Part Other : Type} {part : QStream → Part}

/-- No stream was opened and `part` of none was changed; some may have been freed. -/
structure Calm (part : QStream → Part) (c after : QuicConn) : Prop where
  parts : (after.streams.map part).Subperm (c.streams.map part)
  server : after.server = c.server
  localOpened : after.localOpened = c.localOpened
  peerOpened : after.peerOpened = c.peerOpened

theorem calm_refl (c) : Calm part c c := ⟨List.Subperm.refl _, rfl, rfl, rfl⟩

variable {c : QuicConn}

theorem calm_trans {middle after : QuicConn} (first : Calm part c middle) (second : Calm part middle after) :
    Calm part c after :=
  ⟨second.parts.trans first.parts, second.server.trans first.server, second.localOpened.trans first.localOpened,
    second.peerOpened.trans first.peerOpened⟩

theorem subperm_map {left right : List Part} (less : left.Subperm right) (f : Part → Other) :
    (left.map f).Subperm (right.map f) := by
  obtain ⟨kept, permuted, sublist⟩ := less
  exact ⟨kept.map f, permuted.map f, sublist.map f⟩

theorem calm_map {after : QuicConn} (calm : Calm part c after) (f : Part → Other) : Calm (fun s => f (part s)) c after :=
  ⟨by simpa [Function.comp_def] using subperm_map calm.parts f, calm.server, calm.localOpened, calm.peerOpened⟩

theorem calm_mem {after : QuicConn} (calm : Calm part c after) {s : QStream} (member : s ∈ after.streams) :
    ∃ before ∈ c.streams, part before = part s :=
  List.mem_map.mp (calm.parts.subset (List.mem_map_of_mem (f := part) member))

theorem calm_unique {after : QuicConn} (calm : Calm QStream.id c after) (unique : (c.streams.map QStream.id).Nodup) :
    (after.streams.map QStream.id).Nodup := by
  obtain ⟨kept, permuted, sublist⟩ := calm.parts
  exact permuted.nodup_iff.mp (unique.sublist sublist)

theorem calm_fold {Item : Type} {f : QuicConn → Item → QuicConn} (calm : ∀ c item, Calm part c (f c item)) (items : List Item)
    (c : QuicConn) : Calm part c (items.foldl f c) := by
  induction items generalizing c with
  | nil => exact calm_refl c
  | cons item items ih => exact calm_trans (calm c item) (ih _)

variable {change : QStream → QStream}

theorem calm_set {id : Nat} (kept : ∀ s, part (change s) = part s) : Calm part c (setStream c id change) := by
  refine ⟨?_, rfl, rfl, rfl⟩
  rw [show (setStream c id change).streams.map part = c.streams.map part from
    map_update QStream.id fun s _ _ => kept s]

theorem calm_update {after : QuicConn} {id : Nat}
    (streams : after.streams = update QStream.id id change c.streams) (kept : ∀ s, part (change s) = part s)
    (server : after.server = c.server) (localOpened : after.localOpened = c.localOpened)
    (peerOpened : after.peerOpened = c.peerOpened) : Calm part c after := by
  refine ⟨?_, server, localOpened, peerOpened⟩
  rw [streams, map_update QStream.id fun s _ _ => kept s]

theorem calm_each {after : QuicConn} (streams : after.streams = c.streams.map change)
    (kept : ∀ s, part (change s) = part s) (server : after.server = c.server)
    (localOpened : after.localOpened = c.localOpened) (peerOpened : after.peerOpened = c.peerOpened) :
    Calm part c after := by
  refine ⟨?_, server, localOpened, peerOpened⟩
  rw [streams, List.map_map, show part ∘ change = part from funext kept]

theorem calm_same {after : QuicConn} (streams : after.streams = c.streams) (server : after.server = c.server)
    (localOpened : after.localOpened = c.localOpened) (peerOpened : after.peerOpened = c.peerOpened) :
    Calm part c after := by
  refine ⟨?_, server, localOpened, peerOpened⟩
  rw [streams]

theorem calm_fail (c) (error : TransportError) : Calm part c (connFail c error) := by
  unfold connFail
  split
  · exact ⟨List.Subperm.refl _, rfl, rfl, rfl⟩
  · exact calm_refl c

theorem calm_taken (c) (s : QStream) : Calm part c (streamTaken c s) :=
  ⟨subperm_map (remove_subperm QStream.id s.id c.streams) part, rfl, rfl, rfl⟩

theorem calm_closed (c) (k : StreamKind) : Calm part c (streamClosed c k) := by
  unfold streamClosed
  dsimp only
  split
  all_goals exact ⟨List.Subperm.refl _, rfl, rfl, rfl⟩

theorem calm_free (c) (id : Nat) : Calm part c (streamMaybeFree c id) := by
  unfold streamMaybeFree
  split
  · exact calm_refl c
  rename_i s _
  split
  · exact calm_refl c
  split
  · exact calm_taken c s
  · exact calm_trans (calm_taken c s) (calm_closed _ _)

theorem calm_space (c) (lvl : Level) (change : Space → Space) : Calm part c (setSpace c lvl change) :=
  ⟨List.Subperm.refl _, rfl, rfl, rfl⟩

theorem calm_keep (lvl) (stays : SentPacket → Bool) (c : QuicConn) : Calm part c (keepSent lvl stays c) :=
  calm_space c lvl _

theorem rx_of_both {after : QuicConn} (calm : Calm bothParts c after) : Calm rxPart c after := calm_map calm Prod.fst

theorem tx_of_both {after : QuicConn} (calm : Calm bothParts c after) : Calm txPart c after := calm_map calm Prod.snd

theorem id_of_rx {after : QuicConn} (calm : Calm rxPart c after) : Calm QStream.id c after := calm_map calm RxPart.id

theorem calm_poll_room (c) : Calm bothParts c (pollRoom c) := by
  unfold pollRoom
  split
  · exact calm_each rfl (fun s => rfl) rfl rfl rfl
  · exact calm_refl c

theorem poll_stream_parts (s : QStream) : bothParts ((pollStream s).getD s) = bothParts s := by
  unfold pollStream
  repeat' split
  all_goals rfl

theorem calm_poll (c) : Calm bothParts c (connPoll c) := by
  unfold connPoll
  split
  · exact calm_same rfl rfl rfl rfl
  refine calm_trans (calm_poll_room c) ?_
  generalize pollRoom c = c
  dsimp only
  split
  · exact calm_refl c
  split
  · exact calm_refl c
  refine calm_trans ?_ (calm_free _ _)
  exact calm_update rfl poll_stream_parts rfl rfl rfl

theorem calm_cap (c) (n : Nat) : Calm bothParts c (capWindow c n) :=
  calm_each rfl (fun _ => rfl) rfl rfl rfl

theorem calm_max_streams (c) (n : Nat) : Calm bothParts c (setMaxStreams c n) := by
  unfold setMaxStreams
  split
  · exact calm_refl c
  dsimp only
  split
  all_goals exact calm_same rfl rfl rfl rfl

theorem calm_stream_credit (c) (s : QStream) : Calm bothParts c (rxStreamCredit c s) := by
  unfold rxStreamCredit
  split
  · exact calm_refl c
  dsimp only
  split
  all_goals exact calm_update rfl (fun s => rfl) rfl rfl rfl

theorem calm_conn_credit (c) : Calm bothParts c (rxConnCredit c) := by
  unfold rxConnCredit
  split
  · exact ⟨List.Subperm.refl _, rfl, rfl, rfl⟩
  · exact calm_refl c

theorem calm_credit (c) (s : Option QStream) (n : Nat) : Calm bothParts c (rxCredit c s n) := by
  have counted : Calm bothParts c (rxCounted c n) := calm_same rfl rfl rfl rfl
  unfold rxCredit
  cases s with
  | none => exact calm_trans counted (calm_conn_credit _)
  | some s => exact calm_trans counted (calm_trans (calm_stream_credit _ s) (calm_conn_credit _))

theorem calm_put_owing (fits : FrameRec → Bool) {o : Owing} (kept : ∀ s, part (o.clear s) = part s) (id : Nat) (pk : Packing) :
    Calm part pk.1 (putOwing fits o id pk).1 := by
  unfold putOwing
  split
  · exact calm_refl _
  split
  · exact calm_set kept
  · exact calm_refl _

theorem calm_retry (c) : Calm part c (onRetry c) := calm_space c .initial _

theorem calm_discard (lvl) (c : QuicConn) : Calm part c (spaceDiscard lvl c) := by
  unfold spaceDiscard
  split
  · exact calm_refl c
  · exact calm_space _ _ _

theorem calm_discard_step (lvl) (c : QuicConn) : Calm part c (discardStep lvl c) := by
  unfold discardStep
  split
  · exact calm_refl c
  · exact calm_discard lvl c

theorem calm_drain (c) : Calm part c (drainStep c) := by
  unfold drainStep
  split
  · exact calm_same rfl rfl rfl rfl
  · exact calm_refl c

theorem rx_calm_tx_reset (c) (s : QStream) (code : Nat) : Calm rxPart c (streamTxReset c s code) := by
  unfold streamTxReset
  split
  · exact calm_refl c
  · exact calm_update rfl (fun s => rfl) rfl rfl rfl

theorem rx_calm_stop_take (c) (s : QStream) (code : Nat) : Calm rxPart c (stopTake c s code) := by
  unfold stopTake
  split
  · refine calm_trans (rx_calm_tx_reset c s code) ?_
    exact calm_set fun s => rfl
  · exact calm_refl c

theorem rx_calm_raise (c) (s : QStream) (value : Nat) : Calm rxPart c (raiseTxMax c s value) := by
  unfold raiseTxMax
  split
  · exact calm_set fun s => rfl
  · exact calm_refl c

theorem rx_calm_frame_acked (lvl) (c : QuicConn) (f : FrameRec) : Calm rxPart c (frameAcked lvl c f) := by
  unfold frameAcked
  split
  · exact calm_space _ _ _
  · split
    · exact calm_refl c
    rename_i s _
    split
    · exact calm_refl c
    refine calm_trans ?_ (calm_free _ _)
    exact calm_update rfl (fun s => rfl) rfl rfl rfl
  · refine calm_trans ?_ (calm_free _ _)
    exact calm_set fun s => rfl
  · exact calm_refl c

variable (lvl : Level)
include lvl

theorem rx_calm_frame_lost (c) (f : FrameRec) : Calm rxPart c (frameLost lvl c f) := by
  unfold frameLost
  split
  · exact calm_space _ _ _
  · exact calm_set fun s => by split <;> rfl
  · exact calm_set fun s => by split <;> rfl
  · exact calm_set fun s => by split <;> rfl
  · exact ⟨List.Subperm.refl _, rfl, rfl, rfl⟩
  · exact calm_set fun s => by split <;> rfl
  · exact ⟨List.Subperm.refl _, rfl, rfl, rfl⟩

theorem rx_calm_packet_acked (c) (p : SentPacket) : Calm rxPart c (packetAcked lvl c p) :=
  calm_fold (rx_calm_frame_acked lvl) p.frames c

theorem rx_calm_packet_lost (c) (p : SentPacket) : Calm rxPart c (packetLost lvl c p) :=
  calm_fold (rx_calm_frame_lost lvl) p.frames c

theorem rx_calm_range (c) (range : Nat × Nat) : Calm rxPart c (rangeAcked lvl c range) :=
  calm_trans (calm_fold (rx_calm_packet_acked lvl) _ c) (calm_keep lvl _ _)

theorem rx_calm_ack (c) (largest : Nat) (ranges : List (Nat × Nat)) : Calm rxPart c (onAck lvl c largest ranges).1 := by
  unfold onAck
  split
  · exact calm_refl c
  · exact calm_fold (rx_calm_range lvl) ranges c

theorem rx_calm_lost (c) (which : Nat → Bool) : Calm rxPart c (detectLost lvl c which) :=
  calm_trans (calm_fold (rx_calm_packet_lost lvl) _ c) (calm_keep lvl _ _)

theorem rx_calm_oldest (c) : Calm rxPart c (oldestLost lvl c) :=
  calm_fold (rx_calm_packet_lost lvl) _ c

theorem rx_calm_probe (c) : Calm rxPart c (onProbe lvl c) := by
  have owed : Calm rxPart c (probeOwed lvl c) := calm_space c lvl _
  unfold onProbe
  split
  · exact calm_refl c
  split
  · exact calm_trans owed (rx_calm_oldest lvl _)
  · exact calm_trans (calm_trans owed (rx_calm_oldest lvl _)) (calm_space _ lvl _)

omit lvl

theorem rx_calm_params (c) (tp : PeerParams) (checks : ParamChecks) : Calm rxPart c (applyPeerParams c tp checks) := by
  have noted : Calm rxPart c { c with peerTp := tp, havePeerTp := true } := ⟨List.Subperm.refl _, rfl, rfl, rfl⟩
  unfold applyPeerParams
  split
  · exact calm_trans noted (calm_fail _ _)
  split
  · exact calm_trans noted (calm_fail _ _)
  have limits : Calm rxPart c (takeLimits { c with peerTp := tp, havePeerTp := true } tp) :=
    ⟨List.Subperm.refl _, rfl, rfl, rfl⟩
  dsimp only
  split
  · refine calm_trans limits (calm_each rfl (fun s => ?_) rfl rfl rfl)
    split <;> rfl
  · exact limits

theorem calm_zr_install (c) (remembered : Option PeerParams) : Calm part c (zrInstall c remembered) := by
  unfold zrInstall
  split
  · exact calm_refl c
  dsimp only
  split
  · exact ⟨List.Subperm.refl _, rfl, rfl, rfl⟩
  · split <;> exact ⟨List.Subperm.refl _, rfl, rfl, rfl⟩

theorem rx_calm_zero_rtt (c) : Calm rxPart c (zeroRttLost c) :=
  calm_trans (calm_fold (rx_calm_packet_lost .application) _ c) (calm_keep .application _ _)

theorem rx_calm_server_limits (c) : Calm rxPart c (serverLimits c) :=
  calm_each rfl (fun s => by split <;> rfl) rfl rfl rfl

theorem rx_calm_early_refused (c) : Calm rxPart c (earlyRefused c) := by
  unfold earlyRefused
  split
  · exact rx_calm_zero_rtt c
  refine calm_trans (rx_calm_zero_rtt c) ?_
  unfold refusedLimits
  split
  · exact rx_calm_server_limits _
  · exact calm_trans (rx_calm_server_limits _) (calm_fail _ _)

theorem rx_calm_early_after (c) (news : TlsNews) : Calm rxPart c (earlyAfter c news) := by
  have installed : Calm rxPart c (earlyInstall c news) := by
    unfold earlyInstall
    split
    · exact calm_refl c
    · exact calm_zr_install c _
  unfold earlyAfter
  refine calm_trans installed ?_
  generalize earlyInstall c news = c
  unfold earlyTold
  split
  · exact calm_refl c
  split
  · have dropped : Calm rxPart c (zrDrop { c with early := news.early }) := calm_same rfl rfl rfl rfl
    split
    · exact dropped
    · exact calm_trans dropped (rx_calm_early_refused _)
  · exact calm_same rfl rfl rfl rfl

theorem calm_established (c) : Calm part c (established c) := by
  have opened : Calm part c (stateOpened c) := calm_same rfl rfl rfl rfl
  unfold established
  split
  · exact calm_trans opened (calm_discard _ _)
  · exact calm_trans opened (calm_same rfl rfl rfl rfl)

theorem calm_crypto_write (junk : Nat → Byte) (news : TlsNews) (c : QuicConn) (lvl : Level) :
    Calm part c (cryptoWrite junk news c lvl) := by
  unfold cryptoWrite
  split
  · exact calm_refl c
  · exact calm_space _ _ _

theorem rx_calm_params_after (c) (news : TlsNews) : Calm rxPart c (paramsAfter c news) := by
  unfold paramsAfter
  split
  · exact calm_refl c
  split
  · exact calm_refl c
  · exact rx_calm_params c _ _

theorem calm_handshake (c) (news : TlsNews) : Calm part c (handshakeAfter c news) := by
  unfold handshakeAfter
  split
  · exact calm_established c
  · exact calm_refl c

theorem rx_calm_limits_after (c) (news : TlsNews) : Calm rxPart c (limitsAfter c news) := by
  unfold limitsAfter
  split
  · exact calm_trans (calm_trans (rx_calm_params_after c news) (rx_calm_early_after _ news)) (calm_handshake _ news)
  · exact rx_calm_params_after c news

theorem rx_calm_tls (junk : Nat → Byte) (c : QuicConn) (news : TlsNews) : Calm rxPart c (tlsAfter junk c news) := by
  have written : Calm rxPart c (pendingWritten junk news c) := calm_fold (calm_crypto_write junk news) _ c
  unfold tlsAfter
  split
  · exact calm_trans written (calm_fail _ _)
  have keyed : Calm rxPart c (keysAfter (pendingWritten junk news c) news) :=
    calm_trans written (calm_same rfl rfl rfl rfl)
  exact calm_trans keyed (rx_calm_limits_after _ news)

theorem rx_calm_write {junk : Nat → Byte} {after : QuicConn} {id : Nat} {data bytes : List Byte} {fin : Bool}
    (written : streamWrite junk c id data fin = some (after, bytes)) : Calm rxPart c after := by
  unfold streamWrite at written
  split at written
  · cases written
  split at written
  · cases written
  split at written
  · cases written
  · cases written
    exact calm_update rfl (fun s => rfl) rfl rfl rfl

theorem calm_room (c) (id : Nat) : Calm bothParts c (streamRoom c id).1 := by
  unfold streamRoom
  repeat' split
  all_goals first | exact calm_refl c | exact calm_set fun s => rfl

theorem rx_calm_reset (c) (id code : Nat) : Calm rxPart c (streamReset c id code) := by
  unfold streamReset
  split
  · exact calm_refl c
  split
  · exact calm_refl c
  · exact rx_calm_tx_reset c _ code

theorem calm_crypto (lvl) (rooms : List Nat) (pk : Packing) : Calm part pk.1 (putCrypto lvl rooms pk).1 := by
  induction rooms generalizing pk with
  | nil => exact calm_refl _
  | cons room rooms ih =>
    rw [putCrypto]
    split
    · exact calm_refl _
    split
    · exact calm_refl _
    split
    · exact calm_refl _
    rename_i piece _ _
    have put : Calm part pk.1 (cryptoPut pk.1 lvl piece) := calm_space pk.1 lvl _
    exact calm_trans put (ih (cryptoPut pk.1 lvl piece, _))

theorem calm_max_data (fits : FrameRec → Bool) (pk : Packing) : Calm part pk.1 (putMaxData fits pk).1 := by
  unfold putMaxData
  dsimp only
  split
  · exact ⟨List.Subperm.refl _, rfl, rfl, rfl⟩
  · exact calm_refl _

theorem calm_put_max_streams (fits : FrameRec → Bool) (k : StreamKind) (pk : Packing) :
    Calm part pk.1 (putMaxStreams fits k pk).1 := by
  unfold putMaxStreams
  dsimp only
  split
  · exact ⟨List.Subperm.refl _, rfl, rfl, rfl⟩
  · exact calm_refl _

theorem rx_calm_control (fits : FrameRec → Bool) (pk : Packing) : Calm rxPart pk.1 (putControl fits pk).1 := by
  have one (pk : Packing) (id : Nat) : Calm rxPart pk.1 (putStreamControl fits pk id).1 :=
    calm_trans (calm_put_owing fits (fun s => rfl) id pk)
      (calm_trans (calm_put_owing fits (fun s => rfl) id _) (calm_put_owing fits (fun s => rfl) id _))
  have all (ids : List Nat) (pk : Packing) : Calm rxPart pk.1 (ids.foldl (putStreamControl fits) pk).1 := by
    induction ids generalizing pk with
    | nil => exact calm_refl _
    | cons id ids ih => exact calm_trans (one pk id) (ih _)
  unfold putControl
  refine calm_trans (calm_max_data fits pk) ?_
  refine calm_trans (calm_put_max_streams fits .bidi _) ?_
  exact calm_trans (calm_put_max_streams fits .uni _) (all _ _)

theorem rx_calm_piece (c) (s : QStream) (piece : Piece) : Calm rxPart c (putPiece c s piece) := by
  unfold putPiece
  exact calm_update rfl (fun s => rfl) rfl rfl rfl

theorem rx_calm_streams (rooms : List Nat) (k : Nat) (pk : Packing) : Calm rxPart pk.1 (putStreams rooms k pk).1 := by
  induction rooms generalizing k pk with
  | nil => exact calm_refl _
  | cons room rooms ih =>
    rw [putStreams]
    split
    · exact calm_refl _
    split
    · exact calm_refl _
    split
    · exact ih _ _
    split
    · exact ih _ _
    rename_i s _ _ _ piece _
    have turned : Calm rxPart pk.1 (cursorTo (putPiece pk.1 s piece) ((pk.1.cursor + k + 1) % pk.1.streams.length)) :=
      calm_trans (rx_calm_piece pk.1 s piece) (calm_same rfl rfl rfl rfl)
    exact calm_trans turned (ih 0 (cursorTo _ _, _))

theorem calm_pack_crypto (c) (lvl : Level) (fill : Filling) : Calm part c (packCrypto c lvl fill).1 := by
  unfold packCrypto
  split
  · exact calm_refl c
  · exact calm_crypto lvl _ (c, [])

theorem rx_calm_build (c) (lvl : Level) (fill : Filling) : Calm rxPart c (buildPacket c lvl fill).1 := by
  unfold buildPacket
  split
  · exact calm_refl c
  split
  · exact calm_trans (calm_pack_crypto c lvl fill) (calm_trans (rx_calm_control fill.fits _) (rx_calm_streams _ _ _))
  · exact calm_pack_crypto c lvl fill

theorem calm_seal (lvl) (fill : Filling) (pk : Packing) : Calm part pk.1 (sealPacket lvl fill pk) := by
  unfold sealPacket
  exact calm_space _ _ _

theorem rx_calm_send (c) (lvl : Level) (fill : Filling) : Calm rxPart c (sendPacket c lvl fill).1 := by
  unfold sendPacket
  split
  · exact calm_refl c
  · exact calm_trans (rx_calm_build c lvl fill) (calm_seal lvl fill _)

theorem tx_calm_charge (c) (s : QStream) (end_ : Nat) : Calm part c (charge c s end_) := by
  unfold charge
  split
  · exact calm_same rfl rfl rfl rfl
  · exact calm_refl c

theorem tx_calm_take (junk : Nat → Byte) (c : QuicConn) (s : QStream) (off : Nat) (data : List Byte) (fin : Bool) :
    Calm txPart c (streamTake junk c s off data fin).1 := by
  have kept (c : QuicConn) : Calm txPart c (streamKeep junk c s off data fin) := by
    unfold streamKeep
    exact calm_update rfl (fun s => rfl) rfl rfl rfl
  unfold streamTake
  dsimp only
  split
  · exact calm_refl c
  split
  · exact tx_calm_charge c s _
  · exact calm_trans (tx_calm_charge c s _) (kept _)

theorem tx_calm_reset_take (c) (s : QStream) (code finalSize : Nat) : Calm txPart c (resetTake c s code finalSize).1 := by
  have charged : Calm txPart c { c with rxData := c.rxData + (finalSize - s.rx.highest) } := calm_same rfl rfl rfl rfl
  unfold resetTake
  split
  · exact calm_refl c
  dsimp only
  split
  · exact charged
  split
  all_goals refine calm_trans charged ?_
  · exact calm_set fun s => rfl
  refine calm_trans ?_ (tx_of_both (calm_credit _ none _))
  exact calm_update rfl (fun s => rfl) rfl rfl rfl

theorem read_end_parts (s : QStream) : txPart (readEnd s) = txPart s := by
  unfold readEnd
  repeat' split
  all_goals rfl

theorem tx_calm_read {after : QuicConn} {id cap : Nat} {bytes : List Byte} {fin : Bool}
    (taken : streamRead c id cap = some (after, bytes, fin)) : Calm txPart c after := by
  have hand (s : QStream) : Calm txPart c (readHand c s cap) := by
    unfold readHand
    exact calm_update rfl (fun s => rfl) rfl rfl rfl
  have take (s : QStream) : Calm txPart c (readTake c s cap) := by
    unfold readTake
    dsimp only
    split
    · exact hand s
    · exact calm_trans (hand s) (tx_of_both (calm_credit _ _ _))
  unfold streamRead at taken
  split at taken
  · cases taken
  split at taken
  · cases taken
  rename_i s _ _
  cases taken
  refine calm_trans (take s) ?_
  refine calm_trans ?_ (calm_free _ _)
  exact calm_set read_end_parts

theorem tx_calm_stop (c) (id code : Nat) : Calm txPart c (streamStop c id code) := by
  have stopped (s : QStream) : Calm txPart c (stopRead c s code) := by
    unfold stopRead
    exact calm_update rfl (fun s => rfl) rfl rfl rfl
  unfold streamStop
  split
  · exact calm_refl c
  split
  · exact calm_refl c
  split
  · exact calm_refl c
  · exact calm_trans (stopped _) (calm_trans (tx_of_both (calm_credit _ none _)) (calm_free _ _))

end ProvenC.Quic.Sides

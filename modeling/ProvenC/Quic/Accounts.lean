import ProvenC.Quic.Opening
import ProvenC.Quic.Sending

/-!
# What an operation leaves of the connection's accounts

Beside its streams a connection keeps what its sending is reckoned by: the limits it was granted, the
bytes it counted, and the records of what is on its way.
-/

namespace ProvenC.Quic.Accounts

open Bytes Quic.RangeSet Quic.Queues Quic.Streams Quic.Frames
open Quic.Calls Quic.Sending Quic.Sides Quic.Opening Lib.Slots Lib.Runs

/-- What sending is reckoned by, the streams apart: of each packet number space, what `part`
shows of it. -/
structure SendAccount (Part : Type) where
  state : ConnState
  server : Bool
  zrOk : Bool
  zrDone : Bool
  peerTp : PeerParams
  txMaxData : Nat
  txData : Nat
  peerMaxStreams : StreamKind → Nat
  sp : Level → Part

def sendAccount {Part : Type} (part : Space → Part) (c : QuicConn) : SendAccount Part :=
  { state := c.state, server := c.server, zrOk := c.zrOk, zrDone := c.zrDone, peerTp := c.peerTp
    txMaxData := c.txMaxData, txData := c.txData, peerMaxStreams := c.peerMaxStreams
    sp := fun lvl => part (c.sp lvl) }

def spaceMark (sp : Space) : List SentPacket × Nat := (sp.sent, sp.cryptoTx.next)

variable {Part : Type} {part : Space → Part}

theorem account_fold {Item Account : Type} {account : QuicConn → Account} {f : QuicConn → Item → QuicConn}
    (kept : ∀ c item, account (f c item) = account c) (items : List Item) (c : QuicConn) :
    account (items.foldl f c) = account c := by
  induction items generalizing c with
  | nil => rfl
  | cons item items ih => rw [List.foldl_cons, ih, kept]

variable (c : QuicConn)
include c

theorem set_space_part (lvl other : Level) {change : Space → Space} (kept : part (change (c.sp lvl)) = part (c.sp lvl)) :
    part ((setSpace c lvl change).sp other) = part (c.sp other) := by
  show part (Function.update c.sp lvl (change (c.sp lvl)) other) = part (c.sp other)
  by_cases here : other = lvl
  · rw [here, Function.update_self, kept]
  · rw [Function.update_of_ne here]

theorem account_space (lvl : Level) {change : Space → Space} (kept : part (change (c.sp lvl)) = part (c.sp lvl)) :
    sendAccount part (setSpace c lvl change) = sendAccount part c := by
  have same : (fun other => part ((setSpace c lvl change).sp other)) = fun other => part (c.sp other) :=
    funext fun other => set_space_part c lvl other kept
  unfold sendAccount
  rw [same]
  rfl

theorem account_free (id : Nat) : sendAccount part (streamMaybeFree c id) = sendAccount part c := by
  have closed (c : QuicConn) (k : StreamKind) : sendAccount part (streamClosed c k) = sendAccount part c := by
    unfold streamClosed
    dsimp only
    split <;> rfl
  unfold streamMaybeFree
  split
  · rfl
  split
  · rfl
  split
  · rfl
  rw [closed]
  rfl

theorem account_credit (s : Option QStream) (n : Nat) : sendAccount part (rxCredit c s n) = sendAccount part c := by
  have conn (c : QuicConn) : sendAccount part (rxConnCredit c) = sendAccount part c := by
    unfold rxConnCredit
    split <;> rfl
  have stream (c : QuicConn) (s : QStream) : sendAccount part (rxStreamCredit c s) = sendAccount part c := by
    unfold rxStreamCredit
    split
    · rfl
    dsimp only
    split <;> rfl
  unfold rxCredit
  cases s with
  | none => exact (conn _).trans rfl
  | some s => exact (conn _).trans ((stream _ s).trans rfl)

theorem account_tx_reset (s : QStream) (code : Nat) : sendAccount part (streamTxReset c s code) = sendAccount part c := by
  unfold streamTxReset
  split <;> rfl

omit c in
theorem account_take (junk : Nat → Byte) (c : QuicConn) (s : QStream) (off : Nat) (data : List Byte) (fin : Bool) :
    sendAccount part (streamTake junk c s off data fin).1 = sendAccount part c := by
  have charged (end_ : Nat) : sendAccount part (charge c s end_) = sendAccount part c := by
    unfold charge
    split <;> rfl
  unfold streamTake
  dsimp only
  split
  · rfl
  split
  · exact charged _
  · exact Eq.trans rfl (charged _)

theorem account_reset_take (s : QStream) (code finalSize : Nat) :
    sendAccount part (resetTake c s code finalSize).1 = sendAccount part c := by
  unfold resetTake
  split
  · rfl
  dsimp only
  split
  · rfl
  split
  · rfl
  · exact (account_credit _ none _).trans rfl

theorem account_stop_take (s : QStream) (code : Nat) : sendAccount part (stopTake c s code) = sendAccount part c := by
  unfold stopTake
  split
  · exact Eq.trans rfl (account_tx_reset c s code)
  · rfl

theorem account_raise (s : QStream) (value : Nat) : sendAccount part (raiseTxMax c s value) = sendAccount part c := by
  unfold raiseTxMax
  split <;> rfl

omit c

theorem account_frame_acked (lvl : Level) (c : QuicConn) (f : FrameRec) :
    sendAccount spaceMark (frameAcked lvl c f) = sendAccount spaceMark c := by
  unfold frameAcked
  split
  · exact account_space c lvl (Prod.ext rfl (acked_next _ _ _ _))
  · split
    · rfl
    split
    · rfl
    · exact (account_free _ _).trans rfl
  · exact (account_free _ _).trans rfl
  · rfl

theorem account_frame_lost (lvl : Level) (c : QuicConn) (f : FrameRec) :
    sendAccount spaceMark (frameLost lvl c f) = sendAccount spaceMark c := by
  unfold frameLost
  split
  · exact account_space c lvl (Prod.ext rfl (lost_next _ _ _ _))
  all_goals rfl

include c

theorem account_poll : sendAccount part (connPoll c) = sendAccount part c := by
  have room (c : QuicConn) : sendAccount part (pollRoom c) = sendAccount part c := by
    unfold pollRoom
    split <;> rfl
  unfold connPoll
  split
  · rfl
  dsimp only
  split
  · exact room c
  split
  · exact room c
  · exact (account_free _ _).trans (room c)

theorem account_cap (n : Nat) : sendAccount part (capWindow c n) = sendAccount part c := rfl

theorem account_set_max_streams (n : Nat) : sendAccount part (setMaxStreams c n) = sendAccount part c := by
  unfold setMaxStreams
  split
  · rfl
  dsimp only
  split <;> rfl

omit c in
theorem account_write {junk : Nat → Byte} {c after : QuicConn} {id : Nat} {data bytes : List Byte} {fin : Bool}
    (written : streamWrite junk c id data fin = some (after, bytes)) : sendAccount part after = sendAccount part c := by
  unfold streamWrite at written
  split at written
  · cases written
  split at written
  · cases written
  split at written
  · cases written
  · cases written
    rfl

theorem account_room (id : Nat) : sendAccount part (streamRoom c id).1 = sendAccount part c := by
  unfold streamRoom
  repeat' split
  all_goals rfl

omit c in
theorem account_read {c after : QuicConn} {id cap : Nat} {bytes : List Byte} {fin : Bool}
    (taken : streamRead c id cap = some (after, bytes, fin)) : sendAccount part after = sendAccount part c := by
  have take (s : QStream) : sendAccount part (readTake c s cap) = sendAccount part c := by
    unfold readTake
    dsimp only
    split
    · rfl
    · exact (account_credit _ _ _).trans rfl
  unfold streamRead at taken
  split at taken
  · cases taken
  split at taken
  · cases taken
  · cases taken
    exact (account_free _ _).trans (take _)

theorem account_reset (id code : Nat) : sendAccount part (streamReset c id code) = sendAccount part c := by
  unfold streamReset
  split
  · rfl
  split
  · rfl
  · exact account_tx_reset c _ code

theorem account_stop (id code : Nat) : sendAccount part (streamStop c id code) = sendAccount part c := by
  unfold streamStop
  split
  · rfl
  split
  · rfl
  split
  · rfl
  · exact (account_free _ _).trans ((account_credit _ none _).trans rfl)

omit c

theorem account_crypto (lvl : Level) (rooms : List Nat) (pk : Packing) :
    sendAccount Space.sent (putCrypto lvl rooms pk).1 = sendAccount Space.sent pk.1 := by
  induction rooms generalizing pk with
  | nil => rfl
  | cons room rooms ih =>
    rw [putCrypto]
    split
    · rfl
    split
    · rfl
    split
    · rfl
    rename_i piece _ _
    have put : sendAccount Space.sent (cryptoPut pk.1 lvl piece) = sendAccount Space.sent pk.1 := account_space pk.1 lvl rfl
    exact (ih (cryptoPut pk.1 lvl piece, _)).trans put

theorem account_control (fits : FrameRec → Bool) (pk : Packing) :
    sendAccount part (putControl fits pk).1 = sendAccount part pk.1 := by
  have owing (o : Owing) (id : Nat) (pk : Packing) : sendAccount part (putOwing fits o id pk).1 = sendAccount part pk.1 := by
    unfold putOwing
    split
    · rfl
    split <;> rfl
  have all (ids : List Nat) (pk : Packing) : sendAccount part (ids.foldl (putStreamControl fits) pk).1 = sendAccount part pk.1 := by
    induction ids generalizing pk with
    | nil => rfl
    | cons id ids ih => exact (ih _).trans ((owing _ id _).trans ((owing _ id _).trans (owing _ id pk)))
  have streams (k : StreamKind) (pk : Packing) : sendAccount part (putMaxStreams fits k pk).1 = sendAccount part pk.1 := by
    unfold putMaxStreams
    dsimp only
    split <;> rfl
  have data : sendAccount part (putMaxData fits pk).1 = sendAccount part pk.1 := by
    unfold putMaxData
    dsimp only
    split <;> rfl
  unfold putControl
  exact (all _ _).trans ((streams .uni _).trans ((streams .bidi _).trans data))

theorem account_pack_crypto (c) (lvl : Level) (fill : Filling) :
    sendAccount Space.sent (packCrypto c lvl fill).1 = sendAccount Space.sent c := by
  unfold packCrypto
  split
  · rfl
  · exact account_crypto lvl _ (c, [])

end ProvenC.Quic.Accounts

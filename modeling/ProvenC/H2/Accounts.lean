import ProvenC.H2.Calls

/-!
# What a step moves

Most of what a connection does ends streams, queues answers and sets marks: no window of a stream that
stays is touched, and what the ended streams held goes back to the connection.
-/

namespace ProvenC.H2.Accounts

open List Bytes H2.Frame H2.Head H2.Conn H2.Reader H2.Calls
open Lib.Slots

structure FlowStream where
  id : Nat
  sendWin : Int
  recvWin : Int
  unacked : Nat
  held : Nat
  win : Nat
  deriving DecidableEq, Repr

def flowOf (s : H2Stream) : FlowStream := ⟨s.id, s.sendWin, s.recvWin, s.unacked, s.held, s.win⟩

structure FlowSettings where
  peerWindow : Nat
  localWindow : Nat
  advWindow : Nat
  wantWindow : Nat
  cfgWindow : Nat
  capWindow : Nat
  settingsAcked : Bool
  growNow : Bool
  growStreamKib : Nat
  growConnKib : Nat
  server : Bool
  nextId : Nat

def flowSettings (c : H2Conn) : FlowSettings :=
  { peerWindow := c.peerWindow, localWindow := c.localWindow
    advWindow := c.advWindow, wantWindow := c.wantWindow, cfgWindow := c.cfgWindow
    capWindow := c.capWindow, settingsAcked := c.settingsAcked, growNow := c.growNow
    growStreamKib := c.growStreamKib, growConnKib := c.growConnKib
    server := c.server, nextId := c.nextId }

structure FlowReading where
  rs : ReadState
  f : H2Frame
  contentLeft : Nat
  cur : Nat
  drop : Bool
  deriving DecidableEq, Repr

def flowReading (c : H2Conn) : FlowReading :=
  { rs := c.rs, f := c.f, contentLeft := c.contentLeft, cur := c.cur, drop := c.drop }

def flowFrame (c : H2Conn) : FlowSettings × FlowReading × Int := (flowSettings c, flowReading c, c.sendWin)

/-- What the peer may still send, what it is owed and what the streams hold, against the target:
the connection's account without the frame in progress. -/
def outstanding (c : H2Conn) : Int := c.recvWin + c.recvUnacked + h2cHeld c - c.recvTarget

/-- A step that was handed `n` bytes of credit for the connection. -/
structure Account (n : Int) (c c' : H2Conn) : Prop where
  cap : c'.capWindow = c.capWindow
  closed : c.closed = true → c'.closed = true
  atMost : outstanding c' ≤ outstanding c + n
  exactly : c.capWindow = 0 → c'.closed = false → outstanding c' = outstanding c + n

structure Moves (n : Int) (c c' : H2Conn) : Prop extends Account n c c' where
  frame : flowFrame c' = flowFrame c
  target : c'.recvTarget = c.recvTarget
  window : c.recvWin ≤ c'.recvWin
  streams : (c'.streams.map flowOf).Subperm (c.streams.map flowOf)

abbrev Quiet : H2Conn → H2Conn → Prop := Moves 0

variable {n : Int} {c c' : H2Conn}

theorem account_open (step : Account n c c') (isOpen : c'.closed = false) : c.closed = false := by
  cases shut : c.closed
  · rfl
  rw [step.closed shut] at isOpen
  exact isOpen

variable {d e : H2Conn}

theorem account_trans {m : Int} (first : Account m c d) (second : Account n d e) : Account (m + n) c e := by
  refine ⟨second.cap.trans first.cap, fun shut => second.closed (first.closed shut), ?_, ?_⟩
  · have one := first.atMost
    have two := second.atMost
    omega
  intro noCap isOpen
  have one := first.exactly noCap (account_open second isOpen)
  have two := second.exactly (first.cap.trans noCap) isOpen
  omega

theorem moves_trans {m : Int} (first : Moves m c d) (second : Moves n d e) : Moves (m + n) c e :=
  { account_trans first.toAccount second.toAccount with
    frame := second.frame.trans first.frame
    target := second.target.trans first.target
    window := Int.le_trans first.window second.window
    streams := second.streams.trans first.streams }

theorem quiet_trans (first : Quiet c d) (second : Quiet d e) : Quiet c e := by
  simpa using moves_trans first second

theorem moves_quiet (first : Moves n c d) (second : Quiet d e) : Moves n c e := by
  simpa using moves_trans first second

theorem account_of_eq (cap : c'.capWindow = c.capWindow)
    (closed : c.closed = true → c'.closed = true) (account : outstanding c' = outstanding c + n) : Account n c c' :=
  ⟨cap, closed, by omega, fun _ _ => account⟩

theorem moves_of_eq (frame : flowFrame c' = flowFrame c)
    (target : c'.recvTarget = c.recvTarget) (window : c.recvWin ≤ c'.recvWin)
    (streams : c'.streams = c.streams) (closed : c.closed = true → c'.closed = true) (account : outstanding c' = outstanding c + n) :
    Moves n c c' :=
  { toAccount := account_of_eq (congrArg (fun frame => frame.1.capWindow) frame) closed account
    frame := frame, target := target, window := window, streams := streams ▸ List.Subperm.refl _ }

theorem quiet_same (frame : flowFrame c' = flowFrame c) (streams : c'.streams.map flowOf = c.streams.map flowOf)
    (account : (c'.recvWin, c'.recvUnacked, c'.recvTarget) = (c.recvWin, c.recvUnacked, c.recvTarget))
    (closed : c.closed = true → c'.closed = true) : Quiet c c' := by
  have held : h2cHeld c' = h2cHeld c := by
    have sums := congrArg (fun all => (all.map FlowStream.held).sum) streams
    simp only [map_map] at sums
    exact sums
  simp only [Prod.mk.injEq] at account
  obtain ⟨win, unacked, target⟩ := account
  have same : outstanding c' = outstanding c := by
    unfold outstanding
    rw [win, unacked, target, held]
  exact { account_of_eq (congrArg (fun frame => frame.1.capWindow) frame) closed (by omega) with
    frame := frame, target := target, window := Int.le_of_eq win.symm
    streams := (List.Perm.of_eq streams).subperm }

theorem quiet_refl (c) : Quiet c c := quiet_same rfl rfl rfl id

@[simp] theorem fail_closed (w : Wire) (lastActed code : Nat) : (w.fail lastActed code).closed = true := by
  unfold Wire.fail
  split
  · assumption
  · rfl

theorem push_closed {w : Wire} (bytes : List Byte) (shut : w.closed = true) : (w.push bytes).closed = true := by
  unfold Wire.push
  split
  · rfl
  · exact shut

theorem goaway_closed {w : Wire} (lastActed code : Nat) (shut : w.closed = true) :
    (w.goaway lastActed code).closed = true := by
  unfold Wire.goaway
  simp only
  split
  · rfl
  · exact push_closed _ shut

theorem answer_closed {w : Wire} (lastActed : Nat) (frame : List Byte) (counted : Bool)
    (shut : w.closed = true) : (w.answer lastActed frame counted).closed = true := by
  unfold Wire.answer
  rw [if_pos shut]
  exact shut

theorem quiet_wire (c : H2Conn) {w : Wire} (closed : c.closed = true → w.closed = true) : Quiet c { c with wire := w } :=
  quiet_same rfl rfl rfl closed

theorem quiet_fail (c) (code : Nat) : Quiet c (h2cFail c code) :=
  quiet_wire c fun _ => fail_closed _ _ _

theorem quiet_fall (c) : Quiet c (h2cFallOver c) := quiet_wire c fun _ => rfl

theorem quiet_frame (c) (type id value : Nat) (counted : Bool) : Quiet c (h2cQU32Frame c type id value counted) :=
  quiet_wire c fun shut => answer_closed _ _ _ shut

theorem quiet_rst (c) (id code : Nat) (counted : Bool) : Quiet c (h2cQRst c id code counted) :=
  quiet_frame ..

theorem quiet_window (c) (id increment : Nat) : Quiet c (h2cQWindow c id increment) :=
  quiet_frame ..

theorem quiet_empty (c) (type flags : Nat) (payload : List Byte) : Quiet c (h2cQEmpty c type flags payload) :=
  quiet_wire c fun shut => answer_closed _ _ _ shut

theorem quiet_mark (c) (id : Nat) {change : H2Stream → H2Stream}
    (same : ∀ s, flowOf (change s) = flowOf s) : Quiet c (setStream c id change) := by
  refine quiet_same rfl ?_ rfl fun shut => shut
  unfold setStream
  induction c.streams with
  | nil => rfl
  | cons s rest ih =>
    rw [update]
    split
    · rw [map_cons, map_cons, same]
    rw [map_cons, map_cons]
    exact congrArg _ ih

theorem quiet_ring (c) (id : Nat) (how : RingHow) : Quiet c (h2cRingAdd c id how) :=
  quiet_same rfl rfl rfl fun shut => shut

theorem quiet_debt (c) : Quiet c (h2cDebt c) := by
  have counted : Quiet c { c with debt := c.debt + 1 } := quiet_same rfl rfl rfl fun shut => shut
  unfold h2cDebt
  simp only
  split
  · exact quiet_trans counted (quiet_fail _ _)
  · exact counted

theorem grant_moves (c) (inc : Nat) : Moves inc c (connGrant c inc) := by
  have given : Moves inc c { c with recvWin := c.recvWin + inc } := by
    have account : outstanding { c with recvWin := c.recvWin + inc } = outstanding c + inc := by
      simp only [outstanding, h2cHeld]
      omega
    exact moves_of_eq rfl rfl (by simp) rfl (fun shut => shut) account
  exact moves_quiet given (quiet_window _ _ _)

theorem capped_le (inc : Nat) (room : Int) : capped inc room ≤ inc := by
  unfold capped
  split <;> omega

theorem return_quiet (c) : Quiet c (connReturn c) := by
  have taken : Moves (-c.recvUnacked) c { c with recvUnacked := 0 } := by
    have account : outstanding { c with recvUnacked := 0 } = outstanding c + -c.recvUnacked := by
      simp only [outstanding, h2cHeld]
      omega
    exact moves_of_eq rfl rfl (Int.le_refl _) rfl (fun shut => shut) account
  unfold connReturn
  simp only
  split
  · simpa using moves_trans taken (grant_moves _ c.recvUnacked)
  rename_i cap
  -- Under a ceiling less may come back.
  have less {given : Int} {c' : H2Conn} (grant : Moves given { c with recvUnacked := 0 } c')
      (le : given ≤ c.recvUnacked) : Quiet c c' := by
    have both := moves_trans taken grant
    have bound := both.atMost
    exact { both with atMost := by omega, exactly := fun noCap => absurd noCap cap }
  split
  · exact less (quiet_refl _) (by omega)
  · exact less (grant_moves _ _) (by exact_mod_cast capped_le _ _)

theorem credit_moves (c) (n : Nat) : Moves n c (h2cConnCredit c n) := by
  unfold h2cConnCredit
  split
  next nothing =>
    refine ⟨⟨rfl, fun shut => shut, by omega, fun _ isOpen => ?_⟩, rfl, rfl, Int.le_refl _, List.Subperm.refl _⟩
    rcases nothing with zero | shut
    · omega
    rw [isOpen] at shut
    cases shut
  have counted : Moves n c { c with recvUnacked := c.recvUnacked + n } := by
    have account : outstanding { c with recvUnacked := c.recvUnacked + n } = outstanding c + n := by
      simp only [outstanding, h2cHeld]
      omega
    exact moves_of_eq rfl rfl (Int.le_refl _) rfl (fun shut => shut) account
  simp only
  split
  · exact moves_quiet counted (return_quiet _)
  · exact counted

theorem removed_moves {id : Nat} {s : H2Stream} (found : h2cFind c id = some s) (debt : Nat) :
    Moves (-s.held) c { c with streams := remove H2Stream.id id c.streams, debt := debt } := by
  have sums := sum_remove H2Stream.id H2Stream.held found
  have account : outstanding { c with streams := remove H2Stream.id id c.streams, debt := debt } =
      outstanding c + -s.held := by
    simp only [outstanding, h2cHeld]
    omega
  refine ⟨account_of_eq rfl (fun shut => shut) account, rfl, rfl, Int.le_refl _, ?_⟩
  obtain ⟨part, permuted, sublist⟩ := remove_subperm H2Stream.id id c.streams
  exact ⟨part.map flowOf, permuted.map flowOf, sublist.map flowOf⟩

theorem quiet_remove (c) (id : Nat) (properly : Bool) (how : Option RingHow) : Quiet c (h2cRemove c id properly how) := by
  unfold h2cRemove
  split
  · exact quiet_refl c
  rename_i s found
  have gone := removed_moves found (if properly then c.debt - 1 else c.debt)
  have back (c' : H2Conn) (marked : Quiet { c with
      streams := remove H2Stream.id id c.streams
      debt := if properly then c.debt - 1 else c.debt } c') : Quiet c (h2cConnCredit c' s.held) := by
    simpa using moves_trans (moves_quiet gone marked) (credit_moves c' s.held)
  cases how with
  | none => exact back _ (quiet_refl _)
  | some how => exact back _ (quiet_ring _ _ _)

theorem quiet_tell (c) (ev : H2Event) : Quiet c (tell c ev) :=
  quiet_same rfl rfl rfl fun shut => shut

theorem quiet_fault (c) (id code : Nat) (forgive : Bool) : Quiet c (h2cStreamFault c id code forgive) := by
  unfold h2cStreamFault
  refine quiet_trans (quiet_rst c id code true) (quiet_trans ?_ (quiet_debt _))
  split
  · exact quiet_trans (quiet_tell _ _) (quiet_remove _ _ _ _)
  split
  · exact quiet_ring _ _ _
  · exact quiet_refl _

theorem quiet_local_end (c) (id : Nat) : Quiet c (h2cLocalEnd c id) := by
  have ended : Quiet c (setStream c id fun s => { s with localEnd := true }) :=
    quiet_mark c id fun _ => rfl
  unfold h2cLocalEnd
  simp only
  split
  · exact ended
  split
  · exact quiet_trans ended (quiet_remove _ _ _ _)
  split
  · exact ended
  split
  · exact ended
  · exact quiet_trans ended (quiet_trans (quiet_rst _ _ _ _) (quiet_remove _ _ _ _))

theorem quiet_remote_end (c) (id : Nat) : Quiet c (h2cRemoteEnd c id) := by
  unfold h2cRemoteEnd
  split
  · exact quiet_refl c
  split
  · exact quiet_fault _ _ _ _
  have ended : Quiet c (setStream c id fun s => { s with remoteEnd := true }) :=
    quiet_mark c id fun _ => rfl
  simp only
  split
  · exact quiet_trans ended (quiet_remove _ _ _ _)
  · exact ended

theorem quiet_closed_frame (c) (id unknown : Nat) : Quiet c (h2cClosedFrame c id unknown) := by
  unfold h2cClosedFrame
  split
  · exact quiet_refl c
  · exact quiet_fault _ _ _ _
  · exact quiet_fail _ _
  · exact quiet_fail _ _

theorem quiet_list_fault (c) (id : Nat) (tooBig : Bool) : Quiet c (listFault c id tooBig) :=
  quiet_trans (quiet_fault _ _ _ _) (quiet_tell _ _)

theorem quiet_tell_response (c) (id status : Nat) (rest : List Hpack.Table.Field) :
    Quiet c (tellResponse c id status rest) := by
  unfold tellResponse
  simp only
  split
  · exact quiet_trans (quiet_tell _ _) (quiet_remote_end _ _)
  · exact quiet_tell _ _

theorem quiet_response (c) (s : H2Stream) (fields : Option (List Hpack.Table.Field)) :
    Quiet c (onResponse c s fields) := by
  unfold onResponse
  split
  · exact quiet_list_fault _ _ _
  split
  · exact quiet_list_fault _ _ _
  split
  · split
    · exact quiet_fault _ _ _ _
    · exact quiet_tell_response _ _ _ _
  split
  · exact quiet_fault _ _ _ _
  have marked (length : Option Nat) :
      Quiet c (setStream c s.id fun s => { s with expect := length, headRecv := true }) :=
    quiet_mark c s.id fun _ => rfl
  exact quiet_trans (marked _) (quiet_tell_response _ _ _ _)

theorem quiet_trailers (c) (s : H2Stream) (fields : Option (List Hpack.Table.Field)) :
    Quiet c (onTrailers c s fields) := by
  unfold onTrailers
  split
  · exact quiet_list_fault _ _ _
  split
  · exact quiet_list_fault _ _ _
  · exact quiet_trans (quiet_tell _ _) (quiet_remote_end _ _)

theorem quiet_due (c) : Quiet c (h2cDue c).1 := by
  have swept (goaway writable : Bool) : Quiet c { c with sweepGoaway := goaway, sweepWritable := writable } :=
    quiet_same rfl rfl rfl fun shut => shut
  unfold h2cDue
  dsimp only
  split
  · exact quiet_refl c
  split
  · dsimp only
    exact quiet_trans (quiet_tell _ _) (quiet_remove _ _ _ _)
  split
  next i s _ =>
    have marked : Quiet { c with sweepGoaway := false } (setStream { c with sweepGoaway := false } s.id
        fun s => { s with blocked := false, hblocked := false }) := quiet_mark _ _ fun _ => rfl
    have placed (c : H2Conn) (ev : H2Event) : Quiet c (tell { c with sweepAt := i + 1 } ev) :=
      quiet_same rfl rfl rfl fun shut => shut
    exact quiet_trans (swept false c.sweepWritable) (quiet_trans marked (placed _ _))
  split
  · exact quiet_trans (swept false false) (quiet_wire _ fun _ => rfl)
  · exact swept false false

theorem quiet_sent (c) (n : Nat) : Quiet c (h2ConnOutputSent c n) := by
  unfold h2ConnOutputSent
  split
  · exact quiet_refl c
  · exact quiet_same rfl rfl rfl fun shut => shut

theorem quiet_refused (c) : Quiet c (outRefused c) := quiet_wire c fun shut => shut

theorem quiet_send_block (c) (id : Nat) (headers : List Hpack.Table.Field) (endStream : Bool)
    (marks : Option (List Bool)) : Quiet c (h2cSendBlock c id headers endStream marks).1 := by
  have written (enc : Option Hpack.Encoder.HpackEncoder) (w : Wire) (closed : w.closed = c.wire.closed) :
      Quiet c { c with enc := enc, wire := w } :=
    quiet_same rfl rfl rfl fun shut => closed.trans shut
  unfold h2cSendBlock
  dsimp only
  split
  · exact quiet_refl c
  split
  · exact quiet_refl c
  rename_i enc _
  split
  · exact written (some enc) _ rfl
  split
  · exact written (some enc) c.wire rfl
  · exact written _ _ rfl

theorem quiet_sensitive (c) (marks : Option (List Bool)) : Quiet c { c with sensitive := marks } :=
  quiet_same rfl rfl rfl fun shut => shut

theorem quiet_submit_response (c) (id : Nat) (headers : List Hpack.Table.Field) (endStream : Bool) :
    Quiet c (h2ConnSubmitResponse c id headers endStream).1 := by
  have taken := quiet_sensitive c none
  unfold h2ConnSubmitResponse h2cTakeSensitive
  dsimp only
  split
  · exact taken
  split
  · exact taken
  split
  · exact taken
  split
  · exact taken
  split
  · exact taken
  split
  · exact quiet_trans taken (quiet_mark _ _ fun _ => rfl)
  have sent := quiet_trans taken
    (quiet_send_block { c with sensitive := none } id headers endStream c.sensitive)
  split
  next block =>
    rwa [block] at sent
  rename_i block
  rw [block] at sent
  dsimp only
  split
  · refine quiet_trans sent (quiet_trans ?_ (quiet_local_end _ _))
    exact quiet_mark _ _ fun _ => rfl
  · exact quiet_trans sent (quiet_mark _ _ fun _ => rfl)

theorem quiet_send_trailers (c) (id : Nat) (headers : List Hpack.Table.Field) :
    Quiet c (h2ConnSendTrailers c id headers).1 := by
  have taken := quiet_sensitive c none
  unfold h2ConnSendTrailers h2cTakeSensitive
  dsimp only
  split
  · exact taken
  split
  · exact taken
  split
  · exact taken
  split
  · exact taken
  split
  · exact quiet_trans taken (quiet_mark _ _ fun _ => rfl)
  have sent := quiet_trans taken
    (quiet_send_block { c with sensitive := none } id headers true c.sensitive)
  split
  next block =>
    rwa [block] at sent
  rename_i block
  rw [block] at sent
  exact quiet_trans sent (quiet_local_end _ _)

theorem quiet_reset (c) (id code : Nat) : Quiet c (h2ConnReset c id code).1 := by
  unfold h2ConnReset
  dsimp only
  split
  · exact quiet_refl c
  dsimp only
  exact quiet_trans (quiet_rst _ _ _ _) (quiet_remove _ _ _ _)

theorem quiet_ping (c) (bytes : List Byte) : Quiet c (h2ConnPing c bytes).1 := by
  unfold h2ConnPing
  dsimp only
  split
  · exact quiet_refl c
  split
  · exact quiet_refused c
  · exact quiet_wire c fun shut => shut

theorem quiet_shutdown (c) (code : Nat) : Quiet c (h2ConnShutdown c code) := by
  unfold h2ConnShutdown
  split
  · exact quiet_refl c
  split
  · exact quiet_fail _ _
  split
  · exact quiet_refl c
  · exact quiet_wire c fun shut => goaway_closed _ _ shut

end ProvenC.H2.Accounts

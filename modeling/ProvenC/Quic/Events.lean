import Mathlib.Data.List.ModifyLast
import ProvenC.Bytes
import ProvenC.Quic.Path

/-!
# The events of a connection

What a connection has to tell its owner waits in a queue of fixed size until it is polled: the
identifiers it issues and retires, that it is established, that early data is open, and its end.
-/

namespace ProvenC.Quic.Events

open List Bytes Quic.Path Lib.Runs

def qcEvents : Nat := 32

def qcLocalCids : Nat := 4

def connectionRefused : Nat := 2

def protocolViolation : Nat := 10

inductive EventKind where
  | established
  | early
  | closed
  | cidNew
  | cidRetired
  deriving DecidableEq, Repr

/-- `proven_quic_event_t`, without what only stream events use. -/
structure QuicEvent where
  kind : EventKind
  cid : List Byte
  code : Nat
  app : Bool
  remote : Bool
  deriving DecidableEq, Repr

/-- `proven_qcid_t`, an identifier of this side. -/
structure LocalCid where
  seq : Nat
  cid : List Byte
  active : Bool
  owed : Bool
  deriving DecidableEq, Repr

/-- What the events use of `proven_quic_conn_t`. -/
structure EventConn where
  server : Bool
  afterVn : Bool
  state : ConnState
  complete : Bool
  havePeerTp : Bool
  peerCidLimit : Nat
  locals : List LocalCid
  localNextSeq : Nat
  earlyTold : Bool
  establishedTold : Bool
  gotServerInitial : Bool
  retried : Bool
  closeCode : Nat
  closeApp : Bool
  closeRemote : Bool
  events : List QuicEvent
  polled : List QuicEvent
  told : List QuicEvent

def pushEvent (e : QuicEvent) (c : EventConn) : EventConn :=
  { c with
    events := if c.events.length = qcEvents then c.events else c.events ++ [e]
    told := c.told ++ [e] }

def plainEvent (kind : EventKind) : QuicEvent := ⟨kind, [], 0, false, false⟩

/-- `new_local_cid` in one of the places; `cid` is what was drawn. -/
def newLocalCid (place : Nat) (cid : List Byte) (owed : Bool) (c : EventConn) : EventConn :=
  pushEvent { plainEvent .cidNew with cid := cid }
    { c with locals := c.locals.set place ⟨c.localNextSeq, cid, true, owed⟩, localNextSeq := c.localNextSeq + 1 }

def enterClosedEvent (c : EventConn) : EventConn :=
  pushEvent ⟨.closed, [], c.closeCode, c.closeApp, c.closeRemote⟩ c

def connFail (code : Nat) (c : EventConn) : EventConn :=
  if c.state.live then
    enterClosedEvent { c with state := .closing, closeCode := code, closeApp := false, closeRemote := false }
  else c

def connDrain (code : Nat) (app : Bool) (c : EventConn) : EventConn :=
  match c.state with
  | .draining => c
  | .closed => c
  | .closing => { c with state := .draining }
  | _ => enterClosedEvent { c with state := .draining, closeCode := code, closeApp := app, closeRemote := true }

/-- `app`, in the event told last. -/
def markLast (app : Bool) (events : List QuicEvent) : List QuicEvent :=
  events.modifyLast fun e => { e with app := app }

def connClose (app : Bool) (code : Nat) (c : EventConn) : EventConn :=
  if c.state.live then
    let c := connFail code c
    { c with closeApp := app, events := markLast app c.events, told := markLast app c.told }
  else c

/-- `proven_quic_conn_poll`, up to the events of the streams. -/
def connPoll (c : EventConn) : EventConn :=
  match c.events with
  | [] => c
  | e :: rest => { c with events := rest, polled := c.polled ++ [e] }

structure TlsOutcome where
  failed : Option Nat
  params : Option (Except Nat Nat)
  earlyMisfit : Option Nat
  earlyReady : Bool
  established : Bool
  drawn : Nat → List Byte

inductive EventFrame where
  | retire (id : Nat) (drawn : List Byte)
  | crypto (tls : TlsOutcome)
  | connectionClose (code : Nat) (app : Bool)
  | refused (code : Nat)
  | other

def placeOf (id : Nat) (c : EventConn) : Option Nat := c.locals.findIdx? fun e => e.active && e.seq == id

def onRetireCid (id : Nat) (dcid drawn : List Byte) (c : EventConn) : Except Nat EventConn :=
  if c.localNextSeq ≤ id then .error protocolViolation
  else
    match placeOf id c with
    | none => .ok c
    | some place =>
      match c.locals[place]? with
      | none => .ok c
      | some e =>
        if e.cid = dcid then .error protocolViolation
        else
          let c := { c with locals := c.locals.set place { e with active := false } }
          let c := pushEvent { plainEvent .cidRetired with cid := e.cid } c
          .ok (if c.complete then newLocalCid place drawn true c else c)

def issueCid (drawn : List Byte) (c : EventConn) : EventConn :=
  match c.locals.findIdx? fun e => !e.active with
  | none => c
  | some place => newLocalCid place drawn true c

def cidsWanted (c : EventConn) : Nat := min c.peerCidLimit qcLocalCids - 1

def handshakeDone (drawn : Nat → List Byte) (c : EventConn) : EventConn :=
  let c := { c with complete := true, state := .opened }
  let c := (List.range (cidsWanted c)).foldl (fun c i => issueCid (drawn i) c) c
  if c.establishedTold then c else pushEvent (plainEvent .established) { c with establishedTold := true }

def applyPeerParams (params : Option (Except Nat Nat)) (c : EventConn) : EventConn :=
  if c.havePeerTp then c
  else
    match params with
    | none => c
    | some (.error code) => connFail code { c with havePeerTp := true }
    | some (.ok limit) => { c with havePeerTp := true, peerCidLimit := limit }

/-- `early_refused`, where what was sent may not fit. -/
def earlyRefused (misfit : Option Nat) (c : EventConn) : EventConn :=
  match misfit with
  | none => c
  | some code => connFail code c

def earlyOpen (ready : Bool) (c : EventConn) : EventConn :=
  if !c.earlyTold && ready && c.state.live then pushEvent (plainEvent .early) { c with earlyTold := true } else c

def earlyAfter (misfit : Option Nat) (ready : Bool) (c : EventConn) : EventConn :=
  earlyOpen ready (earlyRefused misfit c)

def tlsAfter (tls : TlsOutcome) (c : EventConn) : EventConn :=
  match tls.failed with
  | some code => connFail code c
  | none =>
    let c := applyPeerParams tls.params c
    if !c.state.live then c
    else
      let c := earlyAfter tls.earlyMisfit tls.earlyReady c
      if c.state.live && !c.complete && tls.established then handshakeDone tls.drawn c else c

/-- `on_frame`, and the close an error of it makes. -/
def onFrame (dcid : List Byte) (frame : EventFrame) (c : EventConn) : EventConn :=
  match frame with
  | .retire id drawn =>
    match onRetireCid id dcid drawn c with
    | .error code => connFail code c
    | .ok c => c
  | .crypto tls => tlsAfter tls c
  | .connectionClose code app => connDrain code app c
  | .refused code => connFail code c
  | .other => c

def onFrames (dcid : List Byte) : List EventFrame → EventConn → EventConn
  | [], c => c
  | frame :: rest, c => if c.state.live then onFrames dcid rest (onFrame dcid frame c) else c

def readClosing (frames : List EventFrame) (c : EventConn) : EventConn :=
  match frames.findSome? fun frame => match frame with
    | .connectionClose code app => some (code, app)
    | _ => none with
  | some (code, app) => connDrain code app c
  | none => c

/-- `read_packet`, of a packet that opened. -/
def readPacket (dcid : List Byte) (initial : Bool) (frames : List EventFrame) (c : EventConn) : EventConn :=
  if c.state = .closing then readClosing frames c
  else if !c.state.live then c
  else onFrames dcid frames { c with gotServerInitial := c.gotServerInitial || (!c.server && initial) }

/-- The end of `read_datagram`: a stateless reset of the peer's. -/
def statelessReset (c : EventConn) : EventConn :=
  match c.state with
  | .draining => c
  | .closed => c
  | _ => enterClosedEvent { c with state := .draining, closeCode := 0, closeRemote := true }

def vnCounts (c : EventConn) : Bool :=
  !c.server && !c.gotServerInitial && !c.retried && !c.afterVn

def versionNegotiation (c : EventConn) : EventConn :=
  match c.state with
  | .draining => c
  | .closed => c
  | _ =>
    if vnCounts c then
      enterClosedEvent { c with state := .draining, closeCode := connectionRefused, closeRemote := true }
    else c

/-- `proven_quic_conn_timeout`; `idle` where the idle time, or the closing period, is over. -/
def connTimeout (idle : Bool) (c : EventConn) : EventConn :=
  if c.state = .closed ∨ idle = false then c
  else if c.state.live then
    enterClosedEvent { c with state := .closed, closeCode := 0, closeApp := false, closeRemote := false }
  else { c with state := .closed }

inductive EventStep where
  | packet (dcid : List Byte) (initial : Bool) (frames : List EventFrame)
  | retry
  /-- `conn_fail` outside a frame: reserved bits, an empty packet, a key update too early, no memory. -/
  | fail (code : Nat)
  | statelessReset
  | versionNegotiation
  | timeout (idle : Bool)
  /-- `proven_quic_conn_close`. -/
  | close (app : Bool) (code : Nat)
  | poll

def eventStep (c : EventConn) : EventStep → EventConn
  | .packet dcid initial frames => readPacket dcid initial frames c
  | .retry => if c.state = .draining ∨ c.state = .closed then c else { c with retried := true }
  | .fail code => connFail code c
  | .statelessReset => statelessReset c
  | .versionNegotiation => versionNegotiation c
  | .timeout idle => connTimeout idle c
  | .close app code => connClose app code c
  | .poll => connPoll c

def eventRun (c : EventConn) (steps : List EventStep) : EventConn := run eventStep c steps

/-- `conn_new`: the first identifier is issued at once. -/
def connNew (server afterVn : Bool) (cid : List Byte) : EventConn :=
  newLocalCid 0 cid false
    { server := server, afterVn := afterVn, state := .handshake, complete := false, havePeerTp := false
      peerCidLimit := 2, locals := List.replicate qcLocalCids ⟨0, [], false, false⟩, localNextSeq := 0
      earlyTold := false, establishedTold := false, gotServerInitial := false, retried := false, closeCode := 0
      closeApp := false, closeRemote := false, events := [], polled := [], told := [] }

def isClosed (e : QuicEvent) : Bool := e.kind == .closed

def ofCid (e : QuicEvent) : Bool := e.kind == .cidNew || e.kind == .cidRetired

def closedDue (state : ConnState) : Nat := if state.live then 0 else 1

def Tells (c after : EventConn) (told : List QuicEvent) : Prop :=
  after.told = c.told ++ told ∧ after.polled = c.polled ∧
    (c.events.length + told.length ≤ qcEvents → after.events = c.events ++ told) ∧
    closedDue c.state + told.countP isClosed = closedDue after.state

variable {c : EventConn}

theorem tells_trans {middle after : EventConn} {first second : List QuicEvent} (tells : Tells c middle first)
    (then_ : Tells middle after second) : Tells c after (first ++ second) := by
  obtain ⟨told, polled, events, due⟩ := tells
  obtain ⟨told', polled', events', due'⟩ := then_
  refine ⟨?_, polled'.trans polled, fun room => ?_, ?_⟩
  · rw [told', told, append_assoc]
  · rw [length_append] at room
    have here := events (by omega)
    rw [events' (by rw [here, length_append]; omega), here, append_assoc]
  · rw [countP_append, ← due', ← due, add_assoc]

theorem tells_nothing {after : EventConn} (told : after.told = c.told) (polled : after.polled = c.polled)
    (events : after.events = c.events) (state : after.state.live = c.state.live) : Tells c after [] := by
  refine ⟨?_, polled, fun _ => ?_, ?_⟩
  · rw [told, append_nil]
  · rw [events, append_nil]
  unfold closedDue
  rw [state, countP_nil, add_zero]

theorem tells_refl (c) : Tells c c [] := tells_nothing rfl rfl rfl rfl

theorem push_tells {before : EventConn} {e : QuicEvent} (told : before.told = c.told)
    (polled : before.polled = c.polled) (events : before.events = c.events)
    (due : closedDue c.state + [e].countP isClosed = closedDue before.state) : Tells c (pushEvent e before) [e] := by
  refine ⟨?_, polled, fun room => ?_, due⟩
  · exact congrArg (· ++ [e]) told
  have some_ : before.events.length ≠ qcEvents := by
    rw [events]
    rw [length_singleton] at room
    omega
  unfold pushEvent
  rw [if_neg some_, events]

def Telling (c after : EventConn) : Prop := ∃ told, Tells c after told

theorem telling_refl (c) : Telling c c := ⟨_, tells_refl c⟩

theorem telling_trans {middle after : EventConn} (first : Telling c middle) (second : Telling middle after) :
    Telling c after := by
  obtain ⟨_, first⟩ := first
  obtain ⟨_, second⟩ := second
  exact ⟨_, tells_trans first second⟩

theorem closed_tells {before : EventConn} (told : before.told = c.told) (polled : before.polled = c.polled)
    (events : before.events = c.events) (live : c.state.live = true) (left : before.state.live = false) :
    Telling c (enterClosedEvent before) := by
  refine ⟨_, push_tells told polled events ?_⟩
  unfold closedDue
  rw [live, left]
  rfl

theorem fail_tells (code : Nat) (c : EventConn) : Telling c (connFail code c) := by
  unfold connFail
  split
  next live =>
    exact closed_tells rfl rfl rfl live rfl
  · exact telling_refl c

theorem drain_tells (code : Nat) (app : Bool) (c : EventConn) : Telling c (connDrain code app c) := by
  unfold connDrain
  cases state : c.state with
  | draining | closed => exact telling_refl c
  | closing => exact ⟨_, tells_nothing rfl rfl rfl (by rw [state]; rfl)⟩
  | handshake | opened => exact closed_tells rfl rfl rfl (by rw [state]; rfl) rfl

theorem issue_tells (drawn : List Byte) (c : EventConn) : Telling c (issueCid drawn c) := by
  unfold issueCid
  split
  · exact telling_refl c
  · exact ⟨_, push_tells rfl rfl rfl rfl⟩

theorem retire_tells {id : Nat} {dcid drawn : List Byte} {after : EventConn}
    (retired : onRetireCid id dcid drawn c = .ok after) : Telling c after := by
  unfold onRetireCid at retired
  split at retired
  · cases retired
  split at retired
  · cases retired
    exact telling_refl c
  split at retired
  · cases retired
    exact telling_refl c
  split at retired
  · cases retired
  rename_i place _ _ e _ _
  have first : Telling c (pushEvent { plainEvent .cidRetired with cid := e.cid }
      { c with locals := c.locals.set place { e with active := false } }) := ⟨_, push_tells rfl rfl rfl rfl⟩
  dsimp only at retired
  split at retired
  · cases retired
    exact telling_trans first ⟨_, push_tells rfl rfl rfl rfl⟩
  · cases retired
    exact first

theorem done_tells (drawn : Nat → List Byte) (live : c.state.live = true) : Telling c (handshakeDone drawn c) := by
  have opened : Telling c { c with complete := true, state := .opened } :=
    ⟨_, tells_nothing rfl rfl rfl (by rw [live]; rfl)⟩
  have issued : ∀ (places : List Nat) (before : EventConn), Telling c before →
      Telling c (places.foldl (fun c i => issueCid (drawn i) c) before) := by
    intro places
    induction places with
    | nil => exact fun _ before => before
    | cons i rest ih => exact fun before telling => ih _ (telling_trans telling (issue_tells (drawn i) before))
  unfold handshakeDone
  dsimp only
  split
  · exact issued _ _ opened
  · exact telling_trans (issued _ _ opened) ⟨_, push_tells rfl rfl rfl rfl⟩

theorem params_tells (params : Option (Except Nat Nat)) (c : EventConn) : Telling c (applyPeerParams params c) := by
  unfold applyPeerParams
  split
  · exact telling_refl c
  split
  · exact telling_refl c
  · have had : Telling c { c with havePeerTp := true } := ⟨_, tells_nothing rfl rfl rfl rfl⟩
    exact telling_trans had (fail_tells _ _)
  · exact ⟨_, tells_nothing rfl rfl rfl rfl⟩

theorem early_tells (misfit : Option Nat) (ready : Bool) (c : EventConn) : Telling c (earlyAfter misfit ready c) := by
  have fits : Telling c (earlyRefused misfit c) := by
    unfold earlyRefused
    split
    · exact telling_refl c
    · exact fail_tells _ c
  have open_ : Telling (earlyRefused misfit c) (earlyOpen ready (earlyRefused misfit c)) := by
    unfold earlyOpen
    split
    · exact ⟨_, push_tells rfl rfl rfl rfl⟩
    · exact telling_refl _
  exact telling_trans fits open_

theorem tls_tells (tls : TlsOutcome) (c : EventConn) : Telling c (tlsAfter tls c) := by
  unfold tlsAfter
  split
  · exact fail_tells _ c
  have params := params_tells tls.params c
  dsimp only
  split
  · exact params
  have early := telling_trans params (early_tells tls.earlyMisfit tls.earlyReady _)
  split
  next ends =>
    rw [Bool.and_eq_true, Bool.and_eq_true] at ends
    exact telling_trans early (done_tells tls.drawn ends.1.1)
  · exact early

theorem frame_tells (dcid : List Byte) (frame : EventFrame) (c : EventConn) : Telling c (onFrame dcid frame c) := by
  cases frame with
  | retire id drawn =>
    dsimp only [onFrame]
    cases retired : onRetireCid id dcid drawn c with
    | error code => exact fail_tells code c
    | ok after => exact retire_tells retired
  | crypto tls => exact tls_tells tls c
  | connectionClose code app => exact drain_tells code app c
  | refused code => exact fail_tells code c
  | other => exact telling_refl c

theorem frames_tells (dcid : List Byte) (frames : List EventFrame) (c : EventConn) :
    Telling c (onFrames dcid frames c) := by
  induction frames generalizing c with
  | nil => exact telling_refl c
  | cons frame rest ih =>
    rw [onFrames]
    split
    · exact telling_trans (frame_tells dcid frame c) (ih _)
    · exact telling_refl c

theorem packet_tells (dcid : List Byte) (initial : Bool) (frames : List EventFrame) (c : EventConn) :
    Telling c (readPacket dcid initial frames c) := by
  unfold readPacket
  split
  · unfold readClosing
    split
    · exact drain_tells _ _ c
    · exact telling_refl c
  split
  · exact telling_refl c
  have seen : Telling c { c with gotServerInitial := c.gotServerInitial || (!c.server && initial) } :=
    ⟨_, tells_nothing rfl rfl rfl rfl⟩
  exact telling_trans seen (frames_tells dcid frames _)

theorem reset_tells (notClosing : c.state ≠ .closing) : Telling c (statelessReset c) := by
  unfold statelessReset
  cases state : c.state with
  | draining | closed => exact telling_refl c
  | closing => exact absurd state notClosing
  | handshake | opened => exact closed_tells rfl rfl rfl (by rw [state]; rfl) rfl

theorem negotiation_tells (notClosing : vnCounts c = true → c.state ≠ .closing) : Telling c (versionNegotiation c) := by
  unfold versionNegotiation
  cases state : c.state with
  | draining | closed => exact telling_refl c
  | closing =>
    dsimp only
    split
    next counts =>
      exact absurd state (notClosing counts)
    · exact telling_refl c
  | handshake | opened =>
    dsimp only
    split
    · exact closed_tells rfl rfl rfl (by rw [state]; rfl) rfl
    · exact telling_refl c

theorem timeout_tells (idle : Bool) (c : EventConn) : Telling c (connTimeout idle c) := by
  unfold connTimeout
  split
  · exact telling_refl c
  split
  next live =>
    exact closed_tells rfl rfl rfl live rfl
  rename_i notLive
  rw [Bool.not_eq_true] at notLive
  exact ⟨_, tells_nothing rfl rfl rfl (by rw [notLive]; rfl)⟩

theorem mark_concat (app : Bool) (events : List QuicEvent) (e : QuicEvent) :
    markLast app (events ++ [e]) = events ++ [{ e with app := app }] :=
  modifyLast_concat _ _ _

theorem close_tells (app : Bool) (code : Nat) (c : EventConn) : Telling c (connClose app code c) := by
  unfold connClose
  split
  next live =>
    have failed : Tells c (connFail code c) [⟨.closed, [], code, false, false⟩] := by
      unfold connFail
      rw [if_pos live]
      refine push_tells rfl rfl rfl ?_
      unfold closedDue
      rw [live]
      rfl
    obtain ⟨told, polled, events, due⟩ := failed
    refine ⟨[⟨.closed, [], code, app, false⟩], ?_, polled, fun room => ?_, due⟩
    · dsimp only
      rw [told, mark_concat]
    dsimp only
    rw [events room, mark_concat]
  · exact telling_refl c

/-- What was polled and what waits is all there was to tell, CLOSED once the connection has left
the open states. -/
structure Reckoned (c : EventConn) : Prop where
  all : c.polled ++ c.events = c.told
  closed : c.told.countP isClosed = closedDue c.state

def eventsTold (c : EventConn) (step : EventStep) : Nat := (eventStep c step).told.length - c.told.length

def HeardStep (c : EventConn) (step : EventStep) : Prop :=
  c.events.length + eventsTold c step ≤ qcEvents ∧
    (c.state = .closing → step ≠ .statelessReset ∧ (vnCounts c = true → step ≠ .versionNegotiation))

theorem reckoned_tells {after : EventConn} (reckoned : Reckoned c) (telling : Telling c after)
    (room : c.events.length + (after.told.length - c.told.length) ≤ qcEvents) : Reckoned after := by
  obtain ⟨es, told, polled, events, due⟩ := telling
  have more : after.told.length - c.told.length = es.length := by
    rw [told, length_append, Nat.add_sub_cancel_left]
  rw [more] at room
  constructor
  · rw [polled, events room, told, ← reckoned.all, append_assoc]
  · rw [told, countP_append, reckoned.closed, due]

theorem poll_reckoned (reckoned : Reckoned c) : Reckoned (connPoll c) := by
  unfold connPoll
  split
  · exact reckoned
  rename_i e rest waiting
  refine ⟨?_, reckoned.closed⟩
  rw [append_assoc, singleton_append, ← waiting]
  exact reckoned.all

theorem step_reckoned (c) (step : EventStep) (reckoned : Reckoned c) (heard : HeardStep c step) :
    Reckoned (eventStep c step) := by
  obtain ⟨room, open_⟩ := heard
  cases step with
  | packet dcid initial frames => exact reckoned_tells reckoned (packet_tells dcid initial frames c) room
  | retry =>
    dsimp only [eventStep]
    split
    · exact reckoned
    · exact ⟨reckoned.all, reckoned.closed⟩
  | fail code => exact reckoned_tells reckoned (fail_tells code c) room
  | statelessReset => exact reckoned_tells reckoned (reset_tells fun closing => (open_ closing).1 rfl) room
  | versionNegotiation =>
    exact reckoned_tells reckoned (negotiation_tells fun counts closing => (open_ closing).2 counts rfl) room
  | timeout idle => exact reckoned_tells reckoned (timeout_tells idle c) room
  | close app code => exact reckoned_tells reckoned (close_tells app code c) room
  | poll => exact poll_reckoned reckoned

theorem new_reckoned (server afterVn : Bool) (cid : List Byte) : Reckoned (connNew server afterVn cid) :=
  ⟨rfl, rfl⟩

def polls : Nat → EventConn → EventConn
  | 0, c => c
  | n + 1, c => polls n (connPoll c)

theorem polls_polled (n : Nat) (c : EventConn) : (polls n c).polled = c.polled ++ c.events.take n := by
  induction n generalizing c with
  | zero =>
    rw [take_zero, append_nil]
    rfl
  | succ n ih =>
    rw [polls, ih]
    unfold connPoll
    split
    next none_ =>
      rw [none_, take_nil, take_nil]
    rename_i e rest some_
    rw [some_, take_succ_cons]
    exact append_assoc _ [e] _

/-- Polled until it is empty the queue has given CLOSED once if the connection left the open
states, else not at all, and every identifier issued or retired; and never CLOSED twice. -/
structure ToldOnce (c : EventConn) : Prop where
  closed : ∀ n, c.events.length ≤ n → (polls n c).polled.countP isClosed = closedDue c.state
  once : ∀ n, (polls n c).polled.countP isClosed ≤ 1
  cids : ∀ n, c.events.length ≤ n → (polls n c).polled.filter ofCid = c.told.filter ofCid

theorem reckoned_once (reckoned : Reckoned c) : ToldOnce c := by
  have emptied : ∀ n, c.events.length ≤ n → (polls n c).polled = c.told := by
    intro n enough
    rw [polls_polled, take_of_length_le enough]
    exact reckoned.all
  have due : closedDue c.state ≤ 1 := by
    unfold closedDue
    split
    · exact Nat.zero_le 1
    · exact le_rfl
  refine ⟨fun n enough => ?_, fun n => ?_, fun n enough => ?_⟩
  · rw [emptied n enough]
    exact reckoned.closed
  · have part : (polls n c).polled.countP isClosed ≤ c.told.countP isClosed := by
      rw [polls_polled, ← reckoned.all, countP_append, countP_append]
      exact Nat.add_le_add_left ((take_sublist n c.events).countP_le) _
    exact part.trans (reckoned.closed.trans_le due)
  · rw [emptied n enough]

/-- In every run in which the queue has room for what is told, and in which no reset or version
negotiation ends a connection that is closing, CLOSED is told exactly once and no identifier is
lost. -/
theorem close_told_once (server afterVn : Bool) (cid : List Byte) (steps : List EventStep)
    (heard : Along eventStep HeardStep (connNew server afterVn cid) steps) :
    ToldOnce (eventRun (connNew server afterVn cid) steps) :=
  reckoned_once (run_keeps step_reckoned (new_reckoned server afterVn cid) heard)

def openAndClosed : List EventStep :=
  [.packet [1] true [.crypto ⟨none, some (.ok 4), none, false, true, fun i => [2, byteOf i]⟩],
    .poll, .packet [1] false [.retire 1 [20]], .close true 7]

theorem close_told_once_closed : ToldOnce (eventRun (connNew true false [1]) openAndClosed) := by
  apply close_told_once
  refine ⟨⟨by decide, nofun⟩, ⟨by decide, nofun⟩, ⟨by decide, nofun⟩, ⟨by decide, nofun⟩, True.intro⟩

def retiredMany : List EventStep :=
  [.packet [1] true [.crypto ⟨none, some (.ok 4), none, false, true, fun i => [2, byteOf i]⟩],
    .packet [1] false ((List.range 16).map fun i => .retire (i + 1) [byteOf i, 1]),
    .packet [1] false [.connectionClose 0 true]]

/-- The queue is full when the connection ends: it tells nobody. -/
theorem full_queue_loses : ¬ ∀ (server afterVn : Bool) (cid : List Byte) (steps : List EventStep),
      ToldOnce (eventRun (connNew server afterVn cid) steps) := by
  intro every
  have closed := (every true false [1] retiredMany).closed 32 (by decide)
  exact absurd closed (by decide)

example : (polls 3 (eventRun (connNew true false [1]) [.close false 0, .statelessReset])).polled.countP isClosed = 2 := by
  decide

end ProvenC.Quic.Events

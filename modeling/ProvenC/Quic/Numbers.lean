import ProvenC.Quic.Path
import ProvenC.Quic.RangeSet

/-!
# Packet numbers

A packet-number space notes what it has read as a set of ranges of limited size: what is dropped for the
limit is below a floor, and everything below the floor counts as seen.
-/

namespace ProvenC.Quic.Numbers

open List Quic.RangeSet Quic.Path Lib.Runs

def varintLen (value : Nat) : Nat :=
  if value < 64 then 1 else if value < 16384 then 2 else if value < 1073741824 then 4 else 8

structure EcnCounts where
  ect0 : Nat
  ect1 : Nat
  ce : Nat
  deriving DecidableEq, Repr

structure AckFrame where
  largest : Nat
  delay : Nat
  firstRange : Nat
  further : List (Nat × Nat)
  ecn : Option EcnCounts
  deriving DecidableEq, Repr

/-- The further ranges that fit, the count's own length counted; `last` is where the range before
begins. -/
def ackFurther (need room : Nat) : Nat → List (Nat × Nat) → Nat → Nat → List (Nat × Nat)
  | _, [], _, _ => []
  | last, (lo, hi) :: rest, k, pairs =>
    let gap := last - hi - 2
    let len := hi - lo
    let add := varintLen gap + varintLen len
    if room < need + varintLen (k + 1) + pairs + add then []
    else (gap, len) :: ackFurther need room lo rest (k + 1) (pairs + add)

def furtherSize (further : List (Nat × Nat)) : Nat :=
  (further.map fun pair => varintLen pair.1 + varintLen pair.2).sum

def ecnSize : Option EcnCounts → Nat
  | none => 0
  | some counts => varintLen counts.ect0 + varintLen counts.ect1 + varintLen counts.ce

/-- `proven_quic_ack_put_ecn`, of ranges `[lo, hi]` from the largest down. -/
def ackPut (ranges : List (Nat × Nat)) (delay : Nat) (ecn : Option EcnCounts) (room : Nat) : Option AckFrame :=
  match ranges with
  | [] => none
  | (lo, hi) :: rest =>
    let need := 1 + varintLen hi + varintLen delay + varintLen (hi - lo) + ecnSize ecn
    let further := ackFurther need room lo rest 0 0
    if room < need + varintLen further.length + furtherSize further then none
    else some { largest := hi, delay := delay, firstRange := hi - lo, further := further, ecn := ecn }

/-- `proven_quic_ack_next`: the ranges after one that begins at `last`. -/
def ackNext : Nat → List (Nat × Nat) → List (Nat × Nat)
  | _, [] => []
  | last, (gap, len) :: rest => (last - gap - 2 - len, last - gap - 2) :: ackNext (last - gap - 2 - len) rest

/-- `proven_quic_ack_iter`: the ranges an ACK says. -/
def ackRanges (frame : AckFrame) : List (Nat × Nat) :=
  (frame.largest - frame.firstRange, frame.largest) :: ackNext (frame.largest - frame.firstRange) frame.further

def InAck (pn : Nat) (frame : AckFrame) : Prop := ∃ range ∈ ackRanges frame, range.1 ≤ pn ∧ pn ≤ range.2

/-- What packet numbers use of `proven_qspace_t`, and of the connection. -/
structure PnSpace where
  early : Bool
  /-- `cfg.max_ack_ranges`. -/
  maxAckRanges : Nat
  state : ConnState
  discarded : Bool
  rcvd : List QRange
  rxFloor : Nat
  rxLargestPlusOne : Nat
  rxLargestTime : Nat
  ackAny : Bool
  ackOwed : Bool
  ackCount : Nat
  ackDeadline : Nat
  rxEcn : EcnCounts
  applied : List Nat
  acks : List AckFrame

def seen (sp : PnSpace) (pn : Nat) : Bool :=
  pn < sp.rxFloor || sp.rcvd.any fun r => r.lo ≤ pn && pn < r.hi

def capRanges (most : Nat) : List QRange → Nat → List QRange × Nat
  | [], floor => ([], floor)
  | r :: rest, floor => if most < (r :: rest).length then capRanges most rest r.hi else (r :: rest, floor)

/-- `ack_note`; `stored` unless there was no memory for the range. -/
def ackNote (now pn : Nat) (eliciting stored : Bool) (sp : PnSpace) : PnSpace :=
  let inOrder := match sp.rcvd.getLast? with
    | none => true
    | some last => pn == last.hi
  let (rcvd, rxFloor) := capRanges sp.maxAckRanges (if stored then rsetAdd sp.rcvd pn (pn + 1) else sp.rcvd) sp.rxFloor
  let larger := sp.rxLargestPlusOne < pn + 1
  let count := sp.ackCount + 1
  let deadline := if sp.ackOwed then sp.ackDeadline else now + 25000
  { sp with
    rcvd := rcvd
    rxFloor := rxFloor
    rxLargestPlusOne := if larger then pn + 1 else sp.rxLargestPlusOne
    rxLargestTime := if larger then now else sp.rxLargestTime
    ackAny := true
    ackOwed := sp.ackOwed || eliciting
    ackCount := if eliciting then count else sp.ackCount
    ackDeadline :=
      if !eliciting then sp.ackDeadline else if sp.early || 2 ≤ count || !inOrder then now else deadline }

inductive FrameEffect where
  | fine
  | refused
  | fails
  | drains
  | discards
  deriving DecidableEq, Repr

structure NumberedFrame where
  eliciting : Bool
  effect : FrameEffect
  deriving DecidableEq, Repr

inductive EcnMark where
  | none
  | ect0
  | ect1
  | ce
  deriving DecidableEq, Repr

structure NumberedPacket where
  pn : Nat
  malformed : Bool
  overCap : Bool
  frames : List NumberedFrame
  mark : EcnMark
  stored : Bool
  deriving DecidableEq, Repr

def fail (sp : PnSpace) : PnSpace := if sp.state.live then { sp with state := .closing } else sp

def drain (sp : PnSpace) : PnSpace :=
  match sp.state with
  | .closed => sp
  | _ => { sp with state := .draining }

def spaceDiscard (sp : PnSpace) : PnSpace := { sp with discarded := true, ackAny := false, ackOwed := false }

def applyFrame (effect : FrameEffect) (sp : PnSpace) : PnSpace :=
  match effect with
  | .fine => sp
  | .refused => fail sp
  | .fails => fail sp
  | .drains => drain sp
  | .discards => spaceDiscard sp

def applyFrames : List NumberedFrame → Bool → PnSpace → PnSpace × Bool × Bool
  | [], eliciting, sp => (sp, eliciting, false)
  | frame :: rest, eliciting, sp =>
    if !sp.state.live then (sp, eliciting, false)
    else
      let eliciting := eliciting || frame.eliciting
      let sp := applyFrame frame.effect sp
      if frame.effect = .refused then (sp, eliciting, true)
      else if sp.discarded then (sp, eliciting, false)
      else applyFrames rest eliciting sp

def countMark (now : Nat) (mark : EcnMark) (eliciting : Bool) (sp : PnSpace) : PnSpace :=
  match mark with
  | .none => sp
  | .ect0 => { sp with rxEcn := { sp.rxEcn with ect0 := sp.rxEcn.ect0 + 1 } }
  | .ect1 => { sp with rxEcn := { sp.rxEcn with ect1 := sp.rxEcn.ect1 + 1 } }
  | .ce =>
    { sp with
      rxEcn := { sp.rxEcn with ce := sp.rxEcn.ce + 1 }
      ackDeadline := if eliciting then now else sp.ackDeadline }

def readOpen (now : Nat) (packet : NumberedPacket) (sp : PnSpace) : PnSpace :=
  if packet.malformed then fail sp
  else if packet.overCap then sp
  else
    match applyFrames packet.frames false { sp with applied := packet.pn :: sp.applied } with
    | (sp, eliciting, refused) =>
      if refused || sp.state = .draining || sp.state = .closed then sp
      else if sp.discarded then sp
      else
        let sp := countMark now packet.mark eliciting (ackNote now packet.pn eliciting packet.stored sp)
        -- No memory for the range: `check_mem` closes the connection.
        if packet.stored then sp else fail sp

/-- The part of `read_packet` behind the keys. -/
def readPacket (now : Nat) (packet : NumberedPacket) (sp : PnSpace) : PnSpace :=
  if sp.state = .draining ∨ sp.state = .closed ∨ sp.discarded then sp
  else if seen sp packet.pn then sp
  else if sp.state = .closing then
    if packet.frames.any fun frame => frame.effect == .drains then drain sp else sp
  else readOpen now packet sp

def ackable (sp : PnSpace) : List (Nat × Nat) := (sp.rcvd.reverse.take 64).map fun r => (r.lo, r.hi - 1)

/-- `put_ack` with so much room. -/
def putAck (now room : Nat) (sp : PnSpace) : PnSpace :=
  if !sp.ackAny || sp.rcvd.isEmpty then sp
  else
    let delay := if !sp.early && sp.rxLargestTime < now then (now - sp.rxLargestTime) / 8 else 0
    let counts := sp.rxEcn.ect0 ≠ 0 ∨ sp.rxEcn.ect1 ≠ 0 ∨ sp.rxEcn.ce ≠ 0
    match ackPut (ackable sp) delay (if counts then some sp.rxEcn else none) room with
    | none => sp
    | some frame => { sp with ackAny := false, ackOwed := false, ackCount := 0, acks := frame :: sp.acks }

inductive NumberStep where
  | receive (now : Nat) (packet : NumberedPacket)
  | ack (now room : Nat)
  | discard
  | fails
  | drains
  | ends
  deriving DecidableEq, Repr

def numberStep (sp : PnSpace) : NumberStep → PnSpace
  | .receive now packet => readPacket now packet sp
  | .ack now room => if sp.state.live && !sp.discarded then putAck now room sp else sp
  | .discard => spaceDiscard sp
  | .fails => fail sp
  | .drains => drain sp
  | .ends => { sp with state := .closed }

def numberRun (sp : PnSpace) (steps : List NumberStep) : PnSpace := run numberStep sp steps

def spaceNew (early : Bool) (maxAckRanges : Nat) : PnSpace :=
  { early := early, maxAckRanges := maxAckRanges, state := .handshake, discarded := false, rcvd := [], rxFloor := 0
    rxLargestPlusOne := 0, rxLargestTime := 0, ackAny := false, ackOwed := false, ackCount := 0, ackDeadline := 0
    rxEcn := ⟨0, 0, 0⟩, applied := [], acks := [] }

def Descending : List (Nat × Nat) → Prop
  | [] => True
  | range :: rest => range.1 ≤ range.2 ∧ (∀ next ∈ rest, next.2 + 2 ≤ range.1) ∧ Descending rest

theorem next_further (need room last : Nat) (ranges : List (Nat × Nat)) (k pairs : Nat) (descending : Descending ranges)
    (below : ∀ next ∈ ranges, next.2 + 2 ≤ last) :
    ackNext last (ackFurther need room last ranges k pairs) <+: ranges := by
  induction ranges generalizing last k pairs with
  | nil => exact prefix_refl []
  | cons range rest ih =>
    obtain ⟨lo, hi⟩ := range
    obtain ⟨order, gaps, later⟩ := descending
    have here := below (lo, hi) mem_cons_self
    dsimp only at order gaps here
    rw [ackFurther]
    split
    · exact nil_prefix
    rw [ackNext]
    have top : last - (last - hi - 2) - 2 = hi := by omega
    have bottom : hi - (hi - lo) = lo := by omega
    rw [top, bottom]
    exact (prefix_cons_inj _).mpr (ih lo _ _ later gaps)

theorem ranges_put {ranges : List (Nat × Nat)} {delay room : Nat} {ecn : Option EcnCounts} {frame : AckFrame}
    (descending : Descending ranges) (put : ackPut ranges delay ecn room = some frame) : ackRanges frame <+: ranges := by
  unfold ackPut at put
  cases ranges with
  | nil => cases put
  | cons range rest =>
    obtain ⟨lo, hi⟩ := range
    obtain ⟨order, gaps, later⟩ := descending
    dsimp only at put order gaps
    split at put
    · cases put
    · cases put
      unfold ackRanges
      have bottom : hi - (hi - lo) = lo := by omega
      rw [bottom]
      exact (prefix_cons_inj _).mpr (next_further _ _ _ _ _ _ later gaps)

theorem descending_prefix {first second : List (Nat × Nat)} (descending : Descending (first ++ second)) :
    Descending first := by
  induction first with
  | nil => exact True.intro
  | cons range rest ih =>
    exact ⟨descending.1, fun next member => descending.2.1 next (mem_append_left _ member), ih descending.2.2⟩

theorem descending_append {first second : List (Nat × Nat)} (upper : Descending first) (lower : Descending second)
    (between : ∀ range ∈ first, ∀ next ∈ second, next.2 + 2 ≤ range.1) : Descending (first ++ second) := by
  induction first with
  | nil => exact lower
  | cons range rest ih =>
    refine ⟨upper.1, fun next member => ?_, ih upper.2.2 fun r inside => between r (mem_cons_of_mem _ inside)⟩
    rcases mem_append.mp member with inside | below
    · exact upper.2.1 next inside
    · exact between range mem_cons_self next below

theorem descending_reverse {s : List QRange} (apart : Apart s) :
    Descending (s.reverse.map fun r => (r.lo, r.hi - 1)) := by
  induction s with
  | nil => exact True.intro
  | cons r rest ih =>
    obtain ⟨full, gap, tail⟩ := apart
    rw [reverse_cons, map_append]
    refine descending_append (ih tail) ⟨by dsimp only; omega, nofun, True.intro⟩ ?_
    intro range member next single
    obtain ⟨q, inside, same⟩ := mem_map.mp member
    cases mem_singleton.mp single
    have above := gap q (mem_reverse.mp inside)
    rw [← same]
    dsimp only
    omega

variable {sp : PnSpace}

theorem ackable_descending (apart : Apart sp.rcvd) : Descending (ackable sp) := by
  have all := descending_reverse apart
  unfold ackable
  rw [map_take]
  rw [← take_append_drop 64 (sp.rcvd.reverse.map _)] at all
  exact descending_prefix all

theorem in_ack_noted {delay room pn : Nat} {ecn : Option EcnCounts} {frame : AckFrame}
    (apart : Apart sp.rcvd) (put : ackPut (ackable sp) delay ecn room = some frame) (acked : InAck pn frame) :
    InSet pn sp.rcvd := by
  obtain ⟨range, member, low, high⟩ := acked
  have inside := (ranges_put (ackable_descending apart) put).subset member
  obtain ⟨r, taken, same⟩ := mem_map.mp inside
  have there := mem_reverse.mp (mem_of_mem_take taken)
  have full := apart_full apart r there
  rw [← same] at low high
  exact ⟨r, there, low, by dsimp only at high; omega⟩

theorem seen_iff (sp) (pn : Nat) : seen sp pn = true ↔ pn < sp.rxFloor ∨ InSet pn sp.rcvd := by
  unfold seen InSet
  simp

theorem cap_spec (most : Nat) {s : List QRange} {floor : Nat} (apart : Apart s) (above : ∀ r ∈ s, floor ≤ r.lo) :
    Apart (capRanges most s floor).1 ∧ (∀ r ∈ (capRanges most s floor).1, (capRanges most s floor).2 ≤ r.lo) ∧
      (∀ pn, InSet pn (capRanges most s floor).1 → InSet pn s) ∧
      ∀ pn, pn < floor ∨ InSet pn s → pn < (capRanges most s floor).2 ∨ InSet pn (capRanges most s floor).1 := by
  induction s generalizing floor with
  | nil => exact ⟨apart, above, fun _ inside => inside, fun _ either => either⟩
  | cons r rest ih =>
    rw [capRanges]
    split
    · obtain ⟨full, gap, tail⟩ := apart
      have low := above r mem_cons_self
      obtain ⟨apart', above', inside', kept'⟩ := ih tail fun q member => (gap q member).le
      refine ⟨apart', above', fun pn inside => in_cons.mpr (.inr (inside' pn inside)), fun pn either => kept' pn ?_⟩
      rcases either with below | member
      · exact .inl (by omega)
      rcases in_cons.mp member with first | later
      · exact .inl first.2
      · exact .inr later
    · exact ⟨apart, above, fun _ inside => inside, fun _ either => either⟩

/-- What holds of a space: its ranges lie apart over the floor and hold numbers whose frames were
applied; each was applied once; and as long as the space is in use what was applied is seen. -/
structure Noted (sp : PnSpace) : Prop where
  apart : Apart sp.rcvd
  above : ∀ r ∈ sp.rcvd, sp.rxFloor ≤ r.lo
  inside : ∀ pn, InSet pn sp.rcvd → pn ∈ sp.applied
  once : sp.applied.Nodup
  kept : sp.state.live = true → sp.discarded = false → ∀ pn ∈ sp.applied, pn < sp.rxFloor ∨ InSet pn sp.rcvd
  acked : ∀ frame ∈ sp.acks, ∀ pn, InAck pn frame → pn ∈ sp.applied

structure SameNumbers (sp after : PnSpace) : Prop where
  rcvd : after.rcvd = sp.rcvd
  rxFloor : after.rxFloor = sp.rxFloor
  applied : after.applied = sp.applied
  acks : after.acks = sp.acks
  live : after.state.live = true → sp.state.live = true
  discarded : after.discarded = false → sp.discarded = false

theorem same_refl (sp) : SameNumbers sp sp := ⟨rfl, rfl, rfl, rfl, id, id⟩

theorem same_trans {middle after : PnSpace} (first : SameNumbers sp middle) (second : SameNumbers middle after) :
    SameNumbers sp after :=
  ⟨second.rcvd.trans first.rcvd, second.rxFloor.trans first.rxFloor, second.applied.trans first.applied,
    second.acks.trans first.acks, fun live => first.live (second.live live),
    fun kept => first.discarded (second.discarded kept)⟩

theorem noted_of {after : PnSpace} (same : SameNumbers sp after) (apart : Apart sp.rcvd)
    (above : ∀ r ∈ sp.rcvd, sp.rxFloor ≤ r.lo) (inside : ∀ pn, InSet pn sp.rcvd → pn ∈ sp.applied)
    (once : sp.applied.Nodup) (kept : after.state.live = true → after.discarded = false →
      ∀ pn ∈ sp.applied, pn < sp.rxFloor ∨ InSet pn sp.rcvd)
    (acked : ∀ frame ∈ sp.acks, ∀ pn, InAck pn frame → pn ∈ sp.applied) : Noted after := by
  obtain ⟨rcvd, rxFloor, applied, acks, _, _⟩ := same
  constructor
  · rw [rcvd]
    exact apart
  · rw [rcvd, rxFloor]
    exact above
  · rw [rcvd, applied]
    exact inside
  · rw [applied]
    exact once
  · rw [rcvd, rxFloor, applied]
    exact kept
  rw [acks, applied]
  exact acked

theorem noted_same {after : PnSpace} (noted : Noted sp) (same : SameNumbers sp after) : Noted after :=
  noted_of same noted.apart noted.above noted.inside noted.once
    (fun live kept => noted.kept (same.live live) (same.discarded kept)) noted.acked

theorem fail_live (sp) : (fail sp).state.live = false := by
  unfold fail
  split
  · rfl
  rename_i ended
  rw [Bool.not_eq_true] at ended
  exact ended

theorem drain_live (sp) : (drain sp).state.live = false := by
  unfold drain
  split
  next closed =>
    rw [closed]
    rfl
  · rfl

theorem fail_same (sp) : SameNumbers sp (fail sp) := by
  refine ⟨?_, ?_, ?_, ?_, fun live => ?_, ?_⟩
  · unfold fail
    split <;> rfl
  · unfold fail
    split <;> rfl
  · unfold fail
    split <;> rfl
  · unfold fail
    split <;> rfl
  · rw [fail_live] at live
    cases live
  unfold fail
  split <;> exact id

theorem drain_same (sp) : SameNumbers sp (drain sp) := by
  refine ⟨?_, ?_, ?_, ?_, fun live => ?_, ?_⟩
  · unfold drain
    split <;> rfl
  · unfold drain
    split <;> rfl
  · unfold drain
    split <;> rfl
  · unfold drain
    split <;> rfl
  · rw [drain_live] at live
    cases live
  unfold drain
  split <;> exact id

theorem discard_same (sp) : SameNumbers sp (spaceDiscard sp) := ⟨rfl, rfl, rfl, rfl, id, nofun⟩

theorem frame_same (effect : FrameEffect) (sp : PnSpace) : SameNumbers sp (applyFrame effect sp) := by
  cases effect with
  | fine => exact same_refl sp
  | refused | fails => exact fail_same sp
  | drains => exact drain_same sp
  | discards => exact discard_same sp

theorem frames_same (frames : List NumberedFrame) (eliciting : Bool) (sp : PnSpace) :
    SameNumbers sp (applyFrames frames eliciting sp).1 ∧
      ((applyFrames frames eliciting sp).2.2 = true → (applyFrames frames eliciting sp).1.state.live = false) := by
  induction frames generalizing eliciting sp with
  | nil => exact ⟨same_refl sp, nofun⟩
  | cons frame rest ih =>
    have here := frame_same frame.effect sp
    rw [applyFrames]
    split
    · exact ⟨same_refl sp, nofun⟩
    dsimp only
    split
    next refused =>
      refine ⟨here, fun _ => ?_⟩
      rw [refused]
      exact fail_live sp
    split
    · exact ⟨here, nofun⟩
    obtain ⟨same, closed⟩ := ih (eliciting || frame.eliciting) (applyFrame frame.effect sp)
    exact ⟨same_trans here same, closed⟩

theorem applied_once {pn : Nat} (noted : Noted sp) (live : sp.state.live = true)
    (kept : sp.discarded = false) (fresh : seen sp pn = false) : (pn :: sp.applied).Nodup := by
  rw [nodup_cons]
  refine ⟨fun again => ?_, noted.once⟩
  have known := (seen_iff sp pn).mpr (noted.kept live kept pn again)
  rw [fresh] at known
  cases known

theorem noted_ended {after : PnSpace} {pn : Nat} (noted : Noted sp) (once : (pn :: sp.applied).Nodup)
    (same : SameNumbers { sp with applied := pn :: sp.applied } after)
    (ended : after.state.live = true → after.discarded = true) : Noted after := by
  refine noted_of same noted.apart noted.above ?_ once ?_ ?_
  · exact fun n inside => mem_cons_of_mem _ (noted.inside n inside)
  · intro live kept
    rw [ended live] at kept
    cases kept
  · exact fun frame sent n acked => mem_cons_of_mem _ (noted.acked frame sent n acked)

theorem note_noted {sp after : PnSpace} {now pn : Nat} {eliciting stored : Bool} (noted : Noted sp)
    (fresh : seen sp pn = false) (live : sp.state.live = true)
    (kept : sp.discarded = false) (same : SameNumbers { sp with applied := pn :: sp.applied } after) :
    let final := ackNote now pn eliciting stored after
    Apart final.rcvd ∧ (∀ r ∈ final.rcvd, final.rxFloor ≤ r.lo) ∧ (∀ n, InSet n final.rcvd → n ∈ final.applied) ∧
      (stored = true → ∀ n ∈ final.applied, n < final.rxFloor ∨ InSet n final.rcvd) := by
  intro final
  have floor : sp.rxFloor ≤ pn := by
    by_contra below
    have known := (seen_iff sp pn).mpr (.inl (lt_of_not_ge below))
    rw [fresh] at known
    cases known
  have rcvd : after.rcvd = sp.rcvd := same.rcvd
  have rxFloor : after.rxFloor = sp.rxFloor := same.rxFloor
  have history : after.applied = pn :: sp.applied := same.applied
  have base : Apart (if stored then rsetAdd after.rcvd pn (pn + 1) else after.rcvd) ∧
      (∀ r ∈ (if stored then rsetAdd after.rcvd pn (pn + 1) else after.rcvd), after.rxFloor ≤ r.lo) ∧
      ∀ n, InSet n (if stored then rsetAdd after.rcvd pn (pn + 1) else after.rcvd) ↔
        InSet n sp.rcvd ∨ (stored = true ∧ n = pn) := by
    rw [rcvd, rxFloor]
    cases stored with
    | false =>
      refine ⟨noted.apart, noted.above, fun n => ?_⟩
      simp
    | true =>
      refine ⟨add_apart noted.apart _ _, ?_, fun n => ?_⟩
      · exact add_above noted.above floor
      rw [if_pos rfl, in_add noted.apart]
      have single : pn ≤ n ∧ n < pn + 1 ↔ n = pn := by omega
      rw [single]
      simp
  obtain ⟨apart, above, members⟩ := base
  obtain ⟨apart', above', inside', kept'⟩ := cap_spec after.maxAckRanges apart above
  refine ⟨apart', above', fun n member => ?_, fun yes n member => ?_⟩
  · have applied : n ∈ pn :: sp.applied := by
      rcases (members n).mp (inside' n member) with old | new
      · exact mem_cons_of_mem _ (noted.inside n old)
      rw [new.2]
      exact mem_cons_self
    exact history ▸ applied
  apply kept'
  have applied : n ∈ pn :: sp.applied := history ▸ member
  rcases mem_cons.mp applied with new | old
  · exact .inr ((members n).mpr (.inr ⟨yes, new⟩))
  rcases noted.kept live kept n old with below | inside
  · rw [rxFloor]
    exact .inl below
  · exact .inr ((members n).mpr (.inl inside))

theorem mark_same (now : Nat) (mark : EcnMark) (eliciting : Bool) (sp : PnSpace) :
    SameNumbers sp (countMark now mark eliciting sp) := by
  cases mark <;> exact ⟨rfl, rfl, rfl, rfl, id, id⟩

theorem read_noted (noted : Noted sp) (now : Nat) (packet : NumberedPacket)
    (live : sp.state.live = true) (kept : sp.discarded = false) (fresh : seen sp packet.pn = false) :
    Noted (readOpen now packet sp) := by
  have once := applied_once noted live kept fresh
  unfold readOpen
  split
  · exact noted_same noted (fail_same sp)
  split
  · exact noted
  obtain ⟨same, closed⟩ := frames_same packet.frames false { sp with applied := packet.pn :: sp.applied }
  cases frames : applyFrames packet.frames false { sp with applied := packet.pn :: sp.applied } with
  | mk after others =>
    obtain ⟨eliciting, refused⟩ := others
    rw [frames] at same closed
    dsimp only at same closed ⊢
    split
    next over_ =>
      apply noted_ended noted once same
      intro here
      simp only [Bool.or_eq_true, decide_eq_true_eq] at over_
      rcases over_ with (error | draining) | ended
      · rw [closed error] at here
        cases here
      · rw [draining] at here
        cases here
      rw [ended] at here
      cases here
    split
    next gone =>
      exact noted_ended noted once same fun _ => gone
    obtain ⟨apart, above, inside, stays⟩ :=
      @note_noted _ _ now packet.pn eliciting packet.stored noted fresh live kept same
    have acks : (ackNote now packet.pn eliciting packet.stored after).acks = sp.acks := same.acks
    have history : (ackNote now packet.pn eliciting packet.stored after).applied = packet.pn :: sp.applied :=
      same.applied
    have marked := mark_same now packet.mark eliciting (ackNote now packet.pn eliciting packet.stored after)
    have acked : ∀ frame ∈ (ackNote now packet.pn eliciting packet.stored after).acks, ∀ n, InAck n frame →
        n ∈ (ackNote now packet.pn eliciting packet.stored after).applied := by
      rw [acks, history]
      exact fun frame sent n acked => mem_cons_of_mem _ (noted.acked frame sent n acked)
    split
    next stored =>
      exact noted_of marked apart above inside (history ▸ once) (fun _ _ => stays stored) acked
    have ended := same_trans marked (fail_same _)
    refine noted_of ended apart above inside (history ▸ once) (fun live => ?_) acked
    rw [fail_live] at live
    cases live

theorem put_noted (noted : Noted sp) (now room : Nat) : Noted (putAck now room sp) := by
  unfold putAck
  split
  · exact noted
  dsimp only
  split
  · exact noted
  rename_i frame put
  refine ⟨noted.apart, noted.above, noted.inside, noted.once, noted.kept, fun sent member n acked => ?_⟩
  rcases mem_cons.mp member with here | before
  · rw [here] at acked
    exact noted.inside n (in_ack_noted noted.apart put acked)
  · exact noted.acked sent before n acked

theorem step_noted (sp) (step : NumberStep) (noted : Noted sp) : Noted (numberStep sp step) := by
  cases step with
  | receive now packet =>
    dsimp only [numberStep]
    unfold readPacket
    split
    · exact noted
    rename_i inUse
    simp only [not_or] at inUse
    obtain ⟨notDraining, notClosed, kept⟩ := inUse
    split
    · exact noted
    rename_i fresh
    split
    · split
      · exact noted_same noted (drain_same sp)
      · exact noted
    rename_i notClosing
    have live : sp.state.live = true := by
      cases state : sp.state with
      | handshake => rfl
      | opened => rfl
      | closing => exact absurd state notClosing
      | draining => exact absurd state notDraining
      | closed => exact absurd state notClosed
    rw [Bool.not_eq_true] at kept fresh
    exact read_noted noted now packet live kept fresh
  | ack now room =>
    dsimp only [numberStep]
    split
    · exact put_noted noted now room
    · exact noted
  | discard => exact noted_same noted (discard_same sp)
  | fails => exact noted_same noted (fail_same sp)
  | drains => exact noted_same noted (drain_same sp)
  | ends => exact noted_same noted ⟨rfl, rfl, rfl, rfl, nofun, id⟩

theorem new_noted (early : Bool) (maxAckRanges : Nat) : Noted (spaceNew early maxAckRanges) :=
  ⟨True.intro, nofun, fun _ inside => absurd inside (not_in_nil _), nodup_nil, nofun, nofun⟩

/-- The frames of a number are applied once at most, an ACK says only what was applied, and what
was applied is noted or below the floor while the space is in use. -/
structure Truthful (sp : PnSpace) : Prop where
  once : sp.applied.Nodup
  acked : ∀ frame ∈ sp.acks, ∀ pn, InAck pn frame → pn ∈ sp.applied
  kept : sp.state.live = true → sp.discarded = false → ∀ pn ∈ sp.applied, pn < sp.rxFloor ∨ InSet pn sp.rcvd

theorem numbers_truthful (early : Bool) (maxAckRanges : Nat) (steps : List NumberStep) :
    Truthful (numberRun (spaceNew early maxAckRanges) steps) := by
  have noted := run_invariant step_noted (new_noted early maxAckRanges) steps
  exact ⟨noted.once, noted.acked, noted.kept⟩

/-- The packet that ends the connection is not noted. -/
theorem last_packet_not_noted : ¬ ∀ (early : Bool) (maxAckRanges : Nat) (steps : List NumberStep),
      let sp := numberRun (spaceNew early maxAckRanges) steps
      sp.applied.Nodup ∧ (∀ frame ∈ sp.acks, ∀ pn, InAck pn frame → pn ∈ sp.applied) ∧
        ∀ pn ∈ sp.applied, pn < sp.rxFloor ∨ InSet pn sp.rcvd := by
  intro every
  have noted := (every false 64 [.receive 0 ⟨7, false, false, [⟨false, .drains⟩], .none, true⟩]).2.2 7 (by decide)
  exact absurd noted (by decide)

example :
    let sp := numberRun (spaceNew true 2)
      [.receive 0 ⟨4, false, false, [⟨true, .fine⟩], .none, true⟩, .receive 1 ⟨0, false, false, [⟨true, .fine⟩], .none, true⟩,
        .receive 2 ⟨2, false, false, [⟨true, .fine⟩], .none, true⟩, .receive 3 ⟨0, false, false, [⟨true, .fine⟩], .none, true⟩,
        .ack 4 100]
    sp.applied = [2, 0, 4] ∧ sp.rcvd = [⟨2, 3⟩, ⟨4, 5⟩] ∧ sp.rxFloor = 1 ∧ sp.acks.map ackRanges = [[(4, 4), (2, 2)]] := by
  decide

end ProvenC.Quic.Numbers

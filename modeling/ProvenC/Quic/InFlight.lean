import ProvenC.Lib.Runs
import ProvenC.Quic.Streams

/-!
# What a connection counts as in flight

A packet is recorded when it is sealed and leaves the records when it is acknowledged or lost, when the keys of
its space go, or when what it belongs to is refused. Every way out subtracts it once.
-/

namespace ProvenC.Quic.InFlight

open Lib.Runs Streams

def qcMaxSent : Nat := 8192

def qcMaxDgram : Nat := 1452

/-- What counting uses of `proven_qsent_t`. `QC_INF`, the number of a record that is taken, is `none`. -/
structure Sent where
  pn : Option Nat
  time : Nat
  size : Nat
  ackEliciting : Bool
  inFlight : Bool
  zeroRtt : Bool

structure FlightSpace where
  nextPn : Nat
  sent : List Sent
  sentCap : Nat
  largestAckedPlusOne : Nat
  ackElicitingInFlight : Nat
  probes : Nat
  discarded : Bool

structure Flight where
  sp : Level → FlightSpace
  bif_ : Nat

def flightNew : Flight :=
  { sp := fun _ => ⟨0, [], 0, 0, 0, 0, false⟩, bif_ := 0 }

structure Counters where
  bif_ : Nat
  eliciting : Nat

def sentGone (k : Counters) (p : Sent) : Counters :=
  { bif_ := if p.inFlight then k.bif_ - min k.bif_ p.size else k.bif_
    eliciting := if p.ackEliciting ∧ k.eliciting ≠ 0 then k.eliciting - 1 else k.eliciting }

def Flight.counters (c : Flight) (lvl : Level) : Counters := ⟨c.bif_, (c.sp lvl).ackElicitingInFlight⟩

def Flight.settle (c : Flight) (lvl : Level) (sent : List Sent) (k : Counters) : Flight :=
  { sp := Function.update c.sp lvl { c.sp lvl with sent := sent, ackElicitingInFlight := k.eliciting }, bif_ := k.bif_ }

structure Built where
  lvl : Level
  zeroRtt : Bool
  eliciting : Bool
  padded : Bool
  len : Nat
  fits : len ≤ qcMaxDgram

/-- The record of a sealed packet, when there is room for it; `granted` says whether the allocator gives more. -/
def sealPacket (c : Flight) (now : Nat) (granted : Bool) (p : Built) : Flight :=
  let sp := c.sp p.lvl
  let next := { sp with nextPn := sp.nextPn + 1 }
  if (p.eliciting || p.padded) ∧ sp.sent.length < qcMaxSent then
    if sp.sent.length = sp.sentCap ∧ granted = false then { c with sp := Function.update c.sp p.lvl next }
    else
      let cap := if sp.sent.length = sp.sentCap then if sp.sentCap = 0 then 64 else sp.sentCap * 2 else sp.sentCap
      let r : Sent := ⟨some sp.nextPn, now, p.len, p.eliciting, true, p.zeroRtt⟩
      { sp := Function.update c.sp p.lvl { next with
          sent := sp.sent ++ [r], sentCap := cap
          ackElicitingInFlight := if p.eliciting then sp.ackElicitingInFlight + 1 else sp.ackElicitingInFlight
          probes := if p.eliciting ∧ sp.probes ≠ 0 then sp.probes - 1 else sp.probes }
        bif_ := c.bif_ + p.len }
  else { c with sp := Function.update c.sp p.lvl next }

def lostWalk (largest lostBefore threshold : Nat) : List Sent → Counters → List Sent × Counters
  | [], k => ([], k)
  | p :: rest, k =>
    match p.pn with
    | none => (p :: rest, k)
    | some pn =>
      if largest < pn then (p :: rest, k)
      else if p.time ≤ lostBefore ∨ pn + threshold ≤ largest then lostWalk largest lostBefore threshold rest (sentGone k p)
      else
        let (kept, k) := lostWalk largest lostBefore threshold rest k
        (p :: kept, k)

/-- `lostBefore` and `threshold` are what the clock, the round trips and the packets reordered so far make them. -/
def detectLost (lostBefore threshold : Nat) (lvl : Level) (c : Flight) : Flight :=
  let sp := c.sp lvl
  if sp.largestAckedPlusOne = 0 then c
  else
    let (kept, k) := lostWalk (sp.largestAckedPlusOne - 1) lostBefore threshold sp.sent (c.counters lvl)
    c.settle lvl kept k

def Sent.below (p : Sent) (lo : Nat) : Bool := p.pn.any fun pn => pn < lo

def Sent.upTo (p : Sent) (hi : Nat) : Bool := p.pn.any fun pn => pn ≤ hi

/-- The search for the first record from `lo` on. -/
def firstFrom (sent : List Sent) (lo a b : Nat) : Nat :=
  if a < b then
    let m := (a + b) / 2
    if (sent[m]?.any fun p => p.below lo) then firstFrom sent lo (m + 1) b else firstFrom sent lo a m
  else a
termination_by b - a

/-- The records up to `hi` are subtracted and marked. -/
def takeUpTo (hi : Nat) : List Sent → Counters → List Sent × Counters
  | [], k => ([], k)
  | p :: rest, k =>
    if p.upTo hi then
      let (rest, k) := takeUpTo hi rest (sentGone k p)
      ({ p with pn := none } :: rest, k)
    else (p :: rest, k)

def ackRange (s : List Sent × Counters) (range : Nat × Nat) : List Sent × Counters :=
  let a := firstFrom s.1 range.1 0 s.1.length
  let (rest, k) := takeUpTo range.2 (s.1.drop a) s.2
  (s.1.take a ++ rest, k)

def live (sent : List Sent) : List Sent := sent.filter fun p => p.pn.isSome

def takeAcked (lvl : Level) (c : Flight) (ranges : List (Nat × Nat)) : Flight × Bool :=
  let (sent, k) := ranges.foldl ackRange ((c.sp lvl).sent, c.counters lvl)
  (c.settle lvl (live sent) k, sent.any fun p => p.pn.isNone)

/-- `none` is the protocol violation of a number that was never sent. -/
def onAck (lostBefore threshold : Nat) (lvl : Level) (c : Flight) (largest : Nat) (ranges : List (Nat × Nat)) : Option Flight :=
  let sp := c.sp lvl
  if sp.nextPn ≤ largest then none
  else
    let acked := { sp with largestAckedPlusOne := max sp.largestAckedPlusOne (largest + 1) }
    let (c, newly) := takeAcked lvl { c with sp := Function.update c.sp lvl acked } ranges
    some (if newly then detectLost lostBefore threshold lvl c else c)

def spaceDiscard (lvl : Level) (c : Flight) : Flight :=
  let sp := c.sp lvl
  if sp.discarded then c
  else
    { sp := Function.update c.sp lvl { sp with sent := [], ackElicitingInFlight := 0, probes := 0, discarded := true }
      bif_ := (sp.sent.foldl sentGone (c.counters lvl)).bif_ }

def retried (c : Flight) : Flight :=
  c.settle .initial [] ((c.sp .initial).sent.foldl sentGone (c.counters .initial))

def earlyRefused (c : Flight) : Flight :=
  let sent := (c.sp .application).sent
  c.settle .application (sent.filter fun p => !p.zeroRtt)
    ((sent.filter fun p => p.zeroRtt).foldl sentGone (c.counters .application))

def probeOwed (lvl : Level) (c : Flight) : Flight :=
  if (c.sp lvl).discarded then c else { c with sp := Function.update c.sp lvl { c.sp lvl with probes := 2 } }

inductive FlightStep where
  | seals (now : Nat) (granted : Bool) (p : Built)
  | acks (lostBefore threshold : Nat) (lvl : Level) (largest : Nat) (ranges : List (Nat × Nat))
  | loses (lostBefore threshold : Nat) (lvl : Level)
  | probes (lvl : Level)
  | discards (lvl : Level)
  | retries
  | refuses

def flightNext (c : Flight) : FlightStep → Flight
  | .seals now granted p => sealPacket c now granted p
  | .acks lostBefore threshold lvl largest ranges => (onAck lostBefore threshold lvl c largest ranges).getD c
  | .loses lostBefore threshold lvl => detectLost lostBefore threshold lvl c
  | .probes lvl => probeOwed lvl c
  | .discards lvl => spaceDiscard lvl c
  | .retries => retried c
  | .refuses => earlyRefused c

def bytesIn (sent : List Sent) : Nat := (sent.map fun p => if p.inFlight then p.size else 0).sum

def elicitingIn (sent : List Sent) : Nat := sent.countP fun p => p.inFlight && p.ackEliciting

def recordedBytes (sp : Level → FlightSpace) : Nat :=
  bytesIn (sp .initial).sent + bytesIn (sp .handshake).sent + bytesIn (sp .application).sent

structure SpaceAccounted (sp : FlightSpace) : Prop where
  eliciting : sp.ackElicitingInFlight = elicitingIn sp.sent
  recorded : ∀ p ∈ sp.sent, p.inFlight = true ∧ p.pn.isSome ∧ p.size ≤ qcMaxDgram
  room : sp.sent.length ≤ qcMaxSent

structure Accounted (c : Flight) : Prop where
  bytes : c.bif_ = recordedBytes c.sp
  spaces : ∀ lvl, SpaceAccounted (c.sp lvl)

/-- What is no longer in `kept` left once, and was subtracted once. -/
def Taken (sent kept : List Sent) (k k' : Counters) : Prop :=
  ∃ gone, sent.Perm (kept ++ gone) ∧ k' = gone.foldl sentGone k

theorem taken_none (sent : List Sent) (k : Counters) : Taken sent sent k k :=
  ⟨[], by rw [List.append_nil], rfl⟩

theorem taken_first {p : Sent} {rest kept : List Sent} {k k' : Counters} (taken : Taken rest kept (sentGone k p) k') :
    Taken (p :: rest) kept k k' := by
  obtain ⟨gone, parts, after⟩ := taken
  exact ⟨p :: gone, (parts.cons p).trans List.perm_middle.symm, after⟩

theorem taken_kept (first : List Sent) {rest kept : List Sent} {k k' : Counters} (taken : Taken rest kept k k') :
    Taken (first ++ rest) (first ++ kept) k k' := by
  obtain ⟨gone, parts, after⟩ := taken
  exact ⟨gone, by rw [List.append_assoc]; exact parts.append_left first, after⟩

theorem taken_trans {sent between kept : List Sent} {k k' k'' : Counters} (first : Taken sent between k k')
    (second : Taken between kept k' k'') : Taken sent kept k k'' := by
  obtain ⟨gone, parts, after⟩ := first
  obtain ⟨gone', parts', after'⟩ := second
  refine ⟨gone ++ gone', ?_, by rw [List.foldl_append, ← after, after']⟩
  refine parts.trans ((parts'.append_right gone).trans ?_)
  rw [List.append_assoc]
  exact List.perm_append_comm.append_left kept

theorem lost_taken (largest lostBefore threshold : Nat) (sent : List Sent) (k : Counters) :
    Taken sent (lostWalk largest lostBefore threshold sent k).1 k (lostWalk largest lostBefore threshold sent k).2 := by
  induction sent generalizing k with
  | nil => exact taken_none [] k
  | cons p rest ih =>
    unfold lostWalk
    split
    · exact taken_none _ k
    split_ifs
    · exact taken_none _ k
    · exact taken_first (ih _)
    · exact taken_kept [p] (ih k)

theorem up_to_taken (hi : Nat) (sent : List Sent) (k : Counters) :
    Taken (live sent) (live (takeUpTo hi sent k).1) k (takeUpTo hi sent k).2 := by
  induction sent generalizing k with
  | nil => exact taken_none [] k
  | cons p rest ih =>
    unfold takeUpTo
    split_ifs with upTo
    · have isLive : p.pn.isSome = true := by
        unfold Sent.upTo at upTo
        cases same : p.pn with
        | none => rw [same] at upTo; cases upTo
        | some pn => rfl
      have before : live (p :: rest) = p :: live rest := List.filter_cons_of_pos isLive
      rw [before]
      exact taken_first (ih _)
    · exact taken_none _ k

theorem range_taken (s : List Sent × Counters) (range : Nat × Nat) :
    Taken (live s.1) (live (ackRange s range).1) s.2 (ackRange s range).2 := by
  unfold ackRange
  generalize firstFrom s.1 range.1 0 s.1.length = a
  have parts : live s.1 = live (s.1.take a) ++ live (s.1.drop a) := by
    unfold live
    rw [← List.filter_append, List.take_append_drop]
  have joined (rest : List Sent) : live (s.1.take a ++ rest) = live (s.1.take a) ++ live rest := List.filter_append _ _
  rw [parts, joined]
  exact taken_kept _ (up_to_taken range.2 _ s.2)

theorem ranges_taken (ranges : List (Nat × Nat)) (s : List Sent × Counters) :
    Taken (live s.1) (live (ranges.foldl ackRange s).1) s.2 (ranges.foldl ackRange s).2 := by
  induction ranges generalizing s with
  | nil => exact taken_none _ _
  | cons range ranges ih => exact taken_trans (range_taken s range) (ih _)

theorem gone_subtracted (gone : List Sent) (counted : ∀ p ∈ gone, p.inFlight = true) (bytes eliciting : Nat) :
    gone.foldl sentGone ⟨bytes + bytesIn gone, eliciting + elicitingIn gone⟩ = ⟨bytes, eliciting⟩ := by
  induction gone with
  | nil => rfl
  | cons p gone ih =>
    have inFlight := counted p List.mem_cons_self
    have weight : bytesIn (p :: gone) = p.size + bytesIn gone := by
      unfold bytesIn
      rw [List.map_cons, List.sum_cons, if_pos inFlight]
    have asks : elicitingIn (p :: gone) = elicitingIn gone + if p.ackEliciting then 1 else 0 := by
      unfold elicitingIn
      rw [List.countP_cons, inFlight, Bool.true_and]
    have once : sentGone ⟨bytes + bytesIn (p :: gone), eliciting + elicitingIn (p :: gone)⟩ p =
        ⟨bytes + bytesIn gone, eliciting + elicitingIn gone⟩ := by
      unfold sentGone
      rw [weight, asks, if_pos inFlight]
      dsimp only
      congr 1
      · omega
      by_cases elicits : p.ackEliciting = true
      · rw [if_pos elicits, if_pos ⟨elicits, by omega⟩]
        omega
      rw [if_neg elicits, if_neg fun both => elicits both.1]
      rfl
    rw [List.foldl_cons, once]
    exact ih fun q inside => counted q (List.mem_cons_of_mem p inside)

variable {c : Flight} {lvl : Level} {sp' : FlightSpace}

theorem update_accounted {bytes : Nat} (accounted : Accounted c)
    (moved : bytes + bytesIn (c.sp lvl).sent = c.bif_ + bytesIn sp'.sent) (space : SpaceAccounted sp') :
    Accounted { sp := Function.update c.sp lvl sp', bif_ := bytes } := by
  refine ⟨?_, (Function.forall_update_iff c.sp fun _ sp => SpaceAccounted sp).mpr ⟨space, fun l _ => accounted.spaces l⟩⟩
  have before := accounted.bytes
  unfold recordedBytes at before ⊢
  cases lvl <;> simp [Function.update] <;> omega

theorem settle_accounted {kept : List Sent} {k : Counters} (accounted : Accounted c)
    (taken : Taken (c.sp lvl).sent kept (c.counters lvl) k) (sent : sp'.sent = kept) (count : sp'.ackElicitingInFlight = k.eliciting) :
    Accounted { sp := Function.update c.sp lvl sp', bif_ := k.bif_ } := by
  obtain ⟨gone, parts, after⟩ := taken
  have space := accounted.spaces lvl
  have inside (p : Sent) (isIn : p ∈ kept ++ gone) := space.recorded p (parts.mem_iff.mpr isIn)
  have bytes : bytesIn (c.sp lvl).sent = bytesIn kept + bytesIn gone := by
    unfold bytesIn
    rw [(parts.map _).sum_eq, List.map_append, List.sum_append]
  have asks : elicitingIn (c.sp lvl).sent = elicitingIn kept + elicitingIn gone := by
    unfold elicitingIn
    rw [parts.countP_eq, List.countP_append]
  have enough : bytesIn (c.sp lvl).sent ≤ c.bif_ := by
    rw [accounted.bytes]
    unfold recordedBytes
    cases lvl <;> omega
  obtain ⟨others, isOthers⟩ := Nat.exists_eq_add_of_le' (bytes ▸ enough)
  have start : c.counters lvl = ⟨others + bytesIn kept + bytesIn gone, elicitingIn kept + elicitingIn gone⟩ := by
    unfold Flight.counters
    rw [isOthers, space.eliciting, asks, Nat.add_assoc]
  rw [start, gone_subtracted gone fun p isIn => (inside p (List.mem_append_right _ isIn)).1] at after
  subst after sent
  have length := parts.length_eq.symm.le.trans space.room
  rw [List.length_append] at length
  exact update_accounted accounted (by rw [isOthers, bytes]; dsimp only; omega)
    ⟨count, fun p isIn => inside p (List.mem_append_left _ isIn), (Nat.le_add_right _ _).trans length⟩

theorem same_accounted (accounted : Accounted c) (sent : sp'.sent = (c.sp lvl).sent)
    (count : sp'.ackElicitingInFlight = (c.sp lvl).ackElicitingInFlight) :
    Accounted { c with sp := Function.update c.sp lvl sp' } :=
  settle_accounted accounted (taken_none _ (c.counters lvl)) sent count

theorem lost_accounted (lostBefore threshold : Nat) (accounted : Accounted c) :
    Accounted (detectLost lostBefore threshold lvl c) := by
  unfold detectLost
  dsimp only
  split_ifs
  · exact accounted
  · exact settle_accounted accounted (lost_taken _ lostBefore threshold _ _) rfl rfl

theorem acked_accounted (lvl : Level) (ranges : List (Nat × Nat)) (accounted : Accounted c) :
    Accounted (takeAcked lvl c ranges).1 := by
  have taken := ranges_taken ranges ((c.sp lvl).sent, c.counters lvl)
  rw [show live (c.sp lvl).sent = (c.sp lvl).sent from
    List.filter_eq_self.mpr fun p isIn => ((accounted.spaces lvl).recorded p isIn).2.1] at taken
  exact settle_accounted accounted taken rfl rfl

theorem ack_accounted (lostBefore threshold : Nat) (largest : Nat) (ranges : List (Nat × Nat)) (accounted : Accounted c) :
    Accounted ((onAck lostBefore threshold lvl c largest ranges).getD c) := by
  unfold onAck
  by_cases never : (c.sp lvl).nextPn ≤ largest
  · rw [if_pos never]
    exact accounted
  rw [if_neg never, Option.getD_some]
  have moved : Accounted { c with sp := Function.update c.sp lvl { c.sp lvl with
      largestAckedPlusOne := max (c.sp lvl).largestAckedPlusOne (largest + 1) } } := same_accounted accounted rfl rfl
  have acked := acked_accounted lvl ranges moved
  split_ifs
  · exact lost_accounted lostBefore threshold acked
  · exact acked

theorem discard_accounted (accounted : Accounted c) : Accounted (spaceDiscard lvl c) := by
  unfold spaceDiscard
  dsimp only
  split_ifs
  · exact accounted
  have gone : Taken (c.sp lvl).sent [] (c.counters lvl) ((c.sp lvl).sent.foldl sentGone (c.counters lvl)) :=
    ⟨_, List.Perm.refl _, rfl⟩
  have settled : Accounted (c.settle lvl [] _) := settle_accounted accounted gone rfl rfl
  have none := (settled.spaces lvl).eliciting
  unfold Flight.settle at none
  dsimp only at none
  rw [Function.update_self] at none
  exact settle_accounted accounted gone rfl none.symm

theorem record_accounted {r : Sent} (accounted : Accounted c) (counted : r.inFlight = true ∧ r.pn.isSome ∧ r.size ≤ qcMaxDgram)
    (room : (c.sp lvl).sent.length < qcMaxSent) (sent : sp'.sent = (c.sp lvl).sent ++ [r])
    (count : sp'.ackElicitingInFlight = (c.sp lvl).ackElicitingInFlight + if r.ackEliciting then 1 else 0) :
    Accounted { sp := Function.update c.sp lvl sp', bif_ := c.bif_ + r.size } := by
  have space := accounted.spaces lvl
  refine update_accounted accounted ?_ ⟨?_, fun p isIn => ?_, ?_⟩
  · unfold bytesIn
    rw [sent, List.map_append, List.sum_append, List.map_singleton, List.sum_singleton, if_pos counted.1]
    omega
  · unfold elicitingIn
    rw [count, space.eliciting, sent, List.countP_append, List.countP_singleton, counted.1, Bool.true_and]
    rfl
  · rw [sent] at isIn
    rcases List.mem_append.mp isIn with earlier | last
    · exact space.recorded p earlier
    · exact List.mem_singleton.mp last ▸ counted
  rw [sent, List.length_append]
  exact room

theorem seal_accounted (now : Nat) (granted : Bool) (p : Built) (accounted : Accounted c) : Accounted (sealPacket c now granted p) := by
  unfold sealPacket
  by_cases records : (p.eliciting || p.padded) = true ∧ (c.sp p.lvl).sent.length < qcMaxSent
  · rw [if_pos records]
    by_cases full : (c.sp p.lvl).sent.length = (c.sp p.lvl).sentCap ∧ granted = false
    · rw [if_pos full]
      exact same_accounted accounted rfl rfl
    rw [if_neg full]
    refine record_accounted (r := ⟨_, _, _, _, _, _⟩) accounted ⟨rfl, rfl, p.fits⟩ records.2 rfl ?_
    split_ifs <;> rfl
  rw [if_neg records]
  exact same_accounted accounted rfl rfl

theorem next_accounted (c : Flight) (step : FlightStep) (accounted : Accounted c) : Accounted (flightNext c step) := by
  cases step with
  | seals now granted p => exact seal_accounted now granted p accounted
  | acks lostBefore threshold lvl largest ranges => exact ack_accounted lostBefore threshold largest ranges accounted
  | loses lostBefore threshold lvl => exact lost_accounted lostBefore threshold accounted
  | probes lvl =>
    change Accounted (probeOwed lvl c)
    unfold probeOwed
    split_ifs
    · exact accounted
    · exact same_accounted accounted rfl rfl
  | discards lvl => exact discard_accounted accounted
  | retries => exact settle_accounted accounted ⟨_, List.Perm.refl _, rfl⟩ rfl rfl
  | refuses =>
    refine settle_accounted accounted ⟨(c.sp .application).sent.filter fun p => p.zeroRtt, ?_, rfl⟩ rfl rfl
    exact (List.filter_append_perm _ _).symm.trans List.perm_append_comm

theorem bytes_bounded (sent : List Sent) (small : ∀ p ∈ sent, p.size ≤ qcMaxDgram) : bytesIn sent ≤ sent.length * qcMaxDgram := by
  refine (List.sum_le_card_nsmul _ qcMaxDgram ?_).trans (by rw [List.length_map, smul_eq_mul])
  intro size isIn
  obtain ⟨p, inside, rfl⟩ := List.mem_map.mp isIn
  split_ifs
  · exact small p inside
  · exact Nat.zero_le _

def mayElicit (c : Flight) (lvl : Level) (datagram cwnd : Nat) (paced : Bool) : Bool :=
  0 < (c.sp lvl).probes || (c.bif_ + datagram ≤ cwnd && paced && (c.sp lvl).sent.length < qcMaxSent)

/-- After any steps the counters are what the records add up to, so they stay within 64 bits, and with nothing
recorded the window is all there is to hold a packet back. -/
theorem run_in_flight (steps : List FlightStep) :
    let c := run flightNext flightNew steps
    c.bif_ = recordedBytes c.sp ∧ (∀ lvl, (c.sp lvl).ackElicitingInFlight = elicitingIn (c.sp lvl).sent) ∧
      c.bif_ < 2 ^ 64 ∧
      ((∀ lvl, (c.sp lvl).sent = []) → c.bif_ = 0 ∧ (∀ lvl, (c.sp lvl).ackElicitingInFlight = 0) ∧
        ∀ lvl datagram cwnd, datagram ≤ cwnd → mayElicit c lvl datagram cwnd true = true) := by
  have start : Accounted flightNew := ⟨rfl, fun _ => ⟨rfl, fun _ isIn => (List.not_mem_nil isIn).elim, Nat.zero_le _⟩⟩
  have accounted : Accounted (run flightNext flightNew steps) :=
    run_invariant (fun c step holds => next_accounted c step holds) start steps
  generalize run flightNext flightNew steps = c at accounted
  refine ⟨accounted.bytes, fun lvl => (accounted.spaces lvl).eliciting, ?_, fun nothing => ?_⟩
  · have bounded (lvl : Level) : bytesIn (c.sp lvl).sent ≤ qcMaxSent * qcMaxDgram :=
      (bytes_bounded _ fun p isIn => ((accounted.spaces lvl).recorded p isIn).2.2).trans (Nat.mul_le_mul_right _ (accounted.spaces lvl).room)
    have initial := bounded .initial
    have handshake := bounded .handshake
    have application := bounded .application
    rw [accounted.bytes]
    unfold recordedBytes
    unfold qcMaxSent qcMaxDgram at *
    omega
  have none : c.bif_ = 0 := by
    rw [accounted.bytes]
    unfold recordedBytes
    rw [nothing, nothing, nothing]
    rfl
  refine ⟨none, fun lvl => by rw [(accounted.spaces lvl).eliciting, nothing]; rfl, fun lvl datagram cwnd fits => ?_⟩
  unfold mayElicit
  rw [none, nothing lvl, Nat.zero_add, decide_eq_true fits]
  exact Bool.or_true _

end ProvenC.Quic.InFlight

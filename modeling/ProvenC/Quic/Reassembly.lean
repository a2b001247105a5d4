import ProvenC.Quic.Opening

/-!
# A stream's bytes come in order

Frames carry pieces of a stream's content in any order, with any overlap, any number of times, and the
application reads what is there whenever it likes.
-/

namespace ProvenC.Quic.Reassembly

open List Bytes Quic.RangeSet Quic.Queues Quic.Streams Quic.Frames
open Quic.Calls Quic.Sides Quic.Opening Lib.Slots Lib.Runs

/-- A STREAM frame with the byte `n` of the stream was taken. -/
def Covered (seen : List Seen) (id n : Nat) : Prop :=
  ∃ off data fin, Seen.took (.stream id off data fin) ∈ seen ∧ off ≤ n ∧ n < off + data.length

/-- A STREAM frame was taken that ends the stream at `size`. -/
def FinalSize (seen : List Seen) (id size : Nat) : Prop :=
  ∃ off data, Seen.took (.stream id off data true) ∈ seen ∧ size = off + data.length

def readOf (id : Nat) : Seen → List Byte
  | .read other bytes _ => if other = id then bytes else []
  | _ => []

def delivered (seen : List Seen) (id : Nat) : List Byte := seen.flatMap (readOf id)

/-- The first `n` bytes of a stream's content. -/
def contentTo (content : Nat → Byte) (n : Nat) : List Byte := (List.range n).map content

def Mentions (id : Nat) : Seen → Prop
  | .took (.stream other _ _ _) => other = id
  | .read other _ _ => other = id
  | _ => False

theorem delivered_append (seen more : List Seen) (id : Nat) :
    delivered (seen ++ more) id = delivered seen id ++ delivered more id := by
  simp [delivered]

variable {more : List Seen} {id : Nat}

theorem delivered_other (other : ∀ e ∈ more, ¬ Mentions id e) : delivered more id = [] := by
  refine flatMap_eq_nil_iff.mpr fun e member => ?_
  have silent := other e member
  cases e with
  | read from_ bytes fin =>
    have different : from_ ≠ id := silent
    simp [readOf, different]
  | _ => rfl

theorem covered_append {seen : List Seen} {n : Nat} :
    Covered (seen ++ more) id n ↔ Covered seen id n ∨ Covered more id n := by
  simp only [Covered, mem_append]
  constructor
  · rintro ⟨off, data, fin, before | later, place⟩
    · exact .inl ⟨off, data, fin, before, place⟩
    · exact .inr ⟨off, data, fin, later, place⟩
  rintro (⟨off, data, fin, before, place⟩ | ⟨off, data, fin, later, place⟩)
  · exact ⟨off, data, fin, .inl before, place⟩
  · exact ⟨off, data, fin, .inr later, place⟩

theorem covered_other {n : Nat} (other : ∀ e ∈ more, ¬ Mentions id e) : ¬ Covered more id n := by
  rintro ⟨off, data, fin, member, _⟩
  exact other _ member rfl

theorem final_append {seen : List Seen} {size : Nat} :
    FinalSize (seen ++ more) id size ↔ FinalSize seen id size ∨ FinalSize more id size := by
  simp only [FinalSize, mem_append]
  constructor
  · rintro ⟨off, data, before | later, same⟩
    · exact .inl ⟨off, data, before, same⟩
    · exact .inr ⟨off, data, later, same⟩
  rintro (⟨off, data, before, same⟩ | ⟨off, data, later, same⟩)
  · exact ⟨off, data, .inl before, same⟩
  · exact ⟨off, data, .inr later, same⟩

theorem final_other {size : Nat} (other : ∀ e ∈ more, ¬ Mentions id e) : ¬ FinalSize more id size := by
  rintro ⟨off, data, member, _⟩
  exact other _ member rfl

structure InOrder (content : Nat → Byte) (seen : List Seen) (id : Nat) (q : RecvQ) : Prop where
  holds : q.Holds content
  covered : ∀ n, InSet n q.got ↔ q.read ≤ n ∧ Covered seen id n
  read : (delivered seen id).length = q.read
  final : ∀ size, FinalSize seen id size → q.hasFinal = true ∧ q.final = size
  finalTold : q.hasFinal = true → FinalSize seen id q.final

/-- What holds of a stream's receiving side: while its reader is there the bytes are in order, and
one that is gone has none left. -/
structure StreamOk (content : Nat → Nat → Byte) (seen : List Seen) (p : RxPart) : Prop where
  sound : p.rx.Sound
  finRead : p.rxFinRead = true → p.rxStopped = false → p.rx.hasFinal = true ∧ p.rx.read = p.rx.final
  stopped : p.rxStopped = true → p.rx.got = []
  inOrder : p.rxReset = false → p.rxStopped = false → InOrder (content p.id) seen p.id p.rx

theorem in_order_more {content : Nat → Byte} {seen : List Seen} {q : RecvQ}
    (order : InOrder content seen id q) (other : ∀ e ∈ more, ¬ Mentions id e) : InOrder content (seen ++ more) id q := by
  refine ⟨order.holds, fun n => ?_, ?_, fun size told => ?_, fun has => ?_⟩
  · rw [order.covered, covered_append]
    simp only [covered_other other, or_false]
  · rw [delivered_append, delivered_other other, append_nil]
    exact order.read
  · rcases final_append.mp told with before | later
    · exact order.final size before
    · exact absurd later (final_other other)
  · exact final_append.mpr (.inl (order.finalTold has))

theorem stream_ok_more {content : Nat → Nat → Byte} {seen : List Seen} {p : RxPart} (ok : StreamOk content seen p)
    (other : ∀ e ∈ more, ¬ Mentions p.id e) : StreamOk content (seen ++ more) p :=
  ⟨ok.sound, ok.finRead, ok.stopped, fun live going => in_order_more (ok.inOrder live going) other⟩

theorem stream_ok_new {content : Nat → Nat → Byte} {seen : List Seen} {p : RxPart} (new : p.rx = RecvQ.empty)
    (unread : p.rxFinRead = false) (silent : ∀ e ∈ seen, ¬ Mentions p.id e) : StreamOk content seen p := by
  refine ⟨?_, fun read => absurd (unread.symm.trans read) (by decide), fun _ => by rw [new]; rfl, fun _ _ => ?_⟩
  · rw [new]
    exact ⟨nofun, le_refl _, nofun⟩
  rw [new]
  refine ⟨empty_holds _, fun n => ?_, ?_, fun size told => absurd told (final_other silent), nofun⟩
  · exact ⟨fun member => absurd member (not_in_nil n), fun both => absurd both.2 (covered_other silent)⟩
  rw [delivered_other silent]
  rfl

structure Reassembled (content : Nat → Nat → Byte) (c : QuicConn) (seen : List Seen) : Prop where
  table : Table c
  known : ∀ e ∈ seen, ∀ id, Mentions id e → Used c id
  prefix_ : ∀ id, delivered seen id = contentTo (content id) (delivered seen id).length
  streams : ∀ s ∈ c.streams, StreamOk content seen (rxPart s)

variable {content : Nat → Nat → Byte}

variable {c : QuicConn}

theorem reassembled_calm {after : QuicConn} {seen : List Seen} (whole : Reassembled content c seen)
    (calm : Calm rxPart c after) : Reassembled content after seen := by
  refine ⟨table_calm whole.table (id_of_rx calm), fun e member id mentioned => ?_, whole.prefix_, fun s member => ?_⟩
  · rw [used_calm calm]
    exact whole.known e member id mentioned
  obtain ⟨before, inTable, same⟩ := calm_mem calm member
  rw [← same]
  exact whole.streams before inTable

theorem reassembled_silent {seen : List Seen} (whole : Reassembled content c seen)
    (silent : ∀ e ∈ more, ∀ id, ¬ Mentions id e) : Reassembled content c (seen ++ more) := by
  refine ⟨whole.table, fun e member id mentioned => ?_, fun id => ?_, fun s member => ?_⟩
  · rcases mem_append.mp member with before | later
    · exact whole.known e before id mentioned
    · exact absurd mentioned (silent e later id)
  · rw [delivered_append, delivered_other fun e member => silent e member id, append_nil]
    exact whole.prefix_ id
  · exact stream_ok_more (whole.streams s member) fun e member => silent e member _

theorem reassembled_opened {after : QuicConn} {seen : List Seen} {fresh : List QStream}
    (whole : Reassembled content c seen) (opens : Opened c after fresh) : Reassembled content after seen := by
  refine ⟨table_opened whole.table opens, fun e member id mentioned => opens.keeps id (whole.known e member id mentioned),
    whole.prefix_, fun s member => ?_⟩
  rw [opens.streams] at member
  rcases mem_append.mp member with before | later
  · exact whole.streams s before
  have new := opens.new s later
  refine stream_ok_new (by rw [new]; rfl) (by rw [new]; rfl) fun e inSeen mentioned => ?_
  exact opens.unused s later (whole.known e inSeen _ mentioned)

theorem reassembled_update {c after : QuicConn} {seen more : List Seen} {id : Nat} {change : QStream → QStream}
    (whole : Reassembled content c seen) (streams : after.streams = update QStream.id id change c.streams)
    (server : after.server = c.server) (localOpened : after.localOpened = c.localOpened)
    (peerOpened : after.peerOpened = c.peerOpened) (kept : ∀ s, (change s).id = s.id)
    (known : ∀ e ∈ more, ∀ other, Mentions other e → other = id ∧ Used c id)
    (ok : ∀ s, streamFind c id = some s → StreamOk content (seen ++ more) (rxPart (change s)))
    (read : delivered (seen ++ more) id = contentTo (content id) (delivered (seen ++ more) id).length) :
    Reassembled content after (seen ++ more) := by
  have calm : Calm QStream.id c after := calm_update streams kept server localOpened peerOpened
  have others : ∀ other, other ≠ id → ∀ e ∈ more, ¬ Mentions other e := fun other different e member mentioned =>
    different (known e member other mentioned).1
  refine ⟨table_calm whole.table calm, fun e member other mentioned => ?_, fun other => ?_, fun s member => ?_⟩
  · rw [used_calm calm]
    rcases mem_append.mp member with before | later
    · exact whole.known e before other mentioned
    obtain ⟨rfl, used⟩ := known e later other mentioned
    exact used
  · by_cases same : other = id
    · rw [same]
      exact read
    rw [delivered_append, delivered_other (others other same), append_nil]
    exact whole.prefix_ other
  rw [streams] at member
  cases found : streamFind c id with
  | none =>
    rw [update_absent QStream.id found] at member
    have different : s.id ≠ id := (find_none QStream.id).mp found s member
    exact stream_ok_more (whole.streams s member) (others _ different)
  | some t =>
    rcases mem_update QStream.id whole.table.unique found member with rfl | ⟨inTable, different⟩
    · exact ok t found
    · exact stream_ok_more (whole.streams s inTable) (others _ different)

variable {s : QStream} {off : Nat} {data : List Byte} {fin : Bool}

theorem queue_sound (sound : s.rx.Sound) (junk : Nat → Byte) (allowed : streamRefused s (off + data.length) fin = none) :
    (streamQueue junk s off data fin).Sound ∧ (streamQueue junk s off data fin).read = s.rx.read ∧ (s.rx.hasFinal = true →
        (streamQueue junk s off data fin).hasFinal = true ∧ (streamQueue junk s off data fin).final = s.rx.final) ∧
      (fin = true → (streamQueue junk s off data fin).hasFinal = true ∧
        (streamQueue junk s off data fin).final = off + data.length) ∧
      (fin = false → (streamQueue junk s off data fin).hasFinal = s.rx.hasFinal) := by
  have highest := sound.finalHighest
  have low := sound.readBelow
  -- The final size, once told, is where every frame that ends the stream ends.
  have last : s.rx.hasFinal = true → off + data.length ≤ s.rx.final ∧ (fin = true → off + data.length = s.rx.final) := by
    intro has
    unfold streamRefused at allowed
    split at allowed
    · cases allowed
    rename_i fits
    rw [has] at fits
    simp only [true_and, not_or, not_lt, ne_eq, not_and, not_not] at fits
    exact fits
  have reached : fin = true → s.rx.highest ≤ off + data.length := by
    intro ends
    unfold streamRefused at allowed
    split at allowed
    · cases allowed
    split at allowed
    · cases allowed
    rename_i fits
    rw [ends] at fits
    simp only [true_and, not_lt] at fits
    exact fits
  unfold streamQueue
  generalize begun : sizeTold s.rx (off + data.length) fin = q
  unfold sizeTold at begun
  have same : q.got = s.rx.got ∧ q.read = s.rx.read ∧ q.highest = s.rx.highest := by
    rw [← begun]
    split <;> exact ⟨rfl, rfl, rfl⟩
  have ended : fin = true → q.hasFinal = true ∧ q.final = off + data.length := by
    intro ends
    rw [← begun, if_pos ends]
    exact ⟨rfl, rfl⟩
  have open_ : fin = false → q.hasFinal = s.rx.hasFinal ∧ q.final = s.rx.final := by
    intro going
    rw [← begun, going]
    exact ⟨rfl, rfl⟩
  obtain ⟨got, read, high⟩ := same
  have begunSound : EndsBy q.got q.highest := by
    rw [got, high]
    exact sound.gotBelow
  have finalKept : s.rx.hasFinal = true → q.hasFinal = true ∧ q.final = s.rx.final := by
    intro has
    cases ends : fin with
    | true =>
      obtain ⟨first, second⟩ := ended ends
      exact ⟨first, second.trans ((last has).2 ends)⟩
    | false =>
      obtain ⟨first, second⟩ := open_ ends
      exact ⟨first.trans has, second⟩
  -- Kept or not, the queue's offsets are those of the frame.
  generalize kept : bytesKept junk s q off data = after
  unfold bytesKept at kept
  have rest : after.read = q.read ∧ after.final = q.final ∧ after.hasFinal = q.hasFinal ∧
      EndsBy after.got after.highest ∧ max after.highest (off + data.length) = max q.highest (off + data.length) := by
    rw [← kept]
    split
    · exact ⟨rfl, rfl, rfl, begunSound, rfl⟩
    obtain ⟨first, second, third⟩ := insert_keeps junk q off data
    refine ⟨first, second, third, insert_got junk begunSound off data, ?_⟩
    rw [insert_highest]
    split
    · rfl
    · omega
  obtain ⟨afterRead, afterFinal, afterHas, afterGot, afterHighest⟩ := rest
  refine ⟨⟨ends_by_mono afterGot (le_max_left _ _), ?_, ?_⟩, afterRead.trans read, ?_, ?_, ?_⟩
  · dsimp only
    rw [afterHighest, afterRead, read, high]
    omega
  · intro has
    dsimp only at has ⊢
    rw [afterHighest, afterFinal, high]
    rw [afterHas] at has
    cases ends : fin with
    | true =>
      have size := (ended ends).2
      have above := reached ends
      omega
    | false =>
      obtain ⟨first, second⟩ := open_ ends
      have before := first.symm.trans has
      have top := highest before
      have within := (last before).1
      omega
  · intro has
    rw [afterHas, afterFinal]
    exact finalKept has
  · intro ends
    rw [afterHas, afterFinal]
    exact ended ends
  intro going
  rw [afterHas]
  exact (open_ going).1

theorem queue_holds {content : Nat → Byte} (holds : s.rx.Holds content) (live : s.rxReset = false)
    (going : s.rxStopped = false) (junk : Nat → Byte) (carries : Carries content off data) (fin : Bool) :
    (streamQueue junk s off data fin).Holds content ∧ ∀ n, InSet n (streamQueue junk s off data fin).got ↔
        InSet n s.rx.got ∨ (s.rx.read ≤ n ∧ off ≤ n ∧ n < off + data.length) := by
  unfold streamQueue bytesKept
  rw [live, going]
  cases fin with
  | true =>
    have begun : RecvQ.Holds content { s.rx with hasFinal := true, final := off + data.length } :=
      ⟨holds.apart, holds.above, holds.fits, holds.held, holds.bytes⟩
    obtain ⟨inserted, members⟩ := insert_holds begun junk carries
    exact ⟨⟨inserted.apart, inserted.above, inserted.fits, inserted.held, inserted.bytes⟩, members⟩
  | false =>
    obtain ⟨inserted, members⟩ := insert_holds holds junk carries
    exact ⟨⟨inserted.apart, inserted.above, inserted.fits, inserted.held, inserted.bytes⟩, members⟩

theorem queue_stopped (stopped : s.rxStopped = true) (junk : Nat → Byte) (off : Nat) (data : List Byte)
    (fin : Bool) : (streamQueue junk s off data fin).got = s.rx.got := by
  unfold streamQueue bytesKept
  rw [stopped, Bool.or_true]
  cases fin <;> rfl

theorem stream_ok_taken {seen : List Seen} (ok : StreamOk content seen (rxPart s)) (junk : Nat → Byte) (allowed : streamRefused s (off + data.length) fin = none)
    (carries : Carries (content s.id) off data) (evReadable : Bool) :
    StreamOk content (seen ++ [.took (.stream s.id off data fin)])
      (rxPart { s with rx := streamQueue junk s off data fin, evReadable := evReadable }) := by
  obtain ⟨sound, read, kept, ended, going_⟩ := queue_sound ok.sound junk allowed
  refine ⟨sound, fun finRead going => ?_, fun stopped => ?_, fun live going => ?_⟩
  · obtain ⟨has, all⟩ := ok.finRead finRead going
    obtain ⟨first, second⟩ := kept has
    exact ⟨first, read.trans (all.trans second.symm)⟩
  · exact (queue_stopped stopped junk off data fin).trans (ok.stopped stopped)
  have order := ok.inOrder live going
  obtain ⟨holds, members⟩ := queue_holds order.holds live going junk carries fin
  have taken : ∀ n, Covered [.took (.stream s.id off data fin)] s.id n ↔ off ≤ n ∧ n < off + data.length := by
    intro n
    constructor
    · rintro ⟨off', data', fin', member, place⟩
      cases mem_singleton.mp member
      exact place
    · exact fun place => ⟨off, data, fin, mem_singleton.mpr rfl, place⟩
  have told : ∀ size, FinalSize [.took (.stream s.id off data fin)] s.id size ↔ fin = true ∧ size = off + data.length := by
    intro size
    constructor
    · rintro ⟨off', data', member, same⟩
      cases mem_singleton.mp member
      exact ⟨rfl, same⟩
    rintro ⟨rfl, same⟩
    exact ⟨off, data, mem_singleton.mpr rfl, same⟩
  show InOrder (content s.id) (seen ++ [.took (.stream s.id off data fin)]) s.id (streamQueue junk s off data fin)
  have before : InOrder (content s.id) seen s.id s.rx := order
  refine ⟨holds, fun n => ?_, ?_, fun size final => ?_, fun has => ?_⟩
  · rw [members, read, covered_append, taken, before.covered n]
    tauto
  · rw [delivered_append, read, ← before.read]
    exact congrArg List.length (append_nil _)
  · rcases final_append.mp final with before | now
    · obtain ⟨has, size_⟩ := order.final size before
      obtain ⟨first, second⟩ := kept has
      exact ⟨first, second.trans size_⟩
    obtain ⟨ends, rfl⟩ := (told size).mp now
    exact ended ends
  rw [final_append]
  cases ends : fin with
  | true => exact .inr (ends ▸ (told _).mpr ⟨ends, (ended ends).2⟩)
  | false =>
    have before : s.rx.hasFinal = true := (going_ ends).symm.trans has
    have same : (streamQueue junk s off data fin).final = s.rx.final := (kept before).2
    refine .inl ?_
    show FinalSize seen s.id (streamQueue junk s off data false).final
    rw [← ends, same]
    exact order.finalTold before

theorem reassembled_fail {seen : List Seen} (whole : Reassembled content c seen) (error : TransportError) :
    Reassembled content (connFail c error) (seen ++ [.refused error]) := by
  refine reassembled_silent (reassembled_calm whole (calm_fail c error)) fun e member id mentioned => ?_
  cases mem_singleton.mp member
  exact mentioned

variable {f : Frame}

theorem reassembled_took {seen : List Seen} (whole : Reassembled content c seen)
    (other : ∀ id, ¬ Mentions id (.took f)) : Reassembled content c (seen ++ [.took f]) := by
  refine reassembled_silent whole fun e member id mentioned => ?_
  cases mem_singleton.mp member
  exact other id mentioned

/-- A frame is taken, or the connection ends: how `read_frame` goes on from a handler. -/
def settle (f : Frame) (handled : QuicConn × Option TransportError) : QuicConn × List Seen :=
  match handled with
  | (c, none) => (c, [.took f])
  | (c, some error) => (connFail c error, [.refused error])

theorem read_frame_settles (junk : Nat → Byte) (live : c.state.live = true) (f : Frame) :
    readFrame junk c f = settle f (onFrame junk c f) := by
  unfold readFrame settle
  rw [live]
  rfl

theorem settle_refused {seen : List Seen} (whole : Reassembled content c seen) (f : Frame) (error : TransportError) :
    Reassembled content (settle f (c, some error)).1 (seen ++ (settle f (c, some error)).2) :=
  reassembled_fail whole error

theorem charge_calm (c) (s : QStream) (end_ : Nat) : Calm rxPart c (charge c s end_) := by
  unfold charge
  split
  · exact calm_same rfl rfl rfl rfl
  · exact calm_refl c

theorem charge_streams (c) (s : QStream) (end_ : Nat) :
    (charge c s end_).streams = c.streams ∧ (charge c s end_).server = c.server ∧
      (charge c s end_).localOpened = c.localOpened ∧ (charge c s end_).peerOpened = c.peerOpened := by
  unfold charge
  split <;> exact ⟨rfl, rfl, rfl, rfl⟩

theorem stream_take_keeps {seen : List Seen} (whole : Reassembled content c seen) (junk : Nat → Byte) (found : streamFind c id = some s)
    (carries : Carries (content id) off data) :
    Reassembled content (settle (.stream id off data fin) (streamTake junk c s off data fin)).1
      (seen ++ (settle (.stream id off data fin) (streamTake junk c s off data fin)).2) := by
  obtain ⟨member, rfl⟩ := find_mem QStream.id found
  unfold streamTake
  dsimp only
  split
  next error _ =>
    exact settle_refused whole _ error
  rename_i allowed
  split
  · exact settle_refused (reassembled_calm whole (charge_calm c s _)) _ _
  obtain ⟨streams, server, localOpened, peerOpened⟩ := charge_streams c s (off + data.length)
  have only : ∀ e ∈ [Seen.took (.stream s.id off data fin)], ∀ other, Mentions other e → other = s.id ∧ Used c s.id := by
    intro e inside other mentioned
    cases mem_singleton.mp inside
    exact ⟨mentioned.symm, whole.table.used s member⟩
  refine @reassembled_update content c _ seen _ s.id (fun t => { t with
      rx := streamQueue junk s off data fin
      evReadable := t.evReadable || (!(t.rxReset || t.rxStopped) && readable (streamQueue junk s off data fin)) })
    whole ?_ server localOpened peerOpened (fun _ => rfl) only (fun t same => ?_) ?_
  · show update QStream.id s.id _ (charge c s (off + data.length)).streams = _
    rw [streams]
  · rw [found] at same
    cases same
    exact stream_ok_taken (whole.streams s member) junk allowed carries _
  rw [delivered_append]
  show delivered seen s.id ++ [] = contentTo _ (delivered seen s.id ++ []).length
  rw [append_nil]
  exact whole.prefix_ s.id

theorem on_stream_keeps {seen : List Seen} (whole : Reassembled content c seen) (junk : Nat → Byte) (carries : Carries (content id) off data) :
    Reassembled content (settle (.stream id off data fin) (onStream junk c id off data fin)).1
      (seen ++ (settle (.stream id off data fin) (onStream junk c id off data fin)).2) := by
  unfold onStream
  split
  · exact settle_refused whole _ _
  have spec := for_peer_spec c id
  generalize streamForPeer c id = result at spec
  cases spec with
  | found s here => exact stream_take_keeps whole junk here carries
  | ended absent used =>
    -- The stream is over: the frame says nothing new of a stream in the table.
    have silent : ∀ s ∈ c.streams, ∀ e ∈ [Seen.took (.stream id off data fin)], ¬ Mentions s.id e := by
      intro s member e inside mentioned
      cases mem_singleton.mp inside
      exact (find_none QStream.id).mp absent s member mentioned.symm
    refine ⟨whole.table, fun e member other mentioned => ?_, fun other => ?_, fun s member => ?_⟩
    · rcases mem_append.mp member with before | now
      · exact whole.known e before other mentioned
      · cases mem_singleton.mp now
        exact (show id = other from mentioned) ▸ used
    · rw [delivered_append]
      show delivered seen other ++ [] = contentTo _ (delivered seen other ++ []).length
      rw [append_nil]
      exact whole.prefix_ other
    · exact stream_ok_more (whole.streams s member) (silent s member)
  | refused error absent => exact settle_refused whole _ error
  | opened after s fresh absent unused opens member here =>
    exact stream_take_keeps (reassembled_opened whole opens) junk here carries

theorem stream_ok_sized {seen : List Seen} (ok : StreamOk content seen (rxPart s)) {finalSize : Nat}
    (allowed : resetRefused s finalSize = none) (gone : s.rxReset = true ∨ s.rxFinRead = true) : StreamOk content seen
      (rxPart { s with rx := { s.rx with highest := finalSize, hasFinal := true, final := finalSize } }) := by
  have fits : (s.rx.hasFinal = true → finalSize = s.rx.final) ∧ s.rx.highest ≤ finalSize := by
    unfold resetRefused at allowed
    split at allowed
    · cases allowed
    rename_i fits
    simp only [not_or, not_and, ne_eq, not_not, not_lt] at fits
    exact fits
  have low := ok.sound.readBelow
  refine ⟨⟨ends_by_mono ok.sound.gotBelow fits.2, low.trans fits.2, fun _ => rfl⟩, fun finRead going => ?_, ok.stopped,
    fun live going => ?_⟩
  · obtain ⟨has, all⟩ := ok.finRead finRead going
    exact ⟨rfl, all.trans (fits.1 has).symm⟩
  have order : InOrder (content s.id) seen s.id s.rx := ok.inOrder live going
  have finRead : s.rxFinRead = true := gone.resolve_left (by rw [show s.rxReset = false from live]; decide)
  obtain ⟨has, _⟩ := ok.finRead finRead going
  have same : finalSize = s.rx.final := fits.1 has
  refine ⟨⟨order.holds.apart, order.holds.above, order.holds.fits, order.holds.held, order.holds.bytes⟩, order.covered,
    order.read, fun size told => ⟨rfl, same.trans (order.final size told).2⟩, fun _ => ?_⟩
  rw [same]
  exact order.finalTold has

theorem stream_ok_reset {seen : List Seen} (unread : s.rxFinRead = false) (finalSize : Nat) : StreamOk content seen
      { id := s.id, isLocal := s.isLocal, hasRx := s.hasRx
        rx := { recvqFree s.rx with read := finalSize, highest := finalSize, hasFinal := true, final := finalSize }
        rxReset := true, rxStopped := s.rxStopped, rxFinRead := s.rxFinRead } := by
  refine ⟨⟨nofun, le_refl _, fun _ => rfl⟩, fun finRead => ?_, fun _ => rfl, fun live => ?_⟩
  · exact absurd (unread.symm.trans finRead) (by decide)
  · cases live

theorem reset_take_keeps {seen : List Seen} (whole : Reassembled content c seen) {code finalSize : Nat} (found : streamFind c id = some s) :
    Reassembled content (resetTake c s code finalSize).1 seen := by
  obtain ⟨member, rfl⟩ := find_mem QStream.id found
  have unchanged : ∀ change : QStream → QStream, (∀ s, (change s).id = s.id) →
      (∀ t, streamFind c s.id = some t → StreamOk content seen (rxPart (change t))) → ∀ after : QuicConn,
      after.streams = update QStream.id s.id change c.streams → after.server = c.server →
      after.localOpened = c.localOpened → after.peerOpened = c.peerOpened → Reassembled content after seen := by
    intro change kept ok after streams server localOpened peerOpened
    have updated := @reassembled_update content c after seen [] s.id change whole streams server localOpened peerOpened
      kept nofun (fun t same => by rw [append_nil]; exact ok t same)
      (by rw [append_nil]; exact whole.prefix_ s.id)
    rwa [append_nil] at updated
  unfold resetTake
  split
  · exact whole
  rename_i allowed
  dsimp only
  split
  · exact reassembled_calm whole (calm_same rfl rfl rfl rfl)
  split
  next gone =>
    rw [Bool.or_eq_true] at gone
    refine unchanged (fun t => { t with
      rx := { t.rx with highest := finalSize, hasFinal := true, final := finalSize } }) (fun _ => rfl) (fun t same => ?_)
      _ rfl rfl rfl rfl
    rw [found] at same
    cases same
    exact stream_ok_sized (whole.streams s member) allowed gone
  rename_i live
  rw [Bool.or_eq_true, not_or, Bool.not_eq_true, Bool.not_eq_true] at live
  unfold resetKeep
  refine reassembled_calm ?_ (rx_of_both (calm_credit _ none _))
  refine unchanged (fun t => { t with
    rx := { recvqFree t.rx with read := finalSize, highest := finalSize, hasFinal := true, final := finalSize }
    rxReset := true, rxResetCode := code, evReset := true, evReadable := false, rxMaxOwed := false })
    (fun _ => rfl) (fun t same => ?_) _ rfl rfl rfl rfl
  rw [found] at same
  cases same
  exact stream_ok_reset live.2 finalSize

theorem for_peer_keeps {seen : List Seen} {id : Nat} {result : QuicConn × Except TransportError (Option QStream)}
    (whole : Reassembled content c seen) (spec : ForPeer c id result) :
    Reassembled content result.1 seen ∧ ∀ s, result.2 = .ok (some s) → streamFind result.1 id = some s := by
  cases spec with
  | found s here => exact ⟨whole, fun _ same => by cases same; exact here⟩
  | ended | refused => exact ⟨whole, fun _ same => by cases same⟩
  | opened after s fresh _ _ opens _ here => exact ⟨reassembled_opened whole opens, fun _ same => by cases same; exact here⟩

theorem other_frame_keeps {seen : List Seen} (whole : Reassembled content c seen) (junk : Nat → Byte)
    (other : ∀ id, ¬ Mentions id (.took f)) : Reassembled content (onFrame junk c f).1 seen := by
  have run := frame_run junk c f
  generalize onFrame junk c f = result at run
  cases run with
  | refused => exact whole
  | data | streams => exact reassembled_calm whole (calm_same rfl rfl rfl rfl)
  | left reached => exact (for_peer_keeps whole (for_peer_of reached)).1
  | took _ reached =>
    obtain ⟨whole, here⟩ := for_peer_keeps whole (for_peer_of reached)
    cases f with
    | stream id => exact absurd rfl (other id)
    | resetStream => exact reset_take_keeps whole (here _ rfl)
    | stopSending id code => exact reassembled_calm whole (rx_calm_stop_take _ _ code)
    | maxStreamData id value => exact reassembled_calm whole (rx_calm_raise _ _ value)
    | maxData | maxStreams | streamDataBlocked => exact whole

theorem settle_keeps {seen : List Seen} {handled : QuicConn × Option TransportError}
    (whole : Reassembled content handled.1 seen) (other : ∀ id, ¬ Mentions id (.took f)) :
    Reassembled content (settle f handled).1 (seen ++ (settle f handled).2) := by
  obtain ⟨c, refused⟩ := handled
  cases refused with
  | none => exact reassembled_took whole other
  | some error => exact reassembled_fail whole error

def FrameTrue (content : Nat → Nat → Byte) : Frame → Prop
  | .stream id off data _ => Carries (content id) off data
  | _ => True

theorem read_frame_keeps {seen : List Seen} (whole : Reassembled content c seen) (junk : Nat → Byte) (truth : FrameTrue content f) :
    Reassembled content (readFrame junk c f).1 (seen ++ (readFrame junk c f).2) := by
  cases live : c.state.live with
  | false =>
    unfold readFrame
    rw [live]
    exact reassembled_silent whole (by simp)
  | true =>
    rw [read_frame_settles junk live]
    cases f with
    | stream id off data fin => exact on_stream_keeps whole junk truth
    | _ => exact settle_keeps (other_frame_keeps whole junk fun _ mentioned => mentioned) fun _ mentioned => mentioned

theorem content_to_add (content : Nat → Byte) (n more : Nat) :
    contentTo content n ++ (List.range more).map (fun i => content (n + i)) = contentTo content (n + more) := by
  rw [contentTo, contentTo, range_add, map_append, map_map]
  rfl

theorem taken_bytes {seen : List Seen} (ok : StreamOk content seen (rxPart s)) (live : s.rxReset = false) (cap : Nat) :
    delivered seen s.id ++ (recvqTake s.rx cap).2 = contentTo (content s.id) (delivered seen s.id).length ++
        (recvqTake s.rx cap).2 → delivered seen s.id ++ (recvqTake s.rx cap).2 =
        contentTo (content s.id) ((delivered seen s.id).length + (recvqTake s.rx cap).2.length) := by
  intro begun
  rw [begun]
  cases going : s.rxStopped with
  | true =>
    have none_ : recvqReady s.rx = 0 := by
      unfold recvqReady
      rw [show s.rx.got = [] from ok.stopped going]
    have nothing : (recvqTake s.rx cap).2 = [] := by
      unfold recvqTake
      rw [none_, Nat.zero_min]
      rfl
    rw [nothing, append_nil, length_nil, add_zero]
  | false =>
    have order : InOrder (content s.id) seen s.id s.rx := ok.inOrder live going
    rw [(take_holds order.holds cap).1, order.read, content_to_add, length_map, length_range]

theorem stream_ok_read {seen : List Seen} (ok : StreamOk content seen (rxPart s)) (live : s.rxReset = false)
    (cap : Nat) (fin : Bool) :
    StreamOk content (seen ++ [.read s.id (recvqTake s.rx cap).2 fin]) (rxPart { s with rx := (recvqTake s.rx cap).1 }) := by
  obtain ⟨read, highest, final, hasFinal⟩ := take_read s.rx cap
  have silent : ∀ size, ¬ FinalSize [.read s.id (recvqTake s.rx cap).2 fin] s.id size := by
    rintro size ⟨off, data, member, _⟩
    cases mem_singleton.mp member
  have nothing : recvqReady s.rx = 0 → (recvqTake s.rx cap).1 = s.rx ∧ recvqTaken s.rx cap = 0 := by
    intro none_
    unfold recvqTake recvqTaken
    rw [none_, Nat.zero_min]
    exact ⟨rfl, rfl⟩
  have sound : (recvqTake s.rx cap).1.Sound := take_sound ok.sound cap
  refine ⟨sound, fun finRead going => ?_, fun stopped => ?_, fun _ going => ?_⟩
  · obtain ⟨has, all⟩ := ok.finRead finRead going
    have has' : s.rx.hasFinal = true := has
    have all' : s.rx.read = s.rx.final := all
    have top := ok.sound.finalHighest has
    have ready := ready_below ok.sound
    refine ⟨hasFinal.trans has', ?_⟩
    show (recvqTake s.rx cap).1.read = (recvqTake s.rx cap).1.final
    have bound : s.rx.read + recvqReady s.rx ≤ s.rx.highest := ready
    have limit : s.rx.final = s.rx.highest := top
    rw [(nothing (by omega)).1]
    exact all'
  · have empty : s.rx.got = [] := ok.stopped stopped
    have none_ : recvqReady s.rx = 0 := by
      unfold recvqReady
      rw [empty]
    show (recvqTake s.rx cap).1.got = []
    rw [(nothing none_).1]
    exact empty
  have order : InOrder (content s.id) seen s.id s.rx := ok.inOrder live going
  obtain ⟨bytes, holds, members⟩ := take_holds order.holds cap
  show InOrder (content s.id) (seen ++ [.read s.id (recvqTake s.rx cap).2 fin]) s.id (recvqTake s.rx cap).1
  refine ⟨holds, fun n => ?_, ?_, fun size told => ?_, fun has => ?_⟩
  · have unread : ¬ Covered [.read s.id (recvqTake s.rx cap).2 fin] s.id n := by
      rintro ⟨off, data, fin', member, _⟩
      cases mem_singleton.mp member
    rw [members, order.covered, covered_append, read]
    constructor
    · rintro ⟨⟨low, covered⟩, beyond⟩
      exact ⟨beyond, .inl covered⟩
    rintro ⟨beyond, covered⟩
    exact ⟨⟨by omega, covered.resolve_right unread⟩, beyond⟩
  · rw [delivered_append, length_append, order.read, read]
    show _ + (readOf s.id (.read s.id (recvqTake s.rx cap).2 fin) ++ []).length = _
    rw [append_nil, readOf, if_pos rfl, bytes, length_map, length_range]
  · rw [hasFinal, final]
    exact order.final size ((final_append.mp told).resolve_right (silent size))
  rw [final]
  exact final_append.mpr (.inl (order.finalTold (hasFinal.symm.trans has)))

theorem stream_ok_end {seen : List Seen} (ok : StreamOk content seen (rxPart s)) :
    StreamOk content seen (rxPart (readEnd s)) := by
  unfold readEnd
  split
  next ended =>
    rw [Bool.and_eq_true, beq_iff_eq] at ended
    exact ⟨ok.sound, fun _ _ => ended, ok.stopped, ok.inOrder⟩
  split
  · exact ok
  · exact ok

theorem read_end_id (s) : (readEnd s).id = s.id := by
  unfold readEnd
  split
  · rfl
  split <;> rfl

theorem stream_read_keeps {after : QuicConn} {seen : List Seen} (whole : Reassembled content c seen) {cap : Nat}
    {bytes : List Byte} (read : streamRead c id cap = some (after, bytes, fin)) :
    Reassembled content after (seen ++ [.read id bytes fin]) := by
  unfold streamRead at read
  split at read
  · cases read
  rename_i s found
  split at read
  · cases read
  rename_i readable_
  rw [Bool.or_eq_true, not_or] at readable_
  have live : s.rxReset = false := Bool.not_eq_true _ ▸ readable_.2
  obtain ⟨member, rfl⟩ := find_mem QStream.id found
  cases read
  have took : Reassembled content (readTake c s cap) (seen ++ [.read s.id (recvqTake s.rx cap).2
        ((recvqTake s.rx cap).1.hasFinal && (recvqTake s.rx cap).1.read == (recvqTake s.rx cap).1.final)]) := by
    generalize ((recvqTake s.rx cap).1.hasFinal && (recvqTake s.rx cap).1.read == (recvqTake s.rx cap).1.final) = fin
    have only : ∀ e ∈ [Seen.read s.id (recvqTake s.rx cap).2 fin], ∀ other, Mentions other e →
        other = s.id ∧ Used c s.id := by
      intro e inside other mentioned
      cases mem_singleton.mp inside
      exact ⟨mentioned.symm, whole.table.used s member⟩
    have handed : delivered (seen ++ [Seen.read s.id (recvqTake s.rx cap).2 fin]) s.id =
        delivered seen s.id ++ (recvqTake s.rx cap).2 := by
      rw [delivered_append]
      show _ ++ (readOf s.id (.read s.id (recvqTake s.rx cap).2 fin) ++ []) = _
      rw [append_nil, readOf, if_pos rfl]
    have begun : ∀ after : QuicConn,
        after.streams = update QStream.id s.id (fun t => { t with rx := (recvqTake s.rx cap).1 }) c.streams →
        after.server = c.server → after.localOpened = c.localOpened → after.peerOpened = c.peerOpened →
        Reassembled content after (seen ++ [.read s.id (recvqTake s.rx cap).2 fin]) := by
      intro after streams server localOpened peerOpened
      refine reassembled_update whole streams server localOpened peerOpened (fun _ => rfl) only (fun t same => ?_) ?_
      · rw [found] at same
        cases same
        exact stream_ok_read (whole.streams s member) live cap fin
      rw [handed, length_append]
      refine taken_bytes (whole.streams s member) live cap ?_
      rw [← whole.prefix_ s.id]
    have hand := begun (readHand c s cap) rfl rfl rfl rfl
    unfold readTake
    dsimp only
    split
    · exact hand
    · exact reassembled_calm hand (rx_of_both (calm_credit _ _ _))
  refine reassembled_calm ?_ (calm_free _ _)
  have ended := @reassembled_update content (readTake c s cap) (setStream (readTake c s cap) s.id readEnd) _ [] s.id
    readEnd took rfl rfl rfl rfl read_end_id nofun
    (fun t there => by
      rw [append_nil]
      exact stream_ok_end (took.streams t (find_mem QStream.id there).1))
    (by rw [append_nil]; exact took.prefix_ s.id)
  rwa [append_nil] at ended

theorem stream_stop_keeps {seen : List Seen} (whole : Reassembled content c seen) (id code : Nat) :
    Reassembled content (streamStop c id code) seen := by
  unfold streamStop
  split
  · exact whole
  split
  · exact whole
  rename_i s found
  split
  · exact whole
  obtain ⟨member, rfl⟩ := find_mem QStream.id found
  have low := (whole.streams s member).sound.readBelow
  have sized := (whole.streams s member).sound.finalHighest
  refine reassembled_calm (reassembled_calm ?_ (rx_of_both (calm_credit _ none _))) (calm_free _ _)
  have stopped : ∀ after : QuicConn,
      after.streams = update QStream.id s.id (fun t => { t with
        rxStopped := true, rxStopCode := code, rxStopOwed := t.rxStopOwed || !t.rx.hasFinal
        rx := { recvqFree t.rx with read := t.rx.highest }
        rxFinRead := true, evReadable := false }) c.streams →
      after.server = c.server → after.localOpened = c.localOpened → after.peerOpened = c.peerOpened →
      Reassembled content after seen := by
    intro after streams server localOpened peerOpened
    have updated := @reassembled_update content c after seen [] s.id _ whole streams server localOpened peerOpened
      (fun _ => rfl) nofun (fun t same => ?_) (by rw [append_nil]; exact whole.prefix_ s.id)
    · rwa [append_nil] at updated
    rw [append_nil]
    rw [found] at same
    cases same
    refine ⟨⟨nofun, le_refl _, sized⟩, fun _ going => ?_, fun _ => rfl, fun _ going => ?_⟩
    · cases (show true = false from going)
    · cases (show true = false from going)
  exact stopped _ rfl rfl rfl rfl

def StepTrue (content : Nat → Nat → Byte) : ConnStep → Prop
  | .frame _ f => FrameTrue content f
  | _ => True

theorem reassembled_step {after : QuicConn} {seen : List Seen} (whole : Reassembled content c seen)
    (calm : Calm rxPart c after) (silent : ∀ e ∈ more, ∀ id, ¬ Mentions id e) :
    Reassembled content after (seen ++ more) :=
  reassembled_silent (reassembled_calm whole calm) silent

theorem no_news_silent : ∀ e ∈ ([] : List Seen), ∀ id, ¬ Mentions id e := fun _ member => absurd member not_mem_nil

theorem limits_silent (c) (news : TlsNews) : ∀ e ∈ newLimits c news, ∀ id, ¬ Mentions id e := by
  have params : ∀ e ∈ paramsLimits c news, ∀ id, ¬ Mentions id e := by
    intro e member id mentioned
    unfold paramsLimits at member
    split at member
    · split at member
      · cases mem_singleton.mp member
        exact mentioned
      · cases member
    · cases member
  have remembered : ∀ e ∈ rememberedLimits c news, ∀ id, ¬ Mentions id e := by
    intro e member id mentioned
    unfold rememberedLimits at member
    split at member
    · split at member
      · cases member
      · cases mem_singleton.mp member
        exact mentioned
    · cases member
  intro e member
  unfold newLimits at member
  split at member
  · cases member
  rcases mem_append.mp member with first | second
  · exact params e first
  split at second
  · exact remembered e second
  · cases second

theorem step_keeps {seen : List Seen} (whole : Reassembled content c seen) {step : ConnStep}
    (truth : StepTrue content step) : Reassembled content (connStep c step).1 (seen ++ (connStep c step).2) := by
  have same : ∀ {after : QuicConn}, Calm rxPart c after → Reassembled content after (seen ++ []) := fun calm =>
    reassembled_step whole calm no_news_silent
  cases step with
  | frame junk f => exact read_frame_keeps whole junk truth
  | ack lvl largest ranges =>
    show Reassembled content (readAck lvl c largest ranges).1 (seen ++ (readAck lvl c largest ranges).2)
    have calm := rx_calm_ack lvl c largest ranges
    unfold readAck
    split
    · exact same (calm_refl c)
    generalize onAck lvl c largest ranges = result at calm
    obtain ⟨after, refused⟩ := result
    cases refused with
    | none => exact same calm
    | some error => exact reassembled_fail (reassembled_calm whole calm) error
  | lost lvl which => exact same (rx_calm_lost lvl c which)
  | probe lvl => exact same (rx_calm_probe lvl c)
  | retry => exact same (calm_retry c)
  | discard lvl => exact same (calm_discard_step lvl c)
  | tls junk news =>
    show Reassembled content (tlsStep junk c news).1 (seen ++ (tlsStep junk c news).2)
    unfold tlsStep
    split
    · exact reassembled_step whole (rx_calm_tls junk c news) (limits_silent c news)
    · exact same (calm_refl c)
  | refuse error => exact same (calm_fail c error)
  | drain => exact same (calm_drain c)
  | expire | elsewhere => exact same (calm_same rfl rfl rfl rfl)
  | open_ k =>
    show Reassembled content (openStep c k) (seen ++ [])
    unfold openStep
    cases opened : streamOpen c k with
    | none => exact same (calm_refl c)
    | some result =>
      exact reassembled_silent (reassembled_opened whole (stream_open_spec opened).1) no_news_silent
  | write junk id data fin =>
    show Reassembled content (writeStep junk c id data fin).1 (seen ++ (writeStep junk c id data fin).2)
    unfold writeStep
    cases written : streamWrite junk c id data fin with
    | none => exact same (calm_refl c)
    | some result =>
      refine reassembled_step whole (rx_calm_write written) fun e member other mentioned => ?_
      cases mem_singleton.mp member
      exact mentioned
  | room id => exact same (rx_of_both (calm_room c id))
  | read id cap =>
    show Reassembled content (readStep c id cap).1 (seen ++ (readStep c id cap).2)
    unfold readStep
    cases read : streamRead c id cap with
    | none => exact same (calm_refl c)
    | some result => exact stream_read_keeps whole read
  | reset id code => exact same (rx_calm_reset c id code)
  | stop id code => exact reassembled_silent (stream_stop_keeps whole id code) no_news_silent
  | close code => exact same (calm_fail c _)
  | poll => exact same (rx_of_both (calm_poll c))
  | capWindow n => exact same (rx_of_both (calm_cap c n))
  | setMaxStreams n => exact same (rx_of_both (calm_max_streams c n))
  | packet lvl fill =>
    refine reassembled_step whole (rx_calm_send c lvl fill) fun e member id mentioned => ?_
    obtain ⟨f, _, rfl⟩ := mem_map.mp member
    exact mentioned

theorem new_reassembled (cfg : QuicConfig) (server : Bool) (now cwnd : Nat) :
    Reassembled content (worldNew cfg server now cwnd).conn (worldNew cfg server now cwnd).seen := by
  refine ⟨⟨nodup_nil, ?_⟩, ?_, fun _ => rfl, ?_⟩
  all_goals exact fun _ member => absurd member not_mem_nil

theorem run_reassembled {w : World} (whole : Reassembled content w.conn w.seen) {steps : List ConnStep}
    (truth : ∀ step ∈ steps, StepTrue content step) :
    Reassembled content (worldRun w steps).conn (worldRun w steps).seen := by
  induction steps generalizing w with
  | nil => exact whole
  | cons step steps ih =>
    have next : Reassembled content (worldStep w step).conn (worldStep w step).seen :=
      step_keeps whole (truth step mem_cons_self)
    exact ih next fun later member => truth later (mem_cons_of_mem _ member)

/-- From `from_` on exactly `n` bytes are covered without a hole. -/
def LongestRun (covered : Nat → Prop) (from_ n : Nat) : Prop :=
  (∀ m, from_ ≤ m → m < from_ + n → covered m) ∧ ¬ covered (from_ + n)

def Beyond (c : QuicConn) (s : QStream) (end_ : Nat) (fin : Bool) : Prop :=
  (s.rx.hasFinal = true ∧ (s.rx.final < end_ ∨ (fin = true ∧ end_ ≠ s.rx.final))) ∨ (fin = true ∧ end_ < s.rx.highest) ∨
    s.rxMax < end_ ∨ (s.rx.highest < end_ ∧ c.rxMaxData < c.rxData + (end_ - s.rx.highest))

def Reading (s : QStream) : Prop := s.hasRx = true ∧ s.rxReset = false ∧ s.rxStopped = false

structure BytesInOrder (content : Nat → Nat → Byte) (w : World) : Prop where
  prefix_ : ∀ id, delivered w.seen id = contentTo (content id) (delivered w.seen id).length
  available : ∀ id s, streamFind w.conn id = some s → Reading s →
    LongestRun (Covered w.seen id) (delivered w.seen id).length (recvqReady s.rx)
  /-- A read hands over the content's next bytes, as many as are at hand and asked for, and tells
  the end when with them all bytes up to the final size are read. -/
  read : ∀ id s cap, streamFind w.conn id = some s → Reading s → ∃ after bytes fin,
    streamRead w.conn id cap = some (after, bytes, fin) ∧
      delivered w.seen id ++ bytes = contentTo (content id) ((delivered w.seen id).length + min (recvqReady s.rx) cap) ∧
      (fin = true ↔ FinalSize w.seen id ((delivered w.seen id).length + min (recvqReady s.rx) cap))
  final : ∀ id s, streamFind w.conn id = some s → Reading s →
    ∀ size, FinalSize w.seen id size ↔ s.rx.hasFinal = true ∧ s.rx.final = size
  refused : ∀ junk id off data fin opened s, w.conn.state.live = true → sendOnly w.conn id = false →
    streamForPeer w.conn id = (opened, .ok (some s)) → Beyond opened s (off + data.length) fin →
      ∃ after error fresh, connStep w.conn (.frame junk (.stream id off data fin)) = (after, [.refused error]) ∧
        after.state = .closing ∧ after.streams = w.conn.streams ++ fresh ∧
        (∀ t ∈ fresh, ¬ Used w.conn t.id ∧ t.rx = RecvQ.empty) ∧ (Used w.conn id → fresh = [])

theorem fail_streams (c) (error : TransportError) : (connFail c error).streams = c.streams := by
  unfold connFail
  split <;> rfl

theorem fail_closing (live : c.state.live = true) (error : TransportError) : (connFail c error).state = .closing := by
  unfold connFail
  rw [if_pos live]

theorem beyond_refused (junk : Nat → Byte) (beyond : Beyond c s (off + data.length) fin) :
    ∃ after error, streamTake junk c s off data fin = (after, some error) ∧ after.streams = c.streams ∧
      after.state = c.state := by
  unfold streamTake
  dsimp only
  cases refused : streamRefused s (off + data.length) fin with
  | some error => exact ⟨c, error, rfl, rfl, rfl⟩
  | none =>
    -- Nothing but the connection's window is left to refuse it.
    have paid : s.rx.highest < off + data.length ∧ c.rxMaxData < c.rxData + (off + data.length - s.rx.highest) := by
      unfold streamRefused at refused
      split at refused
      · cases refused
      rename_i first
      split at refused
      · cases refused
      rename_i second
      split at refused
      · cases refused
      rename_i third
      rcases beyond with past | short | window | paid
      · exact absurd past first
      · exact absurd short second
      · exact absurd window third
      · exact paid
    have charged : charge c s (off + data.length) =
        { c with rxData := c.rxData + (off + data.length - s.rx.highest) } := if_pos paid.1
    refine ⟨charge c s (off + data.length), .flowControlError, ?_, ?_, ?_⟩
    · rw [charged]
      exact if_pos paid
    · rw [charged]
    · rw [charged]

theorem frame_refused (junk : Nat → Byte) {opened : QuicConn} (live : c.state.live = true) (taking : sendOnly c id = false)
    (theirs : streamForPeer c id = (opened, .ok (some s))) (beyond : Beyond opened s (off + data.length) fin) :
    ∃ after error fresh, connStep c (.frame junk (.stream id off data fin)) = (after, [.refused error]) ∧
      after.state = .closing ∧ after.streams = c.streams ++ fresh ∧
      (∀ t ∈ fresh, ¬ Used c t.id ∧ t.rx = RecvQ.empty) ∧ (Used c id → fresh = []) := by
  obtain ⟨after, error, refused, streams, state⟩ := beyond_refused junk beyond
  have handled : onStream junk c id off data fin = (after, some error) := by
    unfold onStream
    rw [taking, theirs]
    exact refused
  have read : connStep c (.frame junk (.stream id off data fin)) = (connFail after error, [.refused error]) := by
    show readFrame junk c (.stream id off data fin) = _
    rw [read_frame_settles junk live]
    show settle _ (onStream junk c id off data fin) = _
    rw [handled]
    rfl
  have spec := for_peer_spec c id
  rw [theirs] at spec
  cases spec with
  | found _ here =>
    refine ⟨connFail after error, error, [], read, fail_closing (by rw [state]; exact live) error, ?_, ?_, fun _ => rfl⟩
    · rw [fail_streams, streams, append_nil]
    · exact fun _ member => absurd member not_mem_nil
  | opened _ _ fresh absent unused opens member here =>
    have stays : opened.state = c.state := by rw [opens.rest]
    refine ⟨connFail after error, error, fresh, read, fail_closing (by rw [state, stays]; exact live) error, ?_, ?_,
      fun used => absurd used unused⟩
    · rw [fail_streams, streams, opens.streams]
    intro t inFresh
    refine ⟨opens.unused t inFresh, ?_⟩
    rw [opens.new t inFresh]
    rfl

theorem read_given (found : streamFind c id = some s) (reading : Reading s) (cap : Nat) :
    streamRead c id cap = some (streamMaybeFree (setStream (readTake c s cap) id readEnd) id, (recvqTake s.rx cap).2,
      (recvqTake s.rx cap).1.hasFinal && (recvqTake s.rx cap).1.read == (recvqTake s.rx cap).1.final) := by
  unfold streamRead
  rw [found]
  dsimp only
  rw [reading.1, reading.2.1]
  rfl

/-- In every run, whatever pieces the frames carry and whatever else happens between them. -/
theorem streams_reassembled (content : Nat → Nat → Byte) (cfg : QuicConfig) (server : Bool) (now cwnd : Nat)
    (steps : List ConnStep) (truth : ∀ step ∈ steps, StepTrue content step) :
    BytesInOrder content (worldRun (worldNew cfg server now cwnd) steps) := by
  have whole := run_reassembled (new_reassembled cfg server now cwnd) truth
  generalize worldRun (worldNew cfg server now cwnd) steps = w at whole
  have inOrder : ∀ id s, streamFind w.conn id = some s → Reading s → InOrder (content id) w.seen id s.rx := by
    intro id s found reading
    obtain ⟨member, rfl⟩ := find_mem QStream.id found
    exact (whole.streams s member).inOrder reading.2.1 reading.2.2
  refine
    { prefix_ := whole.prefix_
      available := fun id s found reading => ?_
      read := fun id s cap found reading => ?_
      final := fun id s found reading size => ?_
      refused := fun junk id off data fin opened s live taking theirs beyond =>
        frame_refused junk live taking theirs beyond }
  · have order := inOrder id s found reading
    obtain ⟨run, hole⟩ := ready_spec order.holds
    rw [order.read]
    refine ⟨fun m low high => ((order.covered m).mp (run m low high)).2, fun covered => hole ?_⟩
    exact (order.covered _).mpr ⟨Nat.le_add_right _ _, covered⟩
  · have order := inOrder id s found reading
    obtain ⟨bytes, _, _⟩ := take_holds order.holds cap
    obtain ⟨read, highest, final, hasFinal⟩ := take_read s.rx cap
    have taken : recvqTaken s.rx cap = min (recvqReady s.rx) cap := rfl
    refine ⟨_, _, _, read_given found reading cap, ?_, ?_⟩
    · rw [bytes, ← taken, order.read, ← content_to_add, ← order.read, ← whole.prefix_ id]
    rw [Bool.and_eq_true, beq_iff_eq, hasFinal, read, final, order.read, ← taken]
    constructor
    · rintro ⟨has, all⟩
      rw [all]
      exact order.finalTold has
    intro told
    obtain ⟨has, size⟩ := order.final _ told
    exact ⟨has, size.symm⟩
  have order := inOrder id s found reading
  constructor
  · exact order.final size
  rintro ⟨has, rfl⟩
  exact order.finalTold has

def counting (_ n : Nat) : Byte := byteOf (n + 1)

def piecesRun : List ConnStep :=
  [.frame (fun _ => 9) (.stream 0 3 [4, 5] true), .read 0 10, .frame (fun _ => 9) (.stream 0 0 [1, 2] false), .read 0 1,
    .frame (fun _ => 9) (.stream 0 1 [2, 3, 4] false), .read 0 10]

theorem streams_reassembled_pieces : BytesInOrder counting (worldRun (worldNew smallConfig true 0 0) piecesRun) ∧
      delivered (worldRun (worldNew smallConfig true 0 0) piecesRun).seen 0 = [1, 2, 3, 4, 5] := by
  refine ⟨streams_reassembled counting smallConfig true 0 0 piecesRun ?_, by decide⟩
  intro step member
  simp only [piecesRun, mem_cons, not_mem_nil, or_false] at member
  rcases member with rfl | rfl | rfl | rfl | rfl | rfl
  · show Carries (counting 0) 3 [4, 5]
    unfold Carries
    decide
  · exact True.intro
  · show Carries (counting 0) 0 [1, 2]
    unfold Carries
    decide
  · exact True.intro
  · show Carries (counting 0) 1 [2, 3, 4]
    unfold Carries
    decide
  · exact True.intro
end ProvenC.Quic.Reassembly

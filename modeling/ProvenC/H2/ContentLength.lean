import ProvenC.H2.Bodies
import ProvenC.H2.Ranges

/-!
# The length a body is announced with

A book beside the connection is kept from what the caller sees alone: the requests it sent and the
events it was given.
-/

namespace ProvenC.H2.ContentLength

open List Function Bytes H2.Frame H2.Head H2.Conn H2.Reader H2.Calls
open H2.Conservation H2.Bodies Lib.Slots
open Hpack.Table Hpack.Decoder

def lengthFields (fields : List Field) : List (List Byte) :=
  (fields.filter fun h => h.name = ascii "content-length").map Field.value

def Decimal (value : List Byte) : Prop := value ≠ [] ∧ value.length ≤ 19 ∧ ∀ byte ∈ value, isDigit byte = true

def Misstated (fields : List Field) : Prop :=
  (∃ value ∈ lengthFields fields, ¬ Decimal value) ∨
    ∃ one ∈ lengthFields fields, ∃ other ∈ lengthFields fields, digitsValue one ≠ digitsValue other

def announced (fields : List Field) : Option Nat := (lengthFields fields).head?.map digitsValue

def numbersFrom (found : Option Nat) (fields : List Field) : List Nat :=
  found.toList ++ (lengthFields fields).map digitsValue

theorem length_fields_other {h : Field} {rest : List Field} (other : h.name ≠ ascii "content-length") :
    lengthFields (h :: rest) = lengthFields rest := by
  unfold lengthFields
  rw [filter_cons_of_neg (by simpa using other)]

theorem length_fields_here {h : Field} {rest : List Field} (here : h.name = ascii "content-length") :
    lengthFields (h :: rest) = h.value :: lengthFields rest := by
  unfold lengthFields
  rw [filter_cons_of_pos (by simpa using here), map_cons]

theorem not_decimal {value : List Byte} :
    (value.length = 0 ∨ 19 < value.length ∨ value.all isDigit = false) ↔ ¬ Decimal value := by
  rw [all_eq_false]
  constructor
  · rintro (empty | long | ⟨byte, among, bad⟩) ⟨some_, short, digits⟩
    · exact some_ (length_eq_zero_iff.mp empty)
    · exact absurd short (Nat.not_le_of_lt long)
    · exact bad (digits byte among)
  intro no
  by_cases empty : value.length = 0
  · exact .inl empty
  by_cases long : 19 < value.length
  · exact .inr (.inl long)
  refine .inr (.inr ?_)
  by_contra none
  refine no ⟨fun nothing => empty (by rw [nothing]; rfl), le_of_not_gt long, fun byte among => ?_⟩
  by_contra bad
  exact none ⟨byte, among, bad⟩

theorem content_length_read (fields : List Field) (found length : Option Nat) :
    h2cContentLength fields found = some length ↔ (∀ value ∈ lengthFields fields, Decimal value) ∧
        (∀ m ∈ numbersFrom found fields, ∀ n ∈ numbersFrom found fields, m = n) ∧
          length = (numbersFrom found fields).head? := by
  induction fields generalizing found with
  | nil =>
    have numbers : numbersFrom found [] = found.toList := append_nil _
    rw [h2cContentLength, numbers]
    cases found with
    | none => simp [lengthFields, eq_comm]
    | some n => simp [lengthFields, eq_comm]
  | cons h rest ih =>
    rw [h2cContentLength]
    by_cases other : h.name ≠ ascii "content-length"
    · rw [if_pos other, ih found]
      unfold numbersFrom
      rw [length_fields_other other]
    have here : h.name = ascii "content-length" := not_not.mp other
    rw [if_neg other]
    have fieldsHere := @length_fields_here h rest here
    by_cases bad : h.value.length = 0 ∨ 19 < h.value.length ∨ h.value.all isDigit = false
    · rw [if_pos bad]
      refine iff_of_false nofun fun both => not_decimal.mp bad (both.1 h.value ?_)
      rw [fieldsHere]
      exact mem_cons_self
    rw [if_neg bad]
    have decimal : Decimal h.value := by
      by_contra no
      exact bad (not_decimal.mpr no)
    have numbers : numbersFrom found (h :: rest) =
        found.toList ++ digitsValue h.value :: (lengthFields rest).map digitsValue := by
      unfold numbersFrom
      rw [fieldsHere, map_cons]
    have decimals : (∀ value ∈ lengthFields (h :: rest), Decimal value) ↔
        ∀ value ∈ lengthFields rest, Decimal value := by
      rw [fieldsHere, forall_mem_cons]
      exact and_iff_right decimal
    rw [decimals, numbers]
    cases found with
    | none =>
      rw [if_neg (by simp), ih]
      rfl
    | some m =>
      by_cases differs : m ≠ digitsValue h.value
      · rw [if_pos (by simpa using differs)]
        refine iff_of_false nofun fun both => differs (both.2.1 m ?_ _ ?_)
        · exact mem_cons_self
        · exact mem_cons_of_mem _ mem_cons_self
      have same : m = digitsValue h.value := not_not.mp differs
      rw [if_neg (by simpa using same), ih, ← same]
      have twice (P : Nat → Prop) (others : List Nat) :
          (∀ n ∈ (some m).toList ++ m :: others, P n) ↔ ∀ n ∈ (some m).toList ++ others, P n := by
        simp
      unfold numbersFrom
      rw [twice]
      simp only [twice]
      rfl

theorem content_length_none (fields : List Field) : h2cContentLength fields none = none ↔ Misstated fields := by
  have numbers : numbersFrom none fields = (lengthFields fields).map digitsValue := rfl
  constructor
  · intro bad
    by_contra fine
    unfold Misstated at fine
    push Not at fine
    have read := (content_length_read fields none (numbersFrom none fields).head?).mpr ⟨fine.1, ?_, rfl⟩
    · rw [bad] at read
      cases read
    rw [numbers]
    intro m first n second
    obtain ⟨one, among, rfl⟩ := mem_map.mp first
    obtain ⟨other, amongToo, rfl⟩ := mem_map.mp second
    exact fine.2 one among other amongToo
  intro misstated
  cases read : h2cContentLength fields none with
  | none => rfl
  | some length =>
    obtain ⟨decimals, same, -⟩ := (content_length_read fields none length).mp read
    rcases misstated with ⟨value, among, bad⟩ | ⟨one, among, other, amongToo, differ⟩
    · exact absurd (decimals value among) bad
    · exact absurd (same _ (mem_map_of_mem among) _ (mem_map_of_mem amongToo)) differ

variable {length : Option Nat}

theorem content_length_some {fields : List Field}
    (read : h2cContentLength fields none = some length) : length = announced fields := by
  obtain ⟨-, -, first⟩ := (content_length_read fields none length).mp read
  rw [first]
  exact List.head?_map

/-- What is known of a stream: whether it was opened with HEAD, the length announced for its body, and the bytes of
the body there were. -/
structure Account where
  isHead : Bool
  announced : Option Nat
  total : Nat
  deriving DecidableEq, Repr

abbrev Book := Nat → Account

def Settled (a : Account) : Prop := ∀ n, a.announced = some n → a.total = n

/-- With `more` bytes the body is not as long as was announced. -/
def Differs (a : Account) (more : Nat) : Prop := ∃ n, a.announced = some n ∧ n ≠ a.total + more

/-- With `more` bytes the body is longer than was announced. -/
def Exceeds (a : Account) (more : Nat) : Prop := ∃ n, a.announced = some n ∧ n < a.total + more

def bodyless (a : Account) (status : Nat) : Bool := a.isHead || status == 204 || status == 304

def answered (a : Account) (status : Nat) (fields : List Field) : Account :=
  if status < 200 then a
  else { a with announced := if bodyless a status then none else announced fields }

def hear (book : Book) (ev : H2Event) : Book :=
  match ev.kind, ev.request with
  | .headers, some head => Function.update book ev.streamId ⟨false, announced head.fields, 0⟩
  | .headers, none =>
    Function.update book ev.streamId (answered (book ev.streamId) ev.status ev.fields)
  | .data, _ =>
    Function.update book ev.streamId
      { book ev.streamId with total := (book ev.streamId).total + ev.data.length }
  | _, _ => book

def enter (book : Book) (c : H2Conn) : Call → Book
  | .feed input => hear book (h2ConnFeed c input).1.ev
  | .submitRequest headers endStream =>
    match (h2ConnSubmitRequest c headers endStream).2 with
    | .ok id => Function.update book id ⟨h2cMethodIsHead headers, none, 0⟩
    | .error _ => book
  | _ => book

def bookedRun (c : H2Conn) (calls : List Call) : Book × H2Conn :=
  calls.foldl (fun state next => (enter state.1 state.2 next, call state.2 next)) (fun _ => ⟨false, none, 0⟩, c)

structure BodyOk (a : Account) (b : Body) : Prop where
  expect : b.expect = a.announced
  got : b.got = a.total
  noBody : b.noBody = a.isHead
  ended : b.remoteEnd = true → Settled a

structure Accounted (spared : Option Nat) (book : Book) (c : H2Conn) : Prop where
  unique : ((c.streams.map bodyOf).map Body.id).Nodup
  own : c.server = false → ∀ b ∈ c.streams.map bodyOf, b.id < c.nextId
  each : ∀ b ∈ c.streams.map bodyOf, spared ≠ some b.id → BodyOk (book b.id) b

variable {spared : Option Nat} {book : Book} {c d : H2Conn}

theorem accounted_leaves (leaves : Leaves c d) (accounted : Accounted spared book c) : Accounted spared book d where
  unique := by
    obtain ⟨part, permuted, sublist⟩ := leaves.bodies
    exact (permuted.map Body.id).nodup_iff.mp (accounted.unique.sublist (sublist.map Body.id))
  own := by
    intro client b among
    rw [leaves.nextId]
    exact accounted.own (leaves.server.symm.trans client) b (leaves.bodies.subset among)
  each := fun b among other => accounted.each b (leaves.bodies.subset among) other

theorem accounted_same (accounted : Accounted spared book c) (rest : restOf d = restOf c)
    (bodies : d.streams.map bodyOf = c.streams.map bodyOf) : Accounted spared book d :=
  accounted_leaves (quiet_same rest bodies).toLeaves accounted

theorem ids_bodies (streams : List H2Stream) : (streams.map bodyOf).map Body.id = streams.map H2Stream.id := by
  rw [map_map]
  rfl

variable {id : Nat}

theorem leaves_absent (leaves : Leaves c d) (absent : h2cFind c id = none) : h2cFind d id = none := by
  unfold h2cFind at absent ⊢
  rw [find_none] at absent ⊢
  intro s among same
  have body := leaves.bodies.subset (mem_map_of_mem among)
  obtain ⟨t, before, alike⟩ := mem_map.mp body
  exact absent t before ((congrArg Body.id alike).trans same)

theorem remove_gone (unique : (c.streams.map H2Stream.id).Nodup) (id : Nat) (properly : Bool) (how : Option RingHow) :
    h2cFind (h2cRemove c id properly how) id = none := by
  unfold h2cRemove
  split
  · assumption
  rename_i s _
  have gone : h2cFind { c with
      streams := remove H2Stream.id id c.streams
      debt := if properly then c.debt - 1 else c.debt } id = none := find_remove_same H2Stream.id unique
  cases how with
  | none => exact leaves_absent (quiet_credit _ _).toLeaves gone
  | some how => exact leaves_absent (quiet_trans (quiet_ring _ id how) (quiet_credit _ _)).toLeaves gone

theorem fault_gone (unique : (c.streams.map H2Stream.id).Nodup) (id code : Nat) (forgive : Bool) :
    h2cFind (h2cStreamFault c id code forgive) id = none := by
  unfold h2cStreamFault
  refine leaves_absent (quiet_debt _).toLeaves ?_
  split
  · exact @remove_gone (tell (h2cQRst c id code true) (resetEvent id code)) unique id false _
  split
  all_goals assumption

theorem fault_accounted (accounted : Accounted (some id) book c) (code : Nat) (forgive : Bool) :
    Accounted none book (h2cStreamFault c id code forgive) := by
  have after := accounted_leaves (aside_fault c id code forgive).toLeaves accounted
  have gone : h2cFind (h2cStreamFault c id code forgive) id = none := by
    apply fault_gone
    rw [← ids_bodies]
    exact accounted.unique
  refine ⟨after.unique, after.own, fun b among _ => after.each b among ?_⟩
  intro same
  obtain ⟨s, there, rfl⟩ := mem_map.mp among
  exact (find_none H2Stream.id).mp gone s there (Option.some.inj same).symm

variable {s : H2Stream}

theorem accounted_set {change : H2Stream → H2Stream} {before : Book}
    (found : h2cFind c s.id = some s) (others : Accounted (some s.id) before c)
    (agree : ∀ id, id ≠ s.id → book id = before id) (kept : (change s).id = s.id)
    (ok : BodyOk (book s.id) (bodyOf (change s))) : Accounted none book (setStream c s.id change) := by
  have unique : (c.streams.map H2Stream.id).Nodup := by
    rw [← ids_bodies]
    exact others.unique
  have keys := @keys_update_found _ _ _ H2Stream.id s.id c.streams s change found kept
  refine ⟨?_, ?_, ?_⟩
  · rw [ids_bodies]
    exact keys ▸ unique
  · intro client b among
    have number : b.id ∈ (c.streams.map bodyOf).map Body.id := by
      rw [ids_bodies, ← keys, ← ids_bodies]
      exact mem_map_of_mem among
    obtain ⟨b', before, same⟩ := mem_map.mp number
    rw [← same]
    exact others.own client b' before
  intro b among _
  obtain ⟨t, there, rfl⟩ := mem_map.mp among
  rcases mem_update H2Stream.id unique found there with rfl | ⟨old, different⟩
  · have here : (bodyOf (change s)).id = s.id := kept
    rw [here]
    exact ok
  have other : (bodyOf t).id ≠ s.id := different
  rw [agree _ other]
  exact others.each _ (mem_map_of_mem old) fun same => other (Option.some.inj same).symm

theorem accounted_spare (accounted : Accounted none book c) : Accounted (some id) book c :=
  ⟨accounted.unique, accounted.own, fun b among _ => accounted.each b among nofun⟩

theorem accounted_found (accounted : Accounted none book c) (found : h2cFind c id = some s) :
    s.id = id ∧ BodyOk (book id) (bodyOf s) := by
  obtain ⟨there, here⟩ := find_mem H2Stream.id found
  have ok := accounted.each (bodyOf s) (mem_map_of_mem there) nofun
  exact ⟨here, here ▸ ok⟩

structure Silent (c : H2Conn) : Prop where
  kind : c.ev.kind = .none
  notEnd : c.ev.endStream = false

structure Heard (book : Book) (c : H2Conn) : Prop where
  accounted : Accounted none (hear book c.ev) c
  settled : c.ev.endStream = true → Settled (hear book c.ev c.ev.streamId)
  silent : c.ev.kind = .none → c.ev.endStream = false

variable {ev : H2Event}

theorem hear_other (notHeaders : ev.kind ≠ .headers) (notData : ev.kind ≠ .data) : hear book ev = book := by
  unfold hear
  split
  · contradiction
  · contradiction
  · contradiction
  · rfl

theorem hear_silent (silent : Silent c) : hear book c.ev = book := by
  refine hear_other ?_ ?_
  all_goals
    rw [silent.kind]
    decide

variable (accounted : Accounted none book c)
include accounted

theorem heard_silent (silent : Silent c) : Heard book c := by
  refine ⟨?_, ?_, fun _ => silent.notEnd⟩
  · rw [hear_silent silent]
    exact accounted
  intro ended
  rw [silent.notEnd] at ended
  cases ended

theorem heard_plain (plain : Plain c.ev) : Heard book c := by
  refine ⟨?_, ?_, fun _ => plain.notEnd⟩
  · rw [hear_other plain.notHeaders plain.notData]
    exact accounted
  intro ended
  rw [plain.notEnd] at ended
  cases ended

theorem heard_aside (silent : Silent c) (aside : Aside c d) : Heard book d := by
  have after := accounted_leaves aside.toLeaves accounted
  rcases aside.event with same | plain
  · exact heard_silent after ⟨by rw [same]; exact silent.kind, by rw [same]; exact silent.notEnd⟩
  · exact heard_plain after plain

omit accounted

theorem heard_fault (others : Accounted (some s.id) book c) (found : h2cFind c s.id = some s)
    (code : Nat) (forgive : Bool) : Heard book (h2cStreamFault c s.id code forgive) := by
  apply heard_plain (fault_accounted others code forgive)
  rw [fault_ev found]
  exact plain_reset _ _

/-- The stream `id` is reset with a protocol error between `c` and `c'`: a caller who knew of it is told, and the
peer is sent a RST_STREAM. -/
structure Reset (c c' : H2Conn) (id : Nat) : Prop where
  told : (h2cFind c id).isSome = true → c'.ev = resetEvent id h2ProtocolError
  gone : h2cFind c' id = none
  queued : c'.closed = true ∨ ∃ before, c.wire.out <+: before ∧
      before ++ (h2PutHeader 4 h2RstStream 0 id ++ h2PutU32 h2ProtocolError) <+: c'.wire.out

theorem rst_queued (c : H2Conn) (id code : Nat) : (h2cQRst c id code true).wire.closed = true ∨
      c.wire.out ++ (h2PutHeader 4 h2RstStream 0 id ++ h2PutU32 code) <+: (h2cQRst c id code true).wire.out := by
  unfold h2cQRst h2cQU32Frame Wire.answer
  simp only
  split
  next shut =>
    exact .inl shut
  split
  next shut =>
    exact .inl shut
  rename_i room
  right
  rw [if_pos True.intro]
  refine List.IsPrefix.trans ?_ (grows_ctl _ _ _).out
  unfold Wire.push at room ⊢
  split
  next full =>
    rw [if_pos full] at room
    exact absurd rfl room
  · exact prefix_rfl

theorem fault_after (c : H2Conn) (id code : Nat) (forgive : Bool) :
    Leaves (h2cQRst c id code true) (h2cStreamFault c id code forgive) := by
  refine leaves_trans ?_ (quiet_debt _).toLeaves
  split
  · exact (aside_trans (aside_tell _ (plain_reset id code)) (quiet_remove _ _ _ _).aside).toLeaves
  split
  · exact (quiet_ring _ _ _).toLeaves
  · exact (quiet_refl _).toLeaves

theorem reset_fault (out : c.wire.out <+: d.wire.out) (unique : (d.streams.map H2Stream.id).Nodup)
    (still : (h2cFind c id).isSome = true → (h2cFind d id).isSome = true) (forgive : Bool) :
    Reset c (h2cStreamFault d id h2ProtocolError forgive) id where
  told := by
    intro open_
    obtain ⟨s, found⟩ := Option.isSome_iff_exists.mp (still open_)
    exact fault_ev found _ _
  gone := fault_gone unique _ _ _
  queued := by
    have after := fault_after d id h2ProtocolError forgive
    rcases rst_queued d id h2ProtocolError with shut | sent
    · exact .inl (after.closed shut)
    · exact .inr ⟨d.wire.out, out, sent.trans after.out⟩

theorem not_reset (found : h2cFind c id = some s) (other : d.ev.kind ≠ .streamReset) : ¬ Reset c d id := by
  intro reset
  have told := reset.told (by rw [found]; rfl)
  rw [told] at other
  exact other rfl

variable {a : Account}

theorem differs_mismatch (ok : BodyOk a (bodyOf s)) : s.expect.any (· ≠ s.got) = true ↔ Differs a 0 := by
  rw [Option.any_eq_true, show s.expect = a.announced from ok.expect, show s.got = a.total from ok.got]
  simp [Differs]

theorem settled_match (same : ¬ Differs a 0) : Settled a := by
  intro n announced
  by_contra differ
  exact same ⟨n, announced, fun equal => differ equal.symm⟩

theorem remote_end_answers (found : h2cFind c s.id = some s) (ok : BodyOk a (bodyOf s)) :
    (Differs a 0 → h2cRemoteEnd c s.id = h2cStreamFault c s.id h2ProtocolError false) ∧
      (¬ Differs a 0 → (h2cRemoteEnd c s.id).ev = c.ev) := by
  have mismatch := differs_mismatch ok
  unfold h2cRemoteEnd
  simp only [found]
  constructor
  · intro differs
    rw [if_pos (mismatch.mpr differs)]
  intro same
  rw [if_neg fun any => same (mismatch.mp any)]
  split
  · rw [(quiet_remove _ _ _ _).ev]
    rfl
  · rfl

theorem accounted_tell (ev : H2Event) (accounted : Accounted spared book c) : Accounted spared book (tell c ev) :=
  ⟨accounted.unique, accounted.own, accounted.each⟩

theorem accounted_but {other : Book} (all : Accounted none other c) (agree : ∀ i, i ≠ id → other i = book i) :
    Accounted (some id) book c where
  unique := all.unique
  own := all.own
  each := by
    intro b among different
    rw [← agree b.id fun same => different (congrArg some same.symm)]
    exact all.each b among nofun

theorem accounted_unique (accounted : Accounted spared book c) : (c.streams.map H2Stream.id).Nodup := by
  rw [← ids_bodies]
  exact accounted.unique

/-- A step that either resets the stream `id`, exactly when `bad`, or tells `ev`; either way the book goes on to agree. -/
structure Judged (book : Book) (c c' : H2Conn) (id : Nat) (bad : Prop) (ev : H2Event) : Prop where
  heard : Heard book c'
  reset : bad → Reset c c' id
  accepted : ¬ bad → c'.ev = ev

theorem Judged.of_iff {c' : H2Conn} {bad worse : Prop} (judged : Judged book c c' id bad ev)
    (same : worse ↔ bad) : Judged book c c' id worse ev :=
  ⟨judged.heard, fun is => judged.reset (same.mp is), fun no => judged.accepted fun is => no (same.mpr is)⟩

theorem judged_told {s : H2Stream} {ends : Bool} (out : c.wire.out <+: d.wire.out) (found : h2cFind d s.id = some s)
    (all : Accounted none (hear book d.ev) d) (agree : ∀ id, id ≠ s.id → hear book d.ev id = book id)
    (about : d.ev.streamId = s.id) (told : d.ev.kind ≠ .none) (ending : d.ev.endStream = ends) :
    Judged book c (if ends then h2cRemoteEnd d s.id else d) s.id (ends = true ∧ Differs (hear book d.ev s.id) 0) d.ev := by
  cases ends with
  | false =>
    refine ⟨⟨all, ?_, fun none => absurd none told⟩, fun bad => Bool.noConfusion bad.1, fun _ => rfl⟩
    intro ended
    rw [if_neg nofun, ending] at ended
    cases ended
  | true =>
    have ok := (accounted_found all found).2
    obtain ⟨fault, same⟩ := remote_end_answers found ok
    rw [if_pos rfl]
    by_cases differs : Differs (hear book d.ev s.id) 0
    · rw [fault differs]
      refine ⟨heard_fault (accounted_but all agree) found _ _, fun _ => ?_, fun no => absurd ⟨rfl, differs⟩ no⟩
      exact reset_fault out (accounted_unique all) (fun _ => by rw [found]; rfl) _
    have settled := settled_match differs
    have ev := same differs
    have ended : Accounted none (hear book d.ev) (setStream d s.id fun s => { s with remoteEnd := true }) :=
      accounted_set found (accounted_spare all) (fun _ _ => rfl) rfl
        ⟨ok.expect, ok.got, ok.noBody, fun _ => settled⟩
    refine ⟨⟨?_, ?_, ?_⟩, fun bad => absurd bad.2 differs, fun _ => ev⟩
    · rw [ev]
      unfold h2cRemoteEnd
      simp only [found]
      rw [if_neg fun any => differs ((differs_mismatch ok).mp any)]
      split
      · exact accounted_leaves (quiet_remove _ _ _ _).toLeaves ended
      · exact ended
    · intro _
      rw [ev, about]
      exact settled
    rw [ev]
    exact fun none => absurd none told

theorem exceeds_any (ok : BodyOk a (bodyOf s)) (n : Nat) : s.expect.any (· < s.got + n) = true ↔ Exceeds a n := by
  rw [Option.any_eq_true, show s.expect = a.announced from ok.expect, show s.got = a.total from ok.got]
  simp [Exceeds]

def dataEvent (id : Nat) (piece : List Byte) (ends : Bool) : H2Event :=
  { h2cEventStream .data id with data := piece, endStream := ends }

theorem hear_data (book : Book) (id : Nat) (piece : List Byte) (ends : Bool) : hear book (dataEvent id piece ends) =
      Function.update book id { book id with total := (book id).total + piece.length } := rfl

theorem grown_ok {n : Nat} (ok : BodyOk a (bodyOf s)) (within : ¬ Exceeds a n) :
    BodyOk { a with total := a.total + n } (bodyOf { s with got := s.got + n, held := s.held + n }) where
  expect := ok.expect
  got := congrArg (· + n) ok.got
  noBody := ok.noBody
  ended := by
    intro ended m announced
    have there : a.total = m := ok.ended ended m announced
    have short : ¬ m < a.total + n := fun long => within ⟨m, announced, long⟩
    change a.total + n = m
    omega

theorem take_data_judged (accounted : Accounted none book c) (found : h2cFind c s.id = some s)
    (piece : List Byte) (last : Bool) : Judged book c (takeData c s piece last) s.id
      (Exceeds (book s.id) piece.length ∨ ((last && c.fin) = true ∧ Differs (book s.id) piece.length))
      (dataEvent s.id piece (last && c.fin)) := by
  have ok := (accounted_found accounted found).2
  have more := exceeds_any ok piece.length
  let grown : H2Stream → H2Stream := fun s => { s with got := s.got + piece.length, held := s.held + piece.length }
  unfold takeData
  by_cases exceeds : Exceeds (book s.id) piece.length
  · rw [if_pos (more.mpr exceeds)]
    have noted : Quiet c { c with emptyRun := 0, drop := true } := quiet_same rfl rfl
    have credited := quiet_trans noted (quiet_credit _ piece.length)
    have streams : (h2cConnCredit { c with emptyRun := 0, drop := true } piece.length).streams = c.streams :=
      credit_streams _ _
    have still : h2cFind (h2cConnCredit { c with emptyRun := 0, drop := true } piece.length) s.id = some s := by
      unfold h2cFind
      rw [streams]
      exact found
    have after := accounted_leaves credited.toLeaves accounted
    refine ⟨heard_fault (accounted_spare after) still _ _, fun _ => ?_, fun no => absurd (.inl exceeds) no⟩
    exact reset_fault credited.out (accounted_unique after) (fun _ => by rw [still]; rfl) _
  rw [if_neg fun any => exceeds (more.mp any)]
  have noted : Accounted none book { c with emptyRun := 0 } := accounted_same accounted rfl rfl
  have others {ends : Bool} (id : Nat) (other : id ≠ s.id) : hear book (dataEvent s.id piece ends) id = book id :=
    update_of_ne other _ _
  have told (ends : Bool) : Judged book c
      (if ends then h2cRemoteEnd (tell (setStream { c with emptyRun := 0 } s.id grown) (dataEvent s.id piece ends)) s.id
        else tell (setStream { c with emptyRun := 0 } s.id grown) (dataEvent s.id piece ends)) s.id
      (ends = true ∧ Differs (book s.id) piece.length) (dataEvent s.id piece ends) := by
    refine (@judged_told book c (tell (setStream { c with emptyRun := 0 } s.id grown) (dataEvent s.id piece ends))
      (grown s) ends prefix_rfl ?_ ?_ ?_ rfl nofun rfl).of_iff ?_
    · exact find_update_same H2Stream.id found rfl
    · refine accounted_tell _ (accounted_set found (accounted_spare noted) others rfl ?_)
      change BodyOk (hear book (dataEvent s.id piece ends) s.id) _
      rw [hear_data, update_self]
      exact grown_ok ok exceeds
    · exact others
    change _ ↔ ends = true ∧ Differs (hear book (dataEvent s.id piece ends) s.id) 0
    rw [hear_data, update_self]
    exact Iff.rfl
  exact (told (last && c.fin)).of_iff (or_iff_right exceeds)

theorem reset_same {c' : H2Conn} {id : Nat} (streams : d.streams = c.streams) (wire : d.wire = c.wire)
    (reset : Reset d c' id) : Reset c c' id where
  told := by
    have told := reset.told
    unfold h2cFind at told ⊢
    rwa [streams] at told
  gone := reset.gone
  queued := by
    have queued := reset.queued
    rwa [wire] at queued

theorem Judged.of_same {c' : H2Conn} {bad : Prop} (streams : d.streams = c.streams)
    (wire : d.wire = c.wire) (judged : Judged book d c' id bad ev) : Judged book c c' id bad ev :=
  ⟨judged.heard, fun is => reset_same streams wire (judged.reset is), judged.accepted⟩

theorem content_taken_same (c : H2Conn) (n : Nat) :
    Quiet c (contentTaken c n) ∧ (contentTaken c n).streams = c.streams ∧ (contentTaken c n).wire = c.wire ∧
      (contentTaken c n).fin = c.fin ∧ dataStream (contentTaken c n) = dataStream c := by
  unfold contentTaken
  split
  all_goals exact ⟨quiet_same rfl rfl, rfl, rfl, rfl, rfl⟩

theorem data_stream_found (there : dataStream c = some s) : h2cFind c s.id = some s := by
  unfold dataStream at there
  split at there
  · cases there
  rw [(find_mem H2Stream.id there).2]
  exact there

theorem data_piece_judged (accounted : Accounted none book c) (there : dataStream c = some s) (piece : List Byte) :
    Judged book c (dataPiece c piece) s.id (Exceeds (book s.id) piece.length ∨
        ((decide (c.contentLeft - piece.length = 0) && c.fin) = true ∧ Differs (book s.id) piece.length))
      (dataEvent s.id piece (decide (c.contentLeft - piece.length = 0) && c.fin)) := by
  obtain ⟨quiet, streams, wire, fin, same⟩ := content_taken_same c piece.length
  have found : h2cFind (contentTaken c piece.length) s.id = some s := by
    unfold h2cFind
    rw [streams]
    exact data_stream_found there
  have judged := take_data_judged (accounted_leaves quiet.toLeaves accounted) found piece
    (decide (c.contentLeft - piece.length = 0))
  rw [fin] at judged
  unfold dataPiece
  simp only [same, there]
  exact judged.of_same streams wire

theorem data_end_judged (accounted : Accounted none book c) (there : dataStream c = some s) (fin : c.fin = true) :
    Judged book c (dataEnd c) s.id (Differs (book s.id) 0) (dataEvent s.id [] true) := by
  have found : h2cFind (h2cToSkip c c.padLeft) s.id = some s := data_stream_found there
  have nothing : hear book (dataEvent s.id [] true) = book := by
    rw [hear_data, length_nil, add_zero]
    exact update_eq_self s.id book
  have all : Accounted none (hear book (dataEvent s.id [] true)) (tell (h2cToSkip c c.padLeft) (dataEvent s.id [] true)) := by
    rw [nothing]
    exact accounted_tell _ (accounted_same accounted rfl rfl)
  have judged := @judged_told book c (tell (h2cToSkip c c.padLeft) (dataEvent s.id [] true)) s true prefix_rfl
    found all (fun id _ => congrFun nothing id) rfl nofun rfl
  unfold dataEnd
  simp only [there, fin]
  refine judged.of_iff ?_
  change _ ↔ true = true ∧ Differs (hear book (dataEvent s.id [] true) s.id) 0
  rw [nothing]
  exact (and_iff_right rfl).symm

theorem data_piece_aside (absent : dataStream c = none) (piece : List Byte) : Aside c (dataPiece c piece) := by
  obtain ⟨quiet, -, -, -, same⟩ := content_taken_same c piece.length
  unfold dataPiece
  simp only [same, absent]
  exact (quiet_trans quiet (quiet_credit _ _)).aside

theorem data_end_aside (going : dataStream c = none ∨ c.fin = false) : Aside c (dataEnd c) := by
  have skipped := quiet_skip c c.padLeft
  unfold dataEnd
  split
  · exact skipped.aside
  rename_i s there
  rcases going with absent | fin
  · rw [absent] at there
    cases there
  rw [fin]
  exact (quiet_trans skipped (quiet_empty_frame _)).aside

def responseEvent (id status : Nat) (fields : List Field) (ends : Bool) : H2Event :=
  { h2cEventStream .headers id with endStream := ends, status := status, fields := fields }

theorem hear_response (book : Book) (id status : Nat) (fields : List Field) (ends : Bool) :
    hear book (responseEvent id status fields ends) = Function.update book id (answered (book id) status fields) := rfl

variable {status : Nat}

theorem announced_answered {fields : List Field}
    (ok : BodyOk a (bodyOf s)) (same : length = announced fields) (final : 200 ≤ status) :
    (if s.noBody = true ∨ status = 204 ∨ status = 304 then none else length) = (answered a status fields).announced := by
  have noBody : s.noBody = a.isHead := ok.noBody
  unfold answered bodyless
  rw [if_neg (Nat.not_lt_of_le final), noBody, same]
  simp only [Bool.or_eq_true, beq_iff_eq, or_assoc]

theorem answered_ok {fields : List Field} (ok : BodyOk a (bodyOf s))
    (going : s.remoteEnd = false) (final : 200 ≤ status) : BodyOk (answered a status fields)
      (bodyOf { s with expect := (answered a status fields).announced, headRecv := true }) where
  expect := rfl
  got := by
    unfold answered
    rw [if_neg (Nat.not_lt_of_le final)]
    exact ok.got
  noBody := by
    unfold answered
    rw [if_neg (Nat.not_lt_of_le final)]
    exact ok.noBody
  ended := by
    intro ended
    exact absurd (ended.symm.trans going) nofun

variable {list : List Field}

variable (accounted : Accounted none book c)
include accounted

theorem response_judged {rest : List Field}
    (found : h2cFind c s.id = some s) (going : s.remoteEnd = false) (head : h2ResponseHead list = some (status, rest))
    (final : 200 ≤ status) : Judged book c (onResponse c s (some list)) s.id
      (Misstated rest ∨ (c.fin = true ∧ Differs (answered (book s.id) status rest) 0))
      (responseEvent s.id status rest c.fin) := by
  have ok := (accounted_found accounted found).2
  unfold onResponse
  simp only [Option.bind_some, head]
  rw [if_neg (by omega), if_neg (by omega)]
  cases read : h2cContentLength rest none with
  | none =>
    have bad : Misstated rest := (content_length_none rest).mp read
    refine ⟨heard_fault (accounted_spare accounted) found _ _, fun _ => ?_, fun no => absurd (.inl bad) no⟩
    exact reset_fault prefix_rfl (accounted_unique accounted) id _
  | some length =>
    have fine : ¬ Misstated rest := by
      intro bad
      rw [(content_length_none rest).mpr bad] at read
      cases read
    have same := announced_answered ok (content_length_some read) final
    simp only
    rw [same]
    let change : H2Stream → H2Stream := fun t =>
      { t with expect := (answered (book s.id) status rest).announced, headRecv := true }
    let ev := responseEvent s.id status rest c.fin
    have here : hear book ev s.id = answered (book s.id) status rest := update_self ..
    have others (id : Nat) (other : id ≠ s.id) : hear book ev id = book id := update_of_ne other _ _
    have all : Accounted none (hear book ev) (tell (setStream c s.id change) ev) := by
      refine accounted_tell ev (accounted_set found (accounted_spare accounted) others rfl ?_)
      rw [here]
      exact answered_ok ok going final
    have judged := @judged_told book c (tell (setStream c s.id change) ev) (change s) c.fin prefix_rfl
      (find_update_same H2Stream.id found rfl) all others rfl nofun rfl
    refine judged.of_iff ?_
    change _ ↔ c.fin = true ∧ Differs (hear book ev s.id) 0
    rw [here]
    exact or_iff_right fine

theorem heard_list_fault (found : h2cFind c id = some s) (tooBig : Bool) : Heard book (listFault c id tooBig) := by
  apply heard_plain (accounted_leaves (aside_list_fault c found tooBig).toLeaves accounted)
  unfold listFault
  simp only
  rw [fault_ev found]
  exact ⟨nofun, nofun, rfl⟩

theorem interim_heard {rest : List Field}
    (found : h2cFind c s.id = some s) (head : h2ResponseHead list = some (status, rest)) (interim : status < 200) :
    Heard book (onResponse c s (some list)) := by
  unfold onResponse
  simp only [Option.bind_some, head]
  split
  · exact heard_list_fault accounted found _
  · cases fin : c.fin with
    | true => exact heard_fault (accounted_spare accounted) found _ _
    | false =>
      have same : hear book (responseEvent s.id status rest false) = book := by
        rw [hear_response]
        unfold answered
        rw [if_pos interim]
        exact update_eq_self s.id book
      have told : tellResponse c s.id status rest = tell c (responseEvent s.id status rest false) := by
        unfold tellResponse
        simp only [fin]
        rfl
      rw [if_neg nofun, told]
      refine ⟨?_, nofun, fun none => absurd none nofun⟩
      change Accounted none (hear book (responseEvent s.id status rest false)) _
      rw [same]
      exact accounted_tell _ accounted

theorem trailers_judged (found : h2cFind c s.id = some s) (fin : c.fin = true) (fine : h2TrailersCheck list = true) :
    Judged book c (onTrailers c s (some list)) s.id (Differs (book s.id) 0)
      { h2cEventStream .trailers s.id with endStream := true, fields := list } := by
  let ev : H2Event := { h2cEventStream .trailers s.id with endStream := true, fields := list }
  have all : Accounted none (hear book ev) (tell c ev) := accounted_tell ev accounted
  have judged := @judged_told book c (tell c ev) s true prefix_rfl found all (fun _ _ => rfl) rfl nofun rfl
  unfold onTrailers
  simp only [fin, fine]
  exact judged.of_iff (and_iff_right rfl).symm

omit accounted

def requestEvent (id : Nat) (head : RequestHead) (ends : Bool) : H2Event :=
  { h2cEventStream .headers id with endStream := ends, request := some head }

def opened (head : RequestHead) : Account := ⟨false, announced head.fields, 0⟩

theorem hear_request (book : Book) (id : Nat) (head : RequestHead) (ends : Bool) :
    hear book (requestEvent id head ends) = Function.update book id (opened head) := rfl

theorem accounted_opened {t : H2Stream} {before : Book} (accounted : Accounted none before c)
    (absent : h2cFind c t.id = none) (streams : d.streams = c.streams ++ [t]) (server : d.server = c.server)
    (own : c.server = false → c.nextId ≤ d.nextId ∧ t.id < d.nextId) (agree : ∀ id, id ≠ t.id → book id = before id)
    (ok : BodyOk (book t.id) (bodyOf t)) : Accounted none book d := by
  have bodies : d.streams.map bodyOf = c.streams.map bodyOf ++ [bodyOf t] := by
    rw [streams, map_append, map_cons, map_nil]
  have other (b : Body) (among : b ∈ c.streams.map bodyOf) : b.id ≠ t.id := by
    obtain ⟨s, there, rfl⟩ := mem_map.mp among
    exact (find_none H2Stream.id).mp absent s there
  refine ⟨?_, ?_, ?_⟩
  · rw [bodies, map_append, nodup_append]
    refine ⟨accounted.unique, nodup_singleton _, ?_⟩
    intro one first two second same
    obtain ⟨b, among, rfl⟩ := mem_map.mp first
    rw [map_cons, map_nil, mem_singleton] at second
    exact other b among (same.trans second)
  · intro client b among
    rw [bodies] at among
    obtain ⟨more, below⟩ := own (server.symm.trans client)
    rcases mem_append.mp among with old | new
    · exact lt_of_lt_of_le (accounted.own (server.symm.trans client) b old) more
    rw [mem_singleton.mp new]
    exact below
  intro b among _
  rw [bodies] at among
  rcases mem_append.mp among with old | new
  · rw [agree _ (other b old)]
    exact accounted.each b old nofun
  rw [mem_singleton.mp new]
  exact ok

theorem add_opens {added : H2Conn} (adds : h2cAdd c id = some added) :
    ∃ t clock, bodyOf t = ⟨id, none, 0, false, false⟩ ∧ added = { c with clock := clock, streams := c.streams ++ [t] } := by
  obtain ⟨moved, clock, same⟩ := Ranges.add_appends adds
  exact ⟨_, clock, rfl, same⟩

theorem update_opened {t : H2Stream} {change : H2Stream → H2Stream} (absent : h2cFind c t.id = none) :
    update H2Stream.id t.id change (c.streams ++ [t]) = c.streams ++ [change t] :=
  update_split H2Stream.id rfl ((find_none H2Stream.id).mp absent) change

theorem open_request_heard {id : Nat} {head : RequestHead} {length : Option Nat} (accounted : Accounted none book c)
    (server : c.server = true) (absent : h2cFind c id = none) (room : c.streamCount < c.cfgStreams)
    (same : length = announced head.fields) (ended : c.fin = true → Settled (opened head)) :
    Heard book (openRequest c id head length) ∧ (openRequest c id head length).ev = requestEvent id head c.fin ∧
      (h2cFind (openRequest c id head length) id).isSome = true := by
  unfold openRequest
  cases added : h2cAdd c id with
  | none =>
    unfold h2cAdd at added
    rw [if_neg (Nat.not_le_of_lt room)] at added
    cases added
  | some opened =>
    obtain ⟨t, clock, fresh, rfl⟩ := add_opens added
    have here : t.id = id := congrArg Body.id fresh
    subst here
    let change : H2Stream → H2Stream := fun s =>
      { s with expect := length, remoteEnd := c.fin, tunnel := !head.protocol.isEmpty }
    have others (i : Nat) (other : i ≠ t.id) : hear book (requestEvent t.id head c.fin) i = book i :=
      update_of_ne other _ _
    have streams : update H2Stream.id t.id change (c.streams ++ [t]) = c.streams ++ [change t] := update_opened absent
    have ok : BodyOk (hear book (requestEvent t.id head c.fin) t.id) (bodyOf (change t)) := by
      rw [hear_request, update_self]
      exact ⟨same, congrArg Body.got fresh, congrArg Body.noBody fresh, ended⟩
    refine ⟨⟨?_, ?_, nofun⟩, rfl, ?_⟩
    · refine accounted_tell _ (accounted_opened (t := change t) accounted absent streams rfl ?_ others ok)
      intro client
      exact absurd (server.symm.trans client) nofun
    · intro over_
      change Settled (hear book (requestEvent t.id head c.fin) t.id)
      rw [hear_request, update_self]
      exact ended over_
    refine (find_isSome H2Stream.id).mpr ⟨change t, ?_, rfl⟩
    change change t ∈ update H2Stream.id t.id change (c.streams ++ [t])
    rw [streams]
    exact mem_append_right _ mem_cons_self

variable {head : RequestHead}

theorem settled_opened : Settled (opened head) ↔ ¬ Differs (opened head) 0 := by
  constructor
  · rintro settled ⟨n, announced, differ⟩
    exact differ (settled n announced).symm
  · exact settled_match

theorem request_of (made : h2RequestHead list = some head)
    (offered : (!head.protocol.isEmpty && !c.connectProtocol) = false) :
    ((Misstated head.fields ∨ (c.fin = true ∧ Differs (opened head) 0)) ∧ requestOf c (some list) = none) ∨
      (¬ (Misstated head.fields ∨ (c.fin = true ∧ Differs (opened head) 0)) ∧
        requestOf c (some list) = some (head, announced head.fields)) := by
  have asked : requestOf c (some list) = (h2cContentLength head.fields none).bind fun length =>
      if c.fin && length.any (· ≠ 0) then none else some (head, length) := by
    simp only [requestOf, Option.bind_eq_bind, Option.bind_some, made, offered]
    rfl
  rw [asked]
  cases read : h2cContentLength head.fields none with
  | none => exact .inl ⟨.inl ((content_length_none _).mp read), rfl⟩
  | some length =>
    have fine : ¬ Misstated head.fields := by
      intro bad
      rw [(content_length_none _).mpr bad] at read
      cases read
    have same := content_length_some read
    subst same
    have short : (c.fin && (announced head.fields).any (· ≠ 0)) = true ↔ c.fin = true ∧ Differs (opened head) 0 := by
      rw [Bool.and_eq_true, Option.any_eq_true]
      simp [Differs, opened]
    rw [Option.bind_some]
    by_cases bad : c.fin = true ∧ Differs (opened head) 0
    · rw [if_pos (short.mpr bad)]
      exact .inl ⟨.inr bad, rfl⟩
    rw [if_neg fun is => bad (short.mp is)]
    exact .inr ⟨fun either => either.elim fine bad, rfl⟩

structure Takes (c : H2Conn) (id : Nat) : Prop where
  server : c.server = true
  staying : c.wire.goawaySent = false
  room : c.streamCount < max c.ackedStreams c.advStreams
  absent : h2cFind c id = none

include accounted

theorem request_judged
    (silent : Silent c) (limits : Limits c) (takes : Takes c id) (made : h2RequestHead list = some head)
    (offered : (!head.protocol.isEmpty && !c.connectProtocol) = false) : Judged book c (onRequest c id (some list)) id
      (Misstated head.fields ∨ (c.fin = true ∧ Differs (opened head) 0)) (requestEvent id head c.fin) ∧
      (¬ (Misstated head.fields ∨ (c.fin = true ∧ Differs (opened head) 0)) →
        (h2cFind (onRequest c id (some list)) id).isSome = true) := by
  have seen : Accounted none book { c with lastPeerId := id } := accounted_same accounted rfl rfl
  unfold onRequest
  rw [if_neg (by rw [takes.staying]; nofun), if_neg (Nat.not_le_of_lt takes.room)]
  rcases request_of made offered with ⟨bad, refused⟩ | ⟨fine, taken⟩
  · rw [refused]
    refine ⟨⟨heard_aside seen ⟨silent.kind, silent.notEnd⟩ (aside_fault _ _ _ _), fun _ => ?_, fun no => absurd bad no⟩,
      fun no => absurd bad no⟩
    refine @reset_same c { c with lastPeerId := id } _ id rfl rfl
      (reset_fault prefix_rfl (accounted_unique seen) ?_ _)
    change (h2cFind c id).isSome = true → _
    rw [takes.absent]
    exact nofun
  rw [taken]
  have within : c.streamCount < c.cfgStreams :=
    lt_of_lt_of_le takes.room (Nat.max_le.mpr ⟨limits.acked, limits.adv⟩)
  have ended : c.fin = true → Settled (opened head) := fun fin =>
    settled_opened.mpr fun differs => fine (.inr ⟨fin, differs⟩)
  obtain ⟨heard, ev, there⟩ :=
    @open_request_heard book { c with lastPeerId := id } id head _ seen takes.server takes.absent within rfl ended
  exact ⟨⟨heard, fun bad => absurd bad fine, fun _ => ev⟩, fun _ => there⟩

omit accounted in
theorem request_of_some {fields : Option (List Field)} (asked : requestOf c fields = some (head, length)) :
    length = announced head.fields ∧ (c.fin = true → Settled (opened head)) := by
  cases fields with
  | none => cases asked
  | some list =>
    cases made : h2RequestHead list with
    | none =>
      simp [requestOf, made] at asked
    | some given_ =>
      by_cases offered : (!given_.protocol.isEmpty && !c.connectProtocol) = false
      · rcases request_of made offered with ⟨-, refused⟩ | ⟨fine, taken⟩
        · rw [refused] at asked
          cases asked
        rw [taken] at asked
        cases asked
        exact ⟨rfl, fun fin => settled_opened.mpr fun differs => fine (.inr ⟨fin, differs⟩)⟩
      have never : requestOf c (some list) = none := by
        simp only [requestOf, Option.bind_eq_bind, Option.bind_some, made]
        rw [if_pos (by simpa using offered)]
      rw [never] at asked
      cases asked

variable (silent : Silent c)
include silent

theorem heard_request (limits : Limits c)
    (server : c.server = true) (absent : h2cFind c id = none) (fields : Option (List Field)) :
    Heard book (onRequest c id fields) := by
  have seen : Quiet c { c with lastPeerId := id } := quiet_same rfl rfl
  unfold onRequest
  simp only
  split
  · refine heard_aside accounted silent (quiet_trans seen ?_).aside
    unfold refuseRequest
    split
    · exact quiet_trans (quiet_rst _ _ _ _) (quiet_ring _ _ _)
    · exact quiet_rst _ _ _ _
  split
  · exact heard_aside accounted silent (aside_trans seen.aside (aside_fault _ _ _ _))
  rename_i room
  cases asked : requestOf c fields with
  | none => exact heard_aside accounted silent (aside_trans seen.aside (aside_fault _ _ _ _))
  | some request =>
    obtain ⟨same, ended⟩ := request_of_some asked
    have within : c.streamCount < c.cfgStreams :=
      lt_of_lt_of_le (lt_of_not_ge room) (Nat.max_le.mpr ⟨limits.acked, limits.adv⟩)
    exact (@open_request_heard book { c with lastPeerId := id } id request.1 request.2
      (accounted_leaves seen.toLeaves accounted) server absent within same ended).1

theorem heard_open_list
    (found : h2cFind c s.id = some s) (fields : Option (List Field)) : Heard book (onOpenList c s fields) := by
  have noted : Quiet c { c with selfDep := false } := quiet_same rfl rfl
  unfold onOpenList
  split
  · exact heard_aside accounted silent (aside_trans noted.aside (aside_fault _ _ _ _))
  split
  · exact heard_aside accounted silent (aside_fault _ _ _ _)
  rename_i going
  split
  · cases fields with
    | none => exact heard_list_fault accounted found _
    | some list =>
      cases head : h2ResponseHead list with
      | none =>
        unfold onResponse
        simp only [Option.bind_some, head]
        exact heard_list_fault accounted found _
      | some answer =>
        by_cases interim : answer.1 < 200
        · exact interim_heard accounted found head interim
        exact (response_judged accounted found (Bool.eq_false_iff.mpr going) head
          (le_of_not_gt interim)).heard
  · cases fields with
    | none => exact heard_list_fault accounted found _
    | some list =>
      by_cases fine : c.fin = true ∧ h2TrailersCheck list = true
      · exact (trailers_judged accounted found fine.1 fine.2).heard
      have bad : (!c.fin || !h2TrailersCheck list) = true := by
        rw [Bool.or_eq_true, Bool.not_eq_true', Bool.not_eq_true']
        by_contra both
        rw [not_or] at both
        exact fine ⟨Bool.not_eq_false _ ▸ both.1, Bool.not_eq_false _ ▸ both.2⟩
      unfold onTrailers
      simp only [bad, if_true]
      exact heard_list_fault accounted found _

theorem heard_list (limits : Limits c) (fields : Option (List Field)) : Heard book (onList c fields) := by
  unfold onList
  split
  next s there =>
    have found : h2cFind c s.id = some s := by
      rw [(find_mem H2Stream.id there).2]
      exact there
    exact heard_open_list accounted silent found fields
  rename_i absent
  split
  · have noted : Quiet c { c with selfDep := false, lastPeerId := c.cur } := quiet_same rfl rfl
    exact heard_aside accounted silent (aside_trans noted.aside (aside_fault _ _ _ _))
  have noted : Quiet c { c with selfDep := false } := quiet_same rfl rfl
  unfold onNewList
  split
  · split
    · exact heard_aside accounted silent (aside_trans noted.aside (aside_closed_frame _ _ _))
    · exact heard_aside accounted silent (quiet_trans noted (quiet_fail _ _)).aside
  rename_i own
  split
  · exact heard_aside accounted silent (aside_trans noted.aside (aside_closed_frame _ _ _))
  have server : c.server = true := by
    cases side : c.server with
    | true => rfl
    | false =>
      simp [side] at own
  exact heard_request (accounted_leaves noted.toLeaves accounted) ⟨silent.kind, silent.notEnd⟩
    (noted.limits limits) server absent fields

theorem heard_block (limits : Limits c) (block : List Byte) : Heard book (h2cOnBlock c block) := by
  have decoded (dec : Option HpackDecoder) : Quiet c { c with dec := dec } := quiet_same rfl rfl
  have listed (dec : Option HpackDecoder) (fields : Option (List Field)) :
      Heard book (onList { c with dec := dec } fields) :=
    heard_list (accounted_leaves (decoded dec).toLeaves accounted) ⟨silent.kind, silent.notEnd⟩
      ((decoded dec).limits limits) fields
  unfold h2cOnBlock
  simp only
  split
  · exact listed _ _
  · exact listed _ _
  · exact heard_aside accounted silent (quiet_trans (decoded _) (quiet_fail _ _)).aside

theorem heard_rst (f : H2Frame) (b : List Byte) : Heard book (onRstFixed c f b) := by
  have skipped := quiet_skip c 0
  have before := accounted_leaves skipped.toLeaves accounted
  unfold onRstFixed
  simp only
  split
  · split
    · exact heard_aside accounted silent (quiet_trans skipped (quiet_fail _ _)).aside
    · exact heard_aside accounted silent skipped.aside
  rename_i s there
  have ok := (accounted_found before there).2
  have here : s.id = f.streamId := (accounted_found before there).1
  have settled (polite : (!c.server && decide (h2U32 b 0 = h2NoError) &&
      (s.remoteEnd || s.expect.any (· = s.got))) = true) : Settled (book s.id) := by
    rw [Bool.and_eq_true, Bool.or_eq_true] at polite
    rw [here]
    rcases polite.2 with ended | all
    · exact ok.ended ended
    intro n announced
    have expect : s.expect = (book f.streamId).announced := ok.expect
    have got : s.got = (book f.streamId).total := ok.got
    rw [expect, announced, got] at all
    exact (by simpa using all : n = (book f.streamId).total).symm
  have entered (d : H2Conn) (polite : Bool) (ends : polite = true → Settled (book s.id))
      (ev : d.ev = { h2cEventStream .streamReset s.id with code := h2U32 b 0, endStream := polite })
      (kept : Accounted none book d) : Heard book d := by
    have same : hear book d.ev = book := by
      rw [ev]
      rfl
    refine ⟨same.symm ▸ kept, ?_, ?_⟩
    · intro ended
      rw [same, ev]
      rw [ev] at ended
      exact ends ended
    rw [ev]
    exact nofun
  have removed := fun (polite : Bool) => quiet_remove
    (tell (h2cToSkip c 0) { h2cEventStream .streamReset s.id with code := h2U32 b 0, endStream := polite }) s.id polite
    (some .peer)
  split
  · refine entered _ _ settled ?_ ?_
    · rw [(quiet_debt _).ev, (removed _).ev]
      rfl
    · exact accounted_leaves (quiet_trans (removed _) (quiet_debt _)).toLeaves (accounted_tell _ before)
  refine entered _ _ settled ?_ ?_
  · rw [(removed _).ev]
    rfl
  · exact accounted_leaves (removed _).toLeaves (accounted_tell _ before)

theorem heard_on_fixed : Heard book (h2cOnFixed c) ∧ Onward c (h2cOnFixed c) := by
  by_cases rst : c.f.type = h2RstStream
  · have same : h2cOnFixed c = onRstFixed c c.f c.small := by
      unfold h2cOnFixed
      simp only [rst]
      rfl
    rw [same]
    exact ⟨heard_rst accounted silent _ _, onward_rst _ _ _⟩
  have aside := aside_on_fixed c rst
  exact ⟨heard_aside accounted silent aside, aside.toOnward⟩

omit accounted

def TurnHeard (book : Book) (c : H2Conn) (turn : Turn) : Prop :=
  (Heard book turn.conn ∧ Onward c turn.conn ∧ ∀ e, turn.done ≠ some (.error e)) ∨
    (turn.conn.wire.reported = true ∧ turn.conn.ev = c.ev ∧ ∃ e, turn.done = some (.error e))

omit silent in
theorem turn_stop (heard : Heard book d) (onward : Onward c d) (rest : List Byte) : TurnHeard book c (stop d rest) :=
  .inl ⟨heard, onward, nofun⟩

omit silent in
theorem turn_go_on (heard : Heard book d) (onward : Onward c d) (rest : List Byte) : TurnHeard book c (goOn d rest) :=
  .inl ⟨heard, onward, nofun⟩

include accounted

theorem turn_quiet_stop (quiet : Quiet c d) (rest : List Byte) : TurnHeard book c (stop d rest) :=
  turn_stop (heard_aside accounted silent quiet.aside) quiet.toOnward rest

theorem preface_heard (input : List Byte) : TurnHeard book c (readPreface c input) := by
  unfold readPreface
  simp only
  split
  · exact turn_quiet_stop accounted silent (quiet_refl c) _
  split
  · exact .inr ⟨rfl, rfl, _, rfl⟩
  split
  · have quiet : Quiet c { c with small := c.small ++ input.take (prefaceRun (h2Preface.drop c.small.length) input) } :=
      quiet_same rfl rfl
    exact turn_go_on (heard_aside accounted silent quiet.aside) quiet.toOnward _
  have quiet : Quiet c { c with rs := .hdr, small := [] } := quiet_same rfl rfl
  exact turn_go_on (heard_aside accounted silent quiet.aside) quiet.toOnward _

theorem small_heard {next : H2Conn → H2Conn}
    (reads : ∀ d, Accounted none book d → Silent d → Heard book (next d) ∧ Onward d (next d)) (input : List Byte)
    (need : Nat) : TurnHeard book c (readSmall c input need next) := by
  have took (small : List Byte) : Quiet c { c with small := small } := quiet_same rfl rfl
  unfold readSmall
  simp only
  split
  · exact turn_quiet_stop accounted silent (quiet_refl c) _
  split
  · exact turn_quiet_stop accounted silent (took _) _
  obtain ⟨heard, onward⟩ := reads { c with small := c.small ++ input.take (min (need - c.small.length) input.length) }
    (accounted_leaves (took _).toLeaves accounted) ⟨silent.kind, silent.notEnd⟩
  exact turn_go_on heard (onward_trans (took _).toOnward onward) _

theorem data_heard (input : List Byte) : TurnHeard book c (readData c input) := by
  unfold readData
  split
  · refine turn_go_on ?_ (onward_data_end c) _
    cases there : dataStream c with
    | none => exact heard_aside accounted silent (data_end_aside (.inl there))
    | some s =>
      cases fin : c.fin with
      | false => exact heard_aside accounted silent (data_end_aside (.inr fin))
      | true => exact (data_end_judged accounted there fin).heard
  split
  · exact turn_quiet_stop accounted silent (quiet_refl c) _
  refine turn_go_on ?_ (onward_data_piece c _) _
  cases there : dataStream c with
  | none => exact heard_aside accounted silent (data_piece_aside there _)
  | some s => exact (data_piece_judged accounted there _).heard

theorem frame_end_heard (limits : Limits c) (block : List Byte) :
    Heard book (blockFrameEnd c block) ∧ Onward c (blockFrameEnd c block) := by
  have skipped := quiet_skip c c.padLeft
  unfold blockFrameEnd
  simp only
  split
  · exact ⟨heard_aside accounted silent skipped.aside, skipped.toOnward⟩
  have whole : Quiet c { h2cToSkip c c.padLeft with expectCont := 0, blk := [] } := quiet_same rfl rfl
  exact ⟨heard_block (accounted_leaves whole.toLeaves accounted) ⟨silent.kind, silent.notEnd⟩ (whole.limits limits) _,
    onward_trans whole.toOnward (onward_block _ _)⟩

theorem block_heard (limits : Limits c) (input : List Byte) : TurnHeard book c (readBlock c input) := by
  have ends (d : H2Conn) (quiet : Quiet c d) (block rest : List Byte) :
      TurnHeard book c (goOn (blockFrameEnd d block) rest) := by
    obtain ⟨heard, onward⟩ := frame_end_heard (accounted_leaves quiet.toLeaves accounted)
      ⟨by rw [quiet.ev]; exact silent.kind, by rw [quiet.ev]; exact silent.notEnd⟩ (quiet.limits limits) block
    exact turn_go_on heard (onward_trans quiet.toOnward onward) rest
  unfold readBlock
  split
  · split
    · exact turn_quiet_stop accounted silent (quiet_refl c) _
    split
    · exact turn_quiet_stop accounted silent (quiet_fail _ _) _
    split
    · refine ends _ ?_ _ _
      exact quiet_same rfl rfl
    simp only
    split
    · refine turn_quiet_stop accounted silent ?_ _
      exact quiet_same rfl rfl
    refine ends _ ?_ _ _
    exact quiet_same rfl rfl
  · exact ends c (quiet_refl c) _ _

theorem text_heard (input : List Byte) : TurnHeard book c (readText c input) := by
  unfold readText
  simp only
  split
  · refine turn_quiet_stop accounted silent ?_ _
    exact quiet_same rfl rfl
  have whole : Quiet c { c with
      text := c.text ++ input.take (min c.contentLeft input.length)
      contentLeft := c.contentLeft - min c.contentLeft input.length, rs := .skip } := quiet_same rfl rfl
  have aside := aside_trans whole.aside (aside_goaway_event _)
  exact turn_go_on (heard_aside accounted silent aside) aside.toOnward _

theorem skip_heard (input : List Byte) : TurnHeard book c (readSkip c input) := by
  unfold readSkip
  simp only
  split
  · refine turn_quiet_stop accounted silent ?_ _
    exact quiet_same rfl rfl
  have next : Quiet c { c with padLeft := c.padLeft - min c.padLeft input.length, rs := .hdr, small := [] } :=
    quiet_same rfl rfl
  split
  · exact turn_quiet_stop accounted silent next _
  · exact turn_go_on (heard_aside accounted silent next.aside) next.toOnward _

theorem turn_heard (limits : Limits c) (input : List Byte) : TurnHeard book c (h2cReadTurn c input) := by
  unfold h2cReadTurn
  split
  · exact turn_quiet_stop accounted silent (quiet_refl c) input
  split
  · exact preface_heard accounted silent input
  · refine small_heard accounted silent (fun d agrees quiet => ?_) input _
    have parsed : Quiet d { d with f := h2FrameParse d.small } := quiet_same rfl rfl
    have aside := aside_trans parsed.aside (aside_header _)
    exact ⟨heard_aside agrees quiet aside, aside.toOnward⟩
  · exact small_heard accounted silent (fun d agrees quiet => heard_on_fixed agrees quiet) input _
  · exact data_heard accounted silent input
  · exact block_heard accounted silent limits input
  · exact text_heard accounted silent input
  · exact skip_heard accounted silent input

omit silent

omit accounted

theorem told_stops (told : c.ev.kind ≠ .none) (input : List Byte) : h2cReadTurn c input = stop c input := by
  unfold h2cReadTurn
  rw [if_pos (.inr told)]

def ReadHeard (book : Book) (c : H2Conn) (result : H2Conn × List Byte × Except ProvenErr Unit) : Prop :=
  (Heard book result.1 ∧ Onward c result.1 ∧ result.2.2 = .ok ()) ∨
    (result.1.wire.reported = true ∧ Silent result.1 ∧ ∃ e, result.2.2 = .error e)

theorem read_heard (fuel : Nat) (accounted : Accounted none book c) (silent : Silent c) (limits : Limits c)
    (input : List Byte) : ReadHeard book c (h2cReadLoop fuel c input) := by
  induction fuel generalizing c input with
  | zero => exact .inl ⟨heard_silent accounted silent, (quiet_refl c).toOnward, rfl⟩
  | succ fuel ih =>
    have turn := turn_heard accounted silent limits input
    rw [h2cReadLoop]
    rcases turn with ⟨heard, onward, noError⟩ | ⟨reported, same, e, error⟩
    · cases done : (h2cReadTurn c input).done with
      | some result =>
        cases result with
        | ok u => exact .inl ⟨heard, onward, rfl⟩
        | error e => exact absurd done (noError e)
      | none =>
        by_cases told : (h2cReadTurn c input).conn.ev.kind = .none
        · have quiet : Silent (h2cReadTurn c input).conn := ⟨told, heard.silent told⟩
          have agrees : Accounted none book (h2cReadTurn c input).conn := by
            rw [← @hear_silent book _ quiet]
            exact heard.accounted
          rcases ih agrees quiet (onward.limits limits) (h2cReadTurn c input).rest with
            ⟨later, further, fine⟩ | over_
          · exact .inl ⟨later, onward_trans onward further, fine⟩
          · exact .inr over_
        · cases fuel with
          | zero => exact .inl ⟨heard, onward, rfl⟩
          | succ fuel =>
            rw [h2cReadLoop, told_stops told]
            exact .inl ⟨heard, onward, rfl⟩
    rw [error]
    refine .inr ⟨reported, ⟨?_, ?_⟩, e, rfl⟩
    · exact (congrArg H2Event.kind same).trans silent.kind
    · exact (congrArg H2Event.endStream same).trans silent.notEnd

def Kept (book : Book) (c : H2Conn) : Prop := c.wire.reported = true ∨ (Accounted none book c ∧ Limits c)

theorem due_ev (notDue : (h2cDue c).2 = false) : (h2cDue c).1.ev = c.ev := by
  unfold h2cDue at notDue ⊢
  split
  · rfl
  rename_i going
  rw [if_neg going] at notDue
  split
  next s refused =>
    simp only [refused] at notDue
    cases notDue
  rename_i none_
  simp only [none_] at notDue ⊢
  split
  next i s writable =>
    simp only [writable] at notDue
    cases notDue
  rename_i idle_
  simp only [idle_] at notDue ⊢
  split
  · rfl
  · rfl

theorem turns_heard (accounted : Accounted none book c) (silent : Silent c) (limits : Limits c) (input : List Byte) :
    ReadHeard book c (feedTurns c input) := by
  have due := aside_due c
  unfold feedTurns
  simp only
  split
  · exact .inl ⟨heard_aside accounted silent due, due.toOnward, rfl⟩
  rename_i notDue
  have same := due_ev (Bool.eq_false_iff.mpr notDue)
  have read := read_heard (readFuel input) (accounted_leaves due.toLeaves accounted)
    ⟨by rw [same]; exact silent.kind, by rw [same]; exact silent.notEnd⟩ (due.limits limits) input
  rcases read with ⟨heard, onward, fine⟩ | ⟨reported, quiet, e, error⟩
  · split
    next error =>
      rw [show h2cReadLoop (readFuel input) (h2cDue c).1 input = _ from error] at fine
      cases fine
    rename_i d rest done
    rw [show h2cReadLoop (readFuel input) (h2cDue c).1 input = _ from done] at heard onward
    have far := onward_trans due.toOnward onward
    split
    next last =>
      have quiet : Silent d := ⟨last.1, heard.silent last.1⟩
      have agrees : Accounted none book d := by
        rw [← @hear_silent book _ quiet]
        exact heard.accounted
      exact .inl ⟨heard_aside agrees quiet (aside_due d), onward_trans far (aside_due d).toOnward, rfl⟩
    · exact .inl ⟨heard, far, rfl⟩
  split
  next d rest e' failed =>
    rw [show h2cReadLoop (readFuel input) (h2cDue c).1 input = _ from failed] at reported quiet
    exact .inr ⟨reported, quiet, e', rfl⟩
  rename_i done
  rw [show h2cReadLoop (readFuel input) (h2cDue c).1 input = _ from done] at error
  cases error

theorem feed_kept (kept : Kept book c) (input : List Byte) :
    Kept (hear book (h2ConnFeed c input).1.ev) (h2ConnFeed c input).1 ∧ ((h2ConnFeed c input).1.ev.endStream = true →
        Settled (hear book (h2ConnFeed c input).1.ev (h2ConnFeed c input).1.ev.streamId)) := by
  unfold h2ConnFeed
  simp only
  split
  next reported =>
    exact ⟨.inl reported, nofun⟩
  rename_i going
  obtain ⟨accounted, limits⟩ := kept.resolve_left going
  have turns := turns_heard (accounted_tell { kind := .none } accounted) ⟨rfl, rfl⟩
    ((onward_tell c { kind := .none }).limits limits) input
  rcases turns with ⟨heard, onward, fine⟩ | ⟨reported, quiet, e, error⟩
  · split
    next failed =>
      rw [failed] at fine
      cases fine
    rename_i d rest done
    rw [done] at heard onward
    split
    · exact ⟨.inl rfl, nofun⟩
    · exact ⟨.inr ⟨heard.accounted, onward.limits ((onward_tell c { kind := .none }).limits limits)⟩, heard.settled⟩
  split
  next d rest e' failed =>
    rw [failed] at reported quiet
    refine ⟨.inl reported, ?_⟩
    rw [show d.ev.endStream = false from quiet.notEnd]
    exact nofun
  rename_i done
  rw [done] at error
  cases error

theorem kept_leaves (leaves : Leaves c d) (kept : Kept book c) : Kept book d := by
  rcases kept with reported | ⟨accounted, limits⟩
  · exact .inl (leaves.reported.trans reported)
  · exact .inr ⟨accounted_leaves leaves accounted, leaves.limits limits⟩

theorem send_block_streams (c : H2Conn) (id : Nat) (headers : List Field) (endStream : Bool)
    (marks : Option (List Bool)) : (h2cSendBlock c id headers endStream marks).1.streams = c.streams := by
  unfold h2cSendBlock
  simp only
  split
  · rfl
  split
  · rfl
  split
  · rfl
  split
  · rfl
  · rfl

theorem send_block_same {headers : List Field} {endStream : Bool} {marks : Option (List Bool)}
    {answer : Except ProvenErr (List Byte)} (sent : h2cSendBlock c id headers endStream marks = (d, answer)) :
    Quiet c d ∧ d.streams = c.streams := by
  have quiet := quiet_send_block c id headers endStream marks
  have streams := send_block_streams c id headers endStream marks
  rw [sent] at quiet streams
  exact ⟨quiet, streams⟩

theorem remove_opened {t : H2Stream} (absent : h2cFind c t.id = none) (streams : d.streams = c.streams ++ [t])
    (properly : Bool) : (h2cRemove d t.id properly none).streams = c.streams := by
  have others := (find_none H2Stream.id).mp absent
  have removed : remove H2Stream.id t.id (c.streams ++ [t]) = c.streams := by
    rw [remove_split H2Stream.id rfl others]
    exact append_nil _
  have there : h2cFind d t.id = some t := by
    unfold h2cFind
    rw [streams, find, List.find?_append, List.find?_eq_none.mpr fun other among => by simpa using others other among]
    simp
  unfold h2cRemove
  simp only [there]
  rw [credit_streams]
  rw [streams, removed]

theorem submit_answers {headers : List Field} {endStream : Bool} {r : H2Conn × Except ProvenErr Nat}
    (same : h2ConnSubmitRequest c headers endStream = r) : (∃ e, r.2 = .error e ∧ Onward c r.1 ∧
      ((c.server = false → h2cFind c c.nextId = none) → r.1.streams = c.streams)) ∨
    (r.2 = .ok c.nextId ∧ c.server = false ∧ r.1.server = c.server ∧ r.1.nextId = c.nextId + 2 ∧
      r.1.wire.reported = c.wire.reported ∧ (Limits c → Limits r.1) ∧
      ∃ t, bodyOf t = ⟨c.nextId, none, 0, h2cMethodIsHead headers, false⟩ ∧
        (h2cFind c c.nextId = none → r.1.streams = c.streams ++ [t])) := by
  have taken : Quiet c (h2cTakeSensitive c).2 := quiet_same rfl rfl
  unfold h2ConnSubmitRequest at same
  simp only at same
  split at same
  · subst same
    exact .inl ⟨_, rfl, taken.toOnward, fun _ => rfl⟩
  rename_i asked
  have client : c.server = false := Bool.eq_false_iff.mpr fun server => asked (.inl server)
  split at same
  · subst same
    exact .inl ⟨_, rfl, taken.toOnward, fun _ => rfl⟩
  split at same
  · subst same
    exact .inl ⟨_, rfl, taken.toOnward, fun _ => rfl⟩
  split at same
  · subst same
    exact .inl ⟨_, rfl, taken.toOnward, fun _ => rfl⟩
  rename_i added adds
  obtain ⟨t, clock, fresh, opens⟩ := add_opens adds
  have here : t.id = c.nextId := congrArg Body.id fresh
  have next : added.nextId = c.nextId := by
    rw [opens]
    rfl
  have onward := onward_trans taken.toOnward (onward_add adds)
  split at same
  next d e block =>
    subst same
    obtain ⟨quiet, streams⟩ := send_block_same block
    refine .inl ⟨_, rfl, onward_trans onward (quiet_trans quiet (quiet_remove d d.nextId false none)).toOnward, ?_⟩
    intro fresh_
    have absent := fresh_ client
    rw [quiet.nextId, next, ← here]
    refine remove_opened (here ▸ absent) ?_ false
    rw [streams, opens]
    rfl
  rename_i d bytes block
  subst same
  obtain ⟨quiet, streams⟩ := send_block_same block
  have far := onward_trans onward quiet.toOnward
  have number : d.nextId = c.nextId := quiet.nextId.trans next
  refine .inr ⟨?_, client, far.server, ?_, far.reported, ?_, ?_⟩
  · rw [number]
  · change d.nextId + 2 = c.nextId + 2
    rw [number]
  · intro limits
    have after := far.limits limits
    exact ⟨after.acked, after.adv, after.want⟩
  refine ⟨{ t with headSent := true, localEnd := endStream, noBody := h2cMethodIsHead headers }, ?_, ?_⟩
  · change { bodyOf t with noBody := h2cMethodIsHead headers } = _
    rw [fresh]
    rfl
  intro absent
  have opened := @update_opened c t (fun s => { s with
    headSent := true, localEnd := endStream, noBody := h2cMethodIsHead headers }) (here ▸ absent)
  change update H2Stream.id d.nextId _ d.streams = _
  rw [streams, number, ← here, opens]
  exact opened

theorem next_absent (accounted : Accounted none book c) (client : c.server = false) : h2cFind c c.nextId = none :=
  (find_none H2Stream.id).mpr fun s among same => by
    have below : s.id < c.nextId := accounted.own client (bodyOf s) (mem_map_of_mem among)
    omega

theorem submit_kept (kept : Kept book c) (headers : List Field) (endStream : Bool) :
    Kept (enter book c (.submitRequest headers endStream)) (h2ConnSubmitRequest c headers endStream).1 := by
  rcases @submit_answers c headers endStream _ rfl with
    ⟨e, refused, onward, streams⟩ | ⟨sent, client, server, nextId, reported, limits, t, fresh, streams⟩
  · have same : enter book c (.submitRequest headers endStream) = book := by
      unfold enter
      simp only [refused]
    rw [same]
    rcases kept with over_ | ⟨accounted, within⟩
    · exact .inl (onward.reported.trans over_)
    have left := streams (next_absent accounted)
    have bodies : (h2ConnSubmitRequest c headers endStream).1.streams.map bodyOf = c.streams.map bodyOf :=
      congrArg (List.map bodyOf) left
    exact .inr ⟨accounted_leaves ⟨onward, (List.Perm.of_eq bodies).subperm⟩ accounted, onward.limits within⟩
  have same : enter book c (.submitRequest headers endStream) =
      Function.update book c.nextId ⟨h2cMethodIsHead headers, none, 0⟩ := by
    unfold enter
    simp only [sent]
  rw [same]
  rcases kept with over_ | ⟨accounted, within⟩
  · exact .inl (reported.trans over_)
  have absent := next_absent accounted client
  have here : t.id = c.nextId := congrArg Body.id fresh
  refine .inr ⟨accounted_opened (t := t) accounted (here ▸ absent) (streams absent) server ?_ ?_ ?_, limits within⟩
  · intro _
    rw [nextId, here]
    omega
  · intro id other
    exact update_of_ne (here ▸ other) _ _
  rw [here, update_self, fresh]
  exact ⟨rfl, rfl, rfl, nofun⟩

theorem call_kept (kept : Kept book c) (next : Call) : Kept (enter book c next) (call c next) := by
  cases next with
  | feed input => exact (feed_kept kept input).1
  | outputSent n =>
    change Kept book (h2ConnOutputSent c n)
    unfold h2ConnOutputSent
    split
    · exact kept
    rcases kept with over_ | ⟨accounted, limits⟩
    · exact .inl over_
    · exact .inr ⟨⟨accounted.unique, accounted.own, accounted.each⟩, ⟨limits.acked, limits.adv, limits.want⟩⟩
  | nextSensitive | headsPastBound => exact kept_leaves (Quiet.toLeaves (quiet_same (c := c) rfl rfl)) kept
  | submitRequest headers endStream => exact submit_kept kept headers endStream
  | submitResponse id headers endStream => exact kept_leaves (quiet_response c id headers endStream).toLeaves kept
  | sendData id data endStream => exact kept_leaves (quiet_send_data c id data endStream).toLeaves kept
  | sendTrailers id headers => exact kept_leaves (quiet_trailers c id headers).toLeaves kept
  | reset id code => exact kept_leaves (quiet_reset c id code).toLeaves kept
  | consumed id n => exact kept_leaves (quiet_consumed c id n).toLeaves kept
  | ping bytes => exact kept_leaves (quiet_ping c bytes).toLeaves kept
  | shutdown code => exact kept_leaves (quiet_shutdown c code).toLeaves kept
  | setMaxStreams n => exact kept_leaves (quiet_max_streams c n).toLeaves kept
  | setInitialWindow n => exact kept_leaves (quiet_initial_window c n).toLeaves kept
  | grow streamKib connKib clock => exact kept_leaves (quiet_growing c streamKib connKib clock).toLeaves kept
  | capWindow n => exact kept_leaves (quiet_cap c n).toLeaves kept

theorem created_kept {config : H2Config} (created : h2ConnCreate config = some c) (book : Book) : Kept book c := by
  unfold h2ConnCreate at created
  simp only at created
  split at created
  · cases created
  · cases created
    exact .inr ⟨⟨nodup_nil, nofun, nofun⟩, ⟨le_refl _, le_refl _, le_refl _⟩⟩

theorem booked_kept {config : H2Config} (created : h2ConnCreate config = some c) (calls : List Call) :
    Kept (bookedRun c calls).1 (bookedRun c calls).2 := by
  unfold bookedRun
  have start := created_kept created (fun _ => ⟨false, none, 0⟩)
  generalize (fun _ => ⟨false, none, 0⟩ : Book) = first at start ⊢
  clear created
  induction calls generalizing c first with
  | nil => exact start
  | cons next calls ih => exact ih _ (call_kept start next)

theorem booked_run (c : H2Conn) (calls : List Call) : (bookedRun c calls).2 = run c calls := by
  unfold bookedRun run
  generalize (fun _ => ⟨false, none, 0⟩ : Book) = first
  induction calls generalizing c first with
  | nil => rfl
  | cons next calls ih => exact ih _ _

/-- The reader goes on from `c` to `d`, in turns none of which stops it. -/
inductive Reads : H2Conn → List Byte → H2Conn → List Byte → Prop where
  | here (c : H2Conn) (input : List Byte) : Reads c input c input
  | turn {c : H2Conn} {input : List Byte} {d : H2Conn} {rest : List Byte}
      (goes : (h2cReadTurn c input).done = none)
      (further : Reads (h2cReadTurn c input).conn (h2cReadTurn c input).rest d rest) : Reads c input d rest

/-- In a call of feed on `c` the reader is about to take another turn, at `d`. -/
structure Reading (c : H2Conn) (input : List Byte) (d : H2Conn) (rest : List Byte) : Prop where
  reported : c.wire.reported = false
  notDue : (h2cDue (tell c { kind := .none })).2 = false
  reads : Reads (h2cDue (tell c { kind := .none })).1 input d rest
  going : d.closed = false
  silent : d.ev.kind = .none

structure Agrees (book : Book) (c : H2Conn) : Prop where
  accounted : Accounted none book c
  silent : Silent c
  limits : Limits c

variable {rest : List Byte}

theorem reads_agrees {input : List Byte} (reads : Reads c input d rest) (silent : d.ev.kind = .none)
    (agrees : Agrees book c) : Agrees book d := by
  induction reads with
  | here c input => exact agrees
  | turn goes further ih =>
    rename_i c input d rest
    rcases turn_heard agrees.accounted agrees.silent agrees.limits input with
      ⟨heard, onward, -⟩ | ⟨-, -, e, error⟩
    · by_cases told : (h2cReadTurn c input).conn.ev.kind = .none
      · have quiet : Silent (h2cReadTurn c input).conn := ⟨told, heard.silent told⟩
        refine ih silent ⟨?_, quiet, onward.limits agrees.limits⟩
        rw [← @hear_silent book _ quiet]
        exact heard.accounted
      -- With something told the reader takes no further turn.
      cases further with
      | here => exact absurd silent told
      | turn goes _ =>
        rw [told_stops told] at goes
        cases goes
    rw [error] at goes
    cases goes

theorem reading_agrees {input : List Byte} (kept : Kept book c) (reading : Reading c input d rest) : Agrees book d := by
  obtain ⟨accounted, limits⟩ := kept.resolve_left (by rw [reading.reported]; nofun)
  have due := aside_due (tell c { kind := .none })
  have same := due_ev reading.notDue
  refine reads_agrees reading.reads reading.silent ⟨?_, ⟨?_, ?_⟩, ?_⟩
  · exact accounted_leaves due.toLeaves (accounted_tell _ accounted)
  · rw [same]
    rfl
  · rw [same]
    rfl
  · exact due.limits ((onward_tell c { kind := .none }).limits limits)

def listRead (d : H2Conn) (rest : List Byte) : Option (List Field) :=
  if d.endHeaders ∧ d.contentLeft ≤ rest.length ∧ (d.contentLeft = 0 ∨ d.blk.length + d.contentLeft ≤ d.cfgList * 2) then
    match (hpackDecodeMarked (blockDecoder d) (d.blk ++ rest.take d.contentLeft) (blockCapacity d)).2 with
    | .ok out => some (out.map Prod.fst)
    | .error _ => none
  else none

structure Asked (d e : H2Conn) : Prop where
  rest : restOf e = restOf d
  streams : e.streams = d.streams
  cur : e.cur = d.cur
  fin : e.fin = d.fin
  selfDep : e.selfDep = d.selfDep
  lastPeerId : e.lastPeerId = d.lastPeerId
  connectProtocol : e.connectProtocol = d.connectProtocol

variable {e : H2Conn}

theorem asked_trans (first : Asked c d) (second : Asked d e) : Asked c e :=
  ⟨second.rest.trans first.rest, second.streams.trans first.streams, second.cur.trans first.cur, second.fin.trans first.fin,
    second.selfDep.trans first.selfDep, second.lastPeerId.trans first.lastPeerId,
    second.connectProtocol.trans first.connectProtocol⟩

theorem block_decoded {block : List Byte} {out : List (Field × Bool)}
    (decoded : (hpackDecodeMarked (blockDecoder c) block (blockCapacity c)).2 = .ok out) : h2cOnBlock c block =
      onList { c with dec := some (hpackDecodeMarked (blockDecoder c) block (blockCapacity c)).1 }
        (some (out.map Prod.fst)) := by
  unfold h2cOnBlock
  simp only [decoded]

theorem block_asks {block : List Byte} {out : List (Field × Bool)} (whole : c.endHeaders = true)
    (decoded : (hpackDecodeMarked (blockDecoder c) block (blockCapacity c)).2 = .ok out) :
    ∃ e, Asked c e ∧ blockFrameEnd c block = onList e (some (out.map Prod.fst)) := by
  let d : H2Conn := { h2cToSkip c c.padLeft with expectCont := 0, blk := [] }
  have decoder : blockDecoder d = blockDecoder c := rfl
  have capacity : blockCapacity d = blockCapacity c := rfl
  have asks := @block_decoded d block out (by rw [decoder, capacity]; exact decoded)
  have ends : blockFrameEnd c block = h2cOnBlock d block := by
    exact if_neg (by rw [show (h2cToSkip c c.padLeft).endHeaders = true from whole]; nofun)
  refine ⟨_, ?_, ends.trans asks⟩
  exact ⟨rfl, rfl, rfl, rfl, rfl, rfl, rfl⟩

theorem list_read_asks (block : d.rs = .block) (going : d.closed = false)
    (silent : d.ev.kind = .none) (read : listRead d rest = some list) :
    ∃ e, Asked d e ∧ (h2cReadTurn d rest).conn = onList e (some list) := by
  unfold listRead at read
  split at read
  next whole =>
    obtain ⟨ends, there, fits⟩ := whole
    have turn : h2cReadTurn d rest = readBlock d rest := by
      unfold h2cReadTurn
      rw [if_neg (by rw [going, silent]; decide), block]
    rw [turn]
    split at read
    next out decoded =>
      cases read
      unfold readBlock
      by_cases none_ : d.contentLeft = 0
      · rw [if_neg (by omega)]
        rw [none_, take_zero, append_nil] at decoded
        exact block_asks ends decoded
      rw [if_pos (by omega), if_neg]
      · have fits := fits.resolve_left none_
        rw [if_neg (Nat.not_lt_of_le fits)]
        have asked (e : H2Conn) (same : Asked d e) (decoder : blockDecoder e = blockDecoder d)
            (capacity : blockCapacity e = blockCapacity d) (headers : e.endHeaders = d.endHeaders) :
            ∃ e', Asked d e' ∧ blockFrameEnd e (d.blk ++ rest.take d.contentLeft) = onList e' (some (out.map Prod.fst)) := by
          obtain ⟨e', further, asks⟩ := @block_asks e _ out (headers.trans ends) (by rw [decoder, capacity]; exact decoded)
          exact ⟨e', asked_trans same further, asks⟩
        split
        next here =>
          have asks := asked { d with contentLeft := 0, emptyRun := 0 } ⟨rfl, rfl, rfl, rfl, rfl, rfl, rfl⟩ rfl rfl rfl
          have same : d.blk ++ rest.take d.contentLeft = rest.take d.contentLeft := by
            rw [here.1, nil_append]
          rw [same] at asks
          exact asks
        have all : min d.contentLeft rest.length = d.contentLeft := min_eq_left there
        simp only [all, tsub_self, lt_irrefl, if_false]
        exact asked { d with blk := d.blk ++ rest.take d.contentLeft, contentLeft := 0, emptyRun := 0 }
          ⟨rfl, rfl, rfl, rfl, rfl, rfl, rfl⟩ rfl rfl rfl
      intro nothing
      rw [nothing, length_nil] at there
      exact none_ (Nat.le_zero.mp there)
    · cases read
  · cases read

/-- A turn resets the stream `id` exactly when `bad`, and otherwise tells `ev`. -/
def Decided (d d' : H2Conn) (id : Nat) (bad : Prop) (ev : H2Event) : Prop :=
  (Reset d d' id ↔ bad) ∧ (¬ bad → d'.ev = ev)

/-- The turn the reader takes at `d`, as the book has it. -/
structure Enforced (book : Book) (d : H2Conn) (rest : List Byte) : Prop where
  piece : d.rs = .data → d.contentLeft ≠ 0 → rest ≠ [] → ∀ s, dataStream d = some s →
    Decided d (h2cReadTurn d rest).conn s.id
      (Exceeds (book s.id) (rest.take d.contentLeft).length ∨
        (d.fin = true ∧ d.contentLeft ≤ rest.length ∧ Differs (book s.id) (rest.take d.contentLeft).length))
      (dataEvent s.id (rest.take d.contentLeft) (decide (d.contentLeft ≤ rest.length) && d.fin))
  last : d.rs = .data → d.contentLeft = 0 → d.fin = true → ∀ s, dataStream d = some s →
    Decided d (h2cReadTurn d rest).conn s.id (Differs (book s.id) 0) (dataEvent s.id [] true)
  request : ∀ list head, d.rs = .block → listRead d rest = some list → Takes d d.cur → d.selfDep = false →
    d.cur % 2 = 1 → d.lastPeerId < d.cur → h2RequestHead list = some head →
    (!head.protocol.isEmpty && !d.connectProtocol) = false →
    Decided d (h2cReadTurn d rest).conn d.cur
      (Misstated head.fields ∨ (d.fin = true ∧ Differs (opened head) 0)) (requestEvent d.cur head d.fin)
  response : ∀ list s status fields, d.rs = .block → listRead d rest = some list → d.server = false →
    h2cFind d d.cur = some s → d.selfDep = false → s.remoteEnd = false → s.headRecv = false →
    h2ResponseHead list = some (status, fields) → 200 ≤ status →
    Decided d (h2cReadTurn d rest).conn s.id
      (Misstated fields ∨ (d.fin = true ∧ Differs (answered (book s.id) status fields) 0))
      (responseEvent s.id status fields d.fin)
  trailers : ∀ list s, d.rs = .block → listRead d rest = some list → h2cFind d d.cur = some s → d.selfDep = false →
    s.remoteEnd = false → (d.server = true ∨ s.headRecv = true) → d.fin = true → h2TrailersCheck list = true →
    Decided d (h2cReadTurn d rest).conn s.id (Differs (book s.id) 0)
      { h2cEventStream .trailers s.id with endStream := true, fields := list }

theorem Judged.decided {c' : H2Conn} {bad : Prop}
    (judged : Judged book c c' id bad ev) (found : h2cFind c id = some s) (other : ev.kind ≠ .streamReset) :
    Decided c c' id bad ev := by
  refine ⟨⟨fun reset => ?_, judged.reset⟩, judged.accepted⟩
  by_contra fine
  refine not_reset found ?_ reset
  rw [judged.accepted fine]
  exact other

theorem data_turn (data : d.rs = .data) (going : d.closed = false) (silent : d.ev.kind = .none) :
    h2cReadTurn d rest = readData d rest := by
  unfold h2cReadTurn
  rw [if_neg (by rw [going, silent]; decide), data]

theorem enforced_piece (agrees : Agrees book d) (going : d.closed = false) (data : d.rs = .data)
    (some_ : d.contentLeft ≠ 0) (more : rest ≠ []) (there : dataStream d = some s) :
    Decided d (h2cReadTurn d rest).conn s.id (Exceeds (book s.id) (rest.take d.contentLeft).length ∨
        (d.fin = true ∧ d.contentLeft ≤ rest.length ∧ Differs (book s.id) (rest.take d.contentLeft).length))
      (dataEvent s.id (rest.take d.contentLeft) (decide (d.contentLeft ≤ rest.length) && d.fin)) := by
  have turn : (h2cReadTurn d rest).conn = dataPiece d (rest.take d.contentLeft) := by
    rw [data_turn data going agrees.silent.kind]
    unfold readData
    rw [if_neg some_, if_neg more]
    rfl
  have whole : decide (d.contentLeft - (rest.take d.contentLeft).length = 0) = decide (d.contentLeft ≤ rest.length) := by
    rw [length_take, decide_eq_decide]
    omega
  have judged := data_piece_judged agrees.accounted there (rest.take d.contentLeft)
  rw [whole] at judged
  rw [turn]
  refine (judged.of_iff ?_).decided (data_stream_found there) nofun
  rw [Bool.and_eq_true, decide_eq_true_eq]
  tauto

theorem enforced_last (agrees : Agrees book d) (going : d.closed = false) (data : d.rs = .data)
    (none_ : d.contentLeft = 0) (fin : d.fin = true) (there : dataStream d = some s) :
    Decided d (h2cReadTurn d rest).conn s.id (Differs (book s.id) 0) (dataEvent s.id [] true) := by
  have turn : (h2cReadTurn d rest).conn = dataEnd d := by
    rw [data_turn data going agrees.silent.kind]
    unfold readData
    rw [if_pos none_]
    rfl
  rw [turn]
  exact (data_end_judged agrees.accounted there fin).decided (data_stream_found there) nofun

variable (asked : Asked d e)
include asked

theorem asked_agrees (agrees : Agrees book d) : Agrees book e := by
  have ev : e.ev = d.ev := congrArg Rest.ev asked.rest
  have bodies : e.streams.map bodyOf = d.streams.map bodyOf := congrArg (List.map bodyOf) asked.streams
  refine ⟨accounted_same agrees.accounted asked.rest bodies, ⟨?_, ?_⟩, (quiet_same asked.rest bodies).limits agrees.limits⟩
  · rw [ev]
    exact agrees.silent.kind
  rw [ev]
  exact agrees.silent.notEnd

theorem asked_find (id : Nat) : h2cFind e id = h2cFind d id := by
  unfold h2cFind
  rw [asked.streams]

theorem asked_wire : e.wire = d.wire := congrArg Rest.wire asked.rest

theorem asked_server : e.server = d.server := congrArg Rest.server asked.rest

omit asked

theorem open_list_goes (there : h2cFind c c.cur = some s) (selfDep : c.selfDep = false)
    (going : s.remoteEnd = false) (fields : Option (List Field)) :
    onList c fields = if !c.server && !s.headRecv then onResponse c s fields else onTrailers c s fields := by
  unfold onList onOpenList
  simp only [there, selfDep, going, Bool.false_eq_true, if_false]

theorem enforced_response {fields : List Field}
    (agrees : Agrees book d) (going : d.closed = false) (block : d.rs = .block) (read : listRead d rest = some list)
    (client : d.server = false) (there : h2cFind d d.cur = some s) (selfDep : d.selfDep = false)
    (goesOn : s.remoteEnd = false) (first : s.headRecv = false) (head : h2ResponseHead list = some (status, fields))
    (final : 200 ≤ status) : Decided d (h2cReadTurn d rest).conn s.id
      (Misstated fields ∨ (d.fin = true ∧ Differs (answered (book s.id) status fields) 0))
      (responseEvent s.id status fields d.fin) := by
  obtain ⟨e, asked, turn⟩ := list_read_asks block going agrees.silent.kind read
  have found : h2cFind d s.id = some s := by
    rw [(find_mem H2Stream.id there).2]
    exact there
  have here : h2cFind e e.cur = some s := by
    rw [asked_find asked, asked.cur]
    exact there
  have judged := response_judged (asked_agrees asked agrees).accounted ((asked_find asked s.id).trans found) goesOn head final
  rw [turn, open_list_goes here (asked.selfDep.trans selfDep) goesOn, asked_server asked, client, first]
  rw [asked.fin] at judged
  exact (judged.of_same asked.streams (asked_wire asked)).decided found nofun

theorem enforced_trailers
    (agrees : Agrees book d) (going : d.closed = false) (block : d.rs = .block) (read : listRead d rest = some list)
    (there : h2cFind d d.cur = some s) (selfDep : d.selfDep = false) (goesOn : s.remoteEnd = false)
    (second : d.server = true ∨ s.headRecv = true) (fin : d.fin = true) (fine : h2TrailersCheck list = true) :
    Decided d (h2cReadTurn d rest).conn s.id (Differs (book s.id) 0)
      { h2cEventStream .trailers s.id with endStream := true, fields := list } := by
  obtain ⟨e, asked, turn⟩ := list_read_asks block going agrees.silent.kind read
  have found : h2cFind d s.id = some s := by
    rw [(find_mem H2Stream.id there).2]
    exact there
  have here : h2cFind e e.cur = some s := by
    rw [asked_find asked, asked.cur]
    exact there
  have judged := trailers_judged (asked_agrees asked agrees).accounted ((asked_find asked s.id).trans found)
    (asked.fin.trans fin) fine
  have goes : (!e.server && !s.headRecv) = false := by
    rw [asked_server asked]
    rcases second with server | head
    · rw [server]
      rfl
    · rw [head, Bool.not_true, Bool.and_false]
  rw [turn, open_list_goes here (asked.selfDep.trans selfDep) goesOn, goes]
  exact (judged.of_same asked.streams (asked_wire asked)).decided found nofun

theorem new_list_goes (absent : h2cFind c c.cur = none) (selfDep : c.selfDep = false) (server : c.server = true)
    (odd : c.cur % 2 = 1) (newer : c.lastPeerId < c.cur) (fields : Option (List Field)) :
    onList c fields = onRequest { c with selfDep := false } c.cur fields := by
  have own : ¬ (!c.server || c.cur % 2 == 0) = true := by
    rw [server, odd]
    decide
  unfold onList
  rw [absent]
  rw [if_neg (by rw [selfDep]; simp)]
  unfold onNewList
  rw [if_neg own, if_neg (Nat.not_le_of_lt newer)]

theorem enforced_request
    (agrees : Agrees book d) (going : d.closed = false) (block : d.rs = .block) (read : listRead d rest = some list)
    (takes : Takes d d.cur) (selfDep : d.selfDep = false) (odd : d.cur % 2 = 1) (newer : d.lastPeerId < d.cur)
    (made : h2RequestHead list = some head) (offered : (!head.protocol.isEmpty && !d.connectProtocol) = false) :
    Decided d (h2cReadTurn d rest).conn d.cur
      (Misstated head.fields ∨ (d.fin = true ∧ Differs (opened head) 0)) (requestEvent d.cur head d.fin) := by
  obtain ⟨e, asked, turn⟩ := list_read_asks block going agrees.silent.kind read
  let e' : H2Conn := { e with selfDep := false }
  have asked' : Asked d e' :=
    ⟨asked.rest, asked.streams, asked.cur, asked.fin, selfDep.symm, asked.lastPeerId, asked.connectProtocol⟩
  have agrees' := asked_agrees asked' agrees
  have takes' : Takes e' d.cur := by
    refine ⟨(asked_server asked').trans takes.server, ?_, ?_, (asked_find asked' _).trans takes.absent⟩
    · rw [asked_wire asked']
      exact takes.staying
    have acked : e'.ackedStreams = d.ackedStreams := congrArg Rest.ackedStreams asked'.rest
    have adv : e'.advStreams = d.advStreams := congrArg Rest.advStreams asked'.rest
    rw [acked, adv, show e'.streamCount = d.streamCount from congrArg List.length asked'.streams]
    exact takes.room
  have goes : onList e (some list) = onRequest e' d.cur (some list) := by
    have absent : h2cFind e e.cur = none := by
      rw [asked.cur]
      exact takes'.absent
    have goes := new_list_goes absent (asked.selfDep.trans selfDep) takes'.server (by rw [asked.cur]; exact odd)
      (by rw [asked.cur, asked.lastPeerId]; exact newer) (some list)
    exact goes.trans (congrArg (onRequest e' · (some list)) asked.cur)
  obtain ⟨judged, opens⟩ := request_judged agrees'.accounted agrees'.silent agrees'.limits takes' made
    (by rw [asked'.connectProtocol]; exact offered)
  rw [asked'.fin] at judged opens
  rw [turn, goes]
  have same := judged.of_same asked'.streams (asked_wire asked')
  refine ⟨⟨fun reset => ?_, same.reset⟩, same.accepted⟩
  by_contra fine
  have there := opens fine
  rw [reset.gone] at there
  cases there

/-- **A stream is reset for its content-length exactly when it should be.** Along any run the book has what was
announced for each stream and what of it came. -/
theorem content_length_enforced {config : H2Config} {c : H2Conn} (created : h2ConnCreate config = some c)
    (calls : List Call) (input : List Byte) : ((h2ConnFeed (run c calls) input).1.ev.endStream = true →
      Settled (hear (bookedRun c calls).1 (h2ConnFeed (run c calls) input).1.ev
        (h2ConnFeed (run c calls) input).1.ev.streamId)) ∧
      ∀ d rest, Reading (run c calls) input d rest → Enforced (bookedRun c calls).1 d rest := by
  have kept := booked_kept created calls
  rw [booked_run] at kept
  refine ⟨(feed_kept kept input).2, fun d rest reading => ?_⟩
  have agrees := reading_agrees kept reading
  exact {
    piece := fun data some_ more s there => enforced_piece agrees reading.going data some_ more there
    last := fun data none_ fin s there => enforced_last agrees reading.going data none_ fin there
    request := fun list head block read takes selfDep odd newer made offered =>
      enforced_request agrees reading.going block read takes selfDep odd newer made offered
    response := fun list s status fields block read client there selfDep goesOn first head final =>
      enforced_response agrees reading.going block read client there selfDep goesOn first head final
    trailers := fun list s block read there selfDep goesOn second fin fine =>
      enforced_trailers agrees reading.going block read there selfDep goesOn second fin fine }

def lengthOpening : List Byte :=
  h2Preface ++ h2PutHeader 0 h2Settings 0 0 ++ h2PutHeader 7 h2Headers 4 1 ++ [0x83, 0x84, 0x86, 0x0f, 0x0d, 1, 0x33]

theorem content_length_enforced_whole : ∃ c, h2ConnCreate (serverConfig 0) = some c ∧
      (h2ConnFeed (run c [.feed lengthOpening]) (h2PutHeader 3 h2Data 1 1 ++ [0, 0, 0])).1.ev.endStream = true ∧
      Settled (hear (bookedRun c [.feed lengthOpening]).1
        (h2ConnFeed (run c [.feed lengthOpening]) (h2PutHeader 3 h2Data 1 1 ++ [0, 0, 0])).1.ev 1) := by
  have ends : (h2ConnFeed (run ((h2ConnCreate (serverConfig 0)).get (by decide)) [.feed lengthOpening])
      (h2PutHeader 3 h2Data 1 1 ++ [0, 0, 0])).1.ev.endStream = true ∧
      (h2ConnFeed (run ((h2ConnCreate (serverConfig 0)).get (by decide)) [.feed lengthOpening])
        (h2PutHeader 3 h2Data 1 1 ++ [0, 0, 0])).1.ev.streamId = 1 := by decide +kernel
  refine ⟨(h2ConnCreate (serverConfig 0)).get (by decide), (Option.some_get _).symm, ends.1, ?_⟩
  have created : h2ConnCreate (serverConfig 0) = some ((h2ConnCreate (serverConfig 0)).get (by decide)) :=
    (Option.some_get _).symm
  have settled := (content_length_enforced created [.feed lengthOpening]
    (h2PutHeader 3 h2Data 1 1 ++ [0, 0, 0])).1 ends.1
  exact settled

end ProvenC.H2.ContentLength

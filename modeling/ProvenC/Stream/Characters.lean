import ProvenC.Stream.Staging

/-!
# The characters of a stream

Between calls the staged bytes and the source hold characters and a tail that begins with none. A call of
the decoder takes whole characters from the front, or says why it takes none.
-/

namespace ProvenC.Stream.Characters

open List Bytes Lib.Cells Lib.Unicode Text.Utf Text.Decoding
open Text.Conversion Text.Streams Text.Cuts Stream.Wide Stream.Staging
open Stream.Reader (Read Inner)

variable {Behind : Type} (inner : Inner Behind)

def stream (s : U16Reader) (behind : Behind) : List Byte := staged s ++ inner.text behind

def encoding (s : U16Reader) (behind : Behind) : TextEncoding :=
  if s.bomChecked then s.enc else (bomOf (stream inner s behind)).1

def encoded (s : U16Reader) (behind : Behind) : List Byte :=
  if s.bomChecked then stream inner s behind else (stream inner s behind).drop (bomOf (stream inner s behind)).2

/-- What the decoder relies on: what is to come is `cps`, and then `tail`. -/
structure Supplied (s : U16Reader) (behind : Behind) (enc : TextEncoding) (cps : List Nat) (tail : List Byte) : Prop where
  order : s.rawPos ≤ s.rawLen
  within : s.rawLen ≤ sizeofRaw
  ended : s.eof = true → inner.text behind = []
  scalars : Scalars cps
  stuck : Stuck (decodeBytes enc) tail
  encoding : encoding inner s behind = enc
  encoded : encoded inner s behind = cps.flatMap (form enc) ++ tail
  peekText : Units s.peek
  peekOne : ∀ u more, s.peek = u :: more → more = [] ∨ (isHigh u ∧ more.length = 1)
  broke : s.err ≠ none → s.err = some .invalidEncoding ∧ s.peek = [] ∧ cps = [] ∧ tail ≠ []

structure Onward (s : U16Reader) (behind : Behind) (s' : U16Reader) (behind' : Behind) : Prop where
  same : ∃ raw rawPos rawLen eof, s' = { s with raw, rawPos, rawLen, eof }
  order : s'.rawPos ≤ s'.rawLen
  within : s'.rawLen ≤ sizeofRaw
  ended : s'.eof = true → inner.text behind' = []
  stream : stream inner s' behind' = stream inner s behind

variable {inner}

variable {s s' : U16Reader} {behind behind' : Behind}

theorem fetched_onward {more : Bool}
    (fetched : Fetched inner s behind more s' behind') : Onward inner s behind s' behind' := by
  obtain ⟨got, kept, text, -⟩ := fetched.arrived
  refine ⟨fetched.same, fetched.order, fetched.within, fetched.ended, ?_⟩
  unfold stream
  rw [kept, text, append_assoc]

theorem onward_trans {s'' : U16Reader} {behind'' : Behind} (one : Onward inner s behind s' behind')
    (two : Onward inner s' behind' s'' behind'') : Onward inner s behind s'' behind'' := by
  obtain ⟨raw, rawPos, rawLen, eof, rfl⟩ := one.same
  obtain ⟨raw', rawPos', rawLen', eof', rfl⟩ := two.same
  exact ⟨⟨_, _, _, _, rfl⟩, two.order, two.within, two.ended, two.stream.trans one.stream⟩

theorem bom_of_front {front back : List Byte} (enough : 3 ≤ front.length ∨ back = []) :
    bomOf (front ++ back) = bomOf front := by
  rcases enough with long | rfl
  · unfold bomOf
    rw [take_append_of_le_length long, take_append_of_le_length (by omega)]
  · rw [append_nil]

theorem bom_of_within (bytes : List Byte) : (bomOf bytes).2 ≤ bytes.length := by
  have long : ∀ (n : Nat) (mark : List Byte), bytes.take n = mark → mark.length = n → n ≤ bytes.length := by
    intro n mark same count
    have lengths := congrArg List.length same
    rw [length_take] at lengths
    omega
  unfold bomOf
  split
  next mark =>
    exact long 3 _ mark rfl
  split
  next mark =>
    exact long 2 _ mark rfl
  split
  next mark =>
    exact long 2 _ mark rfl
  · exact Nat.zero_le _

theorem bom_loop_onward (steady : Steady inner) {rounds : Nat}
    (order : s.rawPos ≤ s.rawLen) (within : s.rawLen ≤ sizeofRaw) (ended : s.eof = true → inner.text behind = [])
    (enough : 3 ≤ rounds + (staged s).length) :
    ∃ s' behind', bomLoop inner rounds s behind = (s', behind') ∧ Onward inner s behind s' behind' ∧
      (3 ≤ (staged s').length ∨ inner.text behind' = []) := by
  have still : Onward inner s behind s behind := ⟨⟨_, _, _, _, rfl⟩, order, within, ended, rfl⟩
  induction rounds generalizing s behind with
  | zero => exact ⟨s, behind, rfl, still, Or.inl (by omega)⟩
  | succ rounds ih =>
    rw [bomLoop]
    split
    next short =>
      have kilo : sizeofRaw = 1024 := rfl
      cases read : u16rReadRaw inner s behind with
      | mk more after =>
        obtain ⟨s₁, behind₁⟩ := after
        have fetched := raw_fetched steady order (by omega) within ended read
        have first := fetched_onward fetched
        obtain ⟨got, kept, text, which⟩ := fetched.arrived
        cases more with
        | false =>
          rw [if_neg Bool.false_ne_true] at which
          exact ⟨s₁, behind₁, rfl, first, Or.inr which.2⟩
        | true =>
          rw [if_pos rfl] at which
          have positive := length_pos_iff.mpr which
          have grown : 3 ≤ rounds + (staged s₁).length := by
            rw [kept, length_append]
            omega
          obtain ⟨s', behind', ran, then_, staged_⟩ := ih first.order first.within first.ended grown
            ⟨⟨_, _, _, _, rfl⟩, first.order, first.within, first.ended, rfl⟩
          exact ⟨s', behind', ran, onward_trans first then_, staged_⟩
    rename_i long
    exact ⟨s, behind, rfl, still, Or.inl (by omega)⟩

theorem staged_skip {k : Nat} (inside : k ≤ (staged s).length) :
    staged { s with rawPos := s.rawPos + k } = (staged s).drop k := by
  rw [staged_length] at inside
  unfold staged
  dsimp only
  rw [← range_drop _ inside]
  congr 1
  omega

variable {enc : TextEncoding} {cps : List Nat} {tail : List Byte}

theorem check_bom_supplied (steady : Steady inner) (supplied : Supplied inner s behind enc cps tail) (unchecked : s.bomChecked = false) :
    ∃ s' behind', u16rCheckBom inner s behind = (s', behind') ∧ Supplied inner s' behind' enc cps tail ∧
      s'.bomChecked = true ∧ ∃ enc raw rawPos rawLen eof, s' = { s with enc, raw, rawPos, rawLen, eof, bomChecked := true } := by
  obtain ⟨s', behind', ran, onward, enough⟩ :=
    bom_loop_onward steady supplied.order supplied.within supplied.ended (show 3 ≤ 4 + (staged s).length by omega)
  have mark : bomOf (stream inner s behind) = bomOf (staged s') := by
    rw [← onward.stream]
    exact bom_of_front enough
  have inside := bom_of_within (staged s')
  have used := supplied.encoding
  have ahead := supplied.encoded
  unfold encoding at used
  unfold encoded at ahead
  rw [unchecked, if_neg Bool.false_ne_true, mark] at used ahead
  have rest : staged { s' with rawPos := s'.rawPos + (bomOf (staged s')).2 } ++ inner.text behind' =
      cps.flatMap (form enc) ++ tail := by
    rw [staged_skip inside, ← ahead, ← onward.stream, stream, drop_append_of_le_length inside]
  have length := staged_length s'
  have order := onward.order
  obtain ⟨raw, rawPos, rawLen, eof, same⟩ := onward.same
  refine ⟨_, behind', by rw [u16rCheckBom, ran], ?_, rfl, _, _, _, _, _, by rw [same]⟩
  refine ⟨?_, onward.within, onward.ended, supplied.scalars, supplied.stuck, ?_, ?_, ?_, ?_, ?_⟩
  · dsimp only
    omega
  · rw [encoding, if_pos rfl]
    exact used
  · rw [encoded, if_pos rfl]
    exact rest
  · rw [same]
    exact supplied.peekText
  · rw [same]
    exact supplied.peekOne
  rw [same]
  exact supplied.broke

inductive Gets (tail : List Byte) (cap : Nat) : List Unit16 → Outcome → List Unit16 → Prop
  | units (front rest : List Unit16) : front ≠ [] → front.length ≤ cap → Units front →
      Gets tail cap (front ++ rest) ⟨none, front⟩ rest
  | wide (u v : Unit16) (rest : List Unit16) : isHigh u → cap < 2 →
      Gets tail cap (u :: v :: rest) ⟨some .outOfBounds, []⟩ (u :: v :: rest)
  | ended : tail = [] → Gets tail cap [] ⟨some .eof, []⟩ []
  | malformed : tail ≠ [] → Gets tail cap [] ⟨some .invalidEncoding, []⟩ []

def units (s : U16Reader) (cps : List Nat) : List Unit16 := s.peek ++ utf16Text cps

structure Beside (s s' : U16Reader) : Prop where
  buf : s'.buf = s.buf
  cap : s'.cap = s.cap
  len : s'.len = s.len
  cursor : s'.cursor = s.cursor

theorem beside_held (beside : Beside s s') : held s' = held s := by
  unfold held
  rw [beside.buf, beside.len, beside.cursor]

variable (inner) in
structure Decodes (s : U16Reader) (enc : TextEncoding) (cps : List Nat) (tail : List Byte) (cap : Nat)
    (outcome : Outcome) (s' : U16Reader) (behind' : Behind) (cps' : List Nat) : Prop where
  supplied : Supplied inner s' behind' enc cps' tail
  gets : Gets tail cap (units s cps) outcome (units s' cps')
  beside : Beside s s'
  bare : s.peek = [] → s'.peek = []
  fine : outcome.err = none → s'.err = none

theorem nothing_later {part rest : List Byte} {later : List Nat}
    (scalars : Scalars later) (stuck : Stuck (decodeBytes enc) part) (none_ : rest = [])
    (ahead : part ++ rest = later.flatMap (form enc) ++ tail) : later = [] ∧ tail = part := by
  rw [none_, append_nil] at ahead
  cases later with
  | nil => exact ⟨rfl, ahead.symm⟩
  | cons cp more =>
    exfalso
    rw [flatMap_cons, append_assoc] at ahead
    apply stuck cp (form enc cp).length
    rw [ahead]
    exact (text_streams enc).whole cp _ (forall_mem_cons.mp scalars).1

variable {cap : Nat}

theorem wide_pair {cp : Nat} (scalar : IsScalar cp) (room : 0 < cap) (long : cap < (utf16Of cp).length) :
    ∃ u v, utf16Of cp = [u, v] ∧ isHigh u ∧ cap < 2 := by
  rcases utf16_of_cases scalar with ⟨u, one, -⟩ | ⟨u, v, two, high, -⟩
  · rw [one, length_singleton] at long
    omega
  rw [two] at long
  exact ⟨u, v, two, high, long⟩

theorem stream_skip {taken rest : List Nat} {part : List Byte}
    (arrived : staged s = (taken ++ rest).flatMap (form enc) ++ part) :
    stream inner { s with rawPos := s.rawPos + (taken.flatMap (form enc)).length } behind =
      rest.flatMap (form enc) ++ (part ++ inner.text behind) := by
  have inside : (taken.flatMap (form enc)).length ≤ (staged s).length := by
    rw [arrived, flatMap_append, append_assoc, length_append]
    omega
  rw [stream, staged_skip inside, arrived, flatMap_append, append_assoc, drop_left, append_assoc]

theorem onward_supplied (supplied : Supplied inner s behind enc cps tail) (checked : s.bomChecked = true)
    (onward : Onward inner s behind s' behind') : Supplied inner s' behind' enc cps tail := by
  have used := supplied.encoding
  have ahead := supplied.encoded
  rw [encoding, if_pos checked] at used
  rw [encoded, if_pos checked, ← onward.stream] at ahead
  have order := onward.order
  have within := onward.within
  have ended := onward.ended
  obtain ⟨raw, rawPos, rawLen, eof, same⟩ := onward.same
  refine ⟨order, within, ended, supplied.scalars, supplied.stuck, ?_, ?_, ?_, ?_, ?_⟩
  · rw [encoding, same, if_pos checked]
    exact used
  · rw [encoded, if_pos (by rw [same]; exact checked)]
    exact ahead
  · rw [same]
    exact supplied.peekText
  · rw [same]
    exact supplied.peekOne
  rw [same]
  exact supplied.broke

theorem broken_supplied (supplied : Supplied inner s behind enc [] tail) (bare : s.peek = []) (some_ : tail ≠ []) :
    Supplied inner { s with err := some .invalidEncoding } behind enc [] tail :=
  ⟨supplied.order, supplied.within, supplied.ended, supplied.scalars, supplied.stuck, supplied.encoding,
    supplied.encoded, supplied.peekText, supplied.peekOne, fun _ => ⟨rfl, bare, rfl, some_⟩⟩

variable (inner) in
structure Waits (s : U16Reader) (enc : TextEncoding) (cps : List Nat) (tail : List Byte) (s' : U16Reader)
    (behind' : Behind) : Prop where
  supplied : Supplied inner s' behind' enc cps tail
  same : ∃ raw rawPos rawLen eof, s' = { s with raw, rawPos, rawLen, eof }
  short : (staged s).length < 4
  longer : (staged s).length < (staged s').length

theorem waiting_round (steady : Steady inner) {rounds : Nat} (supplied : Supplied inner s behind enc cps tail) (checked : s.bomChecked = true)
    (bare : s.peek = []) (fine : s.err = none) (more : decodeBytes enc (staged s) = .more)
    (err : Option ProvenErr) (took : u16rDecodeRaw s cap = ⟨err, 0, []⟩) (other : err ≠ some .invalidEncoding)
    (space : err ≠ some .outOfBounds) :
    (∃ outcome s' behind' cps', decodeLoop inner cap (rounds + 1) s behind = some (outcome, s', behind') ∧
      Decodes inner s enc cps tail cap outcome s' behind' cps') ∨
    ∃ s' behind', decodeLoop inner cap (rounds + 1) s behind = decodeLoop inner cap rounds s' behind' ∧
      Waits inner s enc cps tail s' behind' := by
  have short := (text_streams enc).moreShort _ more
  have kilo : sizeofRaw = 1024 := rfl
  have stuck : Stuck (decodeBytes enc) (staged s) := by
    intro cp len whole
    rw [more] at whole
    cases whole
  have ahead : stream inner s behind = cps.flatMap (form enc) ++ tail := by
    have same := supplied.encoded
    rw [encoded, if_pos checked] at same
    exact same
  have text : units s cps = utf16Text cps := by rw [units, bare, nil_append]
  have stays : ({ s with rawPos := s.rawPos } : U16Reader) = s := rfl
  rw [decodeLoop, took]
  dsimp only [add_zero, length_nil]
  rw [if_neg (lt_irrefl 0), if_neg other, if_neg space, stays]
  cases read : u16rReadRaw inner s behind with
  | mk come after =>
    obtain ⟨s₁, behind₁⟩ := after
    have fetched := raw_fetched steady supplied.order (by omega) supplied.within supplied.ended read
    have onward := fetched_onward fetched
    have kept := onward_supplied supplied checked onward
    obtain ⟨got, longer, -, which⟩ := fetched.arrived
    cases come with
    | true =>
      rw [if_pos rfl] at which
      refine Or.inr ⟨s₁, behind₁, rfl, kept, onward.same, short, ?_⟩
      have positive := length_pos_iff.mpr which
      rw [longer, length_append]
      omega
    | false =>
      rw [if_neg Bool.false_ne_true] at which
      obtain ⟨rfl, last⟩ := which
      rw [append_nil] at longer
      have rest := onward.stream.trans ahead
      rw [stream, longer] at rest
      obtain ⟨rfl, same_tail⟩ := nothing_later supplied.scalars stuck last rest
      obtain ⟨raw, rawPos, rawLen, eof, same⟩ := onward.same
      have healthy : s₁.err = none := by rw [same]; exact fine
      have peek : s₁.peek = [] := by rw [same]; exact bare
      have beside : Beside s s₁ := by rw [same]; exact ⟨rfl, rfl, rfl, rfl⟩
      have none_ : units s [] = [] := by rw [units, bare]; rfl
      have none_after : units s₁ [] = [] := by rw [units, peek]; rfl
      have length := staged_length s₁
      rw [longer] at length
      left
      dsimp only
      rw [healthy]
      dsimp only
      split
      · -- the source ended inside a character
        rename_i part
        have some_ : tail ≠ [] := by
          rw [same_tail]
          intro empty
          rw [empty, length_nil] at length
          omega
        refine ⟨_, _, _, [], rfl, broken_supplied kept peek some_, ?_,
          ⟨beside.buf, beside.cap, beside.len, beside.cursor⟩, fun _ => peek, fun never => by cases never⟩
        rw [none_]
        change Gets _ _ _ _ (units s₁ [])
        rw [none_after]
        exact Gets.malformed some_
      rename_i empty
      have none_left : tail = [] := by
        rw [same_tail]
        exact eq_nil_of_length_eq_zero (by omega)
      refine ⟨_, _, _, [], rfl, kept, ?_, beside, fun _ => peek, fun _ => healthy⟩
      rw [none_, none_after]
      exact Gets.ended none_left

theorem decode_round (steady : Steady inner) (room : 0 < cap)
    (rounds : Nat) (supplied : Supplied inner s behind enc cps tail)
    (checked : s.bomChecked = true) (bare : s.peek = []) (fine : s.err = none) :
    (∃ outcome s' behind' cps', decodeLoop inner cap (rounds + 1) s behind = some (outcome, s', behind') ∧
      Decodes inner s enc cps tail cap outcome s' behind' cps') ∨
    ∃ s' behind', decodeLoop inner cap (rounds + 1) s behind = decodeLoop inner cap rounds s' behind' ∧
      Waits inner s enc cps tail s' behind' := by
  have scalars := supplied.scalars
  have used : s.enc = enc := by
    have same := supplied.encoding
    rw [encoding, if_pos checked] at same
    exact same
  have whole_stream : stream inner s behind = cps.flatMap (form enc) ++ tail := by
    have same := supplied.encoded
    rw [encoded, if_pos checked] at same
    exact same
  obtain ⟨whole, later, part, split, arrived, stuck, ahead, bad_last⟩ :=
    arrived_split (text_streams enc) scalars supplied.stuck whole_stream
  have later_scalars : Scalars later := fun cp among => scalars cp (by rw [split]; exact mem_append_right _ among)
  have whole_scalars : Scalars whole := fun cp among => scalars cp (by rw [split]; exact mem_append_left _ among)
  have length := staged_length s
  have order := supplied.order
  have within := supplied.within
  have text : units s cps = utf16Text cps := by rw [units, bare, nil_append]
  have takes := @decode_raw_takes s whole whole_scalars part (by rw [used]; exact stuck) (by rw [used]; exact arrived)
    (by omega) cap room
  rw [used] at takes
  generalize took : u16rDecodeRaw s cap = d at takes
  cases takes with
  | characters err taken rest whole_split some_ fits =>
    left
    have rest_scalars : Scalars (rest ++ later) := by
      intro cp among
      apply scalars
      rw [split, whole_split, append_assoc]
      exact mem_append_right _ among
    have inside : (taken.flatMap (form enc)).length ≤ (staged s).length := by
      rw [arrived, whole_split, flatMap_append, append_assoc, length_append]
      omega
    refine ⟨⟨none, utf16Text taken⟩, { s with rawPos := s.rawPos + (taken.flatMap (form enc)).length }, behind,
      rest ++ later, ?_, ⟨?_, within, supplied.ended, rest_scalars, supplied.stuck, ?_, ?_, supplied.peekText,
      supplied.peekOne, fun broken => absurd fine broken⟩, ?_, ⟨rfl, rfl, rfl, rfl⟩, fun _ => bare, fun _ => fine⟩
    · rw [decodeLoop, took]
      exact if_pos (text_length_positive some_)
    · dsimp only
      omega
    · rw [encoding, if_pos checked]
      exact used
    · rw [encoded, if_pos checked]
      rw [whole_split] at arrived
      rw [stream_skip arrived, ahead, flatMap_append, append_assoc]
    have after : units { s with rawPos := s.rawPos + (taken.flatMap (form enc)).length } (rest ++ later) =
        utf16Text (rest ++ later) := by
      rw [units]
      rw [bare, nil_append]
    have all : utf16Text cps = utf16Text taken ++ utf16Text (rest ++ later) := by
      rw [split, whole_split, append_assoc, utf16Text, utf16Text, utf16Text, flatMap_append]
    rw [text, after, all]
    refine Gets.units _ _ ?_ fits (units_text fun cp among => scalars cp ?_)
    · exact length_pos_iff.mp (text_length_positive some_)
    rw [split, whole_split, append_assoc]
    exact mem_append_left _ among
  | wide cp more whole_split long =>
    left
    have scalar : IsScalar cp := whole_scalars cp (by rw [whole_split]; exact mem_cons_self)
    obtain ⟨u, v, pair, high, small⟩ := wide_pair scalar room long
    refine ⟨⟨some .outOfBounds, []⟩, s, behind, cps, ?_, supplied, ?_, ⟨rfl, rfl, rfl, rfl⟩, fun _ => bare, fun _ => fine⟩
    · rw [decodeLoop, took]
      rfl
    have all : units s cps = u :: v :: utf16Text (more ++ later) := by
      rw [text, split, whole_split, cons_append, utf16Text, flatMap_cons, pair]
      rfl
    rw [all]
    exact Gets.wide u v _ high small
  | malformed span none_ bad =>
    left
    have last := bad_last span bad
    rw [none_, last] at split
    rw [last, flatMap_nil, nil_append] at ahead
    have some_ : tail ≠ [] := by
      rw [← ahead]
      intro empty
      rw [(append_eq_nil_iff.mp empty).1, (text_streams enc).nothing] at bad
      cases bad
    obtain rfl : cps = [] := split
    refine ⟨⟨some .invalidEncoding, []⟩, { s with err := some .invalidEncoding }, behind, [], ?_,
      broken_supplied supplied bare some_, ?_, ⟨rfl, rfl, rfl, rfl⟩, fun _ => bare, fun never => by cases never⟩
    · rw [decodeLoop, took]
      rfl
    change Gets tail cap (units s []) _ (units s [])
    rw [text]
    exact Gets.malformed some_
  | waiting err none_ more other space =>
    rw [none_, flatMap_nil, nil_append] at arrived
    rw [← arrived] at more
    exact waiting_round steady supplied checked bare fine more err took other space

theorem decode_loop_decodes (steady : Steady inner) (room : 0 < cap)
    {rounds : Nat} (supplied : Supplied inner s behind enc cps tail)
    (checked : s.bomChecked = true) (bare : s.peek = []) (fine : s.err = none)
    (enough : 4 < rounds + (staged s).length) (some_ : 0 < rounds) :
    ∃ outcome s' behind' cps', decodeLoop inner cap rounds s behind = some (outcome, s', behind') ∧
      Decodes inner s enc cps tail cap outcome s' behind' cps' := by
  induction rounds generalizing s behind with
  | zero => exact absurd some_ (lt_irrefl 0)
  | succ rounds ih =>
    rcases decode_round steady room rounds supplied checked bare fine with done | ⟨s₁, behind₁, same, waits⟩
    · exact done
    have short := waits.short
    have longer := waits.longer
    obtain ⟨raw, rawPos, rawLen, eof, shape⟩ := waits.same
    have checked₁ : s₁.bomChecked = true := by rw [shape]; exact checked
    have bare₁ : s₁.peek = [] := by rw [shape]; exact bare
    have fine₁ : s₁.err = none := by rw [shape]; exact fine
    obtain ⟨outcome, s', behind', cps', ran, decodes⟩ :=
      ih waits.supplied checked₁ bare₁ fine₁ (by omega) (by omega)
    refine ⟨outcome, s', behind', cps', same.trans ran, decodes.supplied, ?_, ?_, fun _ => decodes.bare bare₁,
      decodes.fine⟩
    · have kept : units s cps = units s₁ cps := by rw [units, units, bare, bare₁]
      rw [kept]
      exact decodes.gets
    have beside := decodes.beside
    rw [shape] at beside
    exact ⟨beside.buf, beside.cap, beside.len, beside.cursor⟩

theorem checked_decodes (steady : Steady inner) (room : 0 < cap) (supplied : Supplied inner s behind enc cps tail)
    (checked : s.bomChecked = true) (bare : s.peek = []) (fine : s.err = none) :
    ∃ outcome s' behind' cps', decodeLoop inner cap (sizeofRaw + 1) s behind = some (outcome, s', behind') ∧
      Decodes inner s enc cps tail cap outcome s' behind' cps' := by
  have kilo : sizeofRaw = 1024 := rfl
  exact decode_loop_decodes steady room supplied checked bare fine (by omega) (by omega)

theorem decode_decodes (steady : Steady inner) (room : 0 < cap) (supplied : Supplied inner s behind enc cps tail) :
    ∃ outcome s' behind' cps', u16rDecode inner s behind cap = some (outcome, s', behind') ∧
      Decodes inner s enc cps tail cap outcome s' behind' cps' := by
  unfold u16rDecode
  cases verdict : s.err with
  | some e =>
    obtain ⟨same, bare, rfl, some_⟩ := supplied.broke (by rw [verdict]; exact Option.some_ne_none e)
    rw [verdict] at same
    obtain rfl := Option.some.inj same
    refine ⟨_, s, behind, [], rfl, supplied, ?_, ⟨rfl, rfl, rfl, rfl⟩, fun _ => bare, fun never => by cases never⟩
    have none_ : units s [] = [] := by rw [units, bare]; rfl
    rw [none_]
    exact Gets.malformed some_
  | none =>
    dsimp only
    by_cases bare : s.peek = []
    · rw [if_neg (not_not.mpr bare)]
      by_cases checked : s.bomChecked = true
      · rw [if_pos checked]
        dsimp only
        rw [verdict]
        exact checked_decodes steady room supplied checked bare verdict
      rw [if_neg checked]
      obtain ⟨s₁, behind₁, ran, supplied₁, checked₁, enc', raw, rawPos, rawLen, eof, same⟩ :=
        check_bom_supplied steady supplied (Bool.eq_false_iff.mpr checked)
      have bare₁ : s₁.peek = [] := by rw [same]; exact bare
      have fine₁ : s₁.err = none := by rw [same]; exact verdict
      rw [ran]
      dsimp only
      rw [fine₁]
      obtain ⟨outcome, s', behind', cps', done, decodes⟩ := checked_decodes steady room supplied₁ checked₁ bare₁ fine₁
      refine ⟨outcome, s', behind', cps', done, decodes.supplied, ?_, ?_, fun _ => decodes.bare bare₁, decodes.fine⟩
      · have kept : units s cps = units s₁ cps := by rw [units, units, bare, bare₁]
        rw [kept]
        exact decodes.gets
      have beside := decodes.beside
      rw [same] at beside
      exact ⟨beside.buf, beside.cap, beside.len, beside.cursor⟩
    rw [if_pos bare]
    obtain ⟨u, more, peek⟩ := exists_cons_of_ne_nil bare
    split
    next long =>
      refine ⟨_, s, behind, cps, rfl, supplied, ?_, ⟨rfl, rfl, rfl, rfl⟩, fun none_ => none_, fun _ => verdict⟩
      rw [peek, length_cons] at long
      rcases supplied.peekOne u more peek with rfl | ⟨high, single⟩
      · rw [length_nil] at long
        omega
      obtain ⟨v, rfl⟩ := length_eq_one_iff.mp single
      rw [length_singleton] at long
      rw [units, peek]
      exact Gets.wide u v _ high long
    rename_i fits
    refine ⟨⟨none, s.peek⟩, { s with peek := [] }, behind, cps, by rw [verdict], ?_, ?_, ⟨rfl, rfl, rfl, rfl⟩,
      fun _ => rfl, fun _ => verdict⟩
    · refine ⟨supplied.order, supplied.within, supplied.ended, supplied.scalars, supplied.stuck, supplied.encoding,
        supplied.encoded, units_nil, ?_, fun broken => absurd verdict broken⟩
      intro u more none_
      cases none_
    have after : units { s with peek := [] } cps = utf16Text cps := nil_append _
    rw [after, units]
    exact Gets.units _ _ bare (not_lt.mp fits) supplied.peekText

end ProvenC.Stream.Characters

import ProvenC.Url.Decoding
import ProvenC.Url.Splitting
import ProvenC.Text.Conversion

/-!
# Form data

Pairs are appended to form data and read back by walking it as a query. Every byte that means
something to the walk or to the decoder is escaped when it is written.
-/

namespace ProvenC.Url.FormData

open List Bytes Lib.Cells Url.Path Url.Decoding Url.Splitting Text.Utf Text.Conversion

def ampersand : Byte := byteOf '&'.toNat

def equals : Byte := byteOf '='.toNat

/-- `proven_url_query_next`: a name, a value, and what is left; each round takes a byte at least. -/
def urlQueryNext : Nat → List Byte → Option (List Byte × List Byte × List Byte)
  | 0, _ => none
  | left + 1, rest =>
    if rest = [] then none
    else
      let pair := rest.takeWhile (· ≠ ampersand)
      let rest := (rest.dropWhile (· ≠ ampersand)).drop 1
      if pair = [] then urlQueryNext left rest
      else some (pair.takeWhile (· ≠ equals), (pair.dropWhile (· ≠ equals)).drop 1, rest)

/-- The pairs `proven_url_query_next` gives until there are no more. -/
def queryWalk : Nat → List Byte → List (List Byte × List Byte)
  | 0, _ => []
  | left + 1, rest =>
    match urlQueryNext rest.length rest with
    | none => []
    | some (name, value, rest) => (name, value) :: queryWalk left rest

def urlEncodedSizeMax (n : Nat) : Nat := if (sizeEnd - 1) / 3 < n then sizeEnd - 1 else n * 3

inductive UrlKeep where
  | component
  | path
  | form
  deriving DecidableEq

def urlUnreserved (c : Byte) : Bool :=
  urlIsAlpha c || urlIsDigit c || c = byteOf '-'.toNat || c = dot || c = byteOf '_'.toNat || c = byteOf '~'.toNat

def upperHex (digit : Nat) : Byte := (ascii "0123456789ABCDEF").getD digit 0

/-- The loop of `url_encode`: what it answers, and the memory. -/
def encodeLoop (keep : UrlKeep) : List Byte → Nat → List Byte → Except ProvenErr Nat × List Byte
  | [], w, out => (.ok w, out)
  | c :: rest, w, out =>
    let plain := urlUnreserved c || (keep = .path && c = slash)
    if plain || (keep = .form && c = space) then
      if out.length ≤ w then (.error .outOfBounds, out)
      else encodeLoop keep rest (w + 1) (putAt out w [if plain then c else plusSign])
    else if out.length - w < 3 then (.error .outOfBounds, out)
    else encodeLoop keep rest (w + 3) (putAt out w [percent, upperHex (c.val >>> 4), upperHex (c.val &&& 0xf)])

def urlEncode (input out : List Byte) (keep : UrlKeep) : Except ProvenErr Nat × List Byte :=
  if urlEncodedSizeMax input.length = sizeEnd - 1 then (.error .overflow, out) else encodeLoop keep input 0 out

/-- What `proven_url_form_append` answers, with `*len` and the memory. -/
structure Appended where
  err : Option ProvenErr
  len : Nat
  out : List Byte
  deriving DecidableEq

def urlFormAppend (out : List Byte) (len : Nat) (name value : List Byte) : Appended :=
  if out.length < len then { err := some .invalidArg, len := len, out := out }
  else if 0 < len ∧ out.length ≤ len then { err := some .outOfBounds, len := len, out := out }
  else
    let begun := if 0 < len then putAt out len [ampersand] else out
    let start := if 0 < len then len + 1 else len
    match urlEncode name (begun.drop start) .form with
    | (.error err, region) => { err := some err, len := len, out := begun.take start ++ region }
    | (.ok n, region) =>
      let named := begun.take start ++ region
      if named.length ≤ start + n then { err := some .outOfBounds, len := len, out := named }
      else
        let named := putAt named (start + n) [equals]
        match urlEncode value (named.drop (start + n + 1)) .form with
        | (.error err, region) => { err := some err, len := len, out := named.take (start + n + 1) ++ region }
        | (.ok m, region) => { err := none, len := start + n + 1 + m, out := named.take (start + n + 1) ++ region }

def appendAll : List (List Byte × List Byte) → Appended → Appended
  | [], st => st
  | (name, value) :: pairs, st =>
    let next := urlFormAppend st.out st.len name value
    if next.err.isSome then next else appendAll pairs next

def codeOf (c : Byte) : List Byte :=
  if urlUnreserved c then [c] else if c = space then [plusSign]
  else [percent, upperHex (c.val >>> 4), upperHex (c.val &&& 0xf)]

def coded (bytes : List Byte) : List Byte := bytes.flatMap codeOf

def pairText (pair : List Byte × List Byte) : List Byte := coded pair.1 ++ equals :: coded pair.2

def formData : List (List Byte × List Byte) → List Byte
  | [] => []
  | pair :: later => pairText pair ++ later.flatMap fun pair => ampersand :: pairText pair

theorem code_cases : ∀ c : Byte, codeOf c = [c] ∧ c ≠ percent ∧ c ≠ plusSign ∨ codeOf c = [plusSign] ∧ c = space ∨
    ∃ a b, codeOf c = [percent, a, b] ∧ urlHex a = some (c.val / 16) ∧ urlHex b = some (c.val % 16) := by
  have known : ∀ c : Byte, codeOf c = [c] ∧ c ≠ percent ∧ c ≠ plusSign ∨ codeOf c = [plusSign] ∧ c = space ∨
      codeOf c = [percent, upperHex (c.val >>> 4), upperHex (c.val &&& 0xf)] ∧
        urlHex (upperHex (c.val >>> 4)) = some (c.val / 16) ∧ urlHex (upperHex (c.val &&& 0xf)) = some (c.val % 16) := by
    decide +kernel
  intro c
  rcases known c with plain | plus | escaped
  · exact .inl plain
  · exact .inr (.inl plus)
  · exact .inr (.inr ⟨_, _, escaped⟩)

theorem code_clean : ∀ c : Byte, ∀ d ∈ codeOf c, d ≠ ampersand ∧ d ≠ equals := by
  have clean : ∀ c : Byte, (codeOf c).all fun d => d.val != 38 && d.val != 61 := by decide +kernel
  intro c d among
  have kept := all_eq_true.mp (clean c) d among
  rw [Bool.and_eq_true, bne_iff_ne, bne_iff_ne] at kept
  exact ⟨fun same => kept.1 (same ▸ rfl), fun same => kept.2 (same ▸ rfl)⟩

theorem coded_clean {bytes : List Byte} {d : Byte} (among : d ∈ coded bytes) : d ≠ ampersand ∧ d ≠ equals := by
  obtain ⟨c, -, inside⟩ := mem_flatMap.mp among
  exact code_clean c d inside

theorem coded_length (bytes : List Byte) : (coded bytes).length ≤ 3 * bytes.length := by
  induction bytes with
  | nil => exact Nat.zero_le _
  | cons c bytes ih =>
    have here : (codeOf c).length ≤ 3 := by
      unfold codeOf
      split_ifs <;> simp
    unfold coded at ih ⊢
    rw [flatMap_cons, length_append, length_cons]
    omega

theorem coded_units (bytes : List Byte) : (decodedUnits (coded bytes)).bind (accepted (formByte true)) = some bytes := by
  induction bytes with
  | nil => rfl
  | cons c bytes ih =>
    obtain ⟨units, found, taken⟩ := Option.bind_eq_some_iff.mp ih
    unfold coded at found ⊢
    rw [flatMap_cons]
    rcases code_cases c with ⟨code, plain, notPlus⟩ | ⟨code, rfl⟩ | ⟨a, b, code, high, low⟩
    · rw [code, singleton_append, decoded_units_plain plain, found, Option.map_some, Option.bind_some, accepted, formByte,
        if_neg (fun wrong => notPlus wrong.2.1), Option.bind_some, taken]
      rfl
    · rw [code, singleton_append, decoded_units_plain (by decide), found, Option.map_some, Option.bind_some, accepted,
        formByte, if_pos (by decide), Option.bind_some, taken]
      rfl
    rw [code, cons_append, decoded_units_escape]
    dsimp only [cons_append, nil_append]
    rw [high, low]
    dsimp only
    rw [found, Option.map_some, Option.bind_some, accepted, formByte, if_neg (fun wrong => wrong.1 rfl), Option.bind_some,
      taken, Nat.div_add_mod', byte_of_val_eq]
    rfl

def DecodesTo (text bytes : List Byte) : Prop :=
  ∀ (source : Source) (cells : Memory) (outSize : Nat), Reads source cells text →
    urlDecode source text.length outSize true cells =
      if outSize < bytes.length then .error .outOfBounds else .ok (bytes.length, storedAll cells 0 bytes)

theorem coded_decodes (bytes : List Byte) : DecodesTo (coded bytes) bytes := by
  intro source cells outSize reads
  have looped := @decode_loop_some source cells (coded bytes) outSize (formByte true) reads (coded bytes).length
    { i := 0, w := 0, cells := cells } bytes (by omega) (Nat.zero_le _) (le_refl 0) (Nat.zero_le _) (fun _ _ => rfl) (coded_units bytes)
  rw [zero_add] at looped
  unfold urlDecode
  rw [looped]
  by_cases full : outSize < bytes.length
  · rw [if_pos full, if_pos full]
  · rw [if_neg full, if_neg full]

theorem take_while_before {p : Byte → Bool} {front : List Byte} (all_ : ∀ c ∈ front, p c = true) (back : List Byte)
    (stops : ∀ c ∈ back.head?, p c = false) : (front ++ back).takeWhile p = front ∧ (front ++ back).dropWhile p = back := by
  rw [takeWhile_append_of_pos all_, dropWhile_append_of_pos all_]
  cases back with
  | nil => exact ⟨append_nil _, rfl⟩
  | cons c back =>
    have stop := stops c rfl
    rw [takeWhile_cons_of_neg (by rw [stop]; exact nofun), dropWhile_cons_of_neg (by rw [stop]; exact nofun)]
    exact ⟨append_nil _, rfl⟩

theorem next_pair (pair : List Byte × List Byte) (later : List (List Byte × List Byte)) {left : Nat} (some_ : 0 < left) :
    urlQueryNext left (formData (pair :: later)) = some (coded pair.1, coded pair.2, formData later) := by
  have marked : ∀ c ∈ pairText pair, decide (c ≠ ampersand) = true := by
    intro c among
    rw [decide_eq_true_eq]
    rcases mem_append.mp among with name | value
    · exact (coded_clean name).1
    rcases mem_cons.mp value with rfl | value
    · decide
    · exact (coded_clean value).1
  have cut := take_while_before marked (later.flatMap fun pair => ampersand :: pairText pair) (by
    cases later with
    | nil => exact nofun
    | cons next later =>
      intro c first
      cases first
      decide)
  have named := @take_while_before (fun c => decide (c ≠ equals)) (coded pair.1)
    (fun c among => by rw [decide_eq_true_eq]; exact (coded_clean among).2) (equals :: coded pair.2) (by
      intro c first
      cases first
      decide)
  have some_pair : pairText pair ≠ [] := append_ne_nil_of_right_ne_nil _ (cons_ne_nil _ _)
  have rest : (later.flatMap fun pair => ampersand :: pairText pair).drop 1 = formData later := by
    cases later with
    | nil | cons => rfl
  cases left with
  | zero => omega
  | succ left =>
    rw [urlQueryNext, formData, if_neg (append_ne_nil_of_left_ne_nil some_pair _)]
    rw [cut.1, cut.2, if_neg some_pair, rest]
    unfold pairText
    rw [named.1, named.2]
    rfl

theorem walk_back (pairs : List (List Byte × List Byte)) : ∀ left, pairs.length < left →
    queryWalk left (formData pairs) = pairs.map fun pair => (coded pair.1, coded pair.2) := by
  induction pairs with
  | nil =>
    intro left enough
    cases left with
    | zero => rfl
    | succ left => rfl
  | cons pair later ih =>
    intro left enough
    cases left with
    | zero => omega
    | succ left =>
      have long : 0 < (formData (pair :: later)).length := by
        rw [formData, pairText, length_append, length_append, length_cons]
        omega
      rw [queryWalk, next_pair pair later long]
      dsimp only
      rw [length_cons] at enough
      rw [ih left (by omega)]
      rfl

def Encodable (bytes : List Byte) : Prop := urlEncodedSizeMax bytes.length ≠ sizeEnd - 1

theorem encode_loop_form (input : List Byte) : ∀ {w : Nat} {out : List Byte}, w ≤ out.length →
    (w + (coded input).length ≤ out.length →
      encodeLoop .form input w out = (.ok (w + (coded input).length), putAt out w (coded input))) ∧
    (out.length < w + (coded input).length →
      ∃ out', encodeLoop .form input w out = (.error .outOfBounds, out') ∧ out'.length = out.length) := by
  induction input with
  | nil =>
    intro w out within
    refine ⟨fun _ => ?_, fun full => absurd within (not_le.mpr full)⟩
    rw [encodeLoop, coded, flatMap_nil, putAt, length_nil, append_nil, add_zero, take_append_drop]
  | cons c rest ih =>
    intro w out within
    have length : (coded (c :: rest)).length = (codeOf c).length + (coded rest).length := by
      unfold coded
      rw [flatMap_cons, length_append]
    have turn : encodeLoop .form (c :: rest) w out =
        if out.length - w < (codeOf c).length then (.error .outOfBounds, out)
        else encodeLoop .form rest (w + (codeOf c).length) (putAt out w (codeOf c)) := by
      rw [encodeLoop]
      unfold codeOf
      by_cases plain : urlUnreserved c = true
      · simp only [plain, Bool.true_or, if_true, length_singleton]
        by_cases full : out.length ≤ w
        · rw [if_pos full, if_pos (by omega)]
        · rw [if_neg full, if_neg (by omega)]
      rw [Bool.not_eq_true] at plain
      by_cases isSpace : c = space
      · subst isSpace
        simp only [plain, reduceCtorEq, decide_false, decide_true, Bool.false_and, Bool.or_false, Bool.and_true,
          Bool.false_or, if_true, Bool.false_eq_true, if_false, length_singleton]
        by_cases full : out.length ≤ w
        · rw [if_pos full, if_pos (by omega)]
        · rw [if_neg full, if_neg (by omega)]
      · simp [plain, isSpace]
    rw [turn, length]
    by_cases full : out.length - w < (codeOf c).length
    · rw [if_pos full]
      exact ⟨fun room => by omega, fun _ => ⟨out, rfl, rfl⟩⟩
    rw [if_neg full]
    have fits : w + (codeOf c).length ≤ out.length := by omega
    have same := put_at_length fits
    obtain ⟨goes, stops⟩ := @ih (w + (codeOf c).length) (putAt out w (codeOf c)) (by rw [same]; exact fits)
    rw [same] at goes stops
    refine ⟨fun room => ?_, fun beyond => stops (by omega)⟩
    rw [goes (by omega), put_at_append fits, add_assoc]
    rfl

/-- Encoding into the memory from a place on. -/
theorem encode_region (input : List Byte) {out : List Byte} {place : Nat} (within : place ≤ out.length) :
    (Encodable input ∧ place + (coded input).length ≤ out.length → ∃ region,
      urlEncode input (out.drop place) .form = (.ok (coded input).length, region) ∧
        out.take place ++ region = putAt out place (coded input)) ∧
    (¬ (Encodable input ∧ place + (coded input).length ≤ out.length) → ∃ err region,
      urlEncode input (out.drop place) .form = (.error err, region) ∧ (out.take place ++ region).length = out.length) := by
  have left : (out.drop place).length = out.length - place := length_drop
  obtain ⟨goes, stops⟩ := @encode_loop_form input 0 (out.drop place) (Nat.zero_le _)
  rw [zero_add, left] at goes stops
  unfold urlEncode
  refine ⟨fun ⟨encodable, room⟩ => ?_, fun refused => ?_⟩
  · rw [if_neg encodable, goes (by omega)]
    refine ⟨_, rfl, ?_⟩
    rw [put_at_start, drop_drop, putAt, append_assoc]
  by_cases encodable : Encodable input
  · have beyond : ¬ place + (coded input).length ≤ out.length := fun room => refused ⟨encodable, room⟩
    obtain ⟨region, stopped, long⟩ := stops (by omega)
    rw [if_neg encodable, stopped]
    refine ⟨_, region, rfl, ?_⟩
    rw [length_append, length_take, long, min_eq_left within]
    exact Nat.add_sub_of_le within
  rw [if_pos (not_not.mp encodable)]
  exact ⟨_, _, rfl, by rw [take_append_drop]⟩

theorem put_at_kept {out items : List Byte} {place len : Nat} (before : len ≤ place) (within : place ≤ out.length) :
    (putAt out place items).take len = out.take len := by
  unfold putAt
  rw [append_assoc, take_append_of_le_length (by rw [length_take]; omega), take_take, min_eq_left before]

theorem begun_kept {out region : List Byte} {place len : Nat} (before : len ≤ place) (within : place ≤ out.length) :
    (out.take place ++ region).take len = out.take len := by
  rw [take_append_of_le_length (by rw [length_take]; omega), take_take, min_eq_left before]

def added (len : Nat) (pair : List Byte × List Byte) : List Byte := (if 0 < len then [ampersand] else []) ++ pairText pair

structure AppendExact (out : List Byte) (len : Nat) (pair : List Byte × List Byte) (st : Appended) : Prop where
  appended : Encodable pair.1 → Encodable pair.2 → len + (added len pair).length ≤ out.length →
    st = { err := none, len := len + (added len pair).length, out := putAt out len (added len pair) }
  refused : ¬ (Encodable pair.1 ∧ Encodable pair.2 ∧ len + (added len pair).length ≤ out.length) →
    st.err.isSome ∧ st.len = len ∧ st.out.take len = out.take len ∧ st.out.length = out.length

theorem form_append_exact (out : List Byte) (len : Nat) (name value : List Byte) (within : len ≤ out.length) :
    AppendExact out len (name, value) (urlFormAppend out len name value) := by
  have total : ∀ start, start = (if 0 < len then len + 1 else len) →
      len + (added len (name, value)).length = start + (coded name).length + 1 + (coded value).length := by
    intro start starts
    unfold added pairText
    rw [starts, length_append, length_append, length_cons]
    by_cases some_ : 0 < len
    · rw [if_pos some_, if_pos some_, length_singleton]
      dsimp only
      omega
    rw [if_neg some_, if_neg some_, length_nil]
    dsimp only
    omega
  unfold urlFormAppend
  rw [if_neg (by omega)]
  by_cases full : 0 < len ∧ out.length ≤ len
  · rw [if_pos full]
    have sum := total _ rfl
    rw [if_pos full.1] at sum
    exact ⟨fun _ _ room => by omega, fun _ => ⟨rfl, rfl, rfl, rfl⟩⟩
  rw [if_neg full]
  generalize begins : (if 0 < len then putAt out len [ampersand] else out) = begun
  generalize starts : (if 0 < len then len + 1 else len) = start
  have sum := total start starts.symm
  have opened : start ≤ out.length ∧ len ≤ start ∧ begun.length = out.length ∧ begun.take len = out.take len ∧
      ∀ items, putAt begun start items = putAt out len ((if 0 < len then [ampersand] else []) ++ items) := by
    by_cases some_ : 0 < len
    · rw [if_pos some_] at begins starts
      have room : len + [ampersand].length ≤ out.length := by
        rw [length_singleton]
        omega
      subst begins starts
      refine ⟨room, Nat.le_succ _, put_at_length room, put_at_kept (le_refl _) within, fun items => ?_⟩
      rw [if_pos some_]
      exact put_at_append room
    rw [if_neg some_] at begins starts
    subst begins starts
    exact ⟨within, le_refl _, rfl, rfl, fun items => by rw [if_neg some_]; rfl⟩
  obtain ⟨inside, after, sameLength, kept, puts⟩ := opened
  dsimp only
  obtain ⟨named, notNamed⟩ := @encode_region name begun start (by omega)
  rw [sameLength] at named notNamed
  by_cases nameFits : Encodable name ∧ start + (coded name).length ≤ out.length
  · obtain ⟨region, wrote, joined⟩ := named nameFits
    rw [wrote]
    dsimp only
    rw [joined]
    have namedLength : (putAt begun start (coded name)).length = out.length := by
      rw [put_at_length (by omega), sameLength]
    rw [namedLength]
    by_cases last : out.length ≤ start + (coded name).length
    · rw [if_pos last]
      refine ⟨fun _ _ room => by omega, fun _ => ⟨rfl, rfl, ?_, namedLength⟩⟩
      rw [← kept]
      exact put_at_kept after (by omega)
    rw [if_neg last]
    have nameRoom : start + (coded name).length ≤ begun.length := by omega
    have both : putAt (putAt begun start (coded name)) (start + (coded name).length) [equals] =
        putAt begun start (coded name ++ [equals]) := put_at_append nameRoom
    rw [both]
    have marked : start + (coded name ++ [equals]).length ≤ begun.length := by
      rw [length_append, length_singleton]
      omega
    have markedLength := put_at_length marked
    have place : start + (coded name).length + 1 = start + (coded name ++ [equals]).length := by
      rw [length_append, length_singleton, add_assoc]
    obtain ⟨valued, notValued⟩ := @encode_region value (putAt begun start (coded name ++ [equals]))
      (start + (coded name).length + 1) (by rw [markedLength]; omega)
    rw [markedLength, sameLength] at valued notValued
    by_cases valueFits : Encodable value ∧ start + (coded name).length + 1 + (coded value).length ≤ out.length
    · obtain ⟨region', wrote', joined'⟩ := valued valueFits
      rw [wrote']
      dsimp only
      refine ⟨fun _ _ _ => ?_, fun refused => absurd ⟨nameFits.1, valueFits.1, by omega⟩ refused⟩
      have text : added len (name, value) = (if 0 < len then [ampersand] else []) ++ (coded name ++ [equals] ++ coded value) := by
        rw [added, pairText, append_assoc (coded name)]
        rfl
      rw [joined', sum, place, put_at_append marked, puts, text]
    obtain ⟨err, region', wrote', long⟩ := notValued valueFits
    rw [wrote']
    refine ⟨fun _ value room => absurd ⟨value, by omega⟩ valueFits, fun _ => ⟨rfl, rfl, ?_, long⟩⟩
    dsimp only
    rw [begun_kept (by omega) (by rw [markedLength]; omega), ← kept]
    exact put_at_kept after (by omega)
  obtain ⟨err, region, wrote, long⟩ := notNamed nameFits
  rw [wrote]
  refine ⟨fun name _ room => absurd ⟨name, by omega⟩ nameFits, fun _ => ⟨rfl, rfl, ?_, long⟩⟩
  dsimp only
  rw [begun_kept after (by omega), kept]

def Fitting (pairs : List (List Byte × List Byte)) (room : Nat) : Prop :=
  (∀ pair ∈ pairs, Encodable pair.1 ∧ Encodable pair.2) ∧ (formData pairs).length ≤ room

theorem form_data_last (done : List (List Byte × List Byte)) (pair : List Byte × List Byte) :
    formData (done ++ [pair]) = formData done ++ added (formData done).length pair := by
  unfold added
  cases done with
  | nil => exact append_nil _
  | cons first done =>
    have some_ : 0 < (formData (first :: done)).length := by
      rw [formData, pairText, length_append, length_append, length_cons]
      omega
    rw [if_pos some_, cons_append, formData, formData, flatMap_append, append_assoc, flatMap_singleton]
    rfl

theorem append_all (pairs : List (List Byte × List Byte)) : ∀ {done : List (List Byte × List Byte)} {st : Appended},
    st.err = none → st.len = (formData done).length → st.out.take st.len = formData done → st.len ≤ st.out.length →
    ((appendAll pairs st).err = none → (appendAll pairs st).len = (formData (done ++ pairs)).length ∧
      (appendAll pairs st).out.take (appendAll pairs st).len = formData (done ++ pairs)) ∧
    ((∀ pair ∈ pairs, Encodable pair.1 ∧ Encodable pair.2) → (formData (done ++ pairs)).length ≤ st.out.length →
      (appendAll pairs st).err = none) := by
  induction pairs with
  | nil =>
    intro done st fine len text within
    rw [append_nil]
    exact ⟨fun _ => ⟨len, text⟩, fun _ _ => fine⟩
  | cons pair pairs ih =>
    intro done st fine len text within
    obtain ⟨name, value⟩ := pair
    have exact_ := form_append_exact st.out st.len name value within
    have longer := form_data_last done (name, value)
    rw [← len] at longer
    rw [appendAll]
    by_cases fits : Encodable name ∧ Encodable value ∧ st.len + (added st.len (name, value)).length ≤ st.out.length
    · have next := exact_.appended fits.1 fits.2.1 fits.2.2
      rw [next]
      dsimp only [Option.isSome_none]
      rw [if_neg nofun]
      have step := @ih (done ++ [(name, value)]) { err := none, len := st.len + (added st.len (name, value)).length
                                                   out := putAt st.out st.len (added st.len (name, value)) } rfl
        (by rw [longer, length_append, len])
        (by
          unfold putAt
          rw [longer, text, append_assoc, ← append_assoc, len, ← length_append, take_left])
        (by dsimp only; rw [put_at_length fits.2.2]; exact fits.2.2)
      rw [append_assoc, singleton_append] at step
      dsimp only at step
      rw [put_at_length fits.2.2] at step
      exact ⟨step.1, fun encodable room => step.2 (fun other among => encodable other (mem_cons_of_mem _ among)) room⟩
    obtain ⟨failed, -⟩ := exact_.refused fits
    rw [if_pos failed]
    refine ⟨fun wrong => (by rw [wrong] at failed; cases failed), fun encodable room => ?_⟩
    obtain ⟨nameOk, valueOk⟩ := encodable _ mem_cons_self
    have beyond : (formData (done ++ [(name, value)])).length ≤ (formData (done ++ (name, value) :: pairs)).length := by
      cases done with
      | nil => simp [formData]
      | cons first done => simp [formData]
    rw [longer, length_append, ← len] at beyond
    exact absurd ⟨nameOk, valueOk, by omega⟩ fits

def pairMax (pair : List Byte × List Byte) : Nat := urlEncodedSizeMax pair.1.length + urlEncodedSizeMax pair.2.length

theorem coded_max {bytes : List Byte} (encodable : Encodable bytes) :
    (coded bytes).length ≤ urlEncodedSizeMax bytes.length := by
  have length := coded_length bytes
  unfold Encodable urlEncodedSizeMax at *
  split_ifs at * <;> omega

theorem form_data_max (pairs : List (List Byte × List Byte))
    (encodable : ∀ pair ∈ pairs, Encodable pair.1 ∧ Encodable pair.2) :
    (formData pairs).length ≤ (pairs.map pairMax).sum + pairs.length + (pairs.length - 1) := by
  have each : ∀ pair ∈ pairs, (pairText pair).length ≤ pairMax pair + 1 := by
    intro pair among
    have name := coded_max (encodable pair among).1
    have value := coded_max (encodable pair among).2
    rw [pairText, length_append, length_cons, pairMax]
    omega
  have later : ∀ rest : List (List Byte × List Byte), (∀ pair ∈ rest, (pairText pair).length ≤ pairMax pair + 1) →
      (rest.flatMap fun pair => ampersand :: pairText pair).length ≤ (rest.map pairMax).sum + 2 * rest.length := by
    intro rest each
    induction rest with
    | nil => exact Nat.zero_le _
    | cons pair rest ih =>
      obtain ⟨here, others⟩ := forall_mem_cons.mp each
      have tail := ih others
      rw [flatMap_cons, length_append, length_cons, map_cons, List.sum_cons, length_cons]
      omega
  cases pairs with
  | nil => exact Nat.zero_le _
  | cons pair rest =>
    obtain ⟨here, others⟩ := forall_mem_cons.mp each
    have tail := later rest others
    rw [formData, length_append, map_cons, List.sum_cons, length_cons]
    omega

theorem all_encodable (pairs : List (List Byte × List Byte)) : ∀ {st : Appended}, st.len ≤ st.out.length →
    (appendAll pairs st).err = none → st.err = none ∨ pairs ≠ [] → ∀ pair ∈ pairs, Encodable pair.1 ∧ Encodable pair.2 := by
  induction pairs with
  | nil => exact fun _ _ _ _ wrong => absurd wrong not_mem_nil
  | cons pair pairs ih =>
    intro st within fine _
    obtain ⟨name, value⟩ := pair
    have exact_ := form_append_exact st.out st.len name value within
    rw [appendAll] at fine
    by_cases fits : Encodable name ∧ Encodable value ∧ st.len + (added st.len (name, value)).length ≤ st.out.length
    · have next := exact_.appended fits.1 fits.2.1 fits.2.2
      rw [next] at fine
      dsimp only [Option.isSome_none] at fine
      rw [if_neg nofun] at fine
      exact forall_mem_cons.mpr ⟨⟨fits.1, fits.2.1⟩, ih (by dsimp only; rw [put_at_length fits.2.2]; exact fits.2.2) fine (.inl rfl)⟩
    obtain ⟨failed, -⟩ := exact_.refused fits
    rw [if_pos failed] at fine
    rw [fine] at failed
    cases failed

structure FormRoundTrip (pairs : List (List Byte × List Byte)) (out : List Byte) (st : Appended) : Prop where
  enough : (∀ pair ∈ pairs, Encodable pair.1 ∧ Encodable pair.2) → (formData pairs).length ≤ out.length → st.err = none
  back : st.err = none → List.Forall₂ (fun raw pair => DecodesTo raw.1 pair.1 ∧ DecodesTo raw.2 pair.2)
    (queryWalk (st.len + 1) (st.out.take st.len)) pairs
  small : st.err = none → st.len ≤ (pairs.map pairMax).sum + pairs.length + (pairs.length - 1)

theorem form_round_trip (pairs : List (List Byte × List Byte)) (out : List Byte) :
    FormRoundTrip pairs out (appendAll pairs { err := none, len := 0, out := out }) := by
  obtain ⟨ends, goes⟩ := @append_all pairs [] { err := none, len := 0, out := out } rfl rfl rfl (Nat.zero_le _)
  rw [nil_append] at ends goes
  refine ⟨goes, fun fine => ?_, fun fine => ?_⟩
  · obtain ⟨len, text⟩ := ends fine
    have many : pairs.length ≤ (formData pairs).length := by
      cases pairs with
      | nil => exact Nat.zero_le _
      | cons pair later =>
        have tail : later.length ≤ (later.flatMap fun pair => ampersand :: pairText pair).length := by
          clear ends goes fine len text
          induction later with
          | nil => exact Nat.zero_le _
          | cons next later ih =>
            rw [flatMap_cons, length_append, length_cons, length_cons]
            omega
        rw [formData, pairText, length_append, length_append, length_cons, length_cons]
        omega
    rw [text, len, walk_back pairs _ (Nat.lt_succ_of_le many), List.forall₂_map_left_iff, List.forall₂_same]
    exact fun pair _ => ⟨coded_decodes pair.1, coded_decodes pair.2⟩
  rw [(ends fine).1]
  exact form_data_max pairs (all_encodable pairs (Nat.zero_le _) fine (Or.inl rfl))

/-- A refused pair leaves the length and what was before it; decoding reads its own memory as any other. -/
structure FormExact (pairs : List (List Byte × List Byte)) (out : List Byte) (len : Nat) (name value : List Byte)
    (cells other : Memory) (n outSize : Nat) (plusIsSpace : Bool) : Prop where
  trip : FormRoundTrip pairs out (appendAll pairs { err := none, len := 0, out := out })
  refused : (urlFormAppend out len name value).err ≠ none →
    (urlFormAppend out len name value).len = len ∧ (urlFormAppend out len name value).out.take len = out.take len
  inPlace : (urlDecode inPlace n outSize plusIsSpace cells).map (fun done => range done.2 0 done.1) =
    (urlDecode (apartFrom (range cells 0 n)) n outSize plusIsSpace other).map fun done => range done.2 0 done.1

theorem form_data_exact (pairs : List (List Byte × List Byte)) (out : List Byte) (len : Nat) (name value : List Byte)
    (cells other : Memory) (n outSize : Nat) (plusIsSpace : Bool) :
    FormExact pairs out len name value cells other n outSize plusIsSpace where
  trip := form_round_trip pairs out
  refused := by
    intro failed
    by_cases within : len ≤ out.length
    · have exact_ := form_append_exact out len name value within
      by_cases fits : Encodable name ∧ Encodable value ∧ len + (added len (name, value)).length ≤ out.length
      · rw [exact_.appended fits.1 fits.2.1 fits.2.2] at failed
        exact absurd rfl failed
      obtain ⟨-, same, kept, -⟩ := exact_.refused fits
      exact ⟨same, kept⟩
    unfold urlFormAppend
    rw [if_pos (not_le.mp within)]
    exact ⟨rfl, rfl⟩
  inPlace := by
    have agree := decode_loops_agree outSize (formByte plusIsSpace) (in_place_reads cells n) (apart_reads (range cells 0 n) other)
      n 0 0 cells other (le_refl 0) (fun _ _ => rfl) (fun _ _ => rfl) rfl
    rw [range_length] at agree
    unfold urlDecode
    cases one : decodeLoop inPlace n outSize (formByte plusIsSpace) n { i := 0, w := 0, cells := cells } with
    | error err =>
      cases two : decodeLoop (apartFrom (range cells 0 n)) n outSize (formByte plusIsSpace) n { i := 0, w := 0, cells := other } with
      | error err' => rw [one, two] at agree; exact agree
      | ok st' => rw [one, two] at agree; cases agree
    | ok st =>
      cases two : decodeLoop (apartFrom (range cells 0 n)) n outSize (formByte plusIsSpace) n { i := 0, w := 0, cells := other } with
      | error err' => rw [one, two] at agree; cases agree
      | ok st' => rw [one, two] at agree; exact agree

end ProvenC.Url.FormData

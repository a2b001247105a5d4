import ProvenC.Http.Body

/-!
# The framing of a request

Where the body that follows a request head ends is decided from the head's fields alone.
-/

namespace ProvenC.Http.Framing

open List Bytes Http.Head Http.Body

def named (name : List Byte) (header : HttpHeader) : Bool := eqAsciiCi header.name name

def httpHeaderFind (headers : List HttpHeader) (name : List Byte) : Option (List Byte) :=
  (headers.find? (named name)).map HttpHeader.value

def httpHeaderCount (headers : List HttpHeader) (name : List Byte) : Nat := headers.countP (named name)

def comma : Byte := 44

def trimOws (text : List Byte) : List Byte := trimEnd (text.dropWhile httpIsOws)

/-- `http_list_next`: the next element of a comma-separated list without the whitespace around
it, and what is left of the list. -/
def httpListNext (rest : List Byte) : Option (List Byte × List Byte) :=
  match rest with
  | [] => none
  | _ :: _ => some (trimOws (rest.takeWhile (· != comma)), (rest.dropWhile (· != comma)).drop 1)

/-- The elements a walk with `http_list_next` visits; no list has more than it has bytes. -/
def httpListFrom : Nat → List Byte → List (List Byte)
  | 0, _ => []
  | fuel + 1, rest =>
    match httpListNext rest with
    | none => []
    | some (item, rest) => item :: httpListFrom fuel rest

def httpListItems (value : List Byte) : List (List Byte) := httpListFrom value.length value

def teName : List Byte := ascii "Transfer-Encoding"

def clName : List Byte := ascii "Content-Length"

def chunkedName : List Byte := ascii "chunked"

/-- One element of a Transfer-Encoding list; the state is how many codings there were and
whether all of them were plainly chunked. -/
def codingStep (state : Nat × Bool) (item : List Byte) : Except ProvenErr (Nat × Bool) :=
  if item = [] then .ok state
  else
    let t := (item.takeWhile httpIsTchar).length
    if t = 0 then .error .invalidFormat
    else .ok (state.1 + 1, state.2 && t == item.length && eqAsciiCi item chunkedName)

def teItems (headers : List HttpHeader) : List (List Byte) :=
  (headers.filter (named teName)).flatMap fun header => httpListItems header.value

/-- The digits of a Content-Length value after those read into `n`. -/
def lengthDigits : Nat → List Byte → Except ProvenErr Nat
  | n, [] => .ok n
  | n, d :: rest =>
    if !isDigit d then .error .invalidFormat
    else
      let digit := d.val - 48
      if (2 ^ 64 - 1 - digit) / 10 < n then .error .invalidFormat
      else lengthDigits (n * 10 + digit) rest

/-- `http_framing_headers`: none where no field frames the body. -/
def httpFramingHeaders (headers : List HttpHeader) (minor : Nat) : Except ProvenErr (Option HttpFraming) :=
  let te := httpHeaderCount headers teName
  let cl := httpHeaderCount headers clName
  -- Both say different things about where the body ends.
  if 0 < te ∧ 0 < cl then .error .invalidFormat
  else if 0 < te then
    -- HTTP/1.0 has no transfer codings.
    if minor = 0 then .error .invalidFormat
    else
      match (teItems headers).foldlM codingStep (0, true) with
      | .error fault => .error fault
      | .ok (codings, onlyChunked) =>
        if codings = 0 then .error .invalidFormat
        else if codings ≠ 1 ∨ onlyChunked = false then .error .unsupported
        else .ok (some ⟨.chunked, 0⟩)
  else if 0 < cl then
    -- One field: two are refused even when they agree.
    if cl ≠ 1 then .error .invalidFormat
    else
      match (httpHeaderFind headers clName).getD [] with
      | [] => .error .invalidFormat
      | d :: rest => (lengthDigits 0 (d :: rest)).map fun n => some ⟨.length, n⟩
  else .ok none

def httpRequestFraming (request : HttpRequest) : Except ProvenErr HttpFraming :=
  (httpFramingHeaders request.headers request.versionMinor).map fun framing => framing.getD ⟨.none, 0⟩

def fieldValues (headers : List HttpHeader) (name : List Byte) : List (List Byte) :=
  (headers.filter (named name)).map HttpHeader.value

def listElements (values : List (List Byte)) : List (List Byte) :=
  (values.flatMap fun value => (value.splitOn comma).map trimOws).filter (· ≠ [])

def decimalValue (digits : List Byte) : Nat := Nat.ofDigits 10 (digits.map fun d => d.val - 48).reverse

structure Denotes (text : List Byte) (n : Nat) : Prop where
  some_ : text ≠ []
  digits : ∀ d ∈ text, isDigit d = true
  value : n = decimalValue text
  fits : n < 2 ^ 64

inductive Meaning (request : HttpRequest) : HttpFraming → Prop
  | none (te : fieldValues request.headers teName = []) (cl : fieldValues request.headers clName = []) :
      Meaning request ⟨.none, 0⟩
  | chunked (coding : List Byte) (cl : fieldValues request.headers clName = [])
      (only : listElements (fieldValues request.headers teName) = [coding])
      (chunked : eqAsciiCi coding chunkedName = true) : Meaning request ⟨.chunked, 0⟩
  | length (n : Nat) (te : fieldValues request.headers teName = [])
      (cl : listElements (fieldValues request.headers clName) ≠ [])
      (same : ∀ text ∈ listElements (fieldValues request.headers clName), Denotes text n) :
      Meaning request ⟨.length, n⟩

/-- The meanings the decision takes: Transfer-Encoding of HTTP/1.1 only, one Content-Length
field that is a number and nothing else. -/
inductive PlainMeaning (request : HttpRequest) : HttpFraming → Prop
  | none (te : fieldValues request.headers teName = []) (cl : fieldValues request.headers clName = []) :
      PlainMeaning request ⟨.none, 0⟩
  | chunked (coding : List Byte) (version : request.versionMinor ≠ 0)
      (cl : fieldValues request.headers clName = [])
      (only : listElements (fieldValues request.headers teName) = [coding])
      (chunked : eqAsciiCi coding chunkedName = true) : PlainMeaning request ⟨.chunked, 0⟩
  | length (n : Nat) (text : List Byte) (te : fieldValues request.headers teName = [])
      (cl : fieldValues request.headers clName = [text]) (number : Denotes text n) :
      PlainMeaning request ⟨.length, n⟩

theorem list_next_splits {rest : List Byte} (some_ : rest ≠ []) :
    httpListNext rest = some (trimOws (rest.takeWhile (· != comma)), (rest.dropWhile (· != comma)).drop 1) := by
  cases rest with
  | nil => exact absurd rfl some_
  | cons d rest => rfl

theorem list_items_elements (fuel : Nat) (rest : List Byte) (enough : rest.length ≤ fuel) :
    (httpListFrom fuel rest).filter (· ≠ []) = ((rest.splitOn comma).map trimOws).filter (· ≠ []) := by
  induction fuel generalizing rest with
  | zero =>
    have empty : rest = [] := eq_nil_of_length_eq_zero (Nat.le_zero.mp enough)
    subst empty
    rw [splitOn_nil]
    rfl
  | succ fuel ih =>
    cases shape : rest with
    | nil =>
      rw [splitOn_nil]
      rfl
    | cons first others =>
      rw [← shape]
      have some_ : rest ≠ [] := by rw [shape]; exact cons_ne_nil _ _
      have whole := takeWhile_append_dropWhile (p := (· != comma)) (l := rest)
      have noComma : ∀ d ∈ rest.takeWhile (· != comma), (d == comma) = false := by
        intro d member
        have kept : (d != comma) = true := mem_takeWhile_imp (p := (· != comma)) member
        simpa using kept
      rw [httpListFrom, list_next_splits some_]
      cases left : rest.dropWhile (· != comma) with
      | nil =>
        rw [left, append_nil] at whole
        have parts : rest.splitOn comma = [rest] :=
          splitOn_eq_singleton_of_beq_eq_false (by rw [← whole]; simpa using noComma)
        rw [parts, whole]
        cases fuel <;> rfl
      | cons d later =>
        have stops : d = comma := by
          have last := List.head?_dropWhile_not (p := (· != comma)) (l := rest)
          rw [left] at last
          simpa using last
        rw [left] at whole
        have parts : rest.splitOn comma = rest.takeWhile (· != comma) :: later.splitOn comma := by
          conv_lhs => rw [← whole]
          exact splitOn_append_cons_of_forall_mem_beq_eq_false noComma d (by simp [stops]) later
        have shorter : later.length ≤ fuel := by
          have sizes := congrArg List.length whole
          simp only [length_append, length_cons] at sizes
          omega
        rw [parts, drop_one, tail_cons, map_cons, filter_cons, filter_cons, ih later shorter]

theorem te_items_elements (headers : List HttpHeader) :
    (teItems headers).filter (· ≠ []) = listElements (fieldValues headers teName) := by
  unfold teItems listElements fieldValues
  rw [filter_flatMap, filter_flatMap, flatMap_map]
  congr 1
  funext header
  exact list_items_elements header.value.length header.value le_rfl

theorem chunked_letters : ∀ d : Byte, toLower d ∈ chunkedName → httpIsTchar d = true := by
  decide +kernel

variable {item : List Byte}

theorem chunked_token (chunked : eqAsciiCi item chunkedName = true) : item ≠ [] ∧ item.takeWhile httpIsTchar = item := by
  have lowered : item.map toLower = chunkedName.map toLower := by simpa [eqAsciiCi] using chunked
  have same : chunkedName.map toLower = chunkedName := by decide
  rw [same] at lowered
  constructor
  · intro empty
    rw [empty] at lowered
    exact absurd lowered (by decide)
  rw [takeWhile_eq_self_iff]
  intro d member
  apply chunked_letters
  rw [← lowered]
  exact mem_map_of_mem member

theorem coding_step_skip (state : Nat × Bool) : codingStep state [] = .ok state := if_pos rfl

theorem coding_step_chunked (state : Nat × Bool) (chunked : eqAsciiCi item chunkedName = true) :
    codingStep state item = .ok (state.1 + 1, state.2) := by
  obtain ⟨some_, token⟩ := chunked_token chunked
  have long : item.length ≠ 0 := fun none_ => some_ (eq_nil_of_length_eq_zero none_)
  unfold codingStep
  rw [if_neg some_, token]
  rw [if_neg long, chunked, beq_self_eq_true, Bool.and_true, Bool.and_true]

theorem coding_step_counts {state after : Nat × Bool} (some_ : item ≠ []) (step : codingStep state item = .ok after) :
    after.1 = state.1 + 1 ∧ (after.2 = true → state.2 = true ∧ eqAsciiCi item chunkedName = true) := by
  unfold codingStep at step
  rw [if_neg some_] at step
  dsimp only at step
  split at step
  · cases step
  rw [Except.ok.injEq] at step
  subst step
  refine ⟨rfl, fun kept => ?_⟩
  simp only [Bool.and_eq_true] at kept
  exact ⟨kept.1.1, kept.2⟩

theorem codings_counted {items : List (List Byte)} {state after : Nat × Bool}
    (walked : items.foldlM codingStep state = .ok after) : after.1 = state.1 + (items.filter (· ≠ [])).length ∧
      (after.2 = true → ∀ item ∈ items.filter (· ≠ []), eqAsciiCi item chunkedName = true) ∧
      (after.2 = true → state.2 = true) := by
  induction items generalizing state with
  | nil =>
    cases walked
    exact ⟨rfl, fun _ item member => absurd member (not_mem_nil), id⟩
  | cons item items ih =>
    rw [foldlM_cons] at walked
    cases step : codingStep state item with
    | error fault =>
      rw [step] at walked
      cases walked
    | ok middle =>
      rw [step] at walked
      obtain ⟨count, chunked, kept⟩ := ih walked
      by_cases empty : item = []
      · rw [empty, coding_step_skip, Except.ok.injEq] at step
        subst step
        rw [filter_cons_of_neg (by simp [empty])]
        exact ⟨count, chunked, kept⟩
      obtain ⟨more, plain⟩ := coding_step_counts empty step
      rw [filter_cons_of_pos (by simp [empty])]
      refine ⟨?_, ?_, fun flag => (plain (kept flag)).1⟩
      · rw [count, more, length_cons]
        omega
      intro flag other member
      rcases mem_cons.mp member with same | later
      · rw [same]
        exact (plain (kept flag)).2
      · exact chunked flag other later

theorem codings_walked {items : List (List Byte)} (state : Nat × Bool)
    (chunked : ∀ item ∈ items.filter (· ≠ []), eqAsciiCi item chunkedName = true) :
    items.foldlM codingStep state = .ok (state.1 + (items.filter (· ≠ [])).length, state.2) := by
  induction items generalizing state with
  | nil => rfl
  | cons item items ih =>
    rw [foldlM_cons]
    by_cases empty : item = []
    · rw [filter_cons_of_neg (by simp [empty])] at chunked ⊢
      rw [empty, coding_step_skip]
      exact ih state chunked
    rw [filter_cons_of_pos (by simp [empty])] at chunked ⊢
    rw [coding_step_chunked state (chunked item (mem_cons_self ..))]
    have later := ih (state.1 + 1, state.2) fun other member => chunked other (mem_cons_of_mem _ member)
    change items.foldlM codingStep (state.1 + 1, state.2) = _
    rw [later, length_cons]
    congr 2
    omega

theorem decimal_value_cons (d : Byte) (rest : List Byte) :
    decimalValue (d :: rest) = (d.val - 48) * 10 ^ rest.length + decimalValue rest := by
  unfold decimalValue
  rw [map_cons, reverse_cons, Nat.ofDigits_append, Nat.ofDigits_singleton, length_reverse, length_map, mul_comm, add_comm]

theorem length_digits_value (text : List Byte) (n value : Nat) (small : n < 2 ^ 64) : lengthDigits n text = .ok value ↔
      (∀ d ∈ text, isDigit d = true) ∧ value = n * 10 ^ text.length + decimalValue text ∧ value < 2 ^ 64 := by
  induction text generalizing n with
  | nil =>
    rw [lengthDigits, Except.ok.injEq]
    have nothing : decimalValue [] = 0 := rfl
    simp only [not_mem_nil, false_implies, implies_true, true_and, length_nil, pow_zero, mul_one, nothing, add_zero]
    constructor
    · intro same
      exact ⟨same.symm, same ▸ small⟩
    · exact fun facts => facts.1.symm
  | cons d rest ih =>
    rw [lengthDigits, decimal_value_cons, length_cons]
    by_cases digit : isDigit d = true
    · have nine : d.val - 48 ≤ 9 := by
        simp only [isDigit, Bool.and_eq_true, decide_eq_true_eq] at digit
        omega
      rw [digit, Bool.not_true, if_neg Bool.false_ne_true]
      have shifted : (n * 10 + (d.val - 48)) * 10 ^ rest.length + decimalValue rest =
          n * 10 ^ (rest.length + 1) + ((d.val - 48) * 10 ^ rest.length + decimalValue rest) := by
        rw [pow_succ]
        ring
      by_cases large : (2 ^ 64 - 1 - (d.val - 48)) / 10 < n
      · rw [if_pos large]
        apply iff_of_false nofun
        rintro ⟨_, value, fits⟩
        have beyond : 2 ^ 64 ≤ n * 10 + (d.val - 48) := by omega
        have scaled : n * 10 + (d.val - 48) ≤ (n * 10 + (d.val - 48)) * 10 ^ rest.length :=
          Nat.le_mul_of_pos_right _ (by positivity)
        omega
      rw [if_neg large, ih (n * 10 + (d.val - 48)) (by omega), shifted]
      simp only [forall_mem_cons, digit, true_and]
    rw [Bool.not_eq_true] at digit
    rw [digit, Bool.not_false, if_pos rfl]
    apply iff_of_false nofun
    rintro ⟨digits, _⟩
    rw [digits d (mem_cons_self ..)] at digit
    cases digit

theorem length_denotes {text : List Byte} (some_ : text ≠ []) (value : Nat) :
    lengthDigits 0 text = .ok value ↔ Denotes text value := by
  rw [length_digits_value text 0 value (by decide), zero_mul, zero_add]
  exact ⟨fun facts => ⟨some_, facts.1, facts.2.1, facts.2.2⟩, fun number => ⟨number.digits, number.value, number.fits⟩⟩

theorem header_count_values (headers : List HttpHeader) (name : List Byte) :
    httpHeaderCount headers name = (fieldValues headers name).length := by
  rw [httpHeaderCount, fieldValues, length_map, countP_eq_length_filter]

theorem header_find_values (headers : List HttpHeader) (name : List Byte) :
    httpHeaderFind headers name = (fieldValues headers name).head? := by
  rw [httpHeaderFind, fieldValues, List.head?_map, List.head?_filter]

theorem values_pos {values : List (List Byte)} : 0 < values.length ↔ values ≠ [] :=
  length_pos_iff

theorem framing_chunked {headers : List HttpHeader} {minor : Nat} (framing : Option HttpFraming)
    (te : fieldValues headers teName ≠ []) (cl : fieldValues headers clName = []) :
    httpFramingHeaders headers minor = .ok framing ↔ framing = some ⟨.chunked, 0⟩ ∧ minor ≠ 0 ∧
        ∃ coding, listElements (fieldValues headers teName) = [coding] ∧ eqAsciiCi coding chunkedName = true := by
  unfold httpFramingHeaders
  rw [header_count_values, header_count_values, cl]
  have tePos : 0 < (fieldValues headers teName).length := values_pos.mpr te
  rw [if_neg (by simp), if_pos tePos]
  by_cases old : minor = 0
  · rw [if_pos old]
    exact iff_of_false nofun fun facts => facts.2.1 old
  rw [if_neg old, ← te_items_elements]
  constructor
  · intro accepted
    cases walked : (teItems headers).foldlM codingStep (0, true) with
    | error fault =>
      rw [walked] at accepted
      cases accepted
    | ok after =>
      obtain ⟨codings, onlyChunked⟩ := after
      obtain ⟨count, chunked, _⟩ := codings_counted walked
      rw [walked] at accepted
      dsimp only at accepted count chunked
      split_ifs at accepted with none_ bad
      rw [not_or, not_not, Bool.not_eq_false] at bad
      rw [bad.1, zero_add] at count
      obtain ⟨coding, single⟩ := length_eq_one_iff.mp count.symm
      refine ⟨(Except.ok.inj accepted).symm, old, coding, single, ?_⟩
      exact chunked bad.2 coding (by rw [single]; exact mem_singleton_self _)
  rintro ⟨rfl, _, coding, single, chunked⟩
  have walked := @codings_walked (teItems headers) (0, true) (by
    rw [single]
    intro item member
    rw [mem_singleton.mp member]
    exact chunked)
  rw [walked, single]
  rfl

theorem framing_length {headers : List HttpHeader} {minor : Nat} (framing : Option HttpFraming)
    (te : fieldValues headers teName = []) (cl : fieldValues headers clName ≠ []) :
    httpFramingHeaders headers minor = .ok framing ↔
      ∃ n text, framing = some ⟨.length, n⟩ ∧ fieldValues headers clName = [text] ∧ Denotes text n := by
  unfold httpFramingHeaders
  dsimp only
  rw [header_count_values, header_count_values, header_find_values, te]
  rw [if_neg (by simp), if_neg (by simp), if_pos (values_pos.mpr cl)]
  by_cases single : (fieldValues headers clName).length = 1
  · obtain ⟨text, shape⟩ := length_eq_one_iff.mp single
    rw [if_neg (not_not.mpr single), shape, List.head?_cons, Option.getD_some]
    cases text with
    | nil =>
      apply iff_of_false nofun
      rintro ⟨n, text, _, same, number⟩
      exact number.some_ (List.cons.inj same).1.symm
    | cons d rest =>
      have exact_ := @length_denotes (d :: rest) (cons_ne_nil _ _)
      dsimp only
      constructor
      · intro accepted
        cases read : lengthDigits 0 (d :: rest) with
        | error fault =>
          rw [read] at accepted
          cases accepted
        | ok n =>
          rw [read] at accepted
          exact ⟨n, d :: rest, (Except.ok.inj accepted).symm, rfl, (exact_ n).mp read⟩
      rintro ⟨n, text, rfl, same, number⟩
      rw [← (List.cons.inj same).1] at number
      rw [(exact_ n).mpr number]
      rfl
  rw [if_pos single]
  apply iff_of_false nofun
  rintro ⟨n, text, _, shape, _⟩
  exact single (by rw [shape]; rfl)

theorem request_framing_ok (request : HttpRequest) (framing : HttpFraming) : httpRequestFraming request = .ok framing ↔
      ∃ found, httpFramingHeaders request.headers request.versionMinor = .ok found ∧ found.getD ⟨.none, 0⟩ = framing := by
  unfold httpRequestFraming
  cases httpFramingHeaders request.headers request.versionMinor with
  | error fault => exact iff_of_false nofun (by rintro ⟨_, wrong, _⟩; cases wrong)
  | ok found =>
    constructor
    · intro same
      exact ⟨found, rfl, Except.ok.inj same⟩
    rintro ⟨other, same, given⟩
    rw [Except.ok.inj same]
    exact congrArg Except.ok given

theorem list_elements_nil : listElements [] = [] := rfl

theorem request_framing_plain (request : HttpRequest) (framing : HttpFraming) :
    httpRequestFraming request = .ok framing ↔ PlainMeaning request framing := by
  rw [request_framing_ok]
  by_cases te : fieldValues request.headers teName = []
  · by_cases cl : fieldValues request.headers clName = []
    · have none_ : httpFramingHeaders request.headers request.versionMinor = .ok none := by
        unfold httpFramingHeaders
        rw [header_count_values, header_count_values, te, cl]
        rfl
      rw [none_]
      constructor
      · rintro ⟨found, same, given⟩
        rw [← given, ← Except.ok.inj same]
        exact .none te cl
      intro plain
      cases plain with
      | none _ _ => exact ⟨none, rfl, rfl⟩
      | chunked coding _ _ only _ =>
        rw [te, list_elements_nil] at only
        cases only
      | length n text _ values _ =>
        rw [cl] at values
        cases values
    constructor
    · rintro ⟨found, same, given⟩
      obtain ⟨n, text, shape, values, number⟩ := (framing_length found te cl).mp same
      rw [← given, shape]
      exact .length n text te values number
    intro plain
    cases plain with
    | none _ none_ => exact absurd none_ cl
    | chunked _ _ none_ _ _ => exact absurd none_ cl
    | length n text _ values number =>
      exact ⟨some ⟨.length, n⟩, (framing_length _ te cl).mpr ⟨n, text, rfl, values, number⟩, rfl⟩
  by_cases cl : fieldValues request.headers clName = []
  · constructor
    · rintro ⟨found, same, given⟩
      obtain ⟨shape, version, coding, only, chunked⟩ := (framing_chunked found te cl).mp same
      rw [← given, shape]
      exact .chunked coding version cl only chunked
    intro plain
    cases plain with
    | none none_ _ => exact absurd none_ te
    | chunked coding version _ only chunked =>
      exact ⟨some ⟨.chunked, 0⟩, (framing_chunked _ te cl).mpr ⟨rfl, version, coding, only, chunked⟩, rfl⟩
    | length _ _ none_ _ _ => exact absurd none_ te
  -- Both kinds of field: refused, and without a meaning.
  constructor
  · rintro ⟨found, same, _⟩
    unfold httpFramingHeaders at same
    dsimp only at same
    rw [header_count_values, header_count_values, if_pos ⟨values_pos.mpr te, values_pos.mpr cl⟩] at same
    cases same
  intro plain
  cases plain with
  | none none_ _ => exact absurd none_ te
  | chunked _ _ none_ _ _ => exact absurd none_ cl
  | length _ _ none_ _ _ => exact absurd none_ te

theorem denotes_unique {text : List Byte} {n m : Nat} (first : Denotes text n) (second : Denotes text m) : n = m :=
  first.value.trans second.value.symm

theorem meaning_unique {request : HttpRequest} {framing other : HttpFraming} (first : Meaning request framing)
    (second : Meaning request other) : other = framing := by
  cases first with
  | none te cl =>
    cases second with
    | none _ _ => rfl
    | chunked coding _ only _ =>
      rw [te, list_elements_nil] at only
      cases only
    | length n _ some_ _ =>
      rw [cl] at some_
      exact absurd list_elements_nil some_
  | chunked coding cl only _ =>
    cases second with
    | none te _ =>
      rw [te, list_elements_nil] at only
      cases only
    | chunked _ _ _ _ => rfl
    | length n te _ _ =>
      rw [te, list_elements_nil] at only
      cases only
  | length n te some_ same =>
    cases second with
    | none _ cl =>
      rw [cl] at some_
      exact absurd list_elements_nil some_
    | chunked _ _ only _ =>
      rw [te, list_elements_nil] at only
      cases only
    | length m _ _ again =>
      obtain ⟨text, member⟩ := exists_mem_of_ne_nil _ some_
      rw [denotes_unique (same text member) (again text member)]

theorem digit_plain : ∀ d : Byte, isDigit d = true → d ≠ comma ∧ httpIsOws d = false := by
  decide +kernel

theorem denotes_element {text : List Byte} {n : Nat} (number : Denotes text n) : listElements [text] = [text] := by
  have noComma : comma ∉ text := fun member => (digit_plain comma (number.digits comma member)).1 rfl
  have trimmed : trimOws text = text := by
    have noSpace : ∀ d ∈ text, httpIsOws d = false := fun d member => (digit_plain d (number.digits d member)).2
    have front : text.dropWhile httpIsOws = text := by
      cases text with
      | nil => rfl
      | cons d rest => exact dropWhile_cons_of_neg (by simp [noSpace d (mem_cons_self ..)])
    rw [trimOws, front, trimEnd]
    apply rdropWhile_eq_self_iff.mpr
    intro some_
    rw [Bool.not_eq_true]
    exact noSpace _ (getLast_mem some_)
  unfold listElements
  rw [flatMap_singleton, splitOn_eq_singleton noComma, map_singleton, trimmed,
    filter_cons_of_pos (by simp [number.some_]), filter_nil]

theorem plain_meaning {request : HttpRequest} {framing : HttpFraming} (plain : PlainMeaning request framing) :
    Meaning request framing := by
  cases plain with
  | none te cl => exact .none te cl
  | chunked coding _ cl only chunked => exact .chunked coding cl only chunked
  | length n text te cl number =>
    have element := denotes_element number
    refine .length n te ?_ ?_
    all_goals rw [cl, element]
    · exact cons_ne_nil _ _
    intro other member
    rw [mem_singleton.mp member]
    exact number

/-- A request is framed exactly as its plain meaning, refused where it has none, and what it is
framed as is the only meaning of its fields. -/
theorem request_framing_unambiguous (request : HttpRequest) :
    (∀ framing, httpRequestFraming request = .ok framing ↔ PlainMeaning request framing) ∧
      ∀ framing, httpRequestFraming request = .ok framing →
        Meaning request framing ∧ ∀ other, Meaning request other → other = framing := by
  refine ⟨request_framing_plain request, fun framing accepted => ?_⟩
  have meaning := plain_meaning ((request_framing_plain request framing).mp accepted)
  exact ⟨meaning, fun other again => meaning_unique meaning again⟩

def twiceFive : HttpRequest :=
  { method := .post, methodText := ascii "POST", target := ascii "/", versionMinor := 1
    headers := [⟨clName, ascii "5"⟩, ⟨clName, ascii "5"⟩] }

/-- Two Content-Length fields that agree are refused, though they have one meaning. -/
theorem agreeing_lengths_refused :
    ¬ ∀ request framing, httpRequestFraming request = .ok framing ↔ Meaning request framing := by
  intro every
  have text : ascii "5" = [53] := by decide
  have five : Denotes (ascii "5") 5 := by
    rw [text]
    exact ⟨cons_ne_nil _ _, by simp [isDigit], rfl, by norm_num⟩
  have values : fieldValues twiceFive.headers clName = [ascii "5", ascii "5"] := by decide
  have elements : listElements [ascii "5", ascii "5"] = [ascii "5", ascii "5"] := by
    have one := denotes_element five
    unfold listElements at one ⊢
    rw [flatMap_singleton] at one
    rw [flatMap_cons, filter_append, one, flatMap_singleton, one]
    rfl
  have meaning : Meaning twiceFive ⟨.length, 5⟩ := by
    refine .length 5 (by decide) ?_ ?_
    all_goals rw [values, elements]
    · exact cons_ne_nil _ _
    intro text member
    have same : text = ascii "5" := by simpa using member
    rw [same]
    exact five
  have accepted := (every twiceFive ⟨.length, 5⟩).mpr meaning
  exact absurd accepted (by decide)

end ProvenC.Http.Framing

import ProvenC.Url.Components

/-!
# The parser on whole texts

The parser's positions cut the text where its first delimiters stand. What the loops find between two
places is what the list there says, so the parser never reads outside its text.
-/

namespace ProvenC.Url.Parsing

open List Bytes Url.Path Url.Splitting Url.Components

def hostOf : List Byte → Option (List Byte × Option (List Byte))
  | [] => some ([], none)
  | c :: rest =>
    if c = colon then some ([], some rest)
    else if c = openBracket ∨ c = closeBracket then none
    else (hostOf rest).map fun found => (c :: found.1, found.2)

def literalOf (text : List Byte) : Option (List Byte × Option (List Byte)) :=
  let address := text.takeWhile (· ≠ closeBracket)
  match text.drop address.length with
  | [] => none
  | _ :: after =>
    if address = [] ∨ zoneShape address = false then none
    else
      match after with
      | [] => some (address, none)
      | c :: digits => if c = colon then some (address, some digits) else none

def portOf (port : Nat) : List Byte → Option Nat
  | [] => some port
  | c :: rest =>
    if ¬ urlIsDigit c then none
    else
      let port := port * 10 + (c.val - '0'.toNat)
      if 65535 < port then none else portOf port rest

def authorityOf (text : List Byte) : Option Authority :=
  let user := text.rdropWhile (· ≠ atSign)
  let address := text.rtakeWhile (· ≠ atSign)
  let userinfo := if atSign ∈ text then some user.dropLast else none
  let bracketed : Bool := address.head? = some openBracket
  match if bracketed then literalOf address.tail else hostOf address with
  | none => none
  | some (host, port) =>
    match portOf 0 (port.getD []) with
    | none => none
    | some _ =>
      if host = [] ∧ (port.getD [] ≠ [] ∨ userinfo.isSome) then none
      else some { userinfo := userinfo, host := host, bracketed := bracketed, port := port }

def tailOf (text : List Byte) : List Byte × Option (List Byte) × Option (List Byte) :=
  let path := text.takeWhile inPath
  let later := text.drop path.length
  let query := later.tail.takeWhile (· ≠ numberSign)
  let hasQuery : Bool := later.head? = some questionMark
  let rest := if hasQuery then later.tail.drop query.length else later
  (path, if hasQuery then some query else none, if rest.head? = some numberSign then some rest.tail else none)

def urlSplit (text : List Byte) : Option UrlParts :=
  if text = [] ∨ textOk text = false then none
  else if ¬ (text.head?.any urlIsAlpha) then none
  else
    let scheme := text.takeWhile isSchemeByte
    let later := text.drop scheme.length
    if ¬ schemeMark <+: later then none
    else
      let authority := (later.drop 3).takeWhile inAuthority
      match authorityOf authority with
      | none => none
      | some found =>
        let (path, query, fragment) := tailOf ((later.drop 3).drop authority.length)
        some { scheme := scheme, authority := found, path := path, query := query, fragment := fragment }

variable {text : List Byte}

variable {authEnd : Nat}

theorem host_loop (inside : authEnd ≤ text.length) (k : Nat) : hostLoop text authEnd (authEnd - k) k =
      some (match hostOf (between text k authEnd) with
        | none => .error .invalidFormat
        | some (_, none) => .ok (authEnd, authEnd)
        | some (host, some _) => .ok (k + host.length, k + host.length + 1)) := by
  generalize left_ : authEnd - k = left
  induction left generalizing k with
  | zero =>
    rw [between_nil (by omega)]
    rfl
  | succ left ih =>
    have here : k < text.length := by omega
    rw [hostLoop, if_pos (by omega), read_inside here, between_cons (by omega) here, hostOf]
    dsimp only
    by_cases ends : text[k] = colon
    · rw [if_pos ends, if_pos ends]
      rfl
    rw [if_neg ends, if_neg ends]
    by_cases bracket : text[k] = openBracket ∨ text[k] = closeBracket
    · rw [if_pos bracket, if_pos bracket]
    rw [if_neg bracket, if_neg bracket, ih (k + 1) (by omega)]
    cases hostOf (between text (k + 1) authEnd) with
    | none => rfl
    | some found =>
      obtain ⟨host, port⟩ := found
      cases port with
      | none => rfl
      | some digits =>
        rw [Option.map_some]
        dsimp only
        rw [length_cons, show k + 1 + host.length = k + (host.length + 1) by omega]

theorem port_loop (inside : authEnd ≤ text.length) (k port : Nat) : portLoop text authEnd (authEnd - k) k port =
      some (match portOf port (between text k authEnd) with | none => .error .invalidFormat | some port => .ok port) := by
  generalize left_ : authEnd - k = left
  induction left generalizing k port with
  | zero =>
    rw [between_nil (by omega)]
    rfl
  | succ left ih =>
    have here : k < text.length := by omega
    rw [portLoop, if_pos (by omega), read_inside here, between_cons (by omega) here, portOf]
    dsimp only
    by_cases digit : urlIsDigit text[k] = true
    · rw [if_neg (not_not.mpr digit), if_neg (not_not.mpr digit)]
      by_cases large : 65535 < port * 10 + (text[k].val - '0'.toNat)
      · rw [if_pos large, if_pos large]
      · rw [if_neg large, if_neg large, ih (k + 1) _ (by omega)]
    · rw [if_pos digit, if_pos digit]

variable {host : List Byte} {port : Option (List Byte)}

theorem host_of_port (found : hostOf text = some (host, port)) : text = host ++ marked colon port := by
  induction text generalizing host with
  | nil =>
    cases found
    rfl
  | cons c rest ih =>
    rw [hostOf] at found
    by_cases ends : c = colon
    · rw [if_pos ends] at found
      cases found
      rw [ends]
      rfl
    rw [if_neg ends] at found
    by_cases bracket : c = openBracket ∨ c = closeBracket
    · rw [if_pos bracket] at found
      cases found
    rw [if_neg bracket] at found
    obtain ⟨⟨host', port'⟩, further, same⟩ := Option.map_eq_some_iff.mp found
    cases same
    exact congrArg (c :: ·) (ih further)

theorem cut_while (such : Byte → Bool) (text : List Byte) :
    text = text.takeWhile such ++ text.drop (text.takeWhile such).length ∧
      ∀ c ∈ (text.drop (text.takeWhile such).length).head?, such c = false := by
  induction text with
  | nil => exact ⟨rfl, fun c among => (by cases among)⟩
  | cons b rest ih =>
    rw [takeWhile_cons]
    cases goes : such b with
    | true =>
      rw [if_pos rfl, length_cons, drop_succ_cons, cons_append]
      exact ⟨congrArg (b :: ·) ih.1, ih.2⟩
    | false =>
      rw [if_neg (by decide), length_nil, drop_zero, nil_append]
      refine ⟨rfl, fun c among => ?_⟩
      rw [← Option.some.inj among]
      exact goes

variable {front back : List Byte}

theorem take_while_cut {such : Byte → Bool} (goes : ∀ c ∈ front, such c = true)
    (stops : ∀ c ∈ back.head?, such c = false) : (front ++ back).takeWhile such = front := by
  rw [takeWhile_append_of_pos goes]
  cases back with
  | nil => exact append_nil front
  | cons c back =>
    rw [takeWhile_cons, stops c rfl, if_neg (by decide)]
    exact append_nil front

theorem between_split {i j : Nat} (inside : j ≤ text.length) (order : i ≤ j) (whole : between text i j = front ++ back) :
    between text i (i + front.length) = front ∧ between text (i + front.length) j = back ∧
      i + front.length + back.length = j := by
  have size := congrArg List.length whole
  rw [between_length inside, length_append] at size
  unfold between at whole ⊢
  refine ⟨?_, ?_, by omega⟩
  · rw [Nat.add_sub_cancel_left]
    have cut := congrArg (List.take front.length) whole
    rw [take_take, take_left', min_eq_left (by omega)] at cut
    · exact cut
    · rfl
  have cut := congrArg (List.drop front.length) whole
  rw [drop_take, drop_drop, drop_left, show j - i - front.length = j - (i + front.length) by omega] at cut
  exact cut

theorem literal_of_port (found : literalOf text = some (host, port)) :
    text = host ++ closeBracket :: marked colon port ∧ host ≠ [] ∧ zoneShape host = true := by
  obtain ⟨whole, stops⟩ := cut_while (· ≠ closeBracket) text
  unfold literalOf at found
  dsimp only at found
  generalize text.takeWhile (· ≠ closeBracket) = address at whole stops found
  cases after : text.drop address.length with
  | nil =>
    rw [after] at found
    cases found
  | cons bracket after_ =>
    rw [after] at whole stops found
    dsimp only at found
    have isBracket : bracket = closeBracket := by simpa using stops bracket rfl
    by_cases refused : address = [] ∨ zoneShape address = false
    · rw [if_pos refused] at found
      cases found
    rw [if_neg refused] at found
    have fine : address ≠ [] ∧ zoneShape address = true :=
      ⟨fun none_ => refused (.inl none_), by simpa using fun isFalse => refused (.inr isFalse)⟩
    cases after_ with
    | nil =>
      cases found
      exact ⟨isBracket ▸ whole, fine⟩
    | cons c digits =>
      dsimp only at found
      by_cases isColon : c = colon
      · rw [if_pos isColon] at found
        cases found
        refine ⟨?_, fine⟩
        rw [whole, isBracket, isColon]
        rfl
      rw [if_neg isColon] at found
      cases found

def foundHost (hostStart authEnd : Nat) (bracketed : Bool) : Option (List Byte × Option (List Byte)) → Except ProvenErr HostFound
  | none => .error .invalidFormat
  | some (host, port) =>
    .ok { host := ⟨hostStart + (if bracketed then 1 else 0), host.length⟩, hostIsIpv6 := bracketed,
          portStart := authEnd - (port.getD []).length }

variable {hostStart : Nat}

variable (inside : authEnd ≤ text.length)
include inside

theorem plain_host (order : hostStart ≤ authEnd) :
    plainHost text hostStart authEnd = some (foundHost hostStart authEnd false (hostOf (between text hostStart authEnd))) := by
  unfold plainHost
  rw [host_loop inside]
  cases read : hostOf (between text hostStart authEnd) with
  | none => rfl
  | some found =>
    obtain ⟨host, port⟩ := found
    obtain ⟨_, _, size⟩ := between_split inside order (host_of_port read)
    cases port with
    | none =>
      rw [marked, length_nil] at size
      unfold Checked.andThen foundHost urlSub
      dsimp only
      rw [if_neg (by decide), Option.getD_none, length_nil, show authEnd - hostStart = host.length by omega]
      rfl
    | some digits =>
      rw [marked, length_cons] at size
      unfold Checked.andThen foundHost urlSub
      dsimp only
      rw [if_neg (by decide), Option.getD_some, Nat.add_sub_cancel_left,
        show authEnd - digits.length = hostStart + host.length + 1 by omega]
      rfl

theorem bracket_host (order : hostStart < authEnd) : bracketHost text hostStart authEnd =
      some (foundHost hostStart authEnd true (literalOf (between text (hostStart + 1) authEnd))) := by
  unfold bracketHost
  rw [scan_while _ inside]
  dsimp only
  obtain ⟨whole, stops⟩ := cut_while (· ≠ closeBracket) (between text (hostStart + 1) authEnd)
  unfold literalOf
  dsimp only
  generalize (between text (hostStart + 1) authEnd).takeWhile (· ≠ closeBracket) = address at whole stops ⊢
  obtain ⟨first, second, size⟩ := between_split inside (show hostStart + 1 ≤ authEnd from order) whole
  cases after : (between text (hostStart + 1) authEnd).drop address.length with
  | nil =>
    rw [after, length_nil] at size
    rw [if_pos (.inl (by omega))]
    rfl
  | cons bracket after_ =>
    rw [after, length_cons] at size
    rw [after] at second
    dsimp only
    have here : hostStart + 1 + address.length < text.length := by omega
    by_cases refused : address = [] ∨ zoneShape address = false
    · rw [if_pos refused]
      by_cases nothing : address = []
      · rw [nothing, length_nil, add_zero, if_pos (.inr rfl)]
        rfl
      have positive := length_pos_iff.mpr nothing
      rw [if_neg (by omega), zone_loop (by omega), first, or_iff_right nothing |>.mp refused]
      rfl
    rw [if_neg refused]
    have positive := length_pos_iff.mpr fun nothing => refused (.inl nothing)
    have shaped : zoneShape address = true := by simpa using fun isFalse => refused (.inr isFalse)
    rw [if_neg (by omega), zone_loop (by omega), first, shaped]
    dsimp only
    unfold urlSub
    rw [Nat.add_sub_cancel_left]
    rw [between_cons (by omega) here] at second
    have rest := (List.cons.inj second).2
    cases after_ with
    | nil =>
      rw [length_nil] at size
      rw [if_neg (by omega)]
      rfl
    | cons c digits =>
      rw [length_cons] at size
      have there : hostStart + 1 + address.length + 1 < text.length := by omega
      rw [between_cons (by omega) there] at rest
      rw [if_pos (by omega), read_inside there, (List.cons.inj rest).1]
      dsimp only
      by_cases isColon : c = colon
      · rw [if_neg (not_not.mpr isColon), if_pos isColon]
        unfold foundHost
        dsimp only
        rw [Option.getD_some, if_pos rfl, show authEnd - digits.length = hostStart + 1 + address.length + 2 by omega]
      rw [if_pos isColon, if_neg isColon]
      rfl

theorem host_at (order : hostStart ≤ authEnd) : hostAt text hostStart authEnd =
      some (let address := between text hostStart authEnd
        let bracketed : Bool := address.head? = some openBracket
        foundHost hostStart authEnd bracketed (if bracketed then literalOf address.tail else hostOf address)) := by
  unfold hostAt
  dsimp only
  by_cases some_ : hostStart < authEnd
  · have here : hostStart < text.length := by omega
    have head : (between text hostStart authEnd).head? = some text[hostStart] := by
      rw [between_cons some_ here]
      rfl
    have tail : (between text hostStart authEnd).tail = between text (hostStart + 1) authEnd := by
      rw [between_cons some_ here]
      rfl
    rw [if_pos some_, read_inside here, head, tail]
    dsimp only
    by_cases bracket : text[hostStart] = openBracket
    · rw [if_pos bracket, bracket_host inside some_, decide_eq_true (congrArg some bracket)]
      rfl
    rw [if_neg bracket, plain_host inside order, decide_eq_false fun same => bracket (Option.some.inj same)]
    rfl
  rw [if_neg some_, plain_host inside order, between_nil (by omega)]
  rfl

theorem port_at {portStart : Nat} : portAt text portStart authEnd =
      some (if between text portStart authEnd = [] then .ok none
        else match portOf 0 (between text portStart authEnd) with | none => .error .invalidFormat | some port => .ok (some port)) := by
  unfold portAt
  by_cases some_ : portStart < authEnd
  · rw [if_pos some_, port_loop inside, if_neg (by rw [between_cons some_ (by omega)]; exact cons_ne_nil _ _)]
    cases portOf 0 (between text portStart authEnd) <;> rfl
  · rw [if_neg some_, if_pos (between_nil (by omega))]

omit inside

theorem decimal_from_le (digits : List Byte) (value : Nat) :
    value ≤ digits.foldl (fun value c => value * 10 + (c.val - '0'.toNat)) value := by
  induction digits generalizing value with
  | nil => exact le_refl value
  | cons c digits ih =>
    rw [foldl_cons]
    exact le_trans (by omega) (ih _)

theorem port_of_value {digits : List Byte} {port value : Nat} (small : port ≤ 65535) : portOf port digits = some value ↔
      (∀ c ∈ digits, urlIsDigit c = true) ∧ value = digits.foldl (fun value c => value * 10 + (c.val - '0'.toNat)) port ∧
        value ≤ 65535 := by
  induction digits generalizing port with
  | nil =>
    rw [portOf, foldl_nil]
    constructor
    · rintro ⟨⟩
      exact ⟨fun c among => (by cases among), rfl, small⟩
    rintro ⟨_, rfl, _⟩
    rfl
  | cons c digits ih =>
    rw [portOf, foldl_cons]
    by_cases digit : urlIsDigit c = true
    · rw [if_neg (not_not.mpr digit)]
      by_cases large : 65535 < port * 10 + (c.val - '0'.toNat)
      · rw [if_pos large]
        constructor
        · intro wrong
          cases wrong
        rintro ⟨_, same, bound⟩
        have more := decimal_from_le digits (port * 10 + (c.val - '0'.toNat))
        omega
      rw [if_neg large, ih (by omega), forall_mem_cons]
      exact and_congr_left fun _ => (and_iff_right digit).symm
    rw [if_pos digit]
    constructor
    · intro wrong
      cases wrong
    rintro ⟨all, _⟩
    exact absurd (all c (mem_cons_self ..)) digit

theorem port_decimal {digits : List Byte} {value : Nat} :
    portOf 0 digits = some value ↔ (∀ c ∈ digits, urlIsDigit c = true) ∧ value = decimal digits ∧ value ≤ 65535 :=
  port_of_value (Nat.zero_le _)

theorem scheme_at (some_ : text ≠ []) : schemeAt text = some (if ¬ (text.head?.any urlIsAlpha) then .error .invalidFormat
      else let scheme := text.takeWhile isSchemeByte
        if ¬ schemeMark <+: text.drop scheme.length then .error .invalidFormat else .ok scheme.length) := by
  have positive := length_pos_iff.mpr some_
  unfold schemeAt
  rw [read_inside positive, show text.head? = some text[0] from List.head?_eq_getElem? ▸ read_inside positive]
  dsimp only
  rw [Option.any_some]
  by_cases alpha : urlIsAlpha text[0] = true
  · have scanned := scan_while isSchemeByte (le_refl text.length) 0
    rw [tsub_zero, between_whole, drop_zero, zero_add] at scanned
    rw [if_neg (not_not.mpr alpha), if_neg (not_not.mpr alpha), scanned]
    dsimp only
    generalize text.takeWhile isSchemeByte = scheme
    by_cases short : text.length ≤ scheme.length + 2
    · rw [if_pos short, if_pos]
      intro prefix_
      have size := prefix_.length_le
      rw [length_drop] at size
      have three : schemeMark.length = 3 := rfl
      omega
    have mark : [colon, slash, slash] = schemeMark := rfl
    rw [if_neg short, stands_at _ (by simp only [length_cons, length_nil]; omega)]
    have cut : between text scheme.length (scheme.length + [colon, slash, slash].length) =
        (text.drop scheme.length).take schemeMark.length := by
      unfold between
      rw [Nat.add_sub_cancel_left]
      rfl
    rw [cut, mark]
    by_cases stands : schemeMark <+: text.drop scheme.length
    · rw [if_neg (not_not.mpr stands)]
      have same := prefix_iff_eq_take.mp stands
      rw [decide_eq_true same]
    · rw [if_pos stands, decide_eq_false fun same => stands (prefix_iff_eq_take.mpr same)]
  · rw [if_pos alpha, if_pos alpha]

theorem drop_head {i : Nat} (inside : i < text.length) : (text.drop i).head? = some text[i] ∧ (text.drop i).tail = text.drop (i + 1) := by
  rw [drop_eq_getElem_cons inside]
  exact ⟨rfl, rfl⟩

theorem drop_end {i : Nat} (outside : text.length ≤ i) : (text.drop i).head? = none := by
  rw [drop_eq_nil_of_le outside]
  rfl

theorem take_while_length (such : Byte → Bool) (text : List Byte) : (text.takeWhile such).length ≤ text.length :=
  (List.takeWhile_prefix such).length_le

def withTail (u : ProvenUrl) (pathStart : Nat) : List Byte × Option (List Byte) × Option (List Byte) → ProvenUrl
  | (path, query, fragment) =>
    let queryStart := pathStart + path.length
    let fragmentStart := queryStart + (marked questionMark query).length
    { u with
      path := ⟨pathStart, path.length⟩
      query := match query with | none => u.query | some q => ⟨queryStart + 1, q.length⟩
      hasQuery := u.hasQuery || query.isSome
      fragment := match fragment with | none => u.fragment | some f => ⟨fragmentStart + 1, f.length⟩
      hasFragment := u.hasFragment || fragment.isSome }

theorem tail_at (pathStart : Nat) (u : ProvenUrl) :
    tailAt text pathStart u = some (.ok (withTail u pathStart (tailOf (text.drop pathStart)))) := by
  unfold tailAt tailOf withTail
  dsimp only
  rw [scan_while inPath (le_refl _), between_whole]
  dsimp only
  have pathInside := take_while_length inPath (text.drop pathStart)
  rw [length_drop] at pathInside
  generalize (text.drop pathStart).takeWhile inPath = path at pathInside
  unfold urlSub
  rw [Nat.add_sub_cancel_left, drop_drop]
  by_cases more : pathStart + path.length < text.length
  · obtain ⟨head, tail⟩ := drop_head more
    rw [if_pos more, read_inside more, head, tail]
    dsimp only
    by_cases isQuery : text[pathStart + path.length] = questionMark
    · rw [if_pos isQuery, scan_while _ (le_refl _), between_whole, decide_eq_true (congrArg some isQuery), Option.map_some]
      have queryInside := take_while_length (· ≠ numberSign) (text.drop (pathStart + path.length + 1))
      rw [length_drop] at queryInside
      generalize (text.drop (pathStart + path.length + 1)).takeWhile (· ≠ numberSign) = query at queryInside ⊢
      dsimp only
      rw [if_pos rfl, if_pos rfl, drop_drop, Nat.add_sub_cancel_left]
      by_cases further : pathStart + path.length + 1 + query.length < text.length
      · obtain ⟨head', tail'⟩ := drop_head further
        rw [if_pos further, read_inside further, head', tail']
        dsimp only
        by_cases isFragment : text[pathStart + path.length + 1 + query.length] = numberSign
        · rw [if_pos isFragment, if_pos (congrArg some isFragment)]
          simp only [marked, length_cons, length_drop, Option.isSome_some, Bool.or_true]
          rw [show pathStart + path.length + (query.length + 1) + 1 = pathStart + path.length + 1 + query.length + 1 by omega]
        rw [if_neg isFragment, if_neg fun same => isFragment (Option.some.inj same)]
        simp only [Option.isSome_some, Option.isSome_none, Bool.or_true, Bool.or_false]
      rw [if_neg further, drop_end (by omega), if_neg (by decide)]
      simp only [Option.isSome_some, Option.isSome_none, Bool.or_true, Bool.or_false]
    rw [if_neg isQuery, decide_eq_false fun same => isQuery (Option.some.inj same)]
    dsimp only
    rw [if_neg Bool.false_ne_true, if_neg Bool.false_ne_true, if_pos more, read_inside more, head, tail]
    dsimp only
    by_cases isFragment : text[pathStart + path.length] = numberSign
    · rw [if_pos isFragment, if_pos (congrArg some isFragment)]
      simp only [marked, length_nil, length_drop, Option.isSome_some, Option.isSome_none, Bool.or_true, Bool.or_false,
        add_zero]
    rw [if_neg isFragment, if_neg fun same => isFragment (Option.some.inj same)]
    simp only [Option.isSome_none, Bool.or_false]
  rw [if_neg more, drop_end (by omega)]
  have none_ : ¬ ((none : Option Byte) = some questionMark) := by simp
  have none' : ¬ ((none : Option Byte) = some numberSign) := by simp
  dsimp only
  rw [if_neg more, decide_eq_false none_, if_neg Bool.false_ne_true, if_neg Bool.false_ne_true, drop_end (by omega), if_neg none']
  simp only [Option.isSome_none, Bool.or_false]

theorem between_all (text : List Byte) (such : Byte → Bool) (i : Nat) :
    between text i (i + ((text.drop i).takeWhile such).length) = (text.drop i).takeWhile such := by
  unfold between
  rw [Nat.add_sub_cancel_left]
  exact (prefix_iff_eq_take.mp (List.takeWhile_prefix such)).symm

theorem cut_last {such : Byte → Bool} (goes : ∀ c ∈ back, such c = true) (stops : ∀ c ∈ front.getLast?, such c = false) :
    (front ++ back).rdropWhile such = front ∧ (front ++ back).rtakeWhile such = back := by
  induction back using List.reverseRecOn with
  | nil =>
    rw [append_nil]
    rcases eq_nil_or_concat front with rfl | ⟨front', c, rfl⟩
    · exact ⟨rfl, rfl⟩
    have last := stops c (by rw [concat_eq_append, List.getLast?_append]; rfl)
    rw [concat_eq_append, rdropWhile_concat, rtakeWhile_concat, last]
    exact ⟨rfl, rfl⟩
  | append_singleton back c ih =>
    obtain ⟨dropped, taken⟩ := ih fun b among => goes b (mem_append_left _ among)
    have last := goes c (mem_append_right _ (mem_singleton_self c))
    rw [← append_assoc, rdropWhile_concat, rtakeWhile_concat, last, if_pos rfl, if_pos rfl, dropped, taken]
    exact ⟨rfl, rfl⟩

theorem user_cut (text : List Byte) : atSign ∉ text.rtakeWhile (· ≠ atSign) ∧ text.rdropWhile (· ≠ atSign) =
        match (if atSign ∈ text then some (text.rdropWhile (· ≠ atSign)).dropLast else none) with
        | none => []
        | some u => u ++ [atSign] := by
  refine ⟨fun among => ?_, ?_⟩
  · have apart := mem_rtakeWhile_imp among
    rw [decide_eq_true_eq] at apart
    exact apart rfl
  by_cases among : atSign ∈ text
  · rw [if_pos among]
    have some_ : text.rdropWhile (· ≠ atSign) ≠ [] := by
      intro nothing
      have all := rdropWhile_eq_nil_iff.mp nothing atSign among
      rw [decide_eq_true_eq] at all
      exact all rfl
    have last := rdropWhile_last_not (p := (· ≠ atSign)) (l := text) some_
    rw [decide_eq_true_eq, not_not] at last
    have whole := dropLast_append_getLast some_
    rw [last] at whole
    exact whole.symm
  rw [if_neg among]
  exact rdropWhile_eq_nil_iff.mpr fun c member => decide_eq_true fun same => among (same ▸ member)

theorem authority_read {found : Authority} (read : authorityOf text = some found) :
    text.rdropWhile (· ≠ atSign) = found.user ∧ text.rtakeWhile (· ≠ atSign) = found.hostText ++ found.portText ∧
      found.text = text := by
  obtain ⟨_, user⟩ := user_cut text
  have whole := rdropWhile_append_rtakeWhile (p := (· ≠ atSign)) (l := text)
  unfold authorityOf at read
  dsimp only at read
  generalize (if atSign ∈ text then some (text.rdropWhile (· ≠ atSign)).dropLast else none) = userinfo at user read
  generalize text.rtakeWhile (· ≠ atSign) = address at whole read ⊢
  have finish : ∀ (host : List Byte) (port : Option (List Byte)) (bracketed : Bool),
      address = (if bracketed then openBracket :: (host ++ [closeBracket]) else host) ++ marked colon port →
      (match portOf 0 (port.getD []) with
        | none => none
        | some _ =>
          if host = [] ∧ (port.getD [] ≠ [] ∨ userinfo.isSome) then none
          else some ({ userinfo := userinfo, host := host, bracketed := bracketed, port := port } : Authority)) = some found →
      text.rdropWhile (· ≠ atSign) = found.user ∧ address = found.hostText ++ found.portText ∧ found.text = text := by
    intro host port bracketed parts built
    cases value : portOf 0 (port.getD []) with
    | none =>
      rw [value] at built
      cases built
    | some number =>
      rw [value] at built
      dsimp only at built
      by_cases nowhere : host = [] ∧ (port.getD [] ≠ [] ∨ userinfo.isSome)
      · rw [if_pos nowhere] at built
        cases built
      rw [if_neg nowhere] at built
      cases built
      have portText : (Authority.mk userinfo host bracketed port).portText = marked colon port := by cases port <;> rfl
      have front : text.rdropWhile (· ≠ atSign) = (Authority.mk userinfo host bracketed port).user := by
        rw [user]
        cases userinfo <;> rfl
      have back : address = (Authority.mk userinfo host bracketed port).hostText ++
          (Authority.mk userinfo host bracketed port).portText := by
        rw [portText]
        exact parts
      refine ⟨front, back, ?_⟩
      unfold Authority.text
      rw [append_assoc, ← back, ← front]
      exact whole
  cases bracketed : decide (address.head? = some openBracket) with
  | true =>
    rw [bracketed, if_pos rfl] at read
    cases literal : literalOf address.tail with
    | none =>
      rw [literal] at read
      cases read
    | some parts =>
      obtain ⟨host, port⟩ := parts
      rw [literal] at read
      refine finish host port true ?_ read
      have head := of_decide_eq_true bracketed
      cases address with
      | nil => cases head
      | cons c rest =>
        cases head
        rw [if_pos rfl, cons_append, append_assoc]
        exact congrArg (openBracket :: ·) (literal_of_port literal).1
  | false =>
    rw [bracketed, if_neg Bool.false_ne_true] at read
    cases plain : hostOf address with
    | none =>
      rw [plain] at read
      cases read
    | some parts =>
      obtain ⟨host, port⟩ := parts
      rw [plain] at read
      exact finish host port false (host_of_port plain) read

/-- The user information an authority ends with its last `@`. -/
def userOf (text : List Byte) : Option (List Byte) :=
  if atSign ∈ text then some (text.rdropWhile (· ≠ atSign)).dropLast else none

theorem authority_of (found : (if decide ((text.rtakeWhile (· ≠ atSign)).head? = some openBracket) = true
      then literalOf (text.rtakeWhile (· ≠ atSign)).tail else hostOf (text.rtakeWhile (· ≠ atSign))) = some (host, port)) :
    authorityOf text = match portOf 0 (port.getD []) with
      | none => none
      | some _ =>
        if host = [] ∧ (port.getD [] ≠ [] ∨ (userOf text).isSome) then none
        else some { userinfo := userOf text, host := host,
                    bracketed := decide ((text.rtakeWhile (· ≠ atSign)).head? = some openBracket), port := port } := by
  unfold authorityOf userOf
  dsimp only
  rw [found]

theorem and_then_ok {Value Next : Type} (value : Value) (then_ : Value → Checked Next) :
    Checked.andThen (some (.ok value)) then_ = then_ value := rfl

theorem digits_end {address : List Byte} {bracketed : Bool}
    (bracket : bracketed = decide (address.head? = some openBracket))
    (read : (if bracketed then literalOf address.tail else hostOf address) = some (host, port)) :
    ∃ front, address = front ++ port.getD [] := by
  have portFront : ∃ front, marked colon port = front ++ port.getD [] := by
    cases port with
    | none => exact ⟨[], rfl⟩
    | some digits => exact ⟨[colon], rfl⟩
  obtain ⟨front, split⟩ := portFront
  cases bracketed with
  | true =>
    rw [if_pos rfl] at read
    have literal := (literal_of_port read).1
    cases address with
    | nil =>
      cases literal' : host with
      | nil => rw [literal'] at literal; cases literal
      | cons c rest => rw [literal'] at literal; cases literal
    | cons c rest =>
      rw [tail_cons, split] at literal
      exact ⟨c :: (host ++ closeBracket :: front), by
        rw [literal, cons_append, append_assoc, cons_append]⟩
  | false =>
    rw [if_neg Bool.false_ne_true] at read
    have plain := host_of_port read
    rw [split, ← append_assoc] at plain
    exact ⟨_, plain⟩

theorem address_at (inside : authEnd ≤ text.length) (order : hostStart ≤ authEnd)
    (then_ : HostFound → Option Nat → Checked ProvenUrl) :
    ((hostAt text hostStart authEnd).andThen fun host => (portAt text host.portStart authEnd).andThen fun port => then_ host port) =
      let address := between text hostStart authEnd
      let bracketed : Bool := address.head? = some openBracket
      match if bracketed then literalOf address.tail else hostOf address with
      | none => some (.error .invalidFormat)
      | some (host, port) =>
        match portOf 0 (port.getD []) with
        | none => some (.error .invalidFormat)
        | some value =>
          then_ { host := ⟨hostStart + (if bracketed then 1 else 0), host.length⟩, hostIsIpv6 := bracketed,
                  portStart := authEnd - (port.getD []).length } (if port.getD [] = [] then none else some value) := by
  rw [host_at inside order]
  dsimp only
  generalize bracket : decide ((between text hostStart authEnd).head? = some openBracket) = bracketed
  cases read : (if bracketed then literalOf (between text hostStart authEnd).tail else hostOf (between text hostStart authEnd)) with
  | none => rfl
  | some found =>
    obtain ⟨host, port⟩ := found
    obtain ⟨front, split⟩ := digits_end bracket.symm read
    obtain ⟨_, digits, size⟩ := between_split inside order split
    unfold foundHost Checked.andThen
    dsimp only
    rw [show authEnd - (port.getD []).length = hostStart + front.length by omega, port_at inside, digits]
    by_cases none_ : port.getD [] = []
    · rw [if_pos none_, none_, portOf]
      rfl
    rw [if_neg none_]
    cases portOf 0 (port.getD []) with
    | none => rfl
    | some value =>
      dsimp only
      rw [if_neg none_]

theorem parse_split (text : List Byte) :
    urlParse text = some (match urlSplit text with | none => .error .invalidFormat | some parts => .ok parts.views) := by
  unfold urlParse urlSplit
  by_cases empty : text = []
  · rw [if_pos (Or.inl empty), if_pos (by rw [empty]; rfl)]
  have positive := length_pos_iff.mpr empty
  rw [if_neg (by omega), url_text_ok]
  cases ok : textOk text with
  | false =>
    rw [if_pos (Or.inr rfl)]
  | true =>
    rw [if_neg (by rintro (none_ | wrong); exacts [empty none_, by cases wrong])]
    dsimp only
    rw [scheme_at empty]
    by_cases alpha : text.head?.any urlIsAlpha = true
    · rw [if_neg (not_not.mpr alpha), if_neg (not_not.mpr alpha)]
      dsimp only
      have schemeInside := take_while_length isSchemeByte text
      generalize text.takeWhile isSchemeByte = scheme at schemeInside
      by_cases mark : schemeMark <+: text.drop scheme.length
      · rw [if_neg (not_not.mpr mark), if_neg (not_not.mpr mark)]
        have markInside := mark.length_le
        rw [length_drop, show schemeMark.length = 3 from rfl] at markInside
        rw [and_then_ok]
        rw [scan_while inAuthority (le_refl _), between_whole, drop_drop]
        have authInside := take_while_length inAuthority (text.drop (scheme.length + 3))
        have whole := between_all text inAuthority (scheme.length + 3)
        rw [length_drop] at authInside
        generalize (text.drop (scheme.length + 3)).takeWhile inAuthority = authority at authInside whole
        dsimp only
        obtain ⟨_, user⟩ := user_cut authority
        have parts := rdropWhile_append_rtakeWhile (p := (· ≠ atSign)) (l := authority)
        obtain ⟨_, address, size⟩ := between_split (by omega) (by omega) (whole.trans parts.symm)
        rw [last_at (by omega), whole]
        dsimp only
        have start : (if atSign ∈ authority then some (scheme.length + 3 + (authority.rdropWhile (· ≠ atSign)).length) else none).getD
            (scheme.length + 3) = scheme.length + 3 + (authority.rdropWhile (· ≠ atSign)).length := by
          by_cases among : atSign ∈ authority
          · rw [if_pos among]
            rfl
          rw [if_neg among] at user ⊢
          rw [user]
          rfl
        have isUser : (if atSign ∈ authority
              then some (scheme.length + 3 + (authority.rdropWhile (· ≠ atSign)).length) else none).isSome =
            (userOf authority).isSome := by
          unfold userOf
          split_ifs <;> rfl
        rw [start, address_at (by omega) (by omega), address, isUser]
        dsimp only
        cases found : (if decide ((authority.rtakeWhile (· ≠ atSign)).head? = some openBracket) = true
          then literalOf (authority.rtakeWhile (· ≠ atSign)).tail else hostOf (authority.rtakeWhile (· ≠ atSign))) with
        | none =>
          have refused : authorityOf authority = none := by
            unfold authorityOf
            dsimp only
            rw [found]
          rw [refused]
        | some hostPort =>
          obtain ⟨host, port⟩ := hostPort
          have read := authority_of found
          dsimp only at read ⊢
          cases value : portOf 0 (port.getD []) with
          | none =>
            rw [value] at read
            rw [read]
          | some number =>
            rw [value] at read
            dsimp only at read ⊢
            have hasPort : (if port.getD [] = [] then none else some number).isSome = decide (port.getD [] ≠ []) := by
              by_cases none_ : port.getD [] = []
              · rw [if_pos none_, decide_eq_false (not_not.mpr none_)]
                rfl
              rw [if_neg none_, decide_eq_true none_]
              rfl
            have isPort : (if port.getD [] = [] then none else some number).getD 0 = decimal (port.getD []) := by
              by_cases none_ : port.getD [] = []
              · rw [if_pos none_, none_]
                rfl
              rw [if_neg none_]
              exact (port_decimal.mp value).2.1
            have same : (host.length = 0 ∧ (decide (port.getD [] ≠ []) = true ∨ (userOf authority).isSome = true)) ↔
                (host = [] ∧ (port.getD [] ≠ [] ∨ (userOf authority).isSome = true)) := by
              rw [length_eq_zero_iff, decide_eq_true_eq]
            rw [hasPort, isPort]
            by_cases nowhere : host = [] ∧ (port.getD [] ≠ [] ∨ (userOf authority).isSome = true)
            · rw [if_pos nowhere] at read
              rw [if_pos (same.mpr nowhere), read]
            rw [if_neg nowhere] at read
            rw [if_neg fun both => nowhere (same.mp both), tail_at, read]
            obtain ⟨userText, _, authText⟩ := authority_read read
            dsimp only
            rw [drop_drop]
            generalize tailOf (text.drop (scheme.length + 3 + authority.length)) = tail
            obtain ⟨path, query, fragment⟩ := tail
            unfold withTail UrlParts.views urlSub
            dsimp only
            have size : scheme.length + 3 + (authority.rdropWhile (· ≠ atSign)).length - 1 - (scheme.length + 3) =
                (authority.rdropWhile (· ≠ atSign)).length - 1 := by omega
            rw [← userText, authText, Bool.false_or, Bool.false_or]
            unfold userOf
            by_cases among : atSign ∈ authority
            · rw [if_pos among, if_pos among]
              dsimp only
              rw [length_dropLast, size]
              rfl
            rw [if_neg among, if_neg among]
            rfl
      rw [if_pos mark, if_pos mark]
      rfl
    rw [if_pos alpha, if_pos alpha]
    rfl

end ProvenC.Url.Parsing

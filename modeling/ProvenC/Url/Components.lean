import ProvenC.Url.Splitting

/-!
# The components of a URL

The components as texts, what they may hold, and the text they make together.
-/

namespace ProvenC.Url.Components

open List Bytes Url.Path Url.Splitting

def between (text : List Byte) (i j : Nat) : List Byte := (text.drop i).take (j - i)

def hexFollows : List Byte → Bool
  | high :: low :: _ => (urlHex high).isSome && (urlHex low).isSome
  | _ => false

/-- Printable, and every `%` before two hex digits. -/
def textOk : List Byte → Bool
  | [] => true
  | c :: rest => decide (0x20 < c.val ∧ c.val < 0x7F) && (decide (c ≠ percent) || hexFollows rest) && textOk rest

/-- What follows the `%` of a zone: it is an escaped `%`, and the name is not empty. -/
def zoneFollows : List Byte → Bool
  | first :: second :: zone =>
    decide (first = byteOf '2'.toNat ∧ second = byteOf '5'.toNat ∧ zone ≠ []) && zone.all isZoneByte
  | _ => false

def zoneShape : List Byte → Bool
  | [] => true
  | c :: rest =>
    if urlHex c ≠ none ∨ c = colon ∨ c = dot then zoneShape rest else decide (c = percent) && zoneFollows rest

def decimal (digits : List Byte) : Nat := digits.foldl (fun value c => value * 10 + (c.val - '0'.toNat)) 0

/-- What stands between `://` and the path; an empty port is written as its colon alone. -/
structure Authority where
  userinfo : Option (List Byte)
  host : List Byte
  bracketed : Bool
  port : Option (List Byte)
  deriving DecidableEq

structure UrlParts where
  scheme : List Byte
  authority : Authority
  path : List Byte
  query : Option (List Byte)
  fragment : Option (List Byte)
  deriving DecidableEq

def Authority.user (a : Authority) : List Byte := match a.userinfo with | none => [] | some u => u ++ [atSign]

def Authority.hostText (a : Authority) : List Byte := if a.bracketed then openBracket :: (a.host ++ [closeBracket]) else a.host

def Authority.portText (a : Authority) : List Byte := match a.port with | none => [] | some digits => colon :: digits

def Authority.text (a : Authority) : List Byte := a.user ++ a.hostText ++ a.portText

def marked (mark : Byte) : Option (List Byte) → List Byte
  | none => []
  | some text => mark :: text

def schemeMark : List Byte := [colon, slash, slash]

def UrlParts.text (c : UrlParts) : List Byte :=
  c.scheme ++ schemeMark ++ c.authority.text ++ c.path ++ marked questionMark c.query ++ marked numberSign c.fragment

structure Authority.Valid (a : Authority) : Prop where
  userinfo : ∀ u ∈ a.userinfo, ∀ c ∈ u, inAuthority c = true
  host : ∀ c ∈ a.host, inAuthority c = true ∧ c ≠ atSign ∧ c ≠ openBracket ∧ c ≠ closeBracket
  plain : a.bracketed = false → colon ∉ a.host
  literal : a.bracketed = true → a.host ≠ [] ∧ zoneShape a.host = true
  port : ∀ digits ∈ a.port, (∀ c ∈ digits, urlIsDigit c = true) ∧ decimal digits ≤ 65535
  somewhere : a.host = [] → a.userinfo = none ∧ ∀ digits ∈ a.port, digits = []

structure UrlParts.Valid (c : UrlParts) : Prop where
  begins : ∃ first ∈ c.scheme.head?, urlIsAlpha first = true
  scheme : ∀ b ∈ c.scheme, isSchemeByte b = true
  authority : c.authority.Valid
  rooted : c.path = [] ∨ c.path.head? = some slash
  path : ∀ b ∈ c.path, inPath b = true
  query : ∀ q ∈ c.query, numberSign ∉ q

/-- The views `proven_url_parse` returns: each component where it stands in the text. -/
def UrlParts.views (c : UrlParts) : ProvenUrl :=
  let userStart := c.scheme.length + 3
  let hostStart := userStart + c.authority.user.length + (if c.authority.bracketed then 1 else 0)
  let pathStart := userStart + c.authority.text.length
  let queryStart := pathStart + c.path.length + 1
  let fragmentStart := pathStart + c.path.length + (marked questionMark c.query).length + 1
  let digits := c.authority.port.getD []
  { scheme := ⟨0, c.scheme.length⟩
    userinfo := match c.authority.userinfo with | none => noView | some u => ⟨userStart, u.length⟩
    host := ⟨hostStart, c.authority.host.length⟩
    port := decimal digits
    path := ⟨pathStart, c.path.length⟩
    query := match c.query with | none => noView | some q => ⟨queryStart, q.length⟩
    fragment := match c.fragment with | none => noView | some f => ⟨fragmentStart, f.length⟩
    hasUserinfo := c.authority.userinfo.isSome
    hasPort := digits ≠ []
    hasQuery := c.query.isSome
    hasFragment := c.fragment.isSome
    hostIsIpv6 := c.authority.bracketed }

variable {text : List Byte}

variable {i : Nat}

theorem between_nil {j : Nat} (none_ : j ≤ i) : between text i j = [] := by
  unfold between
  rw [Nat.sub_eq_zero_of_le none_, take_zero]

theorem between_cons {j : Nat} (some_ : i < j) (inside : i < text.length) :
    between text i j = text[i] :: between text (i + 1) j := by
  unfold between
  rw [drop_eq_getElem_cons inside, show j - i = (j - (i + 1)) + 1 by omega, take_succ_cons]

theorem between_length {j : Nat} (inside : j ≤ text.length) : (between text i j).length = j - i := by
  unfold between
  rw [length_take, length_drop]
  omega

theorem between_whole (i : Nat) : between text i text.length = text.drop i := by
  unfold between
  exact take_of_length_le (by rw [length_drop])

theorem read_inside (inside : i < text.length) : text[i]? = some text[i] := List.getElem?_eq_getElem inside

theorem scan_while (such : Byte → Bool) {stop : Nat} (inside : stop ≤ text.length) (i : Nat) :
    scanWhile text such stop (stop - i) i = some (i + ((between text i stop).takeWhile such).length) := by
  generalize left_ : stop - i = left
  induction left generalizing i with
  | zero =>
    rw [between_nil (by omega)]
    rfl
  | succ left ih =>
    have here : i < text.length := by omega
    rw [scanWhile, if_pos (by omega), read_inside here, between_cons (by omega) here, takeWhile_cons]
    dsimp only
    cases goes : such text[i] with
    | true =>
      rw [if_pos rfl, if_pos rfl, ih (i + 1) (by omega), length_cons]
      congr 1
      omega
    | false => rfl

theorem stands_at (word : List Byte) (inside : i + word.length ≤ text.length) :
    standsAt text word i = some (decide (word = between text i (i + word.length))) := by
  induction word generalizing i with
  | nil =>
    rw [between_nil (by rw [length_nil]; omega)]
    rfl
  | cons c word ih =>
    rw [length_cons] at inside
    have here : i < text.length := by omega
    rw [standsAt, read_inside here, length_cons, between_cons (by omega) here]
    dsimp only
    by_cases same : text[i] = c
    · rw [if_pos same, ih (by omega), show i + 1 + word.length = i + (word.length + 1) by omega, same]
      simp only [List.cons.injEq, true_and]
    rw [if_neg same]
    exact congrArg some (decide_eq_false fun whole => same (List.cons.inj whole).1.symm).symm

theorem text_ok_loop (i : Nat) : textOkLoop text (text.length - i) i = some (textOk (text.drop i)) := by
  generalize left_ : text.length - i = left
  induction left generalizing i with
  | zero =>
    rw [drop_eq_nil_of_le (by omega)]
    rfl
  | succ left ih =>
    have here : i < text.length := by omega
    rw [textOkLoop, if_pos here, read_inside here, drop_eq_getElem_cons here, textOk]
    dsimp only
    by_cases printable : 0x20 < text[i].val ∧ text[i].val < 0x7F
    · rw [if_neg (by omega), decide_eq_true printable, Bool.true_and, ih (i + 1) (by omega)]
      by_cases escape : text[i] = percent
      · rw [if_pos escape, decide_eq_false (not_not.mpr escape), Bool.false_or]
        by_cases short : text.length - i < 3
        · rw [if_pos short]
          have few : (text.drop (i + 1)).length < 2 := by
            rw [length_drop]
            omega
          have none_ : hexFollows (text.drop (i + 1)) = false := by
            cases after : text.drop (i + 1) with
            | nil => rfl
            | cons high rest =>
              rw [after, length_cons] at few
              rw [eq_nil_of_length_eq_zero (show rest.length = 0 by omega)]
              rfl
          rw [none_]
          rfl
        have second : i + 1 < text.length := by omega
        have third : i + 2 < text.length := by omega
        rw [if_neg short, read_inside second, read_inside third, drop_eq_getElem_cons second,
          drop_eq_getElem_cons third, hexFollows]
        dsimp only
        cases urlHex text[i + 1] with
        | none => exact if_pos rfl
        | some high =>
          rw [if_neg (Option.some_ne_none high)]
          cases urlHex text[i + 2] with
          | none => exact if_pos rfl
          | some low => exact if_neg (Option.some_ne_none low)
      · rw [if_neg escape, decide_eq_true escape, Bool.true_or, Bool.true_and]
    · rw [if_pos (by omega), decide_eq_false printable, Bool.false_and, Bool.false_and]

theorem url_text_ok (text : List Byte) : urlTextOk text = some (textOk text) := text_ok_loop 0

theorem between_snoc {j : Nat} (some_ : i ≤ j) (inside : j < text.length) :
    between text i (j + 1) = between text i j ++ [text[j]] := by
  unfold between
  rw [show j + 1 - i = (j - i) + 1 by omega, take_add_one, List.getElem?_drop, show i + (j - i) = j by omega,
    read_inside inside]
  rfl

theorem last_at {start k : Nat} (inside : k ≤ text.length) : lastAt text start k = some (if atSign ∈ between text start k
        then some (start + ((between text start k).rdropWhile (· ≠ atSign)).length) else none) := by
  induction k with
  | zero =>
    rw [between_nil (Nat.zero_le start)]
    rfl
  | succ k ih =>
    rw [lastAt]
    by_cases some_ : start < k + 1
    · rw [if_pos some_, read_inside (by omega), between_snoc (by omega) (by omega), rdropWhile_concat]
      dsimp only
      by_cases found : text[k] = atSign
      · rw [if_pos found, if_pos (by rw [found]; exact mem_append_right _ (mem_singleton_self _)),
          if_neg (by rw [found]; decide), length_append, between_length (by omega), length_singleton,
          show start + (k - start + 1) = k + 1 by omega]
      have keeps : decide (text[k] ≠ atSign) = true := decide_eq_true found
      rw [if_neg found, ih (by omega), if_pos keeps]
      refine congrArg some (if_congr ?_ rfl rfl)
      rw [mem_append, mem_singleton, or_iff_left (Ne.symm found)]
    rw [if_neg some_, between_nil (by omega)]
    rfl

theorem zone_loop_zone {close : Nat} (inside : close ≤ text.length) (k : Nat) :
    zoneLoop text close (close - k) true k = some ((between text k close).all isZoneByte) := by
  generalize left_ : close - k = left
  induction left generalizing k with
  | zero =>
    rw [between_nil (by omega)]
    rfl
  | succ left ih =>
    have here : k < text.length := by omega
    rw [zoneLoop, if_pos (by omega), read_inside here, between_cons (by omega) here, all_cons]
    dsimp only
    rw [if_pos rfl]
    cases isZoneByte text[k] with
    | true => rw [if_pos rfl, ih (k + 1) (by omega), Bool.true_and]
    | false => rfl

theorem zone_loop_more {close left : Nat} (more : Nat) (zone : Bool) (k : Nat) (enough : close - k ≤ left) (further : left ≤ more) :
    zoneLoop text close more zone k = zoneLoop text close left zone k := by
  induction left generalizing more zone k with
  | zero =>
    cases more with
    | zero => rfl
    | succ more =>
      simp only [zoneLoop]
      rw [if_neg (by omega)]
  | succ left ih =>
    obtain ⟨more, rfl⟩ : ∃ m, more = m + 1 := ⟨more - 1, by omega⟩
    have next := fun z => ih more z (k + 1) (by omega) (by omega)
    rw [zoneLoop, zoneLoop, next, next, ih more true (k + 3) (by omega) (by omega)]

theorem zone_loop {close : Nat} (inside : close ≤ text.length) (k : Nat) :
    zoneLoop text close (close - k) false k = some (zoneShape (between text k close)) := by
  generalize left_ : close - k = left
  induction left generalizing k with
  | zero =>
    rw [between_nil (by omega)]
    rfl
  | succ left ih =>
    have here : k < text.length := by omega
    rw [zoneLoop, if_pos (by omega), read_inside here, between_cons (by omega) here, zoneShape]
    dsimp only
    rw [if_neg (by decide)]
    by_cases address : urlHex text[k] ≠ none ∨ text[k] = colon ∨ text[k] = dot
    · rw [if_pos address, if_pos address, ih (k + 1) (by omega)]
    rw [if_neg address, if_neg address]
    by_cases escape : text[k] = percent
    · rw [decide_eq_true escape, Bool.true_and]
      by_cases room : 3 < close - k
      · have follows : between text (k + 1) close = text[k + 1] :: text[k + 1 + 1] :: between text (k + 3) close := by
          rw [between_cons (by omega) (by omega), between_cons (by omega) (by omega)]
        have word : between text (k + 1) (k + 1 + [byteOf '2'.toNat, byteOf '5'.toNat].length) =
            [text[k + 1], text[k + 1 + 1]] := by
          simp only [length_cons, length_nil]
          rw [between_cons (by omega) (by omega), between_cons (by omega) (by omega), between_nil (by omega)]
        have some_ : between text (k + 3) close ≠ [] := by
          intro nothing
          have size := congrArg List.length nothing
          rw [between_length inside, length_nil] at size
          omega
        rw [if_pos ⟨escape, room⟩, stands_at _ (by simp only [length_cons, length_nil]; omega), word, follows,
          zoneFollows]
        by_cases same : text[k + 1] = byteOf '2'.toNat ∧ text[k + 1 + 1] = byteOf '5'.toNat
        · rw [decide_eq_true (by rw [same.1, same.2]), decide_eq_true ⟨same.1, same.2, some_⟩, Bool.true_and]
          dsimp only
          rw [zone_loop_more left true (k + 3) (le_refl _) (by omega), zone_loop_zone inside]
        rw [decide_eq_false fun whole => same ?_, decide_eq_false fun whole => same ⟨whole.1, whole.2.1⟩]
        · rfl
        obtain ⟨first, rest⟩ := List.cons.inj whole
        exact ⟨first.symm, (List.cons.inj rest).1.symm⟩
      rw [if_neg fun both => room both.2]
      have few : (between text (k + 1) close).length < 3 := by
        rw [between_length inside]
        omega
      have refused : zoneFollows (between text (k + 1) close) = false := by
        cases after : between text (k + 1) close with
        | nil => rfl
        | cons first rest =>
          rw [after, length_cons] at few
          cases rest with
          | nil => rfl
          | cons second zone =>
            rw [length_cons] at few
            rw [eq_nil_of_length_eq_zero (show zone.length = 0 by omega), zoneFollows,
              decide_eq_false fun whole => whole.2.2 rfl, Bool.false_and]
      rw [refused]
    · rw [if_neg fun both => escape both.1, decide_eq_false escape, Bool.false_and]

end ProvenC.Url.Components

import ProvenC.Bytes

/-!
# The strict DER reader

Definite, minimal lengths and single-byte tags only. What is being read is the list of the bytes left;
a read that fails leaves them as they were.
-/

namespace ProvenC.X509.Der

open List Bytes

def derBoolean : Byte := 0x01
def derInteger : Byte := 0x02
def derBitstring : Byte := 0x03
def derOctets : Byte := 0x04
def derNull : Byte := 0x05
def derOid : Byte := 0x06
def derUtctime : Byte := 0x17
def derGentime : Byte := 0x18
def derSequence : Byte := 0x30

structure Element where
  tag : Byte
  body : List Byte
  whole : List Byte
  rest : List Byte
  deriving DecidableEq, Repr

/-- The element with a head of `head` bytes and `len` bytes of body. -/
def derTake (bytes : List Byte) (tag : Byte) (head len : Nat) : Option Element :=
  if bytes.length - head < len then none
  else some ⟨tag, (bytes.drop head).take len, bytes.take (head + len), bytes.drop (head + len)⟩

def derRead : List Byte → Option Element
  | tag :: first :: more =>
    if tag.val % 32 = 31 then none
    else if first.val ≥ 128 then
      let count := first.val % 128
      let len := (more.take count).foldl (fun len b => len * 256 + b.val) 0
      if count = 0 ∨ count > 4 ∨ more.length < count then none
      else if more.head? = some 0 then none
      else if len < 128 then none
      else derTake (tag :: first :: more) tag (2 + count) len
    else derTake (tag :: first :: more) tag 2 first.val
  | _ => none

def derExpect (bytes : List Byte) (want : Byte) : Option Element :=
  match derRead bytes with
  | some element => if element.tag = want then some element else none
  | none => none

/-- `der_uint`: the magnitude, and the bytes after it. -/
def derUint (bytes : List Byte) : Option (List Byte × List Byte) :=
  match derExpect bytes derInteger with
  | none => none
  | some element =>
    match element.body with
    | [] => none
    | [b] => if b.val ≥ 128 then none else some ([b], element.rest)
    | b :: c :: more =>
      if b.val ≥ 128 then none
      else if b = 0 ∧ c.val < 128 then none
      else if b = 0 then some (c :: more, element.rest)
      else some (b :: c :: more, element.rest)

def derSmallUint (bytes : List Byte) : Option (Nat × List Byte) :=
  match derUint bytes with
  | none => none
  | some (magnitude, rest) =>
    if magnitude.length > 4 then none
    else some (magnitude.foldl (fun x b => x * 256 + b.val) 0, rest)

variable {element : Element}

theorem der_take_parts {bytes : List Byte} {tag : Byte} {head len : Nat}
    (taken : derTake bytes tag head len = some element) : element.tag = tag ∧ element.rest = bytes.drop (head + len) := by
  unfold derTake at taken
  split at taken
  · cases taken
  obtain rfl := Option.some.inj taken
  exact ⟨rfl, rfl⟩

/-- The loops over the elements of a list: each has the tag `want`, and `step` takes it in. -/
def derEach {σ : Type} (want : Byte) (step : σ → Element → Option σ) : Nat → List Byte → σ → Option σ
  | _, [], state => some state
  | 0, _ :: _, _ => none
  | fuel + 1, first :: more, state =>
    match derExpect (first :: more) want with
    | none => none
    | some element =>
      match step state element with
      | none => none
      | some next => derEach want step fuel element.rest next

def derAll {σ : Type} (want : Byte) (step : σ → Element → Option σ) (bytes : List Byte) (state : σ) : Option σ :=
  derEach want step bytes.length bytes state

theorem der_read_shorter {bytes : List Byte} (read : derRead bytes = some element) :
    element.rest.length < bytes.length := by
  unfold derRead at read
  split at read
  next tag first more =>
    split at read
    · cases read
    split at read
    · dsimp only at read
      split at read
      · cases read
      split at read
      · cases read
      split at read
      · cases read
      rw [(der_take_parts read).2, length_drop, length_cons]
      omega
    rw [(der_take_parts read).2, length_drop, length_cons]
    omega
  · cases read

theorem der_expect_read {bytes : List Byte} {want : Byte}
    (read : derExpect bytes want = some element) : derRead bytes = some element ∧ element.tag = want := by
  unfold derExpect at read
  split at read
  next found same =>
    split at read
    · obtain rfl := Option.some.inj read
      exact ⟨same, by assumption⟩
    · cases read
  · cases read

theorem der_each_turn {σ : Type} (want : Byte) (step : σ → Element → Option σ) (fuel : Nat)
    (first : Byte) (more : List Byte) (state : σ) : derEach want step (fuel + 1) (first :: more) state =
      (derExpect (first :: more) want).bind fun element =>
        (step state element).bind fun next => derEach want step fuel element.rest next := by
  rw [derEach]
  cases derExpect (first :: more) want with
  | none => rfl
  | some element =>
    simp only [Option.bind_some]
    cases step state element with
    | none => rfl
    | some next => rfl

theorem der_each_enough {σ : Type} (want : Byte) (step : σ → Element → Option σ) (fuel : Nat)
    (bytes : List Byte) (state : σ) (enough : bytes.length ≤ fuel) :
    derEach want step fuel bytes state = derAll want step bytes state := by
  unfold derAll
  generalize same : bytes.length = size at enough
  induction size using Nat.strong_induction_on generalizing fuel bytes state with
  | _ size ih =>
    cases bytes with
    | nil =>
      subst same
      simp [derEach]
    | cons first more =>
      subst same
      obtain ⟨fuel, rfl⟩ : ∃ k, fuel = k + 1 := ⟨fuel - 1, by simp at enough; omega⟩
      rw [length_cons, der_each_turn, der_each_turn]
      cases found : derExpect (first :: more) want with
      | none => rfl
      | some element =>
        have shorter := der_read_shorter (der_expect_read found).1
        simp only [length_cons] at shorter enough ih
        simp only [Option.bind_some]
        cases step state element with
        | none => rfl
        | some next =>
          simp only [Option.bind_some]
          rw [ih element.rest.length (by omega) fuel element.rest next rfl (by omega),
            ih element.rest.length (by omega) more.length element.rest next rfl (by omega)]

theorem der_all_nil {σ : Type} (want : Byte) (step : σ → Element → Option σ) (state : σ) :
    derAll want step [] state = some state := rfl

theorem der_all_turn {σ : Type} (want : Byte) (step : σ → Element → Option σ) {bytes : List Byte}
    (state : σ) (more : bytes ≠ []) : derAll want step bytes state = (derExpect bytes want).bind fun element =>
        (step state element).bind fun next => derAll want step element.rest next := by
  cases bytes with
  | nil => exact absurd rfl more
  | cons first rest =>
    rw [derAll, length_cons, der_each_turn]
    cases found : derExpect (first :: rest) want with
    | none => rfl
    | some element =>
      have shorter := der_read_shorter (der_expect_read found).1
      rw [length_cons] at shorter
      simp only [Option.bind_some]
      cases step state element with
      | none => rfl
      | some next => exact der_each_enough want step rest.length element.rest next (by omega)

theorem der_all_keeps {σ : Type} {want : Byte} {step : σ → Element → Option σ} {Inv : σ → Prop}
    (keeps : ∀ state element next, Inv state → step state element = some next → Inv next)
    {bytes : List Byte} {state last : σ} (start : Inv state) (read : derAll want step bytes state = some last) :
    Inv last := by
  generalize same : bytes.length = size
  induction size using Nat.strong_induction_on generalizing bytes state with
  | _ size ih =>
    by_cases more : bytes = []
    · rw [more, der_all_nil] at read
      obtain rfl := Option.some.inj read
      exact start
    rw [der_all_turn _ _ _ more] at read
    obtain ⟨element, found, read⟩ := Option.bind_eq_some_iff.mp read
    obtain ⟨next, stepped, read⟩ := Option.bind_eq_some_iff.mp read
    have shorter := der_read_shorter (der_expect_read found).1
    exact ih _ (same ▸ shorter) (keeps _ _ _ start stepped) read rfl

/-- The elements of a list, each as `read` takes it: what a loop over them reads, all at once. -/
def derList {α : Type} (want : Byte) (read : Element → Option α) (bytes : List Byte) : Option (List α) :=
  derAll want (fun taken element => (read element).map fun item => taken ++ [item]) bytes []

theorem der_all_fold {α σ : Type} (want : Byte) (read : Element → Option α) (take : σ → α → σ)
    (bytes : List Byte) (state : σ) (taken : List α) :
    derAll want (fun state element => (read element).map (take state)) bytes (taken.foldl take state) =
      (derAll want (fun taken element => (read element).map fun item => taken ++ [item]) bytes taken).map
        fun items => items.foldl take state := by
  generalize same : bytes.length = size
  induction size using Nat.strong_induction_on generalizing bytes taken with
  | _ size ih =>
    by_cases more : bytes = []
    · rw [more, der_all_nil, der_all_nil, Option.map_some]
    rw [der_all_turn _ _ _ more, der_all_turn _ _ _ more]
    cases found : derExpect bytes want with
    | none => rfl
    | some element =>
      have shorter := der_read_shorter (der_expect_read found).1
      simp only [Option.bind_some]
      cases read element with
      | none => rfl
      | some item =>
        have turn := ih element.rest.length (same ▸ shorter) element.rest (taken ++ [item]) rfl
        rw [foldl_append] at turn
        exact turn

theorem der_all_list {α σ : Type} (want : Byte) (read : Element → Option α) (take : σ → α → σ)
    (bytes : List Byte) (state : σ) : derAll want (fun state element => (read element).map (take state)) bytes state =
      (derList want read bytes).map fun items => items.foldl take state :=
  der_all_fold want read take bytes state []

end ProvenC.X509.Der

import ProvenC.Lib.Dotted
import ProvenC.X509.Hosts

/-!
# Name constraints

`dns_under`, `ip_under`, `subtrees_scan` and `name_constraints_ok`; then the subtrees of an authority as
two lists, and what a certificate that passes them says about each of its names.
-/

namespace ProvenC.X509.Constraints

open List Bytes X509.Der X509.Fields X509.Hosts Http.Head Lib.Dotted

def dnsUnder (name c : List Byte) : Bool :=
  if c = [] then true
  else if c.head? = some dot then
    decide (name.length > c.length) && eqAsciiCi (name.drop (name.length - c.length)) c
  else if name.length = c.length then eqAsciiCi name c
  else
    decide (name.length > c.length) && name[name.length - c.length - 1]? == some dot &&
      eqAsciiCi (name.drop (name.length - c.length)) c

/-- The subtree `c` is an address and a mask, `ip` an address of the same size. -/
def InRange (c ip : List Byte) : Prop :=
  c.length = 2 * ip.length ∧ ∀ i < ip.length,
      (ip.getD i 0).val &&& (c.getD (ip.length + i) 0).val = (c.getD i 0).val &&& (c.getD (ip.length + i) 0).val

instance (c ip : List Byte) : Decidable (InRange c ip) := by unfold InRange; infer_instance

def ipUnder (ip c : List Byte) : Bool := decide (InRange c ip)

def subtreeBase (tree : Element) : Option (Byte × List Byte) :=
  match derRead tree.body with
  | none => none
  | some base => if base.rest ≠ [] then none else some (base.tag, base.body)

/-- One turn of the loop of `subtrees_scan`: the flags `typed` and `hit`. -/
def scanBase (kind : NameKind) (name : List Byte) (excluded : Bool) (flags : Bool × Bool)
    (base : Byte × List Byte) : Bool × Bool :=
  if base.1 = 0x82 ∧ kind = .dns then
    let wild := isWild name
    let n := if wild then name.drop 2 else name
    -- a wildcard can expand into an excluded subtree below its own name
    (true, flags.2 || dnsUnder n base.2 || (excluded && wild && dnsUnder base.2 n))
  else if base.1 = 0x87 ∧ kind = .ip then (true, flags.2 || ipUnder name base.2)
  else flags

/-- `subtrees_scan`: `typed` and `hit`, unless the list is malformed. -/
def subtreesScan (list : List Byte) (kind : NameKind) (name : List Byte) (excluded : Bool) : Option (Bool × Bool) :=
  derAll derSequence (fun flags tree => (subtreeBase tree).map (scanBase kind name excluded flags)) list
    (false, false)

def clearOf (excluded : Option Element) (kind : NameKind) (name : List Byte) : Bool :=
  match excluded with
  | none => true
  | some list =>
    match subtreesScan list.body kind name true with
    | none => false
    | some (_, hit) => !hit

def allowedBy (permitted : Option Element) (kind : NameKind) (name : List Byte) : Bool :=
  match permitted with
  | none => true
  | some list =>
    match subtreesScan list.body kind name false with
    | none => false
    | some (typed, hit) => !(typed && !hit)

def permittedList (ca : Cert) : Option Element := derExpect ca.nameConstraints 0xa0

def excludedList (ca : Cert) : Option Element := derExpect (derSkip ca.nameConstraints 0xa0) 0xa1

def nameConstraintsOk (ca below : Cert) : Bool :=
  if derSkip (derSkip ca.nameConstraints 0xa0) 0xa1 ≠ [] ∨ (permittedList ca = none ∧ excludedList ca = none) then
    false
  else if (altNames below).all fun (kind, v) =>
      kind == .other || (clearOf (excludedList ca) kind v && allowedBy (permittedList ca) kind v) then
    -- a list that does not parse must fail even when there is no name to hold against it
    (match excludedList ca with
      | none => true
      | some list => (subtreesScan list.body .other [] true).isSome) &&
    (match permittedList ca with
      | none => true
      | some list => (subtreesScan list.body .other [] false).isSome)
  else false

def subtrees (list : Option Element) : List (Byte × List Byte) :=
  match list with
  | none => []
  | some list => (derList derSequence subtreeBase list.body).getD []

def excludedSubtrees (ca : Cert) : List (Byte × List Byte) := subtrees (excludedList ca)

def permittedSubtrees (ca : Cert) : List (Byte × List Byte) := subtrees (permittedList ca)

def lowered (name : List Byte) : List Byte := name.map toLower

/-- The DNS subtree `base` covers `name`, letters in either case. -/
def NameUnder (base name : List Byte) : Prop := Under dot (lowered name) (lowered base)

theorem eq_ascii_ci_iff {a b : List Byte} : eqAsciiCi a b = true ↔ lowered a = lowered b := by
  simp [eqAsciiCi, lowered]

theorem to_lower_dot {c : Byte} : toLower c = dot ↔ c = dot := by
  have bound := c.isLt
  simp only [toLower, dot, Fin.ext_iff]
  split
  next upper =>
    simp only [Bool.and_eq_true, decide_eq_true_eq] at upper
    rw [byte_of_val]
    have numeral : (46 : Byte).val = 46 := rfl
    omega
  · rfl

variable {name : List Byte}

theorem lowered_head : (lowered name).head? = some dot ↔ name.head? = some dot := by
  cases name with
  | nil => simp [lowered]
  | cons first more => simp [lowered, to_lower_dot]

theorem lowered_last : (lowered name).getLast? = some dot ↔ name.getLast? = some dot := by
  rw [lowered, List.getLast?_map]
  cases name.getLast? with
  | none => simp
  | some last => simp [to_lower_dot]

variable {c : List Byte}

theorem ends_iff : eqAsciiCi (name.drop (name.length - c.length)) c = true ↔ lowered c <:+ lowered name := by
  rw [eq_ascii_ci_iff, suffix_iff_eq_drop]
  simp only [lowered, map_drop, length_map]
  exact eq_comm

theorem suffix_longer (suffix : lowered c <:+ lowered name)
    (other : lowered c ≠ lowered name) : c.length < name.length := by
  have short := suffix.length_le
  simp only [lowered, length_map] at short
  refine lt_of_le_of_ne short ?_
  intro same
  exact other (suffix.eq_of_length (by simpa [lowered] using same))

theorem lowered_length (same : lowered c = lowered name) : c.length = name.length := by
  simpa [lowered] using congrArg List.length same

theorem dotted_ends : dot :: lowered c <:+ lowered name ↔
      c.length < name.length ∧ name[name.length - c.length - 1]? = some dot ∧ lowered c <:+ lowered name := by
  rw [suffix_iff_eq_drop, suffix_iff_eq_drop]
  simp only [length_cons, lowered, length_map]
  by_cases longer : c.length < name.length
  · have inside : name.length - c.length - 1 < name.length := by omega
    have split : List.drop (name.length - (c.length + 1)) (name.map toLower) =
        toLower name[name.length - c.length - 1] :: List.drop (name.length - c.length) (name.map toLower) := by
      rw [drop_eq_getElem_cons (by rw [length_map]; omega), getElem_map,
        show name.length - (c.length + 1) + 1 = name.length - c.length by omega]
      rfl
    rw [split, List.cons.injEq, List.getElem?_eq_getElem (by omega), Option.some.injEq]
    constructor
    · rintro ⟨here, rest⟩
      exact ⟨longer, to_lower_dot.mp here.symm, rest⟩
    rintro ⟨-, here, rest⟩
    exact ⟨(to_lower_dot.mpr here).symm, rest⟩
  constructor
  · intro same
    have lengths := congrArg List.length same
    simp only [length_cons, length_map, length_drop] at lengths
    omega
  intro parts
  exact absurd parts.1 longer

theorem dns_under_iff (name c : List Byte) : dnsUnder name c = true ↔ NameUnder c name := by
  unfold dnsUnder NameUnder Under
  simp only [ne_eq, lowered_head]
  by_cases empty : c = []
  · simp [empty, lowered]
  have filled : lowered c ≠ [] := by simpa [lowered] using empty
  rw [if_neg empty]
  by_cases leading : c.head? = some dot
  · rw [if_pos leading]
    simp only [leading, filled, Bool.and_eq_true, decide_eq_true_eq, ends_iff, false_or, true_and,
      not_true, false_and, or_false]
    constructor
    · rintro ⟨longer, suffix⟩
      refine ⟨suffix, ?_⟩
      intro same
      have lengths := lowered_length same
      omega
    rintro ⟨suffix, other⟩
    exact ⟨suffix_longer suffix other, suffix⟩
  rw [if_neg leading]
  simp only [leading, filled, false_or, false_and, not_false_eq_true, true_and]
  by_cases same : name.length = c.length
  · rw [if_pos same, eq_ascii_ci_iff, dotted_ends]
    constructor
    · intro equal
      exact Or.inl equal.symm
    rintro (equal | ⟨longer, -⟩)
    · exact equal.symm
    · omega
  rw [if_neg same]
  simp only [Bool.and_eq_true, decide_eq_true_eq, beq_iff_eq, ends_iff, dotted_ends]
  constructor
  · rintro ⟨⟨longer, here⟩, suffix⟩
    exact Or.inr ⟨longer, here, suffix⟩
  rintro (equal | ⟨longer, here, suffix⟩)
  · exact absurd (lowered_length equal).symm same
  · exact ⟨⟨longer, here⟩, suffix⟩

theorem fold_scan_typed (kind : NameKind) (name : List Byte) (excluded : Bool) (bases : List (Byte × List Byte))
    (flags : Bool × Bool) : bases.foldl (scanBase kind name excluded) flags =
      (flags.1 || bases.any fun base => (scanBase kind name excluded (false, false) base).1,
        flags.2 || bases.any fun base => (scanBase kind name excluded (false, false) base).2) := by
  induction bases generalizing flags with
  | nil => simp
  | cons base more ih =>
    rw [foldl_cons, ih]
    simp only [any_cons]
    unfold scanBase
    by_cases dns : base.1 = 0x82 ∧ kind = .dns
    · simp [if_pos dns, Bool.or_assoc]
    by_cases ip : base.1 = 0x87 ∧ kind = .ip
    · simp [if_neg dns, if_pos ip, Bool.or_assoc]
    · simp [if_neg dns, if_neg ip]

theorem subtrees_scan_eq (list : Element) (kind : NameKind) (name : List Byte) (excluded : Bool)
    {flags : Bool × Bool} (scanned : subtreesScan list.body kind name excluded = some flags) : flags =
      ((subtrees (some list)).any fun base => (scanBase kind name excluded (false, false) base).1,
        (subtrees (some list)).any fun base => (scanBase kind name excluded (false, false) base).2) := by
  unfold subtreesScan at scanned
  rw [der_all_list, Option.map_eq_some_iff] at scanned
  obtain ⟨bases, read, rfl⟩ := scanned
  rw [fold_scan_typed]
  simp [subtrees, read]

variable {kind : NameKind}

theorem clear_of_list {excluded : Option Element}
    (clear : clearOf excluded kind name = true) {base : Byte × List Byte} (listed : base ∈ subtrees excluded) :
    (scanBase kind name true (false, false) base).2 = false := by
  cases excluded with
  | none => cases listed
  | some list =>
    simp only [clearOf] at clear
    cases scanned : subtreesScan list.body kind name true with
    | none => simp [scanned] at clear
    | some flags =>
      simp only [scanned, Bool.not_eq_true'] at clear
      rw [subtrees_scan_eq list kind name true scanned] at clear
      have every := any_eq_false.mp clear base listed
      simpa using every

theorem allowed_by_list {permitted : Option Element}
    (allowed : allowedBy permitted kind name = true) {base : Byte × List Byte}
    (listed : base ∈ subtrees permitted) (typed : (scanBase kind name false (false, false) base).1 = true) :
    ∃ other ∈ subtrees permitted, (scanBase kind name false (false, false) other).2 = true := by
  cases permitted with
  | none => cases listed
  | some list =>
    simp only [allowedBy] at allowed
    cases scanned : subtreesScan list.body kind name false with
    | none => simp [scanned] at allowed
    | some flags =>
      simp only [scanned] at allowed
      rw [subtrees_scan_eq list kind name false scanned] at allowed
      have some_typed : (subtrees (some list)).any
          (fun base => (scanBase kind name false (false, false) base).1) = true :=
        any_eq_true.mpr ⟨base, listed, typed⟩
      rw [some_typed] at allowed
      have some_hit : (subtrees (some list)).any
          (fun base => (scanBase kind name false (false, false) base).2) = true := by
        simpa using allowed
      exact any_eq_true.mp some_hit

theorem each_name_checked {ca below : Cert} (passed : nameConstraintsOk ca below = true) (named : (kind, name) ∈ altNames below) (constrained : kind ≠ .other) :
    clearOf (excludedList ca) kind name = true ∧ allowedBy (permittedList ca) kind name = true := by
  unfold nameConstraintsOk at passed
  split at passed
  · cases passed
  split at passed
  next every =>
    have here := all_eq_true.mp every _ named
    simpa [constrained] using here
  · cases passed

end ProvenC.X509.Constraints

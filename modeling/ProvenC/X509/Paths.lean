import ProvenC.X509.Constraints

/-!
# The checks of a complete path

`cv_check_path`: everything but the signatures, in the order the checks are made. The first one that fails
is the answer.
-/

namespace ProvenC.X509.Paths

open List Bytes X509.Fields X509.Constraints

inductive Purpose where
  | server
  | client
  | codeSigning
  | timestamping
  deriving DecidableEq, Repr

/-- `proven_cert_fault_t`, as far as a verification sets it. -/
inductive Fault where
  | none
  | malformed
  | noIssuer
  | badSignature
  | algorithm
  | notACa
  | pathLength
  | nameConstraint
  | criticalExtension
  | usage
  | expired
  | notYetValid
  | nameMismatch
  | tooDeep
  deriving DecidableEq, Repr

def firstFault (faults : List Fault) : Fault := (faults.find? (· ≠ .none)).getD .none

def faultIf (bad : Prop) [Decidable bad] (fault : Fault) : Fault := if bad then fault else .none

def wantedUsage (use : Purpose) : Nat :=
  match use with
  | .client => ekuClientAuth
  | .codeSigning => ekuCodeSigning
  | .timestamping => ekuTimeStamping
  | .server => ekuServerAuth

def signerFaults (use : Purpose) (leaf : Cert) : List Fault :=
  if use = .codeSigning ∨ use = .timestamping then
    [ faultIf (leaf.hasExtKeyUsage = false ∨ leaf.extKeyUsage &&& wantedUsage use = 0) .usage,
      faultIf (use = .timestamping ∧ (leaf.extKeyUsageCritical = false ∨ leaf.extKeyUsageCount ≠ 1)) .usage,
      faultIf (leaf.hasKeyUsage = true ∧ leaf.keyUsage &&& kuDigitalSignature = 0) .usage ]
  else []

/-- The checks of the authority at `i`, over the certificates before it. -/
def authorityFaults (path : List Cert) (i : Nat) (ca : Cert) : List Fault :=
  -- a version 1 anchor has no extension to say it is an authority: being an anchor says so
  [ faultIf (ca.isCa = false ∧ ¬(i = path.length - 1 ∧ ca.version < 3)) .notACa,
    faultIf (ca.hasKeyUsage = true ∧ ca.keyUsage &&& kuKeyCertSign = 0) .notACa,
    faultIf (ca.hasPathLen = true ∧ i - 1 > ca.pathLen) .pathLength ] ++
  (if ca.nameConstraints = [] then []
    else (path.take i).map fun below => faultIf (nameConstraintsOk ca below = false) .nameConstraint)

def timeFaults (now : Int) (c : Cert) : List Fault :=
  [faultIf (now < c.notBefore) .notYetValid, faultIf (now > c.notAfter) .expired]

/-- `cv_check_path` over the path of `leaf` and its issuers. -/
def cvCheckPath (use : Purpose) (now : Int) (leaf : Cert) (issuers : List Cert) : Fault :=
  let path := leaf :: issuers
  firstFault
    (signerFaults use leaf ++ path.dropLast.map (fun c => faultIf (c.unknownCritical = true) .criticalExtension) ++
      issuers.zipIdx.flatMap (fun (ca, i) => authorityFaults path (i + 1) ca) ++
      (path.take (max 1 issuers.length)).map
        (fun c => faultIf (c.hasExtKeyUsage = true ∧ c.extKeyUsage &&& (wantedUsage use ||| ekuAny) = 0) .usage) ++
      path.flatMap (timeFaults now))

theorem first_fault_none (faults : List Fault) : firstFault faults = .none ↔ ∀ fault ∈ faults, fault = .none := by
  unfold firstFault
  cases found : faults.find? (· ≠ .none) with
  | none =>
    have clean := List.find?_eq_none.mp found
    simpa using clean
  | some fault =>
    have here := mem_of_find?_eq_some found
    have bad := List.find?_some found
    simp only [Option.getD_some]
    constructor
    · intro none
      simp [none] at bad
    intro clean
    exact clean fault here

theorem fault_if_none {bad : Prop} [Decidable bad] {fault : Fault} (faulty : fault ≠ .none) :
    faultIf bad fault = .none ↔ ¬bad := by
  unfold faultIf
  by_cases holds : bad
  · simp [holds, faulty]
  · simp [holds]

structure CanSign (use : Purpose) (leaf : Cert) : Prop where
  purpose : leaf.hasExtKeyUsage = true ∧ leaf.extKeyUsage &&& wantedUsage use ≠ 0
  alone : use = .timestamping → leaf.extKeyUsageCritical = true ∧ leaf.extKeyUsageCount = 1
  signs : leaf.hasKeyUsage = true → leaf.keyUsage &&& kuDigitalSignature ≠ 0

structure MayIssue (path : List Cert) (i : Nat) (ca : Cert) : Prop where
  authority : ca.isCa = true ∨ (i = path.length - 1 ∧ ca.version < 3)
  certSign : ca.hasKeyUsage = true → ca.keyUsage &&& kuKeyCertSign ≠ 0
  pathLength : ca.hasPathLen = true → i - 1 ≤ ca.pathLen
  names : ca.nameConstraints ≠ [] → ∀ below ∈ path.take i, nameConstraintsOk ca below = true

structure Acceptable (use : Purpose) (now : Int) (leaf : Cert) (issuers : List Cert) : Prop where
  signer : use = .codeSigning ∨ use = .timestamping → CanSign use leaf
  critical : ∀ c ∈ (leaf :: issuers).dropLast, c.unknownCritical = false
  authorities : ∀ i ca, issuers[i]? = some ca → MayIssue (leaf :: issuers) (i + 1) ca
  usage : ∀ c ∈ leaf :: issuers.dropLast, c.hasExtKeyUsage = true → c.extKeyUsage &&& (wantedUsage use ||| ekuAny) ≠ 0
  current : ∀ c ∈ leaf :: issuers, c.notBefore ≤ now ∧ now ≤ c.notAfter

theorem signer_clean (use : Purpose) (leaf : Cert) : (∀ fault ∈ signerFaults use leaf, fault = .none) ↔
      (use = .codeSigning ∨ use = .timestamping → CanSign use leaf) := by
  unfold signerFaults
  by_cases signing : use = .codeSigning ∨ use = .timestamping
  · rw [if_pos signing]
    simp only [forall_mem_cons, not_mem_nil, false_implies, implies_true, and_true,
      fault_if_none (show Fault.usage ≠ Fault.none by decide), signing, true_implies]
    constructor
    · rintro ⟨purpose, alone, signs⟩
      push Not at purpose alone signs
      exact ⟨by simpa using purpose, by simpa using alone, signs⟩
    rintro ⟨purpose, alone, signs⟩
    refine ⟨?_, ?_, ?_⟩
    · rintro (absent | other)
      · rw [purpose.1] at absent
        cases absent
      · exact purpose.2 other
    · rintro ⟨stamping, loose | many⟩
      · rw [(alone stamping).1] at loose
        cases loose
      · exact many (alone stamping).2
    rintro ⟨usage, cannot⟩
    exact signs usage cannot
  rw [if_neg signing]
  simp [signing]

theorem authority_clean (path : List Cert) (i : Nat) (ca : Cert) :
    (∀ fault ∈ authorityFaults path i ca, fault = .none) ↔ MayIssue path i ca := by
  unfold authorityFaults
  have notACa : Fault.notACa ≠ Fault.none := by decide
  have pathLength : Fault.pathLength ≠ Fault.none := by decide
  have nameConstraint : Fault.nameConstraint ≠ Fault.none := by decide
  simp only [forall_mem_append, forall_mem_cons, not_mem_nil, false_implies, implies_true, and_true,
    fault_if_none notACa, fault_if_none pathLength]
  constructor
  · rintro ⟨⟨authority, certSign, short⟩, names⟩
    refine ⟨?_, ?_, ?_, ?_⟩
    · by_contra none_of
      push Not at none_of
      refine authority ⟨by simpa using none_of.1, ?_⟩
      rintro ⟨last, old⟩
      exact absurd old (by simpa using none_of.2 last)
    · intro has zero
      exact certSign ⟨has, zero⟩
    · intro has
      by_contra long
      exact short ⟨has, by omega⟩
    intro constrained below inside
    rw [if_neg constrained] at names
    have clean := names _ (mem_map.mpr ⟨below, inside, rfl⟩)
    simpa using (fault_if_none nameConstraint).mp clean
  intro may
  refine ⟨⟨?_, ?_, ?_⟩, ?_⟩
  · rintro ⟨no_ca, not_old⟩
    rcases may.authority with is_ca | old
    · rw [no_ca] at is_ca
      cases is_ca
    · exact not_old old
  · rintro ⟨has, zero⟩
    exact may.certSign has zero
  · rintro ⟨has, long⟩
    have short := may.pathLength has
    omega
  intro fault inside
  split at inside
  · cases inside
  rename_i constrained
  obtain ⟨below, before, rfl⟩ := mem_map.mp inside
  rw [fault_if_none nameConstraint, may.names constrained below before]
  decide

theorem time_clean (now : Int) (c : Cert) :
    (∀ fault ∈ timeFaults now c, fault = .none) ↔ c.notBefore ≤ now ∧ now ≤ c.notAfter := by
  unfold timeFaults
  simp only [forall_mem_cons, not_mem_nil, false_implies, implies_true, and_true,
    fault_if_none (show Fault.notYetValid ≠ Fault.none by decide),
    fault_if_none (show Fault.expired ≠ Fault.none by decide)]
  omega

theorem usage_counts (leaf : Cert) (issuers : List Cert) :
    (leaf :: issuers).take (max 1 issuers.length) = leaf :: issuers.dropLast := by
  cases issuers with
  | nil => rfl
  | cons first more =>
    rw [show max 1 (first :: more).length = more.length + 1 by simp, take_succ_cons, dropLast_eq_take]
    rfl

theorem check_path_iff (use : Purpose) (now : Int) (leaf : Cert) (issuers : List Cert) :
    cvCheckPath use now leaf issuers = .none ↔ Acceptable use now leaf issuers := by
  have criticalExtension : Fault.criticalExtension ≠ Fault.none := by decide
  have usage : Fault.usage ≠ Fault.none := by decide
  unfold cvCheckPath
  simp only [first_fault_none, forall_mem_append, forall_mem_map, usage_counts, signer_clean]
  constructor
  · rintro ⟨⟨⟨⟨signer, critical⟩, authorities⟩, used⟩, current⟩
    refine ⟨signer, ?_, ?_, ?_, ?_⟩
    · intro c inside
      simpa using (fault_if_none criticalExtension).mp (critical c inside)
    · intro i ca here
      refine (authority_clean _ _ _).mp ?_
      intro fault inside
      exact authorities fault (mem_flatMap.mpr ⟨(ca, i), mem_zipIdx_iff_getElem?.mpr here, inside⟩)
    · intro c inside has zero
      exact (fault_if_none usage).mp (used c inside) ⟨has, zero⟩
    intro c inside
    refine (time_clean now c).mp ?_
    intro fault faulty
    exact current fault (mem_flatMap.mpr ⟨c, inside, faulty⟩)
  intro good
  refine ⟨⟨⟨⟨good.signer, ?_⟩, ?_⟩, ?_⟩, ?_⟩
  · intro c inside
    rw [fault_if_none criticalExtension, good.critical c inside]
    decide
  · intro fault inside
    obtain ⟨⟨ca, i⟩, here, faulty⟩ := mem_flatMap.mp inside
    have may := good.authorities i ca (mem_zipIdx_iff_getElem?.mp here)
    exact (authority_clean _ _ _).mpr may fault faulty
  · intro c inside
    rw [fault_if_none usage]
    rintro ⟨has, zero⟩
    exact good.usage c inside has zero
  intro fault inside
  obtain ⟨c, here, faulty⟩ := mem_flatMap.mp inside
  exact (time_clean now c).mpr (good.current c here) fault faulty

theorem constraints_checked {use : Purpose} {now : Int} {leaf : Cert} {issuers : List Cert}
    (accepted : cvCheckPath use now leaf issuers = .none) {ca : Cert} (issuing : ca ∈ issuers)
    (constrained : ca.nameConstraints ≠ []) : nameConstraintsOk ca leaf = true := by
  obtain ⟨i, here⟩ := List.getElem?_of_mem issuing
  have may := ((check_path_iff use now leaf issuers).mp accepted).authorities i ca here
  exact may.names constrained leaf (by simp)

end ProvenC.X509.Paths

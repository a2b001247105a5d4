import ProvenC.Lib.Searching
import ProvenC.X509.Paths

/-!
# The search for a path

`check_signature`, `cv_search` and `proven_cert_verify`. The signature schemes and the digests are a
`Verifier` this code calls.
-/

namespace ProvenC.X509.Search

open Bytes X509.Fields X509.Hosts X509.Paths Lib.Searching

/-- `proven_cert_store_t`: every entry was read from a copy of its own bytes. -/
structure Store where
  items : List Cert
  read : ∀ anchor ∈ items, certParse anchor.der = some anchor

def Store.empty : Store := ⟨[], by simp⟩

def Store.addDer (store : Store) (der : List Byte) : Option Store :=
  match parsed : certParse der with
  | none => none
  | some cert =>
    some ⟨store.items ++ [cert], by
      intro anchor inside
      rcases List.mem_append.mp inside with old | new
      · exact store.read anchor old
      · rw [List.mem_singleton.mp new, cert_parse_der parsed, parsed]⟩

structure Verifier where
  digestOf : Hash → List Byte → List Byte
  rsaVerifyPkcs1 : (n e : List Byte) → Hash → (digest signature : List Byte) → Bool
  rsaVerifyPss : (n e : List Byte) → Hash → (saltLen : Nat) → (digest signature : List Byte) → Bool
  ecdsaVerifyDer : KeyKind → (key digest signature : List Byte) → Bool
  ed25519Verify : (key message signature : List Byte) → Bool

def checkSignature (verifier : Verifier) (child issuer : Cert) : Fault :=
  let digest := verifier.digestOf child.sigHash child.tbs
  let answer (ok : Bool) : Fault := if ok then .none else .badSignature
  match child.sigKind with
  | .rsaPkcs1 =>
    if issuer.keyKind ≠ .rsa then .badSignature
    else answer (verifier.rsaVerifyPkcs1 issuer.rsaN issuer.rsaE child.sigHash digest child.signature)
  | .rsaPss =>
    if issuer.keyKind ≠ .rsa then .badSignature
    else
      answer (verifier.rsaVerifyPss issuer.rsaN issuer.rsaE child.sigHash child.sigSaltLen digest child.signature)
  | .ecdsa =>
    if issuer.keyKind ≠ .ecP256 ∧ issuer.keyKind ≠ .ecP384 then .badSignature
    else answer (verifier.ecdsaVerifyDer issuer.keyKind issuer.key digest child.signature)
  | .ed25519 =>
    if issuer.keyKind ≠ .ed25519 ∨ child.signature.length ≠ 64 then .badSignature
    else answer (verifier.ed25519Verify issuer.key child.tbs child.signature)
  | .unknown => .algorithm

def provenCertMaxDepth : Nat := 10
def cvMaxExtra : Nat := 16
def cvBudget : Nat := 64

structure Setting where
  verifier : Verifier
  anchors : List Cert
  extra : List Cert
  use : Purpose
  now : Int

/-- `proven_cv_t`. Entries of `path` past those in use are whatever earlier attempts left there. -/
structure Cv where
  used : Nat → Bool
  path : Nat → Cert
  fault : Fault
  rank : Nat
  depth : Nat
  budget : Nat

def faultRank (fault : Fault) : Nat :=
  match fault with
  | .none => 9
  | .expired | .notYetValid => 5
  | .noIssuer => 0
  | .badSignature | .algorithm => 1
  | _ => 3

def cvNote (cv : Cv) (fault : Fault) : Cv :=
  if faultRank fault > cv.rank then { cv with rank := faultRank fault, fault := fault } else cv

/-- `cv_finish`: whether the first `n` entries are an acceptable path. -/
def cvFinish (setting : Setting) (cv : Cv) (n : Nat) : Bool × Cv :=
  let fault := cvCheckPath setting.use setting.now (cv.path 0) ((List.range (n - 1)).map fun i => cv.path (i + 1))
  let cv := cvNote cv fault
  if fault = .none then (true, { cv with depth := n }) else (false, cv)

def tryItself (setting : Setting) (n : Nat) (cur anchor : Cert) (cv : Cv) : Turn × Cv :=
  if anchor.der = cur.der then
    match cvFinish setting cv n with
    | (true, cv) => (.answer true, cv)
    | (false, cv) => (.goOn, cv)
  else (.goOn, cv)

def tryAnchor (setting : Setting) (n : Nat) (cur anchor : Cert) (cv : Cv) : Turn × Cv :=
  if anchor.subject ≠ cur.issuer then (.goOn, cv)
  else if cv.budget = 0 then (.answer false, cv)
  else
    let cv := { cv with budget := cv.budget - 1 }
    let fault := checkSignature setting.verifier cur anchor
    if fault ≠ .none then (.goOn, cvNote cv fault)
    else
      match cvFinish setting { cv with path := Function.update cv.path n anchor } (n + 1) with
      | (true, cv) => (.answer true, cv)
      | (false, cv) => (.goOn, cv)

/-- One turn of the third loop: another certificate of the peer's that issued this one, and the search from it. -/
def tryExtra (setting : Setting) (deeper : Cv → Bool × Cv) (n : Nat) (cur : Cert) (candidate : Cert × Nat)
    (cv : Cv) : Turn × Cv :=
  if cv.used candidate.2 = true ∨ candidate.1.subject ≠ cur.issuer then (.goOn, cv)
  else if cv.budget = 0 then (.answer false, cv)
  else
    let cv := { cv with budget := cv.budget - 1 }
    let fault := checkSignature setting.verifier cur candidate.1
    if fault ≠ .none then (.goOn, cvNote cv fault)
    else
      match deeper { cv with
        used := Function.update cv.used candidate.2 true
        path := Function.update cv.path n candidate.1 } with
      | (true, cv) => (.answer true, cv)
      | (false, cv) => (.goOn, { cv with used := Function.update cv.used candidate.2 false })

/-- `cv_search` with `n` entries on the path, `left` short of the deepest path. -/
def cvSearch (setting : Setting) : Nat → Nat → Cv → Bool × Cv
  | left, n, cv =>
    let cur := cv.path (n - 1)
    match loop (tryItself setting n cur) setting.anchors cv with
    | (.answer found, cv) => (found, cv)
    | (.goOn, cv) =>
      match left with
      | 0 => (false, cvNote cv .tooDeep)
      | left + 1 =>
        match loop (tryAnchor setting n cur) setting.anchors cv with
        | (.answer found, cv) => (found, cv)
        | (.goOn, cv) =>
          match loop (tryExtra setting (cvSearch setting left (n + 1)) n cur) setting.extra.zipIdx cv with
          | (.answer found, cv) => (found, cv)
          | (.goOn, cv) => (false, cv)

structure Options where
  anchors : Store
  host : List Byte
  now : Int
  use : Purpose

/-- The answer of `proven_cert_verify` and `proven_cert_verify_result_t`; no error is `PROVEN_OK`. -/
structure Verdict where
  err : Option ProvenErr
  fault : Fault
  depth : Nat
  deriving DecidableEq, Repr

def material (others : List (List Byte)) : List Cert := (others.filterMap certParse).take cvMaxExtra

def settingOf (verifier : Verifier) (others : List (List Byte)) (options : Options) : Setting :=
  { verifier := verifier, anchors := options.anchors.items, extra := material others,
    use := options.use, now := options.now }

def cvStart (leaf : Cert) : Cv :=
  { used := fun _ => false, path := fun _ => leaf, fault := .noIssuer, rank := faultRank .noIssuer,
    depth := 0, budget := cvBudget }

/-- The whole search from `leaf`. -/
def searchFrom (verifier : Verifier) (leaf : Cert) (others : List (List Byte)) (options : Options) : Bool × Cv :=
  cvSearch (settingOf verifier others options) (provenCertMaxDepth - 1) 1 (cvStart leaf)

def errOf (fault : Fault) : Option ProvenErr :=
  match fault with
  | .none => none
  | .expired => some .expired
  | .notYetValid => some .notYetValid
  | .nameMismatch => some .nameMismatch
  | _ => some .untrusted

def certVerify (verifier : Verifier) (chain : List (List Byte)) (options : Options) : Verdict :=
  match chain with
  | [] => ⟨some .invalidArg, .none, 0⟩
  | first :: others =>
    match certParse first with
    | none => ⟨some .invalidFormat, .malformed, 0⟩
    | some leaf =>
      let (ok, cv) := searchFrom verifier leaf others options
      let fault := if ok then .none else cv.fault
      let fault :=
        if ok ∧ options.host ≠ [] ∧ matchesHost leaf options.host = false then .nameMismatch else fault
      ⟨errOf fault, fault, if ok then cv.depth else 0⟩

end ProvenC.X509.Search

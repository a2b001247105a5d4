import ProvenC.X509.Der

/-!
# Reading a certificate

`proven_cert_parse` and what it reads: dates, algorithms, the key, the extensions. A view is the
list of the bytes it shows; an answer `none` is `PROVEN_ERR_INVALID_FORMAT`.
-/

namespace ProvenC.X509.Fields

open Bytes X509.Der

inductive KeyKind where
  | unknown
  | rsa
  | ecP256
  | ecP384
  | ed25519
  deriving DecidableEq, Repr

inductive SigKind where
  | unknown
  | rsaPkcs1
  | rsaPss
  | ecdsa
  | ed25519
  deriving DecidableEq, Repr

/-- `proven_hmac_hash_t`, as far as a certificate names it. -/
inductive Hash where
  | sha256
  | sha384
  | sha512
  deriving DecidableEq, Repr

structure Cert where
  der : List Byte
  tbs : List Byte := []
  version : Nat := 1
  serial : List Byte := []
  issuer : List Byte := []
  subject : List Byte := []
  notBefore : Int := 0
  notAfter : Int := 0
  publicKeyInfo : List Byte := []
  keyKind : KeyKind := .unknown
  key : List Byte := []
  rsaN : List Byte := []
  rsaE : List Byte := []
  sigKind : SigKind := .unknown
  sigHash : Hash := .sha256
  sigSaltLen : Nat := 0
  signature : List Byte := []
  isCa : Bool := false
  hasPathLen : Bool := false
  pathLen : Nat := 0
  hasKeyUsage : Bool := false
  keyUsage : Nat := 0
  hasExtKeyUsage : Bool := false
  extKeyUsage : Nat := 0
  extKeyUsageCritical : Bool := false
  extKeyUsageCount : Nat := 0
  subjectKeyId : List Byte := []
  authorityKeyId : List Byte := []
  altNames : List Byte := []
  nameConstraints : List Byte := []
  unknownCritical : Bool := false
  deriving DecidableEq, Repr

def twoDigits : List Byte → Option Nat
  | a :: b :: _ =>
    if a.val < 48 ∨ a.val > 57 ∨ b.val < 48 ∨ b.val > 57 then none
    else some ((a.val - 48) * 10 + (b.val - 48))
  | _ => none

def daysIn : List Nat := [31, 28, 31, 30, 31, 30, 31, 31, 30, 31, 30, 31]

def civilSeconds (year mo dd hh mi ss : Nat) : Int :=
  let y : Int := (year : Int) - (if mo ≤ 2 then 1 else 0)
  let era := (if y ≥ 0 then y else y - 399).tdiv 400
  let yoe := y - era * 400
  let doy : Int := ((153 * ((mo : Int) + (if mo > 2 then -3 else 9)) + 2).tdiv 5) + dd - 1
  let doe := yoe * 365 + yoe.tdiv 4 - yoe.tdiv 100 + doy
  let days := era * 146097 + doe - 719468
  days * 86400 + hh * 3600 + mi * 60 + ss

def derTime (bytes : List Byte) : Option (Int × List Byte) := do
  let b ← derRead bytes
  guard ((b.tag = derUtctime ∧ b.body.length = 13) ∨ (b.tag = derGentime ∧ b.body.length = 15))
  let cc ← if b.tag = derUtctime then some 0 else twoDigits b.body
  let p := if b.tag = derUtctime then b.body else b.body.drop 2
  let yy ← twoDigits p
  let mo ← twoDigits (p.drop 2)
  let dd ← twoDigits (p.drop 4)
  let hh ← twoDigits (p.drop 6)
  let mi ← twoDigits (p.drop 8)
  let ss ← twoDigits (p.drop 10)
  guard ((p.drop 12).head? = some 90)
  let year := if b.tag = derUtctime then (if yy ≥ 50 then 1900 + yy else 2000 + yy) else cc * 100 + yy
  let leap := (year % 4 = 0 ∧ year % 100 ≠ 0) ∨ year % 400 = 0
  guard (1 ≤ mo ∧ mo ≤ 12 ∧ 1 ≤ dd ∧ dd ≤ daysIn.getD (mo - 1) 0 + (if mo = 2 ∧ leap then 1 else 0) ∧
    hh ≤ 23 ∧ mi ≤ 59 ∧ ss ≤ 59)
  some (civilSeconds year mo dd hh mi ss, b.rest)

def oidRsa : List Byte := [0x2a, 0x86, 0x48, 0x86, 0xf7, 0x0d, 0x01, 0x01, 0x01]
def oidRsaSha256 : List Byte := [0x2a, 0x86, 0x48, 0x86, 0xf7, 0x0d, 0x01, 0x01, 0x0b]
def oidRsaSha384 : List Byte := [0x2a, 0x86, 0x48, 0x86, 0xf7, 0x0d, 0x01, 0x01, 0x0c]
def oidRsaSha512 : List Byte := [0x2a, 0x86, 0x48, 0x86, 0xf7, 0x0d, 0x01, 0x01, 0x0d]
def oidRsaPss : List Byte := [0x2a, 0x86, 0x48, 0x86, 0xf7, 0x0d, 0x01, 0x01, 0x0a]
def oidMgf1 : List Byte := [0x2a, 0x86, 0x48, 0x86, 0xf7, 0x0d, 0x01, 0x01, 0x08]
def oidEcKey : List Byte := [0x2a, 0x86, 0x48, 0xce, 0x3d, 0x02, 0x01]
def oidP256 : List Byte := [0x2a, 0x86, 0x48, 0xce, 0x3d, 0x03, 0x01, 0x07]
def oidP384 : List Byte := [0x2b, 0x81, 0x04, 0x00, 0x22]
def oidEcdsaSha256 : List Byte := [0x2a, 0x86, 0x48, 0xce, 0x3d, 0x04, 0x03, 0x02]
def oidEcdsaSha384 : List Byte := [0x2a, 0x86, 0x48, 0xce, 0x3d, 0x04, 0x03, 0x03]
def oidEcdsaSha512 : List Byte := [0x2a, 0x86, 0x48, 0xce, 0x3d, 0x04, 0x03, 0x04]
def oidEd25519 : List Byte := [0x2b, 0x65, 0x70]
def oidSha256 : List Byte := [0x60, 0x86, 0x48, 0x01, 0x65, 0x03, 0x04, 0x02, 0x01]
def oidSha384 : List Byte := [0x60, 0x86, 0x48, 0x01, 0x65, 0x03, 0x04, 0x02, 0x02]
def oidSha512 : List Byte := [0x60, 0x86, 0x48, 0x01, 0x65, 0x03, 0x04, 0x02, 0x03]
def oidExtKeyUsage : List Byte := [0x55, 0x1d, 0x0f]
def oidExtAltName : List Byte := [0x55, 0x1d, 0x11]
def oidExtBasic : List Byte := [0x55, 0x1d, 0x13]
def oidExtNameConstraints : List Byte := [0x55, 0x1d, 0x1e]
def oidExtPolicies : List Byte := [0x55, 0x1d, 0x20]
def oidExtPolicyMappings : List Byte := [0x55, 0x1d, 0x21]
def oidExtPolicyConstraints : List Byte := [0x55, 0x1d, 0x24]
def oidExtEku : List Byte := [0x55, 0x1d, 0x25]
def oidExtInhibitAny : List Byte := [0x55, 0x1d, 0x36]
def oidEkuServer : List Byte := [0x2b, 0x06, 0x01, 0x05, 0x05, 0x07, 0x03, 0x01]
def oidEkuClient : List Byte := [0x2b, 0x06, 0x01, 0x05, 0x05, 0x07, 0x03, 0x02]
def oidEkuAny : List Byte := [0x55, 0x1d, 0x25, 0x00]
def oidEkuCodeSigning : List Byte := [0x2b, 0x06, 0x01, 0x05, 0x05, 0x07, 0x03, 0x03]
def oidEkuTimeStamping : List Byte := [0x2b, 0x06, 0x01, 0x05, 0x05, 0x07, 0x03, 0x08]
def oidExtSki : List Byte := [0x55, 0x1d, 0x0e]
def oidExtAki : List Byte := [0x55, 0x1d, 0x23]

def hashFromOid (oid : List Byte) : Option Hash :=
  if oid = oidSha256 then some .sha256
  else if oid = oidSha384 then some .sha384
  else if oid = oidSha512 then some .sha512
  else none

def paramsAbsentOrNull (rest : List Byte) : Bool :=
  rest.isEmpty ||
    match derExpect rest derNull with
    | some b => b.body.isEmpty && b.rest.isEmpty
    | none => false

def parsePssParams (rest : List Byte) : Option (Hash × Nat) := do
  let seq ← derExpect rest derSequence
  guard (seq.rest = [])
  let first ← derExpect seq.body 0xa0
  let alg ← derExpect first.body derSequence
  guard (alg.rest = [])
  let oid ← derExpect alg.body derOid
  let hash ← hashFromOid oid.body
  guard (paramsAbsentOrNull oid.rest)
  let second ← derExpect first.rest 0xa1
  let mgfAlg ← derExpect second.body derSequence
  guard (mgfAlg.rest = [])
  let mgfOid ← derExpect mgfAlg.body derOid
  guard (mgfOid.body = oidMgf1)
  let mgfHash ← derExpect mgfOid.rest derSequence
  guard (mgfHash.rest = [])
  let mgfHashOid ← derExpect mgfHash.body derOid
  let mgf ← hashFromOid mgfHashOid.body
  guard (paramsAbsentOrNull mgfHashOid.rest)
  guard (mgf = hash)
  let third ← derExpect second.rest 0xa2
  let (salt, left) ← derSmallUint third.body
  guard (left = [])
  if third.rest = [] then some (hash, salt)
  else do
    let fourth ← derExpect third.rest 0xa3
    let (trailer, left) ← derSmallUint fourth.body
    guard (left = [] ∧ trailer = 1 ∧ fourth.rest = [])
    some (hash, salt)

/-- `parse_sig_alg`: an algorithm that is not accepted leaves the kind unknown, and then nothing reads the hash. -/
def parseSigAlg (alg : List Byte) (c : Cert) : Cert :=
  let c := { c with sigKind := .unknown, sigHash := .sha256, sigSaltLen := 0 }
  match derExpect alg derOid with
  | none => c
  | some oid =>
    if oid.body = oidRsaSha256 ∨ oid.body = oidRsaSha384 ∨ oid.body = oidRsaSha512 then
      if ¬paramsAbsentOrNull oid.rest then c
      else
        { c with
          sigKind := .rsaPkcs1
          sigHash := if oid.body = oidRsaSha256 then .sha256 else if oid.body = oidRsaSha384 then .sha384 else .sha512 }
    else if oid.body = oidRsaPss then
      match parsePssParams oid.rest with
      | some (hash, salt) => { c with sigKind := .rsaPss, sigHash := hash, sigSaltLen := salt }
      | none => c
    else if oid.body = oidEcdsaSha256 ∨ oid.body = oidEcdsaSha384 ∨ oid.body = oidEcdsaSha512 then
      if oid.rest ≠ [] then c
      else
        { c with
          sigKind := .ecdsa
          sigHash := if oid.body = oidEcdsaSha256 then .sha256 else if oid.body = oidEcdsaSha384 then .sha384 else .sha512 }
    else if oid.body = oidEd25519 then
      if oid.rest ≠ [] then c else { c with sigKind := .ed25519 }
    else c

/-- `parse_spki`: a key that cannot be used leaves the kind unknown. -/
def parseSpki (spki : List Byte) (c : Cert) : Option Cert := do
  let c := { c with keyKind := .unknown }
  let alg ← derExpect spki derSequence
  let oid ← derExpect alg.body derOid
  let field ← derExpect alg.rest derBitstring
  guard (field.rest = [] ∧ field.body.head? = some 0)
  let bits := field.body.drop 1
  if oid.body = oidRsa ∨ oid.body = oidRsaPss then do
    guard (oid.body ≠ oidRsa ∨ paramsAbsentOrNull oid.rest)
    let seq ← derExpect bits derSequence
    guard (seq.rest = [])
    let (n, more) ← derUint seq.body
    let (e, more) ← derUint more
    guard (more = [])
    some { c with rsaN := n, rsaE := e, keyKind := .rsa }
  else if oid.body = oidEcKey then
    match derExpect oid.rest derOid with
    | none => some c
    | some curve =>
      if curve.rest ≠ [] then some c
      else if curve.body = oidP256 ∧ bits.length = 65 ∧ bits.head? = some 0x04 then
        some { c with keyKind := .ecP256, key := bits }
      else if curve.body = oidP384 ∧ bits.length = 97 ∧ bits.head? = some 0x04 then
        some { c with keyKind := .ecP384, key := bits }
      else some c
  else if oid.body = oidEd25519 then
    if oid.rest ≠ [] ∨ bits.length ≠ 32 then none else some { c with keyKind := .ed25519, key := bits }
  else some c

def kuDigitalSignature : Nat := 1
def kuKeyCertSign : Nat := 32

def ekuServerAuth : Nat := 1
def ekuClientAuth : Nat := 2
def ekuAny : Nat := 4
def ekuOther : Nat := 8
def ekuCodeSigning : Nat := 16
def ekuTimeStamping : Nat := 32

def derFlag (bytes : List Byte) : Option (Bool × List Byte) :=
  match derExpect bytes derBoolean with
  | none => some (false, bytes)
  | some flag => if flag.body = [0xff] then some (true, flag.rest) else none

def parseBasicConstraints (value : List Byte) (c : Cert) : Option Cert := do
  let seq ← derExpect value derSequence
  guard (seq.rest = [])
  let (flag, more) ← derFlag seq.body
  let c := if flag then { c with isCa := true } else c
  if more = [] then some c
  else do
    let (pathLen, left) ← derSmallUint more
    guard (left = [])
    some { c with pathLen := pathLen, hasPathLen := true }

def parseKeyUsage (value : List Byte) (c : Cert) : Option Cert := do
  let field ← derExpect value derBitstring
  guard (field.rest = [] ∧ 1 ≤ field.body.length ∧ (field.body.getD 0 0).val ≤ 7)
  let usage := (List.range 16).foldl (fun usage i =>
    if i / 8 + 1 < field.body.length ∧ (field.body.getD (1 + i / 8) 0).val.testBit (7 - i % 8) then usage ||| 2 ^ i
    else usage) c.keyUsage
  some { c with hasKeyUsage := true, keyUsage := usage }

def purposeBit (purpose : List Byte) : Nat :=
  if purpose = oidEkuServer then ekuServerAuth
  else if purpose = oidEkuClient then ekuClientAuth
  else if purpose = oidEkuAny then ekuAny
  else if purpose = oidEkuCodeSigning then ekuCodeSigning
  else if purpose = oidEkuTimeStamping then ekuTimeStamping
  else ekuOther

def parseExtKeyUsage (critical : Bool) (value : List Byte) (c : Cert) : Option Cert := do
  let seq ← derExpect value derSequence
  guard (seq.rest = [] ∧ seq.body ≠ [])
  derAll derOid (fun c purpose =>
    some { c with
      extKeyUsageCount := c.extKeyUsageCount + 1
      extKeyUsage := c.extKeyUsage ||| purposeBit purpose.body })
    seq.body { c with hasExtKeyUsage := true, extKeyUsageCritical := critical }

def parseContent (value : List Byte) : Option (List Byte) := do
  let seq ← derExpect value derSequence
  guard (seq.rest = [] ∧ seq.body ≠ [])
  some seq.body

def parseSubjectKeyId (value : List Byte) (c : Cert) : Option Cert := do
  let id ← derExpect value derOctets
  guard (id.rest = [])
  some { c with subjectKeyId := id.body }

def parseAuthorityKeyId (value : List Byte) (c : Cert) : Option Cert := do
  let seq ← derExpect value derSequence
  guard (seq.rest = [])
  match derExpect seq.body 0x80 with
  | some id => some { c with authorityKeyId := id.body }
  | none => some c

def knownExtensions : List (List Byte) :=
  [oidExtBasic, oidExtKeyUsage, oidExtEku, oidExtSki, oidExtAki, oidExtAltName, oidExtNameConstraints]

def policyExtensions : List (List Byte) :=
  [oidExtPolicies, oidExtPolicyMappings, oidExtPolicyConstraints, oidExtInhibitAny]

def parseKnown (oid : List Byte) (critical : Bool) (value : List Byte) (c : Cert) : Option Cert :=
  if oid = oidExtBasic then parseBasicConstraints value c
  else if oid = oidExtKeyUsage then parseKeyUsage value c
  else if oid = oidExtEku then parseExtKeyUsage critical value c
  else if oid = oidExtSki then parseSubjectKeyId value c
  else if oid = oidExtAki then parseAuthorityKeyId value c
  else if oid = oidExtAltName then (parseContent value).map fun names => { c with altNames := names }
  else (parseContent value).map fun constraints => { c with nameConstraints := constraints }

/-- One turn of the loop of `parse_extensions`: the known extensions already seen, and the certificate so far. -/
def parseExtension (state : List (List Byte) × Cert) (ext : Element) : Option (List (List Byte) × Cert) := do
  let (seen, c) := state
  let oid ← derExpect ext.body derOid
  let (critical, more) ← derFlag oid.rest
  let value ← derExpect more derOctets
  guard (value.rest = [])
  if oid.body ∈ knownExtensions then do
    let c ← parseKnown oid.body critical value.body c
    guard (oid.body ∉ seen)
    some (oid.body :: seen, c)
  else if oid.body ∈ policyExtensions then some (seen, c)
  else some (seen, if critical then { c with unknownCritical := true } else c)

def parseExtensions (exts : List Byte) (c : Cert) : Option Cert := do
  let list ← derExpect exts derSequence
  guard (list.rest = [] ∧ list.body ≠ [])
  let (_, c) ← derAll derSequence parseExtension list.body ([], c)
  some c

/-- The bytes after an optional element with the tag `want`. -/
def derSkip (bytes : List Byte) (want : Byte) : List Byte :=
  match derExpect bytes want with
  | some element => element.rest
  | none => bytes

def parseVersion (tbs : List Byte) : Option (Nat × List Byte) :=
  match derExpect tbs 0xa0 with
  | none => some (1, tbs)
  | some field => do
      let (v, left) ← derSmallUint field.body
      guard (left = [] ∧ 1 ≤ v ∧ v ≤ 2)
      some (v + 1, field.rest)

def Cert.identified (c : Cert) (issuer : List Byte) (notBefore notAfter : Int) (subject spki : List Byte) : Cert :=
  { c with
    issuer := issuer
    notBefore := notBefore
    notAfter := notAfter
    subject := subject
    publicKeyInfo := spki }

def parseTail (version : Nat) (more : List Byte) (c : Cert) : Option Cert :=
  if more = [] then some c
  else do
    guard (version = 3)
    let exts ← derExpect more 0xa3
    guard (exts.rest = [])
    parseExtensions exts.body c

def certParse (der : List Byte) : Option Cert := do
  let cert ← derExpect der derSequence
  guard (cert.rest = [])
  let tbs ← derExpect cert.body derSequence
  let sigAlg ← derExpect tbs.rest derSequence
  let sig ← derExpect sigAlg.rest derBitstring
  guard (sig.rest = [] ∧ sig.body.head? = some 0)
  let (version, fields) ← parseVersion tbs.body
  let serial ← derExpect fields derInteger
  guard (serial.body ≠ [] ∧ serial.body.length ≤ 21)
  let tbsAlg ← derExpect serial.rest derSequence
  -- the algorithm is named twice, inside and outside what is signed
  guard (tbsAlg.whole = sigAlg.whole)
  let c := parseSigAlg sigAlg.body
    { der := der, tbs := tbs.whole, signature := sig.body.drop 1, version := version, serial := serial.body }
  let issuer ← derExpect tbsAlg.rest derSequence
  let validity ← derExpect issuer.rest derSequence
  let (notBefore, more) ← derTime validity.body
  let (notAfter, more) ← derTime more
  guard (more = [])
  let subject ← derExpect validity.rest derSequence
  let spki ← derExpect subject.rest derSequence
  let c ← parseSpki spki.body
    (c.identified issuer.whole notBefore notAfter subject.whole spki.whole)
  parseTail version (if version ≥ 2 then derSkip (derSkip spki.rest 0x81) 0x82 else spki.rest) c

theorem parse_sig_alg_der (alg : List Byte) (c : Cert) : (parseSigAlg alg c).der = c.der := by
  unfold parseSigAlg
  repeat' split
  all_goals rfl

variable {c : Cert}

theorem parse_spki_der {spki : List Byte} {next : Cert} (read : parseSpki spki c = some next) : next.der = c.der := by
  simp only [parseSpki, Option.bind_eq_bind, Option.bind_eq_some_iff] at read
  obtain ⟨alg, -, oid, -, field, -, -, -, read⟩ := read
  split at read
  · simp only [Option.bind_eq_some_iff] at read
    obtain ⟨-, -, seq, -, -, -, modulus, -, exponent, -, -, -, read⟩ := read
    obtain rfl := Option.some.inj read
    rfl
  repeat' split at read
  all_goals first | (obtain rfl := Option.some.inj read; rfl) | cases read

theorem parse_basic_constraints_der {value : List Byte} {next : Cert}
    (read : parseBasicConstraints value c = some next) : next.der = c.der := by
  simp only [parseBasicConstraints, Option.bind_eq_bind, Option.bind_eq_some_iff] at read
  obtain ⟨seq, -, -, -, flag, -, read⟩ := read
  have same : (if flag.1 = true then { c with isCa := true } else c).der = c.der := by
    split <;> rfl
  split at read
  · obtain rfl := Option.some.inj read
    exact same
  simp only [Option.bind_eq_some_iff] at read
  obtain ⟨pathLen, -, -, -, read⟩ := read
  obtain rfl := Option.some.inj read
  exact same

theorem parse_key_usage_der {value : List Byte} {next : Cert} (read : parseKeyUsage value c = some next) :
    next.der = c.der := by
  simp only [parseKeyUsage, Option.bind_eq_bind, Option.bind_eq_some_iff] at read
  obtain ⟨field, -, -, -, read⟩ := read
  obtain rfl := Option.some.inj read
  rfl

theorem parse_ext_key_usage_der {critical : Bool} {value : List Byte} {next : Cert}
    (read : parseExtKeyUsage critical value c = some next) : next.der = c.der := by
  simp only [parseExtKeyUsage, Option.bind_eq_bind, Option.bind_eq_some_iff] at read
  obtain ⟨seq, -, -, -, read⟩ := read
  have keeps : ∀ (state : Cert) (purpose : Element) (next : Cert), state.der = c.der →
      some { state with
        extKeyUsageCount := state.extKeyUsageCount + 1
        extKeyUsage := state.extKeyUsage ||| purposeBit purpose.body } = some next → next.der = c.der := by
    intro state purpose next same stepped
    obtain rfl := Option.some.inj stepped
    exact same
  exact @der_all_keeps _ _ _ (fun state => state.der = c.der) keeps _ _ _ rfl read

theorem parse_subject_key_id_der {value : List Byte} {next : Cert}
    (read : parseSubjectKeyId value c = some next) : next.der = c.der := by
  simp only [parseSubjectKeyId, Option.bind_eq_bind, Option.bind_eq_some_iff] at read
  obtain ⟨id, -, -, -, read⟩ := read
  obtain rfl := Option.some.inj read
  rfl

theorem parse_authority_key_id_der {value : List Byte} {next : Cert}
    (read : parseAuthorityKeyId value c = some next) : next.der = c.der := by
  simp only [parseAuthorityKeyId, Option.bind_eq_bind, Option.bind_eq_some_iff] at read
  obtain ⟨seq, -, -, -, read⟩ := read
  split at read
  all_goals
    obtain rfl := Option.some.inj read
    rfl

theorem parse_known_der {oid : List Byte} {critical : Bool} {value : List Byte} {next : Cert}
    (read : parseKnown oid critical value c = some next) : next.der = c.der := by
  unfold parseKnown at read
  split at read
  · exact parse_basic_constraints_der read
  split at read
  · exact parse_key_usage_der read
  split at read
  · exact parse_ext_key_usage_der read
  split at read
  · exact parse_subject_key_id_der read
  split at read
  · exact parse_authority_key_id_der read
  split at read
  · obtain ⟨names, -, rfl⟩ := Option.map_eq_some_iff.mp read
    rfl
  obtain ⟨constraints, -, rfl⟩ := Option.map_eq_some_iff.mp read
  rfl

theorem parse_extension_der {state next : List (List Byte) × Cert} {ext : Element}
    (read : parseExtension state ext = some next) : next.2.der = state.2.der := by
  simp only [parseExtension, Option.bind_eq_bind, Option.bind_eq_some_iff] at read
  obtain ⟨oid, -, flag, -, value, -, -, -, read⟩ := read
  split at read
  · simp only [Option.bind_eq_some_iff] at read
    obtain ⟨c, known, -, -, read⟩ := read
    obtain rfl := Option.some.inj read
    exact parse_known_der known
  split at read
  all_goals obtain rfl := Option.some.inj read
  · rfl
  split <;> rfl

theorem parse_extensions_der {exts : List Byte} {next : Cert} (read : parseExtensions exts c = some next) :
    next.der = c.der := by
  simp only [parseExtensions, Option.bind_eq_bind, Option.bind_eq_some_iff] at read
  obtain ⟨list, -, -, -, last, all, read⟩ := read
  obtain rfl := Option.some.inj read
  have keeps : ∀ (state : List (List Byte) × Cert) (ext : Element) (next : List (List Byte) × Cert),
      state.2.der = c.der → parseExtension state ext = some next → next.2.der = c.der := by
    intro state ext next same stepped
    rw [parse_extension_der stepped]
    exact same
  exact @der_all_keeps _ _ _ (fun state => state.2.der = c.der) keeps _ _ _ rfl all

theorem read_then {α β : Type} {first : Option α} {next : α → Option β} {result : β}
    (read : (first >>= next) = some result) : ∃ value, first = some value ∧ next value = some result :=
  Option.bind_eq_some_iff.mp read

theorem parse_tail_der {version : Nat} {more : List Byte} {next : Cert}
    (read : parseTail version more c = some next) : next.der = c.der := by
  unfold parseTail at read
  split at read
  · obtain rfl := Option.some.inj read
    rfl
  obtain ⟨-, -, read⟩ := read_then read
  obtain ⟨exts, -, read⟩ := read_then read
  obtain ⟨-, -, read⟩ := read_then read
  exact parse_extensions_der read

theorem cert_parse_der {der : List Byte} (parsed : certParse der = some c) : c.der = der := by
  unfold certParse at parsed
  obtain ⟨cert, -, parsed⟩ := read_then parsed
  obtain ⟨-, -, parsed⟩ := read_then parsed
  obtain ⟨tbs, -, parsed⟩ := read_then parsed
  obtain ⟨sigAlg, -, parsed⟩ := read_then parsed
  obtain ⟨sig, -, parsed⟩ := read_then parsed
  obtain ⟨-, -, parsed⟩ := read_then parsed
  obtain ⟨⟨version, fields⟩, -, parsed⟩ := read_then parsed
  obtain ⟨serial, -, parsed⟩ := read_then parsed
  obtain ⟨-, -, parsed⟩ := read_then parsed
  obtain ⟨tbsAlg, -, parsed⟩ := read_then parsed
  obtain ⟨-, -, parsed⟩ := read_then parsed
  obtain ⟨issuer, -, parsed⟩ := read_then parsed
  obtain ⟨validity, -, parsed⟩ := read_then parsed
  obtain ⟨⟨notBefore, more⟩, -, parsed⟩ := read_then parsed
  obtain ⟨⟨notAfter, left⟩, -, parsed⟩ := read_then parsed
  obtain ⟨-, -, parsed⟩ := read_then parsed
  obtain ⟨subject, -, parsed⟩ := read_then parsed
  obtain ⟨spki, -, parsed⟩ := read_then parsed
  obtain ⟨keyed, spki_read, parsed⟩ := read_then parsed
  have same : keyed.der = der := by
    rw [parse_spki_der spki_read]
    exact parse_sig_alg_der _ _
  rw [parse_tail_der parsed]
  exact same

end ProvenC.X509.Fields

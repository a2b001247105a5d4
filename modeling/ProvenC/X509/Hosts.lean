import ProvenC.X509.Fields
import ProvenC.Http.Head

/-!
# The hosts a certificate is for

The entries of the subject alternative name, IP literals, and the match of a name or a pattern
against a host.
-/

namespace ProvenC.X509.Hosts

open Bytes X509.Der X509.Fields Http.Head

def star : Byte := 42

inductive NameKind where
  | dns
  | ip
  | other
  deriving DecidableEq, Repr

/-- `proven_cert_alt_name_next`: an entry and the position after it. -/
def altNameNext (cert : Cert) (pos : Nat) : Option (NameKind × List Byte × Nat) :=
  if pos ≥ cert.altNames.length then none
  else
    match derRead (cert.altNames.drop pos) with
    | none => none
    | some entry =>
      some (if entry.tag = 0x82 then .dns else if entry.tag = 0x87 then .ip else .other, entry.body,
        cert.altNames.length - entry.rest.length)

/-- What a loop over `proven_cert_alt_name_next` sees from `pos` on. -/
def altNamesFrom (cert : Cert) : Nat → Nat → List (NameKind × List Byte)
  | 0, _ => []
  | fuel + 1, pos =>
    match altNameNext cert pos with
    | none => []
    | some (kind, value, next) => (kind, value) :: altNamesFrom cert fuel next

def altNames (cert : Cert) : List (NameKind × List Byte) := altNamesFrom cert cert.altNames.length 0

def ipv4Part : List Byte → Nat → Nat → Option (Nat × List Byte)
  | [], digits, v => if digits = 0 then none else some (v, [])
  | c :: more, digits, v =>
    if 48 ≤ c.val ∧ c.val ≤ 57 then
      if digits = 1 ∧ v = 0 then none
      else if v * 10 + (c.val - 48) > 255 then none
      else ipv4Part more (digits + 1) (v * 10 + (c.val - 48))
    else if digits = 0 then none
    else some (v, c :: more)

/-- The loop of `parse_ipv4` with so many parts to come. -/
def ipv4Parts : Nat → List Byte → Option (List Byte)
  | 0, s => if s = [] then some [] else none
  | left + 1, s =>
    match ipv4Part s 0 0 with
    | none => none
    | some (v, rest) =>
      if left = 0 then (ipv4Parts left rest).map (byteOf v :: ·)
      else
        match rest with
        | [] => none
        | c :: more => if c ≠ dot then none else (ipv4Parts left more).map (byteOf v :: ·)

def parseIpv4 (s : List Byte) : Option (List Byte) := ipv4Parts 4 s

def hexDigit (c : Byte) : Option Nat :=
  let c := toLower c
  if 48 ≤ c.val ∧ c.val ≤ 57 then some (c.val - 48)
  else if 97 ≤ c.val ∧ c.val ≤ 102 then some (c.val - 97 + 10)
  else none

/-- Up to `left` digits of a group: its value, how many digits, and the bytes after them. -/
def hexGroup : Nat → List Byte → Nat → Nat → Nat × Nat × List Byte
  | 0, s, v, digits => (v, digits, s)
  | _ + 1, [], v, digits => (v, digits, [])
  | left + 1, c :: more, v, digits =>
    match hexDigit c with
    | some d => hexGroup left more (v * 16 + d) (digits + 1)
    | none => (v, digits, c :: more)

/-- The loop of `parse_ipv6`; a ninth group ends it, so nine turns are enough. -/
def ipv6Groups : Nat → List Byte → List Nat → Option Nat → Option (List Nat × Option Nat)
  | _, [], groups, gap => some (groups, gap)
  | 0, _ :: _, _, _ => none
  | turns + 1, first :: more, groups, gap =>
    let (v, digits, rest) := hexGroup 5 (first :: more) 0 0
    if digits = 0 ∨ digits > 4 ∨ groups.length ≥ 8 then none
    else
      let groups := groups ++ [v]
      match rest with
      | [] => some (groups, gap)
      | c :: rest =>
        if c ≠ colon then none
        else
          match rest with
          | [] => none
          | d :: rest =>
            if d = colon then
              if gap.isSome then none else ipv6Groups turns rest groups (some groups.length)
            else ipv6Groups turns (d :: rest) groups gap

def parseIpv6 (s : List Byte) : Option (List Byte) :=
  let start : Option (List Byte × Option Nat) :=
    match s with
    | a :: b :: more =>
      if a = colon ∧ b = colon then some (more, some 0) else if a = colon then none else some (s, none)
    | [a] => if a = colon then none else some (s, none)
    | [] => some ([], none)
  match start with
  | none => none
  | some (rest, gap) =>
    match ipv6Groups 9 rest [] gap with
    | none => none
    | some (groups, none) => if groups.length ≠ 8 then none else some (bytesOf groups)
    | some (groups, some gap) =>
      if groups.length ≥ 8 then none
      else some (bytesOf (groups.take gap ++ List.replicate (8 - groups.length) 0 ++ groups.drop gap))
where
  bytesOf (groups : List Nat) : List Byte := groups.flatMap fun v => [byteOf (v / 256), byteOf v]

/-- `host_as_ip`: the 4 or 16 bytes of a literal. -/
def hostAsIp (host : List Byte) : Option (List Byte) :=
  match parseIpv4 host with
  | some ip => some ip
  | none => parseIpv6 host

def isWild (name : List Byte) : Bool := name.take 2 == [star, dot]

def barePatternMatches (pat host : List Byte) : Bool :=
  if isWild pat then
    let first := host.findIdx (· == dot)
    if (pat.drop 2).any (· == star) ∨ ¬(pat.drop 2).any (· == dot) then false
    else if first = 0 ∨ first = host.length then false
    else eqAsciiCi (host.drop first) (pat.drop 1)
  else if pat.any (· == star) then false
  else eqAsciiCi pat host

def dnsPatternMatches (pat host : List Byte) : Bool :=
  if pat = [] ∨ host = [] then false
  else barePatternMatches (if pat.getLast? = some dot then pat.dropLast else pat) host

def hostName (host : List Byte) : List Byte := if host.getLast? = some dot then host.dropLast else host

def matchesHost (cert : Cert) (host : List Byte) : Bool :=
  if host = [] ∨ host.length > 253 then false
  else
    match hostAsIp host with
    | some ip => (altNames cert).any fun (kind, v) => kind == .ip && v == ip
    | none => (altNames cert).any fun (kind, v) => kind == .dns && dnsPatternMatches v (hostName host)

end ProvenC.X509.Hosts

import ProvenC.Url.Path

/-!
# Taking a URL apart

The parser finds the components of a URL by scans over positions of the text; what it returns are views
into it.
-/

namespace ProvenC.Url.Splitting

open Bytes Url.Path

def colon : Byte := byteOf ':'.toNat

def questionMark : Byte := byteOf '?'.toNat

def numberSign : Byte := byteOf '#'.toNat

def atSign : Byte := byteOf '@'.toNat

def openBracket : Byte := byteOf '['.toNat

def closeBracket : Byte := byteOf ']'.toNat

def hyphen : Byte := byteOf '-'.toNat

abbrev Checked (Value : Type) := Option (Except ProvenErr Value)

def Checked.andThen {Value Next : Type} (read : Checked Value) (then_ : Value → Checked Next) : Checked Next :=
  match read with
  | none => none
  | some (.error err) => some (.error err)
  | some (.ok value) => then_ value

def urlIsAlpha (c : Byte) : Bool :=
  ('a'.toNat ≤ c.val ∧ c.val ≤ 'z'.toNat) ∨ ('A'.toNat ≤ c.val ∧ c.val ≤ 'Z'.toNat)

def urlIsDigit (c : Byte) : Bool := '0'.toNat ≤ c.val ∧ c.val ≤ '9'.toNat

def isSchemeByte (c : Byte) : Bool := urlIsAlpha c || urlIsDigit c || c = plusSign || c = hyphen || c = dot

def inAuthority (c : Byte) : Bool := c ≠ slash && c ≠ questionMark && c ≠ numberSign

def inPath (c : Byte) : Bool := c ≠ questionMark && c ≠ numberSign

def isZoneByte (c : Byte) : Bool :=
  urlIsAlpha c || urlIsDigit c || c = hyphen || c = dot || c = byteOf '_'.toNat || c = byteOf '~'.toNat

/-- `proven_u8str_view_t`, as a place in the text. -/
structure View where
  start : Nat
  size : Nat
  deriving DecidableEq, Repr

def urlSub (start stop : Nat) : View := ⟨start, stop - start⟩

def View.bytes (v : View) (text : List Byte) : List Byte := (text.drop v.start).take v.size

def noView : View := ⟨0, 0⟩

structure ProvenUrl where
  scheme : View
  userinfo : View
  host : View
  port : Nat
  path : View
  query : View
  fragment : View
  hasUserinfo : Bool
  hasPort : Bool
  hasQuery : Bool
  hasFragment : Bool
  hostIsIpv6 : Bool
  deriving DecidableEq, Repr

/-- `while (i < stop && p[i] is such) i++`, `left` rounds at most. -/
def scanWhile (text : List Byte) (such : Byte → Bool) (stop : Nat) : Nat → Nat → Option Nat
  | 0, i => some i
  | left + 1, i =>
    if i < stop then
      match text[i]? with
      | none => none
      | some c => if such c then scanWhile text such stop left (i + 1) else some i
    else some i

/-- Whether these bytes stand at `i`, read up to the first that does not. -/
def standsAt (text : List Byte) : List Byte → Nat → Option Bool
  | [], _ => some true
  | c :: word, i =>
    match text[i]? with
    | none => none
    | some b => if b = c then standsAt text word (i + 1) else some false

/-- The loop of `url_text_ok`, `left` rounds at most. -/
def textOkLoop (text : List Byte) : Nat → Nat → Option Bool
  | 0, _ => some true
  | left + 1, i =>
    if i < text.length then
      match text[i]? with
      | none => none
      | some c =>
        if c.val ≤ 0x20 ∨ 0x7F ≤ c.val then some false
        else if c = percent then
          if text.length - i < 3 then some false
          else
            match text[i + 1]? with
            | none => none
            | some high =>
              if urlHex high = none then some false
              else
                match text[i + 2]? with
                | none => none
                | some low => if urlHex low = none then some false else textOkLoop text left (i + 1)
        else textOkLoop text left (i + 1)
    else some true

def urlTextOk (text : List Byte) : Option Bool := textOkLoop text text.length 0

/-- The place behind the last `@` of the authority that begins at `start`: from its end, `k`, backwards. -/
def lastAt (text : List Byte) (start : Nat) : Nat → Option (Option Nat)
  | 0 => some none
  | k + 1 =>
    if start < k + 1 then
      match text[k]? with
      | none => none
      | some c => if c = atSign then some (some (k + 1)) else lastAt text start k
    else some none

/-- The loop over the bytes between the brackets, `left` rounds at most. -/
def zoneLoop (text : List Byte) (close : Nat) : Nat → Bool → Nat → Option Bool
  | 0, _, _ => some true
  | left + 1, zone, k =>
    if k < close then
      match text[k]? with
      | none => none
      | some c =>
        if zone then if isZoneByte c then zoneLoop text close left true (k + 1) else some false
        else if urlHex c ≠ none ∨ c = colon ∨ c = dot then zoneLoop text close left false (k + 1)
        else if c = percent ∧ 3 < close - k then
          match standsAt text [byteOf '2'.toNat, byteOf '5'.toNat] (k + 1) with
          | none => none
          | some true => zoneLoop text close left true (k + 3)
          | some false => some false
        else some false
    else some true

def hostLoop (text : List Byte) (authEnd : Nat) : Nat → Nat → Checked (Nat × Nat)
  | 0, _ => some (.ok (authEnd, authEnd))
  | left + 1, k =>
    if k < authEnd then
      match text[k]? with
      | none => none
      | some c =>
        if c = colon then some (.ok (k, k + 1))
        else if c = openBracket ∨ c = closeBracket then some (.error .invalidFormat)
        else hostLoop text authEnd left (k + 1)
    else some (.ok (authEnd, authEnd))

def portLoop (text : List Byte) (authEnd : Nat) : Nat → Nat → Nat → Checked Nat
  | 0, _, port => some (.ok port)
  | left + 1, k, port =>
    if k < authEnd then
      match text[k]? with
      | none => none
      | some c =>
        if ¬ urlIsDigit c then some (.error .invalidFormat)
        else
          let port := port * 10 + (c.val - '0'.toNat)
          if 65535 < port then some (.error .invalidFormat) else portLoop text authEnd left (k + 1) port
    else some (.ok port)

structure HostFound where
  host : View
  hostIsIpv6 : Bool
  portStart : Nat

def bracketHost (text : List Byte) (hostStart authEnd : Nat) : Checked HostFound :=
  match scanWhile text (· ≠ closeBracket) authEnd (authEnd - (hostStart + 1)) (hostStart + 1) with
  | none => none
  | some close =>
    if close = authEnd ∨ close = hostStart + 1 then some (.error .invalidFormat)
    else
      match zoneLoop text close (close - (hostStart + 1)) false (hostStart + 1) with
      | none => none
      | some false => some (.error .invalidFormat)
      | some true =>
        if close + 1 < authEnd then
          match text[close + 1]? with
          | none => none
          | some c =>
            if c ≠ colon then some (.error .invalidFormat)
            else some (.ok { host := urlSub (hostStart + 1) close, hostIsIpv6 := true, portStart := close + 2 })
        else some (.ok { host := urlSub (hostStart + 1) close, hostIsIpv6 := true, portStart := authEnd })

def plainHost (text : List Byte) (hostStart authEnd : Nat) : Checked HostFound :=
  (hostLoop text authEnd (authEnd - hostStart) hostStart).andThen fun (hostEnd, portStart) =>
    some (.ok { host := urlSub hostStart hostEnd, hostIsIpv6 := false, portStart := portStart })

def hostAt (text : List Byte) (hostStart authEnd : Nat) : Checked HostFound :=
  if hostStart < authEnd then
    match text[hostStart]? with
    | none => none
    | some c => if c = openBracket then bracketHost text hostStart authEnd else plainHost text hostStart authEnd
  else plainHost text hostStart authEnd

def portAt (text : List Byte) (portStart authEnd : Nat) : Checked (Option Nat) :=
  if portStart < authEnd then (portLoop text authEnd (authEnd - portStart) portStart 0).andThen fun port => some (.ok (some port))
  else some (.ok none)

/-- The place behind the scheme and its `://`. -/
def schemeAt (text : List Byte) : Checked Nat :=
  match text[0]? with
  | none => none
  | some first =>
    if ¬ urlIsAlpha first then some (.error .invalidFormat)
    else
      match scanWhile text isSchemeByte text.length text.length 0 with
      | none => none
      | some i =>
        if text.length ≤ i + 2 then some (.error .invalidFormat)
        else
          match standsAt text [colon, slash, slash] i with
          | none => none
          | some false => some (.error .invalidFormat)
          | some true => some (.ok i)

def tailAt (text : List Byte) (pathStart : Nat) (u : ProvenUrl) : Checked ProvenUrl :=
  let n := text.length
  match scanWhile text inPath n (n - pathStart) pathStart with
  | none => none
  | some i =>
    let u := { u with path := urlSub pathStart i }
    let query : Option (Nat × ProvenUrl) :=
      if i < n then
        match text[i]? with
        | none => none
        | some c =>
          if c = questionMark then
            (scanWhile text (· ≠ numberSign) n (n - (i + 1)) (i + 1)).map fun stop =>
              (stop, { u with query := urlSub (i + 1) stop, hasQuery := true })
          else some (i, u)
      else some (i, u)
    match query with
    | none => none
    | some (i, u) =>
      if i < n then
        match text[i]? with
        | none => none
        | some c => some (.ok (if c = numberSign then { u with fragment := urlSub (i + 1) n, hasFragment := true } else u))
      else some (.ok u)

def urlParse (text : List Byte) : Checked ProvenUrl :=
  if text.length = 0 then some (.error .invalidFormat)
  else
    match urlTextOk text with
    | none => none
    | some false => some (.error .invalidFormat)
    | some true =>
      (schemeAt text).andThen fun schemeEnd =>
        let n := text.length
        let authStart := schemeEnd + 3
        match scanWhile text inAuthority n (n - authStart) authStart with
        | none => none
        | some authEnd =>
          match lastAt text authStart authEnd with
          | none => none
          | some found =>
            let hostStart := found.getD authStart
            let userinfo : View := match found with | none => noView | some after => urlSub authStart (after - 1)
            (hostAt text hostStart authEnd).andThen fun host =>
              (portAt text host.portStart authEnd).andThen fun port =>
                if host.host.size = 0 ∧ (port.isSome ∨ found.isSome) then some (.error .invalidFormat)
                else
                  tailAt text authEnd
                    { scheme := urlSub 0 schemeEnd, userinfo := userinfo, host := host.host, port := port.getD 0,
                      path := noView, query := noView, fragment := noView, hasUserinfo := found.isSome,
                      hasPort := port.isSome, hasQuery := false, hasFragment := false, hostIsIpv6 := host.hostIsIpv6 }

end ProvenC.Url.Splitting

import ProvenC.Http.Head

/-!
# Dates and cookies

The date of an `Expires` attribute in its three forms, and what one `Set-Cookie` header asks for:
the name and value, and the attributes one after another, later ones over earlier ones.
-/

namespace ProvenC.Http.Cookie

open Bytes Http.Head

def httpWkday : List (List Byte) := ["Sun", "Mon", "Tue", "Wed", "Thu", "Fri", "Sat"].map ascii

def httpWeekday : List (List Byte) :=
  ["Sunday", "Monday", "Tuesday", "Wednesday", "Thursday", "Friday", "Saturday"].map ascii

def httpMonth : List (List Byte) :=
  ["Jan", "Feb", "Mar", "Apr", "May", "Jun", "Jul", "Aug", "Sep", "Oct", "Nov", "Dec"].map ascii

/-- `http_days_from_civil`, for years from 1970 on. -/
def httpDaysFromCivil (y m d : Nat) : Nat :=
  let y := if m ≤ 2 then y - 1 else y
  let era := y / 400
  let yoe := y - era * 400
  let doy := (153 * (if 2 < m then m - 3 else m + 9) + 2) / 5 + d - 1
  let doe := yoe * 365 + yoe / 4 - yoe / 100 + doy
  era * 146097 + doe - 719468

/-- `http_civil_from_days`, the year. -/
def httpYearFromDays (days : Nat) : Nat :=
  let z := days + 719468
  let era := z / 146097
  let doe := z - era * 146097
  let yoe := (doe - doe / 1460 + doe / 36524 - doe / 146096) / 365
  let doy := doe - (365 * yoe + yoe / 4 - yoe / 100)
  let mp := (5 * doy + 2) / 153
  let m := if mp < 10 then mp + 3 else mp - 9
  yoe + era * 400 + if m ≤ 2 then 1 else 0

def httpDaysInMonth (y m : Nat) : Nat :=
  let leap := (y % 4 == 0 && y % 100 != 0) || y % 400 == 0
  if m = 2 ∧ leap then 29 else [31, 28, 31, 30, 31, 30, 31, 31, 30, 31, 30, 31].getD (m - 1) 0

def nsPerSec : Nat := 1000000000

def int64Max : Nat := 2 ^ 63 - 1

def httpDpLit (lit : List Byte) (text : List Byte) : Option (List Byte) :=
  if lit.isPrefixOf text then some (text.drop lit.length) else none

/-- `http_dp_num`: exactly so many digits. -/
def httpDpNum : Nat → Nat → List Byte → Option (Nat × List Byte)
  | 0, value, text => some (value, text)
  | digits + 1, value, text =>
    match text with
    | [] => none
    | b :: rest => if isDigit b then httpDpNum digits (value * 10 + (b.val - 48)) rest else none

/-- `http_dp_name3`: the place of the name the text begins with. -/
def httpDpName3 (names : List (List Byte)) (text : List Byte) : Option (Nat × List Byte) :=
  match names.findIdx? (· == text.take 3) with
  | none => none
  | some i => some (i, text.drop 3)

structure DateParts where
  wd : Nat
  d : Nat
  m : Nat
  y : Nat
  hh : Nat
  mi : Nat
  ss : Nat

def httpDpTime (text : List Byte) : Option ((Nat × Nat × Nat) × List Byte) := do
  let (hh, text) ← httpDpNum 2 0 text
  let text ← httpDpLit (ascii ":") text
  let (mi, text) ← httpDpNum 2 0 text
  let text ← httpDpLit (ascii ":") text
  let (ss, text) ← httpDpNum 2 0 text
  return ((hh, mi, ss), text)

/-- `Sun, 06 Nov 1994 08:49:37 GMT`, and after the day's name `Sunday, 06-Nov-94 08:49:37 GMT`. -/
def imfDate (text : List Byte) : Option (DateParts × List Byte) := do
  let (wd, text) ← httpDpName3 httpWkday text
  let text ← httpDpLit (ascii ", ") text
  let (d, text) ← httpDpNum 2 0 text
  let text ← httpDpLit (ascii " ") text
  let (m, text) ← httpDpName3 httpMonth text
  let text ← httpDpLit (ascii " ") text
  let (y, text) ← httpDpNum 4 0 text
  let text ← httpDpLit (ascii " ") text
  let ((hh, mi, ss), text) ← httpDpTime text
  let text ← httpDpLit (ascii " GMT") text
  return ({ wd := wd, d := d, m := m + 1, y := y, hh := hh, mi := mi, ss := ss }, text)

def rfc850Date (wd : Nat) (text : List Byte) : Option (DateParts × List Byte) := do
  let text ← httpDpLit (ascii ", ") text
  let (d, text) ← httpDpNum 2 0 text
  let text ← httpDpLit (ascii "-") text
  let (m, text) ← httpDpName3 httpMonth text
  let text ← httpDpLit (ascii "-") text
  let (y, text) ← httpDpNum 2 0 text
  let text ← httpDpLit (ascii " ") text
  let ((hh, mi, ss), text) ← httpDpTime text
  let text ← httpDpLit (ascii " GMT") text
  return ({ wd := wd, d := d, m := m + 1, y := y, hh := hh, mi := mi, ss := ss }, text)

/-- `Sun Nov  6 08:49:37 1994`: the day is padded with a blank. -/
def asctimeDate (text : List Byte) : Option (DateParts × List Byte) := do
  let (wd, text) ← httpDpName3 httpWkday text
  let text ← httpDpLit (ascii " ") text
  let (m, text) ← httpDpName3 httpMonth text
  let text ← httpDpLit (ascii " ") text
  let (d, text) ← if text.head? = some (byteOf 32) then httpDpNum 1 0 text.tail else httpDpNum 2 0 text
  let text ← httpDpLit (ascii " ") text
  let ((hh, mi, ss), text) ← httpDpTime text
  let text ← httpDpLit (ascii " ") text
  let (y, text) ← httpDpNum 4 0 text
  return ({ wd := wd, d := d, m := m + 1, y := y, hh := hh, mi := mi, ss := ss }, text)

def fullYear (now : Int) (y : Nat) : Nat :=
  let nowY := httpYearFromDays (now.toNat / nsPerSec / 86400)
  let full := nowY - nowY % 100 + y
  if nowY + 50 < full then full - 100 else full

def dateTime (p : DateParts) : Except ProvenErr Nat :=
  if p.y < 1970 ∨ 9999 < p.y ∨ p.m < 1 ∨ 12 < p.m ∨ p.d < 1 ∨ httpDaysInMonth p.y p.m < p.d then .error .invalidFormat
  else if 23 < p.hh ∨ 59 < p.mi ∨ 60 < p.ss then .error .invalidFormat
  else
    let days := httpDaysFromCivil p.y p.m p.d
    if (days + 4) % 7 ≠ p.wd then .error .invalidFormat
    else
      let sec := days * 86400 + p.hh * 3600 + p.mi * 60 + p.ss
      if int64Max / nsPerSec < sec then .error .overflow else .ok (sec * nsPerSec)

/-- `proven_http_date_parse`: the forms are told apart by what follows the day's name. -/
def httpDateParse (text : List Byte) (now : Int) : Except ProvenErr Nat :=
  let comma := text.findIdx fun b => b == byteOf 44 || b == byteOf 32
  match text[comma]? with
  | none => .error .invalidFormat
  | some b =>
    if b = byteOf 44 ∧ comma = 3 then
      match imfDate text with
      | some (p, []) => dateTime p
      | _ => .error .invalidFormat
    else if b = byteOf 44 then
      match httpWeekday.findIdx? (· == text.take comma) with
      | none => .error .invalidFormat
      | some wd =>
        match rfc850Date wd (text.drop comma) with
        | some (p, []) => dateTime { p with y := fullYear now p.y }
        | _ => .error .invalidFormat
    else
      match asctimeDate text with
      | some (p, []) => dateTime p
      | _ => .error .invalidFormat

example : httpDateParse (ascii "Sun, 06 Nov 1994 08:49:37 GMT") 0 = .ok 784111777000000000 := by decide +kernel

def ckTrim (s : List Byte) : List Byte := trimEnd (s.dropWhile httpIsOws)

def ckIs (a : List Byte) (lit : String) : Bool := eqAsciiCi a (ascii lit)

def slash : List Byte := ascii "/"

/-- `ck_domain_covers`: the host is the domain itself, or ends with a dot and the domain. -/
def ckDomainCovers (domain host : List Byte) : Bool :=
  if domain = [] ∨ host.length < domain.length then false
  else if !eqAsciiCi (host.drop (host.length - domain.length)) domain then false
  else domain.length == host.length || host[host.length - domain.length - 1]? == some (byteOf 46)

def ckPathCovers (cookiePath requestPath : List Byte) : Bool :=
  let requestPath := if requestPath = [] then slash else requestPath
  if requestPath.length < cookiePath.length then false
  else if !cookiePath.isPrefixOf requestPath then false
  else if cookiePath.length = requestPath.length then true
  else cookiePath.getLast? == some (byteOf 47) || requestPath[cookiePath.length]? == some (byteOf 47)

def lastSlash : Nat → Nat → List Byte → Nat
  | last, _, [] => last
  | last, i, b :: rest => lastSlash (if b = byteOf 47 then i else last) (i + 1) rest

def ckDefaultPath (requestPath : List Byte) : List Byte :=
  if requestPath.head? ≠ some (byteOf 47) then slash
  else
    let last := lastSlash 0 0 requestPath
    if last = 0 then slash else requestPath.take last

structure Asked where
  path : List Byte
  expires : Int
  hasMaxAge : Bool
  isSecure : Bool
  expired : Bool
  deriving DecidableEq, Repr

/-- The digits of a `Max-Age`, none where there is another byte. -/
def ckSeconds : Nat → List Byte → Option Nat
  | seconds, [] => some seconds
  | seconds, b :: rest =>
    if isDigit b then ckSeconds (if seconds < 4000000000 then seconds * 10 + (b.val - 48) else seconds) rest else none

def timeSub (a b : Int) : Int := Int.bmod (a - b) (2 ^ 64)

/-- A `Max-Age` that is read. -/
def ckMaxAge (asked : Asked) (now : Int) (negative : Bool) (seconds : Nat) : Asked :=
  if negative || seconds == 0 then { asked with hasMaxAge := true, expired := true, expires := 0 }
  else
    let limit := (timeSub int64Max now).tdiv nsPerSec
    { asked with
      hasMaxAge := true, expired := false
      expires := if limit ≤ seconds then (int64Max : Int) else now + seconds * nsPerSec }

/-- An `Expires`, which counts where there was no `Max-Age`. -/
def ckExpires (asked : Asked) (now : Int) (av : List Byte) : Asked :=
  match httpDateParse av now with
  | .ok when_ => { asked with expires := when_, expired := (when_ : Int) ≤ now || when_ == 0 }
  | .error .overflow => { asked with expires := int64Max, expired := false }
  | .error _ => asked

/-- The part of a `Max-Age` after its sign. -/
def ageDigits (av : List Byte) : Bool × List Byte :=
  if av.head? = some (byteOf 45) then (true, av.tail) else (false, av)

/-- The part of a `Domain` after a leading dot. -/
def domainName (av : List Byte) : List Byte := if av.head? = some (byteOf 46) then av.tail else av

def ckAttr (host : List Byte) (now : Int) (asked : Asked) (attr : List Byte × List Byte) : Except ProvenErr Asked :=
  let (an, av) := attr
  if ckIs an "Secure" then .ok { asked with isSecure := true }
  else if ckIs an "Path" then .ok (if av.head? = some (byteOf 47) then { asked with path := av } else asked)
  else if ckIs an "Domain" then
    if domainName av ≠ [] ∧ !ckDomainCovers (domainName av) host then .error .permission else .ok asked
  else if ckIs an "Max-Age" then
    let (negative, digits) := ageDigits av
    if digits = [] then .ok asked
    else
      match ckSeconds 0 digits with
      | none => .ok asked
      | some seconds => .ok (ckMaxAge asked now negative seconds)
  else if ckIs an "Expires" && !asked.hasMaxAge then .ok (ckExpires asked now av)
  else .ok asked

/-- Two parts of a text, at its first `=`; the second is missing where there is none. -/
def atEquals (text : List Byte) : List Byte × Option (List Byte) :=
  match text.dropWhile (· != byteOf 61) with
  | [] => (ckTrim text, none)
  | _ :: rest => (ckTrim (text.takeWhile (· != byteOf 61)), some (ckTrim rest))

def attrsOf (parts : List (List Byte)) : List (List Byte × List Byte) :=
  parts.map fun part => ((atEquals part).1, (atEquals part).2.getD [])

def ckControl (b : Byte) : Bool := (b.val < 32 && b.val != 9) || b.val == 127

def cookieMaxSize : Nat := 4096

def ckPair (setCookie : List Byte) : Except ProvenErr (List Byte × List Byte × List (List Byte × List Byte)) :=
  if setCookie.any ckControl then .error .invalidFormat
  else
    match setCookie.splitOn (byteOf 59) with
    | [] => .error .invalidFormat
    | pair :: parts =>
      match atEquals pair with
      | (_, none) => .error .invalidFormat
      | (name, some value) =>
        if name = [] then .error .invalidFormat
        else if cookieMaxSize < name.length + value.length then .error .outOfBounds
        else .ok (name, value, attrsOf parts)

end ProvenC.Http.Cookie

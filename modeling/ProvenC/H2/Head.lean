import ProvenC.Hpack.Table

/-!
# A header list as a message (RFC 9113, section 8)

What a request, a response and a trailer section must be, and the body length a list of
fields announces.
-/

namespace ProvenC.H2.Head

open Bytes Hpack.Table

/-- `H2_BAD_IN_NAME` in `h2_class`: a control, a space, an upper-case letter, DEL or above. -/
def badInName (byte : Byte) : Bool :=
  byte.val ≤ 32 || (decide (65 ≤ byte.val) && decide (byte.val ≤ 90)) || decide (127 ≤ byte.val)

/-- `H2_BAD_IN_VALUE` in `h2_class`: NUL, LF, CR. -/
def badInValue (byte : Byte) : Bool := byte.val = 0 || byte.val = 10 || byte.val = 13

def colon : Byte := 58

def isBlank (byte : Byte) : Bool := byte.val = 32 || byte.val = 9

/-- `h2_field_ok`: the minimal validation every endpoint must do. -/
def h2FieldOk (h : Field) (pseudo : Bool) : Bool :=
  match h.name with
  | [] => false
  | first :: others =>
    if h.name.any badInName then false
    else if h.name.contains colon && (!pseudo || first != colon || others.contains colon) then false
    else if h.value.any badInValue then false
    else
      match h.value with
      | [] => true
      | a :: _ => !(isBlank a || isBlank (h.value.getLastD 0))

/-- `h2_ordinary_ok`: fields that describe a connection have no place here. -/
def h2OrdinaryOk (h : Field) (request : Bool) : Bool :=
  if !h2FieldOk h false then false
  else if h.name = ascii "te" then request && decide (h.value = ascii "trailers")
  else !(h.name = ascii "upgrade" || h.name = ascii "connection" || h.name = ascii "keep-alive" ||
    h.name = ascii "proxy-connection" || h.name = ascii "transfer-encoding")

structure RequestHead where
  method : List Byte
  scheme : List Byte
  authority : List Byte
  path : List Byte
  protocol : List Byte
  fields : List Field
  deriving DecidableEq, Repr

structure Pseudo where
  method : Option (List Byte)
  scheme : Option (List Byte)
  authority : Option (List Byte)
  path : Option (List Byte)
  protocol : Option (List Byte)

def takePseudo (seen : Pseudo) (h : Field) : Option Pseudo :=
  if !h2FieldOk h true then none
  else if h.name = ascii ":method" then
    if seen.method.isSome then none else some { seen with method := some h.value }
  else if h.name = ascii ":scheme" then
    if seen.scheme.isSome then none else some { seen with scheme := some h.value }
  else if h.name = ascii ":authority" then
    if seen.authority.isSome then none else some { seen with authority := some h.value }
  else if h.name = ascii ":path" then
    if seen.path.isSome then none else some { seen with path := some h.value }
  else if h.name = ascii ":protocol" then
    if seen.protocol.isSome then none else some { seen with protocol := some h.value }
  else none

def takePseudos : Pseudo → List Field → Option (Pseudo × List Field)
  | seen, [] => some (seen, [])
  | seen, h :: rest =>
    if h.name.head? = some colon then
      match takePseudo seen h with
      | none => none
      | some seen => takePseudos seen rest
    else some (seen, h :: rest)

def given (part : Option (List Byte)) : Bool := part.any fun text => !text.isEmpty

def partsOk (p : Pseudo) : Bool :=
  if !given p.method then false
  else if p.protocol.isSome then
    p.method = some (ascii "CONNECT") && given p.protocol && given p.scheme && given p.path &&
      given p.authority
  else if p.method = some (ascii "CONNECT") then
    given p.authority && p.scheme.isNone && p.path.isNone
  else if !(given p.scheme && p.path.isSome) then false
  else !(p.path = some [] && (p.scheme = some (ascii "http") || p.scheme = some (ascii "https")))

def h2RequestHead (headers : List Field) : Option RequestHead :=
  match takePseudos ⟨none, none, none, none, none⟩ headers with
  | none => none
  | some (p, fields) =>
    if !fields.all (h2OrdinaryOk · true) then none
    else if !partsOk p then none
    else some { method := p.method.getD [], scheme := p.scheme.getD [], authority := p.authority.getD []
                path := p.path.getD [], protocol := p.protocol.getD [], fields := fields }

def isDigit (byte : Byte) : Bool := decide (48 ≤ byte.val) && decide (byte.val ≤ 57)

def digitsValue (digits : List Byte) : Nat :=
  digits.foldl (fun n digit => n * 10 + (digit.val - 48)) 0

/-- `proven_h2_response_head`: the status and the ordinary fields. -/
def h2ResponseHead (headers : List Field) : Option (Nat × List Field) :=
  match headers with
  | [] => none
  | first :: rest =>
    if first.name ≠ ascii ":status" ∨ h2FieldOk first true = false then none
    else if first.value.length ≠ 3 ∨ first.value.all isDigit = false then none
    else if digitsValue first.value < 100 then none
    else if !rest.all (h2OrdinaryOk · false) then none
    else some (digitsValue first.value, rest)

def h2TrailersCheck (headers : List Field) : Bool := headers.all (h2OrdinaryOk · false)

/-- `h2c_content_length`: the length the fields announce, `none` inside for no length. -/
def h2cContentLength : List Field → Option Nat → Option (Option Nat)
  | [], found => some found
  | h :: rest, found =>
    if h.name ≠ ascii "content-length" then h2cContentLength rest found
    else if h.value.length = 0 ∨ 19 < h.value.length ∨ h.value.all isDigit = false then none
    else
      let n := digitsValue h.value
      if found.any (· ≠ n) then none else h2cContentLength rest (some n)

def h2cMethodIsHead (headers : List Field) : Bool :=
  match headers.find? fun h => h.name = ascii ":method" with
  | none => false
  | some h => h.value = ascii "HEAD"

end ProvenC.H2.Head

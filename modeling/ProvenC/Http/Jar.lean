import ProvenC.Http.Cookie
import ProvenC.Lib.Selecting
import ProvenC.Lib.Runs

/-!
# A cookie jar

The jar keeps its cookies in no order, each with the number of its storing, and takes one out by putting
the last in its place.
-/

namespace ProvenC.Http.Jar

open Bytes Http.Head Http.Cookie Lib.Selecting Lib.Runs

/-- `proven_cookie_t`: name, value, host and path stand back to back in `text`. -/
structure Cookie where
  text : List Byte
  nameLen : Nat
  valueLen : Nat
  hostLen : Nat
  pathLen : Nat
  expires : Int
  stamp : Nat
  secure : Bool
  deriving DecidableEq, Repr

def ckName (c : Cookie) : List Byte := c.text.take c.nameLen
def ckValue (c : Cookie) : List Byte := (c.text.drop c.nameLen).take c.valueLen
def ckHost (c : Cookie) : List Byte := (c.text.drop (c.nameLen + c.valueLen)).take c.hostLen
def ckPath (c : Cookie) : List Byte := (c.text.drop (c.nameLen + c.valueLen + c.hostLen)).take c.pathLen

structure CookieJar where
  entries : List Cookie
  cap : Nat
  clock : Nat
  deriving DecidableEq, Repr

def cookieJarInit (maxCookies : Nat) : CookieJar := { entries := [], cap := maxCookies, clock := 0 }

/-- `ck_remove`: the last entry takes the place. -/
def ckRemove (entries : List Cookie) (i : Nat) : List Cookie :=
  match entries.getLast? with
  | none => []
  | some last => (entries.set i last).dropLast

def ckGone (now : Int) (c : Cookie) : Bool := c.expires != 0 && decide (c.expires ≤ now)

def ckShadows (name host path : List Byte) (now : Int) (c : Cookie) : Bool :=
  !ckGone now c && c.secure && ckName c == name &&
    (ckDomainCovers (ckHost c) host || ckDomainCovers host (ckHost c)) && ckPathCovers (ckPath c) path

def ckSame (name host path : List Byte) (c : Cookie) : Bool :=
  ckName c == name && eqAsciiCi (ckHost c) host && ckPath c == path

def ckOldest : Nat → Nat → Nat → List Cookie → Nat
  | oldest, _, _, [] => oldest
  | oldest, least, i, c :: rest => if c.stamp < least then ckOldest i c.stamp (i + 1) rest else ckOldest oldest least (i + 1) rest

def ckSlot (name value host path : List Byte) (expires : Int) (secure : Bool) (clock : Nat) : Cookie :=
  { text := name ++ value ++ host.map toLower ++ path
    nameLen := name.length % 2 ^ 32
    valueLen := value.length % 2 ^ 32
    hostLen := host.length % 2 ^ 32
    pathLen := path.length % 2 ^ 32
    expires := expires
    stamp := (clock + 1) % 2 ^ 64
    secure := secure }

def ckInsert (jar : CookieJar) (same : Nat) (slot : Cookie) : CookieJar :=
  let entries :=
    if same < jar.entries.length then ckRemove jar.entries same
    else if jar.entries.length = jar.cap then
      match jar.entries with
      | [] => []
      | c :: rest => ckRemove jar.entries (ckOldest 0 c.stamp 1 rest)
    else jar.entries
  { jar with entries := entries ++ [slot], clock := slot.stamp }

def askedFirst (path : List Byte) : Asked :=
  { path := ckDefaultPath path, expires := 0, hasMaxAge := false, isSecure := false, expired := false }

/-- `proven_http_cookie_jar_store`; memory is given or not. -/
def cookieJarStore (jar : CookieJar) (host path : List Byte) (secure : Bool) (setCookie : List Byte) (now : Int)
    (allocates : Bool) : CookieJar × Except ProvenErr Unit :=
  if host = [] then (jar, .error .invalidArg)
  else
    match ckPair setCookie with
    | .error e => (jar, .error e)
    | .ok (name, value, attrs) =>
      match attrs.foldlM (ckAttr host now) (askedFirst path) with
      | .error e => (jar, .error e)
      | .ok asked =>
        if asked.isSecure && !secure then (jar, .error .permission)
        else if !secure && jar.entries.any (ckShadows name host asked.path now) then (jar, .error .permission)
        else
          let same := jar.entries.findIdx (ckSame name host asked.path)
          if asked.expired then
            (if same < jar.entries.length then { jar with entries := ckRemove jar.entries same } else jar, .ok ())
          else if !allocates then (jar, .error .noMem)
          else (ckInsert jar same (ckSlot name value host asked.path asked.expires asked.isSecure jar.clock), .ok ())

/-- The expired entries go, from place `i` on. -/
def ckExpire (now : Int) : Nat → Nat → List Cookie → List Cookie
  | 0, _, entries => entries
  | rounds + 1, i, entries =>
    match entries[i]? with
    | none => entries
    | some c => if ckGone now c then ckExpire now rounds i (ckRemove entries i) else ckExpire now rounds (i + 1) entries

def ckBefore (a b : Cookie) : Bool := b.pathLen < a.pathLen || (a.pathLen == b.pathLen && decide (a.stamp < b.stamp))

def ckWanted (host path : List Byte) (secure : Bool) (c : Cookie) : Bool :=
  eqAsciiCi (ckHost c) host && ckPathCovers (ckPath c) path && !(c.secure && !secure)

def ckWritten (c : Cookie) : List Byte := ckName c ++ ascii "=" ++ ckValue c

def ckWrite (entries : List Cookie) (host path : List Byte) (secure : Bool) (room : Nat) :
    Nat → Option Cookie → List Byte → Except ProvenErr (List Byte)
  | 0, _, out => .ok out
  | rounds + 1, last, out =>
    match firstOf ckBefore (fun c => ckWanted host path secure c && after ckBefore last c) none entries with
    | none => .ok out
    | some c =>
      let need := (ckName c).length + 1 + (ckValue c).length + if 0 < out.length then 2 else 0
      if room - out.length < need then .error .outOfBounds
      else ckWrite entries host path secure room rounds (some c)
        (out ++ (if 0 < out.length then ascii "; " else []) ++ ckWritten c)

def cookieJarHeader (jar : CookieJar) (host path : List Byte) (secure : Bool) (now : Int) (room : Nat) :
    CookieJar × Except ProvenErr (List Byte) :=
  let entries := ckExpire now jar.entries.length 0 jar.entries
  ({ jar with entries := entries }, ckWrite entries host path secure room (entries.length + 1) none [])

structure Held where
  name : List Byte
  value : List Byte
  host : List Byte
  path : List Byte
  ends : Option Int
  secure : Bool
  deriving DecidableEq, Repr

def Held.gone (now : Int) (h : Held) : Bool := h.ends.any fun t => decide (t ≤ now)

def endAt (t : Int) : Option Int := if t < int64Max then some t else none

def valuesOf (name : String) (attrs : List (List Byte × List Byte)) : List (List Byte) :=
  (attrs.filter fun attr => ckIs attr.1 name).map Prod.snd

def numberFrom (value : Nat) (digits : List Byte) : Nat := digits.foldl (fun n b => n * 10 + (b.val - 48)) value

def numberOf (digits : List Byte) : Nat := numberFrom 0 digits

/-- A `Max-Age` as the number it is. -/
def ageOf (av : List Byte) : Option Int :=
  let (negative, digits) := ageDigits av
  if digits = [] ∨ !digits.all isDigit then none
  else some (if negative then -(numberOf digits : Int) else numberOf digits)

inductive Term where
  | over_
  | until_ (ends : Option Int)
  deriving DecidableEq, Repr

/-- The end a `Max-Age` sets. -/
def ageTerm (now : Int) (age : Int) : Term := if age ≤ 0 then .over_ else .until_ (endAt (now + age * nsPerSec))

def dateTerm (now : Int) (av : List Byte) : Option Term :=
  match httpDateParse av now with
  | .ok t => some (if (t : Int) ≤ now then .over_ else .until_ (endAt t))
  | .error .overflow => some (.until_ none)
  | .error _ => none

/-- The last `Max-Age` counts, else the last `Expires`; one that cannot be read is as good as
none, and without any the cookie has no end. -/
def termOf (now : Int) (attrs : List (List Byte × List Byte)) : Term :=
  match ((valuesOf "Max-Age" attrs).filterMap ageOf).getLast? with
  | some age => ageTerm now age
  | none => (((valuesOf "Expires" attrs).filterMap (dateTerm now)).getLast?).getD (.until_ none)

def pathOf (path : List Byte) (attrs : List (List Byte × List Byte)) : List Byte :=
  ((valuesOf "Path" attrs).filter fun av => av.head? == some (byteOf 47)).getLastD (ckDefaultPath path)

def foreign (host : List Byte) (attrs : List (List Byte × List Byte)) : Bool :=
  (valuesOf "Domain" attrs).any fun av => domainName av != [] && !ckDomainCovers (domainName av) host

def askedSecure (attrs : List (List Byte × List Byte)) : Bool := !(valuesOf "Secure" attrs).isEmpty

def guards (name host path : List Byte) (now : Int) (h : Held) : Bool :=
  !h.gone now && h.secure && h.name == name && (ckDomainCovers h.host host || ckDomainCovers host h.host) &&
    ckPathCovers h.path path

def sameCookie (name host path : List Byte) (h : Held) : Bool :=
  h.name == name && eqAsciiCi h.host host && h.path == path

def shelved (cap : Nat) (shelf : List Held) (new : Held) : List Held :=
  let others := shelf.filter fun h => !sameCookie new.name new.host new.path h
  (if others.length = cap then others.tail else others) ++ [new]

def shelfStore (cap : Nat) (shelf : List Held) (host path : List Byte) (secure : Bool) (setCookie : List Byte) (now : Int)
    (allocates : Bool) : List Held × Except ProvenErr Unit :=
  if host = [] then (shelf, .error .invalidArg)
  else
    match ckPair setCookie with
    | .error e => (shelf, .error e)
    | .ok (name, value, attrs) =>
      if foreign host attrs || (askedSecure attrs && !secure) then (shelf, .error .permission)
      else if !secure && shelf.any (guards name host (pathOf path attrs) now) then (shelf, .error .permission)
      else
        match termOf now attrs with
        | .over_ => (shelf.filter fun h => !sameCookie name host (pathOf path attrs) h, .ok ())
        | .until_ ends =>
          if !allocates then (shelf, .error .noMem)
          else
            (shelved cap shelf
              { name := name, value := value, host := host.map toLower, path := pathOf path attrs
                ends := ends, secure := askedSecure attrs }, .ok ())

/-- The cookies a request is given: the longest path first, of those with paths of a length the
least recently stored. -/
def listed (shelf : List Held) (host path : List Byte) (secure : Bool) (now : Int) : List Held :=
  (shelf.filter fun h =>
    !h.gone now && eqAsciiCi h.host host && ckPathCovers h.path path && !(h.secure && !secure)).insertionSort
    fun a b => b.path.length ≤ a.path.length

/-- `a=1; b=2`. -/
def headerText (cookies : List Held) : List Byte :=
  (ascii "; ").intercalate (cookies.map fun h => h.name ++ ascii "=" ++ h.value)

end ProvenC.Http.Jar

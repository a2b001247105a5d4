import ProvenC.Bytes
import ProvenC.Lib.Calendar

/-!
# HTTP dates

The formatter and the parser of the three forms of an HTTP date, with the arithmetic of days they share.
-/

namespace ProvenC.Http.Dates

open Bytes Lib.Calendar

def httpDaysFromCivil (y m d : Nat) : Nat :=
  let y := y - if m ≤ 2 then 1 else 0
  let era := y / 400
  let yoe := y - era * 400
  let doy := (153 * (if 2 < m then m - 3 else m + 9) + 2) / 5 + d - 1
  let doe := yoe * 365 + yoe / 4 - yoe / 100 + doy
  era * 146097 + doe - 719468

def httpCivilFromDays (z : Nat) : Nat × Nat × Nat :=
  let z := z + 719468
  let era := z / 146097
  let doe := z - era * 146097
  let yoe := (doe - doe / 1460 + doe / 36524 - doe / 146096) / 365
  let yy := yoe + era * 400
  let doy := doe - (365 * yoe + yoe / 4 - yoe / 100)
  let mp := (5 * doy + 2) / 153
  let d := doy - (153 * mp + 2) / 5 + 1
  let m := if mp < 10 then mp + 3 else mp - 9
  (yy + if m ≤ 2 then 1 else 0, m, d)

def httpDaysInMonth (y m : Nat) : Nat :=
  let leap := decide (y % 4 = 0 ∧ y % 100 ≠ 0 ∨ y % 400 = 0)
  if m = 2 ∧ leap then 29 else [31, 28, 31, 30, 31, 30, 31, 31, 30, 31, 30, 31].getD (m - 1) 0

def httpWkday : List (List Byte) := [ascii "Sun", ascii "Mon", ascii "Tue", ascii "Wed", ascii "Thu", ascii "Fri", ascii "Sat"]

def httpWeekday : List (List Byte) :=
  [ascii "Sunday", ascii "Monday", ascii "Tuesday", ascii "Wednesday", ascii "Thursday", ascii "Friday", ascii "Saturday"]

def httpMonth : List (List Byte) :=
  [ascii "Jan", ascii "Feb", ascii "Mar", ascii "Apr", ascii "May", ascii "Jun", ascii "Jul", ascii "Aug", ascii "Sep",
    ascii "Oct", ascii "Nov", ascii "Dec"]

def nsPerSec : Nat := 1000000000

/-- The last whole second a `proven_time_t` can hold. -/
def maxEpochSec : Nat := (2 ^ 63 - 1) / nsPerSec

def digit (n : Nat) : Byte := byteOf (48 + n)

def twoDigits (n : Nat) : List Byte := [digit (n / 10), digit (n % 10)]

def fourDigits (n : Nat) : List Byte := [digit (n / 1000 % 10), digit (n / 100 % 10), digit (n / 10 % 10), digit (n % 10)]

def clockText (hh mi ss : Nat) : List Byte := twoDigits hh ++ ascii ":" ++ twoDigits mi ++ ascii ":" ++ twoDigits ss

def imfText (wd y m d hh mi ss : Nat) : List Byte :=
  httpWkday.getD wd [] ++ ascii ", " ++ twoDigits d ++ ascii " " ++ httpMonth.getD (m - 1) [] ++ ascii " " ++ fourDigits y ++
    ascii " " ++ clockText hh mi ss ++ ascii " GMT"

def httpDateFormat (wall : Int) : Except ProvenErr (List Byte) :=
  if wall < 0 then .error .invalidArg
  else
    let sec := wall.toNat / nsPerSec
    let days := sec / 86400
    let tod := sec % 86400
    let (y, m, d) := httpCivilFromDays days
    let wd := (days + 4) % 7
    .ok (imfText wd y m d (tod / 3600) (tod / 60 % 60) (tod % 60))

abbrev Reading := StateT (List Byte) Option

def httpDpLit : List Byte → Reading Unit
  | [] => fun s => some ((), s)
  | c :: lit => fun s =>
    match s with
    | [] => none
    | c' :: s => if c' ≠ c then none else httpDpLit lit s

/-- `digits` more digits after those read into `v`. -/
def dpNumFrom : Nat → Nat → Reading Nat
  | v, 0 => fun s => some (v, s)
  | v, digits + 1 => fun s =>
    match s with
    | [] => none
    | c :: s => if c.val < 48 ∨ 57 < c.val then none else dpNumFrom (v * 10 + (c.val - 48)) digits s

def httpDpNum (digits : Nat) : Reading Nat := dpNumFrom 0 digits

def httpDpName3 (names : List (List Byte)) : Reading Nat := fun s =>
  if s.length < 3 then none
  else
    match names.findIdx? (· == s.take 3) with
    | some i => some (i, s.drop 3)
    | none => none

def httpDpTime : Reading (Nat × Nat × Nat) := do
  let hh ← httpDpNum 2
  httpDpLit (ascii ":")
  let mi ← httpDpNum 2
  httpDpLit (ascii ":")
  let ss ← httpDpNum 2
  pure (hh, mi, ss)

structure Fields where
  wd : Nat
  d : Nat
  m : Nat
  y : Nat
  time : Nat × Nat × Nat
  twoDigitYear : Bool

def readImf : Reading Fields := do
  let wd ← httpDpName3 httpWkday
  httpDpLit (ascii ", ")
  let d ← httpDpNum 2
  httpDpLit (ascii " ")
  let m ← httpDpName3 httpMonth
  httpDpLit (ascii " ")
  let y ← httpDpNum 4
  httpDpLit (ascii " ")
  let time ← httpDpTime
  httpDpLit (ascii " GMT")
  pure ⟨wd, d, m + 1, y, time, false⟩

def readRfc850 (wd : Nat) : Reading Fields := do
  httpDpLit (ascii ", ")
  let d ← httpDpNum 2
  httpDpLit (ascii "-")
  let m ← httpDpName3 httpMonth
  httpDpLit (ascii "-")
  let y ← httpDpNum 2
  httpDpLit (ascii " ")
  let time ← httpDpTime
  httpDpLit (ascii " GMT")
  pure ⟨wd, d, m + 1, y, time, true⟩

def dpDay : Reading Nat := fun s =>
  match s with
  | c :: s' => if c = 32 then httpDpNum 1 s' else httpDpNum 2 s
  | [] => httpDpNum 2 s

def readAsctime : Reading Fields := do
  let wd ← httpDpName3 httpWkday
  httpDpLit (ascii " ")
  let m ← httpDpName3 httpMonth
  httpDpLit (ascii " ")
  let d ← dpDay
  httpDpLit (ascii " ")
  let time ← httpDpTime
  httpDpLit (ascii " ")
  let y ← httpDpNum 4
  pure ⟨wd, d, m + 1, y, time, false⟩

def weekdayNamed (name : List Byte) : Option Nat :=
  (List.range 7).foldl (fun found i => if httpWeekday.getD i [] = name then some i else found) none

def readForm (text : List Byte) : Option (Fields × List Byte) :=
  let name := text.takeWhile fun c => c != 44 && c != 32
  match text.drop name.length with
  | [] => none
  | c :: rest =>
    if c = 44 ∧ name.length = 3 then readImf text
    else if c = 44 then
      match weekdayNamed name with
      | none => none
      | some wd => readRfc850 wd (c :: rest)
    else readAsctime text

def fullYear (now : Int) (y : Nat) : Nat :=
  let nowY := (httpCivilFromDays ((if now < 0 then 0 else now.toNat / nsPerSec) / 86400)).1
  let full := nowY - nowY % 100 + y
  if nowY + 50 < full then full - 100 else full

def httpDateParse (text : List Byte) (now : Int) : Except ProvenErr Int :=
  match readForm text with
  | none => .error .invalidFormat
  | some (fields, left) =>
    if left ≠ [] then .error .invalidFormat
    else
      let y := if fields.twoDigitYear then fullYear now fields.y else fields.y
      let (hh, mi, ss) := fields.time
      if y < 1970 ∨ 9999 < y ∨ fields.m < 1 ∨ 12 < fields.m ∨ fields.d < 1 ∨ httpDaysInMonth y fields.m < fields.d then
        .error .invalidFormat
      else if 23 < hh ∨ 59 < mi ∨ 60 < ss then .error .invalidFormat
      else
        let days := httpDaysFromCivil y fields.m fields.d
        if (days + 4) % 7 ≠ fields.wd then .error .invalidFormat
        else
          let sec := days * 86400 + hh * 3600 + mi * 60 + ss
          if maxEpochSec < sec then .error .overflow else .ok (sec * nsPerSec : Nat)

end ProvenC.Http.Dates

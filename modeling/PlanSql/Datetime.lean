import PlanSql.Text.Blank
import PlanSql.Text.Reader

/-!
# Datetimes

A date of the proleptic Gregorian calendar with a time of day down to the nanosecond, taken as
UTC. The second 60 is allowed in every minute and counts as the second before it.
-/

namespace PlanSql

namespace Calendar

/-- Whether a year has a 29th of February. -/
def isLeap (year : Int) : Bool := year % 4 = 0 && (year % 100 != 0 || year % 400 = 0)

/-- The number of days of a month; zero if there is no such month. -/
def monthLength (year : Int) (month : Nat) : Nat :=
  if month = 2 then (if isLeap year then 29 else 28)
  else if month = 4 ∨ month = 6 ∨ month = 9 ∨ month = 11 then 30
  else if 1 ≤ month ∧ month ≤ 12 then 31
  else 0

def daysToMarch (year : Int) : Int := 365 * year + year / 4 - year / 100 + year / 400

/-- Days since the first of January 1970. January and February count to the year before, so that
the leap day is the last day of its year. -/
def dayNumber (year : Int) (month day : Nat) : Int :=
  let early := decide (month ≤ 2)
  let marchMonth : Int := if early then month + 9 else month - 3
  daysToMarch (if early then year - 1 else year) + (153 * marchMonth + 2) / 5 + day - 1 - 719468

end Calendar

/-- A date and a time of day. -/
structure Datetime where
  /-- Year; zero is the year before year one. -/
  year : Int
  month : Nat
  day : Nat
  hour : Nat
  minute : Nat
  second : Nat
  nano : Nat
  valid : (-262143 ≤ year ∧ year ≤ 262142) ∧ (1 ≤ day ∧ day ≤ Calendar.monthLength year month) ∧
    hour < 24 ∧ minute < 60 ∧ second ≤ 60 ∧ nano < 10 ^ 9
  deriving DecidableEq

namespace Datetime

/-- The datetime with the given parts, if they name a real day and a real time. -/
def ofParts? (year : Int) (month day hour minute second nano : Nat) : Option Datetime :=
  if h : (-262143 ≤ year ∧ year ≤ 262142) ∧
      (1 ≤ day ∧ day ≤ Calendar.monthLength year month) ∧
      hour < 24 ∧ minute < 60 ∧ second ≤ 60 ∧ nano < 10 ^ 9 then
    some ⟨year, month, day, hour, minute, second, nano, h⟩
  else none

/-- Seconds since the beginning of 1970. -/
def timestamp (t : Datetime) : Int :=
  Calendar.dayNumber t.year t.month t.day * 86400 + t.hour * 3600 + t.minute * 60 +
    min t.second 59

/-- A number filled with zeros on the left to `width` digits. -/
def padded (width n : Nat) : String :=
  let digits := Nat.toDigits 10 n
  String.ofList (List.replicate (width - digits.length) '0' ++ digits)

/-- The year with four digits, and with its sign when four digits cannot hold it. -/
def yearText (year : Int) : String :=
  if 0 ≤ year ∧ year ≤ 9999 then padded 4 year.natAbs
  else (if year < 0 then "-" else "+") ++ padded 4 year.natAbs

/-- The fraction of a second with three, six or nine digits; nothing if it is zero. -/
def fractionText (nano : Nat) : String :=
  if nano = 0 then ""
  else if nano % 1000000 = 0 then "." ++ padded 3 (nano / 1000000)
  else if nano % 1000 = 0 then "." ++ padded 6 (nano / 1000)
  else "." ++ padded 9 nano

/-- Date and time with `separator` between them. -/
def text (separator : String) (t : Datetime) : String :=
  yearText t.year ++ "-" ++ padded 2 t.month ++ "-" ++ padded 2 t.day ++ separator ++
    padded 2 t.hour ++ ":" ++ padded 2 t.minute ++ ":" ++ padded 2 t.second ++
    fractionText t.nano

/-- Text for a reader, with a space between date and time. -/
def display (t : Datetime) : String := t.text " "

def jsonText (t : Datetime) : String := t.text "T"

/-- Blank characters, then from one up to `width` digits. -/
def number (width : Nat) : Text.Reader Nat := fun cs =>
  let cs := cs.dropWhile Text.isBlank
  let digits := (cs.take width).takeWhile Char.isDigit
  if digits.isEmpty then none
  else some (digits.foldl (fun n c => 10 * n + (c.toNat - 48)) 0, cs.drop digits.length)

/-- A year: four digits at most, or a sign and any number of digits. -/
def signedYear : Text.Reader Int := fun cs =>
  match cs.dropWhile Text.isBlank with
  | '-' :: rest => if rest.head?.any Char.isDigit then signed (-1) rest else none
  | '+' :: rest => if rest.head?.any Char.isDigit then signed 1 rest else none
  | rest => (number 4 rest).map fun (n, rest) => ((n : Int), rest)
where
  signed (sign : Int) (rest : List Char) : Option (Int × List Char) :=
    (number rest.length rest).map fun (n, rest) => (sign * n, rest)

def mark (c : Char) : Text.Reader Unit := fun cs =>
  match cs.dropWhile Text.isBlank with
  | first :: rest => if first = c then some ((), rest) else none
  | [] => none

/-- A point and digits, of which the first nine count; without a point the fraction is zero. -/
def fraction : Text.Reader Nat := fun cs =>
  match cs with
  | '.' :: rest =>
    let digits := (rest.take 9).takeWhile Char.isDigit
    if digits.isEmpty then none
    else
      let value := digits.foldl (fun n c => 10 * n + (c.toNat - 48)) 0
      some (value * 10 ^ (9 - digits.length), rest.dropWhile Char.isDigit)
  | rest => some (0, rest)

/-- Reads date and time with a `T` between them. Blank characters may stand before every number
and every mark and at the end, numbers may be short, and digits beyond the nanosecond are
dropped. -/
def ofText? (s : String) : Option Datetime := do
  let (year, cs) ← signedYear s.toList
  let (_, cs) ← mark '-' cs
  let (month, cs) ← number 2 cs
  let (_, cs) ← mark '-' cs
  let (day, cs) ← number 2 cs
  let (_, cs) ← mark 'T' cs
  let (hour, cs) ← number 2 cs
  let (_, cs) ← mark ':' cs
  let (minute, cs) ← number 2 cs
  let (_, cs) ← mark ':' cs
  let (second, cs) ← number 2 cs
  let (nano, cs) ← fraction cs
  if cs.all Text.isBlank then ofParts? year month day hour minute second nano else none

end Datetime

end PlanSql

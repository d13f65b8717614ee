import PlanSql.Number.FloatText
import PlanSql.Number.Shortest

/-!
# Fixed point decimals

A decimal is a sign, digits of at most 96 bits and a number of places of at most 28. The places
are kept as written. Zero is read without its sign; only rounding to zero keeps one.
-/

namespace PlanSql

/-- A decimal number `± digits / 10 ^ places`. -/
structure Decimal where
  /-- Whether a minus sign stands before the digits. -/
  negative : Bool
  digits : Nat
  places : Nat
  digits_lt : digits < 2 ^ 96
  places_le : places ≤ 28
  deriving DecidableEq

namespace Decimal

/-- The decimal with the given parts, if they are in range. -/
def make? (negative : Bool) (digits places : Nat) : Option Decimal :=
  if h : digits < 2 ^ 96 ∧ places ≤ 28 then some ⟨negative, digits, places, h.1, h.2⟩ else none

/-- The decimal with the given parts, if they are in range, where zero has no sign. -/
def ofParts? (negative : Bool) (digits places : Nat) : Option Decimal :=
  make? (negative && digits != 0) digits places

/-- The same number, where zero has no sign. -/
def settled (d : Decimal) : Decimal := { d with negative := d.negative && d.digits != 0 }

/-- The decimal equal to an integer, if it is in range. -/
def ofInt? (n : Int) : Option Decimal := ofParts? (n < 0) n.natAbs 0

/-- The digits with a point before the last places. -/
def toString (d : Decimal) : String :=
  (if d.negative then "-" else "") ++
    String.ofList (Digits.positional ⟨d.digits, -(d.places : Int)⟩)

instance : ToString Decimal := ⟨toString⟩

/-- What has been read of a decimal text: the digits, the places, whether a point and whether a
digit was met. -/
structure Progress where
  digits : Nat
  places : Nat
  point : Bool
  started : Bool

/-- The first digit of a text of digits and separators: `none` if another character stands in it,
zero if there is no digit. -/
def roundingDigit? (cs : List Char) : Option Nat :=
  if cs.all fun c => c.isDigit || c == '_' then
    some (((cs.find? Char.isDigit).map fun c => c.toNat - 48).getD 0)
  else none

/-- The decimal read when the digits of the rest no longer fit: the first of them rounds the last
place, upwards from five on. When the digits then need more than 96 bits one more place is
dropped. -/
def round? (negative : Bool) (p : Progress) (rest : List Char) : Option Decimal :=
  (roundingDigit? rest).bind fun digit =>
    let digits := if 5 ≤ digit then p.digits + 1 else p.digits
    if digits < 2 ^ 96 then ofParts? negative digits p.places
    else if p.places = 0 then none
    else ofParts? negative ((digits + 4) / 10) (p.places - 1)

def readRest? (negative : Bool) (p : Progress) : List Char → Option Decimal
  | [] => if p.started then ofParts? negative p.digits p.places else none
  | c :: rest =>
    if p.point ∧ 28 ≤ p.places then round? negative p (c :: rest)
    else if c.isDigit then
      let digits := 10 * p.digits + (c.toNat - 48)
      if digits < 2 ^ 96 then
        readRest? negative ⟨digits, if p.point then p.places + 1 else 0, p.point, true⟩ rest
      else if p.point then round? negative p (c :: rest)
      else none
    else if c = '.' ∧ !p.point then readRest? negative { p with point := true } rest
    else if c = '_' ∧ p.started then readRest? negative p rest
    else none

def readPlain? (cs : List Char) : Option Decimal :=
  match cs with
  | '-' :: rest => readRest? true ⟨0, 0, false, false⟩ rest
  | '+' :: rest => readRest? false ⟨0, 0, false, false⟩ rest
  | rest => readRest? false ⟨0, 0, false, false⟩ rest

/-- Reads an unsigned exponent of at most 28. -/
def readPower? (cs : List Char) : Option Nat :=
  let digits := match cs with
    | '+' :: ds => ds
    | ds => ds
  if digits.isEmpty || !digits.all Char.isDigit then none
  else
    let power := Binary64.digitsValue 0 digits
    if power ≤ 28 then some power else none

/-- The decimal moved by a power of ten to the right: places are given up first, then zeros are
added. -/
def shiftUp? (d : Decimal) (power : Nat) : Option Decimal :=
  if power ≤ d.places then ofParts? d.negative d.digits (d.places - power)
  else ofParts? d.negative (d.digits * 10 ^ (power - d.places)) 0

/-- The decimal moved by a power of ten to the left: places are added first, then the last digits
are rounded away, a half upwards. The sign stays, also when no digit does. -/
def shiftDown? (d : Decimal) (power : Nat) : Option Decimal :=
  let places := d.places + power
  if places ≤ 28 then make? d.negative d.digits places
  else make? d.negative ((d.digits / 10 ^ (places - 29) + 5) / 10) 28

def readScientific? (cs : List Char) : Option Decimal :=
  let isMark := fun c : Char => c = 'e' || c = 'E'
  match cs.dropWhile (fun c => !isMark c) with
  | [] => none
  | _ :: power =>
    (readPlain? (cs.takeWhile (fun c => !isMark c))).bind fun base =>
      match power with
      | '-' :: digits => (readPower? digits).bind base.shiftDown?
      | '+' :: digits => (readPower? digits).bind base.shiftUp?
      | digits => (readPower? digits).bind base.shiftUp?

def ofText? (s : String) : Option Decimal :=
  (readPlain? s.toList).orElse fun _ => readScientific? s.toList

def ofBinary64? (x : Binary64) : Option Decimal := readPlain? x.display.toList

end Decimal

end PlanSql

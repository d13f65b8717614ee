import PlanSql.Number.Binary64

/-!
# Shortest decimal digits

The decimal number with the fewest digits that rounds to a given binary number, and of those the
nearest one; and the ways it is laid out as text.
-/

namespace PlanSql

/-- The decimal number `digits * 10 ^ scale`. -/
structure Digits where
  digits : Nat
  scale : Int
  deriving DecidableEq

namespace Digits

/-- Trailing zeros moved into the scale, at most `fuel` of them. -/
def trim : Nat → Digits → Digits
  | 0, d => d
  | fuel + 1, d =>
    if d.digits ≠ 0 ∧ d.digits % 10 = 0 then trim fuel ⟨d.digits / 10, d.scale + 1⟩ else d

def chars (d : Digits) : List Char := Nat.toDigits 10 d.digits

def leadingExponent (d : Digits) : Int := d.chars.length - 1 + d.scale

/-- Positional text, with a point only if there are places behind it. -/
def positional (d : Digits) : List Char :=
  if 0 ≤ d.scale then d.chars ++ List.replicate d.scale.toNat '0'
  else
    let places := (-d.scale).toNat
    let filled := List.replicate (places + 1 - d.chars.length) '0' ++ d.chars
    filled.take (filled.length - places) ++ '.' :: filled.drop (filled.length - places)

/-- Text with one digit before the point and a signed power of ten. -/
def scientific (d : Digits) : List Char :=
  let rest := d.chars.drop 1
  let sign := if d.leadingExponent < 0 then '-' else '+'
  d.chars.take 1 ++ (if rest.isEmpty then [] else '.' :: rest) ++
    'e' :: sign :: Nat.toDigits 10 d.leadingExponent.natAbs

end Digits

namespace Binary64

/-- The multiples of a power of ten that stand for a number: the value itself and the two ends of
the interval that rounds to it, as multiples of one positive quantity over another. -/
structure Window where
  low : Nat
  mid : Nat
  high : Nat
  closed : Bool
  den : Nat

/-- The interval of a finite number that is not zero. The lower gap is half as wide at a power of
two, except at the least exponent. -/
def window (x : Binary64) : Window :=
  let m := x.significand
  let narrow := x.fraction = 0 ∧ 1 < x.exponentField
  let shift := x.exponent - 2
  let up := if 0 ≤ shift then 2 ^ shift.toNat else 1
  let den := if 0 ≤ shift then 1 else 2 ^ (-shift).toNat
  ⟨(4 * m - if narrow then 1 else 2) * up, 4 * m * up, (4 * m + 2) * up, m % 2 = 0, den⟩

/-- The power of ten `p` with `10 ^ (p - 1) ≤ mid / den < 10 ^ p`. -/
def Window.decade (w : Window) : Int :=
  if w.den ≤ w.mid then digitCount (w.mid / w.den)
  else 1 - (digitCount ((w.den + w.mid - 1) / w.mid - 1) : Int)

/-- Whether `candidate` times the grid unit lies in the interval, where the grid unit is `step`
and interval ends are scaled by `stretch`. -/
def Window.holds (w : Window) (stretch step candidate : Nat) : Bool :=
  let point := candidate * step
  if w.closed then w.low * stretch ≤ point && point ≤ w.high * stretch
  else w.low * stretch < point && point < w.high * stretch

/-- Which of two points at the same distance is taken. -/
inductive Tie where
  | up
  | even
  deriving DecidableEq

/-- Whether the lower of two points at the same distance is taken. -/
def Tie.takesLower (tie : Tie) (lower : Nat) : Bool :=
  match tie with
  | .up => false
  | .even => lower % 2 == 0

/-- The nearest point in the interval on the grid of multiples of `10 ^ scale`, if there is one.
Only the two neighbours of the value can be it. -/
def Window.nearest? (tie : Tie) (w : Window) (scale : Int) : Option Digits :=
  let stretch := if 0 ≤ scale then 1 else 10 ^ (-scale).toNat
  let step := if 0 ≤ scale then w.den * 10 ^ scale.toNat else w.den
  let below := w.mid * stretch / step
  let rest := w.mid * stretch % step
  match w.holds stretch step below, w.holds stretch step (below + 1) with
  | true, true =>
    let lower := 2 * rest < step ∨ (2 * rest = step ∧ tie.takesLower below)
    some ⟨if lower then below else below + 1, scale⟩
  | true, false => some ⟨below, scale⟩
  | false, true => some ⟨below + 1, scale⟩
  | false, false => none

/-- The first grid with a hit, from `count` digits on and for at most `fuel` further grids. -/
def Window.search (tie : Tie) (w : Window) : Nat → Nat → Digits
  | 0, count => ⟨w.mid * 10 ^ count / w.den, -(count : Int)⟩
  | fuel + 1, count =>
    match w.nearest? tie (w.decade - count) with
    | some d => d
    | none => w.search tie fuel (count + 1)

/-- The fewest decimal digits that read back to a finite number; seventeen always do. -/
def shortest (tie : Tie) (x : Binary64) : Digits :=
  if x.significand = 0 then ⟨0, 0⟩ else (x.window.search tie 17 1).trim 20

def signText (x : Binary64) : String := if x.isNegative then "-" else ""

/-- Positional text: the shortest digits, upper ones in a tie, and never an exponent. -/
def display (x : Binary64) : String :=
  if x.isNaN then "NaN"
  else if x.isFinite then x.signText ++ String.ofList (x.shortest .up).positional
  else x.signText ++ "inf"

/-- Text with `.0` added to a finite number that shows no point. -/
def withPoint (x : Binary64) (text : List Char) : String :=
  x.signText ++ String.ofList (if '.' ∈ text then text else text ++ ['.', '0'])

/-- Text for a statement: positional, and finite numbers always show a point. -/
def sqlText (x : Binary64) : String :=
  if x.isFinite then x.withPoint (x.shortest .up).positional else x.display

/-- Text for a document: positional when one digit before the point leaves an exponent from `-5`
to `15`, else scientific, with even digits in a tie. What is not a number of the format is
`null`. -/
def jsonText (x : Binary64) : String :=
  let d := x.shortest .even
  if !x.isFinite then "null"
  else if -5 ≤ d.leadingExponent ∧ d.leadingExponent ≤ 15 then x.withPoint d.positional
  else x.signText ++ String.ofList d.scientific

end Binary64

end PlanSql

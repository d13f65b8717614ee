/-!
# Binary floating point numbers of 64 bits

A number is its word: a sign bit, eleven exponent bits and a fraction of 52 bits. Rounding and
arithmetic work on exact natural numbers, so every result is the nearest number and a tie goes
to the even significand.
-/

namespace PlanSql

-- Powers of natural numbers are the ones of core here and in every module that imports this one,
-- whatever else is imported. An attribute on defaults cannot be local.
attribute [instance (2000), default_instance (20000)] instPowNat

/-- A binary floating point number of 64 bits, given by its word. -/
structure Binary64 where
  bits : UInt64
  deriving DecidableEq

namespace Binary64

/-- Whether the sign bit is set. -/
def isNegative (x : Binary64) : Bool := 2 ^ 63 ≤ x.bits.toNat

def exponentField (x : Binary64) : Nat := x.bits.toNat / 2 ^ 52 % 2 ^ 11

def fraction (x : Binary64) : Nat := x.bits.toNat % 2 ^ 52

/-- Whether the number is neither an infinity nor a NaN. -/
def isFinite (x : Binary64) : Bool := x.exponentField != 2047

/-- Whether the word stands for no number. -/
def isNaN (x : Binary64) : Bool := x.exponentField == 2047 && x.fraction != 0

/-- The integral significand of a finite number. -/
def significand (x : Binary64) : Nat :=
  if x.exponentField = 0 then x.fraction else 2 ^ 52 + x.fraction

/-- The power of two that scales the significand of a finite number. -/
def exponent (x : Binary64) : Int := (max x.exponentField 1 : Nat) - 1075

/-- The number with the given sign and the given word below the sign bit. -/
def ofMagnitude (negative : Bool) (word : Nat) : Binary64 :=
  ⟨UInt64.ofNat ((if negative then 2 ^ 63 else 0) + word)⟩

def zero (negative : Bool) : Binary64 := ofMagnitude negative 0

def infinity (negative : Bool) : Binary64 := ofMagnitude negative (2047 * 2 ^ 52)

/-- A word that stands for no number. -/
def nan : Binary64 := ofMagnitude false (2047 * 2 ^ 52 + 2 ^ 51)

/-- The integer nearest to a quotient; a tie goes to the even one. -/
def roundQuotient (num den : Nat) : Nat :=
  let quotient := num / den
  let rest := 2 * (num % den)
  if rest < den then quotient
  else if den < rest then quotient + 1
  else quotient + quotient % 2

def floorLog2 (num den : Nat) : Int :=
  let gap : Int := (num.log2 : Int) - den.log2
  let below := if 0 ≤ gap then num < den * 2 ^ gap.toNat else num * 2 ^ (-gap).toNat < den
  if below then gap - 1 else gap

/-- The number nearest to `num / den` with the given sign; beyond the largest one it is infinity.
The exponent is shifted so that a significand that rounds up to the next power of two carries
into the exponent field by itself. -/
def ofRatio (negative : Bool) (num den : Nat) : Binary64 :=
  if num = 0 then zero negative
  else
    let scale : Int := max (floorLog2 num den - 52) (-1074)
    let rounded :=
      if 0 ≤ scale then roundQuotient num (den * 2 ^ scale.toNat)
      else roundQuotient (num * 2 ^ (-scale).toNat) den
    ofMagnitude negative (min ((scale + 1074).toNat * 2 ^ 52 + rounded) (2047 * 2 ^ 52))

/-- Numerator and denominator of the magnitude of a finite number. -/
def ratio (x : Binary64) : Nat × Nat :=
  if 0 ≤ x.exponent then (x.significand * 2 ^ x.exponent.toNat, 1)
  else (x.significand, 2 ^ (-x.exponent).toNat)

/-- The product of two finite numbers. -/
def mul (x y : Binary64) : Binary64 :=
  let (a, b) := x.ratio
  let (c, d) := y.ratio
  ofRatio (x.isNegative != y.isNegative) (a * c) (b * d)

/-- The quotient of two finite numbers; the divisor is not zero. -/
def div (x y : Binary64) : Binary64 :=
  let (a, b) := x.ratio
  let (c, d) := y.ratio
  ofRatio (x.isNegative != y.isNegative) (a * d) (b * c)

/-- The number of decimal digits of a natural number. -/
def digitCount (n : Nat) : Nat := (Nat.toDigits 10 n).length

/-- The number nearest to `digits * 10 ^ scale`. Far beyond either end of the range the answer is
known without the power. -/
def ofDecimal (negative : Bool) (digits : Nat) (scale : Int) : Binary64 :=
  let size := scale + digitCount digits
  if digits = 0 ∨ size < -330 then zero negative
  else if 310 < size then infinity negative
  else if 0 ≤ scale then ofRatio negative (digits * 10 ^ scale.toNat) 1
  else ofRatio negative digits (10 ^ (-scale).toNat)

end Binary64

end PlanSql

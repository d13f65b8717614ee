import PlanSql.Number.Binary64

/-!
# Reading floating point text

Two readers. `Binary64.ofText?` takes any decimal text and rounds it correctly. `Binary64.scaled?`
is the rule for numbers in documents, which multiplies or divides a rounded significand by a
rounded power of ten and so may miss the nearest number by one place.
-/

namespace PlanSql.Binary64

def digitsValue (start : Nat) (cs : List Char) : Nat :=
  cs.foldl (fun n c => 10 * n + (c.toNat - 48)) start

/-- The exponent part of decimal text: nothing, or a mark, a sign and digits. -/
def readExponent? : List Char → Option Int
  | [] => some 0
  | mark :: rest =>
    if mark = 'e' ∨ mark = 'E' then
      let (negative, digits) := match rest with
        | '-' :: ds => (true, ds)
        | '+' :: ds => (false, ds)
        | ds => (false, ds)
      if digits.isEmpty || !digits.all Char.isDigit then none
      else
        let size : Int := digitsValue 0 digits
        some (if negative then -size else size)
    else none

/-- Unsigned decimal text: digits, perhaps a point and more digits, perhaps an exponent; at least
one digit stands before the exponent. -/
def readDecimal? (negative : Bool) (cs : List Char) : Option Binary64 :=
  let whole := cs.takeWhile Char.isDigit
  let rest := cs.dropWhile Char.isDigit
  let (places, rest) := match rest with
    | '.' :: more => (more.takeWhile Char.isDigit, more.dropWhile Char.isDigit)
    | other => ([], other)
  if whole.isEmpty && places.isEmpty then none
  else
    (readExponent? rest).map fun power =>
      ofDecimal negative (digitsValue 0 (whole ++ places)) (power - places.length)

/-- The number nearest to decimal text, or infinity or a NaN by name in letters of either case. -/
def ofText? (s : String) : Option Binary64 :=
  let (negative, cs) := match s.toList with
    | '-' :: rest => (true, rest)
    | '+' :: rest => (false, rest)
    | rest => (false, rest)
  let name := String.ofList (cs.map Char.toLower)
  if name = "inf" ∨ name = "infinity" then some (infinity negative)
  else if name = "nan" then some nan
  else readDecimal? negative cs

def powerOfTen (n : Nat) : Binary64 := ofDecimal false 1 n

def largestPower : Nat := 308

/-- A significand times a power of ten: both are rounded, and then their product or quotient is.
A power below the least one is taken in two steps. There is no result beyond the range. -/
def scaled? (negative : Bool) (significand : Nat) (power : Int) : Option Binary64 :=
  let base := ofRatio negative significand 1
  if significand = 0 then some base
  else if 0 ≤ power then
    if power.toNat ≤ largestPower then
      let product := base.mul (powerOfTen power.toNat)
      if product.isFinite then some product else none
    else none
  else if (-power).toNat ≤ largestPower then some (base.div (powerOfTen (-power).toNat))
  else
    let rest := (-power).toNat - largestPower
    if rest ≤ largestPower then
      some ((base.div (powerOfTen largestPower)).div (powerOfTen rest))
    else some (zero negative)

end PlanSql.Binary64

/-!
# Readers of text

A reader takes characters from the front of a text and gives what it read with the characters that
are left, or nothing.
-/

namespace PlanSql.Text

abbrev Reader (α : Type) := List Char → Option (α × List Char)

/-- The value of a digit in bases up to sixteen, in letters of either case. -/
def hexDigit? (c : Char) : Option Nat :=
  if '0' ≤ c ∧ c ≤ '9' then some (c.toNat - 48)
  else if 'a' ≤ c ∧ c ≤ 'f' then some (c.toNat - 87)
  else if 'A' ≤ c ∧ c ≤ 'F' then some (c.toNat - 55)
  else none

/-- Exactly `count` hexadecimal digits, after a number already read. -/
def readHex : Nat → Nat → Reader Nat
  | 0, start, cs => some (start, cs)
  | count + 1, start, c :: rest => do
    let d ← hexDigit? c
    readHex count (16 * start + d) rest
  | _ + 1, _, [] => none

def readExactly : List Char → Reader Unit
  | [], cs => some ((), cs)
  | e :: expected, c :: rest => if e = c then readExactly expected rest else none
  | _ :: _, [] => none

/-- A character by its number, if there is one. -/
def charOf? (n : Nat) : Option Char :=
  if h : n.isValidChar then some (Char.ofNatAux n h) else none

end PlanSql.Text

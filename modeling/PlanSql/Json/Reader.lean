import PlanSql.Json.Basic
import PlanSql.Number.FloatText
import PlanSql.Text.Reader

/-!
# Reading documents

A document nests at most 127 lists and objects. A number without fraction and exponent is whole if
it fits in 64 bits, with or without sign; any other is a floating point number, whose digits beyond
64 bits are dropped.
-/

namespace PlanSql.Json

open PlanSql.Text (Reader)

/-- The characters that may stand between the parts of a document. -/
def isSpace (c : Char) : Bool := c == ' ' || c == '\n' || c == '\r' || c == '\t'

/-- The text from its first character that is no space. -/
def skipSpace (cs : List Char) : List Char := cs.dropWhile isSpace

/-- The character behind a backslash and a letter other than `u`. -/
def plainEscape? : Char → Option Char
  | '\x22' => some '\x22'
  | '\\' => some '\\'
  | '/' => some '/'
  | 'b' => some '\x08'
  | 'f' => some '\x0c'
  | 'n' => some '\n'
  | 'r' => some '\r'
  | 't' => some '\t'
  | _ => none

/-- A character by its number in four hexadecimal digits, or in two such groups when the first
group is the first half of a pair. -/
def readUnicode : Reader Char := fun cs => do
  let (high, rest) ← Text.readHex 4 0 cs
  if 0xD800 ≤ high ∧ high < 0xDC00 then
    let (_, rest) ← Text.readExactly ['\\', 'u'] rest
    let (low, rest) ← Text.readHex 4 0 rest
    if 0xDC00 ≤ low ∧ low < 0xE000 then
      let c ← Text.charOf? (0x10000 + (high - 0xD800) * 0x400 + (low - 0xDC00))
      pure (c, rest)
    else none
  else
    let c ← Text.charOf? high
    pure (c, rest)

def readEscape : Reader Char
  | 'u' :: rest => readUnicode rest
  | c :: rest => (plainEscape? c).map fun e => (e, rest)
  | [] => none

/-- The rest of a text, behind its first quote; at most `size` characters. -/
def readChars : Nat → Reader (List Char)
  | 0, _ => none
  | size + 1, cs =>
    match cs with
    | '\x22' :: rest => some ([], rest)
    | '\\' :: rest => do
      let (c, rest) ← readEscape rest
      let (tail, rest) ← readChars size rest
      pure (c :: tail, rest)
    | c :: rest =>
      if c.toNat < 32 then none
      else do
        let (tail, rest) ← readChars size rest
        pure (c :: tail, rest)
    | [] => none

def readString (size : Nat) : Reader String
  | '\x22' :: rest => (readChars size rest).map fun (cs, rest) => (String.ofList cs, rest)
  | _ => none

/-- Adds digits to a number as long as it fits in 64 bits, and gives the digits left over. -/
def addDigits : Nat → List Char → Nat × List Char
  | n, [] => (n, [])
  | n, c :: rest =>
    if 10 * n + (c.toNat - 48) < 2 ^ 64 then addDigits (10 * n + (c.toNat - 48)) rest
    else (n, c :: rest)

/-- A whole number as a document. Minus zero and what does not fit in 64 bits are floating point
numbers. -/
def ofWhole (negative : Bool) (n : Nat) : Json :=
  if negative then
    if n = 0 ∨ 2 ^ 63 < n then .float (.ofRatio true n 1) else .integer (-n)
  else .integer n

/-- The digits of a fraction, behind the point; there is at least one. -/
def readFraction : Reader (List Char) := fun cs =>
  let digits := cs.takeWhile Char.isDigit
  if digits.isEmpty then none else some (digits, cs.dropWhile Char.isDigit)

/-- An exponent, if there is one. -/
def readPower? : Reader (Option Int) := fun cs =>
  match cs with
  | mark :: rest =>
    if mark = 'e' ∨ mark = 'E' then
      let (sign, rest) : Int × List Char := match rest with
        | '-' :: rest => (-1, rest)
        | '+' :: rest => (1, rest)
        | rest => (1, rest)
      (readFraction rest).map fun (digits, rest) =>
        (some (sign * (Binary64.digitsValue 0 digits : Nat)), rest)
    else some (none, cs)
  | [] => some (none, cs)

def numberFrom (negative : Bool) (whole : List Char) : Reader Json := fun cs => do
  let (n, dropped) := addDigits 0 whole
  let (places, cs) ← match cs with
    | '.' :: rest => (readFraction rest).map fun (digits, rest) => (some digits, rest)
    | rest => some (none, rest)
  let (power, cs) ← readPower? cs
  if places.isNone && power.isNone && dropped.isEmpty then pure (ofWhole negative n, cs)
  else
    let digits := places.getD []
    let (m, rest) := addDigits n digits
    let scale : Int := dropped.length - (digits.length - rest.length : Nat) + power.getD 0
    let x ← Binary64.scaled? negative m scale
    pure (.float x, cs)

/-- A number. Its whole part has no leading zero. -/
def readNumber : Reader Json := fun cs =>
  let (negative, cs) := match cs with
    | '-' :: rest => (true, rest)
    | rest => (false, rest)
  match cs.takeWhile Char.isDigit with
  | [] => none
  | '0' :: _ :: _ => none
  | whole => numberFrom negative whole (cs.dropWhile Char.isDigit)

def readScalar (size : Nat) : Reader Json := fun cs =>
  match skipSpace cs with
  | 'n' :: rest => (Text.readExactly ['u', 'l', 'l'] rest).map fun (_, rest) => (null, rest)
  | 't' :: rest => (Text.readExactly ['r', 'u', 'e'] rest).map fun (_, rest) => (bool true, rest)
  | 'f' :: rest =>
    (Text.readExactly ['a', 'l', 's', 'e'] rest).map fun (_, rest) => (bool false, rest)
  | '\x22' :: rest => (readString size ('\x22' :: rest)).map fun (s, rest) => (string s, rest)
  | cs => readNumber cs

/-- Elements with commas between them, up to the closing character; at least one and at most
`count`. -/
def readItems {α : Type} (element : Reader α) (close : Char) : Nat → Reader (List α)
  | 0, _ => none
  | count + 1, cs => do
    let (x, rest) ← element cs
    match skipSpace rest with
    | c :: rest =>
      if c = ',' then do
        let (xs, rest) ← readItems element close count rest
        pure (x :: xs, rest)
      else if c = close then pure ([x], rest)
      else none
    | [] => none

def readBody {α : Type} (element : Reader α) (close : Char) (size : Nat) :
    Reader (List α) := fun cs =>
  match skipSpace cs with
  | c :: rest => if c = close then some ([], rest) else readItems element close size (c :: rest)
  | [] => none

def readMember (value : Reader Json) (size : Nat) : Reader (String × Json) := fun cs => do
  let (name, rest) ← readString size (skipSpace cs)
  match skipSpace rest with
  | ':' :: rest => do
    let (j, rest) ← value rest
    pure ((name, j), rest)
  | _ => none

/-- A document of at most `size` characters that nests at most `depth` lists and objects. -/
def readValue (size : Nat) : Nat → Reader Json
  | 0 => readScalar size
  | depth + 1 => fun cs =>
    match skipSpace cs with
    | '[' :: rest =>
      (readBody (readValue size depth) ']' size rest).map fun (items, rest) => (array items, rest)
    | '\x7b' :: rest =>
      (readBody (readMember (readValue size depth) size) '\x7d' size rest).map
        fun (members, rest) => (object members, rest)
    | cs => readScalar size cs

/-- How deep lists and objects may nest. -/
def depthLimit : Nat := 127

/-- Reads a document; nothing but spaces may follow it. -/
def parse? (s : String) : Option Json := do
  let (j, rest) ← readValue s.toList.length depthLimit s.toList
  if rest.all isSpace then pure j else none

end PlanSql.Json

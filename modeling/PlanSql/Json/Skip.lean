import PlanSql.Json.Reader

/-!
# Passing over values

A value that nobody asks for only has to be well formed. It may nest as deep as it likes, its
numbers may be too large, and the numbers of its characters need not name one. The lists and
objects that are still open are kept in a list, the innermost first.
-/

namespace PlanSql.Json

/-- The text behind a quoted text, of which the first quote is gone. -/
def skipChars : List Char → Option (List Char)
  | [] => none
  | '\x22' :: rest => some rest
  | '\\' :: 'u' :: a :: b :: c :: d :: rest =>
    if [a, b, c, d].all fun x => (Text.hexDigit? x).isSome then skipChars rest else none
  | '\\' :: c :: rest => if (plainEscape? c).isSome then skipChars rest else none
  | c :: rest => if c.toNat < 32 then none else skipChars rest

/-- The text behind digits, of which there is at least one. -/
def skipDigits (cs : List Char) : Option (List Char) := (readFraction cs).map (·.2)

/-- The text behind a number. Its whole part has no leading zero. -/
def skipNumber (cs : List Char) : Option (List Char) := do
  let cs := match cs with
    | '-' :: rest => rest
    | rest => rest
  let cs ← match cs.takeWhile Char.isDigit with
    | '0' :: _ :: _ => none
    | _ => skipDigits cs
  let cs ← match cs with
    | '.' :: rest => skipDigits rest
    | rest => some rest
  (readPower? cs).map (·.2)

/-- The text behind a value that nests nothing. -/
def skipScalar (cs : List Char) : Option (List Char) :=
  match cs with
  | 'n' :: rest => (Text.readExactly ['u', 'l', 'l'] rest).map (·.2)
  | 't' :: rest => (Text.readExactly ['r', 'u', 'e'] rest).map (·.2)
  | 'f' :: rest => (Text.readExactly ['a', 'l', 's', 'e'] rest).map (·.2)
  | '\x22' :: rest => skipChars rest
  | cs => skipNumber cs

/-- The text behind a name and a colon. -/
def skipName (cs : List Char) : Option (List Char) :=
  match skipSpace cs with
  | '\x22' :: rest => do
    match skipSpace (← skipChars rest) with
    | ':' :: rest => pure rest
    | _ => none
  | _ => none

/-- What a value stands in. -/
inductive Enclosure where
  | list
  | object
  deriving DecidableEq

def Enclosure.close : Enclosure → Char
  | list => ']'
  | object => '\x7d'

/-- The text in front of the next value of an enclosure: in an object its name is passed over. -/
def Enclosure.enter : Enclosure → List Char → Option (List Char)
  | list, cs => some cs
  | object, cs => skipName cs

def Enclosure.opened? : Char → Option Enclosure
  | '[' => some list
  | '\x7b' => some object
  | _ => none

mutual

/-- The text behind a value in the given enclosures, all of which end; at most `size` steps. -/
def skipIn : Nat → List Enclosure → List Char → Option (List Char)
  | 0, _, _ => none
  | size + 1, around, cs =>
    let cs := skipSpace cs
    match cs.head?.bind Enclosure.opened? with
    | none => do skipOut size around (← skipScalar cs)
    | some inner =>
      let rest := skipSpace (cs.drop 1)
      if rest.head? = some inner.close then skipOut size around (rest.drop 1)
      else do skipIn size (inner :: around) (← inner.enter rest)

/-- The text behind the given enclosures, where a value has just ended. -/
def skipOut : Nat → List Enclosure → List Char → Option (List Char)
  | _, [], cs => some cs
  | 0, _ :: _, _ => none
  | size + 1, inner :: around, cs =>
    match skipSpace cs with
    | ',' :: rest => do skipIn size (inner :: around) (← inner.enter rest)
    | c :: rest => if c = inner.close then skipOut size around rest else none
    | [] => none

end

/-- The text behind a value of a text with at most `size` characters. -/
def skipValue (size : Nat) (cs : List Char) : Option (List Char) := skipIn (size + 1) [] cs

end PlanSql.Json

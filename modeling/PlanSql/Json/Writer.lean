import PlanSql.Json.Basic

/-!
# Writing documents

A document is written on one line without spaces, or with one element a line and two spaces for
every level. Empty lists and objects stay on one line in both forms.
-/

namespace PlanSql.Json

/-- One character inside a text. Only quotes, backslashes and control characters are escaped. -/
def escapeChar (c : Char) : List Char :=
  if c = '\x22' then ['\\', '\x22']
  else if c = '\\' then ['\\', '\\']
  else if c = '\x08' then ['\\', 'b']
  else if c = '\x0c' then ['\\', 'f']
  else if c = '\n' then ['\\', 'n']
  else if c = '\r' then ['\\', 'r']
  else if c = '\t' then ['\\', 't']
  else if c.toNat < 32 then
    ['\\', 'u', '0', '0', Nat.digitChar (c.toNat / 16), Nat.digitChar (c.toNat % 16)]
  else [c]

def quote (s : String) : String :=
  String.ofList ('\x22' :: s.toList.flatMap escapeChar ++ ['\x22'])

/-- The text of a document that nests nothing. -/
def scalarText : Json → String
  | null => "null"
  | bool b => if b then "true" else "false"
  | integer n => toString n
  | float x => x.jsonText
  | string s => quote s
  | array _ => "[]"
  | object _ => "\x7b\x7d"

mutual

def compact : Json → String
  | array (j :: items) => "[" ++ compact j ++ compactItems items
  | object (m :: members) => "\x7b" ++ compactMember m ++ compactMembers members
  | j => scalarText j

/-- The elements of a list after the first one. -/
def compactItems : List Json → String
  | [] => "]"
  | j :: items => "," ++ compact j ++ compactItems items

def compactMember : String × Json → String
  | (name, j) => quote name ++ ":" ++ compact j

/-- The members of an object after the first one. -/
def compactMembers : List (String × Json) → String
  | [] => "\x7d"
  | m :: members => "," ++ compactMember m ++ compactMembers members

end

def newLine (level : Nat) : String := String.ofList ('\n' :: List.replicate (2 * level) ' ')

mutual

/-- A document with one element a line, inside `level` lists and objects. -/
def prettyAt (level : Nat) : Json → String
  | array (j :: items) =>
    "[" ++ newLine (level + 1) ++ prettyAt (level + 1) j ++ prettyItems level items
  | object (m :: members) =>
    "\x7b" ++ newLine (level + 1) ++ prettyMember level m ++ prettyMembers level members
  | j => scalarText j

/-- The elements of a list after the first one. -/
def prettyItems (level : Nat) : List Json → String
  | [] => newLine level ++ "]"
  | j :: items => "," ++ newLine (level + 1) ++ prettyAt (level + 1) j ++ prettyItems level items

def prettyMember (level : Nat) : String × Json → String
  | (name, j) => quote name ++ ": " ++ prettyAt (level + 1) j

/-- The members of an object after the first one. -/
def prettyMembers (level : Nat) : List (String × Json) → String
  | [] => newLine level ++ "\x7d"
  | m :: members =>
    "," ++ newLine (level + 1) ++ prettyMember level m ++ prettyMembers level members

end

/-- A document with one element a line. -/
def pretty (j : Json) : String := prettyAt 0 j

end PlanSql.Json

import PlanSql.Toml.Scalar

/-!
# Reading settings documents

A document is read line by line: headers, keys with their values, and comments. Lists may go over
several lines. A key has fewer than eighty parts, and lists and inline tables nest less than eighty
deep.
-/

namespace PlanSql.Toml

open PlanSql.Text (Reader)

/-- The text from its first character that is no gap. -/
def skipGap (cs : List Char) : List Char := cs.dropWhile isGap

/-- The text behind a comment, if there is one; it goes up to the end of the line. -/
def skipComment : List Char → List Char
  | '#' :: rest => rest.dropWhile isPlain
  | cs => cs

/-- Gaps, line breaks and comments, as they may stand between the values of a list. -/
def skipLines : Nat → List Char → List Char
  | 0, cs => cs
  | size + 1, cs =>
    let rest := skipComment (skipGap cs)
    match lineBreak? rest with
    | some rest => skipLines size rest
    | none => rest

/-- Whether a character may stand in a key without quotes. -/
def isKeyChar (c : Char) : Bool := c.isAlphanum || c == '_' || c == '-'

def readKeyPart (size : Nat) : Reader String := fun cs =>
  match cs with
  | '\x22' :: _ | '\x27' :: _ => readShort size cs
  | _ =>
    let key := cs.takeWhile isKeyChar
    if key.isEmpty then none else some (String.ofList key, cs.dropWhile isKeyChar)

/-- Parts of a key with points between them, at most `count` of them. -/
def readKeyParts (size : Nat) : Nat → Reader (List String)
  | 0, _ => none
  | count + 1, cs => do
    let (part, rest) ← readKeyPart size (skipGap cs)
    match skipGap rest with
    | '.' :: rest => do
      let (path, rest) ← readKeyParts size count rest
      pure (part :: path, rest)
    | rest => pure ([part], rest)

/-- How many parts a key may have, and how deep lists and inline tables may nest. -/
def depthLimit : Nat := 79

def readKey (size : Nat) : Reader (List String) := readKeyParts size depthLimit

/-- A key, an equals sign and a value. -/
def readPairOf (value : Reader Toml) (size : Nat) : Reader (List String × Toml) := fun cs => do
  let (path, rest) ← readKey size cs
  match rest with
  | '=' :: rest => do
    let (v, rest) ← value (skipGap rest)
    pure ((path, v), rest)
  | _ => none

def readElements (value : Reader Toml) (size : Nat) : Nat → Reader (List Toml)
  | 0, _ => none
  | count + 1, cs =>
    match skipLines size cs with
    | ']' :: rest => some ([], rest)
    | cs => do
      let (v, rest) ← value cs
      match skipLines size rest with
      | ',' :: rest => do
        let (vs, rest) ← readElements value size count rest
        pure (v :: vs, rest)
      | ']' :: rest => pure ([v], rest)
      | _ => none

/-- The pairs of an inline table, behind its opening brace; at least one. -/
def readPairs (value : Reader Toml) (size : Nat) : Nat → Reader (List (List String × Toml))
  | 0, _ => none
  | count + 1, cs => do
    let (pair, rest) ← readPairOf value size (skipGap cs)
    match skipGap rest with
    | ',' :: rest => do
      let (pairs, rest) ← readPairs value size count rest
      pure (pair :: pairs, rest)
    | '\x7d' :: rest => pure ([pair], rest)
    | _ => none

/-- The pairs of an inline table, if no key is given twice. -/
def inline? (pairs : List (List String × Toml)) : Option Toml := do
  let _ ← pairs.foldlM (fun entries (path, v) => addValue v path entries) []
  pure (.inline (pairs.map fun (path, v) => (".".intercalate path, v)))

def readFlat (size : Nat) : Reader Toml := fun cs =>
  match cs with
  | '\x22' :: _ | '\x27' :: _ => (readText size cs).map fun (s, rest) => (.string s, rest)
  | _ => readWord cs

/-- A value that nests at most `depth` lists and inline tables. -/
def readValue (size : Nat) : Nat → Reader Toml
  | 0, cs => readFlat size cs
  | depth + 1, cs =>
    match cs with
    | '[' :: rest =>
      (readElements (readValue size depth) size size rest).map fun (vs, rest) => (.array vs, rest)
    | '\x7b' :: rest =>
      match skipGap rest with
      | '\x7d' :: rest => some (.inline [], rest)
      | cs => do
        let (pairs, rest) ← readPairs (readValue size depth) size size cs
        let v ← inline? pairs
        pure (v, rest)
    | _ => readFlat size cs

/-- A document up to some line: its entries, and the header of the table opened last. -/
structure Draft where
  entries : Entries
  /-- The header of the table that keys belong to; empty before the first header. -/
  path : List String

def Draft.header (d : Draft) (path : List String) (element : Bool) : Option Draft := do
  let key ← path.getLast?
  let add := if element then openElement key else openTable key
  let entries ← descend add path.dropLast d.entries
  pure ⟨entries, path⟩

/-- The draft after a key with its value. -/
def Draft.pair (d : Draft) (path : List String) (v : Toml) : Option Draft := do
  let entries ← within (addValue v path) d.path d.entries
  pure { d with entries := entries }

/-- A line of a document, without its end. -/
def readDraftLine (size : Nat) (d : Draft) : Reader Draft := fun cs =>
  match skipGap cs with
  | [] => some (d, [])
  | '[' :: '[' :: rest => do
    let (path, rest) ← readKey size rest
    let (_, rest) ← Text.readExactly [']', ']'] rest
    let d ← d.header path true
    pure (d, rest)
  | '[' :: rest => do
    let (path, rest) ← readKey size rest
    let (_, rest) ← Text.readExactly [']'] rest
    let d ← d.header path false
    pure (d, rest)
  | '#' :: rest => some (d, '#' :: rest)
  | cs =>
    if (lineBreak? cs).isSome then some (d, cs)
    else do
      let ((path, v), rest) ← readPairOf (readValue size depthLimit) size cs
      let d ← d.pair path v
      pure (d, rest)

def readDraft (size : Nat) : Nat → Draft → List Char → Option Draft
  | 0, _, _ => none
  | count + 1, d, cs => do
    let (d, rest) ← readDraftLine size d cs
    match skipComment (skipGap rest) with
    | [] => pure d
    | rest => do readDraft size count d (← lineBreak? rest)

/-- Reads a document. A mark of the byte order may stand in front. -/
def parse? (s : String) : Option Entries :=
  let cs := match s.toList with
    | '\uFEFF' :: rest => rest
    | cs => cs
  (readDraft (cs.length + 1) (cs.length + 1) ⟨[], []⟩ cs).map Draft.entries

end PlanSql.Toml

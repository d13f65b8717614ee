import PlanSql.Json.Skip

/-!
# Reading the wanted part of a document

An outline says which members of a document are wanted. The others are passed over, so they do not
count against the limits that wanted ones are held to. A document that has another form than its
outline is read whole.
-/

namespace PlanSql.Json

open PlanSql.Text (Reader)

/-- Which part of a document is wanted. -/
inductive Outline where
  | whole
  | list (element : Outline)
  | record (fields : List (String × Outline))

/-- A member of an object, if `wanted` has a reader for its name. -/
def readWanted (wanted : String → Option (Reader Json)) (size : Nat) :
    Reader (Option (String × Json)) := fun cs => do
  let (name, rest) ← readString size (skipSpace cs)
  match skipSpace rest, wanted name with
  | ':' :: rest, some value => (value rest).map fun (j, rest) => (some (name, j), rest)
  | ':' :: rest, none => (skipValue size rest).map fun rest => (none, rest)
  | _, _ => none

/-- Values with commas between them, up to the end of a list: at least one, and each by the next of
the given readers. -/
def readEach {α : Type} : List (Reader α) → Reader (List α)
  | [], _ => none
  | element :: others, cs => do
    let (x, rest) ← element cs
    match skipSpace rest with
    | ',' :: rest => do
      let (xs, rest) ← readEach others rest
      pure (x :: xs, rest)
    | ']' :: rest => pure ([x], rest)
    | _ => none

/-- The wanted part of a document that nests at most `depth` lists and objects. -/
def readOutline (size : Nat) : Nat → Outline → Reader Json
  | 0, _ => readScalar size
  | depth + 1, outline => fun cs =>
    match outline, skipSpace cs with
    | .list element, '[' :: rest =>
      (readBody (readOutline size depth element) ']' size rest).map
        fun (items, rest) => (array items, rest)
    | .record fields, '\x7b' :: rest =>
      let wanted := fun name => (fields.lookup name).map (readOutline size depth)
      (readBody (readWanted wanted size) '\x7d' size rest).map
        fun (members, rest) => (object (members.filterMap id), rest)
    | .record fields, '[' :: rest =>
      match skipSpace rest with
      | ']' :: rest => some (array [], rest)
      | rest =>
        (readEach (fields.map fun (_, outline) => readOutline size depth outline) rest).map
          fun (items, rest) => (array items, rest)
    | _, _ => readValue size (depth + 1) cs

/-- Reads the wanted part of a document; nothing but spaces may follow it. -/
def parseOutline? (outline : Outline) (s : String) : Option Json := do
  let (j, rest) ← readOutline s.toList.length depthLimit outline s.toList
  if rest.all isSpace then pure j else none

theorem readOutline_whole (size depth : Nat) :
    readOutline size depth .whole = readValue size depth := by
  cases depth <;> rfl

end PlanSql.Json

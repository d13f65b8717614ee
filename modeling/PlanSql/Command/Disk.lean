import PlanSql.Error

/-!
# Disks in memory

A disk holds directories and text files. A path is followed part by part from where one stands, and
what is read at its end is the text of a file. So a command can be run on files that are written
nowhere.
-/

namespace PlanSql

/-- What stands at a place of a disk. -/
inductive Entry where
  | directory
  | file (text : String)
  deriving DecidableEq

/-- A place of a disk: the names that lead to it from the root. -/
abbrev Place := List String

/-- A disk, by the entries that are not only there to hold others. -/
structure Disk where
  entries : List (Place × Entry)

namespace Disk

/-- What stands at a place. A place that leads to an entry is a directory, and so is the root. -/
def entry? (d : Disk) (place : Place) : Option Entry :=
  match d.entries.lookup place with
  | some entry => some entry
  | none =>
    if place.isEmpty || d.entries.any (fun (p, _) => place.isPrefixOf p) then some .directory
    else none

/-- The longest name of an entry, in bytes. -/
def nameLimit : Nat := 255

def pathLimit : Nat := 4095

def step (d : Disk) (here : Place) (part : String) : Except FileFault Place :=
  if d.entry? here ≠ some .directory then .error .notDirectory
  else if part = "" ∨ part = "." then .ok here
  else if part = ".." then .ok here.dropLast
  else if nameLimit < part.utf8ByteSize then .error .longName
  else if (d.entry? (here ++ [part])).isSome then .ok (here ++ [part])
  else .error .missing

/-- The place to which a path leads; one that begins with a slash leads from the root. -/
def follow (d : Disk) (here : Place) (path : String) : Except FileFault Place :=
  if pathLimit < path.utf8ByteSize then .error .longName
  else (path.splitOn "/").foldlM d.step (if path.startsWith "/" then [] else here)

def read (d : Disk) (here : Place) (path : String) : Except FileFault String := do
  match d.entry? (← d.follow here path) with
  | some (.file text) => .ok text
  | some .directory => .error .directory
  | none => .error .missing

def put (d : Disk) (here : Place) (path text : String) : Disk :=
  let names := (path.splitOn "/").filter fun part => part ≠ "" ∧ part ≠ "."
  ⟨(here ++ names, .file text) :: d.entries⟩

end Disk

end PlanSql

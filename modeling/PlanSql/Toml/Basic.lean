/-!
# Settings documents

A settings document is a table of keyed values. Tables come about in four ways: by a header, by a
dotted key, on the way to a deeper header, or as elements of a list of tables. Which way it was
decides what may be added later, and no key is given twice.
-/

namespace PlanSql

/-- A value, which nothing can be added to. -/
inductive Toml where
  | string (s : String)
  | integer (n : Int)
  | float
  | boolean (b : Bool)
  | datetime
  | array (items : List Toml)
  | inline (entries : List (String × Toml))

namespace Toml

/-- How a table came about. -/
inductive Origin where
  | header
  | passed
  | dotted
  deriving DecidableEq

/-- What a key stands for. -/
inductive Item where
  | value (v : Toml)
  | table (origin : Origin) (entries : List (String × Item))
  | tables (elements : List (List (String × Item)))

abbrev Entries := List (String × Item)

def put (key : String) (item : Item) : Entries → Entries
  | [] => [(key, item)]
  | (k, old) :: rest => if k = key then (k, item) :: rest else (k, old) :: put key item rest

/-- Adds a value under a dotted key. A dotted key may go on only in tables made by dotted keys or
passed by headers, and the table it ends in has to be made by a dotted key. -/
def addValue (v : Toml) : List String → Entries → Option Entries
  | [], _ => none
  | [key], entries =>
    if (entries.lookup key).isSome then none else some (put key (.value v) entries)
  | key :: next :: path, entries =>
    match entries.lookup key with
    | none => do
      let inner ← addValue v (next :: path) []
      some (put key (.table .dotted inner) entries)
    | some (.table origin inner) =>
      if origin = .header ∨ (origin = .passed ∧ path = []) then none
      else do
        let inner ← addValue v (next :: path) inner
        some (put key (.table origin inner) entries)
    | some (.tables elements) =>
      match elements.getLast? with
      | some last =>
        if path = [] then none
        else do
          let inner ← addValue v (next :: path) last
          some (put key (.tables (elements.dropLast ++ [inner])) entries)
      | none => none
    | some (.value _) => none

def descend (f : Entries → Option Entries) : List String → Entries → Option Entries
  | [], entries => f entries
  | key :: path, entries =>
    match entries.lookup key with
    | none => do
      let inner ← descend f path []
      some (put key (.table .passed inner) entries)
    | some (.table origin inner) => do
      let inner ← descend f path inner
      some (put key (.table origin inner) entries)
    | some (.tables elements) =>
      match elements.getLast? with
      | some last => do
        let inner ← descend f path last
        some (put key (.tables (elements.dropLast ++ [inner])) entries)
      | none => none
    | some (.value _) => none

/-- Opens the table of a header, which no header and no dotted key may have made before. -/
def openTable (key : String) (entries : Entries) : Option Entries :=
  match entries.lookup key with
  | none => some (put key (.table .header []) entries)
  | some (.table .passed inner) => some (put key (.table .header inner) entries)
  | some _ => none

/-- Adds an empty table to a list of tables. -/
def openElement (key : String) (entries : Entries) : Option Entries :=
  match entries.lookup key with
  | none => some (put key (.tables [[]]) entries)
  | some (.tables elements) => some (put key (.tables (elements ++ [[]])) entries)
  | some _ => none

/-- Changes the entries of the table that was opened last, whose header is the given path. -/
def within (f : Entries → Option Entries) : List String → Entries → Option Entries
  | [], entries => f entries
  | path, entries => descend f path entries

end Toml

end PlanSql

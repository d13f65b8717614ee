import PlanSql.Error
import PlanSql.Options
import PlanSql.Toml.Reader

/-!
# Options from settings

A settings document may set each option; other keys are ignored. The beginning of function names
must not be empty.
-/

namespace PlanSql.Options

/-- The setting of an option with its default; `read` accepts the values that the option can
have. -/
def setting {α : Type} (entries : Toml.Entries) (key : String) (read : Toml → Option α)
    (fallback : α) : Option α :=
  match entries.lookup key with
  | none => some fallback
  | some (.value v) => read v
  | some _ => none

def count? : Toml → Option Nat
  | .integer n => if 0 ≤ n then some n.toNat else none
  | _ => none

def flag? : Toml → Option Bool
  | .boolean b => some b
  | _ => none

def text? : Toml → Option String
  | .string s => some s
  | _ => none

/-- The options that a settings document sets. -/
def ofEntries? (entries : Toml.Entries) : Option Options := do
  let indentSize ← setting entries "indent_size" count? default.indentSize
  let beautify ← setting entries "beautify" flag? default.beautify
  let sortLimit ← setting entries "default_sort_limit" count? default.sortLimit
  let functionStem ← setting entries "udf_prefix" text? default.functionStem
  pure ⟨indentSize, beautify, sortLimit, functionStem⟩

def ofSettings (text : String) : Except ConfigFault Options :=
  match (Toml.parse? text).bind ofEntries? with
  | none => .error .notToml
  | some o => if o.functionStem.isEmpty then .error .emptyFunctionPrefix else .ok o

def ofFile (path text : String) : Except Error Options :=
  match ofSettings text with
  | .ok o => .ok o
  | .error fault => .error (.config (.inFile path fault))

def fileName : String := "dfql.toml"

/-- The path of something in a directory. -/
def within (dir name : String) : String :=
  if dir.endsWith "/" then dir ++ name else dir ++ "/" ++ name

/-- The directory of a user's settings: the one that is set for them, if its path starts at the
root, or else the usual one in the user's home. -/
def settingsDir (configHome home : Option String) : Option String :=
  (configHome.filter (·.startsWith "/")).or
    ((home.filter (!·.isEmpty)).map (within · ".config"))

/-- Where settings are looked for when no file is named: the working directory, then the user's
directory of settings. -/
def candidates (settingsDir : Option String) : List String :=
  fileName :: (settingsDir.map fun dir => within (within dir "dfql") fileName).toList

def firstOf {m : Type → Type} [Monad m] (read : String → m (Except FileFault String)) :
    List String → m (Except Error Options)
  | [] => pure (.ok default)
  | path :: rest => do
    match ← read path with
    | .ok text => pure (ofFile path text)
    | .error fault => if fault.isAbsence then firstOf read rest else pure (.error (.file fault))

def discover {m : Type → Type} [Monad m] (read : String → m (Except FileFault String))
    (settingsDir named : Option String) : m (Except Error Options) := do
  match named with
  | none => firstOf read (candidates settingsDir)
  | some path =>
    match ← read path with
    | .ok text => pure (ofFile path text)
    | .error fault => pure (.error (.file fault))

end PlanSql.Options

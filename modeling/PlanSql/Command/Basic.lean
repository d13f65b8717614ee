import PlanSql.Command.Arguments

/-!
# Commands

The commands of the program and how they are written on the command line.
-/

namespace PlanSql

/-- Options that a command line sets on top of the settings. -/
structure Overrides where
  beautify : Bool
  indentSize : Option Nat
  sortLimit : Option Nat
  deriving DecidableEq

/-- What the program is asked to do. -/
inductive Command where
  | compile (plan : String) (settings : Option String) (overrides : Overrides)
  | explain (plan : String) (settings : Option String)
  | types
  deriving DecidableEq

namespace Command

def verboseParameter : Parameter := ⟨"verbose", some 'v', .flag⟩

def helpParameter : Parameter := ⟨"help", some 'h', .stop .help⟩

def versionParameter : Parameter := ⟨"version", some 'V', .stop .version⟩

def configParameter : Parameter := ⟨"config", some 'c', .value .path⟩

def outerParameters : List Parameter := [verboseParameter, helpParameter, versionParameter]

def typesParameters : List Parameter := [verboseParameter, helpParameter]

def explainParameters : List Parameter := configParameter :: typesParameters

def compileParameters : List Parameter :=
  [⟨"beautify", none, .flag⟩, ⟨"indent", none, .value .count⟩, ⟨"limit", none, .value .count⟩] ++
    explainParameters

/-- The count that a parameter is given, if it is given. -/
def countOf (a : Arguments) (name : String) : Option Nat := (a.value? name).bind count?

/-- The settings file that is named, on the command line or else by the environment. -/
def settingsOf (a : Arguments) (environment : Option String) : Except Stop (Option String) :=
  match (a.value? "config").or environment with
  | some "" => .error .usage
  | path => .ok path

/-- The only place, which is the file of a plan. -/
def planOf (a : Arguments) : Except Stop String :=
  match a.places with
  | [plan] => .ok plan
  | _ => .error .usage

def names : List String := ["compile", "explain", "types", "help"]

/-- What `help` is asked about: nothing, or one command. -/
def helpOf : List String → Stop
  | [] => .help
  | [name] => if name ∈ names then .help else .usage
  | _ => .usage

def ofName (environment : Option String) (name : String) (args : List String) :
    Except Stop Command := do
  match name with
  | "compile" => do
    let a ← Arguments.readAll compileParameters 1 args
    let plan ← planOf a
    let settings ← settingsOf a environment
    pure (.compile plan settings ⟨a.isOn "beautify", countOf a "indent", countOf a "limit"⟩)
  | "explain" => do
    let a ← Arguments.readAll explainParameters 1 args
    pure (.explain (← planOf a) (← settingsOf a environment))
  | "types" => do
    let _ ← Arguments.readAll typesParameters 0 args
    pure .types
  | "help" => throw (helpOf args)
  | _ => throw .usage

def ofArguments (environment : Option String) (outer : Arguments) :
    List String → Except Stop Command
  | [] => .error .usage
  | s :: rest => do
    let outer ← outer.read outerParameters 1 s
    match outer.places with
    | [] => if outer.onlyPlaces then throw .usage else ofArguments environment outer rest
    | name :: _ => ofName environment name rest

/-- The command of a command line. `environment` is the settings file that the environment
names. -/
def parse (environment : Option String) (args : List String) : Except Stop Command :=
  ofArguments environment .empty args

end Command

end PlanSql

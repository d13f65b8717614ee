import PlanSql.Command.Basic
import PlanSql.Compile.Run
import PlanSql.Document.Plans
import PlanSql.Listing
import PlanSql.Options.Reader

/-!
# Running commands

What a command prints and how it ends. Files are read through a function, so a run is the same for
files on a disk and for texts in memory.
-/

namespace PlanSql.Command

/-- How a run ended and what it printed. -/
structure Outcome where
  code : Nat
  out : String
  err : String
  deriving DecidableEq

def unlines (lines : List String) : String := String.join (lines.map (· ++ "\n"))

/-- A run that did what it was asked to. -/
def success (out err : List String) : Outcome := ⟨0, unlines out, unlines err⟩

/-- A run that failed after printing the given lines. -/
def failure (out : List String) (message : String) : Outcome :=
  ⟨1, unlines out, unlines ["Error: " ++ message]⟩

/-- A run that ended with an error after printing the given lines. A sum that overflows ends it at
once, without the words of the command. -/
def stopped (out : List String) (words : String) (e : Error) : Outcome :=
  match e with
  | .overflow => ⟨101, unlines out, unlines [e.message]⟩
  | _ => failure out (words ++ e.message)

def withCause (e : Error) : String :=
  match e with
  | .file fault => e.message ++ ": " ++ fault.message
  | _ => e.message

/-- The options with those of the command line on top. -/
def Overrides.apply (o : Overrides) (options : Options) : Options :=
  { options with
    beautify := options.beautify || o.beautify
    indentSize := o.indentSize.getD options.indentSize
    sortLimit := o.sortLimit.getD options.sortLimit }

/-- The user functions that have to be deployed for a statement. -/
def functionLines (c : Compiler) : List String :=
  match c.functions.sorted with
  | [] => []
  | functions =>
    ["", "Functions to deploy:"] ++ functions.map fun (f, name) => "  " ++ name ++ " <- " ++ f

def compileOutcome (path : String) (plan : Plan) (options : Options) : Outcome :=
  match (Compiler.new options).compileText plan.graph plan.root with
  | (.ok sql, c) => success [sql] (functionLines c)
  | (.error e, _) => stopped [] ("Failed to compile '" ++ path ++ "': ") e

/-- Shows the nodes of a plan and its statement. -/
def explainOutcome (plan : Plan) (options : Options) : Outcome :=
  let heading := ["Plan:"] ++ Listing.planLines plan ++ ["", "Generated SQL:"]
  match (Compiler.new options).compileText plan.graph plan.root with
  | (.ok sql, c) => success (heading ++ (Text.lines sql).map ("  " ++ ·)) (functionLines c)
  | (.error e, _) => stopped heading "" e

def planOfFile (path : String) (text : Except FileFault String) : Except String Plan :=
  match text with
  | .error fault => .error ("Failed to read plan '" ++ path ++ "': " ++ fault.message)
  | .ok text =>
    match Plan.ofText text with
    | .ok plan => .ok plan
    | .error e => .error ("Invalid plan '" ++ path ++ "': " ++ e.message)

def withPlan {m : Type → Type} [Monad m] (read : String → m (Except FileFault String))
    (settingsDir settings : Option String) (path : String) (next : Options → Plan → Outcome) :
    m Outcome := do
  match ← Options.discover read settingsDir settings with
  | .error e => pure (failure [] ("Failed to load compiler options: " ++ withCause e))
  | .ok options =>
    match planOfFile path (← read path) with
    | .error message => pure (failure [] message)
    | .ok plan => pure (next options plan)

def run {m : Type → Type} [Monad m] (read : String → m (Except FileFault String))
    (settingsDir : Option String) (command : Command) : m Outcome :=
  match command with
  | .compile path settings overrides =>
    withPlan read settingsDir settings path fun options plan =>
      compileOutcome path plan (Overrides.apply overrides options)
  | .explain path settings =>
    withPlan read settingsDir settings path fun options plan => explainOutcome plan options
  | .types => pure (success Listing.typeLines [])

def usageLines : List String :=
  ["Usage: dfql [--verbose] compile PLAN [--beautify] [--indent N] [--limit N] [--config FILE]",
    "       dfql [--verbose] explain PLAN [--config FILE]",
    "       dfql [--verbose] types",
    "       dfql --version"]

/-- What is printed when nothing is run. -/
def stopOutcome : Stop → Outcome
  | .usage => ⟨2, "", unlines usageLines⟩
  | .help => success usageLines []
  | .version => success ["dfql 0.3.0"] []

def runArguments {m : Type → Type} [Monad m] (read : String → m (Except FileFault String))
    (settingsDir environment : Option String) (args : List String) : m Outcome :=
  match parse environment args with
  | .ok command => run read settingsDir command
  | .error why => pure (stopOutcome why)

end PlanSql.Command

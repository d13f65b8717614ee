import PlanSql.Compile.Context
import PlanSql.Graph.Walk
import PlanSql.Sql.Statement

/-!
# The state of a compilation

The state holds the level that is being built, what has been compiled ahead of it, and the levels
that are finished. `Compile` is an action on it that may fail; the state survives a failure.
-/

namespace PlanSql.Compile

open PlanSql.Sql

/-- What a compilation reads but does not change. -/
structure Env where
  graph : Graph
  functionStem : String
  /-- The limit of a level that has an order but no limit. -/
  sortLimit : Nat

/-- The collections whose columns a level can name, with their aliases; the latest entry for a
collection counts. -/
abbrev Visible := List (NodeId × Alias)

/-- A join that has been compiled ahead. -/
structure JoinAhead where
  source : Source
  on : Option Expr
  visible : Visible

/-- The state of a compilation. -/
structure State where
  context : Context Expr
  clauses : Clauses Expr Source
  visited : List NodeId
  visible : Visible
  joins : List (NodeId × JoinAhead)
  unions : List (NodeId × Source × Alias)
  subqueries : List (NodeId × LevelId)
  levels : Array Query

/-- The state a statement is compiled from: only user functions have names. -/
def State.start (functions : FunctionNames) : State :=
  ⟨.ofFunctions functions, .empty, [], [], [], [], [], #[]⟩

end Compile

/-- An action of a compilation. A failed one leaves a state, too. -/
abbrev Compile (α : Type) := EStateM Error Compile.State α

namespace Compile

open PlanSql.Sql

/-- The outcome of a check that does not look at the state. -/
def check {α : Type} (r : Except Error α) : Compile α := fun s =>
  match r with
  | .ok a => .ok a s
  | .error e => .error e s

/-- The text by which fragments are compared. A level stands in it by its number. -/
def canonicalText (e : Expr) : String :=
  e.text ⟨0, false⟩ fun id => "level " ++ Nat.repr id

def fragment (id : NodeId) : Compile Expr := do
  check ((← get).context.fragment id)

/-- Stores the fragment of a value. -/
def emit (id : NodeId) (e : Expr) : Compile Unit := do
  let s ← get
  let context ← check (s.context.addFragment canonicalText id e)
  set { s with context := context }

/-- Fills a clause of the open level. -/
def fill (f : Clauses Expr Source → Except Error (Clauses Expr Source)) : Compile Unit := do
  let s ← get
  let clauses ← check (f s.clauses)
  set { s with clauses := clauses }

def aliasOf (id : NodeId) : Compile Alias := modifyGet fun s =>
  let (label, aliases) := s.context.aliases.register id
  (label, { s with context := { s.context with aliases := aliases } })

def derivedAlias (id : NodeId) : Compile Alias := modifyGet fun s =>
  let (label, aliases) := s.context.aliases.registerDerived id
  (label, { s with context := { s.context with aliases := aliases } })

def functionName (env : Env) (function : String) : Compile String := modifyGet fun s =>
  let (name, functions) := s.context.functions.register function env.functionStem
  (name, { s with context := { s.context with functions := functions } })

/-- Makes collections visible, later ones before earlier ones. -/
def reveal (visible : Visible) : Compile Unit :=
  modify fun s => { s with visible := visible.reverse ++ s.visible }

def markVisited (id : NodeId) : Compile Unit :=
  modify fun s => { s with visited := id :: s.visited }

/-- Ends the open level as a query. Its clauses are empty afterwards. -/
def finishLevel (env : Env) : Compile LevelId := do
  let s ← get
  let (level, clauses) := s.clauses.take env.sortLimit
  set { s with clauses := clauses }
  let level ← check level
  modify fun s => { s with levels := s.levels.push level }
  pure s.levels.size

end Compile

end PlanSql

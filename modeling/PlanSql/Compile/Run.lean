import PlanSql.Compile.Relations
import PlanSql.Compile.Values
import PlanSql.Options

/-!
# Compiling a root

`Steps.upTo` ties the operators together: with a given depth, an operator may ask for its operands
with a depth of one less. `compile` starts with a depth that a graph without cycles cannot use up.
-/

namespace PlanSql.Compile

open PlanSql.Sql

/-- Provides what the expression of a value needs besides its operands: the level of a subquery, the
name of a user function, the sort keys of a window. -/
def provide (env : Env) (steps : Steps) (id : NodeId) (kind : Kind) : Compile Unit := do
  match kind with
  | .userMap _ function => do
    let f ← check (env.graph.function function)
    let _ ← functionName env f.name
  | .window op => do
    let p := (← get).parts env
    let _ ← check (windowFunc env.graph p op)
    let _ ← check (p.fragments op.spec.partitionBy)
    let _ ← steps.sortKeys op.spec.orderBy
  | _ =>
    match kind.subquery? with
    | some sequence => do
      let _ ← subqueryAhead steps id sequence
    | none => pure ()

/-- Compiles the operands of a value and stores its expression. The operand of a column is left to
the operators that read it. -/
def compileExpr (env : Env) (steps : Steps) (id : NodeId) (kind : Kind) : Compile Unit := do
  match kind with
  | .column _ => pure ()
  | _ => steps.operands env kind.operands
  provide env steps id kind
  let p := (← get).parts env
  emit id (← check (valueExpr env.graph p id kind))

/-- A relational operator fills its clause; any other node gets a fragment. -/
def compileKind (env : Env) (steps : Steps) (id : NodeId) (kind : Kind) : Compile Unit :=
  match kind with
  | .source table => compileSource id table
  | .project input fields => compileSelect env steps input .select fields false
  | .filter input predicate => compileFilter env steps input predicate
  | .groupBy input keys aggregates having => compileGroupBy env steps input keys aggregates having
  | .mutate input keys mutates => compileSelect env steps input .select (keys ++ mutates) false
  | .sort input keys => compileSort env steps input keys
  | .distinct input fields => compileSelect env steps input .groupBy fields true
  | .slice input start stop step => compileSlice env steps input start stop step
  | .summary input fields => compileSelect env steps input .groupBy fields false
  | .join left right predicate how _ => compileJoin steps id left right predicate how
  | .union left right distinct => compileUnion steps id left right distinct
  | _ => compileExpr env steps id kind

/-- Compiles a node into the level, unless the level has it already. -/
def visitNode (env : Env) (steps : Steps) (id : NodeId) : Compile Unit := do
  let s ← get
  if id ∈ s.visited then return
  if env.graph.isCollection id || !s.context.hasFragment id then
    let node ← check (env.graph.node id)
    compileKind env steps id node.kind
  markVisited id

/-- Compiles a root as a level of its own. The level around it is put aside meanwhile. -/
def compileLevel (env : Env) (steps : Steps) (root : NodeId) : Compile LevelId := do
  let outer ← get
  set { outer with
    clauses := .empty
    visited := []
    visible := []
    context := { outer.context with fragments := [] } }
  discover env steps root
  if env.graph.isCollection root then steps.visit root else compileValue env steps root
  let level ← finishLevel env
  modify fun s => { s with
    clauses := outer.clauses
    visited := outer.visited
    visible := outer.visible
    context := { s.context with fragments := outer.context.fragments } }
  pure level

/-- The steps that may go `depth` steps deep. -/
def Steps.upTo (env : Env) : Nat → Steps
  | 0 =>
    { visit := fun _ => throw (.inconsistent .cyclic)
      level := fun _ => throw (.inconsistent .cyclic)
      join := fun _ _ _ _ _ => throw (.inconsistent .cyclic) }
  | depth + 1 =>
    let steps := upTo env depth
    { visit := visitNode env steps
      level := compileLevel env steps
      join := joinAhead env steps }

/-- The steps for a whole graph. From a node to one of its operands it takes at most three. -/
def Steps.forGraph (env : Env) : Steps := upTo env (3 * env.graph.size + 4)

/-- Compiles a root as the outermost level. -/
def statement (env : Env) (root : NodeId) : Compile Statement := do
  let level ← (Steps.forGraph env).level root
  pure ⟨(← get).levels, level⟩

end Compile

/-- A compiler: its options, and the context that its statements share. -/
structure Compiler where
  options : Options
  /-- Aliases, fragments, and names of user functions. Only the names are of use to a later
  statement. -/
  context : Compile.Context Sql.Expr

namespace Compiler

/-- A compiler that has named no function. -/
def new (options : Options) : Compiler := ⟨options, .ofFunctions .empty⟩

def functions (c : Compiler) : Compile.FunctionNames := c.context.functions

def env (c : Compiler) (g : Graph) : Compile.Env :=
  ⟨g, c.options.functionStem, c.options.sortLimit⟩

/-- Compiles a root to a statement. It starts from the names of user functions alone, and what was
added to them stays, also after a failure. -/
def compile (c : Compiler) (g : Graph) (root : NodeId) :
    Except Error Sql.Statement × Compiler :=
  match Compile.statement (c.env g) root (.start c.functions) with
  | .ok s state => (.ok s, { c with context := state.context.reset })
  | .error e state => (.error e, { c with context := state.context.reset })

/-- The text of a root's statement, as the options lay it out. -/
def compileText (c : Compiler) (g : Graph) (root : NodeId) : Except Error String × Compiler :=
  let (result, c') := c.compile g root
  (result.map (Sql.Statement.text c.options.layout), c')

end Compiler

/-- The text of a plan's statement, compiled on its own. -/
def Plan.toSql (p : Plan) (options : Options) : Except Error String :=
  ((Compiler.new options).compileText p.graph p.root).1

end PlanSql

import PlanSql.Compile.Ahead

/-!
# Compiling relational operators

Each operator compiles its input first, then fills its clause, which may wrap the level, and then
compiles its own values.
-/

namespace PlanSql.Compile

open PlanSql.Sql

def compileSource (id : NodeId) (table : Table) : Compile Unit := do
  let (source, _) ← tableSource id table
  fill (·.setSource source)

/-- Selects values over the input: projections, mutations, summaries, distinct rows. -/
def compileSelect (env : Env) (steps : Steps) (input : NodeId) (clause : Clause)
    (fields : List NodeId) (distinct : Bool) : Compile Unit := do
  steps.visit input
  prepare env input clause true
  let items ← steps.selectItems env fields
  fill (·.setSelect items distinct)

def compileFilter (env : Env) (steps : Steps) (input predicate : NodeId) : Compile Unit := do
  steps.visit input
  prepare env input .filter true
  steps.visit predicate
  let condition ← fragment predicate
  fill (·.setFilter condition)

/-- Groups by the keys and selects them before the aggregates. -/
def compileGroupBy (env : Env) (steps : Steps) (input : NodeId) (keys aggregates : List NodeId)
    (having : Option NodeId) : Compile Unit := do
  steps.visit input
  prepare env input .groupBy true
  let keyExprs ← steps.values keys
  let items ← steps.selectItems env (keys ++ aggregates)
  fill (·.setSelect items false)
  fill (·.setGroupBy keyExprs)
  match having with
  | some predicate => do
    steps.visit predicate
    let condition ← fragment predicate
    fill fun c => c.setHaving canonicalText condition
  | none => pure ()

def compileSort (env : Env) (steps : Steps) (input : NodeId) (keys : List SortKey) :
    Compile Unit := do
  steps.visit input
  prepare env input .orderBy true
  let keyExprs ← steps.sortKeys keys
  fill (·.setOrderBy keyExprs)

/-- The number of rows that a slice keeps, if it starts at the first row and skips none. -/
def sliceLimit (start stop step : Option Int64) : Except Error Nat :=
  if start.any (· ≠ 0) then throw (.unsupported .sliceStart)
  else if step.any (· ≠ 1) then throw (.unsupported .sliceStep)
  else
    match stop with
    | some n =>
      if 0 ≤ n then pure n.toInt.toNat else throw (.inconsistent (.negativeStop n.toInt))
    | none => throw (.inconsistent .noStop)

/-- The bounds are checked before the input is compiled. -/
def compileSlice (env : Env) (steps : Steps) (input : NodeId) (start stop step : Option Int64) :
    Compile Unit := do
  let limit ← check (sliceLimit start stop step)
  steps.visit input
  prepare env input .limit false
  fill (·.setLimit limit)

/-- What was compiled ahead becomes the clauses of the level. -/
def compileJoin (steps : Steps) (id left right : NodeId) (predicate : Option NodeId)
    (how : JoinKind) : Compile Unit := do
  let ahead ← steps.join id left right predicate how
  reveal ahead.visible
  fill (·.setSource ahead.source)
  match ahead.on with
  | some condition => fill (·.setOn condition)
  | none => pure ()

def compileUnion (steps : Steps) (id left right : NodeId) (distinct : Bool) : Compile Unit := do
  let (source, label) ← unionAhead steps id left right distinct
  reveal [(id, label)]
  fill (·.setSource source)

/-- A value as the only column, over the collection that it reads. -/
def compileValue (env : Env) (steps : Steps) (value : NodeId) : Compile Unit := do
  let collection ← check (env.graph.owningCollection value)
  compileSelect env steps collection .select [value] false

end PlanSql.Compile

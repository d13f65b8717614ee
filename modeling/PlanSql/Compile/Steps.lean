import PlanSql.Compile.Scope

/-!
# Steps into operands

Compiling a node compiles its operands first. `Steps` is what an operator may ask for on its
operands; everything an operator does itself is written in terms of it, without recursion.
-/

namespace PlanSql.Compile

open PlanSql.Sql

/-- Actions on other nodes. -/
structure Steps where
  visit : NodeId → Compile Unit
  level : NodeId → Compile LevelId
  /-- Compiles a join ahead: its id, its sides, its condition and its kind. -/
  join : NodeId → NodeId → NodeId → Option NodeId → JoinKind → Compile JoinAhead

namespace Steps

/-- Compiles values one by one. -/
def values (steps : Steps) : List NodeId → Compile (List Expr)
  | [] => pure []
  | id :: rest => do
    steps.visit id
    let e ← fragment id
    pure (e :: (← steps.values rest))

def sortKeys (steps : Steps) : List SortKey → Compile (List Expr)
  | [] => pure []
  | key :: rest => do
    steps.visit key.expr
    let e ← fragment key.expr
    pure ((if key.ascending then e else .descending e) :: (← steps.sortKeys rest))

/-- Compiles the operands that are values. Collections are left to the operators that read them,
and subqueries to the tests that look in them. -/
def operands (steps : Steps) (env : Env) : List Operand → Compile Unit
  | [] => pure ()
  | (slot, id) :: rest => do
    if slot ≠ .subquery ∧ !env.graph.isCollection id then steps.visit id
    steps.operands env rest

/-- The name a selected value needs: none for a column that keeps its type and is shown under its
own name. -/
def itemName (env : Env) (node : Node) (typed : Typed) : Compile (Option String) :=
  match node.kind, typed.sourceName with
  | .column collection, some source =>
    if typed.dtype = typed.sourceDtype then do
      let (_, shown) ← resolve env collection source
      pure (typed.name.filter (· ≠ shown))
    else pure typed.name
  | _, _ => pure typed.name

/-- A selected value with the name it needs. -/
def selectItem (steps : Steps) (env : Env) (id : NodeId) : Compile (Item Expr) := do
  steps.visit id
  let node ← check (env.graph.node id)
  match node.typed? with
  | none => throw (.inconsistent (.collectionField id))
  | some typed => do
    let name ← itemName env node typed
    pure ⟨← fragment id, name⟩

def selectItems (steps : Steps) (env : Env) : List NodeId → Compile (List (Item Expr))
  | [] => pure []
  | id :: rest => do
    let item ← steps.selectItem env id
    pure (item :: (← steps.selectItems env rest))

end Steps

end PlanSql.Compile

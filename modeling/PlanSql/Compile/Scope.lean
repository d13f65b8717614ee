import PlanSql.Compile.State

/-!
# Scopes

Which columns a level can name, and by which alias and field name. A collection that is not visible
itself is reached through the inputs of filters, slices and sorts and through the sides of joins.
All searches go at most `depth` nodes deep.
-/

namespace PlanSql.Compile

open PlanSql.Sql

/-- Whether the columns of a collection can be named. -/
def addressable (g : Graph) (visible : Visible) : Nat → NodeId → Except Error Bool
  | 0, _ => throw (.inconsistent .cyclic)
  | depth + 1, id => do
    if (visible.lookup id).isSome then return true
    match (← g.node id).kind with
    | .join left right _ _ _ =>
      if ← addressable g visible depth left then addressable g visible depth right
      else pure false
    | kind =>
      match kind.passThrough? with
      | some input => addressable g visible depth input
      | none => pure false

/-- Where a field of `id` is read: at the visible collection it comes from, by its name there. -/
def columnRef (g : Graph) (visible : Visible) :
    Nat → NodeId → String → Except Error (Alias × String)
  | 0, _, _ => throw (.inconsistent .cyclic)
  | depth + 1, id, field => do
    match visible.lookup id with
    | some label => pure (label, field)
    | none =>
      match (← g.node id).kind with
      | .join left right _ _ fields =>
        match fields.find? (·.name == field) with
        | none => throw (.schema (.joinField id field))
        | some f =>
          columnRef g visible depth (match f.side with | .left => left | .right => right) f.source
      | kind =>
        match kind.passThrough? with
        | some input => columnRef g visible depth input field
        | none => throw (.schema (.outOfScope id))

/-- The first collection below `id` that is no filter, slice or sort. -/
def lift (g : Graph) : Nat → NodeId → Except Error NodeId
  | 0, _ => throw (.inconsistent .cyclic)
  | depth + 1, id => do
    match (← g.node id).kind.passThrough? with
    | some input => lift g depth input
    | none => pure id

namespace Env

/-- A depth that no path through an acyclic graph exceeds. -/
def depth (env : Env) : Nat := env.graph.size + 1

end Env

/-- The name of a field of a collection at this level. -/
def resolve (env : Env) (id : NodeId) (field : String) : Compile (Alias × String) := do
  check (columnRef env.graph (← get).visible env.depth id field)

/-- Wraps the level as a derived table that stands for `input`. From here on only that table is
visible and no fragment is known. -/
def promote (env : Env) (input : NodeId) : Compile Unit := do
  let level ← finishLevel env
  let label ← derivedAlias input
  let lifted ← check (lift env.graph env.depth input)
  modify fun s => { s with
    visible := [(lifted, label)]
    visited := s.visited.filter env.graph.isCollection
    context := { s.context with fragments := [] } }
  fill (·.setSource (.derived level label))

/-- Wraps the level if `clause` cannot be filled, or if columns of `input` are read and cannot
be named. -/
def prepare (env : Env) (input : NodeId) (clause : Clause) (readsInput : Bool) :
    Compile Unit := do
  let s ← get
  if s.clauses.conflicts clause then promote env input
  else if readsInput then
    if !(← check (addressable env.graph s.visible env.depth input)) then promote env input

end PlanSql.Compile

import PlanSql.Compile.Steps

/-!
# Compiling ahead

Joins, unions and the subqueries of membership tests are compiled before the level that needs them.
Each is compiled once and kept.
-/

namespace PlanSql.Compile

open PlanSql.Sql

/-- A stored table as a table expression; it becomes visible. -/
def tableSource (id : NodeId) (table : Table) : Compile (Source × Alias) := do
  let label ← aliasOf id
  reveal [(id, label)]
  pure (.table table label, label)

/-- A union over the levels of its sides, compiled once. -/
def unionAhead (steps : Steps) (id left right : NodeId) (distinct : Bool) :
    Compile (Source × Alias) := do
  match (← get).unions.lookup id with
  | some ahead => pure ahead
  | none => do
    if distinct then throw (.unsupported .distinctUnion)
    let leftLevel ← steps.level left
    let rightLevel ← steps.level right
    let label ← derivedAlias id
    let ahead := (Source.union leftLevel rightLevel label, label)
    modify fun s => { s with unions := (id, ahead) :: s.unions }
    pure ahead

/-- The level of a subquery, compiled once. -/
def subqueryAhead (steps : Steps) (id sequence : NodeId) : Compile LevelId := do
  match (← get).subqueries.lookup id with
  | some level => pure level
  | none => do
    let level ← steps.level sequence
    modify fun s => { s with subqueries := (id, level) :: s.subqueries }
    pure level

/-- A side of a join as a table expression, with what it makes visible. What is no table, join or
union becomes a derived table, whose alias comes after those inside it. -/
def joinSide (env : Env) (steps : Steps) (side : NodeId) : Compile (Source × Visible) := do
  match (← check (env.graph.node side)).kind with
  | .source table => do
    let (source, label) ← tableSource side table
    pure (source, [(side, label)])
  | .join left right predicate how _ => do
    let ahead ← steps.join side left right predicate how
    let source := match ahead.source with
      | .join l how r _ => .join l how r ahead.on
      | other => other
    pure (source, ahead.visible)
  | .union left right distinct => do
    let (source, label) ← unionAhead steps side left right distinct
    pure (source, [(side, label)])
  | _ => do
    let level ← steps.level side
    let label ← derivedAlias side
    pure (.derived level label, [(side, label)])

/-- A join, compiled once. Its condition sees both sides. -/
def joinAhead (env : Env) (steps : Steps) (id left right : NodeId) (predicate : Option NodeId)
    (how : JoinKind) : Compile JoinAhead := do
  match (← get).joins.lookup id with
  | some ahead => pure ahead
  | none => do
    let (leftSource, leftVisible) ← joinSide env steps left
    let (rightSource, rightVisible) ← joinSide env steps right
    let visible := leftVisible ++ rightVisible
    reveal visible
    let on ← match predicate with
      | some p => do
        steps.visit p
        let condition ← fragment p
        pure (some condition)
      | none => pure none
    let ahead : JoinAhead := ⟨.join leftSource how rightSource none, on, visible⟩
    modify fun s => { s with joins := (id, ahead) :: s.joins }
    pure ahead

/-- Whether a node has been compiled ahead. -/
def isAhead (s : State) (id : NodeId) : Bool :=
  (s.joins.lookup id).isSome || (s.unions.lookup id).isSome || (s.subqueries.lookup id).isSome

/-- Compiles ahead what a node met on a walk asks for, and cuts off what that has dealt with. -/
def discoverNode (env : Env) (steps : Steps) (id : NodeId) (walk : Walk) : Compile Walk := do
  if isAhead (← get) id then return walk.prune id
  let kind := (← check (env.graph.node id)).kind
  match kind with
  | .join left right predicate how _ => do
    let _ ← steps.join id left right predicate how
    pure (walk.prune id)
  | .union left right distinct => do
    let _ ← unionAhead steps id left right distinct
    pure (walk.prune id)
  | _ =>
    match kind.subquery? with
    | some sequence => do
      let _ ← subqueryAhead steps id sequence
      pure (walk.hide id sequence)
    | none => pure walk

/-- Compiles ahead what the nodes of a walk ask for, for at most `count` nodes. -/
def discoverFrom (env : Env) (steps : Steps) : Nat → Walk → Compile Unit
  | 0, _ => pure ()
  | count + 1, walk =>
    match walk.next with
    | none => pure ()
    | some (id, walk) => do
      let walk ← discoverNode env steps id walk
      discoverFrom env steps count walk

/-- Compiles ahead all joins, unions and subqueries that a level needs. Each node is met once, and
at most one id outside the graph can be met. -/
def discover (env : Env) (steps : Steps) (root : NodeId) : Compile Unit :=
  discoverFrom env steps (env.graph.size + 1) (.start env.graph root .topDown true)

end PlanSql.Compile

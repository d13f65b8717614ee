import PlanSql.Graph.Build.Basic

/-!
# Building collections

Stored tables, columns and the relational operators.
-/

namespace PlanSql.Build

/-- A stored table. -/
def source (space name : String) (schema : Schema) : Build NodeId :=
  push (.source ⟨space, name, schema⟩) (.collection schema)

def column (collection : NodeId) (name : String) : Build NodeId := do
  let field ← ask fun g => do (← g.schemaOf collection).field name
  push (.column collection) (.sequence (.plain field.dtype (some name)))

def columns (collection : NodeId) : Build (List NodeId) := do
  let schema ← ask (·.schemaOf collection)
  schema.names.mapM (column collection)

/-- The given values of each row. -/
def project (input : NodeId) (fields : List NodeId) : Build NodeId := do
  let _ ← ask (·.schemaOf input)
  if fields.isEmpty then throw (.schema .emptyProjection)
  let schema ← ask (·.fieldSchema fields)
  push (.project input fields) (.collection schema)

/-- The rows for which a truth value holds. -/
def filter (input predicate : NodeId) : Build NodeId := do
  let schema ← ask (·.schemaOf input)
  ask (·.expectBoolean predicate)
  push (.filter input predicate) (.collection schema)

/-- One row per combination of key values, with aggregates; groups can be filtered. -/
def groupBy (input : NodeId) (keys aggregates : List NodeId) (having : Option NodeId) :
    Build NodeId := do
  match having with
  | some predicate => ask (·.expectBoolean predicate)
  | none => pure ()
  let _ ← ask (·.schemaOf input)
  if keys.isEmpty then throw (.schema .noGroupKey)
  let schema ← ask (·.fieldSchema (keys ++ aggregates))
  push (.groupBy input keys aggregates having) (.collection schema)

/-- Window values next to key values, one row per input row. -/
def mutate (input : NodeId) (keys mutates : List NodeId) : Build NodeId := do
  let _ ← ask (·.schemaOf input)
  let schema ← ask (·.fieldSchema (keys ++ mutates))
  push (.mutate input keys mutates) (.collection schema)

def sort (input : NodeId) (keys : List SortKey) : Build NodeId := do
  let schema ← ask (·.schemaOf input)
  if keys.isEmpty then throw (.schema .noSortKey)
  ask (·.expectValues (keys.map SortKey.expr))
  push (.sort input keys) (.collection schema)

/-- The different combinations of the given values, or of all fields if none is given. Given
values are not compared with the input. -/
def distinct (input : NodeId) (fields : List NodeId) : Build NodeId := do
  let fields ← if fields.isEmpty then columns input else pure fields
  let schema ← ask (·.fieldSchema fields)
  push (.distinct input fields) (.collection schema)

def slice (input : NodeId) (start stop step : Option Int64) : Build NodeId := do
  let schema ← ask (·.schemaOf input)
  push (.slice input start stop step) (.collection schema)

/-- The first `n` rows. -/
def limit (input : NodeId) (n : Int64) : Build NodeId := slice input none (some n) none

/-- Aggregates over a whole collection. -/
def summary (input : NodeId) (fields : List NodeId) : Build NodeId := do
  let _ ← ask (·.schemaOf input)
  if fields.isEmpty then throw (.schema .emptySummary)
  let schema ← ask (·.fieldSchema fields)
  push (.summary input fields) (.collection schema)

def joinFields (side : JoinSide) (suffix : String) (own other : Schema) : List JoinField :=
  own.fields.map fun f =>
    let name := if (other.find? f.name).isSome then f.name ++ suffix else f.name
    ⟨name, f.dtype, side, f.name⟩

/-- The combinations of rows of two collections. -/
def join (left right : NodeId) (predicate : Option NodeId) (how : JoinKind) : Build NodeId := do
  if left = right then throw (.schema .selfJoin)
  let leftSchema ← ask (·.schemaOf left)
  let rightSchema ← ask (·.schemaOf right)
  match predicate with
  | some p => ask (·.expectBoolean p)
  | none => pure ()
  let fields := joinFields .left "_x" leftSchema rightSchema ++
    joinFields .right "_y" rightSchema leftSchema
  let schema ← check (Schema.ofFields (fields.map fun f => ⟨f.name, f.dtype⟩))
  push (.join left right predicate how fields) (.collection schema)

/-- The rows of two collections of the same schema. -/
def union (left right : NodeId) (distinct : Bool) : Build NodeId := do
  let schema ← ask (·.schemaOf left)
  let other ← ask (·.schemaOf right)
  if other ≠ schema then throw (.schema .unionSchemas)
  push (.union left right distinct) (.collection schema)

end PlanSql.Build

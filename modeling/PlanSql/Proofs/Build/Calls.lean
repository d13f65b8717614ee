import PlanSql.Graph.Build.Aggregates
import PlanSql.Graph.Build.Collections
import PlanSql.Graph.Build.Elements

/-!
# Graphs made by builders

`Call` is a call of a builder with its arguments, whatever they are. A call that fails still leaves
the graph it had got to. `Built` graphs are those that calls make of the empty graph.
-/

namespace PlanSql

/-- A call of a builder. The schema of a stored table is given by its fields and checked first. -/
inductive Call where
  | source (space name : String) (fields : List Field)
  | column (collection : NodeId) (name : String)
  | columns (collection : NodeId)
  | project (input : NodeId) (fields : List NodeId)
  | filter (input predicate : NodeId)
  | groupBy (input : NodeId) (keys aggregates : List NodeId) (having : Option NodeId)
  | mutate (input : NodeId) (keys mutates : List NodeId)
  | sort (input : NodeId) (keys : List SortKey)
  | distinct (input : NodeId) (fields : List NodeId)
  | slice (input : NodeId) (start stop step : Option Int64)
  | summary (input : NodeId) (fields : List NodeId)
  | join (left right : NodeId) (predicate : Option NodeId) (how : JoinKind)
  | union (left right : NodeId) (distinct : Bool)
  | literal (value : Value)
  | null (dtype : DataType)
  | binary (op : BinaryOp) (lhs rhs : NodeId)
  | unary (op : UnaryOp) (input : NodeId)
  | math (func : MathFunc) (input : NodeId)
  | datetimePart (input : NodeId) (part : DatetimePart)
  | asType (input : NodeId) (dtype : DataType)
  | rename (input : NodeId) (name : String)
  | map (input : NodeId) (function : String) (output : DataType)
  | text (input : NodeId) (op : TextOp)
  | isNull (input : NodeId)
  | notNull (input : NodeId)
  | fillNull (input value : NodeId)
  | inValues (input : NodeId) (values : List Value) (negated : Bool)
  | inSequence (input sequence : NodeId) (negated : Bool)
  | between (input : NodeId) (left right : Option NodeId) (inclusive : Bool)
  | ifElse (condition consequent alternative : NodeId)
  | switch (subject : Option NodeId) (conditions results : List NodeId) (fallback : Option NodeId)
  | cut (input : NodeId) (bins : List Value) (labels : Option (List Value))
    (options : Build.CutOptions)
  | reduce (func : Reduction) (input : NodeId) (ddof : Int64)
  | cumulative (func : Cumulative) (input : NodeId) (spec : WindowSpec) (distinct : Bool)
  | rank (func : Rank) (spec : WindowSpec)
  | shift (func : Shift) (input : NodeId) (offset : Int64) (default : Option Value)
    (spec : WindowSpec)

namespace Call

/-- A stored table with the given fields, if they make a schema. -/
def sourceOf (space name : String) (fields : List Field) : Build NodeId := do
  let schema ← Build.check (Schema.ofFields fields)
  Build.source space name schema

/-- What a call does; the id that it returns is dropped. -/
def action : Call → Build Unit
  | source space name fields => discard (sourceOf space name fields)
  | column collection name => discard (Build.column collection name)
  | columns collection => discard (Build.columns collection)
  | project input fields => discard (Build.project input fields)
  | filter input predicate => discard (Build.filter input predicate)
  | groupBy input keys aggregates having => discard (Build.groupBy input keys aggregates having)
  | mutate input keys mutates => discard (Build.mutate input keys mutates)
  | sort input keys => discard (Build.sort input keys)
  | distinct input fields => discard (Build.distinct input fields)
  | slice input start stop step => discard (Build.slice input start stop step)
  | summary input fields => discard (Build.summary input fields)
  | join left right predicate how => discard (Build.join left right predicate how)
  | union left right unique => discard (Build.union left right unique)
  | literal value => discard (Build.literal value)
  | null dtype => discard (Build.null dtype)
  | binary op lhs rhs => discard (Build.binary op lhs rhs)
  | unary op input => discard (Build.unary op input)
  | math func input => discard (Build.math func input)
  | datetimePart input part => discard (Build.datetimePart input part)
  | asType input dtype => discard (Build.asType input dtype)
  | rename input name => discard (Build.rename input name)
  | map input function output => discard (Build.map input function output)
  | text input op => discard (Build.text input op)
  | isNull input => discard (Build.isNull input)
  | notNull input => discard (Build.notNull input)
  | fillNull input value => discard (Build.fillNull input value)
  | inValues input values negated => discard (Build.inValues input values negated)
  | inSequence input sequence negated => discard (Build.inSequence input sequence negated)
  | between input left right inclusive => discard (Build.between input left right inclusive)
  | ifElse condition consequent alternative =>
    discard (Build.ifElse condition consequent alternative)
  | switch subject conditions results fallback =>
    discard (Build.switch subject conditions results fallback)
  | cut input bins labels options => discard (Build.cut input bins labels options)
  | reduce func input ddof => discard (Build.reduceWith func input ddof)
  | cumulative func input spec unique => discard (Build.cumulative func input spec unique)
  | rank func spec => discard (Build.rank func spec)
  | shift func input offset default spec => discard (Build.shift func input offset default spec)

/-- The graph after a call, whether it has succeeded or failed. -/
def after (c : Call) (g : Graph) : Graph :=
  match c.action g with
  | .ok _ g' => g'
  | .error _ g' => g'

/-- A call that shows the different rows of something names an existing collection. No other
builder takes an input it has not looked up. -/
def NamesCollection (g : Graph) : Call → Prop
  | distinct input _ => g.isCollection input = true
  | _ => True

end Call

/-- The graphs that calls make of the empty graph, each of them allowed when it is made. -/
inductive BuiltBy (allowed : Graph → Call → Prop) : Graph → Prop
  | empty : BuiltBy allowed .empty
  | call {g : Graph} (c : Call) : BuiltBy allowed g → allowed g c → BuiltBy allowed (c.after g)

/-- The graphs that any calls make of the empty graph. -/
abbrev Built : Graph → Prop := BuiltBy fun _ _ => True

/-- The graph that calls make, one after the other. -/
def Call.run (calls : List Call) : Graph := calls.foldl (fun g c => c.after g) .empty

/-- Every call is allowed when it is made, from `g` on. -/
def Call.AllowedFrom (allowed : Graph → Call → Prop) : Graph → List Call → Prop
  | _, [] => True
  | g, c :: rest => allowed g c ∧ AllowedFrom allowed (c.after g) rest

theorem BuiltBy.run {allowed : Graph → Call → Prop} {calls : List Call}
    (h : Call.AllowedFrom allowed .empty calls) : BuiltBy allowed (Call.run calls) := by
  have hfold : ∀ calls g, BuiltBy allowed g → Call.AllowedFrom allowed g calls →
      BuiltBy allowed (calls.foldl (fun g c => c.after g) g) := by
    intro calls
    induction calls with
    | nil => exact fun g hg _ => hg
    | cons c rest ih => exact fun g hg hall => ih (c.after g) (.call c hg hall.1) hall.2
  exact hfold calls .empty .empty h

theorem BuiltBy.built {allowed : Graph → Call → Prop} {g : Graph} (h : BuiltBy allowed g) :
    Built g := by
  induction h with
  | empty => exact .empty
  | call c _ _ ih => exact .call c ih trivial

end PlanSql

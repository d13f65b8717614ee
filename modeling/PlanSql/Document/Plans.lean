import PlanSql.Document.Nodes
import PlanSql.Graph.Basic
import PlanSql.Json.Outline
import PlanSql.Json.Writer

/-!
# Plans as text

A plan is written as a document with one element a line. Reading takes any text of such a document
and then checks the plan, so what has been read is valid. Members that a plan, a graph or a user
function does not have are passed over.
-/

namespace PlanSql

def Graph.toJson (g : Graph) : Json :=
  .object [("nodes", Json.ofList Node.toJson g.nodes.toList),
    ("udfs", Json.ofList UserFunction.toJson g.functions.toList)]

def Graph.functionsOfJson? : Option Json → Option (List UserFunction)
  | none => some []
  | some j => j.list? UserFunction.ofJson?

def Graph.ofFields? (nodes functions : Option Json) : Option Graph := do
  let nodes ← Json.required (Json.list? Node.ofJson?) nodes
  let functions ← functionsOfJson? functions
  pure ⟨nodes.toArray, functions.toArray⟩

/-- Reads a graph. A list may leave out the user functions too. -/
def Graph.ofJson? : Json → Option Graph
  | .array [nodes] => ofFields? (some nodes) none
  | j => do
    let [nodes, functions] ← j.fields? ["nodes", "udfs"] | none
    ofFields? nodes functions

namespace Plan

def toJson (p : Plan) : Json := .object [("dag", p.graph.toJson), ("root", Json.ofNat p.root)]

/-- Reads a plan without checking it. -/
def ofJson? (j : Json) : Option Plan := do
  let [graph, root] ← j.fields? ["dag", "root"] | none
  pure ⟨← Json.required Graph.ofJson? graph, ← NodeId.field? root⟩

def toText (p : Plan) : String := p.toJson.pretty

/-- The part of a document that makes a plan. -/
def outline : Json.Outline :=
  let function := .record [("name", .whole), ("output", .whole)]
  .record [("dag", .record [("nodes", .list .whole), ("udfs", .list function)]), ("root", .whole)]

/-- Reads the text of a plan without checking it. -/
def decode (s : String) : Except Error Plan :=
  match (Json.parseOutline? outline s).bind ofJson? with
  | some p => .ok p
  | none => .error (.schema .invalidPlan)

def ofText (s : String) : Except Error Plan := do
  let p ← decode s
  p.validate
  pure p

end Plan

end PlanSql

import PlanSql.Graph.Basic

/-!
# Listings

A plan as an indented tree of its nodes, and the table of types, line by line.
-/

namespace PlanSql

namespace Shape

def describe : Shape → String
  | collection schema =>
    "collection [" ++
      ", ".intercalate (schema.fields.map fun f => f.name ++ ": " ++ f.dtype.name) ++ "]"
  | sequence typed => "sequence " ++ describeTyped typed
  | scalar typed => "scalar " ++ describeTyped typed
where
  describeTyped (t : Typed) : String :=
    match t.name with
    | some name => name ++ ": " ++ t.dtype.name
    | none => t.dtype.name

end Shape

/-- An operator in a listing; a stored table is shown with its name. -/
def Kind.describe (k : Kind) : String :=
  match k with
  | .source table => k.name ++ " " ++ table.space ++ "." ++ table.name
  | _ => k.name

namespace Listing

/-- The space in front of a line at the given depth. -/
def pad (depth : Nat) : String := String.ofList (List.replicate (2 * depth) ' ')

/-- The lines of a node and of its operands, at most `fuel` nodes deep, and the nodes listed so far.
A node that was listed before is only named, and so is the collection of a column. -/
def nodeLines (g : Graph) : Nat → Nat → NodeId → List NodeId → List String × List NodeId
  | 0, _, _, seen => ([], seen)
  | fuel + 1, depth, id, seen =>
    match g.node? id with
    | none => ([], seen)
    | some n =>
      if id ∈ seen then ([pad depth ++ id.text ++ " (shared)"], seen)
      else
        let line := pad depth ++ id.text ++ " " ++ n.kind.describe ++ " " ++ n.shape.describe
        n.kind.operands.foldl
          (fun (lines, seen) (slot, child) =>
            if slot = .collection then (lines ++ [pad depth ++ "  of " ++ child.text], seen)
            else
              let (more, seen) := nodeLines g fuel (depth + 1) child seen
              (lines ++ more, seen))
          ([line], id :: seen)

def planLines (p : Plan) : List String := (nodeLines p.graph (p.graph.size + 1) 1 p.root []).1

/-- A text filled up with spaces to ten characters. -/
def cell (s : String) : String := s ++ String.ofList (List.replicate (10 - s.length) ' ')

/-- The line of a type: its two names, and the types it accepts without a cast. -/
def typeLine (t : DataType) : String :=
  let accepted := DataType.all.filter fun s => s ≠ t && t.accepts s
  cell t.name ++ " " ++ cell t.sqlName ++ " " ++ ", ".intercalate (accepted.map DataType.name)

def typeLines : List String :=
  ["Type lattice (lowest precedence first)", "",
    cell "Type" ++ " " ++ cell "SQL" ++ " Implicitly accepts",
    String.ofList (List.replicate 60 '─')] ++ DataType.all.map typeLine

end Listing

end PlanSql

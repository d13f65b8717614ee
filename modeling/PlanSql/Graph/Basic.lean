import PlanSql.Graph.Node

/-!
# Graphs of nodes

A graph is a table of nodes, which refer to each other by their places, and a table of user
functions. A graph is valid when every node refers only to nodes before it and its schemas, names
and functions are in order.
-/

namespace PlanSql

/-- A table of nodes and a table of user functions. -/
structure Graph where
  /-- The nodes; an id is a place in this table. -/
  nodes : Array Node
  functions : Array UserFunction
  deriving DecidableEq

namespace Graph

def empty : Graph := ⟨#[], #[]⟩

/-- The number of nodes. -/
def size (g : Graph) : Nat := g.nodes.size

def node? (g : Graph) (id : NodeId) : Option Node := g.nodes[id]?

def node (g : Graph) (id : NodeId) : Except Error Node :=
  match g.node? id with
  | some n => .ok n
  | none => .error (.inconsistent (.noNode id))

def function (g : Graph) (id : FunctionId) : Except Error UserFunction :=
  match g.functions[id]? with
  | some f => .ok f
  | none => .error (.inconsistent (.noFunction id))

/-- The operand ids of a node, in order; an unknown node has none. -/
def children (g : Graph) (id : NodeId) : List NodeId :=
  match g.node? id with
  | some n => n.children
  | none => []

/-- Whether a node is a collection; an unknown one is not. -/
def isCollection (g : Graph) (id : NodeId) : Bool := (g.node? id).any Node.isCollection

/-- Whether a node has a value per row. -/
def isSequence (g : Graph) (id : NodeId) : Bool :=
  match (g.node? id).map Node.shape with
  | some (.sequence _) => true
  | _ => false

/-- Type and names of a value, or an error. -/
def typedOf (g : Graph) (id : NodeId) : Except Error Typed := do
  match (← g.node id).typed? with
  | some t => pure t
  | none => throw (.inconsistent (.notValue id))

def dtypeOf (g : Graph) (id : NodeId) : Except Error DataType := do
  pure (← g.typedOf id).dtype

def schemaOf (g : Graph) (id : NodeId) : Except Error Schema := do
  match (← g.node id).schema? with
  | some s => pure s
  | none => throw (.inconsistent (.notCollection id))

def firstM (f : NodeId → Except Error (Option NodeId)) : List NodeId → Except Error (Option NodeId)
  | [] => pure none
  | id :: rest => do
    match ← f id with
    | some found => pure (some found)
    | none => firstM f rest

/-- The first collection met on a depth-first search that goes at most `depth` nodes deep. -/
def firstCollection (g : Graph) : Nat → NodeId → Except Error (Option NodeId)
  | 0, _ => throw (.inconsistent .cyclic)
  | depth + 1, id => do
    let n ← g.node id
    if n.isCollection then pure (some id) else firstM (g.firstCollection depth) n.children

/-- The first collection that a value reads from. -/
def owningCollection (g : Graph) (id : NodeId) : Except Error NodeId := do
  match ← g.firstCollection (g.size + 1) id with
  | some found => pure found
  | none => throw (.inconsistent (.readsNothing id))

/-- Fails at the first operand of the node at `index` that does not stand before it. -/
def checkOperands (index : NodeId) : List Operand → Except Error Unit
  | [] => pure ()
  | (slot, child) :: rest =>
    if index ≤ child then throw (.inconsistent (.lateChild index child slot.name))
    else checkOperands index rest

/-- Checks the schemas a collection stores, or the function a value applies. -/
def checkContents (g : Graph) (n : Node) : Except Error Unit :=
  match n.kind, n.shape with
  | .source table, .collection schema => do
    table.schema.validate
    schema.validate
  | _, .collection schema => schema.validate
  | .userMap _ function, _ => do
    let _ ← g.function function
  | _, _ => pure ()

def checkColumn (index : NodeId) (n : Node) : Except Error Unit :=
  match n.kind with
  | .column _ =>
    match n.typed? with
    | none => throw (.inconsistent (.columnShape index))
    | some typed =>
      if typed.sourceName.isNone then throw (.schema (.unnamedColumn index)) else pure ()
  | _ => pure ()

def checkNode (g : Graph) (index : NodeId) (n : Node) : Except Error Unit := do
  checkOperands index n.kind.operands
  g.checkContents n
  checkColumn index n

def checkNodes (g : Graph) (index : NodeId) : List Node → Except Error Unit
  | [] => pure ()
  | n :: rest => do
    g.checkNode index n
    g.checkNodes (index + 1) rest

/-- Checks every node, in order. -/
def validate (g : Graph) : Except Error Unit := g.checkNodes 0 g.nodes.toList

/-- Looking a node up succeeds exactly if it is there. -/
theorem node_eq_ok_iff {g : Graph} {id : NodeId} {n : Node} :
    g.node id = .ok n ↔ g.node? id = some n := by
  unfold node
  split <;> simp_all

theorem node?_push_of_lt (g : Graph) (n : Node) (id : NodeId) (h : id < g.size) :
    ({ g with nodes := g.nodes.push n } : Graph).node? id = g.node? id := by
  simp only [node?, size] at h ⊢
  rw [Array.getElem?_push, if_neg (Nat.ne_of_lt h)]

/-- A node that is appended gets the next id. -/
theorem node?_push_size (g : Graph) (n : Node) :
    ({ g with nodes := g.nodes.push n } : Graph).node? g.size = some n := by
  simp [node?, size]

end Graph

/-- A graph with the node to compile. -/
structure Plan where
  graph : Graph
  root : NodeId
  deriving DecidableEq

/-- Checks the graph of a plan and that its root exists. -/
def Plan.validate (p : Plan) : Except Error Unit := do
  p.graph.validate
  let _ ← p.graph.node p.root

end PlanSql

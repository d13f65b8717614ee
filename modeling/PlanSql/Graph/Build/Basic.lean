import PlanSql.DataType.Resolve
import PlanSql.Graph.Basic

/-!
# Building graphs

A builder appends nodes to a graph. It decides the shape and type of a node from its operands and
refuses operands of the wrong type. A builder that fails keeps the nodes it had appended before.
-/

namespace PlanSql

/-- An action on a graph that may fail; the graph survives a failure. -/
abbrev Build (α : Type) := EStateM Error Graph α

namespace Build

/-- Looks something up in the graph. -/
def ask {α : Type} (f : Graph → Except Error α) : Build α := fun g =>
  match f g with
  | .ok a => .ok a g
  | .error e => .error e g

/-- The outcome of a check that needs no graph. -/
def check {α : Type} (r : Except Error α) : Build α := ask fun _ => r

def push (kind : Kind) (shape : Shape) : Build NodeId := fun g =>
  .ok g.size { g with nodes := g.nodes.push ⟨kind, shape⟩ }

/-- The id of a user function, which is appended if no equal one is there. -/
def registerFunction (f : UserFunction) : Build FunctionId := fun g =>
  match g.functions.findIdx? (· == f) with
  | some id => .ok id g
  | none => .ok g.functions.size { g with functions := g.functions.push f }

end Build

namespace Graph

/-- The shape of a value computed from the operands: a sequence if one of them is. -/
def valueShape (g : Graph) (operands : List NodeId) (typed : Typed) : Shape :=
  if operands.any g.isSequence then .sequence typed else .scalar typed

def firstName (g : Graph) (operands : List NodeId) : Option String :=
  operands.findSome? fun id => (g.node? id).bind Node.name?

/-- Fails unless the node is a truth value. -/
def expectBoolean (g : Graph) (id : NodeId) : Except Error Unit := do
  let dtype ← g.dtypeOf id
  if dtype = .boolean then pure () else throw (.illegalCast dtype .boolean)

/-- The field of a collection that a value gives rise to. -/
def fieldOf (g : Graph) (id : NodeId) : Except Error Field := do
  let typed ← g.typedOf id
  match typed.name with
  | some name => pure ⟨name, typed.dtype⟩
  | none => throw (.schema (.unnamedField id))

/-- The fields of a collection that values give rise to, in order. -/
def fieldsOf (g : Graph) : List NodeId → Except Error (List Field)
  | [] => pure []
  | id :: rest => do
    let field ← g.fieldOf id
    pure (field :: (← g.fieldsOf rest))

/-- The schema of a collection made of the given values. -/
def fieldSchema (g : Graph) (ids : List NodeId) : Except Error Schema := do
  Schema.ofFields (← g.fieldsOf ids)

/-- Fails at the first node that is not a value. -/
def expectValues (g : Graph) : List NodeId → Except Error Unit
  | [] => pure ()
  | id :: rest => do
    let _ ← g.typedOf id
    g.expectValues rest

/-- Fails at the first value that has no common type with `dtype`. -/
def expectComparable (g : Graph) (dtype : DataType) : List NodeId → Except Error Unit
  | [] => pure ()
  | id :: rest => do
    let _ ← DataType.common [dtype, ← g.dtypeOf id]
    g.expectComparable dtype rest

def dtypesOf (g : Graph) : List NodeId → Except Error (List DataType)
  | [] => pure []
  | id :: rest => do
    let dtype ← g.dtypeOf id
    pure (dtype :: (← g.dtypesOf rest))

end Graph

namespace Build

def pushValue (kind : Kind) (operands : List NodeId) (typed : Typed) : Build NodeId := do
  let shape ← ask fun g => pure (g.valueShape operands typed)
  push kind shape

/-- Appends a value that is named after the first of its operands with a name. -/
def pushNamed (kind : Kind) (operands : List NodeId) (dtype : DataType) : Build NodeId := do
  let name ← ask fun g => pure (g.firstName operands)
  pushValue kind operands (.plain dtype name)

end Build

end PlanSql

import PlanSql.Graph.Basic

/-!
# Walks

A depth-first walk over a graph, one node at a time. Between two steps nodes can be pruned (their
operands are not entered) and single edges hidden. A node met from above has its operands looked
up only at the step after the one that yielded it, so what is pruned or hidden in between counts.
-/

namespace PlanSql

/-- The order in which a walk yields a node and its operands. -/
inductive WalkOrder where
  | topDown
  | bottomUp
  deriving DecidableEq

/-- A walk on its way. -/
structure Walk where
  graph : Graph
  order : WalkOrder
  unique : Bool
  /-- Nodes still to come, the next one first; a marked one has had its operands listed. -/
  stack : List (NodeId × Bool)
  /-- Nodes met, when each is yielded only once. -/
  seen : List NodeId
  pruned : List NodeId
  hidden : List (NodeId × NodeId)
  /-- The node yielded last, when its operands have not been listed. -/
  pending : Option NodeId

namespace Walk

/-- The walk from `root` before its first step. -/
def start (g : Graph) (root : NodeId) (order : WalkOrder) (unique : Bool) : Walk :=
  ⟨g, order, unique, [(root, false)], [], [], [], none⟩

/-- Leaves out the operands of `id` from now on. -/
def prune (w : Walk) (id : NodeId) : Walk := { w with pruned := id :: w.pruned }

/-- Leaves out the edge from `parent` to `child` from now on. -/
def hide (w : Walk) (parent child : NodeId) : Walk :=
  { w with hidden := (parent, child) :: w.hidden }

/-- The operands of a node that are not left out. -/
def visibleChildren (w : Walk) (id : NodeId) : List NodeId :=
  if id ∈ w.pruned then []
  else (w.graph.children id).filter fun child => (id, child) ∉ w.hidden

/-- Whether a node is passed over because it was met before. -/
def skips (w : Walk) (id : NodeId) : Bool := w.unique && id ∈ w.seen

def meet (w : Walk) (id : NodeId) : Walk :=
  if w.unique then { w with seen := id :: w.seen } else w

/-- The stack after the operands of the node yielded last have been listed. -/
def listed (w : Walk) : List (NodeId × Bool) :=
  match w.pending with
  | some last => (w.visibleChildren last).map (·, false) ++ w.stack
  | none => w.stack

/-- One step of a walk that yields nodes before their operands. -/
def nextTopDown (w : Walk) : Option (NodeId × Walk) :=
  match w.listed.dropWhile (fun (id, _) => w.skips id) with
  | [] => none
  | (id, _) :: rest => some (id, { w.meet id with stack := rest, pending := some id })

/-- The walk after listing the operands of `id`, which come before `id` itself. -/
def expand (w : Walk) (id : NodeId) (rest : List (NodeId × Bool)) : Walk :=
  let met := w.meet id
  let children := (met.visibleChildren id).filter fun child => !met.skips child
  { met with stack := children.map (·, false) ++ (id, true) :: rest }

/-- One step of a walk that yields nodes after their operands; it goes down at most `depth`
nodes. -/
def nextBottomUp (w : Walk) (depth : Nat) : Option (NodeId × Walk) :=
  match w.stack.dropWhile (fun (id, expanded) => !expanded && w.skips id), depth with
  | [], _ => none
  | (id, true) :: rest, _ => some (id, { w with stack := rest })
  | (_, false) :: _, 0 => none
  | (id, false) :: rest, depth + 1 => (w.expand id rest).nextBottomUp depth
termination_by structural depth

def next (w : Walk) : Option (NodeId × Walk) :=
  match w.order with
  | .topDown => w.nextTopDown
  | .bottomUp => w.nextBottomUp (w.graph.size + 1)

end Walk

end PlanSql

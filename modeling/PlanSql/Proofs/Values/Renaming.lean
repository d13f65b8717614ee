import PlanSql.Compile.Values

/-!
# Nodes under other ids

Nodes refer to each other by their ids only. Here are the forms that nodes and errors have where the
ids that they name are replaced.
-/

namespace PlanSql

variable (ids : NodeId → NodeId)

def SortKey.rename (key : SortKey) : SortKey := { key with expr := ids key.expr }

def Membership.rename : Membership → Membership
  | literals xs => literals (xs.map ids)
  | subquery x => subquery (ids x)

def ElementOp.rename : ElementOp → ElementOp
  | isNull input => isNull (ids input)
  | notNull input => notNull (ids input)
  | fillNull input value => fillNull (ids input) (ids value)
  | isIn input values => isIn (ids input) (values.rename ids)
  | notIn input values => notIn (ids input) (values.rename ids)
  | between input left right inclusive =>
    between (ids input) (left.map ids) (right.map ids) inclusive
  | ifElse condition consequent alternative =>
    ifElse (ids condition) (ids consequent) (ids alternative)
  | switch subject conditions results fallback =>
    switch (subject.map ids) (conditions.map ids) (results.map ids) (fallback.map ids)
  | cut input c => cut (ids input) c

def WindowSpec.rename (spec : WindowSpec) : WindowSpec :=
  ⟨spec.partitionBy.map ids, spec.orderBy.map (SortKey.rename ids), spec.frame⟩

def WindowOp.rename : WindowOp → WindowOp
  | cumulative func input distinct spec => cumulative func (ids input) distinct (spec.rename ids)
  | rank func spec => rank func (spec.rename ids)
  | shift func input offset default spec => shift func (ids input) offset default (spec.rename ids)

/-- The operator with its operands and its user function under other ids. -/
def Kind.rename (functions : FunctionId → FunctionId) : Kind → Kind
  | source table => source table
  | project input fields => project (ids input) (fields.map ids)
  | filter input predicate => filter (ids input) (ids predicate)
  | groupBy input keys aggregates having =>
    groupBy (ids input) (keys.map ids) (aggregates.map ids) (having.map ids)
  | mutate input keys mutates => mutate (ids input) (keys.map ids) (mutates.map ids)
  | sort input keys => sort (ids input) (keys.map (SortKey.rename ids))
  | distinct input fields => distinct (ids input) (fields.map ids)
  | slice input start stop step => slice (ids input) start stop step
  | summary input fields => summary (ids input) (fields.map ids)
  | join left right predicate how fields =>
    join (ids left) (ids right) (predicate.map ids) how fields
  | union left right d => union (ids left) (ids right) d
  | element op => element (op.rename ids)
  | binary op lhs rhs => binary op (ids lhs) (ids rhs)
  | unary op input => unary op (ids input)
  | math func input => math func (ids input)
  | text input op => text (ids input) op
  | datetime input part => datetime (ids input) part
  | reduction func input ddof => reduction func (ids input) ddof
  | window op => window (op.rename ids)
  | cast input => cast (ids input)
  | column collection => column (ids collection)
  | literal value => literal value
  | userMap input function => userMap (ids input) (functions function)

def Node.rename (functions : FunctionId → FunctionId) (n : Node) : Node :=
  { n with kind := n.kind.rename ids functions }

def Inconsistency.rename : Inconsistency → Inconsistency
  | noNode id => noNode (ids id)
  | readsNothing id => readsNothing (ids id)
  | lateChild parent child slot => lateChild (ids parent) (ids child) slot
  | columnShape id => columnShape (ids id)
  | notValue id => notValue (ids id)
  | notCollection id => notCollection (ids id)
  | fragmentConflict id present other => fragmentConflict (ids id) present other
  | noFragment id => noFragment (ids id)
  | collectionOperand id => collectionOperand (ids id)
  | collectionField id => collectionField (ids id)
  | other => other

def SchemaFault.rename : SchemaFault → SchemaFault
  | unnamedColumn id => unnamedColumn (ids id)
  | unnamedField id => unnamedField (ids id)
  | joinField join name => joinField (ids join) name
  | outOfScope id => outOfScope (ids id)
  | other => other

/-- The error with the nodes that it names under other ids. -/
def Error.rename : Error → Error
  | inconsistent what => inconsistent (what.rename ids)
  | schema what => schema (what.rename ids)
  | other => other

/-- The error under other ids, unless it tells of a whole run and not of what a node holds. -/
def Error.renamed? : Error → Option Error
  | overflow | inconsistent .cyclic => none
  | e => some (e.rename ids)

variable {ids} {functions : FunctionId → FunctionId}

theorem Kind.operands_rename (kind : Kind) :
    (kind.rename ids functions).operands = kind.operands.map (Prod.map id ids) := by
  have hmany : ∀ slot (l : List NodeId),
      Operand.many slot (l.map ids) = (Operand.many slot l).map (Prod.map id ids) := by
    intro slot l
    simp [Operand.many]
  have hperhaps : ∀ slot (o : Option NodeId),
      Operand.perhaps slot (o.map ids) = (Operand.perhaps slot o).map (Prod.map id ids) := by
    intro slot o
    cases o with
    | none | some x => rfl
  have hkeys : ∀ slot (l : List SortKey),
      Operand.many slot ((l.map (SortKey.rename ids)).map SortKey.expr) =
        (Operand.many slot (l.map SortKey.expr)).map (Prod.map id ids) := by
    intro slot l
    simp [Operand.many, SortKey.rename]
  have hspec : ∀ spec : WindowSpec,
      (spec.rename ids).operands = spec.operands.map (Prod.map id ids) := by
    intro spec
    rw [WindowSpec.operands, WindowSpec.operands, List.map_append, ← hmany, ← hkeys]
    rfl
  cases kind with
  | element op =>
    cases op with
    | isIn input values | notIn input values =>
      cases values <;> simp [rename, operands, ElementOp.rename,
        ElementOp.operands, Membership.rename, Membership.operands, hmany]
    | _ => simp [rename, operands, ElementOp.rename, ElementOp.operands, hmany, hperhaps]
  | window op => cases op <;> simp [rename, operands, WindowOp.rename, WindowOp.operands, hspec]
  | sort input keys => simpa [rename, operands] using hkeys .sortKeys keys
  | _ => simp [rename, operands, hmany, hperhaps]

theorem Kind.passThrough?_rename (kind : Kind) :
    (kind.rename ids functions).passThrough? = kind.passThrough?.map ids := by
  cases kind <;> rfl

theorem Kind.subquery?_rename (kind : Kind) :
    (kind.rename ids functions).subquery? = kind.subquery?.map ids := by
  cases kind with
  | element op =>
    cases op with
    | isIn input values | notIn input values => cases values <;> rfl
    | _ => rfl
  | _ => rfl

theorem Node.children_rename (n : Node) :
    (n.rename ids functions).children = n.children.map ids := by
  rw [Node.children, Node.rename, Kind.operands_rename, Node.children, List.map_map, List.map_map]
  rfl

/-- Without new ids nothing changes. -/
theorem Kind.rename_self (kind : Kind) : kind.rename (fun x => x) (fun k => k) = kind := by
  have hkey : SortKey.rename (fun x => x) = id := rfl
  cases kind with
  | element op =>
    cases op with
    | isIn input values | notIn input values =>
      cases values <;> simp [rename, ElementOp.rename, Membership.rename]
    | _ => simp [rename, ElementOp.rename]
  | window op => cases op <;> simp [rename, WindowOp.rename, WindowSpec.rename, hkey]
  | _ => simp [rename, hkey]

theorem Node.rename_self (n : Node) : n.rename (fun x => x) (fun k => k) = n := by
  rw [Node.rename, Kind.rename_self]

theorem Error.rename_self (e : Error) : e.rename (fun x => x) = e := by
  cases e with
  | inconsistent what | schema what => cases what <;> rfl
  | _ => rfl

theorem Error.mapError_rename_self {α : Type} (x : Except Error α) :
    x.mapError (Error.rename fun x => x) = x := by
  cases x with
  | ok a => rfl
  | error e => exact congrArg Except.error e.rename_self

end PlanSql

import PlanSql.Proofs.Build.Operands
import PlanSql.Proofs.Rows.Level

/-!
# Pipelines

A pipeline is a chain of operators over one stored table in which every operator computes its values
from the rows of its own input. Its meaning is the obvious one: each operator turns the rows of its
input into its own rows, one operator after the other. A value means what its expression means in a
row, or in a group of rows, of the operator's input.
-/

namespace PlanSql.Rows

open PlanSql.Sql PlanSql.Compile

variable {g : Graph} {own : NodeId} {id : NodeId} {kind : Kind}

/-! ## Values over one collection -/

/-- Whether values of a kind are computed from other values of the same row. -/
def isScalar : Kind → Bool
  | .element _ | .binary .. | .unary .. | .math .. | .text .. | .datetime .. | .cast _ | .literal _
  | .userMap .. => true
  | _ => false

/-- A value that is computed from columns of `own` in one row. -/
inductive RowWise (g : Graph) (own : NodeId) : NodeId → Prop
  | column {id : NodeId} {shape : Shape} :
    g.node? id = some ⟨.column own, shape⟩ → RowWise g own id
  | scalar {id : NodeId} {n : Node} : g.node? id = some n → isScalar n.kind = true →
    n.kind.subquery? = none → (∀ o ∈ n.kind.operands, RowWise g own o.2) → RowWise g own id

/-- A value that is computed from columns of `own` in one row and from aggregates of such values. -/
inductive Grouped (g : Graph) (own : NodeId) : NodeId → Prop
  | column {id : NodeId} {shape : Shape} :
    g.node? id = some ⟨.column own, shape⟩ → Grouped g own id
  | scalar {id : NodeId} {n : Node} : g.node? id = some n → isScalar n.kind = true →
    n.kind.subquery? = none → (∀ o ∈ n.kind.operands, Grouped g own o.2) → Grouped g own id
  | aggregate {id : NodeId} {func : Reduction} {input : NodeId} {ddof : Int64} {shape : Shape} :
    g.node? id = some ⟨.reduction func input ddof, shape⟩ → RowWise g own input → Grouped g own id
  | count {id : NodeId} {func : Reduction} {ddof : Int64} {shape : Shape} :
    g.node? id = some ⟨.reduction func own ddof, shape⟩ → Grouped g own id

theorem RowWise.grouped (h : RowWise g own id) :
    Grouped g own id := by
  induction h with
  | column hn => exact .column hn
  | scalar hn hs hq _ ih => exact .scalar hn hs hq ih

/-- The values of an operator are computed from the rows of its input `own`: aggregates stand only
where groups of rows are shown. -/
def ReadsOwn (g : Graph) (own : NodeId) : Kind → Prop
  | .filter input predicate => input = own ∧ RowWise g own predicate
  | .project input fields | .distinct input fields => input = own ∧ ∀ f ∈ fields, RowWise g own f
  | .mutate input keys mutates => input = own ∧ ∀ f ∈ keys ++ mutates, RowWise g own f
  | .groupBy input keys aggregates having =>
    input = own ∧ (∀ k ∈ keys, RowWise g own k) ∧ (∀ f ∈ aggregates, Grouped g own f) ∧
      ∀ predicate ∈ having, Grouped g own predicate
  | .sort input keys => input = own ∧ ∀ k ∈ keys, RowWise g own k.expr
  | .slice input start stop step =>
    input = own ∧ start = none ∧ step = none ∧ ∃ n, stop = some n ∧ 0 ≤ n
  | .summary input fields => input = own ∧ ∀ f ∈ fields, Grouped g own f
  | _ => False

/-- A chain of operators over a stored table, the first one first. -/
inductive Pipeline (g : Graph) : NodeId → Table → List Kind → Prop
  | source {id : NodeId} {table : Table} {shape : Shape} :
    g.node? id = some ⟨.source table, shape⟩ → Pipeline g id table []
  | step {id input : NodeId} {kind : Kind} {shape : Shape} {table : Table} {ops : List Kind} :
    Pipeline g input table ops → g.node? id = some ⟨kind, shape⟩ → ReadsOwn g input kind →
    Pipeline g id table (ops ++ [kind])

theorem ReadsOwn.unique {own' : NodeId} (h : ReadsOwn g own kind) (h' : ReadsOwn g own' kind) :
    own = own' := by
  cases kind <;> first | exact h.elim | exact h.1.symm.trans h'.1

theorem ReadsOwn.passThrough {input : NodeId} (h : ReadsOwn g own kind)
    (hp : kind.passThrough? = some input) : input = own := by
  cases kind <;> first | exact (Option.some.inj hp).symm.trans h.1 | cases hp

/-- A collection is the end of at most one pipeline. -/
theorem Pipeline.unique {table table' : Table} {ops ops' : List Kind}
    (h : Pipeline g id table ops) (h' : Pipeline g id table' ops') : ops = ops' := by
  induction h generalizing ops' with
  | source hn =>
    cases h' with
    | source => rfl
    | step _ hm hr =>
      obtain ⟨rfl, _⟩ := Node.mk.inj (Option.some.inj (hn.symm.trans hm))
      exact hr.elim
  | step hp hn hr ih =>
    cases h' with
    | source hm =>
      obtain ⟨rfl, _⟩ := Node.mk.inj (Option.some.inj (hn.symm.trans hm))
      exact hr.elim
    | step hp' hm hr' =>
      obtain ⟨rfl, _⟩ := Node.mk.inj (Option.some.inj (hn.symm.trans hm))
      obtain rfl := hr.unique hr'
      rw [ih hp']

/-! ## What operators do -/

section Meaning

variable {V : Type} (S : Scalars V) (g : Graph) (names : String → String)
variable {limit : Nat} {ops : List Kind}

/-- The expression of a value over rows known as zero, for values at most `depth` operands deep;
`names` are the deployed names of user functions. -/
def exprTo : Nat → NodeId → Except Error Expr
  | 0, _ => throw (.inconsistent .cyclic)
  | depth + 1, id => do
    let n ← g.node id
    valueExpr g ⟨exprTo depth, fun _ field => .ok (0, field), names, fun _ => 0⟩ id n.kind

/-- The expression of a value over the rows of its operator's input. -/
def exprOf (id : NodeId) : Except Error Expr := exprTo g names g.size id

def valueIn (id : NodeId) (row : Row V) : V :=
  match exprOf g names id with
  | .ok e => eval S 0 row e
  | .error _ => S.unknown

def groupValueIn (id : NodeId) (rows : List (Row V)) : V :=
  match exprOf g names id with
  | .ok e => groupEval S 0 rows e
  | .error _ => S.unknown

/-- Whether a value needs a group of rows. -/
def needsRows (id : NodeId) : Bool :=
  match exprOf g names id with
  | .ok e => hasAggregate e
  | .error _ => false

/-- The name under which a value is shown. -/
def nameOf (id : NodeId) : String :=
  match g.typedOf id with
  | .ok typed => typed.name.getD ""
  | .error _ => ""

def rowOf (fields : List NodeId) (row : Row V) : Row V :=
  fields.map fun f => (nameOf g f, valueIn S g names f row)

def groupOf (fields : List NodeId) (rows : List (Row V)) : Row V :=
  fields.map fun f => (nameOf g f, groupValueIn S g names f rows)

variable [DecidableEq V]

/-- The rows that an operator makes of the rows of its input. A summary without any aggregate shows
its values for each row. -/
def apply : Kind → List (Row V) → List (Row V)
  | .filter _ predicate, rows => rows.filter fun row => S.holds (valueIn S g names predicate row)
  | .project _ fields, rows => rows.map (rowOf S g names fields)
  | .mutate _ keys mutates, rows => rows.map (rowOf S g names (keys ++ mutates))
  | .distinct _ fields, rows => (rows.map (rowOf S g names fields)).eraseDups
  | .sort _ keys, rows =>
    sortBy S (keys.map fun k => (k.ascending, valueIn S g names k.expr)) rows
  | .slice _ _ stop _, rows => rows.take ((stop.map fun n => n.toInt.toNat).getD 0)
  | .groupBy _ keys aggregates having, rows =>
    let groups := groupsBy (fun row => keys.map fun k => valueIn S g names k row) rows
    let kept := match having with
      | some predicate =>
        groups.filter fun group => S.holds (groupValueIn S g names predicate group)
      | none => groups
    kept.map (groupOf S g names (keys ++ aggregates))
  | .summary _ fields, rows =>
    if fields.any (needsRows g names) then [groupOf S g names fields rows]
    else rows.map (rowOf S g names fields)
  | _, rows => rows

/-- The rows that a chain of operators makes of some rows. -/
def run (ops : List Kind) (rows : List (Row V)) : List (Row V) :=
  ops.foldl (fun rows op => apply S g names op rows) rows

/-- No sort on the way has more than `limit` rows. -/
def SortsWithin (limit : Nat) (ops : List Kind) (rows : List (Row V)) : Prop :=
  ∀ before input keys after, ops = before ++ .sort input keys :: after →
    (run S g names (before ++ [.sort input keys]) rows).length ≤ limit

variable {S g names}

@[simp] theorem run_nil (rows : List (Row V)) : run S g names [] rows = rows := rfl

@[simp] theorem run_concat (ops : List Kind) (op : Kind) (rows : List (Row V)) :
    run S g names (ops ++ [op]) rows = apply S g names op (run S g names ops rows) := by
  simp [run, List.foldl_append]

theorem SortsWithin.of_concat {op : Kind} {rows : List (Row V)}
    (h : SortsWithin S g names limit (ops ++ [op]) rows) :
    SortsWithin S g names limit ops rows := by
  intro before input keys after hops
  exact h before input keys (after ++ [op]) (by simp [hops])

theorem SortsWithin.length_le {input : NodeId} {keys : List SortKey} {rows : List (Row V)}
    (h : SortsWithin S g names limit (ops ++ [.sort input keys]) rows) :
    (run S g names (ops ++ [.sort input keys]) rows).length ≤ limit :=
  h ops input keys [] rfl

end Meaning

end PlanSql.Rows

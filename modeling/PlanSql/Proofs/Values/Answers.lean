import PlanSql.Proofs.Build.Operands
import PlanSql.Proofs.Values.Congruence

/-!
# Values of a built graph have expressions

Builders check types, numbers of operands and bounds, and expressions are made without checking most
of them again. For a value that fits its operands, the only way to fail is a construct that a
statement cannot express, or a position of text that is out of range.
-/

namespace PlanSql

/-- The errors of what a statement cannot express: it has no form, or a position overflows. -/
def Error.Inexpressible : Error → Prop
  | .unsupported _ | .overflow => True
  | _ => False

/-- A result, or something that cannot be expressed. -/
def Answers {α : Type} (r : Except Error α) : Prop := ∀ e, r = .error e → e.Inexpressible

namespace Answers

variable {α β : Type}

theorem ok (a : α) : Answers (.ok a : Except Error α) := fun _ h => by cases h

theorem pure (a : α) : Answers (Pure.pure a : Except Error α) := fun _ h => by cases h

theorem of_ok {r : Except Error α} (h : ∃ a, r = .ok a) : Answers r := by
  obtain ⟨a, rfl⟩ := h
  exact ok a

theorem throw {e : Error} (h : e.Inexpressible) :
    Answers (MonadExcept.throw e : Except Error α) := by
  intro e' he
  cases he
  exact h

theorem bind {x : Except Error α} {f : α → Except Error β} (hx : Answers x)
    (hf : ∀ a, x = .ok a → Answers (f a)) : Answers (x >>= f) := by
  cases x with
  | ok a => exact hf a rfl
  | error e =>
    intro e' he
    cases he
    exact hx e rfl

/-- A result that is known to be there is used by the rest. -/
theorem bind_ok {x : Except Error α} {f : α → Except Error β} (hx : ∃ a, x = .ok a)
    (hf : ∀ a, x = .ok a → Answers (f a)) : Answers (x >>= f) := bind (of_ok hx) hf

end Answers

namespace Compile

open PlanSql.Sql

/-! ## Functions without parameters -/

theorem plainMathExpr_answers (func : PlainMath) (x : Expr) : Answers (plainMathExpr func x) := by
  cases func <;> first | exact .pure _ | exact .throw trivial

theorem mathExpr_answers (func : MathFunc) (x : Expr) : Answers (mathExpr func x) := by
  cases func with
  | plain func => exact plainMathExpr_answers func x
  | log base => cases base <;> exact .pure _
  | trunc decimals => cases decimals <;> exact .pure _

theorem next_answers (n : Int64) : Answers (next n) := by
  unfold next
  split
  · exact .throw trivial
  · exact .pure _

theorem stripExpr_answers (op : TextOp) (name : String) (set : Option String) (x : Expr) :
    Answers (stripExpr op name set x) := by
  unfold stripExpr
  split
  · exact .pure _
  · exact .pure _
  · exact .throw trivial

theorem textExpr_answers (op : TextOp) (x : Expr) : Answers (textExpr op x) := by
  have hlimit : ∀ limit, Answers (textLimit op limit) := fun _ => .throw trivial
  cases op with
  | find sub start stop =>
    rw [textExpr]
    split
    · exact hlimit _
    · dsimp only
      split
      · exact .bind (next_answers start) fun _ _ => .pure _
      · exact .pure _
  | get index => exact .bind (next_answers index) fun _ _ => .pure _
  | substring start length => exact .bind (next_answers start) fun _ _ => .pure _
  | stripLeft set | stripRight set | strip set => exact stripExpr_answers _ _ set x
  | contains pattern caseful regex flags | count pattern flags | extract pattern flags group
  | replace pattern replacement n caseful flags regex =>
    rw [textExpr]
    split
    · exact hlimit _
    · exact .pure _
  | _ => exact .pure _

theorem datetimeExpr_answers (part : DatetimePart) (x : Expr) : Answers (datetimeExpr part x) := by
  cases part <;> first | exact .pure _ | exact .throw trivial

/-- Whether all or any of some values hold is asked only of truth values. -/
theorem reductionOf_answers {func : Reduction} {ddof : Int64} {dtype result : DataType}
    (h : Build.reductionType func dtype = .ok result) (x : Expr) :
    Answers (reductionOf func ddof dtype x) := by
  have hboolean : func = .any ∨ func = .all → dtype = .boolean := by
    intro hfunc
    cases hd : decide (dtype = .boolean) with
    | true => exact of_decide_eq_true hd
    | false =>
      rcases hfunc with rfl | rfl <;> simp [Build.reductionType, of_decide_eq_false hd] at h
  cases func with
  | any => rw [reductionOf, if_pos (hboolean (.inl rfl))]; exact .pure _
  | all => rw [reductionOf, if_pos (hboolean (.inr rfl))]; exact .pure _
  | var | std =>
    rw [reductionOf]
    split
    · exact .pure _
    · exact .throw trivial
  | sum => cases dtype <;> exact .pure _
  | _ => exact .pure _

namespace Cut

variable (c : Cut) (x : Expr)

theorem length_between (first : Bool) (bins : List Value) :
    (between c x first bins).length = bins.length - 1 := by
  induction bins generalizing first with
  | nil => rfl
  | cons low rest ih =>
    cases rest with
    | nil => rfl
    | cons high rest =>
      rw [between, List.length_cons, ih]
      simp

theorem length_below : (below c x).length ≤ c.includeUnder.toNat := by
  unfold below
  split
  · split
    · next h => simp [h]
    · exact Nat.zero_le _
  · exact Nat.zero_le _

theorem length_above : (above c x).length ≤ c.includeOver.toNat := by
  unfold above
  split
  · split
    · next h => simp [h]
    · exact Nat.zero_le _
  · exact Nat.zero_le _

theorem expr_answers (h : c.labels.length =
    c.bins.length - 1 + c.includeUnder.toNat + c.includeOver.toNat) : Answers (expr c x) := by
  have hlength : (conditions c x).length ≤ c.labels.length := by
    have hbelow := length_below c x
    have habove := length_above c x
    simp only [conditions, List.length_append, length_between, h]
    omega
  rw [expr, if_neg (by omega)]
  exact .pure _

end Cut

/-! ## Values -/

section Values

variable {g : Graph} {careful : Prop} {p : Parts} {id : NodeId} {t : DataType} {op : WindowOp}
variable {o : Operand}

theorem fragments_ok {ids : List NodeId} (h : ∀ id ∈ ids, ∃ e, p.fragment id = .ok e) :
    ∃ es, p.fragments ids = .ok es := by
  induction ids with
  | nil => exact ⟨[], rfl⟩
  | cons id rest ih =>
    obtain ⟨e, he⟩ := h id (.head _)
    obtain ⟨es, hes⟩ := ih fun x hx => h x (.tail _ hx)
    exact ⟨e :: es, Except.bind_eq_ok_iff.2 ⟨e, he, Except.bind_eq_ok_iff.2 ⟨es, hes, rfl⟩⟩⟩

theorem sortKeys_ok {keys : List SortKey} (h : ∀ k ∈ keys, ∃ e, p.fragment k.expr = .ok e) :
    ∃ es, p.sortKeys keys = .ok es := by
  induction keys with
  | nil => exact ⟨[], rfl⟩
  | cons key rest ih =>
    obtain ⟨e, he⟩ := h key (.head _)
    obtain ⟨es, hes⟩ := ih fun x hx => h x (.tail _ hx)
    exact ⟨_, Except.bind_eq_ok_iff.2 ⟨e, he, Except.bind_eq_ok_iff.2 ⟨es, hes, rfl⟩⟩⟩

theorem fragment?_ok {id : Option NodeId} (h : ∀ x ∈ id, ∃ e, p.fragment x = .ok e) :
    ∃ e, p.fragment? id = .ok e := by
  cases id with
  | none => exact ⟨none, rfl⟩
  | some x =>
    obtain ⟨e, he⟩ := h x rfl
    exact ⟨some e, Except.bind_eq_ok_iff.2 ⟨e, he, rfl⟩⟩

theorem branchesOf_ok {conditions results : List NodeId}
    (hc : ∀ c ∈ conditions, ∃ e, p.fragment c = .ok e)
    (hr : ∀ r ∈ results, ∃ e, p.fragment r = .ok e) :
    ∃ branches, branchesOf p conditions results = .ok branches := by
  induction conditions generalizing results with
  | nil => exact ⟨[], rfl⟩
  | cons c conditions ih =>
    cases results with
    | nil => exact ⟨[], rfl⟩
    | cons r results =>
      obtain ⟨ec, hec⟩ := hc c (.head _)
      obtain ⟨er, her⟩ := hr r (.head _)
      obtain ⟨es, hes⟩ := ih (fun x hx => hc x (.tail _ hx))
        fun x hx => hr x (.tail _ hx)
      exact ⟨_, Except.bind_eq_ok_iff.2 ⟨ec, hec, Except.bind_eq_ok_iff.2 ⟨er, her,
        Except.bind_eq_ok_iff.2 ⟨es, hes, rfl⟩⟩⟩⟩

theorem valueType_eq (h : g.dtypeOf id = .ok t) :
    valueType g id = .ok t := by
  obtain ⟨typed, htyped, rfl⟩ := Graph.dtypeOf_eq_ok_iff.1 h
  obtain ⟨n, hn, ht⟩ := Graph.typedOf_eq_ok_iff.1 htyped
  refine Except.bind_eq_ok_iff.2 ⟨n, Graph.node_eq_ok_iff.2 hn, ?_⟩
  simp [Node.dtype?, ht]
  rfl

theorem isValue_iff :
    g.IsValue id ↔ ∃ n t, g.node? id = some n ∧ n.typed? = some t := by
  constructor
  · rintro ⟨dtype, hd⟩
    obtain ⟨t, ht, -⟩ := Graph.dtypeOf_eq_ok_iff.1 hd
    obtain ⟨n, hn, hnt⟩ := Graph.typedOf_eq_ok_iff.1 ht
    exact ⟨n, t, hn, hnt⟩
  · rintro ⟨n, t, hn, hnt⟩
    exact ⟨t.dtype, Graph.dtypeOf_eq_ok_iff.2 ⟨t, Graph.typedOf_eq_ok_iff.2 ⟨n, hn, hnt⟩, rfl⟩⟩

theorem not_isCollection_of_typed {n : Node} {t : Typed} (hn : g.node? id = some n)
    (ht : n.typed? = some t) : g.isCollection id = false := by
  cases hs : n.shape with
  | collection schema => simp [Node.typed?, hs] at ht
  | _ => simp [Graph.isCollection, hn, Node.isCollection, hs]

theorem not_isCollection_of_isValue (h : g.IsValue id) : g.isCollection id = false := by
  obtain ⟨_, _, hn, ht⟩ := isValue_iff.1 h
  exact not_isCollection_of_typed hn ht

theorem operand_ok (hw : g.WellFormed careful) (hv : g.IsValue id)
    (hf : ∃ e, p.fragment id = .ok e) : ∃ e, operand g p id = .ok e := by
  obtain ⟨e, he⟩ := hf
  obtain ⟨n, typed, hn, htyped⟩ := isValue_iff.1 hv
  have hgroup : ∃ b, needsGroup g n.kind = .ok b := by
    cases hk : n.kind with
    | reduction func input ddof =>
      have hinput : ∃ m, g.node input = .ok m := by
        have hlt : input < id := hw.operand_lt hn htyped (.input, input)
          (by simp [hk, Kind.operands])
        have hsize := Nat.lt_trans hlt (Graph.lt_size_of_node? hn)
        obtain ⟨m, hm⟩ := Option.isSome_iff_exists.1 ((g.node?_isSome_iff input).2 hsize)
        exact ⟨m, Graph.node_eq_ok_iff.2 hm⟩
      obtain ⟨m, hm⟩ := hinput
      cases func with
      | max | min => exact ⟨_, Except.bind_eq_ok_iff.2 ⟨m, hm, rfl⟩⟩
      | _ => exact ⟨_, rfl⟩
    | element op | text input op => cases op <;> exact ⟨_, rfl⟩
    | _ => exact ⟨_, rfl⟩
  obtain ⟨b, hb⟩ := hgroup
  refine ⟨if b then .group e else e, Except.bind_eq_ok_iff.2 ⟨e, he, Except.bind_eq_ok_iff.2 ⟨n,
    Graph.node_eq_ok_iff.2 hn, Except.bind_eq_ok_iff.2 ⟨b, hb, ?_⟩⟩⟩⟩
  cases b <;> rfl

theorem boundExpr_ok (hw : g.WellFormed careful) (op : BinaryOp) (x : Expr) {bound : Option NodeId}
    (hv : ∀ b ∈ bound, g.IsValue b) (hf : ∀ b ∈ bound, ∃ e, p.fragment b = .ok e) :
    ∃ e, boundExpr g p op x bound = .ok e ∧ e.isSome = bound.isSome := by
  cases bound with
  | none => exact ⟨none, rfl, rfl⟩
  | some b =>
    obtain ⟨e, he⟩ := operand_ok hw (hv b rfl) (hf b rfl)
    exact ⟨_, Except.bind_eq_ok_iff.2 ⟨e, he, rfl⟩, rfl⟩

theorem betweenExpr_answers (hw : g.WellFormed careful) {input : NodeId}
    {left right : Option NodeId}
    {inclusive : Bool} (hsome : left.isSome ∨ right.isSome)
    (hv : ∀ b, b = input ∨ b ∈ left ∨ b ∈ right → g.IsValue b)
    (hf : ∀ b, b = input ∨ b ∈ left ∨ b ∈ right → ∃ e, p.fragment b = .ok e) :
    Answers (betweenExpr g p input left right inclusive) := by
  have hop : ∀ b, b = input ∨ b ∈ left ∨ b ∈ right → ∃ e, operand g p b = .ok e :=
    fun b hb => operand_ok hw (hv b hb) (hf b hb)
  refine .bind_ok (hop input (.inl rfl)) fun x _ => ?_
  split
  · refine .bind_ok (hop _ (.inr (.inl rfl))) fun _ _ => ?_
    exact .bind_ok (hop _ (.inr (.inr rfl))) fun _ _ => .pure _
  · obtain ⟨above, ha, hasome⟩ := boundExpr_ok hw (if inclusive then .ge else .gt) x
      (fun b hb => hv b (.inr (.inl hb))) fun b hb => hf b (.inr (.inl hb))
    obtain ⟨below, hb, hbsome⟩ := boundExpr_ok hw (if inclusive then .le else .lt) x
      (fun b hb => hv b (.inr (.inr hb))) fun b hb => hf b (.inr (.inr hb))
    rw [ha, hb]
    -- At least one of the tests is there, since one of the bounds is.
    rw [← hasome, ← hbsome] at hsome
    cases above with
    | some a => cases below <;> exact .pure _
    | none =>
      cases below with
      | some b => exact .pure _
      | none => simp at hsome

theorem elementExpr_answers (hw : g.WellFormed careful) {op : ElementOp}
    (hfits : g.ElementFits t op) (id : NodeId)
    (hf : ∀ slot x, (slot, x) ∈ op.operands → slot ≠ .subquery → ∃ e, p.fragment x = .ok e) :
    Answers (elementExpr g p id op) := by
  have hv := hfits.operand
  have hmembers : ∀ {negated : Bool} {input : NodeId} {values : Membership},
      (∀ slot x, (slot, x) ∈ (.input, input) :: values.operands → slot ≠ .subquery →
        ∃ e, p.fragment x = .ok e) →
      Answers (membershipExpr p id negated input values) := by
    intro negated input values h
    have hinput := h .input input (.head _) (by decide)
    cases values with
    | literals ids =>
      refine .bind_ok (fragments_ok fun x hx => ?_) fun _ _ => .bind_ok hinput fun _ _ => .pure _
      exact h .values x (.tail _ (List.mem_map_of_mem hx)) (by decide)
    | subquery _ => exact .bind_ok hinput fun _ _ => .pure _
  cases op with
  | isNull input | notNull input =>
    exact .bind_ok (operand_ok hw hfits.1 (hf .input input (.head _) (by decide))) fun _ _ =>
      .pure _
  | fillNull input value =>
    refine .bind_ok (hf .input input (by simp [ElementOp.operands]) (by decide)) fun _ _ => ?_
    refine .bind_ok (hf .value value (by simp [ElementOp.operands]) (by decide)) fun _ _ => .pure _
  | isIn input values | notIn input values => exact hmembers hf
  | between input left right inclusive =>
    have hmem : ∀ b, b = input ∨ b ∈ left ∨ b ∈ right → ∃ slot : Slot, slot ≠ .subquery ∧
        (slot, b) ∈ (ElementOp.between input left right inclusive).operands := by
      rintro b (rfl | hb | hb)
      · exact ⟨.input, by decide, .head _⟩
      · refine ⟨.left, by decide, .tail _ (List.mem_append_left _ ?_)⟩
        exact List.mem_map_of_mem (Option.mem_toList.2 hb)
      · refine ⟨.right, by decide, .tail _ (List.mem_append_right _ ?_)⟩
        exact List.mem_map_of_mem (Option.mem_toList.2 hb)
    refine betweenExpr_answers hw hfits.2.1 (fun b hb => ?_) fun b hb => ?_
    · obtain ⟨slot, -, ho⟩ := hmem b hb
      exact hv _ ho
    · obtain ⟨slot, hslot, ho⟩ := hmem b hb
      exact hf slot b ho hslot
  | ifElse condition consequent alternative =>
    refine .bind_ok (fragments_ok fun x hx => ?_) fun _ _ => .pure _
    simp only [List.mem_cons, List.not_mem_nil, or_false] at hx
    rcases hx with rfl | rfl | rfl
    · exact hf .condition x (by simp [ElementOp.operands]) (by decide)
    · exact hf .consequent x (by simp [ElementOp.operands]) (by decide)
    · exact hf .alternative x (by simp [ElementOp.operands]) (by decide)
  | switch subject conditions results fallback =>
    have hmem : ∀ slot ids, Operand.many slot ids ⊆
        (ElementOp.switch subject conditions results fallback).operands → slot ≠ .subquery →
        ∀ x ∈ ids, ∃ e, p.fragment x = .ok e :=
      fun slot ids hsub hslot x hx => hf slot x (hsub (List.mem_map_of_mem hx)) hslot
    refine .bind_ok (fragment?_ok fun x hx => ?_) fun _ _ =>
      .bind_ok (branchesOf_ok ?_ ?_) fun _ _ =>
      .bind_ok (fragment?_ok fun x hx => ?_) fun _ _ => .pure _
    · refine hmem .subject subject.toList (fun o ho => ?_) (by decide) x (Option.mem_toList.2 hx)
      simp only [ElementOp.operands, List.mem_append]
      exact .inl (.inl (.inl ho))
    · refine hmem .conditions conditions (fun o ho => ?_) (by decide)
      simp only [ElementOp.operands, List.mem_append]
      exact .inl (.inl (.inr ho))
    · refine hmem .results results (fun o ho => ?_) (by decide)
      simp only [ElementOp.operands, List.mem_append]
      exact .inl (.inr ho)
    · refine hmem .fallback fallback.toList (fun o ho => ?_) (by decide) x (Option.mem_toList.2 hx)
      simp only [ElementOp.operands, List.mem_append]
      exact .inr ho
  | cut input cut =>
    obtain ⟨_, hbins, hlabels, _⟩ := hfits
    rw [elementExpr, if_neg (by omega)]
    exact .bind_ok (hf .input input (.head _) (by decide)) fun x _ => Cut.expr_answers cut x hlabels

theorem windowFunc_answers (hfits : g.WindowFits t op)
    (hf : ∀ o ∈ op.operands, ∃ e, p.fragment o.2 = .ok e) : Answers (windowFunc g p op) := by
  cases op with
  | cumulative func input distinct spec =>
    obtain ⟨_, t, ht, _⟩ := hfits
    refine .bind (.bind_ok (hf _ (.head _)) fun _ _ => ?_) fun _ _ => .pure _
    split
    · refine .bind_ok ⟨t, valueType_eq ht⟩ fun _ _ => ?_
      split <;> exact .pure _
    · exact .pure _
  | rank func spec => exact .pure _
  | shift func input offset default spec =>
    exact .bind_ok (hf _ (.head _)) fun _ _ => .pure _

theorem partition_ok (hf : ∀ o ∈ op.operands, ∃ e, p.fragment o.2 = .ok e) :
    ∃ es, p.fragments op.spec.partitionBy = .ok es :=
  fragments_ok fun _ hx => hf _ (WindowOp.mem_operands_of_partitionBy hx)

theorem windowExpr_answers (hfits : g.WindowFits t op)
    (hf : ∀ o ∈ op.operands, ∃ e, p.fragment o.2 = .ok e) : Answers (windowExpr g p op) := by
  refine .bind (windowFunc_answers hfits hf) fun _ _ => .bind_ok (partition_ok hf) fun _ _ => ?_
  have horder := sortKeys_ok fun _ hk => hf _ (WindowOp.mem_operands_of_orderBy hk)
  exact .bind_ok horder fun _ _ => .pure _

/-- Once the operands have fragments and columns resolve, a value has an expression. -/
theorem valueExpr_answers (hw : g.WellFormed careful) {n : Node} {t : Typed}
    (hn : g.node? id = some n) (ht : n.typed? = some t) (hfits : g.ValueFits t n.kind)
    (hf : ∀ slot x, (slot, x) ∈ n.kind.operands → slot ≠ .subquery → g.IsValue x →
      ∃ e, p.fragment x = .ok e)
    (hcol : ∀ c schema field name, n.kind = .column c → g.schemaOf c = .ok schema →
      schema.find? name = some field → ∃ r, p.column c name = .ok r) :
    Answers (valueExpr g p id n.kind) := by
  have hnode : g.node id = .ok n := Graph.node_eq_ok_iff.2 hn
  have htype : ∃ d, valueType g id = .ok d := ⟨t.dtype, valueType_eq (Graph.dtypeOf_eq_ok_iff.2
    ⟨t, Graph.typedOf_eq_ok_iff.2 ⟨n, hn, ht⟩, rfl⟩)⟩
  obtain ⟨kind, shape⟩ := n
  dsimp only at *
  cases kind with
  | element op =>
    exact elementExpr_answers hw hfits id fun slot x ho hs =>
      hf slot x ho hs (Graph.ElementFits.operand hfits _ ho)
  | binary op lhs rhs =>
    obtain ⟨l, r, hl, hr, _⟩ := hfits
    have hlhs := hf .lhs lhs (.head _) (by decide) ⟨l, hl⟩
    have hrhs := hf .rhs rhs (by simp [Kind.operands]) (by decide) ⟨r, hr⟩
    have hboth : ∃ es, p.fragments [lhs, rhs] = .ok es := fragments_ok (by simp [hlhs, hrhs])
    refine .bind_ok htype fun _ _ => ?_
    split
    · exact .bind_ok hboth fun _ _ => .pure _
    · split
      · exact .bind_ok hboth fun _ _ => .pure _
      · refine .bind_ok (operand_ok hw ⟨l, hl⟩ hlhs) fun _ _ => ?_
        exact .bind_ok (operand_ok hw ⟨r, hr⟩ hrhs) fun _ _ => .pure _
  | unary op input =>
    have hinput := hf .input input (.head _) (by decide) ⟨_, hfits.1⟩
    have hoperand := operand_ok hw ⟨_, hfits.1⟩ hinput
    refine .bind_ok ⟨_, valueType_eq hfits.1⟩ fun _ _ => ?_
    cases op with
    | abs => exact .bind_ok (fragments_ok (by simp [hinput])) fun _ _ => .pure _
    | negate => exact .bind_ok hoperand fun _ _ => .pure _
    | invert =>
      dsimp only
      split
      · exact .bind_ok hoperand fun _ _ => .pure _
      · exact .throw trivial
  | math func input =>
    obtain ⟨d, hd, _⟩ := hfits
    exact .bind_ok (hf .input input (.head _) (by decide) ⟨d, hd⟩) fun x _ =>
      mathExpr_answers func x
  | text input op =>
    exact .bind_ok (hf .input input (.head _) (by decide) ⟨_, hfits.1⟩) fun x _ =>
      textExpr_answers op x
  | datetime input part =>
    exact .bind_ok (hf .input input (.head _) (by decide) ⟨_, hfits.1⟩) fun x _ =>
      datetimeExpr_answers part x
  | reduction func input ddof =>
    rw [valueExpr, reductionExpr]
    split
    · split
      · exact .pure _
      · exact .throw trivial
    · next hcollection =>
      rcases hfits with ⟨hrelation, _⟩ | ⟨d, hd, hresult⟩
      · exact absurd (Graph.isCollection_iff.2 hrelation) hcollection
      · refine .bind_ok (hf .input input (.head _) (by decide) ⟨d, hd⟩) fun x _ => ?_
        refine .bind_ok ⟨d, valueType_eq hd⟩ fun d' hd' => ?_
        cases (valueType_eq hd).symm.trans hd'
        exact reductionOf_answers hresult x
  | window op =>
    refine windowExpr_answers hfits fun o ho => ?_
    exact hf o.1 o.2 ho (WindowOp.slot_ne_subquery ho) (Graph.WindowFits.operand hfits o ho)
  | cast input =>
    refine .bind_ok (hf .input input (.head _) (by decide) ⟨_, hfits.1⟩) fun _ _ => ?_
    exact .bind_ok ⟨_, valueType_eq hfits.1⟩ fun _ _ => .bind_ok htype fun _ _ => .pure _
  | column c =>
    obtain ⟨schema, name, field, hschema, hname, hfield, _⟩ := hfits
    refine .bind_ok ⟨_, hnode⟩ fun m hm => ?_
    cases hnode.symm.trans hm
    rw [ht]
    dsimp only
    rw [hname]
    exact .bind_ok (hcol c schema field name rfl hschema hfield) fun _ _ => .pure _
  | literal value =>
    rw [valueExpr, literalExpr]
    split
    · exact .bind_ok htype fun _ _ => .pure _
    · exact .pure _
  | userMap input function =>
    obtain ⟨hinput, f, hfunction, _⟩ := hfits
    refine .bind_ok ⟨f, hfunction⟩ fun _ _ => ?_
    refine .bind_ok (fragments_ok ?_) fun _ _ => .pure _
    simp only [List.mem_singleton, forall_eq]
    exact hf .input input (.head _) (by decide) hinput
  | _ => exact hfits.elim

end Values

end Compile

end PlanSql

import PlanSql.Proofs.Reading.Values

/-!
# Which values are misread

The expression of a value is made of the expressions of its operands. Its text is read back as the
expression exactly if neither the value nor anything it is made of is misread. The subquery of a
membership test is a statement of its own, and the collection of a column is not written at all, so
neither of them counts.
-/

namespace PlanSql.Reading

open PlanSql.Sql PlanSql.Compile

def valueOperands (g : Graph) (kind : Kind) : List NodeId :=
  (kind.operands.filter fun o => o.1 ≠ .subquery && !g.isCollection o.2).map Prod.snd

section Operands

variable {g : Graph} {kind : Kind}

theorem valueOperands_eq (h : ∀ o ∈ kind.operands, g.IsValue o.2) :
    valueOperands g kind = (kind.operands.filter fun o => o.1 ≠ .subquery).map Prod.snd := by
  unfold valueOperands
  congr 1
  apply List.filter_congr
  intro o ho
  simp [not_isCollection_of_isValue (h o ho)]

theorem valueOperands_element {op : ElementOp} (hk : kind = .element op)
    (h : ∀ o ∈ kind.operands, g.IsValue o.2) : valueOperands g kind = elementOperands op := by
  have htrue : ∀ ids : List NodeId, ids.filter (fun _ => true) = ids := fun ids =>
    List.filter_eq_self.2 fun _ _ => rfl
  rw [valueOperands_eq h, hk]
  cases op with
  | isIn input values | notIn input values =>
    cases values <;> simp [elementOperands, listed, Kind.operands, ElementOp.operands,
      Membership.operands, Operand.many, List.filter_map, Function.comp_def]
  | _ => simp [elementOperands, Kind.operands, ElementOp.operands, Operand.many, Operand.perhaps,
      List.filter_map, Function.comp_def, htrue]

theorem valueOperands_window {op : WindowOp} (hk : kind = .window op)
    (h : ∀ o ∈ kind.operands, g.IsValue o.2) :
    valueOperands g kind = op.operands.map Prod.snd := by
  rw [valueOperands_eq h, hk, Kind.operands, List.filter_eq_self.2]
  intro o ho
  simpa using WindowOp.slot_ne_subquery ho

end Operands

section Values

variable {levelText : LevelId → String} {g : Graph} {p : Parts} {id : NodeId} {e : Expr}
variable {n : Node} {t : Typed} {op : WindowOp} {input : NodeId}

theorem windowFunc_written (levelText : LevelId → String) {func : Expr}
    (h : windowFunc g p op = .ok func) :
    ∃ xs, Written levelText p xs false 8 func ∧ op.operands.map Prod.snd =
      xs ++ (op.spec.partitionBy ++ op.spec.orderBy.map SortKey.expr) := by
  have hspec : ∀ spec : WindowSpec, spec.operands.map Prod.snd =
      spec.partitionBy ++ spec.orderBy.map SortKey.expr := by
    intro spec
    simp [WindowSpec.operands, Operand.many, Function.comp_def]
  cases op with
  | rank func spec =>
    cases h
    exact ⟨[], ⟨level_call .., by simp, by simp⟩, hspec spec⟩
  | cumulative func input distinct spec =>
    obtain ⟨arg, harg, h⟩ := bind_ok h
    cases h
    obtain ⟨ex, hx, harg⟩ := bind_ok harg
    have hadequate : (treeOf levelText arg).Adequate ↔ (treeOf levelText ex).Adequate := by
      split at harg
      · obtain ⟨dtype, _, harg⟩ := bind_ok harg
        split at harg <;> cases harg <;> simp [asNumber, whole]
      · cases harg
        rfl
    refine ⟨[input], .one hx ?_ ?_, congrArg (input :: ·) (hspec spec)⟩
    · cases distinct <;> simp
    · cases distinct <;> simp [hadequate]
  | shift func input offset default spec =>
    obtain ⟨ex, hx, h⟩ := bind_ok h
    cases h
    refine ⟨[input], .one hx (by simp) ?_, congrArg (input :: ·) (hspec spec)⟩
    cases hd : default.filter (!·.isNull) <;> simp [whole]

theorem windowExpr_written (h : windowExpr g p op = .ok e) :
    Written levelText p (op.operands.map Prod.snd) false 7 e := by
  obtain ⟨func, hfunc, h⟩ := bind_ok h
  obtain ⟨partition, hpartition, h⟩ := bind_ok h
  obtain ⟨order, horder, h⟩ := bind_ok h
  cases h
  obtain ⟨xs, hw, hoperands⟩ := windowFunc_written levelText hfunc
  obtain ⟨hfp, hap⟩ := fragments_written levelText hpartition
  obtain ⟨hfo, hao⟩ := sortKeys_written levelText horder
  rw [hoperands]
  refine ⟨level_windowed .., ?_, ?_⟩
  · simp only [List.forall_mem_append, List.forall_mem_map]
    exact ⟨hw.found, hfp, hfo⟩
  · rw [adequate_windowed, hw.adequate, hw.level]
    simp only [List.forall_mem_append, List.forall_mem_map, hap, hao]
    simp

theorem reductionExpr_written {func : Reduction} {ddof : Int64}
    (h : reductionExpr g p func input ddof = .ok e) :
    Written levelText p (if g.isCollection input then [] else [input]) false
      (reductionLevel func (isTruth g input)) e := by
  unfold reductionExpr at h
  split at h
  · next hcollection =>
    rw [if_pos hcollection]
    split at h
    · next hcount =>
      cases h
      subst hcount
      exact ⟨rfl, by simp, by simp [whole]⟩
    · cases h
  · next hcollection =>
    rw [if_neg hcollection]
    obtain ⟨ex, hx, h⟩ := bind_ok h
    obtain ⟨dtype, hd, h⟩ := bind_ok h
    obtain ⟨hl, ha⟩ := reductionOf_written levelText h
    refine .one hx ?_ (by simp [ha])
    rw [hl, isTruth_of_valueType hd]
    rfl

theorem dtype_eq_of_valueType {dtype : DataType} (hn : g.node? id = some n)
    (ht : n.typed? = some t) (h : valueType g id = .ok dtype) : dtype = t.dtype := by
  have hsome := valueType_eq_some hn h
  simp only [Node.dtype?, ht, Option.map_some, Option.some.injEq] at hsome
  exact hsome.symm

theorem castExpr_written (hn : g.node? id = some n) (ht : n.typed? = some t)
    (hinput : g.dtypeOf input = .ok t.sourceDtype) (hne : t.sourceDtype ≠ t.dtype)
    (h : castExpr g p id input = .ok e) :
    Written levelText p [input] false 8 e := by
  obtain ⟨ex, hx, h⟩ := bind_ok h
  obtain ⟨source, hsource, h⟩ := bind_ok h
  obtain ⟨target, htarget, h⟩ := bind_ok h
  cases h
  cases (valueType_eq hinput).symm.trans hsource
  obtain rfl := dtype_eq_of_valueType hn ht htarget
  rw [converted, if_neg hne]
  refine .one hx (level_convert levelText hne) ?_
  rw [adequate_convert levelText hne]
  simp

theorem columnExpr_written {collection : NodeId} (h : columnExpr g p id collection = .ok e) :
    Written levelText p [] false 8 e := by
  obtain ⟨n, _, h⟩ := bind_ok h
  split at h
  · cases h
  · next typed _ =>
    split at h
    · cases h
    · obtain ⟨⟨label, field⟩, _, h⟩ := bind_ok h
      cases h
      unfold converted
      by_cases hd : typed.sourceDtype = typed.dtype
      · rw [if_pos hd]
        exact ⟨rfl, by simp, by simp [treeOf, Tree.Adequate]⟩
      · rw [if_neg hd]
        refine ⟨level_convert levelText hd, by simp, ?_⟩
        rw [adequate_convert levelText hd]
        simp [treeOf, Tree.Adequate]

theorem literalExpr_written {value : Value} (hn : g.node? id = some n) (ht : n.typed? = some t)
    (hvalue : ∀ dtype, value.dtype? = some dtype → t.dtype = dtype)
    (h : literalExpr g id value = .ok e) :
    Written levelText p [] false (if isSigned value then 6 else 8) e := by
  have hconstant : e = .constant value := by
    unfold literalExpr at h
    split at h
    · next natural hnatural =>
      obtain ⟨dtype, hd, h⟩ := bind_ok h
      cases h
      rw [converted, if_pos]
      rw [dtype_eq_of_valueType hn ht hd, hvalue natural hnatural]
    · exact (Except.ok.inj h).symm
  rw [hconstant]
  exact ⟨level_constant levelText value, by simp, by simp⟩

/-! ## Types of signs and inversions -/

theorem dtype?_of_isSigned {v : Value} (h : isSigned v = true) :
    ∃ dtype, v.dtype? = some dtype ∧ dtype ≠ .boolean := by
  cases v with
  | null => exact absurd h (by decide)
  | boolean b => cases b <;> exact absurd h (by decide)
  | _ => exact ⟨_, rfl, by decide⟩

/-- Only an inversion of a truth value is written as one, and signs stand before numbers and in
constants. -/
theorem nodeLevel_eq_two_or_six (h : nodeLevel g n = 2 ∨ nodeLevel g n = 6) :
    (∃ op y, n.kind = .unary op y ∧ nodeLevel g n = if isTruth g y then 2 else 6) ∨
      (nodeLevel g n = 6 ∧ ∃ v, n.kind = .literal v ∧ isSigned v = true) := by
  obtain ⟨kind, shape⟩ := n
  cases kind with
  | element op =>
    cases op with
    | between x left right inclusive =>
      simp only [nodeLevel, elementLevel] at h
      split at h <;> omega
    | _ => simp [nodeLevel, elementLevel] at h
  | binary op l r =>
    simp only [nodeLevel] at h
    split at h
    · cases op <;> simp [level] at h
    · omega
  | math func x =>
    simp only [nodeLevel] at h
    split at h <;> omega
  | text x op => cases op <;> simp [nodeLevel, textLevel] at h
  | reduction func x ddof =>
    cases func with
    | max | min =>
      simp only [nodeLevel, reductionLevel] at h
      split at h <;> omega
    | _ => simp [nodeLevel, reductionLevel] at h
  | unary op y =>
    cases op with
    | abs => simp [nodeLevel] at h
    | _ => exact .inl ⟨_, y, rfl, rfl⟩
  | literal v =>
    simp only [nodeLevel] at h ⊢
    by_cases hv : isSigned v = true
    · exact .inr ⟨if_pos hv, v, rfl, hv⟩
    · rw [if_neg hv] at h
      omega
  | _ => simp [nodeLevel] at h

section Types

variable {careful : Prop} (hw : g.WellFormed careful) {x : NodeId}

include hw

theorem isTruth_of_unary {op : UnaryOp} {y : NodeId} (hn : g.node? x = some n)
    (ht : n.typed? = some t) (hk : n.kind = .unary op y) : isTruth g x = isTruth g y := by
  have hfits := (hw.valueFits hn ht).mono (Graph.before_extends g x)
  rw [hk] at hfits
  rw [isTruth_eq hn, isTruth_of_valueType (valueType_eq hfits.1)]
  simp [Node.dtype?, ht]

theorem isTruth_of_isInversion (hx : g.IsValue x) (h : isInversion g x = true) :
    isTruth g x = true := by
  obtain ⟨n, t, hn, ht⟩ := isValue_iff.1 hx
  rw [isInversion, writtenLevel_eq hn, beq_iff_eq] at h
  rcases nodeLevel_eq_two_or_six (.inl h) with ⟨op, y, hk, hy⟩ | ⟨hsix, _⟩
  · rw [isTruth_of_unary hw hn ht hk]
    cases hfalse : isTruth g y with
    | true => rfl
    | false =>
      rw [hfalse, if_neg (by decide)] at hy
      omega
  · omega

theorem not_isTruth_of_sign (hx : g.IsValue x) (h : writtenLevel g x = 6) :
    isTruth g x = false := by
  obtain ⟨n, t, hn, ht⟩ := isValue_iff.1 hx
  rw [writtenLevel_eq hn] at h
  rcases nodeLevel_eq_two_or_six (.inr h) with ⟨op, y, hk, hy⟩ | ⟨-, v, hk, hv⟩
  · rw [isTruth_of_unary hw hn ht hk, Bool.eq_false_iff]
    intro htrue
    rw [if_pos htrue] at hy
    omega
  · have hfits := hw.valueFits hn ht
    rw [hk] at hfits
    obtain ⟨dtype, hd, hne⟩ := dtype?_of_isSigned hv
    rw [isTruth_eq hn, Node.dtype?, ht, Option.map_some, hfits dtype hd]
    simp [hne]

end Types

theorem valueExpr_written (levelText : LevelId → String) {careful : Prop}
    (hw : g.WellFormed careful) (hn : g.node? id = some n) (ht : n.typed? = some t)
    (hlevel : ∀ x e, p.fragment x = .ok e → (treeOf levelText e).level = writtenLevel g x)
    (h : valueExpr g p id n.kind = .ok e) :
    Written levelText p (valueOperands g n.kind) (misread g n) (nodeLevel g n) e := by
  have hfits := (hw.valueFits hn ht).mono (Graph.before_extends g id)
  have hone : ∀ {slot : Slot} {x : NodeId}, n.kind.operands = [(slot, x)] → slot ≠ .subquery →
      g.IsValue x → valueOperands g n.kind = [x] := by
    intro slot x hx hslot hv
    simp [valueOperands, hx, hslot, not_isCollection_of_isValue hv]
  obtain ⟨kind, shape⟩ := n
  dsimp only at hfits h hone ⊢
  cases kind with
  | element op =>
    rw [valueOperands_element rfl (Graph.ElementFits.operand hfits)]
    refine elementExpr_written hlevel rfl ?_ h
    rintro subject conditions results fallback rfl
    exact hfits.2.1
  | binary op l r =>
    rw [valueOperands_eq]
    · exact binaryExpr_written hlevel hn h
    · obtain ⟨tl, tr, hl, hr, _⟩ := hfits
      simp only [Kind.operands, List.forall_mem_cons, List.not_mem_nil, false_implies, implies_true,
        and_true]
      exact ⟨⟨tl, hl⟩, tr, hr⟩
  | unary op x =>
    have hx : g.IsValue x := ⟨_, hfits.1⟩
    rw [hone rfl (by decide) hx]
    have hwritten := unaryExpr_written hlevel (isTruth_of_isInversion hw hx)
      (not_isTruth_of_sign hw hx) h
    cases op <;> exact hwritten
  | math func x =>
    obtain ⟨tx, hx, _⟩ := hfits
    rw [hone rfl (by decide) ⟨tx, hx⟩]
    obtain ⟨ex, hex, h⟩ := bind_ok h
    obtain ⟨hl, ha⟩ := mathExpr_written levelText h
    have hbad : misread g ⟨.math func x, shape⟩ =
        (decide (func = .plain .log1p) && decide (writtenLevel g x < 5)) := by
      cases func with
      | plain func => cases func <;> rfl
      | _ => rfl
    refine .one hex hl ?_
    rw [ha, hlevel x ex hex, hbad, Bool.and_eq_false_imp, decide_eq_true_iff,
      decide_eq_false_iff_not, Nat.not_lt]
  | text x op =>
    rw [hone rfl (by decide) ⟨_, hfits.1⟩]
    obtain ⟨ex, hex, h⟩ := bind_ok h
    obtain ⟨hl, ha⟩ := textExpr_written levelText h
    exact .one hex hl (by simp [ha, misread])
  | datetime x part =>
    rw [hone rfl (by decide) ⟨_, hfits.1⟩]
    obtain ⟨ex, hex, h⟩ := bind_ok h
    obtain ⟨hl, ha⟩ := datetimeExpr_written levelText h
    exact .one hex hl (by simp [ha, misread])
  | reduction func x ddof =>
    have hoperands : valueOperands g (.reduction func x ddof) =
        if g.isCollection x then [] else [x] := by
      cases hc : g.isCollection x <;> simp [valueOperands, Kind.operands, hc]
    rw [hoperands]
    exact reductionExpr_written h
  | window op =>
    rw [valueOperands_window rfl (Graph.WindowFits.operand hfits)]
    exact windowExpr_written h
  | cast x =>
    rw [hone rfl (by decide) ⟨_, hfits.1⟩]
    exact castExpr_written hn ht hfits.1 hfits.2 h
  | column c =>
    obtain ⟨schema, _, _, hs, _⟩ := hfits
    have hc := Graph.isCollection_iff.2 ⟨schema, hs⟩
    have hoperands : valueOperands g (.column c) = [] := by simp [valueOperands, Kind.operands, hc]
    rw [hoperands]
    exact columnExpr_written h
  | literal v => exact literalExpr_written hn ht hfits h
  | userMap x function =>
    rw [hone rfl (by decide) hfits.1]
    obtain ⟨f, _, h⟩ := bind_ok h
    obtain ⟨es, hes, h⟩ := bind_ok h
    cases h
    exact .call hes _
  | _ => exact hfits.elim

end Values

/-! ## Values as a whole -/

/-- `e` is an expression of a value: it is made of expressions of its operands. Names of columns, of
user functions and of levels may be any. -/
inductive Rendering (g : Graph) : NodeId → Expr → Prop
  | node {id : NodeId} {n : Node} {e : Expr} (p : Parts) :
    g.node? id = some n → (∀ x e', p.fragment x = .ok e' → Rendering g x e') →
    valueExpr g p id n.kind = .ok e → Rendering g id e

/-- `w` is written in the expression of `v`: it is `v` or part of an operand of it. -/
inductive ValuePart (g : Graph) : NodeId → NodeId → Prop
  | refl (v : NodeId) : ValuePart g v v
  | operand {v x w : NodeId} {n : Node} : g.node? v = some n → x ∈ valueOperands g n.kind →
    ValuePart g x w → ValuePart g v w

/-- No part of a value is misread. -/
def ReadRight (g : Graph) (v : NodeId) : Prop :=
  ∀ w n, ValuePart g v w → g.node? w = some n → misread g n = false

section Rendering

variable {g : Graph} {careful : Prop} {v : NodeId} {e : Expr} {n : Node}

theorem readRight_iff (hn : g.node? v = some n) :
    ReadRight g v ↔ misread g n = false ∧ ∀ x ∈ valueOperands g n.kind, ReadRight g x := by
  constructor
  · intro h
    exact ⟨h v n (.refl v) hn, fun x hx w m hw => h w m (.operand hn hx hw)⟩
  · rintro ⟨hv, hoperands⟩ w m hw hm
    cases hw with
    | refl =>
      rw [← Option.some.inj (hn.symm.trans hm)]
      exact hv
    | operand hn' hx hw =>
      cases hn.symm.trans hn'
      exact hoperands _ hx w m hw hm

/-- A collection has no expression. -/
theorem typed?_of_valueExpr (hw : g.WellFormed careful) {p : Parts} (hn : g.node? v = some n)
    (he : valueExpr g p v n.kind = .ok e) : ∃ t, n.typed? = some t := by
  cases hs : n.shape with
  | collection schema =>
    have hfits := hw.collectionFits hn hs
    cases hk : n.kind <;> rw [hk] at hfits he <;> first | exact hfits.elim | cases he
  | sequence t | scalar t => exact ⟨t, by simp [Node.typed?, hs]⟩

theorem Rendering.level_eq (hw : g.WellFormed careful) (levelText : LevelId → String)
    (h : Rendering g v e) : (treeOf levelText e).level = writtenLevel g v := by
  induction h with
  | node p hn _ he ih =>
    obtain ⟨t, ht⟩ := typed?_of_valueExpr hw hn he
    rw [(valueExpr_written levelText hw hn ht ih he).level, writtenLevel_eq hn]

/-- The text of a value is adequate exactly if none of its parts is misread. -/
theorem Rendering.adequate_iff (hw : g.WellFormed careful) (levelText : LevelId → String)
    (h : Rendering g v e) : (treeOf levelText e).Adequate ↔ ReadRight g v := by
  induction h with
  | @node id n e p hn hparts he ih =>
    obtain ⟨t, ht⟩ := typed?_of_valueExpr hw hn he
    have hwritten := valueExpr_written levelText hw hn ht
      (fun x e' hx => (hparts x e' hx).level_eq hw levelText) he
    rw [hwritten.adequate, readRight_iff hn]
    refine and_congr_right fun _ => forall₂_congr fun x hx => ?_
    obtain ⟨ex, hex⟩ := hwritten.found x hx
    rw [fine_iff levelText hex, ih x ex hex]

end Rendering

end PlanSql.Reading

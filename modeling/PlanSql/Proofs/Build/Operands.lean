import PlanSql.Proofs.Build.WellFormed

/-!
# Operands of nodes that fit

What the checks of builders say about each single operand: it is a value or a collection of the
graph, it stands before its operator, and the values that make up a collection have names.
-/

namespace PlanSql

/-- Whether a slot of an operator holds a collection. -/
def Slot.isInput : Slot → Bool
  | .input | .left | .right => true
  | _ => false

namespace Graph

variable {careful : Prop}

variable {g : Graph} {dtype : DataType} {id : NodeId} {n : Node}
variable {kind : Kind} {schema : Schema} {x : NodeId} {t : Typed}

section Lists

variable {ids : List NodeId} {schema : Schema}

theorem isValue_of_typedOf {t : Typed} (h : g.typedOf id = .ok t) : g.IsValue id :=
  ⟨t.dtype, dtypeOf_eq_ok_iff.2 ⟨t, h, rfl⟩⟩

theorem isValue_of_expectValues (h : g.expectValues ids = .ok ()) :
    ∀ id ∈ ids, g.IsValue id := by
  induction ids with
  | nil => simp
  | cons id rest ih =>
    obtain ⟨t, ht, hrest⟩ := bind_ok h
    intro x hx
    rcases List.mem_cons.1 hx with rfl | hx
    · exact isValue_of_typedOf ht
    · exact ih hrest x hx

theorem isValue_of_expectComparable (h : g.expectComparable dtype ids = .ok ()) :
    ∀ id ∈ ids, g.IsValue id := by
  induction ids with
  | nil => simp
  | cons id rest ih =>
    obtain ⟨t, ht, hrest⟩ := bind_ok h
    obtain ⟨_, _, hrest⟩ := bind_ok hrest
    intro x hx
    rcases List.mem_cons.1 hx with rfl | hx
    · exact ⟨t, ht⟩
    · exact ih hrest x hx

theorem dtypeOf_of_dtypesOf {ts : List DataType} (h : g.dtypesOf ids = .ok ts) :
    ∀ id ∈ ids, ∃ t ∈ ts, g.dtypeOf id = .ok t := by
  induction ids generalizing ts with
  | nil => simp
  | cons id rest ih =>
    obtain ⟨t, ht, hrest⟩ := bind_ok h
    obtain ⟨more, hmore, hts⟩ := bind_ok hrest
    cases hts
    intro x hx
    rcases List.mem_cons.1 hx with rfl | hx
    · exact ⟨t, .head _, ht⟩
    · obtain ⟨t', hmem, ht'⟩ := ih hmore x hx
      exact ⟨t', .tail _ hmem, ht'⟩

theorem isValue_of_dtypesOf {ts : List DataType} (h : g.dtypesOf ids = .ok ts) :
    ∀ id ∈ ids, g.IsValue id := by
  intro id hid
  obtain ⟨t, _, ht⟩ := dtypeOf_of_dtypesOf h id hid
  exact ⟨t, ht⟩

theorem isValue_of_expectConditions {subject : Option NodeId}
    (h : Build.expectConditions g subject ids = .ok ()) :
    (∀ id ∈ ids, g.IsValue id) ∧ (ids ≠ [] → ∀ s ∈ subject, g.IsValue s) := by
  induction ids with
  | nil => simp
  | cons id rest ih =>
    cases subject with
    | none =>
      obtain ⟨_, hb, hrest⟩ := bind_ok h
      refine ⟨fun x hx => ?_, by simp⟩
      rcases List.mem_cons.1 hx with rfl | hx
      · exact ⟨_, Build.dtypeOf_of_expectBoolean hb⟩
      · exact (ih hrest).1 x hx
    | some s =>
      obtain ⟨t, ht, hrest⟩ := bind_ok h
      obtain ⟨_, hc, hrest⟩ := bind_ok hrest
      refine ⟨fun x hx => ?_, fun _ x hx => ?_⟩
      · rcases List.mem_cons.1 hx with rfl | hx
        · exact isValue_of_expectComparable hc x (.head _)
        · exact (ih hrest).1 x hx
      · obtain rfl : s = x := by simpa using hx
        exact ⟨t, ht⟩

/-- Values that make up a collection have names, which are those of the schema. -/
theorem typedOf_of_fieldSchema (h : g.fieldSchema ids = .ok schema) :
    ∀ id ∈ ids, ∃ t name, g.typedOf id = .ok t ∧ t.name = some name := by
  obtain ⟨fields, hfields, -⟩ := bind_ok h
  clear h
  induction ids generalizing fields with
  | nil => simp
  | cons id rest ih =>
    obtain ⟨field, hfield, hrest⟩ := bind_ok hfields
    obtain ⟨others, hothers, _⟩ := bind_ok hrest
    intro x hx
    rcases List.mem_cons.1 hx with rfl | hx
    · obtain ⟨t, ht, hname⟩ := bind_ok hfield
      cases hn : t.name with
      | none => simp [hn] at hname
      | some name => exact ⟨t, name, ht, hn⟩
    · exact ih others hothers x hx

theorem isValue_of_fieldSchema (h : g.fieldSchema ids = .ok schema) :
    ∀ id ∈ ids, g.IsValue id := by
  intro id hid
  obtain ⟨t, _, ht, _⟩ := typedOf_of_fieldSchema h id hid
  exact isValue_of_typedOf ht

end Lists

theorem mem_many {slot : Slot} {ids : List NodeId} {o : Operand} (h : o ∈ Operand.many slot ids) :
    o.2 ∈ ids := by
  obtain ⟨id, hid, rfl⟩ := List.mem_map.1 h
  exact hid

theorem MembershipFits.operand {values : Membership} (h : g.MembershipFits dtype values) :
    ∀ o ∈ values.operands, g.IsValue o.2 := by
  intro o ho
  cases values with
  | literals ids => exact isValue_of_expectComparable h _ (mem_many ho)
  | subquery id =>
    obtain rfl := List.mem_singleton.1 ho
    exact isValue_of_expectComparable h.1 _ (.head _)

theorem ElementFits.operand {op : ElementOp} (h : g.ElementFits dtype op) :
    ∀ o ∈ op.operands, g.IsValue o.2 := by
  intro o ho
  cases op with
  | isNull input | notNull input =>
    obtain rfl := List.mem_singleton.1 ho
    exact h.1
  | fillNull input value =>
    obtain ⟨hi, t, ht, _⟩ := h
    simp only [ElementOp.operands, List.mem_cons, List.not_mem_nil, or_false] at ho
    rcases ho with rfl | rfl
    · exact ⟨_, hi⟩
    · exact ⟨t, ht⟩
  | isIn input values | notIn input values =>
    obtain ⟨_, t, ht, hm⟩ := h
    rcases List.mem_cons.1 ho with rfl | ho
    · exact ⟨t, ht⟩
    · exact hm.operand o ho
  | between input left right inclusive =>
    obtain ⟨_, _, t, ht, hc⟩ := h
    have hbounds := isValue_of_expectComparable hc
    simp only [ElementOp.operands, Operand.perhaps, List.cons_append, List.mem_cons,
      List.mem_append] at ho
    rcases ho with rfl | ho | ho
    · exact ⟨t, ht⟩
    · exact hbounds _ (List.mem_append_left _ (mem_many ho))
    · exact hbounds _ (List.mem_append_right _ (mem_many ho))
  | ifElse condition consequent alternative =>
    obtain ⟨hc, ts, hts, _⟩ := h
    have hresults := isValue_of_dtypesOf hts
    simp only [ElementOp.operands, List.mem_cons, List.not_mem_nil, or_false] at ho
    rcases ho with rfl | rfl | rfl
    · exact ⟨_, hc⟩
    · exact hresults _ (by simp)
    · exact hresults _ (by simp)
  | switch subject conditions results fallback =>
    obtain ⟨hne, _, hc, ts, hts, _⟩ := h
    have hresults := isValue_of_dtypesOf hts
    have hconditions := isValue_of_expectConditions hc
    simp only [ElementOp.operands, Operand.perhaps, List.mem_append] at ho
    rcases ho with ((ho | ho) | ho) | ho
    · exact hconditions.2 hne _ (by simpa using mem_many ho)
    · exact hconditions.1 _ (mem_many ho)
    · exact hresults _ (List.mem_append_left _ (mem_many ho))
    · exact hresults _ (List.mem_append_right _ (mem_many ho))
  | cut input cut =>
    obtain ⟨⟨t, ht, _⟩, _⟩ := h
    obtain rfl := List.mem_singleton.1 ho
    exact ⟨t, ht⟩

theorem WindowFits.operand {op : WindowOp} (h : g.WindowFits dtype op) :
    ∀ o ∈ op.operands, g.IsValue o.2 := by
  have hspec : ∀ o ∈ op.spec.operands, g.IsValue o.2 := by
    intro o ho
    obtain ⟨_, hp, hk⟩ := bind_ok h.1
    rcases List.mem_append.1 ho with ho | ho
    · exact isValue_of_expectValues hp _ (mem_many ho)
    · exact isValue_of_expectValues hk _ (mem_many ho)
  intro o ho
  cases op with
  | cumulative func input unique spec =>
    obtain ⟨t, ht, _⟩ := h.2
    rcases List.mem_cons.1 ho with rfl | ho
    · exact ⟨t, ht⟩
    · exact hspec o ho
  | rank func spec => exact hspec o ho
  | shift func input offset default spec =>
    rcases List.mem_cons.1 ho with rfl | ho
    · exact ⟨_, h.2.1⟩
    · exact hspec o ho

theorem ValueFits.operand {typed : Typed} (h : g.ValueFits typed kind) :
    ∀ o ∈ kind.operands, g.IsValue o.2 ∨
      ((kind = .column o.2 ∨ ∃ ddof, kind = .reduction .count o.2 ddof) ∧ g.IsRelation o.2) := by
  intro o ho
  cases kind with
  | element op => exact .inl (ElementFits.operand h o ho)
  | binary op lhs rhs =>
    obtain ⟨l, r, hl, hr, _⟩ := h
    simp only [Kind.operands, List.mem_cons, List.not_mem_nil, or_false] at ho
    rcases ho with rfl | rfl
    · exact .inl ⟨l, hl⟩
    · exact .inl ⟨r, hr⟩
  | unary op input =>
    obtain rfl := List.mem_singleton.1 ho
    exact .inl ⟨_, h.1⟩
  | math func input =>
    obtain rfl := List.mem_singleton.1 ho
    exact .inl (h.imp fun t ht => ht.1)
  | text input op | datetime input part =>
    obtain rfl := List.mem_singleton.1 ho
    exact .inl ⟨_, h.1⟩
  | reduction func input ddof =>
    obtain rfl := List.mem_singleton.1 ho
    obtain ⟨hr, rfl, _⟩ | ⟨t, ht, _⟩ := h
    · exact .inr ⟨.inr ⟨ddof, rfl⟩, hr⟩
    · exact .inl ⟨t, ht⟩
  | window op => exact .inl (WindowFits.operand h o ho)
  | cast input =>
    obtain rfl := List.mem_singleton.1 ho
    exact .inl ⟨_, h.1⟩
  | column collection =>
    obtain rfl := List.mem_singleton.1 ho
    obtain ⟨schema, _, _, hs, _⟩ := h
    exact .inr ⟨.inl rfl, schema, hs⟩
  | literal value => simp [Kind.operands] at ho
  | userMap input function =>
    obtain rfl := List.mem_singleton.1 ho
    exact .inl h.1
  | _ => exact h.elim

/-- The input of a collection, or the sides it is made of. -/
def inputs : Kind → List NodeId
  | .project input _ | .filter input _ | .groupBy input _ _ _ | .mutate input _ _
  | .sort input _ | .distinct input _ | .slice input _ _ _ | .summary input _ => [input]
  | .join left right _ _ _ | .union left right _ => [left, right]
  | _ => []

theorem CollectionFits.operand (h : g.CollectionFits careful schema kind) :
    ∀ o ∈ kind.operands, (o.2 ∈ inputs kind ∧ o.1.isInput = true ∧
      ((∀ i fs, kind = .distinct i fs → careful) → g.IsRelation o.2)) ∨ g.IsValue o.2 := by
  intro o ho
  cases kind with
  | source table => simp [Kind.operands] at ho
  | project input fields | summary input fields =>
    rcases List.mem_cons.1 ho with rfl | ho
    · exact .inl ⟨.head _, rfl, fun _ => h.1⟩
    · exact .inr (isValue_of_fieldSchema h.2.2 _ (mem_many ho))
  | filter input predicate =>
    simp only [Kind.operands, List.mem_cons, List.not_mem_nil, or_false] at ho
    rcases ho with rfl | rfl
    · exact .inl ⟨.head _, rfl, fun _ => ⟨schema, h.1⟩⟩
    · exact .inr ⟨_, h.2⟩
  | groupBy input keys aggregates having =>
    obtain ⟨hi, _, hs, hp⟩ := h
    have hfields := isValue_of_fieldSchema hs
    simp only [Kind.operands, Operand.perhaps, List.cons_append, List.mem_cons,
      List.mem_append] at ho
    rcases ho with rfl | (ho | ho) | ho
    · exact .inl ⟨.head _, rfl, fun _ => hi⟩
    · exact .inr (hfields _ (List.mem_append_left _ (mem_many ho)))
    · exact .inr (hfields _ (List.mem_append_right _ (mem_many ho)))
    · exact .inr ⟨_, hp _ (by simpa using mem_many ho)⟩
  | mutate input keys mutates =>
    have hfields := isValue_of_fieldSchema h.2
    simp only [Kind.operands, List.cons_append, List.mem_cons, List.mem_append] at ho
    rcases ho with rfl | ho | ho
    · exact .inl ⟨.head _, rfl, fun _ => h.1⟩
    · exact .inr (hfields _ (List.mem_append_left _ (mem_many ho)))
    · exact .inr (hfields _ (List.mem_append_right _ (mem_many ho)))
  | sort input keys =>
    rcases List.mem_cons.1 ho with rfl | ho
    · exact .inl ⟨.head _, rfl, fun _ => ⟨schema, h.1⟩⟩
    · exact .inr (isValue_of_expectValues h.2.2 _ (mem_many ho))
  | distinct input fields =>
    rcases List.mem_cons.1 ho with rfl | ho
    · exact .inl ⟨.head _, rfl, fun hc => h.1 (hc _ _ rfl)⟩
    · exact .inr (isValue_of_fieldSchema h.2 _ (mem_many ho))
  | slice input start stop step =>
    obtain rfl := List.mem_singleton.1 ho
    exact .inl ⟨.head _, rfl, fun _ => ⟨schema, h⟩⟩
  | join left right predicate how fields =>
    obtain ⟨_, ls, rs, hl, hr, hp, _⟩ := h
    simp only [Kind.operands, Operand.perhaps, List.cons_append, List.nil_append,
      List.mem_cons] at ho
    rcases ho with rfl | rfl | ho
    · exact .inl ⟨by simp [inputs], rfl, fun _ => ⟨ls, hl⟩⟩
    · exact .inl ⟨by simp [inputs], rfl, fun _ => ⟨rs, hr⟩⟩
    · exact .inr ⟨_, hp _ (by simpa using mem_many ho)⟩
  | union left right unique =>
    simp only [Kind.operands, List.mem_cons, List.not_mem_nil, or_false] at ho
    rcases ho with rfl | rfl
    · exact .inl ⟨by simp [inputs], rfl, fun _ => ⟨schema, h.1⟩⟩
    · exact .inl ⟨by simp [inputs], rfl, fun _ => ⟨schema, h.2⟩⟩
  | _ => exact h.elim

theorem lt_of_isRelation_before (h : (g.before id).IsRelation x) : x < id := by
  obtain ⟨s, hs⟩ := h
  obtain ⟨n, hn, _⟩ := schemaOf_eq_ok_iff.1 hs
  exact lt_of_node?_before hn

theorem lt_of_isValue_before (h : (g.before id).IsValue x) : x < id := by
  obtain ⟨dtype, hd⟩ := h
  obtain ⟨t, ht, _⟩ := dtypeOf_eq_ok_iff.1 hd
  obtain ⟨n, hn, _⟩ := typedOf_eq_ok_iff.1 ht
  exact lt_of_node?_before hn

theorem WellFormed.valueFits (hw : g.WellFormed careful)
    (hn : g.node? id = some n) (ht : n.typed? = some t) :
    (g.before id).ValueFits t n.kind := by
  have hfits := hw id n hn
  obtain ⟨kind, shape⟩ := n
  cases shape with
  | collection schema => cases ht
  | sequence typed | scalar typed => cases ht; exact hfits

theorem WellFormed.collectionFits (hw : g.WellFormed careful)
    (hn : g.node? id = some n) (hs : n.shape = .collection schema) :
    (g.before id).CollectionFits careful schema n.kind := by
  have hfits := hw id n hn
  obtain ⟨kind, shape⟩ := n
  cases hs
  exact hfits

/-- The operands of a value stand before it. -/
theorem WellFormed.operand_lt (hw : g.WellFormed careful)
    (hn : g.node? id = some n) (ht : n.typed? = some t) :
    ∀ o ∈ n.kind.operands, o.2 < id := by
  intro o ho
  rcases (hw.valueFits hn ht).operand o ho with hv | ⟨_, hr⟩
  · exact lt_of_isValue_before hv
  · exact lt_of_isRelation_before hr

end Graph

end PlanSql

import Mathlib.Tactic.IntervalCases
import PlanSql.Proofs.Build.Operands

/-!
# Validity of built graphs

A graph is valid when its nodes refer to earlier nodes and store valid schemas, and in order when
collections and values stand where they are meant to. Builders look up every node they store but
one: `distinct` takes its input as it is given if it is told what to show. So a built graph is valid
and in order exactly as far as the inputs of its `distinct` nodes are.
-/

namespace PlanSql

/-- Whether a slot is meant for a collection: the input or a side of an operator on collections, or
what a column reads. -/
def Kind.takesCollection : Kind → Slot → Bool
  | .project .., slot | .filter .., slot | .groupBy .., slot | .mutate .., slot | .sort .., slot
  | .distinct .., slot | .slice .., slot | .summary .., slot | .join .., slot
  | .union .., slot => slot.isInput
  | .column _, _ => true
  | _, _ => false

namespace Graph

/-- An operand is what its slot is meant for. Rows and values can both be counted. -/
def OperandFits (g : Graph) (kind : Kind) (o : Operand) : Prop :=
  match kind with
  | .reduction .count _ _ => g.IsRelation o.2 ∨ g.IsValue o.2
  | _ => if kind.takesCollection o.1 then g.IsRelation o.2 else g.IsValue o.2

/-- Every operand is what its slot is meant for. -/
def InOrder (g : Graph) : Prop :=
  ∀ id n, g.node? id = some n → ∀ o ∈ n.kind.operands, g.OperandFits n.kind o

/-- What holds of the input of every `distinct` and its place. -/
def DistinctInputs (g : Graph) (P : NodeId → NodeId → Prop) : Prop :=
  ∀ id input fields shape, g.node? id = some ⟨.distinct input fields, shape⟩ → P id input

variable {g : Graph} {careful : Prop}

section Checks

variable {index : NodeId}

theorem checkOperands_eq_ok_iff {operands : List Operand} :
    checkOperands index operands = .ok () ↔ ∀ o ∈ operands, o.2 < index := by
  induction operands with
  | nil => simp [checkOperands, pure, Except.pure]
  | cons o rest ih =>
    obtain ⟨slot, child⟩ := o
    rw [checkOperands, List.forall_mem_cons, ← ih]
    by_cases h : index ≤ child
    · simp [h, throw, throwThe, MonadExceptOf.throw, Nat.not_lt.2 h]
    · simp [h, Nat.lt_of_not_le h]

theorem checkNode_eq_ok_iff {n : Node} :
    g.checkNode index n = .ok () ↔ (∀ o ∈ n.kind.operands, o.2 < index) ∧
      g.checkContents n = .ok () ∧ checkColumn index n = .ok () := by
  simp only [checkNode, Except.bind_eq_ok_iff, ← checkOperands_eq_ok_iff]
  constructor
  · rintro ⟨_, ho, _, hc, hcol⟩
    exact ⟨ho, hc, hcol⟩
  · rintro ⟨ho, hc, hcol⟩
    exact ⟨(), ho, (), hc, hcol⟩

theorem checkNodes_eq_ok_iff {nodes : List Node} :
    g.checkNodes index nodes = .ok () ↔
      ∀ i n, nodes[i]? = some n → g.checkNode (index + i) n = .ok () := by
  induction nodes generalizing index with
  | nil => simp [checkNodes, pure, Except.pure]
  | cons n rest ih =>
    simp only [checkNodes, Except.bind_eq_ok_iff, ih]
    constructor
    · rintro ⟨_, hn, hrest⟩ i m hm
      cases i with
      | zero =>
        obtain rfl : n = m := by simpa using hm
        exact hn
      | succ i => simpa [Nat.add_assoc, Nat.add_comm 1 i] using hrest i m (by simpa using hm)
    · intro h
      refine ⟨(), h 0 n rfl, fun i m hm => ?_⟩
      simpa [Nat.add_assoc, Nat.add_comm 1 i] using h (i + 1) m (by simpa using hm)

/-- A graph is valid exactly if each of its nodes is. -/
theorem validate_eq_ok_iff :
    g.validate = .ok () ↔ ∀ id n, g.node? id = some n → g.checkNode id n = .ok () := by
  simp only [validate, checkNodes_eq_ok_iff, Array.getElem?_toList, Nat.zero_add]
  rfl

end Checks

section Contents

variable {schema : Schema} {id : NodeId} {n : Node}

theorem valid_of_ofFields {fields : List Field} (h : Schema.ofFields fields = .ok schema) :
    schema.validate = .ok () := by
  obtain ⟨_, hv, hp⟩ := bind_ok h
  cases hp
  exact hv

theorem valid_of_fieldSchema {ids : List NodeId} (h : g.fieldSchema ids = .ok schema) :
    schema.validate = .ok () := by
  obtain ⟨fields, _, hs⟩ := bind_ok h
  exact valid_of_ofFields hs

/-- Every schema of a well-formed graph is valid. An operator that only drops or reorders rows, and
a union, have a schema that an earlier node has. -/
theorem WellFormed.schema_valid (hw : g.WellFormed careful) (hs : g.schemaOf id = .ok schema) :
    schema.validate = .ok () := by
  induction id using Nat.strongRecOn generalizing schema with
  | ind id ih =>
    have hearlier : ∀ x, (g.before id).schemaOf x = .ok schema → schema.validate = .ok () :=
      fun x hx => ih x (lt_of_isRelation_before ⟨schema, hx⟩)
        (Keeps.schemaOf x (before_extends g id) schema hx)
    obtain ⟨n, hn, hshape⟩ := schemaOf_eq_ok_iff.1 hs
    have hfits := hw.collectionFits hn hshape
    obtain ⟨kind, shape⟩ := n
    cases kind with
    | source table => exact hfits.2
    | project input fields | summary input fields => exact valid_of_fieldSchema hfits.2.2
    | filter input predicate => exact hearlier input hfits.1
    | groupBy input keys aggregates having => exact valid_of_fieldSchema hfits.2.2.1
    | mutate input keys mutates => exact valid_of_fieldSchema hfits.2
    | sort input keys => exact hearlier input hfits.1
    | distinct input fields => exact valid_of_fieldSchema hfits.2
    | slice input start stop step => exact hearlier input hfits
    | join left right predicate how fields =>
      obtain ⟨_, _, _, _, _, _, _, hschema⟩ := hfits
      exact valid_of_ofFields hschema
    | union left right unique => exact hearlier left hfits.1
    | _ => exact hfits.elim

theorem WellFormed.checkContents_ok (hw : g.WellFormed careful) (hn : g.node? id = some n) :
    g.checkContents n = .ok () := by
  have hfits := (hw id n hn).mono (before_extends g id)
  have hvalid : ∀ schema, n.shape = .collection schema → schema.validate = .ok () :=
    fun schema hs => hw.schema_valid (schemaOf_eq_ok_iff.2 ⟨n, hn, hs⟩)
  obtain ⟨kind, shape⟩ := n
  unfold checkContents
  split
  · next table schema hk hs =>
    obtain rfl : kind = .source table := hk
    obtain rfl : shape = .collection schema := hs
    obtain ⟨rfl, hv⟩ := hfits
    exact Except.bind_eq_ok_iff.2 ⟨(), hv, hv⟩
  · next schema hs _ => exact hvalid schema hs
  · next _ input function hk _ =>
    obtain rfl : kind = .userMap input function := hk
    cases shape with
    | collection schema => exact hfits.elim
    | sequence typed | scalar typed =>
      obtain ⟨_, f, hf, _⟩ := hfits
      exact Except.bind_eq_ok_iff.2 ⟨f, hf, rfl⟩
  · rfl

theorem WellFormed.checkColumn_ok (hw : g.WellFormed careful) (hn : g.node? id = some n) :
    checkColumn id n = .ok () := by
  have hfits := hw id n hn
  obtain ⟨kind, shape⟩ := n
  cases kind with
  | column collection =>
    cases shape with
    | collection schema => exact hfits.elim
    | sequence typed | scalar typed =>
      obtain ⟨_, name, _, _, hname, _⟩ := hfits
      simp [checkColumn, Node.typed?, hname, pure, Except.pure]
  | _ => rfl

end Contents

section Order

variable {kind : Kind} {o : Operand} {schema : Schema} {id : NodeId}

/-- What stands where a collection is meant to stand is an input, or is read by a column. -/
theorem mem_inputs_of_takesCollection (ho : o ∈ kind.operands)
    (ht : kind.takesCollection o.1 = true) : o.2 ∈ inputs kind ∨ kind = .column o.2 := by
  obtain ⟨slot, x⟩ := o
  cases kind with
  | column collection =>
    cases List.mem_singleton.1 ho
    exact .inr rfl
  | _ =>
    left
    simp_all only [Kind.operands, Kind.takesCollection, inputs, Operand.many, Operand.perhaps,
      List.mem_cons, List.mem_append, List.mem_map, Prod.mk.injEq, List.cons_append]
    grind [Slot.isInput]

theorem CollectionFits.input (h : g.CollectionFits careful schema kind) :
    ∀ x ∈ inputs kind, g.IsRelation x ∨ ∃ fields, kind = .distinct x fields := by
  intro x hx
  cases kind with
  | project | summary | groupBy | mutate =>
    obtain rfl := List.mem_singleton.1 hx
    exact .inl h.1
  | filter | sort =>
    obtain rfl := List.mem_singleton.1 hx
    exact .inl ⟨schema, h.1⟩
  | distinct input fields =>
    obtain rfl := List.mem_singleton.1 hx
    exact .inr ⟨fields, rfl⟩
  | slice =>
    obtain rfl := List.mem_singleton.1 hx
    exact .inl ⟨schema, h⟩
  | join left right predicate how fields =>
    obtain ⟨_, ls, rs, hl, hr, _⟩ := h
    simp only [inputs, List.mem_cons, List.not_mem_nil, or_false] at hx
    rcases hx with rfl | rfl
    · exact .inl ⟨ls, hl⟩
    · exact .inl ⟨rs, hr⟩
  | union left right unique =>
    simp only [inputs, List.mem_cons, List.not_mem_nil, or_false] at hx
    rcases hx with rfl | rfl
    · exact .inl ⟨schema, h.1⟩
    · exact .inl ⟨schema, h.2⟩
  | _ => exact absurd hx List.not_mem_nil

theorem CollectionFits.operandFits (h : g.CollectionFits careful schema kind) :
    ∀ o ∈ kind.operands, g.OperandFits kind o ∨
      o.1 = .input ∧ ∃ fields, kind = .distinct o.2 fields := by
  intro o ho
  have hcount : g.OperandFits kind o ↔
      if kind.takesCollection o.1 then g.IsRelation o.2 else g.IsValue o.2 := by
    cases kind with
    | reduction => exact h.elim
    | _ => rfl
  rw [hcount]
  by_cases ht : kind.takesCollection o.1 = true
  · rw [if_pos ht]
    rcases mem_inputs_of_takesCollection ho ht with hin | rfl
    · refine (h.input o.2 hin).imp_right fun ⟨fields, hk⟩ => ⟨?_, fields, hk⟩
      subst hk
      rcases List.mem_cons.1 ho with ho | ho
      · exact congrArg Prod.fst ho
      · obtain ⟨x, _, hx⟩ := List.mem_map.1 ho
        rw [← hx] at ht
        cases ht
    · exact h.elim
  · rw [if_neg ht]
    rcases h.operand o ho with ⟨hin, hslot, _⟩ | hv
    · exfalso
      apply ht
      cases kind with
      | source | column | reduction | element | binary | unary | math | text | datetime | window
      | cast | literal | userMap => exact absurd hin List.not_mem_nil
      | _ => exact hslot
    · exact .inl hv

theorem ValueFits.operandFits {typed : Typed} (h : g.ValueFits typed kind) :
    ∀ o ∈ kind.operands, g.OperandFits kind o := by
  intro o ho
  have hany := h.operand o ho
  cases kind with
  | column collection =>
    obtain rfl := List.mem_singleton.1 ho
    obtain ⟨schema, _, _, hs, _⟩ := h
    exact ⟨schema, hs⟩
  | reduction func input ddof =>
    cases func with
    | count =>
      rcases hany with hv | ⟨_, hr⟩
      · exact .inr hv
      · exact .inl hr
    | _ =>
      rcases hany with hv | ⟨hk | ⟨ddof, hk⟩, _⟩
      · exact hv
      · cases hk
      · cases hk
  | element | binary | unary | math | text | datetime | window | cast | literal | userMap =>
    rcases hany with hv | ⟨hk | ⟨ddof, hk⟩, _⟩
    · exact hv
    · cases hk
    · cases hk
  | _ => exact h.elim

theorem WellFormed.operandFits (hw : g.WellFormed careful) {n : Node} (hn : g.node? id = some n)
    (ho : o ∈ n.kind.operands) :
    (g.before id).OperandFits n.kind o ∨
      o.1 = .input ∧ ∃ fields, n.kind = .distinct o.2 fields := by
  cases hs : n.shape with
  | collection schema => exact (hw.collectionFits hn hs).operandFits o ho
  | sequence t | scalar t =>
    have ht : n.typed? = some t := by simp [Node.typed?, hs]
    exact .inl ((hw.valueFits hn ht).operandFits o ho)

theorem OperandFits.known (h : g.OperandFits kind o) :
    g.IsRelation o.2 ∨ g.IsValue o.2 := by
  unfold OperandFits at h
  split at h
  · exact h
  · split at h
    · exact .inl h
    · exact .inr h

theorem OperandFits.mono {g' : Graph} (hext : Extends g g') (h : g.OperandFits kind o) :
    g'.OperandFits kind o := by
  unfold OperandFits at h ⊢
  split at h
  · exact h.imp hext.isRelation hext.isValue
  · split at h
    · next hc => rw [if_pos hc]; exact hext.isRelation h
    · next hc => rw [if_neg hc]; exact hext.isValue h

theorem lt_of_operandFits_before (h : (g.before id).OperandFits kind o) : o.2 < id :=
  h.known.elim lt_of_isRelation_before lt_of_isValue_before

end Order

section Validity

theorem mem_children_iff {id child : NodeId} :
    child ∈ g.children id ↔ ∃ n slot, g.node? id = some n ∧ (slot, child) ∈ n.kind.operands := by
  unfold children
  cases g.node? id with
  | none => simp
  | some n => simp [Node.children]

/-- A well-formed graph is valid exactly if its nodes are ordered. -/
theorem WellFormed.validate_iff_children_lt (hw : g.WellFormed careful) :
    g.validate = .ok () ↔ ∀ id, ∀ child ∈ g.children id, child < id := by
  rw [validate_eq_ok_iff]
  constructor
  · intro h id child hchild
    obtain ⟨n, slot, hn, ho⟩ := mem_children_iff.1 hchild
    exact (checkNode_eq_ok_iff.1 (h id n hn)).1 _ ho
  · intro h id n hn
    refine checkNode_eq_ok_iff.2 ⟨fun o ho => ?_, hw.checkContents_ok hn, hw.checkColumn_ok hn⟩
    exact h id o.2 (mem_children_iff.2 ⟨n, o.1, hn, ho⟩)

/-- The nodes of a well-formed graph are ordered exactly if those that `distinct` takes are. -/
theorem WellFormed.children_lt_iff (hw : g.WellFormed careful) :
    (∀ id, ∀ child ∈ g.children id, child < id) ↔ g.DistinctInputs fun id input => input < id := by
  constructor
  · intro h id input fields shape hn
    exact h id input (mem_children_iff.2 ⟨_, .input, hn, .head _⟩)
  · intro h id child hchild
    obtain ⟨⟨kind, shape⟩, slot, hn, ho⟩ := mem_children_iff.1 hchild
    rcases hw.operandFits hn ho with hfits | ⟨_, fields, hk⟩
    · exact lt_of_operandFits_before hfits
    · obtain rfl : kind = .distinct child fields := hk
      exact h id child fields shape hn

theorem WellFormed.inOrder_iff (hw : g.WellFormed careful) :
    g.InOrder ↔ g.DistinctInputs fun _ input => g.isCollection input = true := by
  constructor
  · intro h id input fields shape hn
    exact isCollection_iff.2 (h id _ hn (.input, input) (.head _))
  · intro h id n hn o ho
    rcases hw.operandFits hn ho with hfits | ⟨hslot, fields, hk⟩
    · exact hfits.mono (before_extends g id)
    · obtain ⟨kind, shape⟩ := n
      obtain rfl : kind = .distinct o.2 fields := hk
      have hrel : g.IsRelation o.2 := isCollection_iff.1 (h id o.2 fields shape hn)
      simpa [OperandFits, Kind.takesCollection, hslot, Slot.isInput] using hrel

end Validity

end Graph

/-- Calls that name a collection whenever they show different rows make a valid graph in order. -/
theorem BuiltBy.valid {g : Graph} (h : BuiltBy (fun g c => c.NamesCollection g) g) :
    g.validate = .ok () ∧ g.InOrder := by
  have hw : g.WellFormed True := h.wellFormed fun _ _ _ hc => hc
  have hinput : ∀ id input fields shape, g.node? id = some ⟨.distinct input fields, shape⟩ →
      (g.before id).IsRelation input := by
    intro id input fields shape hn
    cases shape with
    | collection schema => exact (hw id _ hn).1 trivial
    | sequence t | scalar t => exact (hw id _ hn).elim
  constructor
  · rw [hw.validate_iff_children_lt, hw.children_lt_iff]
    exact fun id input fields shape hn =>
      Graph.lt_of_isRelation_before (hinput id input fields shape hn)
  · rw [hw.inOrder_iff]
    exact fun id input fields shape hn => Graph.isCollection_iff.2
      ((Graph.before_extends g id).isRelation (hinput id input fields shape hn))

/-- Whatever calls are made, the graph is valid exactly if its nodes are ordered, which they are
exactly if each `distinct` stands after its input; its operands are in order exactly if each input
of a `distinct` is a collection; and no call changes a node that is there. -/
theorem built_valid_iff {g : Graph} (h : Built g) :
    (g.validate = .ok () ↔ ∀ id, ∀ child ∈ g.children id, child < id) ∧
      (g.validate = .ok () ↔ g.DistinctInputs fun id input => input < id) ∧
      (g.InOrder ↔ g.DistinctInputs fun _ input => g.isCollection input = true) ∧
      ∀ (c : Call) (id : NodeId) (n : Node),
        g.node? id = some n → (c.after g).node? id = some n := by
  have hw := h.fits
  refine ⟨hw.validate_iff_children_lt, ?_, hw.inOrder_iff, fun c id n hn => ?_⟩
  · rw [hw.validate_iff_children_lt, hw.children_lt_iff]
  · have hgrows : Build.Grows False g (c.after g) := c.grows_after g fun hf => hf.elim
    exact hgrows.extension.node hn

/-- The different ids of a table. -/
def Call.distinctIds (input : NodeId) : List Call :=
  [.source "" "a" [⟨"id", .int64⟩], .column 0 "id", .distinct input [1]]

/-- The different ids of a table, taken from the table, make a valid graph in order. -/
theorem built_valid_distinctIds : (Call.run (Call.distinctIds 0)).validate = .ok () ∧
    (Call.run (Call.distinctIds 0)).InOrder := by
  have hb : Built (Call.run (Call.distinctIds 0)) :=
    BuiltBy.run ⟨trivial, trivial, trivial, trivial⟩
  have hone : ∀ id input fields shape,
      (Call.run (Call.distinctIds 0)).node? id = some ⟨.distinct input fields, shape⟩ →
      id = 2 ∧ input = 0 := by
    intro id input fields shape hn
    have hlt : id < 3 := Graph.lt_size_of_node? hn
    interval_cases id
    · cases hn
    · cases hn
    · cases hn; exact ⟨rfl, rfl⟩
  obtain ⟨_, hvalid, horder, _⟩ := built_valid_iff hb
  constructor
  · refine hvalid.2 fun id input fields shape hn => ?_
    obtain ⟨rfl, rfl⟩ := hone id input fields shape hn
    decide
  · refine horder.2 fun id input fields shape hn => ?_
    obtain ⟨rfl, rfl⟩ := hone id input fields shape hn
    decide

/-- The input of `distinct` may be a node that is not there, which makes the graph invalid. -/
theorem validate_lateDistinct : (Call.run (Call.distinctIds 7)).validate =
    .error (.inconsistent (.lateChild 2 7 "input")) := rfl

end PlanSql

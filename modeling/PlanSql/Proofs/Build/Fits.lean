import PlanSql.Graph.Build.Aggregates
import PlanSql.Graph.Build.Collections
import PlanSql.Graph.Build.Elements
import PlanSql.Proofs.Outcome

/-!
# Nodes that fit their operands

`Node.Fits` says what builders know of a node when they append it: its shape belongs to its kind,
its operands are collections and values where they have to be, and its type is the one that its
operands give rise to. Everything in it is a successful lookup, so it stays true when the graph
grows.
-/

namespace PlanSql

namespace Graph

variable {g : Graph} {id : NodeId} {g' : Graph}

/-- What can be looked up in `g` is found in `g'` too. -/
structure Extends (g g' : Graph) : Prop where
  node : ∀ {id : NodeId} {n : Node}, g.node? id = some n → g'.node? id = some n
  function : ∀ {id : FunctionId} {f : UserFunction},
    g.functions[id]? = some f → g'.functions[id]? = some f

namespace Extends

variable {g g' g'' : Graph}

theorem refl (g : Graph) : Extends g g := ⟨fun hn => hn, fun hf => hf⟩

theorem trans (h : Extends g g') (h' : Extends g' g'') : Extends g g'' :=
  ⟨fun hn => h'.node (h.node hn), fun hf => h'.function (h.function hf)⟩

end Extends

theorem node?_isSome_iff (g : Graph) (id : NodeId) : (g.node? id).isSome ↔ id < g.size := by
  simp [node?, size]

theorem lt_size_of_node? {n : Node} (h : g.node? id = some n) :
    id < g.size := (g.node?_isSome_iff id).1 (by simp [h])

theorem Extends.size_le (h : Extends g g') : g.size ≤ g'.size := by
  refine Nat.not_lt.1 fun hlt => ?_
  obtain ⟨n, hn⟩ := Option.isSome_iff_exists.1 ((g.node?_isSome_iff g'.size).2 hlt)
  exact Nat.lt_irrefl _ (lt_size_of_node? (h.node hn))

/-- A value has the type and names that its node has. -/
theorem typedOf_eq_ok_iff {t : Typed} :
    g.typedOf id = .ok t ↔ ∃ n, g.node? id = some n ∧ n.typed? = some t := by
  simp only [typedOf, Except.bind_eq_ok_iff, node_eq_ok_iff]
  refine exists_congr fun n => and_congr_right fun _ => ?_
  cases n.typed? <;> simp [pure, Except.pure]

theorem schemaOf_eq_ok_iff {s : Schema} :
    g.schemaOf id = .ok s ↔ ∃ n, g.node? id = some n ∧ n.shape = .collection s := by
  simp only [schemaOf, Except.bind_eq_ok_iff, node_eq_ok_iff]
  refine exists_congr fun n => and_congr_right fun _ => ?_
  cases hs : n.shape <;> simp [Node.schema?, hs, pure, Except.pure]

theorem dtypeOf_eq_ok_iff {dtype : DataType} :
    g.dtypeOf id = .ok dtype ↔ ∃ t, g.typedOf id = .ok t ∧ t.dtype = dtype := by
  simp only [dtypeOf, Except.bind_eq_ok_iff, pure, Except.pure, Except.ok.injEq]

theorem extends_push (g : Graph) (n : Node) : Extends g { g with nodes := g.nodes.push n } where
  node := fun h => by rw [node?_push_of_lt g n _ (lt_size_of_node? h)]; exact h
  function := fun h => h

/-- Lookups that succeed keep their result when the graph grows. -/
def Keeps {α : Type} (f : Graph → Except Error α) : Prop :=
  ∀ ⦃g g' : Graph⦄, Extends g g' → ∀ a, f g = .ok a → f g' = .ok a

namespace Keeps

variable {α β : Type}

theorem const (r : Except Error α) : Keeps fun _ => r := fun _ _ _ _ h => h

theorem bind {f : Graph → Except Error α} {k : α → Graph → Except Error β} (hf : Keeps f)
    (hk : ∀ a, Keeps (k a)) : Keeps fun g => f g >>= fun a => k a g := by
  intro g g' h b hb
  obtain ⟨a, ha, hka⟩ := bind_ok hb
  exact Except.bind_eq_ok_iff.2 ⟨a, hf h a ha, hk a h b hka⟩

theorem node (id : NodeId) : Keeps (·.node id) := by
  intro g g' h n hn
  exact node_eq_ok_iff.2 (h.node (node_eq_ok_iff.1 hn))

theorem typedOf (id : NodeId) : Keeps (·.typedOf id) := (node id).bind fun _ => const _

theorem dtypeOf (id : NodeId) : Keeps (·.dtypeOf id) := (typedOf id).bind fun _ => const _

theorem schemaOf (id : NodeId) : Keeps (·.schemaOf id) := (node id).bind fun _ => const _

theorem function (id : FunctionId) : Keeps (·.function id) := by
  intro g g' h f hf
  cases hfound : g.functions[id]? with
  | none => simp [Graph.function, hfound] at hf
  | some u => simpa [Graph.function, hfound, h.function hfound] using hf

theorem fieldOf (id : NodeId) : Keeps (·.fieldOf id) := (typedOf id).bind fun _ => const _

theorem fieldsOf (ids : List NodeId) : Keeps (·.fieldsOf ids) := by
  induction ids with
  | nil => exact const _
  | cons id rest ih => exact (fieldOf id).bind fun _ => ih.bind fun _ => const _

theorem fieldSchema (ids : List NodeId) : Keeps (·.fieldSchema ids) :=
  (fieldsOf ids).bind fun _ => const _

theorem dtypesOf (ids : List NodeId) : Keeps (·.dtypesOf ids) := by
  induction ids with
  | nil => exact const _
  | cons id rest ih => exact (dtypeOf id).bind fun _ => ih.bind fun _ => const _

theorem expectValues (ids : List NodeId) : Keeps (·.expectValues ids) := by
  induction ids with
  | nil => exact const _
  | cons id rest ih => exact (typedOf id).bind fun _ => ih

theorem expectComparable (dtype : DataType) (ids : List NodeId) :
    Keeps (·.expectComparable dtype ids) := by
  induction ids with
  | nil => exact const _
  | cons id rest ih => exact (dtypeOf id).bind fun _ => (const _).bind fun _ => ih

theorem expectBoolean (id : NodeId) : Keeps (·.expectBoolean id) :=
  (dtypeOf id).bind fun _ => const _

theorem expectConditions (subject : Option NodeId) (ids : List NodeId) :
    Keeps fun g => Build.expectConditions g subject ids := by
  induction ids with
  | nil => exact const _
  | cons id rest ih =>
    cases subject with
    | none => exact (expectBoolean id).bind fun _ => ih
    | some s =>
      exact (dtypeOf s).bind fun _ => (expectComparable _ _).bind fun _ => ih

theorem expectWindow (spec : WindowSpec) : Keeps fun g => Build.expectWindow g spec :=
  (expectValues _).bind fun _ => expectValues _

end Keeps

/-- The first result stays the same if every result stays the same. -/
theorem firstM_eq_ok {f f' : NodeId → Except Error (Option NodeId)}
    (hf : ∀ id r, f id = .ok r → f' id = .ok r) (ids : List NodeId) (r : Option NodeId)
    (hr : firstM f ids = .ok r) : firstM f' ids = .ok r := by
  induction ids with
  | nil => exact hr
  | cons id rest ih =>
    obtain ⟨found, hfound, hrest⟩ := bind_ok hr
    refine Except.bind_eq_ok_iff.2 ⟨found, hf id found hfound, ?_⟩
    cases found with
    | none => exact ih hrest
    | some _ => exact hrest

/-- A search for a collection that succeeds keeps its result when the graph grows and when it may go
deeper. -/
theorem Extends.firstCollection (h : Extends g g') {depth depth' : Nat} (hd : depth ≤ depth')
    (id : NodeId) (r : Option NodeId) (hr : g.firstCollection depth id = .ok r) :
    g'.firstCollection depth' id = .ok r := by
  induction depth generalizing depth' id r with
  | zero => simp [Graph.firstCollection] at hr
  | succ depth ih =>
    obtain ⟨depth', rfl⟩ : ∃ k, depth' = k + 1 := ⟨depth' - 1, by omega⟩
    obtain ⟨n, hn, hrest⟩ := bind_ok hr
    refine Except.bind_eq_ok_iff.2 ⟨n, Keeps.node id h n hn, ?_⟩
    split at hrest
    · next hc => rw [if_pos hc]; exact hrest
    · next hc =>
      rw [if_neg hc]
      exact firstM_eq_ok (fun id r => ih (Nat.le_of_succ_le_succ hd) id r) _ r hrest

theorem Keeps.owningCollection (id : NodeId) : Keeps (·.owningCollection id) := by
  intro g g' h c hc
  obtain ⟨found, hfound, hrest⟩ := bind_ok hc
  exact Except.bind_eq_ok_iff.2
    ⟨found, h.firstCollection (Nat.succ_le_succ h.size_le) id found hfound, hrest⟩

/-- Something is a value. -/
def IsValue (g : Graph) (id : NodeId) : Prop := ∃ dtype, g.dtypeOf id = .ok dtype

def IsRelation (g : Graph) (id : NodeId) : Prop := ∃ schema, g.schemaOf id = .ok schema

theorem isCollection_iff : g.isCollection id = true ↔ g.IsRelation id := by
  simp only [IsRelation, schemaOf_eq_ok_iff, isCollection, Option.any_eq_true]
  constructor
  · rintro ⟨n, hn, hc⟩
    cases hs : n.shape with
    | collection schema => exact ⟨schema, n, hn, hs⟩
    | _ => simp [Node.isCollection, hs] at hc
  · rintro ⟨schema, n, hn, hs⟩
    exact ⟨n, hn, by simp [Node.isCollection, hs]⟩

/-- The right side of a membership test: values that can be compared with values of type `dtype`, or
a value that reads from a collection. -/
def MembershipFits (g : Graph) (dtype : DataType) : Membership → Prop
  | .literals ids => g.expectComparable dtype ids = .ok ()
  | .subquery id => g.expectComparable dtype [id] = .ok () ∧ ∃ c, g.owningCollection id = .ok c

/-- The operands of a test, a choice or buckets give rise to values of type `dtype`. -/
def ElementFits (g : Graph) (dtype : DataType) : ElementOp → Prop
  | .isNull input | .notNull input => g.IsValue input ∧ dtype = .boolean
  | .fillNull input value =>
    g.dtypeOf input = .ok dtype ∧ ∃ other, g.dtypeOf value = .ok other ∧ dtype.accepts other
  | .isIn input values | .notIn input values =>
    dtype = .boolean ∧ ∃ t, g.dtypeOf input = .ok t ∧ g.MembershipFits t values
  | .between input left right _ =>
    dtype = .boolean ∧ (left.isSome ∨ right.isSome) ∧
      ∃ t, g.dtypeOf input = .ok t ∧ g.expectComparable t (left.toList ++ right.toList) = .ok ()
  | .ifElse condition consequent alternative =>
    g.dtypeOf condition = .ok .boolean ∧
      ∃ ts, g.dtypesOf [consequent, alternative] = .ok ts ∧ DataType.common ts = .ok dtype
  | .switch subject conditions results fallback =>
    conditions ≠ [] ∧ conditions.length = results.length ∧
      Build.expectConditions g subject conditions = .ok () ∧
      ∃ ts, g.dtypesOf (results ++ fallback.toList) = .ok ts ∧ DataType.common ts = .ok dtype
  | .cut input cut =>
    (∃ t, g.dtypeOf input = .ok t ∧ Build.expectBins t cut.bins = .ok ()) ∧
      2 ≤ cut.bins.length ∧
      cut.labels.length =
        cut.bins.length - 1 + cut.includeUnder.toNat + cut.includeOver.toNat ∧
      Build.labelType cut.labels = .ok dtype

/-- The operands of a window function give rise to values of type `dtype`. -/
def WindowFits (g : Graph) (dtype : DataType) (op : WindowOp) : Prop :=
  Build.expectWindow g op.spec = .ok () ∧
    match op with
    | .cumulative func input _ _ =>
      ∃ t, g.dtypeOf input = .ok t ∧ Build.cumulativeType func t = .ok dtype
    | .rank func spec => dtype = (if func = .percentRank then .float64 else .int64) ∧
      (spec.orderBy = [] → func = .rowNumber)
    | .shift _ input _ default _ => g.dtypeOf input = .ok dtype ∧
      ∀ t, default.bind Value.dtype? = some t → ∃ top, DataType.common [dtype, t] = .ok top

/-- The operands of a value of the given kind give rise to its type. Its present name does not
matter, so renaming keeps this. -/
def ValueFits (g : Graph) (typed : Typed) : Kind → Prop
  | .element op => g.ElementFits typed.dtype op
  | .binary op lhs rhs =>
    ∃ l r, g.dtypeOf lhs = .ok l ∧ g.dtypeOf rhs = .ok r ∧
      Build.binaryType op l r = .ok typed.dtype
  | .unary op input =>
    g.dtypeOf input = .ok typed.dtype ∧ Build.unaryAllows op typed.dtype = true
  | .math func input =>
    ∃ t, g.dtypeOf input = .ok t ∧ t.isNumber ∧ typed.dtype = Build.mathType func t
  | .text input op => g.dtypeOf input = .ok .string ∧ typed.dtype = Build.textType op
  | .datetime input _ => g.dtypeOf input = .ok .datetime ∧ typed.dtype = .int64
  | .reduction func input _ =>
    (g.IsRelation input ∧ func = .count ∧ typed.dtype = .int64) ∨
      ∃ t, g.dtypeOf input = .ok t ∧ Build.reductionType func t = .ok typed.dtype
  | .window op => g.WindowFits typed.dtype op
  | .cast input =>
    g.dtypeOf input = .ok typed.sourceDtype ∧ typed.sourceDtype ≠ typed.dtype
  | .column collection =>
    ∃ schema name field, g.schemaOf collection = .ok schema ∧ typed.sourceName = some name ∧
      schema.find? name = some field ∧ field.dtype = typed.sourceDtype
  | .literal value => ∀ t, value.dtype? = some t → typed.dtype = t
  | .userMap input function =>
    g.IsValue input ∧ ∃ f, g.function function = .ok f ∧ f.output = typed.dtype
  | _ => False

/-- The operands of a collection of the given kind give rise to its schema. What a collection of
different rows is made from is known only if builders are called carefully. -/
def CollectionFits (g : Graph) (careful : Prop) (schema : Schema) : Kind → Prop
  | .source table => table.schema = schema ∧ schema.validate = .ok ()
  | .project input fields | .summary input fields =>
    g.IsRelation input ∧ fields ≠ [] ∧ g.fieldSchema fields = .ok schema
  | .filter input predicate =>
    g.schemaOf input = .ok schema ∧ g.dtypeOf predicate = .ok .boolean
  | .groupBy input keys aggregates having =>
    g.IsRelation input ∧ keys ≠ [] ∧ g.fieldSchema (keys ++ aggregates) = .ok schema ∧
      ∀ predicate ∈ having, g.dtypeOf predicate = .ok .boolean
  | .mutate input keys mutates =>
    g.IsRelation input ∧ g.fieldSchema (keys ++ mutates) = .ok schema
  | .sort input keys =>
    g.schemaOf input = .ok schema ∧ keys ≠ [] ∧
      g.expectValues (keys.map SortKey.expr) = .ok ()
  | .distinct input fields => (careful → g.IsRelation input) ∧ g.fieldSchema fields = .ok schema
  | .slice input _ _ _ => g.schemaOf input = .ok schema
  | .join left right predicate _ fields =>
    left ≠ right ∧ ∃ ls rs, g.schemaOf left = .ok ls ∧ g.schemaOf right = .ok rs ∧
      (∀ p ∈ predicate, g.dtypeOf p = .ok .boolean) ∧
      fields = Build.joinFields .left "_x" ls rs ++ Build.joinFields .right "_y" rs ls ∧
      Schema.ofFields (fields.map fun f => ⟨f.name, f.dtype⟩) = .ok schema
  | .union left right _ => g.schemaOf left = .ok schema ∧ g.schemaOf right = .ok schema
  | _ => False

section Mono

variable {g g' : Graph} {dtype : DataType} {kind : Kind} (h : Extends g g')

include h

theorem Extends.isValue (hv : g.IsValue id) : g'.IsValue id :=
  hv.imp fun t ht => Keeps.dtypeOf id h t ht

theorem Extends.isRelation (hr : g.IsRelation id) : g'.IsRelation id :=
  hr.imp fun s hs => Keeps.schemaOf id h s hs

theorem MembershipFits.mono {values : Membership}
    (hm : g.MembershipFits dtype values) : g'.MembershipFits dtype values := by
  cases values with
  | literals ids => exact Keeps.expectComparable _ _ h _ hm
  | subquery id =>
    exact ⟨Keeps.expectComparable _ _ h _ hm.1, hm.2.imp fun c hc =>
      Keeps.owningCollection _ h c hc⟩

theorem ElementFits.mono {op : ElementOp} (he : g.ElementFits dtype op) :
    g'.ElementFits dtype op := by
  cases op with
  | isNull input | notNull input => exact he.imp_left h.isValue
  | fillNull input value =>
    obtain ⟨hi, t, ht, ha⟩ := he
    exact ⟨Keeps.dtypeOf _ h _ hi, t, Keeps.dtypeOf _ h _ ht, ha⟩
  | isIn input values | notIn input values =>
    obtain ⟨hb, t, ht, hm⟩ := he
    exact ⟨hb, t, Keeps.dtypeOf _ h _ ht, hm.mono h⟩
  | between input left right inclusive =>
    obtain ⟨hb, hs, t, ht, hc⟩ := he
    exact ⟨hb, hs, t, Keeps.dtypeOf _ h _ ht, Keeps.expectComparable _ _ h _ hc⟩
  | ifElse condition consequent alternative =>
    obtain ⟨hc, ts, hts, ht⟩ := he
    exact ⟨Keeps.dtypeOf _ h _ hc, ts, Keeps.dtypesOf _ h _ hts, ht⟩
  | switch subject conditions results fallback =>
    obtain ⟨hn, hl, hc, ts, hts, ht⟩ := he
    exact ⟨hn, hl, Keeps.expectConditions _ _ h _ hc, ts, Keeps.dtypesOf _ h _ hts, ht⟩
  | cut input cut =>
    obtain ⟨⟨t, ht, hb⟩, hrest⟩ := he
    exact ⟨⟨t, Keeps.dtypeOf _ h _ ht, hb⟩, hrest⟩

theorem WindowFits.mono {op : WindowOp} (hw : g.WindowFits dtype op) :
    g'.WindowFits dtype op := by
  refine ⟨Keeps.expectWindow _ h _ hw.1, ?_⟩
  cases op with
  | cumulative func input unique spec =>
    obtain ⟨t, ht, hf⟩ := hw.2
    exact ⟨t, Keeps.dtypeOf _ h _ ht, hf⟩
  | rank func spec => exact hw.2
  | shift func input offset default spec => exact ⟨Keeps.dtypeOf _ h _ hw.2.1, hw.2.2⟩

theorem ValueFits.mono {typed : Typed} (hv : g.ValueFits typed kind) :
    g'.ValueFits typed kind := by
  cases kind with
  | element op => exact ElementFits.mono h hv
  | binary op lhs rhs =>
    obtain ⟨l, r, hl, hr, ht⟩ := hv
    exact ⟨l, r, Keeps.dtypeOf _ h _ hl, Keeps.dtypeOf _ h _ hr, ht⟩
  | unary op input => exact ⟨Keeps.dtypeOf _ h _ hv.1, hv.2⟩
  | math func input =>
    obtain ⟨t, ht, hn⟩ := hv
    exact ⟨t, Keeps.dtypeOf _ h _ ht, hn⟩
  | text input op | datetime input part => exact ⟨Keeps.dtypeOf _ h _ hv.1, hv.2⟩
  | reduction func input ddof =>
    obtain ⟨hr, hf⟩ | ⟨t, ht, hf⟩ := hv
    · exact .inl ⟨h.isRelation hr, hf⟩
    · exact .inr ⟨t, Keeps.dtypeOf _ h _ ht, hf⟩
  | window op => exact WindowFits.mono h hv
  | cast input => exact ⟨Keeps.dtypeOf _ h _ hv.1, hv.2⟩
  | column collection =>
    obtain ⟨schema, name, field, hs, hrest⟩ := hv
    exact ⟨schema, name, field, Keeps.schemaOf _ h _ hs, hrest⟩
  | literal value => exact hv
  | userMap input function =>
    obtain ⟨hi, f, hf, ho⟩ := hv
    exact ⟨h.isValue hi, f, Keeps.function _ h _ hf, ho⟩
  | _ => exact hv.elim

theorem CollectionFits.mono {careful : Prop} {schema : Schema}
    (hc : g.CollectionFits careful schema kind) : g'.CollectionFits careful schema kind := by
  cases kind with
  | source table => exact hc
  | project input fields | summary input fields =>
    exact ⟨h.isRelation hc.1, hc.2.1, Keeps.fieldSchema _ h _ hc.2.2⟩
  | filter input predicate => exact ⟨Keeps.schemaOf _ h _ hc.1, Keeps.dtypeOf _ h _ hc.2⟩
  | groupBy input keys aggregates having =>
    obtain ⟨hi, hk, hs, hp⟩ := hc
    exact ⟨h.isRelation hi, hk, Keeps.fieldSchema _ h _ hs,
      fun p hm => Keeps.dtypeOf _ h _ (hp p hm)⟩
  | mutate input keys mutates => exact ⟨h.isRelation hc.1, Keeps.fieldSchema _ h _ hc.2⟩
  | sort input keys =>
    exact ⟨Keeps.schemaOf _ h _ hc.1, hc.2.1, Keeps.expectValues _ h _ hc.2.2⟩
  | distinct input fields =>
    exact ⟨fun hcareful => h.isRelation (hc.1 hcareful), Keeps.fieldSchema _ h _ hc.2⟩
  | slice input start stop step => exact Keeps.schemaOf _ h _ hc
  | join left right predicate how fields =>
    obtain ⟨hne, ls, rs, hl, hr, hp, hrest⟩ := hc
    exact ⟨hne, ls, rs, Keeps.schemaOf _ h _ hl, Keeps.schemaOf _ h _ hr,
      fun p hm => Keeps.dtypeOf _ h _ (hp p hm), hrest⟩
  | union left right unique => exact ⟨Keeps.schemaOf _ h _ hc.1, Keeps.schemaOf _ h _ hc.2⟩
  | _ => exact hc.elim

end Mono

end Graph

def Node.Fits (n : Node) (g : Graph) (careful : Prop) : Prop :=
  match n.shape with
  | .collection schema => g.CollectionFits careful schema n.kind
  | .sequence typed | .scalar typed => g.ValueFits typed n.kind

theorem Node.Fits.mono {n : Node} {g g' : Graph} {careful : Prop} (h : g.Extends g')
    (hn : n.Fits g careful) : n.Fits g' careful := by
  obtain ⟨kind, shape⟩ := n
  cases shape with
  | collection schema => exact Graph.CollectionFits.mono h hn
  | sequence typed | scalar typed => exact Graph.ValueFits.mono h hn

end PlanSql

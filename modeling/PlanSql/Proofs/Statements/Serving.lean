import PlanSql.Proofs.Compile.Freshness
import PlanSql.Proofs.Compile.Tracing
import PlanSql.Proofs.Reading.Statements
import PlanSql.Proofs.Statements.Columns

/-!
# Levels that name only what they select from

A level names columns by the labels of what is visible on it. What is visible are parts of the table
expression that the level selects from, where the conditions of joins read only parts of their joins
and share no volatile column, and where the joins that a walk from the root of a level meets are
parts of the collection that the level is over. All that is kept for later, as a join ahead of a
level or as the expression of a column, is then right wherever it is used.
-/

namespace PlanSql

namespace Sql

/-- The table expressions that are joined, with their labels and columns, where `known` gives the
columns of other levels. -/
def Source.items (known : LevelId → List (Option String)) :
    Source → List (Alias × List (Option String))
  | .table stored label => [(label, stored.schema.names.map some)]
  | .derived level label => [(label, known level)]
  | .union left _ label => [(label, known left)]
  | .join left _ right _ => left.items known ++ right.items known

/-- The columns that a level names. -/
def Query.references (q : Query) : List (Alias × String) :=
  (Reading.levelExprs q).flatMap Expr.references

def Source.label? : Source → Option Alias
  | .table _ label | .derived _ label | .union _ _ label => some label
  | .join .. => none

end Sql

open PlanSql.Sql

namespace Graph

variable {n : Node}

/-- The collection at the bottom of operators that take one input each. -/
inductive Base (g : Graph) : NodeId → NodeId → Prop
  | here {id : NodeId} {n : Node} : g.node? id = some n → (∀ x, inputs n.kind ≠ [x]) → Base g id id
  | step {id input base : NodeId} {n : Node} : g.node? id = some n → inputs n.kind = [input] →
    Base g input base → Base g id base

/-- What is compiled as a level of its own in a statement for `root`. -/
def LevelRoot (g : Graph) (root id : NodeId) : Prop :=
  id = root ∨ g.Reach root id ∧ g.isCollection id = true ∨
    ∃ x n, g.Reach root x ∧ g.node? x = some n ∧ n.kind.subquery? = some id

def LevelOver (g : Graph) (id collection : NodeId) : Prop :=
  if g.isCollection id then collection = id else g.owningCollection id = .ok collection

/-- The joins that a walk from the root of a level meets are parts of the collection at the bottom
of what the level is over. -/
def Focused (g : Graph) (root : NodeId) : Prop :=
  ∀ id collection, g.LevelRoot root id → g.LevelOver id collection →
    ∃ base, g.Base collection base ∧ ∀ k, g.IsJoin k → g.Met id k → g.Part base k

variable {g : Graph} {id base : NodeId}

theorem Base.input {input : NodeId} (h : g.Base id base) (hn : g.node? id = some n)
    (hi : inputs n.kind = [input]) : g.Base input base := by
  cases h with
  | here hn' hno =>
    cases hn.symm.trans hn'
    exact absurd hi (hno input)
  | step hn' hi' h =>
    cases hn.symm.trans hn'
    obtain ⟨rfl, _⟩ := List.cons.inj (hi.symm.trans hi')
    exact h

theorem Base.eq (h : g.Base id base) (hn : g.node? id = some n) (hi : ∀ x, inputs n.kind ≠ [x]) :
    base = id := by
  cases h with
  | here => rfl
  | step hn' hi' _ =>
    cases hn.symm.trans hn'
    exact absurd hi' (hi _)

theorem Part.isJoin {k : NodeId} (h : g.Part id k) (hk : g.IsJoin k) : g.IsJoin id := by
  cases h with
  | refl => exact hk
  | left hn _ | right hn _ => exact ⟨_, _, _, _, _, _, hn⟩

/-- What a filter, a slice or a sort shows is what its input shows. -/
theorem Exports.input {input : NodeId} {names : List String} (h : g.Exports id names)
    (hn : g.node? id = some n) (hp : n.kind.passThrough? = some input) :
    g.Exports input names := by
  cases h with
  | source hn' | join hn' | union hn' =>
    cases hn.symm.trans hn'
    cases hp
  | through hn' hp' h =>
    cases hn.symm.trans hn'
    cases hp.symm.trans hp'
    exact h
  | lists hn' hk =>
    cases hn.symm.trans hn'
    rw [Kind.passThrough?_of_lists hk] at hp
    cases hp

end Graph

namespace Compile

open PlanSql.Reading (conditions clauseExprs levelExprs levelExprs_of_close)

variable {ahead : JoinAhead} {visible : Visible} {source : Source} {id : NodeId} {label : Alias}
  {e : Expr} {distinct : Bool} {c : Clauses Expr Source} {aliases : Aliases}

section Fields

variable {g : Graph} {careful : Prop} {visible visible' : Visible} {id x : NodeId}
  {field name : String}

theorem Resolves.mem_names (hw : g.WellFormed careful) (h : Resolves g visible id field x name)
    {schema : Schema} (hs : g.schemaOf id = .ok schema) (hf : field ∈ schema.names) :
    ∃ schema', g.schemaOf x = .ok schema' ∧ name ∈ schema'.names := by
  induction h generalizing schema with
  | here => exact ⟨schema, hs, hf⟩
  | @join _ left right _ _ _ fields _ _ _ f _ hn hfind _ ih =>
    obtain ⟨ls, rs, hl, hr, rfl, _⟩ := hw.join_schema hn hs
    have hsource : ∀ {side suffix own other}, f ∈ Build.joinFields side suffix own other →
        f.source ∈ own.names := by
      intro side suffix own other hmem
      rw [← Build.map_source_joinFields side suffix own other]
      exact List.mem_map_of_mem hmem
    rcases List.mem_append.1 (List.mem_of_find?_eq_some hfind) with hmem | hmem
    · rw [(Build.source_mem_of_mem_joinFields hmem).1] at ih
      exact ih hl (hsource hmem)
    · rw [(Build.source_mem_of_mem_joinFields hmem).1] at ih
      exact ih hr (hsource hmem)
  | through _ hn hp _ ih => exact ih (hw.through_schema hn hp hs) hf

theorem isColumn_mem_names (hw : g.WellFormed careful) {collection : NodeId} {t : Typed}
    {source : String} (h : g.IsColumn id collection t source) :
    ∃ schema, g.schemaOf collection = .ok schema ∧ source ∈ schema.names := by
  obtain ⟨n, hn, hkind, ht⟩ := h.node
  have hfits := hw.valueFits hn ht
  rw [hkind] at hfits
  obtain ⟨schema, name, f, hschema, hname, hfind, _⟩ := hfits
  cases h.source.symm.trans hname
  refine ⟨schema, Graph.Keeps.schemaOf _ (Graph.before_extends g id) _ hschema, ?_⟩
  have hsome : (schema.find? source).isSome := by rw [hfind]; rfl
  rw [Schema.find?, List.find?_isSome] at hsome
  obtain ⟨f', hf', hname⟩ := hsome
  rw [← beq_iff_eq.1 hname]
  exact List.mem_map_of_mem hf'

/-- A grounded collection is named by something that grounds it, even if more is visible. -/
theorem Resolves.seen_of_grounded (h : Resolves g visible id field x name) (hno : NoJoins g visible)
    (hg : Grounded g visible' id) (hv : ∀ y, (visible'.lookup y).isSome →
      (visible.lookup y).isSome) :
    (visible'.lookup x).isSome := by
  induction h with
  | here hseen =>
    cases hg with
    | seen hseen' => exact hseen'
    | join hn _ _ => exact absurd ⟨_, _, _, _, _, _, hn⟩ (hno _ hseen)
  | join hnone hn _ _ ih =>
    cases hg with
    | seen hseen =>
      have hseen' := hv _ hseen
      rw [hnone] at hseen'
      cases hseen'
    | join hn' hl hr =>
      cases hn.symm.trans hn'
      split at ih
      · exact ih hl
      · exact ih hr
  | through hnone hn hp _ _ =>
    cases hg with
    | seen hseen =>
      have hseen' := hv _ hseen
      rw [hnone] at hseen'
      cases hseen'
    | join hn' _ _ =>
      cases hn.symm.trans hn'
      cases hp

end Fields

section Bears

/-- A table expression has a part under the label `label` that shows the columns of a collection
below `top`. -/
inductive Bears (g : Graph) (top : NodeId) (levels : Array Query) : Source → NodeId → Alias → Prop
  | leaf {source : Source} {id : NodeId} {label : Alias} : g.Reach top id →
    source.label? = some label → Displays g levels source id → Bears g top levels source id label
  | left {left right : Source} {how : JoinKind} {on : Option Expr} {id : NodeId} {label : Alias} :
    Bears g top levels left id label → Bears g top levels (.join left how right on) id label
  | right {left right : Source} {how : JoinKind} {on : Option Expr} {id : NodeId} {label : Alias} :
    Bears g top levels right id label → Bears g top levels (.join left how right on) id label

/-- The column is a field of a collection that a part of the table expression stands for. -/
def Offers (g : Graph) (top : NodeId) (levels : Array Query) (source : Source)
    (r : Alias × String) : Prop :=
  ∃ x schema, Bears g top levels source x r.1 ∧ g.schemaOf x = .ok schema ∧ r.2 ∈ schema.names

variable {g : Graph} {top id x : NodeId} {levels levels' : Array Query} {source source' : Source}
  {label : Alias} {r : Alias × String}

theorem Bears.mono (h : Bears g top levels source id label)
    (hl : levels.toList <+: levels'.toList) :
    Bears g top levels' source id label := by
  induction h with
  | leaf hreach hlabel h => exact .leaf hreach hlabel (h.mono hl)
  | left _ ih => exact .left ih
  | right _ ih => exact .right ih

theorem Offers.mono (h : Offers g top levels source r) (hl : levels.toList <+: levels'.toList) :
    Offers g top levels' source r := by
  obtain ⟨x, schema, hx, hschema⟩ := h
  exact ⟨x, schema, hx.mono hl, hschema⟩

theorem Offers.imp (h : Offers g top levels source r)
    (hsub : ∀ x label, Bears g top levels source x label → Bears g top levels source' x label) :
    Offers g top levels source' r := by
  obtain ⟨x, schema, hx, hschema⟩ := h
  exact ⟨x, schema, hsub x r.1 hx, hschema⟩

theorem Presents.mem_items {names : List String} (h : Presents levels source names)
    (hlabel : source.label? = some label) :
    (label, names.map some) ∈ source.items (Statement.columnsOf levels) := by
  cases h with
  | table =>
    cases hlabel
    exact List.mem_singleton_self _
  | derived _ hnames | union _ hnames =>
    cases hlabel
    rw [Source.items, hnames]
    exact List.mem_singleton_self _
  | join => cases hlabel

/-- A part of a table expression is one of its items. -/
theorem Bears.mem_items (h : Bears g top levels source id label) : g.Reach top id ∧ ∃ names,
    g.Exports id names ∧ (label, names.map some) ∈ source.items (Statement.columnsOf levels) := by
  induction h with
  | leaf hreach hlabel h =>
    obtain ⟨names, hexports, hnames⟩ := h
    exact ⟨hreach, names, hexports, hnames.mem_items hlabel⟩
  | left _ ih =>
    obtain ⟨hreach, names, hexports, hmem⟩ := ih
    exact ⟨hreach, names, hexports, List.mem_append_left _ hmem⟩
  | right _ ih =>
    obtain ⟨hreach, names, hexports, hmem⟩ := ih
    exact ⟨hreach, names, hexports, List.mem_append_right _ hmem⟩

theorem Bears.asSide (h : Bears g top levels ahead.source id label) :
    Bears g top levels ahead.asSide id label := by
  obtain ⟨source, on, visible⟩ := ahead
  cases h with
  | leaf hreach hlabel h =>
    cases source with
    | join => cases hlabel
    | _ => exact .leaf hreach hlabel h
  | left h => exact .left h
  | right h => exact .right h

/-- A table expression that makes only its own collection visible is no join. -/
theorem Reveals.label? (h : Reveals g source id [(id, label)]) :
    source.label? = some label ∧ conditions source = [] := by
  have hno := h.noJoins id (by simp)
  generalize hv : [(id, label)] = visible at h
  cases h with
  | table | union | derived =>
    obtain ⟨_, rfl⟩ := Prod.mk.inj (List.cons.inj hv).1
    exact ⟨rfl, rfl⟩
  | join hn => exact absurd ⟨_, _, _, _, _, _, hn⟩ hno

/-- A column that names a field of something that the table expression has is one of its columns. -/
theorem Resolves.offers {careful : Prop} (hw : g.WellFormed careful)
    {collection : NodeId} {t : Typed} {field name : String}
    (hcol : g.IsColumn id collection t field)
    (hres : Resolves g visible collection field x name)
    (hbears : Bears g top levels source x label) : Offers g top levels source (label, name) := by
  obtain ⟨schema, hschema, hmem⟩ := isColumn_mem_names hw hcol
  obtain ⟨schema', hschema', hmem'⟩ := hres.mem_names hw hschema hmem
  exact ⟨x, schema', hbears, hschema', hmem'⟩

theorem names_column {P : Alias × String → Prop} {name : String} {source target : DataType}
    (h : P (label, name)) : Names P (converted (.column label name) source target) := by
  rw [names_converted]
  intro r hr
  obtain rfl := List.mem_singleton.1 hr
  exact h

end Bears

section Offered

variable {id : NodeId} {ahead : JoinAhead}

/-- Kept columns name only columns in `P`. -/
def Referring (g : Graph) (P : Alias × String → Prop) (s : State) : Prop :=
  ∀ ⦃id e⦄, s.context.fragments.lookup id = some e → ∀ collection t source,
    g.IsColumn id collection t source → Names P e

/-- The two sides of a join that is kept are kept as well if they are joins. -/
def Linked (g : Graph) (joins : List (NodeId × JoinAhead)) (id : NodeId) (source : Source) : Prop :=
  ∃ left right predicate how fields shape l r,
    g.node? id = some ⟨.join left right predicate how fields, shape⟩ ∧ source = .join l how r none ∧
      (g.IsJoin left → ∃ ahead, joins.lookup left = some ahead ∧ l = ahead.asSide) ∧
      (g.IsJoin right → ∃ ahead, joins.lookup right = some ahead ∧ r = ahead.asSide)

/-- What a table expression makes visible are parts of it, and its conditions name only its
columns. -/
structure Offering (g : Graph) (top : NodeId) (levels : Array Query) (source : Source)
    (visible : Visible) (on : Option Expr) : Prop where
  visible : ∀ p ∈ visible, Bears g top levels source p.1 p.2
  exprs : ∀ e ∈ conditions source ++ on.toList, Names (Offers g top levels source) e

/-- Joins that are kept and levels that are finished name only columns of what they select from. -/
structure Offered (g : Graph) (top : NodeId) (s : State) : Prop where
  join : ∀ {id ahead}, s.joins.lookup id = some ahead →
    Offering g top s.levels ahead.source ahead.visible ahead.on
  linked : ∀ {id ahead}, s.joins.lookup id = some ahead → Linked g s.joins id ahead.source
  level : ∀ q ∈ s.levels, ∀ e ∈ levelExprs q, Names (Offers g top s.levels q.source) e

variable {g : Graph} {top : NodeId} {s s' : State}

theorem Offering.mono {levels levels' : Array Query}
    {on : Option Expr} (h : Offering g top levels source visible on)
    (hl : levels.toList <+: levels'.toList) : Offering g top levels' source visible on :=
  ⟨fun p hp => (h.visible p hp).mono hl, fun e he r hr => (h.exprs e he r hr).mono hl⟩

/-- A table that is no join offers itself. -/
theorem Offering.leaf {levels : Array Query}
    (h : Bears g top levels source id label) (hnone : conditions source = []) :
    Offering g top levels source [(id, label)] none := by
  constructor
  · intro p hp
    obtain rfl := List.mem_singleton.1 hp
    exact h
  · rw [hnone]
    exact fun e he => (by cases he)

theorem Offered.congr (h : Offered g top s) (hj : s'.joins = s.joins) (hl : s'.levels = s.levels) :
    Offered g top s' := by
  constructor
  · rw [hj, hl]
    exact h.join
  · rw [hj]
    exact h.linked
  · rw [hl]
    exact h.level

/-- A level that names only columns of what it selects from is finished. -/
theorem Offered.push {q : Query} (h : Offered g top s)
    (hq : ∀ e ∈ levelExprs q, Names (Offers g top s.levels q.source) e) (hj : s'.joins = s.joins)
    (hl : s'.levels = s.levels.push q) : Offered g top s' := by
  constructor
  · rw [hj, hl]
    exact fun hx => (h.join hx).mono (prefix_push _ _)
  · rw [hj]
    exact h.linked
  · rw [hl]
    intro q' hq' e he r hr
    rcases Array.mem_push.1 hq' with hq' | rfl
    · exact (h.level q' hq' e he r hr).mono (prefix_push _ _)
    · exact (hq e he r hr).mono (prefix_push _ _)

theorem Linked.keep {joins : List (NodeId × JoinAhead)} {x : NodeId}
    (h : Linked g joins x source) (hnone : joins.lookup id = none) :
    Linked g ((id, ahead) :: joins) x source := by
  obtain ⟨left, right, predicate, how, fields, shape, l, r, hn, hsource, hl, hr⟩ := h
  refine ⟨left, right, predicate, how, fields, shape, l, r, hn, hsource,
    fun hjoin => ?_, fun hjoin => ?_⟩
  · obtain ⟨a, ha, hl⟩ := hl hjoin
    exact ⟨a, lookup_cons_of_none hnone ha ha, hl⟩
  · obtain ⟨a, ha, hr⟩ := hr hjoin
    exact ⟨a, lookup_cons_of_none hnone ha ha, hr⟩

theorem Linked.of_sides {left right : NodeId} {predicate : Option NodeId} {how : JoinKind}
    {fields : List JoinField} {shape : Shape} {l r : Source} {s₁ s₂ s₃ : State}
    (hn : g.node? id = some ⟨.join left right predicate how fields, shape⟩)
    (hl : g.IsJoin left → ∃ ahead, s₁.joins.lookup left = some ahead ∧ l = ahead.asSide)
    (hr : g.IsJoin right → ∃ ahead, s₂.joins.lookup right = some ahead ∧ r = ahead.asSide)
    (hgrows : s₁.shared.Grows s₂.shared) (hgrows' : s₂.shared.Grows s₃.shared) :
    Linked g s₃.joins id (.join l how r none) := by
  refine ⟨left, right, predicate, how, fields, shape, l, r, hn, rfl,
    fun hjoin => ?_, fun hjoin => ?_⟩
  · obtain ⟨a, ha, hl⟩ := hl hjoin
    exact ⟨a, hgrows'.join (hgrows.join ha), hl⟩
  · obtain ⟨a, ha, hr⟩ := hr hjoin
    exact ⟨a, hgrows'.join ha, hr⟩

theorem Offered.keepJoin (h : Offered g top s) (hnone : s.joins.lookup id = none)
    (ha : Offering g top s.levels ahead.source ahead.visible ahead.on)
    (hlinked : Linked g s.joins id ahead.source) (hj : s'.joins = (id, ahead) :: s.joins)
    (hl : s'.levels = s.levels) : Offered g top s' := by
  constructor
  · rw [hj, hl]
    intro x other hx
    rcases lookup_cons_eq_some hx with ⟨rfl, rfl⟩ | hx
    · exact ha
    · exact h.join hx
  · rw [hj]
    intro x other hx
    rcases lookup_cons_eq_some hx with ⟨rfl, rfl⟩ | hx
    · exact hlinked.keep hnone
    · exact (h.linked hx).keep hnone
  · rw [hl]
    exact h.level

theorem Offered.start (g : Graph) (top : NodeId) (functions : FunctionNames) :
    Offered g top (.start functions) :=
  ⟨fun h => (by cases h), fun h => (by cases h), fun q hq => absurd hq (Array.not_mem_empty q)⟩

theorem Offered.isJoin (h : Offered g top s) (ha : s.joins.lookup id = some ahead) :
    g.IsJoin id := by
  obtain ⟨left, right, predicate, how, fields, shape, _, _, hn, _⟩ := h.linked ha
  exact ⟨left, right, predicate, how, fields, shape, hn⟩

theorem Offered.bears_part {base k x : NodeId} {ahead' : JoinAhead}
    (h : Offered g top s) (hpart : g.Part base k) (hbase : s.joins.lookup base = some ahead)
    (hk : s.joins.lookup k = some ahead') (hx : Bears g top s.levels ahead'.source x label) :
    Bears g top s.levels ahead.source x label := by
  induction hpart generalizing ahead with
  | refl =>
    cases hbase.symm.trans hk
    exact hx
  | left hn hpart ih =>
    obtain ⟨_, _, _, _, _, _, l, r, hn', hsource, hl, _⟩ := h.linked hbase
    cases hn.symm.trans hn'
    obtain ⟨a, ha, rfl⟩ := hl (hpart.isJoin (h.isJoin hk))
    rw [hsource]
    exact .left (ih ha hk).asSide
  | right hn hpart ih =>
    obtain ⟨_, _, _, _, _, _, l, r, hn', hsource, _, hr⟩ := h.linked hbase
    cases hn.symm.trans hn'
    obtain ⟨a, ha, rfl⟩ := hr (hpart.isJoin (h.isJoin hk))
    rw [hsource]
    exact .right (ih ha hk).asSide

end Offered

section Served

variable {source : Source}

/-- What is visible and what is kept while joins are compiled ahead is that of joins that are parts
of `base`. -/
structure Collected (g : Graph) (top base : NodeId) (s : State) : Prop where
  visible : ∀ p ∈ s.visible, ∃ k ahead, g.Part base k ∧ s.joins.lookup k = some ahead ∧
    p ∈ ahead.visible
  columns : ∀ {id e}, s.context.fragments.lookup id = some e → ∀ collection t source,
    g.IsColumn id collection t source → ∃ k ahead, g.Part base k ∧ s.joins.lookup k = some ahead ∧
      Names (Offers g top s.levels ahead.source) e

/-- What is visible on a level are parts of its table expression, and kept columns and the
expressions of the level name only columns of it. -/
structure Serves (g : Graph) (top : NodeId) (s : State) (source : Source) : Prop where
  visible : ∀ p ∈ s.visible, Bears g top s.levels source p.1 p.2
  columns : Referring g (Offers g top s.levels source) s
  exprs : ∀ e ∈ clauseExprs s.clauses, Names (Offers g top s.levels source) e

/-- If the level has a table expression, it serves what the level names. -/
def Served (g : Graph) (top : NodeId) (s : State) : Prop :=
  ∀ source, s.clauses.source = some source → Serves g top s source

/-- The expression is kept, or orders rows by one that is. -/
def Holds (s : State) (e : Expr) : Prop :=
  ∃ id e', s.context.fragments.lookup id = some e' ∧ (e = e' ∨ e = .descending e')

variable {g : Graph} {top base : NodeId} {s s' : State}

theorem Holds.mono (h : Holds s e) (hadds : AddsValues s s') : Holds s' e := by
  obtain ⟨id, e', hid, he⟩ := h
  exact ⟨id, e', hadds.fragment hid, he⟩

theorem Serves.names (h : Serves g top s source) (ht : Traced g s) (he : Holds s e) :
    Names (Offers g top s.levels source) e := by
  obtain ⟨id, e', hid, he⟩ := he
  have hnames : Names (Offers g top s.levels source) e' :=
    ht.names hid fun x collection t source' e'' _ hcol hx => h.columns hx collection t source' hcol
  rcases he with rfl | rfl
  · exact hnames
  · exact hnames

theorem Served.of_empty (h : s.clauses = .empty) : Served g top s := by
  intro source hsource
  rw [h] at hsource
  cases hsource

theorem Served.congr (h : Served g top s) (hc : s'.clauses = s.clauses)
    (hv : s'.visible = s.visible) (hf : s'.context.fragments = s.context.fragments)
    (hl : s'.levels = s.levels) : Served g top s' := by
  intro source hsource
  rw [hc] at hsource
  obtain ⟨hvisible, hcolumns, hexprs⟩ := h source hsource
  constructor
  · rw [hv, hl]
    exact hvisible
  · unfold Referring
    rw [hf, hl]
    exact hcolumns
  · rw [hc, hl]
    exact hexprs

/-- A clause is filled with expressions in `P`. -/
structure Fills (P : Expr → Prop) (c c' : Clauses Expr Source) : Prop where
  source : c'.source = c.source
  exprs : ∀ e ∈ clauseExprs c', e ∈ clauseExprs c ∨ P e

section Fills

variable {c c' : Clauses Expr Source} {e : Expr} {es : List Expr}

theorem setSelect_fills {items : List (Item Expr)}
    (h : c.setSelect items distinct = .ok c') : Fills (fun e => ∃ i ∈ items, i.expr = e) c c' := by
  obtain rfl := setSelect_eq_ok h
  refine ⟨rfl, fun e he => ?_⟩
  simp only [clauseExprs, Option.getD_some, List.mem_append, List.mem_map] at he ⊢
  tauto

theorem setFilter_fills (h : c.setFilter e = .ok c') : Fills (· = e) c c' := by
  obtain rfl := setFilter_eq_ok h
  refine ⟨rfl, fun e' he => ?_⟩
  simp only [clauseExprs, Option.toList_some, List.mem_append, List.mem_singleton] at he ⊢
  tauto

theorem setGroupBy_fills (h : c.setGroupBy es = .ok c') : Fills (· ∈ es) c c' := by
  obtain rfl := setGroupBy_eq_ok h
  refine ⟨rfl, fun e' he => ?_⟩
  simp only [clauseExprs, Option.getD_some, List.mem_append] at he ⊢
  tauto

theorem HavingSet.fills (h : HavingSet c es c') : Fills (· ∈ es) c c' := by
  cases h with
  | none => exact ⟨rfl, fun _ he => .inl he⟩
  | some h =>
    rcases setHaving_cases h with ⟨_, rfl⟩ | ⟨_, rfl⟩
    · refine ⟨rfl, fun e' he => ?_⟩
      simp only [clauseExprs, Option.toList_some, List.mem_append, List.mem_singleton] at he ⊢
      tauto
    · exact ⟨rfl, fun _ he => .inl he⟩

theorem setOrderBy_fills (h : c.setOrderBy es = .ok c') : Fills (· ∈ es) c c' := by
  obtain rfl := setOrderBy_eq_ok h
  refine ⟨rfl, fun e' he => ?_⟩
  simp only [clauseExprs, Option.getD_some, List.mem_append] at he ⊢
  tauto

theorem setLimit_fills {limit : Nat} (h : c.setLimit limit = .ok c') :
    Fills (fun _ => False) c c' := by
  obtain rfl := setLimit_eq_ok h
  exact ⟨rfl, fun _ he => .inl he⟩

end Fills

theorem Served.fill {P : Expr → Prop} (h : Served g top s)
    (ht : Traced g s) (hfills : Fills P s.clauses c) (hP : ∀ e, P e → Holds s e) :
    Served g top { s with clauses := c } := by
  intro source hs
  have hserves := h source (hfills.source ▸ hs)
  refine ⟨hserves.visible, hserves.columns, fun e he => ?_⟩
  rcases hfills.exprs e he with he | he
  · exact hserves.exprs e he
  · exact hserves.names ht (hP e he)

theorem Served.close {sortLimit : Nat} {q : Query} (h : Served g top s)
    (hq : s.clauses.close sortLimit = .ok q) :
    ∀ e ∈ levelExprs q, Names (Offers g top s.levels q.source) e := by
  rw [levelExprs_of_close hq]
  exact (h q.source (close_eq_ok hq).1).exprs

theorem Compiles.served {env : Env} {careful : Prop} {cites : NodeId → Prop}
    (hw : env.graph.WellFormed careful) (h : Compiles env cites s s')
    (hl : s.levels.toList <+: s'.levels.toList) (hs : Served env.graph top s) :
    Served env.graph top s' := by
  intro source hsource
  rw [h.adds.clauses] at hsource
  obtain ⟨hvisible, hcolumns, hexprs⟩ := hs source hsource
  constructor
  · rw [h.adds.visible]
    exact fun p hp => (hvisible p hp).mono hl
  · intro id e he collection t field hcol
    rcases h.rendered he with he | ⟨_, u, n, hu, _, hn, he⟩
    · exact fun r hr => (hcolumns he collection t field hcol r hr).mono hl
    · obtain ⟨label, name, hp, rfl⟩ := valueExpr_column hcol hn he
      obtain ⟨x, hres, hlabel⟩ := columnRef_resolves hp
      rw [hu.visible] at hlabel
      exact names_column (hres.offers hw hcol ((hvisible _ (mem_of_lookup hlabel)).mono hl))
  · rw [h.adds.clauses]
    exact fun e he r hr => (hexprs e he r hr).mono hl

theorem Collected.inner (g : Graph) (top base : NodeId) (s : State) :
    Collected g top base s.inner :=
  ⟨fun _ h => (by cases h), fun h => (by cases h)⟩

/-- Levels are finished and more joins are kept. -/
theorem Collected.same (h : Collected g top base s) (hsame : Same s s')
    (hgrows : s.shared.Grows s'.shared) : Collected g top base s' := by
  constructor
  · rw [hsame.visible]
    intro p hp
    obtain ⟨k, ahead, hpart, hk, hp⟩ := h.visible p hp
    exact ⟨k, ahead, hpart, hgrows.join hk, hp⟩
  · rw [hsame.fragments]
    intro id e he collection t source hcol
    obtain ⟨k, ahead, hpart, hk, hnames⟩ := h.columns he collection t source hcol
    exact ⟨k, ahead, hpart, hgrows.join hk, fun r hr => (hnames r hr).mono hgrows.levels_prefix⟩

/-- What is new while a table expression is made is what it makes visible, and columns of it. -/
structure Gains (g : Graph) (top : NodeId) (s s' : State) (source : Source) (visible : Visible) :
    Prop where
  visible : ∀ p ∈ s'.visible, p ∈ s.visible ∨ p ∈ visible
  columns : ∀ {id e}, s'.context.fragments.lookup id = some e → ∀ collection t field,
    g.IsColumn id collection t field → s.context.fragments.lookup id = some e ∨
      Names (Offers g top s'.levels source) e

theorem Gains.of_same (h : Same s s') :
    Gains g top s s' source visible := by
  constructor
  · rw [h.visible]
    exact fun p hp => .inl hp
  · rw [h.fragments]
    exact fun he _ _ _ _ => .inl he

theorem Collected.gain {k : NodeId} (h : Collected g top base s)
    (hgains : Gains g top s s' ahead.source ahead.visible) (hgrows : s.shared.Grows s'.shared)
    (hpart : g.Part base k) (hk : s'.joins.lookup k = some ahead) : Collected g top base s' := by
  constructor
  · intro p hp
    rcases hgains.visible p hp with hp | hp
    · obtain ⟨k', ahead', hpart', hk', hp⟩ := h.visible p hp
      exact ⟨k', ahead', hpart', hgrows.join hk', hp⟩
    · exact ⟨k, ahead, hpart, hk, hp⟩
  · intro id e he collection t source hcol
    rcases hgains.columns he collection t source hcol with he | hnames
    · obtain ⟨k', ahead', hpart', hk', hnames⟩ := h.columns he collection t source hcol
      exact ⟨k', ahead', hpart', hgrows.join hk', fun r hr =>
        (hnames r hr).mono hgrows.levels_prefix⟩
    · exact ⟨k, ahead, hpart, hk, hnames⟩

/-- If the base is no join, nothing is visible and no column is kept before it is compiled. -/
theorem Collected.nothing (h : Collected g top base s) (ho : Offered g top s)
    (hbase : ¬ g.IsJoin base) : (∀ p, p ∉ s.visible) ∧
      ∀ {id e}, s.context.fragments.lookup id = some e → ∀ collection t source,
        ¬ g.IsColumn id collection t source := by
  constructor
  · intro p hp
    obtain ⟨k, ahead, hpart, hk, _⟩ := h.visible p hp
    exact hbase (hpart.isJoin (ho.isJoin hk))
  · intro id e he collection t source hcol
    obtain ⟨k, ahead, hpart, hk, _⟩ := h.columns he collection t source hcol
    exact hbase (hpart.isJoin (ho.isJoin hk))

/-- A level begins to select from a table expression that is no join. -/
theorem Collected.served (h : Collected g top base s)
    (ho : Offered g top s) (hbase : ¬ g.IsJoin base)
    (hbears : Bears g top s'.levels source id label) (hconditions : conditions source = [])
    (hc : s'.clauses = { (.empty : Clauses Expr Source) with source := some source })
    (hv : s'.visible = (id, label) :: s.visible) (hf : s'.context.fragments = s.context.fragments) :
    Served g top s' := by
  obtain ⟨hvisible, hcolumns⟩ := h.nothing ho hbase
  intro source' hsource
  rw [hc] at hsource
  cases hsource
  constructor
  · rw [hv]
    intro p hp
    rcases List.mem_cons.1 hp with rfl | hp
    · exact hbears
    · exact absurd hp (hvisible p)
  · intro x e he collection t field hcol
    rw [hf] at he
    exact absurd hcol (hcolumns he collection t field)
  · rw [hc]
    simp [clauseExprs, hconditions, Clauses.empty]

/-- A level begins to select from a join. -/
theorem Collected.served_join (h : Collected g top base s)
    (ho : Offered g top s) (hbase : s.joins.lookup base = some ahead)
    (hc : s'.clauses = { (.empty : Clauses Expr Source) with
      source := some ahead.source, on := ahead.on })
    (hv : s'.visible = ahead.visible.reverse ++ s.visible)
    (hf : s'.context.fragments = s.context.fragments) (hl : s'.levels = s.levels) :
    Served g top s' := by
  have hoffering := ho.join hbase
  intro source hsource
  rw [hc] at hsource
  cases hsource
  constructor
  · rw [hv, hl]
    intro p hp
    rcases List.mem_append.1 hp with hp | hp
    · exact hoffering.visible p (List.mem_reverse.1 hp)
    · obtain ⟨k, ahead', hpart, hk, hp⟩ := h.visible p hp
      exact ho.bears_part hpart hbase hk ((ho.join hk).visible p hp)
  · intro x e he collection t field hcol r hr
    rw [hf] at he
    rw [hl]
    obtain ⟨k, ahead', hpart, hk, hnames⟩ := h.columns he collection t field hcol
    exact (hnames r hr).imp fun y label hy => ho.bears_part hpart hbase hk hy
  · rw [hc, hl]
    have hexprs := hoffering.exprs
    simpa [clauseExprs, Clauses.empty] using hexprs

end Served

section Serving

variable {input : NodeId}

/-- What is kept is right: table expressions show their collections and name only their columns. -/
structure Whole (g : Graph) (top : NodeId) (s : State) : Prop where
  kept : Kept g s
  placed : s.Placed g top
  columned : Columned g s
  offered : Offered g top s

/-- The state of a level on which operators are compiled. -/
structure Serving (g : Graph) (top : NodeId) (s : State) : Prop where
  whole : Whole g top s
  served : Served g top s
  traced : Traced g s

/-- The state of a level over `base` before it selects from something. -/
structure Started (g : Graph) (top base : NodeId) (s : State) : Prop where
  whole : Whole g top s
  revealing : Revealing g top s
  traced : Traced g s
  collected : Collected g top base s
  clauses : s.clauses = .empty

variable {env : Env} {g : Graph} {top base : NodeId} {job : Job} {careful : Prop} {s s' : State}

theorem Whole.congr (h : Whole g top s) (hshared : s'.shared = s.shared)
    (hsource : s'.clauses.source = s.clauses.source) : Whole g top s' := by
  have hj : s'.joins = s.joins := congrArg Shared.joins hshared
  have hu : s'.unions = s.unions := congrArg Shared.unions hshared
  have hl : s'.levels = s.levels := congrArg Shared.levels hshared
  refine ⟨h.kept.congr hj hu, ⟨?_, ?_⟩, h.columned.congr hj hu hl, h.offered.congr hj hl⟩
  · rw [hshared]
    exact h.placed.shared
  · rw [hshared, hsource]
    exact h.placed.source

theorem Whole.inner (h : Whole g top s) : Whole g top s.inner :=
  ⟨h.kept.congr rfl rfl, ⟨h.placed.shared, fun _ hsource => (by cases hsource)⟩,
    h.columned.congr rfl rfl rfl, h.offered.congr rfl rfl⟩

theorem Started.inner (h : Whole g top s) (base : NodeId) : Started g top base s.inner :=
  ⟨h.inner, .inner h.kept h.placed, .of_empty rfl, .inner g top base s, rfl⟩

theorem Runs.whole (hw : env.graph.WellFormed careful) (hord : env.graph.Ordered)
    (hscoped : env.graph.ConditionsScoped top) (h : Runs env top job s s')
    (hs : Whole env.graph top s) (ho : Offered env.graph top s') : Whole env.graph top s' := by
  have hkeeps := h.keeps
  have hplaces := h.keepsPlaced hord
  have hcolumns := h.columns hw hscoped
  cases job with
  | side =>
    exact ⟨(hkeeps hs.kept).1, (hplaces.1 hs.placed).1, (hcolumns hs.kept hs.columned).1, ho⟩
  | visit | select | level =>
    exact ⟨hkeeps hs.kept, (hplaces hs.placed).1, (hcolumns hs.kept hs.columned).1, ho⟩
  | _ => exact ⟨hkeeps hs.kept, (hplaces hs.placed).1, hcolumns hs.kept hs.columned, ho⟩

theorem Serving.fill {P : Expr → Prop} (h : Serving g top s)
    (hfills : Fills P s.clauses c) (hP : ∀ e, P e → Holds s e) :
    Serving g top { s with clauses := c } :=
  ⟨h.whole.congr rfl hfills.source, h.served.fill h.traced hfills hP, h.traced.congr rfl⟩

theorem Serving.mark (h : Serving g top s) (id : NodeId) : Serving g top (s.mark id) :=
  ⟨h.whole.congr rfl rfl, h.served.congr rfl rfl rfl rfl, h.traced.congr rfl⟩

theorem Serving.compile {cites : NodeId → Prop} (hw : env.graph.WellFormed careful)
    (hord : env.graph.Ordered) (hscoped : env.graph.ConditionsScoped top)
    (h : Serving env.graph top s) (hrun : Runs env top job s s') (hc : Compiles env cites s s')
    (ho : Offered env.graph top s') : Serving env.graph top s' :=
  ⟨hrun.whole hw hord hscoped h.whole ho, hc.served hw hrun.grows.levels_prefix h.served,
    hrun.traced hw h.traced⟩

/-- What a derived table stands for shows what was wrapped. -/
theorem lift_exports {depth : Nat} {lifted : NodeId} (h : lift g depth id = .ok lifted) :
    (g.Reach top id → g.Reach top lifted) ∧
      ∀ names, g.Exports id names → g.Exports lifted names := by
  induction depth generalizing id with
  | zero => cases h
  | succ depth ih =>
    rw [lift] at h
    obtain ⟨n, hn, h⟩ := bind_ok h
    have hn := Graph.node_eq_ok_iff.1 hn
    split at h
    · next input hp =>
      obtain ⟨hreach, hexports⟩ := ih h
      constructor
      · exact fun hid => hreach (hid.operand hn (mem_operands_of_passThrough? hp))
      · exact fun names hnames => hexports names (hnames.input hn hp)
    · cases h
      exact ⟨fun h => h, fun _ h => h⟩

theorem Prepared.serving {clause : Clause} {reads : Bool}
    (h : Prepared env input clause reads s s') (hs : Serving env.graph top s)
    (hshow : Showing env.graph input s) (hreach : env.graph.Reach top input) :
    Serving env.graph top s' := by
  refine ⟨⟨h.kept hs.whole.kept, (h.keepsPlaced hs.whole.placed).1,
    h.columned hs.whole.columned, ?_⟩, ?_, h.traced hs.traced⟩
  · cases h with
    | same _ _ => exact hs.whole.offered
    | wrapped hq _ _ _ => exact hs.whole.offered.push (hs.served.close hq) rfl rfl
  · cases h with
    | same _ _ => exact hs.served
    | @wrapped q label aliases lifted hq hl hlift _ =>
      obtain ⟨hlt, names, hexports, hnames⟩ := hshow.close hq
      obtain ⟨hlifted, hexports'⟩ : (env.graph.Reach top input → env.graph.Reach top lifted) ∧ _ :=
        lift_exports hlift
      intro source hsource
      cases hsource
      constructor
      · intro p hp
        obtain rfl := List.mem_singleton.1 hp
        exact .leaf (hlifted hreach) rfl ⟨names, hexports' names hexports, .derived hlt hnames⟩
      · exact fun id e he => (by cases he)
      · exact fun e he => (by simp [clauseExprs, conditions, State.wrap, Clauses.empty] at he)

/-- What an operator takes as its input was compiled on the level, or is no collection, so that the
level selects from nothing. -/
theorem Started.showing (hw : env.graph.WellFormed careful)
    (hscoped : env.graph.ConditionsScoped top) (hs : Started env.graph top base s)
    (h : Runs env top (.visit input) s s') : Showing env.graph input s' := by
  have hcolumns := (h.columns hw hscoped hs.whole.kept hs.whole.columned).2
  cases hc : env.graph.isCollection input with
  | true => exact hcolumns hc hs.clauses hs.revealing.growing
  | false =>
    have hadds : AddsValues s s' := h.leaves hc
    exact .of_empty (hadds.clauses.trans hs.clauses)

def Job.Holds : Job → State → Prop
  | .values _ es, s | .keys _ es, s => ∀ e ∈ es, Compile.Holds s e
  | .items _ is, s => ∀ i ∈ is, Compile.Holds s i.expr
  | _, _ => True

theorem holds_of_fragment
    (h : s.context.fragment id = .ok e) : Holds s e :=
  ⟨id, e, Context.fragment_eq_ok_iff.1 h, .inl rfl⟩

theorem Runs.holds (h : Runs env top job s s') : job.Holds s' := by
  induction h with
  | noValues | noKeys | noItems => exact fun _ h => (by cases h)
  | valueThen _ _ he hrest _ ih =>
    exact List.forall_mem_cons.2 ⟨(holds_of_fragment he).mono hrest.leaves, ih⟩
  | @keyThen key _ e _ _ _ _ _ _ he hrest _ ih =>
    refine List.forall_mem_cons.2 ⟨?_, ih⟩
    have hadds : AddsValues _ _ := hrest.leaves
    have hkept := hadds.fragment (Context.fragment_eq_ok_iff.1 he)
    by_cases hkey : key.ascending = true
    · rw [if_pos hkey]
      exact ⟨key.expr, e, hkept, .inl rfl⟩
    · rw [if_neg hkey]
      exact ⟨key.expr, e, hkept, .inr rfl⟩
  | itemThen _ _ _ _ _ he hrest _ ih =>
    exact List.forall_mem_cons.2 ⟨(holds_of_fragment he).mono hrest.leaves, ih⟩
  | _ => trivial

end Serving

section Joining

variable {env : Env} {g : Graph} {top : NodeId} {careful : Prop} {s s' s₁ s₂ s₃ : State}
  {levels : Array Query} {leftSource rightSource : Source} {leftVisible rightVisible : Visible}
  {how : JoinKind} {on : Option Expr}

theorem Offering.asSide {l r : Source}
    (h : Offering g top levels ahead.source ahead.visible ahead.on)
    (hsource : ahead.source = .join l how r none) :
    Offering g top levels ahead.asSide ahead.visible none := by
  obtain ⟨source, on, visible⟩ := ahead
  obtain rfl : source = .join l how r none := hsource
  constructor
  · exact fun p hp => Bears.asSide (h.visible p hp)
  · intro e he r' hr
    refine (h.exprs e ?_ r' hr).imp fun x label hx => Bears.asSide hx
    simpa [conditions, JoinAhead.asSide] using he

theorem bears_append (hl : ∀ p ∈ leftVisible, Bears g top levels leftSource p.1 p.2)
    (hr : ∀ p ∈ rightVisible, Bears g top levels rightSource p.1 p.2) :
    ∀ p ∈ leftVisible ++ rightVisible,
      Bears g top levels (.join leftSource how rightSource on) p.1 p.2 := by
  intro p hp
  rcases List.mem_append.1 hp with hp | hp
  · exact .left (hl p hp)
  · exact .right (hr p hp)

theorem Offering.join (hl : Offering g top levels leftSource leftVisible none)
    (hr : Offering g top levels rightSource rightVisible none)
    (hon : ∀ e ∈ on.toList, Names (Offers g top levels (.join leftSource how rightSource none)) e) :
    Offering g top levels (.join leftSource how rightSource none)
      (leftVisible ++ rightVisible) on := by
  refine ⟨bears_append hl.visible hr.visible, fun e he => ?_⟩
  rcases List.mem_append.1 he with he | he
  · rw [conditions, Option.toList_none, List.append_nil] at he
    rcases List.mem_append.1 he with he | he
    · exact fun r hr => (hl.exprs e (List.mem_append_left _ he) r hr).imp fun _ _ => .left
    · exact fun r hr' => (hr.exprs e (List.mem_append_left _ he) r hr').imp fun _ _ => .right
  · exact hon e he

theorem Gains.join (hl : Gains g top s s₁ leftSource leftVisible)
    (hr : Gains g top s₁ s₂ rightSource rightVisible)
    (hlevels : s₁.levels.toList <+: s₂.levels.toList)
    (hlevels' : s₂.levels.toList <+: s'.levels.toList)
    (hvisible : ∀ p ∈ s'.visible, p ∈ s₂.visible ∨ p ∈ leftVisible ++ rightVisible)
    (hcolumns : ∀ {id e}, s'.context.fragments.lookup id = some e → ∀ collection t field,
      g.IsColumn id collection t field → s₂.context.fragments.lookup id = some e ∨
        Names (Offers g top s'.levels (.join leftSource how rightSource none)) e) :
    Gains g top s s' (.join leftSource how rightSource none) (leftVisible ++ rightVisible) := by
  constructor
  · intro p hp
    rcases hvisible p hp with hp | hp
    · rcases hr.visible p hp with hp | hp
      · exact (hl.visible p hp).imp_right (List.mem_append_left _)
      · exact .inr (List.mem_append_right _ hp)
    · exact .inr hp
  · intro id e he collection t field hcol
    rcases hcolumns he collection t field hcol with he | hnames
    · rcases hr.columns he collection t field hcol with he | hnames
      · refine (hl.columns he collection t field hcol).imp_right fun hnames r hr => ?_
        exact ((hnames r hr).mono (hlevels.trans hlevels')).imp fun _ _ => .left
      · exact .inr fun r hr => ((hnames r hr).mono hlevels').imp fun _ _ => .right
    · exact .inr hnames

section Condition

variable {id left right : NodeId} {predicate : Option NodeId} {fields : List JoinField}
  {schema : Schema} {es : List Expr}
  (hw : env.graph.WellFormed careful) (hord : env.graph.Ordered)
  (hscoped : env.graph.ConditionsScoped top) (hapart : env.graph.ConditionsApart top)
  (hnew : s.joins.lookup id = none) (hreach : env.graph.Reach top id)
  (hn : env.graph.node? id = some ⟨.join left right predicate how fields, .collection schema⟩)
  (hleft : Runs env top (.side left leftSource leftVisible) s s₁)
  (hright : Runs env top (.side right rightSource rightVisible) s₁ s₂)
  (hs : Revealing env.graph top s)
  (hp : Runs env top (.values predicate.toList es) (s₂.revealing (leftVisible ++ rightVisible)) s₃)

include hp

theorem Runs.fragment_of_condition (he : e ∈ es) :
    ∃ x ∈ predicate.toList, s₃.context.fragment x = .ok e := by
  cases predicate with
  | none =>
    cases hp
    cases he
  | some p =>
    cases hp with
    | valueThen _ _ hf hrest =>
      cases hrest
      obtain rfl := List.mem_singleton.1 he
      exact ⟨p, .head _, hf⟩

include hw hord hscoped hapart hnew hreach hn hleft hright hs

theorem Runs.condition_names
    (hsides : ∀ p ∈ leftVisible ++ rightVisible, Bears env.graph top levels source p.1 p.2) :
    ∀ ⦃x e⦄, s₃.context.fragments.lookup x = some e →
      (∃ y ∈ predicate.toList, env.graph.Cites y x) → ∀ collection t field,
        env.graph.IsColumn x collection t field → Names (Offers env.graph top levels source) e := by
  intro x e he hcites collection t field hcol
  have hcompiles : Compiles env _ _ _ := hp.compiles
  have hcurrent := hcompiles.currentOn
    (hleft.condition_current hw hord hscoped hapart hnew hreach hn hright hs)
  obtain ⟨y, name, label, hres, hlabel, rfl⟩ := hcurrent he hcites collection t field hcol
  rw [hcompiles.adds.visible] at hres hlabel
  -- What names the column grounds the join, so its label is one of those that the sides have.
  have hl := hleft.keeps hs.kept
  have hr := hright.keeps hl.1
  have hreveals : Reveals env.graph (.join leftSource how rightSource none) id
    (leftVisible ++ rightVisible) := .join hn hl.2 hr.2
  have hgrown := ((hright.reveals hw hord hscoped
    (hleft.reveals hw hord hscoped hs).1).1.growing.reveal hreveals.noJoins).noJoins
  obtain ⟨v, hv, hcites⟩ := hcites
  obtain rfl := Option.mem_toList.1 hv
  have hpart := (hscoped _ _ ⟨hreach, _, _, _, _, _, hn⟩).column hw hcites hcol
  have hseen := hres.seen_of_grounded hgrown (hreveals.grounded_part hpart)
    fun z hz => lookup_revealing_isSome.2 (.inl hz)
  have hmem : (y, label) ∈ leftVisible ++ rightVisible := by
    change ((leftVisible ++ rightVisible).reverse ++ s₂.visible).lookup y = some label at hlabel
    rw [List.lookup_append, Option.or_eq_some_iff] at hlabel
    rcases hlabel with hlabel | ⟨hnone, _⟩
    · exact List.mem_reverse.1 (mem_of_lookup hlabel)
    · obtain ⟨l, hmem⟩ := lookup_isSome_iff.1 hseen
      have hsome := lookup_isSome_iff.2 ⟨l, List.mem_reverse.2 hmem⟩
      rw [hnone] at hsome
      cases hsome
  exact names_column (hres.offers hw hcol (hsides _ hmem))

end Condition

end Joining

section Runs

variable {base : NodeId}

/-- What a job does to the columns that are named. -/
def Job.Offers (g : Graph) (top : NodeId) : Job → State → State → Prop
  | .visit id, s, s' => (g.isCollection id = false → Whole g top s → Offered g top s') ∧
    (g.isCollection id = true → ∀ base, g.Base id base → Started g top base s → Serving g top s')
  | .select sel, s, s' => g.Reach top sel.input → ∀ base, g.Base sel.input base →
    Started g top base s → Serving g top s'
  | .level id _, s, s' => g.LevelRoot top id → Whole g top s → Offered g top s'
  | .discover root, s, s' => ∀ base, (∀ k, g.IsJoin k → g.Met root k → g.Part base k) →
    Started g top base s → Started g top base s'
  | .side id source visible, s, s' => Whole g top s → Revealing g top s → Traced g s →
    Offered g top s' ∧ Gains g top s s' source visible ∧
      Offering g top s'.levels source visible none ∧
        (g.IsJoin id → ∃ ahead, s'.joins.lookup id = some ahead ∧ source = ahead.asSide)
  | .join _ ahead, s, s' => Whole g top s → Revealing g top s → Traced g s →
    Offered g top s' ∧ Gains g top s s' ahead.source ahead.visible
  | _, s, s' => Whole g top s → Offered g top s'

variable {env : Env} {top : NodeId} {job : Job} {careful : Prop} {s s' : State}
  (hw : env.graph.WellFormed careful) (hord : env.graph.Ordered)
  (hscoped : env.graph.ConditionsScoped top)

theorem offers_sideTable {table : Table} {schema : Schema} (hreach : env.graph.Reach top id)
    (hn : env.graph.node? id = some ⟨.source table, .collection schema⟩) :
    Job.Offers env.graph top (.side id (.table table label) [(id, label)]) s
      ((s.withAliases aliases).revealing [(id, label)]) := by
  intro hs _ _
  refine ⟨hs.offered.congr rfl rfl, ⟨fun p hp => ?_, fun he _ _ _ _ => .inl he⟩,
    .leaf (.leaf hreach rfl ⟨_, .source hn, .table⟩) rfl,
    fun hjoin => absurd hjoin (Graph.not_isJoin hn (by simp))⟩
  exact (List.mem_cons.1 hp).symm.imp_right fun h => List.mem_singleton.2 h

theorem Runs.offers_sideJoin
    (hjoin : Runs env top (.join id ahead) s s')
    (ih : Job.Offers env.graph top (.join id ahead) s s') :
    Job.Offers env.graph top (.side id ahead.asSide ahead.visible) s s' := by
  intro hs hr ht
  obtain ⟨ho, hgains⟩ := ih hs hr ht
  obtain ⟨_, _, _, _, _, _, l, r, _, hsource, _⟩ := ho.linked hjoin.lookup_join
  refine ⟨ho, ⟨hgains.visible, fun he collection t field hcol => ?_⟩,
    (ho.join hjoin.lookup_join).asSide hsource, fun _ => ⟨_, hjoin.lookup_join, rfl⟩⟩
  exact (hgains.columns he collection t field hcol).imp_right fun hnames r hr =>
    (hnames r hr).imp fun _ _ => Bears.asSide

include hw hord hscoped

/-- The input of an operator is compiled first. -/
theorem Started.visit {input : NodeId} (hs : Started env.graph top base s)
    (h : Runs env top (.visit input) s s') (ih : Job.Offers env.graph top (.visit input) s s')
    (hbase : env.graph.Base input base) :
    Serving env.graph top s' := by
  cases hc : env.graph.isCollection input with
  | true => exact ih.2 hc base hbase hs
  | false =>
    have hadds : AddsValues s s' := h.leaves hc
    exact ⟨h.whole hw hord hscoped hs.whole (ih.1 hc hs.whole),
      .of_empty (hadds.clauses.trans hs.clauses), h.traced hw hs.traced⟩

/-- The input of an operator is compiled, and the level is wrapped if it has to be. -/
theorem Started.prepare {input : NodeId} {clause : Clause} {reads : Bool} {s₁ : State}
    (hs : Started env.graph top base s) (h : Runs env top (.visit input) s s₁)
    (ih : Job.Offers env.graph top (.visit input) s s₁)
    (hbase : env.graph.Base input base) (hprep : Prepared env input clause reads s₁ s')
    (hreach : env.graph.Reach top input) : Serving env.graph top s' :=
  hprep.serving (hs.visit hw hord hscoped h ih hbase) (hs.showing hw hscoped h) hreach

/-- Levels are finished before the level selects from something. -/
theorem Started.same (hs : Started env.graph top base s) (h : Runs env top job s s')
    (hsame : Same s s') (ho : Offered env.graph top s') : Started env.graph top base s' := by
  have hwhole := h.whole hw hord hscoped hs.whole ho
  exact ⟨hwhole, hs.revealing.same hsame hwhole.kept hwhole.placed h.grows, h.traced hw hs.traced,
    hs.collected.same hsame h.grows, hsame.clauses.trans hs.clauses⟩

section Steps

variable {id left right : NodeId} {schema : Schema} {s₁ s₂ s₃ : State}

/-- A level over a join selects from the tables of the join. -/
theorem Started.joined
    (hs : Started env.graph top id s) (hjoin : Runs env top (.join id ahead) s s₁)
    (ih : Job.Offers env.graph top (.join id ahead) s s₁)
    (hc : c = { s₁.clauses with source := some ahead.source, on := ahead.on.or s₁.clauses.on })
    (hrun : Runs env top (.visit id) s ({ s₁.revealing ahead.visible with clauses := c }.mark id)) :
    Serving env.graph top ({ s₁.revealing ahead.visible with clauses := c }.mark id) := by
  obtain ⟨ho, hgains⟩ := ih hs.whole hs.revealing hs.traced
  have hcollected := hs.collected.gain hgains hjoin.grows .refl hjoin.lookup_join
  have hadds : AddsAhead _ _ := hjoin.leaves
  refine ⟨hrun.whole hw hord hscoped hs.whole (ho.congr rfl rfl), ?_, hrun.traced hw hs.traced⟩
  refine hcollected.served_join ho hjoin.lookup_join ?_ rfl rfl rfl
  rw [hadds.clauses, hs.clauses] at hc
  exact hc.trans (by rw [Clauses.empty, Option.or_none])

/-- A level over a union selects from the union. -/
theorem Started.united {ahead : Source × Alias}
    (hs : Started env.graph top id s) (hreach : env.graph.Reach top id)
    (hn : env.graph.node? id = some ⟨.union left right distinct, .collection schema⟩)
    (hunion : Runs env top (.union id ahead) s s₁)
    (ih : Job.Offers env.graph top (.union id ahead) s s₁)
    (hc : s₁.clauses.setSource ahead.1 = .ok c)
    (hrun : Runs env top (.visit id) s
      ({ s₁.revealing [(id, ahead.2)] with clauses := c }.mark id)) :
    Serving env.graph top ({ s₁.revealing [(id, ahead.2)] with clauses := c }.mark id) := by
  have ho := ih hs.whole
  have hsame : Same _ _ := hunion.leaves
  have hs₁ := hunion.whole hw hord hscoped hs.whole ho
  obtain ⟨hlabel, hconditions⟩ := (hs₁.kept.union hunion.lookup_union).label?
  refine ⟨hrun.whole hw hord hscoped hs.whole (ho.congr rfl rfl), ?_, hrun.traced hw hs.traced⟩
  refine (hs.collected.same hsame hunion.grows).served ho (Graph.not_isJoin hn (by simp))
    (.leaf hreach hlabel (hs₁.columned.union hunion.lookup_union)) hconditions ?_ rfl rfl
  obtain rfl := setSource_eq_ok hc
  simp only [State.mark, hsame.clauses, hs.clauses]

theorem Runs.offers_union {leftLevel rightLevel : LevelId} (hreach : env.graph.Reach top id)
    (hn : env.graph.node? id = some ⟨.union left right distinct, .collection schema⟩)
    (hleft : Runs env top (.level left leftLevel) s s₁)
    (ih : Job.Offers env.graph top (.level left leftLevel) s s₁)
    (ih' : Job.Offers env.graph top (.level right rightLevel) s₁ s₂)
    (hs : Whole env.graph top s) :
    Offered env.graph top { s₂.withAliases aliases with
      unions := (id, .union leftLevel rightLevel label, label) :: s₂.unions } := by
  obtain ⟨hcl, hcr⟩ := hw.union_sides hn
  have hreach' := hreach.operand hn (.tail _ (.head _))
  have hl := ih (.inr (.inl ⟨hreach.operand hn (.head _), hcl⟩)) hs
  have hr := ih' (.inr (.inl ⟨hreach', hcr⟩)) (hleft.whole hw hord hscoped hs hl)
  exact hr.congr rfl rfl

theorem Runs.offers_sideUnion {ahead : Source × Alias}
    (hn : env.graph.node? id = some ⟨.union left right distinct, .collection schema⟩)
    (hunion : Runs env top (.union id ahead) s s')
    (ih : Job.Offers env.graph top (.union id ahead) s s') :
    Job.Offers env.graph top (.side id ahead.1 [(id, ahead.2)]) s s' := by
  intro hs _ _
  have ho := ih hs
  have hs' := hunion.whole hw hord hscoped hs ho
  obtain ⟨hlabel, hconditions⟩ := (hs'.kept.union hunion.lookup_union).label?
  refine ⟨ho, .of_same hunion.leaves, .leaf ?_ hconditions,
    fun hjoin => absurd hjoin (Graph.not_isJoin hn (by simp))⟩
  exact .leaf (hs'.placed.shared.union hunion.lookup_union).1 hlabel
    (hs'.columned.union hunion.lookup_union)

omit hord in
theorem Runs.offers_sideLevel {kind : Kind} {level : LevelId}
    (hreach : env.graph.Reach top id)
    (hn : env.graph.node? id = some ⟨kind, .collection schema⟩) (hk : kind.isWrapped = true)
    (hlevel : Runs env top (.level id level) s s₁)
    (ih : Job.Offers env.graph top (.level id level) s s₁) :
    Job.Offers env.graph top (.side id (.derived level label) [(id, label)]) s
      (s₁.withAliases aliases) := by
  intro hs _ _
  have hc := isCollection_of_node hn
  have ho := ih (.inr (.inl ⟨hreach, hc⟩)) hs
  obtain ⟨hlt, names, hexports, hnames⟩ := (hlevel.columns hw hscoped hs.kept hs.columned).2 hc
  have hsame : Same s s₁ := hlevel.leaves
  refine ⟨ho.congr rfl rfl, .of_same ⟨hsame.1, hsame.2, hsame.3, hsame.4⟩,
    .leaf (.leaf hreach rfl ⟨names, hexports, .derived hlt hnames⟩) rfl,
    fun hjoin => absurd hjoin (Graph.not_isJoin hn ?_)⟩
  rintro _ _ _ _ _ rfl
  cases hk

/-- The condition of a join that is compiled names only columns of what the sides select from. -/
theorem Runs.offers_join {predicate : Option NodeId} {how : JoinKind} {fields : List JoinField}
    {leftSource rightSource : Source} {leftVisible rightVisible : Visible} {es : List Expr}
    (hapart : env.graph.ConditionsApart top) (hnew : s.joins.lookup id = none)
    (hreach : env.graph.Reach top id)
    (hn : env.graph.node? id = some ⟨.join left right predicate how fields, .collection schema⟩)
    (hleft : Runs env top (.side left leftSource leftVisible) s s₁)
    (hright : Runs env top (.side right rightSource rightVisible) s₁ s₂)
    (hp : Runs env top (.values predicate.toList es)
      (s₂.revealing (leftVisible ++ rightVisible)) s₃)
    (ih : Job.Offers env.graph top (.side left leftSource leftVisible) s s₁)
    (ih' : Job.Offers env.graph top (.side right rightSource rightVisible) s₁ s₂)
    (ih'' : Job.Offers env.graph top (.values predicate.toList es)
      (s₂.revealing (leftVisible ++ rightVisible)) s₃) :
    Job.Offers env.graph top
      (.join id ⟨.join leftSource how rightSource none, es.head?, leftVisible ++ rightVisible⟩) s
      { s₃ with joins :=
        (id, ⟨.join leftSource how rightSource none, es.head?, leftVisible ++ rightVisible⟩) ::
        s₃.joins } := by
  intro hs hr ht
  obtain ⟨ho₁, hgains, hoffering, hlink⟩ := ih hs hr ht
  have hs₁ := hleft.whole hw hord hscoped hs ho₁
  have ht₁ := hleft.traced hw ht
  obtain ⟨ho₂, hgains', hoffering', hlink'⟩ := ih' hs₁ (hleft.reveals hw hord hscoped hr).1 ht₁
  have hs₂ := hright.whole hw hord hscoped hs₁ ho₂
  have hlevels := hright.grows.levels_prefix
  have hlevels' := hp.grows.levels_prefix
  have hl := (hoffering.mono hlevels).mono hlevels'
  have hr' := hoffering'.mono hlevels'
  have hlinked := Linked.of_sides hn hlink hlink' hright.grows hp.grows
  have hnone₂ := hleft.unkept_of_sides hord hn hright hnew
  have hnone := hp.unkept_of_condition hord hn hnone₂
  -- The condition reads only columns of parts of the join.
  have hsides : ∀ p ∈ leftVisible ++ rightVisible, Bears env.graph top s₃.levels
      (.join leftSource how rightSource none) p.1 p.2 := bears_append hl.visible hr'.visible
  have hnames := hleft.condition_names hw hord hscoped hapart hnew hreach hn hright hr hp hsides
  constructor
  · refine (ih'' (hs₂.congr rfl rfl)).keepJoin hnone ?_ hlinked rfl rfl
    refine hl.join hr' fun e he => ?_
    obtain ⟨v, hv, hf⟩ := hp.fragment_of_condition
      (List.mem_of_mem_head? (Option.mem_toList.1 he))
    exact (hp.traced hw ((hright.traced hw ht₁).congr rfl)).names
      (Context.fragment_eq_ok_iff.1 hf)
      fun x collection t field e' hcites hcol hx =>
        hnames hx ⟨v, hv, hcites⟩ collection t field hcol
  · have hcompiles : Compiles env _ _ _ := hp.compiles
    refine hgains.join hgains' hlevels hlevels' (fun p hp => ?_)
      fun hx collection t field hcol => ?_
    · change p ∈ s₃.visible at hp
      rw [hcompiles.adds.visible] at hp
      exact (List.mem_append.1 hp).symm.imp_right List.mem_reverse.1
    · exact (hcompiles.rendered hx).imp_right fun h => hnames hx h.1 collection t field hcol

end Steps

/-- Levels and joins name only columns of what they select from, through every run. -/
theorem Runs.offers (hapart : env.graph.ConditionsApart top) (hfocused : env.graph.Focused top)
    (h : Runs env top job s s') : job.Offers env.graph top s s' := by
  induction h with
  | visited =>
    exact ⟨fun _ hs => hs.offered, fun _ _ _ hs => ⟨hs.whole, .of_empty hs.clauses, hs.traced⟩⟩
  | cached _ hc _ =>
    refine ⟨fun _ hs => hs.offered.congr rfl rfl, fun hc' => ?_⟩
    rw [hc] at hc'
    cases hc'
  | source hid hreach hn hl hc =>
    refine ⟨elim_of_collection hn, fun _ base hbase hs => ?_⟩
    obtain rfl := hbase.eq hn (by simp [Graph.inputs])
    have hrun := Runs.source hid hreach hn hl hc
    obtain rfl := setSource_eq_ok hc
    refine ⟨hrun.whole hw hord hscoped hs.whole (hs.whole.offered.congr rfl rfl), ?_,
      hrun.traced hw hs.traced⟩
    refine hs.collected.served hs.whole.offered (Graph.not_isJoin hn (by simp))
      (.leaf hreach rfl ⟨_, .source hn, .table⟩) rfl ?_ rfl rfl
    simp only [State.mark, hs.clauses]
  | selection _ hreach hn hsel _ ih =>
    refine ⟨elim_of_collection hn, fun _ base hbase hs => ?_⟩
    have hinput := hreach.operand hn (Selection.operands hsel).1
    exact (ih hinput base (hbase.input hn (inputs_of_selection hsel)) hs).mark _
  | filter _ hreach hn hrun hprep hv hp he hc ih ih' =>
    refine ⟨elim_of_collection hn, fun _ base hbase hs => ?_⟩
    have hs₂ := hs.prepare hw hord hscoped hrun ih (hbase.input hn rfl) hprep
      (hreach.operand hn (.head _))
    have hs₃ := hs₂.compile hw hord hscoped hp (hp.compiles hv) (ih'.1 hv hs₂.whole)
    refine (hs₃.fill (setFilter_fills hc) ?_).mark _
    rintro _ rfl
    exact holds_of_fragment he
  | groupBy _ hreach hn hrun hprep hkeys hitems hc hc' hp hhaving ih ih' ih'' ihp =>
    refine ⟨elim_of_collection hn, fun _ base hbase hs => ?_⟩
    have hs₂ := hs.prepare hw hord hscoped hrun ih (hbase.input hn rfl) hprep
      (hreach.operand hn (.head _))
    have hs₃ := hs₂.compile hw hord hscoped hkeys hkeys.compiles (ih' hs₂.whole)
    have hs₄ := hs₃.compile hw hord hscoped hitems hitems.compiles (ih'' hs₃.whole)
    have hselect := hs₄.fill (setSelect_fills hc)
      (by rintro _ ⟨i, hi, rfl⟩; exact hitems.holds i hi)
    have hholds := fun e he => (hkeys.holds e he).mono hitems.leaves
    have hgroup := hselect.fill (setGroupBy_fills hc') hholds
    have hs₅ := hgroup.compile hw hord hscoped hp hp.compiles (ihp hgroup.whole)
    exact (hs₅.fill hhaving.fills hp.holds).mark _
  | sort _ hreach hn hrun hprep hkeys hc ih ih' =>
    refine ⟨elim_of_collection hn, fun _ base hbase hs => ?_⟩
    have hs₂ := hs.prepare hw hord hscoped hrun ih (hbase.input hn rfl) hprep
      (hreach.operand hn (.head _))
    have hs₃ := hs₂.compile hw hord hscoped hkeys hkeys.compiles (ih' hs₂.whole)
    exact (hs₃.fill (setOrderBy_fills hc) hkeys.holds).mark _
  | slice _ hreach hn _ hrun hprep hc ih =>
    refine ⟨elim_of_collection hn, fun _ base hbase hs => ?_⟩
    have hs₂ := hs.prepare hw hord hscoped hrun ih (hbase.input hn rfl) hprep
      (hreach.operand hn (.head _))
    exact (hs₂.fill (setLimit_fills hc) fun _ h => h.elim).mark _
  | joined hid hreach hn hjoin hc hc' ih =>
    refine ⟨elim_of_collection hn, fun _ base hbase hs => ?_⟩
    obtain rfl := hbase.eq hn (by simp [Graph.inputs])
    exact hs.joined hw hord hscoped hjoin ih (joined_clauses hc hc')
      (.joined hid hreach hn hjoin hc hc')
  | united hid hreach hn hunion hc ih =>
    refine ⟨elim_of_collection hn, fun _ base hbase hs => ?_⟩
    obtain rfl := hbase.eq hn (by simp [Graph.inputs])
    exact hs.united hw hord hscoped hreach hn hunion ih hc (.united hid hreach hn hunion hc)
  | value _ _ _ hn ht hvisits _ _ _ ih ih' =>
    constructor
    · intro _ hs
      exact (ih' (hvisits.whole hw hord hscoped hs (ih hs))).congr rfl rfl
    · intro hc
      rw [not_isCollection_of_typed hn ht] at hc
      cases hc
  | noOperands | noValues | noKeys | noItems | provideNothing | unionKept | subqueryKept =>
    exact fun hs => hs.offered
  | skipped _ _ ih => exact ih
  | operand _ hv hrun _ ih ih' | valueThen hv hrun _ _ ih ih' | keyThen hv hrun _ _ ih ih'
  | itemThen hv hrun _ _ _ _ _ ih ih' =>
    exact fun hs => ih' (hrun.whole hw hord hscoped hs (ih.1 hv hs))
  | provideFunction => exact fun hs => hs.offered.congr rfl rfl
  | provideWindow _ ih => exact ih
  | provideSubquery _ _ ih => exact ih
  | select hrun hprep hitems hc ih ih' =>
    intro hreach base hbase hs
    have hs₂ := hs.prepare hw hord hscoped hrun ih hbase hprep hreach
    have hs₃ := hs₂.compile hw hord hscoped hitems hitems.compiles (ih' hs₂.whole)
    exact hs₃.fill (setSelect_fills hc) (by rintro _ ⟨i, hi, rfl⟩; exact hitems.holds i hi)
  | @level root s s₁ s₂ q hreach hc hdiscover hvisit hq ih ih' =>
    intro hroot hs
    obtain ⟨base, hbase, hparts⟩ := hfocused root root hroot (by simp [Graph.LevelOver, hc])
    have hserving := ih'.2 hc base hbase (ih base hparts (.inner hs base))
    exact hserving.whole.offered.push (hserving.served.close hq) rfl rfl
  | @levelOfValue root collection s s₁ s₂ q hreach hc howner hdiscover hselect hq ih ih' =>
    intro hroot hs
    obtain ⟨base, hbase, hparts⟩ := hfocused root collection hroot
      (by simpa [Graph.LevelOver, hc] using howner)
    have hinput := hreach.trans (Graph.owningCollection_reach howner).1
    have hserving := ih' hinput base hbase (ih base hparts (.inner hs base))
    exact hserving.whole.offered.push (hserving.served.close hq) rfl rfl
  | discovered => exact fun _ _ hs => hs
  | discoverJoin hmet hn hjoin _ ih ih' =>
    intro base hparts hs
    obtain ⟨ho, hgains⟩ := ih hs.whole hs.revealing hs.traced
    have hpart := hparts _ ⟨_, _, _, _, _, _, hn⟩ hmet
    have hadds : AddsAhead _ _ := hjoin.leaves
    exact ih' base hparts ⟨hjoin.whole hw hord hscoped hs.whole ho,
      hjoin.reveals hw hord hscoped hs.revealing, hjoin.traced hw hs.traced,
      hs.collected.gain hgains hjoin.grows hpart hjoin.lookup_join, hadds.clauses.trans hs.clauses⟩
  | discoverUnion _ _ hunion _ ih ih' =>
    exact fun base hparts hs => ih' base hparts (hs.same hw hord hscoped hunion hunion.leaves
      (ih hs.whole))
  | discoverSubquery _ _ _ hsub _ ih ih' =>
    exact fun base hparts hs => ih' base hparts (hs.same hw hord hscoped hsub hsub.leaves
      (ih hs.whole))
  | unionNew _ hreach hn hleft _ _ ih ih' =>
    exact hleft.offers_union hw hord hscoped hreach hn ih ih'
  | subqueryNew _ hreach hn hq _ ih =>
    exact fun hs => (ih (.inr (.inr ⟨_, _, hreach, hn, hq⟩)) hs).congr rfl rfl
  | sideTable hreach hn hl => exact offers_sideTable hreach hn
  | sideJoin hn hjoin ih => exact hjoin.offers_sideJoin ih
  | sideUnion hn hunion ih => exact hunion.offers_sideUnion hw hord hscoped hn ih
  | sideLevel hreach hn hk hlevel hl ih =>
    exact hlevel.offers_sideLevel hw hscoped hreach hn hk ih
  | joinKept hkept => exact fun hs _ _ => ⟨hs.offered, fun _ h => .inl h, fun he _ _ _ _ => .inl he⟩
  | joinNew hnew hreach hn hleft hright hp ih ih' ih'' =>
    exact hleft.offers_join hw hord hscoped hapart hnew hreach hn hright hp ih ih' ih''

end Runs

end Compile

end PlanSql

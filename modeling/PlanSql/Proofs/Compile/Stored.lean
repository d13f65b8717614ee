import PlanSql.Proofs.Compile.Effects

/-!
# What holds of everything that is stored

A property of expressions that the rules of expressions keep holds of every expression that a run
stores: of fragments, of the clauses of levels and of what is compiled ahead. With it go properties
of the stored tables, of the names that selected values are given and of the names of user
functions, and what is known if a level selects no values.
-/

namespace PlanSql

open PlanSql.Sql

/-- Properties of the parts of statements. -/
structure Facts where
  fragment : NodeId → Expr → Prop
  expr : Expr → Prop
  table : Table → Prop
  name : String → Prop
  function : String → Prop
  nothing : Prop := True

namespace Sql

variable {F : Facts}

def Source.Each (F : Facts) : Source → Prop
  | .table stored _ => F.table stored
  | .derived .. | .union .. => True
  | .join left _ right on => left.Each F ∧ right.Each F ∧ ∀ e ∈ on, F.expr e

/-- The facts hold of a selected value and its name. -/
def Item.Each (F : Facts) (i : Item Expr) : Prop := F.expr i.expr ∧ ∀ x ∈ i.name, F.name x

def KeysEach (F : Facts) (es : List Expr) : Prop := es ≠ [] ∧ ∀ e ∈ es, F.expr e

theorem KeysEach.of_length {α : Type} {xs : List α} {es : List Expr} (hxs : xs ≠ [])
    (h : es.length = xs.length ∧ ∀ e ∈ es, F.expr e) : KeysEach F es := by
  refine ⟨fun hnil => hxs ?_, h.2⟩
  rw [hnil] at h
  exact List.length_eq_zero_iff.1 h.1.symm

/-- The facts hold of all parts of the clauses. -/
structure Clauses.Each (F : Facts) (c : Clauses Expr Source) : Prop where
  select : ∀ items ∈ c.select, ∀ i ∈ items, i.Each F
  source : ∀ source ∈ c.source, source.Each F
  on : ∀ e ∈ c.on, F.expr e
  filter : ∀ e ∈ c.filter, F.expr e
  groupBy : ∀ es ∈ c.groupBy, KeysEach F es
  having : ∀ e ∈ c.having, F.expr e
  orderBy : ∀ es ∈ c.orderBy, KeysEach F es
  listed : c.select = some [] → F.nothing
  grouped : c.having.isSome → c.groupBy.isSome

/-- The facts hold of all parts of a level. -/
structure Query.Each (F : Facts) (q : Query) : Prop where
  select : ∀ items ∈ q.select, ∀ i ∈ items, i.Each F
  source : q.source.Each F
  on : ∀ e ∈ q.on, F.expr e
  filter : ∀ e ∈ q.filter, F.expr e
  groupBy : ∀ es ∈ q.groupBy, KeysEach F es
  having : ∀ e ∈ q.having, F.expr e
  orderBy : ∀ es ∈ q.orderBy, KeysEach F es
  listed : q.select = some [] → F.nothing
  grouped : q.having.isSome → q.groupBy.isSome
  limited : q.orderBy.isSome → q.limit.isSome

namespace Clauses.Each

variable {c c' : Clauses Expr Source} {e : Expr} {es : List Expr}

theorem empty : (Clauses.empty : Clauses Expr Source).Each F := by
  constructor <;> simp [Clauses.empty]

theorem setSelect {items : List (Item Expr)} {distinct : Bool}
    (h : c.setSelect items distinct = .ok c') (hc : c.Each F) (hi : ∀ i ∈ items, i.Each F)
    (hnil : items = [] → F.nothing) : c'.Each F := by
  obtain rfl := Compile.setSelect_eq_ok h
  exact { hc with
    select := fun _ hx => Option.some.inj hx ▸ hi, listed := fun hx => hnil (Option.some.inj hx) }

theorem setSource {source : Source} (h : c.setSource source = .ok c') (hc : c.Each F)
    (hs : source.Each F) : c'.Each F := by
  obtain rfl := Compile.setSource_eq_ok h
  exact { hc with source := fun _ hx => Option.some.inj hx ▸ hs }

theorem setOn (h : c.setOn e = .ok c') (hc : c.Each F) (he : F.expr e) : c'.Each F := by
  obtain rfl := Compile.setOn_eq_ok h
  exact { hc with on := fun _ hx => Option.some.inj hx ▸ he }

theorem setFilter (h : c.setFilter e = .ok c') (hc : c.Each F) (he : F.expr e) :
    c'.Each F := by
  obtain rfl := Compile.setFilter_eq_ok h
  exact { hc with filter := fun _ hx => Option.some.inj hx ▸ he }

theorem setGroupBy (h : c.setGroupBy es = .ok c') (hc : c.Each F) (hes : KeysEach F es) :
    c'.Each F := by
  obtain rfl := Compile.setGroupBy_eq_ok h
  exact { hc with groupBy := fun _ hx => Option.some.inj hx ▸ hes, grouped := fun _ => rfl }

theorem havingSet (h : Compile.HavingSet c es c') (hc : c.Each F) (hes : ∀ e ∈ es, F.expr e)
    (hgroup : c.groupBy.isSome) : c'.Each F := by
  cases h with
  | none => exact hc
  | some h =>
    rcases Compile.setHaving_cases h with ⟨_, rfl⟩ | ⟨_, rfl⟩
    · exact { hc with
        having := fun _ hx => Option.some.inj hx ▸ hes _ (.head _), grouped := fun _ => hgroup }
    · exact hc

theorem setOrderBy (h : c.setOrderBy es = .ok c') (hc : c.Each F) (hes : KeysEach F es) :
    c'.Each F := by
  obtain rfl := Compile.setOrderBy_eq_ok h
  exact { hc with orderBy := fun _ hx => Option.some.inj hx ▸ hes }

theorem setLimit {n : Nat} (h : c.setLimit n = .ok c') (hc : c.Each F) : c'.Each F := by
  obtain rfl := Compile.setLimit_eq_ok h
  exact { hc with }

theorem close {sortLimit : Nat} {q : Query} (h : c.close sortLimit = .ok q) (hc : c.Each F) :
    q.Each F := by
  obtain ⟨hsource, hselect, hon, hfilter, hgroup, hhaving, horder⟩ := Compile.close_eq_ok h
  exact ⟨hselect ▸ hc.select, hc.source _ hsource, hon ▸ hc.on, hfilter ▸ hc.filter,
    hgroup ▸ hc.groupBy, hhaving ▸ hc.having, horder ▸ hc.orderBy, hselect ▸ hc.listed,
    hhaving ▸ hgroup ▸ hc.grouped, Compile.limit_of_close h⟩

end Clauses.Each

end Sql

namespace Compile

variable {F : Facts} {env : Env} {id top : NodeId} {n : Node} {s : State}

def JoinAhead.Each (F : Facts) (ahead : JoinAhead) : Prop :=
  ahead.source.Each F ∧ ∀ e ∈ ahead.on, F.expr e

/-- A join whose condition stands outside of it. -/
theorem JoinAhead.Each.join {left right : Source} {on : Option Expr} (hl : left.Each F)
    (hr : right.Each F) (hon : ∀ e ∈ on, F.expr e) (how : JoinKind) (visible : Visible) :
    (⟨.join left how right none, on, visible⟩ : JoinAhead).Each F :=
  ⟨⟨hl, hr, fun _ hx => nomatch hx⟩, hon⟩

theorem JoinAhead.Each.asSide {ahead : JoinAhead} (h : ahead.Each F) : ahead.asSide.Each F := by
  obtain ⟨hsource, hon⟩ := h
  unfold JoinAhead.asSide
  split
  · next hjoin =>
    rw [hjoin] at hsource
    exact ⟨hsource.1, hsource.2.1, hon⟩
  · exact hsource

/-- The facts hold of everything that is stored. -/
structure Stored (F : Facts) (s : State) : Prop where
  fragments : ∀ x ∈ s.context.fragments, F.fragment x.1 x.2
  functions : ∀ x ∈ s.context.functions.entries, F.function x.2
  clauses : s.clauses.Each F
  joins : ∀ x ∈ s.joins, x.2.Each F
  unions : ∀ x ∈ s.unions, x.2.1.Each F
  levels : ∀ q ∈ s.levels, q.Each F

/-- The facts hold of what the graph gives, and rules of expressions keep them. -/
structure Lawful (F : Facts) (env : Env) (top : NodeId) : Prop where
  expr : ∀ {id : NodeId} {e : Expr}, F.fragment id e → F.expr e
  descending : ∀ {id : NodeId} {e : Expr}, F.fragment id e → F.expr (.descending e)
  table : ∀ {id : NodeId} {table : Table} {shape : Shape},
    env.graph.node? id = some ⟨.source table, shape⟩ → F.table table
  name : ∀ {id : NodeId} {n : Node} {t : Typed}, env.graph.node? id = some n →
    n.typed? = some t → ∀ x ∈ t.name, F.name x
  function : ∀ k : Nat, F.function (env.functionStem ++ "_" ++ Nat.repr k)
  value : ∀ {s : State} {id : NodeId} {n : Node} {t : Typed} {e : Expr}, env.graph.Reach top id →
    env.graph.node? id = some n → n.typed? = some t →
    (∀ x ∈ s.context.fragments, F.fragment x.1 x.2) →
    (∀ x ∈ s.context.functions.entries, F.function x.2) →
    valueExpr env.graph (s.parts env) id n.kind = .ok e → F.fragment id e
  nothing : ∀ {id : NodeId} {n : Node} {sel : Selection}, env.graph.Reach top id →
    env.graph.node? id = some n → Selection.of? n.kind = some sel → sel.fields = [] →
    F.nothing := by exact fun _ _ _ _ => trivial

namespace Stored

variable {s s' t : State} {id : NodeId} {functions : FunctionNames} {e : Expr} {q : Query}

theorem start (h : ∀ x ∈ functions.entries, F.function x.2) :
    Stored F (.start functions) :=
  ⟨fun _ hx => (nomatch hx), h, .empty, fun _ hx => (nomatch hx), fun _ hx => (nomatch hx),
    fun _ hx => by simp [State.start] at hx⟩

theorem fragment (h : Stored F s) (he : s.context.fragment id = .ok e) :
    F.fragment id e :=
  h.fragments (id, e) (mem_of_lookup (Context.fragment_eq_ok_iff.1 he))

theorem withClauses {c : Clauses Expr Source} (h : Stored F s) (hc : c.Each F) :
    Stored F { s with clauses := c } := { h with clauses := hc }

theorem mark (h : Stored F s) (id : NodeId) : Stored F (s.mark id) := { h with }

theorem inner (h : Stored F s) : Stored F s.inner :=
  { h with fragments := fun _ hx => (nomatch hx), clauses := .empty }

theorem push (h : Stored F s) (hq : q.Each F) : ∀ x ∈ s.levels.push q, x.Each F := by
  intro x hx
  rcases Array.mem_push.1 hx with hx | rfl
  · exact h.levels x hx
  · exact hq

theorem resume (h : Stored F s) (ht : Stored F t) (hq : q.Each F) :
    Stored F (s.resume t q) :=
  { ht with fragments := h.fragments, clauses := h.clauses, levels := ht.push hq }

theorem prepared {input : NodeId} {clause : Clause} {reads : Bool} (h : Stored F s)
    (hprep : Prepared env input clause reads s s') : Stored F s' := by
  cases hprep with
  | same => exact h
  | wrapped hclose _ _ _ =>
    refine { h with
      fragments := fun _ hx => (nomatch hx), clauses := ?_, levels :=
        h.push (h.clauses.close hclose) }
    exact { Clauses.Each.empty with source := fun _ hx => Option.some.inj hx ▸ trivial }

theorem registering {top : NodeId} (hF : Lawful F env top) {function name : String}
    (h : Stored F s)
    (hf : s.context.functions.register function env.functionStem = (name, functions)) :
    Stored F { s with context := { s.context with functions := functions } } := by
  refine { h with functions := ?_ }
  unfold FunctionNames.register at hf
  split at hf
  · obtain ⟨_, rfl⟩ := Prod.mk.inj hf
    exact h.functions
  · obtain ⟨_, rfl⟩ := Prod.mk.inj hf
    intro x hx
    rcases List.mem_append.1 hx with hx | hx
    · exact h.functions x hx
    · obtain rfl := List.mem_singleton.1 hx
      exact hF.function _

theorem emitting {context : Context Expr} (h : Stored F s) (he : F.fragment id e)
    (hadd : s.context.addFragment canonicalText id e = .ok context) :
    Stored F { s with context := context } := by
  rcases Context.addFragment_eq_ok hadd with ⟨_, rfl⟩ | ⟨_, rfl⟩
  · refine { h with fragments := fun x hx => ?_ }
    rcases List.mem_cons.1 hx with rfl | hx
    · exact he
    · exact h.fragments x hx
  · exact h

theorem keepJoin {ahead : JoinAhead} (h : Stored F s) (ha : ahead.Each F) :
    Stored F { s with joins := (id, ahead) :: s.joins } := by
  refine { h with joins := fun x hx => ?_ }
  rcases List.mem_cons.1 hx with rfl | hx
  · exact ha
  · exact h.joins x hx

theorem keepUnion {left right : LevelId} {label : Alias} (h : Stored F s) :
    Stored F { s with unions := (id, .union left right label, label) :: s.unions } := by
  refine { h with unions := fun x hx => ?_ }
  rcases List.mem_cons.1 hx with rfl | hx
  · trivial
  · exact h.unions x hx

end Stored

/-- The facts hold of what a job gives. -/
def Job.Gives (F : Facts) : Job → Prop
  | .values ids es => es.length = ids.length ∧ ∀ e ∈ es, F.expr e
  | .keys sortKeys es => es.length = sortKeys.length ∧ ∀ e ∈ es, F.expr e
  | .items ids entries => entries.length = ids.length ∧ ∀ i ∈ entries, i.Each F
  | .union _ ahead => ahead.1.Each F
  | .side _ source _ => source.Each F
  | .join _ ahead => ahead.Each F
  | _ => True

/-- If a job selects no values, the facts allow it to. -/
def Job.Admitted (F : Facts) : Job → Prop
  | .select sel => sel.fields = [] → F.nothing
  | _ => True

theorem ItemNamed.each {visible : Visible} {t : Typed} {name : Option String}
    (hF : Lawful F env top) (hn : env.graph.node? id = some n) (ht : n.typed? = some t)
    (h : ItemNamed env visible n t name) : ∀ x ∈ name, F.name x := by
  intro x hx
  refine hF.name hn ht x ?_
  unfold ItemNamed at h
  split at h
  · split at h
    · obtain ⟨_, _, _, rfl⟩ := h
      exact (Option.filter_eq_some_iff.1 hx).1
    · exact h ▸ hx
  · exact h ▸ hx

theorem Runs.stored {job : Job} {s' : State} (hF : Lawful F env top)
    (hw : env.graph.WellFormed False) (h : Runs env top job s s') :
    job.Admitted F → Stored F s → Stored F s' ∧ job.Gives F := by
  induction h with
  | visited | noOperands | provideNothing | discovered | subqueryKept =>
    exact fun _ hs => ⟨hs, trivial⟩
  | cached => exact fun _ hs => ⟨hs.mark _, trivial⟩
  | source _ _ hn _ hc =>
    exact fun _ hs => ⟨{ hs with clauses := hs.clauses.setSource hc (hF.table hn) }, trivial⟩
  | selection _ hreach hn hsel _ ih =>
    exact fun _ hs => ⟨(ih (hF.nothing hreach hn hsel) hs).1.mark _, trivial⟩
  | filter _ _ _ _ hprep _ _ he hc ih ih₂ =>
    intro _ hs
    have hs₁ := (ih₂ trivial ((ih trivial hs).1.prepared hprep)).1
    exact ⟨(hs₁.withClauses (hs₁.clauses.setFilter hc (hF.expr (hs₁.fragment he)))).mark _, trivial⟩
  | groupBy _ _ hn _ hprep _ _ hc hc' hconditions hhaving ih ih₂ ih₃ ih₄ =>
    intro _ hs
    obtain ⟨hs₁, hkeys⟩ := ih₂ trivial ((ih trivial hs).1.prepared hprep)
    obtain ⟨hs₂, hlength, hitems⟩ := ih₃ trivial hs₁
    have hsome := (hw.collectionFits hn rfl).2.1
    have hselect := hs₂.clauses.setSelect hc hitems fun hnil => by
      simp [hnil, List.length_eq_zero_iff, hsome, eq_comm] at hlength
    obtain ⟨hs₃, -, hes⟩ := ih₄ trivial
      (hs₂.withClauses (hselect.setGroupBy hc' (.of_length hsome hkeys)))
    -- The condition is added to the level that has just been grouped.
    have hcondition := hs₃.clauses.havingSet hhaving hes
      (by rw [hconditions.leaves.clauses, setGroupBy_eq_ok hc']; rfl)
    exact ⟨(hs₃.withClauses hcondition).mark _, trivial⟩
  | sort _ _ hn _ hprep _ hc ih ih₂ =>
    intro _ hs
    obtain ⟨hs₁, hkeys⟩ := ih₂ trivial ((ih trivial hs).1.prepared hprep)
    have horder := hs₁.clauses.setOrderBy hc (.of_length (hw.collectionFits hn rfl).2.1 hkeys)
    exact ⟨(hs₁.withClauses horder).mark _, trivial⟩
  | slice _ _ _ _ _ hprep hc ih =>
    intro _ hs
    have hs₁ := (ih trivial hs).1.prepared hprep
    exact ⟨(hs₁.withClauses (hs₁.clauses.setLimit hc)).mark _, trivial⟩
  | @joined _ _ _ _ _ _ _ _ _ ahead _ _ _ _ _ _ hc hon ih =>
    intro _ hs
    obtain ⟨hs₁, hsource, hcond⟩ := ih trivial hs
    have hfrom := hs₁.clauses.setSource hc hsource
    refine ⟨{ hs₁ with clauses := ?_ }, trivial⟩
    cases ho : ahead.on with
    | none =>
      rw [ho] at hon
      exact Except.ok.inj hon ▸ hfrom
    | some e =>
      rw [ho] at hon
      exact hfrom.setOn hon (hcond e ho)
  | united _ _ _ _ hc ih =>
    intro _ hs
    obtain ⟨hs₁, hsource⟩ := ih trivial hs
    exact ⟨{ hs₁ with clauses := hs₁.clauses.setSource hc hsource }, trivial⟩
  | value _ _ hreach hn ht _ _ he hadd ih ih₂ =>
    intro _ hs
    have hs₁ := (ih₂ trivial (ih trivial hs).1).1
    have hvalue := hF.value hreach hn ht hs₁.fragments hs₁.functions he
    exact ⟨(hs₁.emitting hvalue hadd).mark _, trivial⟩
  | skipped _ _ ih => exact fun _ hs => ⟨(ih trivial hs).1, trivial⟩
  | operand _ _ _ _ ih ih₂ => exact fun _ hs => ⟨(ih₂ trivial (ih trivial hs).1).1, trivial⟩
  | noValues | noKeys | noItems => exact fun _ hs => ⟨hs, rfl, fun _ hx => nomatch hx⟩
  | valueThen _ _ he _ ih ih₂ =>
    intro _ hs
    have hs₁ := (ih trivial hs).1
    obtain ⟨hs₂, hlength, hes⟩ := ih₂ trivial hs₁
    exact ⟨hs₂, congrArg Nat.succ hlength, List.forall_mem_cons.2 ⟨hF.expr (hs₁.fragment he), hes⟩⟩
  | keyThen _ _ he _ ih ih₂ =>
    intro _ hs
    have hs₁ := (ih trivial hs).1
    obtain ⟨hs₂, hlength, hes⟩ := ih₂ trivial hs₁
    refine ⟨hs₂, congrArg Nat.succ hlength, List.forall_mem_cons.2 ⟨?_, hes⟩⟩
    split
    · exact hF.expr (hs₁.fragment he)
    · exact hF.descending (hs₁.fragment he)
  | itemThen _ _ hn ht hname he _ ih ih₂ =>
    intro _ hs
    have hs₁ := (ih trivial hs).1
    obtain ⟨hs₂, hlength, hitems⟩ := ih₂ trivial hs₁
    exact ⟨hs₂, congrArg Nat.succ hlength,
      List.forall_mem_cons.2 ⟨⟨hF.expr (hs₁.fragment he), hname.each hF hn ht⟩, hitems⟩⟩
  | provideFunction _ hf => exact fun _ hs => ⟨hs.registering hF hf, trivial⟩
  | provideWindow _ ih | provideSubquery _ _ ih => exact fun _ hs => ⟨(ih trivial hs).1, trivial⟩
  | select _ hprep _ hc ih ih₂ =>
    intro hnothing hs
    obtain ⟨hs₁, hlength, hitems⟩ := ih₂ trivial ((ih trivial hs).1.prepared hprep)
    have hselect := hs₁.clauses.setSelect hc hitems fun hnil =>
      hnothing (List.length_eq_zero_iff.1 (by simpa [hnil] using hlength.symm))
    exact ⟨hs₁.withClauses hselect, trivial⟩
  | levelOfValue _ _ _ _ _ hclose ih ih₂ =>
    intro _ hs
    have hs₁ := (ih₂ (by simp [Job.Admitted]) (ih trivial hs.inner).1).1
    exact ⟨hs.resume hs₁ (hs₁.clauses.close hclose), trivial⟩
  | level _ _ _ _ hclose ih ih₂ =>
    intro _ hs
    have hs₁ := (ih₂ trivial (ih trivial hs.inner).1).1
    exact ⟨hs.resume hs₁ (hs₁.clauses.close hclose), trivial⟩
  | discoverJoin _ _ _ _ ih ih₂ | discoverUnion _ _ _ _ ih ih₂
  | discoverSubquery _ _ _ _ _ ih ih₂ =>
    exact fun _ hs => ⟨(ih₂ trivial (ih trivial hs).1).1, trivial⟩
  | unionKept hkept => exact fun _ hs => ⟨hs, hs.unions _ (mem_of_lookup hkept)⟩
  | unionNew _ _ _ _ _ _ ih ih₂ =>
    intro _ hs
    have hs₁ := (ih₂ trivial (ih trivial hs).1).1
    exact ⟨{ hs₁.keepUnion with }, trivial⟩
  | subqueryNew _ _ _ _ _ ih => exact fun _ hs => ⟨{ (ih trivial hs).1 with }, trivial⟩
  | sideTable _ hn _ => exact fun _ hs => ⟨{ hs with }, hF.table hn⟩
  | sideJoin _ _ ih => exact fun _ hs => ⟨(ih trivial hs).1, (ih trivial hs).2.asSide⟩
  | sideUnion _ _ ih => exact ih
  | sideLevel _ _ _ _ _ ih => exact fun _ hs => ⟨{ (ih trivial hs).1 with }, trivial⟩
  | joinKept hkept => exact fun _ hs => ⟨hs, hs.joins _ (mem_of_lookup hkept)⟩
  | joinNew _ _ _ _ _ _ ih ih₂ ih₃ =>
    intro _ hs
    obtain ⟨hs₁, hleft⟩ := ih trivial hs
    obtain ⟨hs₂, hright⟩ := ih₂ trivial hs₁
    obtain ⟨hs₃, -, hes⟩ := ih₃ trivial { hs₂ with }
    have hnew := JoinAhead.Each.join hleft hright fun x hx => hes x (List.mem_of_mem_head? hx)
    exact ⟨hs₃.keepJoin (hnew _ _), hnew _ _⟩

theorem each_of_compile {c c' : Compiler} {g : Graph} {root : NodeId} {s : Statement}
    (hF : Lawful F (c.env g) root) (hw : g.WellFormed False)
    (hfun : ∀ x ∈ c.functions.entries, F.function x.2) (h : c.compile g root = (.ok s, c')) :
    ∀ q ∈ s.levels, q.Each F := by
  obtain ⟨t, hrun, hlevels⟩ := runs_of_compile hw h
  rw [← hlevels]
  exact (hrun.stored hF hw trivial (.start hfun)).1.levels

end Compile

end PlanSql

import PlanSql.Proofs.Build.Validity
import PlanSql.Proofs.Compile.Covered
import PlanSql.Proofs.Values.Answers

/-!
# Runs of a compilation

`Runs env top job s s'` says that a job of the compilation of `top`, started in `s`, has ended in
`s'`. There is one rule for each way in which a job can succeed, with everything that was looked up,
checked and changed on the way. What holds of all statements is proved by induction on these rules;
that every successful compilation of a built graph is such a run is proved here once.
-/

namespace PlanSql

variable {predicate : Option NodeId} {how : JoinKind} {fields : List JoinField} {distinct : Bool}
  {sequence : NodeId}

/-- `id` is met on a walk from `root` that goes neither into the sides of joins and unions nor into
the sequences of subqueries. -/
inductive Graph.Met (g : Graph) (root : NodeId) : NodeId → Prop
  | refl : Met g root root
  | step {id child : NodeId} {n : Node} : Met g root id → g.node? id = some n →
    (∀ left right predicate how fields, n.kind ≠ .join left right predicate how fields) →
    (∀ left right distinct, n.kind ≠ .union left right distinct) →
    child ∈ n.children → n.kind.subquery? ≠ some child → Met g root child

def Kind.isRelational : Kind → Bool
  | .source _ | .project .. | .filter .. | .groupBy .. | .mutate .. | .sort .. | .distinct ..
  | .slice .. | .summary .. | .join .. | .union .. => true
  | _ => false

/-- The operators whose rows become a derived table when they are a side of a join. -/
def Kind.isWrapped : Kind → Bool
  | .project .. | .filter .. | .groupBy .. | .mutate .. | .sort .. | .distinct .. | .slice ..
  | .summary .. => true
  | _ => false

def Kind.visits : Kind → List Operand
  | .column _ => []
  | kind => kind.operands

namespace Graph

variable {g : Graph} {careful : Prop} {id : NodeId} {n : Node}

theorem Met.reach {root : NodeId} (h : g.Met root id) : g.Reach root id := by
  induction h with
  | refl => exact .refl
  | step _ hn _ _ hchild _ ih =>
    refine .step ih ?_
    rw [children, hn]
    exact hchild

theorem WellFormed.shape {kind : Kind} {shape : Shape} (hw : g.WellFormed careful)
    (hn : g.node? id = some ⟨kind, shape⟩) :
    if kind.isRelational then ∃ schema, shape = .collection schema
    else ∃ t, (⟨kind, shape⟩ : Node).typed? = some t := by
  have hfits := hw id _ hn
  cases shape with
  | collection schema => cases kind <;> first | exact ⟨schema, rfl⟩ | exact hfits.elim
  | sequence t | scalar t => cases kind <;> first | exact ⟨t, rfl⟩ | exact hfits.elim

theorem WellFormed.operand_value (hw : g.WellFormed careful) (hn : g.node? id = some n)
    {o : Operand} (ho : o ∈ n.kind.operands) (ht : n.kind.takesCollection o.1 = false)
    (hr : ∀ func input ddof, n.kind ≠ .reduction func input ddof) : g.isCollection o.2 = false := by
  rcases hw.operandFits hn ho with hfits | ⟨hslot, fields, hk⟩
  · refine Compile.not_isCollection_of_isValue ((before_extends g id).isValue ?_)
    unfold OperandFits at hfits
    split at hfits
    · next hk => exact (hr _ _ _ hk).elim
    · rwa [ht] at hfits
  · rw [hk, hslot] at ht
    cases ht

/-- A side of a join is a table, a join, a union or an operator whose rows become a derived
table. -/
theorem WellFormed.side {left right side : NodeId} {schema : Schema} (hw : g.WellFormed careful)
    (hn : g.node? id = some ⟨.join left right predicate how fields, .collection schema⟩)
    (hside : side = left ∨ side = right) : ∃ kind schema,
      g.node? side = some ⟨kind, .collection schema⟩ ∧ kind.isRelational = true := by
  obtain ⟨_, ls, rs, hl, hr, _⟩ := hw.collectionFits hn rfl
  have hcoll : ∃ s, g.schemaOf side = .ok s := by
    rcases hside with rfl | rfl
    · exact ⟨ls, Keeps.schemaOf _ (before_extends g id) _ hl⟩
    · exact ⟨rs, Keeps.schemaOf _ (before_extends g id) _ hr⟩
  obtain ⟨s, hs⟩ := hcoll
  obtain ⟨⟨kind, shape⟩, hm, hshape⟩ := schemaOf_eq_ok_iff.1 hs
  obtain rfl : shape = .collection s := hshape
  refine ⟨kind, s, hm, ?_⟩
  have hshape := hw.shape hm
  split at hshape
  · assumption
  · obtain ⟨t, ht⟩ := hshape
    cases ht

theorem WellFormed.union_sides {left right : NodeId} {schema : Schema}
    (hw : g.WellFormed careful)
    (hn : g.node? id = some ⟨.union left right distinct, .collection schema⟩) :
    g.isCollection left = true ∧ g.isCollection right = true := by
  obtain ⟨hl, hr⟩ := hw.collectionFits hn rfl
  have hext := before_extends g id
  exact ⟨isCollection_iff.2 ⟨schema, Keeps.schemaOf _ hext _ hl⟩,
    isCollection_iff.2 ⟨schema, Keeps.schemaOf _ hext _ hr⟩⟩

end Graph

namespace Compile

open PlanSql.Sql

variable {kind : Kind} {sel : Selection}

/-- An operator that fills the list of selected values. -/
structure Selection where
  input : NodeId
  /-- The clause that decides whether the level is wrapped first. -/
  clause : Clause
  fields : List NodeId
  distinct : Bool

/-- What an operator selects, if it does nothing else. -/
def Selection.of? : Kind → Option Selection
  | .project input fields => some ⟨input, .select, fields, false⟩
  | .mutate input keys mutates => some ⟨input, .select, keys ++ mutates, false⟩
  | .distinct input fields => some ⟨input, .groupBy, fields, true⟩
  | .summary input fields => some ⟨input, .groupBy, fields, false⟩
  | _ => none

theorem mem_operands_of_passThrough? {input : NodeId} (h : kind.passThrough? = some input) :
    (.input, input) ∈ kind.operands := by
  cases kind <;> cases h <;> simp [Kind.operands]

theorem mem_operands_of_subquery? (h : kind.subquery? = some sequence) :
    (.subquery, sequence) ∈ kind.operands := by
  unfold Kind.subquery? at h
  split at h
  · cases h
    simp [Kind.operands, ElementOp.operands, Membership.operands]
  · cases h
    simp [Kind.operands, ElementOp.operands, Membership.operands]
  · cases h

theorem Selection.operands (h : Selection.of? kind = some sel) :
    (.input, sel.input) ∈ kind.operands ∧ ∀ x ∈ sel.fields, ∃ slot, (slot, x) ∈ kind.operands := by
  cases kind with
  | project input fields | distinct input fields | summary input fields =>
    cases h
    exact ⟨.head _, fun x hx =>
      ⟨.fields, .tail _ (List.mem_map_of_mem hx)⟩⟩
  | mutate input keys mutates =>
    cases h
    refine ⟨.head _, fun x hx => ?_⟩
    rcases List.mem_append.1 hx with hx | hx
    · exact ⟨.keys, .tail _ (List.mem_append_left _ (List.mem_map_of_mem hx))⟩
    · exact ⟨.mutates, .tail _ (List.mem_append_right _ (List.mem_map_of_mem hx))⟩
  | _ => cases h

theorem inputs_of_selection (h : Selection.of? kind = some sel) :
    Graph.inputs kind = [sel.input] := by
  cases kind with
  | project | mutate | distinct | summary =>
    cases h
    rfl
  | _ => cases h

namespace State

/-- The state in which a node has been visited. -/
def mark (s : State) (id : NodeId) : State := { s with visited := id :: s.visited }

def withAliases (s : State) (aliases : Aliases) : State :=
  { s with context := { s.context with aliases := aliases } }

/-- The state with more collections visible, later ones before earlier ones. -/
def revealing (s : State) (visible : Visible) : State :=
  { s with visible := visible.reverse ++ s.visible }

/-- The state after the level has become `q` and is read as a derived table for `lifted`. -/
def wrap (s : State) (g : Graph) (q : Query) (label : Alias) (aliases : Aliases) (lifted : NodeId) :
    State := { s with
  clauses := { (.empty : Clauses Expr Source) with source := some (.derived s.levels.size label) }
  visited := s.visited.filter g.isCollection
  visible := [(lifted, label)]
  context := ⟨aliases, [], s.context.functions⟩
  levels := s.levels.push q }

end State

/-- What can happen to a level before a clause is filled. -/
inductive Prepared (env : Env) (input : NodeId) (clause : Clause) (reads : Bool) :
    State → State → Prop
  | same {s : State} : s.clauses.conflicts clause = false →
    (reads = true → addressable env.graph s.visible env.depth input = .ok true) →
    Prepared env input clause reads s s
  | wrapped {s : State} {q : Query} {label : Alias} {aliases : Aliases} {lifted : NodeId} :
    s.clauses.close env.sortLimit = .ok q →
    s.context.aliases.registerDerived input = (label, aliases) →
    lift env.graph env.depth input = .ok lifted →
    (s.clauses.conflicts clause = true ∨
      reads = true ∧ addressable env.graph s.visible env.depth input = .ok false) →
    Prepared env input clause reads s (s.wrap env.graph q label aliases lifted)

/-- An item has a name unless it is a column that shows that name already. -/
def ItemNamed (env : Env) (visible : Visible) (n : Node) (t : Typed)
    (name : Option String) : Prop :=
  match n.kind, t.sourceName with
  | .column collection, some source =>
    if t.dtype = t.sourceDtype then
      ∃ label shown, columnRef env.graph visible env.depth collection source = .ok (label, shown) ∧
        name = t.name.filter (· ≠ shown)
    else name = t.name
  | _, _ => name = t.name

/-- The condition of a join inside another one stands with its sides. -/
def JoinAhead.asSide (ahead : JoinAhead) : Source :=
  match ahead.source with
  | .join l how r _ => .join l how r ahead.on
  | other => other

/-- The condition on groups, if there is one, has been added to the clauses. -/
inductive HavingSet (c : Clauses Expr Source) : List Expr → Clauses Expr Source → Prop
  | none : HavingSet c [] c
  | some {e : Expr} {c' : Clauses Expr Source} : c.setHaving canonicalText e = .ok c' →
    HavingSet c [e] c'

theorem HavingSet.eq {c c' : Clauses Expr Source} {es : List Expr} (h : HavingSet c es c') :
    ∃ condition, c' = { c with having := condition } := by
  cases h with
  | none => exact ⟨c.having, rfl⟩
  | some h =>
    rcases setHaving_cases h with ⟨_, rfl⟩ | ⟨_, rfl⟩
    · exact ⟨_, rfl⟩
    · exact ⟨c'.having, rfl⟩

/-- A part of a compilation, with what it gives. -/
inductive Job where
  | visit (id : NodeId)
  | operands (operands : List Operand)
  | values (ids : List NodeId) (exprs : List Expr)
  | keys (keys : List SortKey) (exprs : List Expr)
  | items (ids : List NodeId) (items : List (Item Expr))
  | provide (id : NodeId) (kind : Kind)
  | select (selection : Selection)
  | level (root : NodeId) (level : LevelId)
  | discover (root : NodeId)
  | union (id : NodeId) (ahead : Source × Alias)
  | subquery (id sequence : NodeId) (level : LevelId)
  | side (side : NodeId) (source : Source) (visible : Visible)
  | join (id : NodeId) (ahead : JoinAhead)

/-- The job, started in the first state, has ended in the second one. -/
inductive Runs (env : Env) (top : NodeId) : Job → State → State → Prop
  -- Nodes
  | visited {id : NodeId} {s : State} : id ∈ s.visited → Runs env top (.visit id) s s
  | cached {id : NodeId} {s : State} : id ∉ s.visited → env.graph.isCollection id = false →
    s.context.hasFragment id = true → Runs env top (.visit id) s (s.mark id)
  | source {id : NodeId} {table : Table} {schema : Schema} {s : State} {label : Alias}
    {aliases : Aliases} {c : Clauses Expr Source} : id ∉ s.visited → env.graph.Reach top id →
    env.graph.node? id = some ⟨.source table, .collection schema⟩ →
    s.context.aliases.register id = (label, aliases) →
    s.clauses.setSource (.table table label) = .ok c →
    Runs env top (.visit id) s
      ({ (s.withAliases aliases).revealing [(id, label)] with clauses := c }.mark id)
  | selection {id : NodeId} {kind : Kind} {schema : Schema} {sel : Selection} {s s' : State} :
    id ∉ s.visited → env.graph.Reach top id →
    env.graph.node? id = some ⟨kind, .collection schema⟩ → Selection.of? kind = some sel →
    Runs env top (.select sel) s s' → Runs env top (.visit id) s (s'.mark id)
  | filter {id input predicate : NodeId} {schema : Schema} {s s₁ s₂ s₃ : State} {e : Expr}
    {c : Clauses Expr Source} : id ∉ s.visited → env.graph.Reach top id →
    env.graph.node? id = some ⟨.filter input predicate, .collection schema⟩ →
    Runs env top (.visit input) s s₁ → Prepared env input .filter true s₁ s₂ →
    env.graph.isCollection predicate = false → Runs env top (.visit predicate) s₂ s₃ →
    s₃.context.fragment predicate = .ok e → s₃.clauses.setFilter e = .ok c →
    Runs env top (.visit id) s ({ s₃ with clauses := c }.mark id)
  | groupBy {id input : NodeId} {keys aggregates : List NodeId} {having : Option NodeId}
    {schema : Schema} {s s₁ s₂ s₃ s₄ s₅ : State} {es conditions : List Expr}
    {items : List (Item Expr)} {c c' c'' : Clauses Expr Source} : id ∉ s.visited →
    env.graph.Reach top id →
    env.graph.node? id = some ⟨.groupBy input keys aggregates having, .collection schema⟩ →
    Runs env top (.visit input) s s₁ → Prepared env input .groupBy true s₁ s₂ →
    Runs env top (.values keys es) s₂ s₃ →
    Runs env top (.items (keys ++ aggregates) items) s₃ s₄ →
    s₄.clauses.setSelect items false = .ok c → c.setGroupBy es = .ok c' →
    Runs env top (.values having.toList conditions) { s₄ with clauses := c' } s₅ →
    HavingSet s₅.clauses conditions c'' →
    Runs env top (.visit id) s ({ s₅ with clauses := c'' }.mark id)
  | sort {id input : NodeId} {keys : List SortKey} {schema : Schema} {s s₁ s₂ s₃ : State}
    {es : List Expr} {c : Clauses Expr Source} : id ∉ s.visited → env.graph.Reach top id →
    env.graph.node? id = some ⟨.sort input keys, .collection schema⟩ →
    Runs env top (.visit input) s s₁ → Prepared env input .orderBy true s₁ s₂ →
    Runs env top (.keys keys es) s₂ s₃ → s₃.clauses.setOrderBy es = .ok c →
    Runs env top (.visit id) s ({ s₃ with clauses := c }.mark id)
  | slice {id input : NodeId} {start stop step : Option Int64} {schema : Schema}
    {s s₁ s₂ : State} {limit : Nat} {c : Clauses Expr Source} : id ∉ s.visited →
    env.graph.Reach top id →
    env.graph.node? id = some ⟨.slice input start stop step, .collection schema⟩ →
    sliceLimit start stop step = .ok limit → Runs env top (.visit input) s s₁ →
    Prepared env input .limit false s₁ s₂ → s₂.clauses.setLimit limit = .ok c →
    Runs env top (.visit id) s ({ s₂ with clauses := c }.mark id)
  | joined {id left right : NodeId} {predicate : Option NodeId} {how : JoinKind}
    {fields : List JoinField} {schema : Schema} {s s₁ : State} {ahead : JoinAhead}
    {c c' : Clauses Expr Source} : id ∉ s.visited → env.graph.Reach top id →
    env.graph.node? id = some ⟨.join left right predicate how fields, .collection schema⟩ →
    Runs env top (.join id ahead) s s₁ → s₁.clauses.setSource ahead.source = .ok c →
    (match ahead.on with
      | some condition => c.setOn condition
      | none => .ok c) = .ok c' →
    Runs env top (.visit id) s ({ s₁.revealing ahead.visible with clauses := c' }.mark id)
  | united {id left right : NodeId} {distinct : Bool} {schema : Schema} {s s₁ : State}
    {ahead : Source × Alias} {c : Clauses Expr Source} : id ∉ s.visited →
    env.graph.Reach top id →
    env.graph.node? id = some ⟨.union left right distinct, .collection schema⟩ →
    Runs env top (.union id ahead) s s₁ → s₁.clauses.setSource ahead.1 = .ok c →
    Runs env top (.visit id) s ({ s₁.revealing [(id, ahead.2)] with clauses := c }.mark id)
  | value {id : NodeId} {n : Node} {t : Typed} {s s₁ s₂ : State} {e : Expr}
    {context : Context Expr} : id ∉ s.visited → s.context.hasFragment id = false →
    env.graph.Reach top id → env.graph.node? id = some n → n.typed? = some t →
    Runs env top (.operands n.kind.visits) s s₁ → Runs env top (.provide id n.kind) s₁ s₂ →
    valueExpr env.graph (s₂.parts env) id n.kind = .ok e →
    s₂.context.addFragment canonicalText id e = .ok context →
    Runs env top (.visit id) s ({ s₂ with context := context }.mark id)
  -- Operands and values
  | noOperands {s : State} : Runs env top (.operands []) s s
  | skipped {slot : Slot} {id : NodeId} {rest : List Operand} {s s' : State} :
    slot = .subquery ∨ env.graph.isCollection id = true → Runs env top (.operands rest) s s' →
    Runs env top (.operands ((slot, id) :: rest)) s s'
  | operand {slot : Slot} {id : NodeId} {rest : List Operand} {s s₁ s' : State} :
    slot ≠ .subquery → env.graph.isCollection id = false → Runs env top (.visit id) s s₁ →
    Runs env top (.operands rest) s₁ s' → Runs env top (.operands ((slot, id) :: rest)) s s'
  | noValues {s : State} : Runs env top (.values [] []) s s
  | valueThen {id : NodeId} {rest : List NodeId} {e : Expr} {es : List Expr} {s s₁ s' : State} :
    env.graph.isCollection id = false → Runs env top (.visit id) s s₁ →
    s₁.context.fragment id = .ok e → Runs env top (.values rest es) s₁ s' →
    Runs env top (.values (id :: rest) (e :: es)) s s'
  | noKeys {s : State} : Runs env top (.keys [] []) s s
  | keyThen {key : SortKey} {rest : List SortKey} {e : Expr} {es : List Expr} {s s₁ s' : State} :
    env.graph.isCollection key.expr = false → Runs env top (.visit key.expr) s s₁ →
    s₁.context.fragment key.expr = .ok e → Runs env top (.keys rest es) s₁ s' →
    Runs env top (.keys (key :: rest) ((if key.ascending then e else .descending e) :: es)) s s'
  | noItems {s : State} : Runs env top (.items [] []) s s
  | itemThen {id : NodeId} {rest : List NodeId} {n : Node} {t : Typed} {e : Expr}
    {name : Option String} {items : List (Item Expr)} {s s₁ s' : State} :
    env.graph.isCollection id = false → Runs env top (.visit id) s s₁ →
    env.graph.node? id = some n → n.typed? = some t → ItemNamed env s₁.visible n t name →
    s₁.context.fragment id = .ok e → Runs env top (.items rest items) s₁ s' →
    Runs env top (.items (id :: rest) (⟨e, name⟩ :: items)) s s'
  -- What a value needs besides its operands
  | provideFunction {id input : NodeId} {function : FunctionId} {f : UserFunction} {s : State}
    {name : String} {functions : FunctionNames} : env.graph.function function = .ok f →
    s.context.functions.register f.name env.functionStem = (name, functions) →
    Runs env top (.provide id (.userMap input function)) s
      { s with context := { s.context with functions := functions } }
  | provideWindow {id : NodeId} {op : WindowOp} {es : List Expr} {s s' : State} :
    Runs env top (.keys op.spec.orderBy es) s s' → Runs env top (.provide id (.window op)) s s'
  | provideSubquery {id sequence : NodeId} {kind : Kind} {level : LevelId} {s s' : State} :
    kind.subquery? = some sequence → Runs env top (.subquery id sequence level) s s' →
    Runs env top (.provide id kind) s s'
  | provideNothing {id : NodeId} {kind : Kind} {s : State} : kind.subquery? = none →
    Runs env top (.provide id kind) s s
  -- Levels
  | select {sel : Selection} {s s₁ s₂ s₃ : State} {items : List (Item Expr)}
    {c : Clauses Expr Source} : Runs env top (.visit sel.input) s s₁ →
    Prepared env sel.input sel.clause true s₁ s₂ → Runs env top (.items sel.fields items) s₂ s₃ →
    s₃.clauses.setSelect items sel.distinct = .ok c →
    Runs env top (.select sel) s { s₃ with clauses := c }
  | level {root : NodeId} {s s₁ s₂ : State} {q : Query} : env.graph.Reach top root →
    env.graph.isCollection root = true → Runs env top (.discover root) s.inner s₁ →
    Runs env top (.visit root) s₁ s₂ → s₂.clauses.close env.sortLimit = .ok q →
    Runs env top (.level root s₂.levels.size) s (s.resume s₂ q)
  | levelOfValue {root collection : NodeId} {s s₁ s₂ : State} {q : Query} :
    env.graph.Reach top root → env.graph.isCollection root = false →
    env.graph.owningCollection root = .ok collection →
    Runs env top (.discover root) s.inner s₁ →
    Runs env top (.select ⟨collection, .select, [root], false⟩) s₁ s₂ →
    s₂.clauses.close env.sortLimit = .ok q →
    Runs env top (.level root s₂.levels.size) s (s.resume s₂ q)
  -- What is compiled ahead
  | discovered {root : NodeId} {s : State} : Runs env top (.discover root) s s
  | discoverJoin {root id left right : NodeId} {predicate : Option NodeId} {how : JoinKind}
    {fields : List JoinField} {schema : Schema} {ahead : JoinAhead} {s s₁ s' : State} :
    env.graph.Met root id →
    env.graph.node? id = some ⟨.join left right predicate how fields, .collection schema⟩ →
    Runs env top (.join id ahead) s s₁ → Runs env top (.discover root) s₁ s' →
    Runs env top (.discover root) s s'
  | discoverUnion {root id left right : NodeId} {distinct : Bool} {schema : Schema}
    {ahead : Source × Alias} {s s₁ s' : State} : env.graph.Met root id →
    env.graph.node? id = some ⟨.union left right distinct, .collection schema⟩ →
    Runs env top (.union id ahead) s s₁ → Runs env top (.discover root) s₁ s' →
    Runs env top (.discover root) s s'
  | discoverSubquery {root id sequence : NodeId} {n : Node} {level : LevelId} {s s₁ s' : State} :
    env.graph.Met root id → env.graph.node? id = some n → n.kind.subquery? = some sequence →
    Runs env top (.subquery id sequence level) s s₁ → Runs env top (.discover root) s₁ s' →
    Runs env top (.discover root) s s'
  | unionKept {id : NodeId} {ahead : Source × Alias} {s : State} :
    s.unions.lookup id = some ahead → Runs env top (.union id ahead) s s
  | unionNew {id left right : NodeId} {schema : Schema} {leftLevel rightLevel : LevelId}
    {label : Alias} {aliases : Aliases} {s s₁ s₂ : State} : s.unions.lookup id = none →
    env.graph.Reach top id →
    env.graph.node? id = some ⟨.union left right false, .collection schema⟩ →
    Runs env top (.level left leftLevel) s s₁ → Runs env top (.level right rightLevel) s₁ s₂ →
    s₂.context.aliases.registerDerived id = (label, aliases) →
    Runs env top (.union id (.union leftLevel rightLevel label, label)) s
      { s₂.withAliases aliases with
        unions := (id, .union leftLevel rightLevel label, label) :: s₂.unions }
  | subqueryKept {id sequence : NodeId} {level : LevelId} {s : State} :
    s.subqueries.lookup id = some level → Runs env top (.subquery id sequence level) s s
  | subqueryNew {id sequence : NodeId} {n : Node} {level : LevelId} {s s₁ : State} :
    s.subqueries.lookup id = none → env.graph.Reach top id → env.graph.node? id = some n →
    n.kind.subquery? = some sequence → Runs env top (.level sequence level) s s₁ →
    Runs env top (.subquery id sequence level) s
      { s₁ with subqueries := (id, level) :: s₁.subqueries }
  | sideTable {id : NodeId} {table : Table} {schema : Schema} {label : Alias} {aliases : Aliases}
    {s : State} : env.graph.Reach top id →
    env.graph.node? id = some ⟨.source table, .collection schema⟩ →
    s.context.aliases.register id = (label, aliases) →
    Runs env top (.side id (.table table label) [(id, label)]) s
      ((s.withAliases aliases).revealing [(id, label)])
  | sideJoin {id left right : NodeId} {predicate : Option NodeId} {how : JoinKind}
    {fields : List JoinField} {schema : Schema} {ahead : JoinAhead} {s s' : State} :
    env.graph.node? id = some ⟨.join left right predicate how fields, .collection schema⟩ →
    Runs env top (.join id ahead) s s' → Runs env top (.side id ahead.asSide ahead.visible) s s'
  | sideUnion {id left right : NodeId} {distinct : Bool} {schema : Schema}
    {ahead : Source × Alias} {s s' : State} :
    env.graph.node? id = some ⟨.union left right distinct, .collection schema⟩ →
    Runs env top (.union id ahead) s s' → Runs env top (.side id ahead.1 [(id, ahead.2)]) s s'
  | sideLevel {id : NodeId} {kind : Kind} {schema : Schema} {level : LevelId} {label : Alias}
    {aliases : Aliases} {s s₁ : State} : env.graph.Reach top id →
    env.graph.node? id = some ⟨kind, .collection schema⟩ → kind.isWrapped = true →
    Runs env top (.level id level) s s₁ →
    s₁.context.aliases.registerDerived id = (label, aliases) →
    Runs env top (.side id (.derived level label) [(id, label)]) s (s₁.withAliases aliases)
  | joinKept {id : NodeId} {ahead : JoinAhead} {s : State} : s.joins.lookup id = some ahead →
    Runs env top (.join id ahead) s s
  | joinNew {id left right : NodeId} {predicate : Option NodeId} {how : JoinKind}
    {fields : List JoinField} {schema : Schema} {leftSource rightSource : Source}
    {leftVisible rightVisible : Visible} {es : List Expr} {s s₁ s₂ s₃ : State} :
    s.joins.lookup id = none → env.graph.Reach top id →
    env.graph.node? id = some ⟨.join left right predicate how fields, .collection schema⟩ →
    Runs env top (.side left leftSource leftVisible) s s₁ →
    Runs env top (.side right rightSource rightVisible) s₁ s₂ →
    Runs env top (.values predicate.toList es) (s₂.revealing (leftVisible ++ rightVisible)) s₃ →
    Runs env top
      (.join id ⟨.join leftSource how rightSource none, es.head?, leftVisible ++ rightVisible⟩) s
      { s₃ with
        joins :=
          (id, ⟨.join leftSource how rightSource none, es.head?, leftVisible ++ rightVisible⟩) ::
          s₃.joins }

/-- A level over a join selects from the tables of the join and has its condition. -/
theorem joined_clauses {ahead : JoinAhead} {c c' c'' : Clauses Expr Source}
    (hc : c.setSource ahead.source = .ok c')
    (hc' : (match ahead.on with
      | some condition => c'.setOn condition
      | none => .ok c') = .ok c'') :
    c'' = { c with source := some ahead.source, on := ahead.on.or c.on } := by
  obtain rfl := setSource_eq_ok hc
  split at hc'
  · next e hon =>
    obtain rfl := setOn_eq_ok hc'
    rw [hon, Option.some_or]
  · next hon =>
    cases hc'
    rw [hon, Option.none_or]

/-- The action, when it succeeds, is a run. -/
def Running {α : Type} (env : Env) (top : NodeId) (m : Compile α) (job : α → Job) : Prop :=
  ∀ s, Meets m s (fun a s' => Runs env top (job a) s s') fun _ _ => True

/-- The steps into what is below `top` are runs. -/
structure Steps.Running (env : Env) (top : NodeId) (steps : Steps) : Prop where
  visit : ∀ id, env.graph.Reach top id →
    Compile.Running env top (steps.visit id) fun _ => .visit id
  level : ∀ root, env.graph.Reach top root →
    Compile.Running env top (steps.level root) (.level root)
  join : ∀ id left right predicate how fields schema, env.graph.Reach top id →
    env.graph.node? id = some ⟨.join left right predicate how fields, .collection schema⟩ →
    Compile.Running env top (steps.join id left right predicate how) (.join id)

section Primitives

variable {α : Type} {s : State} {post : α → State → Prop} {id : NodeId}

/-- A check that succeeds tells its result. -/
theorem Meets.checked {r : Except Error α} (h : ∀ a, r = .ok a → post a s) :
    Meets (Compile.check r) s post fun _ _ => True := Meets.check h fun _ _ => trivial

theorem Meets.fragmentOf {post : Expr → State → Prop}
    (h : ∀ e, s.context.fragment id = .ok e → post e s) :
    Meets (Compile.fragment id) s post fun _ _ => True := Meets.fragment h fun _ _ => trivial

theorem Meets.filled {f : Clauses Expr Source → Except Error (Clauses Expr Source)}
    {post : Unit → State → Prop} (h : ∀ c, f s.clauses = .ok c → post () { s with clauses := c }) :
    Meets (Compile.fill f) s post fun _ _ => True := Meets.fill h fun _ _ => trivial

theorem Meets.aliasOf {post : Alias → State → Prop}
    (h : ∀ label aliases, s.context.aliases.register id = (label, aliases) →
      post label (s.withAliases aliases)) : Meets (Compile.aliasOf id) s post fun _ _ => True :=
  .modifyGet (h _ _ rfl)

theorem Meets.derivedAlias {post : Alias → State → Prop}
    (h : ∀ label aliases, s.context.aliases.registerDerived id = (label, aliases) →
      post label (s.withAliases aliases)) :
        Meets (Compile.derivedAlias id) s post fun _ _ => True :=
  .modifyGet (h _ _ rfl)

end Primitives

section Walks

/-- Everything that a walk has on its stack is met from the root. -/
structure Walk.Within (g : Graph) (root : NodeId) (w : Walk) : Prop where
  graph : w.graph = g
  topDown : w.order = .topDown
  stack : ∀ x ∈ w.stack, g.Met root x.1

/-- Everything that a walk still has to look at is met from the root. -/
structure Walk.Meeting (g : Graph) (root : NodeId) (w : Walk) :
    Prop extends Walk.Within g root w where
  pending : ∀ last ∈ w.pending, ∀ child ∈ w.visibleChildren last, g.Met root child

variable {g : Graph} {root id : NodeId} {w w' : Walk} {n : Node}

theorem Walk.Meeting.next (h : Walk.Meeting g root w) (hn : w.next = some (id, w')) :
    g.Met root id ∧ Walk.Within g root w' ∧ w'.pending = some id := by
  obtain ⟨hid, hgraph, hdown, hstack, hlast⟩ := Walk.next_of_forall h.topDown h.stack h.pending hn
  exact ⟨hid, ⟨hgraph.trans h.graph, hdown, hstack⟩, hlast⟩

theorem Walk.Within.prune (h : Walk.Within g root w) (hlast : w.pending = some id) :
    Walk.Meeting g root (w.prune id) := by
  refine ⟨⟨h.1, h.2, h.3⟩, fun last hl child hchild => ?_⟩
  obtain rfl : id = last := Option.some.inj (hlast.symm.trans hl)
  simp [PlanSql.Walk.visibleChildren, PlanSql.Walk.prune] at hchild

section Children

variable (h : Walk.Within g root w) (hlast : w.pending = some id) (hid : g.Met root id)
  (hn : g.node? id = some n)
  (hjoin : ∀ left right predicate how fields, n.kind ≠ .join left right predicate how fields)
  (hunion : ∀ left right distinct, n.kind ≠ .union left right distinct)

include h hlast hid hn hjoin hunion

/-- A walk that does not look at the sequence of a subquery goes on with what is met from the
root. -/
theorem Walk.Within.meeting (hq : ∀ child ∈ w.visibleChildren id, n.kind.subquery? ≠ some child) :
    Walk.Meeting g root w := by
  refine ⟨h, fun last hl child hchild => ?_⟩
  obtain rfl : id = last := Option.some.inj (hlast.symm.trans hl)
  have hvisible := hchild
  simp only [PlanSql.Walk.visibleChildren, h.graph] at hchild
  split at hchild
  · simp at hchild
  · have hmem := (List.mem_filter.1 hchild).1
    rw [Graph.children, hn] at hmem
    exact .step hid hn hjoin hunion hmem (hq child hvisible)

theorem Walk.Within.hide (hq : n.kind.subquery? = some sequence) :
    Walk.Meeting g root (w.hide id sequence) := by
  refine Walk.Within.meeting ⟨h.1, h.2, h.3⟩ hlast hid hn hjoin hunion fun child hchild hsub => ?_
  obtain rfl : sequence = child := Option.some.inj (hq.symm.trans hsub)
  simp [PlanSql.Walk.visibleChildren, PlanSql.Walk.hide] at hchild

end Children

end Walks

section Running

variable {env : Env} {top : NodeId} {steps : Steps} {s : State}
variable {id root : NodeId} {n : Node} {schema : Schema}
variable {input left right : NodeId} {clause : Clause} {reads : Bool} {t : Typed}
  {ids : List NodeId}

theorem tableSource_running {table : Table} {post : Source × Alias → State → Prop}
    (h : ∀ label aliases, s.context.aliases.register id = (label, aliases) →
      post (.table table label, label) ((s.withAliases aliases).revealing [(id, label)])) :
    Meets (tableSource id table) s post fun _ _ => True :=
  .bind (Meets.aliasOf fun label aliases hl => .bind (.modify (.pure (h label aliases hl))))

theorem promote_running (hcause : s.clauses.conflicts clause = true ∨
      reads = true ∧ addressable env.graph s.visible env.depth input = .ok false) :
    Meets (promote env input) s (fun _ s' => Prepared env input clause reads s s') fun _ _ =>
      True := by
  refine .bind (Meets.finishLevel (fun q hq => ?_) fun _ _ => trivial)
  refine .bind (Meets.derivedAlias fun label aliases hl => ?_)
  refine .bind (Meets.checked fun lifted hlift => .bind (.modify (Meets.filled fun c hc => ?_)))
  cases hc
  exact .wrapped hq hl hlift hcause

theorem prepare_running :
    Meets (prepare env input clause reads) s (fun _ s' => Prepared env input clause reads s s')
      fun _ _ => True := by
  refine .bind (.get ?_)
  split
  · next hfull => exact promote_running (.inl hfull)
  · next hfree =>
    have hfree : s.clauses.conflicts clause = false := by simpa using hfree
    split
    · next hreads =>
      refine .bind (Meets.checked fun b hb => ?_)
      cases b with
      | false => exact promote_running (.inr ⟨hreads, hb⟩)
      | true => exact .pure (.same hfree fun _ => hb)
    · next hreads => exact .pure (.same hfree fun h => absurd h hreads)

theorem itemName_running {post : Option String → State → Prop}
    (h : ∀ name, ItemNamed env s.visible n t name → post name s) :
    Meets (Steps.itemName env n t) s post fun _ _ => True := by
  unfold Steps.itemName
  split
  · next collection source hk hsource =>
    split
    · next hcast =>
      refine .bind (Meets.resolve (fun r hr => .pure (h _ ?_)) fun _ _ => trivial)
      obtain ⟨label, shown⟩ := r
      simp only [ItemNamed, hk, hsource, if_pos hcast]
      exact ⟨label, shown, hr, rfl⟩
    · next hcast => exact .pure (h _ (by simp only [ItemNamed, hk, hsource, if_neg hcast]))
  · next hno =>
    refine .pure (h _ ?_)
    unfold ItemNamed
    split
    · next collection source hk hsource => exact (hno collection source hk hsource).elim
    · rfl

variable (hw : env.graph.WellFormed False) (hsteps : steps.Running env top)

include hsteps

/-- A value below `top`. -/
structure IsOwnValue (g : Graph) (top id : NodeId) : Prop where
  reach : g.Reach top id
  value : g.isCollection id = false

theorem values_running (hids : ∀ id ∈ ids, IsOwnValue env.graph top id) :
    Running env top (steps.values ids) (.values ids) := by
  induction ids with
  | nil => exact fun s => .pure .noValues
  | cons id rest ih =>
    intro s
    obtain ⟨hreach, hvalue⟩ := hids id (.head _)
    refine .bind ((hsteps.visit id hreach s).imp fun _ s₁ hvisit =>
      .bind (Meets.fragmentOf fun e he => ?_))
    exact .bind ((ih (fun x hx => hids x (.tail _ hx)) s₁).imp fun es s' hrest =>
      .pure (.valueThen hvalue hvisit he hrest))

theorem sortKeys_running {keys : List SortKey}
    (hkeys : ∀ key ∈ keys, IsOwnValue env.graph top key.expr) :
    Running env top (steps.sortKeys keys) (.keys keys) := by
  induction keys with
  | nil => exact fun s => .pure .noKeys
  | cons key rest ih =>
    intro s
    obtain ⟨hreach, hvalue⟩ := hkeys key (.head _)
    refine .bind ((hsteps.visit key.expr hreach s).imp fun _ s₁ hvisit =>
      .bind (Meets.fragmentOf fun e he => ?_))
    exact .bind ((ih (fun x hx => hkeys x (.tail _ hx)) s₁).imp fun es s' hrest =>
      .pure (.keyThen hvalue hvisit he hrest))

theorem operands_running {os : List Operand} (hos : ∀ o ∈ os, env.graph.Reach top o.2) :
    Running env top (steps.operands env os) fun _ => .operands os := by
  induction os with
  | nil => exact fun s => .pure .noOperands
  | cons o rest ih =>
    intro s
    obtain ⟨slot, id⟩ := o
    have hrest := ih fun x hx => hos x (.tail _ hx)
    rw [Steps.operands]
    split
    · next h =>
      refine .bind ((hsteps.visit id (hos _ (.head _)) s).imp fun _ s₁ hvisit => ?_)
      exact (hrest s₁).imp fun _ s' hrun => .operand h.1 (by simpa using h.2) hvisit hrun
    · next h =>
      refine (hrest s).imp fun _ s' hrun => .skipped ?_ hrun
      by_cases hslot : slot = .subquery
      · exact .inl hslot
      · exact .inr (by simpa [hslot] using h)

theorem selectItems_running (hids : ∀ id ∈ ids, env.graph.Reach top id) :
    Running env top (steps.selectItems env ids) (.items ids) := by
  induction ids with
  | nil => exact fun s => .pure .noItems
  | cons id rest ih =>
    intro s
    have hitem : Meets (steps.selectItem env id) s (fun item s₁ => ∃ n t,
        Runs env top (.visit id) s s₁ ∧ env.graph.node? id = some n ∧ n.typed? = some t ∧
          ItemNamed env s₁.visible n t item.name ∧ s₁.context.fragment id = .ok item.expr)
        fun _ _ => True := by
      refine .bind ((hsteps.visit id (hids id (.head _)) s).imp fun _ s₁ hvisit =>
        .bind (Meets.checked fun n hn => ?_))
      split
      · exact .throw trivial
      · next t ht =>
        refine .bind (itemName_running fun name hname => .bind (Meets.fragmentOf fun e he => ?_))
        exact .pure ⟨n, t, hvisit, Graph.node_eq_ok_iff.1 hn, ht, hname, he⟩
    refine .bind (hitem.imp fun item s₁ ⟨n, t, hvisit, hn, ht, hname, he⟩ => ?_)
    have hvalue := not_isCollection_of_typed hn ht
    exact .bind ((ih (fun x hx => hids x (.tail _ hx)) s₁).imp fun items s' hrest =>
      .pure (.itemThen hvalue hvisit hn ht hname he hrest))

theorem unionAhead_running (hreach : env.graph.Reach top id)
    (hn : env.graph.node? id = some ⟨.union left right distinct, .collection schema⟩) :
    Running env top (unionAhead steps id left right distinct) (.union id) := by
  intro s
  refine .bind (.get ?_)
  split
  · next ahead hkept => exact .pure (.unionKept hkept)
  · next hnew =>
    split
    · exact .throw trivial
    · next hall =>
      obtain rfl : distinct = false := by simpa using hall
      have hleft := hreach.operand hn (o := (.left, left)) (.head _)
      have hright := hreach.operand hn (o := (.right, right)) (by simp [Kind.operands])
      refine .bind ((hsteps.level left hleft s).imp fun leftLevel s₁ hleft => ?_)
      refine .bind ((hsteps.level right hright s₁).imp fun rightLevel s₂ hright => ?_)
      refine .bind (Meets.derivedAlias fun label aliases hl => .bind (.modify (.pure ?_)))
      exact .unionNew hnew hreach hn hleft hright hl

theorem subqueryAhead_running (hreach : env.graph.Reach top id)
    (hn : env.graph.node? id = some n) (hq : n.kind.subquery? = some sequence) :
    Running env top (subqueryAhead steps id sequence) (.subquery id sequence) := by
  intro s
  refine .bind (.get ?_)
  split
  · next level hkept => exact .pure (.subqueryKept hkept)
  · next hnew =>
    have hsequence := hreach.operand hn (mem_operands_of_subquery? hq)
    refine .bind ((hsteps.level sequence hsequence s).imp fun level s₁ hlevel => ?_)
    exact .bind (.modify (.pure (.subqueryNew hnew hreach hn hq hlevel)))

theorem joinSide_running {side : NodeId} (hreach : env.graph.Reach top side)
    (hn : env.graph.node? side = some ⟨kind, .collection schema⟩) (hk : kind.isRelational = true) :
    Running env top (joinSide env steps side) fun r => .side side r.1 r.2 := by
  intro s
  refine .bind (Meets.checked fun m hm => ?_)
  cases hn.symm.trans (Graph.node_eq_ok_iff.1 hm)
  dsimp only
  split
  · exact .bind (tableSource_running fun label aliases hl => .pure (.sideTable hreach hn hl))
  · exact .bind ((hsteps.join side _ _ _ _ _ _ hreach hn s).imp fun ahead s' hjoin =>
      .pure (.sideJoin hn hjoin))
  · exact .bind ((unionAhead_running hsteps hreach hn s).imp fun ahead s' hunion =>
      .pure (.sideUnion hn hunion))
  · next hsource hjoin hunion =>
    have hwrapped : kind.isWrapped = true := by
      cases kind with
      | source table => exact (hsource table rfl).elim
      | join left right predicate how fields =>
        exact (hjoin left right predicate how fields rfl).elim
      | union left right distinct => exact (hunion left right distinct rfl).elim
      | _ => first | rfl | cases hk
    refine .bind ((hsteps.level side hreach s).imp fun level s₁ hlevel => ?_)
    exact .bind (Meets.derivedAlias fun label aliases hl =>
      .pure (.sideLevel hreach hn hwrapped hlevel hl))

include hw

theorem joinAhead_running
    (hreach : env.graph.Reach top id)
    (hn : env.graph.node? id = some ⟨.join left right predicate how fields, .collection schema⟩) :
    Running env top (joinAhead env steps id left right predicate how) (.join id) := by
  intro s
  refine .bind (.get ?_)
  split
  · next ahead hkept => exact .pure (.joinKept hkept)
  · next hnew =>
    obtain ⟨_, _, hnl, hkl⟩ := hw.side hn (.inl rfl)
    obtain ⟨_, _, hnr, hkr⟩ := hw.side hn (.inr rfl)
    have hleft := hreach.operand hn (o := (.left, left)) (.head _)
    have hright := hreach.operand hn (o := (.right, right)) (by simp [Kind.operands])
    refine .bind ((joinSide_running hsteps hleft hnl hkl s).imp fun l s₁ hleft => ?_)
    refine .bind ((joinSide_running hsteps hright hnr hkr s₁).imp
      fun r s₂ hright => .bind (.modify ?_))
    cases predicate with
    | none =>
      exact .bind (.pure (.bind (.modify (.pure (.joinNew hnew hreach hn hleft hright .noValues)))))
    | some p =>
      have hp : (.predicate, p) ∈ (Kind.join left right (some p) how fields).operands := by
        simp [Kind.operands, Operand.perhaps, Operand.many]
      have hvalue := hw.operand_value hn hp rfl (by simp)
      refine .bind ((hsteps.visit p (hreach.operand hn hp) _).imp fun _ s₃ hvisit =>
        .bind (Meets.fragmentOf fun e he => ?_))
      exact .bind (.pure (.bind (.modify (.pure
        (.joinNew hnew hreach hn hleft hright (.valueThen hvalue hvisit he .noValues))))))

theorem discoverNode_running {w : Walk} (hroot : env.graph.Reach top root)
    (hid : env.graph.Met root id) (hwalk : Walk.Within env.graph root w)
    (hlast : w.pending = some id) :
    Meets (discoverNode env steps id w) s (fun w' s' => Walk.Meeting env.graph root w' ∧
      ∀ t, Runs env top (.discover root) s' t → Runs env top (.discover root) s t)
      fun _ _ => True := by
  have hreach := hroot.trans hid.reach
  refine .bind (.get ?_)
  split
  · exact .pure ⟨hwalk.prune hlast, fun t ht => ht⟩
  · refine .bind (Meets.checked fun n hn => ?_)
    have hn := Graph.node_eq_ok_iff.1 hn
    obtain ⟨kind, shape⟩ := n
    dsimp only
    split
    · obtain ⟨schema, rfl⟩ := hw.shape hn
      refine .bind ((hsteps.join id _ _ _ _ _ _ hreach hn s).imp fun ahead s' hjoin =>
        .pure ⟨hwalk.prune hlast, fun t ht => .discoverJoin hid hn hjoin ht⟩)
    · obtain ⟨schema, rfl⟩ := hw.shape hn
      refine .bind ((unionAhead_running hsteps hreach hn s).imp fun ahead s' hunion =>
        .pure ⟨hwalk.prune hlast, fun t ht => .discoverUnion hid hn hunion ht⟩)
    · next hjoin hunion =>
      split
      · next sequence hq =>
        refine .bind ((subqueryAhead_running hsteps hreach hn hq s).imp fun level s' hsub =>
          .pure ⟨hwalk.hide hlast hid hn hjoin hunion hq, ?_⟩)
        exact fun t ht => .discoverSubquery hid hn hq hsub ht
      · next hq =>
        exact .pure ⟨hwalk.meeting hlast hid hn hjoin hunion (by simp [hq]), fun t ht => ht⟩

theorem discover_running (hroot : env.graph.Reach top root) :
    Running env top (discover env steps root) fun _ => .discover root := by
  have hmany : ∀ count (w : Walk) s, Walk.Meeting env.graph root w →
      Meets (discoverFrom env steps count w) s (fun _ s' => Runs env top (.discover root) s s')
        fun _ _ => True := by
    intro count
    induction count with
    | zero => exact fun w s _ => .pure .discovered
    | succ count ih =>
      intro w s hwalk
      unfold discoverFrom
      split
      · exact .pure .discovered
      · next id w' hnext =>
        obtain ⟨hid, hwalk', hlast⟩ := hwalk.next hnext
        refine .bind ((discoverNode_running hw hsteps hroot hid hwalk' hlast).imp fun w'' s₁ h =>
          ?_)
        exact (ih w'' s₁ h.1).imp fun _ s' hrest => h.2 s' hrest
  refine fun s => hmany _ _ s ⟨⟨rfl, rfl, ?_⟩, by simp [Walk.start]⟩
  simp only [Walk.start, List.mem_singleton, forall_eq]
  exact .refl

omit hw in
theorem compileSelect_running (sel : Selection) (hinput : env.graph.Reach top sel.input)
    (hfields : ∀ x ∈ sel.fields, env.graph.Reach top x) :
    Running env top (compileSelect env steps sel.input sel.clause sel.fields sel.distinct)
      fun _ => .select sel := by
  intro s
  refine .bind ((hsteps.visit sel.input hinput s).imp fun _ s₁ hvisit => ?_)
  refine .bind (prepare_running.imp fun _ s₂ hprep => ?_)
  refine .bind ((selectItems_running hsteps hfields s₂).imp fun items s₃ hitems => ?_)
  exact Meets.filled fun c hc => .select hvisit hprep hitems hc

/-- The action is what a visit of `id` does before it notes that. -/
def Visiting (env : Env) (top id : NodeId) (m : Compile Unit) (s : State) : Prop :=
  Meets m s (fun _ s' => Runs env top (.visit id) s (s'.mark id)) fun _ _ => True

section Operators

variable {id : NodeId} {schema : Schema} (hid : id ∉ s.visited) (hreach : env.graph.Reach top id)
variable {input : NodeId} {left right : NodeId}

include hid hreach

theorem compileFilter_running {predicate : NodeId}
    (hn : env.graph.node? id = some ⟨.filter input predicate, .collection schema⟩) :
    Visiting env top id (compileFilter env steps input predicate) s := by
  have hp : (.predicate, predicate) ∈ (Kind.filter input predicate).operands := by
    simp [Kind.operands]
  have hvalue := hw.operand_value hn hp rfl (by simp)
  refine .bind ((hsteps.visit input (hreach.operand hn (.head _)) s).imp
    fun _ s₁ hvisit => ?_)
  refine .bind (prepare_running.imp fun _ s₂ hprep => ?_)
  refine .bind ((hsteps.visit predicate (hreach.operand hn hp) s₂).imp fun _ s₃ hpred => ?_)
  exact .bind (Meets.fragmentOf fun e he => Meets.filled fun c hc =>
    .filter hid hreach hn hvisit hprep hvalue hpred he hc)

theorem compileGroupBy_running {keys aggregates : List NodeId} {having : Option NodeId}
    (hn : env.graph.node? id = some ⟨.groupBy input keys aggregates having, .collection schema⟩) :
    Visiting env top id (compileGroupBy env steps input keys aggregates having) s := by
  have hkey : ∀ x ∈ keys, (.keys, x) ∈ (Kind.groupBy input keys aggregates having).operands :=
    fun x hx => by simp [Kind.operands, Operand.many, hx]
  have hkeys : ∀ x ∈ keys, IsOwnValue env.graph top x := fun x hx =>
    ⟨hreach.operand hn (hkey x hx), hw.operand_value hn (hkey x hx) rfl (by simp)⟩
  have hfields : ∀ x ∈ keys ++ aggregates, env.graph.Reach top x := by
    intro x hx
    rcases List.mem_append.1 hx with hx | hx
    · exact (hkeys x hx).reach
    · exact hreach.operand hn (o := (.aggregates, x)) (by simp [Kind.operands, Operand.many, hx])
  refine .bind ((hsteps.visit input (hreach.operand hn (.head _)) s).imp
    fun _ s₁ hvisit => ?_)
  refine .bind (prepare_running.imp fun _ s₂ hprep => ?_)
  refine .bind ((values_running hsteps hkeys s₂).imp fun es s₃ hes => ?_)
  refine .bind ((selectItems_running hsteps hfields s₃).imp fun items s₄ hitems => ?_)
  refine .bind (Meets.filled fun c hc => .bind (Meets.filled fun c' hc' => ?_))
  cases having with
  | none =>
    have hrun := Runs.groupBy hid hreach hn hvisit hprep hes hitems hc hc' .noValues .none
    exact .pure hrun
  | some predicate =>
    have hp : (.having, predicate) ∈
        (Kind.groupBy input keys aggregates (some predicate)).operands := by
      simp [Kind.operands, Operand.perhaps, Operand.many]
    have hvalue := hw.operand_value hn hp rfl (by simp)
    refine .bind ((hsteps.visit predicate (hreach.operand hn hp) _).imp fun _ s₅ hpred => ?_)
    exact .bind (Meets.fragmentOf fun e he => Meets.filled fun c'' hc'' =>
      .groupBy hid hreach hn hvisit hprep hes hitems hc hc'
        (.valueThen hvalue hpred he .noValues) (.some hc''))

theorem compileSort_running {keys : List SortKey}
    (hn : env.graph.node? id = some ⟨.sort input keys, .collection schema⟩) :
    Visiting env top id (compileSort env steps input keys) s := by
  have hkeys : ∀ key ∈ keys, IsOwnValue env.graph top key.expr := by
    intro key hkey
    have hmem : (.sortKeys, key.expr) ∈ (Kind.sort input keys).operands :=
      .tail _ (List.mem_map_of_mem (List.mem_map_of_mem hkey))
    exact ⟨hreach.operand hn hmem, hw.operand_value hn hmem rfl (by simp)⟩
  refine .bind ((hsteps.visit input (hreach.operand hn (.head _)) s).imp
    fun _ s₁ hvisit => ?_)
  refine .bind (prepare_running.imp fun _ s₂ hprep => ?_)
  refine .bind ((sortKeys_running hsteps hkeys s₂).imp fun es s₃ hes => ?_)
  exact Meets.filled fun c hc => .sort hid hreach hn hvisit hprep hes hc

omit hw in
theorem compileSlice_running {start stop step : Option Int64}
    (hn : env.graph.node? id = some ⟨.slice input start stop step, .collection schema⟩) :
    Visiting env top id (compileSlice env steps input start stop step) s := by
  refine .bind (Meets.checked fun limit hlimit => ?_)
  refine .bind ((hsteps.visit input (hreach.operand hn (.head _)) s).imp
    fun _ s₁ hvisit => ?_)
  refine .bind (prepare_running.imp fun _ s₂ hprep => ?_)
  exact Meets.filled fun c hc => .slice hid hreach hn hlimit hvisit hprep hc

omit hw in
theorem compileJoin_running
    (hn : env.graph.node? id = some ⟨.join left right predicate how fields, .collection schema⟩) :
    Visiting env top id (compileJoin steps id left right predicate how) s := by
  refine .bind ((hsteps.join id _ _ _ _ _ _ hreach hn s).imp fun ahead s₁ hjoin => ?_)
  refine .bind (.modify (.bind (Meets.filled fun c hc => ?_)))
  split
  · next condition hon =>
    exact Meets.filled fun c' hc' => .joined hid hreach hn hjoin hc (by rw [hon]; exact hc')
  · next hon => exact .pure (.joined hid hreach hn hjoin hc (by rw [hon]))

omit hw in
theorem compileUnion_running
    (hn : env.graph.node? id = some ⟨.union left right distinct, .collection schema⟩) :
    Visiting env top id (compileUnion steps id left right distinct) s := by
  refine .bind ((unionAhead_running hsteps hreach hn s).imp fun ahead s₁ hunion => ?_)
  exact .bind (.modify (Meets.filled fun c hc => .united hid hreach hn hunion hc))

end Operators

theorem provide_running (hreach : env.graph.Reach top id) (hn : env.graph.node? id = some n) :
    Running env top (provide env steps id n.kind) fun _ => .provide id n.kind := by
  intro s
  obtain ⟨kind, shape⟩ := n
  unfold provide
  dsimp only
  split
  · refine .bind (Meets.checked fun f hf => .bind (.modifyGet (.pure ?_)))
    exact .provideFunction hf rfl
  · next op =>
    have hkeys : ∀ key ∈ op.spec.orderBy, IsOwnValue env.graph top key.expr := by
      intro key hkey
      have hmem := WindowOp.mem_operands_of_orderBy hkey
      exact ⟨hreach.operand hn hmem, hw.operand_value hn hmem rfl (by simp)⟩
    refine .bind (.get (.bind (Meets.checked fun _ _ => .bind (Meets.checked fun _ _ => ?_))))
    exact .bind ((sortKeys_running hsteps hkeys s).imp fun es s' hes => .pure (.provideWindow hes))
  · split
    · next sequence hq =>
      exact .bind ((subqueryAhead_running hsteps hreach hn hq s).imp fun level s' hsub =>
        .pure (.provideSubquery hq hsub))
    · next hq => exact .pure (.provideNothing hq)

theorem compileExpr_running (hid : id ∉ s.visited) (hreach : env.graph.Reach top id)
    (hnew : s.context.hasFragment id = false) (hn : env.graph.node? id = some n)
    (ht : n.typed? = some t) :
    Visiting env top id (compileExpr env steps id n.kind) s := by
  have hrest : ∀ s₁, Runs env top (.operands n.kind.visits) s s₁ → Meets (do
      provide env steps id n.kind
      let p := (← get).parts env
      emit id (← check (valueExpr env.graph p id n.kind))) s₁
      (fun _ s' => Runs env top (.visit id) s (s'.mark id)) fun _ _ => True := by
    intro s₁ hoperands
    refine .bind ((provide_running hw hsteps hreach hn s₁).imp fun _ s₂ hprovide => ?_)
    refine .bind (.get (.bind (Meets.checked fun e he => ?_)))
    exact Meets.emit (fun c hc => .value hid hnew hreach hn ht hoperands hprovide he hc)
      fun _ _ => trivial
  unfold compileExpr
  split
  · next collection hkind => exact hrest s (by rw [hkind]; exact .noOperands)
  · next hcolumn =>
    have hoperands : ∀ o ∈ n.kind.operands, env.graph.Reach top o.2 := fun o ho =>
      hreach.operand hn ho
    refine .bind ((operands_running hsteps hoperands s).imp fun _ s₁ hrun => hrest s₁ ?_)
    have hvisits : n.kind.visits = n.kind.operands := by
      cases hk : n.kind with
      | column collection => exact (hcolumn collection hk).elim
      | _ => rfl
    rwa [hvisits]

theorem compileKind_running (hid : id ∉ s.visited) (hreach : env.graph.Reach top id)
    (hnew : env.graph.isCollection id = true ∨ s.context.hasFragment id = false)
    (hn : env.graph.node? id = some n) :
    Visiting env top id (compileKind env steps id n.kind) s := by
  obtain ⟨kind, shape⟩ := n
  have hshape := hw.shape hn
  split at hshape
  · next hk =>
    obtain ⟨schema, rfl⟩ := hshape
    have hselect : ∀ sel, Selection.of? kind = some sel → Visiting env top id
        (compileSelect env steps sel.input sel.clause sel.fields sel.distinct) s := by
      intro sel hsel
      obtain ⟨hinput, hfields⟩ := Selection.operands hsel
      refine (compileSelect_running hsteps sel (hreach.operand hn hinput) (fun x hx => ?_) s).imp
        fun _ s' hrun => .selection hid hreach hn hsel hrun
      obtain ⟨slot, hx⟩ := hfields x hx
      exact hreach.operand hn hx
    cases kind with
    | source table =>
      refine .bind (tableSource_running fun label aliases hl => Meets.filled fun c hc => ?_)
      exact .source hid hreach hn hl hc
    | project input fields => exact hselect _ rfl
    | filter input predicate => exact compileFilter_running hw hsteps hid hreach hn
    | groupBy input keys aggregates having => exact compileGroupBy_running hw hsteps hid hreach hn
    | mutate input keys mutates => exact hselect _ rfl
    | sort input keys => exact compileSort_running hw hsteps hid hreach hn
    | distinct input fields => exact hselect _ rfl
    | slice input start stop step => exact compileSlice_running hsteps hid hreach hn
    | summary input fields => exact hselect _ rfl
    | join left right predicate how fields => exact compileJoin_running hsteps hid hreach hn
    | union left right distinct => exact compileUnion_running hsteps hid hreach hn
    | _ => cases hk
  · next hk =>
    obtain ⟨t, ht⟩ := hshape
    have hvalue := not_isCollection_of_typed hn ht
    have hnew : s.context.hasFragment id = false := by simpa [hvalue] using hnew
    have hrun := compileExpr_running hw hsteps hid hreach hnew hn ht
    cases kind <;> first | exact hrun | exact absurd rfl hk

theorem visitNode_running (hreach : env.graph.Reach top id) :
    Running env top (visitNode env steps id) fun _ => .visit id := by
  intro s
  refine .bind (.get ?_)
  split
  · next hid => exact .pure (.visited hid)
  · next hid =>
    split
    · next hnew =>
      refine .bind (Meets.checked fun n hn => .bind ?_)
      have hn := Graph.node_eq_ok_iff.1 hn
      have hnew : env.graph.isCollection id = true ∨ s.context.hasFragment id = false := by
        simpa using hnew
      exact (compileKind_running hw hsteps hid hreach hnew hn).imp fun _ s' hrun => .modify hrun
    · next hold =>
      have hold : env.graph.isCollection id = false ∧ s.context.hasFragment id = true := by
        simpa using hold
      exact .modify (.cached hid hold.1 hold.2)

theorem compileLevel_running (hroot : env.graph.Reach top root) :
    Running env top (compileLevel env steps root) (.level root) := by
  intro s
  refine .bind (.get (.bind (.set ?_)))
  refine .bind ((discover_running hw hsteps hroot s.inner).imp fun _ s₁ hdiscover => ?_)
  split
  · next hcoll =>
    exact .bind ((hsteps.visit root hroot s₁).imp fun _ s₂ hvisit => Meets.closeLevel
      (fun q hq => .level hroot hcoll hdiscover hvisit hq) fun _ _ => trivial)
  · next hcoll =>
    have hcoll : env.graph.isCollection root = false := by simpa using hcoll
    refine .bind (.bind (Meets.checked fun collection howner => ?_))
    have hcollection := hroot.trans (Graph.owningCollection_reach howner).1
    have hselect : Running env top (compileSelect env steps collection .select [root] false)
        fun _ => .select ⟨collection, .select, [root], false⟩ :=
      compileSelect_running hsteps ⟨collection, .select, [root], false⟩ hcollection
        (by simpa using hroot)
    exact (hselect s₁).imp fun _ s₂ hrun => Meets.closeLevel
      (fun q hq => .levelOfValue hroot hcoll howner hdiscover hrun hq) fun _ _ => trivial

end Running

/-- The steps of a compilation are runs, however deep they may go. -/
theorem Steps.upTo_running {env : Env} (hw : env.graph.WellFormed False) (top : NodeId)
    (depth : Nat) : (Steps.upTo env depth).Running env top := by
  induction depth with
  | zero =>
    exact ⟨fun _ _ _ => .throw trivial, fun _ _ _ => .throw trivial,
      fun _ _ _ _ _ _ _ _ _ _ => .throw trivial⟩
  | succ depth ih =>
    exact ⟨fun _ => visitNode_running hw ih, fun _ => compileLevel_running hw ih,
      fun _ _ _ _ _ _ _ => joinAhead_running hw ih⟩

theorem exists_of_compile {α : Type} {r : Except Error Statement × Compiler} {f : Statement → α}
    {a : α} (h : r.1.toOption.map f = some a) : ∃ s c', r = (.ok s, c') ∧ f s = a := by
  obtain ⟨result, c'⟩ := r
  cases result with
  | error e => cases h
  | ok s => exact ⟨s, c', rfl, Option.some.inj h⟩

theorem runs_of_compile {c c' : Compiler} {g : Graph} {root : NodeId} {s : Statement}
    (hw : g.WellFormed False) (h : c.compile g root = (.ok s, c')) :
    ∃ t, Runs (c.env g) root (.level root s.root) (.start c.functions) t ∧ t.levels = s.levels := by
  have hsteps : (Steps.forGraph (c.env g)).Running (c.env g) root := Steps.upTo_running hw root _
  have hrun : Meets (statement (c.env g) root) (.start c.functions)
      (fun s t => Runs (c.env g) root (.level root s.root) (.start c.functions) t ∧
        t.levels = s.levels) fun _ _ => True :=
    .bind ((hsteps.level root .refl _).imp fun level t hlevel =>
      .bind (.get (.pure ⟨hlevel, rfl⟩)))
  unfold Compiler.compile at h
  split at h
  · next s' t hok =>
    obtain rfl := Except.ok.inj (Prod.mk.inj h).1
    exact ⟨t, hrun.of_ok hok⟩
  · cases (Prod.mk.inj h).1

end Compile

end PlanSql

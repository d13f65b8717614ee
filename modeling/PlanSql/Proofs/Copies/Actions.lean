import PlanSql.Proofs.Copies.Values
import PlanSql.Proofs.Reading.Statements
import PlanSql.Proofs.Values.Calls

/-!
# Actions side by side

Two compilations that go through copies of the same nodes are in states that match: whatever one of
them has stored for a node, the other one has stored for its copy, and all that is stored calls only
functions that have a name. `Goes` says that an action keeps this. It has one law for each primitive
action, so that the proofs about longer ones follow their text.
-/

namespace PlanSql

def Both {ε σ α β : Type} (m : EStateM ε σ α) (m' : EStateM ε σ β) (s s' : σ)
    (post : α → β → σ → σ → Prop) (fault : ε → ε → σ → σ → Prop) : Prop :=
  match m s, m' s' with
  | .ok a t, .ok b t' => post a b t t'
  | .error e t, .error e' t' => fault e e' t t'
  | _, _ => False

namespace Both

variable {ε σ α β γ δ : Type} {m : EStateM ε σ α} {m' : EStateM ε σ β} {f : α → EStateM ε σ γ}
  {f' : β → EStateM ε σ δ} {s s' : σ} {post : α → β → σ → σ → Prop}
  {fault fault' : ε → ε → σ → σ → Prop} {next : γ → δ → σ → σ → Prop}

theorem mono {post' : α → β → σ → σ → Prop} (h : Both m m' s s' post fault)
    (hp : ∀ a b t t', post a b t t' → post' a b t t')
    (hf : ∀ e e' t t', fault e e' t t' → fault' e e' t t') : Both m m' s s' post' fault' := by
  unfold Both at h ⊢
  cases hm : m s <;> cases hm' : m' s' <;> rw [hm, hm'] at h
  · exact hp _ _ _ _ h
  · exact h
  · exact h
  · exact hf _ _ _ _ h

theorem bind (h : Both m m' s s' (fun a b t t' => Both (f a) (f' b) t t' next fault) fault) :
    Both (m >>= f) (m' >>= f') s s' next fault := by
  unfold Both at h
  show Both (EStateM.bind m f) (EStateM.bind m' f') s s' next fault
  unfold Both EStateM.bind
  cases hm : m s <;> cases hm' : m' s' <;> rw [hm, hm'] at h
  · exact h
  · exact h.elim
  · exact h.elim
  · exact h

end Both

namespace Compile

open PlanSql.Sql PlanSql.Reading

variable {stem : String} {F F' : FunctionNames}

/-! ## Known functions -/

def FunctionNames.Knows (F : FunctionNames) (name : String) : Prop :=
  isBuiltIn name = true ∨ F.Gives name

theorem FunctionNames.Grows.knows (h : F.Grows stem F') {name : String} (hn : F.Knows name) :
    F'.Knows name := hn.imp_right h.gives

def Known (F : FunctionNames) (e : Expr) : Prop := Calls F.Knows e

theorem Known.mono {e : Expr} (he : Known F e) (h : F.Grows stem F') :
    Known F' e := fun name hname => h.knows (he name hname)

/-- All that is stored calls known functions only. -/
structure Informed (F : FunctionNames) (s : State) : Prop where
  fragments : ∀ x e, s.context.fragments.lookup x = some e → Known F e
  clauses : ∀ e ∈ clauseExprs s.clauses, Known F e
  joins : ∀ j ∈ s.joins, ∀ e ∈ conditions j.2.source ++ j.2.on.toList, Known F e
  unions : ∀ u ∈ s.unions, ∀ e ∈ conditions u.2.1, Known F e
  levels : ∀ q ∈ s.levels, ∀ e ∈ levelExprs q, Known F e

theorem Informed.mono {s : State} (hs : Informed F s) (h : F.Grows stem F') : Informed F' s where
  fragments := fun x e he => (hs.fragments x e he).mono h
  clauses := fun e he => (hs.clauses e he).mono h
  joins := fun j hj e he => (hs.joins j hj e he).mono h
  unions := fun u hu e he => (hs.unions u hu e he).mono h
  levels := fun q hq e he => (hs.levels q hq e he).mono h

/-! ## Filling clauses -/

/-- Filling a slot adds the expressions `es`. It fails only for what the clauses are. -/
structure Adds (es : List Expr) (f : Clauses Expr Source → Except Error (Clauses Expr Source)) :
    Prop where
  exprs : ∀ cl cl', f cl = .ok cl' → ∀ e ∈ clauseExprs cl', e ∈ clauseExprs cl ∨ e ∈ es
  error : ∀ cl err, f cl = .error err → err ≠ .overflow ∧ err ≠ .inconsistent .cyclic ∧
    ∀ ids, err = err.rename ids

theorem occupied_fixed (clause : String) : Clauses.occupied clause ≠ .overflow ∧
    Clauses.occupied clause ≠ .inconsistent .cyclic ∧
      ∀ ids, Clauses.occupied clause = (Clauses.occupied clause).rename ids :=
  ⟨by simp [Clauses.occupied], by simp [Clauses.occupied], fun _ => rfl⟩

theorem adds_setSelect (items : List (Item Expr)) (distinct : Bool) :
    Adds (items.map Item.expr) (·.setSelect items distinct) where
  exprs cl cl' h e he := by
    rw [setSelect_eq_ok h] at he
    grind [clauseExprs]
  error cl err h := by
    unfold Clauses.setSelect at h
    split at h <;> cases h
    exact occupied_fixed _

theorem adds_setSource (source : Source) : Adds (conditions source) (·.setSource source) where
  exprs cl cl' h e he := by
    rw [setSource_eq_ok h] at he
    grind [clauseExprs]
  error cl err h := by
    unfold Clauses.setSource at h
    split at h <;> cases h
    exact occupied_fixed _

theorem adds_setOn (condition : Expr) : Adds [condition] (·.setOn condition) where
  exprs cl cl' h e he := by
    rw [setOn_eq_ok h] at he
    grind [clauseExprs]
  error cl err h := by
    unfold Clauses.setOn at h
    split at h <;> cases h
    exact occupied_fixed _

theorem adds_setFilter (condition : Expr) : Adds [condition] (·.setFilter condition) where
  exprs cl cl' h e he := by
    rw [setFilter_eq_ok h] at he
    grind [clauseExprs]
  error cl err h := by
    unfold Clauses.setFilter at h
    split at h <;> cases h
    exact occupied_fixed _

theorem adds_setGroupBy (keys : List Expr) : Adds keys (·.setGroupBy keys) where
  exprs cl cl' h e he := by
    rw [setGroupBy_eq_ok h] at he
    grind [clauseExprs]
  error cl err h := by
    unfold Clauses.setGroupBy at h
    split at h <;> cases h
    exact occupied_fixed _

theorem adds_setHaving (text : Expr → String) (condition : Expr) :
    Adds [condition] fun cl => cl.setHaving text condition where
  exprs cl cl' h e he := by
    rcases setHaving_cases h with ⟨-, rfl⟩ | ⟨-, rfl⟩
    · grind [clauseExprs]
    · exact .inl he
  error cl err h := by
    unfold Clauses.setHaving at h
    split at h
    · cases h
    · split at h <;> cases h
      exact ⟨by simp, by simp, fun _ => rfl⟩

theorem adds_setOrderBy (keys : List Expr) : Adds keys (·.setOrderBy keys) where
  exprs cl cl' h e he := by
    rw [setOrderBy_eq_ok h] at he
    grind [clauseExprs]
  error cl err h := by
    unfold Clauses.setOrderBy at h
    split at h <;> cases h
    exact occupied_fixed _

theorem adds_setLimit (n : Nat) : Adds [] (·.setLimit n) where
  exprs cl cl' h e he := by
    rw [setLimit_eq_ok h] at he
    exact .inl he
  error cl err h := by
    unfold Clauses.setLimit at h
    split at h <;> cases h
    exact occupied_fixed _

namespace Copy

variable {env env' : Env}

/-! ## Matching states -/

/-- The same join, compiled ahead for a node and for its copy. -/
structure SameJoin (c : Copy env env') (a a' : JoinAhead) : Prop where
  source : a'.source = a.source
  on : a'.on = a.on
  visible : a'.visible = a.visible.map (Prod.map c.map id) ∧ ∀ v ∈ a.visible, c.has v.1

/-- What one state has stored for a node, the other one has stored for its copy. -/
structure Matched (c : Copy env env') (s s' : State) : Prop where
  names : c.names s.context.functions s'.context.functions
  count : s'.context.aliases.count = s.context.aliases.count
  aliases : ∀ {x}, c.has x → s'.context.aliases.find? (c.map x) = s.context.aliases.find? x
  fragments : ∀ {x}, c.has x →
    s'.context.fragments.lookup (c.map x) = s.context.fragments.lookup x
  clauses : s'.clauses = s.clauses
  visited : ∀ {x}, c.has x → (c.map x ∈ s'.visited ↔ x ∈ s.visited)
  visible : ∀ {x}, c.has x → s'.visible.lookup (c.map x) = s.visible.lookup x
  joins : ∀ {x}, c.has x →
    Option.Rel c.SameJoin (s.joins.lookup x) (s'.joins.lookup (c.map x))
  unions : ∀ {x}, c.has x → s'.unions.lookup (c.map x) = s.unions.lookup x
  subqueries : ∀ {x}, c.has x → s'.subqueries.lookup (c.map x) = s.subqueries.lookup x
  levels : s'.levels = s.levels
  informed : Informed s.context.functions s

variable {c : Copy env env'} {α β γ δ : Type}

theorem Matched.start (h : c.names F F') :
    c.Matched (.start F) (.start F') where
  names := h
  count := rfl
  aliases := fun _ => rfl
  fragments := fun _ => rfl
  clauses := rfl
  visited := fun _ => by simp [State.start]
  visible := fun _ => rfl
  joins := fun _ => .none
  unions := fun _ => rfl
  subqueries := fun _ => rfl
  levels := rfl
  informed := by
    constructor <;> simp [State.start, Context.ofFunctions, clauseExprs, Clauses.empty]

theorem Matched.parts {s s' : State} (h : c.Matched s s') :
    c.SameParts (s.parts env) (s'.parts env') where
  fragment {x} hx := by
    show c.Agree Eq (s.context.fragment x) (s'.context.fragment (c.map x))
    rw [Context.fragment, Context.fragment, h.fragments hx]
    cases s.context.fragments.lookup x with
    | none => exact c.faulty rfl
    | some e => exact .pure rfl
  column {x} hx field := columnRef_agree (fun _ => h.visible) hx (reaches_depth hx) field
  level {x} hx := by
    show (s'.subqueries.lookup (c.map x)).getD 0 = (s.subqueries.lookup x).getD 0
    rw [h.subqueries hx]

/-! ## Actions -/

/-- Started in `s` and `s'`, the actions go on in matching states and with related results, or fail
with the same error, up to ids. Names of functions are only added. -/
def GoesAt (c : Copy env env') (s s' : State) (m : Compile α) (m' : Compile β)
    (R : FunctionNames → α → β → Prop) : Prop :=
  Both m m' s s'
    (fun a b t t' => c.Matched t t' ∧
      s.context.functions.Grows env.functionStem t.context.functions ∧ R t.context.functions a b)
    fun e e' t t' => (c.fault e ∧ e' = e.rename c.map) ∧
      s.context.functions.Grows env.functionStem t.context.functions ∧
        c.names t.context.functions t'.context.functions

/-- The actions go on from all matching states that have the names `F`. -/
def Goes (c : Copy env env') (F : FunctionNames) (m : Compile α) (m' : Compile β)
    (R : FunctionNames → α → β → Prop) : Prop :=
  ∀ s s', c.Matched s s' → F.Grows env.functionStem s.context.functions → c.GoesAt s s' m m' R

/-- Nothing is said of the results. -/
def Whatever (_ : FunctionNames) (_ : α) (_ : β) : Prop := True

def Equal (_ : FunctionNames) (a b : α) : Prop := b = a

section Laws

variable {s s' : State} {F : FunctionNames} {m : Compile α} {m' : Compile β} {f : α → Compile γ}
  {f' : β → Compile δ} {R : FunctionNames → α → β → Prop} {S : FunctionNames → γ → δ → Prop}

theorem GoesAt.bind (h : c.GoesAt s s' m m' R)
    (hf : ∀ a b t t', c.Matched t t' →
      s.context.functions.Grows env.functionStem t.context.functions → R t.context.functions a b →
      c.GoesAt t t' (f a) (f' b) S) : c.GoesAt s s' (m >>= f) (m' >>= f') S := by
  refine Both.bind (h.mono (fun a b t t' ⟨ht, hgrows, hR⟩ => ?_) fun _ _ _ _ hfault => hfault)
  refine (hf a b t t' ht hgrows hR).mono ?_ ?_
  · rintro a b u u' ⟨hu, hgrows', hS⟩
    exact ⟨hu, hgrows.trans hgrows', hS⟩
  · rintro e e' u u' ⟨he, hgrows', hnames⟩
    exact ⟨he, hgrows.trans hgrows', hnames⟩

theorem GoesAt.check {r : Except Error α} {r' : Except Error β} {Q : α → β → Prop}
    (hs : c.Matched s s') (h : c.Agree Q r r')
    (hf : ∀ a b, r = .ok a → Q a b → c.GoesAt s s' (f a) (f' b) S) :
    c.GoesAt s s' (Compile.check r >>= f) (Compile.check r' >>= f') S := by
  refine Both.bind ?_
  unfold Both Compile.check
  cases r with
  | ok a =>
    cases r' with
    | ok b => exact hf a b rfl h
    | error e => exact h.elim
  | error e =>
    cases r' with
    | ok b => exact h.elim
    | error e' => exact ⟨h, .refl, hs.names⟩

theorem GoesAt.checked {r : Except Error α} {r' : Except Error β} {Q : α → β → Prop}
    (hs : c.Matched s s') (h : c.Agree Q r r')
    (hR : ∀ a b, r = .ok a → Q a b → R s.context.functions a b) :
    c.GoesAt s s' (Compile.check r) (Compile.check r') R := by
  have hpure : c.GoesAt s s' (Compile.check r >>= Pure.pure) (Compile.check r' >>= Pure.pure) R :=
    .check hs h fun a b ha hab => ⟨hs, .refl, hR a b ha hab⟩
  rwa [bind_pure, bind_pure] at hpure

namespace Goes

theorem pure {a : α} {b : β} (h : ∀ F', F.Grows env.functionStem F' → R F' a b) :
    c.Goes F (Pure.pure a : Compile α) (Pure.pure b) R :=
  fun _ _ hs hgrows => ⟨hs, .refl, h _ hgrows⟩

theorem throw {e e' : Error} (h : c.fault e ∧ e' = e.rename c.map) :
    c.Goes F (MonadExcept.throw e : Compile α) (MonadExcept.throw e' : Compile β) R :=
  fun _ _ hs _ => ⟨h, .refl, hs.names⟩

theorem bind (h : c.Goes F m m' R)
    (hf : ∀ F' a b, F.Grows env.functionStem F' → R F' a b → c.Goes F' (f a) (f' b) S) :
    c.Goes F (m >>= f) (m' >>= f') S := by
  intro s s' hs hgrows
  refine (h s s' hs hgrows).bind fun a b t t' ht hgrows' hR => ?_
  exact hf _ a b (hgrows.trans hgrows') hR t t' ht .refl

/-- What the first action gives does not matter. -/
theorem next (h : c.Goes F m m' Whatever)
    (hf : ∀ F' a b, F.Grows env.functionStem F' → c.Goes F' (f a) (f' b) S) :
    c.Goes F (m >>= f) (m' >>= f') S := h.bind fun F' a b hF _ => hf F' a b hF

/-- The first action gives the same on both sides. -/
theorem equal {m' : Compile α} {f' : α → Compile δ} (h : c.Goes F m m' Equal)
    (hf : ∀ F' a, F.Grows env.functionStem F' → c.Goes F' (f a) (f' a) S) :
    c.Goes F (m >>= f) (m' >>= f') S := by
  refine h.bind fun F' a b hF hab => ?_
  obtain rfl : b = a := hab
  exact hf F' b hF

theorem ite {p : Prop} [Decidable p] {n : Compile α} {n' : Compile β}
    (h : p → c.Goes F m m' R) (h' : ¬ p → c.Goes F n n' R) :
    c.Goes F (if p then m else n) (if p then m' else n') R := by
  split
  · next hp => exact h hp
  · next hp => exact h' hp

theorem get {f : State → Compile γ} {f' : State → Compile δ}
    (h : ∀ s s', c.Matched s s' → F.Grows env.functionStem s.context.functions →
      c.GoesAt s s' (f s) (f' s') S) : c.Goes F (MonadState.get >>= f) (MonadState.get >>= f') S :=
  fun s s' hs hgrows => Both.bind (h s s' hs hgrows)

theorem check {r : Except Error α} {r' : Except Error β} {Q : α → β → Prop} (h : c.Agree Q r r')
    (hf : ∀ a b, r = .ok a → Q a b → c.Goes F (f a) (f' b) S) :
    c.Goes F (Compile.check r >>= f) (Compile.check r' >>= f') S :=
  fun s s' hs hgrows => .check hs h fun a b ha hab => hf a b ha hab s s' hs hgrows

/-- What follows a look at a node is followed with the two forms of the node. -/
theorem node {f : Node → Compile γ} {f' : Node → Compile δ} {x : NodeId} (hx : c.has x)
    (h : ∀ n functions, env.graph.node? x = some n →
      (∀ input function, n.kind = .userMap input function →
        env'.graph.function (functions function) = env.graph.function function) →
      c.Goes F (f n) (f' (n.rename c.map functions)) S) :
    c.Goes F (Compile.check (env.graph.node x) >>= f)
      (Compile.check (env'.graph.node (c.map x)) >>= f') S := by
  obtain ⟨functions, hcopy, hfun⟩ := c.copied hx
  have hagree : c.Agree (fun n n' => n' = n.rename c.map functions) (env.graph.node x)
      (env'.graph.node (c.map x)) := by
    rw [Graph.node, Graph.node, hcopy]
    cases env.graph.node? x with
    | none => exact c.faulty rfl
    | some n => rfl
  refine check hagree fun n n' hn hn' => ?_
  subst hn'
  have hfound := Graph.node_eq_ok_iff.1 hn
  refine h n functions hfound fun input function hk => hfun input function n.shape ?_
  rw [hfound, ← hk]

/-- An action that changes the state where it matters to no name of a function. -/
theorem modifyGet {f : State → α × State} {f' : State → β × State}
    (h : ∀ s s', c.Matched s s' → F.Grows env.functionStem s.context.functions →
      c.Matched (f s).2 (f' s').2 ∧ R (f s).2.context.functions (f s).1 (f' s').1)
    (hsame : ∀ s, (f s).2.context.functions = s.context.functions) :
    c.Goes F (MonadStateOf.modifyGet f : Compile α) (MonadStateOf.modifyGet f' : Compile β) R := by
  intro s s' hs hgrows
  obtain ⟨hmatched, hR⟩ := h s s' hs hgrows
  refine ⟨hmatched, ?_, hR⟩
  rw [hsame s]
  exact .refl

end Goes

end Laws

/-! ## Primitive actions -/

section Primitives

variable {F : FunctionNames} {x : NodeId} {s s' : State} {e : Expr}

/-- An entry for a node and one for its copy are found alike. -/
theorem lookup_cons_eq {l l' : List (NodeId × α)} {a : α} {y : NodeId} (hx : c.has x) (hy : c.has y)
    (h : l'.lookup (c.map y) = l.lookup y) :
    ((c.map x, a) :: l').lookup (c.map y) = ((x, a) :: l).lookup y := by
  have hbeq : (c.map y == c.map x) = (y == x) := by
    rw [Bool.eq_iff_iff, beq_iff_eq, beq_iff_eq]
    exact map_eq_iff hy hx
  rw [List.lookup_cons, List.lookup_cons, hbeq, h]

theorem register_eq (hs : c.Matched s s') (hx : c.has x) :
    (s'.context.aliases.register (c.map x)).1 = (s.context.aliases.register x).1 ∧
      (s'.context.aliases.register (c.map x)).2.count = (s.context.aliases.register x).2.count ∧
      ∀ y, c.has y → (s'.context.aliases.register (c.map x)).2.find? (c.map y) =
        (s.context.aliases.register x).2.find? y := by
  rw [Aliases.register, Aliases.register, hs.aliases hx]
  cases s.context.aliases.find? x with
  | some label => exact ⟨rfl, hs.count, fun y hy => hs.aliases hy⟩
  | none =>
    refine ⟨by rw [hs.count], by rw [hs.count], fun y hy => ?_⟩
    rw [hs.count]
    exact lookup_cons_eq hx hy (hs.aliases hy)

theorem Matched.withAliases (hs : c.Matched s s') {a a' : Aliases} (hcount : a'.count = a.count)
    (hfind : ∀ x, c.has x → a'.find? (c.map x) = a.find? x) :
    c.Matched { s with context := { s.context with aliases := a } }
      { s' with context := { s'.context with aliases := a' } } :=
  { hs with
    count := hcount
    aliases := fun hx => hfind _ hx
    informed := { hs.informed with } }

theorem aliasOf_goes (hx : c.has x) : c.Goes F (aliasOf x) (aliasOf (c.map x)) Equal := by
  refine .modifyGet (fun s s' hs _ => ?_) fun _ => rfl
  obtain ⟨hlabel, hcount, hfind⟩ := register_eq hs hx
  exact ⟨hs.withAliases hcount hfind, hlabel⟩

theorem derivedAlias_goes (hx : c.has x) :
    c.Goes F (derivedAlias x) (derivedAlias (c.map x)) Equal := by
  refine .modifyGet (fun s s' hs _ => ?_) fun _ => rfl
  dsimp only
  rw [Aliases.registerDerived, Aliases.registerDerived, hs.aliases hx]
  split
  · refine ⟨hs.withAliases ?_ fun y hy => hs.aliases hy, ?_⟩
    · show s'.context.aliases.count + 1 = s.context.aliases.count + 1
      rw [hs.count]
    · show s'.context.aliases.count + 1 = s.context.aliases.count + 1
      rw [hs.count]
  · obtain ⟨hlabel, hcount, hfind⟩ := register_eq hs hx
    exact ⟨hs.withAliases hcount hfind, hlabel⟩

theorem functionName_goes {input : NodeId} {function : FunctionId}
    {shape : Shape} {f : UserFunction}
    (hx : c.has x) (hn : env.graph.node? x = some ⟨.userMap input function, shape⟩)
    (hf : env.graph.function function = .ok f) :
    c.Goes F (functionName env f.name) (functionName env' f.name) fun F' a b =>
      b = a ∧ F'.find? f.name = some a := by
  intro s s' hs hgrows
  obtain ⟨hname, hnames⟩ := c.register hs.names hx hn hf
  have hgrows' : s.context.functions.Grows env.functionStem
      (s.context.functions.register f.name env.functionStem).2 := .register f.name .refl
  have hinformed := hs.informed.mono hgrows'
  show c.Matched _ _ ∧ _ ∧ _
  rw [c.stem]
  exact ⟨{ hs with
      names := hnames
      informed := { hinformed with } }, hgrows', hname,
    FunctionNames.find?_register s.context.functions f.name env.functionStem⟩

theorem reveal_goes {visible visible' : Visible}
    (h : visible' = visible.map (Prod.map c.map id)) (hv : ∀ v ∈ visible, c.has v.1) :
    c.Goes F (reveal visible) (reveal visible') Whatever := by
  subst h
  refine .modifyGet (fun s s' hs _ => ⟨{ hs with
    visible := fun {y} hy => ?_
    informed := { hs.informed with } }, trivial⟩) fun _ => rfl
  show (_ ++ s'.visible).lookup (c.map y) = (visible.reverse ++ s.visible).lookup y
  rw [← List.map_reverse, List.lookup_append, List.lookup_append, hs.visible hy,
    lookup_map (fun v hv' => hv v (List.mem_reverse.1 hv')) hy]

theorem markVisited_goes (hx : c.has x) :
    c.Goes F (markVisited x) (markVisited (c.map x)) Whatever := by
  refine .modifyGet (fun s s' hs _ => ⟨{ hs with
    visited := fun {y} hy => ?_
    informed := { hs.informed with } }, trivial⟩) fun _ => rfl
  show c.map y ∈ c.map x :: s'.visited ↔ y ∈ x :: s.visited
  rw [List.mem_cons, List.mem_cons, hs.visited hy, map_eq_iff hy hx]

theorem fragment_goes (hx : c.has x) :
    c.Goes F (fragment x) (fragment (c.map x)) fun F' e e' => e' = e ∧ Known F' e := by
  refine .get fun s s' hs _ => ?_
  refine .checked hs (hs.parts.fragment hx) fun e e' he hee => ⟨hee.symm, ?_⟩
  exact hs.informed.fragments x e (Context.fragment_eq_ok_iff.1 he)

theorem Matched.emit (hs : c.Matched s s') (hx : c.has x) (he : Known s.context.functions e) :
    c.Matched { s with context := { s.context with fragments := (x, e) :: s.context.fragments } }
      { s' with context :=
        { s'.context with fragments := (c.map x, e) :: s'.context.fragments } } := by
  refine { hs with
    fragments := fun {y} hy => lookup_cons_eq hx hy (hs.fragments hy)
    informed := { hs.informed with fragments := fun y e' hy => ?_ } }
  rw [List.lookup_cons] at hy
  split at hy
  · cases hy
    exact he
  · exact hs.informed.fragments y e' hy

theorem emit_goes (hx : c.has x) (he : Known F e) :
    c.Goes F (emit x e) (emit (c.map x) e) Whatever := by
  refine .get fun s s' hs hgrows => ?_
  show c.GoesAt s s' (_ >>= _) (_ >>= _) _
  refine Both.bind ?_
  unfold Both Compile.check Context.addFragment
  rw [hs.fragments hx]
  cases s.context.fragments.lookup x with
  | none => exact ⟨hs.emit hx (he.mono hgrows), .refl, trivial⟩
  | some present =>
    dsimp only
    by_cases htext : canonicalText present = canonicalText e
    · rw [if_pos htext, if_pos htext]
      exact ⟨hs, .refl, trivial⟩
    · rw [if_neg htext, if_neg htext]
      exact ⟨c.faulty rfl, .refl, hs.names⟩

theorem fill_goes {f : Clauses Expr Source → Except Error (Clauses Expr Source)} {es : List Expr}
    (h : Adds es f) (hes : ∀ e ∈ es, Known F e) : c.Goes F (fill f) (fill f) Whatever := by
  refine .get fun s s' hs hgrows => ?_
  refine Both.bind ?_
  unfold Both Compile.check
  rw [hs.clauses]
  cases hf : f s.clauses with
  | error err =>
    obtain ⟨hover, hcyclic, hrename⟩ := h.error s.clauses err hf
    exact ⟨⟨c.fails hover hcyclic, hrename c.map⟩, .refl, hs.names⟩
  | ok cl =>
    refine ⟨{ hs with
      clauses := rfl
      informed := { hs.informed with clauses := fun e he => ?_ } }, .refl, trivial⟩
    rcases h.exprs s.clauses cl hf e he with he | he
    · exact hs.informed.clauses e he
    · exact (hes e he).mono hgrows

theorem finishLevel_goes : c.Goes F (finishLevel env) (finishLevel env') Equal := by
  refine .get fun s s' hs hgrows => ?_
  have hcl : s'.clauses.close env'.sortLimit = s.clauses.close env.sortLimit := by
    rw [hs.clauses, c.sortLimit]
  refine Both.bind ?_
  show Both _ _ _ _ _ _
  refine Both.bind ?_
  unfold Both Compile.check
  simp only [hcl]
  cases hclose : s.clauses.close env.sortLimit with
  | error err =>
    have herr : err = .inconsistent .noFrom := by
      unfold Clauses.close at hclose
      split at hclose <;> cases hclose
      rfl
    subst herr
    exact ⟨c.faulty rfl, .refl, hs.names⟩
  | ok q =>
    refine ⟨{ hs with
      clauses := rfl
      levels := by rw [← hs.levels]
      informed :=
        { hs.informed with
          clauses := by simp [clauseExprs, Clauses.empty]
          levels := fun q' hq' e he => ?_ } }, .refl, ?_⟩
    · rcases Array.mem_push.1 hq' with hq' | rfl
      · exact hs.informed.levels q' hq' e he
      · rw [levelExprs_of_close hclose] at he
        exact hs.informed.clauses e he
    · show s'.levels.size = s.levels.size
      rw [hs.levels]

end Primitives

end Copy

end Compile

end PlanSql

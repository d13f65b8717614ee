import PlanSql.Proofs.Compile.Naming

/-!
# Chains of casts

A cast of a value other than a column is a node of its own, so that a chain of casts is written as
one cast inside the other. A cast column stays a column: it remembers the type it is stored with and
the last type it was cast to, and the types in between are forgotten. `rendering_recasts` says what
is written for a chain in both cases, and that the chain of a column is written as the composition
of its casts exactly if there is no type to forget.
-/

namespace PlanSql

variable {α : Type} {target : DataType}

variable {kind : Kind}

/-- Two actions in a row succeed exactly if the first one does and the second one does after it. -/
theorem EStateM.bind_eq_ok_iff {ε σ β : Type} {m : EStateM ε σ α} {f : α → EStateM ε σ β} {b : β}
    {s s' : σ} : (m >>= f) s = .ok b s' ↔ ∃ a t, m s = .ok a t ∧ f a t = .ok b s' := by
  show EStateM.bind m f s = _ ↔ _
  unfold EStateM.bind
  split <;> simp_all

/-- A cast from one type to another that is accepted: an integer may become a datetime, and
otherwise the target decides. -/
def DataType.CastAllowed (source target : DataType) : Prop :=
  (source.isInteger && target == .datetime || target.castsFrom source) = true

instance (source target : DataType) : Decidable (source.CastAllowed target) :=
  inferInstanceAs (Decidable (_ = true))

/-- A cast and the names that its result is given, one after the other. -/
structure Recast where
  dtype : DataType
  names : List String

def Kind.recast (x : NodeId) : Kind → Kind
  | .column collection => .column collection
  | _ => .cast x

def Typed.recast (kind : Kind) (t : Typed) (target : DataType) : Typed :=
  match kind with
  | .column _ => { t with dtype := target }
  | _ => ⟨target, t.dtype, t.name, t.name⟩

theorem Kind.recast_of_ne {x : NodeId} (h : ∀ c, kind ≠ .column c) :
    kind.recast x = .cast x := by
  cases kind with
  | column c => exact absurd rfl (h c)
  | _ => rfl

theorem Typed.recast_of_ne {t : Typed} (h : ∀ c, kind ≠ .column c) :
    t.recast kind target = ⟨target, t.dtype, t.name, t.name⟩ := by
  cases kind with
  | column c => exact absurd rfl (h c)
  | _ => rfl

@[simp]
theorem Typed.recast_dtype (kind : Kind) (t : Typed) (target : DataType) :
    (t.recast kind target).dtype = target := by
  unfold recast
  split <;> rfl

/-- The node `y` of `g'` is a value that `g` did not have, of the given kind and type, under some
name. -/
structure Graph.Appends (g g' : Graph) (y : NodeId) (kind : Kind) (t : Typed) : Prop where
  extension : g.Extends g'
  new : g.size ≤ y
  node : ∃ m name, g'.node? y = some m ∧ m.kind = kind ∧ m.typed? = some { t with name := name }

namespace Build

open PlanSql.Graph

variable {g g' : Graph} {x y : NodeId} {n : Node} {t : Typed} {kind : Kind}
variable {h : Graph} {z : NodeId} {rs : List Recast}

/-- Gives a value several names, each by a copy of the value. -/
def renames : List String → NodeId → Build NodeId
  | [], id => pure id
  | name :: rest, id => do renames rest (← rename id name)

/-- Casts a value, time after time, and gives the results names. -/
def recasts : List Recast → NodeId → Build NodeId
  | [], id => pure id
  | r :: rest, id => do recasts rest (← renames r.names (← asType id r.dtype))

theorem typed?_valueShape (kind : Kind) (operands : List NodeId) (t : Typed) :
    (⟨kind, g.valueShape operands t⟩ : Node).typed? = some t := by
  unfold Graph.valueShape
  split <;> rfl

/-- A value that is appended later is new as well. -/
theorem appends_push {shape : Shape} {name : Option String} (hext : g.Extends g')
    (ht : (⟨kind, shape⟩ : Node).typed? = some { t with name := name }) :
    g.Appends { g' with nodes := g'.nodes.push ⟨kind, shape⟩ } g'.size kind t :=
  ⟨hext.trans (extends_push g' _), hext.size_le, _, name, node?_push_size g' _, rfl, ht⟩

theorem ask_eq_ok {f : Graph → Except Error α} {a : α} (h : ask f g = .ok a g') :
    f g = .ok a ∧ g' = g := by
  unfold ask at h
  split at h <;> cases h
  exact ⟨‹_›, rfl⟩

theorem appends_asType (hx : g.node? x = some n) (ht : n.typed? = some t)
    (hne : t.dtype ≠ target) (h : asType x target g = .ok y g') :
    t.dtype.CastAllowed target ∧
      g.Appends g' y (n.kind.recast x) (t.recast n.kind target) := by
  obtain ⟨m, g₁, hm, h⟩ := EStateM.bind_eq_ok_iff.1 h
  obtain ⟨hm, rfl⟩ := ask_eq_ok hm
  obtain rfl : n = m := Option.some.inj (hx.symm.trans (node_eq_ok_iff.1 hm))
  obtain ⟨t', g₁, ht', h⟩ := EStateM.bind_eq_ok_iff.1 h
  obtain ⟨ht', rfl⟩ := ask_eq_ok ht'
  obtain ⟨n', hn', hnt⟩ := typedOf_eq_ok_iff.1 ht'
  obtain rfl : n = n' := Option.some.inj (hx.symm.trans hn')
  obtain rfl : t = t' := Option.some.inj (ht.symm.trans hnt)
  -- What is appended once the cast has been accepted.
  have happend : (match n.kind with
      | .column _ => pushValue n.kind [x] { t with dtype := target }
      | _ => pushValue (.cast x) [x] ⟨target, t.dtype, t.name, t.name⟩) g₁ = .ok y g' →
      g₁.Appends g' y (n.kind.recast x) (t.recast n.kind target) := by
    intro hpush
    obtain ⟨kind, shape⟩ := n
    cases kind <;> (cases hpush; exact appends_push (.refl _) (typed?_valueShape _ _ _))
  rw [if_neg hne] at h
  split at h
  · next hdecided =>
    obtain ⟨_, g₂, hcheck, hpush⟩ := EStateM.bind_eq_ok_iff.1 h
    obtain ⟨hcheck, rfl⟩ := ask_eq_ok hcheck
    unfold DataType.checkCast at hcheck
    split at hcheck
    · next hallowed => exact ⟨by simp [DataType.CastAllowed, hallowed], happend hpush⟩
    · cases hcheck
  · next hseconds =>
    exact ⟨by simp_all [DataType.CastAllowed], happend h⟩

theorem appends_rename {name : String} (happ : g.Appends g' y kind t)
    (hr : rename y name g' = .ok z h) : g.Appends h z kind t := by
  obtain ⟨⟨_, shape⟩, given, hm, rfl, ht⟩ := happ.node
  unfold rename at hr
  split at hr
  · cases hr
  · obtain ⟨m, g₁, hask, hr⟩ := EStateM.bind_eq_ok_iff.1 hr
    obtain ⟨hask, rfl⟩ := ask_eq_ok hask
    cases hm.symm.trans (node_eq_ok_iff.1 hask)
    cases shape with
    | collection schema => cases ht
    | sequence u | scalar u =>
      cases ht
      cases hr
      exact appends_push happ.extension rfl

theorem appends_renames {names : List String} (happ : g.Appends g' y kind t)
    (hr : renames names y g' = .ok z h) : g.Appends h z kind t := by
  induction names generalizing g' y with
  | nil =>
    cases hr
    exact happ
  | cons name rest ih =>
    obtain ⟨y₁, g₁, hname, hrest⟩ := EStateM.bind_eq_ok_iff.1 hr
    exact ih (appends_rename happ hname) hrest

theorem appends_recast {r : Recast} (hx : g.node? x = some n) (ht : n.typed? = some t)
    (hne : t.dtype ≠ r.dtype) (h : recasts (r :: rs) x g = .ok y g') :
    t.dtype.CastAllowed r.dtype ∧ ∃ z h, recasts rs z h = .ok y g' ∧
      g.Appends h z (n.kind.recast x) (t.recast n.kind r.dtype) := by
  obtain ⟨z, g₁, hcast, h⟩ := EStateM.bind_eq_ok_iff.1 h
  obtain ⟨z', g₂, hnames, h⟩ := EStateM.bind_eq_ok_iff.1 h
  obtain ⟨hallowed, happ⟩ := appends_asType hx ht hne hcast
  exact ⟨hallowed, z', g₂, h, appends_renames happ hnames⟩

theorem safe_recasts {careful : Prop} (rs : List Recast) (x : NodeId) :
    Safe careful (recasts rs x) := by
  have hnames : ∀ names id, Safe careful (renames names id) := by
    intro names
    induction names with
    | nil => exact Safe.pure
    | cons name rest ih => exact fun id => Safe.bind (safe_rename id name) ih
  induction rs generalizing x with
  | nil => exact Safe.pure x
  | cons r rest ih =>
    exact Safe.bind (safe_asType x r.dtype) fun id => Safe.bind (hnames r.names id) ih

theorem extends_recasts (h : recasts rs x g = .ok y g') : g.Extends g' :=
  have hgrows : Grows False g g' := (safe_recasts rs x g).of_ok h
  hgrows.extension

end Build

namespace Compile

open PlanSql.Sql

/-- Compiles a value into the level and gives its expression. -/
def rendering (env : Env) (depth : Nat) (id : NodeId) : Compile Expr := do
  (Steps.upTo env depth).visit id
  fragment id

/-- What the level keeps for a value is what the value would be compiled to now. -/
structure UpToDate (env : Env) (s : State) (id : NodeId) : Prop where
  stored : id ∈ s.visited → s.context.fragments.lookup id ≠ none
  current : ∀ {n e}, env.graph.node? id = some n → s.context.fragments.lookup id = some e →
    valueExpr env.graph (s.parts env) id n.kind = .ok e

section Rendering

variable {env : Env} {depth : Nat} {id x y : NodeId} {n : Node} {t : Typed}
  {s s' : State} {e : Expr}
variable {collection : NodeId} {g : Graph} {source : String}
variable {steps : Steps} {p : Parts} {m : Node} {t' : Typed} {field : String} {label : Alias}

theorem check_eq_ok_iff {r : Except Error α} {a : α} :
    check r s = .ok a s' ↔ r = .ok a ∧ s' = s := by
  unfold check
  cases r <;> simp [eq_comm]

theorem rendering_eq_ok_iff : rendering env depth id s = .ok e s' ↔
    (Steps.upTo env depth).visit id s = .ok () s' ∧ s'.context.fragments.lookup id = some e := by
  rw [← Context.fragment_eq_ok_iff]
  refine EStateM.bind_eq_ok_iff.trans ⟨?_, fun ⟨hvisit, hfragment⟩ => ?_⟩
  · rintro ⟨_, t, hvisit, hfragment⟩
    obtain ⟨hfragment, rfl⟩ := check_eq_ok_iff.1 hfragment
    exact ⟨hvisit, hfragment⟩
  · exact ⟨(), s', hvisit, check_eq_ok_iff.2 ⟨hfragment, rfl⟩⟩

theorem visitNode_kept (hv : env.graph.isCollection id = false)
    (hf : s.context.fragments.lookup id = some e) :
    visitNode env steps id s = .ok () (if id ∈ s.visited then s else s.mark id) := by
  unfold visitNode
  simp only [bind, EStateM.bind, get, getThe, MonadStateOf.get]
  delta EStateM.get
  dsimp only
  split
  · rfl
  · simp [Context.hasFragment, hf, hv, State.mark]
    rfl

theorem visitNode_new (hn : env.graph.node? id = some n) (hid : id ∉ s.visited)
    (hf : s.context.fragments.lookup id = none) :
    visitNode env steps id s = (compileKind env steps id n.kind >>= fun _ => markVisited id) s := by
  unfold visitNode
  simp only [bind, EStateM.bind, get, getThe, MonadStateOf.get]
  delta EStateM.get
  simp only [if_neg hid]
  simp [Context.hasFragment, hf, Graph.node_eq_ok_iff.2 hn]
  rfl

/-- A value that the level has keeps its expression. -/
theorem rendering_kept (hv : env.graph.isCollection id = false)
    (hf : s.context.fragments.lookup id = some e) :
    ∃ s', rendering env (depth + 1) id s = .ok e s' := by
  refine ⟨_, rendering_eq_ok_iff.2 ⟨visitNode_kept hv hf, ?_⟩⟩
  split <;> exact hf

theorem eq_of_rendering_kept {e' : Expr} (hv : env.graph.isCollection id = false)
    (hf : s.context.fragments.lookup id = some e) (h : rendering env depth id s = .ok e' s') :
    e' = e := by
  obtain ⟨hvisit, hfragment⟩ := rendering_eq_ok_iff.1 h
  cases depth with
  | zero => cases hvisit
  | succ depth =>
    have hok : EStateM.Result.ok () (if id ∈ s.visited then s else s.mark id) = .ok () s' :=
      (visitNode_kept hv hf).symm.trans hvisit
    obtain ⟨_, rfl⟩ := EStateM.Result.ok.inj hok
    split at hfragment <;> exact Option.some.inj (hfragment.symm.trans hf)

theorem emit_new (hf : s.context.fragments.lookup id = none) : emit id e s = .ok () { s with
    context := { s.context with fragments := (id, e) :: s.context.fragments } } := by
  refine EStateM.bind_eq_ok_iff.2 ⟨s, s, rfl, EStateM.bind_eq_ok_iff.2 ⟨_, s, ?_, rfl⟩⟩
  refine check_eq_ok_iff.2 ⟨?_, rfl⟩
  simp only [Context.addFragment, hf]

/-- A value that is new and needs nothing besides its operands stores its expression after them. -/
theorem rendering_new {m : Compile Unit} (hn : env.graph.node? id = some n) (hid : id ∉ s.visited)
    (hf : s.context.fragments.lookup id = none)
    (hkind : compileKind env (Steps.upTo env depth) id n.kind = m >>= fun _ => get >>= fun u =>
      check (valueExpr env.graph (u.parts env) id n.kind) >>= emit id)
    (hm : m s = .ok () s') (hf' : s'.context.fragments.lookup id = none)
    (he : valueExpr env.graph (s'.parts env) id n.kind = .ok e) :
    ∃ s', rendering env (depth + 1) id s = .ok e s' := by
  have hcompile : compileKind env (Steps.upTo env depth) id n.kind s = .ok () { s' with
      context := { s'.context with fragments := (id, e) :: s'.context.fragments } } := by
    rw [hkind]
    refine EStateM.bind_eq_ok_iff.2 ⟨(), s', hm, EStateM.bind_eq_ok_iff.2 ⟨s', s', rfl, ?_⟩⟩
    exact EStateM.bind_eq_ok_iff.2 ⟨e, s', check_eq_ok_iff.2 ⟨he, rfl⟩, emit_new hf'⟩
  refine ⟨_, rendering_eq_ok_iff.2 ⟨(visitNode_new hn hid hf).trans
    (EStateM.bind_eq_ok_iff.2 ⟨(), _, hcompile, rfl⟩), ?_⟩⟩
  exact List.lookup_cons_self

theorem rendering_column (hn : env.graph.node? id = some n) (hkind : n.kind = .column collection)
    (hid : id ∉ s.visited) (hf : s.context.fragments.lookup id = none)
    (he : valueExpr env.graph (s.parts env) id n.kind = .ok e) :
    ∃ s', rendering env (depth + 1) id s = .ok e s' := by
  refine rendering_new (m := pure ()) hn hid hf ?_ rfl hf he
  rw [hkind]
  rfl

theorem rendering_cast (hn : env.graph.node? id = some n) (hkind : n.kind = .cast x)
    (hv : env.graph.isCollection x = false) (hid : id ∉ s.visited)
    (hf : s.context.fragments.lookup id = none)
    (hm : (Steps.upTo env depth).visit x s = .ok () s')
    (hf' : s'.context.fragments.lookup id = none)
    (he : valueExpr env.graph (s'.parts env) id n.kind = .ok e) :
    ∃ s', rendering env (depth + 1) id s = .ok e s' := by
  have hoperands : (Steps.upTo env depth).operands env [(.input, x)] s = .ok () s' := by
    simp only [Steps.operands, hv, ne_eq, reduceCtorEq, not_false_eq_true, Bool.not_false, and_self,
      if_true]
    exact EStateM.bind_eq_ok_iff.2 ⟨(), s', hm, rfl⟩
  refine rendering_new hn hid hf ?_ hoperands hf' he
  rw [hkind]
  rfl

theorem isCollection_eq_false_iff (hn : g.node? id = some n) :
    g.isCollection id = false ↔ ∃ t, n.typed? = some t := by
  obtain ⟨kind, shape⟩ := n
  cases shape <;> simp [Graph.isCollection, hn, Node.isCollection, Node.typed?]

/-- A value reads only values that are not after it. -/
theorem le_of_cites {careful : Prop} (hw : g.WellFormed careful) (h : g.Cites x y)
    (hx : g.isCollection x = false) : y ≤ x := by
  induction h with
  | refl => exact Nat.le_refl _
  | step hn ho _ hy _ ih =>
    obtain ⟨t, ht⟩ := (isCollection_eq_false_iff hn).1 hx
    exact Nat.le_trans (ih hy) (Nat.le_of_lt (hw.operand_lt hn ht _ ho))

theorem compiles_of_visit (hw : env.graph.WellFormed False)
    (hx : env.graph.isCollection x = false) (h : (Steps.upTo env depth).visit x s = .ok () s') :
    Compiles env (env.graph.Cites x) s s' :=
  (((Steps.upTo_running hw x depth).visit x .refl s).of_ok h).compiles hx

theorem valueExpr_cast (hx : g.node? x = some n) (ht : n.typed? = some t)
    (hy : g.node? y = some m) (ht' : m.typed? = some t') :
    valueExpr g p y (.cast x) = (p.fragment x).map fun e => converted e t.dtype t'.dtype := by
  have htype : ∀ {z k u}, g.node? z = some k → k.typed? = some u → valueType g z = .ok u.dtype := by
    intro z k u hk hu
    exact valueType_eq (Graph.dtypeOf_eq_ok_iff.2 ⟨u, Graph.typedOf_eq_ok_iff.2 ⟨k, hk, hu⟩, rfl⟩)
  simp only [valueExpr, castExpr, htype hx ht, htype hy ht']
  cases p.fragment x <;> rfl

theorem exists_rendering_cast (hw : env.graph.WellFormed False) (hx : env.graph.node? x = some n)
    (ht : n.typed? = some t) (hy : env.graph.node? y = some m) (hkind : m.kind = .cast x)
    (ht' : m.typed? = some t') (hcur : UpToDate env s y) (h : rendering env depth x s = .ok e s') :
    ∃ s', rendering env (depth + 1) y s = .ok (converted e t.dtype t'.dtype) s' := by
  have hvx : env.graph.isCollection x = false := (isCollection_eq_false_iff hx).2 ⟨t, ht⟩
  have hvy : env.graph.isCollection y = false := (isCollection_eq_false_iff hy).2 ⟨t', ht'⟩
  obtain ⟨hvisit, hfragment⟩ := rendering_eq_ok_iff.1 h
  cases hf : s.context.fragments.lookup y with
  | none =>
    have hf' : s'.context.fragments.lookup y = none := by
      cases hkept : s'.context.fragments.lookup y with
      | none => rfl
      | some e' =>
        rcases (compiles_of_visit hw hvx hvisit).rendered hkept with hold | ⟨hcites, _⟩
        · cases hf.symm.trans hold
        · have hlt : x < y := hw.operand_lt hy ht' (.input, x)
            (by rw [hkind]; exact List.mem_cons_self)
          exact absurd (le_of_cites hw hcites hvx) (Nat.not_le.2 hlt)
    refine rendering_cast hy hkind hvx (fun hid => hcur.stored hid hf) hf hvisit hf' ?_
    rw [hkind, valueExpr_cast hx ht hy ht']
    show Except.map _ (s'.context.fragment x) = _
    rw [Context.fragment_eq_ok_iff.2 hfragment]
    rfl
  | some e' =>
    have hnow := hcur.current hy hf
    rw [hkind, valueExpr_cast hx ht hy ht'] at hnow
    change Except.map _ (s.context.fragment x) = _ at hnow
    cases hold : s.context.fragment x with
    | error fault => rw [hold] at hnow; cases hnow
    | ok e₀ =>
      rw [hold] at hnow
      cases hnow
      obtain rfl := eq_of_rendering_kept hvx (Context.fragment_eq_ok_iff.1 hold) h
      exact rendering_kept hvy hf

/-- A column is written as a cast from the type it is stored with. -/
theorem exists_rendering_column (hcol : env.graph.IsColumn id collection t source)
    (hcur : UpToDate env s id)
    (hp : columnRef env.graph s.visible env.depth collection source = .ok (label, field)) :
    ∃ s', rendering env (depth + 1) id s =
      .ok (converted (.column label field) t.sourceDtype t.dtype) s' := by
  obtain ⟨n, hn, hkind, ht⟩ := hcol.node
  have hnow := valueExpr_of_column (p := s.parts env) hcol hn hp
  cases hf : s.context.fragments.lookup id with
  | none => exact rendering_column hn hkind (fun hid => hcur.stored hid hf) hf hnow
  | some e =>
    cases (hcur.current hn hf).symm.trans hnow
    exact rendering_kept ((isCollection_eq_false_iff hn).2 ⟨t, ht⟩) hf

theorem column_of_rendering (hw : env.graph.WellFormed False)
    (hcol : env.graph.IsColumn id collection t source) (hcur : UpToDate env s id)
    (h : rendering env depth id s = .ok e s') :
    ∃ label field, columnRef env.graph s.visible env.depth collection source = .ok (label, field) ∧
      e = converted (.column label field) t.sourceDtype t.dtype := by
  obtain ⟨n, hn, hkind, ht⟩ := hcol.node
  obtain ⟨hvisit, hfragment⟩ := rendering_eq_ok_iff.1 h
  have hv : env.graph.isCollection id = false := (isCollection_eq_false_iff hn).2 ⟨t, ht⟩
  rcases (compiles_of_visit hw hv hvisit).rendered hfragment with
    hold | ⟨_, u, m, hadds, _, hm, he⟩
  · exact valueExpr_column hcol hn (hcur.current hn hold)
  · obtain ⟨label, field, hp, rfl⟩ := valueExpr_column hcol hm he
    exact ⟨label, field, hadds.visible ▸ hp, rfl⟩

end Rendering

/-! ## Chains -/

/-- The text of a value of type `source`, cast to one type after the other. -/
def castTexts (text : String) (source : DataType) : List DataType → String
  | [] => text
  | target :: rest => castTexts (convertText text source target) target rest

section Chains

variable {env : Env} {depth : Nat} {g g' : Graph} {x y : NodeId} {n : Node} {t : Typed}
  {rs : List Recast} {s s' : State} {e : Expr}
variable {source : DataType} {types : List DataType}

theorem text_converted (layout : Layout) (levelText : LevelId → String) (source target : DataType) :
    (converted e source target).text layout levelText =
      convertText (e.text layout levelText) source target := by
  unfold converted
  split
  · next h => rw [h, convertText, if_pos rfl]
  · rfl

theorem recasts_allowed (hx : g.node? x = some n) (ht : n.typed? = some t)
    (hne : List.IsChain (· ≠ ·) (t.dtype :: rs.map Recast.dtype))
    (h : Build.recasts rs x g = .ok y g') :
    List.IsChain DataType.CastAllowed (t.dtype :: rs.map Recast.dtype) := by
  induction rs generalizing g x n t with
  | nil => exact .singleton _
  | cons r rest ih =>
    obtain ⟨hr, hrest⟩ := List.isChain_cons_cons.1 hne
    obtain ⟨hallowed, z, g₁, htail, happ⟩ := Build.appends_recast hx ht hr h
    obtain ⟨m, name, hm, -, htm⟩ := happ.node
    have htypes := ih hm htm (by simpa using hrest) htail
    exact List.isChain_cons_cons.2 ⟨hallowed, by simpa using htypes⟩

/-- The chain of a value that is no column is written as the composition of its casts. -/
theorem exists_rendering_recasts (hw : env.graph.WellFormed False) (hx : g.node? x = some n)
    (ht : n.typed? = some t) (hkind : ∀ c, n.kind ≠ .column c)
    (hne : List.IsChain (· ≠ ·) (t.dtype :: rs.map Recast.dtype))
    (hrun : Build.recasts rs x g = .ok y g') (hext : g'.Extends env.graph)
    (hcur : ∀ id, g.size ≤ id → id < g'.size → UpToDate env s id)
    (h : rendering env depth x s = .ok e s') :
    ∃ e' s', rendering env (depth + rs.length) y s = .ok e' s' ∧ ∀ layout levelText,
      e'.text layout levelText =
        castTexts (e.text layout levelText) t.dtype (rs.map Recast.dtype) := by
  induction rs generalizing g x n t e s' depth with
  | nil =>
    cases hrun
    exact ⟨e, s', h, fun _ _ => rfl⟩
  | cons r rest ih =>
    obtain ⟨hr, hrest⟩ := List.isChain_cons_cons.1 hne
    obtain ⟨-, z, g₁, htail, happ⟩ := Build.appends_recast hx ht hr hrun
    rw [Kind.recast_of_ne hkind, Typed.recast_of_ne hkind] at happ
    obtain ⟨m, name, hm, hcast, htm⟩ := happ.node
    have hext₁ : g₁.Extends g' := Build.extends_recasts htail
    have hz : UpToDate env s z :=
      hcur z happ.new (Graph.lt_size_of_node? (hext₁.node hm))
    obtain ⟨s₁, hone⟩ := exists_rendering_cast hw
      (hext.node (hext₁.node (happ.extension.node hx))) ht
      (hext.node (hext₁.node hm)) hcast htm hz h
    obtain ⟨e', s'', he', htext⟩ := ih hm htm
      (fun c hc => by rw [hcast] at hc; cases hc) hrest htail
      (fun id hid => hcur id (Nat.le_trans happ.extension.size_le hid)) hone
    refine ⟨e', s'', by rw [List.length_cons, ← Nat.add_assoc, Nat.add_right_comm]; exact he',
      fun layout levelText => ?_⟩
    rw [htext, text_converted]
    rfl

/-- The chain of a column is a column that remembers the first and the last type. -/
theorem isColumn_recasts {collection : NodeId} {source : String}
    (hcol : g.IsColumn x collection t source)
    (hne : List.IsChain (· ≠ ·) (t.dtype :: rs.map Recast.dtype))
    (hrun : Build.recasts rs x g = .ok y g') : ∃ t', g'.IsColumn y collection t' source ∧
      t'.sourceDtype = t.sourceDtype ∧ t'.dtype = (rs.map Recast.dtype).getLastD t.dtype ∧
      (rs = [] ∨ g.size ≤ y) := by
  induction rs generalizing g x t with
  | nil =>
    cases hrun
    exact ⟨t, hcol, rfl, rfl, .inl rfl⟩
  | cons r rest ih =>
    obtain ⟨n, hx, hkind, ht⟩ := hcol.node
    obtain ⟨hr, hrest⟩ := List.isChain_cons_cons.1 hne
    obtain ⟨-, z, g₁, htail, happ⟩ := Build.appends_recast hx ht hr hrun
    rw [hkind] at happ
    obtain ⟨m, name, hm, hkindm, htm⟩ := happ.node
    have hcol₁ : g₁.IsColumn z collection ⟨r.dtype, t.sourceDtype, name, t.sourceName⟩ source :=
      ⟨⟨m, hm, hkindm, htm⟩, hcol.source⟩
    obtain ⟨t', hcol', hsource, hlast, hnew⟩ := ih hcol₁ hrest htail
    refine ⟨t', hcol', hsource, ?_, .inr ?_⟩
    · rw [hlast, List.map_cons, List.getLastD_cons]
    · rcases hnew with rfl | hnew
      · cases htail
        exact happ.new
      · exact Nat.le_trans happ.extension.size_le hnew

/-- A cast to another type adds at least 13 characters and at most 18. -/
theorem length_convertText (text : String) (hne : source ≠ target) :
    text.length + 13 ≤ (convertText text source target).length ∧
      (convertText text source target).length ≤ text.length + 18 := by
  have hname : 3 ≤ target.sqlName.length ∧ target.sqlName.length ≤ 8 := by
    cases target <;> decide
  have hcall : "FROM_UNIXTIME(".length = 14 := by decide
  have hcast : "CAST(".length = 5 ∧ " AS ".length = 4 ∧ ")".length = 1 := by decide
  unfold convertText
  rw [if_neg hne]
  split <;> simp only [String.length_append] <;> omega

/-- A composition of casts has at least 13 characters for each of them. -/
theorem length_castTexts (text : String) (hne : List.IsChain (· ≠ ·) (source :: types)) :
    text.length + 13 * types.length ≤ (castTexts text source types).length := by
  induction types generalizing text source with
  | nil => exact Nat.le_refl _
  | cons target rest ih =>
    obtain ⟨hhead, htail⟩ := List.isChain_cons_cons.1 hne
    have hone := (length_convertText text hhead).1
    have hrest := ih (convertText text source target) htail
    simp only [castTexts, List.length_cons]
    omega

/-- The cast from the first type to the last one is the composition of all casts exactly if there is
no type in between: the text of two casts is too long for one. -/
theorem convertText_eq_castTexts_iff (text : String) {stored : DataType}
    (hne : List.IsChain (· ≠ ·) (source :: types)) :
    convertText text stored (types.getLastD source) =
        castTexts (convertText text stored source) source types ↔
      types = [] ∨ stored = source ∧ types.length = 1 := by
  constructor
  · intro heq
    have hleft : (convertText text stored (types.getLastD source)).length ≤ text.length + 18 := by
      by_cases hsame : stored = types.getLastD source
      · simp [convertText, hsame]
      · exact (length_convertText text hsame).2
    have hright := length_castTexts (convertText text stored source) hne
    rw [← heq] at hright
    by_cases hstored : stored = source
    · have hfirst : (convertText text stored source).length = text.length := by
        simp [convertText, hstored]
      have hshort : types.length ≤ 1 := by omega
      rcases Nat.le_one_iff_eq_zero_or_eq_one.1 hshort with hnone | hone
      · exact .inl (List.length_eq_zero_iff.1 hnone)
      · exact .inr ⟨hstored, hone⟩
    · have hfirst := (length_convertText text hstored).1
      exact .inl (List.length_eq_zero_iff.1 (by omega))
  · rintro (rfl | ⟨rfl, hone⟩)
    · rfl
    · obtain ⟨target, rfl⟩ := List.length_eq_one_iff.1 hone
      simp [castTexts, convertText]

/-- A chain of casts, with names given in between, of a value `x` that can be compiled on a level:
all casts of the chain have been accepted, and its value can be compiled on the level as well. If
`x` is a column, then what is written is one cast, from the type that the column is stored with to
the last type of the chain. What is written is the composition of the casts exactly if `x` is no
column, or there is no cast, or there is one cast and the column has not been cast before. -/
theorem rendering_recasts (hb : Built env.graph) (hx : g.node? x = some n) (ht : n.typed? = some t)
    (hne : List.IsChain (· ≠ ·) (t.dtype :: rs.map Recast.dtype))
    (hrun : Build.recasts rs x g = .ok y g') (hext : g'.Extends env.graph)
    (hcur : ∀ id, g.size ≤ id ∧ id < g'.size ∨ id = x ∧ (∃ c, n.kind = .column c) →
      UpToDate env s id)
    (h : rendering env depth x s = .ok e s') :
    List.IsChain DataType.CastAllowed (t.dtype :: rs.map Recast.dtype) ∧
    ∃ e' s', rendering env (depth + rs.length) y s = .ok e' s' ∧ ∀ layout levelText,
      (∀ c source, n.kind = .column c → t.sourceName = some source → ∃ label field,
        columnRef env.graph s.visible env.depth c source = .ok (label, field) ∧
        e.text layout levelText =
          convertText ((Expr.column label field).text layout levelText) t.sourceDtype t.dtype ∧
        e'.text layout levelText =
          convertText ((Expr.column label field).text layout levelText) t.sourceDtype
            ((rs.map Recast.dtype).getLastD t.dtype)) ∧
      (e'.text layout levelText =
          castTexts (e.text layout levelText) t.dtype (rs.map Recast.dtype) ↔
        (∀ c, n.kind ≠ .column c) ∨ rs = [] ∨ t.sourceDtype = t.dtype ∧ rs.length = 1) := by
  have hw := hb.fits
  have hgrows : g.Extends g' := Build.extends_recasts hrun
  refine ⟨recasts_allowed hx ht hne hrun, ?_⟩
  by_cases hcolumn : ∃ c, n.kind = .column c
  · obtain ⟨c, hkind⟩ := hcolumn
    have hxenv : env.graph.node? x = some n := hext.node (hgrows.node hx)
    have hfits := hw.valueFits hxenv ht
    rw [hkind] at hfits
    obtain ⟨_, source, _, _, hsource, -, -⟩ := hfits
    obtain ⟨label, field, hp, rfl⟩ := column_of_rendering hw
      ⟨⟨n, hxenv, hkind, ht⟩, hsource⟩ (hcur x (.inr ⟨rfl, c, hkind⟩)) h
    obtain ⟨t', hcol', hstored, hlast, hnew⟩ :=
      isColumn_recasts ⟨⟨n, hx, hkind, ht⟩, hsource⟩ hne hrun
    obtain ⟨m, hm, hkindm, htm⟩ := hcol'.node
    have hy : UpToDate env s y := by
      rcases hnew with rfl | hnew
      · cases hrun
        exact hcur x (.inr ⟨rfl, c, hkind⟩)
      · exact hcur y (.inl ⟨hnew, Graph.lt_size_of_node? hm⟩)
    obtain ⟨k, hk⟩ : ∃ k, depth + rs.length = k + 1 := by
      cases depth with
      | zero => cases (rendering_eq_ok_iff.1 h).1
      | succ k => exact ⟨k + rs.length, Nat.add_right_comm k 1 rs.length⟩
    obtain ⟨s'', hok⟩ : ∃ s'', rendering env (k + 1) y s =
        .ok (converted (.column label field) t'.sourceDtype t'.dtype) s'' :=
      exists_rendering_column ⟨⟨m, hext.node hm, hkindm, htm⟩, hcol'.source⟩ hy hp
    refine ⟨_, s'', hk ▸ hok, fun layout levelText => ⟨fun c' source' hc hs => ?_, ?_⟩⟩
    · obtain rfl := Kind.column.inj (hkind.symm.trans hc)
      obtain rfl := Option.some.inj (hsource.symm.trans hs)
      exact ⟨label, field, hp, text_converted .., by rw [text_converted, hstored, hlast]⟩
    · rw [text_converted, text_converted, hstored, hlast, convertText_eq_castTexts_iff _ hne,
        List.map_eq_nil_iff, List.length_map]
      exact ⟨.inr, fun hor => hor.resolve_left fun hno => hno c hkind⟩
  · have hkind : ∀ c, n.kind ≠ .column c := fun c hc => hcolumn ⟨c, hc⟩
    obtain ⟨e', s'', hok, htext⟩ := exists_rendering_recasts hw hx ht hkind hne hrun hext
      (fun id hid hid' => hcur id (.inl ⟨hid, hid'⟩)) h
    exact ⟨e', s'', hok, fun layout levelText =>
      ⟨fun c _ hc => absurd hc (hkind c), fun _ => .inl hkind, fun _ => htext layout levelText⟩⟩

/-- An identifier, negated. -/
def negatedIds : List Call :=
  [.source "" "a" [⟨"id", .int64⟩], .column 0 "id", .unary .negate 1]

/-- The identifier cast twice, with a name in between. -/
def recastIds : List Call :=
  negatedIds ++ [.asType 2 .float64, .rename 3 "share", .asType 4 .string]

/-- The two casts are written around the negation. -/
theorem rendering_recasts_negatedIds :
    Built (Call.run recastIds) ∧
    Build.recasts [⟨.float64, ["share"]⟩, ⟨.string, []⟩] 2 (Call.run negatedIds) =
      .ok 5 (Call.run recastIds) ∧
    (∃ s', rendering ⟨Call.run recastIds, "udf", 100⟩ 3 2
      { State.start .empty with visible := [(0, 1)] } = .ok (.negate (.column 1 "id")) s') ∧
    ∃ e' s', rendering ⟨Call.run recastIds, "udf", 100⟩ 5 5
        { State.start .empty with visible := [(0, 1)] } = .ok e' s' ∧
      e'.text ⟨0, false⟩ (fun _ => "") = "CAST(CAST(-t1.`id` AS DOUBLE) AS STRING)" := by
  have hallowed : Call.AllowedFrom (fun _ _ => True) .empty recastIds := by
    simp [recastIds, negatedIds, Call.AllowedFrom]
  have hbuilt : Built (Call.run recastIds) := BuiltBy.run hallowed
  have hrun : Build.recasts [⟨.float64, ["share"]⟩, ⟨.string, []⟩] 2 (Call.run negatedIds) =
      .ok 5 (Call.run recastIds) := by rfl
  obtain ⟨s', h⟩ : ∃ s', rendering ⟨Call.run recastIds, "udf", 100⟩ 3 2
      { State.start .empty with visible := [(0, 1)] } = .ok (.negate (.column 1 "id")) s' :=
    ⟨_, rfl⟩
  have hcur : ∀ id, UpToDate ⟨Call.run recastIds, "udf", 100⟩
      { State.start .empty with visible := [(0, 1)] } id :=
    fun id => ⟨fun hid => absurd hid List.not_mem_nil, fun _ hf => by cases hf⟩
  obtain ⟨-, e', s'', hok, htext⟩ := rendering_recasts (n := ⟨.unary .negate 1, _⟩)
    (t := .plain .int64 (some "id")) hbuilt rfl rfl (by decide) hrun (.refl _)
    (fun id _ => hcur id) h
  refine ⟨hbuilt, hrun, ⟨s', h⟩, e', s'', hok, ?_⟩
  rw [(htext ⟨0, false⟩ fun _ => "").2.2 (.inl fun c hc => by cases hc)]
  decide

/-- A time cast to text and on to a number, and a number cut to its integer part. -/
def forgottenTypes : List Call :=
  [.source "" "a" [⟨"at", .datetime⟩, ⟨"x", .float64⟩], .column 0 "at", .asType 1 .string,
    .asType 2 .int64, .column 0 "x", .asType 4 .int64, .asType 5 .float64, .project 0 [3, 6]]

/-- A column forgets the types in between: a time is cast to a number, which is a cast that is not
accepted, and a number is not cut at all. -/
theorem compileText_forgottenTypes :
    ((Compiler.new .default).compileText (Call.run forgottenTypes) 7).1 =
      .ok "SELECT CAST(t1.`at` AS BIGINT) AS `at`, t1.`x`\nFROM `a` t1" ∧
    ¬ DataType.CastAllowed .datetime .int64 :=
  ⟨by decide +kernel, by decide⟩

end Chains

end Compile

end PlanSql

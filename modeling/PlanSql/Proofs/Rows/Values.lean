import PlanSql.Proofs.Rows.Rendering

/-!
# Expressions of the values of an operator

An operator compiles a list of values: keys, conditions, selected values. What it gets are their
expressions, and what those mean in a row or in a group is what the values mean.
-/

namespace PlanSql.Rows

open PlanSql.Sql PlanSql.Compile

section Lists

variable {env : Env} {b own : NodeId} {a : Alias}
variable {g : Graph} {s : State} {id v : NodeId} {e : Expr} {ids : List NodeId}

/-- `e` is the expression of a value, whatever names are given to further user functions. -/
def Rendered (g : Graph) (a : Alias) (s : State) (id : NodeId) (e : Expr) : Prop :=
  ∀ F, Keeps s.context.functions F → Renders g (namesOf F) a id e

theorem Rendered.mono {s' : State} (h : Rendered g a s id e)
    (hf : Keeps s.context.functions s'.context.functions) :
    Rendered g a s' id e := fun F hF => h F (hf.trans hF)

/-- The level is as before, and the action has given something that is described by `P`. -/
def Gives {α : Type} (env : Env) (b : NodeId) (a : Alias) (m : Compile α) (P : State → α → Prop) :
    Prop :=
  ∀ s, OnLevel env.graph b a s →
    Meets m s (fun x s' => SameLevel s s' ∧ OnLevel env.graph b a s' ∧ P s' x) fun _ _ => True

variable (hown : env.graph.isCollection own = true) (hpass : Passes env.graph own b) (depth : Nat)

include hown hpass

theorem values_gives (h : ∀ v ∈ ids, Grouped env.graph own v) :
    Gives env b a ((Steps.upTo env depth).values ids)
      fun s es => List.Forall₂ (Rendered env.graph a s) ids es := by
  induction ids with
  | nil => exact fun s hs => .pure ⟨.refl s, hs, .nil⟩
  | cons v rest ih =>
    intro s hs
    have hv := h v (.head _)
    refine .bind ((hv.visit_keepsLevel hown hpass depth s hs).imp fun _ s₁ ⟨hsame, hs₁⟩ => ?_)
    refine .bind (Meets.fragment (fun e he => .bind ?_) fun _ _ => trivial)
    refine (ih (fun w hw => h w (.tail _ hw)) s₁ hs₁).imp
      fun es s₂ ⟨hsame₂, hs₂, hes⟩ => .pure ⟨hsame.trans hsame₂, hs₂, .cons ?_ hes⟩
    exact fun F hF => hs₁.fragments F (hsame₂.functions.trans hF) v e he

def KeyRendered (g : Graph) (a : Alias) (s : State) (key : SortKey) (e : Expr) : Prop :=
  ∃ e', Rendered g a s key.expr e' ∧ e = if key.ascending then e' else .descending e'

theorem sortKeys_gives {keys : List SortKey} (h : ∀ k ∈ keys, Grouped env.graph own k.expr) :
    Gives env b a ((Steps.upTo env depth).sortKeys keys)
      fun s es => List.Forall₂ (KeyRendered env.graph a s) keys es := by
  induction keys with
  | nil => exact fun s hs => .pure ⟨.refl s, hs, .nil⟩
  | cons key rest ih =>
    intro s hs
    have hv := h key (.head _)
    refine .bind ((hv.visit_keepsLevel hown hpass depth s hs).imp fun _ s₁ ⟨hsame, hs₁⟩ => ?_)
    refine .bind (Meets.fragment (fun e he => .bind ?_) fun _ _ => trivial)
    refine (ih (fun w hw => h w (.tail _ hw)) s₁ hs₁).imp
      fun es s₂ ⟨hsame₂, hs₂, hes⟩ => .pure ⟨hsame.trans hsame₂, hs₂, .cons ⟨e, ?_, rfl⟩ hes⟩
    exact fun F hF => hs₁.fragments F (hsame₂.functions.trans hF) key.expr e he

/-- `i` shows a value under its name. -/
def ItemRendered (g : Graph) (a : Alias) (s : State) (id : NodeId) (i : Item Expr) : Prop :=
  Rendered g a s id i.expr ∧ shownName i = nameOf g id

omit hown hpass in
theorem Renders.eq_column {names : String → String} {c : NodeId} {shape : Shape} {typed : Typed}
    {source : String} (h : Renders g names a id e) (hn : g.node? id = some ⟨.column c, shape⟩)
    (ht : (⟨.column c, shape⟩ : Node).typed? = some typed)
    (hsource : typed.sourceName = some source) (hd : typed.dtype = typed.sourceDtype) :
    e = .column a source := by
  cases h with
  | intro p hm _ _ hcol _ he =>
    cases hn.symm.trans hm
    obtain ⟨m, hm', he⟩ := bind_ok he
    cases hn.symm.trans (Graph.node_eq_ok_iff.1 hm')
    rw [ht] at he
    dsimp only at he
    rw [hsource] at he
    obtain ⟨r, hr, he⟩ := bind_ok he
    obtain rfl := hcol c source r rfl hr
    simpa [converted, hd] using (Except.ok.inj he).symm

omit hown in
theorem itemName_meets {n : Node} {t : Typed} {name : String} (hv : Grouped env.graph own v)
    (hn : env.graph.node? v = some n) (ht : n.typed? = some t) (hname : t.name = some name)
    (hs : OnLevel env.graph b a s) :
    Meets (Steps.itemName env n t) s
      (fun given s' => s' = s ∧ ∀ e, Rendered env.graph a s v e → shownName ⟨e, given⟩ = name)
      fun _ _ => True := by
  have hplain : Meets (Pure.pure t.name : Compile (Option String)) s
      (fun given s' => s' = s ∧ ∀ e, Rendered env.graph a s v e → shownName ⟨e, given⟩ = name)
      fun _ _ => True := .pure ⟨rfl, fun e _ => by simp [shownName, hname]⟩
  unfold Steps.itemName
  split
  · next c source hk hsource =>
    split
    · next hd =>
      obtain ⟨kind, shape⟩ := n
      obtain rfl : kind = .column c := hk
      obtain rfl := (hv.shape hn).column c rfl
      refine .bind (Meets.resolve (fun r hr => .pure ⟨rfl, fun e he => ?_⟩) fun _ _ => trivial)
      rw [hs.visible] at hr
      obtain rfl := hpass.columnRef hr
      obtain rfl := (he _ (.refl _)).eq_column hn ht hsource hd
      -- The name is left out exactly if it is the name of the column.
      by_cases hsame : name = source
      · simp [shownName, hname, hsame, Option.filter]
      · simp [shownName, hname, hsame, Option.filter]
    · exact hplain
  · exact hplain

theorem selectItem_gives (hv : Grouped env.graph own v)
    (hname : ∃ t name, env.graph.typedOf v = .ok t ∧ t.name = some name) :
    Gives env b a ((Steps.upTo env depth).selectItem env v)
      fun s i => ItemRendered env.graph a s v i := by
  intro s hs
  obtain ⟨t, name, ht, htname⟩ := hname
  obtain ⟨n, hn, hntyped⟩ := Graph.typedOf_eq_ok_iff.1 ht
  have hshown : nameOf env.graph v = name := by simp [nameOf, ht, htname]
  refine .bind ((hv.visit_keepsLevel hown hpass depth s hs).imp fun _ s₁ ⟨hsame, hs₁⟩ => ?_)
  refine .bind (Meets.check (fun m hm => ?_) fun _ _ => trivial)
  cases hn.symm.trans (Graph.node_eq_ok_iff.1 hm)
  rw [hntyped]
  refine .bind ((itemName_meets hpass hv hn hntyped htname hs₁).imp
    fun given s' ⟨hs', hgiven⟩ => ?_)
  subst s'
  refine .bind (Meets.fragment (fun e he => .pure ⟨hsame, hs₁, ?_⟩) fun _ _ => trivial)
  have hrendered : Rendered env.graph a s₁ v e := fun F hF => hs₁.fragments F hF v e he
  exact ⟨hrendered, (hgiven e hrendered).trans hshown.symm⟩

theorem selectItems_gives (h : ∀ v ∈ ids, Grouped env.graph own v)
    (hname : ∀ v ∈ ids, ∃ t name, env.graph.typedOf v = .ok t ∧ t.name = some name) :
    Gives env b a ((Steps.upTo env depth).selectItems env ids)
      fun s items => List.Forall₂ (ItemRendered env.graph a s) ids items := by
  induction ids with
  | nil => exact fun s hs => .pure ⟨.refl s, hs, .nil⟩
  | cons v rest ih =>
    intro s hs
    have hv := selectItem_gives hown hpass depth (h v (.head _))
      (hname v (.head _)) s hs
    refine .bind (hv.imp fun i s₁ ⟨hsame, hs₁, hi⟩ => .bind ?_)
    refine (ih (fun w hw => h w (.tail _ hw))
      (fun w hw => hname w (.tail _ hw)) s₁ hs₁).imp
      fun items s₂ ⟨hsame₂, hs₂, hitems⟩ => .pure ⟨hsame.trans hsame₂, hs₂, .cons ?_ hitems⟩
    exact ⟨hi.1.mono hsame₂.functions, hi.2⟩

end Lists

/-! ## What clauses mean -/

section Meaning

variable {V : Type} {S : Scalars V} {g : Graph} {careful : Prop} {a : Alias} {s : State}
  {F : FunctionNames}
variable {id : NodeId} {e : Expr} {ids : List NodeId} {items : List (Item Expr)} {es : List Expr}
  (hw : g.WellFormed careful) (hF : Keeps s.context.functions F)

include hw hF

theorem Rendered.exprOf (S : Scalars V) (h : Rendered g a s id e) :
    ∃ e', exprOf g (namesOf F) id = .ok e' ∧ SameMeaning S a 0 e e' := by
  have hr := h F hF
  have hlt : id < g.size := by
    cases hr with
    | intro _ hn => exact Graph.lt_size_of_node? hn
  exact hr.sameMeaning hw S g.size hlt

theorem Rendered.eval_eq (h : Rendered g a s id e) (row : Row V) :
    eval S a row e = valueIn S g (namesOf F) id row := by
  obtain ⟨e', he', hsame⟩ := h.exprOf hw hF S
  simp [valueIn, he', hsame.row]

theorem Rendered.groupEval_eq (h : Rendered g a s id e) (rows : List (Row V)) :
    groupEval S a rows e = groupValueIn S g (namesOf F) id rows := by
  obtain ⟨e', he', hsame⟩ := h.exprOf hw hF S
  simp [groupValueIn, he', hsame.group]

theorem Rendered.hasAggregate_eq (S : Scalars V) (h : Rendered g a s id e) :
    hasAggregate e = needsRows g (namesOf F) id := by
  obtain ⟨e', he', hsame⟩ := h.exprOf hw hF S
  simp [needsRows, he', hsame.aggregate]

theorem values_eval_eq (h : List.Forall₂ (Rendered g a s) ids es) (row : Row V) :
    es.map (eval S a row) = ids.map fun id => valueIn S g (namesOf F) id row := by
  induction h with
  | nil => rfl
  | cons he _ ih => simp [he.eval_eq hw hF, ih]

theorem keys_eq {keys : List SortKey} (h : List.Forall₂ (KeyRendered g a s) keys es) :
    (es.map fun e => (ascends e, fun row => eval S a row e)) =
      keys.map fun k => (k.ascending, valueIn S g (namesOf F) k.expr) := by
  induction h with
  | nil => rfl
  | @cons key e _ _ hk _ ih =>
    obtain ⟨e', he', rfl⟩ := hk
    obtain ⟨_, _, hsame⟩ := he'.exprOf hw hF S
    have hvalue : (fun row => eval S a row e') = valueIn S g (namesOf F) key.expr :=
      funext fun row => he'.eval_eq hw hF row
    simp only [List.map_cons, ih]
    cases hasc : key.ascending with
    | true => simp [hsame.left, hvalue]
    | false =>
      have hdesc : ∀ row, eval S a row (.descending e') = eval S a row e' := fun _ => rfl
      simp [ascends, hdesc, hvalue]

theorem items_eval_eq (h : List.Forall₂ (ItemRendered g a s) ids items) (row : Row V) :
    (items.map fun i => (shownName i, eval S a row i.expr)) = rowOf S g (namesOf F) ids row := by
  induction h with
  | nil => rfl
  | cons hi _ ih =>
    rw [rowOf] at ih ⊢
    simp [hi.1.eval_eq hw hF, hi.2, ih]

theorem items_groupEval_eq (h : List.Forall₂ (ItemRendered g a s) ids items) (rows : List (Row V)) :
    (items.map fun i => (shownName i, groupEval S a rows i.expr)) =
      groupOf S g (namesOf F) ids rows := by
  induction h with
  | nil => rfl
  | cons hi _ ih =>
    rw [groupOf] at ih ⊢
    simp [hi.1.groupEval_eq hw hF, hi.2, ih]

theorem items_any_eq (S : Scalars V) (h : List.Forall₂ (ItemRendered g a s) ids items) :
    items.any (fun i => hasAggregate i.expr) = ids.any (needsRows g (namesOf F)) := by
  induction h with
  | nil => rfl
  | cons hi _ ih => simp [hi.1.hasAggregate_eq hw hF S, ih]

omit hw hF in
theorem items_any_eq_false (hnames : Distinguished s.context.functions) {own : NodeId}
    (h : List.Forall₂ (ItemRendered g a s) ids items) (hrow : ∀ id ∈ ids, RowWise g own id) :
    items.any (fun i => hasAggregate i.expr) = false := by
  induction h with
  | nil => rfl
  | @cons id i _ _ hi _ ih =>
    have hno : hasAggregate i.expr = false :=
      (hi.1 _ (.refl _)).hasAggregate_eq_false hnames.namesOf (hrow id (.head _))
    simp only [List.any_cons, hno, Bool.false_or]
    exact ih fun x hx => hrow x (.tail _ hx)

end Meaning

end PlanSql.Rows

import PlanSql.Proofs.Compile.Visible
import PlanSql.Proofs.Statements.References

/-!
# Columns of unrelated collections

An operator can name the columns of what is visible on its level: what is under its input, and the
parts of all joins that a walk from it meets. The columns of a collection from which none of these
is reached through sides of joins and inputs of filters, slices and sorts are never compiled. Since
all values that a compiled value reads are compiled, an operator that reads such a column is
rejected.
-/

namespace PlanSql

variable {careful : Prop} {n : Node} {env : Env} {top : NodeId}

variable {g : Graph} {id x : NodeId}

/-- The columns of a collection may be named as those of another one. -/
inductive Graph.NamedBy (g : Graph) : NodeId → NodeId → Prop
  | refl {id : NodeId} : NamedBy g id id
  | left {id left right x : NodeId} {predicate : Option NodeId} {how : JoinKind}
    {fields : List JoinField} {shape : Shape} :
    g.node? id = some ⟨.join left right predicate how fields, shape⟩ → NamedBy g left x →
    NamedBy g id x
  | right {id left right x : NodeId} {predicate : Option NodeId} {how : JoinKind}
    {fields : List JoinField} {shape : Shape} :
    g.node? id = some ⟨.join left right predicate how fields, shape⟩ → NamedBy g right x →
    NamedBy g id x
  | through {id input x : NodeId} {n : Node} : g.node? id = some n →
    n.kind.passThrough? = some input → NamedBy g input x → NamedBy g id x

theorem Graph.NamedBy.under (h : g.NamedBy id x) : g.Under id x := by
  induction h with
  | refl => exact .refl
  | left hn _ ih | right hn _ ih => exact .step hn (by simp [inputs]) ih
  | through hn hp _ ih => exact .step hn (mem_inputs_of_passThrough? hp) ih

/-- A node without operands reaches nothing else. -/
theorem Graph.Reach.eq_of_children (h : g.Reach id x) (hno : g.children id = []) : x = id := by
  induction h with
  | refl => rfl
  | step _ hchild ih =>
    rw [ih, hno] at hchild
    cases hchild

theorem Graph.NamedBy.isCollection (hw : g.WellFormed careful)
    (h : g.NamedBy id x) (hc : g.isCollection id = true) :
    g.isCollection x = true := by
  induction h with
  | refl => exact hc
  | left hn _ ih =>
    obtain ⟨schema, rfl⟩ : ∃ schema, _ = Shape.collection schema := hw.shape hn
    obtain ⟨kind, schema', hl, _⟩ := hw.side hn (.inl rfl)
    exact ih (Compile.isCollection_of_node hl)
  | right hn _ ih =>
    obtain ⟨schema, rfl⟩ : ∃ schema, _ = Shape.collection schema := hw.shape hn
    obtain ⟨kind, schema', hr, _⟩ := hw.side hn (.inr rfl)
    exact ih (Compile.isCollection_of_node hr)
  | through hn hp _ ih =>
    obtain ⟨schema, hs⟩ := isCollection_iff.1 hc
    exact ih (isCollection_iff.2 ⟨schema, hw.through_schema hn hp hs⟩)

theorem Graph.IsColumn.isCollection (hw : g.WellFormed careful)
    {collection : NodeId} {t : Typed} {source : String} (h : g.IsColumn id collection t source) :
    g.isCollection collection = true := by
  obtain ⟨n, hn, hkind, ht⟩ := h.node
  have hfits := hw.valueFits hn ht
  rw [hkind] at hfits
  obtain ⟨schema, _, _, hschema, _⟩ := hfits
  exact isCollection_iff.2 ⟨schema, Keeps.schemaOf _ (before_extends g _) _ hschema⟩

namespace Compile

open PlanSql.Sql

variable {g : Graph} {c : NodeId} {s s' : State}

theorem isCollection_of_inputs (hw : g.WellFormed careful) {input : NodeId}
    (hn : g.node? id = some n) (hi : Graph.inputs n.kind = [input]) :
    g.isCollection id = true := by
  obtain ⟨kind, shape⟩ := n
  have hshape := hw.shape hn
  cases kind with
  | project | filter | groupBy | mutate | sort | distinct | slice | summary =>
    obtain ⟨schema, rfl⟩ := hshape
    exact isCollection_of_node hn
  | _ => cases hi

theorem Resolves.namedBy {visible : Visible} {field name : String}
    (h : Resolves g visible id field x name) : g.NamedBy id x := by
  induction h with
  | here => exact .refl
  | @join _ _ _ _ _ _ _ _ _ _ f _ hn _ _ ih =>
    split at ih
    · exact .left hn ih
    · exact .right hn ih
  | through _ hn hp _ ih => exact .through hn hp ih

section Complete

/-- All values that were visited have an expression, and so have all values that they read. -/
structure Complete (g : Graph) (s : State) : Prop where
  visited : ∀ x ∈ s.visited, g.isCollection x = false → s.context.hasFragment x = true
  cited : ∀ {x y}, s.context.hasFragment x = true → g.Cites x y → s.context.hasFragment y = true

theorem AddsValues.hasFragment (h : AddsValues s s') (hx : s.context.hasFragment x = true) :
    s'.context.hasFragment x = true := by
  obtain ⟨e, he⟩ := Option.isSome_iff_exists.1 hx
  exact Option.isSome_iff_exists.2 ⟨e, h.fragment he⟩

theorem Complete.congr (h : Complete g s) (hv : s'.visited = s.visited)
    (hf : s'.context.fragments = s.context.fragments) : Complete g s' := by
  constructor
  · unfold Context.hasFragment
    rw [hv, hf]
    exact h.visited
  · unfold Context.hasFragment
    rw [hf]
    exact h.cited

theorem Complete.mark (h : Complete g s)
    (hid : g.isCollection id = false → s.context.hasFragment id = true) :
    Complete g (s.mark id) := by
  refine ⟨fun x hx hv => ?_, h.cited⟩
  rcases List.mem_cons.1 hx with rfl | hx
  · exact hid hv
  · exact h.visited x hx hv

theorem Complete.inner (g : Graph) (s : State) : Complete g s.inner :=
  ⟨fun x hx => absurd hx List.not_mem_nil, fun hx => by cases hx⟩

theorem Prepared.complete {input : NodeId} {clause : Clause} {reads : Bool}
    (h : Prepared env input clause reads s s') (hs : Complete env.graph s) :
    Complete env.graph s' := by
  cases h with
  | same => exact hs
  | wrapped =>
    refine ⟨fun x hx hv => ?_, fun hx => by cases hx⟩
    rw [(List.mem_filter.1 hx).2] at hv
    cases hv

/-- The expression of a value is kept after those of all values that it reads. -/
theorem Complete.emit {e : Expr} {context : Context Expr} (h : Complete g s)
    (hn : g.node? id = some n)
    (hread : ∀ slot x, (slot, x) ∈ n.kind.operands → slot ≠ .subquery → g.isCollection x = false →
      s.context.hasFragment x = true)
    (hadd : s.context.addFragment canonicalText id e = .ok context) :
    Complete g ({ s with context := context }.mark id) ∧ context.hasFragment id = true := by
  rcases Context.addFragment_eq_ok hadd with ⟨hnew, rfl⟩ | ⟨hsome, rfl⟩
  · have hhas : ∀ x, ({ s.context with fragments := (id, e) :: s.context.fragments } :
        Context Expr).hasFragment x = true ↔ x = id ∨ s.context.hasFragment x = true := by
      intro x
      by_cases hx : x = id
      · simp [Context.hasFragment, hx]
      · simp [Context.hasFragment, List.lookup_cons, beq_false_of_ne hx, hx]
    have hself := (hhas id).2 (.inl rfl)
    refine ⟨Complete.mark ⟨fun x hx hv => ?_, fun {x y} hx hcites => ?_⟩ fun _ => hself, hself⟩
    · exact (hhas x).2 (.inr (h.visited x hx hv))
    · rcases (hhas x).1 hx with rfl | hx
      · cases hcites with
        | refl => exact hself
        | step hm hmem hslot hv hcites =>
          cases hn.symm.trans hm
          exact (hhas y).2 (.inr (h.cited (hread _ _ hmem hslot hv) hcites))
      · exact (hhas y).2 (.inr (h.cited hx hcites))
  · exact ⟨h.mark fun _ => hsome, hsome⟩

/-- What a job does to the values that have an expression. -/
def Job.Completes (g : Graph) : Job → State → State → Prop
  | .visit id, s, s' => Complete g s → Complete g s' ∧
    (g.isCollection id = false → s'.context.hasFragment id = true)
  | .operands os, s, s' => Complete g s → Complete g s' ∧
    ∀ slot x, (slot, x) ∈ os → slot ≠ .subquery → g.isCollection x = false →
      s'.context.hasFragment x = true
  | .values ids _, s, s' | .items ids _, s, s' => Complete g s → Complete g s' ∧
    ∀ x ∈ ids, s'.context.hasFragment x = true
  | .keys ks _, s, s' => Complete g s → Complete g s' ∧
    ∀ key ∈ ks, s'.context.hasFragment key.expr = true
  | _, s, s' => Complete g s → Complete g s'

theorem Runs.completes {job : Job}
    (hw : env.graph.WellFormed careful) (h : Runs env top job s s') :
    job.Completes env.graph s s' := by
  have hcollection : ∀ {id kind schema} {s : State}, Complete env.graph s →
      env.graph.node? id = some ⟨kind, .collection schema⟩ → Complete env.graph (s.mark id) ∧
        (env.graph.isCollection id = false → (s.mark id).context.hasFragment id = true) := by
    intro id kind schema s hs hn
    exact ⟨hs.mark (elim_of_collection hn), elim_of_collection hn⟩
  induction h with
  | visited hmem => exact fun hs => ⟨hs, hs.visited _ hmem⟩
  | cached _ _ hf => exact fun hs => ⟨hs.mark fun _ => hf, fun _ => hf⟩
  | source _ _ hn => exact fun hs => hcollection (hs.congr rfl rfl) hn
  | selection _ _ hn _ _ ih => exact fun hs => hcollection (ih hs) hn
  | filter _ _ hn _ hprep _ _ _ _ ih ih' =>
    exact fun hs => hcollection ((ih' (hprep.complete (ih hs).1)).1.congr rfl rfl) hn
  | groupBy _ _ hn _ hprep _ _ _ _ _ _ ih ih' ih'' ihp =>
    intro hs
    have hs₄ := (ih'' (ih' (hprep.complete (ih hs).1)).1).1
    exact hcollection ((ihp (hs₄.congr rfl rfl)).1.congr rfl rfl) hn
  | sort _ _ hn _ hprep _ _ ih ih' =>
    exact fun hs => hcollection ((ih' (hprep.complete (ih hs).1)).1.congr rfl rfl) hn
  | slice _ _ hn _ _ hprep _ ih =>
    exact fun hs => hcollection ((hprep.complete (ih hs).1).congr rfl rfl) hn
  | joined _ _ hn _ _ _ ih | united _ _ hn _ _ ih =>
    exact fun hs => hcollection ((ih hs).congr rfl rfl) hn
  | value _ _ _ hn ht _ hprovide _ hadd ih ih' =>
    intro hs
    have hs₁ := ih hs
    have hadds : AddsValues _ _ := hprovide.leaves
    refine ((ih' hs₁.1).emit hn (fun slot x hx hslot hv => hadds.hasFragment ?_) hadd).imp_right
      fun h _ => h
    refine hs₁.2 slot x ?_ hslot hv
    unfold Kind.visits
    split
    · next collection hk =>
      -- What a column is read from is a collection.
      have hfits := hw.valueFits hn ht
      rw [hk] at hfits hx
      obtain ⟨schema, _, _, hschema, _⟩ := hfits
      obtain ⟨-, rfl⟩ := Prod.mk.inj (List.mem_singleton.1 hx)
      have hrel := Graph.Keeps.schemaOf _ (Graph.before_extends env.graph _) _ hschema
      rw [Graph.isCollection_iff.2 ⟨schema, hrel⟩] at hv
      cases hv
    · exact hx
  | noOperands | noValues | noKeys | noItems => exact fun hs => ⟨hs, by simp⟩
  | skipped hno _ ih =>
    intro hs
    refine ⟨(ih hs).1, fun slot x hx hslot hv => ?_⟩
    rcases List.mem_cons.1 hx with heq | hx
    · cases heq
      rcases hno with hsub | hc
      · exact absurd hsub hslot
      · rw [hc] at hv
        cases hv
    · exact (ih hs).2 slot x hx hslot hv
  | operand _ hv _ hrest ih ih' =>
    intro hs
    have hs₁ := ih hs
    have hadds : AddsValues _ _ := hrest.leaves
    refine ⟨(ih' hs₁.1).1, fun slot x hx hslot hv' => ?_⟩
    rcases List.mem_cons.1 hx with heq | hx
    · cases heq
      exact hadds.hasFragment (hs₁.2 hv)
    · exact (ih' hs₁.1).2 slot x hx hslot hv'
  | valueThen hv _ _ hrest ih ih' | keyThen hv _ _ hrest ih ih' | itemThen hv _ _ _ _ _ hrest ih ih'
    =>
    intro hs
    have hs₁ := ih hs
    have hadds : AddsValues _ _ := hrest.leaves
    refine ⟨(ih' hs₁.1).1, fun x hx => ?_⟩
    rcases List.mem_cons.1 hx with rfl | hx
    · exact hadds.hasFragment (hs₁.2 hv)
    · exact (ih' hs₁.1).2 x hx
  | provideFunction => exact fun hs => hs.congr rfl rfl
  | provideWindow _ ih => exact fun hs => (ih hs).1
  | provideSubquery _ _ ih => exact ih
  | provideNothing | discovered | unionKept | subqueryKept | joinKept => exact fun hs => hs
  | select _ hprep _ _ ih ih' =>
    exact fun hs => (ih' (hprep.complete (ih hs).1)).1.congr rfl rfl
  | level | levelOfValue => exact fun hs => hs.congr rfl rfl
  | discoverJoin _ _ _ _ ih ih' | discoverUnion _ _ _ _ ih ih'
  | discoverSubquery _ _ _ _ _ ih ih' =>
    exact fun hs => ih' (ih hs)
  | unionNew _ _ _ _ _ _ ih ih' => exact fun hs => (ih' (ih hs)).congr rfl rfl
  | subqueryNew _ _ _ _ _ ih => exact fun hs => (ih hs).congr rfl rfl
  | sideTable => exact fun hs => hs.congr rfl rfl
  | sideJoin _ _ ih | sideUnion _ _ ih => exact ih
  | sideLevel _ _ _ _ _ ih => exact fun hs => (ih hs).congr rfl rfl
  | joinNew _ _ _ _ _ _ ih ih' ih'' =>
    exact fun hs => (ih'' ((ih' (ih hs)).congr rfl rfl)).1.congr rfl rfl

end Complete

section Blind

variable {env : Env} {input v : NodeId} {slot : Slot}

/-- Nothing that is visible names the columns of `c`, and none of them has an expression. -/
structure Blind (g : Graph) (c : NodeId) (s : State) : Prop where
  visible : ∀ x, (s.visible.lookup x).isSome → ¬ g.NamedBy c x
  column : ∀ {id e}, s.context.fragments.lookup id = some e → ∀ t source, ¬ g.IsColumn id c t source

theorem Blind.inner (g : Graph) (c : NodeId) (s : State) : Blind g c s.inner :=
  ⟨fun _ hx => (by cases hx), fun hx => (by cases hx)⟩

/-- More becomes visible. -/
theorem Blind.unveil {new : NodeId → Prop} (h : Blind g c s) (hu : Unveils new s s')
    (hnew : ∀ x, new x → ¬ g.NamedBy c x) (hf : s'.context.fragments = s.context.fragments) :
    Blind g c s' := by
  refine ⟨fun x hx => (hu x hx).elim (h.visible x) (hnew x), fun hx => ?_⟩
  rw [hf] at hx
  exact h.column hx

theorem Blind.congr (h : Blind g c s) (hv : s'.visible = s.visible)
    (hf : s'.context.fragments = s.context.fragments) : Blind g c s' := by
  have hu : Unveils (fun _ => False) s s' := .of_visible hv
  exact h.unveil hu (fun _ hno => hno.elim) hf

/-- A column that is compiled is named by something visible. -/
theorem Compiles.blind {cites : NodeId → Prop} (h : Compiles env cites s s')
    (hs : Blind env.graph c s) : Blind env.graph c s' := by
  constructor
  · rw [h.adds.visible]
    exact hs.visible
  · intro id e hx t source hcol
    rcases h.rendered hx with hx | ⟨_, u, n, hu, _, hn, he⟩
    · exact hs.column hx t source hcol
    · obtain ⟨label, field, hp, _⟩ := valueExpr_column hcol hn he
      obtain ⟨x, hres, _⟩ := columnRef_resolves hp
      rw [hu.visible] at hres
      exact hs.visible x hres.seen hres.namedBy

theorem Prepared.blind {clause : Clause} {reads : Bool} (h : Prepared env input clause reads s s')
    (hs : Blind env.graph c s) (hunder : ∀ x, env.graph.Under input x → ¬ env.graph.NamedBy c x) :
    Blind env.graph c s' := by
  have hunveils : Unveils (env.graph.Under input) s s' := .prepared h fun x hx => hx
  cases h with
  | same => exact hs
  | wrapped =>
    refine ⟨fun x hx => ?_, fun hx => by cases hx⟩
    exact (hunveils x hx).elim (hs.visible x) (hunder x)

/-- Jobs that make visible only what does not name the columns of `c` compile none of them. -/
def Job.Blinds (g : Graph) (c : NodeId) : Job → State → State → Prop
  | .visit id, s, s' => Kept g s → Blind g c s → (∀ x, g.Shows id x → ¬ g.NamedBy c x) →
    Blind g c s'
  | .select sel, s, s' => Kept g s → Blind g c s → (∀ x, g.Under sel.input x → ¬ g.NamedBy c x) →
    Blind g c s'
  | .discover root, s, s' => Kept g s → Blind g c s → (∀ x, g.MetPart root x → ¬ g.NamedBy c x) →
    Blind g c s'
  | .side id _ _, s, s' | .join id _, s, s' => Kept g s → Blind g c s →
    (∀ x, g.Part id x → ¬ g.NamedBy c x) → Blind g c s'
  | _, _, _ => True

theorem Runs.blinds {job : Job} (h : Runs env top job s s') :
    job.Blinds env.graph c s s' := by
  have hinput : ∀ {id input : NodeId} {n : Node}, env.graph.node? id = some n →
      input ∈ Graph.inputs n.kind → (∀ x, env.graph.Shows id x → ¬ env.graph.NamedBy c x) →
      ∀ x, env.graph.Under input x → ¬ env.graph.NamedBy c x :=
    fun hn hi hshows x hx => hshows x (.under hn hi hx)
  induction h with
  | visited => exact fun _ hs _ => hs
  | cached => exact fun _ hs _ => hs.congr rfl rfl
  | source _ _ hn => exact fun _ hs hshows =>
      (hs.unveil (.revealing_one (.self hn (by simp [Graph.inputs]))) hshows rfl).congr rfl rfl
  | selection _ _ hn hsel _ ih =>
    intro hk hs hshows
    refine (ih hk hs (hinput hn ?_ hshows)).congr rfl rfl
    rw [inputs_of_selection hsel]
    exact List.mem_singleton_self _
  | filter _ _ hn _ hprep hv hp _ _ ih _ =>
    intro hk hs hshows
    have hbelow := hinput hn (List.mem_singleton_self _) hshows
    exact ((hp.compiles hv).blind
      (hprep.blind (ih hk hs fun x hx => hbelow x hx.toUnder) hbelow)).congr rfl rfl
  | groupBy _ _ hn _ hprep hkeys hitems _ _ hp _ ih _ _ _ =>
    intro hk hs hshows
    have hbelow := hinput hn (List.mem_singleton_self _) hshows
    have hs₃ := hkeys.compiles.blind (hprep.blind (ih hk hs fun x hx => hbelow x hx.toUnder) hbelow)
    have hs₄ := hitems.compiles.blind hs₃
    exact (hp.compiles.blind (hs₄.congr rfl rfl)).congr rfl rfl
  | sort _ _ hn _ hprep hkeys _ ih _ =>
    intro hk hs hshows
    have hbelow := hinput hn (List.mem_singleton_self _) hshows
    exact (hkeys.compiles.blind
      (hprep.blind (ih hk hs fun x hx => hbelow x hx.toUnder) hbelow)).congr rfl rfl
  | slice _ _ hn _ _ hprep _ ih =>
    intro hk hs hshows
    have hbelow := hinput hn (List.mem_singleton_self _) hshows
    exact (hprep.blind (ih hk hs fun x hx => hbelow x hx.toUnder) hbelow).congr rfl rfl
  | joined _ _ hn hjoin _ _ ih =>
    intro hk hs hshows
    have hj : env.graph.IsJoin _ := ⟨_, _, _, _, _, _, hn⟩
    have hparts : ∀ x, env.graph.Part _ x → ¬ env.graph.NamedBy c x :=
      fun x hx => hshows x (hx.shows hj)
    have hreveals := (hjoin.keeps hk).join hjoin.lookup_join
    have hshown := (ih hk hs hparts).unveil (.revealing fun x hx => hreveals.part hx) hparts rfl
    exact hshown.congr rfl rfl
  | united _ _ hn hunion _ _ =>
    intro _ hs hshows
    have hsame : Same _ _ := hunion.leaves
    have hs₁ := hs.congr hsame.visible hsame.fragments
    have hself := Graph.Shows.self hn (by simp [Graph.inputs])
    exact (hs₁.unveil (.revealing_one hself) hshows rfl).congr rfl rfl
  | value hnew hno hreach hn ht hvisits hprovide he hadd _ _ =>
    intro _ hs _
    have hv := not_isCollection_of_typed hn ht
    exact ((Runs.value hnew hno hreach hn ht hvisits hprovide he hadd).compiles hv).blind hs
  | select _ hprep hitems _ ih _ =>
    intro hk hs hunder
    have hs₁ := ih hk hs fun x hx => hunder x hx.toUnder
    exact (hitems.compiles.blind (hprep.blind hs₁ hunder)).congr rfl rfl
  | discovered => exact fun _ hs _ => hs
  | discoverJoin hmet hn hjoin _ ih ih' =>
    intro hk hs hparts
    have hj : env.graph.IsJoin _ := ⟨_, _, _, _, _, _, hn⟩
    exact ih' (hjoin.keeps hk) (ih hk hs fun x hx => hparts x ⟨_, hj, hmet, hx⟩) hparts
  | discoverUnion _ _ hunion _ _ ih' =>
    intro hk hs hparts
    have hsame : Same _ _ := hunion.leaves
    exact ih' (hunion.keeps hk) (hs.congr hsame.visible hsame.fragments) hparts
  | discoverSubquery _ _ _ hsub _ _ ih' =>
    intro hk hs hparts
    have hsame : Same _ _ := hsub.leaves
    exact ih' (hsub.keeps hk) (hs.congr hsame.visible hsame.fragments) hparts
  | sideTable => exact fun _ hs hparts =>
      (hs.unveil (.revealing_one .refl) hparts rfl).congr rfl rfl
  | sideJoin _ _ ih => exact ih
  | sideUnion _ hunion _ =>
    intro _ hs _
    have hsame : Same _ _ := hunion.leaves
    exact hs.congr hsame.visible hsame.fragments
  | sideLevel _ _ _ hlevel _ _ =>
    intro _ hs _
    have hsame : Same _ _ := hlevel.leaves
    exact (hs.congr hsame.visible hsame.fragments).congr rfl rfl
  | joinKept => exact fun _ hs _ => hs
  | joinNew _ _ hn hleft hright hp ih ih' _ =>
    intro hk hs hparts
    have hl := hleft.keeps hk
    have hr := hright.keeps hl.1
    have hreveals : Reveals env.graph (.join _ _ _ none) _ _ := .join hn hl.2 hr.2
    have hs₁ := ih hk hs fun x hx => hparts x (.left hn hx)
    have hs₂ := ih' hl.1 hs₁ fun x hx => hparts x (.right hn hx)
    have hs₃ := hs₂.unveil (.revealing fun x hx => hreveals.part hx) hparts rfl
    exact (hp.compiles.blind hs₃).congr rfl rfl
  | _ => trivial

theorem Context.hasFragment_of_fragment {context : Context Expr} {e : Expr}
    (h : context.fragment id = .ok e) : context.hasFragment id = true := by
  rw [Context.hasFragment, Context.fragment_eq_ok_iff.1 h]
  rfl

theorem Selection.mem_fields {kind : Kind} {sel : Selection} (h : Selection.of? kind = some sel)
    (ho : (slot, v) ∈ kind.operands) (hslot : slot.isInput = false) :
    v ∈ sel.fields := by
  cases kind with
  | project input fields | distinct input fields | summary input fields =>
    cases h
    rcases List.mem_cons.1 ho with heq | ho
    · obtain ⟨rfl, -⟩ := Prod.mk.inj heq
      cases hslot
    · exact Graph.mem_many ho
  | mutate input keys mutates =>
    cases h
    rcases List.mem_cons.1 ho with heq | ho
    · obtain ⟨rfl, -⟩ := Prod.mk.inj heq
      cases hslot
    · exact List.mem_append.2 ((List.mem_append.1 ho).imp Graph.mem_many Graph.mem_many)
  | _ => cases h

theorem mem_of_mem_groupBy {keys aggregates : List NodeId} {having : Option NodeId}
    (ho : (slot, v) ∈ (Kind.groupBy input keys aggregates having).operands)
    (hslot : slot.isInput = false) : v ∈ keys ++ aggregates ∨ having = some v := by
  simp only [Kind.operands, List.cons_append, List.mem_cons, List.mem_append] at ho
  rcases ho with heq | (ho | ho) | ho
  · obtain ⟨rfl, -⟩ := Prod.mk.inj heq
    cases hslot
  · exact .inl (List.mem_append_left _ (Graph.mem_many ho))
  · exact .inl (List.mem_append_right _ (Graph.mem_many ho))
  · exact .inr (Option.mem_toList.1 (Graph.mem_many ho))

theorem Runs.operand_compiled {op : NodeId}
    (hw : env.graph.WellFormed careful) (h : Runs env top (.visit op) s s')
    (hnew : op ∉ s.visited) (hn : env.graph.node? op = some n)
    (hi : Graph.inputs n.kind = [input]) (ho : (slot, v) ∈ n.kind.operands)
    (hslot : slot.isInput = false) (hs : Complete env.graph s) :
    s'.context.hasFragment v = true := by
  cases h with
  | visited hmem => exact absurd hmem hnew
  | cached _ hv =>
    rw [isCollection_of_inputs hw hn hi] at hv
    cases hv
  | source _ _ hn' | joined _ _ hn' | united _ _ hn' =>
    cases hn.symm.trans hn'
    cases hi
  | selection _ _ hn' hsel hselect =>
    cases hn.symm.trans hn'
    cases hselect with
    | select hrun hprep hitems hc =>
      have hs₂ := hprep.complete (hrun.completes hw hs).1
      exact (hitems.completes hw hs₂).2 v (Selection.mem_fields hsel ho hslot)
  | filter _ _ hn' _ _ _ _ hf =>
    cases hn.symm.trans hn'
    simp only [Kind.operands, List.mem_cons, List.not_mem_nil, or_false, Prod.mk.injEq] at ho
    rcases ho with ⟨rfl, -⟩ | ⟨-, rfl⟩
    · cases hslot
    · exact Context.hasFragment_of_fragment hf
  | groupBy _ _ hn' hrun hprep hkeys hitems _ _ hp =>
    cases hn.symm.trans hn'
    have hs₃ := (hkeys.completes hw (hprep.complete (hrun.completes hw hs).1)).1
    have hs₄ := hitems.completes hw hs₃
    have hadds : AddsValues _ _ := hp.leaves
    rcases mem_of_mem_groupBy ho hslot with hv | hv
    · exact hadds.hasFragment (hs₄.2 v hv)
    · exact (hp.completes hw (hs₄.1.congr rfl rfl)).2 v (Option.mem_toList.2 hv)
  | sort _ _ hn' hrun hprep hkeys =>
    cases hn.symm.trans hn'
    have hall := (hkeys.completes hw (hprep.complete (hrun.completes hw hs).1)).2
    rcases List.mem_cons.1 ho with heq | ho
    · obtain ⟨rfl, -⟩ := Prod.mk.inj heq
      cases hslot
    · obtain ⟨key, hkey, rfl⟩ := List.mem_map.1 (Graph.mem_many ho)
      exact hall key hkey
  | slice _ _ hn' =>
    cases hn.symm.trans hn'
    obtain ⟨rfl, -⟩ := Prod.mk.inj (List.mem_singleton.1 ho)
    cases hslot
  | value _ _ _ hn' ht =>
    have hv := not_isCollection_of_typed hn' ht
    rw [isCollection_of_inputs hw hn hi] at hv
    cases hv

end Blind

/-- The level of a collection compiles joins ahead and then the collection, which is not compiled
ahead. -/
theorem Runs.of_level {root : NodeId} {l : LevelId}
    (h : Runs env top (.level root l) s s') (hc : env.graph.isCollection root = true) :
    ∃ s₁ s₂, Runs env top (.discover root) s.inner s₁ ∧ Runs env top (.visit root) s₁ s₂ ∧
      root ∉ s₁.visited := by
  cases h with
  | levelOfValue _ hv =>
    rw [hc] at hv
    cases hv
  | level _ _ hdiscover hvisit hq =>
    refine ⟨_, _, hdiscover, hvisit, fun hmem => ?_⟩
    -- Nothing would be added to the clauses, and a level without a source is not closed.
    have hsource := (close_eq_ok hq).1
    cases hvisit with
    | visited =>
      have hahead : AddsAhead _ _ := hdiscover.leaves
      rw [hahead.clauses] at hsource
      cases hsource
    | cached hno | source hno | selection hno | filter hno | groupBy hno
    | sort hno | slice hno | joined hno | united hno | value hno => exact hno hmem

/-- An operator whose values read a column of a collection that is unrelated to its input is not
compiled, unless the column is named by a part of a join that is met on the way. If every call that
shows different rows names a collection, the error is that something is out of scope, that something
cannot be expressed, or that a slice has a bad stop. -/
theorem compile_unrelated {g : Graph} (hb : Built g) {op input v k collection : NodeId} {n : Node}
    {slot : Slot} {t : Typed} {source : String} (hn : g.node? op = some n)
    (hi : Graph.inputs n.kind = [input]) (ho : (slot, v) ∈ n.kind.operands)
    (hslot : slot.isInput = false) (hcites : g.Cites v k) (hcol : g.IsColumn k collection t source)
    (hunrelated : ∀ x, g.isCollection x = true → g.Reach collection x → ¬ g.Reach input x)
    (hjoins : ∀ j x, g.IsJoin j → g.Met op j → g.Part j x → ¬ g.NamedBy collection x)
    (c : Compiler) :
    ∃ e, (c.compile g op).1 = .error e ∧ (BuiltBy (fun g c => c.NamesCollection g) g →
      (∃ x, e = .schema (.outOfScope x)) ∨ e.Inexpressible ∨ BadStop g op e) := by
  have hw := hb.fits
  have hroot := isCollection_of_inputs hw hn hi
  -- Nothing under the input names the columns, since it would be reached from both.
  have hunder : ∀ x, g.Under input x → ¬ g.NamedBy collection x := fun x hx hnamed =>
    hunrelated x (hnamed.isCollection hw (hcol.isCollection hw)) hnamed.under.reach hx.reach
  cases hresult : (c.compile g op).1 with
  | error e =>
    refine ⟨e, rfl, fun hnames => ?_⟩
    have hw' : g.WellFormed True := hnames.wellFormed fun _ _ _ h => h
    rcases error_of_compile hw' hroot hresult with he | he | ⟨_, he⟩
    · exact .inr (.inl he)
    · exact .inr (.inr he)
    · exact .inl he
  | ok s =>
    have hcompile : c.compile g op = (.ok s, (c.compile g op).2) := Prod.ext hresult rfl
    obtain ⟨_, hrun, _⟩ := runs_of_compile hw hcompile
    obtain ⟨s₁, s₂, hdiscover, hvisit, hnew⟩ := hrun.of_level hroot
    have hk : Kept g (State.start c.functions).inner :=
      (Kept.start g c.functions).congr rfl rfl
    have hs₁ : Complete g s₁ := hdiscover.completes hw (.inner g _)
    have hblind : Blind g collection s₁ :=
      hdiscover.blinds hk (.inner g _ _) fun x ⟨j, hj, hmet, hpart⟩ => hjoins j x hj hmet hpart
    have hblind' : Blind g collection s₂ := hvisit.blinds (hdiscover.keeps hk) hblind fun x hx => by
      cases hx with
      | self hn' hno =>
        obtain rfl := Option.some.inj (hn.symm.trans hn')
        exact absurd hi (hno input)
      | under hn' hinput hx =>
        obtain rfl := Option.some.inj (hn.symm.trans hn')
        rw [hi, List.mem_singleton] at hinput
        obtain rfl := hinput
        exact hunder x hx
    have hv := hvisit.operand_compiled hw hnew hn hi ho hslot hs₁
    obtain ⟨e, he⟩ := Option.isSome_iff_exists.1 ((hvisit.completes hw hs₁).1.cited hv hcites)
    exact absurd hcol (hblind'.column he t source)

/-- Joined tables, filtered by a column of a third table. -/
def thirdTable : List Call :=
  [.source "" "a" [⟨"id", .int64⟩], .source "" "b" [⟨"x", .int64⟩], .join 0 1 none .inner,
    .source "" "c" [⟨"y", .int64⟩], .column 3 "y", .isNull 4, .filter 2 5]

/-- The filter does not compile. -/
theorem compile_unrelated_thirdTable :
    Built (Call.run thirdTable) ∧ BuiltBy (fun g c => c.NamesCollection g) (Call.run thirdTable) ∧
    (∃ n t, (Call.run thirdTable).node? 6 = some n ∧ Graph.inputs n.kind = [2] ∧
      (.predicate, 5) ∈ n.kind.operands ∧ (Call.run thirdTable).Cites 5 4 ∧
      (Call.run thirdTable).IsColumn 4 3 t "y") ∧
    (∀ x, (Call.run thirdTable).isCollection x = true → (Call.run thirdTable).Reach 3 x →
      ¬ (Call.run thirdTable).Reach 2 x) ∧
    (∀ j x, (Call.run thirdTable).IsJoin j → (Call.run thirdTable).Met 6 j →
      (Call.run thirdTable).Part j x → ¬ (Call.run thirdTable).NamedBy 3 x) ∧
    ∃ e, ((Compiler.new .default).compile (Call.run thirdTable) 6).1 = .error e ∧
      ((∃ x, e = .schema (.outOfScope x)) ∨ e.Inexpressible ∨
        BadStop (Call.run thirdTable) 6 e) := by
  have hallowed : Call.AllowedFrom (fun g c => c.NamesCollection g) .empty thirdTable := by
    simp [thirdTable, Call.AllowedFrom, Call.NamesCollection]
  have hnames := BuiltBy.run hallowed
  have hw : (Call.run thirdTable).WellFormed True := hnames.wellFormed fun _ _ _ hc => hc
  have hord : (Call.run thirdTable).Ordered := hw.validate_iff_children_lt.1 hnames.valid.1
  have hn : (Call.run thirdTable).node? 6 = some ⟨.filter 2 5, .collection
      ⟨[⟨"id", .int64⟩, ⟨"x", .int64⟩]⟩⟩ := by decide +kernel
  have hnull : (Call.run thirdTable).node? 5 = some ⟨.element (.isNull 4),
      .sequence ⟨.boolean, .boolean, some "y", some "y"⟩⟩ := by decide +kernel
  have hcites : (Call.run thirdTable).Cites 5 4 :=
    .step hnull (List.mem_singleton_self (Slot.input, 4)) (by decide) (by decide +kernel) .refl
  have hcol : (Call.run thirdTable).IsColumn 4 3 ⟨.int64, .int64, some "y", some "y"⟩ "y" :=
    ⟨⟨⟨.column 3, .sequence ⟨.int64, .int64, some "y", some "y"⟩⟩, by decide +kernel, rfl, rfl⟩,
      rfl⟩
  have halone : ∀ x, (Call.run thirdTable).Reach 3 x → x = 3 := fun x hx =>
    hx.eq_of_children (by decide +kernel)
  have hunrelated : ∀ x, (Call.run thirdTable).isCollection x = true →
      (Call.run thirdTable).Reach 3 x → ¬ (Call.run thirdTable).Reach 2 x := by
    intro x _ hx hx'
    obtain rfl := halone x hx
    exact absurd (hord.reach hx') (by decide)
  have hsides : ∀ j < 7, 3 ≤ j →
      ((Call.run thirdTable).node? j).map (fun n => (Graph.inputs n.kind).length) ≠ some 2 := by
    decide +kernel
  have hjoins : ∀ j x, (Call.run thirdTable).IsJoin j → (Call.run thirdTable).Met 6 j →
      (Call.run thirdTable).Part j x → ¬ (Call.run thirdTable).NamedBy 3 x := by
    rintro j x ⟨left, right, predicate, how, fields, shape, hj⟩ hmet hpart hnamed
    obtain rfl := halone x hnamed.under.reach
    have hlt : j < 7 := Nat.lt_succ_of_le (hord.reach hmet.reach)
    have hle : 3 ≤ j := hord.reach hpart.under.reach
    exact hsides j hlt hle (by rw [hj]; rfl)
  have hoperand : (Slot.predicate, 5) ∈ (Kind.filter 2 5).operands := by decide
  obtain ⟨e, he, hkind⟩ := compile_unrelated hnames.built hn rfl hoperand rfl hcites hcol
    hunrelated hjoins (.new .default)
  exact ⟨hnames.built, hnames, ⟨_, _, hn, rfl, hoperand, hcites, hcol⟩, hunrelated, hjoins, e, he,
    hkind hnames⟩

/-- A count of the rows of one table, shown for those of another one. -/
def otherRows : List Call :=
  [.source "" "a" [⟨"id", .int64⟩], .source "" "b" [⟨"id", .int64⟩], .reduce .count 1 0,
    .summary 0 [2]]

/-- A count names no column, so it is taken of the rows at hand, and a column of a join is named
wherever the join is met. -/
theorem compile_otherRows :
    (∃ s c', (Compiler.new .default).compile (Call.run otherRows) 3 = (.ok s, c') ∧
      s.text Options.default.layout = "SELECT COUNT(1) AS `count`\nFROM `a` t1") ∧
    ∃ s c', (Compiler.new .default).compile (Call.run otherJoin) 5 = (.ok s, c') ∧
      s.text Options.default.layout = "SELECT t1.`x`\nFROM `a` t3" :=
  ⟨exists_of_compile (by decide +kernel), exists_of_compile (by decide +kernel)⟩

end Compile

end PlanSql

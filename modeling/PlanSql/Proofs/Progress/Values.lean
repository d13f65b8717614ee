import PlanSql.Proofs.Compile.Covered
import PlanSql.Proofs.Values.Answers

/-!
# Well-scoped plans compile

A plan is well-scoped if every operator computes its values from its own inputs and every subquery
from the collection it is read from. While such a plan is compiled, the fragments that an operator
asks for are there, the columns it reads can be named, the clauses it fills are free, and the depth
is never used up. So the compilation ends with a statement, or with something that cannot be
expressed, or at a slice whose stop is negative or missing. A plan that is not well-scoped may end
with a column that cannot be named as well, but in no other way.
-/

namespace PlanSql

variable {g : Graph} {v : NodeId}

/-- Outside of subqueries, a value refers only to the collections `own`. -/
inductive Graph.ReadsFrom (g : Graph) (own : NodeId → Prop) : NodeId → Prop
  | value {v : NodeId} {n : Node} : g.node? v = some n →
    (∀ slot x, (slot, x) ∈ n.kind.operands → slot ≠ .subquery → g.isCollection x = true → own x) →
    (∀ slot x, (slot, x) ∈ n.kind.operands → slot ≠ .subquery → g.isCollection x = false →
      ReadsFrom g own x) → ReadsFrom g own v

/-- The values of an operator are computed from its inputs, and the sequence of a subquery from the
collection it is read from. -/
structure Graph.Scoped (g : Graph) (n : Node) : Prop where
  values : n.isCollection = true → ∀ slot x, (slot, x) ∈ n.kind.operands →
    g.isCollection x = false → g.ReadsFrom (· ∈ Graph.inputs n.kind) x
  subquery : ∀ sequence collection, n.kind.subquery? = some sequence →
    g.owningCollection sequence = .ok collection → g.ReadsFrom (· = collection) sequence

/-- Everything that a root is made of is scoped. -/
def Graph.WellScoped (g : Graph) (root : NodeId) : Prop :=
  ∀ id n, g.Reach root id → g.node? id = some n → g.Scoped n

theorem Graph.ReadsFrom.mono {own own' : NodeId → Prop} (h : g.ReadsFrom own v)
    (hsub : ∀ c, own c → own' c) : g.ReadsFrom own' v := by
  induction h with
  | value hn hown _ ih =>
    exact .value hn (fun slot x hx hslot hc => hsub x (hown slot x hx hslot hc)) ih

/-- Whether a value refers only to the collections `own`, for values at most `depth` operands
deep. -/
def Graph.readsFrom (g : Graph) (own : NodeId → Bool) : Nat → NodeId → Bool
  | 0, _ => false
  | depth + 1, v =>
    match g.node? v with
    | none => false
    | some n => n.kind.operands.all fun (slot, x) =>
      slot == .subquery || if g.isCollection x then own x else g.readsFrom own depth x

theorem Graph.readsFrom_sound {own : NodeId → Bool} {depth : Nat}
    (h : g.readsFrom own depth v = true) : g.ReadsFrom (own · = true) v := by
  induction depth generalizing v with
  | zero => cases h
  | succ depth ih =>
    rw [Graph.readsFrom] at h
    split at h
    · cases h
    · next n hn =>
      have hall := fun slot x (hx : (slot, x) ∈ n.kind.operands) =>
        List.all_eq_true.1 h (slot, x) hx
      refine .value hn (fun slot x hx hslot hc => ?_) fun slot x hx hslot hc => ih ?_
      · simpa [hslot, hc] using hall slot x hx
      · simpa [hslot, hc] using hall slot x hx

/-- Whether the values of an operator are computed from its inputs, and the sequence of a subquery
from the collection it is read from. -/
def Graph.scoped (g : Graph) (n : Node) : Bool :=
  (!n.isCollection || n.kind.operands.all fun (_, x) =>
    g.isCollection x || g.readsFrom (· ∈ Graph.inputs n.kind) g.size x) &&
  match n.kind.subquery? with
  | none => true
  | some sequence =>
    match g.owningCollection sequence with
    | .error _ => true
    | .ok collection => g.readsFrom (· == collection) g.size sequence

theorem Graph.wellScoped_of_scoped (h : g.nodes.all g.scoped = true) (root : NodeId) :
    g.WellScoped root := by
  intro id n _ hn
  obtain ⟨hlt, rfl⟩ := Array.getElem?_eq_some_iff.1 hn
  have hnode := Array.all_eq_true.1 h id hlt
  rw [Graph.scoped, Bool.and_eq_true] at hnode
  refine ⟨fun hc slot x hx hvalue => ?_, fun sequence collection hq howner => ?_⟩
  · have hoperands := hnode.1
    rw [hc, Bool.not_true, Bool.false_or, List.all_eq_true] at hoperands
    have hreads := hoperands (slot, x) hx
    simp only [hvalue, Bool.false_or] at hreads
    exact (readsFrom_sound hreads).mono fun c h => by simpa using h
  · have hreads := hnode.2
    simp only [hq, howner] at hreads
    exact (readsFrom_sound hreads).mono fun c h => by simpa using h

theorem Graph.ReadsFrom.node {own : NodeId → Prop} {n : Node} (h : g.ReadsFrom own v)
    (hn : g.node? v = some n) :
    ∀ slot x, (slot, x) ∈ n.kind.operands → slot ≠ .subquery →
      (g.isCollection x = true → own x) ∧ (g.isCollection x = false → g.ReadsFrom own x) := by
  cases h with
  | value hm hown hreads =>
    cases hn.symm.trans hm
    exact fun slot x hx hslot => ⟨hown slot x hx hslot, hreads slot x hx hslot⟩

/-- Every value refers only to the collections `own`, if all collections are. -/
theorem Graph.readsFrom_all (hw : g.WellFormed True) {own : NodeId → Prop} (hown : ∀ c, own c)
    (hv : g.IsValue v) : g.ReadsFrom own v := by
  induction v using Nat.strongRecOn with
  | ind v ih =>
    obtain ⟨n, t, hn, ht⟩ := Compile.isValue_iff.1 hv
    refine .value hn (fun _ x _ _ _ => hown x) fun slot x hx _ hc => ?_
    have hchild := hw.child hn hx
    refine ih x hchild.before (hchild.known.resolve_right fun hr => ?_)
    rw [isCollection_iff.2 hr] at hc
    cases hc

/-- The collections of which a plan is known to read nothing but `own`, if it is well-scoped. -/
def Graph.IfScoped (g : Graph) (root : NodeId) (own : NodeId → Prop) (c : NodeId) : Prop :=
  g.WellScoped root → own c

theorem Graph.readsFrom_ifScoped (hw : g.WellFormed True) {root : NodeId} {own : NodeId → Prop}
    (hv : g.IsValue v) (h : g.WellScoped root → g.ReadsFrom own v) :
    g.ReadsFrom (g.IfScoped root own) v := by
  by_cases hscoped : g.WellScoped root
  · exact (h hscoped).mono fun c hc _ => hc
  · exact readsFrom_all hw (fun c hs => absurd hs hscoped) hv

namespace Compile

open PlanSql.Sql

variable {g : Graph} {s s' : State} {bound : Nat} {s'' : State}

/-- What holds at any time: a visited value has a fragment, and what a join makes visible covers
it. -/
structure Sound (g : Graph) (s : State) : Prop where
  visited : ∀ v ∈ s.visited, g.isCollection v = false → s.context.hasFragment v = true
  joins : ∀ id ahead, s.joins.lookup id = some ahead → Covered g ahead.visible id

/-- Only values before `bound` were compiled. -/
structure Gained (g : Graph) (bound : Nat) (s s' : State) : Prop where
  clauses : s'.clauses = s.clauses
  visible : s'.visible = s.visible
  kept : ∀ x, s.context.hasFragment x = true → s'.context.hasFragment x = true
  new : ∀ x, s'.context.hasFragment x = true → s.context.hasFragment x = true ∨ x < bound
  visited : ∀ c ∈ s'.visited, g.isCollection c = true → c ∈ s.visited

namespace Gained

variable {g : Graph} {bound bound' : Nat} {s s' s'' : State}

theorem refl (s : State) : Gained g bound s s :=
    ⟨rfl, rfl, fun _ h => h, fun _ h => .inl h, fun _ h _ => h⟩

theorem trans (h : Gained g bound s s') (h' : Gained g bound s' s'') : Gained g bound s s'' where
  clauses := h'.clauses.trans h.clauses
  visible := h'.visible.trans h.visible
  kept := fun x hx => h'.kept x (h.kept x hx)
  new := fun x hx => (h'.new x hx).elim (h.new x) .inr
  visited := fun c hc hcoll => h.visited c (h'.visited c hc hcoll) hcoll

theorem mono (h : Gained g bound s s') (hle : bound ≤ bound') : Gained g bound' s s' :=
  ⟨h.clauses, h.visible, h.kept, fun x hx => (h.new x hx).imp_right (Nat.lt_of_lt_of_le · hle),
    h.visited⟩

end Gained

/-- The level is as it was. -/
structure Same (s s' : State) : Prop where
  clauses : s'.clauses = s.clauses
  visible : s'.visible = s.visible
  visited : s'.visited = s.visited
  fragments : s'.context.fragments = s.context.fragments

theorem Same.gained (h : Same s s') :
    Gained g bound s s' where
  clauses := h.clauses
  visible := h.visible
  kept := fun x hx => by rw [Context.hasFragment, h.fragments]; exact hx
  new := fun x hx => by rw [Context.hasFragment, h.fragments] at hx; exact .inl hx
  visited := fun c hc _ => h.visited ▸ hc

theorem Same.trans (h : Same s s') (h' : Same s' s'') : Same s s'' :=
  ⟨h'.1.trans h.1, h'.2.trans h.2, h'.3.trans h.3, h'.4.trans h.4⟩

/-- Things were compiled ahead: the clauses are as they were, what could be named still can, and no
collection was visited. -/
structure Ahead (g : Graph) (s s' : State) : Prop where
  clauses : s'.clauses = s.clauses
  covered : ∀ c, Covered g s.visible c → Covered g s'.visible c
  visited : ∀ c ∈ s'.visited, g.isCollection c = true → c ∈ s.visited

theorem Ahead.refl (s : State) : Ahead g s s := ⟨rfl, fun _ h => h, fun _ h _ => h⟩

theorem Ahead.trans (h : Ahead g s s') (h' : Ahead g s' s'') :
    Ahead g s s'' :=
  ⟨h'.1.trans h.1, fun c hc => h'.2 c (h.2 c hc), fun c hc hcoll => h.3 c (h'.3 c hc hcoll) hcoll⟩

theorem Gained.ahead (h : Gained g bound s s') :
    Ahead g s s' := ⟨h.clauses, fun _ hc => h.visible ▸ hc, h.visited⟩

theorem Same.ahead (h : Same s s') : Ahead g s s' :=
  ⟨h.clauses, fun _ hc => h.visible ▸ hc, fun _ hc _ => h.visited ▸ hc⟩

/-- The clauses of a level over something: a condition on groups stands only beside groups. -/
structure Open (c : Clauses Expr Source) : Prop where
  source : c.source.isSome
  having : c.having.isSome → c.groupBy.isSome

/-- What may be compiled as a level: a collection, or a value over the collection it is read
from. -/
def IsLevel (g : Graph) (root id : NodeId) : Prop :=
  g.isCollection id = true ∨ g.IsValue id ∧ ∃ collection,
    g.owningCollection id = .ok collection ∧
      (g.WellScoped root → g.ReadsFrom (· = collection) id)

/-- A slice below `root` has a stop that is negative or missing, and the error says so. -/
def BadStop (g : Graph) (root : NodeId) (e : Error) : Prop :=
  ∃ id input start stop step shape, g.Reach root id ∧
    g.node? id = some ⟨.slice input start stop step, shape⟩ ∧
    ((∃ n, stop = some n ∧ n < 0 ∧ e = .inconsistent (.negativeStop n.toInt)) ∨
      stop = none ∧ e = .inconsistent .noStop)

/-- The plan below `root` is not well-scoped, and the error is that a column cannot be named. -/
def OutOfScope (g : Graph) (root : NodeId) (e : Error) : Prop :=
  ¬ g.WellScoped root ∧ ∃ id, e = .schema (.outOfScope id)

/-- The action ends as described, or with something that cannot be expressed, or at a bad stop, or
with a column that cannot be named. -/
def Ends {α : Type} (env : Env) (root : NodeId) (m : Compile α) (s : State)
    (post : α → State → Prop) : Prop :=
  Meets m s post fun e _ =>
    e.Inexpressible ∨ BadStop env.graph root e ∨ OutOfScope env.graph root e

/-- The columns of `own` can be named, if the plan below `root` is well-scoped. -/
def Covers (g : Graph) (root : NodeId) (own : NodeId → Prop) (visible : Visible) : Prop :=
  ∀ c, own c → g.WellScoped root → Covered g visible c

/-- Everything below `root` for which the depth is enough can be compiled. -/
structure Works (env : Env) (root : NodeId) (depth : Nat) : Prop where
  value : ∀ v own s, 3 * v + 2 ≤ depth → env.graph.Reach root v → env.graph.IsValue v →
    env.graph.ReadsFrom own v → Covers env.graph root own s.visible →
    Sound env.graph s → Ends env root ((Steps.upTo env depth).visit v) s fun _ s' =>
      Sound env.graph s' ∧ Gained env.graph (v + 1) s s' ∧ s'.context.hasFragment v = true
  collection : ∀ c s, 3 * c + 2 ≤ depth → env.graph.Reach root c → env.graph.isCollection c = true →
    Sound env.graph s → s.clauses = .empty → (∀ x ∈ s.visited, env.graph.isCollection x = false) →
    Ends env root ((Steps.upTo env depth).visit c) s fun _ s' =>
      Sound env.graph s' ∧ Open s'.clauses
  level : ∀ id s, 3 * id + 3 ≤ depth → env.graph.Reach root id → IsLevel env.graph root id →
    Sound env.graph s → Ends env root ((Steps.upTo env depth).level id) s fun _ s' =>
      Sound env.graph s' ∧ Same s s'
  join : ∀ id left right predicate how fields shape s, 3 * id + 1 ≤ depth →
    env.graph.Reach root id →
    env.graph.node? id = some ⟨.join left right predicate how fields, shape⟩ →
    Sound env.graph s → Ends env root ((Steps.upTo env depth).join id left right predicate how) s
      fun ahead s' => Sound env.graph s' ∧ Ahead env.graph s s' ∧ Covered env.graph ahead.visible id

section

variable {env : Env} {root : NodeId} {depth : Nat} {bound : Nat} {own : NodeId → Prop} {s : State}
variable {x : NodeId}

/-! ## Values -/

/-- A value before `bound` that can be visited. -/
structure Ready (env : Env) (root : NodeId) (depth bound : Nat) (own : NodeId → Prop)
    (x : NodeId) : Prop where
  deep : 3 * x + 2 ≤ depth
  before : x < bound
  reach : env.graph.Reach root x
  value : env.graph.IsValue x
  reads : env.graph.ReadsFrom own x

theorem fragment_ends {post : Expr → State → Prop} (h : s.context.hasFragment x = true)
    (hp : ∀ e, post e s) : Ends env root (fragment x) s post := by
  refine Meets.fragment (fun e _ => hp e) fun e he => ?_
  obtain ⟨x', hx⟩ := Option.isSome_iff_exists.1 h
  simp [Context.fragment, hx] at he

theorem check_ends {α : Type} {r : Except Error α} {post : α → State → Prop} (h : Answers r)
    (hp : ∀ a, r = .ok a → post a s) : Ends env root (check r) s post :=
  Meets.check hp fun e he => .inl (h e he)

/-- What is there is found. -/
theorem found_ends {α : Type} {r : Except Error α} {a : α} {post : α → State → Prop} (h : r = .ok a)
    (hp : post a s) : Ends env root (check r) s post :=
  check_ends (.of_ok ⟨a, h⟩) fun _ hb => Except.ok.inj (h.symm.trans hb) ▸ hp

variable (ih : Works env root depth) (hcov : Covers env.graph root own s.visible)
  (hs : Sound env.graph s)

include ih hcov hs

theorem Ready.visit_ends (hx : Ready env root depth bound own x) :
    Ends env root ((Steps.upTo env depth).visit x) s fun _ s' =>
      Sound env.graph s' ∧ Gained env.graph bound s s' ∧ s'.context.hasFragment x = true :=
  (ih.value x own s hx.deep hx.reach hx.value hx.reads hcov hs).imp fun _ _ h =>
    ⟨h.1, h.2.1.mono hx.before, h.2.2⟩

/-- Visiting the operands of a value gives all of them fragments. -/
theorem operands_ends {os : List Operand}
    (hos : ∀ slot x, (slot, x) ∈ os → slot ≠ .subquery → env.graph.isCollection x = false →
      Ready env root depth bound own x) :
    Ends env root ((Steps.upTo env depth).operands env os) s fun _ s' =>
      Sound env.graph s' ∧ Gained env.graph bound s s' ∧
        ∀ slot x, (slot, x) ∈ os → slot ≠ .subquery → env.graph.isCollection x = false →
          s'.context.hasFragment x = true := by
  induction os generalizing s with
  | nil => exact .pure ⟨hs, .refl s, by simp⟩
  | cons o rest iho =>
    obtain ⟨slot, x⟩ := o
    have hrest : ∀ s₁, Sound env.graph s₁ → Gained env.graph bound s s₁ →
        (slot ≠ .subquery → env.graph.isCollection x = false → s₁.context.hasFragment x = true) →
        Ends env root ((Steps.upTo env depth).operands env rest) s₁ fun _ s' =>
          Sound env.graph s' ∧ Gained env.graph bound s s' ∧
            ∀ slot' y, (slot', y) ∈ (slot, x) :: rest → slot' ≠ .subquery →
              env.graph.isCollection y = false → s'.context.hasFragment y = true := by
      intro s₁ hs₁ hgain hx
      refine (iho (hgain.visible ▸ hcov) hs₁ fun slot' y hy =>
        hos slot' y (.tail _ hy)).imp fun _ s' ⟨hs', hgain', hall⟩ =>
          ⟨hs', hgain.trans hgain', ?_⟩
      intro slot' y hy hslot hvalue
      rcases List.mem_cons.1 hy with heq | hy
      · cases heq
        exact hgain'.kept _ (hx hslot hvalue)
      · exact hall slot' y hy hslot hvalue
    rw [Steps.operands]
    split
    · next hv =>
      have hx := hos slot x List.mem_cons_self hv.1 (by simpa using hv.2)
      exact .bind ((hx.visit_ends ih hcov hs).imp fun _ s₁ ⟨hs₁, hgain, hfrag⟩ =>
        hrest s₁ hs₁ hgain fun _ _ => hfrag)
    · next hv => exact hrest s hs (.refl s) fun hslot hvalue => absurd ⟨hslot, by simp [hvalue]⟩ hv

theorem values_ends {ids : List NodeId} (hids : ∀ x ∈ ids, Ready env root depth bound own x) :
    Ends env root ((Steps.upTo env depth).values ids) s fun _ s' =>
      Sound env.graph s' ∧ Gained env.graph bound s s' := by
  induction ids generalizing s with
  | nil => exact .pure ⟨hs, .refl s⟩
  | cons x rest iho =>
    refine .bind (((hids x (.head _)).visit_ends ih hcov hs).imp
      fun _ s₁ ⟨hs₁, hgain, hfrag⟩ => .bind (fragment_ends hfrag fun e => .bind ?_))
    refine (iho (hgain.visible ▸ hcov) hs₁ fun y hy =>
      hids y (.tail _ hy)).imp fun _ s' ⟨hs', hgain'⟩ => ?_
    exact .pure ⟨hs', hgain.trans hgain'⟩

theorem sortKeys_ends {keys : List SortKey}
    (hkeys : ∀ k ∈ keys, Ready env root depth bound own k.expr) :
    Ends env root ((Steps.upTo env depth).sortKeys keys) s fun _ s' =>
      Sound env.graph s' ∧ Gained env.graph bound s s' := by
  induction keys generalizing s with
  | nil => exact .pure ⟨hs, .refl s⟩
  | cons key rest iho =>
    refine .bind (((hkeys key (.head _)).visit_ends ih hcov hs).imp
      fun _ s₁ ⟨hs₁, hgain, hfrag⟩ => .bind (fragment_ends hfrag fun e => .bind ?_))
    refine (iho (hgain.visible ▸ hcov) hs₁ fun k hk =>
      hkeys k (.tail _ hk)).imp fun _ s' ⟨hs', hgain'⟩ => ?_
    exact .pure ⟨hs', hgain.trans hgain'⟩

end

section

variable {env : Env} {root : NodeId} {depth : Nat} {own : NodeId → Prop} {s : State}

variable (hw : env.graph.WellFormed True) {v : NodeId} {n : Node} {t : Typed} {id sequence : NodeId}

include hw

theorem column_ends {c : NodeId} (hn : env.graph.node? v = some n) (ht : n.typed? = some t)
    (hk : n.kind = .column c) (hreads : env.graph.ReadsFrom own v)
    (hcov : Covers env.graph root own s.visible) :
    ∃ name, t.sourceName = some name ∧
      ∀ e, columnRef env.graph s.visible env.depth c name = .error e →
        OutOfScope env.graph root e := by
  have hfits := (hw.valueFits hn ht).mono (Graph.before_extends env.graph v)
  rw [hk] at hfits
  obtain ⟨schema, name, field, hschema, hname, hfield, _⟩ := hfits
  have hmem : (.collection, c) ∈ n.kind.operands := by simp [hk, Kind.operands]
  have hcollection := Graph.isCollection_iff.2 ⟨schema, hschema⟩
  have hown := (hreads.node hn _ _ hmem (by decide)).1 hcollection
  have hlt : c < env.graph.size :=
    Nat.lt_trans (hw.child hn hmem).before (Graph.lt_size_of_node? hn)
  have hfound : (schema.find? name).isSome := by simp [hfield]
  refine ⟨name, hname, fun e he => ⟨fun hscoped => ?_, ?_⟩⟩
  · obtain ⟨r, hr⟩ := (hcov c hown hscoped).columnRef_ok hw hschema hfound (Nat.lt_succ_of_lt hlt)
    cases hr.symm.trans he
  · exact columnRef_eq_error hw hschema hfound (Nat.lt_succ_of_lt hlt) he

theorem isLevel_of_subquery {id sequence : NodeId} {n : Node} (hreach : env.graph.Reach root id)
    (hn : env.graph.node? id = some n) (hq : n.kind.subquery? = some sequence) :
    sequence < id ∧ env.graph.Reach root sequence ∧ IsLevel env.graph root sequence := by
  have hmember : ∃ input, n.kind = .element (.isIn input (.subquery sequence)) ∨
      n.kind = .element (.notIn input (.subquery sequence)) := by
    unfold Kind.subquery? at hq
    split at hq
    · next input x hk => obtain rfl := Option.some.inj hq; exact ⟨input, .inl hk⟩
    · next input x hk => obtain rfl := Option.some.inj hq; exact ⟨input, .inr hk⟩
    · cases hq
  have hmem : (.subquery, sequence) ∈ n.kind.operands := by
    obtain ⟨input, hk | hk⟩ := hmember <;>
      simp [hk, Kind.operands, ElementOp.operands, Membership.operands]
  have hchild := hw.child hn hmem
  refine ⟨hchild.before, hreach.operand hn hmem, ?_⟩
  -- Only values have subqueries, and the builder has looked up what the sequence reads.
  have hfits : (env.graph.before id).IsValue sequence ∧
      ∃ c, (env.graph.before id).owningCollection sequence = .ok c := by
    have hnode := hw id n hn
    obtain ⟨kind, shape⟩ := n
    have helement : ∀ t input, (env.graph.before id).ElementFits t
        (.isIn input (.subquery sequence)) → (env.graph.before id).IsValue sequence ∧
          ∃ c, (env.graph.before id).owningCollection sequence = .ok c := by
      rintro t input ⟨_, _, _, hcomparable, howner⟩
      exact ⟨Graph.isValue_of_expectComparable hcomparable _ (.head _), howner⟩
    obtain ⟨input, hk | hk⟩ := hmember
    all_goals
      obtain rfl : kind = _ := hk
      cases shape with
      | collection schema => exact hnode.elim
      | sequence t | scalar t => exact helement t.dtype input hnode
  have hext := Graph.before_extends env.graph id
  obtain ⟨hvalue, c, hc⟩ := hfits
  have howner := Graph.Keeps.owningCollection sequence hext c hc
  exact .inr ⟨hext.isValue hvalue, c, howner, fun hscoped =>
    (hscoped id n hreach hn).subquery sequence c hq howner⟩

variable (ih : Works env root depth)

include ih

theorem subqueryAhead_ends (hd : 3 * id ≤ depth) (hreach : env.graph.Reach root id)
    (hn : env.graph.node? id = some n) (hq : n.kind.subquery? = some sequence)
    (hs : Sound env.graph s) :
    Ends env root (subqueryAhead (Steps.upTo env depth) id sequence) s fun _ s' =>
      Sound env.graph s' ∧ Same s s' := by
  obtain ⟨hlt, hreach', hlevel⟩ := isLevel_of_subquery hw hreach hn hq
  refine .bind (.get ?_)
  split
  · exact .pure ⟨hs, rfl, rfl, rfl, rfl⟩
  · have hdeep : 3 * sequence + 3 ≤ depth := Nat.le_trans (Nat.mul_le_mul_left 3 hlt) hd
    refine .bind ((ih.level sequence s hdeep hreach' hlevel hs).imp fun _ s' ⟨hs', hsame⟩ => ?_)
    exact .bind (.modify (.pure ⟨⟨hs'.1, hs'.2⟩, hsame.1, hsame.2, hsame.3, hsame.4⟩))

omit ih in
/-- The operands of a value that is visited can be visited. -/
theorem ready_of_operand {x : NodeId} {slot : Slot} (hd : 3 * v ≤ depth)
    (hreach : env.graph.Reach root v) (hn : env.graph.node? v = some n)
    (hreads : env.graph.ReadsFrom own v) (hx : (slot, x) ∈ n.kind.operands)
    (hslot : slot ≠ .subquery) (hvalue : env.graph.isCollection x = false) :
    Ready env root depth v own x where
  deep :=
    have hlt : 3 * x + 3 ≤ 3 * v := Nat.mul_le_mul_left 3 (hw.child hn hx).before
    Nat.le_of_succ_le (Nat.le_trans hlt hd)
  before := (hw.child hn hx).before
  reach := hreach.operand hn hx
  value := by
    rcases (hw.child hn hx).known with hv | hr
    · exact hv
    · simp [Graph.isCollection_iff.2 hr] at hvalue
  reads := (hreads.node hn slot x hx hslot).2 hvalue

theorem provide_ends (hd : 3 * v ≤ depth) (hreach : env.graph.Reach root v)
    (hn : env.graph.node? v = some n) (ht : n.typed? = some t)
    (hreads : env.graph.ReadsFrom own v) (hcov : Covers env.graph root own s.visible)
    (hf : ∀ slot x, (slot, x) ∈ n.kind.operands → slot ≠ .subquery →
      env.graph.isCollection x = false → s.context.hasFragment x = true) (hs : Sound env.graph s) :
    Ends env root (provide env (Steps.upTo env depth) v n.kind) s fun _ s' =>
      Sound env.graph s' ∧ Gained env.graph v s s' := by
  have hfits := (hw.valueFits hn ht).mono (Graph.before_extends env.graph v)
  unfold provide
  split
  · next input function hk =>
    rw [hk] at hfits
    obtain ⟨_, f, hfunction, _⟩ := hfits
    refine .bind (found_ends hfunction (.bind (.modifyGet (.pure ?_))))
    exact ⟨⟨hs.1, hs.2⟩, rfl, rfl, fun _ h => h, fun _ h => .inl h, fun _ h _ => h⟩
  · next op hk =>
    rw [hk] at hfits
    have hready : ∀ o ∈ op.operands, Ready env root depth v own o.2 ∧
        s.context.hasFragment o.2 = true := by
      intro o ho
      have hmem : (o.1, o.2) ∈ n.kind.operands := by rw [hk]; exact ho
      have hslot := WindowOp.slot_ne_subquery ho
      have hvalue := not_isCollection_of_isValue (Graph.WindowFits.operand hfits o ho)
      exact ⟨ready_of_operand hw hd hreach hn hreads hmem hslot hvalue,
        hf o.1 o.2 hmem hslot hvalue⟩
    have hfragment : ∀ o ∈ op.operands, ∃ e, (s.parts env).fragment o.2 = .ok e := by
      intro o ho
      obtain ⟨e, he⟩ := Option.isSome_iff_exists.1 (hready o ho).2
      exact ⟨e, by simp [State.parts, Context.fragment, he]⟩
    refine .bind (.get (.bind (check_ends (windowFunc_answers hfits hfragment) fun _ _ => ?_)))
    refine .bind (check_ends (.of_ok (partition_ok hfragment)) fun _ _ => .bind ?_)
    refine (sortKeys_ends ih hcov hs fun k hk => ?_).imp fun _ s' h => .pure h
    exact (hready _ (WindowOp.mem_operands_of_orderBy hk)).1
  · split
    · next sequence hq =>
      refine .bind ((subqueryAhead_ends hw ih hd hreach hn hq hs).imp
        fun _ s' ⟨hs', hsame⟩ => .pure ⟨hs', hsame.gained⟩)
    · exact .pure ⟨hs, .refl s⟩

/-- A value over what its level shows compiles, and has a fragment at the end. -/
theorem compileExpr_ends (hd : 3 * v ≤ depth) (hreach : env.graph.Reach root v)
    (hn : env.graph.node? v = some n) (ht : n.typed? = some t)
    (hreads : env.graph.ReadsFrom own v) (hcov : Covers env.graph root own s.visible)
    (hnone : s.context.hasFragment v = false) (hs : Sound env.graph s) :
    Ends env root (compileExpr env (Steps.upTo env depth) v n.kind) s fun _ s' =>
      Sound env.graph s' ∧ Gained env.graph (v + 1) s s' ∧ s'.context.hasFragment v = true := by
  have hfits := (hw.valueFits hn ht).mono (Graph.before_extends env.graph v)
  -- Once the operands have fragments, the rest goes through.
  have hrest : ∀ s₁, Sound env.graph s₁ → Gained env.graph v s s₁ →
      (∀ slot x, (slot, x) ∈ n.kind.operands → slot ≠ .subquery →
        env.graph.isCollection x = false → s₁.context.hasFragment x = true) →
      Ends env root (do
        provide env (Steps.upTo env depth) v n.kind
        let p := (← get).parts env
        emit v (← check (valueExpr env.graph p v n.kind))) s₁ fun _ s' =>
          Sound env.graph s' ∧ Gained env.graph (v + 1) s s' ∧ s'.context.hasFragment v = true := by
    intro s₁ hs₁ hgain₁ hf₁
    have hcov₁ : Covers env.graph root own s₁.visible := hgain₁.visible ▸ hcov
    refine .bind ((provide_ends hw ih hd hreach hn ht hreads hcov₁ hf₁ hs₁).imp
      fun _ s₂ h₂ => .bind (.get ?_))
    obtain ⟨hs₂, hgain₂⟩ := h₂
    have hgain := hgain₁.trans hgain₂
    have hexpr : ∀ e, valueExpr env.graph (s₂.parts env) v n.kind = .error e →
        e.Inexpressible ∨ BadStop env.graph root e ∨ OutOfScope env.graph root e := by
      intro e he
      by_cases hk : ∃ c, n.kind = .column c
      · obtain ⟨c, hk⟩ := hk
        obtain ⟨name, hname, hcolumn⟩ :=
          column_ends (s := s₂) hw hn ht hk hreads (hgain.visible ▸ hcov)
        rw [hk, valueExpr, columnExpr, Graph.node_eq_ok_iff.2 hn] at he
        dsimp only [bind, Except.bind] at he
        rw [ht] at he
        dsimp only at he
        rw [hname] at he
        dsimp only at he
        split at he
        · next err herr =>
          cases he
          exact .inr (.inr (hcolumn _ herr))
        · cases he
      · refine .inl (valueExpr_answers hw hn ht hfits (fun slot x hx hslot hvalue => ?_)
          (fun c _ _ _ hc => absurd ⟨c, hc⟩ hk) e he)
        have hfrag := hgain₂.kept x (hf₁ slot x hx hslot (not_isCollection_of_isValue hvalue))
        obtain ⟨e, he⟩ := Option.isSome_iff_exists.1 hfrag
        exact ⟨e, by simp [State.parts, Context.fragment, he]⟩
    -- No fragment of this value was stored meanwhile, so none can be in the way.
    have hfree : s₂.context.fragments.lookup v = none := by
      cases hlookup : s₂.context.fragments.lookup v with
      | none => rfl
      | some e =>
        rcases hgain.new v (by simp [Context.hasFragment, hlookup]) with h | h
        · simp [h] at hnone
        · exact absurd h (Nat.lt_irrefl v)
    refine .bind (Meets.check (fun e _ => Meets.emit (fun c hc => ?_) fun err herr => ?_) hexpr)
    · rcases Context.addFragment_eq_ok hc with ⟨_, rfl⟩ | ⟨hsome, _⟩
      · have hhas : ∀ x, ({ s₂.context with fragments := (v, e) :: s₂.context.fragments } :
            Context Expr).hasFragment x = (x == v || s₂.context.hasFragment x) := by
          intro x
          by_cases hx : x = v
          · simp [Context.hasFragment, hx]
          · have hne : (x == v) = false := beq_false_of_ne hx
            simp [Context.hasFragment, List.lookup_cons, hne]
        refine ⟨⟨fun y hy hc => ?_, hs₂.joins⟩, ⟨hgain.clauses, hgain.visible, fun x hx => ?_,
          fun x hx => ?_, hgain.visited⟩, ?_⟩
        · rw [hhas, hs₂.visited y hy hc, Bool.or_true]
        · rw [hhas, hgain.kept x hx, Bool.or_true]
        · rw [hhas, Bool.or_eq_true] at hx
          rcases hx with hx | hx
          · exact .inr (by simp [eq_of_beq hx])
          · exact (hgain.new x hx).imp_right Nat.lt_succ_of_lt
        · rw [hhas, beq_self_eq_true, Bool.true_or]
      · simp [hfree] at hsome
    · simp [Context.addFragment, hfree] at herr
  unfold compileExpr
  split
  · next c hk =>
    refine hrest s hs (.refl s) fun slot x hx hslot hvalue => ?_
    rw [hk] at hfits hx
    obtain ⟨schema, _, _, hschema, _⟩ := hfits
    obtain ⟨-, rfl⟩ := Prod.mk.inj (List.mem_singleton.1 hx)
    simp [Graph.isCollection_iff.2 ⟨schema, hschema⟩] at hvalue
  · refine .bind ((operands_ends ih hcov hs fun slot x hx hslot hvalue => ?_).imp
      fun _ s₁ h₁ => hrest s₁ h₁.1 h₁.2.1 h₁.2.2)
    exact ready_of_operand hw hd hreach hn hreads hx hslot hvalue

theorem visit_value_ends (hd : 3 * v + 2 ≤ depth + 1) (hreach : env.graph.Reach root v)
    (hvalue : env.graph.IsValue v) (hreads : env.graph.ReadsFrom own v)
    (hcov : Covers env.graph root own s.visible) (hs : Sound env.graph s) :
    Ends env root ((Steps.upTo env (depth + 1)).visit v) s fun _ s' =>
      Sound env.graph s' ∧ Gained env.graph (v + 1) s s' ∧ s'.context.hasFragment v = true := by
  have hcollection := not_isCollection_of_isValue hvalue
  refine .bind (.get ?_)
  split
  · next hvisited => exact .pure ⟨hs, .refl s, hs.visited v hvisited hcollection⟩
  · have hmark : ∀ s', Sound env.graph s' → Gained env.graph (v + 1) s s' →
        s'.context.hasFragment v = true → Ends env root (markVisited v) s' fun _ s'' =>
          Sound env.graph s'' ∧ Gained env.graph (v + 1) s s'' ∧
            s''.context.hasFragment v = true := by
      intro s' hs' hgain hfrag
      refine .modify ⟨⟨fun x hx hc => ?_, hs'.joins⟩, ⟨hgain.clauses, hgain.visible, hgain.kept,
        hgain.new, fun c hc hcoll => ?_⟩, hfrag⟩
      · rcases List.mem_cons.1 hx with rfl | hx
        · exact hfrag
        · exact hs'.visited x hx hc
      · rcases List.mem_cons.1 hc with rfl | hc
        · simp [hcollection] at hcoll
        · exact hgain.visited c hc hcoll
    split
    · next hcompile =>
      obtain ⟨n, t, hn, ht⟩ := isValue_iff.1 hvalue
      have hnone : s.context.hasFragment v = false := by simpa [hcollection] using hcompile
      refine .bind (found_ends (Graph.node_eq_ok_iff.2 hn) ?_)
      have hfits := hw.valueFits hn ht
      have hkind : compileKind env (Steps.upTo env depth) v n.kind =
          compileExpr env (Steps.upTo env depth) v n.kind := by
        cases hk : n.kind <;> first | rfl | (rw [hk] at hfits; exact hfits.elim)
      rw [hkind]
      have hd' : 3 * v ≤ depth := Nat.le_of_succ_le (Nat.le_of_succ_le_succ hd)
      exact .bind ((compileExpr_ends hw ih hd' hreach hn ht hreads hcov hnone hs).imp
        fun _ s' ⟨hs', hgain, hfrag⟩ => hmark s' hs' hgain hfrag)
    · next hcompile =>
      exact hmark s hs (.refl s) (by simpa [hcollection] using hcompile)

end

end Compile

end PlanSql

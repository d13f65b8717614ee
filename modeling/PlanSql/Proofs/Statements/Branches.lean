import PlanSql.Proofs.Compile.Visible

/-!
# Order and limit of the parts of a union

The text of a union is the texts of two levels with `UNION ALL` between them, without parentheses,
so an order or a limit of the second level would be read as that of the whole union. Which clauses
the last level of a collection has depends on the operators that it is computed by: each fills
clauses of the level of its input, unless one of its blockers is filled or its input lists values,
and then the level is wrapped first. The parts of a union have an order or a limit exactly if these
operators leave one on the last level.
-/

namespace PlanSql

open PlanSql.Sql

variable {clause : Clause} {sortLimit : Nat} {q : Query} {input : NodeId}

/-- The levels that a table expression puts one after the other. -/
def Sql.Source.unions : Source → List (LevelId × LevelId)
  | .table .. | .derived .. => []
  | .union left right _ => [(left, right)]
  | .join left _ right _ => left.unions ++ right.unions

/-- Whether a slot has been filled. -/
def Sql.Clauses.has {ε φ : Type} (c : Clauses ε φ) : Clause → Bool
  | .select => c.select.isSome
  | .filter => c.filter.isSome
  | .groupBy => c.groupBy.isSome
  | .orderBy => c.orderBy.isSome
  | .limit => c.limit.isSome

/-- The slots that must be free when a slot is filled. -/
def Sql.Clause.blockers : Clause → List Clause
  | .select => [.select, .limit]
  | .filter => [.filter, .groupBy, .select, .limit]
  | .groupBy => [.select, .groupBy, .orderBy, .limit]
  | .orderBy => [.orderBy, .limit]
  | .limit => [.limit]

/-- Whether what fills a slot names columns. -/
def Sql.Clause.reads : Clause → Bool
  | .limit => false
  | _ => true

/-- The input of an operator, the slot that decides whether the level of its input can be used, and
the slots that it fills. -/
def Kind.fills? : Kind → Option (NodeId × Clause × List Clause)
  | .project input _ | .mutate input _ _ => some (input, .select, [.select])
  | .filter input _ => some (input, .filter, [.filter])
  | .groupBy input _ _ _ => some (input, .groupBy, [.select, .groupBy])
  | .distinct input _ | .summary input _ => some (input, .groupBy, [.select])
  | .sort input _ => some (input, .orderBy, [.orderBy])
  | .slice input _ _ _ => some (input, .limit, [.limit])
  | _ => none

/-- The slots that are filled when an operator gets to fill `clause`, if `used` are those of its
input: the same, or none if the level is wrapped. A level that lists values cannot name their
columns, except where the input is `named` otherwise. -/
inductive Room (clause : Clause) (used : List Clause) (named : Prop) : List Clause → Prop
  | kept : (∀ k ∈ clause.blockers, k ∉ used) → (clause.reads = true → .select ∈ used → named) →
    Room clause used named used
  | wrapped : (∃ k ∈ clause.blockers, k ∈ used) ∨ clause.reads = true ∧ .select ∈ used →
    Room clause used named []

/-- The slots that are filled on the last level of a collection. -/
inductive Graph.Fills (g : Graph) (named : NodeId → Prop) : NodeId → List Clause → Prop
  | base {id : NodeId} {n : Node} : g.node? id = some n → n.isCollection = true →
    n.kind.fills? = none → Fills g named id []
  | step {id input : NodeId} {n : Node} {clause : Clause} {own used room : List Clause} :
    g.node? id = some n → n.kind.fills? = some (input, clause, own) → Fills g named input used →
    Room clause used (named input) room → Fills g named id (own ++ room)

def Graph.JoinPart (g : Graph) (root x : NodeId) : Prop :=
  ∃ j, g.IsJoin j ∧ g.Reach root j ∧ g.Part j x

/-- The level has an order exactly if the last level of the collection is given one, and a limit
exactly if that level is given a limit or an order. -/
def Graph.Closes (g : Graph) (top id : NodeId) (q : Query) : Prop :=
  ∃ used, g.Fills (g.JoinPart top) id used ∧ (q.orderBy.isSome = true ↔ .orderBy ∈ used) ∧
    (q.limit.isSome = true ↔ .limit ∈ used ∨ .orderBy ∈ used)

/-- The levels are those of the sides of a union. -/
def Graph.Unites (g : Graph) (top : NodeId) (levels : Array Query) (l r : LevelId) : Prop :=
  ∃ id left right schema ql qr,
    g.node? id = some ⟨.union left right false, .collection schema⟩ ∧ g.Reach top id ∧
      levels[l]? = some ql ∧ levels[r]? = some qr ∧ g.Closes top left ql ∧ g.Closes top right qr

namespace Sql

variable {ε φ : Type} {c c' : Clauses ε φ}

theorem Clauses.conflicts_iff :
    c.conflicts clause = true ↔ ∃ k ∈ clause.blockers, c.has k = true := by
  cases clause <;> simp [Clauses.conflicts, Clause.blockers, Clauses.has, or_assoc]

theorem Clauses.limit_of_close {q : Level ε φ} (h : c.close sortLimit = .ok q) :
    q.limit.isSome = true ↔ c.has .limit = true ∨ c.has .orderBy = true := by
  unfold Clauses.close at h
  split at h
  · cases h
  · cases h
    simp [Clauses.has]

end Sql

namespace Compile

section Scopes

variable {g : Graph} {visible : Visible} {id x : NodeId} {depth : Nat}

theorem not_covered_of_addressable (h : addressable g visible depth id = .ok false) :
    ¬ Covered g visible id := by
  induction depth generalizing id with
  | zero => cases h
  | succ depth ih =>
    rw [addressable] at h
    split at h
    · cases h
    · next hno =>
      obtain ⟨n, hn, h⟩ := bind_ok h
      have hn := Graph.node_eq_ok_iff.1 hn
      intro hcovered
      cases hcovered with
      | seen hseen => exact hno hseen
      | join hn' hleft hright =>
        cases hn.symm.trans hn'
        obtain ⟨b, hb, h⟩ := bind_ok h
        cases b with
        | false => exact ih hb hleft
        | true => exact ih h hright
      | through hn' hp hinput =>
        cases hn.symm.trans hn'
        split at h
        · next hk => simp [hk, Kind.passThrough?] at hp
        · rw [hp] at h
          exact ih h hinput

theorem covered_of_addressable (h : addressable g visible depth id = .ok true) :
    Covered g visible id := by
  induction depth generalizing id with
  | zero => cases h
  | succ depth ih =>
    rw [addressable] at h
    split at h
    · next hseen => exact .seen hseen
    · obtain ⟨⟨kind, shape⟩, hn, h⟩ := bind_ok h
      have hn := Graph.node_eq_ok_iff.1 hn
      dsimp only at h
      split at h
      · obtain ⟨b, hb, h⟩ := bind_ok h
        cases b with
        | false => cases h
        | true => exact .join hn (ih hb) (ih h)
      · split at h
        · next input hp => exact .through hn hp (ih h)
        · cases h

/-- A wrapped level can name the columns of what was wrapped. -/
theorem covered_of_lift {lifted : NodeId} {label : Alias} (h : lift g depth id = .ok lifted) :
    Covered g [(lifted, label)] id := by
  induction depth generalizing id with
  | zero => cases h
  | succ depth ih =>
    obtain ⟨n, hn, h⟩ := bind_ok h
    have hn := Graph.node_eq_ok_iff.1 hn
    split at h
    · next input hp => exact .through hn hp (ih h)
    · cases h
      exact .seen (by simp)

theorem Grounded.covered (h : Grounded g visible id) : Covered g visible id := by
  induction h with
  | seen hseen => exact .seen hseen
  | join hn _ _ ihl ihr => exact .join hn ihl ihr

end Scopes

section Filling

variable {g : Graph} {named : NodeId → Prop} {id input : NodeId} {used : List Clause}
variable {clause : Clause} {s s' : State} {own : List Clause} {n : Node}

theorem fills?_inputs {kind : Kind} (h : kind.fills? = some (input, clause, own)) :
    Graph.inputs kind = [input] := by
  cases kind with
  | project | mutate | filter | groupBy | distinct | summary | sort | slice =>
    obtain ⟨rfl, _⟩ := Prod.mk.inj (Option.some.inj h)
    rfl
  | _ => cases h

/-- A level that lists values but is neither ordered nor limited is that of an operator that can be
named only if it is visible itself. -/
theorem Fills.seen {visible : Visible} (h : g.Fills named id used) (hselect : .select ∈ used)
    (horder : .orderBy ∉ used) (hlimit : .limit ∉ used) (hc : Covered g visible id) :
    (∃ n input, g.node? id = some n ∧ Graph.inputs n.kind = [input]) ∧
      (visible.lookup id).isSome := by
  cases h with
  | base => cases hselect
  | @step _ input n clause own used' room hn hf _ hroom =>
    refine ⟨⟨n, input, hn, fills?_inputs hf⟩, ?_⟩
    obtain ⟨kind, shape⟩ := n
    cases hc with
    | seen hseen => exact hseen
    | join hn' =>
      cases hn.symm.trans hn'
      cases hf
    | through hn' hp =>
      -- A filter wraps a level that lists values; a sort orders and a slice limits the level.
      cases hn.symm.trans hn'
      cases kind with
      | filter =>
        obtain ⟨rfl, rfl, rfl⟩ := by simpa [Kind.fills?] using hf
        cases hroom with
        | kept hfree _ => simp_all [Clause.blockers]
        | wrapped => simp at hselect
      | sort =>
        obtain ⟨rfl, rfl, rfl⟩ := by simpa [Kind.fills?] using hf
        simp at horder
      | slice =>
        obtain ⟨rfl, rfl, rfl⟩ := by simpa [Kind.fills?] using hf
        simp at hlimit
      | _ => cases hp

/-- The filled slots of the level are those of `used`. -/
def HasAll (s : State) (used : List Clause) : Prop := ∀ k, s.clauses.has k = true ↔ k ∈ used

/-- If the level selects from something, its filled slots are those of the last level of `id`, and
it can name the columns of `id` unless it lists values. -/
def Filling (g : Graph) (named : NodeId → Prop) (id : NodeId) (s : State) : Prop :=
  s.clauses.source.isSome → ∃ used, g.Fills named id used ∧ HasAll s used ∧
    (.select ∉ used → Covered g s.visible id)

/-- If the level selects from something, an operator on `input` gets to fill `clause`. -/
def Filled (g : Graph) (named : NodeId → Prop) (input : NodeId) (clause : Clause) (s : State) :
    Prop :=
  s.clauses.source.isSome → ∃ used room, g.Fills named input used ∧
    Room clause used (named input) room ∧ HasAll s room ∧
    (.select ∉ room → Covered g s.visible input)

theorem Prepared.filled {env : Env} (hord : env.graph.Ordered)
    (h : Prepared env input clause clause.reads s s') (hs : Filling env.graph named input s)
    (hvisible : ∀ x, (s.visible.lookup x).isSome → named x ∨ env.graph.Shows input x) :
    Filled env.graph named input clause s' := by
  cases h with
  | same hfree hread =>
    intro hsource
    obtain ⟨used, hfills, hall, hcovered⟩ := hs hsource
    have hblock : ∀ k ∈ clause.blockers, k ∉ used := by
      intro k hk hused
      rw [Clauses.conflicts_iff.2 ⟨k, hk, (hall k).2 hused⟩] at hfree
      cases hfree
    refine ⟨used, used, hfills, .kept hblock fun hreads hselect => ?_, hall, hcovered⟩
    have hc := covered_of_addressable (hread hreads)
    -- Only an order may be given to a level that lists values.
    cases clause with
    | select | filter | groupBy => exact absurd hselect (hblock _ (by simp [Clause.blockers]))
    | limit => cases hreads
    | orderBy =>
      have horder := hblock .orderBy (by simp [Clause.blockers])
      have hlimit := hblock .limit (by simp [Clause.blockers])
      obtain ⟨⟨n, y, hn, hy⟩, hseen⟩ := Fills.seen hfills hselect horder hlimit hc
      rcases hvisible input hseen with hnamed | hshows
      · exact hnamed
      · exact absurd (hshows.lt hord hn hy) (Nat.lt_irrefl input)
  | wrapped hq _ hlift hcause =>
    intro _
    have hsource : s.clauses.source.isSome := by
      rw [(close_eq_ok hq).1]
      rfl
    obtain ⟨used, hfills, hall, hcovered⟩ := hs hsource
    refine ⟨used, [], hfills, .wrapped ?_, fun k => ?_, fun _ => covered_of_lift hlift⟩
    · rcases hcause with hconflict | ⟨hreads, hhidden⟩
      · obtain ⟨k, hk, hhas⟩ := Clauses.conflicts_iff.1 hconflict
        exact .inl ⟨k, hk, (hall k).1 hhas⟩
      · refine .inr ⟨hreads, ?_⟩
        by_contra hselect
        exact not_covered_of_addressable hhidden (hcovered hselect)
    · cases k <;> simp [State.wrap, Clauses.has, Clauses.empty]

theorem Filled.step (h : Filled g named input clause s) (hn : g.node? id = some n)
    (hf : n.kind.fills? = some (input, clause, own))
    (hsource : s'.clauses.source = s.clauses.source)
    (hown : ∀ k, s'.clauses.has k = true ↔ k ∈ own ∨ s.clauses.has k = true)
    (hcovered : .select ∉ own → Covered g s.visible input → Covered g s'.visible id) :
    Filling g named id s' := by
  intro hs
  rw [hsource] at hs
  obtain ⟨used, room, hfills, hroom, hall, hc⟩ := h hs
  refine ⟨own ++ room, .step hn hf hfills hroom, fun k => ?_, fun hselect => ?_⟩
  · rw [hown k, List.mem_append, hall k]
  · rw [List.mem_append, not_or] at hselect
    exact hcovered hselect.1 (hc hselect.2)

theorem Filled.congr (h : Filled g named input clause s) (hc : s'.clauses = s.clauses)
    (hv : s'.visible = s.visible) :
    Filled g named input clause s' := by
  unfold Filled HasAll
  rw [hc, hv]
  exact h

/-- A level that has nothing but a source for a collection has no slot filled. -/
theorem Filling.base (hn : g.node? id = some n) (hc : n.isCollection = true)
    (hf : n.kind.fills? = none) (hs : ∀ k, s.clauses.has k = false)
    (hcovered : Covered g s.visible id) : Filling g named id s := by
  refine fun _ => ⟨[], .base hn hc hf, fun k => ?_, fun _ => hcovered⟩
  simp [hs k]

theorem Filling.of_empty (h : s.clauses = .empty) : Filling g named id s := by
  intro hs
  rw [h] at hs
  cases hs

theorem Filling.closes {top : NodeId}
    (h : Filling g (g.JoinPart top) id s) (hq : s.clauses.close sortLimit = .ok q) :
    g.Closes top id q := by
  obtain ⟨hsource, _, _, _, _, _, horder⟩ := close_eq_ok hq
  obtain ⟨used, hfills, hall, _⟩ := h (by rw [hsource]; rfl)
  refine ⟨used, hfills, ?_, ?_⟩
  · rw [horder, ← hall .orderBy]
    rfl
  · rw [Clauses.limit_of_close hq, hall .limit, hall .orderBy]

end Filling

section Branches

variable {g : Graph} {top id : NodeId} {s s' : State} {env : Env} {s₂ : State} {job : Job}

/-- Wherever the table expression puts levels one after the other, they are those of the sides of a
union. -/
def UnitesAll (g : Graph) (top : NodeId) (levels : Array Query) (source : Source) : Prop :=
  ∀ l r, (l, r) ∈ source.unions → g.Unites top levels l r

theorem UnitesAll.grows {source : Source} (h : UnitesAll g top s.levels source)
    (hgrows : s.shared.Grows s'.shared) : UnitesAll g top s'.levels source := by
  intro l r hlr
  obtain ⟨id, left, right, schema, ql, qr, hn, hreach, hl, hr, hclose⟩ := h l r hlr
  exact ⟨id, left, right, schema, ql, qr, hn, hreach, hgrows.level hl, hgrows.level hr, hclose⟩

/-- All that is kept, all finished levels and the level itself put only the levels of unions one
after the other. -/
structure Branched (g : Graph) (top : NodeId) (s : State) : Prop where
  join : ∀ {id ahead}, s.joins.lookup id = some ahead → UnitesAll g top s.levels ahead.source
  union : ∀ {id ahead}, s.unions.lookup id = some ahead → UnitesAll g top s.levels ahead.1
  level : ∀ q ∈ s.levels, UnitesAll g top s.levels q.source
  source : ∀ source, s.clauses.source = some source → UnitesAll g top s.levels source

namespace Branched

theorem congr (h : Branched g top s) (hj : s'.joins = s.joins) (hu : s'.unions = s.unions)
    (hl : s'.levels = s.levels) (hs : s'.clauses.source = s.clauses.source) :
    Branched g top s' := by
  constructor
  · rw [hj, hl]
    exact h.join
  · rw [hu, hl]
    exact h.union
  · rw [hl]
    exact h.level
  · rw [hs, hl]
    exact h.source

theorem withSource (h : Branched g top s) (hj : s'.joins = s.joins) (hu : s'.unions = s.unions)
    (hl : s'.levels = s.levels) {source : Source} (hsource : UnitesAll g top s.levels source)
    (hs : s'.clauses.source = some source) : Branched g top s' := by
  constructor
  · rw [hj, hl]
    exact h.join
  · rw [hu, hl]
    exact h.union
  · rw [hl]
    exact h.level
  · intro other hother
    cases hs.symm.trans hother
    rw [hl]
    exact hsource

theorem start (g : Graph) (top : NodeId) (functions : FunctionNames) :
    Branched g top (.start functions) := by
  constructor
  · exact fun h => by cases h
  · exact fun h => by cases h
  · exact fun q hq => absurd hq (Array.not_mem_empty q)
  · exact fun _ h => by cases h

theorem inner (h : Branched g top s) : Branched g top s.inner :=
  ⟨h.join, h.union, h.level, fun _ hs => by cases hs⟩

theorem keepJoin {ahead : JoinAhead} (h : Branched g top s)
    (ha : UnitesAll g top s.levels ahead.source) :
    Branched g top { s with joins := (id, ahead) :: s.joins } := by
  refine ⟨fun {x other} hx => ?_, h.union, h.level, h.source⟩
  change ((id, ahead) :: s.joins).lookup x = some other at hx
  rcases lookup_cons_eq_some hx with ⟨rfl, rfl⟩ | hx
  · exact ha
  · exact h.join hx

theorem keepUnion {ahead : Source × Alias} (h : Branched g top s)
    (ha : UnitesAll g top s.levels ahead.1) :
    Branched g top { s with unions := (id, ahead) :: s.unions } := by
  refine ⟨h.join, fun {x other} hx => ?_, h.level, h.source⟩
  change ((id, ahead) :: s.unions).lookup x = some other at hx
  rcases lookup_cons_eq_some hx with ⟨rfl, rfl⟩ | hx
  · exact ha
  · exact h.union hx

theorem push (h : Branched g top s)
    (hq : s.clauses.close sortLimit = .ok q) (hj : s'.joins = s.joins) (hu : s'.unions = s.unions)
    (hl : s'.levels = s.levels.push q)
    (hs : ∀ source, s'.clauses.source = some source → UnitesAll g top s'.levels source) :
    Branched g top s' := by
  have hgrow : ∀ {source}, UnitesAll g top s.levels source → UnitesAll g top s'.levels source := by
    intro source hsource
    rw [hl]
    have hgrows : s.shared.Grows { s with levels := s.levels.push q }.shared := .push _ q
    exact hsource.grows hgrows
  constructor
  · rw [hj]
    exact fun hx => hgrow (h.join hx)
  · rw [hu]
    exact fun hx => hgrow (h.union hx)
  · intro q' hq'
    rw [hl] at hq'
    rcases Array.mem_push.1 hq' with hq' | rfl
    · exact hgrow (h.level q' hq')
    · exact hgrow (h.source _ (close_eq_ok hq).1)
  · exact hs

theorem prepared {reads : Bool} (h : Branched g top s)
    (hprep : Prepared env input clause reads s s') : Branched g top s' := by
  cases hprep with
  | same => exact h
  | wrapped hq _ _ _ =>
    refine h.push hq rfl rfl rfl fun source hsource => ?_
    cases hsource
    exact fun l r hlr => absurd hlr List.not_mem_nil

end Branched

theorem JoinAhead.unions_asSide (ahead : JoinAhead) :
    ahead.asSide.unions = ahead.source.unions := by
  obtain ⟨source, on, visible⟩ := ahead
  cases source <;> rfl

theorem fills?_of_selection {kind : Kind} {sel : Selection} (h : Selection.of? kind = some sel) :
    sel.clause.reads = true ∧ kind.fills? = some (sel.input, sel.clause, [.select]) := by
  cases kind with
  | project | mutate | distinct | summary =>
    cases h
    exact ⟨rfl, rfl⟩
  | _ => cases h

/-- Before any clause of a level is filled, only parts of joins are visible. -/
structure AtStart (g : Graph) (top : NodeId) (s : State) : Prop where
  clauses : s.clauses = .empty
  visible : ∀ x, (s.visible.lookup x).isSome → g.JoinPart top x

/-- What a job does to the levels that are put one after the other, and which slots it fills. -/
def Job.Branches (g : Graph) (top : NodeId) : Job → State → State → Prop
  | .visit id, s, s' => Kept g s → Branched g top s → Branched g top s' ∧
    (AtStart g top s → Filling g (g.JoinPart top) id s')
  | .select sel, s, s' => Kept g s → Branched g top s → Branched g top s' ∧
    (sel.clause.reads = true → AtStart g top s → ∃ s₂,
      Filled g (g.JoinPart top) sel.input sel.clause s₂ ∧
      s'.clauses.source = s₂.clauses.source ∧
      ∀ k, s'.clauses.has k = true ↔ k ∈ [Clause.select] ∨ s₂.clauses.has k = true)
  | .level id l, s, s' => Kept g s → Branched g top s → Branched g top s' ∧
    (g.isCollection id = true → ∃ q, s'.levels[l]? = some q ∧ g.Closes top id q)
  | .side _ source _, s, s' => Kept g s → Branched g top s →
    Branched g top s' ∧ UnitesAll g top s'.levels source
  | _, s, s' => Kept g s → Branched g top s → Branched g top s'

theorem Runs.filled {s₁ : State} (hord : env.graph.Ordered)
    (hrun : Runs env top (.visit input) s s₁)
    (hprep : Prepared env input clause clause.reads s₁ s₂) (hk : Kept env.graph s)
    (hstart : AtStart env.graph top s)
    (hfilling : Filling env.graph (env.graph.JoinPart top) input s₁) :
    Filled env.graph (env.graph.JoinPart top) input clause s₂ := by
  refine hprep.filled hord hfilling fun x hx => ?_
  exact (hrun.unveils hk x hx).imp_left (hstart.visible x)

theorem Runs.filled_values {s₁ s₃ : State}
    (hord : env.graph.Ordered) (hrun : Runs env top (.visit input) s s₁)
    (hprep : Prepared env input clause clause.reads s₁ s₂) (hk : Kept env.graph s)
    (hstart : AtStart env.graph top s)
    (hfilling : Filling env.graph (env.graph.JoinPart top) input s₁) (hadds : AddsValues s₂ s₃) :
    Filled env.graph (env.graph.JoinPart top) input clause s₃ :=
  (hrun.filled hord hprep hk hstart hfilling).congr hadds.clauses hadds.visible

theorem AtStart.inner {root : NodeId} (hk : Kept env.graph s) (hreach : env.graph.Reach top root)
    (h : Runs env top (.discover root) s.inner s') :
    AtStart env.graph top s' := by
  refine ⟨h.leaves.clauses, fun x hx => ?_⟩
  rcases h.unveils (hk.congr rfl rfl) x hx with hx | ⟨j, hj, hmet, hpart⟩
  · cases hx
  · exact ⟨j, hj, hreach.trans hmet.reach, hpart⟩

/-- A level of its own is finished. -/
theorem Branched.resume (h : Branched env.graph top s)
    (h₂ : Branched env.graph top s₂) (hq : s₂.clauses.close sortLimit = .ok q)
    (hrun : Runs env top job s (s.resume s₂ q)) :
    Branched env.graph top (s.resume s₂ q) :=
  h₂.push hq rfl rfl rfl fun source hsource => (h.source source hsource).grows hrun.grows

section Steps

variable {careful : Prop} {id left right : NodeId} {schema : Schema} {s₁ s₃ : State}

/-- A union that is compiled puts the levels of its sides one after the other. -/
theorem Runs.branches_union {leftLevel rightLevel : LevelId} {label : Alias} {aliases : Aliases}
    (hw : env.graph.WellFormed careful) (hreach : env.graph.Reach top id)
    (hn : env.graph.node? id = some ⟨.union left right false, .collection schema⟩)
    (hleft : Runs env top (.level left leftLevel) s s₁)
    (hright : Runs env top (.level right rightLevel) s₁ s₂)
    (ih : Job.Branches env.graph top (.level left leftLevel) s s₁)
    (ih' : Job.Branches env.graph top (.level right rightLevel) s₁ s₂)
    (hk : Kept env.graph s) (hs : Branched env.graph top s) :
    Branched env.graph top { s₂.withAliases aliases with
      unions := (id, .union leftLevel rightLevel label, label) :: s₂.unions } := by
  have hsl := ih hk hs
  have hsr := ih' (hleft.keeps hk) hsl.1
  obtain ⟨hcl, hcr⟩ := hw.union_sides hn
  obtain ⟨ql, hql, hclosel⟩ := hsl.2 hcl
  obtain ⟨qr, hqr, hcloser⟩ := hsr.2 hcr
  refine (hsr.1.keepUnion fun l r hlr => ?_).congr rfl rfl rfl rfl
  cases List.mem_singleton.1 hlr
  exact ⟨_, _, _, _, ql, qr, hn, hreach, hright.grows.level hql, hqr, hclosel, hcloser⟩

/-- The unions of a join that is compiled are those of its sides. -/
theorem Runs.branches_join {predicate : Option NodeId} {how : JoinKind}
    {leftSource rightSource : Source} {leftVisible rightVisible : Visible} {es : List Expr}
    (hleft : Runs env top (.side left leftSource leftVisible) s s₁)
    (hright : Runs env top (.side right rightSource rightVisible) s₁ s₂)
    (hon : Runs env top (.values predicate.toList es)
      (s₂.revealing (leftVisible ++ rightVisible)) s₃)
    (ih : Job.Branches env.graph top (.side left leftSource leftVisible) s s₁)
    (ih' : Job.Branches env.graph top (.side right rightSource rightVisible) s₁ s₂)
    (ih'' : Job.Branches env.graph top (.values predicate.toList es)
      (s₂.revealing (leftVisible ++ rightVisible)) s₃)
    (hk : Kept env.graph s) (hs : Branched env.graph top s) (on : Option Expr)
    (visible : Visible) :
    Branched env.graph top { s₃ with
      joins := (id, ⟨.join leftSource how rightSource none, on, visible⟩) :: s₃.joins } := by
  have hsl := ih hk hs
  have hk₂ := hright.keeps (hleft.keeps hk).1
  have hsr := ih' (hleft.keeps hk).1 hsl.1
  have hs₃ := ih'' (hk₂.1.congr rfl rfl) (hsr.1.congr rfl rfl rfl rfl)
  refine (hs₃.keepJoin fun l r hlr => ?_).congr rfl rfl rfl rfl
  rcases List.mem_append.1 hlr with hlr | hlr
  · exact (hsl.2.grows hright.grows).grows hon.grows l r hlr
  · exact hsr.2.grows hon.grows l r hlr

end Steps

/-- Levels that are put one after the other are those of the sides of a union, and a level fills the
slots of its operators, through every run. -/
theorem Runs.branches {careful : Prop} (hw : env.graph.WellFormed careful)
    (hord : env.graph.Ordered) (h : Runs env top job s s') : job.Branches env.graph top s s' := by
  induction h with
  | visited => exact fun _ hs => ⟨hs, fun hstart => .of_empty hstart.clauses⟩
  | cached => exact fun _ hs => ⟨hs.congr rfl rfl rfl rfl, fun hstart => .of_empty hstart.clauses⟩
  | source _ _ hn _ hc =>
    intro _ hs
    obtain rfl := setSource_eq_ok hc
    refine ⟨hs.withSource rfl rfl rfl (fun l r hlr => absurd hlr List.not_mem_nil) rfl,
      fun hstart => .base hn rfl rfl (fun k => ?_) (.seen (by simp [State.revealing, State.mark]))⟩
    simp only [State.mark, State.revealing, State.withAliases, hstart.clauses]
    cases k <;> rfl
  | selection _ _ hn hsel _ ih =>
    intro hk hs
    obtain ⟨hreads, hf⟩ := fills?_of_selection hsel
    refine ⟨(ih hk hs).1.congr rfl rfl rfl rfl, fun hstart => ?_⟩
    obtain ⟨s₂, hfilled, hsource, hall⟩ := (ih hk hs).2 hreads hstart
    exact hfilled.step hn hf hsource hall fun hno => absurd (List.mem_singleton_self _) hno
  | filter _ _ hn hrun hprep hv hp _ hc ih ih' =>
    intro hk hs
    obtain rfl := setFilter_eq_ok hc
    have hs₁ := ih hk hs
    have hs₃ := ih' (hprep.kept (hrun.keeps hk)) (hs₁.1.prepared hprep)
    have hadds := hp.leaves hv
    refine ⟨hs₃.1.congr rfl rfl rfl rfl, fun hstart => ?_⟩
    have hfilled := hrun.filled_values hord hprep hk hstart (hs₁.2 hstart) hadds
    refine hfilled.step hn rfl rfl (fun k => ?_) fun _ hcov => .through hn rfl hcov
    cases k <;> simp [State.mark, Clauses.has]
  | groupBy _ _ hn hrun hprep hkeys hitems hc hc' hp hhaving ih ih' ih'' ihp =>
    intro hk hs
    obtain rfl := setSelect_eq_ok hc
    obtain rfl := setGroupBy_eq_ok hc'
    have hs₁ := ih hk hs
    have hk₂ := hprep.kept (hrun.keeps hk)
    have hs₄ := ih'' (hkeys.keeps hk₂) (ih' hk₂ (hs₁.1.prepared hprep))
    have hk₄ := hitems.keeps (hkeys.keeps hk₂)
    have hs₅ := ihp (hk₄.congr rfl rfl) (hs₄.congr rfl rfl rfl rfl)
    have hadds := AddsValues.trans hkeys.leaves hitems.leaves
    have hadds' : AddsValues _ _ := hp.leaves
    obtain ⟨_, rfl⟩ := hhaving.eq
    refine ⟨hs₅.congr rfl rfl rfl rfl, fun hstart => ?_⟩
    have hfilled := hrun.filled_values hord hprep hk hstart (hs₁.2 hstart) hadds
    have hsource := congrArg Clauses.source hadds'.clauses
    refine hfilled.step hn rfl hsource (fun k => ?_) fun hno => absurd (.head _) hno
    simp only [State.mark, hadds'.clauses]
    cases k <;> simp [Clauses.has]
  | sort _ _ hn hrun hprep hkeys hc ih ih' =>
    intro hk hs
    obtain rfl := setOrderBy_eq_ok hc
    have hs₁ := ih hk hs
    have hs₃ := ih' (hprep.kept (hrun.keeps hk)) (hs₁.1.prepared hprep)
    have hadds : AddsValues _ _ := hkeys.leaves
    refine ⟨hs₃.congr rfl rfl rfl rfl, fun hstart => ?_⟩
    have hfilled := hrun.filled_values hord hprep hk hstart (hs₁.2 hstart) hadds
    refine hfilled.step hn rfl rfl (fun k => ?_) fun _ hcov => .through hn rfl hcov
    cases k <;> simp [State.mark, Clauses.has]
  | slice _ _ hn _ hrun hprep hc ih =>
    intro hk hs
    obtain rfl := setLimit_eq_ok hc
    have hs₁ := ih hk hs
    refine ⟨(hs₁.1.prepared hprep).congr rfl rfl rfl rfl, fun hstart => ?_⟩
    have hfilled := hrun.filled hord hprep hk hstart (hs₁.2 hstart)
    refine hfilled.step hn rfl rfl (fun k => ?_) fun _ hcov => .through hn rfl hcov
    cases k <;> simp [State.mark, Clauses.has]
  | joined _ _ hn hjoin hc hc' ih =>
    intro hk hs
    obtain rfl := joined_clauses hc hc'
    have hs₁ := ih hk hs
    have hreveals := (hjoin.keeps hk).join hjoin.lookup_join
    refine ⟨hs₁.withSource rfl rfl rfl (hs₁.join hjoin.lookup_join) rfl, fun hstart => ?_⟩
    refine .base hn rfl rfl (fun k => ?_) (hreveals.grounded.covered.reverse.append_right _)
    simp only [State.mark, State.revealing, hjoin.leaves.clauses.trans hstart.clauses]
    cases k <;> rfl
  | united _ _ hn hunion hc ih =>
    intro hk hs
    obtain rfl := setSource_eq_ok hc
    have hs₁ := ih hk hs
    have hsame : Same _ _ := hunion.leaves
    refine ⟨hs₁.withSource rfl rfl rfl (hs₁.union hunion.lookup_union) rfl, fun hstart => ?_⟩
    refine .base hn rfl rfl (fun k => ?_) (.seen (by simp [State.revealing, State.mark]))
    simp only [State.mark, State.revealing, hsame.clauses.trans hstart.clauses]
    cases k <;> rfl
  | value hnew hno hreach hn ht hvisits hprovide he hadd ih ih' =>
    intro hk hs
    have hv := not_isCollection_of_typed hn ht
    have hadds := (Runs.value hnew hno hreach hn ht hvisits hprovide he hadd).leaves hv
    exact ⟨(ih' (hvisits.keeps hk) (ih hk hs)).congr rfl rfl rfl rfl,
      fun hstart => .of_empty (hadds.clauses.trans hstart.clauses)⟩
  | noOperands | noValues | noKeys | noItems | provideNothing | discovered | unionKept
  | subqueryKept | joinKept => exact fun _ hs => hs
  | skipped _ _ ih => exact ih
  | operand _ _ hrun _ ih ih' | valueThen _ hrun _ _ ih ih' | keyThen _ hrun _ _ ih ih'
  | itemThen _ hrun _ _ _ _ _ ih ih' => exact fun hk hs => ih' (hrun.keeps hk) (ih hk hs).1
  | provideFunction => exact fun _ hs => hs.congr rfl rfl rfl rfl
  | provideWindow _ ih | provideSubquery _ _ ih => exact ih
  | select hrun hprep hitems hc ih ih' =>
    intro hk hs
    obtain rfl := setSelect_eq_ok hc
    have hs₁ := ih hk hs
    have hs₃ := ih' (hprep.kept (hrun.keeps hk)) (hs₁.1.prepared hprep)
    have hadds : AddsValues _ _ := hitems.leaves
    refine ⟨hs₃.congr rfl rfl rfl rfl, fun hreads hstart => ?_⟩
    rw [← hreads] at hprep
    have hfilled := hrun.filled_values hord hprep hk hstart (hs₁.2 hstart) hadds
    refine ⟨_, hfilled, rfl, fun k => ?_⟩
    cases k <;> simp [Clauses.has]
  | level hreach hc hdiscover hvisit hq ih ih' =>
    intro hk hs
    have hk₁ := hdiscover.keeps (hk.congr rfl rfl)
    have hs₂ := ih' hk₁ (ih (hk.congr rfl rfl) hs.inner)
    have hcloses := (hs₂.2 (.inner hk hreach hdiscover)).closes hq
    exact ⟨hs.resume hs₂.1 hq (.level hreach hc hdiscover hvisit hq),
      fun _ => ⟨_, Array.getElem?_push_size, hcloses⟩⟩
  | levelOfValue hreach hc hown hdiscover hselect hq ih ih' =>
    intro hk hs
    have hk₁ := hdiscover.keeps (hk.congr rfl rfl)
    have hs₂ := ih' hk₁ (ih (hk.congr rfl rfl) hs.inner)
    refine ⟨hs.resume hs₂.1 hq (.levelOfValue hreach hc hown hdiscover hselect hq), fun hc' => ?_⟩
    rw [hc] at hc'
    cases hc'
  | discoverJoin _ _ hjoin _ ih ih' => exact fun hk hs => ih' (hjoin.keeps hk) (ih hk hs)
  | discoverUnion _ _ hunion _ ih ih' => exact fun hk hs => ih' (hunion.keeps hk) (ih hk hs)
  | discoverSubquery _ _ _ hsub _ ih ih' => exact fun hk hs => ih' (hsub.keeps hk) (ih hk hs)
  | unionNew _ hreach hn hleft hright _ ih ih' =>
    exact hleft.branches_union hw hreach hn hright ih ih'
  | subqueryNew _ _ _ _ _ ih => exact fun hk hs => (ih hk hs).1.congr rfl rfl rfl rfl
  | sideTable =>
    exact fun _ hs => ⟨hs.congr rfl rfl rfl rfl, fun l r hlr => absurd hlr List.not_mem_nil⟩
  | sideJoin _ hjoin ih =>
    intro hk hs
    refine ⟨ih hk hs, fun l r hlr => ?_⟩
    rw [JoinAhead.unions_asSide] at hlr
    exact (ih hk hs).join hjoin.lookup_join l r hlr
  | sideUnion _ hunion ih =>
    exact fun hk hs => ⟨ih hk hs, (ih hk hs).union hunion.lookup_union⟩
  | sideLevel _ _ _ _ _ ih =>
    exact fun hk hs => ⟨(ih hk hs).1.congr rfl rfl rfl rfl, fun l r hlr =>
      absurd hlr List.not_mem_nil⟩
  | joinNew _ _ _ hleft hright hon ih ih' ih'' =>
    exact fun hk hs => hleft.branches_join hright hon ih ih' ih'' hk hs _ _

end Branches

/-- Wherever a level of the statement of a valid graph puts two levels one after the other, they are
those of the sides of a union, and each has an order or a limit exactly if the operators of its side
leave one on their last level. -/
theorem compile_unions {g : Graph} (hb : Built g) (hv : g.validate = .ok ()) {c c' : Compiler}
    {root : NodeId} {s : Statement} (h : c.compile g root = (.ok s, c')) :
    ∀ q ∈ s.levels, ∀ l r, (l, r) ∈ q.source.unions → g.Unites root s.levels l r := by
  have hw := hb.fits
  have hord : (c.env g).graph.Ordered := hw.validate_iff_children_lt.1 hv
  obtain ⟨t, hrun, hlevels⟩ := runs_of_compile hw h
  have hbranched := (hrun.branches hw hord (.start g c.functions) (.start g root c.functions)).1
  rw [← hlevels]
  exact hbranched.level

/-- A column of sorted rows, followed by the rows of another table. -/
def sortedFirst : List Call :=
  [.source "" "a" [⟨"id", .int64⟩, ⟨"x", .int64⟩], .column 0 "x", .sort 0 [⟨1, true⟩],
    .column 2 "id", .project 2 [3], .source "" "b" [⟨"id", .int64⟩], .union 4 5 false]

/-- Values that are listed of sorted rows share a level with the order. -/
theorem compile_unions_sortedFirst :
    Built (Call.run sortedFirst) ∧ (Call.run sortedFirst).validate = .ok () ∧
    ∃ s c', (Compiler.new .default).compile (Call.run sortedFirst) 6 = (.ok s, c') ∧
      s.levels.toList.map (·.source.unions) = [[], [], [(0, 1)]] ∧
      ∀ q ∈ s.levels, ∀ l r, (l, r) ∈ q.source.unions →
        (Call.run sortedFirst).Unites 6 s.levels l r := by
  have hb : Built (Call.run sortedFirst) := .run (by simp [sortedFirst, Call.AllowedFrom])
  have hv : (Call.run sortedFirst).validate = .ok () := by decide +kernel
  have hunions : ((Compiler.new .default).compile (Call.run sortedFirst) 6).1.toOption.map
      (·.levels.toList.map (·.source.unions)) = some [[], [], [(0, 1)]] := by decide +kernel
  obtain ⟨s, c', hs, hshown⟩ := exists_of_compile hunions
  exact ⟨hb, hv, s, c', hs, hshown, compile_unions hb hv hs⟩

/-- The first rows of a table, followed by the rows of another one. -/
def limitedFirst : List Call :=
  [.source "" "a" [⟨"id", .int64⟩], .source "" "b" [⟨"id", .int64⟩],
    .slice 0 none (some 5) none, .union 2 1 false]

/-- The limit of a part of a union is written before the next part, without parentheses. -/
theorem limited_limitedFirst :
    ∃ s c', (Compiler.new .default).compile (Call.run limitedFirst) 3 = (.ok s, c') ∧
      (s.levels.toList.map fun q => (q.source.unions, q.limit), s.text Options.default.layout) =
        ([([], some 5), ([], none), ([(0, 1)], none)],
          "SELECT *\nFROM (\n  SELECT *\n  FROM `a` t1\n  LIMIT 5\n" ++
          "  UNION ALL\n  SELECT *\n  FROM `b` t2\n) t3") :=
  exists_of_compile (by decide +kernel)

end Compile

end PlanSql

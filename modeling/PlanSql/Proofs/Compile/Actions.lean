import PlanSql.Compile.Run
import PlanSql.Proofs.Build.Fits

/-!
# Laws of the actions of a compilation

One law for each primitive action, in the form in which proofs about longer actions use them, and
the law of `discover`: what every join, union and subquery below a root keeps is kept.
-/

namespace PlanSql

/-- `id` is `root` or an operand of something that `root` reaches. -/
inductive Graph.Reach (g : Graph) (root : NodeId) : NodeId → Prop
  | refl : Reach g root root
  | step {id child : NodeId} : Reach g root id → child ∈ g.children id → Reach g root child

namespace Compile

open PlanSql.Sql

variable {id : NodeId} {ε : Type}

namespace State

/-- The state at the start of a level of its own. -/
def inner (s : State) : State := { s with
  clauses := .empty
  visited := []
  visible := []
  context := { s.context with fragments := [] } }

/-- The state after a level of its own has ended in `t` and became `q`. -/
def resume (s t : State) (q : Query) : State := { t with
  clauses := s.clauses
  visited := s.visited
  visible := s.visible
  context := { t.context with fragments := s.context.fragments }
  levels := t.levels.push q }

end State

/-- Finishes a level and takes up the one around it, which was left in `s`. -/
abbrev closeLevel (env : Env) (s : State) : Compile LevelId := do
  let level ← finishLevel env
  modify fun t => { t with
    clauses := s.clauses
    visited := s.visited
    visible := s.visible
    context := { t.context with fragments := s.context.fragments } }
  pure level

theorem mem_of_lookup {α : Type} {a : α} {l : List (NodeId × α)}
    (h : l.lookup id = some a) : (id, a) ∈ l := by
  obtain ⟨l₁, l₂, rfl, _⟩ := List.lookup_eq_some_iff.1 h
  simp

section Primitives

variable {α : Type} {s : State} {post : α → State → Prop} {fault : Error → State → Prop}
variable {id : NodeId} {env : Env}

theorem Meets.check {r : Except Error α} (hp : ∀ a, r = .ok a → post a s)
    (hf : ∀ e, r = .error e → fault e s) : Meets (check r) s post fault := by
  unfold Meets Compile.check
  cases r with
  | ok a => exact hp a rfl
  | error e => exact hf e rfl

theorem Meets.fragment {post : Expr → State → Prop}
    (hp : ∀ e, s.context.fragment id = .ok e → post e s)
    (hf : ∀ e, s.context.fragment id = .error e → fault e s) :
    Meets (fragment id) s post fault :=
  .bind (.get (Meets.check hp hf))

/-- A fragment is stored unless the node has one; then its text has to be the same. -/
theorem Context.addFragment_eq_ok {text : ε → String} {c c' : Context ε} {e : ε}
    (h : c.addFragment text id e = .ok c') :
    (c.fragments.lookup id = none ∧ c' = { c with fragments := (id, e) :: c.fragments }) ∨
      ((c.fragments.lookup id).isSome ∧ c' = c) := by
  unfold Context.addFragment at h
  split at h
  · next hl => cases h; exact .inl ⟨hl, rfl⟩
  · next present hl =>
    split at h
    · cases h; exact .inr ⟨by simp [hl], rfl⟩
    · cases h

theorem Context.fragment_eq_ok_iff {c : Context ε} {e : ε} :
    c.fragment id = .ok e ↔ c.fragments.lookup id = some e := by
  unfold Context.fragment
  cases c.fragments.lookup id <;> simp

/-- A fragment that was stored is found; the others are as before. -/
theorem Context.fragment_cons (c : Context ε) (id x : NodeId) (e : ε) :
    ({ c with fragments := (id, e) :: c.fragments } : Context ε).fragment x =
      if x = id then .ok e else c.fragment x := by
  unfold Context.fragment
  by_cases hx : x = id
  · simp [hx]
  · have hne : (x == id) = false := beq_false_of_ne hx
    simp [List.lookup_cons, hne, hx]

theorem Meets.emit {e : Expr} {post : Unit → State → Prop}
    (hp : ∀ c, s.context.addFragment canonicalText id e = .ok c → post () { s with context := c })
    (hf : ∀ err, s.context.addFragment canonicalText id e = .error err → fault err s) :
    Meets (emit id e) s post fault :=
  .bind (.get (.bind (Meets.check (fun c hc => .set (hp c hc)) hf)))

theorem Meets.fill {f : Clauses Expr Source → Except Error (Clauses Expr Source)}
    {post : Unit → State → Prop}
    (hp : ∀ c, f s.clauses = .ok c → post () { s with clauses := c })
    (hf : ∀ err, f s.clauses = .error err → fault err s) : Meets (fill f) s post fault :=
  .bind (.get (.bind (Meets.check (fun c hc => .set (hp c hc)) hf)))

theorem Meets.resolve {field : String} {post : Alias × String → State → Prop}
    (hp : ∀ r, columnRef env.graph s.visible env.depth id field = .ok r → post r s)
    (hf : ∀ e, columnRef env.graph s.visible env.depth id field = .error e → fault e s) :
    Meets (resolve env id field) s post fault :=
  .bind (.get (Meets.check hp hf))

theorem Meets.finishLevel {post : LevelId → State → Prop}
    (hp : ∀ q, s.clauses.close env.sortLimit = .ok q →
      post s.levels.size { s with clauses := .empty, levels := s.levels.push q })
    (hf : ∀ e, s.clauses.close env.sortLimit = .error e → fault e { s with clauses := .empty }) :
    Meets (finishLevel env) s post fault := by
  refine .bind (.get (.bind (.set (.bind (Meets.check (fun q hq => ?_) hf)))))
  exact .bind (.modify (.pure (hp q hq)))

theorem Meets.closeLevel {outer : State} {post : LevelId → State → Prop}
    (hp : ∀ q, s.clauses.close env.sortLimit = .ok q → post s.levels.size (outer.resume s q))
    (hf : ∀ e, s.clauses.close env.sortLimit = .error e → fault e { s with clauses := .empty }) :
    Meets (closeLevel env outer) s post fault :=
  .bind (Meets.finishLevel (fun q hq => .bind (.modify (.pure (hp q hq)))) hf)

/-- Most values need nothing besides their operands but the level of a subquery. -/
theorem provide_of_ne {steps : Steps} {kind : Kind}
    (huser : ∀ input function, kind ≠ .userMap input function) (hwindow : ∀ op, kind ≠ .window op) :
    provide env steps id kind =
      kind.subquery?.elim (pure ()) fun sequence =>
        (do let _ ← subqueryAhead steps id sequence) := by
  unfold provide
  split
  · exact absurd rfl (huser _ _)
  · exact absurd rfl (hwindow _)
  · cases kind.subquery? <;> rfl

end Primitives

section Filling

variable {ε φ : Type} {c c' : Clauses ε φ}

theorem setSelect_eq_ok {items : List (Item ε)} {distinct : Bool}
    (h : c.setSelect items distinct = .ok c') :
    c' = { c with select := some items, distinct := distinct } := by
  unfold Clauses.setSelect at h
  split at h <;> cases h
  rfl

theorem setSource_eq_ok {source : φ} (h : c.setSource source = .ok c') :
    c' = { c with source := some source } := by
  unfold Clauses.setSource at h
  split at h <;> cases h
  rfl

theorem setOn_eq_ok {e : ε} (h : c.setOn e = .ok c') : c' = { c with on := some e } := by
  unfold Clauses.setOn at h
  split at h <;> cases h
  rfl

theorem setFilter_eq_ok {e : ε} (h : c.setFilter e = .ok c') :
    c' = { c with filter := some e } := by
  unfold Clauses.setFilter at h
  split at h <;> cases h
  rfl

theorem setGroupBy_eq_ok {keys : List ε} (h : c.setGroupBy keys = .ok c') :
    c' = { c with groupBy := some keys } := by
  unfold Clauses.setGroupBy at h
  split at h <;> cases h
  rfl

theorem setHaving_eq_ok {text : ε → String} {e : ε} (h : c.setHaving text e = .ok c')
    (hnone : c.having = none) : c' = { c with having := some e } := by
  unfold Clauses.setHaving at h
  rw [hnone] at h
  exact (Except.ok.inj h).symm

/-- A condition on groups changes no other clause. -/
theorem setHaving_cases {text : ε → String} {e : ε} (h : c.setHaving text e = .ok c') :
    c.having = none ∧ c' = { c with having := some e } ∨ (∃ e', c.having = some e') ∧ c' = c := by
  unfold Clauses.setHaving at h
  split at h
  · next hnone => exact .inl ⟨hnone, (Except.ok.inj h).symm⟩
  · next e' hsome =>
    split at h <;> cases h
    exact .inr ⟨⟨e', hsome⟩, rfl⟩

theorem setOrderBy_eq_ok {keys : List ε} (h : c.setOrderBy keys = .ok c') :
    c' = { c with orderBy := some keys } := by
  unfold Clauses.setOrderBy at h
  split at h <;> cases h
  rfl

theorem setLimit_eq_ok {n : Nat} (h : c.setLimit n = .ok c') : c' = { c with limit := some n } := by
  unfold Clauses.setLimit at h
  split at h <;> cases h
  rfl

/-- A finished level has the clauses that were set. -/
theorem close_eq_ok {sortLimit : Nat} {q : Level ε φ} (h : c.close sortLimit = .ok q) :
    c.source = some q.source ∧ q.select = c.select ∧ q.on = c.on ∧ q.filter = c.filter ∧
      q.groupBy = c.groupBy ∧ q.having = c.having ∧ q.orderBy = c.orderBy := by
  unfold Clauses.close at h
  split at h
  · cases h
  · next source hsource =>
    cases h
    exact ⟨hsource, rfl, rfl, rfl, rfl, rfl, rfl⟩

theorem limit_of_close {sortLimit : Nat} {q : Level ε φ} (h : c.close sortLimit = .ok q)
    (ho : q.orderBy.isSome) : q.limit.isSome := by
  unfold Clauses.close at h
  split at h
  · cases h
  · cases h
    simp [ho]

end Filling

section Discover

variable {env : Env} {steps : Steps} {root : NodeId} {I : State → Prop}
  {fault : Error → State → Prop}
variable {g : Graph} {w : Walk}

/-- Everything that a walk still has to look at is reached from the root. -/
structure Walk.Below (g : Graph) (root : NodeId) (w : Walk) : Prop where
  graph : w.graph = g
  topDown : w.order = .topDown
  stack : ∀ x ∈ w.stack, g.Reach root x.1
  pending : ∀ x ∈ w.pending, g.Reach root x

/-- A walk from the top goes on with one of the nodes that it still has to look at. -/
theorem Walk.next_of_forall {P : NodeId → Prop} {w' : Walk}
    (hdown : w.order = .topDown)
    (hstack : ∀ x ∈ w.stack, P x.1)
    (hpending : ∀ last ∈ w.pending, ∀ child ∈ w.visibleChildren last, P child)
    (hn : w.next = some (id, w')) : P id ∧ w'.graph = w.graph ∧ w'.order = .topDown ∧
      (∀ x ∈ w'.stack, P x.1) ∧ w'.pending = some id := by
  have hlisted : ∀ x ∈ w.listed, P x.1 := by
    intro x hx
    unfold PlanSql.Walk.listed at hx
    split at hx
    · next last hlast =>
      rcases List.mem_append.1 hx with hx | hx
      · obtain ⟨child, hchild, rfl⟩ := List.mem_map.1 hx
        exact hpending last hlast child hchild
      · exact hstack x hx
    · exact hstack x hx
  simp only [PlanSql.Walk.next, hdown, PlanSql.Walk.nextTopDown] at hn
  split at hn
  · cases hn
  · next x b rest hlist =>
    have hmem : ∀ y ∈ (x, b) :: rest, P y.1 := fun y hy =>
      hlisted y ((List.dropWhile_sublist _).subset (hlist ▸ hy))
    simp only [Option.some.injEq, Prod.mk.injEq] at hn
    obtain ⟨rfl, rfl⟩ := hn
    refine ⟨hmem _ (.head _), ?_, ?_, fun y hy => hmem y (.tail _ hy), rfl⟩
    · simp only [PlanSql.Walk.meet]
      split <;> rfl
    · simp only [PlanSql.Walk.meet]
      split <;> exact hdown

theorem Walk.Below.next {w' : Walk} (h : Walk.Below g root w)
    (hn : w.next = some (id, w')) : g.Reach root id ∧ Walk.Below g root w' := by
  have hpending : ∀ last ∈ w.pending, ∀ child ∈ w.visibleChildren last, g.Reach root child := by
    intro last hlast child hchild
    refine .step (h.pending last hlast) ?_
    unfold PlanSql.Walk.visibleChildren at hchild
    split at hchild
    · simp at hchild
    · rw [← h.graph]
      exact (List.mem_filter.1 hchild).1
  obtain ⟨hid, hgraph, hdown, hstack, hlast⟩ := Walk.next_of_forall h.topDown h.stack hpending hn
  exact ⟨hid, hgraph.trans h.graph, hdown, hstack, fun y hy =>
    Option.some.inj (hlast.symm.trans hy) ▸ hid⟩

/-- What joins, unions and subqueries below the root keep, `discover` keeps. -/
theorem Meets.discover
    (hnode : ∀ id, env.graph.Reach root id → ∀ e s, I s → env.graph.node id = .error e → fault e s)
    (hjoin : ∀ id left right predicate how fields shape s, env.graph.Reach root id → I s →
      env.graph.node? id = some ⟨.join left right predicate how fields, shape⟩ →
      Meets (steps.join id left right predicate how) s (fun _ s' => I s') fault)
    (hunion : ∀ id left right distinct shape s, env.graph.Reach root id → I s →
      env.graph.node? id = some ⟨.union left right distinct, shape⟩ →
      Meets (unionAhead steps id left right distinct) s (fun _ s' => I s') fault)
    (hsub : ∀ id n sequence s, env.graph.Reach root id → I s → env.graph.node? id = some n →
      n.kind.subquery? = some sequence →
      Meets (subqueryAhead steps id sequence) s (fun _ s' => I s') fault)
    {s : State} (hs : I s) : Meets (discover env steps root) s (fun _ s' => I s') fault := by
  have hone : ∀ id (w : Walk) s, env.graph.Reach root id → Walk.Below env.graph root w → I s →
      Meets (discoverNode env steps id w) s
        (fun w' s' => Walk.Below env.graph root w' ∧ I s') fault := by
    intro id w s hid hw hs
    have hprune : Walk.Below env.graph root (w.prune id) := ⟨hw.1, hw.2, hw.3, hw.4⟩
    refine .bind (.get ?_)
    split
    · exact .pure ⟨hprune, hs⟩
    · refine .bind (Meets.check (fun n hn => ?_) fun e he => hnode id hid e s hs he)
      have hfound := Graph.node_eq_ok_iff.1 hn
      obtain ⟨kind, shape⟩ := n
      dsimp only
      split
      · exact .bind ((hjoin _ _ _ _ _ _ _ s hid hs hfound).imp fun _ s' hs' =>
          .pure ⟨hprune, hs'⟩)
      · exact .bind ((hunion _ _ _ _ _ s hid hs hfound).imp fun _ s' hs' => .pure ⟨hprune, hs'⟩)
      · split
        · next sequence hq =>
          exact .bind ((hsub id _ sequence s hid hs hfound hq).imp fun _ s' hs' =>
            .pure ⟨⟨hw.1, hw.2, hw.3, hw.4⟩, hs'⟩)
        · exact .pure ⟨hw, hs⟩
  have hmany : ∀ count (w : Walk) s, Walk.Below env.graph root w → I s →
      Meets (discoverFrom env steps count w) s (fun _ s' => I s') fault := by
    intro count
    induction count with
    | zero => exact fun w s _ hs => .pure hs
    | succ count ih =>
      intro w s hw hs
      unfold discoverFrom
      split
      · exact .pure hs
      · next id w' hnext =>
        obtain ⟨hid, hw'⟩ := hw.next hnext
        exact .bind ((hone id w' s hid hw' hs).imp fun w'' s' h => ih w'' s' h.1 h.2)
  refine hmany _ _ s ⟨rfl, rfl, ?_, by simp [Walk.start]⟩ hs
  simp only [Walk.start, List.mem_singleton, forall_eq]
  exact .refl

end Discover

end Compile

end PlanSql

import PlanSql.Proofs.Copies.Statements

/-!
# Bounds are never reached

The functions of a compilation are given bounds, so that they end on every graph: steps have a
depth, searches have one, and a walk has a number of nodes. In a valid graph operands stand before
their operators, and with that no bound is ever reached: with greater ones every outcome is the
same. Bins are likewise never read at a place where there is none. All that a valid plan can ask for
and that cannot be computed is the successor of the largest offset into a text.
-/

namespace PlanSql.Compile

open PlanSql.Sql

/-! ## Bins by their places -/

namespace Cut

/-- The condition of the bucket above the bin at place `i`, if this bin and the next one are
there. -/
def betweenAt? (c : PlanSql.Cut) (x : Expr) (first : Bool) (bins : List Value) (i : Nat) :
    Option Expr := do
  let low ← bins[i]?
  let high ← bins[i + 1]?
  let lowOp : BinaryOp := if !c.right || (first && i == 0 && c.includeLowest) then .le else .lt
  let highOp : BinaryOp := if c.right || (i + 2 == bins.length && c.includeLowest) then .le else .lt
  pure (.binary .and (.binary lowOp (.constant low) x) (.binary highOp x (.constant high)))

/-- The conditions of all buckets, with the bins read by their places. There are none if a place is
not there, or if there is no last place. -/
def conditionsAt? (c : PlanSql.Cut) (x : Expr) : Option (List Expr) := do
  let lowest ← if c.includeUnder then do
      let bin ← c.bins[0]?
      pure [Expr.binary (if c.right && !c.includeLowest then .le else .lt) x (.constant bin)]
    else pure []
  let last ← if c.bins.length = 0 then none else some (c.bins.length - 1)
  let inner ← (List.range last).mapM (betweenAt? c x true c.bins)
  let highest ← if c.includeOver then do
      let bin ← c.bins[last]?
      pure [Expr.binary (if !c.right && !c.includeLowest then .ge else .gt) x (.constant bin)]
    else pure []
  pure (lowest ++ inner ++ highest)

theorem mapM_betweenAt? (c : PlanSql.Cut) (x : Expr) (first : Bool) (bins : List Value) :
    (List.range (bins.length - 1)).mapM (betweenAt? c x first bins) =
      some (between c x first bins) := by
  induction bins generalizing first with
  | nil => rfl
  | cons low rest ih =>
    cases rest with
    | nil => rfl
    | cons high rest =>
      have hshift : ∀ i, betweenAt? c x first (low :: high :: rest) (i + 1) =
          betweenAt? c x false (high :: rest) i := by
        intro i
        simp [betweenAt?]
      have hlength : (low :: high :: rest).length - 1 = (high :: rest).length - 1 + 1 := rfl
      rw [hlength, List.range_succ_eq_map, List.mapM_cons, List.mapM_map]
      simp only [Function.comp_def, Nat.succ_eq_add_one, hshift, ih]
      cases rest with
      | nil | cons next rest => simp [betweenAt?, between]

theorem conditionsAt?_eq (c : PlanSql.Cut) (x : Expr) (h : 2 ≤ c.bins.length) :
    conditionsAt? c x = some (conditions c x) := by
  have hne : c.bins.length ≠ 0 := by omega
  have hhead : c.bins[0]? = c.bins.head? := List.head?_eq_getElem?.symm
  have hlast : c.bins[c.bins.length - 1]? = c.bins.getLast? := List.getLast?_eq_getElem?.symm
  have hfirst : ∃ bin, c.bins.head? = some bin := ⟨_, List.head?_eq_some_head (by grind)⟩
  have hfinal : ∃ bin, c.bins.getLast? = some bin :=
    ⟨_, List.getLast?_eq_some_getLast (by grind)⟩
  obtain ⟨low, hlow⟩ := hfirst
  obtain ⟨high, hhigh⟩ := hfinal
  unfold conditionsAt? conditions below above
  simp only [hne, if_false, Option.bind_eq_bind, Option.bind_some, mapM_betweenAt?, hhead, hlast,
    hlow, hhigh]
  cases c.includeUnder <;> cases c.includeOver <;> rfl

end Cut

/-! ## Walks -/

section Walks

variable {env : Env} {steps : Steps} {count : Nat}

/-- A step of a walk leaves out operands of the node that it came to, or nothing. -/
theorem discoverNode_meets (x : NodeId) (w : Walk) (s : State) :
    Meets (discoverNode env steps x w) s
      (fun v _ => v = w ∨ v = w.prune x ∨ ∃ y ∈ env.graph.children x, v = w.hide x y)
      fun _ _ => True := by
  have hany : ∀ {α β : Type} (m : Compile α) (f : α → Compile β) (s : State)
      (post : β → State → Prop), (∀ a t, Meets (f a) t post fun _ _ => True) →
      Meets (m >>= f) s post fun _ _ => True := by
    intro α β m f s post hf
    refine .bind ?_
    unfold Meets
    split
    · next a t _ => exact hf a t
    · trivial
  refine .bind (.get ?_)
  split
  · exact .pure (.inr (.inl rfl))
  · refine .bind (Meets.check (fun n hn => ?_) fun _ _ => trivial)
    have hfound := Graph.node_eq_ok_iff.1 hn
    dsimp only
    split
    · exact hany _ _ _ _ fun _ _ => .pure (.inr (.inl rfl))
    · exact hany _ _ _ _ fun _ _ => .pure (.inr (.inl rfl))
    · split
      · next sequence hq =>
        have hchild : sequence ∈ env.graph.children x :=
          Copy.mem_children hfound (mem_operands_of_subquery? hq)
        exact hany _ _ _ _ fun _ _ => .pure (.inr (.inr ⟨sequence, hchild, rfl⟩))
      · exact .pure (.inl rfl)

/-- The ids that a walk from a root may come to: those of nodes, and that of the root. -/
def MayMeet (g : Graph) (root x : NodeId) : Prop := x < g.size ∨ x = root

/-- The operands of an operator are nodes. -/
theorem lt_size_of_mem_children {g : Graph} (hg : g.Ordered) {x y : NodeId}
    (hy : y ∈ g.children x) : y < g.size := by
  have hlt : x < g.size := by
    by_contra hge
    rw [Graph.children, Graph.node?_eq_none_iff.2 hge] at hy
    cases hy
  exact Nat.lt_trans (hg x y hy) hlt

/-- A walk that may still come to every node it has not met is not stopped by its bound. -/
theorem discoverFrom_add {has : NodeId → Prop}
    {hchild : ∀ {x y}, has x → y ∈ env.graph.children x → has y} {root : NodeId}
    (hhas : ∀ x, has x → MayMeet env.graph root x) {w : Walk}
    (hw : (Copy.itself env has hchild).Walks w w)
    (hcount : env.graph.size + 1 ≤ count + w.seen.length) (more : Nat) :
    discoverFrom env steps (count + more) w = discoverFrom env steps count w := by
  have hseen : ∀ {w}, (Copy.itself env has hchild).Walks w w →
      w.seen.length ≤ env.graph.size + 1 := by
    intro w hw
    have hsub : w.seen ⊆ root :: List.range env.graph.size := by
      intro x hx
      rcases hhas x (hw.seen.2 x hx) with hlt | rfl
      · exact .tail _ (List.mem_range.2 hlt)
      · exact .head _
    simpa using (List.subperm_of_subset hw.nodup hsub).length_le
  induction count generalizing w with
  | zero =>
    cases more with
    | zero => rfl
    | succ more =>
      -- all that could be met has been met
      have hnone : w.next = none := by
        rcases hw.next with ⟨hnone, -⟩ | ⟨x, v, v', hv, hv', -, hwalks, hlength⟩
        · exact hnone
        · obtain rfl : v = v' := (Prod.mk.inj (Option.some.inj (hv.symm.trans hv'))).2
          have := hseen hwalks
          lia
      rw [Nat.zero_add, discoverFrom, discoverFrom, hnone]
  | succ count ih =>
    rw [Nat.add_right_comm, discoverFrom, discoverFrom]
    rcases hw.next with ⟨hnone, -⟩ | ⟨x, v, v', hv, hv', hx, hwalks, hlength⟩
    · rw [hnone]
    · obtain rfl : v = v' := (Prod.mk.inj (Option.some.inj (hv.symm.trans hv'))).2
      rw [hv]
      funext s
      show EStateM.bind (discoverNode env steps x v) _ s = EStateM.bind _ _ s
      unfold EStateM.bind
      cases hnode : discoverNode env steps x v s with
      | error e t => rfl
      | ok u t =>
        have hu : (Copy.itself env has hchild).Walks u u ∧ u.seen = v.seen := by
          rcases (discoverNode_meets x v s).of_ok hnode with rfl | rfl | ⟨y, hy, rfl⟩
          · exact ⟨hwalks, rfl⟩
          · exact ⟨hwalks.prune hx, rfl⟩
          · exact ⟨hwalks.hide hx (hchild hx hy), rfl⟩
        exact congrFun (ih hu.1 (by rw [hu.2, hlength]; lia)) t

theorem discoverFrom_eq (hg : env.graph.Ordered) (root : NodeId)
    (hcount : env.graph.size + 1 ≤ count) :
    discoverFrom env steps count (.start env.graph root .topDown true) =
      discover env steps root := by
  obtain ⟨more, rfl⟩ := Nat.exists_eq_add_of_le hcount
  have hwalks : (Copy.itself env (MayMeet env.graph root)
      (fun _ hy => .inl (lt_size_of_mem_children hg hy))).Walks
        (.start env.graph root .topDown true) (.start env.graph root .topDown true) :=
    .start (.inr rfl)
  exact discoverFrom_add (fun _ h => h) hwalks (Nat.le_add_right _ _) more

end Walks

/-! ## Depths -/

section Depths

variable {x : NodeId}

/-- Two compilations of one graph that may go to different depths. -/
def Copy.deepening {env : Env} (hg : env.graph.Ordered) (has : NodeId → Prop)
    (hchild : ∀ {x y}, has x → y ∈ env.graph.children x → has y)
    (hlt : ∀ x, has x → x < env.graph.size) (fault : Error → Prop)
    (hfails : ∀ {e}, e ≠ .overflow → e ≠ .inconsistent .cyclic → fault e)
    (hoverflows : ∀ {x input op shape}, has x → env.graph.node? x = some ⟨.text input op, shape⟩ →
      op.Overflows → fault .overflow) : Copy env env :=
  { Copy.itself env has hchild with
    fault := fault
    even := False
    fails := hfails
    overflows := hoverflows
    cyclic := False.elim
    size := False.elim
    ordered := fun _ => ⟨hg, hg, fun x hx => ⟨hlt x hx, hlt x hx⟩⟩ }

variable {α : Type} {g : Graph}

/-- From some depth on a search always gives the same result, and never that it was not deep
enough. -/
def Settles (search : Nat → Except Error α) (enough : Nat) : Prop :=
  ∀ depth, enough ≤ depth →
    search depth = search enough ∧ search depth ≠ .error (.inconsistent .cyclic)

/-- Searches from nodes of a graph, to any depths. -/
def Copy.searching (hg : g.Ordered) : Copy ⟨g, "", 0⟩ ⟨g, "", 0⟩ :=
  .deepening hg (· < g.size) (fun _ hy => lt_size_of_mem_children hg hy) (fun _ hx => hx)
    (· ≠ .inconsistent .cyclic) (fun _ h => h) (fun _ _ _ => nofun)

theorem Copy.searching_settles (hg : g.Ordered) {R : α → α → Prop} (hR : ∀ a b, R a b → b = a)
    {x y : Except Error α} (h : (searching hg).Agree R x y) :
    y = x ∧ y ≠ .error (.inconsistent .cyclic) := by
  cases x with
  | ok a =>
    cases y with
    | ok b => exact ⟨congrArg Except.ok (hR a b h), nofun⟩
    | error e => exact h.elim
  | error e =>
    cases y with
    | ok b => exact h.elim
    | error e' =>
      obtain rfl : e' = e := h.2.trans e.rename_self
      exact ⟨rfl, fun heq => h.1 (Except.error.inj heq)⟩

/-- A search settles if it does so on the nodes of the graph, and gives what its first step gives
where no node is. -/
theorem settles_of_reaches (hg : g.Ordered) {search : Nat → Except Error α} {r : Except Error α}
    (hreaches : ∀ depth, x < g.size → (Copy.searching hg).Reaches (g.size + 1) depth x →
      search depth = search (g.size + 1) ∧ search depth ≠ .error (.inconsistent .cyclic))
    (hstep : g.node x = .error (.inconsistent (.noNode x)) → ∀ depth, search (depth + 1) = r)
    (hr : r ≠ .error (.inconsistent .cyclic)) : Settles search (g.size + 1) := by
  intro depth hdepth
  by_cases hx : x < g.size
  · exact hreaches depth hx (.inr ⟨fun h => h, Nat.lt_succ_of_lt hx,
      Nat.lt_of_lt_of_le hx (Nat.le_of_succ_le hdepth)⟩)
  · have hnode : g.node x = .error (.inconsistent (.noNode x)) := by
      rw [Graph.node, Graph.node?_eq_none_iff.2 hx]
    obtain ⟨more, rfl⟩ := Nat.exists_eq_add_of_le hdepth
    rw [Nat.add_right_comm, hstep hnode, hstep hnode]
    exact ⟨rfl, hr⟩

theorem addressable_settles (hg : g.Ordered) (visible : Visible) (x : NodeId) :
    Settles (addressable g visible · x) (g.size + 1) := by
  refine settles_of_reaches hg (fun _ hx h => Copy.searching_settles hg (fun _ _ => Eq.symm)
    (Copy.addressable_agree (fun _ _ => rfl) hx h))
    (r := (visible.lookup x).elim (.error (.inconsistent (.noNode x))) fun _ => .ok true) ?_ ?_
  · intro hnode depth
    rw [addressable, hnode]
    cases visible.lookup x <;> rfl
  · cases visible.lookup x <;> simp

theorem columnRef_settles (hg : g.Ordered) (visible : Visible) (x : NodeId) (field : String) :
    Settles (columnRef g visible · x field) (g.size + 1) := by
  refine settles_of_reaches hg (fun _ hx h => Copy.searching_settles hg (fun _ _ => Eq.symm)
    (Copy.columnRef_agree (fun _ _ => rfl) hx h field))
    (r := (visible.lookup x).elim (.error (.inconsistent (.noNode x))) fun a => .ok (a, field))
      ?_ ?_
  · intro hnode depth
    rw [columnRef, hnode]
    cases visible.lookup x <;> rfl
  · cases visible.lookup x <;> simp

theorem lift_settles (hg : g.Ordered) (x : NodeId) : Settles (lift g · x) (g.size + 1) := by
  refine settles_of_reaches hg (fun _ hx h => Copy.searching_settles hg (fun _ _ h => h.2)
    (Copy.lift_agree hx h)) (r := .error (.inconsistent (.noNode x)))
      (fun hnode depth => ?_) (by simp)
  rw [lift, hnode]
  rfl

theorem firstCollection_settles (hg : g.Ordered) (x : NodeId) :
    Settles (g.firstCollection · x) (g.size + 1) := by
  refine settles_of_reaches hg (fun _ hx h => Copy.searching_settles hg
    (fun _ _ h => h.1.trans Option.map_id') (Copy.firstCollection_agree hx h))
    (r := .error (.inconsistent (.noNode x))) (fun hnode depth => ?_) (by simp)
  rw [Graph.firstCollection, hnode]
  rfl

end Depths

/-! ## Compilations -/

def statementUpTo (env : Env) (depth : Nat) (root : NodeId) : Compile Statement := do
  let level ← (Steps.upTo env depth).level root
  pure ⟨(← get).levels, level⟩

/-- What becomes of a root if steps may go to a given depth, and the names of user functions
afterwards. -/
def outcome (env : Env) (F : FunctionNames) (root : NodeId) (depth : Nat) :
    Except Error Statement × FunctionNames :=
  match statementUpTo env depth root (.start F) with
  | .ok s state => (.ok s, state.context.functions)
  | .error e state => (.error e, state.context.functions)

theorem outcome_forGraph (c : Compiler) (g : Graph) (root : NodeId) :
    outcome (c.env g) c.functions root (3 * g.size + 4) =
      ((c.compile g root).1, (c.compile g root).2.functions) := by
  unfold Compiler.compile outcome
  change (match statement (c.env g) root (.start c.functions) with
    | .ok s state => ((.ok s : Except Error Statement), state.context.functions)
    | .error e state => (.error e, state.context.functions)) = _
  cases statement (c.env g) root (.start c.functions) with
  | ok s state | error e state => rfl

/-- The errors of a compilation that no bound has stopped: a successor that is too large is asked
for by a node that the root reaches. -/
def Genuine (g : Graph) (root : NodeId) (e : Error) : Prop :=
  e ≠ .inconsistent .cyclic ∧ (e = .overflow →
    ∃ x input op shape, g.Reach root x ∧ g.node? x = some ⟨.text input op, shape⟩ ∧ op.Overflows)

def Copy.compiling {env : Env} (hg : env.graph.Ordered) {root : NodeId}
    (hroot : root < env.graph.size) : Copy env env :=
  .deepening hg (env.graph.Reach root) (@reach_child env root)
    (fun _ hx => Nat.lt_of_le_of_lt (hg.reach hx) hroot) (Genuine env.graph root)
    (fun he he' => ⟨he', fun h => absurd h he⟩)
    (fun hx hn hop => ⟨nofun, fun _ => ⟨_, _, _, _, hx, hn, hop⟩⟩)

theorem outcome_missing {env : Env} {root : NodeId} (h : ¬ root < env.graph.size)
    (F : FunctionNames) (depth : Nat) :
    outcome env F root (depth + 1) = (.error (.inconsistent (.noNode root)), F) := by
  have hstatement : statementUpTo env (depth + 1) root (.start F) =
      .error (.inconsistent (.noNode root)) (.start F) := by
    show EStateM.bind ((Steps.upTo env (depth + 1)).level root) _ _ = _
    rw [EStateM.bind, level_missing (Graph.node?_eq_none_iff.2 h)]
  rw [outcome, hstatement]
  rfl

theorem outcome_settles (env : Env) (hg : env.graph.Ordered) (F : FunctionNames) (root : NodeId)
    {depth : Nat} (hdepth : 3 * env.graph.size + 4 ≤ depth) :
    outcome env F root depth = outcome env F root (3 * env.graph.size + 4) ∧
      ∀ e, (outcome env F root depth).1 = .error e → Genuine env.graph root e := by
  by_cases hroot : root < env.graph.size
  · have hdeep : 3 * root + 3 ≤ depth := by lia
    have hdeep' : 3 * root + 3 ≤ 3 * env.graph.size + 4 := by lia
    have hgoes : Both (statementUpTo env (3 * env.graph.size + 4) root)
        (statementUpTo env depth root) _ _ _ _ :=
      Copy.statement_goes (c := .compiling hg hroot) (F := F) .refl
        (.inr ⟨fun h => h, hdeep', hdeep⟩) _ _ (.start rfl) .refl
    unfold Both at hgoes
    unfold outcome
    cases hm : statementUpTo env (3 * env.graph.size + 4) root (.start F) with
    | ok s t =>
      cases hm' : statementUpTo env depth root (.start F) with
      | ok s' t' =>
        rw [hm, hm'] at hgoes
        obtain ⟨ht, -, rfl, -⟩ := hgoes
        exact ⟨congrArg (Prod.mk _) ht.names, nofun⟩
      | error e' t' =>
        rw [hm, hm'] at hgoes
        exact hgoes.elim
    | error e t =>
      cases hm' : statementUpTo env depth root (.start F) with
      | ok s' t' =>
        rw [hm, hm'] at hgoes
        exact hgoes.elim
      | error e' t' =>
        rw [hm, hm'] at hgoes
        obtain ⟨⟨hgenuine, he⟩, -, hnames⟩ := hgoes
        obtain rfl : e' = e := he.trans e.rename_self
        refine ⟨congrArg (Prod.mk _) hnames, fun e he => ?_⟩
        cases he
        exact hgenuine
  · obtain ⟨more, rfl⟩ := Nat.exists_eq_add_of_le hdepth
    rw [Nat.add_right_comm _ 4 more, outcome_missing hroot, outcome_missing hroot]
    refine ⟨rfl, fun e he => ?_⟩
    cases he
    exact ⟨nofun, nofun⟩

/-- Every valid plan is compiled to a statement or to an error, and no bound matters to it. A
greater depth of steps changes nothing, and neither does a greater depth of a search or a longer
walk. The buckets of a cut are made only from places of bins that are there. The one thing that
cannot be computed is the successor of the largest offset into a text, where the plan asks for
it. -/
theorem compile_total {g : Graph} (hg : g.validate = .ok ()) (c : Compiler) (root : NodeId) :
    (∀ e, (c.compile g root).1 = .error e → Genuine g root e) ∧
    (∀ depth, 3 * g.size + 4 ≤ depth → outcome (c.env g) c.functions root depth =
      ((c.compile g root).1, (c.compile g root).2.functions)) ∧
    (∀ visible x, Settles (addressable g visible · x) (g.size + 1) ∧
      (∀ field, Settles (columnRef g visible · x field) (g.size + 1)) ∧
      Settles (lift g · x) (g.size + 1) ∧ Settles (g.firstCollection · x) (g.size + 1)) ∧
    (∀ depth x count, g.size + 1 ≤ count →
      discoverFrom (c.env g) (Steps.upTo (c.env g) depth) count (.start g x .topDown true) =
        discover (c.env g) (Steps.upTo (c.env g) depth) x) ∧
    ∀ p id input cut,
      (cut.bins.length < 2 → elementExpr g p id (.cut input cut) =
      .error (.inconsistent .fewBins)) ∧ (2 ≤ cut.bins.length →
        ∀ x, Cut.conditionsAt? cut x = some (Cut.conditions cut x)) := by
  have hord := Graph.ordered_of_validate hg
  have hforGraph := outcome_forGraph c g root
  have hsettles : ∀ {depth}, 3 * g.size + 4 ≤ depth →
      outcome (c.env g) c.functions root depth =
        outcome (c.env g) c.functions root (3 * g.size + 4) ∧
      ∀ e, (outcome (c.env g) c.functions root depth).1 = .error e → Genuine g root e :=
    outcome_settles (c.env g) hord c.functions root
  refine ⟨fun e he => ?_, fun depth hdepth => ?_, fun visible x => ?_,
    fun depth x count hcount => ?_, fun p id input cut =>
      ⟨fun hfew => ?_, fun htwo x => Cut.conditionsAt?_eq cut x htwo⟩⟩
  · have hresult : (outcome (c.env g) c.functions root (3 * g.size + 4)).1 = .error e :=
      (congrArg Prod.fst hforGraph).trans he
    exact (hsettles (Nat.le_refl _)).2 e hresult
  · rw [← hforGraph]
    exact (hsettles hdepth).1
  · exact ⟨addressable_settles hord visible x, columnRef_settles hord visible x,
      lift_settles hord x, firstCollection_settles hord x⟩
  · exact discoverFrom_eq hord x hcount
  · show (if cut.bins.length < 2 then _ else _) = _
    rw [if_pos hfew]
    rfl

/-- The last letters of texts, by an offset that has no successor. -/
def farLetters : List Call :=
  [.source "" "a" [⟨"s", .string⟩], .column 0 "s", .text 1 (.get .maxValue), .project 0 [2]]

/-- The offset is reported as an overflow. -/
theorem compile_total_farLetters :
    (Call.run farLetters).validate = .ok () ∧
    ((Compiler.new .default).compile (Call.run farLetters) 3).1 = .error .overflow ∧
    ∃ x input op shape, (Call.run farLetters).Reach 3 x ∧
      (Call.run farLetters).node? x = some ⟨.text input op, shape⟩ ∧ op.Overflows := by
  have hvalid : (Call.run farLetters).validate = .ok () := by decide +kernel
  have hresult : ((Compiler.new .default).compile (Call.run farLetters) 3).1 =
    .error .overflow := by
    have hmapped : ((Compiler.new .default).compile (Call.run farLetters) 3).1.map (fun _ => ()) =
        .error .overflow := by decide +kernel
    cases h : ((Compiler.new .default).compile (Call.run farLetters) 3).1 with
    | ok s =>
      rw [h] at hmapped
      cases hmapped
    | error e =>
      rw [h] at hmapped
      exact congrArg Except.error (Except.error.inj hmapped)
  obtain ⟨hgenuine, -⟩ := compile_total hvalid (.new .default) 3
  exact ⟨hvalid, hresult, (hgenuine .overflow hresult).2 rfl⟩

end PlanSql.Compile

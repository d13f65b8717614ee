import PlanSql.Proofs.Copies.Levels

/-!
# Statements of copied roots

Two compilers with the same options and the same names of user functions compile a root and its copy
to the same statement. So neither the numbers of nodes nor nodes that the root does not reach
matter.
-/

namespace PlanSql

variable {g : Graph} {x : NodeId}

theorem Graph.ordered_of_validate (h : g.validate = .ok ()) : g.Ordered := by
  intro x y hy
  rw [Graph.children] at hy
  cases hn : g.node? x with
  | none =>
    rw [hn] at hy
    cases hy
  | some n =>
    rw [hn] at hy
    obtain ⟨o, ho, rfl⟩ := List.mem_map.1 hy
    exact (checkNode_eq_ok_iff.1 (validate_eq_ok_iff.1 h x n hn)).1 o ho

theorem Graph.node?_eq_none_iff : g.node? x = none ↔ ¬ x < g.size := by
  rw [Graph.node?, Array.getElem?_eq_none_iff, Graph.size, Nat.not_lt]

theorem Graph.Copied.lt_size {g' : Graph} {ids : NodeId → NodeId} (h : g.Copied g' ids x)
    (hx : x < g.size) : ids x < g'.size := by
  obtain ⟨functions, hnode, -⟩ := h
  by_contra hge
  rw [node?_eq_none_iff.2 hge, eq_comm, Option.map_eq_none_iff, node?_eq_none_iff] at hnode
  exact hnode hx

namespace Compile

open PlanSql.Sql PlanSql.Reading

variable {root : NodeId} {env : Env}

namespace Copy

theorem reach_child (env : Env) (root : NodeId) {x y : NodeId} (hx : env.graph.Reach root x)
    (hy : y ∈ env.graph.children x) : env.graph.Reach root y := .step hx hy

/-- Two compilations of one graph that differ in nothing. -/
def itself (env : Env) (has : NodeId → Prop)
    (hchild : ∀ {x y}, has x → y ∈ env.graph.children x → has y) : Copy env env where
  map := fun x => x
  has := has
  names := fun F F' => F' = F
  fault := fun _ => True
  even := True
  stem := rfl
  sortLimit := rfl
  inj := fun _ _ h => h
  child := hchild
  copied := fun {x} _ => Graph.copied_of_eq rfl fun _ _ _ _ => rfl
  find := by
    rintro F F' x input function shape f rfl - - -
    rfl
  register := by
    rintro F F' x input function shape f rfl - - -
    exact ⟨rfl, rfl⟩
  fails := fun _ _ => trivial
  overflows := fun _ _ _ => trivial
  cyclic := fun _ => trivial
  size := fun _ => rfl
  ordered := fun h => absurd trivial h

variable {env env' : Env} {c : Copy env env'} {F F' : FunctionNames} {root : NodeId}

/-- The steps for a whole graph go deep enough. -/
theorem within_forGraph (hroot : c.has root) :
    c.Within (3 * env.graph.size + 4) (3 * env'.graph.size + 4) 3 root := by
  by_cases heven : c.even
  · exact .inl ⟨heven, by rw [c.size heven]⟩
  · obtain ⟨-, -, hlt⟩ := c.ordered heven
    have := hlt root hroot
    exact .inr ⟨heven, by lia, by lia⟩

theorem statement_goes {depth depth' : Nat} (hroot : c.has root)
    (hdeep : c.Within depth depth' 3 root) :
    c.Goes F
      (do
        let level ← (Steps.upTo env depth).level root
        pure (⟨(← get).levels, level⟩ : Statement))
      (do
        let level ← (Steps.upTo env' depth').level (c.map root)
        pure (⟨(← get).levels, level⟩ : Statement)) fun F' s s' =>
          s' = s ∧ ∀ e ∈ statementExprs s, Known F' e := by
  refine ((tandem c depth depth').level hroot hdeep).equal fun F₁ level _ => ?_
  refine .get fun s s' hs _ => ⟨hs, .refl, by rw [hs.levels], fun e he => ?_⟩
  obtain ⟨q, hq, he⟩ := List.mem_flatMap.1 he
  exact hs.informed.levels q (Array.mem_toList_iff.1 hq) e he

end Copy

/-- What two compilers make of a root and of its copy. -/
structure Alike {c c' : Compiler} {g g' : Graph} (copy : Copy (c.env g) (c'.env g'))
    (r r' : Except Error Statement × Compiler) : Prop where
  result : copy.Agree Eq r.1 r'.1
  names : copy.names r.2.functions r'.2.functions
  grows : c.functions.Grows c.options.functionStem r.2.functions
  calls : ∀ s, r.1 = .ok s → ∀ e ∈ statementExprs s, Known r.2.functions e

theorem compile_alike (c c' : Compiler) {g' : Graph} (copy : Copy (c.env g) (c'.env g'))
    (hroot : copy.has root) (hnames : copy.names c.functions c'.functions) :
    Alike copy (c.compile g root) (c'.compile g' (copy.map root)) := by
  have hboth := Copy.statement_goes (F := c.functions) hroot (Copy.within_forGraph hroot) _ _
    (.start hnames) .refl
  change Both (statement (c.env g) root) (statement (c'.env g') (copy.map root)) _ _ _ _ at hboth
  unfold Both at hboth
  unfold Compiler.compile
  cases hm : statement (c.env g) root (.start c.functions) with
  | ok s t =>
    cases hm' : statement (c'.env g') (copy.map root) (.start c'.functions) with
    | ok s' t' =>
      rw [hm, hm'] at hboth
      obtain ⟨ht, hgrows, rfl, hknown⟩ := hboth
      refine ⟨rfl, ht.names, hgrows, fun s hs => ?_⟩
      cases hs
      exact hknown
    | error e' t' =>
      rw [hm, hm'] at hboth
      exact hboth.elim
  | error e t =>
    cases hm' : statement (c'.env g') (copy.map root) (.start c'.functions) with
    | ok s' t' =>
      rw [hm, hm'] at hboth
      exact hboth.elim
    | error e' t' =>
      rw [hm, hm'] at hboth
      obtain ⟨hfault, hgrows, hnames'⟩ := hboth
      exact ⟨hfault, hnames', hgrows, nofun⟩

/-- Nothing can be compiled ahead of a node that is not there. -/
theorem discover_missing (h : env.graph.node? root = none) (steps : Steps) {s : State}
    (hs : isAhead s root = false) :
    discover env steps root s = .error (.inconsistent (.noNode root)) s := by
  have hnode : ∀ w, discoverNode env steps root w s = .error (.inconsistent (.noNode root)) s := by
    intro w
    have hfails : check (env.graph.node root) s = .error (.inconsistent (.noNode root)) s := by
      rw [Graph.node, h]
      rfl
    show (if isAhead s root then _ else _ : Compile Walk) s = _
    rw [hs, if_neg Bool.false_ne_true]
    show EStateM.bind (check (env.graph.node root)) _ s = _
    rw [EStateM.bind, hfails]
  show EStateM.bind (discoverNode env steps root _) _ s = _
  rw [EStateM.bind, hnode]

theorem level_missing (h : env.graph.node? root = none) (depth : Nat) (F : FunctionNames) :
    (Steps.upTo env (depth + 1)).level root (.start F) =
      .error (.inconsistent (.noNode root)) (.start F) := by
  show EStateM.bind (discover env (Steps.upTo env depth) root) _ (.start F) = _
  rw [EStateM.bind, discover_missing h _ rfl]

theorem compile_missing (h : g.node? root = none) (c : Compiler) :
    c.compile g root =
      (.error (.inconsistent (.noNode root)), { c with context := c.context.reset }) := by
  have hstatement : statement (c.env g) root (.start c.functions) =
      .error (.inconsistent (.noNode root)) (.start c.functions) := by
    show EStateM.bind ((Steps.upTo (c.env g) (3 * g.size + 3 + 1)).level root) _ _ = _
    rw [EStateM.bind, level_missing h]
  rw [Compiler.compile, hstatement]
  rfl

/-! ## Renumbering -/

section Renumbering

variable {c c' : Compiler} {g g' : Graph} {root : NodeId} {ids : NodeId → NodeId}

/-- What is below the root, under other ids. -/
def Copy.renumbering (hoptions : c'.options = c.options) (hg : g.validate = .ok ())
    (hg' : g'.validate = .ok ()) (hroot : root < g.size)
    (hinj : ∀ x y, g.Reach root x → g.Reach root y → ids x = ids y → x = y)
    (hcopy : ∀ x, g.Reach root x → g.Copied g' ids x) : Copy (c.env g) (c'.env g') where
  map := ids
  has := g.Reach root
  names := fun F F' => F' = F
  fault := fun _ => True
  even := False
  stem := by rw [Compiler.env, Compiler.env, hoptions]
  sortLimit := by rw [Compiler.env, Compiler.env, hoptions]
  inj := fun {x y} hx hy heq => hinj x y hx hy heq
  child := fun hx hy => .step hx hy
  copied := fun {x} hx => hcopy x hx
  find := by
    rintro F F' x input function shape f rfl - - -
    rfl
  register := by
    rintro F F' x input function shape f rfl - - -
    exact ⟨rfl, rfl⟩
  fails := fun _ _ => trivial
  overflows := fun _ _ _ => trivial
  cyclic := False.elim
  size := False.elim
  ordered := by
    intro _
    have hord := Graph.ordered_of_validate hg
    refine ⟨hord, Graph.ordered_of_validate hg', fun x hx => ?_⟩
    have hlt : x < g.size := Nat.lt_of_le_of_lt (hord.reach hx) hroot
    exact ⟨hlt, (hcopy x hx).lt_size hlt⟩

variable (hoptions : c'.options = c.options) (hnames : c'.functions = c.functions)
  (hg : g.validate = .ok ()) (hg' : g'.validate = .ok ())
  (hinj : ∀ x y, g.Reach root x → g.Reach root y → ids x = ids y → x = y)
  (hcopy : ∀ x, g.Reach root x → g.Copied g' ids x)

include hoptions hnames hg hg' hinj hcopy

/-- A statement depends on nodes, not on their ids. -/
theorem compile_renumbering :
    (c'.compile g' (ids root)).1 = (c.compile g root).1.mapError (Error.rename ids) ∧
      (c'.compile g' (ids root)).2.functions = (c.compile g root).2.functions := by
  by_cases hroot : root < g.size
  · have halike := compile_alike c c'
      (Copy.renumbering hoptions hg hg' hroot hinj hcopy) .refl hnames
    exact ⟨halike.result.eq_mapError, halike.names⟩
  · have hmissing := Graph.node?_eq_none_iff.2 hroot
    have hmissing' : g'.node? (ids root) = none := by
      obtain ⟨functions, hnode, -⟩ := hcopy root .refl
      rw [hnode, hmissing]
      rfl
    rw [compile_missing hmissing, compile_missing hmissing']
    exact ⟨rfl, hnames⟩

theorem compileText_renumbering :
    (c'.compileText g' (ids root)).1 = (c.compileText g root).1.mapError (Error.rename ids) ∧
      (c'.compileText g' (ids root)).2.functions = (c.compileText g root).2.functions := by
  obtain ⟨hresult, hfunctions⟩ := compile_renumbering hoptions hnames hg hg' hinj hcopy
  refine ⟨?_, hfunctions⟩
  show (c'.compile g' (ids root)).1.map (Statement.text c'.options.layout) =
    ((c.compile g root).1.map (Statement.text c.options.layout)).mapError (Error.rename ids)
  rw [hresult, hoptions]
  cases (c.compile g root).1 with
  | ok s | error e => rfl

end Renumbering

/-- Neither the ids of the nodes that a root reaches nor other nodes matter to its statement and to
the names that its functions are given. Errors name nodes by their ids, and are the same otherwise.
In particular, nodes that are appended to a graph do not matter to the roots that it has. -/
theorem compileText_invariant {c c' : Compiler} {g g' : Graph} {root : NodeId}
    {ids : NodeId → NodeId} (hoptions : c'.options = c.options)
    (hnames : c'.functions = c.functions)
    (hg : g.validate = .ok ()) (hg' : g'.validate = .ok ())
    (hinj : ∀ x y, g.Reach root x → g.Reach root y → ids x = ids y → x = y)
    (hcopy : ∀ x, g.Reach root x → g.Copied g' ids x) :
    (∀ text, (c.compileText g root).1 = .ok text ↔ (c'.compileText g' (ids root)).1 = .ok text) ∧
    (∀ e, (c.compileText g root).1 = .error e →
      (c'.compileText g' (ids root)).1 = .error (e.rename ids)) ∧
    (c'.compileText g' (ids root)).2.functions = (c.compileText g root).2.functions ∧
    ∀ nodes functions, Graph.validate ⟨g.nodes ++ nodes, g.functions ++ functions⟩ = .ok () →
      root < g.size →
      (∀ x input k shape, g.Reach root x → g.node? x = some ⟨.userMap input k, shape⟩ →
        k < g.functions.size ∨ functions = #[]) →
      (c.compileText ⟨g.nodes ++ nodes, g.functions ++ functions⟩ root).1 =
        (c.compileText g root).1 ∧
      (c.compileText ⟨g.nodes ++ nodes, g.functions ++ functions⟩ root).2.functions =
        (c.compileText g root).2.functions := by
  obtain ⟨hresult, hfunctions⟩ := compileText_renumbering hoptions hnames hg hg' hinj hcopy
  refine ⟨fun text => ?_, fun e he => ?_, hfunctions, fun nodes functions hvalid hroot hknown => ?_⟩
  · rw [hresult]
    cases (c.compileText g root).1 with
    | ok t => exact .rfl
    | error e => exact ⟨nofun, nofun⟩
  · rw [hresult, he]
    rfl
  · have happended : ∀ x, g.Reach root x →
        g.Copied ⟨g.nodes ++ nodes, g.functions ++ functions⟩ (fun x => x) x := by
      intro x hx
      have hlt : x < g.size :=
        Nat.lt_of_le_of_lt ((Graph.ordered_of_validate hg).reach hx) hroot
      refine Graph.copied_of_eq (Array.getElem?_append_left hlt) fun input k shape hn => ?_
      rcases hknown x input k shape hx hn with hk | rfl
      · rw [Graph.function, Graph.function, Array.getElem?_append_left hk]
      · rw [Array.append_empty]
        rfl
    have hself := compileText_renumbering (Eq.refl c.options) rfl hg hvalid (fun _ _ _ _ h => h)
      happended
    exact ⟨hself.1.trans (Error.mapError_rename_self _), hself.2⟩

/-- Rows with a value of a user function. -/
def taggedRows : List Call :=
  [.source "" "a" [⟨"id", .int64⟩], .column 0 "id", .map 1 "tag" .string, .project 0 [2]]

/-- The same rows after those of another table, to which another user function is applied. -/
def taggedLater : List Call :=
  [.source "" "b" [⟨"x", .int64⟩], .column 0 "x", .map 1 "mark" .string,
    .source "" "a" [⟨"id", .int64⟩], .column 3 "id", .map 4 "tag" .string, .project 3 [5]]

/-- The rows have the same text in both graphs. -/
theorem compileText_invariant_taggedRows :
    (Call.run taggedRows).validate = .ok () ∧ (Call.run taggedLater).validate = .ok () ∧
    (∀ x, (Call.run taggedRows).Reach 3 x →
      (Call.run taggedRows).Copied (Call.run taggedLater) (· + 3) x) ∧
    ∃ text, ((Compiler.new .default).compileText (Call.run taggedRows) 3).1 = .ok text ∧
      ((Compiler.new .default).compileText (Call.run taggedLater) 6).1 = .ok text := by
  have hg : (Call.run taggedRows).validate = .ok () := by decide +kernel
  have hg' : (Call.run taggedLater).validate = .ok () := by decide +kernel
  have hnodes : ∀ x ∈ List.range 4, (Call.run taggedLater).node? (x + 3) =
      ((Call.run taggedRows).node? x).map (Node.rename (· + 3) fun _ => 1) := by decide +kernel
  have huses : ∀ n ∈ (Call.run taggedRows).nodes, n.rename (fun x => x) (fun _ => 0) = n := by
    decide +kernel
  have hsame : (Call.run taggedLater).function 1 = (Call.run taggedRows).function 0 := by
    decide +kernel
  have hcopy : ∀ x, (Call.run taggedRows).Reach 3 x →
      (Call.run taggedRows).Copied (Call.run taggedLater) (· + 3) x := by
    intro x hx
    have hle := (Graph.ordered_of_validate hg).reach hx
    refine ⟨fun _ => 1, hnodes x (List.mem_range.2 (Nat.lt_succ_of_le hle)), ?_⟩
    intro input function shape hn
    have hfunction := huses _ (Array.mem_of_getElem? hn)
    simp only [Node.rename, Kind.rename, Node.mk.injEq, Kind.userMap.injEq] at hfunction
    rw [← hfunction.1.2]
    exact hsame
  have hinvariant := compileText_invariant (c := .new .default) rfl rfl hg hg'
    (fun _ _ _ _ h => Nat.add_right_cancel h) hcopy
  have hok : ((Compiler.new .default).compileText (Call.run taggedRows) 3).1.toOption.isSome := by
    decide +kernel
  cases htext : ((Compiler.new .default).compileText (Call.run taggedRows) 3).1 with
  | error e =>
    rw [htext] at hok
    cases hok
  | ok text => exact ⟨hg, hg', hcopy, text, rfl, (hinvariant.1 text).1 htext⟩

end Compile

end PlanSql

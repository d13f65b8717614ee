import PlanSql.Proofs.Joins.Texts

/-!
# Trees of joins in statements

The statement of a join shows the tree of joins that the graph has there: its `FROM` clause is
written from a tree of the same shape, with the same kinds and with conditions at the same joins.
Statements with the same tokens come from the same tree, if the tree can be told from what is
written at all.
-/

namespace PlanSql

open Text Sql Compile

variable {g : Graph} {t : JoinTree NodeId NodeId}

/-! ## Trees of table expressions -/

namespace Sql

/-- The tree of a table expression, with something for its leaves and conditions. -/
def Source.treeOf {α π : Type} (leaf : Source → α) (condition : Expr → π) : Source → JoinTree α π
  | .join left how right on =>
    .join (left.treeOf leaf condition) how (right.treeOf leaf condition) (on.map condition)
  | source => .leaf (leaf source)

/-- The tree of a table expression without its leaves and conditions. -/
def Source.outline : Source → JoinTree Unit Unit := Source.treeOf (fun _ => ()) fun _ => ()

/-- The tree of a table expression with the tokens of its leaves and conditions. -/
def Source.tree (f : LevelId → String) : Source → JoinTree (List String) (List String) :=
  Source.treeOf (fun source => tokens (source.text .flat f)) fun e => tokens (e.text .flat f)

theorem Source.shape_treeOf {α π : Type} (leaf : Source → α) (condition : Expr → π) (s : Source) :
    (s.treeOf leaf condition).shape = s.outline := by
  induction s with
  | table stored label | derived level label | union left right label => rfl
  | join left how right on ihl ihr =>
    rw [outline, treeOf, treeOf, JoinTree.shape, ihl, ihr, Option.map_map]
    rfl

section Tokens

variable {f : LevelId → String} {source : Source}

/-- The tokens of texts with a blank between them. -/
theorem tokens_gap {a b : String} (ha : Closes .outside a.toList) :
    tokens (a ++ " " ++ b) = tokens a ++ tokens b := by
  rw [tokens, String.toList_append, String.toList_append, List.append_assoc, marks_append ha]
  rw [show marks .outside (" ".toList ++ b.toList) = none :: marks .outside b.toList from rfl,
    words_gap, List.map_append]
  rfl

theorem tokens_source (hf : ∀ l, NestedText (f l)) (h : source.Each steadyFacts) :
    tokens (source.text .flat f) = (source.tree f).words := by
  have hmatch : ∀ l, Matching (f l) (f l) := fun l => (hf l).matching
  induction source with
  | table stored label | derived level label | union left right label =>
    rw [Source.tree, Source.treeOf, JoinTree.words, JoinTree.first,
      JoinTree.items, List.flatMap_nil, List.append_nil]
    simp
  | join left how right on ihl ihr =>
    have hleft := Source.Steady.of_each h.1 .flat f f hmatch
    have hright := Source.Steady.of_each h.2.1 .flat f f hmatch
    have hkind : Bare (how.sqlName ++ " JOIN") := by cases how <;> decide
    have hwords : tokens (how.sqlName ++ " JOIN") = how.words := by cases how <;> decide
    -- line breaks and indentation are blanks
    have hindented := alike_indentLines Layout.flat.eq_of_mem_pad hright.left hright.solidLeft
    have hsides := ((hleft.toAlike.append alike_break).append (alike_of_bare hkind)).append
      hindented
    have hflat := (hleft.toAlike.append (alike_of_bare (s := " ") (by decide))).append
      (alike_of_bare hkind)
    have htokens : tokens (left.text .flat f ++ "\n" ++ (how.sqlName ++ " JOIN") ++
        ("\n" ++ indentLines Layout.flat.pad (right.text .flat f))) =
        (left.tree f).words ++ how.words ++ (right.tree f).words := by
      rw [hsides.tokens, ← String.append_assoc, tokens_gap hflat.left,
        tokens_gap hleft.left, ihl h.1, ihr h.2.1, hwords]
    have hjoin : " JOIN\n" = " JOIN" ++ "\n" := by decide
    cases on with
    | none =>
      have htext : (Source.join left how right none).text .flat f = left.text .flat f ++ "\n" ++
          (how.sqlName ++ " JOIN") ++ ("\n" ++
            indentLines Layout.flat.pad (right.text .flat f)) := by
        rw [Source.text, hjoin, String.append_empty]
        simp only [String.append_assoc]
      rw [htext, htokens]
      exact ((JoinTree.words_join how none).trans (List.append_nil _)).symm
    | some e =>
      have hcond : Whole (e.text .flat f) (e.text .flat f) := h.2.2 e rfl .flat f f hmatch
      have hon : Alike ("\nON " ++ e.text .flat f) (" " ++ ("ON" ++ " " ++ e.text .flat f)) := by
        have hbreak := (alike_break.append (alike_of_bare (s := "ON ") (by decide))).append
          hcond.toAlike
        rwa [show "\n" ++ "ON " = "\nON " by decide, String.append_assoc] at hbreak
      have htext : (Source.join left how right (some e)).text .flat f = left.text .flat f ++ "\n" ++
          (how.sqlName ++ " JOIN") ++ ("\n" ++ indentLines Layout.flat.pad (right.text .flat f)) ++
          ("\nON " ++ e.text .flat f) := by
        rw [Source.text, hjoin]
        simp only [String.append_assoc]
      rw [htext, ((Alike.refl hsides.left).append hon).tokens, ← String.append_assoc,
        tokens_gap hsides.left, tokens_gap (closes_of_bare (by decide : Bare "ON")), htokens]
      exact (JoinTree.words_join how (some (tokens (e.text .flat f)))).symm

theorem calm_tree (hf : ∀ l, NestedText (f l)) (hfacts : source.Each calmFacts) :
    (source.tree f).Calm := by
  induction source with
  | table stored label | derived level label | union left right label =>
    have hcalm := calm_source hf hfacts nofun
    rw [Source.tree, Source.treeOf, JoinTree.Calm]
    · exact hcalm.tokens
    · exact nofun
  | join left how right on ihl ihr =>
    refine ⟨ihl hfacts.1, ihr hfacts.2.1, fun p hp => ?_⟩
    obtain ⟨e, he, rfl⟩ := Option.mem_map.1 hp
    exact (hfacts.2.2 e he f hf).tokens

end Tokens

end Sql

/-! ## Trees of a graph -/

/-- The tree of joins at a collection; what is no join is a leaf. -/
inductive Graph.Joins (g : Graph) : NodeId → JoinTree NodeId NodeId → Prop
  | leaf {id : NodeId} {n : Node} : g.node? id = some n →
    (∀ left right predicate how fields, n.kind ≠ .join left right predicate how fields) →
    Joins g id (.leaf id)
  | join {id left right : NodeId} {predicate : Option NodeId} {how : JoinKind}
    {fields : List JoinField} {shape : Shape} {l r : JoinTree NodeId NodeId} :
    g.node? id = some ⟨.join left right predicate how fields, shape⟩ → Joins g left l →
    Joins g right r → Joins g id (.join l how r predicate)

theorem Graph.Joins.unique {id : NodeId} {t' : JoinTree NodeId NodeId} (h : g.Joins id t)
    (h' : g.Joins id t') : t = t' := by
  induction h generalizing t' with
  | leaf hn hk =>
    cases h' with
    | leaf _ _ => rfl
    | join hn' _ _ =>
      rw [hn] at hn'
      cases hn'
      exact absurd rfl (hk _ _ _ _ _)
  | join hn _ _ ihl ihr =>
    cases h' with
    | leaf hn' hk =>
      rw [hn] at hn'
      cases hn'
      exact absurd rfl (hk _ _ _ _ _)
    | join hn' hl hr =>
      rw [hn] at hn'
      cases hn'
      rw [ihl hl, ihr hr]

/-- The tree of joins at a collection, if it is not deeper than `depth`. -/
def Graph.joinTree? (g : Graph) : Nat → NodeId → Option (JoinTree NodeId NodeId)
  | 0, _ => none
  | depth + 1, id =>
    match g.node? id with
    | some ⟨.join left right predicate how _, _⟩ => do
      let l ← g.joinTree? depth left
      let r ← g.joinTree? depth right
      some (.join l how r predicate)
    | some _ => some (.leaf id)
    | none => none

theorem Graph.joins_of_joinTree? {d : Nat} {i : NodeId} (h : g.joinTree? d i = some t) :
    g.Joins i t := by
  induction d generalizing i t with
  | zero => cases h
  | succ d ih =>
    unfold joinTree? at h
    split at h
    · next hn =>
      obtain ⟨l, hl, h⟩ := Option.bind_eq_some_iff.1 h
      obtain ⟨r, hr, h⟩ := Option.bind_eq_some_iff.1 h
      cases h
      exact .join hn (ih hl) (ih hr)
    · next n hjoin hn =>
      cases h
      refine .leaf hn ?_
      intro left right predicate how fields hk
      exact hjoin left right predicate how fields n.shape (by rw [← hk])
    · cases h

namespace Compile

variable {env : Env} {top : NodeId} {s s' : State} {g : Graph} {id : NodeId}
variable {ahead : JoinAhead} {predicate : Option NodeId}

/-- A table expression has the shape of the tree at a collection. -/
def Spells (g : Graph) (id : NodeId) (source : Source) : Prop :=
  ∃ t, g.Joins id t ∧ source.outline = t.shape

/-- A join that is kept has the shape of the tree at it, with its condition apart. -/
def JoinAhead.Spells (g : Graph) (id : NodeId) (ahead : JoinAhead) : Prop :=
  ∃ left how right, ahead.source = .join left how right none ∧
    Compile.Spells g id (.join left how right ahead.on)

theorem JoinAhead.Spells.asSide (h : ahead.Spells g id) :
    Compile.Spells g id ahead.asSide := by
  obtain ⟨left, how, right, hsource, hspells⟩ := h
  rw [JoinAhead.asSide, hsource]
  exact hspells

/-- All that is kept has the shape of the tree at its collection. -/
structure KeptShapes (g : Graph) (s : State) : Prop where
  joins : ∀ x ∈ s.joins, x.2.Spells g x.1
  unions : ∀ x ∈ s.unions, x.2.1.outline = .leaf ()

/-- What a job finds has the shape of the tree at its collection. -/
def Job.Spelled (g : Graph) : Job → Prop
  | .side id source _ => Spells g id source
  | .join id ahead => ahead.Spells g id
  | .union _ ahead => ahead.1.outline = .leaf ()
  | _ => True

theorem KeptShapes.congr (h : KeptShapes g s) (hj : s'.joins = s.joins)
    (hu : s'.unions = s.unions) : KeptShapes g s' := ⟨hj ▸ h.joins, hu ▸ h.unions⟩

theorem KeptShapes.prepared {input : NodeId} {clause : Clause} {reads : Bool}
    (h : KeptShapes env.graph s) (hprep : Prepared env input clause reads s s') :
    KeptShapes env.graph s' := by
  cases hprep with
  | same _ _ => exact h
  | wrapped _ _ _ _ => exact h.congr rfl rfl

theorem KeptShapes.keepJoin (h : KeptShapes g s) (ha : ahead.Spells g id) :
    KeptShapes g { s with joins := (id, ahead) :: s.joins } :=
  ⟨List.forall_mem_cons.2 ⟨ha, h.joins⟩, h.unions⟩

theorem JoinAhead.Spells.join {left right : NodeId} {how : JoinKind} {fields : List JoinField}
    {schema : Schema} {l r : Source} {on : Option Expr}
    (hn : g.node? id = some ⟨.join left right predicate how fields, .collection schema⟩)
    (hl : Compile.Spells g left l) (hr : Compile.Spells g right r)
    (hon : on.map (fun _ => ()) = predicate.map fun _ => ()) (visible : Visible) :
    (⟨.join l how r none, on, visible⟩ : JoinAhead).Spells g id := by
  obtain ⟨lt, hlt, hlshape⟩ := hl
  obtain ⟨rt, hrt, hrshape⟩ := hr
  refine ⟨l, how, r, rfl, .join lt how rt predicate, .join hn hlt hrt, ?_⟩
  rw [JoinTree.shape, ← hlshape, ← hrshape, ← hon]
  rfl

/-- A condition is compiled exactly for a join that has one. -/
theorem Runs.map_condition {es : List Expr} (h : Runs env top (.values predicate.toList es) s s') :
    es.head?.map (fun _ => ()) = predicate.map fun _ => () := by
  cases predicate <;> cases h <;> rfl

theorem Runs.spells {job : Job} (h : Runs env top job s s') :
    KeptShapes env.graph s → KeptShapes env.graph s' ∧ job.Spelled env.graph := by
  induction h with
  | visited | noOperands | noValues | noKeys | noItems | provideNothing | discovered
  | subqueryKept => exact fun hs => ⟨hs, trivial⟩
  | cached | source | provideFunction => exact fun hs => ⟨hs.congr rfl rfl, trivial⟩
  | selection _ _ _ _ _ ih => exact fun hs => ⟨(ih hs).1.congr rfl rfl, trivial⟩
  | filter _ _ _ _ hprep _ _ _ _ ih ih' | sort _ _ _ _ hprep _ _ ih ih'
  | select _ hprep _ _ ih ih' =>
    exact fun hs => ⟨(ih' ((ih hs).1.prepared hprep)).1.congr rfl rfl, trivial⟩
  | groupBy _ _ _ _ hprep _ _ _ _ _ _ ih ih' ih'' ihp =>
    intro hs
    have hitems := (ih'' (ih' ((ih hs).1.prepared hprep)).1).1
    exact ⟨(ihp (hitems.congr rfl rfl)).1.congr rfl rfl, trivial⟩
  | slice _ _ _ _ _ hprep _ ih =>
    exact fun hs => ⟨((ih hs).1.prepared hprep).congr rfl rfl, trivial⟩
  | joined _ _ _ _ _ _ ih | united _ _ _ _ _ ih =>
    exact fun hs => ⟨(ih hs).1.congr rfl rfl, trivial⟩
  | value _ _ _ _ _ _ _ _ _ ih ih' => exact fun hs => ⟨(ih' (ih hs).1).1.congr rfl rfl, trivial⟩
  | skipped _ _ ih | provideWindow _ ih | provideSubquery _ _ ih =>
    exact fun hs => ⟨(ih hs).1, trivial⟩
  | operand _ _ _ _ ih ih' | valueThen _ _ _ _ ih ih' | keyThen _ _ _ _ ih ih'
  | itemThen _ _ _ _ _ _ _ ih ih' | discoverJoin _ _ _ _ ih ih' | discoverUnion _ _ _ _ ih ih'
  | discoverSubquery _ _ _ _ _ ih ih' => exact fun hs => ⟨(ih' (ih hs).1).1, trivial⟩
  | level _ _ _ _ _ ih ih' | levelOfValue _ _ _ _ _ _ ih ih' =>
    exact fun hs => ⟨(ih' (ih (hs.congr rfl rfl)).1).1.congr rfl rfl, trivial⟩
  | unionKept hkept => exact fun hs => ⟨hs, hs.unions _ (mem_of_lookup hkept)⟩
  | unionNew _ _ _ _ _ _ ih ih' =>
    intro hs
    have hlevels := (ih' (ih hs).1).1
    exact ⟨⟨hlevels.joins, List.forall_mem_cons.2 ⟨rfl, hlevels.unions⟩⟩, rfl⟩
  | subqueryNew _ _ _ _ _ ih => exact fun hs => ⟨(ih hs).1.congr rfl rfl, trivial⟩
  | sideTable _ hn _ =>
    exact fun hs => ⟨hs.congr rfl rfl, _, .leaf hn (fun _ _ _ _ _ hk => nomatch hk), rfl⟩
  | sideJoin _ _ ih => exact fun hs => ⟨(ih hs).1, (ih hs).2.asSide⟩
  | sideUnion hn _ ih =>
    exact fun hs => ⟨(ih hs).1, _, .leaf hn (fun _ _ _ _ _ hk => nomatch hk), (ih hs).2⟩
  | sideLevel _ hn hk _ _ ih =>
    intro hs
    refine ⟨(ih hs).1.congr rfl rfl, _, .leaf hn ?_, rfl⟩
    rintro left right predicate how fields rfl
    cases hk
  | joinKept hkept => exact fun hs => ⟨hs, hs.joins _ (mem_of_lookup hkept)⟩
  | joinNew _ _ hn _ _ hon ih ih' ih'' =>
    intro hs
    obtain ⟨hs₁, hleft⟩ := ih hs
    obtain ⟨hs₂, hright⟩ := ih' hs₁
    have hs₃ := (ih'' (hs₂.congr rfl rfl)).1
    have hjoin := JoinAhead.Spells.join hn hleft hright hon.map_condition
    exact ⟨hs₃.keepJoin (hjoin _), hjoin _⟩

end Compile

/-! ## Statements of joins -/

namespace Sql

/-- The level that a join alone becomes. -/
def Query.ofJoin (left : Source) (how : JoinKind) (right : Source) (on : Option Expr) : Query :=
  ⟨none, false, .join left how right none, on, none, none, none, none, none⟩

/-- The table expression of a level, with the condition of the outermost join in its place. -/
def Query.joined (q : Query) : Source :=
  match q.source with
  | .join left how right none => .join left how right q.on
  | source => source

/-- The tree that the joins of the answer are written from. -/
def Statement.joins (s : Statement) : JoinTree (List String) (List String) :=
  match s.levels[s.root]? with
  | some q =>
    q.joined.tree fun l => (levelTexts .flat #[] (s.levels.toList.take s.root)).getD l ""
  | none => .leaf []

theorem size_levelTexts (layout : Layout) (done : Array String) (qs : List Query) :
    (Statement.levelTexts layout done qs).size = done.size + qs.length := by
  induction qs generalizing done with
  | nil => rfl
  | cons q rest ih =>
    rw [Statement.levelTexts, ih, Array.size_push, List.length_cons]
    omega

theorem levelTexts_concat (layout : Layout) (done : Array String) (qs : List Query) (q : Query) :
    Statement.levelTexts layout done (qs ++ [q]) = (Statement.levelTexts layout done qs).push
      (q.text layout fun l => (Statement.levelTexts layout done qs).getD l "") := by
  induction qs generalizing done with
  | nil => rfl
  | cons q' rest ih => exact ih _

theorem Statement.text_push (layout : Layout) (levels : Array Query) (q : Query) :
    Statement.text layout ⟨levels.push q, levels.size⟩ =
      q.text layout fun l => (levelTexts layout #[] levels.toList).getD l "" := by
  have hsize : (levelTexts layout #[] levels.toList).size = levels.size := by
    rw [size_levelTexts, Array.size_empty, Nat.zero_add, Array.length_toList]
  rw [Statement.text, Array.toList_push, levelTexts_concat, Array.getD_eq_getD_getElem?, ← hsize,
    Array.getElem?_push_size]
  rfl

theorem Statement.joins_push (levels : Array Query) (q : Query) :
    Statement.joins ⟨levels.push q, levels.size⟩ =
      q.joined.tree fun l => (levelTexts .flat #[] levels.toList).getD l "" := by
  rw [Statement.joins, Array.getElem?_push_size, Array.toList_push, ← Array.length_toList,
    List.take_left']
  rfl

theorem text_ofJoin (left right : Source) (how : JoinKind) (on : Option Expr)
    (f : LevelId → String) : (Query.ofJoin left how right on).text .flat f =
      "SELECT *" ++ "\n" ++ ("FROM " ++ (Source.join left how right on).text .flat f) := by
  cases on with
  | none => rfl
  | some e =>
    show "\n".intercalate ["SELECT *", "FROM " ++ (Source.join left how right none).text .flat f,
      "ON " ++ e.text .flat f] = _
    rw [String.intercalate_cons_cons, String.intercalate_cons_cons, String.intercalate_singleton,
      Source.text, Source.text, String.append_empty, show "\nON " = "\n" ++ "ON " by decide]
    simp only [String.append_assoc]

end Sql

namespace Compile

variable {c : Compiler} {g : Graph} {root : NodeId} {s : Statement} {t : JoinTree NodeId NodeId}

theorem Runs.visit_join {env : Env} {top id left right : NodeId} {predicate : Option NodeId}
    {how : JoinKind} {fields : List JoinField} {schema : Schema} {s s' : State}
    (h : Runs env top (.visit id) s s')
    (hn : env.graph.node? id = some ⟨.join left right predicate how fields, .collection schema⟩) :
    id ∈ s.visited ∧ s' = s ∨ ∃ ahead s₁, Runs env top (.join id ahead) s s₁ ∧
      (s.clauses = .empty → s'.clauses =
        { (.empty : Clauses Expr Source) with source := some ahead.source, on := ahead.on }) := by
  cases h with
  | visited hid => exact .inl ⟨hid, rfl⟩
  | cached _ hcoll _ => exact elim_of_collection hn hcoll
  | @joined _ _ _ _ _ _ _ _ s₁ ahead c c' _ _ _ hjoin hc hon =>
    refine .inr ⟨ahead, s₁, hjoin, fun hempty => ?_⟩
    rw [hjoin.leaves.clauses, hempty] at hc
    cases hc
    show c' = _
    cases ho : ahead.on with
    | none | some e =>
      rw [ho] at hon
      exact (Except.ok.inj hon).symm
  | selection _ _ hn' hsel _ =>
    rw [hn] at hn'
    cases hn'
    cases hsel
  | value _ _ _ hn' ht _ _ _ _ =>
    rw [hn] at hn'
    cases hn'
    cases ht
  | source _ _ hn' _ _ | filter _ _ hn' _ _ _ _ _ _ | groupBy _ _ hn' _ _ _ _ _ _ _ _
  | sort _ _ hn' _ _ _ _ | slice _ _ hn' _ _ _ _
  | united _ _ hn' _ _ =>
    rw [hn] at hn'
    cases hn'

/-- A join alone becomes a level with its tree and nothing else. -/
theorem exists_level_of_join {c' : Compiler} (hw : g.WellFormed False) (ht : g.Joins root t)
    (hleaf : ¬ t.IsLeaf) (h : c.compile g root = (.ok s, c')) :
    ∃ (levels : Array Query) (left right : Source) (how : JoinKind) (on : Option Expr),
      s.levels = levels.push (.ofJoin left how right on) ∧ s.root = levels.size ∧
      (Source.join left how right on).outline = t.shape := by
  obtain ⟨t', hrun, hlevels⟩ := runs_of_compile hw h
  obtain ⟨levels, level⟩ := s
  obtain rfl : t'.levels = levels := hlevels
  change Runs _ _ (.level root level) _ _ at hrun
  cases ht with
  | leaf hn hk => exact absurd trivial hleaf
  | @join _ left right predicate how fields shape l r hn hl hr =>
    obtain ⟨schema, rfl⟩ : ∃ schema, shape = .collection schema := hw.shape hn
    cases hrun with
    | levelOfValue _ hcoll _ _ _ _ => cases hcoll.symm.trans (isCollection_of_node hn)
    | @level _ _ s₁ s₂ q _ _ hdiscover hvisit hclose =>
      have hempty : s₁.clauses = .empty := hdiscover.leaves.clauses
      rcases hvisit.visit_join hn with ⟨-, rfl⟩ | ⟨ahead, s₃, hjoin, hclauses⟩
      · rw [hempty] at hclose
        cases hclose
      · have hkept : KeptShapes g s₁ := (hdiscover.spells ⟨nofun, nofun⟩).1
        obtain ⟨sl, how', sr, hsource, tree, htree, hshape⟩ := (hjoin.spells hkept).2
        obtain rfl := (Graph.Joins.join hn hl hr).unique htree
        rw [hclauses hempty, hsource] at hclose
        cases hclose
        exact ⟨s₂.levels, sl, sr, how', ahead.on, rfl, rfl, hshape⟩

/-- What is printed without quotes are words, and the names of a graph take one line each. -/
structure PrintsWords (c : Compiler) (g : Graph) : Prop where
  legible : g.Legible
  spaces : ∀ n ∈ g.nodes, ∀ table ∈ n.kind.table?, Wordy table.space
  stem : Wordy c.options.functionStem
  names : ∀ x ∈ c.functions.entries, Wordy x.2

/-- What a statement of a join shows: its tokens are those of a tree with the shape of the tree in
the graph. -/
theorem tokens_of_join (hb : Built g) (hwords : PrintsWords c g) (ht : g.Joins root t)
    (hleaf : ¬ t.IsLeaf) (h : (c.compile g root).1 = .ok s) (layout : Layout) :
    s.joins.shape = t.shape ∧ s.joins.Calm ∧
      tokens (s.text layout) = "SELECT" :: "*" :: "FROM" :: s.joins.words := by
  have hw := hb.fits
  have hok : c.compile g root = (.ok s, (c.compile g root).2) := Prod.ext h rfl
  have hsteady := each_of_compile (lawful_steadyFacts hw hwords.legible hwords.stem.bare root) hw
    (fun x hx => (hwords.names x hx).bare) hok
  have hcalm := each_of_compile (lawful_calmFacts hw hwords.spaces hwords.stem root)
    hw hwords.names hok
  obtain ⟨levels, left, right, how, on, hlevels, hroot, hshape⟩ :=
    exists_level_of_join hw ht hleaf hok
  obtain ⟨all, level⟩ := s
  obtain rfl : all = levels.push (.ofJoin left how right on) := hlevels
  obtain rfl : level = levels.size := hroot
  have hq : Query.ofJoin left how right on ∈ levels.push (.ofJoin left how right on) :=
    Array.mem_push_self
  have hlevel : ∀ q ∈ levels.toList, q ∈ levels.push (.ofJoin left how right on) :=
    fun q hq => Array.mem_push.2 (.inl (Array.mem_toList_iff.1 hq))
  have hf := nestedText_levelTexts fun q hq =>
    (hsteady q (hlevel q hq)).nested (hcalm q (hlevel q hq))
  have hsource : (Source.join left how right on).Each steadyFacts :=
    ⟨(hsteady _ hq).source.1, (hsteady _ hq).source.2.1, (hsteady _ hq).on⟩
  have hsource' : (Source.join left how right on).Each calmFacts :=
    ⟨(hcalm _ hq).source.1, (hcalm _ hq).source.2.1, (hcalm _ hq).on⟩
  have hwhole := Source.Steady.of_each hsource .flat _ _ fun l => (hf l).matching
  have halike : Alike ("SELECT *" ++ "\n" ++
    ("FROM " ++ (Source.join left how right on).text .flat _))
      ("SELECT *" ++ " " ++ ("FROM " ++ (Source.join left how right on).text .flat _)) :=
    ((alike_of_bare (by decide)).append alike_break).append
      ((alike_of_bare (by decide)).append hwhole.toAlike)
  rw [Statement.joins_push, (alike_statement layout hsteady).tokens,
    Statement.text_push, text_ofJoin, halike.tokens,
    tokens_gap (closes_of_bare (by decide : Bare "SELECT *")),
    show "FROM " = "FROM" ++ " " by decide, tokens_gap (closes_of_bare (by decide : Bare "FROM")),
      tokens_source hf hsource]
  exact ⟨(Source.shape_treeOf _ _ _).trans hshape, calm_tree hf hsource', rfl⟩

/-- **The tokens of a join tell its tree, if the tree can be told at all.** The `FROM` clause of a
compiled join is written from a tree of the same shape as the tree of joins in the graph, with the
same kinds and with conditions at the same joins. If every join has a condition, where the outermost
one may do without if there is no join on its right, statements with the same tokens have the same
tree. Any other tree is written like one of another shape over the same leaves. -/
theorem joins_of_tokens {c c' : Compiler} {g g' : Graph} (hb : Built g) (hb' : Built g')
    (hwords : PrintsWords c g) (hwords' : PrintsWords c' g') {root root' : NodeId}
    {t t' : JoinTree NodeId NodeId} (ht : g.Joins root t) (ht' : g'.Joins root' t')
    (hleaf : ¬ t.IsLeaf) (hleaf' : ¬ t'.IsLeaf) {s s' : Statement}
    (h : (c.compile g root).1 = .ok s) (h' : (c'.compile g' root').1 = .ok s')
    (layout layout' : Layout) :
    s.joins.shape = t.shape ∧
    tokens (s.text layout) = "SELECT" :: "*" :: "FROM" :: s.joins.words ∧
    (t.Determined → tokens (s.text layout) = tokens (s'.text layout') →
      s.joins = s'.joins ∧ t.shape = t'.shape) ∧
    (¬ t.Determined → ∃ w : JoinTree (List String) (List String),
      w.shape ≠ s.joins.shape ∧ w.leaves = s.joins.leaves ∧ w.words = s.joins.words) := by
  obtain ⟨hshape, hcalm, htokens⟩ := tokens_of_join hb hwords ht hleaf h layout
  obtain ⟨hshape', hcalm', htokens'⟩ := tokens_of_join hb' hwords' ht' hleaf' h' layout'
  have hdet : s.joins.Determined ↔ t.Determined := by
    rw [← JoinTree.determined_shape, hshape, JoinTree.determined_shape]
  refine ⟨hshape, htokens, fun hd hsame => ?_, fun hd => ?_⟩
  · rw [htokens, htokens'] at hsame
    have hwords : s.joins.words = s'.joins.words := by simpa using hsame
    obtain ⟨hfirst, hitems⟩ := hcalm.eq_of_words hcalm' hwords
    have hjoins : s.joins = s'.joins := JoinTree.eq_of_determined (hdet.2 hd) hfirst hitems
    exact ⟨hjoins, by rw [← hshape, ← hshape', hjoins]⟩
  · obtain ⟨w, hne, hfirst, hitems⟩ := JoinTree.exists_shape_of_not_determined (mt hdet.1 hd)
    refine ⟨w, hne, ?_, ?_⟩
    · rw [JoinTree.leaves_eq, JoinTree.leaves_eq, hfirst, hitems]
    · rw [JoinTree.words, JoinTree.words, hfirst, hitems]

/-- Three tables, joined from the left and from the right, with conditions at both joins. -/
def nestedJoins : List Call :=
  [.source "db" "a" [⟨"w", .int64⟩], .source "" "b" [⟨"id", .int64⟩],
    .source "" "c" [⟨"x", .int64⟩], .column 0 "w", .column 1 "id", .column 2 "x",
    .binary .eq 3 4, .binary .eq 4 5, .join 0 1 (some 6) .left, .join 8 2 (some 7) .inner,
    .join 1 2 (some 7) .inner, .join 0 10 (some 6) .left]

/-- The two ways of joining are told apart by their texts. -/
theorem joins_of_tokens_nestedJoins :
    Built (Call.run nestedJoins) ∧ PrintsWords (.new .default) (Call.run nestedJoins) ∧
    (Call.run nestedJoins).Joins 9
      (.join (.join (.leaf 0) .left (.leaf 1) (some 6)) .inner (.leaf 2) (some 7)) ∧
    (Call.run nestedJoins).Joins 11
      (.join (.leaf 0) .left (.join (.leaf 1) .inner (.leaf 2) (some 7)) (some 6)) ∧
    ∃ s s', ((Compiler.new .default).compile (Call.run nestedJoins) 9).1 = .ok s ∧
      ((Compiler.new .default).compile (Call.run nestedJoins) 11).1 = .ok s' ∧
      s.joins.shape = .join (.join (.leaf ()) .left (.leaf ()) (some ())) .inner
      (.leaf ()) (some ()) ∧ tokens (s.text Options.default.layout) ≠ tokens
      (s'.text spread.layout) := by
  have hb : Built (Call.run nestedJoins) := .run (by simp [nestedJoins, Call.AllowedFrom])
  have hwords : PrintsWords (.new .default) (Call.run nestedJoins) :=
    ⟨by decide +kernel, by decide +kernel, by decide, List.forall_mem_nil _⟩
  have ht := Graph.joins_of_joinTree? (g := Call.run nestedJoins) (d := 3) (i := 9)
    (t := .join (.join (.leaf 0) .left (.leaf 1) (some 6)) .inner (.leaf 2) (some 7))
    (by decide +kernel)
  have ht' := Graph.joins_of_joinTree? (g := Call.run nestedJoins) (d := 3) (i := 11)
    (t := .join (.leaf 0) .left (.join (.leaf 1) .inner (.leaf 2) (some 7)) (some 6))
    (by decide +kernel)
  have hlevels : ((Compiler.new .default).compile (Call.run nestedJoins) 9).1.toOption.map
      (·.levels.size) = some 1 := by decide +kernel
  have hlevels' : ((Compiler.new .default).compile (Call.run nestedJoins) 11).1.toOption.map
      (·.levels.size) = some 1 := by decide +kernel
  obtain ⟨s, c₁, hs, -⟩ := exists_of_compile hlevels
  obtain ⟨s', c₂, hs', -⟩ := exists_of_compile hlevels'
  obtain ⟨hshape, -, hsame, -⟩ := joins_of_tokens hb hb hwords hwords ht ht' id id
    (congrArg Prod.fst hs) (congrArg Prod.fst hs') Options.default.layout spread.layout
  refine ⟨hb, hwords, ht, ht', s, s', congrArg Prod.fst hs, congrArg Prod.fst hs', hshape, ?_⟩
  intro htokens
  have hdet : JoinTree.Determined (α := NodeId) (π := NodeId)
      (.join (.join (.leaf 0) .left (.leaf 1) (some 6)) .inner (.leaf 2) (some 7)) :=
    ⟨⟨trivial, trivial, rfl⟩, trivial, .inl rfl⟩
  exact absurd (hsame hdet htokens).2 (by decide)

/-- The default options without indentation. -/
def flush : Options := ⟨0, false, Options.default.sortLimit, Options.default.functionStem⟩

/-- Trees at two collections of a graph that have the same leaves and are written as the same
text. -/
structure WrittenAlike (g : Graph) (root root' : NodeId)
    (t t' : JoinTree NodeId NodeId) : Prop where
  tree : g.Joins root t
  tree' : g.Joins root' t'
  leaves : t.leaves = t'.leaves
  compiles : ((Compiler.new flush).compileText g root).1.toOption.isSome = true
  text : ((Compiler.new flush).compileText g root).1.toOption =
    ((Compiler.new flush).compileText g root').1.toOption

/-- Three tables, where one join has no condition. -/
def openJoins : List Call :=
  [.source "" "a" [⟨"id", .int64⟩], .source "" "b" [⟨"id", .int64⟩],
    .source "" "c" [⟨"id", .int64⟩], .column 1 "id", .column 2 "id", .binary .eq 3 4,
    .join 0 1 none .inner, .join 6 2 (some 5) .inner,
    .join 1 2 (some 5) .inner, .join 0 8 none .inner]

/-- Three tables, with names that differ in how their lines end. -/
def brokenNames : List Call :=
  [.source "" "a" [⟨"w", .int64⟩], .source "" "b" [⟨"\r\n", .int64⟩, ⟨"\n", .int64⟩],
    .source "" "c" [⟨"x", .int64⟩], .column 0 "w", .column 2 "x", .column 1 "\r\n",
    .column 1 "\n", .binary .eq 5 4, .binary .eq 6 4, .binary .eq 3 4,
    .join 1 2 (some 7) .inner, .join 1 2 (some 8) .inner,
    .join 0 10 (some 9) .inner, .join 0 11 (some 9) .inner]

/-- A condition is read at another join if its own join has none. With all conditions there may
still be different ones with the same text, if names have line breaks. -/
theorem writtenAlike_openJoins :
    (Built (Call.run openJoins) ∧ WrittenAlike (Call.run openJoins) 7 9
      (.join (.join (.leaf 0) .inner (.leaf 1) none) .inner (.leaf 2) (some 5))
      (.join (.leaf 0) .inner (.join (.leaf 1) .inner (.leaf 2) (some 5)) none)) ∧
    Built (Call.run brokenNames) ∧ WrittenAlike (Call.run brokenNames) 12 13
      (.join (.leaf 0) .inner (.join (.leaf 1) .inner (.leaf 2) (some 7)) (some 9))
      (.join (.leaf 0) .inner (.join (.leaf 1) .inner (.leaf 2) (some 8)) (some 9)) := by
  refine ⟨⟨.run (by simp [openJoins, Call.AllowedFrom]), ?_⟩,
    .run (by simp [brokenNames, Call.AllowedFrom]), ?_⟩
  all_goals
    refine ⟨Graph.joins_of_joinTree? (d := 4) ?_, Graph.joins_of_joinTree? (d := 4) ?_, rfl, ?_, ?_⟩
    · decide +kernel
    · decide +kernel
    · decide +kernel
    · decide +kernel

end Compile

end PlanSql

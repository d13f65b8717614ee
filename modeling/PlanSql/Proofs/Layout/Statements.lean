import PlanSql.Proofs.Compile.FieldTypes
import PlanSql.Proofs.Layout.Levels
import PlanSql.Proofs.Layout.Texts

/-!
# Statements in two layouts

Compilers whose options differ in the layout only give the same error, or statements with the same
tokens. Names of tables and fields must not have line breaks, since nested lines are indented also
where a name goes on, and what is printed without quotes must not open one.
-/

namespace PlanSql

open PlanSql.Text PlanSql.Sql PlanSql.Compile

/-! ## Names in a graph -/

/-- The stored table that a node reads. -/
def Kind.table? : Kind → Option Table
  | .source table => some table
  | _ => none

/-- The names that a node introduces have no line breaks, and a name space opens no quote. -/
def Node.Legible (n : Node) : Prop :=
  (∀ table ∈ n.kind.table?,
    Bare table.space ∧ OneLine table.name ∧ ∀ f ∈ table.schema.fields, OneLine f.name) ∧
  ∀ x ∈ n.name?, OneLine x

instance (n : Node) : Decidable n.Legible := inferInstanceAs (Decidable (_ ∧ _))

/-- The names of tables, fields and values have no line breaks, and name spaces open no quotes. -/
def Graph.Legible (g : Graph) : Prop := ∀ n ∈ g.nodes, n.Legible

instance (g : Graph) : Decidable g.Legible := inferInstanceAs (Decidable (∀ n ∈ g.nodes, n.Legible))

namespace Graph

variable {g g' : Graph} {careful : Prop}

theorem Legible.node (h : g.Legible) {id : NodeId} {n : Node} (hn : g.node? id = some n) :
    n.Legible := h n (Array.mem_of_getElem? hn)

/-- The fields that values give rise to are named after them. -/
theorem Legible.fieldsOf (h : g.Legible) (hext : Extends g' g) {ids : List NodeId}
    {fields : List Field} (hf : g'.fieldsOf ids = .ok fields) : ∀ f ∈ fields, OneLine f.name := by
  induction ids generalizing fields with
  | nil =>
    cases hf
    exact List.forall_mem_nil _
  | cons id rest ih =>
    obtain ⟨field, hfield, hf⟩ := bind_ok hf
    obtain ⟨fields', hfields, hf⟩ := bind_ok hf
    cases hf
    obtain ⟨t, ht, hname⟩ := bind_ok hfield
    obtain ⟨n, hn, htyped⟩ := typedOf_eq_ok_iff.1 ht
    refine List.forall_mem_cons.2 ⟨?_, ih hfields⟩
    split at hname
    · next name hx =>
      cases hname
      refine (h.node (hext.node hn)).2 name ?_
      rw [Node.name?, htyped]
      exact hx
    · cases hname

theorem Legible.fieldSchema (h : g.Legible) (hext : Extends g' g) {ids : List NodeId}
    {schema : Schema} (hs : g'.fieldSchema ids = .ok schema) :
    ∀ f ∈ schema.fields, OneLine f.name := by
  obtain ⟨fields, hfields, hs⟩ := bind_ok hs
  rw [Schema.fields_of_ofFields hs]
  exact h.fieldsOf hext hfields

theorem oneLine_joinFields {side : JoinSide} {suffix : String} {own other : Schema}
    (hsuffix : OneLine suffix) (h : ∀ f ∈ own.fields, OneLine f.name) :
    ∀ f ∈ Build.joinFields side suffix own other, OneLine f.name ∧ OneLine f.source := by
  intro f hf
  obtain ⟨field, hfield, rfl⟩ := List.mem_map.1 hf
  refine ⟨?_, h field hfield⟩
  dsimp only
  split
  · exact (h field hfield).append hsuffix
  · exact h field hfield

theorem Legible.schema (h : g.Legible) (hw : g.WellFormed careful) {id : NodeId}
    {schema : Schema} (hs : g.schemaOf id = .ok schema) : ∀ f ∈ schema.fields, OneLine f.name := by
  induction id using Nat.strongRecOn generalizing schema with
  | ind id ih =>
    have hearlier : ∀ {x s}, (g.before id).schemaOf x = .ok s → ∀ f ∈ s.fields, OneLine f.name :=
      fun {x s} hx => ih x (lt_of_isRelation_before ⟨s, hx⟩)
        (Keeps.schemaOf x (before_extends g id) s hx)
    obtain ⟨⟨kind, shape⟩, hn, hshape⟩ := schemaOf_eq_ok_iff.1 hs
    have hfits := hw.collectionFits hn hshape
    have hvalues : ∀ {ids}, (g.before id).fieldSchema ids = .ok schema →
        ∀ f ∈ schema.fields, OneLine f.name := h.fieldSchema (before_extends g id)
    cases kind with
    | source table => exact hfits.1 ▸ ((h.node hn).1 table rfl).2.2
    | project input fields | summary input fields => exact hvalues hfits.2.2
    | groupBy input keys aggregates having => exact hvalues hfits.2.2.1
    | mutate input keys mutates | distinct input fields => exact hvalues hfits.2
    | filter input predicate | sort input keys => exact hearlier hfits.1
    | slice input start stop step => exact hearlier hfits
    | union left right distinct => exact hearlier hfits.1
    | join left right predicate how fields =>
      obtain ⟨_, ls, rs, hl, hr, _, rfl, hschema⟩ := hfits
      rw [Schema.fields_of_ofFields hschema]
      intro f hf
      obtain ⟨field, hfield, rfl⟩ := List.mem_map.1 hf
      rcases List.mem_append.1 hfield with hfield | hfield
      · exact (oneLine_joinFields (by decide) (hearlier hl) field hfield).1
      · exact (oneLine_joinFields (by decide) (hearlier hr) field hfield).1
    | _ => exact hfits.elim

end Graph

/-! ## What levels are made of -/

/-- The facts that make the tokens of a text independent of the layout. -/
def steadyFacts : Facts where
  fragment := fun _ => Expr.Steady
  expr := Expr.Steady
  table := fun table => Bare table.space ∧ OneLine table.name
  name := OneLine
  function := Bare

theorem bare_of_isBuiltIn {name : String} (h : isBuiltIn name = true) : Bare name := by
  intro c hc
  have hupper := (capital_of_isBuiltIn h).2 c hc
  unfold isBare
  simp only [Bool.and_eq_true, bne_iff_ne]
  refine ⟨⟨?_, ?_⟩, ?_⟩
  all_goals
    rintro rfl
    exact absurd hupper (by decide)

section Values

variable {env : Env} {s : State} {id : NodeId} {n : Node} {e : Expr}

theorem steady_of_value (hw : env.graph.WellFormed False) (hg : env.graph.Legible)
    (hn : env.graph.node? id = some n) (hfrag : ∀ x ∈ s.context.fragments, x.2.Steady)
    (hfun : ∀ x ∈ s.context.functions.entries, Bare x.2)
    (he : valueExpr env.graph (s.parts env) id n.kind = .ok e) : e.Steady :=
  steady_congruence.of_node hw hn (fun _ => bare_of_isBuiltIn) (by decide) (fun _ _ => trivial)
    (fun _ _ _ _ h => h.negate)
    (fun _ _ f label hs hf => steady_column label (hg.schema hw hs f hf)) hfrag hfun he

theorem lawful_steadyFacts (hw : env.graph.WellFormed False) (hg : env.graph.Legible)
    (hstem : Bare env.functionStem) (top : NodeId) : Lawful steadyFacts env top where
  expr h := h
  descending h := h.descending
  table hn := have htable := (hg.node hn).1 _ rfl; ⟨htable.1, htable.2.1⟩
  name {id n t} hn ht x hx := (hg.node hn).2 x (by rw [Node.name?, ht]; exact hx)
  function k := (hstem.append (by decide)).append (bare_of_ink fun c => isInk_of_mem_repr)
  value _ hn _ hfrag hfun he := steady_of_value hw hg hn hfrag hfun he

end Values

/-! ## Levels -/

namespace Sql

variable (layout : Layout)

/-- Spaces before a keyword make no difference. -/
theorem alike_fill (n : Nat) :
    Alike (String.ofList (List.replicate n ' ') ++ " AS ") " AS " := by
  have hblank : ∀ c ∈ List.replicate n ' ', isBlank c = true ∧ c ≠ '\r' := by
    intro c hc
    rw [List.eq_of_mem_replicate hc]
    decide
  have hkeyword : Alike " AS " " AS " := alike_of_bare (by decide)
  refine ⟨?_, hkeyword.right, ?_⟩
  · rw [String.toList_append, String.toList_ofList]
    exact (closes_blank hblank).append hkeyword.left
  · rw [String.toList_append, String.toList_ofList, marks_blank_append fun c hc => (hblank c hc).1]
    exact same_gaps_before _ _

theorem exists_selectText (distinct : Bool) (items : Option (List (Item String))) :
    ∃ t, Level.selectText layout distinct items = "SELECT" ++ t := by
  obtain ⟨k, hk⟩ : ∃ k, (if distinct then "SELECT DISTINCT" else "SELECT") = "SELECT" ++ k := by
    cases distinct with
    | false => exact ⟨"", by decide⟩
    | true => exact ⟨" DISTINCT", by decide⟩
  simp only [Level.selectText, hk, String.append_assoc]
  split
  · exact ⟨_, rfl⟩
  split
  · exact ⟨_, rfl⟩
  · exact ⟨_, rfl⟩

theorem bare_of_mem_clauseGaps {k : String} (hk : k ∈ clauseGaps) : Bare k :=
  (by decide : ∀ k ∈ clauseGaps, Bare k) k hk

variable {layout} in
theorem trimmed_of_solid {l : Level String String} (h : Solid (l.text layout)) :
    Trimmed (l.text layout) := by
  refine ⟨fun c hc => ?_, fun c hc => ?_⟩
  · obtain ⟨t, ht⟩ := exists_selectText layout l.distinct l.select
    rw [Level.text, ht, String.intercalate_cons_cons, String.append_assoc, String.append_assoc,
      String.toList_append] at hc
    obtain rfl : 'S' = c := Option.some.inj hc
    decide
  · obtain ⟨d, hd, hblank⟩ := h
    cases hd.symm.trans hc
    exact hblank

section Levels

variable {a b c d : String}

theorem whole_indented (h : Alike a b) (h' : Whole c d) :
    Whole (a ++ "\n" ++ indentLines layout.pad c) (b ++ "\n" ++ indentLines Layout.flat.pad d) := by
  have hboth := h.append (alike_indentations layout h')
  rw [← String.append_assoc, ← String.append_assoc] at hboth
  exact ⟨hboth, (h'.solidLeft.indentLines layout.eq_of_mem_pad).append _,
    (h'.solidRight.indentLines Layout.flat.eq_of_mem_pad).append _⟩

theorem whole_filled (n : Nat) (h : Whole a b) (h' : Whole c d) :
    Whole (a ++ String.ofList (List.replicate n ' ') ++ " AS " ++ c) (b ++ " AS " ++ d) := by
  have hboth := (h.toAlike.append (alike_fill n)).append_whole h'
  rwa [← String.append_assoc] at hboth

theorem alike_lines {α : Type} {l : List α} {S T : α → String} (h : Alike a b)
    (hl : ∀ x ∈ l, Whole (S x) (T x)) :
    Alike (a ++ "\n" ++ ",\n".intercalate ((l.map S).map (indentLines layout.pad)))
      (b ++ " " ++ ", ".intercalate (l.map T)) := by
  have hwhole : List.Forall₂ Whole (l.map S) (l.map T) := by
    rwa [List.forall₂_map_left_iff, List.forall₂_map_right_iff, List.forall₂_same]
  rw [String.append_assoc, String.append_assoc]
  exact h.append (alike_indented_list layout "," (by decide) hwhole)

variable {layout} in
theorem matching_of_whole {l l' : Level String String} (h : Whole (l.text layout) (l'.text .flat)) :
    Matching (l.text layout) (l'.text .flat) :=
  ⟨h.toAlike, trimmed_of_solid h.solidLeft, trimmed_of_solid h.solidRight⟩

end Levels

/-- Levels in two layouts stay alike, however they are put together. -/
theorem whole_levels : LevelForms steadyFacts (fun _ => Whole) (fun _ => Alike)
    fun _ => Matching where
  expr h := Expr.steady_iff_holds.1 h
  name h := whole_quoteName h
  table h := whole_table h.1 h.2
  number := whole_repr
  word w hw := alike_of_bare ((by decide : ∀ w ∈ clauseWords, Bare w) w hw)
  inside h := h.toAlike
  level h := h.toAlike
  empty := ⟨.refl rfl, by simp [Trimmed], by simp [Trimmed]⟩
  pair k hk h h' := (h.append (alike_of_bare (bare_of_mem_clauseGaps hk))).append h'
  gap k hk h h' := (h.append (alike_of_bare (bare_of_mem_clauseGaps hk))).append_whole h'
  nested _ label h := whole_nestedText h label
  indented layout h h' := whole_indented layout h h'
  filled n h h' := whole_filled n h h'
  lines layout _ h hparts := alike_lines layout h hparts
  close _ _ h := matching_of_whole h

theorem Source.Steady.of_each {source : Source} (h : source.Each steadyFacts) : source.Steady :=
  fun layout _ _ hf => whole_levels.source layout (fun _ => []) hf h

theorem alike_statement {s : Statement} (h : ∀ q ∈ s.levels, q.Each steadyFacts) :
    Alike (s.text layout) (s.text .flat) := (whole_levels.statement layout h).toAlike

end Sql

/-! ## Statements -/

namespace Compile

/-- The layout is read only when a statement is printed. -/
theorem compile_of_layout {c c' : Compiler} (hfunctions : c.functions = c'.functions)
    (hstem : c.options.functionStem = c'.options.functionStem)
    (hsort : c.options.sortLimit = c'.options.sortLimit) (g : Graph) (root : NodeId) :
    (c.compile g root).1 = (c'.compile g root).1 ∧
      (c.compile g root).2.functions = (c'.compile g root).2.functions := by
  have henv : c.env g = c'.env g := by rw [Compiler.env, Compiler.env, hstem, hsort]
  unfold Compiler.compile
  rw [henv, hfunctions]
  split
  · exact ⟨rfl, rfl⟩
  · exact ⟨rfl, rfl⟩

theorem compileText_eq (c : Compiler) (g : Graph) (root : NodeId) : c.compileText g root =
    ((c.compile g root).1.map (Statement.text c.options.layout), (c.compile g root).2) := by
  unfold Compiler.compileText
  generalize c.compile g root = r
  rfl

/-- Compilers whose options differ in the layout only give the same error, or texts with the same
tokens, and the same names to user functions. -/
theorem compileText_layout {g : Graph} (hb : Built g) (hg : g.Legible) {c c' : Compiler}
    (hfunctions : c.functions = c'.functions)
    (hstem : c.options.functionStem = c'.options.functionStem)
    (hsort : c.options.sortLimit = c'.options.sortLimit) (hbare : Bare c.options.functionStem)
    (hnames : ∀ x ∈ c.functions.entries, Bare x.2) (root : NodeId) :
    (c.compileText g root).1.map tokens = (c'.compileText g root).1.map tokens ∧
      (c.compileText g root).2.functions = (c'.compileText g root).2.functions := by
  have hw := hb.fits
  obtain ⟨hresult, hafter⟩ := compile_of_layout hfunctions hstem hsort g root
  rw [compileText_eq, compileText_eq]
  refine ⟨?_, hafter⟩
  rw [← hresult]
  cases hcompile : (c.compile g root).1 with
  | error e => simp only [Except.map]
  | ok s =>
    have heach := each_of_compile (lawful_steadyFacts hw hg hbare root) hw hnames
      (Prod.ext hcompile rfl : c.compile g root = (.ok s, (c.compile g root).2))
    have halike := (alike_statement c.options.layout heach).trans
      (alike_statement c'.options.layout heach).symm
    exact congrArg Except.ok halike.tokens

/-- Joined tables, with a choice over the first rows of those that a subquery lists. -/
def choiceOfRows : List Call :=
  [.source "db" "a" [⟨"id", .int64⟩, ⟨"say `x`", .string⟩], .source "" "b" [⟨"id", .int64⟩],
    .column 0 "id", .column 1 "id", .binary .eq 2 3, .join 0 1 (some 4) .inner, .column 5 "id_x",
    .inSequence 6 3 false, .filter 5 7, .slice 8 none (some 10) none, .column 9 "say `x`",
    .literal (.string "it's  here"), .switch (some 10) [11] [11] none, .rename 12 "two  blanks",
    .project 9 [13]]

/-- The default options with a wide layout that takes more lines. -/
def spread : Options := ⟨4, true, Options.default.sortLimit, Options.default.functionStem⟩

/-- Both layouts of the choice have the same tokens. -/
theorem compileText_layout_choice :
    Built (Call.run choiceOfRows) ∧ (Call.run choiceOfRows).Legible ∧
    Bare Options.default.functionStem ∧
    ∃ a b, ((Compiler.new .default).compileText (Call.run choiceOfRows) 14).1 = .ok a ∧
      ((Compiler.new spread).compileText (Call.run choiceOfRows) 14).1 = .ok b ∧
      tokens a = tokens b := by
  have hb : Built (Call.run choiceOfRows) := .run (by simp [choiceOfRows, Call.AllowedFrom])
  have hg : (Call.run choiceOfRows).Legible := by decide +kernel
  have hbare : Bare Options.default.functionStem := by decide
  have hnames : ∀ x ∈ (Compiler.new .default).functions.entries, Bare x.2 := List.forall_mem_nil _
  have htokens := (@compileText_layout _ hb hg (.new .default) (.new spread) rfl rfl rfl hbare
    hnames 14).1
  have hlevels : ((Compiler.new .default).compile (Call.run choiceOfRows) 14).1.toOption.map
      (·.levels.size) = some 3 := by decide +kernel
  obtain ⟨s, c', hs, _⟩ := exists_of_compile hlevels
  have htext : ((Compiler.new .default).compileText (Call.run choiceOfRows) 14).1 =
      .ok (s.text Options.default.layout) := by
    rw [compileText_eq, hs]
    rfl
  rw [htext] at htokens ⊢
  cases hspread : ((Compiler.new spread).compileText (Call.run choiceOfRows) 14).1 with
  | error e =>
    rw [hspread] at htokens
    cases htokens
  | ok b =>
    rw [hspread] at htokens
    exact ⟨hb, hg, hbare, _, b, rfl, rfl, Except.ok.inj htokens⟩

end Compile

end PlanSql

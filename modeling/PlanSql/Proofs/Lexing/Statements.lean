import PlanSql.Proofs.Lexing.Values

/-!
# Lexemes of compiled statements

The statement of a graph is read to its end: quotes are closed, there are no comments, names are
names of the graph and string constants are strings of its nodes. A number that begins with a sign
must not be negated, since two signs in a row begin a comment. Names are read as they are written,
however deep they stand, but for those with line feeds: the lines of nested levels are laid out
anew, also where a name goes on.
-/

namespace PlanSql

open Text Sql Compile Reading

/-! ## Names of a graph -/

/-- The names of a node: of its stored table, of its fields or of its value. -/
def Node.names (n : Node) : List String :=
  n.kind.table?.toList.map Table.name ++ match n.shape with
    | .collection schema => schema.fields.map Field.name
    | .sequence t | .scalar t => t.name.toList

namespace Graph

variable {g : Graph} {careful : Prop}

/-- The names and strings of a graph. -/
def lexicon (g : Graph) : Lexicon where
  name x := ∃ n ∈ g.nodes, x ∈ n.names
  string s := ∃ n ∈ g.nodes, s ∈ n.kind.strings

theorem name_of_schema {id : NodeId} {schema : Schema} {f : Field}
    (hs : g.schemaOf id = .ok schema) (hf : f ∈ schema.fields) : g.lexicon.name f.name := by
  obtain ⟨n, hn, hshape⟩ := schemaOf_eq_ok_iff.1 hs
  refine ⟨n, Array.mem_of_getElem? hn, ?_⟩
  rw [Node.names, hshape]
  exact List.mem_append_right _ (List.mem_map_of_mem hf)

theorem Legible.lexicon {g : Graph} {careful : Prop} (h : g.Legible) (hw : g.WellFormed careful)
    {x : String} (hx : g.lexicon.name x) : OneLine x := by
  obtain ⟨n, hn, hx⟩ := hx
  rcases List.mem_append.1 hx with hx | hx
  · obtain ⟨table, htable, rfl⟩ := List.mem_map.1 hx
    exact ((h n hn).1 table (Option.mem_toList.1 htable)).2.1
  · obtain ⟨id, hid⟩ := Array.mem_iff_getElem?.1 hn
    obtain ⟨kind, shape⟩ := n
    cases shape with
    | collection schema =>
      obtain ⟨f, hf, rfl⟩ := List.mem_map.1 hx
      exact h.schema hw (schemaOf_eq_ok_iff.2 ⟨_, hid, rfl⟩) f hf
    | sequence t | scalar t => exact (h _ hn).2 x (Option.mem_toList.1 hx)

end Graph

/-! ## What levels are made of -/

/-- The facts that make a text readable. -/
def lexicalFacts (dashes : Bool) (g : Graph) (L : Lexicon) : Facts where
  fragment := fun id e => (dashes = false → Marked g id e) ∧ e.Fine dashes L
  expr := Expr.Fine dashes L
  table := fun table => Prose dashes table.space ∧ L.name table.name
  name := L.name
  function := Prose dashes

theorem plain_of_isBuiltIn {name : String} (h : isBuiltIn name = true) : Plain name := by
  intro c hc
  rw [isPlain, bare_of_isBuiltIn h c hc, Bool.true_and, bne_iff_ne]
  rintro rfl
  have hupper := (capital_of_isBuiltIn h).2 '-' hc
  cases hupper

section Values

variable (dashes : Bool) {env : Env} {s : State} {id : NodeId} {n : Node} {e : Expr}

theorem lawful_lexicalFacts (hw : env.graph.WellFormed False)
    (hspaces : ∀ n ∈ env.graph.nodes, ∀ table ∈ n.kind.table?, Prose dashes table.space)
    {top : NodeId} (hapart : dashes = false → env.graph.SignsApart top)
    (hstem : Prose dashes env.functionStem) :
    Lawful (lexicalFacts dashes env.graph env.graph.lexicon) env top where
  expr h := h.2
  descending h := Expr.Holds.descending leads_forms h.2
  table {id table shape} hn := by
    have hmem := Array.mem_of_getElem? hn
    exact ⟨hspaces _ hmem table rfl, _, hmem, List.mem_append_left _ (.head _)⟩
  name {id n t} hn ht x hx := by
    refine ⟨n, Array.mem_of_getElem? hn, List.mem_append_right _ ?_⟩
    obtain ⟨kind, shape⟩ := n
    cases shape with
    | collection schema => cases ht
    | sequence t' | scalar t' =>
      cases ht
      exact Option.mem_toList.2 hx
  function k := (hstem.append (by decide : Keyword "_").prose).append (plain_repr k).prose
  value {s id n t e} hreach hn ht hfrag hfun he := by
    have hmarked : dashes = false → ∀ x e', (s.parts env).fragment x = .ok e' →
        Marked env.graph x e' := fun hd x e' hx =>
      (hfrag (x, e') (mem_of_lookup (Context.fragment_eq_ok_iff.1 hx))).1 hd
    refine ⟨fun hd => marked_of_value (hmarked hd) hw hn ht he, leads_forms.congruence.of_node hw hn
      (fun _ h => (plain_of_isBuiltIn h).prose) (by decide : Plain _).prose
      (fun x hx => ⟨n, Array.mem_of_getElem? hn, hx⟩) ?_
      (fun _ _ f label hs hf => fine_column label (Graph.name_of_schema hs hf))
      (fun x hx => (hfrag x hx).2) hfun he⟩
    exact fun x hx e' he' h => Expr.Fine.negate h fun hd =>
      operand_beginsWithSign (hmarked hd) (hapart hd id n hreach hn x hx) he'

end Values

/-! ## Levels -/

namespace Sql

variable {dashes : Bool} {g : Graph} {L : Lexicon} {layout : Layout}

theorem spells_nestedText {body : String} {es : List Emission} (h : Spells dashes L es body)
    (label : Alias) : Spells dashes L (es.map Emission.move) (nestedText layout body label) := by
  have hnested := ((h.indent layout.eq_of_mem_pad).before (k := "(\n") (by decide)).join
    (k := "\n) ") (by decide) (spells_alias label)
  rwa [List.append_nil] at hnested

theorem spells_table {stored : Table} (h : (lexicalFacts dashes g L).table stored) (label : Alias)
    (layout : Layout) (f : LevelId → String) : Spells dashes L [⟨.name stored.name, false⟩]
      ((Source.table stored label).text layout f) := by
  have hname : Spells dashes L _ _ := spells_quoteName h.2
  rw [Source.text]
  split
  · rw [String.empty_append]
    exact hname.join (k := " ") (by decide) (spells_alias label)
  · exact ((spells_prose h.1).join (k := ".") (by decide) hname).join (k := " ") (by decide)
      (spells_alias label)

theorem keyword_of_mem_clauseGaps {k : String} (hk : k ∈ clauseGaps) : Keyword k :=
  (by decide : ∀ k ∈ clauseGaps, Keyword k) k hk

theorem keyword_fill (n : Nat) : Keyword (String.ofList (List.replicate n ' ') ++ " AS ") := by
  refine ⟨by simp, ?_⟩
  rw [String.toList_append, String.toList_ofList, List.forall_mem_append]
  refine ⟨fun c hc => ?_, (by decide : Keyword " AS ").2⟩
  rw [List.eq_of_mem_replicate hc]
  decide

/-- Levels are read as they are written, however they are put together. -/
theorem spells_levels : LevelForms (lexicalFacts dashes g L) (fun es s _ => Spells dashes L es s)
    (fun es s _ => Spells dashes L es s) fun es s _ => Spells dashes L es s where
  expr h := fun layout f f' levels hf => (h layout f f' levels hf).1
  name h := spells_quoteName h
  table h label layout f _ := spells_table h label layout f
  number n := spells_prose (plain_repr n).prose
  word w hw := ((by decide +kernel : ∀ w ∈ clauseWords, Keyword w) w hw).spells
  inside h := h
  level h := h
  empty := spells_prose (s := "") (by simp [Prose])
  pair k hk h h' := h.join (keyword_of_mem_clauseGaps hk) h'
  gap k hk h h' := h.join (keyword_of_mem_clauseGaps hk) h'
  nested _ label h := spells_nestedText h label
  indented layout h h' := h.join (k := "\n") (by decide) (h'.indent layout.eq_of_mem_pad)
  filled n h h' := by
    have hboth := h.join (keyword_fill n) h'
    rwa [← String.append_assoc] at hboth
  lines layout parts h hparts := by
    rw [List.flatMap_def, List.map_flatten]
    refine h.join (k := "\n") (by decide) (.intercalate (by decide) ?_)
    rw [List.forall₂_map_left_iff, List.forall₂_map_left_iff, List.forall₂_map_right_iff,
      List.forall₂_map_right_iff, List.forall₂_same]
    exact fun x hx => (hparts x hx).indent layout.eq_of_mem_pad
  close _ _ h := h

theorem spells_statement {s : Statement} (h : ∀ q ∈ s.levels, q.Each (lexicalFacts dashes g L))
    (layout : Layout) : Spells dashes L (s.emits layout) (s.text layout) :=
  spells_levels.statement layout h

end Sql

/-! ## Statements -/

namespace Compile

/-- **Statements are read to their end.** All quotes of a compiled statement are closed and there
are no comments; every name in it is a name of the graph, and every string constant is a string of
one of its nodes. Name spaces and names of user functions must be plain, names must not have line
breaks, and no number that begins with a sign may be negated. -/
theorem compileText_lexemes {g : Graph} (hb : Built g) (hg : g.Legible)
    (hspaces : ∀ n ∈ g.nodes, ∀ table ∈ n.kind.table?, Plain table.space) {c : Compiler}
    (hstem : Plain c.options.functionStem) (hnames : ∀ x ∈ c.functions.entries, Plain x.2)
    {root : NodeId} (hapart : g.SignsApart root) {text : String}
    (h : (c.compileText g root).1 = .ok text) :
    ∃ ls, lexemes text = some ls ∧ ∀ x ∈ ls, g.lexicon.Allows x := by
  have hw := hb.fits
  rw [compileText_eq] at h
  cases hcompile : (c.compile g root).1 with
  | error e =>
    rw [hcompile] at h
    cases h
  | ok s =>
    rw [hcompile] at h
    obtain rfl := Except.ok.inj h
    have hfacts := each_of_compile (lawful_lexicalFacts false hw
      (fun n hn table ht => (hspaces n hn table ht).prose) (fun _ => hapart) hstem.prose) hw
      (fun x hx => (hnames x hx).prose)
      (Prod.ext hcompile rfl : c.compile g root = (.ok s, (c.compile g root).2))
    obtain ⟨ls, hls, hallowed⟩ := (spells_statement hfacts c.options.layout).allows
      fun x hx hn => (hg.lexicon hw hx '\n' hn).1 rfl
    exact ⟨ls, run_of_scan hls, hallowed⟩

/-- Rows with quotes and signs in their names and in what they are compared with. -/
def quotedRows : List Call :=
  [.source "db" "a -- `b`" [⟨"it\x27s", .string⟩, ⟨"--", .int64⟩, ⟨"at", .datetime⟩],
    .column 0 "it\x27s", .text 1 (.replace "`--." "\x27\\" 1 true 0 false),
    .literal (.string "\x27 -- \\"), .binary .eq 2 3, .filter 0 4, .column 5 "--",
    .literal (.integer (-1)), .binary .sub 6 7, .unary .negate 8, .rename 9 "`` \x27",
    .column 5 "at", .datetimePart 11 .year, .project 5 [10, 12]]

/-- The text of the rows has only lexemes of the plan. -/
theorem compileText_lexemes_quotedRows :
    Built (Call.run quotedRows) ∧ (Call.run quotedRows).Legible ∧
    (∀ n ∈ (Call.run quotedRows).nodes, ∀ table ∈ n.kind.table?, Plain table.space) ∧
    Plain Options.default.functionStem ∧ (Call.run quotedRows).SignsApart 13 ∧
    ∃ text ls, ((Compiler.new .default).compileText (Call.run quotedRows) 13).1 = .ok text ∧
      lexemes text = some ls ∧ ∀ x ∈ ls, (Call.run quotedRows).lexicon.Allows x := by
  have hb : Built (Call.run quotedRows) := .run (by simp [quotedRows, Call.AllowedFrom])
  have hg : (Call.run quotedRows).Legible := by decide +kernel
  have hspaces : ∀ n ∈ (Call.run quotedRows).nodes, ∀ table ∈ n.kind.table?, Plain table.space := by
    decide +kernel
  have hsigns : ∀ n ∈ (Call.run quotedRows).nodes, ∀ x ∈ n.kind.negated?,
      writtenLevel (Call.run quotedRows) x ≠ 6 := by decide +kernel
  have hapart : (Call.run quotedRows).SignsApart 13 :=
    fun _ n _ hn => hsigns n (Array.mem_of_getElem? hn)
  have hstem : Plain Options.default.functionStem := by decide
  have hnames : ∀ x ∈ (Compiler.new .default).functions.entries, Plain x.2 := List.forall_mem_nil _
  have hok : ((Compiler.new .default).compileText (Call.run quotedRows) 13).1.toOption.isSome := by
    decide +kernel
  cases htext : ((Compiler.new .default).compileText (Call.run quotedRows) 13).1 with
  | error e =>
    rw [htext] at hok
    cases hok
  | ok text =>
    obtain ⟨ls, hls, hallowed⟩ := compileText_lexemes hb hg hspaces hstem hnames hapart htext
    exact ⟨hb, hg, hspaces, hstem, hapart, text, ls, rfl, hls, hallowed⟩

/-- A negative constant, negated, beside the year of a date. -/
def negatedTwice : List Call :=
  [.source "" "a" [⟨"at", .datetime⟩], .literal (.integer (-1)), .unary .negate 1, .rename 2 "one",
    .column 0 "at", .datetimePart 4 .year, .project 0 [5, 3]]

/-- Two signs begin a comment, which the name of the value is part of; and the part of a datetime is
asked for by a string that is no constant of the graph. -/
theorem lexemes_negatedTwice :
    Built (Call.run negatedTwice) ∧ (Call.run negatedTwice).Legible ∧
    ((Compiler.new .default).compileText (Call.run negatedTwice) 6).1 =
      .ok "SELECT DATEPART(t1.`at`, \x27yyyy\x27) AS `at`, --1 AS `one`\nFROM `a` t1" ∧
    lexemes "SELECT DATEPART(t1.`at`, \x27yyyy\x27) AS `at`, --1 AS `one`\nFROM `a` t1" =
      some [.name "at", .string "yyyy", .name "at", .comment, .name "a"] :=
  ⟨.run (by simp [negatedTwice, Call.AllowedFrom]), by decide +kernel, by decide +kernel,
    by decide +kernel⟩

/-- **Names survive nesting.** Every name and string constant of a compiled statement is read where
it was written. A string constant is read as it is. A name is read as the name that it was written
for, if that has no line feed or stands on lines that are not laid out anew; otherwise only blanks
of the name can change. Every name that is written is a name of the graph. -/
theorem compileText_emits {g : Graph} (hb : Built g)
    (hspaces : ∀ n ∈ g.nodes, ∀ table ∈ n.kind.table?, Prose true table.space) {c : Compiler}
    (hstem : Prose true c.options.functionStem) (hnames : ∀ x ∈ c.functions.entries, Prose true x.2)
    {root : NodeId} {s : Statement} (h : (c.compile g root).1 = .ok s) :
    (c.compileText g root).1 = .ok (s.text c.options.layout) ∧
    (∃ ls, quotes (s.text c.options.layout) = some ls ∧
      List.Forall₂ Emission.Gives (s.emits c.options.layout) ls) ∧
    ∀ e ∈ s.emits c.options.layout, g.lexicon.Allows e.token := by
  have hw := hb.fits
  have hfacts := each_of_compile (lawful_lexicalFacts true hw hspaces (by simp) hstem) hw hnames
    (Prod.ext h rfl : c.compile g root = (.ok s, (c.compile g root).2))
  obtain ⟨hallowed, hread⟩ := (spells_statement hfacts c.options.layout).read
  exact ⟨by rw [compileText_eq, h]; rfl, hread, hallowed⟩

/-- A table whose name has a line feed, two levels deep. -/
def brokenName : List Call :=
  [.source "" "a\nb" [⟨"x", .int64⟩], .slice 0 none (some 5) none, .slice 1 none (some 2) none]

/-- What is quoted in the text is what was emitted. -/
theorem compileText_emits_brokenName :
    Built (Call.run brokenName) ∧ Prose true Options.default.functionStem ∧
    ∃ s ls, ((Compiler.new .default).compile (Call.run brokenName) 2).1 = .ok s ∧
      quotes (s.text Options.default.layout) = some ls ∧
      List.Forall₂ Emission.Gives (s.emits Options.default.layout) ls := by
  have hb : Built (Call.run brokenName) := .run (by simp [brokenName, Call.AllowedFrom])
  have hspaces : ∀ n ∈ (Call.run brokenName).nodes, ∀ table ∈ n.kind.table?,
      Plain table.space := by decide +kernel
  have hstem : Plain Options.default.functionStem := by decide
  have hok : ((Compiler.new .default).compile (Call.run brokenName) 2).1.toOption.isSome := by
    decide +kernel
  cases hcompile : ((Compiler.new .default).compile (Call.run brokenName) 2).1 with
  | error e =>
    rw [hcompile] at hok
    cases hok
  | ok s =>
    obtain ⟨-, ⟨ls, hls, hgives⟩, -⟩ := compileText_emits hb
      (fun n hn table ht => (hspaces n hn table ht).prose) hstem.prose
      (List.forall_mem_nil _) hcompile
    exact ⟨hb, hstem.prose, s, ls, rfl, hls, hgives⟩

/-- The second line of the name is indented with the level around it, so another name is read. -/
theorem quotes_brokenName :
    ((Compiler.new .default).compileText (Call.run brokenName) 2).1 =
      .ok "SELECT *\nFROM (\n  SELECT *\n  FROM `a\n  b` t1\n  LIMIT 5\n) t2\nLIMIT 2" ∧
    quotes "SELECT *\nFROM (\n  SELECT *\n  FROM `a\n  b` t1\n  LIMIT 5\n) t2\nLIMIT 2" =
      some [.name "a\n  b"] ∧
    ∀ n ∈ (Call.run brokenName).nodes, "a\n  b" ∉ n.names :=
  ⟨by decide +kernel, by decide +kernel, by decide +kernel⟩

end Compile

end PlanSql

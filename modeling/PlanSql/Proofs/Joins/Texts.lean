import PlanSql.Proofs.Joins.Words
import PlanSql.Proofs.Layout.Statements

/-!
# Calm expressions and tables

Whatever an expression or a table is made of, its text is calm: subqueries, calls and windows stand
in parentheses, and the other words of an expression begin no part of a list of joins. Only name
spaces and the names of user functions are printed as they are, so they must be words. The text of a
level is balanced, so it may stand in parentheses.
-/

namespace PlanSql

open Text Sql Compile

/-! ## Constants -/

section Constants

variable {c : Char} {s : String}

theorem isWordy_of_isDigit (h : c.isDigit = true) : isWordy c = true := by
  have hink := isInk_of_isDigit h
  rw [isInk, Bool.and_eq_true, Bool.and_eq_true] at hink
  have hopen : c ≠ '(' := by rintro rfl; cases h
  have hclose : c ≠ ')' := by rintro rfl; cases h
  rw [isWordy, isLoose, hink.1.1, hink.2, bne_iff_ne.2 hopen, bne_iff_ne.2 hclose]
  rfl

theorem wordy_repr (n : Nat) : Wordy (Nat.repr n) := by
  intro c hc
  rw [Nat.toList_repr] at hc
  exact isWordy_of_isDigit (Nat.isDigit_of_mem_toDigits (by decide) (by decide) hc)

theorem calm_number (h : ∀ c ∈ s.toList, c.isDigit = true ∨ c = '.') : Calm s := by
  have hwordy : Wordy s := by
    intro c hc
    rcases h c hc with hdigit | rfl
    · exact isWordy_of_isDigit hdigit
    · rfl
  apply calm_word hwordy
  by_cases hs : s = ""
  · rw [hs]
    decide
  · obtain ⟨c, hc⟩ := List.exists_mem_of_ne_nil _ (mt String.toList_eq_nil_iff.1 hs)
    rw [← String.ofList_toList (s := s)]
    apply not_mem_partWords hc
    rcases h c hc with hdigit | rfl
    · exact isUpper_of_isDigit hdigit
    · rfl

theorem calm_repr (n : Nat) : Calm (Nat.repr n) := by
  apply calm_number
  intro c hc
  rw [Nat.toList_repr] at hc
  exact .inl (Nat.isDigit_of_mem_toDigits (by decide) (by decide) hc)

/-- A text after a sign, or after none. -/
theorem calm_signed (negative : Bool) (h : Calm s) :
    Calm ((if negative then "-" else "") ++ s) := by
  cases negative with
  | false =>
    rw [if_neg Bool.false_ne_true, String.empty_append]
    exact h
  | true => exact h.sign

theorem calm_int (n : Int) : Calm (toString n) := by
  cases n with
  | ofNat m => exact calm_repr m
  | negSucc m => exact (calm_repr (m + 1)).sign

theorem Binary64.calm_sqlText (x : Binary64) : Calm x.sqlText := by
  unfold sqlText display
  split
  · apply calm_signed
    apply calm_number
    intro c hc
    rw [String.toList_ofList] at hc
    split at hc
    · exact Digits.isDigit_or_point hc
    · rcases List.mem_append.1 hc with hc | hc
      · exact Digits.isDigit_or_point hc
      · rcases List.mem_pair.1 hc with rfl | rfl
        · exact .inr rfl
        · exact .inl rfl
  · split
    · decide
    · exact calm_signed _ (by decide)

theorem Value.calm_sqlText (v : Value) : Calm v.sqlText := by
  cases v with
  | null => decide
  | boolean b => cases b <;> decide
  | integer n => exact calm_int n.toInt
  | float x => exact x.calm_sqlText
  | decimal d =>
    have hquoted := (calm_quoteString d.toString).balanced
    rw [quoteString_of_ink fun c => d.isInk_of_mem_toString] at hquoted
    have hbody : Balanced ("\x27" ++ d.toString ++ "\x27" ++ " AS DECIMAL") :=
      hquoted.append (by decide)
    have htext : (decimal d).sqlText =
        "CAST" ++ "(" ++ ("\x27" ++ d.toString ++ "\x27" ++ " AS DECIMAL") ++ ")" := by
      rw [sqlText_decimal, show "CAST(" = "CAST" ++ "(" by decide,
        show " AS DECIMAL)" = " AS DECIMAL" ++ ")" by decide]
      simp only [String.append_assoc]
    rw [htext]
    exact hbody.calm_call (by decide)
  | string s => exact calm_quoteString s
  | datetime t =>
    have hcall := (calm_int t.timestamp).balanced.calm_call (k := "FROM_UNIXTIME") (by decide)
    rwa [show "FROM_UNIXTIME" ++ "(" = "FROM_UNIXTIME(" by decide] at hcall

end Constants

/-! ## Expressions -/

namespace Sql

/-- The text of a level that may stand in another one, in parentheses. -/
structure NestedText (s : String) : Prop where
  matching : Matching s s
  balanced : Balanced s

/-- The text of an expression is calm, whenever the texts of levels may stand in parentheses. -/
def Expr.Calm (e : Expr) : Prop := ∀ f : LevelId → String, (∀ l, NestedText (f l)) →
  Text.Calm (e.text .flat f)

section Expressions

variable {f : LevelId → String} {s : String}

theorem wordy_alias (a : Alias) : Wordy a.text := (by decide : Wordy "t").append (wordy_repr a)

theorem calm_alias (a : Alias) : Text.Calm a.text := by
  apply calm_word (wordy_alias a)
  rw [← String.ofList_toList (s := a.text)]
  exact not_mem_partWords (c := 't') (by simp [Alias.text]) rfl

theorem balanced_list {ss : List String} (h : ∀ s ∈ ss, Balanced s) :
    Balanced (", ".intercalate ss) := .intercalate (by decide) h

theorem calm_forms : Forms (fun _ _ _ => Text.Calm) (fun _ _ => Balanced)
    (fun _ _ => NestedText) Wordy fun _ => True where
  constant v _ := v.calm_sqlText
  word := by decide +kernel
  typeName t := by cases t <;> decide
  symbol op := by cases op <;> decide
  number := calm_repr
  gap h h' := h.gap h'
  inside h := h.balanced
  empty := by decide
  pair hk h h' := by rcases hk with rfl | rfl <;> exact (h.append (by decide)).append h'
  level h := by
    obtain ⟨⟨hlevel, htrimmed, -⟩, hbody⟩ := h
    exact hbody.of_tokens (alike_collapseLines hlevel.left htrimmed).tokens
  call {k _ _ _} hk h := h.calm_call (hk.elim id fun hmem =>
    (by decide : ∀ k ∈ ["", "CAST", "FROM_UNIXTIME"], Wordy k) k hmem)
  branches _ parts h hparts := by
    have hlist := Calm.intercalate (List.forall_mem_map.2 fun x hx => (hparts x hx).choose_spec)
    exact (h.gap hlist).then (k := "END") (by decide) (by decide)

theorem Expr.calm_iff_holds {e : Expr} :
    e.Calm ↔ e.Holds (fun _ _ _ => Text.Calm) fun _ _ => NestedText :=
  ⟨fun h _ _ f' _ => h f', fun h f => h .flat f f fun _ => []⟩

theorem Expr.Calm.descending {e : Expr} (h : e.Calm) : (Expr.descending e).Calm :=
  calm_iff_holds.2 ((calm_iff_holds.1 h).descending calm_forms)

/-- Texts of expressions are calm if those of their parts are. -/
theorem calm_congruence : FullCongruence (fun e _ => e.Calm) Wordy fun _ => True := by
  simpa only [Expr.calm_iff_holds] using calm_forms.congruence

theorem calm_column (label : Alias) (field : String) : (Expr.column label field).Calm := by
  intro f _
  exact calm_quoteName ((wordy_alias label).append (by decide)) field

end Expressions

end Sql

/-! ## What levels are made of -/

def calmFacts : Facts where
  fragment := fun _ => Expr.Calm
  expr := Expr.Calm
  table := fun table => Wordy table.space
  name := fun _ => True
  function := Wordy

theorem isBlank_of_isUpper {c : Char} (h : c.isUpper = true) : isBlank c = false := by
  have h : 65 ≤ c.val ∧ c.val ≤ 90 := of_decide_eq_true h
  have hlow : 65 ≤ c.toNat := UInt32.le_iff_toNat_le.1 h.1
  have hhigh : c.toNat ≤ 90 := UInt32.le_iff_toNat_le.1 h.2
  simp only [isBlank, blankRanges, List.any_cons, List.any_nil, Bool.or_eq_false_iff,
    Bool.and_eq_false_iff, decide_eq_false_iff_not, and_true]
  omega

theorem wordy_of_isBuiltIn {name : String} (h : isBuiltIn name = true) : Wordy name := by
  intro c hc
  have hcapital := (capital_of_isBuiltIn h).2 c hc
  have hne : ∀ x : Char, (x.isUpper || x == '_') = false → c ≠ x := by
    rintro x hx rfl
    rw [hcapital] at hx
    cases hx
  have hblank : isBlank c = false := by
    rw [Bool.or_eq_true, beq_iff_eq] at hcapital
    rcases hcapital with hupper | rfl
    · exact isBlank_of_isUpper hupper
    · rfl
  rw [isWordy, isLoose, bare_of_isBuiltIn h c hc, hblank, bne_iff_ne.2 (hne '(' (by decide)),
    bne_iff_ne.2 (hne ')' (by decide))]
  rfl

section Values

variable {env : Env} {s : State} {id : NodeId} {n : Node} {e : Expr}

theorem calm_of_value (hw : env.graph.WellFormed False) (hn : env.graph.node? id = some n)
    (hfrag : ∀ x ∈ s.context.fragments, x.2.Calm)
    (hfun : ∀ x ∈ s.context.functions.entries, Wordy x.2)
    (he : valueExpr env.graph (s.parts env) id n.kind = .ok e) : e.Calm :=
  calm_congruence.of_node hw hn (fun _ => wordy_of_isBuiltIn) (by decide) (fun _ _ => trivial)
    (fun _ _ _ _ h f hf => (h f hf).sign)
    (fun _ _ f label _ _ => calm_column label f.name) hfrag hfun he

theorem lawful_calmFacts (hw : env.graph.WellFormed False)
    (hspaces : ∀ n ∈ env.graph.nodes, ∀ table ∈ n.kind.table?, Wordy table.space)
    (hstem : Wordy env.functionStem) (top : NodeId) : Lawful calmFacts env top where
  expr h := h
  descending h := h.descending
  table hn := hspaces _ (Array.mem_of_getElem? hn) _ rfl
  name _ _ _ _ := trivial
  function k := (hstem.append (by decide)).append (wordy_repr k)
  value _ hn _ hfrag hfun he := calm_of_value hw hn hfrag hfun he

end Values

/-! ## Levels -/

namespace Sql

variable {f : LevelId → String} {source : Source}

theorem calm_nestedText {body : String} (hcloses : Closes .outside body.toList) (h : Balanced body)
    (label : Alias) : Text.Calm (nestedText .flat body label) := by
  have halike := alike_indentLines_break Layout.flat.eq_of_mem_pad hcloses
  have hbody : Balanced ("\n" ++ indentLines Layout.flat.pad body ++ "\n") := by
    apply Balanced.of_tokens _ halike.tokens
    exact ((by decide : Balanced " ").append h).append (by decide)
  have hcalm := hbody.calm_parens.gap (calm_alias label)
  unfold nestedText
  rw [show "(\n" = "(" ++ "\n" by decide, show "\n) " = "\n" ++ ")" ++ " " by decide]
  simpa only [String.append_assoc] using hcalm

theorem calm_table {stored : Table} (h : Wordy stored.space) (label : Alias) (layout : Layout) :
    Text.Calm ((Source.table stored label).text layout f) := by
  rw [Source.text]
  apply Calm.gap _ (calm_alias label)
  split
  · exact calm_quoteName (by decide) stored.name
  · exact calm_quoteName (h.append (by decide)) stored.name

/-- A table expression that is no join. -/
theorem calm_source (hf : ∀ l, NestedText (f l)) (h : source.Each calmFacts)
    (hjoin : ∀ left how right on, source ≠ .join left how right on) :
    Text.Calm (source.text .flat f) := by
  cases source with
  | table stored label => exact calm_table h label .flat
  | derived level label => exact calm_nestedText (hf level).matching.left (hf level).balanced label
  | union left right label =>
    have hkeyword : Alike "\nUNION ALL\n" "\nUNION ALL\n" := alike_of_bare (by decide)
    have hboth := ((hf left).matching.toAlike.append hkeyword).append (hf right).matching.toAlike
    exact calm_nestedText hboth.left
      (((hf left).balanced.append (by decide)).append (hf right).balanced) label
  | join left how right on => exact absurd rfl (hjoin left how right on)

/-- The facts that make the text of a level balanced in any layout. -/
def nestedFacts : Facts where
  fragment := fun _ _ => True
  expr := fun e => e.Steady ∧ e.Calm
  table := fun table => steadyFacts.table table ∧ Wordy table.space
  name := OneLine
  function := fun _ => True

theorem Source.Each.nested (h : source.Each steadyFacts) (h' : source.Each calmFacts) :
    source.Each nestedFacts := by
  induction source with
  | table stored label => exact ⟨h, h'⟩
  | derived level label | union left right label => trivial
  | join left how right on ihl ihr =>
    exact ⟨ihl h.1 h'.1, ihr h.2.1 h'.2.1, fun e he => ⟨h.2.2 e he, h'.2.2 e he⟩⟩

theorem Query.Each.nested {q : Query} (h : q.Each steadyFacts) (h' : q.Each calmFacts) :
    q.Each nestedFacts where
  select items hitems i hi := ⟨⟨(h.select items hitems i hi).1, (h'.select items hitems i hi).1⟩,
    (h.select items hitems i hi).2⟩
  source := h.source.nested h'.source
  on e he := ⟨h.on e he, h'.on e he⟩
  filter e he := ⟨h.filter e he, h'.filter e he⟩
  groupBy es hes := ⟨(h.groupBy es hes).1,
    fun e he => ⟨(h.groupBy es hes).2 e he, (h'.groupBy es hes).2 e he⟩⟩
  having e he := ⟨h.having e he, h'.having e he⟩
  orderBy es hes := ⟨(h.orderBy es hes).1,
    fun e he => ⟨(h.orderBy es hes).2 e he, (h'.orderBy es hes).2 e he⟩⟩
  listed _ := trivial
  grouped := h.grouped
  limited := h.limited

theorem balanced_of_mem_clauseGaps {k : String} (hk : k ∈ clauseGaps) : Balanced k :=
  (by decide +kernel : ∀ k ∈ clauseGaps, Balanced k) k hk

/-- Levels stay balanced, however they are put together. -/
theorem balanced_levels : LevelForms nestedFacts (fun _ s t => Whole s t ∧ Balanced t)
    (fun _ s t => Alike s t ∧ Balanced t) fun _ s t => Matching s t ∧ Balanced t where
  expr h := fun layout f f' _ hf => by
    have hnested : ∀ l, NestedText (f' l) := fun l =>
      have hl := (hf l).1
      ⟨⟨hl.symm.trans hl.toAlike, hl.trimmedRight, hl.trimmedRight⟩, (hf l).2⟩
    exact ⟨h.1 layout f f' fun l => (hf l).1, (h.2 f' hnested).balanced⟩
  name {x} h := by
    have hname := (calm_quoteName (p := "") (by decide) x).balanced
    rw [String.empty_append] at hname
    exact ⟨whole_quoteName h, hname⟩
  table h label layout f f' := ⟨whole_table h.1.1 h.1.2 label layout f f',
    (calm_table h.2 label _).balanced⟩
  number n := ⟨whole_repr n, (calm_repr n).balanced⟩
  word w hw := ⟨whole_levels.word w hw, (by decide : ∀ w ∈ clauseWords, Balanced w) w hw⟩
  inside h := ⟨h.1.toAlike, h.2⟩
  level h := ⟨h.1.toAlike, h.2⟩
  empty := ⟨whole_levels.empty, rfl⟩
  pair k hk h h' := ⟨(h.1.append (alike_of_bare (bare_of_mem_clauseGaps hk))).append h'.1,
    (h.2.append (balanced_of_mem_clauseGaps hk)).append h'.2⟩
  gap k hk h h' := ⟨(h.1.append (alike_of_bare (bare_of_mem_clauseGaps hk))).append_whole h'.1,
    (h.2.append (balanced_of_mem_clauseGaps hk)).append h'.2⟩
  nested _ label h := ⟨whole_nestedText h.1 label, (calm_nestedText h.1.right h.2 label).balanced⟩
  indented layout h h' := by
    refine ⟨whole_indented layout h.1 h'.1, ?_⟩
    rw [String.append_assoc]
    exact h.2.append (Balanced.of_tokens ((by decide : Balanced " ").append h'.2)
      (alike_indentLines Layout.flat.eq_of_mem_pad h'.1.right h'.1.solidRight).tokens)
  filled n h h' := ⟨whole_filled n h.1 h'.1, (h.2.append (by decide)).append h'.2⟩
  lines layout parts h hparts := ⟨alike_lines layout h.1 fun x hx => (hparts x hx).1,
    (h.2.append (by decide)).append (balanced_list
      (List.forall_mem_map.2 fun x hx => (hparts x hx).2))⟩
  close l l' h := ⟨matching_of_whole h.1, h.2⟩

theorem nestedText_levelTexts {qs : List Query} (h : ∀ q ∈ qs, q.Each nestedFacts) (l : LevelId) :
    NestedText ((Statement.levelTexts .flat #[] qs).getD l "") := by
  have hnone : ∀ l, Matching ((#[] : Array String).getD l "") ((#[] : Array String).getD l "") ∧
      Balanced ((#[] : Array String).getD l "") := fun _ => balanced_levels.empty
  obtain ⟨hmatching, hbalanced⟩ := balanced_levels.levelTexts .flat h #[] rfl rfl hnone l
  exact ⟨hmatching, hbalanced⟩

end Sql

end PlanSql

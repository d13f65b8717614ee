import PlanSql.Proofs.Compile.Stored
import PlanSql.Proofs.Layout.Forms

/-!
# Texts of levels

The text of a level is put together from those of its expressions, names and other levels.
`LevelForms` lists the ways for a property of the tokens that are written, of the text, and of the
text in the flat layout, as `Forms` does for expressions. What goes through all of them holds of
every statement.
-/

namespace PlanSql.Sql

open Text

/-! ## Tokens -/

section Emits

variable (layout : Layout) (levels : LevelId → List Emission)

/-- The tokens of the text of a table expression. -/
def Source.emits : Source → List Emission
  | .table stored _ => [⟨.name stored.name, false⟩]
  | .derived level _ => (levels level).map Emission.move
  | .union left right _ => (levels left ++ levels right).map Emission.move
  | .join left _ right on => left.emits ++ right.emits.map Emission.move ++
      (on.toList.map (Expr.emits layout levels)).flatten

/-- The tokens of a selected value. -/
def Item.emits (i : Item Expr) : List Emission :=
  i.expr.emits layout levels ++ i.name.toList.map fun name => ⟨.name name, false⟩

def Query.emitClauses (q : Query) : List (List Emission) :=
  let one (e : Option Expr) := e.toList.map (Expr.emits layout levels)
  let all (es : Option (List Expr)) := es.toList.map (·.flatMap (Expr.emits layout levels))
  layout.spread ((q.select.getD []).flatMap (Item.emits layout levels)) ::
    q.source.emits layout levels ::
    (one q.on ++ one q.filter ++ all q.groupBy ++ one q.having ++ all q.orderBy ++
      q.limit.toList.map fun _ => [])

/-- The tokens of levels, where `done` holds those of the levels before them. -/
def Statement.levelEmits (done : Array (List Emission)) : List Query → Array (List Emission)
  | [] => done
  | q :: rest =>
    levelEmits (done.push (q.emitClauses layout fun id => done.getD id []).flatten) rest

/-- The names and string constants of a statement, as they are written. -/
def Statement.emits (s : Statement) : List Emission :=
  (Statement.levelEmits layout #[] s.levels.toList).getD s.root []

end Emits

/-! ## Forms -/

def clauseWords : List String :=
  ["SELECT", "SELECT DISTINCT", "SELECT *", "SELECT DISTINCT *", "FROM",
    "INNER JOIN", "LEFT OUTER JOIN", "RIGHT OUTER JOIN", "FULL OUTER JOIN", "ON", "WHERE",
      "GROUP BY", "HAVING", "ORDER BY", "LIMIT"]

/-- What stands between the parts of a level. -/
def clauseGaps : List String := [" ", "\n", ", ", "\nON ", "\nUNION ALL\n"]

/-- The ways in which levels are put together keep the property `A` of texts that end in something,
the property `I` of what may stand in parentheses, and the property `V` of levels. -/
structure LevelForms (facts : Facts) (A I V : List Emission → String → String → Prop) : Prop where
  expr : ∀ {e}, facts.expr e → e.Holds (fun _ => A) V
  name : ∀ {x}, facts.name x → A [⟨.name x, false⟩] (quoteName x) (quoteName x)
  table : ∀ {stored}, facts.table stored → ∀ label layout f f',
    A [⟨.name stored.name, false⟩] ((Source.table stored label).text layout f)
      ((Source.table stored label).text .flat f')
  number : ∀ n : Nat, A [] (Nat.repr n) (Nat.repr n)
  word : ∀ w ∈ clauseWords, I [] w w
  inside : ∀ {es s t}, A es s t → I es s t
  level : ∀ {es s t}, V es s t → I es s t
  empty : V [] "" ""
  pair : ∀ {es es' s s' t t'}, ∀ k ∈ clauseGaps, I es s t → I es' s' t' →
    I (es ++ es') (s ++ k ++ s') (t ++ k ++ t')
  gap : ∀ {es es' s s' t t'}, ∀ k ∈ clauseGaps, I es s t → A es' s' t' →
    A (es ++ es') (s ++ k ++ s') (t ++ k ++ t')
  nested : ∀ {es s t} layout label, I es s t →
    A (es.map Emission.move) (nestedText layout s label) (nestedText .flat t label)
  indented : ∀ {es es' s s' t t'} (layout : Layout), I es s t → A es' s' t' →
    A (es ++ es'.map Emission.move) (s ++ "\n" ++ indentLines layout.pad s')
      (t ++ "\n" ++ indentLines Layout.flat.pad t')
  filled : ∀ {es es' s s' t t'} (n : Nat), A es s t → A es' s' t' →
    A (es ++ es') (s ++ String.ofList (List.replicate n ' ') ++ " AS " ++ s') (t ++ " AS " ++ t')
  lines : ∀ {es s t} (layout : Layout) (parts : List (List Emission × String × String)), I es s t →
    (∀ x ∈ parts, A x.1 x.2.1 x.2.2) → I (es ++ (parts.flatMap (·.1)).map Emission.move)
      (s ++ "\n" ++ ",\n".intercalate ((parts.map (·.2.1)).map (indentLines layout.pad)))
      (t ++ " " ++ ", ".intercalate (parts.map (·.2.2)))
  close : ∀ {es layout} (l l' : Level String String), A es (l.text layout) (l'.text .flat) →
    V es (l.text layout) (l'.text .flat)

/-- Lines that have a property, one by one. -/
def Lines (A : List Emission → String → String → Prop) (ess : List (List Emission))
    (ss ts : List String) : Prop :=
  ∃ parts : List (List Emission × String × String), ess = parts.map (·.1) ∧ ss = parts.map (·.2.1) ∧
    ts = parts.map (·.2.2) ∧ ∀ x ∈ parts, A x.1 x.2.1 x.2.2

theorem Lines.append {A : List Emission → String → String → Prop} {ess ess' : List (List Emission)}
    {ss ss' ts ts' : List String} (h : Lines A ess ss ts) (h' : Lines A ess' ss' ts') :
    Lines A (ess ++ ess') (ss ++ ss') (ts ++ ts') := by
  obtain ⟨parts, rfl, rfl, rfl, h⟩ := h
  obtain ⟨parts', rfl, rfl, rfl, h'⟩ := h'
  exact ⟨parts ++ parts', by simp, by simp, by simp, List.forall_mem_append.2 ⟨h, h'⟩⟩

namespace LevelForms

variable {facts : Facts} {A I V : List Emission → String → String → Prop}
  (F : LevelForms facts A I V) (layout : Layout) (levels : LevelId → List Emission)
  {f f' : LevelId → String} (hf : ∀ l, V (levels l) (f l) (f' l))

include F

theorem list {α : Type} {k : String} (hk : k ∈ clauseGaps)
    {E : α → List Emission} {S T : α → String}
    {l : List α} (hl : l ≠ []) (h : ∀ x ∈ l, A (E x) (S x) (T x)) :
    A (l.flatMap E) (k.intercalate (l.map S)) (k.intercalate (l.map T)) :=
  list_of_pair (fun h h' => F.gap k hk (F.inside h) h') hl h

include hf

theorem source {source : Source} (h : source.Each facts) :
    A (source.emits layout levels) (source.text layout f) (source.text .flat f') := by
  induction source with
  | table stored label => exact F.table h label layout f f'
  | derived level label => exact F.nested layout label (F.level (hf level))
  | union left right label =>
    exact F.nested layout label (F.pair _ (by decide) (F.level (hf left)) (F.level (hf right)))
  | join left how right on ihl ihr =>
    have hword : how.sqlName ++ " JOIN" ∈ clauseWords := by cases how <;> decide
    have hleft := F.pair "\n" (by decide) (F.inside (ihl h.1)) (F.word _ hword)
    have hsides := F.indented layout hleft (ihr h.2.1)
    have hbreak : " JOIN\n" = " JOIN" ++ "\n" := by decide
    cases on with
    | none => simpa [Source.text, Source.emits, String.append_assoc, hbreak] using hsides
    | some e =>
      have hon := F.gap "\nON " (by decide) (F.inside hsides)
        (F.expr (h.2.2 e rfl) layout f f' levels hf)
      simpa [Source.text, Source.emits, String.append_assoc, hbreak] using hon

theorem item {i : Item Expr} (h : i.Each facts) (width : Nat) :
    A (i.emits layout levels) ((i.map (Expr.text layout f)).text width)
      ((i.map (Expr.text .flat f')).text 0) := by
  obtain ⟨e, name⟩ := i
  have he := F.expr h.1 layout f f' levels hf
  cases name with
  | none => simpa [Item.emits, Item.map, Item.text] using he
  | some name =>
    have hfilled := F.filled (width - (e.text layout f).length) he (F.name (h.2 name rfl))
    simpa [Item.emits, Item.map, Item.text] using hfilled

theorem select (distinct : Bool) {items : Option (List (Item Expr))}
    (h : ∀ is ∈ items, ∀ i ∈ is, i.Each facts) :
    I (layout.spread ((items.getD []).flatMap (Item.emits layout levels)))
      (Level.selectText layout distinct (items.map (·.map (Item.map (Expr.text layout f)))))
      (Level.selectText .flat distinct (items.map (·.map (Item.map (Expr.text .flat f'))))) := by
  have hkeyword : I [] (if distinct then "SELECT DISTINCT" else "SELECT")
      (if distinct then "SELECT DISTINCT" else "SELECT") := by
    cases distinct <;> exact F.word _ (by decide)
  cases items with
  | none =>
    have hall : I [] ((if distinct then "SELECT DISTINCT" else "SELECT") ++ " *")
        ((if distinct then "SELECT DISTINCT" else "SELECT") ++ " *") := by
      cases distinct <;> exact F.word _ (by decide)
    simpa [Layout.spread, Level.selectText] using hall
  | some is =>
    by_cases hb : layout.beautify = true
    · have hlines := F.lines layout (is.map fun i => (i.emits layout levels,
        (i.map (Expr.text layout f)).text (if (i.map (Expr.text layout f)).isLong then 0 else
          Item.width (is.map (Item.map (Expr.text layout f)))),
            (i.map (Expr.text .flat f')).text 0))
        hkeyword (List.forall_mem_map.2 fun i hi => F.item layout levels hf (h is rfl i hi) _)
      simpa [Layout.spread, Level.selectText, hb, Layout.flat, Function.comp_def, List.flatMap_map]
        using hlines
    · have hlist : I (is.flatMap (Item.emits layout levels))
          (", ".intercalate (is.map fun i => (i.map (Expr.text layout f)).text 0))
          (", ".intercalate (is.map fun i => (i.map (Expr.text .flat f')).text 0)) := by
        by_cases hnil : is = []
        · rw [hnil]
          exact F.level F.empty
        · exact F.inside (F.list (by decide) hnil fun i hi =>
            F.item layout levels hf (h is rfl i hi) 0)
      have hentries := F.pair " " (by decide) hkeyword hlist
      simpa [Layout.spread, Level.selectText, hb, Layout.flat, Function.comp_def] using hentries

omit hf in
theorem line {α : Type} {k : String} (hk : k ∈ clauseWords) {x : Option α} {E : α → List Emission}
    {S T : α → String} (h : ∀ a ∈ x, A (E a) (S a) (T a)) :
    Lines A (x.toList.map E) (Level.line k (x.map S)) (Level.line k (x.map T)) := by
  cases x with
  | none => exact ⟨[], rfl, rfl, rfl, List.forall_mem_nil _⟩
  | some a =>
    refine ⟨[(E a, k ++ " " ++ S a, k ++ " " ++ T a)], rfl, rfl, rfl,
      List.forall_mem_singleton.2 ?_⟩
    exact F.gap " " (by decide) (F.word k hk) (h a rfl)

/-- The text of a level whose parts have the property. -/
theorem query {q : Query} (h : q.Each facts) :
    V (q.emitClauses layout levels).flatten (q.text layout f) (q.text .flat f') := by
  have hexpr : ∀ {e}, facts.expr e → A (e.emits layout levels)
    (e.text layout f) (e.text .flat f') :=
    fun he => F.expr he layout f f' levels hf
  have hkeys : ∀ {es}, KeysEach facts es → A (es.flatMap (Expr.emits layout levels))
      (", ".intercalate (es.map (Expr.text layout f)))
      (", ".intercalate (es.map (Expr.text .flat f'))) :=
    fun hes => F.list (by decide) hes.1 fun e he => hexpr (hes.2 e he)
  have hon := F.line (k := "ON") (by decide) fun e he => hexpr (h.on e he)
  have hfilter := F.line (k := "WHERE") (by decide) fun e he => hexpr (h.filter e he)
  have hgroup := F.line (k := "GROUP BY") (by decide) fun es hes => hkeys (h.groupBy es hes)
  have hhaving := F.line (k := "HAVING") (by decide) fun e he => hexpr (h.having e he)
  have horder := F.line (k := "ORDER BY") (by decide) fun es hes => hkeys (h.orderBy es hes)
  have hlimit := F.line (k := "LIMIT") (by decide) fun n (_ : n ∈ q.limit) => F.number n
  have hfrom := F.line (k := "FROM") (by decide) (x := some q.source) fun source hsource =>
    F.source layout levels hf (Option.some.inj hsource ▸ h.source)
  obtain ⟨parts, hes, hss, hts, hparts⟩ := hfrom.append
    (((((hon.append hfilter).append hgroup).append hhaving).append horder).append hlimit)
  have hne : parts ≠ [] := by
    rintro rfl
    cases hss
  have hall := F.gap "\n" (by decide) (F.select layout levels hf q.distinct h.select)
    (F.list (k := "\n") (by decide) hne hparts)
  have hemits : parts.flatMap (·.1) = _ := congrArg List.flatten hes.symm
  rw [← hss, ← hts, hemits] at hall
  refine F.close (q.map (Expr.text layout f) (Source.text layout f))
    (q.map (Expr.text .flat f') (Source.text .flat f')) ?_
  simpa [Query.emitClauses, Level.text, Level.map, Level.line, Function.comp_def] using hall

omit hf in
theorem levelTexts {qs : List Query} (h : ∀ q ∈ qs, q.Each facts) {done done' : Array String}
    (emitted : Array (List Emission)) (hsize : done.size = emitted.size)
    (hsize' : done'.size = emitted.size)
    (hdone : ∀ l, V (emitted.getD l []) (done.getD l "") (done'.getD l "")) (l : LevelId) :
    V ((Statement.levelEmits layout emitted qs).getD l [])
      ((Statement.levelTexts layout done qs).getD l "")
      ((Statement.levelTexts .flat done' qs).getD l "") := by
  induction qs generalizing done done' emitted with
  | nil => exact hdone l
  | cons q rest ih =>
    rw [List.forall_mem_cons] at h
    refine ih h.2 _ (by simp [hsize]) (by simp [hsize']) fun l' => ?_
    have hq := F.query layout _ hdone h.1
    have hl' := hdone l'
    simp only [Array.getD_eq_getD_getElem?, Array.getElem?_push, hsize, hsize'] at hl' hq ⊢
    split
    · exact hq
    · exact hl'

omit hf in
/-- What holds of the parts of all levels holds of the statement. -/
theorem statement {s : Statement} (h : ∀ q ∈ s.levels, q.Each facts) :
    V (s.emits layout) (s.text layout) (s.text .flat) := by
  have hnone : ∀ l, V ((#[] : Array (List Emission)).getD l []) ((#[] : Array String).getD l "")
      ((#[] : Array String).getD l "") := fun _ => F.empty
  exact F.levelTexts layout (fun q hq => h q (Array.mem_toList_iff.1 hq)) #[] rfl rfl hnone s.root

end LevelForms

end PlanSql.Sql

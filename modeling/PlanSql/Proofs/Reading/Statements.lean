import PlanSql.Proofs.Compile.Stored
import PlanSql.Proofs.Reading.Misread

/-!
# How statements are read

Every expression of a statement is the expression of some value of the graph. All that is stored on
the way, as a fragment, in a clause or ahead of a level, keeps this, so the text of each expression
of a statement is read back exactly if no part of its value is misread.
-/

namespace PlanSql.Reading

open PlanSql.Sql PlanSql.Compile

variable {g : Graph}

/-! ## Expressions of a statement -/

/-- The conditions of the joins of a table expression. -/
def conditions : Source → List Expr
  | .join left _ right on => conditions left ++ conditions right ++ on.toList
  | _ => []

def clauseExprs (c : Clauses Expr Source) : List Expr :=
  (c.select.getD []).map Item.expr ++ c.source.toList.flatMap conditions ++ c.on.toList ++
    c.filter.toList ++ c.groupBy.getD [] ++ c.having.toList ++ c.orderBy.getD []

def levelExprs (q : Query) : List Expr :=
  (q.select.getD []).map Item.expr ++ conditions q.source ++ q.on.toList ++
    q.filter.toList ++ q.groupBy.getD [] ++ q.having.toList ++ q.orderBy.getD []

/-- The expressions of a statement. -/
def statementExprs (s : Statement) : List Expr := s.levels.toList.flatMap levelExprs

theorem levelExprs_of_close {c : Clauses Expr Source} {limit : Nat} {q : Query}
    (h : c.close limit = .ok q) : levelExprs q = clauseExprs c := by
  unfold Clauses.close at h
  split at h
  · cases h
  · next source hs =>
    cases h
    simp [levelExprs, clauseExprs, hs]

/-- `e` shows a value, or orders rows by it. -/
def Shows (g : Graph) (e : Expr) : Prop :=
  ∃ v e', Rendering g v e' ∧ (e = e' ∨ e = .descending e')

theorem Rendering.shows {v : NodeId} {e : Expr} (h : Rendering g v e) : Shows g e :=
  ⟨v, e, h, .inl rfl⟩

/-- What is stored for a value is an expression of it. -/
def showFacts (g : Graph) : Facts where
  fragment := Rendering g
  expr := Shows g
  table _ := True
  name _ := True
  function _ := True

theorem lawful_showFacts (env : Env) (top : NodeId) : Lawful (showFacts env.graph) env top where
  expr h := h.shows
  descending {id e} h := ⟨id, e, h, .inr rfl⟩
  table _ := trivial
  name _ _ _ _ := trivial
  function _ := trivial
  value {s id n t e} _ hn _ hfrag _ he := .node (s.parts env) hn
    (fun x _ hx => hfrag (x, _) (mem_of_lookup (Context.fragment_eq_ok_iff.1 hx))) he

theorem conditions_each {F : Facts} {source : Source} (h : source.Each F) :
    ∀ e ∈ conditions source, F.expr e := by
  induction source with
  | join left how right on ihl ihr =>
    simp only [conditions, List.forall_mem_append, Option.mem_toList]
    exact ⟨⟨ihl h.1, ihr h.2.1⟩, h.2.2⟩
  | _ => simp [conditions]

theorem levelExprs_each {F : Facts} {q : Query} (h : q.Each F) : ∀ e ∈ levelExprs q, F.expr e := by
  simp only [levelExprs, List.forall_mem_append, List.forall_mem_map, Option.mem_toList]
  refine ⟨⟨⟨⟨⟨⟨?_, conditions_each h.source⟩, h.on⟩, h.filter⟩, ?_⟩, h.having⟩, ?_⟩
  · cases hs : q.select with
    | none => simp
    | some items => exact fun i hi => (h.select items hs i hi).1
  · cases hs : q.groupBy with
    | none => simp
    | some keys => exact (h.groupBy keys hs).2
  · cases hs : q.orderBy with
    | none => simp
    | some keys => exact (h.orderBy keys hs).2

theorem compile_shows {c c' : Compiler} {root : NodeId} {s : Statement} (hw : g.WellFormed False)
    (h : c.compile g root = (.ok s, c')) : ∀ e ∈ statementExprs s, Shows g e := by
  intro e he
  obtain ⟨q, hq, he⟩ := List.mem_flatMap.1 he
  have heach := each_of_compile (lawful_showFacts (c.env g) root) hw (fun _ _ => trivial) h
  exact levelExprs_each (heach q (Array.mem_toList_iff.1 hq)) e he

/-- **Expressions of a statement are read back.** Every expression of a compiled statement is that
of some value, perhaps with a direction. Its text is the text of its tokens, and its tokens are read
as the expression itself, where every operator has the operands of its node, exactly if no part of
the value is misread. -/
theorem compile_parse_iff {g : Graph} (hg : Built g) {c c' : Compiler}
    {root : NodeId} {s : Statement}
    (h : c.compile g root = (.ok s, c')) {shown : Expr} (hshown : shown ∈ statementExprs s)
    (layout : Layout) (levelText : LevelId → String) :
    ∃ v e, Rendering g v e ∧ (shown = e ∨ shown = .descending e) ∧
      dense (e.text layout levelText) = spell (treeOf levelText e).tokens ∧
      (parse (treeOf levelText e).tokens = some (treeOf levelText e).erase ↔ ReadRight g v) := by
  have hw := hg.fits
  obtain ⟨v, e, hrendering, he⟩ := compile_shows hw h shown hshown
  refine ⟨v, e, hrendering, he, dense_text layout levelText e, ?_⟩
  rw [parse_tokens_iff, hrendering.adequate_iff hw levelText]

/-- The rows of which it is not known whether a flag is not set. -/
def unknownInverse : List Call :=
  [.source "" "flags" [⟨"b", .boolean⟩], .column 0 "b", .unary .invert 1, .isNull 2, .filter 0 3]

/-- The condition of the rows: an inversion that is tested for null. -/
def unknownInverseCondition : Expr := .isNull false (.not (.column 1 "b"))

theorem compile_unknownInverse :
    ∃ s c', (Compiler.new .default).compile (Call.run unknownInverse) 4 = (.ok s, c') ∧
      unknownInverseCondition ∈ statementExprs s := by
  refine ⟨⟨#[⟨none, false, .table ⟨"", "flags", ⟨[⟨"b", .boolean⟩]⟩⟩ 1, none,
    some unknownInverseCondition, none, none, none, none⟩], 0⟩, _, rfl, ?_⟩
  simp [statementExprs, levelExprs, conditions]

theorem built_unknownInverse : Built (Call.run unknownInverse) :=
  .run (by simp [unknownInverse, Call.AllowedFrom])

/-- The condition is read back exactly if no part of its value is misread. -/
theorem compile_parse_iff_unknownInverse :
    ∃ s c', (Compiler.new .default).compile (Call.run unknownInverse) 4 = (.ok s, c') ∧
      ∃ v e, Rendering (Call.run unknownInverse) v e ∧
        (unknownInverseCondition = e ∨ unknownInverseCondition = .descending e) ∧
        dense (e.text ⟨2, false⟩ fun _ => "") = spell (treeOf (fun _ => "") e).tokens ∧
        (parse (treeOf (fun _ => "") e).tokens = some (treeOf (fun _ => "") e).erase ↔
          ReadRight (Call.run unknownInverse) v) := by
  obtain ⟨s, c', hs, hmem⟩ := compile_unknownInverse
  exact ⟨s, c', hs, compile_parse_iff built_unknownInverse hs hmem ⟨2, false⟩ fun _ => ""⟩

/-- The test is applied to the inversion, but its text is read as the inversion of a test. -/
theorem parse_unknownInverse :
    ((Call.run unknownInverse).node? 2).map Node.kind = some (.unary .invert 1) ∧
    ((Call.run unknownInverse).node? 3).map Node.kind = some (.element (.isNull 2)) ∧
    (∃ s c', (Compiler.new .default).compile (Call.run unknownInverse) 4 = (.ok s, c') ∧
      unknownInverseCondition ∈ statementExprs s) ∧
    unknownInverseCondition.text ⟨2, false⟩ (fun _ => "") = "NOT t1.`b` IS NULL" ∧
    (treeOf (fun _ => "") unknownInverseCondition).erase =
      .suffix .test " IS NULL" (.not (.word "t1.`b`")) ∧
    parse (treeOf (fun _ => "") unknownInverseCondition).tokens =
      some (.not (.suffix .test " IS NULL" (.word "t1.`b`"))) :=
  ⟨rfl, rfl, compile_unknownInverse, rfl, rfl, rfl⟩

end PlanSql.Reading

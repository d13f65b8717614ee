import PlanSql.Proofs.Layout.Statements

/-!
# The form of the levels of a statement

The text of a level has a line for every clause that the level has, in one fixed order. A level has
a condition on groups only if it is grouped, a limit if it is ordered, and the lists of its keys are
not empty. The list of its selected values is empty only if the plan has an operator that shows
nothing: most operators are not built without fields, but a collection can be extended by no values,
and the different rows of a collection without fields can be taken.
-/

namespace PlanSql

open PlanSql.Sql

namespace Sql

/-- The clauses of a level. -/
inductive Heading
  | select | source | on | filter | groupBy | having | orderBy | limit
  deriving DecidableEq

namespace Heading

/-- The clauses in the order of a statement. -/
def all : List Heading := [select, source, on, filter, groupBy, having, orderBy, limit]

/-- The text that a clause begins with. -/
def text : Heading → String
  | select => "SELECT"
  | source => "FROM"
  | on => "ON"
  | filter => "WHERE"
  | groupBy => "GROUP BY"
  | having => "HAVING"
  | orderBy => "ORDER BY"
  | limit => "LIMIT"

end Heading

/-- The lines begin with the headings. -/
def Lined (headings : List Heading) (lines : List String) : Prop :=
  List.Forall₂ (fun k line => ∃ rest, line = k.text ++ rest) headings lines

namespace Level

variable {ε φ : Type}

/-- Whether a level has a clause. -/
def has (l : Level ε φ) : Heading → Bool
  | .select | .source => true
  | .on => l.on.isSome
  | .filter => l.filter.isSome
  | .groupBy => l.groupBy.isSome
  | .having => l.having.isSome
  | .orderBy => l.orderBy.isSome
  | .limit => l.limit.isSome

theorem has_map {ε' φ' : Type} (f : ε → ε') (g : φ → φ') (l : Level ε φ) :
    (l.map f g).has = l.has := by
  funext k
  cases k <;> simp [has, Level.map]

/-- The clauses that a level has, in the order of a statement. -/
def headings (l : Level ε φ) : List Heading := Heading.all.filter l.has

theorem lined_line (l : Level String String) (k : Heading) (text : Option String)
    (h : l.has k = text.isSome) : Lined ([k].filter l.has) (line k.text text) := by
  cases text with
  | none =>
    rw [List.filter_singleton, h]
    exact .nil
  | some text =>
    rw [List.filter_singleton, h]
    exact .cons ⟨" " ++ text, String.append_assoc⟩ .nil

theorem lined_text (layout : Layout) (l : Level String String) :
    ∃ lines, l.text layout = "\n".intercalate lines ∧ Lined l.headings lines := by
  obtain ⟨t, ht⟩ := exists_selectText layout l.distinct l.select
  refine ⟨_, rfl, .cons ⟨t, ht⟩ (.cons ⟨" " ++ l.source, ?_⟩ ?_)⟩
  · rw [← String.append_assoc]
    rfl
  have hsplit : [Heading.on, .filter, .groupBy, .having, .orderBy, .limit].filter l.has =
      [.on].filter l.has ++ [.filter].filter l.has ++ [.groupBy].filter l.has ++
        [.having].filter l.has ++ [.orderBy].filter l.has ++ [.limit].filter l.has := by
    simp only [← List.filter_append]
    rfl
  rw [hsplit]
  refine List.rel_append (List.rel_append (List.rel_append (List.rel_append (List.rel_append
    (lined_line l .on _ rfl) (lined_line l .filter _ rfl)) (lined_line l .groupBy _ ?_))
    (lined_line l .having _ rfl)) (lined_line l .orderBy _ ?_)) (lined_line l .limit _ ?_)
  all_goals simp [has]

end Level

/-- A level selects all columns or at least one value, unless `nothing` holds. It has groups if it
has a condition on them and a limit if it has an order, and its lists of keys are not empty. -/
structure Query.Formed (nothing : Prop) (q : Query) : Prop where
  select : q.select = some [] → nothing
  having : q.has .having → q.has .groupBy
  groupBy : q.groupBy ≠ some []
  orderBy : q.orderBy ≠ some []
  limit : q.has .orderBy → q.has .limit

theorem Query.Each.formed {F : Facts} {q : Query} (h : q.Each F) : q.Formed F.nothing where
  select := h.listed
  having := h.grouped
  groupBy hnil := (h.groupBy [] hnil).1 rfl
  orderBy hnil := (h.orderBy [] hnil).1 rfl
  limit := h.limited

end Sql

/-- An operator of a plan shows nothing: it extends a collection by no values and keeps none, or
takes the different rows of no fields. -/
def Graph.ShowsNothing (g : Graph) (root : NodeId) : Prop :=
  ∃ id input shape, g.Reach root id ∧ (g.node? id = some ⟨.mutate input [] [], shape⟩ ∨
    g.node? id = some ⟨.distinct input [], shape⟩)

namespace Compile

/-- Nothing is said of the parts of a level, only of what it lists. -/
def formFacts (nothing : Prop) : Facts where
  fragment _ _ := True
  expr _ := True
  table _ := True
  name _ := True
  function _ := True
  nothing := nothing

theorem lawful_formFacts {env : Env} (hw : env.graph.WellFormed False) (top : NodeId) :
    Lawful (formFacts (env.graph.ShowsNothing top)) env top where
  expr _ := trivial
  descending _ := trivial
  table _ := trivial
  name _ _ _ _ := trivial
  function _ := trivial
  value _ _ _ _ _ _ := trivial
  nothing {id n sel} hreach hn hsel hnil := by
    have hfits := hw id n hn
    obtain ⟨kind, shape⟩ := n
    cases kind with
    | project input fields | summary input fields =>
      cases hsel
      cases shape with
      | collection schema => exact absurd hnil hfits.2.1
      | sequence typed | scalar typed => exact hfits.elim
    | mutate input keys mutates =>
      cases hsel
      obtain ⟨rfl, rfl⟩ := List.append_eq_nil_iff.1 hnil
      exact ⟨id, input, shape, hreach, .inl hn⟩
    | distinct input fields =>
      cases hsel
      obtain rfl : fields = [] := hnil
      exact ⟨id, input, shape, hreach, .inr hn⟩
    | _ => cases hsel

/-- Every level of a statement is formed as a level is, and its text has one line for each clause it
has, in the order of a statement. -/
theorem compile_formed {c c' : Compiler} {g : Graph} {root : NodeId} {s : Statement} (hb : Built g)
    (h : c.compile g root = (.ok s, c')) :
    ∀ q ∈ s.levels, q.Formed (g.ShowsNothing root) ∧ ∀ layout levelText, ∃ lines,
      q.text layout levelText = "\n".intercalate lines ∧ Lined q.headings lines := by
  have hw := hb.fits
  intro q hq
  have heach := each_of_compile (@lawful_formFacts (c.env g) hw root) hw
    (fun _ _ => trivial) h q hq
  refine ⟨heach.formed, fun layout levelText => ?_⟩
  obtain ⟨lines, htext, hlines⟩ := Level.lined_text layout
    (q.map (Expr.text layout levelText) (Source.text layout levelText))
  rw [Level.headings, Level.has_map] at hlines
  exact ⟨lines, htext, hlines⟩

/-- The shops that have sold for more than a hundred, by what they have sold for. -/
def largeShops : List Call :=
  [.source "" "sales" [⟨"shop", .int64⟩, ⟨"amount", .int64⟩], .column 0 "shop", .column 0 "amount",
    .reduce .sum 2 0, .rename 3 "total", .literal (.integer 100), .binary .gt 3 5,
    .groupBy 0 [1] [4] (some 6), .column 7 "total", .sort 7 [⟨8, false⟩]]

/-- One level has groups and a condition on them, the level around it an order and a limit. -/
theorem compile_formed_largeShops : Built (Call.run largeShops) ∧
    ∃ s c', (Compiler.new .default).compile (Call.run largeShops) 9 = (.ok s, c') ∧
      s.levels.toList.map Level.headings =
        [[.select, .source, .groupBy, .having], [.select, .source, .orderBy, .limit]] ∧
      ∀ q ∈ s.levels, q.Formed ((Call.run largeShops).ShowsNothing 9) ∧
        ∀ layout levelText, ∃ lines,
          q.text layout levelText = "\n".intercalate lines ∧ Lined q.headings lines := by
  have hb : Built (Call.run largeShops) := BuiltBy.run (by simp [largeShops, Call.AllowedFrom])
  have hkeywords : ((Compiler.new .default).compile (Call.run largeShops) 9).1.toOption.map
      (·.levels.toList.map Level.headings) = some
        [[.select, .source, .groupBy, .having], [.select, .source, .orderBy, .limit]] := by
    decide +kernel
  obtain ⟨s, c', hs, hlevels⟩ := exists_of_compile hkeywords
  exact ⟨hb, s, c', hs, hlevels, compile_formed hb hs⟩

def extendedByNothing : List Call := [.source "" "a" [⟨"id", .int64⟩], .mutate 0 [] []]

/-- The level of a table that is extended by nothing selects no values. -/
theorem select_extendedByNothing :
    ∃ s c', (Compiler.new .default).compile (Call.run extendedByNothing) 1 = (.ok s, c') ∧
      s.levels.toList.map (·.select.map List.length) = [some 0] :=
  exists_of_compile (by decide +kernel)

end Compile

end PlanSql

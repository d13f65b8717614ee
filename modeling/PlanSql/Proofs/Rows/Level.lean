import Mathlib.Data.List.Sort
import PlanSql.Proofs.Rows.Eval

/-!
# The rows of a statement

A level shows rows of what it selects from: it keeps those for which its condition holds, then
either puts them in groups, keeps groups, and shows one row for each, or sorts them and shows one
row for each; then it drops repeated rows and cuts the rest off. A statement shows the rows of its
root, where each level reads the levels before it. Only levels over one stored table or one other
level have rows here.

The second half says what filling one more clause does to the rows of a level. Each of these laws
has the conditions under which the compiler fills that clause instead of wrapping the level.
-/

namespace PlanSql.Rows

open PlanSql.Sql PlanSql.Compile

variable {V : Type}

/-! ## Order -/

/-- The order of rows by some keys, each with its direction: the first key that differs decides. -/
def lexLe (S : Scalars V) : List (Bool × V) → List (Bool × V) → Bool
  | (ascending, x) :: xs, (_, y) :: ys =>
    if ascending then S.le x y && (!S.le y x || lexLe S xs ys)
    else S.le y x && (!S.le x y || lexLe S xs ys)
  | _, _ => true

theorem lexLe_total (S : Scalars V) (xs ys : List (Bool × V))
    (h : xs.map Prod.fst = ys.map Prod.fst) : lexLe S xs ys = true ∨ lexLe S ys xs = true := by
  induction xs generalizing ys with
  | nil => exact .inl rfl
  | cons x xs ih =>
    cases ys with
    | nil => exact .inl rfl
    | cons y ys =>
      obtain ⟨a, x⟩ := x
      obtain ⟨b, y⟩ := y
      obtain ⟨rfl, hrest⟩ : a = b ∧ xs.map Prod.fst = ys.map Prod.fst := by simpa using h
      have htotal := S.le_total x y
      have hih := ih ys hrest
      cases a <;> grind [lexLe]

theorem lexLe_trans (S : Scalars V) (xs ys zs : List (Bool × V))
    (hxy : xs.map Prod.fst = ys.map Prod.fst) (hyz : ys.map Prod.fst = zs.map Prod.fst)
    (h : lexLe S xs ys = true) (h' : lexLe S ys zs = true) : lexLe S xs zs = true := by
  induction xs generalizing ys zs with
  | nil => rfl
  | cons x xs ih =>
    obtain _ | ⟨⟨b, y⟩, ys⟩ := ys
    · simp at hxy
    obtain _ | ⟨⟨c, z⟩, zs⟩ := zs
    · simp at hyz
    obtain ⟨a, x⟩ := x
    simp only [List.map_cons, List.cons.injEq] at hxy hyz
    obtain ⟨rfl, hxy⟩ := hxy
    obtain ⟨rfl, hyz⟩ := hyz
    have hxyz := S.le_trans x y z
    have hzyx := S.le_trans z y x
    have hyxz := S.le_trans y x z
    have hzxy := S.le_trans z x y
    have hyzx := S.le_trans y z x
    have hxzy := S.le_trans x z y
    have hih := ih ys zs hxy hyz
    cases a <;> grind [lexLe]

/-- The rows in the order of some keys, each with its direction. Rows that no key tells apart keep
their order. -/
def sortBy {α : Type} (S : Scalars V) (keys : List (Bool × (α → V))) (rows : List α) : List α :=
  rows.insertionSort fun r r' =>
    lexLe S (keys.map fun k => (k.1, k.2 r)) (keys.map fun k => (k.1, k.2 r')) = true

section Filter

variable {α : Type} {r : α → α → Prop} [DecidableRel r]

/-- Dropping elements of a sorted list before or after one is inserted makes no difference. -/
theorem filter_orderedInsert [IsTrans α r] (p : α → Bool) (a : α) {l : List α}
    (hl : l.Pairwise r) : (l.orderedInsert r a).filter p =
      if p a then (l.filter p).orderedInsert r a else l.filter p := by
  induction l with
  | nil => by_cases hp : p a <;> simp [hp]
  | cons b l ih =>
    obtain ⟨hb, hl⟩ := List.pairwise_cons.1 hl
    by_cases hab : r a b
    · -- The new element comes first, before and after the others are dropped.
      have hfirst : (List.filter p (b :: l)).orderedInsert r a = a :: List.filter p (b :: l) := by
        cases hf : List.filter p (b :: l) with
        | nil => rfl
        | cons c rest =>
          have hc : c ∈ b :: l := List.mem_of_mem_filter (hf ▸ List.mem_cons_self)
          have hac : r a c := by
            rcases List.mem_cons.1 hc with rfl | hc
            · exact hab
            · exact IsTrans.trans a b c hab (hb c hc)
          rw [List.orderedInsert_cons_of_le r rest hac]
      rw [List.orderedInsert_cons_of_le r l hab, hfirst, List.filter_cons]
    · rw [List.orderedInsert_of_not_le r l hab, List.filter_cons, List.filter_cons, ih hl]
      by_cases hpb : p b <;> by_cases hpa : p a <;>
        simp [hpb, hpa, List.orderedInsert_of_not_le r _ hab]

/-- Dropping elements before or after a stable sort makes no difference. -/
theorem filter_insertionSort [IsTrans α r] [Std.Total r] (p : α → Bool) (l : List α) :
    (l.insertionSort r).filter p = (l.filter p).insertionSort r := by
  induction l with
  | nil => rfl
  | cons a l ih =>
    rw [List.insertionSort_cons, filter_orderedInsert p a (List.pairwise_insertionSort r l), ih,
      List.filter_cons]
    split <;> simp

end Filter

/-- Dropping rows before or after they are sorted makes no difference. -/
theorem filter_sortBy {α : Type} (S : Scalars V) (keys : List (Bool × (α → V))) (p : α → Bool)
    (rows : List α) : (sortBy S keys rows).filter p = sortBy S keys (rows.filter p) := by
  have hdirections : ∀ r r' : α, (keys.map fun k => (k.1, k.2 r)).map Prod.fst =
      (keys.map fun k => (k.1, k.2 r')).map Prod.fst := fun r r' => by simp
  have htrans : IsTrans α fun r r' =>
      lexLe S (keys.map fun k => (k.1, k.2 r)) (keys.map fun k => (k.1, k.2 r')) = true :=
    ⟨fun x y z h h' => lexLe_trans S _ _ _ (hdirections x y) (hdirections y z) h h'⟩
  have htotal : Std.Total fun r r' : α =>
      lexLe S (keys.map fun k => (k.1, k.2 r)) (keys.map fun k => (k.1, k.2 r')) = true :=
    ⟨fun x y => lexLe_total S _ _ (hdirections x y)⟩
  exact filter_insertionSort p rows

/-! ## Rows of levels and statements -/

section Level

variable [DecidableEq V]

def groupsBy (key : Row V → List V) (rows : List (Row V)) : List (List (Row V)) :=
  (rows.map key).eraseDups.map fun k => rows.filter fun row => key row = k

/-- The name under which a selected value is shown: a column keeps its own if it is given none. -/
def shownName (i : Item Expr) : String :=
  match i.name, i.expr with
  | some name, _ => name
  | none, .column _ name => name
  | none, _ => ""

/-- Whether a level shows one row for each group. -/
def isGrouped (q : Query) : Bool :=
  q.groupBy.isSome || q.select.any fun items => items.any fun i => hasAggregate i.expr

/-- The rows for which the condition of a level holds. -/
def keptRows (S : Scalars V) (a : Alias) (q : Query) (rows : List (Row V)) : List (Row V) :=
  match q.filter with
  | some e => rows.filter fun row => S.holds (eval S a row e)
  | none => rows

def sortedRows (S : Scalars V) (a : Alias) (q : Query) (rows : List (Row V)) : List (Row V) :=
  match q.orderBy with
  | some keys => sortBy S (keys.map fun e => (ascends e, fun row => eval S a row e)) rows
  | none => rows

/-- The groups for which the condition on groups holds; without keys, all rows are one group. -/
def keptGroups (S : Scalars V) (a : Alias) (q : Query) (rows : List (Row V)) :
    List (List (Row V)) :=
  let groups := match q.groupBy with
    | some keys => groupsBy (fun row => keys.map (eval S a row)) rows
    | none => [rows]
  match q.having with
  | some e => groups.filter fun group => S.holds (groupEval S a group e)
  | none => groups

def shownRow (S : Scalars V) (a : Alias) (q : Query) (row : Row V) : Row V :=
  match q.select with
  | some items => items.map fun i => (shownName i, eval S a row i.expr)
  | none => row

def shownGroup (S : Scalars V) (a : Alias) (q : Query) (group : List (Row V)) : Row V :=
  match q.select with
  | some items => items.map fun i => (shownName i, groupEval S a group i.expr)
  | none => group.headD []

/-- The rows of a level, its clauses taken in the order in which a database does. -/
def levelRows (S : Scalars V) (a : Alias) (q : Query) (rows : List (Row V)) : List (Row V) :=
  let kept := keptRows S a q rows
  let shown :=
    if isGrouped q then (keptGroups S a q kept).map (shownGroup S a q)
    else (sortedRows S a q kept).map (shownRow S a q)
  let unique := if q.distinct then shown.eraseDups else shown
  match q.limit with
  | some n => unique.take n
  | none => unique

/-- The rows of a table expression and the alias they are known by; `tables` are the rows of stored
tables and `done` those of the levels before. -/
def sourceRows (tables : Table → List (Row V)) (done : Array (Option (List (Row V)))) :
    Source → Option (Alias × List (Row V))
  | .table stored label => some (label, tables stored)
  | .derived level label => (done.getD level none).map (label, ·)
  | .union .. => none
  | .join .. => none

/-- The rows of a level, where `done` holds the rows of the levels before it. -/
def queryRows (S : Scalars V) (tables : Table → List (Row V))
    (done : Array (Option (List (Row V)))) (q : Query) : Option (List (Row V)) :=
  match q.on with
  | some _ => none
  | none => (sourceRows tables done q.source).map fun (a, rows) => levelRows S a q rows

/-- The rows of all levels, where `done` holds the rows of the levels before them. -/
def allRows (S : Scalars V) (tables : Table → List (Row V))
    (done : Array (Option (List (Row V)))) : List Query → Array (Option (List (Row V)))
  | [] => done
  | q :: rest => allRows S tables (done.push (queryRows S tables done q)) rest

/-- The rows of a statement. -/
def statementRows (S : Scalars V) (tables : Table → List (Row V)) (s : Statement) :
    Option (List (Row V)) :=
  (allRows S tables #[] s.levels.toList).getD s.root none

theorem allRows_concat (S : Scalars V) (tables : Table → List (Row V))
    (done : Array (Option (List (Row V)))) (qs : List Query) (q : Query) :
    allRows S tables done (qs ++ [q]) = (allRows S tables done qs).push
      (queryRows S tables (allRows S tables done qs) q) := by
  induction qs generalizing done with
  | nil => rfl
  | cons p rest ih => exact ih _

theorem size_allRows (S : Scalars V) (tables : Table → List (Row V))
    (done : Array (Option (List (Row V)))) (qs : List Query) :
    (allRows S tables done qs).size = done.size + qs.length := by
  induction qs generalizing done with
  | nil => rfl
  | cons q rest ih =>
    rw [allRows, ih, Array.size_push, List.length_cons]
    omega

/-- A level that is appended is read as it is at the end; levels before it are not changed. -/
theorem getD_allRows_push (S : Scalars V) (tables : Table → List (Row V)) (levels : Array Query)
    (q : Query) : (allRows S tables #[] (levels.push q).toList).getD levels.size none =
      queryRows S tables (allRows S tables #[] levels.toList) q := by
  have hsize : (allRows S tables #[] levels.toList).size = levels.size := by
    simp [size_allRows]
  rw [Array.toList_push, allRows_concat, ← hsize]
  simp

/-- A level that shows the rows it selects from as they are, though perhaps not all of them. -/
structure IsPlain (q : Query) : Prop where
  select : q.select = none
  distinct : q.distinct = false
  groupBy : q.groupBy = none
  having : q.having = none

section Laws

variable {S : Scalars V} {a : Alias} {q : Query}

theorem levelRows_of_plain (h : IsPlain q) (hl : q.limit = none) (rows : List (Row V)) :
    levelRows S a q rows = sortedRows S a q (keptRows S a q rows) := by
  have hgrouped : isGrouped q = false := by simp [isGrouped, h.select, h.groupBy]
  have hshown : shownRow S a q = id := by funext row; simp [shownRow, h.select]
  simp [levelRows, hgrouped, hshown, h.distinct, hl]

/-- A condition keeps the rows for which it holds. -/
theorem levelRows_filter (h : IsPlain q) (hl : q.limit = none) (hf : q.filter = none) (e : Expr)
    (rows : List (Row V)) : levelRows S a { q with filter := some e } rows =
      (levelRows S a q rows).filter fun row => S.holds (eval S a row e) := by
  have h' : IsPlain { q with filter := some e } := ⟨h.1, h.2, h.3, h.4⟩
  rw [levelRows_of_plain h hl, levelRows_of_plain h' hl]
  simp only [keptRows, hf, sortedRows]
  split
  · exact (filter_sortBy S _ _ rows).symm
  · rfl

theorem levelRows_orderBy (h : IsPlain q) (hl : q.limit = none) (ho : q.orderBy = none)
    (keys : List Expr) (rows : List (Row V)) :
    levelRows S a { q with orderBy := some keys } rows =
      sortBy S (keys.map fun e => (ascends e, fun row => eval S a row e))
        (levelRows S a q rows) := by
  have h' : IsPlain { q with orderBy := some keys } := ⟨h.1, h.2, h.3, h.4⟩
  rw [levelRows_of_plain h hl, levelRows_of_plain h' hl]
  simp only [sortedRows, ho]
  rfl

theorem levelRows_limit (hl : q.limit = none) (n : Nat) (rows : List (Row V)) :
    levelRows S a { q with limit := some n } rows = (levelRows S a q rows).take n := by
  simp only [levelRows, hl]
  rfl

theorem levelRows_select (h : IsPlain q) (hl : q.limit = none) (items : List (Item Expr))
    (hi : items.any (fun i => hasAggregate i.expr) = false) (distinct : Bool)
    (rows : List (Row V)) :
    levelRows S a { q with select := some items, distinct := distinct } rows =
      let shown := (levelRows S a q rows).map fun row =>
        items.map fun i => (shownName i, eval S a row i.expr)
      if distinct then shown.eraseDups else shown := by
  have hgrouped : isGrouped { q with select := some items, distinct := distinct } = false := by
    simpa [isGrouped, h.groupBy] using hi
  rw [levelRows_of_plain h hl]
  simp only [levelRows, hgrouped, Bool.false_eq_true, if_false]
  simp only [hl]
  rfl

theorem levelRows_summary (h : IsPlain q) (hl : q.limit = none) (ho : q.orderBy = none)
    (items : List (Item Expr)) (hi : items.any (fun i => hasAggregate i.expr) = true)
    (rows : List (Row V)) : levelRows S a { q with select := some items } rows =
      [items.map fun i => (shownName i, groupEval S a (levelRows S a q rows) i.expr)] := by
  have hgrouped : isGrouped { q with select := some items } = true := by
    simpa [isGrouped, h.groupBy] using hi
  rw [levelRows_of_plain h hl]
  simp only [levelRows, hgrouped, if_true]
  simp only [hl, h.distinct, keptGroups, h.groupBy, h.having, sortedRows, ho]
  rfl

theorem levelRows_groupBy (h : IsPlain q) (hl : q.limit = none) (ho : q.orderBy = none)
    (items : List (Item Expr)) (keys : List Expr) (having : Option Expr) (rows : List (Row V)) :
    levelRows S a { q with select := some items, groupBy := some keys, having := having } rows =
      let groups := groupsBy (fun row => keys.map (eval S a row)) (levelRows S a q rows)
      let kept := match having with
        | some e => groups.filter fun group => S.holds (groupEval S a group e)
        | none => groups
      kept.map fun group => items.map fun i => (shownName i, groupEval S a group i.expr) := by
  rw [levelRows_of_plain h hl]
  simp only [levelRows, isGrouped, Option.isSome_some, Bool.true_or, if_true]
  simp only [hl, h.distinct, keptGroups, sortedRows, ho]
  rfl

end Laws

end Level

end PlanSql.Rows

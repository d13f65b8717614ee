import PlanSql.Sql.Clauses
import PlanSql.Sql.Expr

/-!
# Statements

A statement is a list of query levels, each of which may read the rows of levels before it, and the
level that is the answer. Printed, a level stands inside the level that reads it.
-/

namespace PlanSql.Sql

abbrev Query := Level Expr Source

def Query.text (layout : Layout) (levelText : LevelId → String) (q : Query) : String :=
  (q.map (Expr.text layout levelText) (Source.text layout levelText)).text layout

/-- A list of levels and the one that is the answer. -/
structure Statement where
  /-- The levels; each reads only levels before it. -/
  levels : Array Query
  root : LevelId

namespace Statement

def levelTexts (layout : Layout) (done : Array String) : List Query → Array String
  | [] => done
  | q :: rest => levelTexts layout (done.push (q.text layout fun id => done.getD id "")) rest

def text (layout : Layout) (s : Statement) : String :=
  (levelTexts layout #[] s.levels.toList).getD s.root ""

end Statement

end PlanSql.Sql

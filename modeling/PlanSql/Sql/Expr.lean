import PlanSql.Graph.Node
import PlanSql.Sql.Layout
import PlanSql.Text.Lines

/-!
# Expressions of a statement

Expressions and table expressions of one query level, as trees, and their text. Parentheses are
part of the tree. Other levels are referred to by their place in the statement, so a tree never
holds another level.
-/

namespace PlanSql.Sql

/-- The name of a table expression inside a level, by its number. -/
abbrev Alias := Nat

def Alias.text (a : Alias) : String := "t" ++ Nat.repr a

abbrev LevelId := Nat

/-- An expression. -/
inductive Expr where
  | column (label : Alias) (field : String)
  | constant (value : Value)
  | group (expr : Expr)
  | binary (op : BinaryOp) (lhs rhs : Expr)
  | negate (expr : Expr)
  | not (expr : Expr)
  | isNull (negated : Bool) (expr : Expr)
  | inList (negated : Bool) (expr : Expr) (items : List Expr)
  | inLevel (negated : Bool) (expr : Expr) (level : LevelId)
  | between (expr low high : Expr)
  | call (name : String) (args : List Expr)
  | callDistinct (name : String) (arg : Expr)
  | convert (expr : Expr) (source target : DataType)
  | windowed (func : Expr) (partition order : List Expr) (frame : Option Frame)
  | cases (subject : Option Expr) (branches : List (Expr × Expr)) (fallback : Option Expr)
  /-- A sort key with the largest values first; it stands only in an order. -/
  | descending (expr : Expr)

/-- A table expression. -/
inductive Source where
  | table (stored : Table) (label : Alias)
  | derived (level : LevelId) (label : Alias)
  | union (left right : LevelId) (label : Alias)
  | join (left : Source) (how : JoinKind) (right : Source) (on : Option Expr)

def frameText : Frame → String
  | .preceding n => s!"ROWS {n} PRECEDING"
  | .following n => s!"ROWS {n} FOLLOWING"
  | .between p f => s!"ROWS BETWEEN {p} PRECEDING AND {f} FOLLOWING"
  | .precedingRange a b => s!"ROWS BETWEEN {a} PRECEDING AND {b} PRECEDING"
  | .followingRange a b => s!"ROWS BETWEEN {a} FOLLOWING AND {b} FOLLOWING"

/-- The text of a window. Rows that share nothing in particular share the constant one. -/
def windowText (partition order : List String) (frame : Option Frame) : String :=
  let shared := if partition.isEmpty then "1" else ", ".intercalate partition
  let ordered := if order.isEmpty then [] else ["ORDER BY " ++ ", ".intercalate order]
  let parts := ("PARTITION BY " ++ shared) :: ordered ++ (frame.map frameText).toList
  "OVER (" ++ " ".intercalate parts ++ ")"

def casesText (layout : Layout) (subject : Option String) (branches : List (String × String))
    (fallback : Option String) : String :=
  let head := match subject with
    | some s => "CASE " ++ s
    | none => "CASE"
  let parts := branches.map (fun (c, r) => "WHEN " ++ c ++ " THEN " ++ r) ++
    (fallback.map ("ELSE " ++ ·)).toList
  if layout.beautify then
    head ++ "\n" ++ "\n".intercalate (parts.map (Text.indentLines layout.pad)) ++ "\nEND"
  else head ++ " " ++ " ".intercalate parts ++ " END"

/-- The text of a value of type `source` as a value of type `target`. An integer becomes a datetime
as seconds since 1970. -/
def convertText (text : String) (source target : DataType) : String :=
  if source = target then text
  else if source.isInteger && target == .datetime then "FROM_UNIXTIME(" ++ text ++ ")"
  else "CAST(" ++ text ++ " AS " ++ target.sqlName ++ ")"

/-- The keyword of a membership test. -/
def inText (negated : Bool) : String := if negated then " NOT IN (" else " IN ("

mutual

def Expr.text (layout : Layout) (levelText : LevelId → String) : Expr → String
  | .column label field => label.text ++ "." ++ Text.quoteName field
  | .constant value => value.sqlText
  | .group e => "(" ++ e.text layout levelText ++ ")"
  | .binary op l r =>
    l.text layout levelText ++ " " ++ op.symbol ++ " " ++ r.text layout levelText
  | .negate e => "-" ++ e.text layout levelText
  | .not e => "NOT " ++ e.text layout levelText
  | .isNull negated e =>
    e.text layout levelText ++ if negated then " IS NOT NULL" else " IS NULL"
  | .inList negated e items =>
    e.text layout levelText ++ inText negated ++
      ", ".intercalate (Expr.texts layout levelText items) ++ ")"
  | .inLevel negated e level =>
    e.text layout levelText ++ inText negated ++ Text.collapseLines (levelText level) ++ ")"
  | .between e low high =>
    e.text layout levelText ++ " BETWEEN " ++ low.text layout levelText ++ " AND " ++
      high.text layout levelText
  | .call name args => name ++ "(" ++ ", ".intercalate (Expr.texts layout levelText args) ++ ")"
  | .callDistinct name arg => name ++ "(DISTINCT " ++ arg.text layout levelText ++ ")"
  | .convert e source target => convertText (e.text layout levelText) source target
  | .windowed func partition order frame =>
    func.text layout levelText ++ " " ++
      windowText (Expr.texts layout levelText partition) (Expr.texts layout levelText order) frame
  | .cases subject branches fallback =>
    casesText layout (Expr.text? layout levelText subject)
      (Expr.branchTexts layout levelText branches) (Expr.text? layout levelText fallback)
  | .descending e => e.text layout levelText ++ " DESC"

def Expr.texts (layout : Layout) (levelText : LevelId → String) : List Expr → List String
  | [] => []
  | e :: rest => e.text layout levelText :: Expr.texts layout levelText rest

def Expr.text? (layout : Layout) (levelText : LevelId → String) : Option Expr → Option String
  | none => none
  | some e => some (e.text layout levelText)

def Expr.branchTexts (layout : Layout) (levelText : LevelId → String) :
    List (Expr × Expr) → List (String × String)
  | [] => []
  | (c, r) :: rest =>
    (c.text layout levelText, r.text layout levelText) :: Expr.branchTexts layout levelText rest

end

def nestedText (layout : Layout) (body : String) (label : Alias) : String :=
  "(\n" ++ Text.indentLines layout.pad body ++ "\n) " ++ label.text

def Source.text (layout : Layout) (levelText : LevelId → String) : Source → String
  | .table stored label =>
    (if stored.space.isEmpty then "" else stored.space ++ ".") ++ Text.quoteName stored.name ++
      " " ++ label.text
  | .derived level label => nestedText layout (levelText level) label
  | .union left right label =>
    nestedText layout (levelText left ++ "\nUNION ALL\n" ++ levelText right) label
  | .join left how right on =>
    left.text layout levelText ++ "\n" ++ how.sqlName ++ " JOIN\n" ++
      Text.indentLines layout.pad (right.text layout levelText) ++
      match on with
      | some condition => "\nON " ++ condition.text layout levelText
      | none => ""

theorem Expr.texts_eq_map (layout : Layout) (levelText : LevelId → String) (es : List Expr) :
    Expr.texts layout levelText es = es.map (Expr.text layout levelText) := by
  induction es with
  | nil => rfl
  | cons e rest ih => simp [Expr.texts, ih]

end PlanSql.Sql

import PlanSql.Text.Blank

/-!
# Lines of a text

A line ends at a line feed, or at a carriage return followed by a line feed. A carriage return
on its own belongs to its line, and a final line end opens no further line.
-/

namespace PlanSql.Text

def charLines : List Char → List (List Char)
  | [] => []
  | '\n' :: rest => [] :: charLines rest
  | '\r' :: '\n' :: rest => [] :: charLines rest
  | c :: rest =>
    match charLines rest with
    | [] => [[c]]
    | line :: more => (c :: line) :: more

/-- The lines of a text, without their line ends. -/
def lines (s : String) : List String := (charLines s.toList).map String.ofList

def padLine (pad line : String) : String := if line.isEmpty then "" else pad ++ line

/-- Every non-empty line gets `pad` in front; lines are separated by line feeds again. -/
def indentLines (pad s : String) : String :=
  "\n".intercalate ((lines s).map (padLine pad))

/-- The trimmed non-empty lines, separated by single spaces. -/
def collapseLines (s : String) : String :=
  " ".intercalate (((lines s).map trim).filter (fun line => !line.isEmpty))

end PlanSql.Text

/-!
# Quoted names, string constants and literal patterns

Names stand between backticks and a backtick inside is doubled. String constants stand between
apostrophes with backslash escapes. A literal pattern has a backslash before every character that
means something in a regular expression.
-/

namespace PlanSql.Text

def quoteNameChar (c : Char) : List Char := if c = '\x60' then ['\x60', '\x60'] else [c]

def quoteName (name : String) : String :=
  String.ofList ('\x60' :: name.toList.flatMap quoteNameChar ++ ['\x60'])

def quoteStringChar (c : Char) : List Char :=
  if c = '\\' then ['\\', '\\']
  else if c = '\x27' then ['\\', '\x27']
  else if c = '\n' then ['\\', 'n']
  else if c = '\r' then ['\\', 'r']
  else if c = '\t' then ['\\', 't']
  else [c]

/-- A string constant between apostrophes. -/
def quoteString (s : String) : String :=
  String.ofList ('\x27' :: s.toList.flatMap quoteStringChar ++ ['\x27'])

/-- The characters that mean something in a regular expression. -/
def patternMarks : List Char :=
  ['\\', '.', '^', '$', '|', '?', '*', '+', '(', ')', '[', ']', '\x7b', '\x7d']

def escapePatternChar (c : Char) : List Char := if c ∈ patternMarks then ['\\', c] else [c]

/-- The pattern that matches exactly the given text. -/
def escapePattern (s : String) : String := String.ofList (s.toList.flatMap escapePatternChar)

theorem toList_quoteName (name : String) :
    (quoteName name).toList = '\x60' :: name.toList.flatMap quoteNameChar ++ ['\x60'] := by
  simp [quoteName]

theorem toList_quoteString (s : String) :
    (quoteString s).toList = '\x27' :: s.toList.flatMap quoteStringChar ++ ['\x27'] := by
  simp [quoteString]

end PlanSql.Text

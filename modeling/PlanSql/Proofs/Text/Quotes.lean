import Mathlib.Tactic.SplitIfs
import PlanSql.Text.Quoted
import PlanSql.Text.Reader

/-!
# Readers of quoted texts

What is written in quotes can be read again, whatever comes after it: a reader of string constants
and a reader of names stop at the quote that was written last, and give the text that was quoted. A
name must not be followed by a backtick, which would be read as part of it. A pattern is read part
by part, where a backslash makes the character after it stand for itself.
-/

namespace PlanSql.Text

variable {c : Char}

/-! ## String constants -/

/-- The character that a backslash and another one stand for. -/
def unescape (c : Char) : Char :=
  if c = 'n' then '\n' else if c = 'r' then '\r' else if c = 't' then '\t' else c

/-- What a string constant has left, up to its closing apostrophe. -/
def readStringRest : Reader (List Char)
  | [] => none
  | '\x27' :: rest => some ([], rest)
  | ['\\'] => none
  | '\\' :: c :: rest => (readStringRest rest).map fun r => (unescape c :: r.1, r.2)
  | c :: rest => (readStringRest rest).map fun r => (c :: r.1, r.2)

/-- A string constant with backslash escapes. -/
def readString : Reader String
  | '\x27' :: rest => (readStringRest rest).map fun r => (String.ofList r.1, r.2)
  | _ => none

/-- How a character of a string constant is written: after a backslash, or as itself if it means
nothing there and ends no line. -/
theorem quoteStringChar_cases (c : Char) :
    (∃ d, quoteStringChar c = ['\\', d] ∧ d ≠ '\n' ∧ d ≠ '\r' ∧ unescape d = c) ∨
      quoteStringChar c = [c] ∧ c ≠ '\\' ∧ c ≠ '\x27' ∧ c ≠ '\n' ∧ c ≠ '\r' := by
  unfold quoteStringChar
  split_ifs with hslash hquote hfeed hreturn htab
  · exact .inl ⟨'\\', rfl, by decide, by decide, hslash.symm⟩
  · exact .inl ⟨'\x27', rfl, by decide, by decide, hquote.symm⟩
  · exact .inl ⟨'n', rfl, by decide, by decide, hfeed.symm⟩
  · exact .inl ⟨'r', rfl, by decide, by decide, hreturn.symm⟩
  · exact .inl ⟨'t', rfl, by decide, by decide, htab.symm⟩
  · exact .inr ⟨rfl, hslash, hquote, hfeed, hreturn⟩

theorem readStringRest_append (cs rest : List Char) :
    readStringRest (cs.flatMap quoteStringChar ++ '\x27' :: rest) = some (cs, rest) := by
  induction cs with
  | nil => rfl
  | cons c more ih =>
    rw [List.flatMap_cons, List.append_assoc]
    rcases quoteStringChar_cases c with ⟨d, hd, _, _, rfl⟩ | ⟨hc, hslash, hquote, _⟩
    · simp [hd, readStringRest, ih]
    · simp [hc, readStringRest, ih, hslash]

theorem readString_append (s : String) (rest : List Char) :
    readString ((quoteString s).toList ++ rest) = some (s, rest) := by
  simp [toList_quoteString, readString, readStringRest_append]

/-! ## Names -/

/-- What a name has left, up to a backtick with no other one after it. -/
def readNameRest : Reader (List Char)
  | [] => none
  | '\x60' :: '\x60' :: rest => (readNameRest rest).map fun r => ('\x60' :: r.1, r.2)
  | '\x60' :: rest => some ([], rest)
  | c :: rest => (readNameRest rest).map fun r => (c :: r.1, r.2)

/-- A name in which backticks are doubled. -/
def readName : Reader String
  | '\x60' :: rest => (readNameRest rest).map fun r => (String.ofList r.1, r.2)
  | _ => none

theorem readNameRest_append (cs rest : List Char) :
    readNameRest (cs.flatMap quoteNameChar ++ rest) =
      (readNameRest rest).map fun r => (cs ++ r.1, r.2) := by
  induction cs with
  | nil => simp
  | cons c more ih =>
    rw [List.flatMap_cons, List.append_assoc, quoteNameChar]
    split
    · next hc => simp [hc, readNameRest, ih, Function.comp_def]
    · next hc => simp [hc, readNameRest, ih, Function.comp_def]

/-- A name is read to its end just if no backtick comes after it. -/
theorem readName_append_iff (name : String) (rest : List Char) :
    readName ((quoteName name).toList ++ rest) = some (name, rest) ↔ rest.head? ≠ some '\x60' := by
  rw [toList_quoteName, List.cons_append, List.cons_append, readName, List.append_assoc,
    readNameRest_append, List.singleton_append]
  by_cases hhead : rest.head? = some '\x60'
  · obtain ⟨more, rfl⟩ : ∃ more, rest = '\x60' :: more := List.head?_eq_some_iff.1 hhead
    simp [readNameRest]
  · have hend : readNameRest ('\x60' :: rest) = some ([], rest) := by
      cases rest with
      | nil => rfl
      | cons c more =>
        rw [readNameRest]
        simpa using hhead
    simp [hend, hhead]

/-! ## Literal patterns -/

/-- A character of a pattern: it stands for itself, or it means something. -/
inductive PatternPart where
  | literal (c : Char)
  | active (c : Char)
  deriving DecidableEq

/-- Whether a character of a regular expression means something other than itself. -/
def isMeta : Char → Bool
  | '\\' | '.' | '^' | '$' | '|' | '?' | '*' | '+' => true
  | '(' | ')' | '[' | ']' | '\x7b' | '\x7d' => true
  | _ => false

theorem isMeta_iff : isMeta c = true ↔ c ∈ patternMarks := by
  unfold isMeta
  split <;> simp_all [patternMarks]

/-- A character with no backslash before it. -/
def PatternPart.bare (c : Char) : PatternPart := if isMeta c then .active c else .literal c

/-- The parts of a pattern. A character with a meaning stands for itself after a backslash. -/
def patternParts : List Char → List PatternPart
  | [] => []
  | [c] => [.bare c]
  | c :: d :: rest =>
    if c = '\\' ∧ isMeta d then .literal d :: patternParts rest
    else .bare c :: patternParts (d :: rest)

theorem patternParts_flatMap (cs : List Char) :
    patternParts (cs.flatMap escapePatternChar) = cs.map .literal := by
  induction cs with
  | nil => rfl
  | cons c more ih =>
    rw [List.flatMap_cons, escapePatternChar, List.map_cons, ← ih]
    simp only [← isMeta_iff]
    split
    · next hmeta => simp [patternParts, hmeta]
    · next hmeta =>
      have hslash : c ≠ '\\' := by
        rintro rfl
        exact hmeta rfl
      cases more.flatMap escapePatternChar with
      | nil => simp [patternParts, PatternPart.bare, hmeta]
      | cons d rest => simp [patternParts, PatternPart.bare, hmeta, hslash]

/-- Quoted texts are read to their ends, as what was quoted, whatever comes after them, but for a
backtick after a name. A literal pattern has no active part and stands for its text, also when it is
read as a string constant. -/
theorem quoted_read_back (s p rest : String) :
    readString (quoteString s ++ rest).toList = some (s, rest.toList) ∧
      (readName (quoteName s ++ rest).toList = some (s, rest.toList) ↔
        rest.toList.head? ≠ some '\x60') ∧
      patternParts (escapePattern p).toList = p.toList.map .literal ∧
      ∃ t, readString (quoteString (escapePattern p) ++ rest).toList = some (t, rest.toList) ∧
        patternParts t.toList = p.toList.map .literal := by
  have hparts : patternParts (escapePattern p).toList = p.toList.map .literal := by
    rw [escapePattern, String.toList_ofList, patternParts_flatMap]
  simp only [String.toList_append]
  exact ⟨readString_append s _, readName_append_iff s _, hparts, _, readString_append _ _, hparts⟩

end PlanSql.Text

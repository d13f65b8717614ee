import PlanSql.Proofs.Layout.Statements
import PlanSql.Proofs.Lexing.Lexemes

/-!
# Lexemes of statements

A statement is put together with keywords between its parts, so its lexemes are those of its parts:
of string constants and of names, in the order in which they are written, whatever the layout. The
one exception is a sign, which stands right before its operand. If that begins with a sign too, the
two begin a comment.
-/

namespace PlanSql

open Text Sql Compile

namespace Text

variable {t k : String}

/-- A character that is part of no quote and of no comment. -/
def isPlain (c : Char) : Bool := isBare c && c != '-'

/-- A text of such characters. -/
def Plain (s : String) : Prop := ∀ c ∈ s.toList, isPlain c = true

instance (s : String) : Decidable (Plain s) := List.decidableBAll _ s.toList

variable {dashes : Bool} {s : String} {p : Prop}

theorem isProse_of_isPlain {c : Char} (h : isPlain c = true) : isProse dashes c = true := by
  simp only [isPlain, isBare, Bool.and_eq_true] at h
  rw [isProse, isSafe, h.1.1.1, h.1.1.2, h.2, Bool.or_true]
  rfl

theorem Plain.prose (h : Plain s) : Prose dashes s := fun c hc => isProse_of_isPlain (h c hc)

/-- A text begins with a sign only if something is the case. -/
def Begins (p : Prop) (s : String) : Prop := ∃ c rest, s.toList = c :: rest ∧ (c = '-' → p)

theorem Begins.append (h : Begins p s) (t : String) : Begins p (s ++ t) := by
  obtain ⟨c, rest, hs, hc⟩ := h
  exact ⟨c, rest ++ t.toList, by rw [String.toList_append, hs, List.cons_append], hc⟩

theorem Prose.begins (h : Prose false s) (hne : s ≠ "") : Begins p s := by
  obtain ⟨c, rest, hs⟩ := List.exists_cons_of_ne_nil (mt String.toList_eq_nil_iff.1 hne)
  refine ⟨c, rest, hs, ?_⟩
  rintro rfl
  have hdash := h '-' (by rw [hs]; exact .head _)
  cases hdash

theorem Keyword.begins (h : Keyword k) : Begins p k := Prose.begins h.prose h.1

end Text

/-! ## Constants -/

section Constants

theorem isPlain_of_isDigit {c : Char} (h : c.isDigit = true) : isPlain c = true := by
  have hink := isInk_of_isDigit h
  rw [isInk, Bool.and_eq_true, Bool.and_eq_true] at hink
  rw [isPlain, hink.1.1, Bool.true_and, bne_iff_ne]
  rintro rfl
  cases h

theorem plain_repr (n : Nat) : Plain (Nat.repr n) := by
  intro c hc
  rw [Nat.toList_repr] at hc
  exact isPlain_of_isDigit (Nat.isDigit_of_mem_toDigits (by decide) (by decide) hc)

variable {dashes : Bool} {L : Lexicon}

/-- A text after a sign, or after none. -/
theorem spells_signed {s : String} (negative : Bool) (h : Plain s) :
    Spells dashes L [] ((if negative then "-" else "") ++ s) := by
  cases negative with
  | false =>
    rw [if_neg Bool.false_ne_true, String.empty_append]
    exact spells_prose h.prose
  | true =>
    refine (spells_prose h.prose).sign fun _ hhead => ?_
    have hdash := h '-' (List.mem_of_head? hhead)
    cases hdash

theorem spells_int (n : Int) : Spells dashes L [] (toString n) := by
  cases n with
  | ofNat m => exact spells_prose (plain_repr m).prose
  | negSucc m => exact spells_signed true (plain_repr (m + 1))

theorem Binary64.spells_sqlText (x : Binary64) : Spells dashes L [] x.sqlText := by
  have hpositional : ∀ d : Digits, ∀ c ∈ d.positional, isPlain c = true := by
    intro d c hc
    rcases Digits.isDigit_or_point hc with hdigit | rfl
    · exact isPlain_of_isDigit hdigit
    · decide
  unfold sqlText display
  split
  · refine spells_signed _ fun c hc => ?_
    rw [String.toList_ofList] at hc
    split at hc
    · exact hpositional _ c hc
    · rcases List.mem_append.1 hc with hc | hc
      · exact hpositional _ c hc
      · rcases List.mem_pair.1 hc with rfl | rfl <;> decide
  · split
    · exact Keyword.spells (by decide)
    · exact spells_signed _ (by decide)

theorem Value.spells_sqlText {v : Value} (h : ∀ s ∈ v.strings, L.string s) :
    Spells dashes L v.emits v.sqlText := by
  cases v with
  | null => exact Keyword.spells (by decide)
  | boolean b => cases b <;> exact Keyword.spells (by decide)
  | integer n => exact spells_int n.toInt
  | float x => exact x.spells_sqlText
  | decimal d =>
    have hquoted : Spells dashes L _ _ :=
      spells_quoteString (h d.toString (List.mem_singleton.2 rfl))
    rw [quoteString_of_ink fun c => d.isInk_of_mem_toString] at hquoted
    rw [sqlText_decimal]
    exact (hquoted.before (by decide)).after (by decide)
  | string s => exact spells_quoteString (h s (List.mem_singleton.2 rfl))
  | datetime t => exact ((spells_int t.timestamp).before (by decide)).after (by decide)

end Constants

/-! ## Expressions -/

namespace Sql

/-- A text is read as it is written, and begins with a sign only if it is said to. -/
def Leads (dashes : Bool) (L : Lexicon) (signed : Bool) (es : List Emission) (s : String) : Prop :=
  Spells dashes L es s ∧ (dashes = false → Begins (signed = true) s)

/-- The text of an expression is read as it is written and begins with a sign only if the expression
does, whenever the texts of levels are read as they are written. -/
def Expr.Fine (dashes : Bool) (L : Lexicon) : Expr → Prop :=
  Expr.Holds (fun signed es s _ => Leads dashes L signed es s) fun es s _ => Spells dashes L es s

section Parts

variable {dashes : Bool} {L : Lexicon} {ess : List (List Emission)}

theorem spells_alias (a : Alias) : Spells dashes L [] a.text :=
  spells_prose (Prose.append (by decide : Keyword "t").prose (plain_repr a).prose)

/-- The parts of a choice may stand on lines of their own. -/
theorem spells_branches (layout : Layout) {head : String} {es : List Emission} {parts : List String}
    (hhead : Spells dashes L es head) (hparts : List.Forall₂ (Spells dashes L) ess parts) :
    Spells dashes L (es ++ layout.spread ess.flatten) (if layout.beautify then
        head ++ "\n" ++ "\n".intercalate (parts.map (indentLines layout.pad)) ++ "\nEND"
      else head ++ " " ++ " ".intercalate parts ++ " END") := by
  unfold Layout.spread
  split
  · have hindented : List.Forall₂ (Spells dashes L) (ess.map (·.map Emission.move))
        (parts.map (indentLines layout.pad)) := by
      rw [List.forall₂_map_left_iff, List.forall₂_map_right_iff]
      exact hparts.imp fun _ _ h => h.indent layout.eq_of_mem_pad
    rw [List.map_flatten]
    exact (hhead.join (by decide) (.intercalate (by decide) hindented)).after (by decide)
  · exact (hhead.join (by decide) (.intercalate (by decide) hparts)).after (by decide)

theorem begins_branches (layout : Layout) {p : Prop} {head x y : String} (h : Begins p head) :
    Begins p (if layout.beautify then head ++ "\n" ++ x ++ "\nEND" else head ++
      " " ++ y ++ " END") := by
  split
  · exact ((h.append _).append _).append _
  · exact ((h.append _).append _).append _

theorem leads_keyword {w : String} (h : Keyword w) {signed : Bool} : Leads dashes L signed [] w :=
  ⟨h.spells, fun _ => h.begins⟩

/-- Texts are read as they are written, however they are put together. -/
theorem leads_forms : Forms (fun signed es s _ => Leads dashes L signed es s)
    (fun es s _ => Spells dashes L es s) (fun es s _ => Spells dashes L es s) (Prose dashes)
    L.string where
  constant v hs := by
    obtain ⟨d, hd, -⟩ := v.whole_sqlText.solidLeft
    obtain ⟨c, rest, htext⟩ := List.exists_cons_of_ne_nil
      (List.ne_nil_of_mem (List.mem_of_getLast? hd))
    refine ⟨Value.spells_sqlText hs, fun _ => ⟨c, rest, htext, ?_⟩⟩
    rintro rfl
    rw [Reading.isSigned, htext]
    rfl
  word w hw := leads_keyword ((by decide : ∀ w ∈ keywords, Keyword w) w hw)
  typeName t := leads_keyword (by cases t <;> decide)
  symbol op := by
    cases op with
    | sub =>
      exact ⟨(spells_prose (s := "") (by simp [Prose])).sign (by simp), fun _ =>
        ⟨'-', [], rfl, fun _ => rfl⟩⟩
    | _ => exact leads_keyword (by decide)
  number n := ⟨spells_prose (plain_repr n).prose, fun _ =>
    (plain_repr n).prose.begins Nat.repr_ne_empty⟩
  gap h h' := ⟨h.1.join (by decide) h'.1, fun hd => ((h.2 hd).append _).append _⟩
  inside h := h.1
  empty := spells_prose (s := "") (by simp [Prose])
  pair hk h h' := by rcases hk with rfl | rfl <;> exact h.join (by decide) h'
  level h := h.fold
  call {k _ _ _} hk h := by
    have hname : Prose dashes k := hk.elim id fun hmem =>
      ((by decide : ∀ k ∈ ["", "CAST", "FROM_UNIXTIME"], Plain k) k hmem).prose
    refine ⟨((spells_prose hname).join (k := "(") (by decide) h).after (by decide), ?_⟩
    rintro rfl
    have hopen : Prose false (k ++ "(") := hname.append (by decide : Keyword "(").prose
    exact ((hopen.begins (by simp)).append _).append _
  branches layout parts h hparts := by
    refine ⟨?_, fun hd => begins_branches layout (h.2 hd)⟩
    rw [List.flatMap]
    refine spells_branches layout h.1 ?_
    rw [List.forall₂_map_left_iff, List.forall₂_map_right_iff, List.forall₂_same]
    exact fun x hx => (hparts x hx).choose_spec.1

end Parts

section Expressions

variable {dashes : Bool} {L : Lexicon} {e : Expr}

theorem Expr.Fine.negate (h : e.Fine dashes L)
    (hsign : dashes = false → e.beginsWithSign = false) : (Expr.negate e).Fine dashes L := by
  intro layout f f' levels hf
  obtain ⟨hspells, hlead⟩ := h layout f f' levels hf
  refine ⟨hspells.sign fun hd hhead => ?_,
    fun _ => ⟨'-', (e.text layout f).toList, by simp [Expr.text], fun _ => rfl⟩⟩
  obtain ⟨c, rest, hs, hc⟩ := hlead hd
  rw [hs] at hhead
  cases hhead
  have hbegins := hc rfl
  rw [hsign hd] at hbegins
  cases hbegins

theorem fine_column (label : Alias) {field : String} (h : L.name field) :
    (Expr.column label field).Fine dashes L := by
  intro layout f _ levels _
  refine ⟨(spells_alias label).join (k := ".") (by decide) (spells_quoteName h), fun _ => ?_⟩
  exact ((Begins.append (Keyword.begins (k := "t") (by decide)) _).append _).append _

end Expressions

end Sql

end PlanSql

import Mathlib.Data.List.Forall2
import PlanSql.Proofs.Layout.Lines
import PlanSql.Text.Quoted

/-!
# Tokens of a text

A statement is read as tokens that are separated by blanks. A blank between apostrophes or backticks
belongs to its token. Texts are alike if they can stand for each other in any text without a change
of its tokens: indenting a text and putting its lines on one line leave it alike, as long as each
quote is closed on its line.
-/

namespace PlanSql.Text

variable {a b : String}

/-- Where a reader stands in a text. -/
inductive Mode where
  | outside
  | name
  | string
  | escape
  deriving DecidableEq

/-- Where a reader stands after the next character. A doubled backtick ends a name and begins
another one at once. -/
def Mode.next : Mode → Char → Mode
  | .outside, c => if c = '\x60' then .name else if c = '\x27' then .string else .outside
  | .name, c => if c = '\x60' then .outside else .name
  | .string, c => if c = '\\' then .escape else if c = '\x27' then .outside else .string
  | .escape, _ => .string

/-- The characters of a text, with a gap in place of each blank that is outside of quotes. -/
def marks : Mode → List Char → List (Option Char)
  | _, [] => []
  | m, c :: rest => (if m = .outside ∧ isBlank c then none else some c) :: marks (m.next c) rest

/-- What stands between gaps. -/
def words (ms : List (Option Char)) : List (List (Option Char)) :=
  (ms.splitOnP Option.isNone).filter (!·.isEmpty)

/-- The tokens of a text: what stands between blanks, where blanks in quotes do not count. -/
def tokens (s : String) : List String :=
  (words (marks .outside s.toList)).map fun word => String.ofList (word.filterMap id)

/-! ## Gaps -/

section Gaps

variable {a b c d x y : List (Option Char)}

theorem words_gap (x y : List (Option Char)) : words (x ++ none :: y) = words x ++ words y := by
  rw [words, List.splitOnP_append_cons x y rfl, List.filter_append, words, words]

/-- Wherever the one stands, the other one may stand without a change of the words. -/
def Same (a b : List (Option Char)) : Prop := ∀ x y, words (x ++ a ++ y) = words (x ++ b ++ y)

theorem Same.refl (a : List (Option Char)) : Same a a := fun _ _ => rfl

theorem Same.symm (h : Same a b) : Same b a := fun x y => (h x y).symm

theorem Same.trans (h : Same a b) (h' : Same b c) : Same a c := fun x y => (h x y).trans (h' x y)

theorem Same.append (h : Same a b) (h' : Same c d) : Same (a ++ c) (b ++ d) := by
  intro x y
  calc words (x ++ (a ++ c) ++ y) = words (x ++ a ++ (c ++ y)) := by simp only [List.append_assoc]
    _ = words (x ++ b ++ (c ++ y)) := h x (c ++ y)
    _ = words (x ++ b ++ c ++ y) := by simp only [List.append_assoc]
    _ = words (x ++ b ++ d ++ y) := h' (x ++ b) y
    _ = words (x ++ (b ++ d) ++ y) := by simp only [List.append_assoc]

theorem Same.cons (h : Same a b) (m : Option Char) : Same (m :: a) (m :: b) :=
  (Same.refl [m]).append h

theorem same_gaps (n : Nat) : Same (none :: List.replicate n none) [none] := by
  induction n with
  | zero => exact .refl _
  | succ n ih =>
    refine .trans (fun x y => ?_) ih
    have hgap : words (none :: (List.replicate n none ++ y)) = words (List.replicate n none ++ y) :=
      words_gap [] _
    simp only [List.replicate_succ, List.append_assoc, List.cons_append]
    rw [words_gap, words_gap, hgap]

theorem same_gaps_before (n : Nat) (x : List (Option Char)) :
    Same (List.replicate n none ++ none :: x) (none :: x) := by
  have h := (same_gaps n).append (.refl x)
  rwa [← List.replicate_succ, List.replicate_succ', List.append_assoc] at h

end Gaps

/-! ## Quotes -/

/-- Quotes that are open or are opened are closed on their line, and no line ends in a carriage
return. -/
def Closes : Mode → List Char → Prop
  | m, [] => m = .outside
  | m, c :: rest => c ≠ '\r' ∧ (c = '\n' → m = .outside) ∧ Closes (m.next c) rest

section Closes

variable {m : Mode} {cs ds : List Char} {c : Char}

theorem Closes.append (h : Closes m cs) (h' : Closes .outside ds) : Closes m (cs ++ ds) := by
  induction cs generalizing m with
  | nil =>
    obtain rfl : m = .outside := h
    exact h'
  | cons c rest ih => exact ⟨h.1, h.2.1, ih h.2.2⟩

theorem marks_append (h : Closes m cs) : marks m (cs ++ ds) = marks m cs ++ marks .outside ds := by
  induction cs generalizing m with
  | nil =>
    obtain rfl : m = .outside := h
    rfl
  | cons c rest ih =>
    rw [List.cons_append, marks, ih h.2.2, marks, List.cons_append]

/-- A character that opens no quote and is no carriage return. -/
def isBare (c : Char) : Bool := c != '\x60' && c != '\x27' && c != '\r'

/-- Characters that open no quote. -/
theorem closes_of_bare (h : ∀ c ∈ cs, isBare c = true) : Closes .outside cs := by
  induction cs with
  | nil => rfl
  | cons c rest ih =>
    have hc := h c (.head _)
    simp only [isBare, Bool.and_eq_true, bne_iff_ne] at hc
    refine ⟨hc.2, fun _ => rfl, ?_⟩
    rw [Mode.next, if_neg hc.1.1, if_neg hc.1.2]
    exact ih fun c' hc' => h c' (.tail _ hc')

theorem not_quote_of_isBlank (h : isBlank c = true) :
    c ≠ '\x60' ∧ c ≠ '\x27' ∧ c ≠ '\\' := by
  refine ⟨?_, ?_, ?_⟩
  all_goals
    rintro rfl
    exact absurd h (by decide)

theorem next_of_isBlank (h : isBlank c = true) : m.next c = .outside ↔ m = .outside := by
  obtain ⟨hname, hstring, hescape⟩ := not_quote_of_isBlank h
  cases m with
  | outside => simp [Mode.next, hname, hstring]
  | name => simp [Mode.next, hname]
  | string => simp [Mode.next, hstring, hescape]
  | escape => simp [Mode.next]

theorem Closes.of_blank_append (h : Closes .outside (ds ++ cs)) (hds : ∀ c ∈ ds, isBlank c = true) :
    Closes .outside cs := by
  induction ds with
  | nil => exact h
  | cons d rest ih =>
    have hnext := (next_of_isBlank (m := .outside) (hds d (.head _))).2 rfl
    refine ih ?_ fun c hc => hds c (.tail _ hc)
    rw [← hnext]
    exact h.2.2

theorem marks_blank_append (hds : ∀ c ∈ ds, isBlank c = true) (cs : List Char) :
    marks .outside (ds ++ cs) = List.replicate ds.length none ++ marks .outside cs := by
  induction ds with
  | nil => rfl
  | cons d rest ih =>
    have hd := hds d (.head _)
    have hnext := (next_of_isBlank (m := .outside) hd).2 rfl
    rw [List.cons_append, marks, if_pos ⟨rfl, hd⟩, hnext,
      ih fun c hc => hds c (.tail _ hc), List.length_cons, List.replicate_succ,
      List.cons_append]

theorem closes_blank (hds : ∀ c ∈ ds, isBlank c = true ∧ c ≠ '\r') : Closes .outside ds := by
  induction ds with
  | nil => rfl
  | cons d rest ih =>
    obtain ⟨hd, hr⟩ := hds d (.head _)
    refine ⟨hr, fun _ => rfl, ?_⟩
    rw [(next_of_isBlank (m := .outside) hd).2 rfl]
    exact ih fun c hc => hds c (.tail _ hc)

theorem Closes.outside_of_feed {w : List Char} (h : Closes m (w ++ cs))
    (hw : ∀ c ∈ w, isBlank c = true) (hn : '\n' ∈ w) : m = .outside := by
  induction w generalizing m with
  | nil => cases hn
  | cons d rest ih =>
    rcases List.mem_cons.1 hn with rfl | hn
    · exact h.2.1 rfl
    · exact (next_of_isBlank (hw d (.head _))).1 (ih h.2.2 (fun c hc => hw c (.tail _ hc)) hn)

/-- Blanks before a text are one gap. -/
theorem same_blank {w v : List Char} (hw : ∀ c ∈ w, isBlank c = true) (hwne : w ≠ [])
    (hv : ∀ c ∈ v, isBlank c = true) (hvne : v ≠ [])
    (h : Same (marks .outside cs) (marks .outside ds)) :
    Same (marks .outside (w ++ cs)) (marks .outside (v ++ ds)) := by
  have hone : ∀ {w : List Char} (x : List (Option Char)), w ≠ [] →
      Same (List.replicate w.length none ++ x) (none :: x) := by
    intro w x hne
    obtain ⟨d, rest, rfl⟩ := List.exists_cons_of_ne_nil hne
    exact (same_gaps rest.length).append (.refl x)
  rw [marks_blank_append hw, marks_blank_append hv]
  exact ((hone _ hwne).trans (h.cons none)).trans (hone _ hvne).symm

theorem Reflow.closes {cut : Bool} (h : Reflow cut cs ds) (hcut : cut = false) (hcs : Closes m cs) :
    Closes m ds ∧ Same (marks m cs) (marks m ds) := by
  induction h generalizing m with
  | nil => exact ⟨hcs, .refl _⟩
  | keep c _ ih =>
    obtain ⟨hrest, hsame⟩ := ih hcut hcs.2.2
    exact ⟨⟨hcs.1, hcs.2.1, hrest⟩, hsame.cons _⟩
  | @gap _ _ _ w v hw hn hv hne _ ih =>
    obtain rfl := hcs.outside_of_feed hw hn
    obtain ⟨hrest, hsame⟩ := ih hcut (hcs.of_blank_append hw)
    have hblank : ∀ c ∈ v, isBlank c = true ∧ c ≠ '\r' := by
      intro c hc
      rcases hv c hc with rfl | rfl
      · decide
      · decide
    exact ⟨(closes_blank hblank).append hrest,
      same_blank hw (List.ne_nil_of_mem hn) (fun c hc => (hblank c hc).1) hne hsame⟩
  | cut _ => cases hcut

end Closes

/-! ## Texts -/

/-- The texts close their quotes on each line, and each of them may stand for the other one. -/
structure Alike (a b : String) : Prop where
  left : Closes .outside a.toList
  right : Closes .outside b.toList
  same : Same (marks .outside a.toList) (marks .outside b.toList)

/-- The text ends in something that is no blank. -/
def Solid (s : String) : Prop := ∃ c, s.toList.getLast? = some c ∧ isBlank c = false

/-- The text neither begins nor ends with a blank. -/
def Trimmed (s : String) : Prop :=
  (∀ c ∈ s.toList.head?, isBlank c = false) ∧ ∀ c ∈ s.toList.getLast?, isBlank c = false

/-- Texts that are alike and end in something. -/
structure Whole (a b : String) : Prop extends Alike a b where
  solidLeft : Solid a
  solidRight : Solid b

/-- A text that opens no quote. -/
def Bare (s : String) : Prop := ∀ c ∈ s.toList, isBare c = true

instance (s : String) : Decidable (Bare s) := List.decidableBAll _ s.toList

def OneLine (s : String) : Prop := ∀ c ∈ s.toList, c ≠ '\n' ∧ c ≠ '\r'

instance (s : String) : Decidable (OneLine s) := List.decidableBAll _ s.toList

theorem Bare.append (ha : Bare a) (hb : Bare b) : Bare (a ++ b) := by
  intro c hc
  rw [String.toList_append, List.mem_append] at hc
  exact hc.elim (ha c) (hb c)

theorem OneLine.append (ha : OneLine a) (hb : OneLine b) : OneLine (a ++ b) := by
  intro c hc
  rw [String.toList_append, List.mem_append] at hc
  exact hc.elim (ha c) (hb c)

section Texts

variable {a b c d s : String}

theorem Alike.refl (h : Closes .outside s.toList) : Alike s s := ⟨h, h, .refl _⟩

theorem alike_of_bare (h : Bare s) : Alike s s := .refl (closes_of_bare h)

theorem Alike.symm (h : Alike a b) : Alike b a := ⟨h.right, h.left, h.same.symm⟩

theorem Alike.trans (h : Alike a b) (h' : Alike b c) : Alike a c :=
  ⟨h.left, h'.right, h.same.trans h'.same⟩

theorem Alike.append (h : Alike a b) (h' : Alike c d) : Alike (a ++ c) (b ++ d) := by
  refine ⟨?_, ?_, ?_⟩
  · rw [String.toList_append]
    exact h.left.append h'.left
  · rw [String.toList_append]
    exact h.right.append h'.right
  · rw [String.toList_append, String.toList_append, marks_append h.left, marks_append h.right]
    exact h.same.append h'.same

theorem Alike.tokens (h : Alike a b) : tokens a = tokens b := by
  have hwords := h.same [] []
  simp only [List.nil_append, List.append_nil] at hwords
  rw [Text.tokens, Text.tokens, hwords]

/-- A line may be broken at a space. -/
theorem alike_break : Alike "\n" " " :=
  ⟨⟨by decide, fun _ => rfl, rfl⟩, ⟨by decide, fun _ => rfl, rfl⟩, .refl _⟩

theorem Alike.intercalate {sep sep' : String} {as bs : List String} (hsep : Alike sep sep')
    (h : List.Forall₂ Alike as bs) : Alike (sep.intercalate as) (sep'.intercalate bs) := by
  induction h with
  | nil => exact .refl rfl
  | cons hab hrest ih =>
    cases hrest with
    | nil => simpa using hab
    | cons =>
      rw [String.intercalate_cons_cons, String.intercalate_cons_cons]
      exact (hab.append hsep).append ih

theorem Solid.append (a : String) (h : Solid b) : Solid (a ++ b) := by
  obtain ⟨c, hc, hblank⟩ := h
  refine ⟨c, ?_, hblank⟩
  rw [String.toList_append, List.getLast?_append, hc]
  rfl

theorem Alike.append_whole (h : Alike a b) (h' : Whole c d) : Whole (a ++ c) (b ++ d) :=
  ⟨h.append h'.toAlike, h'.solidLeft.append a, h'.solidRight.append b⟩

/-- A text that closes its quotes is like what it is laid out as. -/
theorem Reflow.alike (h : Reflow false a.toList b.toList) (ha : Closes .outside a.toList) :
    Alike b a :=
  ⟨(h.closes rfl ha).1, ha, (h.closes rfl ha).2.symm⟩

section Indented

variable {pad : String} (hpad : ∀ c ∈ pad.toList, c = ' ')

theorem getLast?_feed (hs : Solid s) : ∀ c ∈ ('\n' :: s.toList).getLast?, isBlank c = false := by
  obtain ⟨c, hc, hblank⟩ := hs
  rw [List.getLast?_cons, hc]
  rintro _ ⟨⟩
  exact hblank

include hpad

/-- After a line break a text that ends in something may be indented. -/
theorem alike_indentLines (h : Closes .outside s.toList) (hs : Solid s) :
    Alike ("\n" ++ indentLines pad s) (" " ++ s) := by
  have hbreak : Alike ("\n" ++ s) (" " ++ s) := alike_break.append (.refl h)
  have hreflow := ((reflow_indentLines hpad s).of_solid (getLast?_feed hs)).1
  refine .trans (Reflow.alike ?_ hbreak.left) hbreak
  simpa using hreflow

theorem alike_indentLines_break (h : Closes .outside s.toList) :
    Alike ("\n" ++ indentLines pad s ++ "\n") (" " ++ s ++ " ") := by
  have hbreak : Alike ("\n" ++ s ++ "\n") (" " ++ s ++ " ") :=
    (alike_break.append (.refl h)).append alike_break
  refine .trans (Reflow.alike ?_ hbreak.left) hbreak
  simpa using (reflow_indentLines hpad s).feed

/-- A text still ends in something when it is indented. -/
theorem Solid.indentLines (hs : Solid s) : Solid (indentLines pad s) := by
  have hlast := ((reflow_indentLines hpad s).of_solid (getLast?_feed hs)).2
  obtain ⟨c, hc, hblank⟩ := hs
  refine ⟨c, ?_, hblank⟩
  rw [List.getLast?_cons, List.getLast?_cons, hc] at hlast
  cases hindented : (Text.indentLines pad s).toList.getLast? with
  | some d =>
    rw [hindented] at hlast
    exact hlast
  | none =>
    rw [hindented] at hlast
    cases hlast
    exact absurd hblank (by decide)

end Indented

/-- The lines of a text without blanks at its ends may be put on one line. -/
theorem alike_collapseLines (h : Closes .outside s.toList) (hs : Trimmed s) :
    Alike (collapseLines s) s :=
  ((reflow_collapseLines hs.1).of_solid hs.2).1.alike h

end Texts

end PlanSql.Text

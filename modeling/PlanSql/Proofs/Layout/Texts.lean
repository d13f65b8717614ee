import PlanSql.Proofs.Layout.Constants
import PlanSql.Proofs.Layout.Forms

/-!
# Texts in two layouts

The text of an expression, a table expression or a level in some layout is like its text in the flat
layout, which has no indentation and puts a list on one line. What is indented follows a line break,
a value is filled up with spaces before a keyword, and a level in parentheses is put on one line,
none of which changes tokens.
-/

namespace PlanSql.Sql

open PlanSql.Text PlanSql.Compile

/-- The texts of levels in two layouts: they are alike, without blanks at their ends. -/
structure Matching (a b : String) : Prop extends Alike a b where
  trimmedLeft : Trimmed a
  trimmedRight : Trimmed b

/-- The text of an expression does not depend on the layout, if those of the levels do not. -/
def Expr.Steady (e : Expr) : Prop := ∀ (layout : Layout) (f f' : LevelId → String),
  (∀ l, Matching (f l) (f' l)) → Whole (e.text layout f) (e.text .flat f')

section Lists

variable {layout : Layout} {as bs : List String} {f f' : LevelId → String}

/-- Texts that each follow a line break may be indented. -/
theorem alike_indented_list (layout : Layout) (sep : String) (hsep : Bare sep)
    (h : List.Forall₂ Whole as bs) :
    Alike ("\n" ++ (sep ++ "\n").intercalate (as.map (indentLines layout.pad)))
      (" " ++ (sep ++ " ").intercalate bs) := by
  induction h with
  | nil => exact alike_break
  | cons hab hrest ih =>
    have hfirst := (alike_indentLines layout.eq_of_mem_pad hab.left hab.solidLeft).trans
      (.append (.refl alike_break.right) hab.toAlike)
    cases hrest with
    | nil => simpa using hfirst
    | cons =>
      have hboth := (hfirst.append (alike_of_bare hsep)).append ih
      rw [List.map_cons, List.map_cons, String.intercalate_cons_cons, String.intercalate_cons_cons]
      rw [List.map_cons] at hboth
      simpa only [String.append_assoc] using hboth

theorem alike_list (sep : String) (hsep : Bare sep) (h : List.Forall₂ Whole as bs) :
    Alike (sep.intercalate as) (sep.intercalate bs) :=
  (alike_of_bare hsep).intercalate (h.imp fun _ _ hab => hab.toAlike)

end Lists

/-! ## Parts of expressions -/

section Parts

variable {layout : Layout}

theorem whole_alias (a : Alias) : Whole a.text a.text :=
  (alike_of_bare (by decide)).append_whole (whole_repr a)

theorem whole_symbol (op : BinaryOp) : Whole op.symbol op.symbol := by
  cases op <;> exact whole_of_ink (by decide) (by decide)

/-- A bare text that ends in something. -/
theorem whole_of_bare {s : String} (h : Bare s) (hs : Solid s) : Whole s s :=
  .refl (closes_of_bare h) hs

theorem whole_branches (layout : Layout) {head head' : String} {parts parts' : List String}
    (hhead : Alike head head') (hparts : List.Forall₂ Whole parts parts') :
    Whole (if layout.beautify then
        head ++ "\n" ++ "\n".intercalate (parts.map (indentLines layout.pad)) ++ "\nEND"
      else head ++ " " ++ " ".intercalate parts ++ " END")
      (head' ++ " " ++ " ".intercalate parts' ++ " END") := by
  split
  · have hlist := alike_indented_list layout "" (by decide) hparts
    have hbreak : Whole "\nEND" " END" :=
      alike_break.append_whole (whole_of_ink (s := "END") (by decide) (by decide))
    have hwhole := (hhead.append hlist).append_whole hbreak
    simpa only [String.empty_append, ← String.append_assoc] using hwhole
  · have hlist := alike_list " " (by decide) hparts
    have hend : Whole " END" " END" := whole_of_bare (by decide) ⟨'D', by decide, by decide⟩
    exact ((hhead.append (alike_of_bare (by decide))).append hlist).append_whole hend

/-- Texts in two layouts stay alike, however they are put together. -/
theorem whole_forms :
    Forms (fun _ _ => Whole) (fun _ => Alike) (fun _ => Matching) Bare fun _ => True where
  constant v _ := v.whole_sqlText
  word w hw := by
    have hwords : ∀ w ∈ keywords, Bare w ∧
      w.toList.getLast?.any (!isBlank ·) = true := by decide +kernel
    obtain ⟨hbare, hlast⟩ := hwords w hw
    obtain ⟨c, hc, hblank⟩ := (Option.any_eq_true _ _).1 hlast
    exact whole_of_bare hbare ⟨c, hc, by simpa using hblank⟩
  typeName t := by cases t <;> exact whole_of_ink (by decide) (by decide)
  symbol := whole_symbol
  number := whole_repr
  gap h h' := (h.toAlike.append (alike_of_bare (by decide))).append_whole h'
  inside h := h.toAlike
  empty := alike_of_bare (by decide)
  pair hk h h' := by
    rcases hk with rfl | rfl <;> exact (h.append (alike_of_bare (by decide))).append h'
  level h := ((alike_collapseLines h.left h.trimmedLeft).trans h.toAlike).trans
    (alike_collapseLines h.right h.trimmedRight).symm
  call {k _ _ _} hk h := by
    have hname : Bare k := hk.elim id fun hmem =>
      (by decide : ∀ k ∈ ["", "CAST", "FROM_UNIXTIME"], Bare k) k hmem
    exact (((alike_of_bare hname).append (alike_of_bare (by decide))).append h).append_whole
      (whole_of_ink (by decide) (by decide))
  branches layout parts h hparts := by
    refine whole_branches layout h.toAlike ?_
    rw [List.forall₂_map_left_iff, List.forall₂_map_right_iff, List.forall₂_same]
    exact fun x hx => (hparts x hx).choose_spec

end Parts

/-! ## Expressions -/

section Expressions

variable {e : Expr}

theorem Expr.steady_iff_holds : e.Steady ↔ e.Holds (fun _ _ => Whole) fun _ => Matching :=
  ⟨fun h layout f f' _ => h layout f f', fun h layout f f' => h layout f f' fun _ => []⟩

theorem Expr.Steady.descending (h : e.Steady) : (Expr.descending e).Steady :=
  steady_iff_holds.2 ((steady_iff_holds.1 h).descending whole_forms)

theorem Expr.Steady.negate (h : e.Steady) : (Expr.negate e).Steady :=
  fun layout f f' hf => (alike_of_bare (by decide)).append_whole (h layout f f' hf)

/-- Texts of expressions are steady if those of their parts are. -/
theorem steady_congruence : FullCongruence (fun e _ => e.Steady) Bare fun _ => True := by
  simpa only [Expr.steady_iff_holds] using whole_forms.congruence

theorem steady_column (label : Alias) {field : String} (h : OneLine field) :
    (Expr.column label field).Steady := fun _ _ _ _ =>
  ((whole_alias label).toAlike.append (alike_of_bare (by decide))).append_whole (whole_quoteName h)

end Expressions

/-! ## Table expressions -/

/-- The text of a table expression does not depend on the layout, if those of the levels do not. -/
def Source.Steady (source : Source) : Prop := ∀ (layout : Layout) (f f' : LevelId → String),
  (∀ l, Matching (f l) (f' l)) → Whole (source.text layout f) (source.text .flat f')

section Sources

variable {layout : Layout} {a b : String}

/-- After a line break a text may be indented in two ways. -/
theorem alike_indentations (layout : Layout) (h : Whole a b) :
    Alike ("\n" ++ indentLines layout.pad a) ("\n" ++ indentLines Layout.flat.pad b) := by
  have hleft := alike_indentLines layout.eq_of_mem_pad h.left h.solidLeft
  have hright := alike_indentLines Layout.flat.eq_of_mem_pad h.right h.solidRight
  exact (hleft.trans (.append (.refl alike_break.right) h.toAlike)).trans hright.symm

theorem whole_nestedText (h : Alike a b) (label : Alias) :
    Whole (nestedText layout a label) (nestedText .flat b label) := by
  have hspace : Alike " " " " := .refl alike_break.right
  have hbody := ((alike_indentLines_break layout.eq_of_mem_pad h.left).trans
    ((hspace.append h).append hspace)).trans
    (alike_indentLines_break Layout.flat.eq_of_mem_pad h.right).symm
  have hopen : Alike "(" "(" := alike_of_bare (by decide)
  have hwhole := ((hopen.append hbody).append (alike_of_bare (s := ") ") (by decide))).append_whole
    (whole_alias label)
  unfold nestedText
  rw [show "(\n" = "(" ++ "\n" by decide, show "\n) " = "\n" ++ ") " by decide]
  simpa only [String.append_assoc] using hwhole

theorem whole_table {stored : Table} (hspace : Bare stored.space) (hname : OneLine stored.name)
    (label : Alias) (layout : Layout) (f f' : LevelId → String) :
    Whole ((Source.table stored label).text layout f)
      ((Source.table stored label).text .flat f') := by
  have hfront : Alike (if stored.space.isEmpty then "" else stored.space ++ ".")
      (if stored.space.isEmpty then "" else stored.space ++ ".") := by
    split
    · exact alike_of_bare (by decide)
    · exact (alike_of_bare hspace).append (alike_of_bare (by decide))
  exact ((hfront.append (whole_quoteName hname).toAlike).append
    (alike_of_bare (by decide))).append_whole (whole_alias label)

end Sources

end PlanSql.Sql

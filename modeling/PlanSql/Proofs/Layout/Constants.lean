import PlanSql.Proofs.Layout.Tokens
import PlanSql.Proofs.Text.Quotes
import PlanSql.Value

/-!
# Texts of names and constants

Quoted names and constants close their quotes and end in something that is no blank, so they stand
next to any other text without touching its tokens.
-/

namespace PlanSql

variable {c : Char}

namespace Text

/-- A character that means nothing in quotes and is no blank. -/
def isInk (c : Char) : Bool := isBare c && c != '\\' && !isBlank c

def Inked (s : String) : Prop := ∀ c ∈ s.toList, isInk c = true

instance (s : String) : Decidable (Inked s) := List.decidableBAll _ s.toList

variable {s : String}

/-- A text that stands on its own. -/
theorem Whole.refl (h : Closes .outside s.toList) (hs : Solid s) : Whole s s := ⟨.refl h, hs, hs⟩

theorem bare_of_ink (h : Inked s) : Bare s := by
  intro c hc
  have hink := h c hc
  rw [isInk, Bool.and_eq_true, Bool.and_eq_true] at hink
  exact hink.1.1

theorem whole_of_ink (h : Inked s) (hs : s ≠ "") : Whole s s := by
  have hblank : ∀ c ∈ s.toList, isBlank c = false := by
    intro c hc
    have hink := h c hc
    rw [isInk, Bool.and_eq_true, Bool.not_eq_true'] at hink
    exact hink.2
  obtain ⟨c, hc⟩ : ∃ c, s.toList.getLast? = some c := by
    rw [← Option.isSome_iff_exists, List.getLast?_isSome]
    exact fun hnil => hs (String.toList_eq_nil_iff.1 hnil)
  exact .refl (closes_of_bare (bare_of_ink h)) ⟨c, hc, hblank c (List.mem_of_getLast? hc)⟩

/-! ## Quotes -/

theorem closes_name {cs : List Char} (h : ∀ c ∈ cs, c ≠ '\n' ∧ c ≠ '\r') :
    Closes .name (cs.flatMap quoteNameChar ++ ['\x60']) := by
  induction cs with
  | nil => exact ⟨by decide, by decide, rfl⟩
  | cons c rest ih =>
    have hrest := ih fun c' hc' => h c' (.tail _ hc')
    obtain ⟨hn, hr⟩ := h c (.head _)
    rw [List.flatMap_cons, List.append_assoc, quoteNameChar]
    split
    · exact ⟨by decide, by decide, by decide, by decide, hrest⟩
    · next hc =>
      refine ⟨hr, fun heq => absurd heq hn, ?_⟩
      rw [Mode.next, if_neg hc]
      exact hrest

theorem whole_quoteName (h : OneLine s) : Whole (quoteName s) (quoteName s) := by
  refine .refl ?_ ⟨'\x60', ?_, by decide⟩
  · rw [toList_quoteName]
    exact ⟨by decide, fun _ => rfl, closes_name h⟩
  · rw [toList_quoteName, List.getLast?_append]
    rfl

theorem closes_string (cs : List Char) :
    Closes .string (cs.flatMap quoteStringChar ++ ['\x27']) := by
  induction cs with
  | nil => exact ⟨by decide, by decide, rfl⟩
  | cons c rest ih =>
    rw [List.flatMap_cons, List.append_assoc]
    rcases quoteStringChar_cases c with ⟨d, hd, hn, hr, _⟩ | ⟨hc, hescape, hquote, hn, hr⟩
    · rw [hd]
      exact ⟨by decide, by decide, hr, fun heq => absurd heq hn, ih⟩
    · rw [hc]
      refine ⟨hr, fun heq => absurd heq hn, ?_⟩
      rw [Mode.next, if_neg hescape, if_neg hquote]
      exact ih

/-- Any string constant: line breaks in it are escaped. -/
theorem whole_quoteString (s : String) : Whole (quoteString s) (quoteString s) := by
  refine .refl ?_ ⟨'\x27', ?_, by decide⟩
  · rw [toList_quoteString]
    exact ⟨by decide, fun _ => rfl, closes_string s.toList⟩
  · rw [toList_quoteString, List.getLast?_append]
    rfl

/-- Plain characters are written as they are. -/
theorem quoteString_of_ink (h : Inked s) :
    quoteString s = "\x27" ++ s ++ "\x27" := by
  have hchars : ∀ cs : List Char, (∀ c ∈ cs, isInk c = true) → cs.flatMap quoteStringChar = cs := by
    intro cs hcs
    induction cs with
    | nil => rfl
    | cons c rest ih =>
      have hc := hcs c (.head _)
      have hne : ∀ d : Char, isInk d = false → c ≠ d := by
        rintro d hd rfl
        rw [hc] at hd
        cases hd
      rw [List.flatMap_cons, ih fun c' hc' => hcs c' (.tail _ hc'), quoteStringChar,
        if_neg (hne _ (by decide)), if_neg (hne _ (by decide)), if_neg (hne _ (by decide)),
        if_neg (hne _ (by decide)), if_neg (hne _ (by decide))]
      rfl
  rw [← String.toList_inj, toList_quoteString, hchars _ h]
  simp

end Text

/-! ## Numbers -/

open Text

theorem isInk_of_isDigit (h : c.isDigit = true) : isInk c = true := by
  have hbounds := toNat_of_isDigit h
  have hne : ∀ d : Char, d.toNat < 48 ∨ 57 < d.toNat → c ≠ d := by
    rintro d hd rfl
    omega
  have hbare : isBare c = true := by
    simp only [isBare, Bool.and_eq_true, bne_iff_ne]
    exact ⟨⟨hne _ (by decide), hne _ (by decide)⟩, hne _ (by decide)⟩
  rw [isInk, hbare, bne_iff_ne.2 (hne '\\' (by decide)), isBlank_of_isDigit h]
  rfl

theorem isInk_of_mem_repr {n : Nat} (h : c ∈ (Nat.repr n).toList) : isInk c = true := by
  rw [Nat.toList_repr] at h
  exact isInk_of_isDigit (Nat.isDigit_of_mem_toDigits (by decide) (by decide) h)

theorem whole_repr (n : Nat) : Whole (Nat.repr n) (Nat.repr n) := by
  refine whole_of_ink (fun c => isInk_of_mem_repr) fun hnil => ?_
  rw [← String.toList_eq_nil_iff, Nat.toList_repr] at hnil
  exact Nat.toDigits_ne_nil hnil

theorem whole_toString_int (n : Int) : Whole (toString n) (toString n) := by
  cases n with
  | ofNat m => exact whole_repr m
  | negSucc m => exact (alike_of_bare (s := "-") (by decide)).append_whole (whole_repr (m + 1))

namespace Digits

variable {d : Digits} {c : Char}

theorem isDigit_or_point (h : c ∈ d.positional) : c.isDigit = true ∨ c = '.' := by
  have hchars : ∀ c ∈ d.chars, c.isDigit = true := fun c hc =>
    Nat.isDigit_of_mem_toDigits (by decide) (by decide) hc
  have hzeros : ∀ n, ∀ c ∈ List.replicate n '0', c.isDigit = true := fun n c hc => by
    rw [List.eq_of_mem_replicate hc]
    decide
  unfold positional at h
  split at h
  · exact .inl ((List.mem_append.1 h).elim (hchars c) (hzeros _ c))
  · have hfilled : ∀ n, ∀ c ∈ List.replicate n '0' ++ d.chars, c.isDigit = true :=
      fun n c hc => (List.mem_append.1 hc).elim (hzeros n c) (hchars c)
    rcases List.mem_append.1 h with h | h
    · exact .inl (hfilled _ c (List.mem_of_mem_take h))
    · rcases List.mem_cons.1 h with rfl | h
      · exact .inr rfl
      · exact .inl (hfilled _ c (List.mem_of_mem_drop h))

theorem isInk_of_mem_positional (h : c ∈ d.positional) : isInk c = true := by
  rcases isDigit_or_point h with hdigit | rfl
  · exact isInk_of_isDigit hdigit
  · decide

theorem positional_ne_nil (d : Digits) : d.positional ≠ [] := by
  unfold positional
  split
  · exact fun h => Nat.toDigits_ne_nil (List.append_eq_nil_iff.1 h).1
  · exact fun h => by cases (List.append_eq_nil_iff.1 h).2

end Digits

theorem Binary64.bare_signText (x : Binary64) : Bare x.signText := by
  unfold signText
  split
  · decide
  · decide

theorem Binary64.whole_sqlText (x : Binary64) : Whole x.sqlText x.sqlText := by
  unfold sqlText display
  split
  · refine (alike_of_bare x.bare_signText).append_whole (whole_of_ink ?_ ?_)
    · intro c hc
      rw [String.toList_ofList] at hc
      split at hc
      · exact Digits.isInk_of_mem_positional hc
      · rcases List.mem_append.1 hc with hc | hc
        · exact Digits.isInk_of_mem_positional hc
        · rcases List.mem_pair.1 hc with rfl | rfl <;> rfl
    · intro hnil
      rw [← String.toList_eq_nil_iff, String.toList_ofList] at hnil
      split at hnil
      · exact Digits.positional_ne_nil _ hnil
      · exact Digits.positional_ne_nil _ (List.append_eq_nil_iff.1 hnil).1
  · split
    · exact whole_of_ink (by decide) (by decide)
    · exact (alike_of_bare x.bare_signText).append_whole (whole_of_ink (by decide) (by decide))

theorem Decimal.isInk_of_mem_toString {d : Decimal} (h : c ∈ d.toString.toList) :
    isInk c = true := by
  rw [toString, String.toList_append, String.toList_ofList] at h
  rcases List.mem_append.1 h with h | h
  · split at h
    · exact (by decide : Inked "-") c h
    · cases h
  · exact Digits.isInk_of_mem_positional h

theorem Value.sqlText_decimal (d : Decimal) : (decimal d).sqlText =
    "CAST(" ++ ("\x27" ++ d.toString ++ "\x27") ++ " AS DECIMAL)" := by
  have hopen : "CAST(\x27" = "CAST(" ++ "\x27" := by decide
  have hclose : "\x27 AS DECIMAL)" = "\x27" ++ " AS DECIMAL)" := by decide
  change "CAST(\x27" ++ d.toString ++ "\x27 AS DECIMAL)" = _
  simp only [hopen, hclose, String.append_assoc]

theorem Value.whole_sqlText (v : Value) : Whole v.sqlText v.sqlText := by
  cases v with
  | null => exact whole_of_ink (by decide) (by decide)
  | boolean b => cases b <;> exact whole_of_ink (by decide) (by decide)
  | integer n => exact whole_toString_int n.toInt
  | float x => exact x.whole_sqlText
  | decimal d =>
    have hquoted := (whole_quoteString d.toString).toAlike
    rw [quoteString_of_ink fun c => d.isInk_of_mem_toString] at hquoted
    have hfront := (alike_of_bare (s := "CAST(") (by decide)).append hquoted
    have hwhole := hfront.append_whole (Whole.refl (s := " AS DECIMAL)")
      (closes_of_bare (by decide : Bare " AS DECIMAL)")) ⟨')', by decide, by decide⟩)
    rw [sqlText_decimal]
    exact hwhole
  | string s => exact whole_quoteString s
  | datetime t =>
    have hfront := alike_of_bare (s := "FROM_UNIXTIME(") (by decide)
    exact (hfront.append (whole_toString_int t.timestamp).toAlike).append_whole
      (whole_of_ink (by decide) (by decide))

end PlanSql

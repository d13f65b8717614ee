import Mathlib.Data.List.TakeWhile
import PlanSql.Text.Lines

/-!
# Lines that are laid out anew

Indenting the lines of a text and putting them on one line change blanks only, and only where a line
ends: some blanks with a line feed among them become spaces and line feeds, and blanks at the end of
the text may go. `Reflow` says that, wherever the blanks stand.
-/

namespace PlanSql.Text

/-- The second text is the first one with other blanks at the ends of its lines. At its own end they
may be cut off if the flag is set. -/
inductive Reflow : Bool → List Char → List Char → Prop where
  | nil {cut : Bool} : Reflow cut [] []
  | keep {cut : Bool} {a b : List Char} (c : Char) : Reflow cut a b → Reflow cut (c :: a) (c :: b)
  | gap {cut : Bool} {a b w v : List Char} : (∀ c ∈ w, isBlank c = true) → '\n' ∈ w →
      (∀ c ∈ v, c = ' ' ∨ c = '\n') → v ≠ [] → Reflow cut a b → Reflow cut (w ++ a) (v ++ b)
  | cut {w : List Char} : (∀ c ∈ w, isBlank c = true) → Reflow true w []

section Reflow

variable {cut : Bool} {a b cs l w pad : List Char} {ls : List (List Char)} {c : Char}

theorem isBlank_feed : ∀ c ∈ ['\n'], isBlank c = true := List.forall_mem_singleton.2 (by decide)

theorem isBlank_return : ∀ c ∈ ['\r', '\n'], isBlank c = true :=
  List.forall_mem_cons.2 ⟨by decide, isBlank_feed⟩

theorem Reflow.append_left (h : Reflow cut a b) (w : List Char) : Reflow cut (w ++ a) (w ++ b) := by
  induction w with
  | nil => exact h
  | cons c rest ih => exact ih.keep c

theorem Reflow.feed (h : Reflow cut a b) : Reflow false (a ++ ['\n']) (b ++ ['\n']) := by
  induction h with
  | nil => exact .keep '\n' .nil
  | keep c _ ih => exact ih.keep c
  | gap hw hn hv hne _ ih =>
    rw [List.append_assoc, List.append_assoc]
    exact .gap hw hn hv hne ih
  | @cut w hw =>
    have hblank : ∀ c ∈ w ++ ['\n'], isBlank c = true :=
      List.forall_mem_append.2 ⟨hw, isBlank_feed⟩
    simpa using Reflow.gap (v := ['\n']) hblank (by simp) (by simp) (by simp)
      (Reflow.nil : Reflow false [] [])

/-- Nothing is cut off from a text that ends in something, and the other text ends in it too. -/
theorem Reflow.of_solid (h : Reflow cut a b) (hlast : ∀ c ∈ a.getLast?, isBlank c = false) :
    Reflow false a b ∧ b.getLast? = a.getLast? := by
  induction h with
  | nil => exact ⟨.nil, rfl⟩
  | @keep cut a b c _ ih =>
    have hrest : ∀ d ∈ a.getLast?, isBlank d = false := by
      intro d hd
      refine hlast d ?_
      rw [List.getLast?_cons, Option.mem_def.1 hd]
      rfl
    exact ⟨(ih hrest).1.keep c, by rw [List.getLast?_cons, List.getLast?_cons, (ih hrest).2]⟩
  | @gap cut a b w v hw hn hv hne _ ih =>
    have hrest : ∀ d ∈ a.getLast?, isBlank d = false := by
      intro d hd
      refine hlast d ?_
      rw [List.getLast?_append, Option.mem_def.1 hd]
      rfl
    obtain ⟨hreflow, heq⟩ := ih hrest
    refine ⟨.gap hw hn hv hne hreflow, ?_⟩
    rw [List.getLast?_append, List.getLast?_append, heq]
    cases ha : a.getLast? with
    | some d => rfl
    | none =>
      -- what is left of the text is empty, so its last character is one of the blanks
      rw [List.getLast?_append, ha] at hlast
      obtain ⟨d, hd⟩ := List.getLast?_isSome.2 (List.ne_nil_of_mem hn) |> Option.isSome_iff_exists.1
      have hblank := hlast d hd
      rw [hw d (List.mem_of_getLast? hd)] at hblank
      cases hblank
  | @cut w hw =>
    cases hd : w.getLast? with
    | none =>
      rw [List.getLast?_eq_none_iff.1 hd]
      exact ⟨.nil, rfl⟩
    | some d =>
      have hblank := hlast d hd
      rw [hw d (List.mem_of_getLast? hd)] at hblank
      cases hblank

/-- Only blanks change. -/
theorem Reflow.filter_eq (h : Reflow cut a b) : b.filter (!isBlank ·) = a.filter (!isBlank ·) := by
  have hblank : ∀ {w : List Char}, (∀ c ∈ w, isBlank c = true) → w.filter (!isBlank ·) = [] := by
    intro w hw
    rw [List.filter_eq_nil_iff]
    intro c hc
    rw [hw c hc]
    decide
  induction h with
  | nil => rfl
  | keep c _ ih => rw [List.filter_cons, List.filter_cons, ih]
  | gap hw _ hv _ _ ih =>
    rw [List.filter_append, List.filter_append, ih, hblank hw, hblank]
    intro c hc
    rcases hv c hc with rfl | rfl
    · decide
    · decide
  | cut hw => rw [hblank hw, List.filter_nil]

/-! ## Lines -/

theorem intercalate_cons_eq_flatMap (gap : Char) (l : List Char) (ls : List (List Char)) :
    [gap].intercalate (l :: ls) = l ++ ls.flatMap (gap :: ·) := by
  induction ls generalizing l with
  | nil => simp
  | cons l' rest ih =>
    rw [List.intercalate_cons_cons, ih, List.flatMap_cons]
    simp

theorem charLines_eq_nil (h : charLines cs = []) : cs = [] := by
  revert h
  fun_cases charLines cs <;> simp_all

/-! ### Indented lines -/

/-- A line with `pad` in front, unless it is empty. -/
def padChars (pad l : List Char) : List Char := if l = [] then [] else pad ++ l

theorem toList_indentLines (pad s : String) : (indentLines pad s).toList =
    ['\n'].intercalate ((charLines s.toList).map (padChars pad.toList)) := by
  have hline : ∀ l, (padLine pad (String.ofList l)).toList = padChars pad.toList l := by
    intro l
    unfold padLine padChars
    by_cases hl : l = []
    · simp [hl]
    · rw [if_neg hl, if_neg (by simpa using hl), String.toList_append, String.toList_ofList]
  rw [indentLines, String.toList_intercalate, lines, List.map_map, List.map_map]
  congr 1
  exact List.map_congr_left fun l _ => hline l

/-- After the end of a line the next one may be indented. -/
theorem Reflow.indented (hpad : ∀ c ∈ pad, c = ' ') (hw : ∀ c ∈ w, isBlank c = true) (hn : '\n' ∈ w)
    (h : Reflow true cs (l ++ b)) : Reflow true (w ++ cs) ('\n' :: padChars pad l ++ b) := by
  unfold padChars
  split
  · next hl =>
    rw [hl] at h
    exact .gap (v := ['\n']) hw hn (by simp) (by simp) h
  · have hspaces : ∀ c ∈ '\n' :: pad, c = ' ' ∨ c = '\n' :=
      List.forall_mem_cons.2 ⟨.inr rfl, fun c hc => .inl (hpad c hc)⟩
    simpa using Reflow.gap hw hn hspaces (by simp) h

/-- What is left of a line stays, and the lines after it are indented. -/
theorem reflow_padChars (hpad : ∀ c ∈ pad, c = ' ') (hlines : charLines cs = l :: ls) :
    Reflow true cs (l ++ ls.flatMap fun x => '\n' :: padChars pad x) := by
  have hend : ∀ {rest : List Char}, (∀ {l ls}, charLines rest = l :: ls →
      Reflow true rest (l ++ ls.flatMap fun x => '\n' :: padChars pad x)) →
      ∀ w : List Char, (∀ c ∈ w, isBlank c = true) → '\n' ∈ w →
      Reflow true (w ++ rest) ((charLines rest).flatMap fun x => '\n' :: padChars pad x) := by
    intro rest ih w hw hn
    cases hrest : charLines rest with
    | nil =>
      rw [charLines_eq_nil hrest, List.append_nil]
      exact .cut hw
    | cons l ls => exact (ih hrest).indented hpad hw hn
  fun_induction charLines cs generalizing l ls with
  | case1 => cases hlines
  | case2 rest ih =>
    cases hlines
    exact hend ih ['\n'] isBlank_feed (by simp)
  | case3 rest ih =>
    cases hlines
    exact hend ih ['\r', '\n'] isBlank_return (by simp)
  | case4 c rest _ _ hrest =>
    cases hlines
    rw [charLines_eq_nil hrest]
    exact .keep c .nil
  | case5 c rest _ _ line more hrest ih =>
    cases hlines
    exact (ih hrest).keep c

theorem reflow_indentLines {pad : String} (hpad : ∀ c ∈ pad.toList, c = ' ') (s : String) :
    Reflow true ('\n' :: s.toList) ('\n' :: (indentLines pad s).toList) := by
  rw [toList_indentLines]
  cases hlines : charLines s.toList with
  | nil =>
    rw [charLines_eq_nil hlines]
    exact .keep '\n' .nil
  | cons l ls =>
    rw [List.map_cons, intercalate_cons_eq_flatMap, List.flatMap_map]
    exact (reflow_padChars hpad hlines).indented hpad (w := ['\n']) isBlank_feed (by simp)

/-! ### Lines put on one line -/

def trimEnd (cs : List Char) : List Char := (cs.reverse.dropWhile isBlank).reverse

theorem trimEnd_of_blank (h : ∀ c ∈ cs, isBlank c = true) : trimEnd cs = [] := by
  rw [trimEnd, List.reverse_eq_nil_iff, List.dropWhile_eq_nil_iff]
  exact fun c hc => h c (List.mem_reverse.1 hc)

theorem trimEnd_append (w : List Char) (hc : isBlank c = false) (l : List Char) :
    trimEnd (w ++ c :: l) = w ++ c :: trimEnd l := by
  rw [trimEnd, trimEnd, List.reverse_append, List.reverse_cons, List.append_assoc,
    List.dropWhile_append]
  split
  · next h =>
    rw [List.isEmpty_iff.1 h]
    simp [hc]
  · simp

/-- The lines that are not blank, without blanks at their ends. -/
def trimmedLines (ls : List (List Char)) : List (List Char) :=
  (ls.map trimChars).filter (!·.isEmpty)

theorem toList_collapseLines (s : String) :
    (collapseLines s).toList = [' '].intercalate (trimmedLines (charLines s.toList)) := by
  have hempty : ∀ l : List Char, (trim (String.ofList l)).isEmpty = (trimChars l).isEmpty := by
    intro l
    rw [Bool.eq_iff_iff, String.isEmpty_iff, List.isEmpty_iff, ← String.toList_eq_nil_iff,
      toList_trim, String.toList_ofList]
  have hlines : ((((charLines s.toList).map String.ofList).map trim).filter (!·.isEmpty)).map
      String.toList = trimmedLines (charLines s.toList) := by
    rw [trimmedLines, List.map_map, List.filter_map, List.filter_map, List.map_map]
    simp [Function.comp_def, hempty]
  rw [collapseLines, String.toList_intercalate, lines, hlines]
  rfl

theorem trimmedLines_of_not_blank (hc : isBlank c = false) (l : List Char) (ls : List (List Char)) :
    trimmedLines ((c :: l) :: ls) = (c :: trimEnd l) :: trimmedLines ls := by
  have hline : trimChars (c :: l) = c :: trimEnd l := by
    rw [trimChars, List.dropWhile_cons, if_neg (by rw [hc]; decide)]
    exact trimEnd_append [] hc l
  rw [trimmedLines, List.map_cons, hline]
  rfl

/-- The lines of a text, each after a space. -/
def folded (ls : List (List Char)) : List Char := (trimmedLines ls).flatMap (' ' :: ·)

theorem folded_of_blank (hc : isBlank c = true) (l : List Char) (ls : List (List Char)) :
    folded ((c :: l) :: ls) = folded (l :: ls) := by
  rw [folded, trimmedLines, List.map_cons, trimChars, List.dropWhile_cons, if_pos hc]
  rfl

theorem folded_of_not_blank (hc : isBlank c = false) (l : List Char) (ls : List (List Char)) :
    folded ((c :: l) :: ls) = ' ' :: c :: (trimEnd l ++ folded ls) := by
  rw [folded, trimmedLines_of_not_blank hc]
  rfl

/-- The text after some blanks is put on one line. If the line of those goes on, they stay there. -/
theorem reflow_folded (hw : ∀ c ∈ w, isBlank c = true) :
    ('\n' ∈ w → Reflow true (w ++ cs) (folded (charLines cs))) ∧
      ∀ l ls, charLines cs = l :: ls → Reflow true (w ++ cs) (trimEnd (w ++ l) ++ folded ls) := by
  have hpush : ∀ {w v : List Char}, (∀ c ∈ w, isBlank c = true) → (∀ c ∈ v, isBlank c = true) →
      ∀ c ∈ w ++ v, isBlank c = true := fun hw hv => List.forall_mem_append.2 ⟨hw, hv⟩
  fun_induction charLines cs generalizing w with
  | case1 => exact ⟨fun _ => by simpa [folded, trimmedLines] using Reflow.cut hw, by simp⟩
  | case2 rest ih =>
    have hrest := (ih (hpush hw isBlank_feed)).1 (by simp)
    rw [List.append_assoc] at hrest
    refine ⟨fun _ => hrest, fun l ls hlines => ?_⟩
    cases hlines
    rwa [List.append_nil, trimEnd_of_blank hw]
  | case3 rest ih =>
    have hrest := (ih (hpush hw isBlank_return)).1 (by simp)
    rw [List.append_assoc] at hrest
    refine ⟨fun _ => hrest, fun l ls hlines => ?_⟩
    cases hlines
    rwa [List.append_nil, trimEnd_of_blank hw]
  | case4 c rest _ _ hrest =>
    rw [charLines_eq_nil hrest]
    cases hc : isBlank c with
    | true =>
      have hall := hpush hw (v := [c]) (by simpa using hc)
      refine ⟨fun _ => ?_, fun l ls hlines => ?_⟩
      · rw [folded_of_blank hc]
        exact .cut hall
      · cases hlines
        rw [trimEnd_of_blank hall]
        exact .cut hall
    | false =>
      refine ⟨fun hn => ?_, fun l ls hlines => ?_⟩
      · rw [folded_of_not_blank hc]
        exact .gap (v := [' ']) hw hn (by simp) (by simp) (.keep c .nil)
      · cases hlines
        rw [trimEnd_append w hc]
        simpa [trimEnd, folded, trimmedLines] using Reflow.append_left (.keep c .nil) w
  | case5 c rest _ _ line more hrest ih =>
    cases hc : isBlank c with
    | true =>
      have hall := ih (hpush hw (v := [c]) (by simpa using hc))
      rw [List.append_assoc, hrest] at hall
      refine ⟨fun hn => ?_, fun l ls hlines => ?_⟩
      · rw [folded_of_blank hc]
        exact hall.1 (List.mem_append_left _ hn)
      · cases hlines
        simpa using hall.2 line more rfl
    | false =>
      have hmore : Reflow true (c :: rest) (c :: (trimEnd line ++ folded more)) :=
        ((ih (w := []) (by simp)).2 line more hrest).keep c
      refine ⟨fun hn => ?_, fun l ls hlines => ?_⟩
      · rw [folded_of_not_blank hc]
        exact .gap (v := [' ']) hw hn (by simp) (by simp) hmore
      · cases hlines
        rw [trimEnd_append w hc, List.append_assoc]
        exact hmore.append_left w

/-- After a line feed the lines of a text may be put on one line, after a space if there are any. -/
theorem reflow_collapseLines_feed (s : String) : Reflow true ('\n' :: s.toList) [] ∧
    collapseLines s = "" ∨ Reflow true ('\n' :: s.toList) (' ' :: (collapseLines s).toList) := by
  have hreflow : Reflow true (['\n'] ++ s.toList) _ := (reflow_folded isBlank_feed).1 (by simp)
  rw [← String.toList_eq_nil_iff, toList_collapseLines]
  rw [folded] at hreflow
  cases hlines : trimmedLines (charLines s.toList) with
  | nil =>
    rw [hlines] at hreflow
    exact .inl ⟨hreflow, rfl⟩
  | cons l ls =>
    rw [hlines] at hreflow
    rw [intercalate_cons_eq_flatMap]
    exact .inr hreflow

/-- A text that begins with something begins a line with it. -/
theorem exists_charLines (hc : isBlank c = false) (rest : List Char) :
    ∃ l ls, charLines (c :: rest) = (c :: l) :: ls := by
  have hn : c ≠ '\n' := by
    rintro rfl
    exact absurd hc (by decide)
  have hr : c ≠ '\r' := by
    rintro rfl
    exact absurd hc (by decide)
  cases hrest : charLines rest with
  | nil => exact ⟨[], [], by simp [charLines, hr, hrest]⟩
  | cons l ls => exact ⟨l, ls, by simp [charLines, hr, hrest]⟩

/-- The lines of a text that begins with no blank may be put on one line. -/
theorem reflow_collapseLines {s : String} (hhead : ∀ c ∈ s.toList.head?, isBlank c = false) :
    Reflow true s.toList (collapseLines s).toList := by
  rw [toList_collapseLines]
  cases hs : s.toList with
  | nil => exact .nil
  | cons c rest =>
    have hc := hhead c (by rw [hs]; rfl)
    obtain ⟨l, ls, hlines⟩ := exists_charLines hc rest
    have hreflow := (reflow_folded (w := []) (by simp)).2 (c :: l) ls hlines
    rw [trimEnd_append [] hc] at hreflow
    rw [hlines, trimmedLines_of_not_blank hc, intercalate_cons_eq_flatMap]
    exact hreflow

end Reflow

end PlanSql.Text

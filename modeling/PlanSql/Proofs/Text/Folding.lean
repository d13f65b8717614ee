import PlanSql.Proofs.Layout.Tokens

/-!
# Indented lines on one line

Putting lines on one line takes from each line what stands between its outer blanks. A text that was
indented may have other line ends than before, since a carriage return at the end of a line then
meets a line feed, but what a line loses by that is blank.
-/

namespace PlanSql.Text

section Folding

variable {cs l pad w : List Char} {ls : List (List Char)} {c : Char}

/-! ## Line ends -/

/-- A character that ends no line belongs to the line of what comes after it. -/
theorem charLines_cons (hn : c ≠ '\n') (hr : c = '\r' → cs.head? ≠ some '\n') :
    charLines (c :: cs) = (c :: (charLines cs).headD []) :: (charLines cs).tail := by
  rw [charLines]
  · cases charLines cs with
    | nil => rfl
    | cons line more => rfl
  · exact hn
  · rintro rest hc rfl
    exact hr hc rfl

theorem feed_not_mem_charLines : ∀ l ∈ charLines cs, '\n' ∉ l := by
  fun_induction charLines cs with
  | case1 => exact List.forall_mem_nil _
  | case2 rest ih => exact List.forall_mem_cons.2 ⟨List.not_mem_nil, ih⟩
  | case3 rest ih => exact List.forall_mem_cons.2 ⟨List.not_mem_nil, ih⟩
  | case4 c rest hn _ _ _ => simpa using Ne.symm hn
  | case5 c rest hn _ line more hrest ih =>
    rw [hrest, List.forall_mem_cons] at ih
    exact List.forall_mem_cons.2 ⟨List.not_mem_cons_of_ne_of_not_mem (Ne.symm hn) ih.1, ih.2⟩

theorem charLines_of_one (h : '\n' ∉ l) (hl : l ≠ []) : charLines l = [l] := by
  induction l with
  | nil => exact absurd rfl hl
  | cons c rest ih =>
    obtain ⟨hc, hrest⟩ := not_or.1 (mt List.mem_cons.2 h)
    rw [charLines_cons (Ne.symm hc) fun _ hhead => hrest (List.mem_of_head? hhead)]
    by_cases hnil : rest = []
    · rw [hnil]
      rfl
    · rw [ih hrest hnil]
      rfl

/-- A line feed ends the line before it, with the carriage return at its end if there is one. -/
theorem charLines_feed (h : '\n' ∉ l) (rest : List Char) : ∃ line,
    charLines (l ++ '\n' :: rest) = line :: charLines rest ∧ (l = line ∨ l = line ++ ['\r']) := by
  induction l with
  | nil => exact ⟨[], by simp [charLines], .inl rfl⟩
  | cons c l ih =>
    obtain ⟨hc, hl⟩ := not_or.1 (mt List.mem_cons.2 h)
    by_cases hend : c = '\r' ∧ l = []
    · obtain ⟨rfl, rfl⟩ := hend
      exact ⟨[], by simp [charLines], .inr rfl⟩
    · obtain ⟨line, hline, hkept⟩ := ih hl
      refine ⟨c :: line, ?_, by simpa using hkept⟩
      rw [List.cons_append, charLines_cons (Ne.symm hc), hline]
      · rfl
      · intro hr hhead
        cases l with
        | nil => exact hend ⟨hr, rfl⟩
        | cons d more => exact hl (by simpa using Or.inl (Option.some.inj hhead).symm)

/-! ## Trimmed lines -/

theorem trimChars_blank_append (hw : ∀ c ∈ w, isBlank c = true) (l : List Char) :
    trimChars (w ++ l) = trimChars l := by
  rw [trimChars, List.dropWhile_append_of_pos hw, trimChars]

theorem trimChars_append_blank (hc : isBlank c = true) (l : List Char) :
    trimChars (l ++ [c]) = trimChars l := by
  rw [trimChars, trimChars, List.dropWhile_append]
  split
  · next hl => simp [List.isEmpty_iff.1 hl, hc]
  · simp [hc]

theorem trimmedLines_cons (l : List Char) (ls : List (List Char)) :
    trimmedLines (l :: ls) = trimmedLines [l] ++ trimmedLines ls := by
  rw [trimmedLines, ← List.singleton_append, List.map_append, List.filter_append, trimmedLines,
    trimmedLines]

theorem trimmedLines_congr {f : List Char → List Char}
    (h : ∀ l ∈ ls, trimChars (f l) = trimChars l) :
    trimmedLines (ls.map f) = trimmedLines ls := by
  rw [trimmedLines, trimmedLines, List.map_map]
  congr 1
  exact List.map_congr_left h

/-- Lines that are joined by line feeds are cut apart again, up to blanks. -/
theorem trimmedLines_charLines (h : ∀ l ∈ ls, '\n' ∉ l) :
    trimmedLines (charLines (['\n'].intercalate ls)) = trimmedLines ls := by
  induction ls with
  | nil => rfl
  | cons l rest ih =>
    obtain ⟨hl, hrest⟩ := List.forall_mem_cons.1 h
    cases rest with
    | nil =>
      rw [List.intercalate_singleton]
      by_cases hnil : l = []
      · rw [hnil]
        rfl
      · rw [charLines_of_one hl hnil]
    | cons l' more =>
      obtain ⟨line, hline, hkept⟩ := charLines_feed hl (['\n'].intercalate (l' :: more))
      have htrim : trimmedLines [line] = trimmedLines [l] := by
        rcases hkept with rfl | rfl
        · rfl
        · rw [trimmedLines, trimmedLines, List.map_singleton, List.map_singleton,
            trimChars_append_blank (by decide)]
      rw [List.intercalate_cons_cons, List.append_assoc, List.singleton_append, hline,
        trimmedLines_cons, htrim, ih hrest, ← trimmedLines_cons]

theorem collapseLines_indentLines {pad : String} (hpad : ∀ c ∈ pad.toList, c = ' ') (s : String) :
    collapseLines (indentLines pad s) = collapseLines s := by
  rw [← String.toList_inj, toList_collapseLines, toList_collapseLines, toList_indentLines,
    trimmedLines_charLines, trimmedLines_congr]
  · intro l _
    unfold padChars
    split
    · next hl => rw [hl]
    · refine trimChars_blank_append (fun c hc => ?_) l
      rw [hpad c hc]
      decide
  · refine List.forall_mem_map.2 fun l hl => ?_
    unfold padChars
    split
    · exact List.not_mem_nil
    · refine List.not_mem_append (fun hmem => ?_) (feed_not_mem_charLines l hl)
      exact absurd (hpad _ hmem) (by decide)

/-! ## One line -/

/-- A line with something on it and no blanks at its ends. -/
structure Tidy (l : List Char) : Prop where
  ne_nil : l ≠ []
  feed : '\n' ∉ l
  head : ∀ c ∈ l.head?, isBlank c = false
  last : ∀ c ∈ l.getLast?, isBlank c = false

theorem Tidy.join {a b : List Char} (ha : Tidy a) (hb : Tidy b) : Tidy (a ++ [' '] ++ b) := by
  refine ⟨by simp, by simp [ha.feed, hb.feed], ?_, ?_⟩
  · rw [List.append_assoc, List.head?_append_of_ne_nil _ ha.ne_nil]
    exact ha.head
  · rw [List.getLast?_append_of_ne_nil _ hb.ne_nil]
    exact hb.last

theorem Tidy.intercalate (h : ∀ l ∈ ls, Tidy l) (hls : ls ≠ []) : Tidy ([' '].intercalate ls) := by
  induction ls with
  | nil => exact absurd rfl hls
  | cons l rest ih =>
    obtain ⟨hl, hrest⟩ := List.forall_mem_cons.1 h
    cases rest with
    | nil => rwa [List.intercalate_singleton]
    | cons l' more =>
      rw [List.intercalate_cons_cons]
      exact hl.join (ih hrest (by simp))

theorem trimChars_prefix (l : List Char) : trimChars l <+: l.dropWhile isBlank := by
  have hsuffix := List.dropWhile_suffix isBlank (l := (l.dropWhile isBlank).reverse)
  simpa [trimChars] using List.reverse_prefix.2 hsuffix

theorem tidy_of_mem_trimmedLines (h : ∀ l ∈ ls, '\n' ∉ l) : ∀ l ∈ trimmedLines ls, Tidy l := by
  intro t ht
  obtain ⟨hmem, hne⟩ := List.mem_filter.1 ht
  obtain ⟨l, hl, rfl⟩ := List.mem_map.1 hmem
  have hnot : ∀ (cs : List Char), ∀ c ∈ (cs.dropWhile isBlank).head?, isBlank c = false := by
    intro cs c hc
    have hhead := List.head?_dropWhile_not isBlank cs
    rwa [Option.mem_def.1 hc] at hhead
  have hbegins := trimChars_prefix l
  refine ⟨by simpa using hne, fun hfeed => ?_, fun c hc => hnot l c ?_,
    fun c hc => hnot (l.dropWhile isBlank).reverse c ?_⟩
  · exact h l hl ((List.dropWhile_sublist _).mem (hbegins.mem hfeed))
  · obtain ⟨rest, hrest⟩ := hbegins
    rw [← hrest, List.head?_append, Option.mem_def.1 hc]
    rfl
  · rwa [trimChars, List.getLast?_reverse] at hc

theorem Tidy.trimChars_eq (h : Tidy l) : trimChars l = l := by
  have hkeep : ∀ {cs : List Char}, (∀ c ∈ cs.head?, isBlank c = false) →
      cs.dropWhile isBlank = cs := by
    intro cs hcs
    cases cs with
    | nil => rfl
    | cons c rest => rw [List.dropWhile_cons_of_neg (by simp [hcs c rfl])]
  rw [trimChars, hkeep h.head, hkeep (by simpa using h.last), List.reverse_reverse]

/-- What is on one line stays as it is. -/
theorem Tidy.collapse {s : String} (h : Tidy s.toList) : collapseLines s = s := by
  have hline : trimmedLines (charLines s.toList) = [s.toList] := by
    rw [charLines_of_one h.feed h.ne_nil, trimmedLines, List.map_singleton, h.trimChars_eq]
    simp [h.ne_nil]
  rw [← String.toList_inj, toList_collapseLines, hline, List.intercalate_singleton]

/-- A text on one line is empty, or its line is tidy. -/
theorem collapseLines_cases (s : String) :
    collapseLines s = "" ∨ Tidy (collapseLines s).toList := by
  rw [← String.toList_eq_nil_iff, toList_collapseLines]
  by_cases hnil : trimmedLines (charLines s.toList) = []
  · rw [hnil]
    exact .inl rfl
  · exact .inr (.intercalate (tidy_of_mem_trimmedLines feed_not_mem_charLines) hnil)

theorem collapseLines_filter (s : String) :
    (collapseLines s).toList.filter (!isBlank ·) = s.toList.filter (!isBlank ·) := by
  have hdrop : ∀ c cs, isBlank c = true → (c :: cs).filter (!isBlank ·) = cs.filter (!isBlank ·) :=
    fun c cs hc => List.filter_cons_of_neg (by simp [hc])
  rw [← hdrop '\n' s.toList (by decide)]
  rcases reflow_collapseLines_feed s with ⟨hreflow, hempty⟩ | hreflow
  · rw [hempty]
    exact hreflow.filter_eq
  · rw [← hdrop ' ' _ (by decide)]
    exact hreflow.filter_eq

/-- Folding a text forgets how its lines were indented. The result is one line without blanks at its
ends, which folding leaves as it is, and only blanks are lost. -/
theorem collapseLines_forgets_indent (s : String) (n : Nat) :
    collapseLines (indentLines (String.ofList (List.replicate n ' ')) s) = collapseLines s ∧
      collapseLines (collapseLines s) = collapseLines s ∧
      '\n' ∉ (collapseLines s).toList ∧ Trimmed (collapseLines s) ∧
      (collapseLines s).toList.filter (!isBlank ·) = s.toList.filter (!isBlank ·) := by
  refine ⟨collapseLines_indentLines ?_ s, ?_⟩
  · intro c hc
    rw [String.toList_ofList] at hc
    exact List.eq_of_mem_replicate hc
  · rw [← and_assoc, ← and_assoc]
    refine ⟨?_, collapseLines_filter s⟩
    rcases collapseLines_cases s with hempty | htidy
    · rw [hempty]
      exact ⟨⟨rfl, by decide⟩, by simp [Trimmed]⟩
    · exact ⟨⟨htidy.collapse, htidy.feed⟩, htidy.head, htidy.last⟩

end Folding

end PlanSql.Text

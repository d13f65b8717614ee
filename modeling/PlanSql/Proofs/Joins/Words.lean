import PlanSql.Proofs.Joins.Trees
import PlanSql.Proofs.Layout.Constants

/-!
# Words outside of parentheses

In a list of joins a word that begins a part (`INNER`, `LEFT`, `RIGHT`, `FULL` or `ON`) counts only
outside of parentheses. A text is calm if its parentheses match and no such word stands outside of
them. Texts with a blank between them are calm if both are, and whatever stands in parentheses is.
The tokens of calm texts can be told apart in a list of them where each but the first begins with
such a word: `CalmFrom.split` says so.
-/

namespace PlanSql.Text

/-! ## Parentheses -/

/-- Where a reader stands after the next character: its place in quotes and the number of open
parentheses. A parenthesis that was not opened cannot be closed. -/
def nestNext : Mode × Nat → Char → Option (Mode × Nat)
  | (.outside, d), c =>
    if c = '(' then some (.outside, d + 1)
    else if c = ')' then
      match d with
      | 0 => none
      | d + 1 => some (.outside, d)
    else some (Mode.outside.next c, d)
  | (m, d), c => some (m.next c, d)

/-- Where a reader stands after some characters. -/
def nest (place : Mode × Nat) (cs : List Char) : Option (Mode × Nat) := cs.foldlM nestNext place

/-- All quotes and parentheses of a text match. -/
def Balanced (s : String) : Prop := nest (.outside, 0) s.toList = some (.outside, 0)

/-- A character that is no parenthesis and opens no quote. -/
def isLoose (c : Char) : Bool := isBare c && c != '(' && c != ')'

section Parentheses

variable {a b s : String} {c : Char} {cs ds : List Char} {m m' : Mode} {d d' : Nat}
variable {place : Mode × Nat}

theorem nest_append :
    nest place (cs ++ ds) = (nest place cs).bind (nest · ds) :=
  List.foldlM_append

theorem nest_cons :
    nest place (c :: cs) = (nestNext place c).bind (nest · cs) :=
  List.foldlM_cons

theorem nestNext_of_loose (h : isLoose c = true) :
    nestNext (.outside, d) c = some (.outside, d) := by
  simp only [isLoose, isBare, Bool.and_eq_true, bne_iff_ne] at h
  simp [nestNext, Mode.next, h]

theorem nestNext_outside (h : nestNext (.outside, d) c = some place) :
    (c = '(' ∧ place = (.outside, d + 1)) ∨
      (c = ')' ∧ ∃ d₀, d = d₀ + 1 ∧ place = (.outside, d₀)) ∨
      (c ≠ '(' ∧ c ≠ ')' ∧ place = (Mode.outside.next c, d)) := by
  simp only [nestNext] at h
  split at h
  · next hopen => exact .inl ⟨hopen, (Option.some.inj h).symm⟩
  · next hopen =>
    split at h
    · next hclose =>
      cases d with
      | zero => cases h
      | succ d => exact .inr (.inl ⟨hclose, d, rfl, (Option.some.inj h).symm⟩)
    · next hclose => exact .inr (.inr ⟨hopen, hclose, (Option.some.inj h).symm⟩)

/-- The next character moves a reader the same way between more parentheses. -/
theorem nestNext_deeper (h : nestNext (m, d) c = some (m', d')) :
    nestNext (m, d + 1) c = some (m', d' + 1) := by
  cases m with
  | outside =>
    obtain ⟨rfl, hplace⟩ | ⟨rfl, d₀, rfl, hplace⟩ | ⟨hopen, hclose, hplace⟩ := nestNext_outside h
    · cases hplace; rfl
    · cases hplace; rfl
    · cases hplace; simp [nestNext, hopen, hclose]
  | name | string | escape => cases h; rfl

instance (s : String) : Decidable (Balanced s) := inferInstanceAs (Decidable (_ = _))

theorem Balanced.append (ha : Balanced a) (hb : Balanced b) : Balanced (a ++ b) := by
  rw [Balanced, String.toList_append, nest_append, ha]
  exact hb

theorem nest_of_loose (h : cs.all isLoose = true) (d : Nat) :
    nest (.outside, d) cs = some (.outside, d) := by
  induction cs with
  | nil => rfl
  | cons c rest ih =>
    rw [List.all_cons, Bool.and_eq_true] at h
    rw [nest_cons, nestNext_of_loose h.1]
    exact ih h.2

/-- What holds of texts, and of two with the separator between them, holds of all of them joined. -/
theorem holds_intercalate {P : String → Prop} {k : String} (hnil : P "")
    (hjoin : ∀ {s t}, P s → P t → P (s ++ k ++ t)) {ss : List String} (h : ∀ s ∈ ss, P s) :
    P (k.intercalate ss) := by
  induction ss with
  | nil => exact hnil
  | cons s rest ih =>
    obtain ⟨hs, hrest⟩ := List.forall_mem_cons.1 h
    cases rest with
    | nil => simpa using hs
    | cons t more =>
      rw [String.intercalate_cons_cons]
      exact hjoin hs (ih hrest)

theorem Balanced.intercalate {k : String} (hk : Balanced k) {ss : List String}
    (h : ∀ s ∈ ss, Balanced s) : Balanced (k.intercalate ss) :=
  holds_intercalate (P := Balanced) rfl (fun hs ht => (hs.append hk).append ht) h

end Parentheses

/-! ## Blanks and parentheses -/

section Blanks

variable {a b : String} {c : Char} {m m' : Mode} {d d' : Nat}

theorem nestNext_fst (h : nestNext (m, d) c = some (m', d')) : m' = m.next c := by
  cases m with
  | outside =>
    obtain ⟨rfl, hplace⟩ | ⟨rfl, d₀, -, hplace⟩ | ⟨-, -, hplace⟩ := nestNext_outside h <;>
      cases hplace <;> rfl
  | name | string | escape => cases h; rfl

theorem nestNext_of_isBlank (h : isBlank c = true) :
    nestNext (.outside, d) c = some (.outside, d) := by
  obtain ⟨htick, hquote, -⟩ := not_quote_of_isBlank h
  have hopen : c ≠ '(' := by rintro rfl; cases h
  have hclose : c ≠ ')' := by rintro rfl; cases h
  simp [nestNext, Mode.next, htick, hquote, hopen, hclose]

/-- Blanks outside of quotes do not matter for parentheses. -/
theorem nest_eq_ink (m : Mode) (d : Nat) (cs : List Char) :
    nest (m, d) cs = nest (m, d) ((marks m cs).filterMap id) := by
  induction cs generalizing m d with
  | nil => rfl
  | cons c rest ih =>
    rw [marks]
    split
    · next hgap =>
      obtain ⟨rfl, hblank⟩ := hgap
      rw [List.filterMap_cons_none rfl, (next_of_isBlank hblank).2 rfl, ← ih, nest_cons,
        nestNext_of_isBlank hblank, Option.bind_some]
    · rw [List.filterMap_cons_some (f := id) rfl, nest_cons, nest_cons]
      cases hnext : nestNext (m, d) c with
      | none => rfl
      | some place =>
        obtain ⟨m', d'⟩ := place
        obtain rfl := nestNext_fst hnext
        exact ih _ d'

/-- The words of a text are all of it but the gaps. -/
theorem flatMap_words (ms : List (Option Char)) :
    (words ms).flatMap (·.filterMap id) = ms.filterMap id := by
  have hsplit : (ms.splitOnP Option.isNone).flatMap (·.filterMap id) = ms.filterMap id := by
    induction ms with
    | nil => rfl
    | cons m rest ih =>
      rw [List.splitOnP_cons_eq_if_modifyHead]
      cases m with
      | none => simpa using ih
      | some c =>
        obtain ⟨word, more, hwords⟩ := List.exists_cons_of_ne_nil (List.splitOnP_ne_nil _ rest)
        rw [hwords] at ih ⊢
        simpa using ih
  rw [← hsplit, words]
  generalize ms.splitOnP Option.isNone = ws
  induction ws with
  | nil => rfl
  | cons w rest ih =>
    rw [List.flatMap_cons, ← ih]
    cases w with
    | nil | cons m more => rfl

/-- Whether parentheses match can be told from the tokens. -/
theorem nest_eq_tokens (d : Nat) (s : String) :
    nest (.outside, d) s.toList = nest (.outside, d) ((tokens s).flatMap String.toList) := by
  rw [nest_eq_ink, ← flatMap_words, tokens, List.flatMap_map]
  simp only [String.toList_ofList]

theorem Balanced.of_tokens (hb : Balanced b) (h : tokens a = tokens b) : Balanced a := by
  rw [Balanced, nest_eq_tokens, h, ← nest_eq_tokens]
  exact hb

end Blanks

/-! ## Calm texts -/

/-- The words that begin a join or a condition. -/
def partWords : List String := ["ON", "INNER", "LEFT", "RIGHT", "FULL"]

/-- Reading goes on calmly to the end: quotes and parentheses match, and no word outside of them
begins a part. The word that is being read comes with what was read of it. -/
def Calms : Mode × Nat → List Char → List Char → Prop
  | place, word, [] => place = (.outside, 0) ∧ String.ofList word ∉ partWords
  | place, word, c :: rest =>
    if place.1 = .outside ∧ isBlank c then
      (place.2 = 0 → String.ofList word ∉ partWords) ∧ Calms place [] rest
    else ∃ place', nestNext place c = some place' ∧ Calms place' (word ++ [c]) rest

/-- Quotes and parentheses of a text match, and no word outside of them begins a part. -/
structure Calm (s : String) : Prop where
  calms : Calms (.outside, 0) [] s.toList

/-- Whether reading goes on calmly. -/
def decideCalms : (place : Mode × Nat) → (word cs : List Char) → Decidable (Calms place word cs)
  | _, _, [] => inferInstanceAs (Decidable (_ ∧ _))
  | place, word, c :: rest =>
    if h : place.1 = .outside ∧ isBlank c then
      have := decideCalms place [] rest
      decidable_of_iff ((place.2 = 0 → String.ofList word ∉ partWords) ∧ Calms place [] rest)
        (by rw [Calms, if_pos h])
    else
      match hnext : nestNext place c with
      | none => .isFalse (by simp [Calms, if_neg h, hnext])
      | some place' =>
        have := decideCalms place' (word ++ [c]) rest
        decidable_of_iff (Calms place' (word ++ [c]) rest) (by simp [Calms, if_neg h, hnext])

instance (s : String) : Decidable (Calm s) :=
  have := decideCalms (.outside, 0) [] s.toList
  decidable_of_iff (Calms (.outside, 0) [] s.toList) ⟨.mk, Calm.calms⟩

def isWordy (c : Char) : Bool := isLoose c && !isBlank c

/-- A text without blanks, quotes and parentheses. -/
def Wordy (s : String) : Prop := ∀ c ∈ s.toList, isWordy c = true

instance (s : String) : Decidable (Wordy s) := List.decidableBAll _ s.toList

theorem Wordy.append {a b : String} (ha : Wordy a) (hb : Wordy b) : Wordy (a ++ b) := by
  intro c hc
  rw [String.toList_append] at hc
  exact (List.mem_append.1 hc).elim (ha c) (hb c)

theorem Wordy.bare {s : String} (h : Wordy s) : Bare s := by
  intro c hc
  have hwordy := h c hc
  rw [isWordy, isLoose, Bool.and_eq_true, Bool.and_eq_true, Bool.and_eq_true] at hwordy
  exact hwordy.1.1.1

section Calm

variable {a b s : String} {c : Char} {cs ds word : List Char} {m : Mode} {d : Nat}
variable {place : Mode × Nat} {k p : String}

theorem Calms.nest (h : Calms place word cs) : nest place cs = some (.outside, 0) := by
  induction cs generalizing place word with
  | nil => rw [h.1]; rfl
  | cons c rest ih =>
    unfold Calms at h
    split at h
    · next hgap =>
      obtain ⟨m, d⟩ := place
      obtain ⟨rfl, hblank⟩ := hgap
      rw [nest_cons, nestNext_of_isBlank hblank]
      exact ih h.2
    · obtain ⟨place', hnext, hrest⟩ := h
      rw [nest_cons, hnext]
      exact ih hrest

theorem Calm.balanced (h : Calm s) : Balanced s := h.calms.nest

theorem Calms.gap (ha : Calms place word cs) (hc : isBlank c = true)
    (hb : Calms (.outside, 0) [] ds) : Calms place word (cs ++ c :: ds) := by
  induction cs generalizing place word with
  | nil =>
    obtain ⟨rfl, hword⟩ := ha
    rw [List.nil_append, Calms, if_pos ⟨rfl, hc⟩]
    exact ⟨fun _ => hword, hb⟩
  | cons x rest ih =>
    rw [List.cons_append]
    unfold Calms at ha ⊢
    split
    · next hgap =>
      rw [if_pos hgap] at ha
      exact ⟨ha.1, ih ha.2⟩
    · next hgap =>
      rw [if_neg hgap] at ha
      obtain ⟨place', hnext, hrest⟩ := ha
      exact ⟨place', hnext, ih hrest⟩

theorem Calm.gap (ha : Calm a) (hb : Calm b) : Calm (a ++ " " ++ b) := by
  constructor
  rw [String.toList_append, String.toList_append, List.append_assoc]
  exact ha.calms.gap rfl hb.calms

theorem Calm.intercalate {ss : List String} (h : ∀ s ∈ ss, Calm s) : Calm (" ".intercalate ss) :=
  holds_intercalate ⟨rfl, by decide⟩ (fun hs ht => hs.gap ht) h

/-- A keyword after a text. -/
theorem Calm.then (ha : Calm a) (hk : Calm k) (hp : p = " " ++ k) :
    Calm (a ++ p) := by
  rw [hp, ← String.append_assoc]
  exact ha.gap hk

/-- No word that begins a part has a character other than a capital letter. -/
theorem not_mem_partWords (hc : c ∈ word) (h : c.isUpper = false) :
    String.ofList word ∉ partWords := by
  have hall : ∀ w ∈ partWords, w.toList.all Char.isUpper = true := by decide
  intro hmem
  have hupper := List.all_eq_true.1 (hall _ hmem) c (by rwa [String.toList_ofList])
  rw [h] at hupper
  cases hupper

theorem not_mem_of_last (h : c.isUpper = false) : String.ofList (word ++ [c]) ∉ partWords :=
  not_mem_partWords (List.mem_append_right _ (.head _)) h

/-- A sign before a word changes it to one that begins no part. -/
theorem Calms.signed (h : Calms place word cs) : Calms place ('-' :: word) cs := by
  have hsign : String.ofList ('-' :: word) ∉ partWords := not_mem_partWords (.head _) rfl
  induction cs generalizing place word with
  | nil => exact ⟨h.1, hsign⟩
  | cons c rest ih =>
    unfold Calms at h ⊢
    split
    · next hgap =>
      rw [if_pos hgap] at h
      exact ⟨fun _ => hsign, h.2⟩
    · next hgap =>
      rw [if_neg hgap] at h
      obtain ⟨place', hnext, hrest⟩ := h
      exact ⟨place', hnext, ih hrest (not_mem_partWords (.head _) rfl)⟩

theorem Calm.sign (h : Calm s) : Calm ("-" ++ s) := by
  constructor
  rw [String.toList_append]
  exact ⟨(.outside, 0), rfl, h.calms.signed⟩

/-- What stands in parentheses does not matter, and neither does the word before them. -/
theorem Calms.inside (h : Text.nest (m, d) cs = some (.outside, 0)) (word : List Char) :
    Calms (m, d + 1) word (cs ++ [')']) := by
  induction cs generalizing m d word with
  | nil =>
    cases h
    exact ⟨(.outside, 0), rfl, rfl, not_mem_of_last rfl⟩
  | cons c rest ih =>
    rw [nest_cons] at h
    obtain ⟨⟨m', d'⟩, hnext, hrest⟩ := Option.bind_eq_some_iff.1 h
    rw [List.cons_append, Calms]
    split
    · next hgap =>
      obtain ⟨hm, hblank⟩ := hgap
      obtain rfl : m = .outside := hm
      rw [nestNext_of_isBlank hblank] at hnext
      cases hnext
      exact ⟨fun hd => absurd hd (Nat.succ_ne_zero d), ih hrest []⟩
    · exact ⟨_, nestNext_deeper hnext, ih hrest _⟩

theorem Calms.letters (hcs : ∀ c ∈ cs, isWordy c = true) (h : Calms (.outside, d) (word ++ cs) ds) :
    Calms (.outside, d) word (cs ++ ds) := by
  induction cs generalizing word with
  | nil => simpa using h
  | cons c rest ih =>
    obtain ⟨hc, hrest⟩ := List.forall_mem_cons.1 hcs
    rw [isWordy, Bool.and_eq_true, Bool.not_eq_true'] at hc
    rw [List.cons_append, Calms, if_neg (by simp [hc.2])]
    refine ⟨_, nestNext_of_loose hc.1, ih hrest ?_⟩
    rwa [List.append_assoc, List.singleton_append]

theorem Balanced.calm_call (hk : Wordy k) (h : Balanced s) : Calm (k ++ "(" ++ s ++ ")") := by
  constructor
  rw [String.toList_append, String.toList_append, String.toList_append, List.append_assoc,
    List.append_assoc]
  exact Calms.letters hk ⟨(.outside, 1), rfl, Calms.inside h _⟩

theorem Balanced.calm_parens (h : Balanced s) : Calm ("(" ++ s ++ ")") := by
  simpa using h.calm_call (k := "") (by decide)

theorem calm_word (hs : Wordy s) (hword : s ∉ partWords) : Calm s := by
  constructor
  rw [← List.append_nil s.toList]
  exact Calms.letters hs ⟨rfl, by simpa using hword⟩

theorem calms_name (word cs : List Char) :
    Calms (.name, 0) word (cs.flatMap quoteNameChar ++ ['\x60']) := by
  induction cs generalizing word with
  | nil => exact ⟨(.outside, 0), rfl, rfl, not_mem_of_last rfl⟩
  | cons c rest ih =>
    rw [List.flatMap_cons, List.append_assoc, quoteNameChar]
    split
    · exact ⟨(.outside, 0), rfl, (.name, 0), rfl, ih _⟩
    · next hc =>
      rw [List.singleton_append, Calms, if_neg (by simp)]
      exact ⟨(.name, 0), by simp [nestNext, Mode.next, hc], ih _⟩

theorem calms_string (word cs : List Char) :
    Calms (.string, 0) word (cs.flatMap quoteStringChar ++ ['\x27']) := by
  induction cs generalizing word with
  | nil => exact ⟨(.outside, 0), rfl, rfl, not_mem_of_last rfl⟩
  | cons c rest ih =>
    rw [List.flatMap_cons, List.append_assoc]
    rcases quoteStringChar_cases c with ⟨d, hd, _⟩ | ⟨hc, hescape, hquote, _⟩
    · rw [hd]
      refine ⟨(.escape, 0), rfl, ?_⟩
      rw [List.append_eq, List.cons_append, Calms, if_neg (by simp)]
      exact ⟨(.string, 0), rfl, ih _⟩
    · rw [hc, List.singleton_append, Calms, if_neg (by simp)]
      exact ⟨(.string, 0), by simp [nestNext, Mode.next, hescape, hquote], ih _⟩

theorem calm_quoteName (hp : Wordy p) (name : String) : Calm (p ++ quoteName name) := by
  constructor
  rw [String.toList_append, toList_quoteName]
  exact Calms.letters hp ⟨(.name, 0), rfl, calms_name _ name.toList⟩

theorem calm_quoteString (s : String) : Calm (quoteString s) := by
  constructor
  rw [toList_quoteString]
  exact ⟨(.string, 0), rfl, calms_string _ s.toList⟩

end Calm

/-! ## Calm tokens -/

/-- Parentheses match in a list of tokens, of which some are open at the beginning, and no token
outside of them begins a part. -/
inductive CalmFrom : Nat → List String → Prop
  | nil : CalmFrom 0 []
  | cons {d d' : Nat} {w : String} {rest : List String} : (d = 0 → w ∉ partWords) →
    nest (.outside, d) w.toList = some (.outside, d') → CalmFrom d' rest → CalmFrom d (w :: rest)

section Tokens

variable {d : Nat}

theorem words_map_some (word : List Char) (hword : word ≠ []) :
    words (word.map some) = [word.map some] := by
  rw [words, List.splitOnP_eq_singleton (by simp)]
  simp [hword]

theorem Calms.tokens {m : Mode} {d₀ : Nat} {word cs : List Char} (h : Calms (m, d) word cs)
    (hword : Text.nest (.outside, d₀) word = some (m, d)) :
    CalmFrom d₀ ((words (word.map some ++ marks m cs)).map fun w =>
      String.ofList (w.filterMap id)) := by
  have hloose : ∀ w ∈ partWords, w.toList.all isLoose = true := by decide
  have hink : ((word.map some).filterMap id) = word := by simp
  induction cs generalizing m d d₀ word with
  | nil =>
    obtain ⟨hplace, hfirm⟩ := h
    cases hplace
    rw [marks, List.append_nil]
    by_cases hnil : word = []
    · subst hnil
      cases hword
      exact .nil
    · rw [words_map_some word hnil, List.map_singleton, hink]
      exact .cons (fun _ => hfirm) (by rwa [String.toList_ofList]) .nil
  | cons c rest ih =>
    unfold Calms at h
    rw [marks]
    split at h
    · next hgap =>
      obtain ⟨rfl, hblank⟩ := hgap
      rw [if_pos ⟨rfl, hblank⟩, words_gap, List.map_append, (next_of_isBlank hblank).2 rfl]
      have hrest := ih h.2 rfl rfl
      by_cases hnil : word = []
      · subst hnil
        cases hword
        exact hrest
      · rw [words_map_some word hnil, List.map_singleton, hink]
        refine .cons (fun hd hmem => ?_) (by rwa [String.toList_ofList]) hrest
        -- a word that begins a part leaves the depth as it was
        have hdepth := nest_of_loose (hloose _ hmem) d₀
        rw [String.toList_ofList, hword] at hdepth
        cases hdepth
        exact h.1 hd hmem
    · next hgap =>
      obtain ⟨⟨m', d'⟩, hnext, hrest⟩ := h
      obtain rfl := nestNext_fst hnext
      rw [if_neg hgap, ← List.singleton_append, ← List.append_assoc, ← List.map_singleton,
        ← List.map_append]
      refine ih hrest ?_ (by simp)
      rw [nest_append, hword, Option.bind_some, nest_cons, hnext]
      rfl

theorem Calm.tokens {s : String} (h : Calm s) : CalmFrom 0 (tokens s) := h.calms.tokens rfl

/-- What comes after calm tokens is nothing, or begins with a word that begins a part. -/
def Starts (ws : List String) : Prop := ∀ w ∈ ws.head?, w ∈ partWords

/-- Calm tokens end where a part begins. -/
theorem CalmFrom.split {a a' x x' : List String} (ha : CalmFrom d a) (ha' : CalmFrom d a')
    (hx : Starts x) (hx' : Starts x') (h : a ++ x = a' ++ x') : a = a' ∧ x = x' := by
  induction ha generalizing a' with
  | nil =>
    cases ha' with
    | nil => exact ⟨rfl, h⟩
    | @cons _ _ w rest hw _ _ =>
      rw [List.nil_append, List.cons_append] at h
      exact absurd (hx w (by rw [h]; rfl)) (hw rfl)
  | @cons d d₁ w rest hw hd₁ _ ih =>
    cases ha' with
    | nil =>
      rw [List.nil_append, List.cons_append] at h
      exact absurd (hx' w (by rw [← h]; rfl)) (hw rfl)
    | cons _ hd₂ hrest' =>
      rw [List.cons_append, List.cons_append] at h
      obtain ⟨rfl, htail⟩ := List.cons.inj h
      rw [hd₁] at hd₂
      cases hd₂
      obtain ⟨rfl, hends⟩ := ih hrest' htail
      exact ⟨rfl, hends⟩

end Tokens

end PlanSql.Text

/-! ## Words of a tree -/

namespace PlanSql

open Text

/-- The words of a kind of join. -/
def JoinKind.words : JoinKind → List String
  | inner => ["INNER", "JOIN"]
  | left => ["LEFT", "OUTER", "JOIN"]
  | right => ["RIGHT", "OUTER", "JOIN"]
  | outer => ["FULL", "OUTER", "JOIN"]

namespace JoinTree

/-- The words of an item. -/
def Item.words : Item (List String) (List String) → List String
  | .join how a => how.words ++ a
  | .on p => "ON" :: p

/-- The words of a tree whose leaves and conditions are words. -/
def words (t : JoinTree (List String) (List String)) : List String :=
  t.first ++ t.items.flatMap Item.words

def Calm : JoinTree (List String) (List String) → Prop
  | leaf a => CalmFrom 0 a
  | join left _ right on => left.Calm ∧ right.Calm ∧ ∀ p ∈ on, CalmFrom 0 p

def Item.rest : Item (List String) (List String) → List String
  | .join _ a => a
  | .on p => p

variable {t t' l r : JoinTree (List String) (List String)}

theorem words_join (how : JoinKind) (on : Option (List String)) :
    (join l how r on).words = l.words ++ how.words ++ r.words ++ on.elim [] ("ON" :: ·) := by
  cases on <;> simp [words, first, items, Item.words]

theorem Calm.parts (h : t.Calm) : CalmFrom 0 t.first ∧ ∀ x ∈ t.items, CalmFrom 0 x.rest := by
  induction t with
  | leaf a => exact ⟨h, nofun⟩
  | join l how r on ihl ihr =>
    obtain ⟨hl, hr, hon⟩ := h
    refine ⟨(ihl hl).1, fun x hx => ?_⟩
    simp only [items, List.mem_append, List.mem_cons, List.mem_map, Option.mem_toList] at hx
    rcases hx with hx | rfl | hx | ⟨p, hp, rfl⟩
    · exact (ihl hl).2 x hx
    · exact (ihr hr).1
    · exact (ihr hr).2 x hx
    · exact hon p hp

theorem starts_items (xs : List (Item (List String) (List String))) :
    Starts (xs.flatMap Item.words) := by
  cases xs with
  | nil => exact nofun
  | cons x rest =>
    intro w hw
    cases x with
    | join how a => cases how <;> obtain rfl := Option.some.inj hw <;> decide
    | on p => obtain rfl := Option.some.inj hw; decide

theorem Item.eq_of_words {x x' : Item (List String) (List String)} {ws ws' : List String}
    (hx : CalmFrom 0 x.rest) (hx' : CalmFrom 0 x'.rest) (hs : Starts ws) (hs' : Starts ws')
    (h : x.words ++ ws = x'.words ++ ws') : x = x' ∧ ws = ws' := by
  cases x with
  | join how a =>
    cases x' with
    | join how' a' =>
      have hkind : how = how' ∧ a ++ ws = a' ++ ws' := by
        cases how <;> cases how' <;> simp_all [Item.words, JoinKind.words]
      obtain ⟨rfl, hleaf⟩ := hkind
      obtain ⟨rfl, hends⟩ := CalmFrom.split hx hx' hs hs' hleaf
      exact ⟨rfl, hends⟩
    | on p => cases how <;> exact absurd (List.head_eq_of_cons_eq h) (by decide)
  | on p =>
    cases x' with
    | join how a => cases how <;> exact absurd (List.head_eq_of_cons_eq h) (by decide)
    | on p' =>
      obtain ⟨rfl, hends⟩ := CalmFrom.split hx hx' hs hs' (List.cons.inj h).2
      exact ⟨rfl, hends⟩

theorem items_eq_of_words {xs xs' : List (Item (List String) (List String))}
    (hx : ∀ x ∈ xs, CalmFrom 0 x.rest) (hx' : ∀ x ∈ xs', CalmFrom 0 x.rest)
    (h : xs.flatMap Item.words = xs'.flatMap Item.words) : xs = xs' := by
  have hne : ∀ x : Item (List String) (List String), x.words ≠ [] := by
    rintro (⟨how, a⟩ | p)
    · cases how <;> exact List.cons_ne_nil _ _
    · exact List.cons_ne_nil _ _
  induction xs generalizing xs' with
  | nil =>
    cases xs' with
    | nil => rfl
    | cons x' rest' => exact absurd (List.append_eq_nil_iff.1 h.symm).1 (hne x')
  | cons x rest ih =>
    cases xs' with
    | nil => exact absurd (List.append_eq_nil_iff.1 h).1 (hne x)
    | cons x' rest' =>
      rw [List.forall_mem_cons] at hx hx'
      obtain ⟨rfl, hends⟩ := Item.eq_of_words hx.1 hx'.1 (starts_items _) (starts_items _) h
      rw [ih hx.2 hx'.2 hends]

theorem Calm.eq_of_words (ht : t.Calm) (ht' : t'.Calm) (h : t.words = t'.words) :
    t.first = t'.first ∧ t.items = t'.items := by
  obtain ⟨hfirst, hrest⟩ := ht.parts
  obtain ⟨hfirst', hrest'⟩ := ht'.parts
  obtain ⟨heq, hitems⟩ := hfirst.split hfirst' (starts_items _) (starts_items _) h
  exact ⟨heq, items_eq_of_words hrest hrest' hitems⟩

end JoinTree

end PlanSql

import Mathlib.Data.List.Forall2
import PlanSql.Proofs.Layout.Lines
import PlanSql.Proofs.Text.Quotes

/-!
# Names, string constants and comments of a text

A reader of a statement takes what stands between backticks as a name, in which a doubled backtick
is one backtick, and what stands between apostrophes as a string constant with backslash escapes.
Two dashes outside of both begin a comment that ends with its line. `lexemes` lists them. Nothing
else of a text matters here.

What is put together from texts has their lexemes, unless a dash meets a dash or a backtick meets a
backtick where they meet. Where the lines of a text are laid out anew, its string constants stay as
they are, and so do names without line feeds.
-/

namespace PlanSql.Text

/-- A token that is not read character by character. -/
inductive Lexeme where
  | name (value : String)
  | string (value : String)
  | comment
  deriving DecidableEq

/-- What a reader has read of the token it is in. -/
inductive Lexer where
  | outside
  | dash
  | name (read : String)
  | tick (read : String)
  | string (read : String)
  | escape (read : String)
  | comment

namespace Lexer

def begin (c : Char) : Lexer :=
  if c = '\x60' then .name "" else if c = '\x27' then .string "" else
    if c = '-' then .dash else .outside

def next : Lexer → Char → Lexer × List Lexeme
  | .outside, c => (begin c, [])
  | .dash, c => if c = '-' then (.comment, [.comment]) else (begin c, [])
  | .name read, c => if c = '\x60' then (.tick read, []) else (.name (read.push c), [])
  | .tick read, c => if c = '\x60' then (.name (read.push c), []) else (begin c, [.name read])
  | .string read, c =>
    if c = '\\' then (.escape read, [])
    else if c = '\x27' then (.outside, [.string read]) else (.string (read.push c), [])
  | .escape read, c => (.string (read.push (unescape c)), [])
  | .comment, c => if c = '\n' then (.outside, []) else (.comment, [])

/-- The token that is complete at the end of a text. A quote must not be open. -/
def finish : Lexer → Option (List Lexeme)
  | .outside | .dash | .comment => some []
  | .tick read => some [.name read]
  | .name _ | .string _ | .escape _ => none

/-- The tokens of what is left of a text. -/
def run : Lexer → List Char → Option (List Lexeme)
  | l, [] => l.finish
  | l, c :: rest => ((l.next c).1.run rest).map ((l.next c).2 ++ ·)

end Lexer

/-- The names, string constants and comments of a text. There are none if a quote is left open. -/
def lexemes (s : String) : Option (List Lexeme) := Lexer.outside.run s.toList

/-- What the names and string constants of a text may be. -/
structure Lexicon where
  name : String → Prop
  string : String → Prop

/-- Comments are never allowed. -/
def Lexicon.Allows (L : Lexicon) : Lexeme → Prop
  | .name s => L.name s
  | .string s => L.string s
  | .comment => False

/-! ## Strict readers -/

namespace Lexer

/-- The next character for a strict reader: it refuses line feeds in string constants, and comments
unless it takes `dashes` for any other character. -/
def step (dashes : Bool) : Lexer → Char → Option (Lexer × List Lexeme)
  | .string read, c => if c = '\n' then none else some ((Lexer.string read).next c)
  | .escape read, c => if c = '\n' then none else some ((Lexer.escape read).next c)
  | .dash, c =>
    if c = '-' then (if dashes then some (.dash, []) else none) else some (Lexer.dash.next c)
  | .comment, _ => none
  | l, c => some (l.next c)

/-- The tokens that are complete at the end of a text, for a strict reader. -/
def settle : Lexer → Option (List Lexeme)
  | .comment => none
  | l => l.finish

/-- The tokens of what is left of a text, for a strict reader. -/
def scan (dashes : Bool) : Lexer → List Char → Option (List Lexeme)
  | l, [] => l.settle
  | l, c :: rest => (l.step dashes c).bind fun r => (r.1.scan dashes rest).map (r.2 ++ ·)

end Lexer

/-- The names and string constants of a text, whatever dashes stand outside of them. -/
def quotes (s : String) : Option (List Lexeme) := Lexer.outside.scan true s.toList

open Lexer

section Scan

variable {dashes : Bool} {l : Lexer} {a b w cs : List Char} {c : Char} {ts us : List Lexeme}
  {read : String}

theorem scan_cons_eq_some : l.scan dashes (c :: cs) = some ts ↔ ∃ r us, l.step dashes c = some r ∧
    r.1.scan dashes cs = some us ∧ ts = r.2 ++ us := by
  simp only [scan, Option.bind_eq_some_iff, Option.map_eq_some_iff, eq_comm (a := ts)]
  grind

/-- What a strict reader reads is there for any other one. -/
theorem run_of_scan (h : l.scan false cs = some ts) : l.run cs = some ts := by
  induction cs generalizing l ts with
  | nil =>
    cases l with
    | comment => cases h
    | _ => exact h
  | cons c rest ih =>
    obtain ⟨r, us, hstep, hrest, rfl⟩ := scan_cons_eq_some.1 h
    have hnext : l.next c = r := by
      cases l with
      | comment => cases hstep
      | outside | name read | tick read => exact Option.some.inj hstep
      | dash | string read | escape read =>
        rw [step] at hstep
        split at hstep
        · cases hstep
        · exact Option.some.inj hstep
    rw [run, hnext, ih hrest]
    rfl

/-- A character with which no token goes on that could have been complete. -/
def isSafe (dashes : Bool) (c : Char) : Bool := c != '\x60' && (dashes || c != '-')

/-- After what could be its end, a text goes on as another one. -/
theorem step_of_settle (h : l.settle = some ts) (hc : isSafe dashes c = true) :
    l.step dashes c = (Lexer.outside.step dashes c).map fun r => (r.1, ts ++ r.2) := by
  rw [isSafe, Bool.and_eq_true, Bool.or_eq_true, bne_iff_ne, bne_iff_ne] at hc
  cases l with
  | outside =>
    cases h
    rfl
  | dash =>
    cases h
    by_cases hdash : c = '-'
    · have hdashes := hc.2.resolve_right fun hne => hne hdash
      rw [hdashes, hdash]
      rfl
    · rw [step, if_neg hdash, next, if_neg hdash]
      rfl
  | tick read =>
    cases h
    rw [step, next, if_neg hc.1]
    · rfl
    all_goals simp
  | name read | string read | escape read | comment => cases h

/-- Texts may stand next to each other if the second one has a safe beginning. -/
theorem scan_append (h : l.scan dashes a = some ts) (hb : ∀ c ∈ b.head?, isSafe dashes c = true) :
    l.scan dashes (a ++ b) = (Lexer.outside.scan dashes b).map (ts ++ ·) := by
  induction a generalizing l ts with
  | nil =>
    have h : l.settle = some ts := h
    cases b with
    | nil => simpa [scan, settle, finish] using h
    | cons c rest =>
      rw [List.nil_append, scan, step_of_settle h (hb c rfl), scan]
      cases Lexer.outside.step dashes c with
      | none => rfl
      | some r => simp [Function.comp_def]
  | cons c rest ih =>
    obtain ⟨r, us, hstep, hrest, rfl⟩ := scan_cons_eq_some.1 h
    rw [List.cons_append, scan, hstep, Option.bind_some, ih hrest]
    simp [Function.comp_def]

/-- A character that is part of no quote and of no comment. -/
def isProse (dashes : Bool) (c : Char) : Bool := isSafe dashes c && c != '\x27'

theorem scan_dash (cs : List Char) : Lexer.dash.scan true cs = Lexer.outside.scan true cs := by
  cases cs with
  | nil => rfl
  | cons c rest =>
    have hstep : Lexer.dash.step true c = Lexer.outside.step true c := by
      rw [step]
      split
      · next hc =>
        rw [hc]
        rfl
      · next hc =>
        rw [next, if_neg hc]
        rfl
    rw [scan, hstep, scan]

theorem scan_prose (h : ∀ c ∈ a, isProse dashes c = true) (b : List Char) :
    Lexer.outside.scan dashes (a ++ b) = Lexer.outside.scan dashes b := by
  induction a with
  | nil => rfl
  | cons c rest ih =>
    have hc := h c (.head _)
    simp only [isProse, isSafe, Bool.and_eq_true, Bool.or_eq_true, bne_iff_ne] at hc
    rw [List.cons_append, scan, step, next, begin, if_neg hc.1.1, if_neg hc.2]
    · have hrest := ih fun d hd => h d (.tail _ hd)
      split
      · next hdash =>
        obtain rfl := hc.1.2.resolve_right fun hne => hne hdash
        simpa [scan_dash] using hrest
      · simpa using hrest
    all_goals simp

theorem isProse_of_isBlank (h : isBlank c = true) : isProse dashes c = true := by
  have hne : ∀ d : Char, isBlank d = false → c ≠ d := by
    rintro d hd rfl
    rw [h] at hd
    cases hd
  rw [isProse, isSafe, bne_iff_ne.2 (hne _ (by decide)), bne_iff_ne.2 (hne _ (by decide)),
    bne_iff_ne.2 (hne _ (by decide)), Bool.or_true]
  rfl

/-- Blanks after what could be the end of a text. -/
theorem scan_blank (h : l.settle = some ts) (hw : ∀ c ∈ w, isBlank c = true) (hne : w ≠ [])
    (b : List Char) : l.scan dashes (w ++ b) = (Lexer.outside.scan dashes b).map (ts ++ ·) := by
  have hprose : ∀ c ∈ w, isProse dashes c = true := fun c hc => isProse_of_isBlank (hw c hc)
  rw [← scan_prose hprose b]
  refine scan_append (a := []) h ?_
  obtain ⟨d, rest, rfl⟩ := List.exists_cons_of_ne_nil hne
  rintro _ ⟨⟩
  exact (Bool.and_eq_true_iff.1 (hprose d (.head _))).1

theorem push_append_ofList (read : String) (c : Char) (rest : List Char) :
    read.push c ++ String.ofList rest = read ++ String.ofList (c :: rest) := by
  rw [← String.toList_inj]
  simp

theorem scan_name_blank (hw : ∀ c ∈ w, isBlank c = true) (read : String) (b : List Char) :
    (Lexer.name read).scan dashes (w ++ b) =
      (Lexer.name (read ++ String.ofList w)).scan dashes b := by
  induction w generalizing read with
  | nil => simp
  | cons c rest ih =>
    have hc : c ≠ '\x60' := by
      rintro rfl
      exact absurd (hw _ (.head _)) (by decide)
    rw [List.cons_append, scan, step, next, if_neg hc, ← push_append_ofList,
      ← ih (fun d hd => hw d (.tail _ hd))]
    all_goals simp

/-- Blanks end no string constant. -/
theorem scan_string_blank (hw : ∀ c ∈ w, isBlank c = true) :
    (∀ read, (Lexer.string read).scan dashes w = none ∧ (Lexer.escape read).scan dashes w = none) ∧
    ('\n' ∈ w → ∀ read b, (Lexer.string read).scan dashes (w ++ b) = none ∧
      (Lexer.escape read).scan dashes (w ++ b) = none) := by
  induction w with
  | nil => exact ⟨fun read => ⟨rfl, rfl⟩, fun hn => by cases hn⟩
  | cons c rest ih =>
    obtain ⟨hrest, hfeed⟩ := ih fun d hd => hw d (.tail _ hd)
    have hne : ∀ d : Char, isBlank d = false → c ≠ d := by
      rintro d hd rfl
      rw [hw _ (.head _)] at hd
      cases hd
    have hslash := hne '\\' (by decide)
    have hquote := hne '\x27' (by decide)
    refine ⟨fun read => ?_, fun hn read b => ?_⟩
    · by_cases hc : c = '\n'
      · simp [scan, step, hc]
      · simp [scan, step, next, hc, hslash, hquote, (hrest _).1]
    · by_cases hc : c = '\n'
      · simp [scan, step, hc]
      · have hmore := hfeed ((List.mem_cons.1 hn).resolve_left fun heq => hc heq.symm)
        simp [scan, step, next, hc, hslash, hquote, (hmore _ b).1]

end Scan

/-! ## Lines laid out anew -/

/-- What a name is read as after its lines are laid out anew: as itself if it has no line feed, and
otherwise with other blanks. -/
structure Reflowed (a b : String) : Prop where
  same : '\n' ∉ a.toList → b = a
  ink : b.toList.filter (!isBlank ·) = a.toList.filter (!isBlank ·)

theorem Reflowed.refl (a : String) : Reflowed a a := ⟨fun _ => rfl, rfl⟩

theorem Reflowed.trans {a b c : String} (h : Reflowed a b) (h' : Reflowed b c) : Reflowed a c := by
  refine ⟨fun hn => ?_, h'.ink.trans h.ink⟩
  obtain rfl := h.same hn
  exact h'.same hn

/-- What a token is read as after lines are laid out anew. -/
inductive Lexeme.Kept : Lexeme → Lexeme → Prop where
  | name {a b : String} : Reflowed a b → Kept (.name a) (.name b)
  | string (s : String) : Kept (.string s) (.string s)
  | comment : Kept .comment .comment

theorem Lexeme.Kept.refl (x : Lexeme) : x.Kept x := by
  cases x with
  | name s => exact .name (.refl s)
  | string s => exact .string s
  | comment => exact .comment

theorem Lexeme.Kept.trans {x y z : Lexeme} (h : x.Kept y) (h' : y.Kept z) : x.Kept z := by
  cases h with
  | name h =>
    cases h' with
    | name h' => exact .name (h.trans h')
  | string s => exact h'
  | comment => exact h'

/-- Readers that have read the same, or a name and what it is read as. -/
inductive Lexer.Like : Lexer → Lexer → Prop where
  | refl (l : Lexer) : Like l l
  | name {a b : String} : Reflowed a b → Like (.name a) (.name b)
  | tick {a b : String} : Reflowed a b → Like (.tick a) (.tick b)

section Reflow

variable {dashes cut : Bool} {l l' : Lexer} {a b : List Char} {c : Char} {ts : List Lexeme}

theorem forall₂_kept_refl (ts : List Lexeme) : List.Forall₂ Lexeme.Kept ts ts :=
  List.forall₂_same.2 fun x _ => .refl x

theorem Lexer.Like.settle (h : l.Like l') (hs : l.settle = some ts) :
    ∃ ts', l'.settle = some ts' ∧ List.Forall₂ Lexeme.Kept ts ts' := by
  cases h with
  | refl => exact ⟨ts, hs, forall₂_kept_refl ts⟩
  | name h => cases hs
  | tick h =>
    cases hs
    exact ⟨_, rfl, .cons (.name h) .nil⟩

theorem Lexer.Like.step {r : Lexer × List Lexeme} (h : l.Like l') (hs : l.step dashes c = some r) :
    ∃ r', l'.step dashes c = some r' ∧ r.1.Like r'.1 ∧ List.Forall₂ Lexeme.Kept r.2 r'.2 := by
  have hpush : ∀ {a b : String}, Reflowed a b → Reflowed (a.push c) (b.push c) := by
    intro a b hab
    refine ⟨fun hn => ?_, by simp [List.filter_append, hab.ink]⟩
    rw [hab.same fun hmem => hn (by simp [hmem])]
  cases h with
  | refl => exact ⟨r, hs, .refl _, forall₂_kept_refl _⟩
  | @name a b h =>
    cases hs
    by_cases hc : c = '\x60'
    · exact ⟨_, rfl, by simp only [next, if_pos hc]; exact .tick h, by simp [next, hc]⟩
    · exact ⟨_, rfl, by simp only [next, if_neg hc]; exact .name (hpush h), by simp [next, hc]⟩
  | @tick a b h =>
    cases hs
    by_cases hc : c = '\x60'
    · exact ⟨_, rfl, by simp only [next, if_pos hc]; exact .name (hpush h), by simp [next, hc]⟩
    · refine ⟨_, rfl, by simp only [next, if_neg hc]; exact .refl _, ?_⟩
      simp only [next, if_neg hc]
      exact .cons (.name h) .nil

/-- A text whose lines are laid out anew has the same tokens, up to blanks in names with line
feeds. -/
theorem Reflow.scan (h : Reflow cut a b) (hl : l.Like l') (hs : l.scan dashes a = some ts) :
    ∃ ts', l'.scan dashes b = some ts' ∧ List.Forall₂ Lexeme.Kept ts ts' := by
  induction h generalizing l l' ts with
  | nil => exact hl.settle hs
  | keep c _ ih =>
    obtain ⟨r, us, hstep, hrest, rfl⟩ := scan_cons_eq_some.1 hs
    obtain ⟨r', hstep', hlike, hkept⟩ := hl.step hstep
    obtain ⟨us', hrest', hkept'⟩ := ih hlike hrest
    exact ⟨_, scan_cons_eq_some.2 ⟨r', us', hstep', hrest', rfl⟩, List.rel_append hkept hkept'⟩
  | @gap _ a b w v hw hn hv hne _ ih =>
    have hblank : ∀ c ∈ v, isBlank c = true := by
      intro c hc
      rcases hv c hc with rfl | rfl
      · decide
      · decide
    cases hsettle : l.settle with
    | some us =>
      -- the blanks are between tokens
      obtain ⟨us', hsettle', hkept⟩ := hl.settle hsettle
      rw [scan_blank hsettle hw (List.ne_nil_of_mem hn)] at hs
      obtain ⟨vs, hrest, rfl⟩ := Option.map_eq_some_iff.1 hs
      obtain ⟨vs', hrest', hkept'⟩ := ih (.refl _) hrest
      refine ⟨us' ++ vs', ?_, List.rel_append hkept hkept'⟩
      rw [scan_blank hsettle' hblank hne, hrest']
      rfl
    | none =>
      have hname : ∀ {x y : String}, Reflowed x y →
          (Lexer.name x).scan dashes (w ++ a) = some ts →
          ∃ ts', (Lexer.name y).scan dashes (v ++ b) = some ts' ∧
            List.Forall₂ Lexeme.Kept ts ts' := by
        intro x y hxy hs
        rw [scan_name_blank hw] at hs
        rw [scan_name_blank hblank]
        refine ih (.name ⟨fun hfeed => ?_, ?_⟩) hs
        · exact absurd (by simp [hn]) hfeed
        · have hink := (Reflow.gap hw hn hv hne (Reflow.nil : Reflow true [] [])).filter_eq
          simp only [List.append_nil] at hink
          simp [List.filter_append, hxy.ink, hink]
      cases hl with
      | refl =>
        cases l with
        | name read => exact hname (.refl read) hs
        | string read => rw [((scan_string_blank hw).2 hn read a).1] at hs; cases hs
        | escape read => rw [((scan_string_blank hw).2 hn read a).2] at hs; cases hs
        | comment =>
          obtain ⟨c, rest, rfl⟩ := List.exists_cons_of_ne_nil (List.ne_nil_of_mem hn)
          cases hs
        | outside | dash | tick read => cases hsettle
      | name h => exact hname h hs
      | tick h => cases hsettle
  | @cut w hw =>
    by_cases hnil : w = []
    · subst hnil
      exact hl.settle hs
    have hname : ∀ read, (Lexer.name read).scan dashes w = none := by
      intro read
      have hend : (Lexer.name read).scan dashes (w ++ []) = none := scan_name_blank hw read []
      rw [List.append_nil] at hend
      exact hend
    cases hsettle : l.settle with
    | some us =>
      obtain ⟨us', hsettle', hkept⟩ := hl.settle hsettle
      rw [← List.append_nil w, scan_blank hsettle hw hnil] at hs
      have hs : some (us ++ []) = some ts := hs
      rw [List.append_nil] at hs
      cases hs
      exact ⟨us', hsettle', hkept⟩
    | none =>
      cases hl with
      | refl =>
        cases l with
        | name read => rw [hname] at hs; cases hs
        | string read => rw [((scan_string_blank hw).1 read).1] at hs; cases hs
        | escape read => rw [((scan_string_blank hw).1 read).2] at hs; cases hs
        | comment =>
          obtain ⟨c, rest, rfl⟩ := List.exists_cons_of_ne_nil hnil
          cases hs
        | outside | dash | tick read => cases hsettle
      | name h => rw [hname] at hs; cases hs
      | tick h => cases hsettle

end Reflow

/-! ## Texts that are read as they are written -/

/-- A token that is written, and whether the lines it stands on are laid out anew. -/
structure Emission where
  token : Lexeme
  moved : Bool

/-- The token on lines that are laid out anew. -/
def Emission.move (e : Emission) : Emission := ⟨e.token, true⟩

/-- A token is read where it was written. -/
def Emission.Gives (e : Emission) (t : Lexeme) : Prop :=
  e.token.Kept t ∧ (e.moved = false → t = e.token)

/-- A text is read to its end, each token as it was written, and the tokens are allowed. -/
def Spells (dashes : Bool) (L : Lexicon) (es : List Emission) (s : String) : Prop :=
  (∀ e ∈ es, L.Allows e.token) ∧
    ∃ ts, Lexer.outside.scan dashes s.toList = some ts ∧ List.Forall₂ Emission.Gives es ts

/-- A text without quotes, and without dashes unless they mean nothing. -/
def Prose (dashes : Bool) (s : String) : Prop := ∀ c ∈ s.toList, isProse dashes c = true

/-- A text that may stand between any others. -/
def Keyword (s : String) : Prop := s ≠ "" ∧ ∀ c ∈ s.toList, isProse false c = true

instance (d : Bool) (s : String) : Decidable (Prose d s) := List.decidableBAll _ s.toList

instance (s : String) : Decidable (Keyword s) :=
  @instDecidableAnd _ _ _ (List.decidableBAll _ s.toList)

section Spells

variable {dashes : Bool} {L : Lexicon} {es es' : List Emission} {a b k s t : String}

theorem Prose.append (hs : Prose dashes s) (ht : Prose dashes t) : Prose dashes (s ++ t) := by
  rw [Prose, String.toList_append]
  exact List.forall_mem_append.2 ⟨hs, ht⟩

theorem Keyword.prose (h : Keyword k) : Prose dashes k := by
  intro c hc
  have hprose := h.2 c hc
  simp only [isProse, isSafe, Bool.false_or, Bool.and_eq_true] at hprose ⊢
  exact ⟨⟨hprose.1.1, by rw [hprose.1.2, Bool.or_true]⟩, hprose.2⟩

theorem spells_prose (h : Prose dashes s) : Spells dashes L [] s := by
  have hscan := scan_prose h []
  rw [List.append_nil] at hscan
  exact ⟨List.forall_mem_nil _, [], hscan, .nil⟩

theorem Keyword.spells (h : Keyword k) : Spells dashes L [] k := spells_prose h.prose

/-- Texts with a keyword between them. -/
theorem Spells.join (ha : Spells dashes L es a) (hk : Keyword k) (hb : Spells dashes L es' b) :
    Spells dashes L (es ++ es') (a ++ k ++ b) := by
  obtain ⟨hes, ts, hts, hgives⟩ := ha
  obtain ⟨hes', ts', hts', hgives'⟩ := hb
  refine ⟨List.forall_mem_append.2 ⟨hes, hes'⟩, ts ++ ts', ?_, List.rel_append hgives hgives'⟩
  have hprose : Prose dashes k := hk.prose
  rw [String.append_assoc, String.toList_append, String.toList_append, scan_append hts,
    scan_prose hprose, hts']
  · rfl
  · obtain ⟨c, rest, hcs⟩ := List.exists_cons_of_ne_nil (mt String.toList_eq_nil_iff.1 hk.1)
    rw [hcs]
    rintro _ ⟨⟩
    exact (Bool.and_eq_true_iff.1 (hprose c (by rw [hcs]; exact .head _))).1

theorem Spells.before (ha : Spells dashes L es a) (hk : Keyword k) :
    Spells dashes L es (k ++ a) := by
  have hjoin := (spells_prose (s := "") (by simp [Prose])).join hk ha
  rwa [String.empty_append] at hjoin

theorem Spells.after (ha : Spells dashes L es a) (hk : Keyword k) :
    Spells dashes L es (a ++ k) := by
  have hjoin := ha.join hk (spells_prose (s := "") (by simp [Prose]))
  rwa [String.append_empty, List.append_nil] at hjoin

/-- A sign before a text that does not begin with one. -/
theorem Spells.sign (h : Spells dashes L es s)
    (hhead : dashes = false → s.toList.head? ≠ some '-') : Spells dashes L es ("-" ++ s) := by
  obtain ⟨hes, ts, hts, hgives⟩ := h
  refine ⟨hes, ts, ?_, hgives⟩
  rw [String.toList_append]
  show (Lexer.dash.scan dashes s.toList).map ([] ++ ·) = some ts
  have hdash : Lexer.dash.scan dashes s.toList = Lexer.outside.scan dashes s.toList := by
    cases dashes with
    | true => exact scan_dash _
    | false =>
      cases hcs : s.toList with
      | nil => rfl
      | cons c rest =>
        have hc : c ≠ '-' := by
          rintro rfl
          exact hhead rfl (by rw [hcs]; rfl)
        rw [scan, step, if_neg hc, next, if_neg hc, scan]
        rfl
  rw [hdash, hts]
  rfl

theorem Spells.intercalate (hk : Keyword k) {ess : List (List Emission)} {ss : List String}
    (h : List.Forall₂ (Spells dashes L) ess ss) :
    Spells dashes L ess.flatten (k.intercalate ss) := by
  induction h with
  | nil => exact spells_prose (by simp [Prose])
  | cons hs hrest ih =>
    cases hrest with
    | nil => simpa using hs
    | cons =>
      rw [String.intercalate_cons_cons]
      exact hs.join hk ih

/-- What is read of lines that are laid out anew. -/
theorem Spells.reflow {cut : Bool} {cs ds : List Char} (h : Spells dashes L es s)
    (hcs : Lexer.outside.scan dashes cs = Lexer.outside.scan dashes s.toList)
    (hreflow : Reflow cut cs ds) :
    (∀ e ∈ es.map Emission.move, L.Allows e.token) ∧ ∃ ts, Lexer.outside.scan dashes ds = some ts ∧
      List.Forall₂ Emission.Gives (es.map Emission.move) ts := by
  obtain ⟨hes, ts, hts, hgives⟩ := h
  obtain ⟨ts', hts', hkept⟩ := hreflow.scan (.refl _) (hcs.trans hts)
  refine ⟨List.forall_mem_map.2 hes, ts', hts', List.forall₂_map_left_iff.2 ?_⟩
  clear hes hts hts' hcs
  induction hgives generalizing ts' with
  | nil =>
    cases hkept
    exact .nil
  | cons he _ ih =>
    cases hkept with
    | cons hx hrest => exact .cons ⟨he.1.trans hx, fun hmoved => by cases hmoved⟩ (ih _ hrest)

theorem Spells.indent {pad : String} (hpad : ∀ c ∈ pad.toList, c = ' ') (h : Spells dashes L es s) :
    Spells dashes L (es.map Emission.move) (indentLines pad s) := by
  have hfeed : ∀ cs : List Char, Lexer.outside.scan dashes ('\n' :: cs) =
      Lexer.outside.scan dashes cs := scan_prose (a := ['\n']) (by simp [isProse, isSafe])
  have hspells := h.reflow (hfeed _) (reflow_indentLines hpad s)
  rwa [hfeed] at hspells

theorem Spells.fold (h : Spells dashes L es s) :
    Spells dashes L (es.map Emission.move) (collapseLines s) := by
  have hblank : ∀ (c : Char) (cs : List Char), c = '\n' ∨ c = ' ' →
      Lexer.outside.scan dashes (c :: cs) = Lexer.outside.scan dashes cs := by
    rintro c cs (rfl | rfl)
    · exact scan_prose (a := ['\n']) (by simp [isProse, isSafe]) cs
    · exact scan_prose (a := [' ']) (by simp [isProse, isSafe]) cs
  rcases reflow_collapseLines_feed s with ⟨hreflow, hempty⟩ | hreflow
  · rw [hempty]
    exact h.reflow (hblank _ _ (.inl rfl)) hreflow
  · have hspells := h.reflow (hblank _ _ (.inl rfl)) hreflow
    rwa [hblank _ _ (.inr rfl)] at hspells

/-! ### Quotes -/

theorem scan_quoteName (read : String) (cs : List Char) :
    (Lexer.name read).scan dashes (cs.flatMap quoteNameChar ++ ['\x60']) =
      some [.name (read ++ String.ofList cs)] := by
  induction cs generalizing read with
  | nil => simp [scan, step, next, settle, finish]
  | cons c rest ih =>
    rw [← push_append_ofList, ← ih, List.flatMap_cons, List.append_assoc, quoteNameChar]
    split
    · next hc =>
      subst hc
      simp [scan, step, next, Function.comp_def]
    · next hc => simp [scan, step, next, hc]

theorem scan_quoteString (read : String) (cs : List Char) :
    (Lexer.string read).scan dashes (cs.flatMap quoteStringChar ++ ['\x27']) =
      some [.string (read ++ String.ofList cs)] := by
  induction cs generalizing read with
  | nil => simp [scan, step, next, settle, finish]
  | cons c rest ih =>
    rw [← push_append_ofList, ← ih, List.flatMap_cons, List.append_assoc]
    rcases quoteStringChar_cases c with ⟨d, hd, hfeed, _, rfl⟩ | ⟨hc, hslash, hquote, hfeed, _⟩
    · simp [hd, scan, step, next, hfeed, Function.comp_def]
    · simp [hc, scan, step, next, hslash, hquote, hfeed]

theorem spells_quoteName {name : String} (h : L.name name) :
    Spells dashes L [⟨.name name, false⟩] (quoteName name) := by
  refine ⟨List.forall_mem_singleton.2 h, [.name name], ?_, .cons ⟨.refl _, fun _ => rfl⟩ .nil⟩
  rw [toList_quoteName, List.cons_append, scan]
  simp [step, next, begin, scan_quoteName]

theorem spells_quoteString {s : String} (h : L.string s) :
    Spells dashes L [⟨.string s, false⟩] (quoteString s) := by
  refine ⟨List.forall_mem_singleton.2 h, [.string s], ?_, .cons ⟨.refl _, fun _ => rfl⟩ .nil⟩
  rw [toList_quoteString, List.cons_append, scan]
  simp [step, next, begin, scan_quoteString]

/-- Tokens without line feeds are read as what they are. -/
theorem Lexeme.Kept.eq {x y : Lexeme} (h : x.Kept y) (hx : ∀ a, x = .name a → '\n' ∉ a.toList) :
    y = x := by
  cases h with
  | name h => rw [h.same (hx _ rfl)]
  | string s => rfl
  | comment => rfl

theorem Spells.allows (h : Spells dashes L es s) (hL : ∀ x, L.name x → '\n' ∉ x.toList) :
    ∃ ts, Lexer.outside.scan dashes s.toList = some ts ∧ ∀ t ∈ ts, L.Allows t := by
  obtain ⟨hes, ts, hts, hgives⟩ := h
  refine ⟨ts, hts, ?_⟩
  clear hts
  induction hgives with
  | nil => exact List.forall_mem_nil _
  | @cons e t es ts he _ ih =>
    rw [List.forall_mem_cons] at hes ⊢
    refine ⟨?_, ih hes.2⟩
    have heq : t = e.token := he.1.eq fun a ha => hL a (by simpa [ha, Lexicon.Allows] using hes.1)
    rw [heq]
    exact hes.1

theorem Spells.read (h : Spells dashes L es s) : (∀ e ∈ es, L.Allows e.token) ∧
    ∃ ts, Lexer.outside.scan dashes s.toList = some ts ∧ List.Forall₂ Emission.Gives es ts := h

end Spells

-- from here on texts are put together by the lemmas above and not read character by character
attribute [irreducible] Spells

end PlanSql.Text

import Mathlib.Data.List.Flatten
import PlanSql.Proofs.Lexing.Lexemes
import PlanSql.Proofs.Reading.Written
import PlanSql.Proofs.Values.Congruence

/-!
# Forms of texts

The text of an expression is put together in a few ways: texts with a space between them, lists,
calls and choices. What holds of the texts of its parts and goes through each of these ways holds of
the text of every expression, whatever the layout. `Forms` lists the ways for a property of the
tokens that are written, of the text, and of the text in the flat layout, which has no indentation
and puts a list on one line.
-/

namespace PlanSql

open Text Sql Compile

/-- The tokens of a constant. -/
def Value.emits (v : Value) : List Emission := v.strings.map fun s => ⟨.string s, false⟩

namespace Sql

/-- The layout without indentation, with each list on one line. -/
def Layout.flat : Layout := ⟨0, false⟩

/-- Tokens that are laid out anew if the layout takes more lines. -/
def Layout.spread (layout : Layout) (es : List Emission) : List Emission :=
  if layout.beautify then es.map Emission.move else es

mutual

/-- The tokens of the text of an expression, where `levels` gives those of other levels. -/
def Expr.emits (layout : Layout) (levels : LevelId → List Emission) : Expr → List Emission
  | .column _ field => [⟨.name field, false⟩]
  | .constant value => value.emits
  | .group e | .negate e | .not e | .isNull _ e | .callDistinct _ e | .convert e _ _
  | .descending e => e.emits layout levels
  | .binary _ l r => l.emits layout levels ++ r.emits layout levels
  | .inList _ e items => e.emits layout levels ++ Expr.allEmits layout levels items
  | .inLevel _ e level => e.emits layout levels ++ (levels level).map Emission.move
  | .between e low high =>
    e.emits layout levels ++ low.emits layout levels ++ high.emits layout levels
  | .call _ args => Expr.allEmits layout levels args
  | .windowed func partition order _ => func.emits layout levels ++
      (Expr.allEmits layout levels partition ++ Expr.allEmits layout levels order)
  | .cases subject branches fallback => Expr.emits? layout levels subject ++
      layout.spread (Expr.branchEmits layout levels branches ++ Expr.emits? layout levels fallback)

def Expr.allEmits (layout : Layout) (levels : LevelId → List Emission) : List Expr → List Emission
  | [] => []
  | e :: rest => e.emits layout levels ++ Expr.allEmits layout levels rest

/-- The tokens of the text of an expression that may be missing. -/
def Expr.emits? (layout : Layout) (levels : LevelId → List Emission) : Option Expr → List Emission
  | none => []
  | some e => e.emits layout levels

def Expr.branchEmits (layout : Layout) (levels : LevelId → List Emission) :
    List (Expr × Expr) → List Emission
  | [] => []
  | (c, r) :: rest =>
    c.emits layout levels ++ r.emits layout levels ++ Expr.branchEmits layout levels rest

end

def Expr.beginsWithSign : Expr → Bool
  | .constant v => Reading.isSigned v
  | .negate _ => true
  | .binary _ e _ | .isNull _ e | .inList _ e _ | .inLevel _ e _ | .between e _ _
  | .windowed e _ _ _
  | .descending e => e.beginsWithSign
  | .column .. | .group _ | .not _ | .call .. | .callDistinct .. | .convert .. | .cases .. => false

def keywords : List String :=
  ["NOT", "IS NULL", "IS NOT NULL", "IN", "NOT IN", "BETWEEN", "AND",
    "DISTINCT", "AS", "DESC", "OVER", "PARTITION BY", "1", "ORDER BY", "ROWS", "ROWS BETWEEN",
    "PRECEDING", "PRECEDING AND", "FOLLOWING", "FOLLOWING AND", "CASE", "WHEN", "THEN", "ELSE"]

/-- The ways in which texts are put together keep a property `R` of texts, which also says whether
they begin with a sign, and the property `I` of what may stand in parentheses. Texts of levels have
the property `V`. -/
structure Forms (R : Bool → List Emission → String → String → Prop)
    (I V : List Emission → String → String → Prop) (calls strings : String → Prop) : Prop where
  constant : ∀ v : Value, (∀ s ∈ v.strings, strings s) →
    R (Reading.isSigned v) v.emits v.sqlText v.sqlText
  word : ∀ w ∈ keywords, R false [] w w
  typeName : ∀ t : DataType, R false [] t.sqlName t.sqlName
  symbol : ∀ op : BinaryOp, R true [] op.symbol op.symbol
  number : ∀ n : Nat, R false [] (Nat.repr n) (Nat.repr n)
  gap : ∀ {b b' es es' s s' t t'}, R b es s t → R b' es' s' t' →
    R b (es ++ es') (s ++ " " ++ s') (t ++ " " ++ t')
  inside : ∀ {b es s t}, R b es s t → I es s t
  empty : I [] "" ""
  pair : ∀ {k es es' s s' t t'}, k = " " ∨ k = ", " → I es s t → I es' s' t' →
    I (es ++ es') (s ++ k ++ s') (t ++ k ++ t')
  level : ∀ {es s t}, V es s t → I (es.map Emission.move) (collapseLines s) (collapseLines t)
  call : ∀ {k es s t}, calls k ∨ k ∈ ["", "CAST", "FROM_UNIXTIME"] → I es s t →
    R false es (k ++ "(" ++ s ++ ")") (k ++ "(" ++ t ++ ")")
  branches : ∀ {b es s t} (layout : Layout) (parts : List (List Emission × String × String)),
    R b es s t → (∀ x ∈ parts, ∃ b, R b x.1 x.2.1 x.2.2) →
    R b (es ++ layout.spread (parts.flatMap (·.1)))
      (if layout.beautify then s ++ "\n" ++
          "\n".intercalate ((parts.map (·.2.1)).map (indentLines layout.pad)) ++ "\nEND"
        else s ++ " " ++ " ".intercalate (parts.map (·.2.1)) ++ " END")
      (t ++ " " ++ " ".intercalate (parts.map (·.2.2)) ++ " END")

/-- The property of the text of an expression in a layout, if the texts of levels have theirs. -/
def Expr.Holds (R : Bool → List Emission → String → String → Prop)
    (V : List Emission → String → String → Prop) (e : Expr) : Prop :=
  ∀ (layout : Layout) (f f' : LevelId → String) (levels : LevelId → List Emission),
    (∀ l, V (levels l) (f l) (f' l)) →
      R e.beginsWithSign (e.emits layout levels) (e.text layout f) (e.text .flat f')

/-- What a separator between two texts keeps holds of a list of texts. -/
theorem list_of_pair {P : List Emission → String → String → Prop} {k : String}
    (hpair : ∀ {es es' s s' t t'}, P es s t → P es' s' t' →
      P (es ++ es') (s ++ k ++ s') (t ++ k ++ t'))
    {α : Type} {E : α → List Emission} {S T : α → String} {l : List α} (hl : l ≠ [])
    (h : ∀ x ∈ l, P (E x) (S x) (T x)) :
    P (l.flatMap E) (k.intercalate (l.map S)) (k.intercalate (l.map T)) := by
  induction l with
  | nil => exact absurd rfl hl
  | cons x rest ih =>
    rw [List.forall_mem_cons] at h
    cases rest with
    | nil => simpa using h.1
    | cons y more =>
      have hboth := hpair h.1 (ih (by simp) h.2)
      rw [List.map_cons, List.map_cons] at hboth
      rw [List.map_cons, List.map_cons, List.map_cons, List.map_cons, String.intercalate_cons_cons,
        String.intercalate_cons_cons]
      exact hboth

namespace Forms

variable {R : Bool → List Emission → String → String → Prop}
  {I V : List Emission → String → String → Prop} {calls strings : String → Prop}
  (F : Forms R I V calls strings)
  {b b' : Bool} {es es' : List Emission} {s s' t t' w p : String}

include F

theorem before (h : R b es s t) (hw : w ∈ keywords) (hp : p = w ++ " ") :
    R false es (p ++ s) (p ++ t) := by
  subst hp
  exact F.gap (F.word w hw) h

theorem after (h : R b es s t) (hw : w ∈ keywords) (hp : p = " " ++ w) :
    R b es (s ++ p) (t ++ p) := by
  have hgap := F.gap h (F.word w hw)
  rwa [List.append_nil, String.append_assoc, String.append_assoc, ← hp] at hgap

theorem between (h : R b es s t) (hw : w ∈ keywords) (hp : p = " " ++ w ++ " ")
    (h' : R b' es' s' t') :
    R b (es ++ es') (s ++ p ++ s') (t ++ p ++ t') := by
  have hgap := F.gap h (F.gap (F.word w hw) h')
  subst hp
  simpa only [List.nil_append, String.append_assoc] using hgap

theorem list {α : Type} {k : String} (hk : k = " " ∨ k = ", ") {E : α → List Emission}
    {A B : α → String} {l : List α} (h : ∀ x ∈ l, I (E x) (A x) (B x)) :
    I (l.flatMap E) (k.intercalate (l.map A)) (k.intercalate (l.map B)) := by
  by_cases hl : l = []
  · rw [hl]
    exact F.empty
  · exact list_of_pair (F.pair hk) hl h

theorem frame (frame : Frame) : R false [] (frameText frame) (frameText frame) := by
  have hrows : ∀ (n : UInt64) (k w : String), w ∈ keywords → k = " " ++ w →
      R false [] ("ROWS " ++ toString n ++ k) ("ROWS " ++ toString n ++ k) := fun n k w hw hk =>
    F.after (F.before (F.number n.toNat) (w := "ROWS") (by decide) rfl) hw hk
  have hbounds : ∀ (n m : UInt64) (k k' w w' : String), w ∈ keywords → k = " " ++ w ++ " " →
      w' ∈ keywords → k' = " " ++ w' →
      R false [] ("ROWS BETWEEN " ++ toString n ++ k ++ toString m ++ k')
        ("ROWS BETWEEN " ++ toString n ++ k ++ toString m ++ k') := by
    intro n m k k' w w' hw hk hw' hk'
    have hlow := F.before (F.number n.toNat) (w := "ROWS BETWEEN") (by decide) rfl
    exact F.after (F.between hlow hw hk (F.number m.toNat)) hw' hk'
  cases frame with
  | preceding n => exact hrows n _ "PRECEDING" (by decide) rfl
  | following n => exact hrows n _ "FOLLOWING" (by decide) rfl
  | between n m => exact hbounds n m _ _ "PRECEDING AND" "FOLLOWING" (by decide) rfl (by decide) rfl
  | precedingRange n m =>
    exact hbounds n m _ _ "PRECEDING AND" "PRECEDING" (by decide) rfl (by decide) rfl
  | followingRange n m =>
    exact hbounds n m _ _ "FOLLOWING AND" "FOLLOWING" (by decide) rfl (by decide) rfl

theorem window {ps os : List Expr} {E : Expr → List Emission} {A B : Expr → String}
    (hp : ∀ e ∈ ps, I (E e) (A e) (B e)) (ho : ∀ e ∈ os, I (E e) (A e) (B e))
    (frame : Option Frame) :
    R false (ps.flatMap E ++ os.flatMap E) (windowText (ps.map A) (os.map A) frame)
      (windowText (ps.map B) (os.map B) frame) := by
  have hunder : ∀ {w p es s t}, w ∈ keywords → p = w ++ " " → I es s t →
    I es (p ++ s) (p ++ t) := by
    rintro w _ es s t hw rfl h
    exact F.pair (.inl rfl) (F.inside (F.word w hw)) h
  have hclose : ∀ {es s t}, I es s t →
    R false es ("OVER (" ++ s ++ ")") ("OVER (" ++ t ++ ")") := by
    intro es s t h
    have hcall := F.gap (F.word "OVER" (by decide)) (F.call (k := "") (.inr (by decide)) h)
    simp only [String.empty_append, ← String.append_assoc] at hcall
    exact hcall
  have hshared : I (ps.flatMap E) (if (ps.map A).isEmpty then "1" else ", ".intercalate (ps.map A))
      (if (ps.map B).isEmpty then "1" else ", ".intercalate (ps.map B)) := by
    cases ps with
    | nil => exact F.inside (F.word "1" (by decide))
    | cons e rest => exact F.list (.inr rfl) hp
  have hfirst := hunder (w := "PARTITION BY") (by decide) rfl hshared
  have hordered := hunder (w := "ORDER BY") (by decide) rfl (F.list (k := ", ") (.inr rfl) ho)
  unfold windowText
  cases os with
  | nil =>
    cases frame with
    | none => simpa using hclose hfirst
    | some x => simpa using hclose (F.pair (.inl rfl) hfirst (F.inside (F.frame x)))
  | cons e rest =>
    cases frame with
    | none => simpa using hclose (F.pair (.inl rfl) hfirst hordered)
    | some x =>
      have hboth := F.pair (.inl rfl) hordered (F.inside (F.frame x))
      simpa using hclose (F.pair (.inl rfl) hfirst hboth)

theorem membership (negated : Bool) (h : R b es s t) (h' : I es' s' t') :
    R b (es ++ es') (s ++ inText negated ++ s' ++ ")") (t ++ inText negated ++ t' ++ ")") := by
  obtain ⟨w, hw, p, hp, htext⟩ : ∃ w ∈ keywords, ∃ p, p = " " ++ w ++ " " ∧
      inText negated = p ++ "(" := by
    cases negated with
    | false => exact ⟨"IN", by decide, _, rfl, rfl⟩
    | true => exact ⟨"NOT IN", by decide, _, rfl, rfl⟩
  have htest := F.between h hw hp (F.call (k := "") (.inr (by decide)) h')
  rw [htext]
  simpa only [String.empty_append, String.append_assoc] using htest

theorem conversion (h : R b es s t) (source target : DataType) :
    R (if source = target then b else false) es (convertText s source target)
      (convertText t source target) := by
  unfold convertText
  split_ifs
  · exact h
  · exact F.call (k := "FROM_UNIXTIME") (.inr (by decide)) (F.inside h)
  · have hcast := F.call (k := "CAST") (.inr (by decide))
      (F.inside (F.between h (w := "AS") (p := " AS ") (by decide) rfl (F.typeName target)))
    rw [List.append_nil] at hcast
    rw [show "CAST(" = "CAST" ++ "(" from rfl]
    simpa only [String.append_assoc] using hcast

end Forms

section Expressions

variable {layout : Layout} {f : LevelId → String} {levels : LevelId → List Emission}

theorem Expr.allEmits_eq (es : List Expr) :
    Expr.allEmits layout levels es = es.flatMap (Expr.emits layout levels) := by
  induction es with
  | nil => rfl
  | cons e rest ih => rw [Expr.allEmits, ih, List.flatMap_cons]

theorem Expr.branchEmits_eq (bs : List (Expr × Expr)) : Expr.branchEmits layout levels bs =
    bs.flatMap fun b => b.1.emits layout levels ++ b.2.emits layout levels := by
  induction bs with
  | nil => rfl
  | cons b rest ih => rw [Expr.branchEmits, ih, List.flatMap_cons]

theorem Expr.branchTexts_eq (bs : List (Expr × Expr)) : Expr.branchTexts layout f bs =
    bs.map fun b => (b.1.text layout f, b.2.text layout f) := by
  induction bs with
  | nil => rfl
  | cons b rest ih => rw [Expr.branchTexts, ih, List.map_cons]

theorem forall_of_forall₂ {α β : Type} {P : α → Prop} {l : List α} {l' : List β}
    (h : List.Forall₂ (fun a _ => P a) l l') : ∀ a ∈ l, P a := by
  induction h with
  | nil => exact List.forall_mem_nil _
  | cons h _ ih => exact List.forall_mem_cons.2 ⟨h, ih⟩

variable {R : Bool → List Emission → String → String → Prop}
  {I V : List Emission → String → String → Prop} {calls strings : String → Prop} {e : Expr}

theorem Expr.Holds.descending (F : Forms R I V calls strings) (h : e.Holds R V) :
    (Expr.descending e).Holds R V :=
  fun layout f f' levels hf => F.after (h layout f f' levels hf) (w := "DESC") (by decide) rfl

section Parts

variable (layout : Layout) (f f' : LevelId → String) (levels : LevelId → List Emission)

/-- A branch of a choice: its tokens, its text and its flat text. -/
def branchPart (b : Expr × Expr) : List Emission × String × String :=
  (b.1.emits layout levels ++ b.2.emits layout levels,
    "WHEN " ++ b.1.text layout f ++ " THEN " ++ b.2.text layout f,
    "WHEN " ++ b.1.text .flat f' ++ " THEN " ++ b.2.text .flat f')

/-- What a choice gives if no branch applies. -/
def otherPart (e : Expr) : List Emission × String × String :=
  (e.emits layout levels, "ELSE " ++ e.text layout f, "ELSE " ++ e.text .flat f')

end Parts

/-- What goes through all forms of texts holds of an expression if it holds of its parts. -/
theorem Forms.congruence (F : Forms R I V calls strings) :
    FullCongruence (fun e _ => e.Holds R V) calls strings where
  constant v hs := fun _ _ _ _ _ => F.constant v hs
  group h := fun layout f f' levels hf => by
    have hcall := F.call (k := "") (.inr (by decide)) (F.inside (h layout f f' levels hf))
    rwa [String.empty_append] at hcall
  binary {op _ _ _ _} hl hr := fun layout f f' levels hf => by
    have hleft := F.gap (hl layout f f' levels hf) (F.symbol op)
    rw [List.append_nil] at hleft
    exact F.gap hleft (hr layout f f' levels hf)
  not h := fun layout f f' levels hf =>
    F.before (h layout f f' levels hf) (w := "NOT") (by decide) rfl
  isNull {b _ _} h := fun layout f f' levels hf => by
    cases b with
    | false => exact F.after (h layout f f' levels hf) (w := "IS NULL") (by decide) rfl
    | true => exact F.after (h layout f f' levels hf) (w := "IS NOT NULL") (by decide) rfl
  inList {b _ _ _ _} h hes := fun layout f f' levels hf => by
    rw [Expr.text, Expr.text, Expr.emits, Expr.allEmits_eq, Expr.texts_eq_map, Expr.texts_eq_map]
    exact F.membership b (h layout f f' levels hf)
      (F.list (.inr rfl) fun e he => F.inside (forall_of_forall₂ hes e he layout f f' levels hf))
  inLevel {b _ _ level} h := fun layout f f' levels hf =>
    F.membership b (h layout f f' levels hf) (F.level (hf level))
  between h hl hh := fun layout f f' levels hf => by
    have hlow := F.between (h layout f f' levels hf) (w := "BETWEEN") (by decide) rfl
      (hl layout f f' levels hf)
    exact F.between hlow (w := "AND") (by decide) rfl (hh layout f f' levels hf)
  call hname hes := fun layout f f' levels hf => by
    rw [Expr.text, Expr.text, Expr.emits, Expr.allEmits_eq, Expr.texts_eq_map, Expr.texts_eq_map]
    exact F.call (.inl hname)
      (F.list (.inr rfl) fun e he => F.inside (forall_of_forall₂ hes e he layout f f' levels hf))
  convert {_ _ s t} hne h := fun layout f f' levels hf => by
    have hconverted := F.conversion (h layout f f' levels hf) s t
    rwa [if_neg hne] at hconverted
  cases {subject _ bs _ fallback _} hsub hbs hfall := fun layout f f' levels hf => by
    have hparts : ∀ x ∈ bs.map (branchPart layout f f' levels) ++
        fallback.toList.map (otherPart layout f f' levels), ∃ b, R b x.1 x.2.1 x.2.2 := by
      rw [List.forall_mem_append, List.forall_mem_map, List.forall_mem_map]
      constructor
      · intro b hb
        obtain ⟨hc, hr⟩ := forall_of_forall₂ hbs b hb
        have hwhen := F.before (hc layout f f' levels hf) (w := "WHEN") (by decide) rfl
        exact ⟨_, F.between hwhen (w := "THEN") (by decide) rfl (hr layout f f' levels hf)⟩
      · intro e he
        cases hfall with
        | none => cases he
        | some h =>
          obtain rfl := List.mem_singleton.1 he
          exact ⟨_, F.before (h layout f f' levels hf) (w := "ELSE") (by decide) rfl⟩
    have htext : ∀ {es s t}, R false es s t → _ := fun h => F.branches layout _ h hparts
    have hcase : ∀ {b es s t}, R b es s t → R false es ("CASE " ++ s) ("CASE " ++ t) :=
      fun h => F.before h (w := "CASE") (by decide) rfl
    cases hsub with
    | none =>
      have hcases := htext (F.word "CASE" (by decide))
      cases fallback with
      | none | some e =>
        simpa [Expr.emits, Expr.emits?, Expr.text, Expr.text?, casesText, Expr.branchEmits_eq,
          Expr.branchTexts_eq, branchPart, otherPart, Function.comp_def,
          Layout.flat, List.flatMap_map, Expr.beginsWithSign] using hcases
    | some h =>
      have hcases := htext (hcase (h layout f f' levels hf))
      cases fallback with
      | none | some e =>
        simpa [Expr.emits, Expr.emits?, Expr.text, Expr.text?, casesText, Expr.branchEmits_eq,
          Expr.branchTexts_eq, branchPart, otherPart, Function.comp_def,
          Layout.flat, List.flatMap_map, Expr.beginsWithSign] using hcases
  callDistinct hname h := fun layout f f' levels hf => by
    have hcall := F.call (.inl hname) (F.inside
      (F.before (h layout f f' levels hf) (w := "DISTINCT") (by decide) rfl))
    rw [Expr.text, Expr.text, show "(DISTINCT " = "(" ++ "DISTINCT" ++ " " from rfl]
    simpa only [String.append_assoc, Expr.emits, Expr.beginsWithSign] using hcall
  windowed {_ _ ps _ os _ frame} _ h hps hos := fun layout f f' levels hf => by
    have hall : ∀ e ∈ os, e.Holds R V := by
      refine forall_of_forall₂ (hos.imp fun e e' hkey => ?_)
      cases hkey with
      | ascending he => exact he
      | descending he => exact he.descending F
    rw [Expr.text, Expr.text, Expr.emits, Expr.allEmits_eq, Expr.allEmits_eq, Expr.texts_eq_map,
      Expr.texts_eq_map, Expr.texts_eq_map, Expr.texts_eq_map]
    exact F.gap (h layout f f' levels hf)
      (F.window (fun e he => F.inside (forall_of_forall₂ hps e he layout f f' levels hf))
        (fun e he => F.inside (hall e he layout f f' levels hf)) frame)

end Expressions

end Sql

end PlanSql

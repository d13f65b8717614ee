import PlanSql.Proofs.Layout.Lines
import PlanSql.Proofs.Reading.Parser
import PlanSql.Sql.Expr

/-!
# Expressions as they are written

The tree of an expression of a statement, with its parentheses, and the tokens of its text. The text
differs from them only in blanks, whatever the layout.
-/

namespace PlanSql.Reading

open PlanSql.Sql

/-! ## Forms -/

/-- A part of a form: some text or an argument. -/
inductive Piece where
  | text (s : String)
  | arg (t : Tree)

/-- The text before the first argument, and the arguments with the texts after them. -/
def split : List Piece → String × List (Tree × String)
  | [] => ("", [])
  | .text s :: rest => (s ++ (split rest).1, (split rest).2)
  | .arg t :: rest => ("", (t, (split rest).1) :: (split rest).2)

/-- Arguments from a list that is not empty. -/
def Args.ofList (first : Tree × String) : List (Tree × String) → Args
  | [] => .last first.1 first.2
  | next :: rest => .more first.1 first.2 (.ofList next rest)

/-- A form of some pieces; a word if none of them is an argument. -/
def formOf (pieces : List Piece) : Tree :=
  match split pieces with
  | (text, []) => .word text
  | (text, first :: rest) => .form text (.ofList first rest)

def suffixOf (kind : Suffix) (x : Tree) (pieces : List Piece) : Tree :=
  match split pieces with
  | (text, []) => .suffix kind text x
  | (text, first :: rest) => .suffixForm kind text x (.ofList first rest)

def commas : List (List Piece) → List Piece
  | [] => []
  | [pieces] => pieces
  | pieces :: rest => pieces ++ .text ", " :: commas rest

section Adequate

theorem Args.adequate_ofList (first : Tree × String) (rest : List (Tree × String)) :
    (Args.ofList first rest).Adequate ↔ ∀ a ∈ first :: rest, a.1.Adequate := by
  induction rest generalizing first with
  | nil => simp [Args.ofList, Args.Adequate]
  | cons next rest ih =>
    rw [Args.ofList, Args.Adequate, ih, List.forall_mem_cons (a := first)]

theorem mem_split {t : Tree} :
    (∃ s, (t, s) ∈ (split pieces).2) ↔ .arg t ∈ pieces := by
  induction pieces with
  | nil => simp [split]
  | cons piece rest ih => cases piece <;> simp [split, ← ih, exists_or]

variable {pieces : List Piece}

theorem adequate_formOf : (formOf pieces).Adequate ↔ ∀ t, .arg t ∈ pieces → t.Adequate := by
  have hmem := @mem_split pieces
  unfold formOf
  split
  · next text hsplit => simp [hsplit, ← hmem, Tree.Adequate]
  · next text first rest hsplit =>
    rw [hsplit] at hmem
    rw [Tree.Adequate, Args.adequate_ofList]
    exact ⟨fun h t ht => (hmem.2 ht).elim fun s hs => h _ hs, fun h a ha => h _ (hmem.1 ⟨_, ha⟩)⟩

theorem adequate_suffixOf {kind : Suffix} {x : Tree} : (suffixOf kind x pieces).Adequate ↔
    (x.Adequate ∧ kind.level ≤ x.level) ∧ ∀ t, .arg t ∈ pieces → t.Adequate := by
  have hmem := @mem_split pieces
  unfold suffixOf
  split
  · next text hsplit => simp [hsplit, ← hmem, Tree.Adequate]
  · next text first rest hsplit =>
    rw [hsplit] at hmem
    rw [Tree.Adequate, Args.adequate_ofList]
    refine and_congr_right fun _ => ?_
    exact ⟨fun h t ht => (hmem.2 ht).elim fun s hs => h _ hs, fun h a ha => h _ (hmem.1 ⟨_, ha⟩)⟩

theorem level_formOf (pieces : List Piece) : (formOf pieces).level = 8 := by
  unfold formOf
  split <;> rfl

theorem level_suffixOf (kind : Suffix) (x : Tree) (pieces : List Piece) :
    (suffixOf kind x pieces).level = kind.level := by
  unfold suffixOf
  split <;> rfl

theorem mem_commas {groups : List (List Piece)} {t : Tree} :
    .arg t ∈ commas groups ↔ ∃ pieces ∈ groups, .arg t ∈ pieces := by
  induction groups with
  | nil => simp [commas]
  | cons pieces rest ih =>
    cases rest with
    | nil => simp [commas]
    | cons next rest => simp [commas, ih]

end Adequate

/-! ## Trees of expressions -/

/-- A constant; the sign of a negative number stands for itself. -/
def constantTree (v : Value) : Tree :=
  match v.sqlText.toList with
  | '-' :: rest => .negate (.word (String.ofList rest))
  | _ => .word v.sqlText

/-- Whether a constant is written with a sign. -/
def isSigned (v : Value) : Bool := v.sqlText.toList.head? == some '-'

mutual

/-- The tree of an expression, where `levelText` gives the texts of other levels. -/
def treeOf (levelText : LevelId → String) : Expr → Tree
  | .column label field => .word (label.text ++ "." ++ Text.quoteName field)
  | .constant value => constantTree value
  | .group e => .group (treeOf levelText e)
  | .binary op l r => .binary op (treeOf levelText l) (treeOf levelText r)
  | .negate e => .negate (treeOf levelText e)
  | .not e => .not (treeOf levelText e)
  | .isNull negated e =>
    .suffix .test (if negated then " IS NOT NULL" else " IS NULL") (treeOf levelText e)
  | .inList negated e items =>
    suffixOf .test (treeOf levelText e)
      (.text (inText negated) :: (commas (argsOf levelText items) ++ [.text ")"]))
  | .inLevel negated e level =>
    .suffix .test (inText negated ++ Text.collapseLines (levelText level) ++ ")")
      (treeOf levelText e)
  | .between e low high =>
    .between (treeOf levelText e) (treeOf levelText low) (treeOf levelText high)
  | .call name args =>
    formOf (.text (name ++ "(") :: (commas (argsOf levelText args) ++ [.text ")"]))
  | .callDistinct name arg =>
    formOf [.text (name ++ "(DISTINCT "), .arg (treeOf levelText arg), .text ")"]
  | .convert e source target =>
    if source = target then treeOf levelText e
    else if source.isInteger && target == .datetime then
      formOf [.text "FROM_UNIXTIME(", .arg (treeOf levelText e), .text ")"]
    else
      formOf [.text "CAST(", .arg (treeOf levelText e), .text (" AS " ++ target.sqlName ++ ")")]
  | .windowed func partition order frame =>
    suffixOf .window (treeOf levelText func)
      (.text " OVER (PARTITION BY " ::
        ((if partition.isEmpty then [.text "1"] else commas (argsOf levelText partition)) ++
          (if order.isEmpty then [] else .text " ORDER BY " :: commas (argsOf levelText order)) ++
          [.text ((frame.map frameText).getD ""), .text ")"]))
  | .cases subject branches fallback =>
    formOf (.text "CASE " :: (optionPieces levelText "" subject ++
      branchPieces levelText branches ++ optionPieces levelText " ELSE " fallback ++
      [.text " END"]))
  | .descending e => formOf [.arg (treeOf levelText e), .text " DESC"]

/-- Expressions as arguments. A sort key is the argument, and its direction comes after it. -/
def argsOf (levelText : LevelId → String) : List Expr → List (List Piece)
  | [] => []
  | .descending e :: rest =>
    [.arg (treeOf levelText e), .text " DESC"] :: argsOf levelText rest
  | e :: rest => [.arg (treeOf levelText e)] :: argsOf levelText rest

def optionPieces (levelText : LevelId → String) (before : String) : Option Expr → List Piece
  | none => []
  | some e => [.text before, .arg (treeOf levelText e)]

def branchPieces (levelText : LevelId → String) : List (Expr × Expr) → List Piece
  | [] => []
  | (c, r) :: rest =>
    [.text " WHEN ", .arg (treeOf levelText c), .text " THEN ", .arg (treeOf levelText r)] ++
      branchPieces levelText rest

end

-- The equations of the definitions above are derived once, for all the proofs below.
attribute [local simp] treeOf

def argOf (levelText : LevelId → String) : Expr → List Piece
  | .descending e => [.arg (treeOf levelText e), .text " DESC"]
  | e => [.arg (treeOf levelText e)]

theorem argsOf_cons (levelText : LevelId → String) (e : Expr) (es : List Expr) :
    argsOf levelText (e :: es) = argOf levelText e :: argsOf levelText es := by
  cases e <;> rfl

section Adequate

variable (levelText : LevelId → String) {e : Expr}

theorem adequate_argOf :
    (∀ t, .arg t ∈ argOf levelText e → t.Adequate) ↔ (treeOf levelText e).Adequate := by
  cases e with
  | descending e => rw [treeOf, adequate_formOf, argOf]
  | _ => simp [argOf]

theorem adequate_argsOf {es : List Expr} :
    (∀ t, .arg t ∈ commas (argsOf levelText es) → t.Adequate) ↔
      ∀ e ∈ es, (treeOf levelText e).Adequate := by
  have hmem : ∀ t, .arg t ∈ commas (argsOf levelText es) ↔
    ∃ e ∈ es, .arg t ∈ argOf levelText e := by
    intro t
    rw [mem_commas]
    induction es with
    | nil => simp [argsOf]
    | cons e es ih => simp [argsOf_cons, ih]
  simp only [hmem, ← adequate_argOf]
  exact ⟨fun h e he t ht => h t ⟨e, he, ht⟩, fun h t ⟨e, he, ht⟩ => h e he t ht⟩

theorem adequate_optionPieces {before : String} {e : Option Expr} :
    (∀ t, .arg t ∈ optionPieces levelText before e → t.Adequate) ↔
      ∀ x ∈ e, (treeOf levelText x).Adequate := by
  cases e <;> simp [optionPieces]

theorem adequate_branchPieces {bs : List (Expr × Expr)} :
    (∀ t, .arg t ∈ branchPieces levelText bs → t.Adequate) ↔
      ∀ b ∈ bs, (treeOf levelText b.1).Adequate ∧ (treeOf levelText b.2).Adequate := by
  induction bs with
  | nil => simp [branchPieces]
  | cons b bs ih =>
    rw [List.forall_mem_cons, ← ih]
    simp only [branchPieces, List.cons_append, List.nil_append, List.mem_cons,
      reduceCtorEq, false_or, Piece.arg.injEq]
    constructor
    · exact fun h => ⟨⟨h _ (.inl rfl), h _ (.inr (.inl rfl))⟩, fun t ht => h t (.inr (.inr ht))⟩
    · rintro ⟨⟨hc, hr⟩, hrest⟩ t (rfl | rfl | ht)
      · exact hc
      · exact hr
      · exact hrest t ht

@[simp] theorem adequate_constant (v : Value) : (treeOf levelText (.constant v)).Adequate := by
  rw [treeOf, constantTree]
  split
  · exact ⟨trivial, by simp [Tree.level]⟩
  · trivial

@[simp] theorem adequate_call {name : String} {args : List Expr} :
    (treeOf levelText (.call name args)).Adequate ↔ ∀ e ∈ args, (treeOf levelText e).Adequate := by
  rw [treeOf, adequate_formOf, ← adequate_argsOf]
  simp

@[simp] theorem adequate_callDistinct {name : String} {arg : Expr} :
    (treeOf levelText (.callDistinct name arg)).Adequate ↔ (treeOf levelText arg).Adequate := by
  rw [treeOf, adequate_formOf]
  simp

theorem adequate_convert {source target : DataType} (h : source ≠ target) :
    (treeOf levelText (.convert e source target)).Adequate ↔ (treeOf levelText e).Adequate := by
  rw [treeOf, if_neg h]
  split <;> rw [adequate_formOf] <;> simp

@[simp] theorem adequate_inList {negated : Bool} {items : List Expr} :
    (treeOf levelText (.inList negated e items)).Adequate ↔
      ((treeOf levelText e).Adequate ∧ 3 ≤ (treeOf levelText e).level) ∧
        ∀ x ∈ items, (treeOf levelText x).Adequate := by
  rw [treeOf, adequate_suffixOf, ← adequate_argsOf]
  simp [Suffix.level]

@[simp] theorem adequate_cases {subject fallback : Option Expr} {branches : List (Expr × Expr)} :
    (treeOf levelText (.cases subject branches fallback)).Adequate ↔
      (∀ x ∈ subject, (treeOf levelText x).Adequate) ∧
      (∀ b ∈ branches, (treeOf levelText b.1).Adequate ∧ (treeOf levelText b.2).Adequate) ∧
      ∀ x ∈ fallback, (treeOf levelText x).Adequate := by
  rw [treeOf, adequate_formOf, ← @adequate_optionPieces levelText "" subject,
    ← adequate_branchPieces, ← @adequate_optionPieces levelText " ELSE " fallback]
  simp only [List.mem_cons, List.mem_append, reduceCtorEq, false_or, or_false, List.not_mem_nil]
  constructor
  · exact fun h => ⟨fun t ht => h t (.inl (.inl ht)), fun t ht => h t (.inl (.inr ht)),
      fun t ht => h t (.inr ht)⟩
  · rintro ⟨hs, hb, hf⟩ t ((ht | ht) | ht)
    · exact hs t ht
    · exact hb t ht
    · exact hf t ht

@[simp] theorem adequate_windowed {func : Expr} {partition order : List Expr}
    {frame : Option Frame} :
    (treeOf levelText (.windowed func partition order frame)).Adequate ↔
      ((treeOf levelText func).Adequate ∧ 7 ≤ (treeOf levelText func).level) ∧
        ∀ e ∈ partition ++ order, (treeOf levelText e).Adequate := by
  have hpartition : ∀ t, .arg t ∈ (if partition.isEmpty then [.text "1"]
      else commas (argsOf levelText partition)) ↔ .arg t ∈ commas (argsOf levelText partition) := by
    intro t
    cases partition <;> simp [argsOf, commas]
  have horder : ∀ t, .arg t ∈ (if order.isEmpty then []
      else .text " ORDER BY " :: commas (argsOf levelText order)) ↔
        .arg t ∈ commas (argsOf levelText order) := by
    intro t
    cases order <;> simp [argsOf, commas]
  rw [treeOf, adequate_suffixOf, List.forall_mem_append, ← adequate_argsOf, ← adequate_argsOf]
  refine and_congr_right fun _ => ?_
  simp only [List.mem_cons, List.mem_append, hpartition, horder, reduceCtorEq, false_or, or_false,
    List.not_mem_nil]
  exact ⟨fun h => ⟨fun t ht => h t (.inl ht), fun t ht => h t (.inr ht)⟩,
    fun h t ht => ht.elim (h.1 t) (h.2 t)⟩

@[simp] theorem level_call (name : String) (args : List Expr) :
    (treeOf levelText (.call name args)).level = 8 := by
  rw [treeOf, level_formOf]

@[simp] theorem level_callDistinct (name : String) (arg : Expr) :
    (treeOf levelText (.callDistinct name arg)).level = 8 := by
  rw [treeOf, level_formOf]

@[simp] theorem level_cases (subject fallback : Option Expr) (branches : List (Expr × Expr)) :
    (treeOf levelText (.cases subject branches fallback)).level = 8 := by
  rw [treeOf, level_formOf]

@[simp] theorem level_inList (negated : Bool) (e : Expr) (items : List Expr) :
    (treeOf levelText (.inList negated e items)).level = 3 := by
  rw [treeOf, level_suffixOf]
  rfl

@[simp] theorem level_windowed (func : Expr) (partition order : List Expr) (frame : Option Frame) :
    (treeOf levelText (.windowed func partition order frame)).level = 7 := by
  rw [treeOf, level_suffixOf]
  rfl

@[simp] theorem adequate_binary {op : BinaryOp} {l r : Expr} :
    (treeOf levelText (.binary op l r)).Adequate ↔
      ((treeOf levelText l).Adequate ∧ level op ≤ (treeOf levelText l).level) ∧
        ((treeOf levelText r).Adequate ∧ level op < (treeOf levelText r).level) := by
  rw [treeOf, Tree.Adequate]

@[simp] theorem level_binary (op : BinaryOp) (l r : Expr) :
    (treeOf levelText (.binary op l r)).level = level op := by
  rw [treeOf, Tree.level]

@[simp] theorem level_constant (v : Value) :
    (treeOf levelText (.constant v)).level = if isSigned v then 6 else 8 := by
  rw [treeOf, constantTree, isSigned]
  split
  · next rest h => simp [h, Tree.level]
  · next hne =>
    rw [if_neg, Tree.level]
    intro h
    obtain ⟨rest, hrest⟩ := List.head?_eq_some_iff.1 (eq_of_beq h)
    exact hne rest hrest

theorem level_convert {source target : DataType} (h : source ≠ target) :
    (treeOf levelText (.convert e source target)).level = 8 := by
  rw [treeOf, if_neg h]
  split <;> rw [level_formOf]

end Adequate

/-! ## Texts -/

/-- The text of a token. -/
def Token.text : Token → String
  | .word text | .suffix _ text | .suffixOpens _ text | .opens text | .sep text | .closes text =>
    text
  | .op o => o.symbol
  | .not => "NOT"
  | .between => "BETWEEN"
  | .left => "("
  | .comment => "--"

/-- The characters of a text that are not blank. -/
def dense (s : String) : List Char := s.toList.filter (!Text.isBlank ·)

/-- The characters of tokens that are not blank. -/
def spell (ts : List Token) : List Char := ts.flatMap (dense ·.text)

section Dense

@[simp] theorem dense_append (s t : String) : dense (s ++ t) = dense s ++ dense t := by
  rw [dense, String.toList_append, List.filter_append, dense, dense]

theorem dense_ofList (cs : List Char) : dense (String.ofList cs) = cs.filter (!Text.isBlank ·) := by
  rw [dense, String.toList_ofList]

/-- What is put between texts does not count if it is blank. -/
theorem dense_intercalate {sep : String} (h : dense sep = []) (l : List String) :
    dense (sep.intercalate l) = l.flatMap dense := by
  induction l with
  | nil => rw [String.intercalate_nil]; rfl
  | cons s rest ih =>
    cases rest with
    | nil => simp
    | cons t rest => rw [String.intercalate_cons_cons, dense_append, dense_append, h, ih]; simp

/-- Indenting lines changes only blanks. -/
theorem dense_indentLines (layout : Layout) (s : String) :
    dense (Text.indentLines layout.pad s) = dense s := by
  have hreflow := (Text.reflow_indentLines layout.eq_of_mem_pad s).filter_eq
  rwa [List.filter_cons_of_neg (by decide), List.filter_cons_of_neg (by decide)] at hreflow

/-- The text of a choice differs from its parts only in blanks. -/
theorem dense_casesText (layout : Layout) (subject : Option String)
    (branches : List (String × String)) (fallback : Option String) :
    dense (casesText layout subject branches fallback) =
      dense "CASE" ++ (subject.map dense).getD [] ++
        (branches.flatMap fun (c, r) => dense "WHEN" ++ dense c ++ (dense "THEN" ++ dense r)) ++
        (fallback.map fun e => dense "ELSE" ++ dense e).getD [] ++ dense "END" := by
  have hline : dense "\nEND" = dense "END" := by decide
  have hblank : dense " END" = dense "END" := by decide
  have hnewline : dense "\n" = [] := by decide
  have hspace : dense " " = [] := by decide
  have hcase : dense "CASE " = dense "CASE" := by decide
  have hwhen : dense "WHEN " = dense "WHEN" := by decide
  have hthen : dense " THEN " = dense "THEN" := by decide
  have helse : dense "ELSE " = dense "ELSE" := by decide
  unfold casesText
  cases layout.beautify with
  | true =>
    rw [if_pos rfl]
    simp only [dense_append, hnewline, dense_intercalate hnewline, List.flatMap_map,
      dense_indentLines layout, List.flatMap_append, hline]
    cases subject <;> cases fallback <;> simp [hcase, hwhen, hthen, helse]
  | false =>
    rw [if_neg (by decide)]
    simp only [dense_append, hspace, dense_intercalate hspace, List.flatMap_append, hblank]
    cases subject <;> cases fallback <;>
      simp [hcase, hwhen, hthen, helse, List.flatMap_map]

theorem dense_windowText (partition order : List String) (frame : Option Frame) :
    dense (windowText partition order frame) =
      dense " OVER (PARTITION BY " ++
        (if partition.isEmpty then dense "1" else dense (", ".intercalate partition)) ++
        (if order.isEmpty then [] else dense " ORDER BY " ++ dense (", ".intercalate order)) ++
        dense ((frame.map frameText).getD "") ++ dense ")" := by
  have hspace : dense " " = [] := by decide
  have hover : dense " OVER (PARTITION BY " = dense "OVER (" ++ dense "PARTITION BY " := by decide
  have horder : dense " ORDER BY " = dense "ORDER BY " := by decide
  have hone : dense "PARTITION BY 1" = dense "PARTITION BY " ++ dense "1" := by decide
  have hempty : dense "" = [] := by decide
  unfold windowText
  simp only [dense_append, dense_intercalate hspace, hover, horder]
  cases partition.isEmpty <;> cases order.isEmpty <;> cases frame <;> simp [hone, hempty]

end Dense

section Spelling

@[simp] theorem spell_nil : spell [] = [] := rfl

@[simp] theorem spell_cons (t : Token) (ts : List Token) :
    spell (t :: ts) = dense t.text ++ spell ts := rfl

@[simp] theorem spell_append (ts us : List Token) : spell (ts ++ us) = spell ts ++ spell us := by
  rw [spell, List.flatMap_append, spell, spell]

theorem spell_signed (ts : List Token) : spell (signed ts) = dense "-" ++ spell ts := by
  rcases signed_cases ts with ⟨rest, rfl, h⟩ | ⟨_, h⟩
  · have hsigns : dense "--" = dense "-" ++ dense "-" := by decide
    rw [h, spell_cons, spell_cons]
    simp [Token.text, hsigns, BinaryOp.symbol]
  · rw [h, spell_cons]
    simp [Token.text, BinaryOp.symbol]

def Piece.spelled : Piece → List Char
  | .text s => dense s
  | .arg t => spell t.tokens

def spelled (pieces : List Piece) : List Char := pieces.flatMap Piece.spelled

@[simp] theorem spelled_nil : spelled [] = [] := rfl

@[simp] theorem spelled_cons (p : Piece) (ps : List Piece) :
    spelled (p :: ps) = p.spelled ++ spelled ps := rfl

@[simp] theorem spelled_append (ps qs : List Piece) :
    spelled (ps ++ qs) = spelled ps ++ spelled qs := by
  rw [spelled, List.flatMap_append, spelled, spelled]

theorem spell_ofList (first : Tree × String) (rest : List (Tree × String)) :
    spell (Args.ofList first rest).tokens =
      (first :: rest).flatMap fun a => spell a.1.tokens ++ dense a.2 := by
  induction rest generalizing first with
  | nil => simp [Args.ofList, Args.tokens, Token.text]
  | cons next rest ih => simp [Args.ofList, Args.tokens, Token.text, ih next]

theorem spelled_split (pieces : List Piece) :
    dense (split pieces).1 ++ ((split pieces).2.flatMap fun a => spell a.1.tokens ++ dense a.2) =
      spelled pieces := by
  induction pieces with
  | nil => rfl
  | cons piece rest ih =>
    cases piece with
    | text s => simp [split, Piece.spelled, ← ih]
    | arg t =>
      have hempty : dense "" = [] := by decide
      simp [split, Piece.spelled, ← ih, hempty]

theorem spell_formOf (pieces : List Piece) : spell (formOf pieces).tokens = spelled pieces := by
  have h := spelled_split pieces
  unfold formOf
  split
  · next text hsplit =>
    rw [hsplit] at h
    simpa [Tree.tokens, Token.text] using h
  · next text first rest hsplit =>
    rw [hsplit] at h
    rw [Tree.tokens, spell_cons, spell_ofList, ← h]
    rfl

theorem spell_suffixOf (kind : Suffix) (x : Tree) (pieces : List Piece) :
    spell (suffixOf kind x pieces).tokens = spell x.tokens ++ spelled pieces := by
  have h := spelled_split pieces
  unfold suffixOf
  split
  · next text hsplit =>
    rw [hsplit] at h
    simpa [Tree.tokens, Token.text] using h
  · next text first rest hsplit =>
    rw [hsplit] at h
    rw [Tree.tokens, spell_append, spell_cons, spell_ofList, ← h]
    rfl

theorem spelled_argOf (levelText : LevelId → String) (e : Expr) :
    spelled (argOf levelText e) = spell (treeOf levelText e).tokens := by
  cases e with
  | descending e => rw [treeOf, spell_formOf, argOf]
  | _ =>
    rw [argOf, spelled_cons, spelled_nil, List.append_nil, Piece.spelled]
    simp

theorem spell_constantTree (v : Value) : spell (constantTree v).tokens = dense v.sqlText := by
  unfold constantTree
  split
  · next rest h =>
    have hsign : Text.isBlank '-' = false := by decide
    rw [Tree.tokens, spell_signed, dense, dense, h]
    simp [Tree.tokens, Token.text, dense_ofList, hsign]
  · simp [Tree.tokens, Token.text]

end Spelling

section Texts

variable (layout : Layout) (levelText : LevelId → String)

mutual

/-- Up to blanks, the text of an expression spells the tokens of its tree. -/
theorem dense_text (e : Expr) :
    dense (e.text layout levelText) = spell (treeOf levelText e).tokens := by
  cases e with
  | column label field => simp [Expr.text, treeOf, Tree.tokens, Token.text]
  | constant value => rw [Expr.text, treeOf, spell_constantTree]
  | group e => simp [Expr.text, treeOf, Tree.tokens, Token.text, dense_text e]
  | binary op l r =>
    have hspace : dense " " = [] := by decide
    simp [Expr.text, treeOf, Tree.tokens, Token.text, dense_text l, dense_text r, hspace]
  | negate e => rw [Expr.text, treeOf, Tree.tokens, spell_signed, dense_append, dense_text e]
  | not e =>
    have hnot : dense "NOT " = dense "NOT" := by decide
    simp [Expr.text, treeOf, Tree.tokens, Token.text, dense_text e, hnot]
  | isNull negated e =>
    cases negated <;> simp [Expr.text, treeOf, Tree.tokens, Token.text, dense_text e]
  | inList negated e items =>
    simp [Expr.text, treeOf, spell_suffixOf, Piece.spelled, dense_text e, spelled_commas items]
  | inLevel negated e level => simp [Expr.text, treeOf, Tree.tokens, Token.text, dense_text e]
  | between e low high =>
    have hbetween : dense " BETWEEN " = dense "BETWEEN" := by decide
    have hand : dense " AND " = dense "AND" := by decide
    simp [Expr.text, treeOf, Tree.tokens, Token.text, dense_text e, dense_text low, dense_text high,
      hbetween, hand, BinaryOp.symbol]
  | call name args => simp [Expr.text, treeOf, spell_formOf, Piece.spelled, spelled_commas args]
  | callDistinct name arg => simp [Expr.text, treeOf, spell_formOf, Piece.spelled, dense_text arg]
  | convert e source target =>
    rw [Expr.text, treeOf, convertText]
    split
    · exact dense_text e
    · split <;> simp [spell_formOf, Piece.spelled, dense_text e]
  | windowed func partition order frame =>
    rw [Expr.text, treeOf, spell_suffixOf, dense_append, dense_append, dense_text func,
      dense_windowText]
    have hspace : dense " " = [] := by decide
    have hpartition := spelled_commas partition
    have horder := spelled_commas order
    simp only [Expr.texts_eq_map, List.isEmpty_map] at hpartition horder ⊢
    cases partition.isEmpty <;> cases order.isEmpty <;>
      simp [Piece.spelled, hspace, hpartition, horder]
  | cases subject branches fallback =>
    have hcase : dense "CASE " = dense "CASE" := by decide
    have helse : dense " ELSE " = dense "ELSE" := by decide
    have hend : dense " END" = dense "END" := by decide
    have hempty : dense "" = [] := by decide
    rw [Expr.text, treeOf, spell_formOf, dense_casesText]
    simp [Piece.spelled, spelled_option, spelled_branches branches, hcase, helse, hend, hempty]
  | descending e => simp [Expr.text, treeOf, spell_formOf, Piece.spelled, dense_text e]

theorem spelled_option (before : String) (e : Option Expr) :
    spelled (optionPieces levelText before e) =
      ((Expr.text? layout levelText e).map fun s => dense before ++ dense s).getD [] := by
  cases e with
  | none => rfl
  | some e => simp [optionPieces, Expr.text?, Piece.spelled, dense_text e]

theorem spelled_branches (bs : List (Expr × Expr)) :
    spelled (branchPieces levelText bs) = (Expr.branchTexts layout levelText bs).flatMap
      fun (c, r) => dense "WHEN" ++ dense c ++ (dense "THEN" ++ dense r) := by
  have hwhen : dense " WHEN " = dense "WHEN" := by decide
  have hthen : dense " THEN " = dense "THEN" := by decide
  match bs with
  | [] => rfl
  | (c, r) :: rest =>
    simp [branchPieces, Expr.branchTexts, Piece.spelled, dense_text c, dense_text r, hwhen, hthen,
      spelled_branches rest]

theorem spelled_commas (es : List Expr) :
    spelled (commas (argsOf levelText es)) =
      dense (", ".intercalate (Expr.texts layout levelText es)) := by
  cases es with
  | nil => rfl
  | cons e rest =>
    cases rest with
    | nil =>
      rw [argsOf_cons, Expr.texts, argsOf, Expr.texts, commas, spelled_argOf,
        String.intercalate_singleton, dense_text e]
    | cons e' rest =>
      have hrest := spelled_commas (e' :: rest)
      rw [argsOf_cons] at hrest
      rw [argsOf_cons, argsOf_cons, Expr.texts, Expr.texts, commas, spelled_append, spelled_cons,
        hrest, spelled_argOf, Expr.texts, String.intercalate_cons_cons, dense_append, dense_append,
        dense_text e, List.append_assoc]
      · rfl
      · simp

end

end Texts

end PlanSql.Reading

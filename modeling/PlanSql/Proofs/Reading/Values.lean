import PlanSql.Proofs.Reading.Written
import PlanSql.Proofs.Values.Answers

/-!
# How values are written

Operands of operators are put in parentheses by their kind. Inversions are not, and membership
tests, replacements of null, buckets and `log1p` take their operand as it is. So a value is read
back as what it is exactly if none of these meets an operand that is written too loosely.
-/

namespace PlanSql.Reading

open PlanSql.Sql PlanSql.Compile

/-! ## Levels of values -/

/-- Whether a value is a truth value. -/
def isTruth (g : Graph) (id : NodeId) : Bool := (g.node? id).any fun n => n.dtype? == some .boolean

/-- Whether an operator is written between its operands: text is joined by a call, and powers are
calls. -/
def isInfix (n : Node) (op : BinaryOp) : Bool :=
  !(op == .power) && !(op == .add && n.dtype? == some .string)

/-- The level at which a test, a choice or buckets are written. -/
def elementLevel : ElementOp → Nat
  | .isNull _ | .notNull _ | .isIn .. | .notIn .. => 3
  | .between _ left right inclusive => if left.isSome && right.isSome && !inclusive then 1 else 3
  | .fillNull .. | .ifElse .. | .switch .. | .cut .. => 8

def textLevel : TextOp → Nat
  | .contains .. | .endsWith .. | .startsWith .. => 3
  | .find .. => 4
  | _ => 8

def reductionLevel (func : Reduction) (truth : Bool) : Nat :=
  match func with
  | .any | .all => 3
  | .max | .min => if truth then 3 else 8
  | _ => 8

/-- How tightly the text of a value binds; 8 is a word, a call or parentheses. -/
def nodeLevel (g : Graph) (n : Node) : Nat :=
  match n.kind with
  | .element op => elementLevel op
  | .binary op _ _ => if isInfix n op then level op else 8
  | .unary .abs _ => 8
  | .unary _ x => if isTruth g x then 2 else 6
  | .math func _ => if func = .plain .expm1 then 4 else 8
  | .text _ op => textLevel op
  | .reduction func x _ => reductionLevel func (isTruth g x)
  | .window _ => 7
  | .literal v => if isSigned v then 6 else 8
  | _ => 8

def writtenLevel (g : Graph) (id : NodeId) : Nat := (g.node? id).elim 8 (nodeLevel g)

/-- Whether a value is written as an inversion. -/
def isInversion (g : Graph) (id : NodeId) : Bool := writtenLevel g id == 2

/-- Whether a node meets an operand that is written too loosely: an inversion under a comparison or
a test, a sign under a sign, something looser than a test under a membership test or a replacement
of null, something that is not tighter than a comparison in buckets, and a sum under `log1p`. -/
def misread (g : Graph) (n : Node) : Bool :=
  match n.kind with
  | .element (.isNull x) | .element (.notNull x) => isInversion g x
  | .element (.isIn x _) | .element (.notIn x _) | .element (.fillNull x _) => writtenLevel g x < 3
  | .element (.between x left right _) =>
    isInversion g x || left.any (isInversion g) || right.any (isInversion g)
  | .element (.cut x _) => writtenLevel g x < 4
  | .binary op l r =>
    isInfix n op && decide (3 ≤ level op) && (isInversion g l || isInversion g r)
  | .unary .negate x => writtenLevel g x == 6
  | .math (.plain .log1p) x => writtenLevel g x < 5
  | _ => false

section Operands

variable {g : Graph} {p : Parts} {x : NodeId} {e : Expr} (levelText : LevelId → String) {n : Node}
variable {es : List Expr}

theorem writtenLevel_eq (hn : g.node? x = some n) : writtenLevel g x = nodeLevel g n := by
  rw [writtenLevel, hn, Option.elim_some]

theorem isTruth_eq (hn : g.node? x = some n) :
    isTruth g x = decide (n.dtype? = some .boolean) := by
  rw [isTruth, hn, Option.any_some]
  exact Bool.eq_iff_iff.2 (by simp)

/-- What is put in parentheses is neither an inversion nor a sign, and what is not is either an
inversion or at least as tight as a sign. -/
theorem needsGroup_cases {b : Bool} (hn : g.node? x = some n) (h : needsGroup g n.kind = .ok b) :
    if b then writtenLevel g x ≠ 2 ∧ writtenLevel g x ≠ 6
    else writtenLevel g x = 2 ∨ 6 ≤ writtenLevel g x := by
  rw [writtenLevel_eq hn]
  unfold nodeLevel
  cases hk : n.kind with
  | element op =>
    rw [hk] at h
    cases op with
    | between _ l r inclusive =>
      cases h
      cases hc : l.isSome && r.isSome && !inclusive <;> simp [elementLevel, hc]
    | _ => cases h; simp [elementLevel]
  | binary op l r =>
    rw [hk] at h
    cases h
    cases hc : isInfix n op <;> cases op <;> simp [hc, level]
  | math func x =>
    rw [hk] at h
    cases h
    by_cases hf : func = .plain .expm1 <;> simp [hf]
  | text x op =>
    rw [hk] at h
    cases op <;> cases h <;> simp [textLevel]
  | reduction func x ddof =>
    rw [hk] at h
    cases func with
    | max | min =>
      obtain ⟨m, hm, hb⟩ := bind_ok h
      cases hb
      have hm' := Graph.node_eq_ok_iff.1 hm
      by_cases ht : m.dtype? = some .boolean <;> simp [isTruth_eq hm', ht, reductionLevel]
    | _ => cases h; simp [reductionLevel]
  | unary op x =>
    rw [hk] at h
    cases h
    cases hc : isTruth g x <;> cases op <;> simp [hc]
  | literal v =>
    rw [hk] at h
    cases h
    cases hc : isSigned v <;> simp [hc]
  | _ =>
    rw [hk] at h
    cases h
    simp

/-- The expression of an operand is adequate. -/
def Fine (p : Parts) (x : NodeId) : Prop :=
  ∀ e, p.fragment x = .ok e → (treeOf levelText e).Adequate

theorem fine_iff (h : p.fragment x = .ok e) :
    Fine levelText p x ↔ (treeOf levelText e).Adequate := by
  constructor
  · exact fun hf => hf e h
  · intro he e' h'
    rw [← Except.ok.inj (h.symm.trans h')]
    exact he

/-- The expression of an operand in its place: it is an inversion or a sign exactly if the operand
is written as one. -/
structure Placed (g : Graph) (p : Parts) (x : NodeId) (e : Expr) : Prop where
  found : ∃ e', p.fragment x = .ok e'
  adequate : (treeOf levelText e).Adequate ↔ Fine levelText p x
  inversion : (treeOf levelText e).level = 2 ↔ isInversion g x = true
  sign : (treeOf levelText e).level = 6 ↔ writtenLevel g x = 6
  tight : (treeOf levelText e).level = 2 ∨ 6 ≤ (treeOf levelText e).level

theorem operand_written (h : operand g p x = .ok e)
    (hlevel : ∀ e', p.fragment x = .ok e' → (treeOf levelText e').level = writtenLevel g x) :
    Placed levelText g p x e := by
  obtain ⟨e', he', h⟩ := bind_ok h
  obtain ⟨n, hn, h⟩ := bind_ok h
  obtain ⟨b, hb, h⟩ := bind_ok h
  have hcases := needsGroup_cases (Graph.node_eq_ok_iff.1 hn) hb
  have hl := hlevel e' he'
  cases b with
  | true =>
    cases h
    rw [if_pos rfl] at hcases
    refine ⟨⟨e', he'⟩, (fine_iff levelText he').symm, ?_, ?_, .inr (by simp [treeOf, Tree.level])⟩
    · simp [treeOf, Tree.level, isInversion, hcases.1]
    · simp [treeOf, Tree.level, hcases.2]
  | false =>
    obtain rfl := Except.ok.inj h
    rw [if_neg (by decide)] at hcases
    refine ⟨⟨e', he'⟩, (fine_iff levelText he').symm, ?_, by rw [hl], by rwa [hl]⟩
    simp [isInversion, hl]

/-- An operand may stand where only an inversion would be too loose. -/
theorem Placed.le_level_iff (h : Placed levelText g p x e) {n : Nat} (hn : 3 ≤ n) (hn' : n ≤ 6) :
    n ≤ (treeOf levelText e).level ↔ isInversion g x = false := by
  rw [← Bool.not_eq_true, ← h.inversion]
  have := h.tight
  omega

theorem fragments_written {ids : List NodeId} (h : p.fragments ids = .ok es) :
    (∀ x ∈ ids, ∃ e, p.fragment x = .ok e) ∧
      ((∀ e ∈ es, (treeOf levelText e).Adequate) ↔ ∀ x ∈ ids, Fine levelText p x) := by
  induction ids generalizing es with
  | nil =>
    cases h
    simp
  | cons id rest ih =>
    obtain ⟨e, he, h⟩ := bind_ok h
    obtain ⟨es', hes, h⟩ := bind_ok h
    cases h
    obtain ⟨hfound, hfine⟩ := ih hes
    rw [List.forall_mem_cons, List.forall_mem_cons, List.forall_mem_cons, hfine,
      fine_iff levelText he]
    exact ⟨⟨⟨e, he⟩, hfound⟩, Iff.rfl⟩

theorem sortKeys_written {keys : List SortKey} (h : p.sortKeys keys = .ok es) :
    (∀ k ∈ keys, ∃ e, p.fragment k.expr = .ok e) ∧
      ((∀ e ∈ es, (treeOf levelText e).Adequate) ↔ ∀ k ∈ keys, Fine levelText p k.expr) := by
  induction keys generalizing es with
  | nil =>
    cases h
    simp
  | cons k rest ih =>
    obtain ⟨e, he, h⟩ := bind_ok h
    obtain ⟨es', hes, h⟩ := bind_ok h
    cases h
    obtain ⟨hfound, hfine⟩ := ih hes
    have hkey : (treeOf levelText (if k.ascending then e else .descending e)).Adequate ↔
        (treeOf levelText e).Adequate := by
      cases k.ascending
      · rw [if_neg (by decide), treeOf, adequate_formOf]
        simp
      · rw [if_pos rfl]
    rw [List.forall_mem_cons, List.forall_mem_cons, List.forall_mem_cons, hfine, hkey,
      fine_iff levelText he]
    exact ⟨⟨⟨e, he⟩, hfound⟩, Iff.rfl⟩

theorem fragment?_written {x : Option NodeId} {e : Option Expr} (h : p.fragment? x = .ok e) :
    (∀ y ∈ x, ∃ e, p.fragment y = .ok e) ∧
      ((∀ e' ∈ e, (treeOf levelText e').Adequate) ↔ ∀ y ∈ x, Fine levelText p y) := by
  cases x with
  | none =>
    cases h
    simp
  | some y =>
    obtain ⟨e', he, h⟩ := bind_ok h
    cases h
    simp [fine_iff levelText he, he]

theorem branchesOf_written {conditions results : List NodeId} {bs : List (Expr × Expr)}
    (h : branchesOf p conditions results = .ok bs) (hlen : conditions.length = results.length) :
    (∀ x ∈ conditions ++ results, ∃ e, p.fragment x = .ok e) ∧
      ((∀ b ∈ bs, (treeOf levelText b.1).Adequate ∧ (treeOf levelText b.2).Adequate) ↔
        ∀ x ∈ conditions ++ results, Fine levelText p x) := by
  induction conditions generalizing results bs with
  | nil =>
    obtain rfl := List.length_eq_zero_iff.1 hlen.symm
    cases h
    simp
  | cons c conditions ih =>
    cases results with
    | nil => cases hlen
    | cons r results =>
      obtain ⟨ce, hc, h⟩ := bind_ok h
      obtain ⟨re, hr, h⟩ := bind_ok h
      obtain ⟨bs', hbs, h⟩ := bind_ok h
      cases h
      obtain ⟨hfound, hfine⟩ := ih hbs (Nat.succ.inj hlen)
      simp only [List.forall_mem_append, List.forall_mem_cons] at hfound hfine ⊢
      rw [hfine, fine_iff levelText hc, fine_iff levelText hr]
      refine ⟨⟨⟨⟨ce, hc⟩, hfound.1⟩, ⟨re, hr⟩, hfound.2⟩, ?_⟩
      constructor
      · rintro ⟨⟨hc', hr'⟩, hcs, hrs⟩
        exact ⟨⟨hc', hcs⟩, hr', hrs⟩
      · rintro ⟨⟨hc', hcs⟩, hr', hrs⟩
        exact ⟨⟨hc', hr'⟩, hcs, hrs⟩

end Operands

/-! ## Functions of one operand -/

section Functions

variable (levelText : LevelId → String) {x e : Expr}

theorem isSigned_zero : isSigned (.integer 0) = false := by decide

theorem isSigned_one : isSigned (.integer 1) = false := by decide

/-- The operand of a function stands between parentheses, but in `log1p` it stands after a sum. -/
theorem mathExpr_written {func : MathFunc} (h : mathExpr func x = .ok e) :
    (treeOf levelText e).level = (if func = .plain .expm1 then 4 else 8) ∧
      ((treeOf levelText e).Adequate ↔
        (func = .plain .log1p → 5 ≤ (treeOf levelText x).level) ∧
        (treeOf levelText x).Adequate) := by
  cases func with
  | plain func =>
    cases func <;> cases h <;> simp [whole, level, isSigned_one, and_comm]
    all_goals omega
  | log base => cases base <;> cases h <;> simp
  | trunc decimals => cases decimals <;> cases h <;> simp [whole]

theorem textExpr_written {op : TextOp} (h : textExpr op x = .ok e) :
    (treeOf levelText e).level = textLevel op ∧
      ((treeOf levelText e).Adequate ↔ (treeOf levelText x).Adequate) := by
  have hlimit : ∀ {limit}, textLimit op limit ≠ .ok e := fun h => by cases h
  have hstrip : ∀ {name : String} {set : Option String}, stripExpr op name set x = .ok e →
      (treeOf levelText e).level = 8 ∧
        ((treeOf levelText e).Adequate ↔ (treeOf levelText x).Adequate) := by
    intro name set h
    unfold stripExpr at h
    split at h
    · cases h
      simp
    · cases h
      simp
    · exact absurd h hlimit
  cases op with
  | stripLeft set | stripRight set | strip set => exact hstrip h
  | contains pattern caseful regex flags =>
    rw [textExpr] at h
    split at h
    · exact absurd h hlimit
    · cases h
      simp [textLevel, level, whole, quoted, isSigned_zero]
  | count pattern flags =>
    rw [textExpr] at h
    split at h
    · exact absurd h hlimit
    · cases h
      simp [textLevel, quoted]
  | extract pattern flags group | replace pattern replacement n caseful flags regex =>
    rw [textExpr] at h
    split at h
    · exact absurd h hlimit
    · cases h
      simp [textLevel, quoted, whole]
  | find sub start stop =>
    rw [textExpr] at h
    split at h
    · exact absurd h hlimit
    · dsimp only at h
      split at h
      · obtain ⟨position, _, h⟩ := bind_ok h
        cases h
        simp [textLevel, level, quoted, whole, isSigned_one]
      · cases h
        simp [textLevel, level, quoted, whole, isSigned_one]
  | get index =>
    obtain ⟨position, _, h⟩ := bind_ok h
    cases h
    simp [textLevel, whole]
  | substring start length =>
    obtain ⟨position, _, h⟩ := bind_ok h
    cases h
    cases length <;> simp [textLevel, whole]
  | _ =>
    cases h
    simp [textLevel, level, quoted, whole, isSigned_one]

theorem datetimeExpr_written {part : DatetimePart} (h : datetimeExpr part x = .ok e) :
    (treeOf levelText e).level = 8 ∧
      ((treeOf levelText e).Adequate ↔ (treeOf levelText x).Adequate) := by
  cases part <;> cases h <;> simp [quoted]

theorem reductionOf_written {func : Reduction} {ddof : Int64} {dtype : DataType}
    (h : reductionOf func ddof dtype x = .ok e) :
    (treeOf levelText e).level = reductionLevel func (dtype == .boolean) ∧
      ((treeOf levelText e).Adequate ↔ (treeOf levelText x).Adequate) := by
  have hnumber : (treeOf levelText (asNumber x)).Adequate ↔ (treeOf levelText x).Adequate := by
    simp [asNumber, whole]
  cases func with
  | sum => cases dtype <;> cases h <;> simp [reductionLevel, quoted, hnumber]
  | max | min =>
    cases h
    by_cases hd : dtype = .boolean
    · simp [reductionLevel, hd, hnumber, level, whole, isSigned_one]
    · simp [reductionLevel, hd]
  | any | all =>
    rw [reductionOf] at h
    split at h
    · cases h
      simp [reductionLevel, hnumber, level, whole, isSigned_one]
    · cases h
  | var | std =>
    rw [reductionOf] at h
    split at h
    · cases h
      simp [reductionLevel]
    · cases h
  | _ =>
    cases h
    simp [reductionLevel]

end Functions

/-! ## Operators, tests and choices -/

/-- An expression is written at level `n`. It is made of the operands `xs`, and adequate if they
are, unless something is misread. -/
structure Written (levelText : LevelId → String) (p : Parts) (xs : List NodeId)
    (bad : Bool) (n : Nat)
    (e : Expr) : Prop where
  level : (treeOf levelText e).level = n
  found : ∀ x ∈ xs, ∃ e', p.fragment x = .ok e'
  adequate : (treeOf levelText e).Adequate ↔ bad = false ∧ ∀ x ∈ xs, Fine levelText p x

section Operators

variable {levelText : LevelId → String} {g : Graph} {p : Parts} {id x : NodeId} {e : Expr}
  (hlevel : ∀ x e, p.fragment x = .ok e → (treeOf levelText e).level = writtenLevel g x)
variable {ex : Expr} {n : Node} {op : BinaryOp} {dtype : DataType} {c : Cut}

/-- An expression of one operand. -/
theorem Written.one {bad : Bool} {n : Nat} (hx : p.fragment x = .ok ex)
    (hl : (treeOf levelText e).level = n)
    (ha : (treeOf levelText e).Adequate ↔ bad = false ∧ (treeOf levelText ex).Adequate) :
    Written levelText p [x] bad n e := by
  refine ⟨hl, by simp [hx], ?_⟩
  rw [ha, List.forall_mem_singleton, fine_iff levelText hx]

theorem Written.call {ids : List NodeId} {es : List Expr} (h : p.fragments ids = .ok es)
    (name : String) : Written levelText p ids false 8 (.call name es) := by
  obtain ⟨hfound, hfine⟩ := fragments_written levelText h
  exact ⟨level_call levelText name es, hfound, by simp [hfine]⟩

theorem valueType_eq_some (hn : g.node? id = some n) (h : valueType g id = .ok dtype) :
    n.dtype? = some dtype := by
  unfold valueType at h
  obtain ⟨m, hm, h⟩ := bind_ok h
  cases (Graph.node_eq_ok_iff.1 hm).symm.trans hn
  split at h
  · next d hd =>
    cases h
    exact hd
  · cases h

theorem isTruth_of_valueType (h : valueType g id = .ok dtype) :
    isTruth g id = decide (dtype = .boolean) := by
  obtain ⟨m, hm, _⟩ := bind_ok h
  have hn := Graph.node_eq_ok_iff.1 hm
  rw [isTruth_eq hn, valueType_eq_some hn h]
  simp

include hlevel

theorem binaryExpr_written {lhs rhs : NodeId} (hn : g.node? id = some n)
    (h : binaryExpr g p id op lhs rhs = .ok e) :
    Written levelText p [lhs, rhs]
      (isInfix n op && decide (3 ≤ level op) && (isInversion g lhs || isInversion g rhs))
      (if isInfix n op then level op else 8) e := by
  obtain ⟨dtype, hd, h⟩ := bind_ok h
  have hdtype := valueType_eq_some hn hd
  dsimp only at h
  split at h
  · next hconcat =>
    have hplain : isInfix n op = false := by simp [isInfix, hconcat.1, hconcat.2, hdtype]
    obtain ⟨es, hes, h⟩ := bind_ok h
    cases h
    simpa [hplain] using Written.call hes "CONCAT"
  · next hconcat =>
    split at h
    · next hpower =>
      have hplain : isInfix n op = false := by simp [isInfix, hpower]
      obtain ⟨es, hes, h⟩ := bind_ok h
      cases h
      have hcall : Written levelText p [lhs, rhs] false 8 (.call "POW" es) := .call hes "POW"
      rw [hplain]
      by_cases hf : dtype.isFloat = true
      · rw [if_pos hf]
        simpa using hcall
      · rw [if_neg hf, converted]
        have hne : DataType.float64 ≠ dtype := by
          rintro rfl
          exact hf rfl
        rw [if_neg hne]
        refine ⟨level_convert levelText hne, hcall.found, ?_⟩
        rw [adequate_convert levelText hne, hcall.adequate]
        simp
    · next hpower =>
      have hplain : isInfix n op = true := by
        simp only [isInfix, hdtype, Option.some_beq_some, Bool.and_eq_true, Bool.not_eq_true',
          beq_eq_false_iff_ne, ne_eq, Bool.and_eq_false_imp, beq_iff_eq]
        exact ⟨hpower, fun ha hs => hconcat ⟨ha, hs⟩⟩
      obtain ⟨l, hl, h⟩ := bind_ok h
      obtain ⟨r, hr, h⟩ := bind_ok h
      cases h
      have hwl := operand_written levelText hl (hlevel lhs)
      have hwr := operand_written levelText hr (hlevel rhs)
      refine ⟨by simp [hplain], by simp [hwl.found, hwr.found], ?_⟩
      rw [adequate_binary, hwl.adequate, hwr.adequate, hplain]
      have hplace : (level op ≤ (treeOf levelText l).level ∧
        level op < (treeOf levelText r).level) ↔
          (decide (3 ≤ level op) && (isInversion g lhs || isInversion g rhs)) = false := by
        by_cases hle : 3 ≤ level op
        · have h5 : level op ≤ 5 := by cases op <;> decide
          have hl' := hwl.le_level_iff levelText hle (by omega)
          have hr' := hwr.le_level_iff levelText (n := level op + 1) (by omega) (by omega)
          rw [hl', Nat.lt_iff_add_one_le, hr']
          simp [hle]
        · have h1 : level op ≤ 1 := by cases op <;> first | decide | exact absurd (by decide) hle
          have := hwl.tight
          have := hwr.tight
          simp [hle]
          omega
      simp only [Bool.true_and, List.forall_mem_cons, List.not_mem_nil, false_implies, implies_true,
        and_true, ← hplace]
      exact ⟨fun ⟨⟨a, b⟩, c, d⟩ => ⟨⟨b, d⟩, a, c⟩, fun ⟨⟨b, d⟩, a, c⟩ => ⟨⟨a, b⟩, c, d⟩⟩

/-- A sign is not put before a truth value, and no sign makes one. -/
theorem unaryExpr_written {op : UnaryOp} (hinversion : isInversion g x = true → isTruth g x = true)
    (hsign : writtenLevel g x = 6 → isTruth g x = false) (h : unaryExpr g p op x = .ok e) :
    Written levelText p [x] (op == .negate && writtenLevel g x == 6)
      (if op = .abs then 8 else if isTruth g x then 2 else 6) e := by
  obtain ⟨dtype, hd, h⟩ := bind_ok h
  have htruth := isTruth_of_valueType hd
  -- an inversion stands before any operand
  have hnot : isTruth g x = true → ∀ {e' : Expr}, operand g p x = .ok e' →
      Written levelText p [x] (op == .negate && writtenLevel g x == 6) 2 (.not e') := by
    intro ht e' he'
    have hw := operand_written levelText he' (hlevel x)
    refine ⟨rfl, by simp [hw.found], ?_⟩
    have hbad : writtenLevel g x ≠ 6 := fun h6 => by simp [hsign h6] at ht
    have htight := hw.tight
    rw [treeOf, Tree.Adequate, hw.adequate]
    simp [hbad]
    omega
  cases op with
  | abs =>
    obtain ⟨es, hes, h⟩ := bind_ok h
    cases h
    exact .call hes "ABS"
  | negate =>
    obtain ⟨e', he', h⟩ := bind_ok h
    cases h
    by_cases hb : dtype = .boolean
    · rw [if_pos hb, if_neg (by decide), if_pos (by simp [htruth, hb])]
      exact hnot (by simp [htruth, hb]) he'
    · have hfalse : isTruth g x = false := by simp [htruth, hb]
      have hw := operand_written levelText he' (hlevel x)
      rw [if_neg hb, if_neg (by decide), hfalse, if_neg (by decide)]
      refine ⟨rfl, by simp [hw.found], ?_⟩
      have hplace : 6 < (treeOf levelText e').level ↔ (writtenLevel g x == 6) = false := by
        have hne : (treeOf levelText e').level ≠ 2 := fun h2 => by
          simp [hinversion (hw.inversion.1 h2)] at hfalse
        rw [beq_eq_false_iff_ne, ne_eq, ← hw.sign]
        have := hw.tight
        omega
      rw [treeOf, Tree.Adequate, hw.adequate, hplace]
      simp [and_comm]
  | invert =>
    dsimp only at h
    split at h
    · next hb =>
      obtain ⟨e', he', h⟩ := bind_ok h
      cases h
      rw [if_neg (by decide), if_pos (by simp [htruth, hb])]
      exact hnot (by simp [htruth, hb]) he'
    · cases h

theorem boundExpr_written {b : NodeId} {e? : Option Expr} (hop : level op = 3)
    (hx : Placed levelText g p x ex) (h : boundExpr g p op ex (some b) = .ok e?) :
    ∃ e, e? = some e ∧ Written levelText p [x, b] (isInversion g x || isInversion g b) 3 e := by
  obtain ⟨eb, hb, h⟩ := bind_ok h
  cases h
  have hwb := operand_written levelText hb (hlevel b)
  refine ⟨_, rfl, by simp [hop], by simp [hx.found, hwb.found], ?_⟩
  have hx' := hx.le_level_iff levelText (n := 3) (by omega) (by omega)
  have hb' := hwb.le_level_iff levelText (n := 4) (by omega) (by omega)
  rw [adequate_binary, hop, hx.adequate, hwb.adequate, hx', Nat.lt_iff_add_one_le, hb']
  simp only [Bool.or_eq_false_iff, List.forall_mem_cons, List.not_mem_nil, false_implies,
    implies_true, and_true]
  exact ⟨fun ⟨⟨a, b⟩, c, d⟩ => ⟨⟨b, d⟩, a, c⟩, fun ⟨⟨b, d⟩, a, c⟩ => ⟨⟨a, b⟩, c, d⟩⟩

theorem betweenExpr_written {left right : Option NodeId} {inclusive : Bool}
    (h : betweenExpr g p x left right inclusive = .ok e) :
    Written levelText p (x :: (left.toList ++ right.toList))
      (isInversion g x || left.any (isInversion g) || right.any (isInversion g))
      (if left.isSome && right.isSome && !inclusive then 1 else 3) e := by
  obtain ⟨ex, hx, h⟩ := bind_ok h
  have hw := operand_written levelText hx (hlevel x)
  have hge : level (if inclusive then .ge else .gt) = 3 := by cases inclusive <;> rfl
  have hle : level (if inclusive then .le else .lt) = 3 := by cases inclusive <;> rfl
  cases left with
  | none =>
    cases right with
    | none => cases h
    | some r =>
      obtain ⟨above, ha, h⟩ := bind_ok h
      obtain ⟨below, hb, h⟩ := bind_ok h
      cases ha
      obtain ⟨e', rfl, hwritten⟩ := boundExpr_written hlevel hle hw hb
      cases h
      simpa using hwritten
  | some l =>
    cases right with
    | none =>
      obtain ⟨above, ha, h⟩ := bind_ok h
      obtain ⟨below, hb, h⟩ := bind_ok h
      cases hb
      obtain ⟨e', rfl, hwritten⟩ := boundExpr_written hlevel hge hw ha
      cases h
      simpa using hwritten
    | some r =>
      cases inclusive with
      | true =>
        obtain ⟨low, hl, h⟩ := bind_ok h
        obtain ⟨high, hh, h⟩ := bind_ok h
        cases h
        have hwl := operand_written levelText hl (hlevel l)
        have hwh := operand_written levelText hh (hlevel r)
        refine ⟨by simp [treeOf, Tree.level], by simp [hw.found, hwl.found, hwh.found], ?_⟩
        have hx' := hw.le_level_iff levelText (n := 3) (by omega) (by omega)
        have hl' := hwl.le_level_iff levelText (n := 4) (by omega) (by omega)
        have hh' := hwh.le_level_iff levelText (n := 4) (by omega) (by omega)
        rw [treeOf, Tree.Adequate, hw.adequate, hwl.adequate, hwh.adequate, hx', hl', hh']
        simp only [Option.any_some, Bool.or_eq_false_iff, Option.toList_some, List.cons_append,
          List.nil_append, List.forall_mem_cons, List.not_mem_nil, false_implies,
            implies_true, and_true]
        grind
      | false =>
        obtain ⟨above, ha, h⟩ := bind_ok h
        obtain ⟨below, hb, h⟩ := bind_ok h
        obtain ⟨ea, rfl, hwa⟩ := boundExpr_written hlevel hge hw ha
        obtain ⟨eb, rfl, hwb⟩ := boundExpr_written hlevel hle hw hb
        cases h
        refine ⟨by simp [level], fun y hy => ?_, ?_⟩
        · have hfound := hwb.found
          grind [hwa.found y]
        · rw [adequate_binary, hwa.adequate, hwb.adequate, hwa.level, hwb.level]
          simp only [Option.any_some, Bool.or_eq_false_iff, Option.toList_some, List.cons_append,
            List.nil_append, List.forall_mem_cons, List.not_mem_nil, false_implies, implies_true,
            and_true, level]
          grind

def listed : Membership → List NodeId
  | .literals ids => ids
  | .subquery _ => []

theorem membershipExpr_written {negated : Bool} {values : Membership}
    (h : membershipExpr p id negated x values = .ok e) :
    Written levelText p (x :: listed values) (decide (writtenLevel g x < 3)) 3 e := by
  have hplace : ∀ {ex : Expr}, p.fragment x = .ok ex →
      (3 ≤ (treeOf levelText ex).level ↔ decide (writtenLevel g x < 3) = false) := by
    intro ex hx
    rw [hlevel x ex hx, decide_eq_false_iff_not]
    omega
  cases values with
  | literals ids =>
    obtain ⟨items, hitems, h⟩ := bind_ok h
    obtain ⟨ex, hx, h⟩ := bind_ok h
    cases h
    obtain ⟨hfound, hfine⟩ := fragments_written levelText hitems
    refine ⟨level_inList .., List.forall_mem_cons.2 ⟨⟨ex, hx⟩, hfound⟩, ?_⟩
    rw [adequate_inList, hplace hx, hfine, ← fine_iff levelText hx, listed, List.forall_mem_cons,
      and_comm (a := Fine levelText p x), and_assoc]
  | subquery sequence =>
    obtain ⟨ex, hx, h⟩ := bind_ok h
    cases h
    refine .one hx rfl ?_
    rw [treeOf, Tree.Adequate, Suffix.level, hplace hx, and_comm]

theorem fillNull_written {v : NodeId} {ev : Expr} (hx : p.fragment x = .ok ex)
    (hv : p.fragment v = .ok ev) :
    Written levelText p [x, v] (decide (writtenLevel g x < 3)) 8
      (.call "IF" [.isNull false ex, ev, ex]) := by
  have hplace : 3 ≤ (treeOf levelText ex).level ↔ decide (writtenLevel g x < 3) = false := by
    rw [hlevel x ex hx, decide_eq_false_iff_not]
    omega
  have htest : (treeOf levelText (.isNull false ex)).Adequate ↔
      (treeOf levelText ex).Adequate ∧ 3 ≤ (treeOf levelText ex).level := Iff.rfl
  refine ⟨level_call .., by simp [hx, hv], ?_⟩
  rw [adequate_call, List.forall_mem_cons, List.forall_mem_cons,
    List.forall_mem_cons, htest, hplace, ← fine_iff levelText hx, ← fine_iff levelText hv]
  simp
  grind

omit hlevel in
theorem switchExpr_written {subject fallback : Option NodeId} {conditions results : List NodeId}
    (hlen : conditions.length = results.length)
    (h : switchExpr p subject conditions results fallback = .ok e) :
    Written levelText p (subject.toList ++ (conditions ++ results) ++ fallback.toList)
      false 8 e := by
  obtain ⟨s, hs, h⟩ := bind_ok h
  obtain ⟨bs, hbs, h⟩ := bind_ok h
  obtain ⟨f, hf, h⟩ := bind_ok h
  cases h
  obtain ⟨hfs, has⟩ := fragment?_written levelText hs
  obtain ⟨hfb, hab⟩ := branchesOf_written levelText hbs hlen
  obtain ⟨hff, haf⟩ := fragment?_written levelText hf
  refine ⟨level_cases .., ?_, ?_⟩
  · rw [List.forall_mem_append, List.forall_mem_append]
    simpa using ⟨⟨hfs, by simpa using hfb⟩, hff⟩
  · rw [adequate_cases, has, hab, haf]
    simp only [List.forall_mem_append, Option.mem_toList, Option.mem_def, true_and, and_assoc]

omit hlevel in
theorem compared_adequate_iff {a b : Expr} (hop : level op = 3)
    (ha : (treeOf levelText a).Adequate) (hb : (treeOf levelText b).Adequate) :
    (treeOf levelText (.binary op a b)).Adequate ↔
      3 ≤ (treeOf levelText a).level ∧ 3 < (treeOf levelText b).level := by
  rw [adequate_binary, hop]
  simp [ha, hb]

omit hlevel in
theorem lt_level_constant (levelText : LevelId → String) (v : Value) :
    3 < (treeOf levelText (.constant v)).level := by
  rw [level_constant]
  split <;> omega

omit hlevel in
theorem below_adequate (ha : (treeOf levelText ex).Adequate)
    (hl : 3 < (treeOf levelText ex).level) :
    ∀ b ∈ Cut.below c ex ++ Cut.above c ex, (treeOf levelText b).Adequate := by
  have hless : level (if c.right && !c.includeLowest then .le else .lt) = 3 := by split <;> rfl
  have hmore : level (if !c.right && !c.includeLowest then .ge else .gt) = 3 := by split <;> rfl
  have houter : ∀ {op : BinaryOp} {v : Value}, level op = 3 →
      (treeOf levelText (.binary op ex (.constant v))).Adequate := by
    intro op v hop
    rw [compared_adequate_iff hop ha (adequate_constant levelText v)]
    exact ⟨by omega, lt_level_constant levelText v⟩
  intro b hb
  unfold Cut.below Cut.above at hb
  rcases List.mem_append.1 hb with hb | hb
  · split at hb
    · split at hb
      · obtain rfl := List.mem_singleton.1 hb
        exact houter hless
      · cases hb
    · cases hb
  · split at hb
    · split at hb
      · obtain rfl := List.mem_singleton.1 hb
        exact houter hmore
      · cases hb
    · cases hb

omit hlevel in
/-- A bucket between two bins has its operand on both sides of a comparison. -/
theorem between_adequate_iff (levelText : LevelId → String) (c : Cut) (ex : Expr)
    (first : Bool) (low high : Value)
    (rest : List Value) :
    (∀ b ∈ Cut.between c ex first (low :: high :: rest), (treeOf levelText b).Adequate) ↔
      (treeOf levelText ex).Adequate ∧ 3 < (treeOf levelText ex).level := by
  have hless : ∀ b : Bool, level (if b then .le else .lt) = 3 := fun b => by cases b <;> rfl
  have hand : level .and = 1 := rfl
  have hbucket : ∀ (p q : Bool) (low high : Value), (treeOf levelText (.binary .and
      (.binary (if p then .le else .lt) (.constant low) ex)
      (.binary (if q then .le else .lt) ex (.constant high)))).Adequate ↔
        (treeOf levelText ex).Adequate ∧ 3 < (treeOf levelText ex).level := by
    intro p q low high
    simp only [adequate_binary, adequate_constant, level_binary, hless, hand, true_and]
    have hc := lt_level_constant levelText low
    have hd := lt_level_constant levelText high
    constructor
    · exact fun h => h.1.1.2
    · exact fun h => ⟨⟨⟨by omega, h⟩, by omega⟩, ⟨⟨h.1, by omega⟩, hd⟩, by omega⟩
  induction rest generalizing first low high with
  | nil =>
    rw [Cut.between, List.forall_mem_cons, hbucket]
    simp [Cut.between]
  | cons next rest ih =>
    rw [Cut.between, List.forall_mem_cons, hbucket]
    exact ⟨fun h => h.1, fun h => ⟨h, (ih false high next).2 h⟩⟩

omit hlevel in
theorem cut_adequate_iff (levelText : LevelId → String) (hbins : 2 ≤ c.bins.length)
    (h : Cut.expr c ex = .ok e) :
    (treeOf levelText e).level = 8 ∧ ((treeOf levelText e).Adequate ↔
      (treeOf levelText ex).Adequate ∧ 3 < (treeOf levelText ex).level) := by
  unfold Cut.expr at h
  split at h
  · cases h
  · next hlabels =>
    cases h
    refine ⟨level_cases .., ?_⟩
    have hzip : (∀ b ∈ (Cut.conditions c ex).zip (c.labels.map Expr.constant),
        (treeOf levelText b.1).Adequate ∧ (treeOf levelText b.2).Adequate) ↔
        ∀ b ∈ Cut.conditions c ex, (treeOf levelText b).Adequate := by
      constructor
      · intro h b hb
        have hfst : ((Cut.conditions c ex).zip (c.labels.map Expr.constant)).map Prod.fst =
            Cut.conditions c ex := List.map_fst_zip (by simpa using hlabels)
        rw [← hfst] at hb
        obtain ⟨pair, hpair, rfl⟩ := List.mem_map.1 hb
        exact (h pair hpair).1
      · rintro h ⟨b, v⟩ hpair
        obtain ⟨hb, hv⟩ := List.of_mem_zip hpair
        obtain ⟨v, _, rfl⟩ := List.mem_map.1 hv
        exact ⟨h b hb, adequate_constant levelText v⟩
    rw [adequate_cases, hzip, Cut.conditions]
    rcases hc : c.bins with _ | ⟨low, _ | ⟨high, rest⟩⟩
    · simp [hc] at hbins
    · simp [hc] at hbins
    · have hbetween := between_adequate_iff levelText c ex true low high rest
      simp only [List.forall_mem_append]
      rw [hbetween]
      constructor
      · exact fun h => h.2.1.1.2
      · intro h
        have hends := List.forall_mem_append.1 (below_adequate (c := c) h.1 h.2)
        exact ⟨by simp, ⟨⟨hends.1, h⟩, hends.2⟩, by simp⟩

def elementOperands : ElementOp → List NodeId
  | .isNull x | .notNull x | .cut x _ => [x]
  | .fillNull x v => [x, v]
  | .isIn x values | .notIn x values => x :: listed values
  | .between x left right _ => x :: (left.toList ++ right.toList)
  | .ifElse condition consequent alternative => [condition, consequent, alternative]
  | .switch subject conditions results fallback =>
    subject.toList ++ (conditions ++ results) ++ fallback.toList

theorem elementExpr_written {op : ElementOp} (hk : n.kind = .element op)
    (hlen : ∀ subject conditions results fallback,
      op = .switch subject conditions results fallback → conditions.length = results.length)
        (h : elementExpr g p id op = .ok e) :
    Written levelText p (elementOperands op) (misread g n) (elementLevel op) e := by
  have htest : ∀ {x : NodeId} {ex : Expr} {negated : Bool}, operand g p x = .ok ex →
      Written levelText p [x] (isInversion g x) 3 (.isNull negated ex) := by
    intro x ex negated hx
    have hw := operand_written levelText hx (hlevel x)
    refine ⟨rfl, by simp [hw.found], ?_⟩
    rw [treeOf, Tree.Adequate, Suffix.level, hw.adequate,
      hw.le_level_iff levelText (by omega) (by omega)]
    simp [and_comm]
  unfold misread
  rw [hk]
  cases op with
  | isNull x | notNull x =>
    obtain ⟨ex, hx, h⟩ := bind_ok h
    cases h
    exact htest hx
  | fillNull x v =>
    obtain ⟨ex, hx, h⟩ := bind_ok h
    obtain ⟨ev, hv, h⟩ := bind_ok h
    cases h
    exact fillNull_written hlevel hx hv
  | isIn x values | notIn x values => exact membershipExpr_written hlevel h
  | between x left right inclusive => exact betweenExpr_written hlevel h
  | ifElse condition consequent alternative =>
    obtain ⟨es, hes, h⟩ := bind_ok h
    cases h
    exact .call hes "IF"
  | switch subject conditions results fallback =>
    exact switchExpr_written (hlen _ _ _ _ rfl) h
  | cut x c =>
    rw [elementExpr] at h
    dsimp only at h
    split at h
    · cases h
    · next hbins =>
      obtain ⟨ex, hx, h⟩ := bind_ok h
      obtain ⟨hl, ha⟩ := cut_adequate_iff levelText (by omega) h
      refine .one hx hl ?_
      rw [ha, hlevel x ex hx, decide_eq_false_iff_not, Nat.not_lt, and_comm]
      exact Iff.rfl

end Operators

end PlanSql.Reading

import PlanSql.Proofs.Values.Congruence

/-!
# The meaning of expressions

An expression of a level means a value for each row that the level selects from, and, where rows are
put in groups, a value for each group. What operators and functions compute is left open: `Scalars`
is any meaning for them. Only this much is fixed: an expression depends on its parts through their
values, an aggregate on the values of its arguments in the rows of the group, and values are sorted
by a total preorder.
-/

namespace PlanSql.Rows

open PlanSql.Sql PlanSql.Compile

variable {e e' : Option Expr}

/-- A meaning for constants, operators and functions. -/
structure Scalars (V : Type) where
  constant : Value → V
  binary : BinaryOp → V → V → V
  negate : V → V
  not : V → V
  isNull : Bool → V → V
  inList : Bool → V → List V → V
  between : V → V → V → V
  call : String → List V → V
  convert : DataType → DataType → V → V
  cases : Option V → List (V × V) → Option V → V
  aggregate : String → List (List V) → V
  aggregateDistinct : String → List V → V
  /-- What rows and groups do not determine: windows, subqueries, missing columns. -/
  unknown : V
  /-- Whether a row is kept when its condition has this value. -/
  holds : V → Bool
  le : V → V → Bool
  le_total : ∀ x y, le x y = true ∨ le y x = true
  le_trans : ∀ x y z, le x y = true → le y z = true → le x z = true

/-- A row: its fields and their values, in order. -/
abbrev Row (V : Type) := List (String × V)

variable {V : Type}

/-- What columns and calls mean where an expression is read. -/
structure Reading (V : Type) where
  column : Alias → String → V
  call : String → List Expr → List V → V
  callDistinct : String → Expr → V

mutual

/-- The value of an expression. -/
def evalWith (S : Scalars V) (c : Reading V) : Expr → V
  | .column label name => c.column label name
  | .constant v => S.constant v
  | .group e => evalWith S c e
  | .binary op l r => S.binary op (evalWith S c l) (evalWith S c r)
  | .negate e => S.negate (evalWith S c e)
  | .not e => S.not (evalWith S c e)
  | .isNull negated e => S.isNull negated (evalWith S c e)
  | .inList negated e items => S.inList negated (evalWith S c e) (evalsWith S c items)
  | .inLevel .. => S.unknown
  | .between e l h => S.between (evalWith S c e) (evalWith S c l) (evalWith S c h)
  | .call name args => c.call name args (evalsWith S c args)
  | .callDistinct name arg => c.callDistinct name arg
  | .convert e source target => S.convert source target (evalWith S c e)
  | .windowed .. => S.unknown
  | .cases subject branches fallback =>
    S.cases (eval?With S c subject) (evalBranchesWith S c branches) (eval?With S c fallback)
  | .descending e => evalWith S c e

def evalsWith (S : Scalars V) (c : Reading V) : List Expr → List V
  | [] => []
  | e :: rest => evalWith S c e :: evalsWith S c rest

def eval?With (S : Scalars V) (c : Reading V) : Option Expr → Option V
  | none => none
  | some e => some (evalWith S c e)

def evalBranchesWith (S : Scalars V) (c : Reading V) : List (Expr × Expr) → List (V × V)
  | [] => []
  | (x, y) :: rest => (evalWith S c x, evalWith S c y) :: evalBranchesWith S c rest

end

/-- The value of a field, where the row is known as `label`. -/
def Scalars.field (S : Scalars V) (label : Alias) (row : Row V) (a : Alias) (name : String) : V :=
  if a = label then (row.lookup name).getD S.unknown else S.unknown

def eval (S : Scalars V) (label : Alias) (row : Row V) : Expr → V :=
  evalWith S ⟨S.field label row, fun name _ args => S.call name args, fun _ _ => S.unknown⟩

/-- The value of an expression in a group of rows known as `label`. Outside aggregates, a column has
its value in the first row. -/
def groupEval (S : Scalars V) (label : Alias) (rows : List (Row V)) : Expr → V :=
  evalWith S
    { column := S.field label (rows.headD [])
      call := fun name args values =>
        if isAggregate name then S.aggregate name (rows.map fun row => args.map (eval S label row))
        else S.call name values
      callDistinct := fun name arg =>
        S.aggregateDistinct name (rows.map fun row => eval S label row arg) }

mutual

/-- Whether an expression has an aggregate outside of its windows. -/
def hasAggregate : Expr → Bool
  | .column .. => false
  | .constant _ => false
  | .group e => hasAggregate e
  | .binary _ l r => hasAggregate l || hasAggregate r
  | .negate e => hasAggregate e
  | .not e => hasAggregate e
  | .isNull _ e => hasAggregate e
  | .inList _ e items => hasAggregate e || anyAggregate items
  | .inLevel _ e _ => hasAggregate e
  | .between e l h => hasAggregate e || hasAggregate l || hasAggregate h
  | .call name args => isAggregate name || anyAggregate args
  | .callDistinct .. => true
  | .convert e _ _ => hasAggregate e
  | .windowed .. => false
  | .cases subject branches fallback =>
    optionAggregate subject || branchAggregate branches || optionAggregate fallback
  | .descending e => hasAggregate e

def anyAggregate : List Expr → Bool
  | [] => false
  | e :: rest => hasAggregate e || anyAggregate rest

/-- Whether an expression that may be missing holds an aggregate. -/
def optionAggregate : Option Expr → Bool
  | none => false
  | some e => hasAggregate e

def branchAggregate : List (Expr × Expr) → Bool
  | [] => false
  | (c, r) :: rest => hasAggregate c || hasAggregate r || branchAggregate rest

end

/-- Whether a sort key puts the smallest values first. -/
def ascends : Expr → Bool
  | .descending _ => false
  | _ => true

theorem evalsWith_eq_map (S : Scalars V) (c : Reading V) (es : List Expr) :
    evalsWith S c es = es.map (evalWith S c) := by
  induction es with
  | nil => rfl
  | cons e rest ih => simp [evalsWith, ih]

section

variable {S : Scalars V} {c c' : Reading V}

theorem eval?With_congr {R : Expr → Expr → Prop} (h : Option.Rel R e e')
    (hR : ∀ e e', R e e' → evalWith S c e = evalWith S c' e') :
    eval?With S c e = eval?With S c' e' := by
  cases h with
  | none => rfl
  | some he => simp [eval?With, hR _ _ he]

theorem evalBranchesWith_congr {bs bs' : List (Expr × Expr)}
    (h : List.Forall₂ (fun b b' => evalWith S c b.1 = evalWith S c' b'.1 ∧
      evalWith S c b.2 = evalWith S c' b'.2) bs bs') :
    evalBranchesWith S c bs = evalBranchesWith S c' bs' := by
  induction h with
  | nil => rfl
  | cons hb _ ih => simp [evalBranchesWith, hb.1, hb.2, ih]

end

/-- What an expression means where rows are known as `a` is what another one means where they are
known as `b`, and neither is a sort key with the largest values first. -/
structure SameMeaning (S : Scalars V) (a b : Alias) (e e' : Expr) : Prop where
  row : ∀ row, eval S a row e = eval S b row e'
  group : ∀ rows, groupEval S a rows e = groupEval S b rows e'
  aggregate : hasAggregate e = hasAggregate e'
  left : ascends e = true
  right : ascends e' = true

namespace SameMeaning

variable {S : Scalars V} {a b : Alias} {es es' : List Expr}

theorem rows_eq (h : List.Forall₂ (SameMeaning S a b) es es') (row : Row V) :
    es.map (eval S a row) = es'.map (eval S b row) := by
  induction h with
  | nil => rfl
  | cons he _ ih => rw [List.map_cons, List.map_cons, he.row row, ih]

theorem groups_eq (h : List.Forall₂ (SameMeaning S a b) es es') (rows : List (Row V)) :
    es.map (groupEval S a rows) = es'.map (groupEval S b rows) := by
  induction h with
  | nil => rfl
  | cons he _ ih => rw [List.map_cons, List.map_cons, he.group rows, ih]

theorem anyAggregate_eq (h : List.Forall₂ (SameMeaning S a b) es es') :
    anyAggregate es = anyAggregate es' := by
  induction h with
  | nil => rfl
  | cons he _ ih => simp only [anyAggregate, he.aggregate, ih]

theorem optionAggregate_eq (h : Option.Rel (SameMeaning S a b) e e') :
    optionAggregate e = optionAggregate e' := by
  cases h with
  | none => rfl
  | some he => exact he.aggregate

theorem branchAggregate_eq {bs bs' : List (Expr × Expr)} (h : List.Forall₂
    (fun b₁ b₂ => SameMeaning S a b b₁.1 b₂.1 ∧ SameMeaning S a b b₁.2 b₂.2) bs bs') :
    branchAggregate bs = branchAggregate bs' := by
  induction h with
  | nil => rfl
  | cons hb _ ih => simp only [branchAggregate, hb.1.aggregate, hb.2.aggregate, ih]

theorem negate {e e' : Expr} (h : SameMeaning S a b e e') :
    SameMeaning S a b (.negate e) (.negate e') :=
  ⟨fun r => congrArg S.negate (h.row r), fun rs => congrArg S.negate (h.group rs),
    h.aggregate, rfl, rfl⟩

/-- Every form of expression keeps meanings. -/
theorem congruence (S : Scalars V) (a b : Alias) :
    FullCongruence (SameMeaning S a b) (fun _ => True) fun _ => True where
  constant v _ := ⟨fun _ => rfl, fun _ => rfl, rfl, rfl, rfl⟩
  group h := ⟨h.row, h.group, h.aggregate, rfl, rfl⟩
  binary {op _ _ _ _} h h' :=
    ⟨fun r => congrArg₂ (S.binary op) (h.row r) (h'.row r),
      fun rs => congrArg₂ (S.binary op) (h.group rs) (h'.group rs),
      congrArg₂ (· || ·) h.aggregate h'.aggregate, rfl, rfl⟩
  not h := ⟨fun r => congrArg S.not (h.row r), fun rs => congrArg S.not (h.group rs), h.aggregate,
    rfl, rfl⟩
  isNull {b _ _} h := ⟨fun r => congrArg (S.isNull b) (h.row r),
    fun rs => congrArg (S.isNull b) (h.group rs), h.aggregate, rfl, rfl⟩
  inList {b _ _ es es'} h hes := by
    refine ⟨fun r => ?_, fun rs => ?_, ?_, rfl, rfl⟩
    · simp only [eval, evalWith, evalsWith_eq_map]
      exact congrArg₂ (S.inList b) (h.row r) (rows_eq hes r)
    · simp only [groupEval, evalWith, evalsWith_eq_map]
      exact congrArg₂ (S.inList b) (h.group rs) (groups_eq hes rs)
    · exact congrArg₂ (· || ·) h.aggregate (anyAggregate_eq hes)
  inLevel h := ⟨fun _ => rfl, fun _ => rfl, h.aggregate, rfl, rfl⟩
  between h hl hh := by
    refine ⟨fun r => ?_, fun rs => ?_, ?_, rfl, rfl⟩
    · show S.between (eval S a r _) (eval S a r _) (eval S a r _) = _
      rw [h.row, hl.row, hh.row]
      rfl
    · show S.between (groupEval S a rs _) (groupEval S a rs _) (groupEval S a rs _) = _
      rw [h.group, hl.group, hh.group]
      rfl
    · simp only [hasAggregate, h.aggregate, hl.aggregate, hh.aggregate]
  call {name es es'} _ hes := by
    refine ⟨fun r => ?_, fun rs => ?_, ?_, rfl, rfl⟩
    · simp only [eval, evalWith, evalsWith_eq_map]
      exact congrArg (S.call name) (rows_eq hes r)
    · simp only [groupEval, evalWith, evalsWith_eq_map]
      split
      · exact congrArg (S.aggregate name) (List.map_congr_left fun r _ => rows_eq hes r)
      · exact congrArg (S.call name) (groups_eq hes rs)
    · exact congrArg (isAggregate name || ·) (anyAggregate_eq hes)
  convert {_ _ s t} _ h := ⟨fun r => congrArg (S.convert s t) (h.row r),
    fun rs => congrArg (S.convert s t) (h.group rs), h.aggregate, rfl, rfl⟩
  cases hs hbs hf := by
    refine ⟨fun r => ?_, fun rs => ?_, ?_, rfl, rfl⟩
    · simp only [eval, evalWith]
      rw [eval?With_congr hs fun _ _ h => h.row r, eval?With_congr hf fun _ _ h => h.row r,
        evalBranchesWith_congr (hbs.imp fun _ _ h => ⟨h.1.row r, h.2.row r⟩)]
    · simp only [groupEval, evalWith]
      rw [eval?With_congr hs fun _ _ h => h.group rs, eval?With_congr hf fun _ _ h => h.group rs,
        evalBranchesWith_congr (hbs.imp fun _ _ h => ⟨h.1.group rs, h.2.group rs⟩)]
    · simp only [hasAggregate, optionAggregate_eq hs, branchAggregate_eq hbs, optionAggregate_eq hf]
  callDistinct {name _ _} _ h :=
    ⟨fun _ => rfl,
      fun _ => congrArg (S.aggregateDistinct name) (List.map_congr_left fun r _ => h.row r),
      rfl, rfl, rfl⟩
  windowed _ _ _ _ := ⟨fun _ => rfl, fun _ => rfl, rfl, rfl, rfl⟩

end SameMeaning

theorem anyAggregate_eq_false {es es' : List Expr}
    (h : List.Forall₂ (fun e _ => hasAggregate e = false) es es') : anyAggregate es = false := by
  induction h with
  | nil => rfl
  | cons he _ ih => simp [anyAggregate, he, ih]

theorem optionAggregate_eq_false
    (h : Option.Rel (fun e _ => hasAggregate e = false) e e') : optionAggregate e = false := by
  cases h with
  | none => rfl
  | some he => exact he

theorem branchAggregate_eq_false {bs bs' : List (Expr × Expr)} (h : List.Forall₂
    (fun b _ => hasAggregate b.1 = false ∧ hasAggregate b.2 = false) bs bs') :
    branchAggregate bs = false := by
  induction h with
  | nil => rfl
  | cons hb _ ih => simp [branchAggregate, hb.1, hb.2, ih]

/-- Functions of single rows put no aggregate into an expression. -/
theorem noAggregate_congruence : Congruence (fun e _ => hasAggregate e = false)
    (fun name => isAggregate name = false) fun _ => True where
  constant _ _ := rfl
  group h := h
  binary h h' := by simp [hasAggregate, h, h']
  not h := h
  isNull h := h
  inList h hes := by
    have hany := anyAggregate_eq_false hes
    simp [hasAggregate, h, hany]
  inLevel h := h
  between h hl hh := by simp [hasAggregate, h, hl, hh]
  call hn hes := by
    have hany := anyAggregate_eq_false hes
    simp [hasAggregate, hn, hany]
  convert _ h := h
  cases hs hbs hf := by
    have hsubject := optionAggregate_eq_false hs
    have hfallback := optionAggregate_eq_false hf
    have hbranches := branchAggregate_eq_false hbs
    simp [hasAggregate, hsubject, hfallback, hbranches]

end PlanSql.Rows

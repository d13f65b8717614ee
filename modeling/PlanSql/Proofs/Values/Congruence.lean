import Mathlib.Data.List.Forall2
import PlanSql.Proofs.Outcome
import PlanSql.Proofs.Values.Renaming

/-!
# What the expression of a value depends on

`valueExpr` puts the expressions of operands together and looks at nothing else of them. So a
relation between expressions that every form of expression keeps is kept by `valueExpr` as well:
related operands give related results. Equal expressions, expressions of equal meaning, and
expressions that name only known columns are such relations.
-/

namespace PlanSql.Sql

/-- The functions that look at all rows of a group. -/
def aggregateNames : List String :=
  ["COUNT", "SUM", "AVG", "MEDIAN", "VARIANCE", "STDDEV", "MAX", "MIN", "WM_CONCAT"]

/-- Whether a function looks at all rows of a group. -/
def isAggregate (name : String) : Bool := aggregateNames.contains name

/-- The functions that look at a single row. -/
def rowNames : List String :=
  ["ABS", "ACOS", "ASIN", "ATAN", "CEIL", "CONCAT", "COS", "COSH", "DATEPART", "EXP", "FLOOR", "IF",
    "INSTR", "LENGTH", "LN", "LOG", "LTRIM", "POW", "REGEXP_COUNT",
    "REGEXP_EXTRACT", "REGEXP_INSTR", "REGEXP_REPLACE", "REPEAT", "REVERSE", "RTRIM", "SIN", "SINH",
    "SQRT", "SUBSTR", "TAN", "TANH", "TOLOWER", "TOUPPER", "TRIM", "TRUNC", "WEEKDAY", "WEEKOFYEAR"]

/-- The functions that look at the rows of a window one by one. -/
def windowNames : List String :=
  ["RANK", "DENSE_RANK", "PERCENT_RANK", "ROW_NUMBER", "LAG", "LEAD"]

/-- Whether a function is one of those that every statement may call. -/
def isBuiltIn (name : String) : Bool := (aggregateNames ++ rowNames ++ windowNames).contains name

/-- Whether a function is built in and does not look at all rows of a group. -/
def isRowFunction (name : String) : Bool := !isAggregate name && isBuiltIn name

theorem capital_of_isBuiltIn {name : String} (h : isBuiltIn name = true) :
    name ≠ "" ∧ ∀ c ∈ name.toList, (c.isUpper || c == '_') = true := by
  have hall : ∀ name ∈ aggregateNames ++ rowNames ++ windowNames,
      name ≠ "" ∧ name.toList.all (fun c => c.isUpper || c == '_') = true := by decide +kernel
  obtain ⟨hne, hcapital⟩ := hall name (List.contains_iff_mem.1 h)
  exact ⟨hne, List.all_eq_true.1 hcapital⟩

end PlanSql.Sql

namespace PlanSql

theorem isUpper_of_isDigit {c : Char} (h : c.isDigit = true) : c.isUpper = false := by
  have hval : c.val.toNat ≤ 57 := (Text.toNat_of_isDigit h).2
  refine decide_eq_false fun hupper => ?_
  have hle : 65 ≤ c.val.toNat := UInt32.le_iff_toNat_le.1 hupper.1
  omega

/-- The string constants in the text of a constant. A decimal number is read from one. -/
def Value.strings : Value → List String
  | .string s => [s]
  | .decimal d => [d.toString]
  | _ => []

/-- The strings of an operation on text. A pattern that is not a regular expression is written as
one. -/
def TextOp.strings : TextOp → List String
  | contains pattern .. | count pattern _ | endsWith pattern | startsWith pattern
  | extract pattern .. => [pattern]
  | find sub .. => [sub]
  | replace pattern replacement _ _ _ regex =>
    [if regex then pattern else Text.escapePattern pattern, replacement]
  | _ => []

/-- The offsets of a text operation that cannot be counted from one. -/
def TextOp.Overflows : TextOp → Prop
  | find _ start stop => stop = none ∧ start = Int64.maxValue
  | get index => index = Int64.maxValue
  | substring start _ => start = Int64.maxValue
  | _ => False

def DatetimePart.strings : DatetimePart → List String
  | year => ["yyyy"]
  | month => ["mm"]
  | day => ["dd"]
  | hour => ["hh"]
  | minute => ["mi"]
  | second => ["ss"]
  | _ => []

/-- The strings that a node brings into a statement. Texts are added up with nothing between
them. -/
def Kind.strings : Kind → List String
  | literal value => value.strings
  | text _ op => op.strings
  | datetime _ part => part.strings
  | element (.cut _ cut) => (cut.bins ++ cut.labels).flatMap Value.strings
  | reduction .sum .. => [""]
  | window (.shift _ _ _ default _) => default.toList.flatMap Value.strings
  | _ => []

def Kind.negated? : Kind → Option NodeId
  | unary .negate input => some input
  | _ => none

variable {op : WindowOp} {o : Operand}

theorem WindowOp.mem_operands_of_mem_spec (ho : o ∈ op.spec.operands) : o ∈ op.operands := by
  cases op with
  | rank func spec => exact ho
  | _ => exact .tail _ ho

theorem WindowOp.mem_operands_of_partitionBy {x : NodeId} (h : x ∈ op.spec.partitionBy) :
    (.partitionBy, x) ∈ op.operands :=
  mem_operands_of_mem_spec (List.mem_append_left _ (List.mem_map_of_mem h))

theorem WindowOp.mem_operands_of_orderBy {key : SortKey} (h : key ∈ op.spec.orderBy) :
    (.orderBy, key.expr) ∈ op.operands :=
  mem_operands_of_mem_spec (List.mem_append_right _ (List.mem_map_of_mem (List.mem_map_of_mem h)))

theorem WindowOp.slot_ne_subquery (ho : o ∈ op.operands) : o.1 ≠ .subquery := by
  have hspec : ∀ spec : WindowSpec, o ∈ spec.operands → o.1 ≠ .subquery := by
    intro spec h
    rcases List.mem_append.1 h with h | h
    · obtain ⟨x, -, rfl⟩ := List.mem_map.1 h
      simp
    · obtain ⟨x, -, rfl⟩ := List.mem_map.1 h
      simp
  cases op with
  | rank func spec => exact hspec spec ho
  | cumulative func input distinct spec | shift func input offset default spec =>
    rcases List.mem_cons.1 ho with rfl | ho
    · simp
    · exact hspec spec ho

def Sql.Expr.isCall : Sql.Expr → Bool
  | .call .. | .callDistinct .. => true
  | _ => false

end PlanSql

namespace PlanSql.Compile

open PlanSql.Sql

variable {g : Graph} {p : Parts} {id : NodeId} {kind : Kind}

/-- A way to compare checks on nodes of a graph with checks on copies of them in another graph:
which outcomes are related, given which results are. -/
structure Comparison (g g' : Graph) where
  map : NodeId → NodeId
  has : NodeId → Prop
  overflow : Prop
  Rel {α β : Type} (R : α → β → Prop) (x : Except Error α) (y : Except Error β) : Prop
  pure : ∀ {α β : Type} {R : α → β → Prop} {a b}, R a b → Rel R (Pure.pure a) (Pure.pure b)
  throw : ∀ {α β : Type} {R : α → β → Prop} {e e'}, e.renamed? map = some e' →
    Rel R (MonadExcept.throw e) (MonadExcept.throw e')
  overflows : ∀ {α β : Type} {R : α → β → Prop}, overflow →
    Rel R (MonadExcept.throw .overflow) (MonadExcept.throw .overflow)
  bind : ∀ {α β γ δ : Type} {R : α → β → Prop} {S : γ → δ → Prop} {x y f k}, Rel R x y →
    (∀ a b, x = .ok a → R a b → Rel S (f a) (k b)) → Rel S (x >>= f) (y >>= k)
  node : ∀ {α β : Type} {R : α → β → Prop} {x f k}, has x → (∀ n functions, g.node? x = some n →
    Rel R (f n) (k (n.rename map functions))) → Rel R (g.node x >>= f) (g'.node (map x) >>= k)
  isCollection : ∀ {x}, has x → g'.isCollection (map x) = g.isCollection x
  operand : ∀ {x n o}, has x → g.node? x = some n → o ∈ n.kind.operands → has o.2

namespace Comparison

variable {g g' : Graph} {w : Comparison g g'} {α β γ δ : Type} {R : α → β → Prop} {S : γ → δ → Prop}

namespace Rel

theorem pure {a : α} {b : β} (h : R a b) : w.Rel R (Pure.pure a) (Pure.pure b) := w.pure h

theorem throw {e e' : Error} (h : e.renamed? w.map = some e') :
    w.Rel R (MonadExcept.throw e) (MonadExcept.throw e') := w.throw h

theorem bind {x : Except Error α} {y : Except Error β} {f : α → Except Error γ}
    {k : β → Except Error δ} (h : w.Rel R x y) (hf : ∀ a b, R a b → w.Rel S (f a) (k b)) :
    w.Rel S (x >>= f) (y >>= k) := w.bind h fun a b _ => hf a b

theorem bind_eq {x y : Except Error α} {f : α → Except Error γ} {k : α → Except Error δ}
    (h : w.Rel Eq x y) (hf : ∀ a, w.Rel S (f a) (k a)) : w.Rel S (x >>= f) (y >>= k) := by
  refine h.bind fun a b hab => ?_
  subst hab
  exact hf a

theorem ite {c : Prop} [Decidable c] {x x' : Except Error α} {y y' : Except Error β}
    (h : w.Rel R x y) (h' : w.Rel R x' y') :
    w.Rel R (if c then x else x') (if c then y else y') := by
  split
  · exact h
  · exact h'

end Rel

/-- The expressions of an operand and of its copy are related. -/
structure Given (w : Comparison g g') (R : Expr → Expr → Prop) (p p' : Parts) (x : NodeId) :
    Prop where
  has : w.has x
  fragment : w.Rel R (p.fragment x) (p'.fragment (w.map x))

end Comparison

/-- A relation that every form of expression of a single row keeps, but perhaps for negations;
`calls` are the functions that keep it, and `strings` those that constants may have. -/
structure Congruence (R : Expr → Expr → Prop) (calls strings : String → Prop) : Prop where
  constant : ∀ v, (∀ s ∈ v.strings, strings s) → R (.constant v) (.constant v)
  group : ∀ {e e'}, R e e' → R (.group e) (.group e')
  binary : ∀ {op l l' r r'}, R l l' → R r r' → R (.binary op l r) (.binary op l' r')
  not : ∀ {e e'}, R e e' → R (.not e) (.not e')
  isNull : ∀ {b e e'}, R e e' → R (.isNull b e) (.isNull b e')
  inList : ∀ {b e e' es es'}, R e e' → List.Forall₂ R es es' →
    R (.inList b e es) (.inList b e' es')
  inLevel : ∀ {b e e' level}, R e e' → R (.inLevel b e level) (.inLevel b e' level)
  between : ∀ {e e' l l' h h'}, R e e' → R l l' → R h h' → R (.between e l h) (.between e' l' h')
  call : ∀ {name es es'}, calls name → List.Forall₂ R es es' → R (.call name es) (.call name es')
  convert : ∀ {e e' s t}, s ≠ t → R e e' → R (.convert e s t) (.convert e' s t)
  cases : ∀ {s s' bs bs' f f'}, Option.Rel R s s' →
    List.Forall₂ (fun b b' => R b.1 b'.1 ∧ R b.2 b'.2) bs bs' → Option.Rel R f f' →
    R (.cases s bs f) (.cases s' bs' f')

/-- If the first outcome is a result, so is the second, and they are related. -/
def Follows {α β : Type} (R : α → β → Prop) (x : Except Error α) (y : Except Error β) : Prop :=
  ∀ a, x = .ok a → ∃ b, y = .ok b ∧ R a b

theorem Follows.bind {α β γ δ : Type} {R : α → β → Prop} {S : γ → δ → Prop} {x : Except Error α}
    {y : Except Error β} {f : α → Except Error γ} {k : β → Except Error δ} (hxy : Follows R x y)
    (hfk : ∀ a b, x = .ok a → R a b → Follows S (f a) (k b)) : Follows S (x >>= f) (y >>= k) := by
  intro c hc
  obtain ⟨a, hx, hf⟩ := bind_ok hc
  obtain ⟨b, hy, hR⟩ := hxy a hx
  obtain ⟨d, hd, hS⟩ := hfk a b hx hR c hf
  exact ⟨d, Except.bind_eq_ok_iff.2 ⟨b, hy, hd⟩, hS⟩

/-- The checks of one graph, compared where the first ones succeed. -/
def Comparison.onSuccess (g : Graph) : Comparison g g where
  map x := x
  has _ := True
  overflow := True
  Rel := Follows
  pure h := fun _ ha => ⟨_, rfl, Except.ok.inj ha ▸ h⟩
  throw _ := fun _ h => by cases h
  overflows _ := fun _ h => by cases h
  bind := Follows.bind
  node _ h := Follows.bind (R := Eq) (fun n hn => ⟨n, hn, rfl⟩) fun n n' hn hnn => by
    subst hnn
    have hfollows := h n (fun k => k) (Graph.node_eq_ok_iff.1 hn)
    rwa [Node.rename_self] at hfollows
  isCollection _ := rfl
  operand _ _ _ := trivial

/-- Sort keys are related if they have the same direction and their expressions are related. -/
inductive KeyRel (R : Expr → Expr → Prop) : Expr → Expr → Prop
  | ascending {e e'} : R e e' → KeyRel R e e'
  | descending {e e'} : R e e' → KeyRel R (.descending e) (.descending e')

/-- A relation that every form of expression keeps, but perhaps for negations. -/
structure FullCongruence (R : Expr → Expr → Prop) (calls strings : String → Prop) : Prop
    extends Congruence R calls strings where
  callDistinct : ∀ {name e e'}, calls name → R e e' →
    R (.callDistinct name e) (.callDistinct name e')
  windowed : ∀ {e e' ps ps' os os' frame}, e.isCall = true → R e e' → List.Forall₂ R ps ps' →
    List.Forall₂ (KeyRel R) os os' → R (.windowed e ps os frame) (.windowed e' ps' os' frame)

section

variable {R : Expr → Expr → Prop} {calls strings : String → Prop} {g g' : Graph}
variable {w : Comparison g g'} {p p' : Parts}
variable {id input : NodeId} {x x' : Expr}
variable {name : String} {op : TextOp} {conditions results : List NodeId}

theorem Congruence.whole (hR : Congruence R calls strings) (n : Int64) : R (whole n) (whole n) :=
  hR.constant _ nofun

theorem Congruence.quoted (hR : Congruence R calls strings) {s : String} (h : strings s) :
    R (quoted s) (quoted s) :=
  hR.constant _ (List.forall_mem_singleton.2 h)

theorem valueType_related (hx : w.has id) :
    w.Rel Eq (valueType g id) (valueType g' (w.map id)) := by
  refine w.node hx fun n functions _ => ?_
  have htype : (n.rename w.map functions).dtype? = n.dtype? := rfl
  rw [htype]
  cases n.dtype? with
  | none => exact .throw rfl
  | some dtype => exact .pure rfl

theorem needsGroup_related {n : Node} (hx : w.has id) (hn : g.node? id = some n)
    (functions : FunctionId → FunctionId) :
    w.Rel Eq (needsGroup g n.kind) (needsGroup g' (n.rename w.map functions).kind) := by
  obtain ⟨kind, shape⟩ := n
  cases kind with
  | element op | text input op => cases op <;> exact .pure rfl
  | reduction func input ddof =>
    have hinput : w.has input := w.operand (o := (.input, input)) hx hn (.head _)
    cases func with
    | max | min => exact w.node hinput fun n functions _ => .pure rfl
    | _ => exact .pure rfl
  | _ => exact .pure rfl

theorem function_related {function function' : FunctionId}
    (hsame : g'.function function' = g.function function) :
    w.Rel Eq (g.function function) (g'.function function') := by
  rw [hsame, Graph.function]
  split
  · exact .pure rfl
  · exact .throw rfl

theorem Parts.fragments_related {ids : List NodeId}
    (h : ∀ x ∈ ids, w.Given R p p' x) :
    w.Rel (List.Forall₂ R) (p.fragments ids) (p'.fragments (ids.map w.map)) := by
  induction ids with
  | nil => exact .pure .nil
  | cons x rest ih =>
    refine (h x (.head _)).fragment.bind fun e e' he => ?_
    exact (ih fun y hy => h y (.tail _ hy)).bind fun es es' hes =>
      .pure (.cons he hes)

theorem Parts.fragment?_related {x : Option NodeId}
    (h : ∀ y ∈ x, w.Given R p p' y) :
    w.Rel (Option.Rel R) (p.fragment? x) (p'.fragment? (x.map w.map)) := by
  cases x with
  | none => exact .pure .none
  | some y => exact (h y rfl).fragment.bind fun e e' he => .pure (.some he)

theorem operand_related (hR : Congruence R calls strings) {x : NodeId}
    (h : w.Given R p p' x) : w.Rel R (operand g p x) (operand g' p' (w.map x)) := by
  refine h.fragment.bind fun e e' he => w.node h.has fun n functions hn => ?_
  refine (needsGroup_related h.has hn functions).bind_eq fun b => ?_
  exact .ite (.pure (hR.group he)) (.pure he)

theorem converted_related (hR : Congruence R calls strings) {e e' : Expr} (h : R e e')
    (source target : DataType) : R (converted e source target) (converted e' source target) := by
  unfold converted
  split
  · exact h
  · next hne => exact hR.convert hne h

variable (hR : Congruence R calls strings) (hs : ∀ name, isRowFunction name = true → calls name)

include hR hs

theorem binaryExpr_related {op : BinaryOp} {lhs rhs : NodeId} (hx : w.has id)
    (hl : w.Given R p p' lhs)
    (hr : w.Given R p p' rhs) :
    w.Rel R (binaryExpr g p id op lhs rhs)
      (binaryExpr g' p' (w.map id) op (w.map lhs) (w.map rhs)) := by
  have hboth : w.Rel (List.Forall₂ R) (p.fragments [lhs, rhs])
    (p'.fragments [w.map lhs, w.map rhs]) :=
    Parts.fragments_related (by simp [hl, hr])
  refine (valueType_related hx).bind_eq fun dtype => .ite ?_ (.ite ?_ ?_)
  · exact hboth.bind fun es es' hes => .pure (hR.call (hs _ (by decide)) hes)
  · refine hboth.bind fun es es' hes => .pure ?_
    have hpow : R (.call "POW" es) (.call "POW" es') := hR.call (hs _ (by decide)) hes
    split
    · exact hpow
    · exact converted_related hR hpow _ _
  · exact (operand_related hR hl).bind fun l l' hl => (operand_related hR hr).bind fun r r' hr =>
      .pure (hR.binary hl hr)

theorem unaryExpr_related {op : UnaryOp}
    (hneg : op = .negate → ∀ e e', operand g p input = .ok e → R e e' → R (.negate e) (.negate e'))
    (h : w.Given R p p' input) :
    w.Rel R (unaryExpr g p op input) (unaryExpr g' p' op (w.map input)) := by
  refine (valueType_related h.has).bind_eq fun dtype => ?_
  cases op with
  | abs =>
    have hargs : w.Rel (List.Forall₂ R) (p.fragments [input]) (p'.fragments [w.map input]) :=
      Parts.fragments_related (by simp [h])
    exact hargs.bind fun es es' hes => .pure (hR.call (hs _ (by decide)) hes)
  | negate =>
    refine w.bind (operand_related hR h) fun e e' he hee => .pure ?_
    split
    · exact hR.not hee
    · exact hneg rfl e e' he hee
  | invert =>
    exact .ite ((operand_related hR h).bind fun e e' he => .pure (hR.not he)) (.throw rfl)

theorem call_related (hn : isRowFunction name = true) (h : R x x') (before after : List Value)
    (hstrings : ∀ s ∈ (before ++ after).flatMap Value.strings, strings s) :
    R (.call name (before.map .constant ++ x :: after.map .constant))
      (.call name (before.map .constant ++ x' :: after.map .constant)) := by
  have hconst : ∀ vs ⊆ before ++ after,
    List.Forall₂ R (vs.map Expr.constant) (vs.map .constant) := by
    intro vs hvs
    rw [List.forall₂_map_left_iff, List.forall₂_map_right_iff, List.forall₂_same]
    exact fun v hv => hR.constant v fun s hmem =>
      hstrings s (List.mem_flatMap.2 ⟨v, hvs hv, hmem⟩)
  exact hR.call (hs name hn) (List.rel_append (hconst before (List.subset_append_left _ _))
    (.cons h (hconst after (List.subset_append_right _ _))))

theorem mathExpr_related {func : MathFunc} (h : R x x') :
    w.Rel R (mathExpr func x) (mathExpr func x') := by
  have hnone := List.forall_mem_nil strings
  cases func with
  | log base =>
    cases base with
    | none => exact .pure (call_related hR hs (by decide) h [] [] hnone)
    | some b => exact .pure (call_related hR hs (by decide) h [.float b] [] hnone)
  | trunc decimals =>
    cases decimals with
    | none => exact .pure (call_related hR hs (by decide) h [] [] hnone)
    | some d => exact .pure (call_related hR hs (by decide) h [] [.integer d.toInt64] hnone)
  | plain func =>
    cases func with
    | expm1 =>
      exact .pure (hR.binary (call_related hR hs (by decide) h [] [] hnone) (hR.whole 1))
    | log1p =>
      exact .pure (call_related hR hs (by decide) (hR.binary (hR.whole 1) h) [] [] hnone)
    | log2 => exact .pure (call_related hR hs (by decide) h [.integer 2] [] hnone)
    | log10 => exact .pure (call_related hR hs (by decide) h [.integer 10] [] hnone)
    | arccosh | arcsinh | arctanh | radians | degrees => exact .throw rfl
    | _ => exact .pure (call_related hR hs (by decide) h [] [] hnone)

theorem stripExpr_related (hn : isRowFunction name = true) {set : Option String} (h : R x x') :
    w.Rel R (stripExpr op name set x) (stripExpr op name set x') := by
  unfold stripExpr
  split
  · exact .pure (call_related hR hs hn h [] [] (List.forall_mem_nil _))
  · exact .pure (call_related hR hs hn h [] [] (List.forall_mem_nil _))
  · exact .throw rfl

omit hR hs in
theorem next_related {n : Int64} (h : n = Int64.maxValue → w.overflow) :
    w.Rel Eq (next n) (next n) := by
  unfold next
  split
  · next hn => exact w.overflows (h hn)
  · exact .pure rfl

theorem textExpr_related (hstrings : ∀ s ∈ op.strings, strings s)
    (hover : op.Overflows → w.overflow)
    (h : R x x') :
    w.Rel R (textExpr op x) (textExpr op x') := by
  cases op with
  | capitalize =>
    have hfirst : R (.call "SUBSTR" [x, whole 1, whole 1])
      (.call "SUBSTR" [x', whole 1, whole 1]) :=
      call_related hR hs (by decide) h [] [.integer 1, .integer 1] hstrings
    have hrest : R (.call "SUBSTR" [x, whole 2]) (.call "SUBSTR" [x', whole 2]) :=
      call_related hR hs (by decide) h [] [.integer 2] hstrings
    refine .pure (hR.call (hs _ (by decide)) (.cons ?_ (.cons ?_ .nil)))
    · exact call_related hR hs (by decide) hfirst [] [] hstrings
    · exact call_related hR hs (by decide) hrest [] [] hstrings
  | contains pattern caseful regex flags =>
    refine .ite (.throw rfl) (.pure (hR.binary ?_ (hR.whole 0)))
    cases regex with
    | false | true => exact call_related hR hs (by decide) h [] [.string pattern] hstrings
  | count pattern flags =>
    exact .ite (.throw rfl) (.pure (call_related hR hs (by decide) h [] [.string pattern] hstrings))
  | endsWith pattern =>
    refine .pure (hR.binary (hR.call (hs _ (by decide)) (.cons ?_ (.cons ?_ .nil))) (hR.whole 1))
    · exact call_related hR hs (by decide) h [] [] (List.forall_mem_nil _)
    · exact hR.call (hs _ (by decide)) (.cons (hR.quoted (hstrings _ (.head _))) .nil)
  | startsWith pattern =>
    exact .pure (hR.binary (call_related hR hs (by decide) h [] [.string pattern] hstrings)
      (hR.whole 1))
  | extract pattern flags n =>
    exact .ite (.throw rfl)
      (.pure (call_related hR hs (by decide) h [] [.string pattern, .integer n] hstrings))
  | find sub start stop =>
    have hfound : ∀ position, R (.call "INSTR" [x, quoted sub, whole position])
        (.call "INSTR" [x', quoted sub, whole position]) := fun position =>
      call_related hR hs (by decide) h [] [.string sub, .integer position] hstrings
    cases stop with
    | some n => exact .throw rfl
    | none =>
      exact .ite ((next_related fun hn => hover ⟨rfl, hn⟩).bind_eq fun position =>
        .pure (hR.binary (hfound position) (hR.whole 1)))
          (.pure (hR.binary (hfound start) (hR.whole 1)))
  | replace pattern replacement n caseful flags regex =>
    exact .ite (.throw rfl)
      (.pure (call_related hR hs (by decide) h [] [.string _, .string _, .integer _] hstrings))
  | get index =>
    exact (next_related hover).bind_eq fun position =>
      .pure (call_related hR hs (by decide) h [] [.integer position, .integer 1] hstrings)
  | len | lower | upper => exact .pure (call_related hR hs (by decide) h [] [] hstrings)
  | stripLeft set | stripRight set | strip set => exact stripExpr_related hR hs (by decide) h
  | «repeat» count => exact .pure (call_related hR hs (by decide) h [] [.integer count] hstrings)
  | substring start length =>
    refine (next_related hover).bind_eq fun position => .pure ?_
    cases length with
    | none => exact call_related hR hs (by decide) h [] [.integer position] hstrings
    | some n => exact call_related hR hs (by decide) h [] [.integer position, .integer n] hstrings

theorem datetimeExpr_related {part : DatetimePart} (hstrings : ∀ s ∈ part.strings, strings s)
    (h : R x x') :
    w.Rel R (datetimeExpr part x) (datetimeExpr part x') := by
  cases part with
  | weekOfYear | weekDay => exact .pure (call_related hR hs (by decide) h [] [] hstrings)
  | microsecond | dayOfYear => exact .throw rfl
  | _ => exact .pure (call_related hR hs (by decide) h [] [.string _] hstrings)

omit hs in
theorem betweenExpr_related {left right : Option NodeId} {inclusive : Bool}
    (hi : w.Given R p p' input)
    (hl : ∀ y ∈ left, w.Given R p p' y)
    (hr : ∀ y ∈ right, w.Given R p p' y) :
    w.Rel R (betweenExpr g p input left right inclusive)
      (betweenExpr g' p' (w.map input) (left.map w.map) (right.map w.map) inclusive) := by
  have hbound : ∀ (op : BinaryOp) (x x' : Expr) (bound : Option NodeId), R x x' →
      (∀ y ∈ bound, w.Given R p p' y) →
      w.Rel (Option.Rel R) (boundExpr g p op x bound)
        (boundExpr g' p' op x' (bound.map w.map)) := by
    intro op x x' bound hx hb
    cases bound with
    | none => exact .pure .none
    | some y =>
      exact (operand_related hR (hb y rfl)).bind fun e e' he => .pure (.some (hR.binary hx he))
  refine (operand_related hR hi).bind fun x x' hx => ?_
  cases left <;> cases right <;> cases inclusive
  case some.some.true l r =>
    exact (operand_related hR (hl l rfl)).bind fun l l' hl =>
      (operand_related hR (hr r rfl)).bind fun r r' hr => .pure (hR.between hx hl hr)
  all_goals
    refine (hbound _ x x' _ hx hl).bind fun a a' ha =>
      (hbound _ x x' _ hx hr).bind fun b b' hb => ?_
    cases ha with
    | none =>
      cases hb with
      | none => exact .throw rfl
      | some hb => exact .pure hb
    | some ha =>
      cases hb with
      | none => exact .pure ha
      | some hb => exact .pure (hR.binary ha hb)

omit hR hs in
theorem branchesOf_related (hc : ∀ x ∈ conditions, w.Given R p p' x)
    (hr : ∀ x ∈ results, w.Given R p p' x) :
    w.Rel (List.Forall₂ fun b b' => R b.1 b'.1 ∧ R b.2 b'.2) (branchesOf p conditions results)
      (branchesOf p' (conditions.map w.map) (results.map w.map)) := by
  induction conditions generalizing results with
  | nil => exact .pure .nil
  | cons c conditions ih =>
    cases results with
    | nil => exact .pure .nil
    | cons r results =>
      refine (hc c (.head _)).fragment.bind fun x x' hx =>
        (hr r (.head _)).fragment.bind fun y y' hy => ?_
      exact (ih (fun z hz => hc z (.tail _ hz)) fun z hz =>
        hr z (.tail _ hz)).bind fun bs bs' hbs => .pure (.cons ⟨hx, hy⟩ hbs)

omit hs in
theorem switchExpr_related {subject : Option NodeId} {fallback : Option NodeId}
    (h : ∀ o ∈ (ElementOp.switch subject conditions results
      fallback).operands, o.1 ≠ .subquery → w.Given R p p' o.2) :
    w.Rel R (switchExpr p subject conditions results fallback)
      (switchExpr p' (subject.map w.map) (conditions.map w.map) (results.map w.map)
        (fallback.map w.map)) := by
  simp only [ElementOp.operands, Operand.perhaps, Operand.many, List.mem_append, List.mem_map] at h
  refine (Parts.fragment?_related fun y hy => h (.subject, y) (by simp_all) (by simp)).bind
    fun s s' hsub => ?_
  refine (branchesOf_related (fun x hx => h (.conditions, x) (by simp_all) (by simp)) fun x hx =>
    h (.results, x) (by simp_all) (by simp)).bind fun bs bs' hbs => ?_
  exact (Parts.fragment?_related fun y hy => h (.fallback, y) (by simp_all) (by simp)).bind
    fun f f' hf =>
    .pure (hR.cases hsub hbs hf)

omit hs in
/-- The conditions of buckets are about the value that is put into buckets. -/
theorem Cut.conditions_related (c : Cut) (hbins : ∀ v ∈ c.bins, ∀ s ∈ v.strings, strings s)
    (h : R x x') : List.Forall₂ R (Cut.conditions c x) (Cut.conditions c x') := by
  have hbetween : ∀ bins first, (∀ v ∈ bins, ∀ s ∈ v.strings, strings s) →
      List.Forall₂ R (Cut.between c x first bins) (Cut.between c x' first bins) := by
    intro bins
    induction bins with
    | nil => exact fun _ _ => .nil
    | cons low rest ih =>
      intro first hbins
      cases rest with
      | nil => exact .nil
      | cons high rest =>
        rw [List.forall_mem_cons, List.forall_mem_cons] at hbins
        exact .cons (hR.binary (hR.binary (hR.constant _ hbins.1) h)
          (hR.binary h (hR.constant _ hbins.2.1))) (ih false (List.forall_mem_cons.2 hbins.2))
  have hbelow : List.Forall₂ R (Cut.below c x) (Cut.below c x') := by
    unfold Cut.below
    split
    · next bin hbin =>
      split
      · exact .cons (hR.binary h (hR.constant _ (hbins bin (List.mem_of_head? hbin)))) .nil
      · exact .nil
    · exact .nil
  have habove : List.Forall₂ R (Cut.above c x) (Cut.above c x') := by
    unfold Cut.above
    split
    · next bin hbin =>
      split
      · exact .cons (hR.binary h (hR.constant _ (hbins bin (List.mem_of_getLast? hbin)))) .nil
      · exact .nil
    · exact .nil
  exact List.rel_append (List.rel_append hbelow (hbetween _ _ hbins)) habove

omit hs in
theorem zip_labels_related {cs cs' : List Expr} (h : List.Forall₂ R cs cs') (labels : List Value)
    (hlabels : ∀ v ∈ labels, ∀ s ∈ v.strings, strings s) :
    List.Forall₂ (fun b b' => R b.1 b'.1 ∧ R b.2 b'.2) (cs.zip (labels.map .constant))
      (cs'.zip (labels.map .constant)) := by
  induction h generalizing labels with
  | nil => exact .nil
  | cons hc _ ih =>
    cases labels with
    | nil => exact .nil
    | cons v labels =>
      rw [List.forall_mem_cons] at hlabels
      exact .cons ⟨hc, hR.constant v hlabels.1⟩ (ih labels hlabels.2)

omit hs in
theorem Cut.expr_related (c : Cut)
    (hstrings : ∀ v ∈ c.bins ++ c.labels, ∀ s ∈ v.strings, strings s) (h : R x x') :
    w.Rel R (Cut.expr c x) (Cut.expr c x') := by
  obtain ⟨hbins, hlabels⟩ := List.forall_mem_append.1 hstrings
  have hconds := Cut.conditions_related hR c hbins h
  unfold Cut.expr
  rw [hconds.length_eq]
  exact .ite (.throw rfl) (.pure (hR.cases .none (zip_labels_related hR hconds _ hlabels) .none))

omit hs in
theorem membershipExpr_related {negated : Bool} {values : Membership}
    (hi : w.Given R p p' input)
    (hv : ∀ ids, values = .literals ids → ∀ x ∈ ids, w.Given R p p' x)
    (hlevel : ∀ x, values = .subquery x → p.level id = p'.level (w.map id)) :
    w.Rel R (membershipExpr p id negated input values)
      (membershipExpr p' (w.map id) negated (w.map input) (values.rename w.map)) := by
  cases values with
  | literals ids =>
    exact (Parts.fragments_related (hv ids rfl)).bind fun es es' hes =>
      hi.fragment.bind fun e e' he => .pure (hR.inList he hes)
  | subquery x =>
    refine hi.fragment.bind fun e e' he => ?_
    rw [hlevel x rfl]
    exact .pure (hR.inLevel he)

theorem elementExpr_related {op : ElementOp}
    (hstrings : ∀ s ∈ (Kind.element op).strings, strings s)
    (h : ∀ o ∈ op.operands, o.1 ≠ .subquery → w.Given R p p' o.2)
    (hlevel : (Kind.element op).subquery?.isSome → p.level id = p'.level (w.map id)) :
    w.Rel R (elementExpr g p id op) (elementExpr g' p' (w.map id) (op.rename w.map)) := by
  have hmember : ∀ input values negated, (∀ o ∈ (.input, input) :: values.operands,
      o.1 ≠ .subquery → w.Given R p p' o.2) →
      (∀ x, values = .subquery x → p.level id = p'.level (w.map id)) →
      w.Rel R (membershipExpr p id negated input values)
        (membershipExpr p' (w.map id) negated (w.map input) (values.rename w.map)) := by
    intro input values negated h hlevel
    refine membershipExpr_related hR (h (.input, input) (by simp) (by simp)) ?_ hlevel
    rintro ids rfl x hx
    exact h (.values, x) (by simp [Membership.operands, Operand.many, hx]) (by simp)
  cases op with
  | isNull input | notNull input =>
    exact (operand_related hR (h (.input, input) (.head _) (by simp))).bind
      fun e e' he => .pure (hR.isNull he)
  | fillNull input value =>
    have hi := h (.input, input) (.head _) (by simp)
    have hv := h (.value, value) (.tail _ (.head _)) (by simp)
    refine hi.fragment.bind fun x x' hx => hv.fragment.bind fun v v' hv => .pure ?_
    exact hR.call (hs _ (by decide)) (.cons (hR.isNull hx) (.cons hv (.cons hx .nil)))
  | isIn input values =>
    exact hmember input values false h fun x hx => hlevel (by simp [hx, Kind.subquery?])
  | notIn input values =>
    exact hmember input values true h fun x hx => hlevel (by simp [hx, Kind.subquery?])
  | between input left right inclusive =>
    simp only [ElementOp.operands, Operand.perhaps, Operand.many] at h
    refine betweenExpr_related hR (h (.input, input) (by simp) (by simp)) (fun y hy => ?_)
      fun y hy => ?_
    · cases hy
      exact h (.left, y) (by simp) (by simp)
    · cases hy
      exact h (.right, y) (by simp) (by simp)
  | ifElse condition consequent alternative =>
    simp only [ElementOp.operands] at h
    have hargs : w.Rel (List.Forall₂ R) (p.fragments [condition, consequent, alternative])
        (p'.fragments [w.map condition, w.map consequent, w.map alternative]) :=
      Parts.fragments_related (by simpa using h)
    exact hargs.bind fun es es' hes => .pure (hR.call (hs _ (by decide)) hes)
  | switch subject conditions results fallback => exact switchExpr_related hR h
  | cut input cut =>
    refine .ite (.throw rfl) ?_
    exact (h (.input, input) (.head _) (by simp)).fragment.bind fun x x' hx =>
      Cut.expr_related hR cut (List.forall_mem_flatMap.1 hstrings) hx

omit hs in
theorem columnExpr_related {collection : NodeId} (hx : w.has id)
    (h : ∀ field, w.Rel (fun r r' => R (.column r.1 r.2) (.column r'.1 r'.2))
      (p.column collection field) (p'.column (w.map collection) field)) :
    w.Rel R (columnExpr g p id collection)
      (columnExpr g' p' (w.map id) (w.map collection)) := by
  refine w.node hx fun n functions _ => ?_
  have htyped : (n.rename w.map functions).typed? = n.typed? := rfl
  rw [htyped]
  split
  · exact .throw rfl
  · split
    · exact .throw rfl
    · exact (h _).bind fun r r' hr => .pure (converted_related hR hr _ _)

omit hs in
theorem literalExpr_related {value : Value} (hx : w.has id) (hv : ∀ s ∈ value.strings, strings s) :
    w.Rel R (literalExpr g id value) (literalExpr g' (w.map id) value) := by
  unfold literalExpr
  split
  · exact (valueType_related hx).bind_eq fun t =>
      .pure (converted_related hR (hR.constant value hv) _ t)
  · exact .pure (hR.constant value hv)

omit hs in
theorem castExpr_related (hx : w.has id) (h : w.Given R p p' input) :
    w.Rel R (castExpr g p id input) (castExpr g' p' (w.map id) (w.map input)) :=
  h.fragment.bind fun _ _ he => (valueType_related h.has).bind_eq fun s =>
    (valueType_related hx).bind_eq fun t => .pure (converted_related hR he s t)

omit hs in
theorem userMapExpr_related {function function' : FunctionId}
    (h : w.Given R p p' input)
    (hsame : g'.function function' = g.function function) (hf : ∀ f, g.function function = .ok f →
      p.function f.name = p'.function f.name ∧ calls (p.function f.name)) :
    w.Rel R (userMapExpr g p input function) (userMapExpr g' p' (w.map input) function') := by
  refine w.bind (function_related hsame) fun f f' hfound hff => ?_
  subst hff
  obtain ⟨hname, hcalls⟩ := hf f hfound
  have hargs : w.Rel (List.Forall₂ R) (p.fragments [input]) (p'.fragments [w.map input]) :=
    Parts.fragments_related (by simp [h])
  refine hargs.bind fun es es' hes => ?_
  rw [← hname]
  exact .pure (hR.call hcalls hes)

end

section

variable {R : Expr → Expr → Prop} {calls strings : String → Prop} {g g' : Graph}
variable {w : Comparison g g'} {p p' : Parts}
  (hR : FullCongruence R calls strings) (hwords : ∀ name, isBuiltIn name = true → calls name)
variable {func : Reduction} {ddof : Int64} {op : WindowOp}

include hR hwords

theorem reductionOf_related {dtype : DataType} {x x' : Expr} (hsum : func = .sum → strings "")
    (h : R x x') : w.Rel R (reductionOf func ddof dtype x) (reductionOf func ddof dtype x') := by
  have hcall : ∀ name, isBuiltIn name = true →
    R (.call name [x]) (.call name [x']) := fun name hn =>
    hR.call (hwords name hn) (.cons h .nil)
  have hnumber : R (asNumber x) (asNumber x') :=
    hR.call (hwords _ (by decide)) (.cons h (.cons (hR.whole 1) (.cons (hR.whole 0) .nil)))
  have hisOne : ∀ name, isBuiltIn name = true → R (.binary .eq (.call name [asNumber x]) (whole 1))
      (.binary .eq (.call name [asNumber x']) (whole 1)) := fun name hn =>
    hR.binary (hR.call (hwords name hn) (.cons hnumber .nil)) (hR.whole 1)
  cases func with
  | count => exact .pure (hcall _ (by decide))
  | nUnique => exact .pure (hR.callDistinct (hwords _ (by decide)) h)
  | sum =>
    cases dtype with
    | boolean => exact .pure (hR.call (hwords _ (by decide)) (.cons hnumber .nil))
    | string =>
      exact .pure (hR.call (hwords _ (by decide)) (.cons (hR.quoted (hsum rfl)) (.cons h .nil)))
    | _ => exact .pure (hcall _ (by decide))
  | mean | median => exact .pure (hcall _ (by decide))
  | var | std => exact .ite (.pure (hcall _ (by decide))) (.throw rfl)
  | any | all => exact .ite (.pure (hisOne _ (by decide))) (.throw rfl)
  | max | min =>
    refine .pure ?_
    split
    · exact hisOne _ (by decide)
    · exact hcall _ (by decide)

theorem reductionExpr_related {input : NodeId} (hsum : func = .sum → strings "")
    (h : w.Given R p p' input) :
    w.Rel R (reductionExpr g p func input ddof) (reductionExpr g' p' func (w.map input) ddof) := by
  rw [reductionExpr, reductionExpr, w.isCollection h.has]
  refine .ite (.ite (.pure (hR.call (hwords _ (by decide)) (.cons (hR.whole 1) .nil))) (.throw rfl))
    ?_
  exact h.fragment.bind fun x x' hx => (valueType_related h.has).bind_eq fun dtype =>
    reductionOf_related hR hwords hsum hx

theorem windowFunc_related (hstrings : ∀ s ∈ (Kind.window op).strings, strings s)
    (h : ∀ o ∈ op.operands, w.Given R p p' o.2) :
    w.Rel (fun e e' => e.isCall = true ∧ R e e') (windowFunc g p op)
      (windowFunc g' p' (op.rename w.map)) := by
  cases op with
  | cumulative func input unique spec =>
    have harg : w.Rel R (cumulativeArg g p func input)
        (cumulativeArg g' p' func (w.map input)) := by
      have hi := h (.input, input) (.head _)
      refine hi.fragment.bind fun x x' hx => ?_
      refine .ite ((valueType_related hi.has).bind_eq fun dtype => .ite (.pure ?_) (.pure hx))
        (.pure hx)
      exact hR.call (hwords _ (by decide)) (.cons hx (.cons (hR.whole 1) (.cons (hR.whole 0) .nil)))
    refine harg.bind fun x x' hx => .pure ?_
    have hname : isBuiltIn func.sqlName = true := by cases func <;> decide
    split
    · exact ⟨rfl, hR.callDistinct (hwords _ hname) hx⟩
    · exact ⟨rfl, hR.call (hwords _ hname) (.cons hx .nil)⟩
  | rank func spec =>
    have hname : isBuiltIn func.sqlName = true := by cases func <;> decide
    exact .pure ⟨rfl, hR.call (hwords _ hname) .nil⟩
  | shift func input offset default spec =>
    refine (h (.input, input) (.head _)).fragment.bind fun x x' hx => .pure ?_
    have hname : isBuiltIn func.sqlName = true := by cases func <;> decide
    refine ⟨rfl, hR.call (hwords _ hname) (.cons hx (.cons (hR.whole offset) ?_))⟩
    cases hv : default.filter (!·.isNull) with
    | none => exact .nil
    | some v =>
      refine .cons (hR.constant v fun s hs => hstrings s (List.mem_flatMap.2 ⟨v, ?_, hs⟩)) .nil
      exact Option.mem_toList.2 (Option.filter_eq_some_iff.1 hv).1

omit hR hwords in
theorem Parts.sortKeys_related {keys : List SortKey}
    (h : ∀ k ∈ keys, w.Given R p p' k.expr) :
    w.Rel (List.Forall₂ (KeyRel R)) (p.sortKeys keys)
      (p'.sortKeys (keys.map (SortKey.rename w.map))) := by
  induction keys with
  | nil => exact .pure .nil
  | cons key rest ih =>
    refine (h key (.head _)).fragment.bind fun e e' he =>
      (ih fun y hy => h y (.tail _ hy)).bind fun es es' hes => .pure (.cons ?_ hes)
    obtain ⟨x, ascending⟩ := key
    cases ascending with
    | true => exact .ascending he
    | false => exact .descending he

theorem windowExpr_related (hstrings : ∀ s ∈ (Kind.window op).strings, strings s)
    (h : ∀ o ∈ op.operands, w.Given R p p' o.2) :
    w.Rel R (windowExpr g p op) (windowExpr g' p' (op.rename w.map)) := by
  have hrename : (op.rename w.map).spec = op.spec.rename w.map := by cases op <;> rfl
  rw [windowExpr, windowExpr, hrename]
  refine (windowFunc_related hR hwords hstrings h).bind fun f f' hf => ?_
  refine (Parts.fragments_related fun x hx => h _ (op.mem_operands_of_partitionBy hx)).bind
    fun ps ps' hps => ?_
  exact (Parts.sortKeys_related fun k hk => h _ (op.mem_operands_of_orderBy hk)).bind
    fun os os' hos => .pure (hR.windowed hf.1 hf.2 hps hos)

end

/-- Whether values of a kind look at other rows: aggregates and window functions do. -/
def looksAround : Kind → Bool
  | .reduction .. | .window _ => true
  | _ => false

/-- The expressions of a value and of its copy are made of related parts. -/
structure Comparison.Parts {g' : Graph} (w : Comparison g g') (R : Expr → Expr → Prop)
    (calls : String → Prop) (p p' : Compile.Parts)
    (functions : FunctionId → FunctionId) (id : NodeId)
    (kind : Kind) : Prop where
  has : w.has id
  overflows : ∀ x op, kind = .text x op → op.Overflows → w.overflow
  fragment : ∀ o ∈ kind.operands, o.1 ≠ .subquery → w.Given R p p' o.2
  column : ∀ c, kind = .column c → ∀ field, w.Rel
    (fun r r' => R (.column r.1 r.2) (.column r'.1 r'.2)) (p.column c field)
    (p'.column (w.map c) field)
  function : ∀ x function, kind = .userMap x function →
    g'.function (functions function) = g.function function ∧ ∀ f, g.function function = .ok f →
      p.function f.name = p'.function f.name ∧ calls (p.function f.name)
  level : kind.subquery?.isSome → p.level id = p'.level (w.map id)

section

variable {R : Expr → Expr → Prop} {calls strings : String → Prop} {p' : Parts}
  (hR : Congruence R calls strings) (hs : ∀ name, isRowFunction name = true → calls name)
  (hfull : looksAround kind = true →
    FullCongruence R calls strings ∧ ∀ name, isBuiltIn name = true → calls name)
  (hstrings : ∀ s ∈ kind.strings, strings s)
  (hneg : ∀ x ∈ kind.negated?, ∀ e e', operand g p x = .ok e → R e e' → R (.negate e) (.negate e'))

include hR hs hfull hstrings hneg

/-- Related parts give related expressions. A relation that only functions of single rows keep is
kept by values that look at no other rows. -/
theorem valueExpr_related {g' : Graph} {w : Comparison g g'} {functions : FunctionId → FunctionId}
    (h : w.Parts R calls p p' functions id kind) :
    w.Rel R (valueExpr g p id kind) (valueExpr g' p' (w.map id) (kind.rename w.map functions)) := by
  have hinput : ∀ {input}, (.input, input) ∈ kind.operands → w.Given R p p' input :=
    fun hi => h.fragment _ hi (by simp)
  cases kind with
  | element op => exact elementExpr_related hR hs hstrings h.fragment h.level
  | binary op lhs rhs =>
    exact binaryExpr_related hR hs h.has (h.fragment (.lhs, lhs) (.head _) (by simp))
      (h.fragment (.rhs, rhs) (.tail _ (.head _)) (by simp))
  | unary op input =>
    refine unaryExpr_related hR hs ?_ (hinput (.head _))
    rintro rfl
    exact hneg input rfl
  | math func input =>
    exact (hinput (.head _)).fragment.bind fun x x' hx => mathExpr_related hR hs hx
  | text input op =>
    exact (hinput (.head _)).fragment.bind fun x x' hx =>
      textExpr_related hR hs hstrings (h.overflows input op rfl) hx
  | datetime input part =>
    exact (hinput (.head _)).fragment.bind fun x x' hx => datetimeExpr_related hR hs hstrings hx
  | reduction func input ddof =>
    refine reductionExpr_related (hfull rfl).1 (hfull rfl).2 ?_ (hinput (.head _))
    rintro rfl
    exact hstrings "" List.mem_cons_self
  | window op =>
    refine windowExpr_related (hfull rfl).1 (hfull rfl).2 hstrings fun o ho => h.fragment o ho ?_
    exact op.slot_ne_subquery ho
  | cast input => exact castExpr_related hR h.has (hinput (.head _))
  | column c => exact columnExpr_related hR h.has (h.column c rfl)
  | literal value => exact literalExpr_related hR h.has hstrings
  | userMap input function =>
    obtain ⟨hsame, hf⟩ := h.function input function rfl
    exact userMapExpr_related hR (hinput (.head _)) hsame hf
  | _ => exact .throw rfl

theorem valueExpr_follows (h : (Comparison.onSuccess g).Parts R calls p p' (fun k => k) id kind) :
    Follows R (valueExpr g p id kind) (valueExpr g p' id kind) := by
  have hrel : (Comparison.onSuccess g).Rel R (valueExpr g p id kind)
      (valueExpr g p' id (kind.rename (fun x => x) fun k => k)) :=
    valueExpr_related hR hs hfull hstrings hneg h
  rwa [Kind.rename_self] at hrel

end

/-- What every form of expression keeps holds of the expression of a value if it holds of those of
its operands. -/
theorem FullCongruence.of_value {P : Expr → Prop} {calls strings : String → Prop} {e : Expr}
    (hP : FullCongruence (fun e _ => P e) calls strings)
    (hwords : ∀ name, isBuiltIn name = true → calls name)
    (hstrings : ∀ s ∈ kind.strings, strings s)
    (hneg : ∀ x ∈ kind.negated?, ∀ e, operand g p x = .ok e → P e → P (.negate e))
    (hfrag : ∀ o ∈ kind.operands, o.1 ≠ .subquery → ∀ x, p.fragment o.2 = .ok x → P x)
    (hcol : ∀ c, kind = .column c → ∀ field r, p.column c field = .ok r → P (.column r.1 r.2))
    (hfun : ∀ x function f, kind = .userMap x function → g.function function = .ok f →
      calls (p.function f.name)) (he : valueExpr g p id kind = .ok e) : P e := by
  have hrow : ∀ name, isRowFunction name = true → calls name := by
    intro name hname
    rw [isRowFunction, Bool.and_eq_true] at hname
    exact hwords name hname.2
  have hfollows : Follows (fun e _ => P e) (valueExpr g p id kind) (valueExpr g p id kind) :=
    valueExpr_follows hP.toCongruence hrow (fun _ => ⟨hP, hwords⟩) hstrings
      (fun x hx e _ he => hneg x hx e he)
      { has := trivial
        overflows := fun _ _ _ _ => trivial
        fragment := fun o ho hslot => ⟨trivial, fun x hx => ⟨x, hx, hfrag o ho hslot x hx⟩⟩
        column := fun c hc field r hr => ⟨r, hr, hcol c hc field r hr⟩
        function := fun x function hk => ⟨rfl, fun f hf => ⟨rfl, hfun x function f hk hf⟩⟩
        level := fun _ => rfl }
  obtain ⟨_, _, hholds⟩ := hfollows e he
  exact hholds

end PlanSql.Compile

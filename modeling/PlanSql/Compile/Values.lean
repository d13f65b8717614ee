import PlanSql.Compile.Scope

/-!
# Expressions of values

The expression of a value is made of the expressions of its operands and of what the compilation
knows besides: names of columns, deployed names of user functions, and levels of subqueries. Nothing
here changes the state of a compilation.
-/

namespace PlanSql.Compile

open PlanSql.Sql

/-- What the expression of a value is made of, besides the graph. -/
structure Parts where
  fragment : NodeId → Except Error Expr
  column : NodeId → String → Except Error (Alias × String)
  function : String → String
  level : NodeId → LevelId

/-- What a state knows of the parts of values. -/
def State.parts (env : Env) (s : State) : Parts where
  fragment := s.context.fragment
  column := columnRef env.graph s.visible env.depth
  function := fun f => (s.context.functions.find? f).getD ""
  level := fun id => (s.subqueries.lookup id).getD 0

namespace Parts

/-- The expressions of some values. -/
def fragments (p : Parts) : List NodeId → Except Error (List Expr)
  | [] => pure []
  | id :: rest => do
    let e ← p.fragment id
    pure (e :: (← p.fragments rest))

/-- The expressions of sort keys, with their directions. -/
def sortKeys (p : Parts) : List SortKey → Except Error (List Expr)
  | [] => pure []
  | key :: rest => do
    let e ← p.fragment key.expr
    pure ((if key.ascending then e else .descending e) :: (← p.sortKeys rest))

/-- The expression of a value that may be missing. -/
def fragment? (p : Parts) : Option NodeId → Except Error (Option Expr)
  | some id => do pure (some (← p.fragment id))
  | none => pure none

end Parts

/-- An expression, cast unless the types are the same. -/
def converted (e : Expr) (source target : DataType) : Expr :=
  if source = target then e else .convert e source target

/-- A whole number as an expression. -/
def whole (n : Int64) : Expr := .constant (.integer n)

/-- A text as an expression. -/
def quoted (s : String) : Expr := .constant (.string s)

/-- One for true and zero for false. -/
def asNumber (e : Expr) : Expr := .call "IF" [e, whole 1, whole 0]

/-- The type of a value. -/
def valueType (g : Graph) (id : NodeId) : Except Error DataType := do
  match (← g.node id).dtype? with
  | some dtype => pure dtype
  | none => throw (.inconsistent (.collectionOperand id))

/-- Whether the expression of a node is put in parentheses when it is an operand. -/
def needsGroup (g : Graph) (kind : Kind) : Except Error Bool :=
  match kind with
  | .binary .. => pure true
  | .element (.fillNull ..) => pure false
  | .element (.ifElse ..) => pure false
  | .element _ => pure true
  | .math func _ => pure (func = .plain .expm1)
  | .text _ op =>
    match op with
    | .contains .. | .endsWith .. | .startsWith .. | .find .. => pure true
    | _ => pure false
  | .reduction func input _ =>
    match func with
    | .any | .all => pure true
    | .max | .min => do pure ((← g.node input).dtype? = some .boolean)
    | _ => pure false
  | _ => pure false

/-- The expression of an operand, in parentheses where it needs them. -/
def operand (g : Graph) (p : Parts) (id : NodeId) : Except Error Expr := do
  let e ← p.fragment id
  let node ← g.node id
  if ← needsGroup g node.kind then pure (.group e) else pure e

/-- An operator between two values. Text is joined by a function, powers are a function of
floating point numbers. -/
def binaryExpr (g : Graph) (p : Parts) (id : NodeId) (op : BinaryOp) (lhs rhs : NodeId) :
    Except Error Expr := do
  let dtype ← valueType g id
  if op = .add ∧ dtype = .string then
    pure (.call "CONCAT" (← p.fragments [lhs, rhs]))
  else if op = .power then
    let power := Expr.call "POW" (← p.fragments [lhs, rhs])
    pure (if dtype.isFloat then power else converted power .float64 dtype)
  else
    let l ← operand g p lhs
    let r ← operand g p rhs
    pure (.binary op l r)

/-- An operator on one value. -/
def unaryExpr (g : Graph) (p : Parts) (op : UnaryOp) (input : NodeId) : Except Error Expr := do
  let dtype ← valueType g input
  match op with
  | .abs => pure (.call "ABS" (← p.fragments [input]))
  | .negate => do
    let e ← operand g p input
    pure (if dtype = .boolean then .not e else .negate e)
  | .invert =>
    if dtype = .boolean then do pure (.not (← operand g p input))
    else throw (.unsupported (.bitwiseInvert dtype))

/-- A function of one number, if a statement has it. -/
def plainMathExpr (func : PlainMath) (x : Expr) : Except Error Expr :=
  match func with
  | .abs => pure (.call "ABS" [x])
  | .sqrt => pure (.call "SQRT" [x])
  | .sin => pure (.call "SIN" [x])
  | .sinh => pure (.call "SINH" [x])
  | .cos => pure (.call "COS" [x])
  | .cosh => pure (.call "COSH" [x])
  | .tan => pure (.call "TAN" [x])
  | .tanh => pure (.call "TANH" [x])
  | .exp => pure (.call "EXP" [x])
  | .expm1 => pure (.binary .sub (.call "EXP" [x]) (whole 1))
  | .log2 => pure (.call "LOG" [whole 2, x])
  | .log10 => pure (.call "LOG" [whole 10, x])
  | .log1p => pure (.call "LN" [.binary .add (whole 1) x])
  | .arccos => pure (.call "ACOS" [x])
  | .arcsin => pure (.call "ASIN" [x])
  | .arctan => pure (.call "ATAN" [x])
  | .ceil => pure (.call "CEIL" [x])
  | .floor => pure (.call "FLOOR" [x])
  | .arccosh | .arcsinh | .arctanh | .radians | .degrees => throw (.unsupported (.math func))

/-- A function of numbers. -/
def mathExpr (func : MathFunc) (x : Expr) : Except Error Expr :=
  match func with
  | .plain func => plainMathExpr func x
  | .log none => pure (.call "LN" [x])
  | .log (some base) => pure (.call "LOG" [.constant (.float base), x])
  | .trunc none => pure (.call "TRUNC" [x])
  | .trunc (some decimals) => pure (.call "TRUNC" [x, whole decimals.toInt64])

/-- The next whole number; the largest one has none. -/
def next (n : Int64) : Except Error Int64 :=
  if n = Int64.maxValue then throw .overflow else pure (n + 1)

/-- An operation on text that has no form in a statement. -/
def textLimit (op : TextOp) (limit : TextLimit) : Except Error Expr :=
  throw (.unsupported (.textOperation op.key limit))

/-- Text without the spaces at its ends, if only spaces are to go. -/
def stripExpr (op : TextOp) (name : String) (set : Option String) (x : Expr) :
    Except Error Expr :=
  match set with
  | none | some " " => pure (.call name [x])
  | some _ => textLimit op .stripSet

/-- An operation on text. Positions count from one in a statement. -/
def textExpr (op : TextOp) (x : Expr) : Except Error Expr :=
  match op with
  | .capitalize =>
    pure (.call "CONCAT" [.call "TOUPPER" [.call "SUBSTR" [x, whole 1, whole 1]],
      .call "TOLOWER" [.call "SUBSTR" [x, whole 2]]])
  | .contains pattern caseful regex flags =>
    if !caseful || flags ≠ 0 then textLimit op .flaggedMatch
    else
      let name := if regex then "REGEXP_INSTR" else "INSTR"
      pure (.binary .gt (.call name [x, quoted pattern]) (whole 0))
  | .count pattern flags =>
    if flags ≠ 0 then textLimit op .patternFlags
    else pure (.call "REGEXP_COUNT" [x, quoted pattern])
  | .endsWith pattern =>
    pure (.binary .eq (.call "INSTR" [.call "REVERSE" [x], .call "REVERSE" [quoted pattern]])
      (whole 1))
  | .startsWith pattern => pure (.binary .eq (.call "INSTR" [x, quoted pattern]) (whole 1))
  | .extract pattern flags group =>
    if flags ≠ 0 then textLimit op .patternFlags
    else pure (.call "REGEXP_EXTRACT" [x, quoted pattern, whole group])
  | .find sub start stop =>
    if stop.isSome then textLimit op .endOffset
    else do
      let position ← if 0 ≤ start then next start else pure start
      pure (.binary .sub (.call "INSTR" [x, quoted sub, whole position]) (whole 1))
  | .replace pattern replacement n caseful flags regex =>
    if !caseful || flags ≠ 0 then textLimit op .flaggedMatch
    else
      let pattern := if regex then pattern else Text.escapePattern pattern
      pure (.call "REGEXP_REPLACE" [x, quoted pattern, quoted replacement,
        whole (if n < 0 then 0 else n)])
  | .get index => do pure (.call "SUBSTR" [x, whole (← next index), whole 1])
  | .len => pure (.call "LENGTH" [x])
  | .lower => pure (.call "TOLOWER" [x])
  | .upper => pure (.call "TOUPPER" [x])
  | .stripLeft set => stripExpr op "LTRIM" set x
  | .stripRight set => stripExpr op "RTRIM" set x
  | .strip set => stripExpr op "TRIM" set x
  | .repeat count => pure (.call "REPEAT" [x, whole count])
  | .substring start length => do
    let position ← next start
    pure (.call "SUBSTR" ([x, whole position] ++ (length.map whole).toList))

/-- A part of a point in time. -/
def datetimeExpr (part : DatetimePart) (x : Expr) : Except Error Expr :=
  match part with
  | .year => pure (.call "DATEPART" [x, quoted "yyyy"])
  | .month => pure (.call "DATEPART" [x, quoted "mm"])
  | .day => pure (.call "DATEPART" [x, quoted "dd"])
  | .hour => pure (.call "DATEPART" [x, quoted "hh"])
  | .minute => pure (.call "DATEPART" [x, quoted "mi"])
  | .second => pure (.call "DATEPART" [x, quoted "ss"])
  | .weekOfYear => pure (.call "WEEKOFYEAR" [x])
  | .weekDay => pure (.call "WEEKDAY" [x])
  | .microsecond | .dayOfYear => throw (.unsupported (.datetimePart part))

/-- An aggregate of the values of an expression. -/
def reductionOf (func : Reduction) (ddof : Int64) (dtype : DataType) (x : Expr) :
    Except Error Expr :=
  let isOne := fun name => Expr.binary .eq (.call name [asNumber x]) (whole 1)
  match func with
  | .count => pure (.call "COUNT" [x])
  | .nUnique => pure (.callDistinct "COUNT" x)
  | .sum =>
    match dtype with
    | .boolean => pure (.call "SUM" [asNumber x])
    | .string => pure (.call "WM_CONCAT" [quoted "", x])
    | _ => pure (.call "SUM" [x])
  | .mean => pure (.call "AVG" [x])
  | .median => pure (.call "MEDIAN" [x])
  | .var =>
    if ddof = 0 then pure (.call "VARIANCE" [x])
    else throw (.unsupported (.degreesOfFreedom func ddof.toInt))
  | .std =>
    if ddof = 0 then pure (.call "STDDEV" [x])
    else throw (.unsupported (.degreesOfFreedom func ddof.toInt))
  | .max => pure (if dtype = .boolean then isOne "MAX" else .call "MAX" [x])
  | .min => pure (if dtype = .boolean then isOne "MIN" else .call "MIN" [x])
  | .any => if dtype = .boolean then pure (isOne "MAX") else throw (.illegalCast dtype .boolean)
  | .all => if dtype = .boolean then pure (isOne "MIN") else throw (.illegalCast dtype .boolean)

/-- An aggregate of values, or the number of rows of a collection. -/
def reductionExpr (g : Graph) (p : Parts) (func : Reduction) (input : NodeId) (ddof : Int64) :
    Except Error Expr := do
  if g.isCollection input then
    if func = .count then pure (.call "COUNT" [whole 1])
    else throw (.unsupported (.overCollection func))
  else
    let x ← p.fragment input
    let dtype ← valueType g input
    reductionOf func ddof dtype x

/-- The argument of a running aggregate: truth values are added as numbers. -/
def cumulativeArg (g : Graph) (p : Parts) (func : Cumulative) (input : NodeId) :
    Except Error Expr := do
  let x ← p.fragment input
  if func = .sum then
    if (← valueType g input) = .boolean then pure (asNumber x) else pure x
  else pure x

/-- The function of a window. -/
def windowFunc (g : Graph) (p : Parts) (op : WindowOp) : Except Error Expr := do
  match op with
  | .cumulative func input distinct _ => do
    let arg ← cumulativeArg g p func input
    let name := func.sqlName
    pure (if distinct then .callDistinct name arg else .call name [arg])
  | .rank func _ => pure (.call func.sqlName [])
  | .shift func input offset default _ => do
    let x ← p.fragment input
    let replacement := (default.filter (!·.isNull)).map Expr.constant
    pure (.call func.sqlName ([x, whole offset] ++ replacement.toList))

/-- A function over a window of rows. -/
def windowExpr (g : Graph) (p : Parts) (op : WindowOp) : Except Error Expr := do
  let func ← windowFunc g p op
  let partition ← p.fragments op.spec.partitionBy
  let order ← p.sortKeys op.spec.orderBy
  pure (.windowed func partition order op.spec.frame)

/-- A test for membership in a list or in a subquery. -/
def membershipExpr (p : Parts) (id : NodeId) (negated : Bool) (input : NodeId)
    (values : Membership) : Except Error Expr := do
  match values with
  | .literals ids => do
    let items ← p.fragments ids
    pure (.inList negated (← p.fragment input) items)
  | .subquery _ => do pure (.inLevel negated (← p.fragment input) (p.level id))

/-- A test against a bound that may be missing. -/
def boundExpr (g : Graph) (p : Parts) (op : BinaryOp) (x : Expr) (bound : Option NodeId) :
    Except Error (Option Expr) := do
  match bound with
  | some b => do
    let e ← operand g p b
    pure (some (.binary op x e))
  | none => pure none

/-- A test against bounds, of which one may be missing. -/
def betweenExpr (g : Graph) (p : Parts) (input : NodeId) (left right : Option NodeId)
    (inclusive : Bool) : Except Error Expr := do
  let x ← operand g p input
  match left, right, inclusive with
  | some l, some r, true => do
    let low ← operand g p l
    let high ← operand g p r
    pure (.between x low high)
  | _, _, _ => do
    let above ← boundExpr g p (if inclusive then .ge else .gt) x left
    let below ← boundExpr g p (if inclusive then .le else .lt) x right
    match above, below with
    | some a, some b => pure (.binary .and a b)
    | some a, none => pure a
    | none, some b => pure b
    | none, none => throw (.inconsistent .unbounded)

/-- Conditions and results in pairs, in order; what is left over on one side is dropped. -/
def branchesOf (p : Parts) : List NodeId → List NodeId → Except Error (List (Expr × Expr))
  | c :: conditions, r :: results => do
    let condition ← p.fragment c
    let result ← p.fragment r
    pure ((condition, result) :: (← branchesOf p conditions results))
  | _, _ => pure []

/-- A choice between results. -/
def switchExpr (p : Parts) (subject : Option NodeId) (conditions results : List NodeId)
    (fallback : Option NodeId) : Except Error Expr := do
  let s ← p.fragment? subject
  let branches ← branchesOf p conditions results
  pure (.cases s branches (← p.fragment? fallback))

namespace Cut

/-- The conditions of the buckets between neighbouring bins; `first` says whether the lowest
bucket comes first. -/
def between (c : Cut) (x : Expr) (first : Bool) : List Value → List Expr
  | low :: high :: rest =>
    let lowOp : BinaryOp := if !c.right || (first && c.includeLowest) then .le else .lt
    let highOp : BinaryOp := if c.right || (rest.isEmpty && c.includeLowest) then .le else .lt
    .binary .and (.binary lowOp (.constant low) x) (.binary highOp x (.constant high)) ::
      between c x false (high :: rest)
  | _ => []

/-- The condition of the bucket below the first bin. -/
def below (c : Cut) (x : Expr) : List Expr :=
  match c.bins.head? with
  | some bin =>
    if c.includeUnder then
      [.binary (if c.right && !c.includeLowest then .le else .lt) x (.constant bin)]
    else []
  | none => []

/-- The condition of the bucket above the last bin. -/
def above (c : Cut) (x : Expr) : List Expr :=
  match c.bins.getLast? with
  | some bin =>
    if c.includeOver then
      [.binary (if !c.right && !c.includeLowest then .ge else .gt) x (.constant bin)]
    else []
  | none => []

/-- The conditions of all buckets, in the order of their labels. -/
def conditions (c : Cut) (x : Expr) : List Expr := below c x ++ between c x true c.bins ++ above c x

/-- The label of the bucket that a value is in. -/
def expr (c : Cut) (x : Expr) : Except Error Expr :=
  if c.labels.length < (conditions c x).length then throw (.inconsistent .fewLabels)
  else pure (.cases none ((conditions c x).zip (c.labels.map Expr.constant)) none)

end Cut

/-- A test, a choice or buckets. -/
def elementExpr (g : Graph) (p : Parts) (id : NodeId) (op : ElementOp) : Except Error Expr := do
  match op with
  | .isNull input => pure (.isNull false (← operand g p input))
  | .notNull input => pure (.isNull true (← operand g p input))
  | .fillNull input value => do
    let x ← p.fragment input
    let v ← p.fragment value
    pure (.call "IF" [.isNull false x, v, x])
  | .isIn input values => membershipExpr p id false input values
  | .notIn input values => membershipExpr p id true input values
  | .between input left right inclusive => betweenExpr g p input left right inclusive
  | .ifElse condition consequent alternative =>
    pure (.call "IF" (← p.fragments [condition, consequent, alternative]))
  | .switch subject conditions results fallback => switchExpr p subject conditions results fallback
  | .cut input cut => do
    if cut.bins.length < 2 then throw (.inconsistent .fewBins)
    let x ← p.fragment input
    Cut.expr cut x

/-- A column of a collection, cast to its type. -/
def columnExpr (g : Graph) (p : Parts) (id collection : NodeId) : Except Error Expr := do
  match (← g.node id).typed? with
  | none => throw (.inconsistent (.columnShape id))
  | some typed =>
    match typed.sourceName with
    | none => throw (.schema (.unnamedColumn id))
    | some source => do
      let (label, field) ← p.column collection source
      pure (converted (.column label field) typed.sourceDtype typed.dtype)

/-- A constant of the declared type. -/
def literalExpr (g : Graph) (id : NodeId) (value : Value) : Except Error Expr := do
  match value.dtype? with
  | some natural => do pure (converted (.constant value) natural (← valueType g id))
  | none => pure (.constant value)

/-- A value that is cast to another type. -/
def castExpr (g : Graph) (p : Parts) (id input : NodeId) : Except Error Expr := do
  let x ← p.fragment input
  let source ← valueType g input
  pure (converted x source (← valueType g id))

/-- A call of a user function by its deployed name. -/
def userMapExpr (g : Graph) (p : Parts) (input : NodeId) (function : FunctionId) :
    Except Error Expr := do
  let f ← g.function function
  pure (.call (p.function f.name) (← p.fragments [input]))

/-- The expression of a value. -/
def valueExpr (g : Graph) (p : Parts) (id : NodeId) (kind : Kind) : Except Error Expr :=
  match kind with
  | .element op => elementExpr g p id op
  | .binary op lhs rhs => binaryExpr g p id op lhs rhs
  | .unary op input => unaryExpr g p op input
  | .math func input => do mathExpr func (← p.fragment input)
  | .text input op => do textExpr op (← p.fragment input)
  | .datetime input part => do datetimeExpr part (← p.fragment input)
  | .reduction func input ddof => reductionExpr g p func input ddof
  | .window op => windowExpr g p op
  | .cast input => castExpr g p id input
  | .column collection => columnExpr g p id collection
  | .literal value => literalExpr g id value
  | .userMap input function => userMapExpr g p input function
  | _ => throw (.inconsistent (.notValue id))

end PlanSql.Compile

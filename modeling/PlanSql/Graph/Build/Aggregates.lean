import PlanSql.Graph.Build.Basic

/-!
# Building aggregates and window functions
-/

namespace PlanSql.Build

/-- The type of an average or a spread: a decimal for decimals, else a floating point number. -/
def meanType (dtype : DataType) : DataType := if dtype = .decimal then .decimal else .float64

/-- The type of the result of an aggregate of values. -/
def reductionType (func : Reduction) (dtype : DataType) : Except Error DataType :=
  match func with
  | .count | .nUnique => pure .int64
  | .any | .all => if dtype = .boolean then pure .boolean else throw (.illegalCast dtype .boolean)
  | .max | .min => pure dtype
  | .sum =>
    if dtype = .boolean then pure .int64
    else if dtype = .string ∨ dtype.isNumber then pure dtype
    else throw (.illegalCast dtype .float64)
  | .mean | .median | .var | .std =>
    if dtype.isNumeric then pure (meanType dtype) else throw (.illegalCast dtype .float64)

/-- An aggregate of a value's rows, or the number of rows of a collection. -/
def reduceWith (func : Reduction) (input : NodeId) (ddof : Int64) : Build NodeId := do
  let node ← ask (·.node input)
  if node.isCollection then
    if func ≠ .count then throw (.unsupported (.overCollection func))
    push (.reduction func input ddof) (.scalar (.plain .int64 (some "count")))
  else
    let dtype ← ask (·.dtypeOf input)
    let result ← check (reductionType func dtype)
    let name ← ask fun g => pure (g.firstName [input])
    push (.reduction func input ddof) (.scalar (.plain result name))

/-- An aggregate without a correction of its degrees of freedom. -/
def reduce (func : Reduction) (input : NodeId) : Build NodeId := reduceWith func input 0

/-- Fails unless partition and order of a window are made of values. -/
def expectWindow (g : Graph) (spec : WindowSpec) : Except Error Unit := do
  g.expectValues spec.partitionBy
  g.expectValues (spec.orderBy.map SortKey.expr)

/-- The type of the result of a running aggregate. -/
def cumulativeType (func : Cumulative) (dtype : DataType) : Except Error DataType :=
  match func with
  | .count => pure .int64
  | .max | .min => pure dtype
  | .sum =>
    if dtype = .boolean then pure .int64
    else if dtype.isNumber then pure dtype
    else throw (.illegalCast dtype .float64)
  | .mean | .median | .std =>
    if dtype.isNumeric then pure (meanType dtype) else throw (.illegalCast dtype .float64)

def cumulative (func : Cumulative) (input : NodeId) (spec : WindowSpec) (distinct : Bool) :
    Build NodeId := do
  ask fun g => expectWindow g spec
  let typed ← ask (·.typedOf input)
  let dtype ← check (cumulativeType func typed.dtype)
  push (.window (.cumulative func input distinct spec)) (.sequence (.plain dtype typed.name))

/-- A rank in a window; all but row numbers need an order. -/
def rank (func : Rank) (spec : WindowSpec) : Build NodeId := do
  ask fun g => expectWindow g spec
  if spec.orderBy.isEmpty && func ≠ .rowNumber then throw (.inconsistent (.unordered func))
  let dtype := if func = .percentRank then DataType.float64 else .int64
  push (.window (.rank func spec)) (.sequence (.plain dtype (some func.key)))

/-- The value `offset` rows away, with a replacement where there is no such row. -/
def shift (func : Shift) (input : NodeId) (offset : Int64) (default : Option Value)
    (spec : WindowSpec) : Build NodeId := do
  ask fun g => expectWindow g spec
  let typed ← ask (·.typedOf input)
  match default.bind Value.dtype? with
  | some t => do
    let _ ← check (DataType.common [typed.dtype, t])
  | none => pure ()
  push (.window (.shift func input offset default spec))
    (.sequence (.plain typed.dtype typed.name))

end PlanSql.Build

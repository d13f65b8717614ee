import PlanSql.Graph.Build.Basic

/-!
# Building values

Constants, operators, functions of one operand, casts, renamed values and user functions.
-/

namespace PlanSql.Build

/-- A constant with a type of its own. -/
def literal (value : Value) : Build NodeId :=
  match value.dtype? with
  | some dtype => push (.literal value) (.scalar (.plain dtype none))
  | none => throw (.inconsistent .untypedNull)

def null (dtype : DataType) : Build NodeId :=
  push (.literal .null) (.scalar (.plain dtype none))

def binaryType (op : BinaryOp) (left right : DataType) : Except Error DataType := do
  if op.isLogical then
    if left ≠ .boolean then throw (.illegalCast left .boolean)
    if right ≠ .boolean then throw (.illegalCast right .boolean)
    pure .boolean
  else
    let highest ← DataType.common [left, right]
    if op.isComparison then pure .boolean
    else if op = .add ∧ highest = .string then pure .string
    else if !highest.isNumber then throw (.unsupported (.binary op highest))
    else if op = .div ∧ highest.isInteger then pure .float64
    else pure highest

/-- An operator between two values. -/
def binary (op : BinaryOp) (lhs rhs : NodeId) : Build NodeId := do
  let left ← ask (·.dtypeOf lhs)
  let right ← ask (·.dtypeOf rhs)
  let dtype ← check (binaryType op left right)
  pushNamed (.binary op lhs rhs) [lhs, rhs] dtype

/-- Whether an operator with one operand takes values of the given type. -/
def unaryAllows (op : UnaryOp) (dtype : DataType) : Bool :=
  match op with
  | .negate => dtype.isNumeric
  | .invert => dtype.isInteger || dtype == .boolean
  | .abs => dtype.isNumber

def unary (op : UnaryOp) (input : NodeId) : Build NodeId := do
  let dtype ← ask (·.dtypeOf input)
  if !unaryAllows op dtype then throw (.unsupported (.unary op dtype))
  pushNamed (.unary op input) [input] dtype

def mathType (func : MathFunc) (dtype : DataType) : DataType :=
  if func = .plain .abs then dtype
  else if (func = .plain .ceil ∨ func = .plain .floor) ∧ dtype.isInteger then dtype
  else if dtype = .decimal then .decimal
  else .float64

def math (func : MathFunc) (input : NodeId) : Build NodeId := do
  let dtype ← ask (·.dtypeOf input)
  if !dtype.isNumber then throw (.illegalCast dtype .float64)
  pushNamed (.math func input) [input] (mathType func dtype)

def datetimePart (input : NodeId) (part : DatetimePart) : Build NodeId := do
  let dtype ← ask (·.dtypeOf input)
  if dtype ≠ .datetime then throw (.illegalCast dtype .datetime)
  pushNamed (.datetime input part) [input] .int64

/-- A value as another type. The same type gives the value itself; an integer becomes a datetime
as seconds. A cast column stays a column that remembers its stored type. -/
def asType (input : NodeId) (dtype : DataType) : Build NodeId := do
  let node ← ask (·.node input)
  let typed ← ask (·.typedOf input)
  if typed.dtype = dtype then return input
  if !(typed.dtype.isInteger && dtype == .datetime) then check (dtype.checkCast typed.dtype)
  match node.kind with
  | .column _ => pushValue node.kind [input] { typed with dtype := dtype }
  | _ => pushValue (.cast input) [input] ⟨dtype, typed.dtype, typed.name, typed.name⟩

/-- A copy of a value under a new name. -/
def rename (input : NodeId) (name : String) : Build NodeId := do
  if name.isEmpty then throw (.schema .emptyName)
  let node ← ask (·.node input)
  match node.shape with
  | .sequence t => push node.kind (.sequence { t with name := some name })
  | .scalar t => push node.kind (.scalar { t with name := some name })
  | .collection _ => throw (.inconsistent .renamedCollection)

def map (input : NodeId) (function : String) (output : DataType) : Build NodeId := do
  let _ ← ask (·.typedOf input)
  let id ← registerFunction ⟨function, output⟩
  pushNamed (.userMap input id) [input] output

def textType : TextOp → DataType
  | .contains .. | .endsWith .. | .startsWith .. => .boolean
  | .count .. | .find .. | .len => .int64
  | _ => .string

def text (input : NodeId) (op : TextOp) : Build NodeId := do
  let typed ← ask (·.typedOf input)
  if typed.dtype ≠ .string then throw (.illegalCast typed.dtype .string)
  pushValue (.text input op) [input] (.plain (textType op) typed.name)

/-- Whether text contains the given text. -/
def contains (input : NodeId) (sub : String) : Build NodeId :=
  text input (.contains sub true false 0)

end PlanSql.Build

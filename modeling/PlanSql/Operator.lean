/-!
# Operators and functions

The closed families of operators a plan may use, each with its names: `key` in documents, `name`
in messages, `symbol` or `sqlName` in statements.
-/

namespace PlanSql

/-- A finite family whose members are written in documents by a key. -/
class Keyed (α : Type) where
  all : List α
  key : α → String

def Keyed.ofKey? {α : Type} [Keyed α] (key : String) : Option α :=
  (Keyed.all : List α).find? fun a => Keyed.key a == key

/-- Operators written between two operands. -/
inductive BinaryOp where
  | add | sub | mul | div | mod | power | gt | ge | lt | le | eq | ne | and | or
  deriving DecidableEq

namespace BinaryOp

/-- The operator in a statement; `power` is a function there. -/
def symbol : BinaryOp → String
  | add => "+"
  | sub => "-"
  | mul => "*"
  | div => "/"
  | mod => "%"
  | power => "POW"
  | gt => ">"
  | ge => ">="
  | lt => "<"
  | le => "<="
  | eq => "=="
  | ne => "!="
  | and => "AND"
  | or => "OR"

def key : BinaryOp → String
  | add => "add"
  | sub => "sub"
  | mul => "mul"
  | div => "div"
  | mod => "mod"
  | power => "power"
  | gt => "gt"
  | ge => "ge"
  | lt => "lt"
  | le => "le"
  | eq => "eq"
  | ne => "ne"
  | and => "and"
  | or => "or"

instance : Keyed BinaryOp :=
  ⟨[add, sub, mul, div, mod, power, gt, ge, lt, le, eq, ne, and, or], key⟩

/-- Whether the operator compares. -/
def isComparison : BinaryOp → Bool
  | gt | ge | lt | le | eq | ne => true
  | _ => false

/-- Whether the operator joins truth values. -/
def isLogical : BinaryOp → Bool
  | and | or => true
  | _ => false

end BinaryOp

/-- Operators with one operand. -/
inductive UnaryOp where
  | negate | invert | abs
  deriving DecidableEq

namespace UnaryOp

def key : UnaryOp → String
  | negate => "negate"
  | invert => "invert"
  | abs => "abs"

/-- The operator in messages. -/
def name : UnaryOp → String
  | negate => "Negate"
  | invert => "Invert"
  | abs => "Abs"

instance : Keyed UnaryOp := ⟨[negate, invert, abs], key⟩

end UnaryOp

/-- Mathematical functions without parameters. -/
inductive PlainMath where
  | abs | sqrt | sin | sinh | cos | cosh | tan | tanh | exp | expm1 | log2 | log10 | log1p
  | arccos | arcsin | arctan | arccosh | arcsinh | arctanh | radians | degrees | ceil | floor
  deriving DecidableEq

namespace PlainMath

/-- The function in documents and messages. -/
def key : PlainMath → String
  | abs => "abs"
  | sqrt => "sqrt"
  | sin => "sin"
  | sinh => "sinh"
  | cos => "cos"
  | cosh => "cosh"
  | tan => "tan"
  | tanh => "tanh"
  | exp => "exp"
  | expm1 => "expm1"
  | log2 => "log2"
  | log10 => "log10"
  | log1p => "log1p"
  | arccos => "arccos"
  | arcsin => "arcsin"
  | arctan => "arctan"
  | arccosh => "arccosh"
  | arcsinh => "arcsinh"
  | arctanh => "arctanh"
  | radians => "radians"
  | degrees => "degrees"
  | ceil => "ceil"
  | floor => "floor"

instance : Keyed PlainMath :=
  ⟨[abs, sqrt, sin, sinh, cos, cosh, tan, tanh, exp, expm1, log2, log10, log1p, arccos, arcsin,
    arctan, arccosh, arcsinh, arctanh, radians, degrees, ceil, floor], key⟩

end PlainMath

/-- Parts of a datetime. -/
inductive DatetimePart where
  | year | month | day | hour | minute | second | microsecond | weekOfYear | weekDay | dayOfYear
  deriving DecidableEq

namespace DatetimePart

def key : DatetimePart → String
  | year => "year"
  | month => "month"
  | day => "day"
  | hour => "hour"
  | minute => "minute"
  | second => "second"
  | microsecond => "microsecond"
  | weekOfYear => "week_of_year"
  | weekDay => "week_day"
  | dayOfYear => "day_of_year"

def name : DatetimePart → String
  | year => "Year"
  | month => "Month"
  | day => "Day"
  | hour => "Hour"
  | minute => "Minute"
  | second => "Second"
  | microsecond => "Microsecond"
  | weekOfYear => "WeekOfYear"
  | weekDay => "WeekDay"
  | dayOfYear => "DayOfYear"

instance : Keyed DatetimePart :=
  ⟨[year, month, day, hour, minute, second, microsecond, weekOfYear, weekDay, dayOfYear], key⟩

end DatetimePart

/-- Aggregate functions. -/
inductive Reduction where
  | count | nUnique | sum | mean | median | max | min | var | std | any | all
  deriving DecidableEq

namespace Reduction

def key : Reduction → String
  | count => "count"
  | nUnique => "n_unique"
  | sum => "sum"
  | mean => "mean"
  | median => "median"
  | max => "max"
  | min => "min"
  | var => "var"
  | std => "std"
  | any => "any"
  | all => "all"

/-- The function in messages. -/
def name : Reduction → String
  | nUnique => "nunique"
  | f => f.key

instance : Keyed Reduction :=
  ⟨[count, nUnique, sum, mean, median, max, min, var, std, any, all], key⟩

end Reduction

/-- Running aggregates over a window. -/
inductive Cumulative where
  | sum | max | min | mean | median | count | std
  deriving DecidableEq

namespace Cumulative

def key : Cumulative → String
  | sum => "sum"
  | max => "max"
  | min => "min"
  | mean => "mean"
  | median => "median"
  | count => "count"
  | std => "std"

def sqlName : Cumulative → String
  | sum => "SUM"
  | max => "MAX"
  | min => "MIN"
  | mean => "AVG"
  | median => "MEDIAN"
  | count => "COUNT"
  | std => "STDDEV"

instance : Keyed Cumulative := ⟨[sum, max, min, mean, median, count, std], key⟩

end Cumulative

/-- Rank functions over a window. -/
inductive Rank where
  | rank | denseRank | percentRank | rowNumber
  deriving DecidableEq

namespace Rank

/-- The function in documents and messages. -/
def key : Rank → String
  | rank => "rank"
  | denseRank => "dense_rank"
  | percentRank => "percent_rank"
  | rowNumber => "row_number"

def sqlName : Rank → String
  | rank => "RANK"
  | denseRank => "DENSE_RANK"
  | percentRank => "PERCENT_RANK"
  | rowNumber => "ROW_NUMBER"

instance : Keyed Rank := ⟨[rank, denseRank, percentRank, rowNumber], key⟩

end Rank

/-- Functions that read an earlier or a later row of a window. -/
inductive Shift where
  | lag | lead
  deriving DecidableEq

namespace Shift

def key : Shift → String
  | lag => "lag"
  | lead => "lead"

def sqlName : Shift → String
  | lag => "LAG"
  | lead => "LEAD"

instance : Keyed Shift := ⟨[lag, lead], key⟩

end Shift

/-- Kinds of joins. -/
inductive JoinKind where
  | inner | left | right | outer
  deriving DecidableEq

namespace JoinKind

def key : JoinKind → String
  | inner => "inner"
  | left => "left"
  | right => "right"
  | outer => "outer"

def sqlName : JoinKind → String
  | inner => "INNER"
  | left => "LEFT OUTER"
  | right => "RIGHT OUTER"
  | outer => "FULL OUTER"

instance : Keyed JoinKind := ⟨[inner, left, right, outer], key⟩

end JoinKind

/-- The sides of a join. -/
inductive JoinSide where
  | left | right
  deriving DecidableEq

namespace JoinSide

def key : JoinSide → String
  | left => "left"
  | right => "right"

instance : Keyed JoinSide := ⟨[left, right], key⟩

end JoinSide

end PlanSql

/-!
# Column types

Ten types in a fixed order of precedence, with the implicit conversions (a value may be used where
the other type is expected) and the explicit ones (a cast may be written).
-/

namespace PlanSql

/-- The type of a column or of a value. -/
inductive DataType where
  | boolean
  | int8
  | int16
  | int32
  | int64
  | float32
  | float64
  | decimal
  | string
  | datetime
  deriving DecidableEq, Inhabited

namespace DataType

/-- All types, lowest precedence first. -/
def all : List DataType :=
  [boolean, int8, int16, int32, int64, decimal, float32, float64, datetime, string]

def precedence : DataType → Nat
  | boolean => 0
  | int8 => 1
  | int16 => 2
  | int32 => 3
  | int64 => 4
  | decimal => 5
  | float32 => 6
  | float64 => 7
  | datetime => 8
  | string => 9

def name : DataType → String
  | boolean => "boolean"
  | int8 => "int8"
  | int16 => "int16"
  | int32 => "int32"
  | int64 => "int64"
  | float32 => "float32"
  | float64 => "float64"
  | decimal => "decimal"
  | string => "string"
  | datetime => "datetime"

def sqlName : DataType → String
  | boolean => "BOOLEAN"
  | int8 => "TINYINT"
  | int16 => "SMALLINT"
  | int32 => "INT"
  | int64 => "BIGINT"
  | float32 => "FLOAT"
  | float64 => "DOUBLE"
  | decimal => "DECIMAL"
  | string => "STRING"
  | datetime => "DATETIME"

def isInteger : DataType → Bool
  | int8 | int16 | int32 | int64 => true
  | _ => false

/-- Whether a type holds floating point numbers. -/
def isFloat : DataType → Bool
  | float32 | float64 => true
  | _ => false

/-- Whether a type holds numbers: integers, floating point numbers or decimals. -/
def isNumber (t : DataType) : Bool := t.isInteger || t.isFloat || t == decimal

/-- Whether a type holds numbers or truth values. -/
def isNumeric (t : DataType) : Bool := t.isNumber || t == boolean

/-- Whether a value of type `source` may be used where `target` is expected. A number may be used
where a number of the same or a higher precedence is expected. -/
def accepts (target source : DataType) : Bool :=
  target == source ||
    match target with
    | int8 | int16 | int32 | int64 => source.isInteger && source.precedence ≤ target.precedence
    | decimal => source.isInteger
    | float32 => source.isInteger || source == decimal
    | float64 => source.isNumber
    | _ => false

/-- Whether a value of type `source` may be cast to `target`: to and from text always, and between
numbers and truth values. -/
def castsFrom (target source : DataType) : Bool :=
  target == source || target == string || source == string ||
    (target.isNumeric && source.isNumeric)

/-- Types of equal precedence are equal. -/
theorem precedence_inj {s t : DataType} (h : s.precedence = t.precedence) : s = t := by
  cases s <;> cases t <;> simp_all [precedence]

theorem accepts_self (t : DataType) : t.accepts t = true := by
  cases t <;> decide

end DataType

end PlanSql

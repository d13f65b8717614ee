import PlanSql.DataType
import PlanSql.Datetime
import PlanSql.Number.Decimal
import PlanSql.Text.Quoted

/-!
# Constants

A constant of a plan, with its type and its texts in messages and in statements.
-/

namespace PlanSql

/-- A constant. -/
inductive Value where
  | null
  | boolean (b : Bool)
  | integer (n : Int64)
  | float (x : Binary64)
  | decimal (d : Decimal)
  | string (s : String)
  | datetime (t : Datetime)
  deriving DecidableEq

namespace Value

def dtype? : Value → Option DataType
  | null => none
  | boolean _ => some .boolean
  | integer _ => some .int64
  | float _ => some .float64
  | decimal _ => some .decimal
  | string _ => some .string
  | datetime _ => some .datetime

/-- Whether a constant is null. -/
def isNull : Value → Bool
  | null => true
  | _ => false

def boolText (b : Bool) : String := if b then "true" else "false"

def display : Value → String
  | null => "null"
  | boolean b => boolText b
  | integer n => toString n.toInt
  | float x => x.display
  | decimal d => d.toString
  | string s => "'" ++ s ++ "'"
  | datetime t => t.display

def sqlText : Value → String
  | null => "NULL"
  | boolean b => boolText b
  | integer n => toString n.toInt
  | float x => x.sqlText
  | decimal d => "CAST('" ++ d.toString ++ "' AS DECIMAL)"
  | string s => Text.quoteString s
  | datetime t => "FROM_UNIXTIME(" ++ toString t.timestamp ++ ")"

end Value

end PlanSql

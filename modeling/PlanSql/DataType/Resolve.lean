import PlanSql.Error
import PlanSql.Text.Lowercase

/-!
# Resolving types

The common type of several operands, the check of an explicit cast, and types by name.
-/

namespace PlanSql.DataType

/-- The type of higher precedence. -/
def higher (s t : DataType) : DataType := if s.precedence ≤ t.precedence then t else s

/-- The type of highest precedence. -/
def highest? : List DataType → Option DataType
  | [] => none
  | t :: ts => some (ts.foldl higher t)

/-- The highest of the types, if it accepts all the others. -/
def common (ts : List DataType) : Except Error DataType :=
  match highest? ts with
  | none => .error (.inconsistent .noOperands)
  | some top =>
    match ts.find? (fun t => !top.accepts t) with
    | some t => .error (.illegalCast t top)
    | none => .ok top

/-- Allows an explicit cast between the two types. -/
def checkCast (target source : DataType) : Except Error Unit :=
  if target.castsFrom source then .ok () else .error (.illegalCast source target)

/-- The type of a name in lower case. -/
def ofLowerName? : String → Option DataType
  | "boolean" | "bool" => some boolean
  | "int8" | "tinyint" => some int8
  | "int16" | "smallint" => some int16
  | "int32" | "int" => some int32
  | "int64" | "bigint" => some int64
  | "float32" | "float" => some float32
  | "float64" | "double" => some float64
  | "decimal" => some decimal
  | "string" | "str" => some string
  | "datetime" => some datetime
  | _ => none

/-- The type of a name, whatever its case. -/
def ofName (name : String) : Except Error DataType :=
  let lower := Text.toLower name
  match ofLowerName? lower with
  | some t => .ok t
  | none => .error (.schema (.unknownType lower))

instance : Keyed DataType :=
  ⟨[boolean, int8, int16, int32, int64, float32, float64, decimal, string, datetime], name⟩

end PlanSql.DataType

import PlanSql.Sql.Layout

/-!
# Options

What can be set about statements: their layout, the limit of sorted levels without a limit, and how
the names of user functions begin.
-/

namespace PlanSql

/-- The options of a compiler. -/
structure Options where
  indentSize : Nat
  /-- Whether a statement is spread over more lines. -/
  beautify : Bool
  /-- The limit of a level that has an order but no limit. -/
  sortLimit : Nat
  functionStem : String
  deriving DecidableEq

namespace Options

/-- The options when nothing is set. -/
def default : Options := ⟨2, false, 10000, "dfql_udf"⟩

def layout (o : Options) : Sql.Layout := ⟨o.indentSize, o.beautify⟩

end Options

end PlanSql

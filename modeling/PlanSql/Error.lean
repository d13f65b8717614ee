import PlanSql.DataType
import PlanSql.Operator

/-!
# Errors

Everything that can go wrong, by cause. The wording of each cause is in its `message`.
-/

namespace PlanSql

/-- A node of a graph, by its place in the table of nodes. -/
abbrev NodeId := Nat

abbrev FunctionId := Nat

def NodeId.text (id : NodeId) : String := "#" ++ Nat.repr id

/-- What a statement cannot express about a text operation. -/
inductive TextLimit where
  | flaggedMatch
  | patternFlags
  | endOffset
  | stripSet
  deriving DecidableEq

def TextLimit.message : TextLimit → String
  | .flaggedMatch => "with case-insensitive or flagged matching"
  | .patternFlags => "with regex flags"
  | .endOffset => "with an end offset"
  | .stripSet => "of characters other than spaces"

/-- A construct for which the target has no form. -/
inductive Unsupported where
  | unary (op : UnaryOp) (dtype : DataType)
  | binary (op : BinaryOp) (dtype : DataType)
  | overCollection (func : Reduction)
  | bitwiseInvert (dtype : DataType)
  | math (func : PlainMath)
  | datetimePart (part : DatetimePart)
  | textOperation (name : String) (limit : TextLimit)
  | degreesOfFreedom (func : Reduction) (ddof : Int)
  | distinctUnion
  | sliceStart
  | sliceStep
  deriving DecidableEq

/-- The wording of a construct without a form. -/
def Unsupported.message : Unsupported → String
  | .unary op dtype => s!"{op.name} on {dtype.name}"
  | .binary op dtype => s!"operator '{op.symbol}' on {dtype.name}"
  | .overCollection func => s!"{func.name} over a whole collection"
  | .bitwiseInvert dtype => s!"bitwise invert of {dtype.name}"
  | .math func => s!"math function {func.key}"
  | .datetimePart part => s!"datetime field {part.name}"
  | .textOperation name limit => s!"str.{name} {limit.message}"
  | .degreesOfFreedom func ddof => s!"{func.name} with ddof={ddof}"
  | .distinctUnion => "distinct union; only UNION ALL can be generated"
  | .sliceStart => "slice with a start offset"
  | .sliceStep => "slice with a step"

/-- A contradiction in a graph, in the arguments of a constructor or in the state of a
compilation. -/
inductive Inconsistency where
  | noNode (id : NodeId)
  | noFunction (id : FunctionId)
  | readsNothing (id : NodeId)
  | lateChild (parent child : NodeId) (slot : String)
  | columnShape (id : NodeId)
  | notValue (id : NodeId)
  | notCollection (id : NodeId)
  | noOperands
  | untypedNull
  | renamedCollection
  | emptyMembership
  | unbounded
  | branches
  | fewBins
  | labelCount (buckets labels : Nat)
  | nullBin
  | fewLabels
  | unordered (func : Rank)
  | occupied (clause : String)
  | havingConflict (present other : String)
  | noFrom
  | fragmentConflict (id : NodeId) (present other : String)
  | noFragment (id : NodeId)
  | collectionOperand (id : NodeId)
  | collectionField (id : NodeId)
  | negativeStop (stop : Int)
  | noStop
  | cyclic
  deriving DecidableEq

/-- The wording of a contradiction. -/
def Inconsistency.message : Inconsistency → String
  | .noNode id => s!"node {NodeId.text id} does not exist"
  | .noFunction id => s!"udf {id} does not exist"
  | .readsNothing id => s!"expression {NodeId.text id} does not read from any collection"
  | .lateChild parent child slot =>
    s!"node {NodeId.text parent} refers to {NodeId.text child} in slot '{slot}' " ++
      "(children must precede parents)"
  | .columnShape id => s!"column {NodeId.text id} has no value shape"
  | .notValue id => s!"expected a sequence or scalar, got collection {NodeId.text id}"
  | .notCollection id => s!"expected a collection, got {NodeId.text id}"
  | .noOperands => "cannot resolve the type of an empty operand list"
  | .untypedNull => "null literal needs an explicit type"
  | .renamedCollection => "collections cannot be renamed"
  | .emptyMembership => "membership test needs at least one value"
  | .unbounded => "between needs at least one bound"
  | .branches => "switch needs one result per condition and at least one branch"
  | .fewBins => "cut needs at least two bins"
  | .labelCount buckets labels =>
    s!"cut produces {buckets} buckets but {labels} labels were given"
  | .nullBin => "cut bins cannot be null"
  | .fewLabels => "cut has fewer labels than buckets"
  | .unordered func => s!"{func.key} needs at least one order key"
  | .occupied clause => s!"{clause} clause is already set at this level"
  | .havingConflict present other =>
    s!"conflicting HAVING clauses: '{present}' vs '{other}'"
  | .noFrom => "query level has no FROM clause"
  | .fragmentConflict id present other =>
    s!"node {NodeId.text id} rendered twice with different text: '{present}' vs '{other}'"
  | .noFragment id => s!"node {NodeId.text id} has not been compiled"
  | .collectionOperand id => s!"node {NodeId.text id} is a collection, not a value"
  | .collectionField id => s!"collection {NodeId.text id} used as a select field"
  | .negativeStop stop => s!"slice stop must not be negative, got {stop}"
  | .noStop => "slice without a stop"
  | .cyclic => "the graph has a cycle"

/-- A duplicate, missing or unnamed field, or a document that is no plan. -/
inductive SchemaFault where
  | unknownType (name : String)
  | emptyName
  | duplicateField (name : String)
  | missingField (name : String)
  | unnamedColumn (id : NodeId)
  | unnamedField (id : NodeId)
  | emptyProjection
  | noGroupKey
  | noSortKey
  | emptySummary
  | selfJoin
  | unionSchemas
  | joinField (join : NodeId) (name : String)
  | outOfScope (id : NodeId)
  | invalidPlan
  deriving DecidableEq

def SchemaFault.message : SchemaFault → String
  | .unknownType name => s!"unknown data type '{name}'"
  | .emptyName => "field name cannot be empty"
  | .duplicateField name => s!"duplicate field name '{name}'"
  | .missingField name => s!"field '{name}' does not exist"
  | .unnamedColumn id => s!"column {NodeId.text id} has no field name"
  | .unnamedField id => s!"field {NodeId.text id} has no name; rename it first"
  | .emptyProjection => "projection needs at least one field"
  | .noGroupKey => "group-by needs at least one key"
  | .noSortKey => "sort needs at least one key"
  | .emptySummary => "summary needs at least one field"
  | .selfJoin => "cannot join a collection with itself; derive one side first"
  | .unionSchemas => "union sides must have identical schemas"
  | .joinField join name => s!"join {NodeId.text join} has no field '{name}'"
  | .outOfScope id =>
    s!"collection {NodeId.text id} is not in scope of the operator that reads it"
  | .invalidPlan => "invalid plan"

/-- What is wrong with an options file. -/
inductive ConfigFault where
  | notToml
  | emptyFunctionPrefix
  | inFile (path : String) (fault : ConfigFault)
  deriving DecidableEq

def ConfigFault.heading : String := "Configuration error: "

def ConfigFault.message : ConfigFault → String
  | .notToml => "TOML parse error"
  | .emptyFunctionPrefix => "udf_prefix cannot be empty"
  | .inFile path fault => path ++ ": " ++ heading ++ fault.message

/-- Why a file cannot be read. -/
inductive FileFault where
  | missing
  /-- Its path leads through something that is no directory. -/
  | notDirectory
  | directory
  | longName
  | denied
  /-- Its bytes are no text. -/
  | notText
  deriving DecidableEq

def FileFault.message : FileFault → String
  | missing => "No such file or directory (os error 2)"
  | notDirectory => "Not a directory (os error 20)"
  | directory => "Is a directory (os error 21)"
  | longName => "File name too long (os error 36)"
  | denied => "Permission denied (os error 13)"
  | notText => "stream did not contain valid UTF-8"

/-- Whether a fault means that there is no file at the path. -/
def FileFault.isAbsence : FileFault → Bool
  | missing | notDirectory | directory | longName => true
  | denied | notText => false

/-- An error, by family. `overflow` is the failed addition of one to the largest offset. -/
inductive Error where
  | unsupported (what : Unsupported)
  | illegalCast (source target : DataType)
  | inconsistent (what : Inconsistency)
  | schema (what : SchemaFault)
  | config (what : ConfigFault)
  | file (fault : FileFault)
  | overflow
  deriving DecidableEq

namespace Error

/-- The wording of an error, its family first. -/
def message : Error → String
  | unsupported what => "Unsupported construct: " ++ what.message
  | illegalCast source target => s!"Cannot cast from {source.name} to {target.name}"
  | inconsistent what => "Internal inconsistency: " ++ what.message
  | schema what => "Schema error: " ++ what.message
  | config what => ConfigFault.heading ++ what.message
  | file fault => "IO error: " ++ fault.message
  | overflow => "attempt to add with overflow"

end Error

end PlanSql

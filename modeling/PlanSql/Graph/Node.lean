import PlanSql.Schema
import PlanSql.Value

/-!
# Nodes

A node of a plan is a kind, which names an operator and its operands by their ids, and a shape,
which says whether it is a collection of rows, a sequence with a value per row, or a single
value. Kind and shape are independent data: nothing here makes them fit.
-/

namespace PlanSql

/-- A user function of a plan. -/
structure UserFunction where
  name : String
  output : DataType
  deriving DecidableEq

/-- A stored table. -/
structure Table where
  /-- The space the table belongs to; empty if none is written. -/
  space : String
  name : String
  schema : Schema
  deriving DecidableEq

/-- Type and names of a sequence or a single value. -/
structure Typed where
  dtype : DataType
  sourceDtype : DataType
  name : Option String
  sourceName : Option String
  deriving DecidableEq

/-- A value that has been neither cast nor renamed. -/
def Typed.plain (dtype : DataType) (name : Option String) : Typed := ⟨dtype, dtype, name, name⟩

/-- What a node stands for. -/
inductive Shape where
  | collection (schema : Schema)
  | sequence (typed : Typed)
  | scalar (typed : Typed)
  deriving DecidableEq

/-- A sort key: a value and its direction. -/
structure SortKey where
  expr : NodeId
  ascending : Bool
  deriving DecidableEq

/-- A field of a join and where it comes from. -/
structure JoinField where
  name : String
  dtype : DataType
  side : JoinSide
  source : String
  deriving DecidableEq

/-- What a membership test looks in. -/
inductive Membership where
  | literals (ids : List NodeId)
  | subquery (id : NodeId)
  deriving DecidableEq

/-- Buckets between consecutive bins, with a label each. -/
structure Cut where
  bins : List Value
  /-- Buckets contain their upper bound, not their lower one. -/
  right : Bool
  labels : List Value
  includeLowest : Bool
  includeUnder : Bool
  includeOver : Bool
  deriving DecidableEq

/-- Tests, choices and buckets of single values. -/
inductive ElementOp where
  | isNull (input : NodeId)
  | notNull (input : NodeId)
  | fillNull (input value : NodeId)
  | isIn (input : NodeId) (values : Membership)
  | notIn (input : NodeId) (values : Membership)
  | between (input : NodeId) (left right : Option NodeId) (inclusive : Bool)
  | ifElse (condition consequent alternative : NodeId)
  | switch (subject : Option NodeId) (conditions results : List NodeId) (fallback : Option NodeId)
  | cut (input : NodeId) (cut : Cut)
  deriving DecidableEq

/-- Operations on text with constant parameters. -/
inductive TextOp where
  | capitalize
  | contains (pattern : String) (caseful regex : Bool) (flags : Int32)
  | count (pattern : String) (flags : Int32)
  | endsWith (pattern : String)
  | startsWith (pattern : String)
  | extract (pattern : String) (flags : Int32) (group : Int64)
  | find (sub : String) (start : Int64) (stop : Option Int64)
  | replace (pattern replacement : String) (n : Int64) (caseful : Bool) (flags : Int32)
    (regex : Bool)
  | get (index : Int64)
  | len
  | lower
  | upper
  | stripLeft (set : Option String)
  | stripRight (set : Option String)
  | strip (set : Option String)
  | repeat (count : Int64)
  | substring (start : Int64) (length : Option Int64)
  deriving DecidableEq

/-- The operation in documents and messages. -/
def TextOp.key : TextOp → String
  | capitalize => "capitalize"
  | contains .. => "contains"
  | count .. => "count"
  | endsWith .. => "endswith"
  | startsWith .. => "startswith"
  | extract .. => "extract"
  | find .. => "find"
  | replace .. => "replace"
  | get .. => "get"
  | len => "len"
  | lower => "lower"
  | upper => "upper"
  | stripLeft .. => "lstrip"
  | stripRight .. => "rstrip"
  | strip .. => "strip"
  | .repeat .. => "repeat"
  | substring .. => "substr"

/-- Mathematical functions of one operand. -/
inductive MathFunc where
  | plain (func : PlainMath)
  | log (base : Option Binary64)
  | trunc (decimals : Option Int32)
  deriving DecidableEq

def MathFunc.key : MathFunc → String
  | plain func => func.key
  | log _ => "log"
  | trunc _ => "trunc"

/-- The rows around a row that a window covers. -/
inductive Frame where
  | preceding (n : UInt64)
  | following (n : UInt64)
  | between (preceding following : UInt64)
  | precedingRange (first last : UInt64)
  | followingRange (first last : UInt64)
  deriving DecidableEq

/-- Partition, order and frame of a window. -/
structure WindowSpec where
  partitionBy : List NodeId
  orderBy : List SortKey
  frame : Option Frame
  deriving DecidableEq

/-- Functions over a window. -/
inductive WindowOp where
  | cumulative (func : Cumulative) (input : NodeId) (distinct : Bool) (spec : WindowSpec)
  | rank (func : Rank) (spec : WindowSpec)
  | shift (func : Shift) (input : NodeId) (offset : Int64) (default : Option Value)
    (spec : WindowSpec)
  deriving DecidableEq

def WindowOp.spec : WindowOp → WindowSpec
  | cumulative _ _ _ spec => spec
  | rank _ spec => spec
  | shift _ _ _ _ spec => spec

/-- An operator with its operands. -/
inductive Kind where
  | source (table : Table)
  | project (input : NodeId) (fields : List NodeId)
  | filter (input predicate : NodeId)
  | groupBy (input : NodeId) (keys aggregates : List NodeId) (having : Option NodeId)
  | mutate (input : NodeId) (keys mutates : List NodeId)
  | sort (input : NodeId) (keys : List SortKey)
  | distinct (input : NodeId) (fields : List NodeId)
  | slice (input : NodeId) (start stop step : Option Int64)
  | summary (input : NodeId) (fields : List NodeId)
  | join (left right : NodeId) (predicate : Option NodeId) (how : JoinKind)
    (fields : List JoinField)
  | union (left right : NodeId) (distinct : Bool)
  | element (op : ElementOp)
  | binary (op : BinaryOp) (lhs rhs : NodeId)
  | unary (op : UnaryOp) (input : NodeId)
  | math (func : MathFunc) (input : NodeId)
  | text (input : NodeId) (op : TextOp)
  | datetime (input : NodeId) (part : DatetimePart)
  | reduction (func : Reduction) (input : NodeId) (ddof : Int64)
  | window (op : WindowOp)
  | cast (input : NodeId)
  | column (collection : NodeId)
  | literal (value : Value)
  | userMap (input : NodeId) (function : FunctionId)
  deriving DecidableEq

/-- The place of an operand in its operator. -/
inductive Slot where
  | input | fields | predicate | keys | aggregates | having | mutates | sortKeys | left | right
  | lhs | rhs | collection | value | values | subquery | condition | consequent | alternative
  | subject | conditions | results | fallback | partitionBy | orderBy
  deriving DecidableEq

def Slot.name : Slot → String
  | input => "input"
  | fields => "fields"
  | predicate => "predicate"
  | keys => "by"
  | aggregates => "aggs"
  | having => "having"
  | mutates => "mutates"
  | sortKeys => "keys"
  | left => "left"
  | right => "right"
  | lhs => "lhs"
  | rhs => "rhs"
  | collection => "collection"
  | value => "value"
  | values => "values"
  | subquery => "subquery"
  | condition => "condition"
  | consequent => "then"
  | alternative => "otherwise"
  | subject => "case"
  | conditions => "conditions"
  | results => "thens"
  | fallback => "default"
  | partitionBy => "partition_by"
  | orderBy => "order_by"

/-- An operand: its slot and its node. -/
abbrev Operand := Slot × NodeId

def Operand.many (slot : Slot) (ids : List NodeId) : List Operand := ids.map fun id => (slot, id)

def Operand.perhaps (slot : Slot) (id : Option NodeId) : List Operand := many slot id.toList

def Membership.operands : Membership → List Operand
  | literals ids => Operand.many .values ids
  | subquery id => [(.subquery, id)]

def ElementOp.operands : ElementOp → List Operand
  | isNull input => [(.input, input)]
  | notNull input => [(.input, input)]
  | fillNull input value => [(.input, input), (.value, value)]
  | isIn input values => (.input, input) :: values.operands
  | notIn input values => (.input, input) :: values.operands
  | between input left right _ =>
    (.input, input) :: Operand.perhaps .left left ++ Operand.perhaps .right right
  | ifElse condition consequent alternative =>
    [(.condition, condition), (.consequent, consequent), (.alternative, alternative)]
  | switch subject conditions results fallback =>
    Operand.perhaps .subject subject ++ Operand.many .conditions conditions ++
      Operand.many .results results ++ Operand.perhaps .fallback fallback
  | cut input _ => [(.input, input)]

def WindowSpec.operands (spec : WindowSpec) : List Operand :=
  Operand.many .partitionBy spec.partitionBy ++
    Operand.many .orderBy (spec.orderBy.map SortKey.expr)

def WindowOp.operands : WindowOp → List Operand
  | cumulative _ input _ spec => (.input, input) :: spec.operands
  | rank _ spec => spec.operands
  | shift _ input _ _ spec => (.input, input) :: spec.operands

namespace Kind

def operands : Kind → List Operand
  | source _ => []
  | project input fields => (.input, input) :: Operand.many .fields fields
  | filter input predicate => [(.input, input), (.predicate, predicate)]
  | groupBy input keys aggregates having =>
    (.input, input) :: Operand.many .keys keys ++ Operand.many .aggregates aggregates ++
      Operand.perhaps .having having
  | mutate input keys mutates =>
    (.input, input) :: Operand.many .keys keys ++ Operand.many .mutates mutates
  | sort input keys => (.input, input) :: Operand.many .sortKeys (keys.map SortKey.expr)
  | distinct input fields => (.input, input) :: Operand.many .fields fields
  | slice input _ _ _ => [(.input, input)]
  | summary input fields => (.input, input) :: Operand.many .fields fields
  | join left right predicate _ _ =>
    [(.left, left), (.right, right)] ++ Operand.perhaps .predicate predicate
  | union left right _ => [(.left, left), (.right, right)]
  | element op => op.operands
  | binary _ lhs rhs => [(.lhs, lhs), (.rhs, rhs)]
  | unary _ input => [(.input, input)]
  | math _ input => [(.input, input)]
  | text input _ => [(.input, input)]
  | datetime input _ => [(.input, input)]
  | reduction _ input _ => [(.input, input)]
  | window op => op.operands
  | cast input => [(.input, input)]
  | column collection => [(.collection, collection)]
  | literal _ => []
  | userMap input _ => [(.input, input)]

def name : Kind → String
  | source _ => "source"
  | project .. => "project"
  | filter .. => "filter"
  | groupBy .. => "groupby"
  | mutate .. => "mutate"
  | sort .. => "sort"
  | distinct .. => "distinct"
  | slice .. => "slice"
  | summary .. => "summary"
  | join .. => "join"
  | union .. => "union"
  | element (.isNull _) => "isnull"
  | element (.notNull _) => "notnull"
  | element (.fillNull ..) => "fillna"
  | element (.isIn ..) => "isin"
  | element (.notIn ..) => "notin"
  | element (.between ..) => "between"
  | element (.ifElse ..) => "ifelse"
  | element (.switch ..) => "switch"
  | element (.cut ..) => "cut"
  | binary .. => "binary"
  | unary .. => "unary"
  | math .. => "math"
  | text .. => "string"
  | datetime .. => "datetime"
  | reduction .. => "reduction"
  | window (.cumulative ..) => "cumulative"
  | window (.rank ..) => "rank"
  | window (.shift ..) => "shift"
  | cast _ => "cast"
  | column _ => "column"
  | literal _ => "literal"
  | userMap .. => "map"

/-- The input of an operator that only drops or reorders rows, so that its columns are those of
its input. -/
def passThrough? : Kind → Option NodeId
  | filter input _ => some input
  | slice input _ _ _ => some input
  | sort input _ => some input
  | _ => none

/-- The sequence that a membership test looks in, if it looks in a sequence. -/
def subquery? : Kind → Option NodeId
  | element (.isIn _ (.subquery id)) => some id
  | element (.notIn _ (.subquery id)) => some id
  | _ => none

end Kind

/-- A node: an operator and what it stands for. -/
structure Node where
  kind : Kind
  shape : Shape
  deriving DecidableEq

namespace Node

def isCollection (n : Node) : Bool :=
  match n.shape with
  | .collection _ => true
  | _ => false

def schema? (n : Node) : Option Schema :=
  match n.shape with
  | .collection schema => some schema
  | _ => none

/-- Type and names of a value. -/
def typed? (n : Node) : Option Typed :=
  match n.shape with
  | .collection _ => none
  | .sequence typed => some typed
  | .scalar typed => some typed

def dtype? (n : Node) : Option DataType := n.typed?.map Typed.dtype

def name? (n : Node) : Option String := n.typed?.bind Typed.name

/-- The operand ids, in order. -/
def children (n : Node) : List NodeId := n.kind.operands.map Prod.snd

end Node

end PlanSql

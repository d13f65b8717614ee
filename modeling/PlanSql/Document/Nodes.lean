import PlanSql.Document.Parts

/-!
# Nodes as documents

An operator is a record with a tag. The operations on text, elements and windows have a tag of
their own, which may also be the number of the operation in its family.
-/

namespace PlanSql

/-- Reads that a record has no fields left that matter. -/
def Json.noFields? : Json → Option Unit
  | object _ => some ()
  | array [] => some ()
  | _ => none

/-- Reads a node. -/
def NodeId.field? (j : Option Json) : Option NodeId := Json.required Json.nat? j

/-- Reads a node that may be missing. -/
def NodeId.perhaps? (j : Option Json) : Option (Option NodeId) := Json.optional Json.nat? j

/-- Reads a list of nodes. -/
def NodeId.list? (j : Option Json) : Option (List NodeId) := Json.required (Json.list? Json.nat?) j

namespace TextOp

/-- The operations on text, in the order of their numbers. -/
def tags : List String :=
  ["capitalize", "contains", "count", "endswith", "startswith", "extract", "find", "replace",
    "get", "len", "lower", "upper", "lstrip", "rstrip", "strip", "repeat", "substr"]

/-- What an operation on text takes besides the text. -/
def parameters : TextOp → List (String × Json)
  | capitalize | len | lower | upper => []
  | contains pattern caseful regex flags =>
    [("pat", .string pattern), ("case", .bool caseful), ("regex", .bool regex),
      ("flags", .integer flags.toInt)]
  | count pattern flags => [("pat", .string pattern), ("flags", .integer flags.toInt)]
  | endsWith pattern => [("pat", .string pattern)]
  | startsWith pattern => [("pat", .string pattern)]
  | extract pattern flags group =>
    [("pat", .string pattern), ("flags", .integer flags.toInt), ("group", .integer group.toInt)]
  | find sub start stop =>
    [("sub", .string sub), ("start", .integer start.toInt),
      ("end", Json.ofOption (fun n => .integer n.toInt) stop)]
  | replace pattern replacement n caseful flags regex =>
    [("pat", .string pattern), ("repl", .string replacement), ("n", .integer n.toInt),
      ("case", .bool caseful), ("flags", .integer flags.toInt), ("regex", .bool regex)]
  | get index => [("index", .integer index.toInt)]
  | stripLeft set => [("to_strip", Json.ofOption .string set)]
  | stripRight set => [("to_strip", Json.ofOption .string set)]
  | strip set => [("to_strip", Json.ofOption .string set)]
  | .repeat times => [("repeats", .integer times.toInt)]
  | substring start length =>
    [("start", .integer start.toInt), ("length", Json.ofOption (fun n => .integer n.toInt) length)]

/-- An operation on text as a document. -/
def toJson (op : TextOp) : Json := .object (("op", .string op.key) :: op.parameters)

/-- Reads an operation that may strip a set of characters. -/
def strip? (make : Option String → TextOp) (j : Json) : Option TextOp := do
  let [set] ← j.fields? ["to_strip"] | none
  pure (make (← Json.optional Json.string? set))

/-- Reads the operation of a tag. -/
def ofParameters? (tag : String) (j : Json) : Option TextOp :=
  match tag with
  | "capitalize" => j.noFields?.map fun _ => capitalize
  | "contains" => do
    let [pattern, caseful, regex, flags] ← j.fields? ["pat", "case", "regex", "flags"] | none
    pure (contains (← Json.required Json.string? pattern) (← Json.required Json.bool? caseful)
      (← Json.required Json.bool? regex) (← Json.required Json.int32? flags))
  | "count" => do
    let [pattern, flags] ← j.fields? ["pat", "flags"] | none
    pure (count (← Json.required Json.string? pattern) (← Json.required Json.int32? flags))
  | "endswith" => do
    let [pattern] ← j.fields? ["pat"] | none
    pure (endsWith (← Json.required Json.string? pattern))
  | "startswith" => do
    let [pattern] ← j.fields? ["pat"] | none
    pure (startsWith (← Json.required Json.string? pattern))
  | "extract" => do
    let [pattern, flags, group] ← j.fields? ["pat", "flags", "group"] | none
    pure (extract (← Json.required Json.string? pattern) (← Json.required Json.int32? flags)
      (← Json.required Json.int64? group))
  | "find" => do
    let [sub, start, stop] ← j.fields? ["sub", "start", "end"] | none
    pure (find (← Json.required Json.string? sub) (← Json.required Json.int64? start)
      (← Json.optional Json.int64? stop))
  | "replace" => do
    let [pattern, replacement, n, caseful, flags, regex] ←
      j.fields? ["pat", "repl", "n", "case", "flags", "regex"] | none
    pure (replace (← Json.required Json.string? pattern) (← Json.required Json.string? replacement)
      (← Json.required Json.int64? n) (← Json.required Json.bool? caseful)
      (← Json.required Json.int32? flags) (← Json.required Json.bool? regex))
  | "get" => do
    let [index] ← j.fields? ["index"] | none
    pure (get (← Json.required Json.int64? index))
  | "len" => j.noFields?.map fun _ => len
  | "lower" => j.noFields?.map fun _ => lower
  | "upper" => j.noFields?.map fun _ => upper
  | "lstrip" => strip? stripLeft j
  | "rstrip" => strip? stripRight j
  | "strip" => strip? strip j
  | "repeat" => do
    let [times] ← j.fields? ["repeats"] | none
    pure (.repeat (← Json.required Json.int64? times))
  | "substr" => do
    let [start, length] ← j.fields? ["start", "length"] | none
    pure (substring (← Json.required Json.int64? start) (← Json.optional Json.int64? length))
  | _ => none

/-- Reads an operation on text. -/
def ofJson? (j : Json) : Option TextOp := do
  let (tag, rest) ← j.tagged? "op"
  ofParameters? (← tag.tagIn? tags) rest

end TextOp

namespace ElementOp

def tags : List String :=
  ["is_null", "not_null", "fill_na", "is_in", "not_in", "between", "if_else", "switch", "cut"]

/-- The tag of an operation on elements. -/
def tag : ElementOp → String
  | isNull _ => "is_null"
  | notNull _ => "not_null"
  | fillNull .. => "fill_na"
  | isIn .. => "is_in"
  | notIn .. => "not_in"
  | between .. => "between"
  | ifElse .. => "if_else"
  | switch .. => "switch"
  | cut .. => "cut"

/-- The fields of an operation on elements. -/
def fields : ElementOp → List (String × Json)
  | isNull input => [("input", Json.ofNat input)]
  | notNull input => [("input", Json.ofNat input)]
  | fillNull input value => [("input", Json.ofNat input), ("value", Json.ofNat value)]
  | isIn input values => [("input", Json.ofNat input), ("values", values.toJson)]
  | notIn input values => [("input", Json.ofNat input), ("values", values.toJson)]
  | between input left right inclusive =>
    [("input", Json.ofNat input), ("left", NodeId.perhapsToJson left),
      ("right", NodeId.perhapsToJson right), ("inclusive", .bool inclusive)]
  | ifElse condition consequent alternative =>
    [("condition", Json.ofNat condition), ("then", Json.ofNat consequent),
      ("otherwise", Json.ofNat alternative)]
  | switch subject conditions results fallback =>
    [("case", NodeId.perhapsToJson subject), ("conditions", NodeId.listToJson conditions),
      ("thens", NodeId.listToJson results), ("default", NodeId.perhapsToJson fallback)]
  | cut input c =>
    [("input", Json.ofNat input), ("bins", Json.ofList Value.toJson c.bins),
      ("right", .bool c.right), ("labels", Json.ofList Value.toJson c.labels),
      ("include_lowest", .bool c.includeLowest), ("include_under", .bool c.includeUnder),
      ("include_over", .bool c.includeOver)]

/-- Reads a test for membership. -/
def membership? (make : NodeId → Membership → ElementOp) (j : Json) : Option ElementOp := do
  let [input, values] ← j.fields? ["input", "values"] | none
  pure (make (← NodeId.field? input) (← Json.required Membership.ofJson? values))

/-- Reads a cut into buckets. -/
def cut? (j : Json) : Option ElementOp := do
  let [input, bins, right, labels, lowest, below, above] ←
    j.fields? ["input", "bins", "right", "labels", "include_lowest", "include_under",
      "include_over"] | none
  pure (cut (← NodeId.field? input)
    ⟨← Json.required (Json.list? Value.ofJson?) bins, ← Json.required Json.bool? right,
      ← Json.required (Json.list? Value.ofJson?) labels, ← Json.required Json.bool? lowest,
      ← Json.required Json.bool? below, ← Json.required Json.bool? above⟩)

/-- Reads the operation of a tag. -/
def ofFields? (tag : String) (j : Json) : Option ElementOp :=
  match tag with
  | "is_null" => do
    let [input] ← j.fields? ["input"] | none
    pure (isNull (← NodeId.field? input))
  | "not_null" => do
    let [input] ← j.fields? ["input"] | none
    pure (notNull (← NodeId.field? input))
  | "fill_na" => do
    let [input, value] ← j.fields? ["input", "value"] | none
    pure (fillNull (← NodeId.field? input) (← NodeId.field? value))
  | "is_in" => membership? isIn j
  | "not_in" => membership? notIn j
  | "between" => do
    let [input, left, right, inclusive] ←
      j.fields? ["input", "left", "right", "inclusive"] | none
    pure (between (← NodeId.field? input) (← NodeId.perhaps? left) (← NodeId.perhaps? right)
      (← Json.required Json.bool? inclusive))
  | "if_else" => do
    let [condition, consequent, alternative] ←
      j.fields? ["condition", "then", "otherwise"] | none
    pure (ifElse (← NodeId.field? condition) (← NodeId.field? consequent)
      (← NodeId.field? alternative))
  | "switch" => do
    let [subject, conditions, results, fallback] ←
      j.fields? ["case", "conditions", "thens", "default"] | none
    pure (switch (← NodeId.perhaps? subject) (← NodeId.list? conditions) (← NodeId.list? results)
      (← NodeId.perhaps? fallback))
  | "cut" => cut? j
  | _ => none

/-- Reads an operation on elements. -/
def ofJson? (j : Json) : Option ElementOp := do
  let (tag, rest) ← j.tagged? "op"
  ofFields? (← tag.tagIn? tags) rest

end ElementOp

namespace WindowOp

/-- The window functions, in the order of their numbers. -/
def tags : List String := ["cumulative", "rank", "shift"]

/-- The tag of a window function. -/
def tag : WindowOp → String
  | cumulative .. => "cumulative"
  | rank .. => "rank"
  | shift .. => "shift"

/-- The fields of a window function. -/
def fields : WindowOp → List (String × Json)
  | cumulative func input distinct spec =>
    [("func", Keyed.toJson func), ("input", Json.ofNat input), ("distinct", .bool distinct),
      ("spec", spec.toJson)]
  | rank func spec => [("func", Keyed.toJson func), ("spec", spec.toJson)]
  | shift func input offset default spec =>
    [("func", Keyed.toJson func), ("input", Json.ofNat input), ("offset", .integer offset.toInt),
      ("default", Json.ofOption Value.toJson default), ("spec", spec.toJson)]

/-- Reads the window function of a tag. -/
def ofFields? (tag : String) (j : Json) : Option WindowOp :=
  match tag with
  | "cumulative" => do
    let [func, input, distinct, spec] ← j.fields? ["func", "input", "distinct", "spec"] | none
    pure (cumulative (← Json.required Keyed.ofJson? func) (← NodeId.field? input)
      (← Json.required Json.bool? distinct) (← Json.required WindowSpec.ofJson? spec))
  | "rank" => do
    let [func, spec] ← j.fields? ["func", "spec"] | none
    pure (rank (← Json.required Keyed.ofJson? func) (← Json.required WindowSpec.ofJson? spec))
  | "shift" => do
    let [func, input, offset, default, spec] ←
      j.fields? ["func", "input", "offset", "default", "spec"] | none
    pure (shift (← Json.required Keyed.ofJson? func) (← NodeId.field? input)
      (← Json.required Json.int64? offset) (← Json.optional Value.ofJson? default)
      (← Json.required WindowSpec.ofJson? spec))
  | _ => none

/-- Reads a window function. -/
def ofJson? (j : Json) : Option WindowOp := do
  let (tag, rest) ← j.tagged? "window"
  ofFields? (← tag.tagIn? tags) rest

end WindowOp

namespace Kind

/-- The tag of an operator. -/
def tag : Kind → String
  | source _ => "source"
  | project .. => "project"
  | filter .. => "filter"
  | groupBy .. => "group_by"
  | mutate .. => "mutate"
  | sort .. => "sort"
  | distinct .. => "distinct"
  | slice .. => "slice"
  | summary .. => "summary"
  | join .. => "join"
  | union .. => "union"
  | element _ => "element"
  | binary .. => "binary"
  | unary .. => "unary"
  | math .. => "math"
  | text .. => "str"
  | datetime .. => "datetime"
  | reduction .. => "reduction"
  | window _ => "window"
  | cast _ => "cast"
  | column _ => "column"
  | literal _ => "literal"
  | userMap .. => "user_map"

/-- The fields of an operator. -/
def fields : Kind → List (String × Json)
  | source table => [("table", table.toJson)]
  | project input fields => [("input", Json.ofNat input), ("fields", NodeId.listToJson fields)]
  | filter input predicate => [("input", Json.ofNat input), ("predicate", Json.ofNat predicate)]
  | groupBy input keys aggregates having =>
    [("input", Json.ofNat input), ("by", NodeId.listToJson keys),
      ("aggs", NodeId.listToJson aggregates), ("having", NodeId.perhapsToJson having)]
  | mutate input keys mutates =>
    [("input", Json.ofNat input), ("by", NodeId.listToJson keys),
      ("mutates", NodeId.listToJson mutates)]
  | sort input keys => [("input", Json.ofNat input), ("keys", Json.ofList SortKey.toJson keys)]
  | distinct input fields => [("input", Json.ofNat input), ("fields", NodeId.listToJson fields)]
  | slice input start stop step =>
    let bound := Json.ofOption fun n : Int64 => .integer n.toInt
    [("input", Json.ofNat input), ("start", bound start), ("stop", bound stop),
      ("step", bound step)]
  | summary input fields => [("input", Json.ofNat input), ("fields", NodeId.listToJson fields)]
  | join left right predicate how fields =>
    [("left", Json.ofNat left), ("right", Json.ofNat right),
      ("predicate", NodeId.perhapsToJson predicate), ("how", Keyed.toJson how),
      ("fields", Json.ofList JoinField.toJson fields)]
  | union left right unique =>
    [("left", Json.ofNat left), ("right", Json.ofNat right), ("distinct", .bool unique)]
  | element op => ("op", .string op.tag) :: op.fields
  | binary op lhs rhs =>
    [("op", Keyed.toJson op), ("lhs", Json.ofNat lhs), ("rhs", Json.ofNat rhs)]
  | unary op input => [("op", Keyed.toJson op), ("input", Json.ofNat input)]
  | math func input => [("func", func.toJson), ("input", Json.ofNat input)]
  | text input op => [("input", Json.ofNat input), ("op", op.toJson)]
  | datetime input part => [("input", Json.ofNat input), ("field", Keyed.toJson part)]
  | reduction func input ddof =>
    [("func", Keyed.toJson func), ("input", Json.ofNat input), ("ddof", .integer ddof.toInt)]
  | window op => ("window", .string op.tag) :: op.fields
  | cast input => [("input", Json.ofNat input)]
  | column collection => [("collection", Json.ofNat collection)]
  | literal value => [("value", value.toJson)]
  | userMap input function => [("input", Json.ofNat input), ("udf", Json.ofNat function)]

/-- An operator as a document. -/
def toJson (k : Kind) : Json := .object (("kind", .string k.tag) :: k.fields)

/-- Reads an operator with an input and fields. -/
def inputFields? (make : NodeId → List NodeId → Kind) (j : Json) : Option Kind := do
  let [input, fields] ← j.fields? ["input", "fields"] | none
  pure (make (← NodeId.field? input) (← NodeId.list? fields))

/-- Reads an operator on collections. -/
def collectionOf? (tag : String) (j : Json) : Option Kind :=
  match tag with
  | "source" => do
    let [table] ← j.fields? ["table"] | none
    pure (source (← Json.required Table.ofJson? table))
  | "project" => inputFields? project j
  | "filter" => do
    let [input, predicate] ← j.fields? ["input", "predicate"] | none
    pure (filter (← NodeId.field? input) (← NodeId.field? predicate))
  | "group_by" => do
    let [input, keys, aggregates, having] ← j.fields? ["input", "by", "aggs", "having"] | none
    pure (groupBy (← NodeId.field? input) (← NodeId.list? keys) (← NodeId.list? aggregates)
      (← NodeId.perhaps? having))
  | "mutate" => do
    let [input, keys, mutates] ← j.fields? ["input", "by", "mutates"] | none
    pure (mutate (← NodeId.field? input) (← NodeId.list? keys) (← NodeId.list? mutates))
  | "sort" => do
    let [input, keys] ← j.fields? ["input", "keys"] | none
    pure (sort (← NodeId.field? input) (← Json.required (Json.list? SortKey.ofJson?) keys))
  | "distinct" => inputFields? distinct j
  | "slice" => do
    let [input, start, stop, step] ← j.fields? ["input", "start", "stop", "step"] | none
    pure (slice (← NodeId.field? input) (← Json.optional Json.int64? start)
      (← Json.optional Json.int64? stop) (← Json.optional Json.int64? step))
  | "summary" => inputFields? summary j
  | "join" => do
    let [left, right, predicate, how, fields] ←
      j.fields? ["left", "right", "predicate", "how", "fields"] | none
    pure (join (← NodeId.field? left) (← NodeId.field? right) (← NodeId.perhaps? predicate)
      (← Json.required Keyed.ofJson? how) (← Json.required (Json.list? JoinField.ofJson?) fields))
  | "union" => do
    let [left, right, unique] ← j.fields? ["left", "right", "distinct"] | none
    pure (union (← NodeId.field? left) (← NodeId.field? right)
      (← Json.required Json.bool? unique))
  | _ => none

/-- Reads an operator on values. -/
def valueOf? (tag : String) (j : Json) : Option Kind :=
  match tag with
  | "element" => (ElementOp.ofJson? j).map element
  | "binary" => do
    let [op, lhs, rhs] ← j.fields? ["op", "lhs", "rhs"] | none
    pure (binary (← Json.required Keyed.ofJson? op) (← NodeId.field? lhs) (← NodeId.field? rhs))
  | "unary" => do
    let [op, input] ← j.fields? ["op", "input"] | none
    pure (unary (← Json.required Keyed.ofJson? op) (← NodeId.field? input))
  | "math" => do
    let [func, input] ← j.fields? ["func", "input"] | none
    pure (math (← Json.required MathFunc.ofJson? func) (← NodeId.field? input))
  | "str" => do
    let [input, op] ← j.fields? ["input", "op"] | none
    pure (text (← NodeId.field? input) (← Json.required TextOp.ofJson? op))
  | "datetime" => do
    let [input, part] ← j.fields? ["input", "field"] | none
    pure (datetime (← NodeId.field? input) (← Json.required Keyed.ofJson? part))
  | "reduction" => do
    let [func, input, ddof] ← j.fields? ["func", "input", "ddof"] | none
    pure (reduction (← Json.required Keyed.ofJson? func) (← NodeId.field? input)
      (← Json.required Json.int64? ddof))
  | "window" => (WindowOp.ofJson? j).map window
  | "cast" => do
    let [input] ← j.fields? ["input"] | none
    pure (cast (← NodeId.field? input))
  | "column" => do
    let [collection] ← j.fields? ["collection"] | none
    pure (column (← NodeId.field? collection))
  | "literal" => do
    let [value] ← j.fields? ["value"] | none
    pure (literal (← Json.required Value.ofJson? value))
  | "user_map" => do
    let [input, function] ← j.fields? ["input", "udf"] | none
    pure (userMap (← NodeId.field? input) (← Json.required Json.nat? function))
  | _ => none

/-- Reads an operator. -/
def ofJson? (j : Json) : Option Kind := do
  let (tag, rest) ← j.tagged? "kind"
  let tag ← tag.string?
  collectionOf? tag rest <|> valueOf? tag rest

end Kind

/-- Type and names of a value, by name. -/
def Typed.fields (t : Typed) : List (String × Json) :=
  [("dtype", Keyed.toJson t.dtype), ("source_dtype", Keyed.toJson t.sourceDtype),
    ("name", Json.ofOption .string t.name), ("source_name", Json.ofOption .string t.sourceName)]

/-- Reads type and names of a value. -/
def Typed.ofJson? (j : Json) : Option Typed := do
  let [dtype, sourceDtype, name, sourceName] ←
    j.fields? ["dtype", "source_dtype", "name", "source_name"] | none
  pure ⟨← Json.required Keyed.ofJson? dtype, ← Json.required Keyed.ofJson? sourceDtype,
    ← Json.optional Json.string? name, ← Json.optional Json.string? sourceName⟩

namespace Shape

/-- The shapes, in the order of their numbers. -/
def tags : List String := ["collection", "sequence", "scalar"]

/-- The fields of a shape. -/
def fields : Shape → List (String × Json)
  | collection schema => [("shape", .string "collection"), ("schema", schema.toJson)]
  | sequence typed => ("shape", .string "sequence") :: typed.fields
  | scalar typed => ("shape", .string "scalar") :: typed.fields

/-- Reads a shape. -/
def ofJson? (j : Json) : Option Shape := do
  let (tag, rest) ← j.tagged? "shape"
  match ← tag.tagIn? tags with
  | "collection" => do
    let [schema] ← rest.fields? ["schema"] | none
    pure (collection (← Json.required Schema.ofJson? schema))
  | "sequence" => (Typed.ofJson? rest).map sequence
  | "scalar" => (Typed.ofJson? rest).map scalar
  | _ => none

end Shape

namespace Node

/-- A node as a document: its operator, and beside it the fields of its shape. -/
def toJson (n : Node) : Json := .object (("kind", n.kind.toJson) :: n.shape.fields)

/-- Reads a node. -/
def ofJson? : Json → Option Node
  | .object members => do
    let (kind, rest) ← Json.tagged? "kind" (.object members)
    pure ⟨← Kind.ofJson? kind, ← Shape.ofJson? rest⟩
  | _ => none

end Node

end PlanSql

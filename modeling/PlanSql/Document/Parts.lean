import PlanSql.DataType.Resolve
import PlanSql.Graph.Node
import PlanSql.Json.Basic

/-!
# Parts of nodes as documents

How constants, schemas, windows and the other parts of a node are written as documents and read
back. Every reader accepts what the writer beside it gives.
-/

namespace PlanSql

def Keyed.toJson {α : Type} [Keyed α] (a : α) : Json := .string (Keyed.key a)

def Keyed.ofJson? {α : Type} [Keyed α] (j : Json) : Option α := j.name?.bind Keyed.ofKey?

/-- Reads a member of a family from its bare name. -/
def Keyed.ofBare? {α : Type} [Keyed α] (j : Json) : Option α := j.bareName?.bind Keyed.ofKey?

def NodeId.perhapsToJson (id : Option NodeId) : Json := Json.ofOption Json.ofNat id

def NodeId.listToJson (ids : List NodeId) : Json := Json.ofList Json.ofNat ids

namespace Value

/-- The keys of all types of constants. -/
def tags : List String :=
  ["null", "boolean", "integer", "float", "decimal", "string", "datetime"]

/-- The key of the type of a constant. -/
def tag : Value → String
  | null => "null"
  | boolean _ => "boolean"
  | integer _ => "integer"
  | float _ => "float"
  | decimal _ => "decimal"
  | string _ => "string"
  | datetime _ => "datetime"

/-- What a constant holds; null holds nothing. -/
def contents : Value → Option Json
  | null => none
  | boolean b => some (.bool b)
  | integer n => some (.integer n.toInt)
  | float x => some (.float x)
  | decimal d => some (.string d.toString)
  | string s => some (.string s)
  | datetime t => some (.string t.jsonText)

def toJson (v : Value) : Json :=
  .object (("type", .string v.tag) :: (v.contents.map fun j => ("value", j)).toList)

def decimalOfJson? : Json → Option Decimal
  | .string s => Decimal.ofText? s
  | .integer n => Decimal.ofInt? n
  | .float x => Decimal.ofBinary64? x
  | _ => none

/-- Reads that a constant holds nothing. -/
def nothing? : Option Json → Option Unit
  | none => some ()
  | some .null => some ()
  | some _ => none

/-- Reads a constant whose type is known by its key. -/
def ofContents? (tag : String) (j : Option Json) : Option Value :=
  match tag with
  | "null" => (nothing? j).map fun _ => null
  | "boolean" => (Json.required Json.bool? j).map boolean
  | "integer" => (Json.required Json.int64? j).map integer
  | "float" => (Json.required Json.float? j).map float
  | "decimal" => (Json.required decimalOfJson? j).map decimal
  | "string" => (Json.required Json.string? j).map string
  | "datetime" =>
    (Json.required (fun j => j.string?.bind Datetime.ofText?) j).map datetime
  | _ => none

/-- Reads a constant. In a list the type may also be given by its place among all types. -/
def ofJson? : Json → Option Value
  | .object members => do
    let tag ← Json.single? "type" members
    let contents ← Json.single? "value" members
    ofContents? (← Json.required Json.name? tag) contents
  | .array [tag, contents] => do ofContents? (← tag.tagIn? tags) (some contents)
  | _ => none

end Value

def Field.toJson (f : Field) : Json :=
  .object [("name", .string f.name), ("dtype", Keyed.toJson f.dtype)]

def Field.ofJson? (j : Json) : Option Field := do
  let [name, dtype] ← j.fields? ["name", "dtype"] | none
  pure ⟨← Json.required Json.string? name, ← Json.required Keyed.ofJson? dtype⟩

def Schema.toJson (s : Schema) : Json := .object [("fields", Json.ofList Field.toJson s.fields)]

def Schema.ofJson? (j : Json) : Option Schema := do
  let [fields] ← j.fields? ["fields"] | none
  pure ⟨← Json.required (Json.list? Field.ofJson?) fields⟩

def Table.toJson (t : Table) : Json :=
  .object [("namespace", .string t.space), ("name", .string t.name), ("schema", t.schema.toJson)]

def Table.ofJson? (j : Json) : Option Table := do
  let [space, name, schema] ← j.fields? ["namespace", "name", "schema"] | none
  pure ⟨← Json.required Json.string? space, ← Json.required Json.string? name,
    ← Json.required Schema.ofJson? schema⟩

def UserFunction.toJson (f : UserFunction) : Json :=
  .object [("name", .string f.name), ("output", Keyed.toJson f.output)]

/-- Reads a user function, whose output is a bare name. -/
def UserFunction.ofJson? (j : Json) : Option UserFunction := do
  let [name, output] ← j.fields? ["name", "output"] | none
  pure ⟨← Json.required Json.string? name, ← Json.required Keyed.ofBare? output⟩

def SortKey.toJson (k : SortKey) : Json :=
  .object [("expr", Json.ofNat k.expr), ("ascending", .bool k.ascending)]

def SortKey.ofJson? (j : Json) : Option SortKey := do
  let [expr, ascending] ← j.fields? ["expr", "ascending"] | none
  pure ⟨← Json.required Json.nat? expr, ← Json.required Json.bool? ascending⟩

def JoinField.toJson (f : JoinField) : Json :=
  .object [("name", .string f.name), ("dtype", Keyed.toJson f.dtype),
    ("side", Keyed.toJson f.side), ("source", .string f.source)]

def JoinField.ofJson? (j : Json) : Option JoinField := do
  let [name, dtype, side, source] ← j.fields? ["name", "dtype", "side", "source"] | none
  pure ⟨← Json.required Json.string? name, ← Json.required Keyed.ofJson? dtype,
    ← Json.required Keyed.ofJson? side, ← Json.required Json.string? source⟩

/-- What a membership test looks in, as a document. -/
def Membership.toJson : Membership → Json
  | literals ids => .object [("literals", NodeId.listToJson ids)]
  | subquery id => .object [("subquery", Json.ofNat id)]

/-- Reads what a membership test looks in. -/
def Membership.ofJson? (j : Json) : Option Membership := do
  match ← j.variant? with
  | ("literals", ids) => (ids.list? Json.nat?).map literals
  | ("subquery", id) => id.nat?.map subquery
  | _ => none

def Frame.toJson : Frame → Json
  | preceding n => .object [("preceding", Json.ofNat n.toNat)]
  | following n => .object [("following", Json.ofNat n.toNat)]
  | between p f =>
    .object [("between",
      .object [("preceding", Json.ofNat p.toNat), ("following", Json.ofNat f.toNat)])]
  | precedingRange a b =>
    .object [("preceding_range", .array [Json.ofNat a.toNat, Json.ofNat b.toNat])]
  | followingRange a b =>
    .object [("following_range", .array [Json.ofNat a.toNat, Json.ofNat b.toNat])]

def Frame.ofJson? (j : Json) : Option Frame := do
  match ← j.variant? with
  | ("preceding", n) => n.uint64?.map preceding
  | ("following", n) => n.uint64?.map following
  | ("between", bounds) => do
    let [p, f] ← bounds.fields? ["preceding", "following"] | none
    pure (between (← Json.required Json.uint64? p) (← Json.required Json.uint64? f))
  | ("preceding_range", .array [a, b]) => do pure (precedingRange (← a.uint64?) (← b.uint64?))
  | ("following_range", .array [a, b]) => do pure (followingRange (← a.uint64?) (← b.uint64?))
  | _ => none

def WindowSpec.toJson (w : WindowSpec) : Json :=
  .object [("partition_by", NodeId.listToJson w.partitionBy),
    ("order_by", Json.ofList SortKey.toJson w.orderBy),
    ("frame", Json.ofOption Frame.toJson w.frame)]

def WindowSpec.ofJson? (j : Json) : Option WindowSpec := do
  let [partitionBy, orderBy, frame] ← j.fields? ["partition_by", "order_by", "frame"] | none
  pure ⟨← Json.required (Json.list? Json.nat?) partitionBy,
    ← Json.required (Json.list? SortKey.ofJson?) orderBy, ← Json.optional Frame.ofJson? frame⟩

def MathFunc.toJson : MathFunc → Json
  | plain func => Keyed.toJson func
  | log base => .object [("log", .object [("base", Json.ofOption Json.float base)])]
  | trunc decimals =>
    .object [("trunc", .object [("decimals", Json.ofOption (fun n => .integer n.toInt) decimals)])]

def MathFunc.ofJson? (j : Json) : Option MathFunc :=
  match j.variant? with
  | some ("log", parameters) => do
    let [base] ← parameters.fields? ["base"] | none
    pure (log (← Json.optional Json.float? base))
  | some ("trunc", parameters) => do
    let [decimals] ← parameters.fields? ["decimals"] | none
    pure (trunc (← Json.optional Json.int32? decimals))
  | _ => (Keyed.ofJson? j).map plain

end PlanSql

import PlanSql.Document.Nodes
import PlanSql.Proofs.Document.Parts

/-!
# Nodes are read from their documents

An operator is read from its document if its ids fit in 64 bits and its floating point numbers are
read from their texts. The shape beside it is read from what the operator leaves.
-/

namespace PlanSql

open Json

variable {depth : Nat}

/-! ## Operations on text -/

namespace TextOp

theorem printable (op : TextOp) : Printable (depth + 1) op.toJson := by
  cases op <;> simp [toJson, parameters]

theorem op_notMem_parameters (op : TextOp) : "op" ∉ op.parameters.map Prod.fst := by
  cases op <;> simp [parameters]

theorem ofParameters?_key (op : TextOp) :
    ofParameters? op.key (.object op.parameters) = some op := by
  cases op <;> simp [ofParameters?, key, parameters, noFields?, strip?, fields?_object, required]

@[simp]
theorem ofJson?_toJson (op : TextOp) : ofJson? op.toJson = some op := by
  simp [ofJson?, toJson, tagged?_cons op.op_notMem_parameters, tagIn?, ofParameters?_key]

end TextOp

/-! ## Constants and functions of operators -/

/-- The constants of an operator. The base of a logarithm is one. -/
def Kind.constants : Kind → List Value
  | literal v => [v]
  | element (.cut _ c) => c.bins ++ c.labels
  | window (.shift _ _ _ fallback _) => fallback.toList
  | math (.log base) _ => base.toList.map .float
  | _ => []

def Kind.function? : Kind → Option FunctionId
  | userMap _ function => some function
  | _ => none

theorem Value.printable_ofList {vs : List Value} (h : ∀ v ∈ vs, v.Readable) :
    Printable (depth + 2) (ofList toJson vs) :=
  Json.printable_ofList.2 fun v hv => printable (h v hv)

theorem Value.list?_ofList (vs : List Value) :
    Json.list? ofJson? (ofList toJson vs) = some (vs.map settled) :=
  mapAll_map fun v _ => v.ofJson?_toJson

/-! ## Element operations -/

namespace ElementOp

variable {op : ElementOp}

theorem op_notMem_fields (op : ElementOp) : "op" ∉ op.fields.map Prod.fst := by
  cases op <;> simp [fields]

theorem printable_fields (hwords : AllWords (op.operands.map Prod.snd))
    (hfloats : ∀ v ∈ (Kind.element op).constants, v.Readable) :
    ∀ m ∈ op.fields, Printable (depth + 2) m.2 := by
  cases op with
  | cut input c =>
    obtain ⟨hinput, -⟩ := allWords_cons.1 hwords
    obtain ⟨hbins, hlabels⟩ := List.forall_mem_append.1 hfloats
    simp [fields, printable_ofNat hinput, Value.printable_ofList hbins,
      Value.printable_ofList hlabels]
  | isIn _ _ | notIn _ _ =>
    obtain ⟨hinput, hvalues⟩ := allWords_cons.1 hwords
    simp [fields, printable_ofNat hinput, Membership.printable hvalues]
  | isNull _ | notNull _ | fillNull _ _ | between _ _ _ _ | ifElse _ _ _ | switch _ _ _ _ =>
    simp only [operands, List.map_cons, List.map_append, List.map_nil, Operand.map_many,
      Operand.map_perhaps, allWords_cons, allWords_append, allWords_nil] at hwords
    simp [fields, printable_ofNat, NodeId.printable_list, NodeId.printable_perhaps, hwords]

theorem ofFields?_tag (hwords : AllWords (op.operands.map Prod.snd)) :
    (ofFields? op.tag (.object op.fields)).map Kind.element = some (Kind.element op).settled := by
  cases op with
  | cut input c =>
    obtain ⟨hinput, -⟩ := allWords_cons.1 hwords
    simp [ofFields?, tag, fields, cut?, fields?_object, NodeId.field?, required, nat?_ofNat hinput,
      Value.list?_ofList, Kind.settled, Cut.settled]
  | isIn _ _ | notIn _ _ =>
    obtain ⟨hinput, hvalues⟩ := allWords_cons.1 hwords
    simp [ofFields?, tag, fields, membership?, fields?_object, NodeId.field?, required,
      nat?_ofNat hinput, Membership.ofJson?_toJson hvalues, Kind.settled]
  | isNull _ | notNull _ | fillNull _ _ | between _ _ _ _ | ifElse _ _ _ | switch _ _ _ _ =>
    simp only [operands, List.map_cons, List.map_append, List.map_nil, Operand.map_many,
      Operand.map_perhaps, allWords_cons, allWords_append, allWords_nil] at hwords
    simp [ofFields?, tag, fields, fields?_object, NodeId.field?, NodeId.perhaps?, NodeId.list?,
      required, nat?_ofNat, NodeId.list?_listToJson, NodeId.optional_perhapsToJson, hwords,
      Kind.settled]

theorem ofJson?_fields (hwords : AllWords (op.operands.map Prod.snd)) :
    (ofJson? (.object (("op", .string op.tag) :: op.fields))).map Kind.element =
      some (Kind.element op).settled := by
  rw [ofJson?, tagged?_cons op.op_notMem_fields]
  exact ofFields?_tag hwords

end ElementOp

/-! ## Window functions -/

namespace WindowOp

variable {op : WindowOp}

theorem window_notMem_fields (op : WindowOp) : "window" ∉ op.fields.map Prod.fst := by
  cases op <;> simp [fields]

theorem printable_fields (hwords : AllWords (op.operands.map Prod.snd))
    (hfloats : ∀ v ∈ (Kind.window op).constants, v.Readable) :
    ∀ m ∈ op.fields, Printable (depth + 3) m.2 := by
  cases op with
  | cumulative func input distinct spec =>
    obtain ⟨hinput, hspec⟩ := allWords_cons.1 hwords
    simp [fields, printable_ofNat hinput, WindowSpec.printable hspec]
  | rank func spec => simp [fields, WindowSpec.printable hwords]
  | shift func input offset fallback spec =>
    obtain ⟨hinput, hspec⟩ := allWords_cons.1 hwords
    have hfallback : Printable (depth + 3) (ofOption Value.toJson fallback) :=
      printable_ofOption.2 fun v hv => Value.printable (hfloats v (Option.mem_toList.2 hv))
    simp [fields, printable_ofNat hinput, WindowSpec.printable hspec,
      -printable_ofOption, hfallback]

theorem ofFields?_tag (hwords : AllWords (op.operands.map Prod.snd)) :
    (ofFields? op.tag (.object op.fields)).map Kind.window = some (Kind.window op).settled := by
  cases op with
  | cumulative func input distinct spec =>
    obtain ⟨hinput, hspec⟩ := allWords_cons.1 hwords
    simp [ofFields?, tag, fields, fields?_object, NodeId.field?, required, nat?_ofNat hinput,
      WindowSpec.ofJson?_toJson hspec, Kind.settled]
  | rank func spec =>
    simp [ofFields?, tag, fields, fields?_object, required, WindowSpec.ofJson?_toJson hwords,
      Kind.settled]
  | shift func input offset fallback spec =>
    obtain ⟨hinput, hspec⟩ := allWords_cons.1 hwords
    have hfallback := optional_ofOption (o := fallback) (f := Value.ofJson?) rfl
      fun v _ => v.ofJson?_toJson
    simp [ofFields?, tag, fields, fields?_object, NodeId.field?, required, nat?_ofNat hinput,
      WindowSpec.ofJson?_toJson hspec, hfallback, Kind.settled]

theorem ofJson?_fields (hwords : AllWords (op.operands.map Prod.snd)) :
    (ofJson? (.object (("window", .string op.tag) :: op.fields))).map Kind.window =
      some (Kind.window op).settled := by
  rw [ofJson?, tagged?_cons op.window_notMem_fields]
  exact ofFields?_tag hwords

end WindowOp

/-! ## Operators -/

namespace Kind

variable {k : Kind} {input : NodeId}

/-- What an operator needs to be read from its document: all its ids fit in 64 bits, and its
floating point numbers are read from their texts. -/
structure Portable (k : Kind) : Prop where
  operands : AllWords (k.operands.map Prod.snd)
  function : ∀ f ∈ k.function?, IsWord f
  constants : ∀ v ∈ k.constants, v.Readable

theorem kind_notMem_fields (k : Kind) : "kind" ∉ k.fields.map Prod.fst := by
  cases k with
  | element op => cases op <;> simp [fields, ElementOp.fields]
  | window op => cases op <;> simp [fields, WindowOp.fields]
  | _ => simp [fields]

theorem readable_math {func : MathFunc} (h : (math func input).Portable) :
    func.Readable := by
  rintro x rfl
  exact h.constants (.float x) (.head _) x rfl

theorem isWord_sort {keys : List SortKey} (h : (sort input keys).Portable) :
    IsWord input ∧ ∀ key ∈ keys, IsWord key.expr := by
  have hwords := h.operands
  rw [operands, List.map_cons, Operand.map_many, allWords_cons] at hwords
  exact ⟨hwords.1, List.forall_mem_map.1 hwords.2⟩

theorem printable_fields (h : k.Portable) : ∀ m ∈ k.fields, Printable (depth + 4) m.2 := by
  have hwords := h.operands
  cases k with
  | source table => simp [fields, Table.printable]
  | sort input keys =>
    obtain ⟨hinput, hkeys⟩ := isWord_sort h
    have hprint : Printable (depth + 4) (ofList SortKey.toJson keys) :=
      printable_ofList.2 fun key hkey => SortKey.printable (hkeys key hkey)
    simp [fields, printable_ofNat hinput, -printable_ofList, hprint]
  | element op =>
    simp only [fields, List.forall_mem_cons, Printable.string, true_and]
    exact ElementOp.printable_fields h.operands h.constants
  | math func input =>
    have hinput := (allWords_cons.1 hwords).1
    simp [fields, MathFunc.printable (readable_math h), printable_ofNat hinput]
  | text input op =>
    have hinput := (allWords_cons.1 hwords).1
    simp [fields, op.printable, printable_ofNat hinput]
  | window op =>
    simp only [fields, List.forall_mem_cons, Printable.string, true_and]
    exact WindowOp.printable_fields h.operands h.constants
  | literal v => simp [fields, Value.printable (h.constants v List.mem_cons_self)]
  | userMap input function =>
    have hinput := (allWords_cons.1 hwords).1
    simp [fields, printable_ofNat hinput, printable_ofNat (h.function function rfl)]
  | _ =>
    simp only [operands, List.map_cons, List.map_append, List.map_nil, Operand.map_many,
      Operand.map_perhaps, allWords_cons, allWords_append, allWords_nil] at hwords
    simp [fields, printable_ofNat, NodeId.printable_list, NodeId.printable_perhaps, hwords,
      JoinField.printable]

theorem printable (h : k.Portable) : Printable (depth + 5) k.toJson := by
  rw [toJson, printable_object, List.forall_mem_cons]
  exact ⟨.string _, printable_fields h⟩

theorem ofFields?_tag (h : k.Portable) :
    (collectionOf? k.tag (.object k.fields) <|> valueOf? k.tag (.object k.fields)) =
      some k.settled := by
  have hwords := h.operands
  cases k with
  | source table => simp [collectionOf?, tag, fields, fields?_object, required, settled]
  | sort input keys =>
    obtain ⟨hinput, hkeys⟩ := isWord_sort h
    have hread : list? SortKey.ofJson? (ofList SortKey.toJson keys) = some keys :=
      list?_ofList fun key hkey => SortKey.ofJson?_toJson (hkeys key hkey)
    simp [collectionOf?, tag, fields, fields?_object, required, NodeId.field?, nat?_ofNat hinput,
      hread, settled]
  | element op => exact ElementOp.ofJson?_fields hwords
  | math func input =>
    have hinput := (allWords_cons.1 hwords).1
    simp [collectionOf?, valueOf?, tag, fields, fields?_object, required, func.ofJson?_toJson,
      NodeId.field?, nat?_ofNat hinput, settled]
  | window op => exact WindowOp.ofJson?_fields hwords
  | literal v =>
    simp [collectionOf?, valueOf?, tag, fields, fields?_object, required, v.ofJson?_toJson, settled]
  | userMap input function =>
    have hinput := (allWords_cons.1 hwords).1
    simp [collectionOf?, valueOf?, tag, fields, fields?_object, required, NodeId.field?,
      nat?_ofNat hinput, nat?_ofNat (h.function function rfl), settled]
  | _ =>
    simp only [operands, List.map_cons, List.map_append, List.map_nil, Operand.map_many,
      Operand.map_perhaps, allWords_cons, allWords_append, allWords_nil] at hwords
    simp [collectionOf?, valueOf?, inputFields?, tag, fields, fields?_object, required,
      NodeId.field?, NodeId.list?, NodeId.perhaps?, nat?_ofNat, NodeId.list?_listToJson,
      NodeId.optional_perhapsToJson, hwords, list?_ofList, settled]

/-- An operator is read from its document. -/
theorem ofJson?_toJson (h : k.Portable) : ofJson? k.toJson = some k.settled := by
  rw [ofJson?, toJson, tagged?_cons k.kind_notMem_fields]
  exact ofFields?_tag h

end Kind

/-! ## Shapes and nodes -/

theorem Typed.printable_fields (t : Typed) : ∀ m ∈ t.fields, Printable depth m.2 := by
  simp [fields]

theorem Typed.ofJson?_fields (t : Typed) : ofJson? (.object t.fields) = some t := by
  simp [ofJson?, fields, fields?_object, required]

namespace Shape

theorem printable_fields (s : Shape) : ∀ m ∈ s.fields, Printable (depth + 3) m.2 := by
  cases s with
  | collection schema => simp [fields, Schema.printable]
  | sequence typed | scalar typed => simpa [fields] using typed.printable_fields

theorem kind_notMem_fields (s : Shape) : "kind" ∉ s.fields.map Prod.fst := by
  cases s <;> simp [fields, Typed.fields]

theorem ofJson?_fields (s : Shape) : ofJson? (.object s.fields) = some s := by
  have hshape (t : Typed) : "shape" ∉ t.fields.map Prod.fst := by simp [Typed.fields]
  cases s with
  | collection schema => simp [ofJson?, fields, tagged?_cons, tagIn?, fields?_object, required]
  | sequence typed | scalar typed =>
    simp [ofJson?, fields, tagged?_cons (hshape typed), tagIn?, typed.ofJson?_fields]

end Shape

namespace Node

variable {n : Node}

theorem printable (h : n.kind.Portable) : Printable (depth + 6) n.toJson := by
  rw [toJson, printable_object, List.forall_mem_cons]
  exact ⟨Kind.printable h, n.shape.printable_fields⟩

/-- A node is read from its document. -/
theorem ofJson?_toJson (h : n.kind.Portable) : ofJson? n.toJson = some n.settled := by
  simp [ofJson?, toJson, tagged?_cons n.shape.kind_notMem_fields, Kind.ofJson?_toJson h,
    n.shape.ofJson?_fields, settled]

end Node

end PlanSql

import PlanSql.Document.Parts
import PlanSql.Document.Settled
import PlanSql.Proofs.Document.Texts

/-!
# Parts of nodes are read from their documents

Every reader of a part takes what the writer beside it gives for the part itself. Ids must fit in 64
bits and floating point numbers must be read from their texts as they are; of decimals only the sign
of a zero is lost.
-/

namespace PlanSql

open Json

variable {k : SortKey} {m : Membership}

/-- The members of a family are found by their keys. -/
class LawfulKeyed (α : Type) [Keyed α] : Prop where
  ofKey?_key : ∀ a : α, Keyed.ofKey? (Keyed.key a) = some a

instance : LawfulKeyed DataType := ⟨fun a => by cases a <;> rfl⟩
instance : LawfulKeyed BinaryOp := ⟨fun a => by cases a <;> rfl⟩
instance : LawfulKeyed UnaryOp := ⟨fun a => by cases a <;> rfl⟩
instance : LawfulKeyed PlainMath := ⟨fun a => by cases a <;> rfl⟩
instance : LawfulKeyed DatetimePart := ⟨fun a => by cases a <;> rfl⟩
instance : LawfulKeyed Reduction := ⟨fun a => by cases a <;> rfl⟩
instance : LawfulKeyed Cumulative := ⟨fun a => by cases a <;> rfl⟩
instance : LawfulKeyed Rank := ⟨fun a => by cases a <;> rfl⟩
instance : LawfulKeyed Shift := ⟨fun a => by cases a <;> rfl⟩
instance : LawfulKeyed JoinKind := ⟨fun a => by cases a <;> rfl⟩
instance : LawfulKeyed JoinSide := ⟨fun a => by cases a <;> rfl⟩

def IsWord (n : Nat) : Prop := n < 2 ^ 64

instance (n : Nat) : Decidable (IsWord n) := inferInstanceAs (Decidable (n < 2 ^ 64))

namespace Json

variable {α β : Type} {members : List (String × Json)}

/-! ## What is printed -/

section Printable

variable {depth : Nat}

attribute [simp] Printable.null Printable.bool Printable.string

@[simp]
theorem printable_array {items : List Json} :
    Printable (depth + 1) (.array items) ↔ ∀ j ∈ items, Printable depth j := by
  constructor
  · intro h
    cases h with
    | array h => exact h
  · exact .array

@[simp]
theorem printable_object {members : List (String × Json)} :
    Printable (depth + 1) (.object members) ↔ ∀ m ∈ members, Printable depth m.2 := by
  constructor
  · intro h
    cases h with
    | object h => exact h
  · exact .object

@[simp]
theorem printable_ofOption {g : α → Json} {o : Option α} :
    Printable depth (ofOption g o) ↔ ∀ x ∈ o, Printable depth (g x) := by
  cases o <;> simp [ofOption]

@[simp]
theorem printable_ofList {g : α → Json} {xs : List α} :
    Printable (depth + 1) (ofList g xs) ↔ ∀ x ∈ xs, Printable depth (g x) := by
  simp [ofList]

theorem printable_ofNat {n : Nat} (h : IsWord n) : Printable depth (ofNat n) := by
  unfold IsWord at h
  exact .integer (by omega) (by omega)

@[simp]
theorem printable_uint64 (n : UInt64) : Printable depth (ofNat n.toNat) :=
    printable_ofNat n.toNat_lt

@[simp]
theorem printable_int64 (n : Int64) : Printable depth (.integer n.toInt) := by
  have hlow := n.le_toInt
  have hhigh := n.toInt_lt
  exact .integer (by omega) (by omega)

@[simp]
theorem printable_int32 (n : Int32) : Printable depth (.integer n.toInt) := by
  have hlow := n.le_toInt
  have hhigh := n.toInt_lt
  exact .integer (by omega) (by omega)

@[simp]
theorem printable_key [Keyed α] (a : α) : Printable depth (Keyed.toJson a) := .string _

end Printable

/-! ## What is read -/

attribute [simp] bool? string? float?

theorem nat?_ofNat {n : Nat} (h : IsWord n) : nat? (ofNat n) = some n := by
  unfold IsWord at h
  have hwithin : (0 : Int) ≤ n ∧ (n : Int) ≤ 2 ^ 64 - 1 := by omega
  rw [nat?, ofNat, within?, if_pos hwithin]
  rfl

@[simp]
theorem uint64?_ofNat (n : UInt64) : uint64? (ofNat n.toNat) = some n := by
  rw [uint64?, nat?_ofNat n.toNat_lt, Option.map_some, Nat.toUInt64, UInt64.ofNat_toNat]

@[simp]
theorem int64?_integer (n : Int64) : int64? (.integer n.toInt) = some n := by
  have hlow := n.le_toInt
  have hhigh := n.toInt_lt
  have hwithin : -2 ^ 63 ≤ n.toInt ∧ n.toInt ≤ 2 ^ 63 - 1 := by omega
  rw [int64?, within?, if_pos hwithin, Option.map_some, Int64.ofInt_toInt]

@[simp]
theorem int32?_integer (n : Int32) : int32? (.integer n.toInt) = some n := by
  have hlow := n.le_toInt
  have hhigh := n.toInt_lt
  have hwithin : -2 ^ 31 ≤ n.toInt ∧ n.toInt ≤ 2 ^ 31 - 1 := by omega
  rw [int32?, within?, if_pos hwithin, Option.map_some, Int32.ofInt_toInt]

@[simp]
theorem ofJson?_key [Keyed α] [LawfulKeyed α] (a : α) :
    Keyed.ofJson? (Keyed.toJson a) = some a := LawfulKeyed.ofKey?_key a

@[simp]
theorem ofBare?_key [Keyed α] [LawfulKeyed α] (a : α) :
    Keyed.ofBare? (Keyed.toJson a) = some a := LawfulKeyed.ofKey?_key a

theorem list?_ofList {f : Json → Option α} {g : α → Json} {xs : List α}
    (h : ∀ x ∈ xs, f (g x) = some x) : list? f (ofList g xs) = some xs := by
  rw [ofList, list?, mapAll_map (h := id) h, List.map_id]

theorem optional_eq {f : Json → Option α} {g : α → Json} {o : Option α} (hnull : f .null = none)
    (h : ∀ x ∈ o, f (g x) = some x) : optional f (some (ofOption g o)) = some o := by
  rw [optional_ofOption (h := id) hnull h, Option.map_id, id]

@[simp]
theorem optional_string (o : Option String) :
    optional string? (some (ofOption .string o)) = some o := optional_eq rfl fun _ _ => rfl

@[simp]
theorem optional_int64 (o : Option Int64) :
    optional int64? (some (ofOption (fun n => .integer n.toInt) o)) = some o :=
  optional_eq rfl fun n _ => int64?_integer n

@[simp]
theorem optional_int32 (o : Option Int32) :
    optional int32? (some (ofOption (fun n => .integer n.toInt) o)) = some o :=
  optional_eq rfl fun n _ => int32?_integer n

theorem single?_of_mem (hnodup : (members.map Prod.fst).Nodup) {m : String × Json}
    (hm : m ∈ members) : single? m.1 members = some (some m.2) := by
  induction members with
  | nil => cases hm
  | cons m' members ih =>
    obtain ⟨hfresh, hnodup⟩ := List.nodup_cons.1 hnodup
    rcases List.mem_cons.1 hm with rfl | hm
    · exact single?_cons_self hfresh m.2
    · have hne : m'.1 ≠ m.1 := by
        intro heq
        exact hfresh (heq ▸ List.mem_map_of_mem hm)
      rw [single?_cons_of_ne hne, ih hnodup hm]

theorem fields?_object {names : List String} (hnames : members.map Prod.fst = names)
    (hnodup : names.Nodup) :
    fields? names (.object members) = some (members.map fun m => some m.2) := by
  subst hnames
  have hsome : ∀ part, part ⊆ members → (part.map Prod.fst).mapM (single? · members) =
      some (part.map fun m => some m.2) := by
    intro part hpart
    induction part with
    | nil => rfl
    | cons m part ih =>
      obtain ⟨hm, hpart⟩ := List.cons_subset.1 hpart
      simp [single?_of_mem hnodup hm, ih hpart]
  exact hsome members (List.Subset.refl members)

end Json

variable {depth : Nat}

/-! ## Ids -/

def AllWords (ids : List NodeId) : Prop := ∀ id ∈ ids, IsWord id

section AllWords

variable {ids ids' : List NodeId}

@[simp]
theorem allWords_nil : AllWords [] := fun _ h => nomatch h

@[simp]
theorem allWords_cons {id : NodeId} : AllWords (id :: ids) ↔ IsWord id ∧ AllWords ids :=
  List.forall_mem_cons

@[simp]
theorem allWords_append : AllWords (ids ++ ids') ↔ AllWords ids ∧ AllWords ids' :=
  List.forall_mem_append

@[simp]
theorem Operand.map_many (slot : Slot) (ids : List NodeId) :
    (Operand.many slot ids).map Prod.snd = ids := by
  rw [many, List.map_map]
  exact List.map_id ids

@[simp]
theorem Operand.map_perhaps (slot : Slot) (id : Option NodeId) :
    (Operand.perhaps slot id).map Prod.snd = id.toList :=
  map_many slot id.toList

end AllWords

namespace NodeId

variable {ids : List NodeId} {id : Option NodeId}

theorem printable_list (h : AllWords ids) : Printable (depth + 1) (listToJson ids) :=
  printable_ofList.2 fun id hid => printable_ofNat (h id hid)

theorem printable_perhaps (h : AllWords id.toList) : Printable depth (perhapsToJson id) :=
  printable_ofOption.2 fun i hi => printable_ofNat (h i (Option.mem_toList.2 hi))

theorem list?_listToJson (h : AllWords ids) : Json.list? nat? (listToJson ids) = some ids :=
  list?_ofList fun id hid => nat?_ofNat (h id hid)

theorem optional_perhapsToJson (h : AllWords id.toList) :
    optional nat? (some (perhapsToJson id)) = some id :=
  optional_eq rfl fun i hi => nat?_ofNat (h i (Option.mem_toList.2 hi))

end NodeId

/-! ## Constants -/

namespace Value

/-- The floating point number of a constant is read from its text. -/
def Readable (v : Value) : Prop := ∀ x, v = float x → x.ReadsBack

theorem printable {v : Value} (h : v.Readable) : Printable (depth + 1) v.toJson := by
  cases v with
  | float x => simp [toJson, contents, Printable.float (h x rfl)]
  | null | boolean _ | integer _ | decimal _ | string _ | datetime _ => simp [toJson, contents]

/-- A constant is read from its document; only the sign of a decimal zero is lost. -/
theorem ofJson?_toJson (v : Value) : ofJson? v.toJson = some v.settled := by
  have hvalue (tag : String) (j : Json) :
      ofJson? (.object [("type", .string tag), ("value", j)]) = ofContents? tag (some j) := by
    simp [ofJson?, single?_cons_of_ne, single?_cons_self, required, name?, bareName?]
  cases v with
  | null => rfl
  | boolean b => exact hvalue _ _
  | integer n => exact (hvalue _ _).trans (by simp [tag, ofContents?, required, settled])
  | float x => exact hvalue _ _
  | decimal d =>
    exact (hvalue _ _).trans
      (by simp [tag, ofContents?, required, decimalOfJson?, Decimal.ofText?_toString, settled])
  | string s => exact hvalue _ _
  | datetime t =>
    exact (hvalue _ _).trans
      (by simp [tag, ofContents?, required, Datetime.ofText?_jsonText, settled])

end Value

/-! ## Schemas and tables -/

theorem Field.printable (f : Field) : Printable (depth + 1) f.toJson := by
  simp [toJson]

@[simp]
theorem Field.ofJson?_toJson (f : Field) : ofJson? f.toJson = some f := by
  simp [ofJson?, toJson, fields?_object, required]

theorem Schema.printable (s : Schema) : Printable (depth + 3) s.toJson := by
  simp [toJson, Field.printable]

@[simp]
theorem Schema.ofJson?_toJson (s : Schema) : ofJson? s.toJson = some s := by
  simp [ofJson?, toJson, fields?_object, required, list?_ofList]

theorem Table.printable (t : Table) : Printable (depth + 4) t.toJson := by
  simp [toJson, Schema.printable]

@[simp]
theorem Table.ofJson?_toJson (t : Table) : ofJson? t.toJson = some t := by
  simp [ofJson?, toJson, fields?_object, required]

theorem UserFunction.printable (f : UserFunction) : Printable (depth + 1) f.toJson := by
  simp [toJson]

@[simp]
theorem UserFunction.ofJson?_toJson (f : UserFunction) : ofJson? f.toJson = some f := by
  simp [ofJson?, toJson, fields?_object, required]

theorem JoinField.printable (f : JoinField) : Printable (depth + 1) f.toJson := by
  simp [toJson]

@[simp]
theorem JoinField.ofJson?_toJson (f : JoinField) : ofJson? f.toJson = some f := by
  simp [ofJson?, toJson, fields?_object, required]

/-! ## Sort keys, membership tests, windows and functions -/

theorem SortKey.printable (h : IsWord k.expr) : Printable (depth + 1) k.toJson := by
  simp [toJson, printable_ofNat h]

theorem SortKey.ofJson?_toJson (h : IsWord k.expr) : ofJson? k.toJson = some k := by
  simp [ofJson?, toJson, fields?_object, required, nat?_ofNat h]

theorem Membership.printable (h : AllWords (m.operands.map Prod.snd)) :
    Printable (depth + 2) m.toJson := by
  cases m with
  | literals ids =>
    rw [operands, Operand.map_many] at h
    simp [toJson, NodeId.printable_list h]
  | subquery id => simp [toJson, printable_ofNat (allWords_cons.1 h).1]

theorem Membership.ofJson?_toJson (h : AllWords (m.operands.map Prod.snd)) :
    ofJson? m.toJson = some m := by
  cases m with
  | literals ids =>
    rw [operands, Operand.map_many] at h
    simp [ofJson?, toJson, variant?, NodeId.list?_listToJson h]
  | subquery id => simp [ofJson?, toJson, variant?, nat?_ofNat (allWords_cons.1 h).1]

theorem Frame.printable (f : Frame) : Printable (depth + 2) f.toJson := by
  cases f <;> simp [toJson]

@[simp]
theorem Frame.ofJson?_toJson (f : Frame) : ofJson? f.toJson = some f := by
  cases f <;> simp [ofJson?, toJson, variant?, fields?_object, required]

namespace WindowSpec

variable {w : WindowSpec}

theorem isWord_of_operands (h : AllWords (w.operands.map Prod.snd)) :
    AllWords w.partitionBy ∧ ∀ k ∈ w.orderBy, IsWord k.expr := by
  rw [operands, List.map_append, Operand.map_many, Operand.map_many, allWords_append] at h
  exact ⟨h.1, List.forall_mem_map.1 h.2⟩

theorem printable (h : AllWords (w.operands.map Prod.snd)) : Printable (depth + 3) w.toJson := by
  obtain ⟨hpartition, horder⟩ := isWord_of_operands h
  have hkeys : ∀ k ∈ w.orderBy, Printable (depth + 1) k.toJson :=
    fun k hk => SortKey.printable (horder k hk)
  simp only [toJson, printable_object, List.forall_mem_cons, printable_ofOption, printable_ofList,
    NodeId.printable_list hpartition, true_and]
  exact ⟨hkeys, fun f _ => f.printable, fun _ hm => nomatch hm⟩

theorem ofJson?_toJson (h : AllWords (w.operands.map Prod.snd)) : ofJson? w.toJson = some w := by
  obtain ⟨hpartition, horder⟩ := isWord_of_operands h
  have hkeys : list? SortKey.ofJson? (ofList SortKey.toJson w.orderBy) = some w.orderBy :=
    list?_ofList fun k hk => SortKey.ofJson?_toJson (horder k hk)
  have hframe : optional Frame.ofJson? (some (ofOption Frame.toJson w.frame)) = some w.frame :=
    optional_eq rfl fun f _ => f.ofJson?_toJson
  simp [ofJson?, toJson, fields?_object, required,
    NodeId.list?_listToJson hpartition, hkeys, hframe]

end WindowSpec

namespace MathFunc

/-- The base of a logarithm, if it has one, is read from its text. -/
def Readable (func : MathFunc) : Prop := ∀ x, func = log (some x) → x.ReadsBack

variable {func : MathFunc}

theorem printable (h : func.Readable) : Printable (depth + 2) func.toJson := by
  cases func with
  | plain func => simp [toJson]
  | log base =>
    have hbase : ∀ x ∈ base, Printable depth (.float x) := by
      rintro x hx
      exact .float (h x (congrArg log hx))
    simpa [toJson] using hbase
  | trunc decimals => simp [toJson]

theorem ofJson?_toJson (func : MathFunc) : ofJson? func.toJson = some func := by
  cases func with
  | plain func =>
    change (Keyed.ofJson? (Keyed.toJson func)).map plain = some (plain func)
    rw [ofJson?_key, Option.map_some]
  | log base =>
    have hbase : optional float? (some (ofOption .float base)) = some base :=
      optional_eq rfl fun _ _ => rfl
    simp [ofJson?, toJson, variant?, fields?_object, hbase]
  | trunc decimals => simp [ofJson?, toJson, variant?, fields?_object]

end MathFunc

end PlanSql

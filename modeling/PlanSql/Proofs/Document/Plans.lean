import PlanSql.Document.Plans
import PlanSql.Proofs.Build.Validity
import PlanSql.Proofs.Document.Nodes

/-!
# Plans are read from their texts

A valid plan whose floating point numbers are read from their texts is read from its own text. All
that may get lost is the sign of a decimal zero, which no text of a decimal keeps.
-/

namespace PlanSql

namespace Json

/-! ## Outlines -/

/-- A document has the form that an outline says, and only members that are wanted. -/
inductive Within : Outline → Json → Prop where
  | whole (j : Json) : Within .whole j
  | list {element : Outline} {items : List Json} (h : ∀ j ∈ items, Within element j) :
    Within (.list element) (.array items)
  | record {fields : List (String × Outline)} {members : List (String × Json)}
    (hnamed : ∀ m ∈ members, (fields.lookup m.1).isSome)
    (h : ∀ m ∈ members, ∀ outline, fields.lookup m.1 = some outline → Within outline m.2) :
    Within (.record fields) (.object members)

theorem within_record {fields : List (String × Outline)} {members : List (String × Json)}
    (h : ∀ m ∈ members, ∃ outline, fields.lookup m.1 = some outline ∧ Within outline m.2) :
    Within (.record fields) (.object members) := by
  refine .record ?_ ?_
  · intro m hm
    obtain ⟨outline, hlookup, _⟩ := h m hm
    rw [hlookup, Option.isSome_some]
  · intro m hm outline' hlookup'
    obtain ⟨outline, hlookup, hm⟩ := h m hm
    rwa [← Option.some.inj (hlookup.symm.trans hlookup')]

theorem within_ofList {α : Type} {element : Outline} {g : α → Json} {xs : List α}
    (h : ∀ x ∈ xs, Within element (g x)) : Within (.list element) (ofList g xs) :=
  .list (List.forall_mem_map.2 h)

section Outlines

variable {size depth level : Nat} {outline : Outline} {j : Json}

theorem Within.takes (h : Within outline j) (hprint : Printable depth j)
    (hsize : (chars level j).length ≤ size) :
    Takes (readOutline size depth outline) (chars level j) j := by
  induction h generalizing depth level with
  | whole j =>
    rw [readOutline_whole]
    exact hprint.takes hsize
  | @list element items h ih =>
    cases hprint with
    | @array depth _ hitems =>
      rw [chars_array] at hsize ⊢
      have htakes : Takes (readOutline size (depth + 1) (.list element)) _
        (.array (items.map id)) :=
        takes_bodyText _ .array (fun _ _ hskip => by simp only [readOutline, hskip]) (by decide)
          (fun k hk => (hitems k hk).opens (level + 1)) (fun k hk => ih k hk (hitems k hk))
          (.inl rfl) hsize
      rwa [List.map_id] at htakes
  | @record fields members hnamed h ih =>
    cases hprint with
    | @object depth _ hmembers =>
      rw [chars_object] at hsize ⊢
      have htakes : Takes (readOutline size (depth + 1) (.record fields))
          ('\x7b' :: bodyText (memberChars level) level '\x7d' members)
          (.object ((members.map some).filterMap id)) := by
        refine takes_bodyText (readWanted (fun name => (fields.lookup name).map
          (readOutline size depth)) size) (fun ms => .object (ms.filterMap id))
          (fun _ _ hskip => by simp only [readOutline, hskip]) (by decide)
          (fun m _ => opens_memberChars level m) (fun m hm hfits => ?_) (.inr rfl) hsize
        obtain ⟨o, ho⟩ := Option.isSome_iff_exists.1 (hnamed m hm)
        refine takes_memberChars (fun _ _ _ hname hvalue => ?_) (ih m hm o ho (hmembers m hm)
          (Nat.le_trans (length_le_memberChars level m) hfits)) hfits
        simp [readWanted, hname, ho, hvalue, skipSpace_cons (show isSpace ':' = false by decide)]
      simpa using htakes

/-- A document is read from its text by every outline that leaves nothing of it out. -/
theorem parseOutline?_pretty (h : Within outline j) (hprint : Printable depthLimit j) :
    parseOutline? outline j.pretty = some j := by
  have htakes : Takes (readOutline j.pretty.toList.length depthLimit outline) (chars 0 j) j :=
    h.takes hprint (Nat.le_refl _)
  have hread := htakes [] [] (fun _ hc => nomatch hc) (fun _ hc => nomatch hc)
  rw [List.nil_append, List.append_nil] at hread
  change readOutline _ _ _ j.pretty.toList = some (j, []) at hread
  rw [parseOutline?, hread]
  rfl

end Outlines

end Json

open Json

/-! ## Settled plans -/

theorem Kind.operands_settled (k : Kind) : k.settled.operands = k.operands := by
  unfold settled
  split <;> rfl

theorem Value.settled_eq {v : Value}
    (h : ∀ d, v = decimal d → Decimal.ofText? d.toString = some d) :
    v.settled = v := by
  cases v with
  | decimal d =>
    have hread := h d rfl
    rw [Decimal.ofText?_toString] at hread
    exact congrArg decimal (Option.some.inj hread)
  | _ => rfl

theorem Kind.settled_eq (k : Kind) (h : ∀ v ∈ k.constants, v.settled = v) : k.settled = k := by
  have hlist (vs : List Value) (hvs : ∀ v ∈ vs, v.settled = v) : vs.map Value.settled = vs :=
    (List.map_congr_left hvs).trans (List.map_id vs)
  unfold settled
  split
  · exact congrArg literal (h _ (.head _))
  · next input c =>
    obtain ⟨hbins, hlabels⟩ := List.forall_mem_append.1 h
    rw [Cut.settled, hlist c.bins hbins, hlist c.labels hlabels]
  · next func input offset fallback spec =>
    cases fallback with
    | none => rfl
    | some v => rw [Option.map_some, h v List.mem_cons_self]
  · rfl

namespace Graph

variable {g : Graph}

/-- All constants of a graph. -/
def constants (g : Graph) : List Value := g.nodes.toList.flatMap fun n => n.kind.constants

theorem node?_settled (g : Graph) (id : NodeId) :
    g.settled.node? id = (g.node? id).map Node.settled := by
  simp [node?, settled]

theorem checkNode_settled (g : Graph) (id : NodeId) (n : Node) :
    g.settled.checkNode id n.settled = g.checkNode id n := by
  obtain ⟨kind, shape⟩ := n
  have hcontents : g.checkContents ⟨kind.settled, shape⟩ = g.checkContents ⟨kind, shape⟩ := by
    unfold Kind.settled
    split <;> cases shape <;> rfl
  have hcolumn : checkColumn id ⟨kind.settled, shape⟩ = checkColumn id ⟨kind, shape⟩ := by
    unfold Kind.settled
    split <;> rfl
  have hfunctions : g.settled.checkContents ⟨kind.settled, shape⟩ =
      g.checkContents ⟨kind.settled, shape⟩ := rfl
  simp only [checkNode, Node.settled, hfunctions, hcontents, hcolumn, Kind.operands_settled]

theorem validate_settled (h : g.validate = .ok ()) : g.settled.validate = .ok () := by
  refine validate_eq_ok_iff.2 fun id n hn => ?_
  rw [node?_settled] at hn
  obtain ⟨m, hm, rfl⟩ := Option.map_eq_some_iff.1 hn
  rw [checkNode_settled]
  exact validate_eq_ok_iff.1 h id m hm

end Graph

namespace Plan

variable {p : Plan}

theorem validate_eq_ok_iff :
    p.validate = .ok () ↔ p.graph.validate = .ok () ∧ ∃ n, p.graph.node? p.root = some n := by
  simp only [validate, Except.bind_eq_ok_iff, Graph.node_eq_ok_iff]
  constructor
  · rintro ⟨_, hgraph, n, hn, _⟩
    exact ⟨hgraph, n, hn⟩
  · rintro ⟨hgraph, n, hn⟩
    exact ⟨(), hgraph, n, hn, rfl⟩

theorem validate_settled (h : p.validate = .ok ()) : p.settled.validate = .ok () := by
  obtain ⟨hgraph, n, hn⟩ := validate_eq_ok_iff.1 h
  have hroot : p.settled.graph.node? p.settled.root = some n.settled := by
    rw [settled, Graph.node?_settled, hn, Option.map_some]
  exact validate_eq_ok_iff.2 ⟨Graph.validate_settled hgraph, n.settled, hroot⟩

end Plan

/-! ## Graphs and plans -/

namespace Graph

variable {g : Graph} {depth : Nat}

/-- The ids of a graph fit in 64 bits. -/
structure InWords (g : Graph) : Prop where
  size : g.size ≤ 2 ^ 64
  function : ∀ n ∈ g.nodes.toList, ∀ f ∈ n.kind.function?, IsWord f

theorem portable (hvalid : g.validate = .ok ()) (hwords : g.InWords)
    (hfloats : ∀ x, .float x ∈ g.constants → x.ReadsBack) :
    ∀ n ∈ g.nodes.toList, n.kind.Portable := by
  intro n hn
  obtain ⟨id, hid⟩ := Array.mem_iff_getElem?.1 (Array.mem_toList_iff.1 hn)
  refine ⟨?_, hwords.function n hn, ?_⟩
  · intro child hchild
    obtain ⟨o, ho, rfl⟩ := List.mem_map.1 hchild
    have hlt := (checkNode_eq_ok_iff.1 (validate_eq_ok_iff.1 hvalid id n hid)).1 o ho
    exact Nat.lt_of_lt_of_le (Nat.lt_trans hlt (lt_size_of_node? hid)) hwords.size
  · rintro v hv x rfl
    exact hfloats x (List.mem_flatMap.2 ⟨n, hn, hv⟩)

theorem printable (h : ∀ n ∈ g.nodes.toList, n.kind.Portable) : Printable (depth + 8) g.toJson := by
  have hnodes : Printable (depth + 7) (ofList Node.toJson g.nodes.toList) :=
    printable_ofList.2 fun n hn => Node.printable (h n hn)
  have hfunctions : Printable (depth + 7) (ofList UserFunction.toJson g.functions.toList) :=
    printable_ofList.2 fun f _ => f.printable
  simp only [toJson, printable_object, List.forall_mem_cons]
  exact ⟨hnodes, hfunctions, List.forall_mem_nil _⟩

theorem ofJson?_toJson (h : ∀ n ∈ g.nodes.toList, n.kind.Portable) :
    ofJson? g.toJson = some g.settled := by
  have hnodes : list? Node.ofJson? (ofList Node.toJson g.nodes.toList) =
      some (g.nodes.toList.map Node.settled) := mapAll_map fun n hn => Node.ofJson?_toJson (h n hn)
  have hfunctions : list? UserFunction.ofJson? (ofList UserFunction.toJson g.functions.toList) =
      some g.functions.toList := list?_ofList fun f _ => f.ofJson?_toJson
  have hfields : ofFields? (some (ofList Node.toJson g.nodes.toList))
      (some (ofList UserFunction.toJson g.functions.toList)) = some g.settled := by
    simp [ofFields?, functionsOfJson?, required, hnodes, hfunctions, settled, ← Array.toList_map]
  simp [ofJson?, toJson, fields?_object, hfields]

end Graph

namespace Plan

variable {p : Plan}

/-- The document of a plan has no members that reading would pass over. -/
theorem within_outline (p : Plan) : Within outline p.toJson := by
  have hfunction (f : UserFunction) :
      Within (.record [("name", .whole), ("output", .whole)]) f.toJson :=
    within_record (by simp [List.lookup_cons, Within.whole])
  have hnodes := within_ofList fun n (_ : n ∈ p.graph.nodes.toList) => Within.whole n.toJson
  have hfunctions := within_ofList fun f (_ : f ∈ p.graph.functions.toList) => hfunction f
  have hgraph : Within (.record [("nodes", .list .whole),
      ("udfs", .list (.record [("name", .whole), ("output", .whole)]))]) p.graph.toJson :=
    within_record (by simp [List.lookup_cons, hnodes, hfunctions])
  exact within_record (by simp [List.lookup_cons, hgraph, Within.whole])

theorem decode_toText (h : ∀ n ∈ p.graph.nodes.toList, n.kind.Portable) (hroot : IsWord p.root) :
    decode p.toText = .ok p.settled := by
  have hprint : Printable depthLimit p.toJson := by
    have hgraph : Printable (118 + 8) p.graph.toJson := Graph.printable h
    rw [toJson, depthLimit, printable_object]
    simp [hgraph, printable_ofNat hroot]
  have hread : ofJson? p.toJson = some p.settled := by
    simp [ofJson?, toJson, fields?_object, required, Graph.ofJson?_toJson h, NodeId.field?,
      nat?_ofNat hroot, settled]
  rw [decode, toText, parseOutline?_pretty p.within_outline hprint, Option.bind_some, hread]

theorem settled_eq (h : ∀ d, .decimal d ∈ p.graph.constants → Decimal.ofText? d.toString = some d) :
    p.settled = p := by
  have hnode : ∀ n ∈ p.graph.nodes, n.settled = n := by
    intro n hn
    have hkind := n.kind.settled_eq fun v hv => Value.settled_eq fun d hd =>
      h d (List.mem_flatMap.2 ⟨n, Array.mem_toList_iff.2 hn, hd ▸ hv⟩)
    rw [Node.settled, hkind]
  have hnodes : p.graph.nodes.map Node.settled = p.graph.nodes :=
    (Array.map_congr_left hnode).trans (Array.map_id _)
  rw [settled, Graph.settled, hnodes]

/-- A valid plan whose floating point numbers are read from their texts is read from its own text,
with every operator, option, constant and user function as it was. If its decimals are read from
their texts too, so that none is a zero with a sign, it is the same plan. -/
theorem ofText_toText (hvalid : p.validate = .ok ()) (hwords : p.graph.InWords)
    (hfloats : ∀ x, .float x ∈ p.graph.constants → x.ReadsBack) :
    ofText p.toText = .ok p.settled ∧
      ((∀ d, .decimal d ∈ p.graph.constants → Decimal.ofText? d.toString = some d) →
        ofText p.toText = .ok p) := by
  obtain ⟨hgraph, n, hn⟩ := validate_eq_ok_iff.1 hvalid
  have hroot : IsWord p.root := Nat.lt_of_lt_of_le (Graph.lt_size_of_node? hn) hwords.size
  have hread : ofText p.toText = .ok p.settled := by
    rw [ofText, decode_toText (Graph.portable hgraph hwords hfloats) hroot]
    simp only [bind, Except.bind, validate_settled hvalid]
    rfl
  refine ⟨hread, fun hdecimals => ?_⟩
  rw [hread, settled_eq hdecimals]

/-- Rows of a table that has a quote and a line break in its name: a shifted value that is null
where there is none before it, a logarithm to base 0.1, a user function and the decimal 1.50. -/
def shiftedRows : Plan :=
  let total : Typed := .plain .float64 (some "total")
  let spec : WindowSpec := ⟨[1], [⟨1, false⟩], some (.between 2 0)⟩
  let schema : Schema := ⟨[⟨"total", .float64⟩]⟩
  { graph :=
      { nodes := #[⟨.source ⟨"shop", "the \"best\"\n", schema⟩, .collection schema⟩,
          ⟨.column 0, .sequence total⟩,
          ⟨.window (.shift .lag 1 (-1) (some .null) spec), .sequence total⟩,
          ⟨.math (.log (some (.ofRatio false 1 10))) 2, .sequence total⟩,
          ⟨.userMap 3 0, .sequence total⟩,
          ⟨.literal (.decimal ⟨false, 150, 2, by decide, by decide⟩), .scalar total⟩,
          ⟨.project 0 [4, 5], .collection schema⟩]
        functions := #[⟨"halve", .float64⟩] }
    root := 6 }

/-- The plan is read back from its text. -/
theorem ofText_toText_shiftedRows :
    shiftedRows.validate = .ok () ∧ ofText shiftedRows.toText = .ok shiftedRows := by
  have hvalid : shiftedRows.validate = .ok () := by decide +kernel
  have hwords : shiftedRows.graph.InWords := ⟨by decide, by decide⟩
  have hconstants : shiftedRows.graph.constants = [.null, .float (.ofRatio false 1 10),
      .decimal ⟨false, 150, 2, by decide, by decide⟩] := rfl
  refine ⟨hvalid, (ofText_toText hvalid hwords ?_).2 ?_⟩
  · intro x hx
    have hbase : x = .ofRatio false 1 10 := by simpa [hconstants] using hx
    rw [hbase]
    decide +kernel
  · intro d hd
    have hprice : d = ⟨false, 150, 2, by decide, by decide⟩ := by simpa [hconstants] using hd
    rw [hprice]
    decide +kernel

end Plan

end PlanSql

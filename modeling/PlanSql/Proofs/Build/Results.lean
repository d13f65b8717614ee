import PlanSql.Proofs.Build.Operands
import PlanSql.Proofs.Build.Types

/-!
# Types that cover every result

The value of a choice, of a filled value, of buckets or of a shifted value is the value of one of
its operands, or one of its constants. Its type accepts the types of all of them, but for the
default of a shifted value: that has only to have a common type with the input, whose type is kept.
-/

namespace PlanSql

/-- The operands whose values can become the value of a node. -/
def Kind.results : Kind → List NodeId
  | .element (.ifElse _ consequent alternative) => [consequent, alternative]
  | .element (.switch _ _ results fallback) => results ++ fallback.toList
  | .element (.fillNull input value) => [input, value]
  | .window (.shift _ input _ _ _) => [input]
  | _ => []

/-- The constants that can become the value of a node. -/
def Kind.fixedResults : Kind → List Value
  | .element (.cut _ cut) => cut.labels
  | .window (.shift _ _ _ default _) => default.toList
  | _ => []

namespace Graph

variable {g : Graph} {dtype t : DataType}

/-- What can become the value of a choice, of a filled value or of buckets is accepted. -/
theorem ElementFits.accepts {op : ElementOp} (h : g.ElementFits dtype op) :
    (∀ x ∈ (Kind.element op).results, ∃ t, g.dtypeOf x = .ok t ∧ dtype.accepts t = true) ∧
      ∀ v ∈ (Kind.element op).fixedResults, ∀ t ∈ v.dtype?, dtype.accepts t = true := by
  have hcommon : ∀ {ids ts}, g.dtypesOf ids = .ok ts → DataType.common ts = .ok dtype →
      ∀ x ∈ ids, ∃ t, g.dtypeOf x = .ok t ∧ dtype.accepts t = true := by
    intro ids ts hts htop x hx
    obtain ⟨t, hmem, ht⟩ := dtypeOf_of_dtypesOf hts x hx
    exact ⟨t, ht, (DataType.common_eq_ok_iff.1 htop).2 t hmem⟩
  cases op with
  | fillNull input value =>
    obtain ⟨hinput, t, hvalue, ht⟩ := h
    refine ⟨fun x hx => ?_, List.forall_mem_nil _⟩
    rcases List.mem_cons.1 hx with rfl | hx
    · exact ⟨dtype, hinput, dtype.accepts_self⟩
    · obtain rfl := List.mem_singleton.1 hx
      exact ⟨t, hvalue, ht⟩
  | ifElse condition consequent alternative =>
    obtain ⟨_, ts, hts, htop⟩ := h
    exact ⟨hcommon hts htop, List.forall_mem_nil _⟩
  | switch subject conditions results fallback =>
    obtain ⟨_, _, _, ts, hts, htop⟩ := h
    exact ⟨hcommon hts htop, List.forall_mem_nil _⟩
  | cut input cut =>
    obtain ⟨_, _, _, hlabels⟩ := h
    refine ⟨List.forall_mem_nil _, fun v hv t ht => ?_⟩
    have hmem : t ∈ cut.labels.filterMap Value.dtype? := List.mem_filterMap.2 ⟨v, hv, ht⟩
    unfold Build.labelType at hlabels
    split at hlabels
    · next hnil =>
      rw [hnil] at hmem
      cases hmem
    · next first rest hcons =>
      rw [hcons] at hmem
      exact (DataType.common_eq_ok_iff.1 hlabels).2 t hmem
  | _ => exact ⟨List.forall_mem_nil _, List.forall_mem_nil _⟩

end Graph

/-- The type of a value accepts the types of all operands and constants that can become the value,
but for the default of a shifted value, which may accept the type instead. -/
theorem built_results_accepted {g : Graph} (hb : Built g) {id : NodeId} {n : Node} {typed : Typed}
    (hn : g.node? id = some n) (ht : n.typed? = some typed) :
    (∀ x ∈ n.kind.results, ∃ t, g.dtypeOf x = .ok t ∧ typed.dtype.accepts t = true) ∧
      ∀ v ∈ n.kind.fixedResults, ∀ t ∈ v.dtype?, typed.dtype.accepts t = true ∨
        (∃ func input offset spec, n.kind = .window (.shift func input offset (some v) spec)) ∧
          t.accepts typed.dtype = true := by
  have hw := hb.fits
  have hfits := (hw.valueFits hn ht).mono (Graph.before_extends g id)
  obtain ⟨kind, shape⟩ := n
  cases kind with
  | element op =>
    obtain ⟨hresults, hconstants⟩ := Graph.ElementFits.accepts hfits
    exact ⟨hresults, fun v hv t hvt => .inl (hconstants v hv t hvt)⟩
  | window op =>
    cases op with
    | shift func input offset default spec =>
      obtain ⟨_, hinput, hdefault⟩ := hfits
      constructor
      · intro x hx
        obtain rfl := List.mem_singleton.1 hx
        exact ⟨typed.dtype, hinput, typed.dtype.accepts_self⟩
      · intro v hv t hvt
        obtain rfl : default = some v := by simpa [Kind.fixedResults] using hv
        -- The common type is that of the input or that of the default.
        obtain ⟨top, htop⟩ := hdefault t hvt
        obtain ⟨hmem, haccepts⟩ := DataType.common_eq_ok_iff.1 htop
        rcases List.mem_cons.1 hmem with rfl | hmem
        · exact .inl (haccepts t (.tail _ (.head _)))
        · obtain rfl := List.mem_singleton.1 hmem
          exact .inr ⟨⟨func, input, offset, spec, rfl⟩, haccepts _ (.head _)⟩
    | _ => exact ⟨List.forall_mem_nil _, List.forall_mem_nil _⟩
  | _ => exact ⟨List.forall_mem_nil _, List.forall_mem_nil _⟩

/-- The number of a row, or a measure where there is none. -/
def Call.numberOrMeasure : List Call :=
  [.source "" "a" [⟨"id", .int64⟩, ⟨"x", .float64⟩], .column 0 "id", .column 0 "x", .isNull 1,
    .ifElse 3 2 1]

/-- The choice of a measure and a number is a measure. -/
theorem built_results_accepted_numberOrMeasure : Built (Call.run Call.numberOrMeasure) ∧
    (Call.run Call.numberOrMeasure).node? 4 =
      some ⟨.element (.ifElse 3 2 1), .sequence (.plain .float64 (some "id"))⟩ ∧
    ∀ x ∈ [2, 1], ∃ t, (Call.run Call.numberOrMeasure).dtypeOf x = .ok t ∧
      DataType.float64.accepts t = true := by
  have hb : Built (Call.run Call.numberOrMeasure) :=
    BuiltBy.run ⟨trivial, trivial, trivial, trivial, trivial, trivial⟩
  have hn : (Call.run Call.numberOrMeasure).node? 4 =
      some ⟨.element (.ifElse 3 2 1), .sequence (.plain .float64 (some "id"))⟩ := rfl
  exact ⟨hb, hn, (built_results_accepted hb hn rfl).1⟩

/-- A shifted byte, and a wide number where there is no row. -/
def Call.shiftedByte : List Call :=
  [.source "" "a" [⟨"b", .int8⟩], .column 0 "b",
    .shift .lag 1 1 (some (.integer 1000)) ⟨[], [], none⟩]

/-- The default of a shifted byte may be wider than a byte. -/
theorem shift_default_wider : ∃ n typed, (Call.run Call.shiftedByte).node? 2 = some n ∧
    n.typed? = some typed ∧ typed.dtype = .int8 ∧ .integer 1000 ∈ n.kind.fixedResults ∧
    (Value.integer 1000).dtype? = some .int64 ∧ DataType.int8.accepts .int64 = false :=
  ⟨_, _, rfl, rfl, rfl, .head _, rfl, rfl⟩

end PlanSql

import PlanSql.Proofs.Build.Validity

/-!
# What the check of a graph looks at

What is checked of a node depends on its kind and its shape together: the schema of a stored table
where the table is shown as rows, and the function of a user map where it is shown as a value. A
graph passes exactly if all this holds of each of its nodes. Kind and shape are independent data in
a graph that is read, so a table or a user map of the other shape passes with whatever it stores.
-/

namespace PlanSql

/-- The names of fields are pairwise different and not empty. -/
def Schema.Named (s : Schema) : Prop := s.names.Nodup ∧ "" ∉ s.names

/-- What a node refers to is there and its schemas and names are in order; of a stored table and of
a function only where `stored` and `applied` ask for it. -/
structure Node.Sound (g : Graph) (id : NodeId) (n : Node) (stored applied : Prop) : Prop where
  children : ∀ child ∈ n.children, child < id
  schema : ∀ schema ∈ n.schema?, schema.Named
  table : stored → ∀ table, n.kind = .source table → table.schema.Named
  function : applied → ∀ input function, n.kind = .userMap input function →
    function < g.functions.size
  column : ∀ collection, n.kind = .column collection →
    ∃ typed name, n.typed? = some typed ∧ typed.sourceName = some name

namespace Graph

variable {g : Graph} {id : NodeId} {n : Node}

theorem function_eq_ok_iff {function : FunctionId} :
    (∃ f, g.function function = .ok f) ↔ function < g.functions.size := by
  unfold Graph.function
  split
  · next f hf => exact ⟨fun _ => (Array.getElem?_eq_some_iff.1 hf).1, fun _ => ⟨f, rfl⟩⟩
  · next hf =>
    simp only [reduceCtorEq, exists_false, false_iff, Nat.not_lt]
    exact Array.getElem?_eq_none_iff.1 hf

theorem checkContents_eq_ok_iff :
    g.checkContents n = .ok () ↔ (∀ schema ∈ n.schema?, schema.Named) ∧
      (n.isCollection = true → ∀ table, n.kind = .source table → table.schema.Named) ∧
      (n.isCollection = false → ∀ input function, n.kind = .userMap input function →
        function < g.functions.size) := by
  obtain ⟨kind, shape⟩ := n
  cases shape with
  | collection schema =>
    cases kind with
    | source table =>
      simp only [checkContents, Except.bind_eq_ok_iff, Unique.exists_iff, PUnit.default_eq_unit,
        Schema.validate_eq_ok_iff]
      simp [Node.schema?, Node.isCollection, Schema.Named, and_comm]
    | _ =>
      simp [checkContents, Schema.validate_eq_ok_iff, Node.schema?, Node.isCollection, Schema.Named]
  | sequence typed | scalar typed =>
    cases kind with
    | userMap input function =>
      simp only [checkContents, Except.bind_eq_ok_iff, ← function_eq_ok_iff]
      simp [Node.schema?, Node.isCollection, pure, Except.pure]
    | _ => simp [checkContents, Node.schema?, Node.isCollection, pure, Except.pure]

theorem checkColumn_eq_ok_iff : checkColumn id n = .ok () ↔
    ∀ collection, n.kind = .column collection →
      ∃ typed name, n.typed? = some typed ∧ typed.sourceName = some name := by
  unfold checkColumn
  split
  · next collection hk =>
    cases ht : n.typed? with
    | none => simp [throw, throwThe, MonadExceptOf.throw, hk]
    | some typed =>
      cases hs : typed.sourceName <;>
        simp [throw, throwThe, MonadExceptOf.throw, pure, Except.pure, hk, hs]
  · next hk =>
    simp only [pure, Except.pure, true_iff]
    exact fun collection h => (hk collection h).elim

/-- A graph passes the check exactly if each node is sound, where the schema of a table counts if
the table is a collection, and the function of a user map if the map is a value. -/
theorem validate_iff_sound (g : Graph) :
    g.validate = .ok () ↔ ∀ id n, g.node? id = some n →
      n.Sound g id (n.isCollection = true) (n.isCollection = false) := by
  rw [validate_eq_ok_iff]
  refine forall₃_congr fun id n _ => ?_
  rw [checkNode_eq_ok_iff, checkContents_eq_ok_iff, checkColumn_eq_ok_iff]
  constructor
  · rintro ⟨ho, ⟨hs, ht, hf⟩, hc⟩
    refine ⟨fun child hchild => ?_, hs, ht, hf, hc⟩
    obtain ⟨o, hmem, rfl⟩ := List.mem_map.1 hchild
    exact ho o hmem
  · rintro ⟨ho, hs, ht, hf, hc⟩
    exact ⟨fun o hmem => ho o.2 (List.mem_map_of_mem hmem), ⟨hs, ht, hf⟩, hc⟩

/-- A table with an unnamed field that is shown as a value, and a map of it, shown as rows, whose
function is not there. -/
def misshapen : Graph where
  nodes := #[⟨.source ⟨"", "a", ⟨[⟨"", .int64⟩]⟩⟩, .scalar (.plain .int64 none)⟩,
    ⟨.userMap 0 7, .collection ⟨[]⟩⟩]
  functions := #[]

/-- Neither the schema of the table nor the function of the map is looked at. -/
theorem validate_misshapen : misshapen.validate = .ok () ∧
    (∃ n, misshapen.node? 0 = some n ∧ ¬ n.Sound misshapen 0 True True) ∧
    ∃ n, misshapen.node? 1 = some n ∧ ¬ n.Sound misshapen 1 True True := by
  refine ⟨rfl, ⟨_, rfl, fun h => ?_⟩, _, rfl, fun h => ?_⟩
  · exact (h.table trivial _ rfl).2 (by decide)
  · exact absurd (h.function trivial _ _ rfl) (by decide)

end Graph

end PlanSql

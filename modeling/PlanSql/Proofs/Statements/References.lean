import PlanSql.Proofs.Statements.Serving

/-!
# What the columns of a statement refer to

Every column that a level names should be one of what the level selects from. If the conditions of
joins read only parts of their joins and share no volatile column, and if each level meets only
joins that are parts of what it is over, then the column has the label of a table expression of the
level, which stands for a collection that has the field. The table expression shows the field unless
a join whose columns it shows renames fields. In a well-scoped plan, in which every operator
computes its values from its inputs, each level meets only the join that it is over.
-/

namespace PlanSql

open PlanSql.Sql

namespace Compile

variable {g : Graph}

section Focus

variable {kind : Kind}

/-- A walk from the root of a level over `base` is at an operator above `base`, or at a value that
reads one. -/
inductive Above (g : Graph) (base : NodeId) : NodeId → Prop
  | collection {id : NodeId} : g.isCollection id = true → g.Base id base → Above g base id
  | value {id own : NodeId} : g.isCollection id = false → g.isCollection own = true →
    g.Base own base → g.ReadsFrom (· = own) id → Above g base id

variable {g : Graph} {root base id x : NodeId}

theorem mem_operands_of_inputs (h : Graph.inputs kind = [x]) :
    (.input, x) ∈ kind.operands := by
  cases kind with
  | project | filter | groupBy | mutate | sort | distinct | slice | summary =>
    obtain ⟨rfl, _⟩ := List.cons.inj h
    exact .head _
  | _ => cases h

theorem subquery?_of_mem_operands (h : (.subquery, x) ∈ kind.operands) :
    kind.subquery? = some x := by
  cases kind with
  | element op =>
    cases op with
    | isIn input values | notIn input values =>
      cases values with
      | literals ids =>
        simp [Kind.operands, ElementOp.operands, Membership.operands, Operand.many] at h
      | subquery y =>
        obtain rfl : x = y := by
          simpa [Kind.operands, ElementOp.operands, Membership.operands] using h
        rfl
    | _ => simp [Kind.operands, ElementOp.operands, Operand.many, Operand.perhaps] at h
  | window op =>
    cases op with
    | _ => simp [Kind.operands, WindowOp.operands, WindowSpec.operands, Operand.many] at h
  | _ => simp [Kind.operands, Operand.many, Operand.perhaps] at h

/-- Every node has something at the bottom of it. -/
theorem exists_base (hord : g.Ordered) (hid : id < g.size) : ∃ base, g.Base id base := by
  induction id using Nat.strongRecOn with
  | ind id ih =>
    obtain ⟨n, hn⟩ := Option.isSome_iff_exists.1 ((g.node?_isSome_iff id).2 hid)
    by_cases hi : ∃ x, Graph.inputs n.kind = [x]
    · obtain ⟨x, hi⟩ := hi
      have hlt := hord.operand hn (mem_operands_of_inputs hi)
      obtain ⟨base, hbase⟩ := ih x hlt (Nat.lt_trans hlt hid)
      exact ⟨base, .step hn hi hbase⟩
    · exact ⟨id, .here hn fun x hx => hi ⟨x, hx⟩⟩

theorem exists_inputs {careful : Prop} {schema : Schema} {o : Operand} (hw : g.WellFormed careful)
    (hn : g.node? x = some ⟨kind, .collection schema⟩)
    (hjoin : ∀ left right predicate how fields, kind ≠ .join left right predicate how fields)
    (hunion : ∀ left right distinct, kind ≠ .union left right distinct) (ho : o ∈ kind.operands) :
    ∃ own, Graph.inputs kind = [own] := by
  have hfits := hw x _ hn
  cases kind with
  | project input | filter input | groupBy input | mutate input | sort input | distinct input
  | slice input | summary input => exact ⟨input, rfl⟩
  | source => cases ho
  | join => exact absurd rfl (hjoin _ _ _ _ _)
  | union => exact absurd rfl (hunion _ _ _)
  | _ => exact hfits.elim

/-- Where every operator computes its values from its inputs, a walk does not leave the operators
above `base` and the values that read them. -/
theorem Above.met (hw : g.WellFormed True) (hwell : g.WellScoped root) (hroot : g.Reach root id)
    (hid : Above g base id) (h : g.Met id x) : Above g base x := by
  induction h with
  | refl => exact hid
  | @step x child n hmet hn hjoin hunion hchild hsub ih =>
    have hx := hroot.trans hmet.reach
    obtain ⟨⟨slot, _⟩, ho, rfl⟩ := List.mem_map.1 hchild
    have hslot : slot ≠ .subquery := by
      rintro rfl
      exact hsub (subquery?_of_mem_operands ho)
    cases ih with
    | collection hc hbase =>
      obtain ⟨kind, shape⟩ := n
      obtain ⟨schema, rfl⟩ : ∃ schema, shape = .collection schema := by
        cases shape with
        | collection schema => exact ⟨schema, rfl⟩
        | _ => simp [Graph.isCollection, hn, Node.isCollection] at hc
      obtain ⟨own, hi⟩ := exists_inputs hw hn hjoin hunion ho
      have hown := (hw.input hn (hi ▸ List.mem_singleton_self own)).2.1
      rcases (hw.collectionFits hn rfl).operand _ ho with ⟨hmem, _⟩ | hvalue
      · obtain rfl := List.mem_singleton.1 (hi ▸ hmem)
        exact .collection hown (hbase.input hn hi)
      · have hvalue := not_isCollection_of_isValue ((Graph.before_extends g x).isValue hvalue)
        have hreads := (hwell x _ hx hn).values rfl slot _ ho hvalue
        rw [hi] at hreads
        exact .value hvalue hown (hbase.input hn hi)
          (hreads.mono fun c hc => List.mem_singleton.1 hc)
    | value hv hown hbase hreads =>
      obtain ⟨hcollection, hvalue⟩ := hreads.node hn slot _ ho hslot
      cases hc : g.isCollection _ with
      | true =>
        obtain rfl := hcollection hc
        exact .collection hown hbase
      | false => exact .value hc hown hbase (hvalue hc)

/-- In a well-scoped plan, a level meets only the join that it is over. -/
theorem focused_of_wellScoped (hw : g.WellFormed True) (hwell : g.WellScoped root)
    (hroot : IsLevel g root root) : g.Focused root := by
  intro id collection hid hover
  have hord : g.Ordered := fun x child hchild => by
    obtain ⟨n, slot, hn, ho⟩ := Graph.mem_children_iff.1 hchild
    exact (hw.child hn ho).before
  -- Every root of a level is reached, and is a collection or a value that reads one.
  obtain ⟨hreach, hlevel⟩ : g.Reach root id ∧ IsLevel g root id := by
    rcases hid with rfl | ⟨hreach, hc⟩ | ⟨x, n, hx, hn, hq⟩
    · exact ⟨.refl, hroot⟩
    · exact ⟨hreach, .inl hc⟩
    · exact (@isLevel_of_subquery ((Compiler.new .default).env g) root hw x id n hx hn hq).2
  have hbase : ∀ c, g.isCollection c = true → ∃ base, g.Base c base := by
    intro c hc
    obtain ⟨schema, hschema⟩ := Graph.isCollection_iff.1 hc
    obtain ⟨n, hn, _⟩ := Graph.schemaOf_eq_ok_iff.1 hschema
    exact exists_base hord (Graph.lt_size_of_node? hn)
  obtain ⟨base, hbase, habove⟩ : ∃ base, g.Base collection base ∧ Above g base id := by
    unfold Graph.LevelOver at hover
    rcases hlevel with hc | ⟨hvalue, own, howner, hreads⟩
    · rw [if_pos hc] at hover
      obtain ⟨base, hbase⟩ := hbase id hc
      rw [hover]
      exact ⟨base, hbase, .collection hc hbase⟩
    · have hc := not_isCollection_of_isValue hvalue
      rw [if_neg (by simp [hc])] at hover
      obtain rfl := Except.ok.inj (howner.symm.trans hover)
      have hown := (Graph.owningCollection_reach howner).2
      obtain ⟨base, hbase⟩ := hbase own hown
      exact ⟨base, hbase, .value hc hown hbase (hreads hwell)⟩
  refine ⟨base, hbase, fun k hk hmet => ?_⟩
  obtain ⟨left, right, predicate, how, fields, shape, hn⟩ := hk
  cases habove.met hw hwell hreach hmet with
  | collection _ hbase =>
    rw [hbase.eq hn (by simp [Graph.inputs])]
    exact .refl
  | value hc =>
    obtain ⟨schema, rfl⟩ : ∃ schema, shape = .collection schema := hw.shape hn
    exact elim_of_collection hn hc

end Focus

/-- Whether no side of a join is read as a derived table. -/
def Graph.plainSides (g : Graph) (n : Node) : Bool :=
  match n.kind with
  | .join left right _ _ _ =>
    [left, right].all fun side => (g.node? side).all fun m => !m.kind.isWrapped
  | _ => true

/-- Where no side of a join is read as a derived table, every collection has one place. -/
theorem steady_of_plainSides (h : g.nodes.all (Graph.plainSides g) = true) (root id : NodeId) :
    g.Steady root id := by
  intro x _ p p' hp hp'
  have hside : ∀ k side, ¬ g.PlaceOf root (.side k side) x := by
    rintro k side ⟨_, ⟨left, right, predicate, how, fields, shape, hn, hx⟩, kind, schema, hn', hk⟩
    obtain ⟨hlt, hnode⟩ := Array.getElem?_eq_some_iff.1 hn
    have hplain := Array.all_eq_true.1 h k hlt
    rw [hnode] at hplain
    have hmem : x ∈ [left, right] := by cases side <;> simp [hx]
    have hx := List.all_eq_true.1 hplain x hmem
    rw [hn'] at hx
    simp [hk] at hx
  cases p with
  | side k side => exact absurd hp (hside k side)
  | table y =>
    obtain ⟨rfl, stored, schema, hn⟩ := hp
    cases p' with
    | side k side => exact absurd hp' (hside k side)
    | table z => rw [hp'.1]
    | union z =>
      obtain ⟨_, left, right, distinct, schema', hn'⟩ := hp'
      cases hn.symm.trans hn'
  | union y =>
    obtain ⟨rfl, left, right, distinct, schema, hn⟩ := hp
    cases p' with
    | side k side => exact absurd hp' (hside k side)
    | union z => rw [hp'.1]
    | table z =>
      obtain ⟨_, stored, schema', hn'⟩ := hp'
      cases hn.symm.trans hn'

theorem conditionsApart_of_plainSides (h : g.nodes.all (Graph.plainSides g) = true)
    (root : NodeId) : g.ConditionsApart root := by
  rintro id k k' predicate predicate' ⟨collection, _, _, _, _, _, hno, _⟩
  exact absurd (steady_of_plainSides h root collection) hno

/-- If the conditions of joins read only parts of their joins and share no volatile column, and if
each level meets only joins that are parts of what it is over, then every column that a level of the
statement names has the label of something that the level selects from and is one of its columns,
unless that shows the columns of a join that renames fields. -/
theorem compile_references {g : Graph} (hb : Built g) (hv : g.validate = .ok ()) {root : NodeId}
    (hscoped : g.ConditionsScoped root) (hapart : g.ConditionsApart root)
    (hfocused : g.Focused root) {c c' : Compiler} {s : Statement}
    (h : c.compile g root = (.ok s, c')) :
    ∀ q ∈ s.levels, ∀ r ∈ q.references, ∃ x names, g.Reach root x ∧ g.Exports x names ∧
      (r.1, names.map some) ∈ q.source.items (Statement.columnsOf s.levels) ∧
      (r.2 ∈ names ∨ ∃ j, g.Exposes x j ∧ g.Renames j) := by
  have hw := hb.fits
  obtain ⟨t, hrun, hlevels⟩ := runs_of_compile hw h
  have hord : (c.env g).graph.Ordered := hw.validate_iff_children_lt.1 hv
  have hstart : Whole g root (.start c.functions) :=
    ⟨.start g c.functions, State.placed_start g root c.functions, .start g c.functions,
      .start g root c.functions⟩
  have hoffered := hrun.offers hw hord hscoped hapart hfocused (.inl rfl) hstart
  intro q hq r hr
  rw [← hlevels] at hq ⊢
  obtain ⟨e, he, hr⟩ := List.mem_flatMap.1 hr
  obtain ⟨x, schema, hbears, hschema, hmem⟩ := hoffered.level q hq e he r hr
  obtain ⟨hreach, names, hexports, hitem⟩ := hbears.mem_items
  refine ⟨x, names, hreach, hexports, hitem, ?_⟩
  by_cases hrenames : ∃ j, g.Exposes x j ∧ g.Renames j
  · exact .inr hrenames
  · left
    rw [(hexports.eq_iff hw hschema).2 fun j hj hj' => hrenames ⟨j, hj, hj'⟩]
    exact hmem

/-- The first rows of three joined tables, of which those are shown that a subquery has. -/
def joinedTables : List Call :=
  [.source "" "a" [⟨"id", .int64⟩, ⟨"x", .int64⟩], .source "" "b" [⟨"key", .int64⟩, ⟨"y", .int64⟩],
    .source "" "c" [⟨"ref", .int64⟩, ⟨"z", .int64⟩], .column 0 "id", .column 1 "key",
    .binary .eq 3 4, .join 0 1 (some 5) .inner, .column 6 "x", .column 2 "ref", .binary .eq 7 8,
    .join 6 2 (some 9) .inner, .slice 10 none (some 5) none, .column 11 "y", .column 2 "z",
    .inSequence 12 13 false, .filter 11 14, .column 15 "x", .project 15 [16]]

-- Found here, equality of what a level names and selects from takes a short search.
instance decidableEqItems : DecidableEq (List (Alias × List (Option String))) := inferInstance

/-- What the levels of a statement name, and what they select from. -/
def namedColumns (s : Statement) :
    List (List (Alias × String) × List (Alias × List (Option String))) :=
  s.levels.toList.map fun q => (q.references, q.source.items (Statement.columnsOf s.levels))

/-- A level over joined tables, one over a derived table and a subquery name their own columns. -/
theorem compile_references_joinedTables :
    Built (Call.run joinedTables) ∧ (Call.run joinedTables).validate = .ok () ∧
    (Call.run joinedTables).ConditionsScoped 17 ∧ (Call.run joinedTables).ConditionsApart 17 ∧
    (Call.run joinedTables).Focused 17 ∧
    ∃ s c', (Compiler.new .default).compile (Call.run joinedTables) 17 = (.ok s, c') ∧
      ∀ q ∈ s.levels, ∀ r ∈ q.references, ∃ x names, (Call.run joinedTables).Reach 17 x ∧
        (Call.run joinedTables).Exports x names ∧
        (r.1, names.map some) ∈ q.source.items (Statement.columnsOf s.levels) ∧
        (r.2 ∈ names ∨ ∃ j, (Call.run joinedTables).Exposes x j ∧
          (Call.run joinedTables).Renames j) := by
  have hallowed : Call.AllowedFrom (fun g c => c.NamesCollection g) .empty joinedTables := by
    simp [joinedTables, Call.AllowedFrom, Call.NamesCollection]
  have hb := BuiltBy.run hallowed
  have hw : (Call.run joinedTables).WellFormed True := hb.wellFormed fun _ _ _ hc => hc
  have hv : (Call.run joinedTables).validate = .ok () := by decide +kernel
  have hwell : (Call.run joinedTables).WellScoped 17 :=
    Graph.wellScoped_of_scoped (by decide +kernel) 17
  have hscoped := hwell.conditionsScoped hw
  have hapart : (Call.run joinedTables).ConditionsApart 17 :=
    conditionsApart_of_plainSides (by decide +kernel) 17
  have hfocused := focused_of_wellScoped hw hwell (.inl (by decide +kernel))
  have hnamed : ((Compiler.new .default).compile (Call.run joinedTables) 17).1.toOption.map
      (·.levels.toList.map (·.references)) = some [[(3, "z")],
        [(1, "id"), (2, "key"), (1, "x"), (3, "ref")], [(4, "x"), (4, "y")]] := by decide +kernel
  obtain ⟨s, c', hs, _⟩ := exists_of_compile hnamed
  exact ⟨hb.built, hv, hscoped, hapart, hfocused, s, c', hs,
    compile_references hb.built hv hscoped hapart hfocused hs⟩

/-- A field that a join of two tables renames, read from the first joined rows. -/
def renamedKey : List Call :=
  [.source "" "a" [⟨"id", .int64⟩], .source "" "b" [⟨"id", .int64⟩], .join 0 1 none .inner,
    .slice 2 none (some 5) none, .column 3 "id_x", .isNull 4, .filter 3 5]

/-- A column of two joined tables, shown for the rows of a third one. -/
def otherJoin : List Call :=
  [.source "" "a" [⟨"id", .int64⟩], .source "" "b" [⟨"x", .int64⟩], .source "" "c" [⟨"y", .int64⟩],
    .join 1 2 none .inner, .column 3 "x", .project 0 [4]]

/-- A column of the first rows of a table, read by the conditions of two joins with them, of which
the second is read again. -/
def sharedColumn : List Call :=
  [.source "" "a" [⟨"id", .int64⟩], .slice 0 none (some 5) none, .source "" "b" [⟨"x", .int64⟩],
    .source "" "c" [⟨"y", .int64⟩], .column 1 "id", .column 2 "x", .binary .eq 4 5,
    .join 1 2 (some 6) .inner, .column 3 "y", .binary .eq 4 8, .join 1 3 (some 9) .inner,
    .join 7 10 none .inner, .slice 10 none (some 3) none, .join 11 12 none .inner]

/-- A renamed field is named as a column of a derived table that does not have it. A column of other
joined tables has a label that the level does not introduce, and so has a column that two conditions
share when one of the joins is read again on another level. -/
theorem references_outside_source :
    (∃ s c', (Compiler.new .default).compile (Call.run renamedKey) 6 = (.ok s, c') ∧
      namedColumns s = [([], [(1, [some "id"]), (2, [some "id"])]),
        ([(3, "id_x")], [(3, [some "id", some "id"])])]) ∧
    (∃ s c', (Compiler.new .default).compile (Call.run otherJoin) 5 = (.ok s, c') ∧
      namedColumns s = [([(1, "x")], [(3, [some "id"])])]) ∧
    ∃ s c', (Compiler.new .default).compile (Call.run sharedColumn) 13 = (.ok s, c') ∧
      (s.levels[2]?.map fun q => (q.references, q.source.items (Statement.columnsOf s.levels))) =
        some ([(2, "id"), (5, "y")], [(4, [some "id"]), (5, [some "y"])]) :=
  ⟨exists_of_compile (by decide +kernel), exists_of_compile (by decide +kernel),
    exists_of_compile (by decide +kernel)⟩

/-- The first rows of a table are joined with two tables, and both joins are joined. Both conditions
read one node for the key of the rows. -/
def sharedRows : List Call := sharedColumn.take 12

/-- The same, where the second condition has a node of its own for the key. -/
def ownRows : List Call :=
  sharedRows.take 9 ++
    [.column 1 "id", .binary .eq 9 8, .join 1 3 (some 10) .inner, .join 7 11 none .inner]

/-- A volatile column that the conditions of two joins share is named by its label in the first
join; with a node of its own, the second condition names it by its label in the second join. -/
theorem shared_column_ne :
    (Call.run ownRows).node? 9 = (Call.run ownRows).node? 4 ∧
    (∃ s c', (Compiler.new .default).compile (Call.run sharedRows) 11 = (.ok s, c') ∧
      s.levels.toList.map (·.references) =
        [[], [], [(2, "id"), (3, "x"), (2, "id"), (5, "y")]]) ∧
    ∃ s c', (Compiler.new .default).compile (Call.run ownRows) 12 = (.ok s, c') ∧
      s.levels.toList.map (·.references) = [[], [], [(2, "id"), (3, "x"), (4, "id"), (5, "y")]] :=
  ⟨by decide +kernel, exists_of_compile (by decide +kernel), exists_of_compile (by decide +kernel)⟩

end Compile

end PlanSql

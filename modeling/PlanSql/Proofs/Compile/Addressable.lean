import PlanSql.Proofs.Compile.FieldTypes

/-!
# The test for a wrapped level

Before an operator reads the columns of its input, the level is wrapped unless the input is covered
by what is visible. The test and the search for the name of a column go down the same joins,
filters, slices and sorts, so that the test holds if and only if every field has a name, unless a
schema has no fields that could tell. Wrapping leaves a level on which the test holds.
-/

namespace PlanSql

/-- A collection is a side of a join that fields of `c` may be taken from. -/
def Graph.SideBelow (g : Graph) (c x : NodeId) : Prop :=
  ∃ join left right predicate how table shape, g.NamedBy c join ∧
    g.node? join = some ⟨.join left right predicate how table, shape⟩ ∧ (x = left ∨ x = right)

/-- The sides of joins that fields of `c` may be taken from have fields. -/
def Graph.SidesFilled (g : Graph) (c : NodeId) : Prop :=
  ∀ x schema, g.SideBelow c x → g.schemaOf x = .ok schema → schema.fields ≠ []

theorem Graph.SidesFilled.of_namedBy {g : Graph} {c x : NodeId} (h : g.SidesFilled c)
    (hx : ∀ y, g.NamedBy x y → g.NamedBy c y) : g.SidesFilled x := by
  rintro y schema ⟨join, left, right, predicate, how, table, shape, hnamed, hn, hside⟩
  exact h y schema ⟨join, left, right, predicate, how, table, shape, hx join hnamed, hn, hside⟩

namespace Compile

open PlanSql.Sql

variable {g : Graph} {visible : Visible} {id : NodeId} {depth : Nat}

theorem Covered.addressable (hw : g.WellFormed True) (h : Covered g visible id) (hd : id < depth) :
    addressable g visible depth id = .ok true := by
  induction h generalizing depth with
  | @seen id hseen =>
    obtain ⟨depth, rfl⟩ := Nat.exists_eq_add_one_of_ne_zero (Nat.ne_zero_of_lt hd)
    rw [Compile.addressable, if_pos hseen]
    rfl
  | @join id left right predicate how fields shape hn _ _ ihl ihr =>
    obtain ⟨depth, rfl⟩ := Nat.exists_eq_add_one_of_ne_zero (Nat.ne_zero_of_lt hd)
    have hleft := (hw.child hn (o := (.left, left)) (.head _)).before
    have hright := (hw.child hn (o := (.right, right)) (by simp [Kind.operands])).before
    rw [Compile.addressable]
    split
    · rfl
    · rw [Graph.node_eq_ok_iff.2 hn]
      dsimp only [bind, Except.bind]
      rw [ihl (Nat.lt_of_lt_of_le hleft (Nat.lt_succ_iff.1 hd))]
      exact ihr (Nat.lt_of_lt_of_le hright (Nat.lt_succ_iff.1 hd))
  | @through id input n hn hp _ ih =>
    obtain ⟨depth, rfl⟩ := Nat.exists_eq_add_one_of_ne_zero (Nat.ne_zero_of_lt hd)
    have hlt := (hw.passThrough hn hp).1
    rw [Compile.addressable]
    split
    · rfl
    · rw [Graph.node_eq_ok_iff.2 hn]
      dsimp only [bind, Except.bind]
      split
      · next hk => simp [hk, Kind.passThrough?] at hp
      · rw [hp]
        exact ih (Nat.lt_of_lt_of_le hlt (Nat.lt_succ_iff.1 hd))

/-- A collection of which all fields have names is covered, if it and the sides of joins below it
have fields. -/
theorem covered_of_columnRef (hw : g.WellFormed True) {schema : Schema}
    (hs : g.schemaOf id = .ok schema) (hfilled : schema.fields ≠ []) (hsides : g.SidesFilled id)
    (href : ∀ f ∈ schema.fields, ∃ r, columnRef g visible depth id f.name = .ok r) :
    Covered g visible id := by
  induction depth generalizing id schema with
  | zero =>
    obtain ⟨f, hf⟩ := List.exists_mem_of_ne_nil _ hfilled
    obtain ⟨r, hr⟩ := href f hf
    cases hr
  | succ depth ih =>
    by_cases hseen : (visible.lookup id).isSome
    · exact .seen hseen
    · obtain ⟨⟨kind, shape⟩, hn, -⟩ := Graph.schemaOf_eq_ok_iff.1 hs
      have hnone := Option.not_isSome_iff_eq_none.1 hseen
      simp only [columnRef, hnone, Graph.node_eq_ok_iff.2 hn, bind, Except.bind] at href
      split at href
      · next left right predicate how table =>
        obtain ⟨own, ls, rs, hown, hl, hr, -, e, htaken⟩ := hw.splits hn
        cases hs.symm.trans hown
        -- The match of a field of a side leads to that field.
        have hfield : ∀ x : ls.Entry ⊕ rs.Entry, ∃ entry : JoinField, entry.Takes x ∧ ∃ r,
            (entry.side = .left → columnRef g visible depth left entry.source = .ok r) ∧
              (entry.side = .right → columnRef g visible depth right entry.source = .ok r) := by
          intro x
          obtain ⟨entry, hfind, -, htakes⟩ := htaken (e.symm x)
          obtain ⟨r, hr⟩ := href _ (e.symm x).2
          rw [hfind] at hr
          refine ⟨entry, by simpa using htakes, r, fun hside => ?_, fun hside => ?_⟩
          all_goals simpa [hside] using hr
        refine .join hn (ih hl ?_ ?_ fun f hf => ?_) (ih hr ?_ ?_ fun f hf => ?_)
        · exact hsides left ls ⟨id, _, _, _, _, _, _, .refl, hn, .inl rfl⟩ hl
        · exact hsides.of_namedBy fun y hy => .left hn hy
        · obtain ⟨entry, ⟨hside, hsource, -⟩, r, href, -⟩ := hfield (.inl ⟨f, hf⟩)
          exact ⟨r, hsource ▸ href hside⟩
        · exact hsides right rs ⟨id, _, _, _, _, _, _, .refl, hn, .inr rfl⟩ hr
        · exact hsides.of_namedBy fun y hy => .right hn hy
        · obtain ⟨entry, ⟨hside, hsource, -⟩, r, -, href⟩ := hfield (.inr ⟨f, hf⟩)
          exact ⟨r, hsource ▸ href hside⟩
      · split at href
        · next input hp =>
          exact .through hn hp (ih ((hw.passThrough hn hp).2 schema hs) hfilled
            (hsides.of_namedBy fun y hy => .through hn hp hy) href)
        · obtain ⟨f, hf⟩ := List.exists_mem_of_ne_nil _ hfilled
          obtain ⟨r, hr⟩ := href f hf
          cases hr

/-- If a level may be wrapped for an operator that reads the columns of its input, the input is
covered afterwards. -/
theorem Prepared.addressable {env : Env} (hw : env.graph.WellFormed True) {input : NodeId}
    {clause : Clause} {s s' : State} (h : Prepared env input clause true s s') :
    Compile.addressable env.graph s'.visible env.depth input = .ok true := by
  cases h with
  | same _ hread => exact hread rfl
  | @wrapped q label aliases lifted _ _ hlift _ =>
    have hinput : input < env.graph.size := by
      obtain ⟨n, hn, -⟩ := bind_ok hlift
      exact Graph.lt_size_of_node? (Graph.node_eq_ok_iff.1 hn)
    have hdepth : input < env.depth := Nat.lt_succ_of_lt hinput
    obtain ⟨found, hfound, hcovered⟩ := lift_ok hw hinput hdepth
    cases hfound.symm.trans hlift
    exact (hcovered label).addressable hw hdepth

/-- The test whether the columns of a collection can be named agrees with the search for their
names: if it holds, every field has a name, and if every field has a name, it holds, provided that
the collection and the sides of joins below it have fields. It holds of the input of an operator
that reads columns once the level has been prepared for the operator, whether or not it was
wrapped. -/
theorem addressable_agrees {env : Env} (hg : BuiltBy (fun g c => c.NamesCollection g) env.graph) :
    (∀ (visible : Visible) (c : NodeId) (schema : Schema), env.graph.schemaOf c = .ok schema →
      (addressable env.graph visible env.depth c = .ok true →
        ∀ f ∈ schema.fields, ∃ r, columnRef env.graph visible env.depth c f.name = .ok r) ∧
      (schema.fields ≠ [] → env.graph.SidesFilled c →
        (∀ f ∈ schema.fields, ∃ r, columnRef env.graph visible env.depth c f.name = .ok r) →
        addressable env.graph visible env.depth c = .ok true)) ∧
    ∀ (input : NodeId) (clause : Clause) (s s' : State),
      prepare env input clause true s = .ok () s' →
      addressable env.graph s'.visible env.depth input = .ok true := by
  have hw : env.graph.WellFormed True := hg.wellFormed fun _ _ _ h => h
  refine ⟨fun visible c schema hs => ⟨fun htest f hf => ?_, fun hfilled hsides href => ?_⟩,
    fun input clause s s' hrun => ?_⟩
  · obtain ⟨n, hn, -⟩ := Graph.schemaOf_eq_ok_iff.1 hs
    have hc : c < env.graph.size := Graph.lt_size_of_node? hn
    have hdepth : c < env.depth := Nat.lt_succ_of_lt hc
    obtain ⟨b, hb, hcovered⟩ : ∃ b, addressable env.graph visible env.depth c = .ok b ∧
        (b = true → Covered env.graph visible c) := addressable_ok hw hc hdepth
    have htrue : b = true := Except.ok.inj (hb.symm.trans htest)
    exact (hcovered htrue).columnRef_ok hw hs (Schema.find?_isSome_of_mem hf) hdepth
  · obtain ⟨n, hn, -⟩ := Graph.schemaOf_eq_ok_iff.1 hs
    have hdepth : c < env.depth := Nat.lt_succ_of_lt (Graph.lt_size_of_node? hn)
    exact (covered_of_columnRef hw hs hfilled hsides href).addressable hw hdepth
  · exact (prepare_running.of_ok hrun : Prepared env input clause true s s').addressable hw

/-- The compilation of joined tables with shared field names. -/
def sharedNamesEnv : Env := ⟨Call.run sharedNames, "", 10⟩

/-- A level that selects from a table and can name nothing. -/
def unnamedLevel : State :=
  { State.start .empty with
    clauses := { (.empty : Clauses Expr Source) with source := some (.table ⟨"", "c", ⟨[]⟩⟩ 4) } }

/-- The fields of joined tables can be named, and so can those of a wrapped join. -/
theorem addressable_sharedNames :
    BuiltBy (fun g c => c.NamesCollection g) sharedNamesEnv.graph ∧
    ((∀ f ∈ [⟨"id_x", .int64⟩, ⟨"at", .datetime⟩, ⟨"id_y_x", .string⟩, ⟨"id_y_y", .boolean⟩],
      ∃ r, columnRef sharedNamesEnv.graph [(0, 1), (1, 2), (4, 4)] 7 5 (Field.name f) = .ok r) ↔
      addressable sharedNamesEnv.graph [(0, 1), (1, 2), (4, 4)] 7 5 = .ok true) ∧
    ∃ s, prepare sharedNamesEnv 3 .filter true unnamedLevel = .ok () s ∧
      addressable sharedNamesEnv.graph s.visible 7 3 = .ok true := by
  have hallowed : Call.AllowedFrom (fun g c => c.NamesCollection g) .empty sharedNames := by
    simp [sharedNames, Call.AllowedFrom, Call.NamesCollection]
  have hbuilt : BuiltBy (fun g c => c.NamesCollection g) sharedNamesEnv.graph := .run hallowed
  have hs : sharedNamesEnv.graph.schemaOf 5 = .ok ⟨[⟨"id_x", .int64⟩, ⟨"at", .datetime⟩,
      ⟨"id_y_x", .string⟩, ⟨"id_y_y", .boolean⟩]⟩ := by decide +kernel
  have hschemas : ∀ x < 6, ∀ s ∈ (sharedNamesEnv.graph.schemaOf x).toOption, s.fields ≠ [] := by
    decide +kernel
  have hsides : sharedNamesEnv.graph.SidesFilled 5 := by
    intro x schema _ hx
    obtain ⟨n, hn, -⟩ := Graph.schemaOf_eq_ok_iff.1 hx
    exact hschemas x (Graph.lt_size_of_node? hn) schema (by simp [hx, Except.toOption])
  obtain ⟨htest, hprepare⟩ := addressable_agrees hbuilt
  obtain ⟨hnames, hcovers⟩ := htest [(0, 1), (1, 2), (4, 4)] 5 _ hs
  refine ⟨hbuilt, ⟨hcovers (by simp) hsides, hnames⟩, ?_⟩
  have hends : ((prepare sharedNamesEnv 3 .filter true).run' unnamedLevel).isSome = true := by
    decide +kernel
  unfold EStateM.run' at hends
  split at hends
  · next u s hrun => exact ⟨s, hrun, hprepare 3 .filter unnamedLevel s hrun⟩
  · cases hends

end Compile

end PlanSql

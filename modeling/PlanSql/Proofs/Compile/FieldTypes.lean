import Mathlib.Logic.Equiv.Basic
import PlanSql.Proofs.Statements.Foreign

/-!
# Types of resolved fields

A field of a collection that is not visible itself is looked up below it: filters, slices and sorts
have the fields of their input, and a join keeps a table that says which field of which side each of
its fields is. That table is a bijection between the fields of the join and those of its two sides
which keeps types (`joinFields_splits`), so whatever a field resolves to has its type
(`columnRef_typed`). What every form of expression keeps so holds of columns as well.
-/

namespace PlanSql

abbrev Schema.Entry (s : Schema) : Type := { f : Field // f ∈ s.fields }

def JoinField.Takes (entry : JoinField) {ls rs : Schema} : ls.Entry ⊕ rs.Entry → Prop
  | .inl f => entry.side = .left ∧ entry.source = f.1.name ∧ entry.dtype = f.1.dtype
  | .inr f => entry.side = .right ∧ entry.source = f.1.name ∧ entry.dtype = f.1.dtype

/-- The table of a join matches the fields of the join with those of its two sides, one to one, and
a field with one of the same type. Looked up by the name of a field, it gives its match. -/
structure Schema.Splits (schema ls rs : Schema) (table : List JoinField) : Prop where
  listed : ∀ entry ∈ table, (⟨entry.name, entry.dtype⟩ : Field) ∈ schema.fields
  matched : ∃ e : schema.Entry ≃ ls.Entry ⊕ rs.Entry, ∀ f, ∃ entry,
    table.find? (·.name == f.1.name) = some entry ∧ entry.dtype = f.1.dtype ∧ entry.Takes (e f)

section Tables

variable {s : Schema}

theorem find?_of_mem_nodup {α : Type} {key : α → String} {l : List α} {a : α}
    (hnodup : (l.map key).Nodup) (ha : a ∈ l) : l.find? (key · == key a) = some a := by
  induction l with
  | nil => cases ha
  | cons b rest ih =>
    obtain ⟨hnew, hrest⟩ := List.nodup_cons.1 hnodup
    rcases List.mem_cons.1 ha with rfl | ha
    · simp
    · have hne : key b ≠ key a := fun h => hnew (h ▸ List.mem_map_of_mem ha)
      rw [List.find?_cons_of_neg (by simpa using hne)]
      exact ih hrest ha

theorem Schema.nodup_of_validate (h : s.validate = .ok ()) : s.names.Nodup :=
  ((validate_eq_ok_iff s).1 h).1

theorem Schema.find?_of_mem (h : s.validate = .ok ()) {f : Field} (hf : f ∈ s.fields) :
    s.find? f.name = some f :=
  find?_of_mem_nodup (nodup_of_validate h) hf

theorem Schema.eq_of_name_eq (h : s.validate = .ok ()) {f f' : Field} (hf : f ∈ s.fields)
    (hf' : f' ∈ s.fields) (hname : f.name = f'.name) : f = f' := by
  have hfound := find?_of_mem h hf
  rw [hname, find?_of_mem h hf'] at hfound
  exact (Option.some.inj hfound).symm

namespace Build

variable {ls rs : Schema} {entry : JoinField}

def joinTable (ls rs : Schema) : List JoinField :=
  joinFields .left "_x" ls rs ++ joinFields .right "_y" rs ls

theorem exists_takes (h : entry ∈ joinTable ls rs) :
    ∃ x : ls.Entry ⊕ rs.Entry, entry.Takes x := by
  rcases List.mem_append.1 h with h | h
  · obtain ⟨f, hf, rfl⟩ := List.mem_map.1 h
    exact ⟨.inl ⟨f, hf⟩, rfl, rfl, rfl⟩
  · obtain ⟨f, hf, rfl⟩ := List.mem_map.1 h
    exact ⟨.inr ⟨f, hf⟩, rfl, rfl, rfl⟩

def entryOf : ls.Entry ⊕ rs.Entry → JoinField
  | .inl f => ⟨if (rs.find? f.1.name).isSome then f.1.name ++ "_x" else f.1.name, f.1.dtype, .left,
    f.1.name⟩
  | .inr f => ⟨if (ls.find? f.1.name).isSome then f.1.name ++ "_y" else f.1.name, f.1.dtype, .right,
    f.1.name⟩

theorem entryOf_takes (x : ls.Entry ⊕ rs.Entry) : (entryOf x).Takes x := by
  cases x <;> exact ⟨rfl, rfl, rfl⟩

theorem entryOf_mem (x : ls.Entry ⊕ rs.Entry) : entryOf x ∈ joinTable ls rs := by
  cases x with
  | inl f => exact List.mem_append_left _ (List.mem_map_of_mem f.2)
  | inr f => exact List.mem_append_right _ (List.mem_map_of_mem f.2)

theorem eq_entryOf (h : entry ∈ joinTable ls rs) {x : ls.Entry ⊕ rs.Entry} (hx : entry.Takes x) :
    entry = entryOf x := by
  rcases List.mem_append.1 h with h | h
  · obtain ⟨f, hf, rfl⟩ := List.mem_map.1 h
    cases x with
    | inl f' => simp only [entryOf, ← hx.2.1, ← hx.2.2]
    | inr f' => exact nomatch hx.1
  · obtain ⟨f, hf, rfl⟩ := List.mem_map.1 h
    cases x with
    | inl f' => exact nomatch hx.1
    | inr f' => simp only [entryOf, ← hx.2.1, ← hx.2.2]

theorem takes_unique (hl : ls.validate = .ok ()) (hr : rs.validate = .ok ())
    {x y : ls.Entry ⊕ rs.Entry} (hx : entry.Takes x) (hy : entry.Takes y) : x = y := by
  cases x with
  | inl f =>
    cases y with
    | inl f' =>
      have hname : f.1.name = f'.1.name := hx.2.1.symm.trans hy.2.1
      exact congrArg Sum.inl (Subtype.ext (Schema.eq_of_name_eq hl f.2 f'.2 hname))
    | inr f' => exact nomatch hx.1.symm.trans hy.1
  | inr f =>
    cases y with
    | inl f' => exact nomatch hx.1.symm.trans hy.1
    | inr f' =>
      have hname : f.1.name = f'.1.name := hx.2.1.symm.trans hy.2.1
      exact congrArg Sum.inr (Subtype.ext (Schema.eq_of_name_eq hr f.2 f'.2 hname))

/-- The table of a join whose names are valid is a bijection between the fields of the join and
those of its sides, and keeps their types. -/
theorem joinFields_splits {schema : Schema} (hl : ls.validate = .ok ()) (hr : rs.validate = .ok ())
    (h : Schema.ofFields ((joinTable ls rs).map fun f => ⟨f.name, f.dtype⟩) = .ok schema) :
    schema.Splits ls rs (joinTable ls rs) := by
  have hfields := Schema.fields_of_ofFields h
  have hlisted : ∀ entry ∈ joinTable ls rs, (⟨entry.name, entry.dtype⟩ : Field) ∈ schema.fields :=
    fun entry he => hfields ▸ List.mem_map.2 ⟨entry, he, rfl⟩
  have hnodup : ((joinTable ls rs).map JoinField.name).Nodup := by
    have hnames := Schema.nodup_of_validate (Graph.valid_of_ofFields h)
    rw [Schema.names, hfields, List.map_map] at hnames
    exact hnames
  have hfound : ∀ f : schema.Entry, ∃ entry ∈ joinTable ls rs, ∃ x : ls.Entry ⊕ rs.Entry,
      (joinTable ls rs).find? (·.name == f.1.name) = some entry ∧ entry.dtype = f.1.dtype ∧
        entry.Takes x := by
    rintro ⟨f, hf⟩
    rw [hfields] at hf
    obtain ⟨entry, he, rfl⟩ := List.mem_map.1 hf
    obtain ⟨x, hx⟩ := exists_takes he
    exact ⟨entry, he, x, find?_of_mem_nodup hnodup he, rfl, hx⟩
  choose entry hmem partner hfind hdtype htakes using hfound
  refine ⟨hlisted, Equiv.ofBijective partner ⟨fun f f' hff => ?_, fun x => ?_⟩, fun f =>
    ⟨entry f, hfind f, hdtype f, htakes f⟩⟩
  · -- fields that are matched with the same field have the same entry, so they have the same name
    have hsame : entry f = entry f' := by
      rw [eq_entryOf (hmem f) (htakes f), eq_entryOf (hmem f') (htakes f'), hff]
    have hnames : ∀ f, (entry f).name = f.1.name := fun f => by
      simpa using List.find?_some (hfind f)
    have hname : f.1.name = f'.1.name := by rw [← hnames, ← hnames, hsame]
    exact Subtype.ext (Schema.eq_of_name_eq (Graph.valid_of_ofFields h) f.2 f'.2 hname)
  · let f : schema.Entry := ⟨⟨(entryOf x).name, (entryOf x).dtype⟩, hlisted _ (entryOf_mem x)⟩
    have hsame : entry f = entryOf x := by
      have hfirst := hfind f
      rw [find?_of_mem_nodup hnodup (entryOf_mem x)] at hfirst
      exact (Option.some.inj hfirst).symm
    exact ⟨f, takes_unique hl hr (hsame ▸ htakes f) (entryOf_takes x)⟩

end Build

end Tables

namespace Graph

variable {g : Graph} {careful : Prop}

theorem WellFormed.splits (hw : g.WellFormed careful) {id left right : NodeId}
    {predicate : Option NodeId} {how : JoinKind} {table : List JoinField} {shape : Shape}
    (hn : g.node? id = some ⟨.join left right predicate how table, shape⟩) :
    ∃ schema ls rs, g.schemaOf id = .ok schema ∧ g.schemaOf left = .ok ls ∧
      g.schemaOf right = .ok rs ∧ schema.Splits ls rs table := by
  obtain ⟨schema, rfl⟩ : ∃ schema, shape = .collection schema := hw.shape hn
  obtain ⟨_, ls, rs, hl, hr, _, rfl, hschema⟩ := hw.collectionFits hn rfl
  have hleft := Keeps.schemaOf left (before_extends g id) ls hl
  have hright := Keeps.schemaOf right (before_extends g id) rs hr
  exact ⟨schema, ls, rs, schemaOf_eq_ok_iff.2 ⟨_, hn, rfl⟩, hleft, hright,
    Build.joinFields_splits (hw.schema_valid hleft) (hw.schema_valid hright) hschema⟩

end Graph

namespace Compile

open PlanSql.Sql

variable {g : Graph} {careful : Prop} {visible : Visible}

theorem Resolves.typed (hw : g.WellFormed careful) {id x : NodeId} {field name : String}
    (h : Resolves g visible id field x name) {schema : Schema} (hs : g.schemaOf id = .ok schema)
    {f : Field} (hf : f ∈ schema.fields) (hname : f.name = field) :
    ∃ own target, g.schemaOf x = .ok own ∧ target ∈ own.fields ∧ target.name = name ∧
      target.dtype = f.dtype := by
  induction h generalizing schema f with
  | here => exact ⟨schema, f, hs, hf, hname, rfl⟩
  | @join id left right x predicate how table shape field name entry _ hn hfind _ ih =>
    obtain ⟨schema', ls, rs, hs', hl, hr, hsplits⟩ := hw.splits hn
    cases hs.symm.trans hs'
    obtain ⟨e, he⟩ := hsplits.matched
    obtain ⟨entry', hfind', hdtype, htakes⟩ := he ⟨f, hf⟩
    rw [hname] at hfind'
    cases hfind.symm.trans hfind'
    -- the walk goes on with the side and the field that the entry takes
    cases htaken : e ⟨f, hf⟩ with
    | inl source =>
      rw [htaken] at htakes
      rw [htakes.1, htakes.2.1] at ih
      obtain ⟨own, target, hown, htarget, htname, htype⟩ := ih hl source.2 rfl
      exact ⟨own, target, hown, htarget, htname, htype.trans (htakes.2.2.symm.trans hdtype)⟩
    | inr source =>
      rw [htaken] at htakes
      rw [htakes.1, htakes.2.1] at ih
      obtain ⟨own, target, hown, htarget, htname, htype⟩ := ih hr source.2 rfl
      exact ⟨own, target, hown, htarget, htname, htype.trans (htakes.2.2.symm.trans hdtype)⟩
  | through _ hn hp _ ih => exact ih (hw.through_schema hn hp hs) hf hname

/-- A field of a collection that can be named is named by a field of the same type of a visible
collection, which is reached through inputs of filters, slices and sorts and through sides of joins;
and the table of every join on the way is a bijection between its fields and those of its sides. -/
theorem columnRef_typed {g : Graph} (hg : Built g) (visible : Visible) (depth : Nat)
    {collection : NodeId} {schema : Schema} (hs : g.schemaOf collection = .ok schema) {f : Field}
    (hf : f ∈ schema.fields) {label : Alias} {name : String}
    (h : columnRef g visible depth collection f.name = .ok (label, name)) :
    (∃ v own target, g.NamedBy collection v ∧ visible.lookup v = some label ∧
      g.schemaOf v = .ok own ∧ target ∈ own.fields ∧ target.name = name ∧
      target.dtype = f.dtype) ∧
    ∀ join left right predicate how table shape, g.NamedBy collection join →
      g.node? join = some ⟨.join left right predicate how table, shape⟩ →
      ∃ own ls rs, g.schemaOf join = .ok own ∧ g.schemaOf left = .ok ls ∧
        g.schemaOf right = .ok rs ∧ own.Splits ls rs table := by
  have hw := hg.fits
  obtain ⟨v, hresolves, hlabel⟩ := columnRef_resolves h
  obtain ⟨own, target, hown, htarget, hname, htype⟩ := hresolves.typed hw hs hf rfl
  refine ⟨⟨v, own, target, hresolves.namedBy, hlabel, hown, htarget, hname, htype⟩, ?_⟩
  intro join left right predicate how table shape _ hn
  exact hw.splits hn

/-- The first rows of two joined tables, joined with a third one; field names are shared twice. -/
def sharedNames : List Call :=
  [.source "" "a" [⟨"id", .int64⟩, ⟨"at", .datetime⟩], .source "" "b" [⟨"id", .string⟩],
    .join 0 1 none .inner, .slice 2 none (some 5) none, .source "" "c" [⟨"id_y", .boolean⟩],
    .join 3 4 none .left]

/-- A field that was renamed twice has the type of its column. -/
theorem columnRef_typed_sharedNames :
    Built (Call.run sharedNames) ∧
    (Call.run sharedNames).schemaOf 5 = .ok ⟨[⟨"id_x", .int64⟩, ⟨"at", .datetime⟩,
      ⟨"id_y_x", .string⟩, ⟨"id_y_y", .boolean⟩]⟩ ∧
    columnRef (Call.run sharedNames) [(0, 1), (1, 2), (4, 4)] 7 5 "id_y_x" = .ok (2, "id") ∧
    ∃ v own target, (Call.run sharedNames).NamedBy 5 v ∧
      ([(0, 1), (1, 2), (4, 4)] : Visible).lookup v = some 2 ∧
      (Call.run sharedNames).schemaOf v = .ok own ∧ target ∈ own.fields ∧ target.name = "id" ∧
      target.dtype = .string := by
  have hallowed : Call.AllowedFrom (fun _ _ => True) .empty sharedNames := by
    simp [sharedNames, Call.AllowedFrom]
  have hbuilt : Built (Call.run sharedNames) := BuiltBy.run hallowed
  have hs : (Call.run sharedNames).schemaOf 5 = .ok ⟨[⟨"id_x", .int64⟩, ⟨"at", .datetime⟩,
      ⟨"id_y_x", .string⟩, ⟨"id_y_y", .boolean⟩]⟩ := by decide +kernel
  have href : columnRef (Call.run sharedNames) [(0, 1), (1, 2), (4, 4)] 7 5 "id_y_x" =
      .ok (2, "id") := by decide +kernel
  have hfield : (⟨"id_y_x", .string⟩ : Field) ∈ [⟨"id_x", .int64⟩, ⟨"at", .datetime⟩,
      ⟨"id_y_x", .string⟩, ⟨"id_y_y", .boolean⟩] := by decide
  exact ⟨hbuilt, hs, href, (columnRef_typed hbuilt _ 7 hs hfield href).1⟩

/-- What every form of expression keeps holds of the expression of a node, if it holds of the fields
of the graph, as columns. -/
theorem FullCongruence.of_node {env : Env} {id : NodeId} {n : Node} {s : State} {P : Expr → Prop}
    {calls strings : String → Prop} {e : Expr}
    (hP : FullCongruence (fun e _ => P e) calls strings) (hw : env.graph.WellFormed False)
    (hn : env.graph.node? id = some n) (hwords : ∀ name, isBuiltIn name = true → calls name)
    (hempty : calls "") (hstrings : ∀ x ∈ n.kind.strings, strings x)
    (hneg : ∀ x ∈ n.kind.negated?, ∀ e, operand env.graph (s.parts env) x = .ok e → P e →
      P (.negate e)) (hcolumn : ∀ x schema (f : Field) label, env.graph.schemaOf x = .ok schema →
      f ∈ schema.fields → P (.column label f.name)) (hfrag : ∀ x ∈ s.context.fragments, P x.2)
    (hfun : ∀ x ∈ s.context.functions.entries, calls x.2)
    (he : valueExpr env.graph (s.parts env) id n.kind = .ok e) : P e := by
  by_cases hcol : ∃ c, n.kind = .column c
  · obtain ⟨c, hk⟩ := hcol
    obtain ⟨t, ht⟩ : ∃ t, n.typed? = some t := by
      have hshape := hw.shape hn
      rwa [hk] at hshape
    have hfits := hw.valueFits hn ht
    rw [hk] at hfits
    obtain ⟨schema, source, field, hschema, hsource, hfind, _⟩ := hfits
    have hname : field.name = source := by
      rw [Schema.find?] at hfind
      simpa using List.find?_some hfind
    obtain ⟨label, name, href, rfl⟩ := valueExpr_column ⟨⟨n, hn, hk, ht⟩, hsource⟩ hn he
    obtain ⟨x, hres, _⟩ := columnRef_resolves href
    obtain ⟨own, target, hown, htarget, rfl, _⟩ := hres.typed hw
      (Graph.Keeps.schemaOf c (Graph.before_extends _ id) schema hschema)
      (List.mem_of_find?_eq_some hfind) hname
    have hrelated := hcolumn x own target label hown htarget
    exact @converted_related _ _ _ hP.toCongruence _ (.column label target.name) hrelated _ _
  · refine hP.of_value hwords hstrings hneg (fun o _ _ x hx => ?_) (fun c hk => absurd ⟨c, hk⟩ hcol)
      (fun _ _ f _ _ => ?_) he
    · exact hfrag _ (mem_of_lookup (Context.fragment_eq_ok_iff.1 hx))
    · show calls ((s.context.functions.find? f.name).getD "")
      cases hfound : s.context.functions.find? f.name with
      | none => exact hempty
      | some name =>
        obtain ⟨l₁, l₂, hentries, _⟩ := List.lookup_eq_some_iff.1 hfound
        exact hfun (f.name, name) (by rw [hentries]; simp)

end Compile

end PlanSql

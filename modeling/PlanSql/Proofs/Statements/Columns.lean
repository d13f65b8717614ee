import PlanSql.Proofs.Compile.Naming

/-!
# The columns of a statement

A level that lists no values shows all columns of what it selects from: the fields of a stored
table, the columns of another level, those of the left part of a union, those of both sides of a
join. So a statement for a filter, a slice, a sort, a join or a union shows the columns that its
inputs show. The schema of a join gives a name that both sides have a suffix, which the statement
does not, so the columns of a statement are the fields of the schema exactly if no join that is
shown in this way renames a field.
-/

namespace PlanSql

variable {kind : Kind} {predicate : Option NodeId} {how : JoinKind} {fields : List JoinField}
  {distinct : Bool}

namespace Sql

/-- The name under which a value is shown. A column that is given no name is shown under its own. -/
def Item.shown (i : Item Expr) : Option String :=
  match i.name, i.expr with
  | some name, _ => some name
  | none, .column _ field => some field
  | none, _ => none

/-- The columns of a table expression, where `known` gives the columns of other levels. -/
def Source.columns (known : LevelId → List (Option String)) : Source → List (Option String)
  | .table stored _ => stored.schema.names.map some
  | .derived level _ => known level
  | .union left _ _ => known left
  | .join left _ right _ => left.columns known ++ right.columns known

/-- The columns of a level, where `known` gives the columns of the levels before it. -/
def Query.columns (known : LevelId → List (Option String)) (q : Query) : List (Option String) :=
  match q.select with
  | some items => items.map Item.shown
  | none => q.source.columns known

namespace Statement

variable {id : LevelId}

/-- The columns of levels, where `done` holds the columns of the levels before them. -/
def allColumns (done : Array (List (Option String))) : List Query → Array (List (Option String))
  | [] => done
  | q :: rest => allColumns (done.push (q.columns fun id => done.getD id [])) rest

/-- The columns of one of the levels. -/
def columnsOf (levels : Array Query) (id : LevelId) : List (Option String) :=
  (allColumns #[] levels.toList).getD id []

/-- The columns that a statement shows. -/
def columns (s : Statement) : List (Option String) := columnsOf s.levels s.root

theorem size_allColumns (done : Array (List (Option String))) (qs : List Query) :
    (allColumns done qs).size = done.size + qs.length := by
  induction qs generalizing done with
  | nil => rfl
  | cons q rest ih =>
    rw [allColumns, ih, Array.size_push, List.length_cons]
    omega

theorem allColumns_append (done : Array (List (Option String))) (qs more : List Query) :
    allColumns done (qs ++ more) = allColumns (allColumns done qs) more := by
  induction qs generalizing done with
  | nil => rfl
  | cons q rest ih => exact ih _

/-- What is known of levels does not change. -/
theorem getD_allColumns_of_lt {done : Array (List (Option String))} (h : id < done.size)
    (qs : List Query) : (allColumns done qs).getD id [] = done.getD id [] := by
  induction qs generalizing done with
  | nil => rfl
  | cons q rest ih =>
    have hlt : id < (done.push (q.columns fun id => done.getD id [])).size := by
      rw [Array.size_push]
      exact Nat.lt_succ_of_lt h
    rw [allColumns, ih hlt]
    simp only [Array.getD_eq_getD_getElem?, Array.getElem?_push, if_neg (Nat.ne_of_lt h)]

theorem columnsOf_prefix {levels levels' : Array Query} (h : levels.toList <+: levels'.toList)
    (hid : id < levels.size) : columnsOf levels' id = columnsOf levels id := by
  obtain ⟨more, hmore⟩ := h
  have hsize : id < (allColumns #[] levels.toList).size := by
    rw [size_allColumns, Array.length_toList]
    exact Nat.lt_of_lt_of_le hid (Nat.le_add_left _ _)
  rw [columnsOf, ← hmore, allColumns_append, getD_allColumns_of_lt hsize]
  rfl

theorem columnsOf_push (levels : Array Query) (q : Query) :
    columnsOf (levels.push q) levels.size = q.columns (columnsOf levels) := by
  have hsize : (allColumns #[] levels.toList).size = levels.size := by
    rw [size_allColumns, Array.length_toList]
    exact Nat.zero_add _
  have hknown : (fun id => (allColumns #[] levels.toList).getD id []) = columnsOf levels := rfl
  rw [columnsOf, Array.toList_push, allColumns_append, allColumns, allColumns, hknown]
  simp only [Array.getD_eq_getD_getElem?, Array.getElem?_push, hsize, if_pos, Option.getD_some]

end Statement

end Sql

open PlanSql.Sql

/-- The operators that list the values they show. -/
def Kind.lists : Kind → Bool
  | .project .. | .groupBy .. | .mutate .. | .distinct .. | .summary .. => true
  | _ => false

theorem Kind.passThrough?_of_lists (h : kind.lists = true) :
    kind.passThrough? = none := by
  cases kind <;> first | rfl | cases h

namespace Graph

/-- The columns that a statement for a collection shows. -/
inductive Exports (g : Graph) : NodeId → List String → Prop
  | source {id : NodeId} {stored : Table} {shape : Shape} :
    g.node? id = some ⟨.source stored, shape⟩ → Exports g id stored.schema.names
  | through {id input : NodeId} {n : Node} {names : List String} : g.node? id = some n →
    n.kind.passThrough? = some input → Exports g input names → Exports g id names
  | join {id left right : NodeId} {predicate : Option NodeId} {how : JoinKind}
    {fields : List JoinField} {shape : Shape} {leftNames rightNames : List String} :
    g.node? id = some ⟨.join left right predicate how fields, shape⟩ → Exports g left leftNames →
    Exports g right rightNames → Exports g id (leftNames ++ rightNames)
  | union {id left right : NodeId} {distinct : Bool} {shape : Shape} {names : List String} :
    g.node? id = some ⟨.union left right distinct, shape⟩ → Exports g left names →
    Exports g id names
  | lists {id : NodeId} {kind : Kind} {schema : Schema} :
    g.node? id = some ⟨kind, .collection schema⟩ → kind.lists = true → Exports g id schema.names

/-- A join whose columns are shown by a statement for a collection. -/
inductive Exposes (g : Graph) : NodeId → NodeId → Prop
  | join {id : NodeId} : g.IsJoin id → Exposes g id id
  | through {id input j : NodeId} {n : Node} : g.node? id = some n →
    n.kind.passThrough? = some input → Exposes g input j → Exposes g id j
  | left {id left right j : NodeId} {predicate : Option NodeId} {how : JoinKind}
    {fields : List JoinField} {shape : Shape} :
    g.node? id = some ⟨.join left right predicate how fields, shape⟩ → Exposes g left j →
    Exposes g id j
  | right {id left right j : NodeId} {predicate : Option NodeId} {how : JoinKind}
    {fields : List JoinField} {shape : Shape} :
    g.node? id = some ⟨.join left right predicate how fields, shape⟩ → Exposes g right j →
    Exposes g id j
  | union {id left right j : NodeId} {distinct : Bool} {shape : Shape} :
    g.node? id = some ⟨.union left right distinct, shape⟩ → Exposes g left j → Exposes g id j

/-- A join gives a field another name than it has on its side. -/
def Renames (g : Graph) (id : NodeId) : Prop := ∃ left right predicate how fields shape,
  g.node? id = some ⟨.join left right predicate how fields, shape⟩ ∧ ∃ f ∈ fields, f.name ≠ f.source

end Graph

section Schemas

def letters (names : List String) : Nat := (names.map String.length).sum

theorem letters_append (names names' : List String) :
    letters (names ++ names') = letters names + letters names' := by
  simp [letters]

/-- A suffix makes names longer, so names that have not become longer have no suffix. -/
theorem Build.letters_joinFields (side : JoinSide) (suffix : String) (hs : 0 < suffix.length)
    (own other : Schema) :
    letters own.names ≤ letters ((joinFields side suffix own other).map JoinField.name) ∧
      (letters ((joinFields side suffix own other).map JoinField.name) ≤ letters own.names →
        ∀ f ∈ joinFields side suffix own other, f.name = f.source) := by
  obtain ⟨fields⟩ := own
  simp only [joinFields, Schema.names]
  induction fields with
  | nil => simp [letters]
  | cons f rest ih =>
    simp only [letters, List.map_cons, List.sum_cons, List.forall_mem_cons] at ih ⊢
    by_cases hf : (other.find? f.name).isSome = true
    · rw [if_pos hf, String.length_append]
      constructor
      · omega
      · intro hle
        omega
    · rw [if_neg hf]
      constructor
      · omega
      · intro hle
        exact ⟨rfl, ih.2 (by omega)⟩

theorem Build.map_source_joinFields (side : JoinSide) (suffix : String) (own other : Schema) :
    (joinFields side suffix own other).map JoinField.source = own.names := by
  simp [joinFields, Schema.names]

/-- The names of a join are those of its sides if no field is renamed. -/
theorem Build.map_name_joinFields {side : JoinSide} {suffix : String} {own other : Schema}
    (h : ∀ f ∈ joinFields side suffix own other, f.name = f.source) :
    (joinFields side suffix own other).map JoinField.name = own.names := by
  rw [← map_source_joinFields side suffix own other]
  exact List.map_congr_left h

namespace Graph

variable {g : Graph} {careful : Prop} {id : NodeId} {names : List String} {schema : Schema}
variable {shape : Shape} {left right : NodeId} {n : Node}

theorem WellFormed.join_schema (hw : g.WellFormed careful)
    (hn : g.node? id = some ⟨.join left right predicate how fields, shape⟩)
    (hs : g.schemaOf id = .ok schema) :
    ∃ ls rs, g.schemaOf left = .ok ls ∧ g.schemaOf right = .ok rs ∧
      fields = Build.joinFields .left "_x" ls rs ++ Build.joinFields .right "_y" rs ls ∧
      schema.names = fields.map JoinField.name := by
  obtain ⟨n, hn', hshape⟩ := schemaOf_eq_ok_iff.1 hs
  cases hn.symm.trans hn'
  obtain ⟨_, ls, rs, hl, hr, _, hfields, hschema⟩ := hw.collectionFits hn hshape
  refine ⟨ls, rs, Keeps.schemaOf _ (before_extends g id) _ hl,
    Keeps.schemaOf _ (before_extends g id) _ hr, hfields, ?_⟩
  rw [Schema.names, Schema.fields_of_ofFields hschema, List.map_map]
  rfl

theorem WellFormed.through_schema (hw : g.WellFormed careful) {input : NodeId}
    (hn : g.node? id = some n) (hp : n.kind.passThrough? = some input)
    (hs : g.schemaOf id = .ok schema) : g.schemaOf input = .ok schema := by
  obtain ⟨n', hn', hshape⟩ := schemaOf_eq_ok_iff.1 hs
  cases hn.symm.trans hn'
  have hfits := hw.collectionFits hn hshape
  unfold Kind.passThrough? at hp
  split at hp
  · next hk =>
    cases hp
    rw [hk] at hfits
    exact Keeps.schemaOf _ (before_extends g id) _ hfits.1
  · next hk =>
    cases hp
    rw [hk] at hfits
    exact Keeps.schemaOf _ (before_extends g id) _ hfits
  · next hk =>
    cases hp
    rw [hk] at hfits
    exact Keeps.schemaOf _ (before_extends g id) _ hfits.1
  · cases hp

theorem WellFormed.union_schema (hw : g.WellFormed careful)
    (hn : g.node? id = some ⟨.union left right distinct, shape⟩) (hs : g.schemaOf id = .ok schema) :
    g.schemaOf left = .ok schema := by
  obtain ⟨n, hn', hshape⟩ := schemaOf_eq_ok_iff.1 hs
  cases hn.symm.trans hn'
  exact Keeps.schemaOf _ (before_extends g id) _ (hw.collectionFits hn hshape).1

theorem WellFormed.source_schema (hw : g.WellFormed careful) {stored : Table}
    (hn : g.node? id = some ⟨.source stored, shape⟩) (hs : g.schemaOf id = .ok schema) :
    stored.schema = schema := by
  obtain ⟨n, hn', hshape⟩ := schemaOf_eq_ok_iff.1 hs
  cases hn.symm.trans hn'
  exact (hw.collectionFits hn hshape).1

theorem schema_of_node {other : Schema}
    (hn : g.node? id = some ⟨kind, .collection other⟩) (hs : g.schemaOf id = .ok schema) :
    other = schema := by
  obtain ⟨n, hn', hshape⟩ := schemaOf_eq_ok_iff.1 hs
  cases hn.symm.trans hn'
  exact Shape.collection.inj hshape

/-- A statement shows as many columns as the schema has fields, and their names are not longer. -/
theorem Exports.shorter (hw : g.WellFormed careful) (h : g.Exports id names)
    (hs : g.schemaOf id = .ok schema) :
    names.length = schema.names.length ∧ letters names ≤ letters schema.names := by
  induction h generalizing schema with
  | source hn =>
    rw [hw.source_schema hn hs]
    exact ⟨rfl, Nat.le_refl _⟩
  | through hn hp _ ih => exact ih (hw.through_schema hn hp hs)
  | join hn _ _ ihl ihr =>
    obtain ⟨ls, rs, hl, hr, rfl, hnames⟩ := hw.join_schema hn hs
    obtain ⟨hlen, hle⟩ := ihl hl
    obtain ⟨hlen', hle'⟩ := ihr hr
    have hx := (Build.letters_joinFields .left "_x" (by decide) ls rs).1
    have hy := (Build.letters_joinFields .right "_y" (by decide) rs ls).1
    rw [hnames, List.map_append, letters_append, letters_append]
    constructor
    · simp only [List.length_append, hlen, hlen', Build.joinFields, List.length_map, Schema.names]
    · omega
  | union hn _ ih => exact ih (hw.union_schema hn hs)
  | lists hn _ =>
    rw [schema_of_node hn hs]
    exact ⟨rfl, Nat.le_refl _⟩

theorem name_of_fieldOf {t : Typed} {field : Field} (hn : g.node? id = some n)
    (ht : n.typed? = some t) (h : g.fieldOf id = .ok field) : t.name = some field.name := by
  obtain ⟨t', ht', h⟩ := bind_ok h
  obtain ⟨n', hn', ht'⟩ := typedOf_eq_ok_iff.1 ht'
  cases hn.symm.trans hn'
  cases ht.symm.trans ht'
  split at h
  · next name hname =>
    cases h
    exact hname
  · cases h

section Exposed

variable {j left right input : NodeId} {predicate : Option NodeId} {how : JoinKind}
  {fields : List JoinField} {shape : Shape} {n : Node}

theorem exposes_through_iff (hn : g.node? id = some n) (hp : n.kind.passThrough? = some input) :
    g.Exposes id j ↔ g.Exposes input j := by
  constructor
  · intro h
    cases h with
    | join hj =>
      obtain ⟨_, _, _, _, _, _, hn'⟩ := hj
      cases hn.symm.trans hn'
      cases hp
    | through hn' hp' h =>
      cases hn.symm.trans hn'
      cases hp.symm.trans hp'
      exact h
    | left hn' | right hn' | union hn' =>
      cases hn.symm.trans hn'
      cases hp
  · exact .through hn hp

theorem exposes_join_iff (hn : g.node? id = some ⟨.join left right predicate how fields, shape⟩) :
    g.Exposes id j ↔ j = id ∨ g.Exposes left j ∨ g.Exposes right j := by
  constructor
  · intro h
    cases h with
    | join hj => exact .inl rfl
    | through hn' hp =>
      cases hn.symm.trans hn'
      cases hp
    | left hn' h =>
      cases hn.symm.trans hn'
      exact .inr (.inl h)
    | right hn' h =>
      cases hn.symm.trans hn'
      exact .inr (.inr h)
    | union hn' => cases hn.symm.trans hn'
  · rintro (rfl | h | h)
    · exact .join ⟨_, _, _, _, _, _, hn⟩
    · exact .left hn h
    · exact .right hn h

theorem exposes_union_iff
    (hn : g.node? id = some ⟨.union left right distinct, shape⟩) :
    g.Exposes id j ↔ g.Exposes left j := by
  constructor
  · intro h
    cases h with
    | join hj =>
      obtain ⟨_, _, _, _, _, _, hn'⟩ := hj
      cases hn.symm.trans hn'
    | through hn' hp =>
      cases hn.symm.trans hn'
      cases hp
    | left hn' | right hn' => cases hn.symm.trans hn'
    | union hn' h =>
      cases hn.symm.trans hn'
      exact h
  · exact .union hn

/-- A stored table and an operator that lists its values show no join. -/
theorem not_exposes (hn : g.node? id = some ⟨kind, shape⟩)
    (hk : (∃ stored, kind = .source stored) ∨ kind.lists = true) : ¬ g.Exposes id j := by
  intro h
  cases h with
  | join hj =>
    obtain ⟨_, _, _, _, _, _, hn'⟩ := hj
    cases hn.symm.trans hn'
    rcases hk with ⟨_, hk⟩ | hk <;> cases hk
  | through hn' hp =>
    cases hn.symm.trans hn'
    rcases hk with ⟨_, rfl⟩ | hk
    · cases hp
    · rw [Kind.passThrough?_of_lists hk] at hp
      cases hp
  | left hn' | right hn' | union hn' =>
    cases hn.symm.trans hn'
    rcases hk with ⟨_, hk⟩ | hk <;> cases hk

end Exposed

/-- The columns are the fields of the schema exactly if no join that is shown renames a field. -/
theorem Exports.eq_iff (hw : g.WellFormed careful) (h : g.Exports id names)
    (hs : g.schemaOf id = .ok schema) :
    names = schema.names ↔ ∀ j, g.Exposes id j → ¬ g.Renames j := by
  induction h generalizing schema with
  | source hn =>
    have hno : ∀ {j}, ¬ g.Exposes _ j := not_exposes hn (.inl ⟨_, rfl⟩)
    exact ⟨fun _ j hj => absurd hj hno, fun _ => by rw [hw.source_schema hn hs]⟩
  | through hn hp _ ih =>
    simp only [ih (hw.through_schema hn hp hs), exposes_through_iff hn hp]
  | union hn _ ih => simp only [ih (hw.union_schema hn hs), exposes_union_iff hn]
  | lists hn hk =>
    have hno : ∀ {j}, ¬ g.Exposes _ j := not_exposes hn (.inr hk)
    exact ⟨fun _ j hj => absurd hj hno, fun _ => by rw [schema_of_node hn hs]⟩
  | @join id left right _ _ fields _ leftNames rightNames hn hl hr ihl ihr =>
    obtain ⟨ls, rs, hls, hrs, hfields, hnames⟩ := hw.join_schema hn hs
    have hx := Build.letters_joinFields .left "_x" (by decide) ls rs
    have hy := Build.letters_joinFields .right "_y" (by decide) rs ls
    have hsame : (∀ f ∈ fields, f.name = f.source) ↔
        (∀ f ∈ Build.joinFields .left "_x" ls rs, f.name = f.source) ∧
          ∀ f ∈ Build.joinFields .right "_y" rs ls, f.name = f.source := by
      rw [hfields, List.forall_mem_append]
    rw [hnames, hfields, List.map_append]
    simp only [exposes_join_iff hn]
    constructor
    · intro heq
      -- Names of a side that are not longer than without a suffix have none.
      have hlen : leftNames.length = ((Build.joinFields .left "_x" ls rs).map
        JoinField.name).length := by
        rw [(hl.shorter hw hls).1, ← Build.map_source_joinFields .left "_x" ls rs, List.length_map,
          List.length_map]
      obtain ⟨hleft, hright⟩ := List.append_inj heq hlen
      have hplain := hx.2 (hleft ▸ (hl.shorter hw hls).2)
      have hplain' := hy.2 (hright ▸ (hr.shorter hw hrs).2)
      rw [Build.map_name_joinFields hplain] at hleft
      rw [Build.map_name_joinFields hplain'] at hright
      rintro j (rfl | hj | hj)
      · rintro ⟨_, _, _, _, _, _, hn', f, hf, hne⟩
        cases hn.symm.trans hn'
        exact hne (hsame.2 ⟨hplain, hplain'⟩ f hf)
      · exact (ihl hls).1 hleft j hj
      · exact (ihr hrs).1 hright j hj
    · intro hno
      have hplain : ∀ f ∈ fields, f.name = f.source :=
        fun f hf => Decidable.byContradiction fun hne =>
        hno id (.inl rfl) ⟨_, _, _, _, _, _, hn, f, hf, hne⟩
      rw [Build.map_name_joinFields (hsame.1 hplain).1,
        Build.map_name_joinFields (hsame.1 hplain).2, (ihl hls).2 fun j hj =>
          hno j (.inr (.inl hj)), (ihr hrs).2 fun j hj => hno j (.inr (.inr hj))]

end Graph

end Schemas

namespace Compile

section Items

variable {env : Env} {visible : Visible} {id : NodeId} {n : Node} {t : Typed} {name : Option String}
  {e : Expr}

/-- A selected value is shown under its own name, whether or not it is given one. -/
theorem ItemNamed.shown {own : String} (h : ItemNamed env visible n t name)
    (hn : env.graph.node? id = some n) (ht : n.typed? = some t) (hown : t.name = some own)
    (he : Named env.graph visible id e) : Item.shown ⟨e, name⟩ = some own := by
  unfold ItemNamed at h
  split at h
  · next collection source hkind hsource =>
    split at h
    · next hsame =>
      -- A column that is shown under the name of the field is given no name.
      obtain ⟨label, field, href, rfl⟩ := h
      obtain ⟨x, hres, _⟩ := columnRef_resolves href
      obtain ⟨y, field', label', hres', rfl⟩ :=
        he collection t source ⟨⟨n, hn, hkind, ht⟩, hsource⟩
      obtain ⟨_, rfl⟩ := hres.unique hres'
      rw [hown, hsame, converted, if_pos rfl]
      by_cases hfield : own = field'
      · simp [Item.shown, Option.filter, hfield]
      · simp [Item.shown, Option.filter, hfield]
    · rw [h, hown, Item.shown]
  · rw [h, hown, Item.shown]

/-- Selected values are shown under the names of the fields that they make. -/
def Job.Shows (g : Graph) : Job → State → Prop
  | .items ids is, s => Faithful g s → ∀ fields, g.fieldsOf ids = .ok fields →
    is.map Item.shown = fields.map fun f => some f.name
  | _, _ => True

theorem Runs.shows {top : NodeId} {job : Job} {s s' : State} (h : Runs env top job s s') :
    job.Shows env.graph s := by
  induction h with
  | noItems =>
    intro _ fields hfields
    cases hfields
    rfl
  | itemThen hv hrun hn ht hnamed he _ _ ih =>
    intro hs fields hfields
    obtain ⟨field, hfield, hfields⟩ := bind_ok hfields
    obtain ⟨others, hothers, hfields⟩ := bind_ok hfields
    cases hfields
    have hs₁ := (hrun.compiles hv).faithful hs
    have hname := Graph.name_of_fieldOf hn ht hfield
    rw [List.map_cons, List.map_cons, ih hs₁ others hothers,
      hnamed.shown hn ht hname (hs₁ (Context.fragment_eq_ok_iff.1 he))]
  | _ => trivial

end Items

section Presenting

/-- A table expression shows the columns `names`. -/
inductive Presents (levels : Array Query) : Source → List String → Prop
  | table {stored : Table} {label : Alias} :
    Presents levels (.table stored label) stored.schema.names
  | derived {level : LevelId} {label : Alias} {names : List String} : level < levels.size →
    Statement.columnsOf levels level = names.map some → Presents levels (.derived level label) names
  | union {left right : LevelId} {label : Alias} {names : List String} : left < levels.size →
    Statement.columnsOf levels left = names.map some →
    Presents levels (.union left right label) names
  | join {left right : Source} {how : JoinKind} {on : Option Expr}
    {leftNames rightNames : List String} : Presents levels left leftNames →
    Presents levels right rightNames →
    Presents levels (.join left how right on) (leftNames ++ rightNames)

/-- The values and the table expression of a level show the columns `names`. -/
def Presented (levels : Array Query) (select : Option (List (Item Expr))) (source : Source)
    (names : List String) : Prop :=
  match select with
  | some items => items.map Item.shown = names.map some
  | none => Presents levels source names

variable {levels levels' : Array Query} {source : Source} {names : List String}

theorem Presents.columns (h : Presents levels source names) :
    source.columns (Statement.columnsOf levels) = names.map some := by
  induction h with
  | table => rfl
  | derived _ h | union _ h => exact h
  | join _ _ ihl ihr => rw [Source.columns, ihl, ihr, List.map_append]

theorem Presents.mono (h : Presents levels source names) (hl : levels.toList <+: levels'.toList) :
    Presents levels' source names := by
  have hlt : ∀ {level : LevelId}, level < levels.size → level < levels'.size := fun hlevel =>
    Nat.lt_of_lt_of_le hlevel hl.length_le
  induction h with
  | table => exact .table
  | derived hlevel h =>
    exact .derived (hlt hlevel) ((Statement.columnsOf_prefix hl hlevel).trans h)
  | union hlevel h => exact .union (hlt hlevel) ((Statement.columnsOf_prefix hl hlevel).trans h)
  | join _ _ ihl ihr => exact .join ihl ihr

theorem Presented.mono {select : Option (List (Item Expr))}
    (h : Presented levels select source names) (hl : levels.toList <+: levels'.toList) :
    Presented levels' select source names := by
  cases select with
  | some items => exact h
  | none => exact Presents.mono h hl

theorem Presented.columns {q : Query} (h : Presented levels q.select q.source names) :
    Statement.columnsOf (levels.push q) levels.size = names.map some := by
  rw [Statement.columnsOf_push, Query.columns]
  unfold Presented at h
  split at h
  · exact h
  · exact h.columns

theorem Presents.asSide {ahead : JoinAhead} (h : Presents levels ahead.source names) :
    Presents levels ahead.asSide names := by
  obtain ⟨source, on, visible⟩ := ahead
  cases h with
  | table => exact .table
  | derived hlevel h => exact .derived hlevel h
  | union hlevel h => exact .union hlevel h
  | join hl hr => exact .join hl hr

/-- Finished levels stay where they are. -/
theorem Shared.Grows.levels_prefix {a b : Shared} (h : a.Grows b) :
    a.levels.toList <+: b.levels.toList := by
  rw [List.prefix_iff_getElem?]
  intro i hi
  rw [Array.getElem?_toList]
  exact h.level (by simp)

end Presenting

section Columned

variable {input : NodeId} {schema : Schema} {env : Env}
variable {levels levels' : Array Query} {source : Source} {left right top : NodeId} {shape : Shape}
  {kind : Kind} {items : List (Item Expr)} {clause : Clause} {reads : Bool}

/-- A table expression for a collection shows its columns. -/
def Displays (g : Graph) (levels : Array Query) (source : Source) (id : NodeId) : Prop :=
  ∃ names, g.Exports id names ∧ Presents levels source names

/-- A level for a collection shows its columns. -/
def LevelDisplays (g : Graph) (levels : Array Query) (level : LevelId) (id : NodeId) : Prop :=
  level < levels.size ∧ ∃ names, g.Exports id names ∧
    Statement.columnsOf levels level = names.map some

/-- Joins and unions that are kept show the columns of their collections. -/
structure Columned (g : Graph) (s : State) : Prop where
  join : ∀ {id ahead}, s.joins.lookup id = some ahead → Displays g s.levels ahead.source id
  union : ∀ {id ahead}, s.unions.lookup id = some ahead → Displays g s.levels ahead.1 id

/-- A level that has a table expression shows the columns of the collection. -/
def Showing (g : Graph) (id : NodeId) (s : State) : Prop :=
  ∀ source, s.clauses.source = some source →
    ∃ names, g.Exports id names ∧ Presented s.levels s.clauses.select source names

variable {g : Graph} {id : NodeId} {s s' : State}

theorem Displays.mono (h : Displays g levels source id) (hl : levels.toList <+: levels'.toList) :
    Displays g levels' source id :=
  h.imp fun _ hn => ⟨hn.1, hn.2.mono hl⟩

theorem LevelDisplays.mono {level : LevelId} (h : LevelDisplays g levels level id)
    (hl : levels.toList <+: levels'.toList) :
    LevelDisplays g levels' level id :=
  ⟨Nat.lt_of_lt_of_le h.1 hl.length_le, h.2.imp fun _ hn =>
    ⟨hn.1, (Statement.columnsOf_prefix hl h.1).trans hn.2⟩⟩

theorem Columned.later (h : Columned g s) (hj : s'.joins = s.joins) (hu : s'.unions = s.unions)
    (hl : s.levels.toList <+: s'.levels.toList) : Columned g s' :=
  ⟨fun hx => (h.join (hj ▸ hx)).mono hl, fun hx => (h.union (hu ▸ hx)).mono hl⟩

theorem Columned.congr (h : Columned g s) (hj : s'.joins = s.joins) (hu : s'.unions = s.unions)
    (hl : s'.levels = s.levels) : Columned g s' :=
  h.later hj hu (hl ▸ List.prefix_rfl)

theorem Columned.keepJoin
    {leftSource rightSource : Source} {on : Option Expr} {visible : Visible} (h : Columned g s)
    (hn : g.node? id = some ⟨.join left right predicate how fields, shape⟩)
    (hl : Displays g s.levels leftSource left) (hr : Displays g s.levels rightSource right) :
    Columned g { s with
      joins := (id, ⟨.join leftSource how rightSource none, on, visible⟩) :: s.joins } := by
  obtain ⟨leftNames, hexports, hnames⟩ := hl
  obtain ⟨rightNames, hexports', hnames'⟩ := hr
  refine ⟨fun {x other} hx => ?_, h.union⟩
  rcases lookup_cons_eq_some hx with ⟨rfl, rfl⟩ | hx
  · exact ⟨_, .join hn hexports hexports', .join hnames hnames'⟩
  · exact h.join hx

theorem Columned.keepUnion {leftLevel rightLevel : LevelId} {label : Alias}
    (h : Columned g s) (hn : g.node? id = some ⟨.union left right distinct, shape⟩)
    (hl : LevelDisplays g s.levels leftLevel left) :
    Columned g { s with unions := (id, .union leftLevel rightLevel label, label) :: s.unions } := by
  obtain ⟨hlt, names, hexports, hnames⟩ := hl
  refine ⟨h.join, fun {x other} hx => ?_⟩
  rcases lookup_cons_eq_some hx with ⟨rfl, rfl⟩ | hx
  · exact ⟨names, .union hn hexports, .union hlt hnames⟩
  · exact h.union hx

theorem Columned.start (g : Graph) (functions : FunctionNames) : Columned g (.start functions) :=
  ⟨fun h => (by cases h), fun h => (by cases h)⟩

theorem Showing.of_empty (h : s.clauses = .empty) : Showing g id s := by
  intro source hsource
  rw [h] at hsource
  cases hsource

theorem Showing.later (h : Showing g id s) (hs : s'.clauses.source = s.clauses.source)
    (hi : s'.clauses.select = s.clauses.select) (hl : s.levels.toList <+: s'.levels.toList) :
    Showing g id s' := by
  intro source hsource
  obtain ⟨names, hexports, hnames⟩ := h source (hs ▸ hsource)
  exact ⟨names, hexports, hi ▸ hnames.mono hl⟩

theorem Showing.through {n : Node} (h : Showing g input s) (hn : g.node? id = some n)
    (hp : n.kind.passThrough? = some input) : Showing g id s :=
  fun source hsource => (h source hsource).imp fun _ hnames => ⟨.through hn hp hnames.1, hnames.2⟩

/-- A level that selects only from a table expression shows the columns of the expression. -/
theorem Showing.of_source (h : Displays g s.levels source id)
    (hs : s.clauses.source = some source) (hi : s.clauses.select = none) : Showing g id s := by
  intro source' hsource
  cases hs.symm.trans hsource
  obtain ⟨names, hexports, hnames⟩ := h
  refine ⟨names, hexports, ?_⟩
  rw [hi]
  exact hnames

theorem Showing.of_select (hn : g.node? id = some ⟨kind, .collection schema⟩)
    (hk : kind.lists = true) (hi : s.clauses.select = some items)
    (h : items.map Item.shown = schema.names.map some) :
    Showing g id s := by
  intro source _
  refine ⟨schema.names, .lists hn hk, ?_⟩
  rw [hi]
  exact h

theorem Showing.close {sortLimit : Nat} {q : Query} (h : Showing g id s)
    (hq : s.clauses.close sortLimit = .ok q) :
    LevelDisplays g (s.levels.push q) s.levels.size id := by
  obtain ⟨hsource, hselect, _⟩ := close_eq_ok hq
  obtain ⟨names, hexports, hnames⟩ := h q.source hsource
  refine ⟨?_, names, hexports, Presented.columns ?_⟩
  · rw [Array.size_push]
    exact Nat.lt_succ_self _
  · rw [hselect]
    exact hnames

theorem prefix_push (levels : Array Query) (q : Query) :
    levels.toList <+: (levels.push q).toList := by
  rw [Array.toList_push]
  exact List.prefix_append _ _

theorem Prepared.columned (h : Prepared env input clause reads s s') (hs : Columned env.graph s) :
    Columned env.graph s' := by
  cases h with
  | same _ _ => exact hs
  | wrapped _ _ _ _ => exact hs.later rfl rfl (prefix_push _ _)

theorem Prepared.showing (h : Prepared env input clause reads s s')
    (hs : Showing env.graph input s) :
    Showing env.graph input s' := by
  cases h with
  | same _ _ => exact hs
  | wrapped hq _ _ _ =>
    obtain ⟨hlt, names, hexports, hnames⟩ := hs.close hq
    exact Showing.of_source ⟨names, hexports, .derived hlt hnames⟩ rfl rfl

theorem Graph.WellFormed.selection_schema {careful : Prop} (hw : g.WellFormed careful)
    {sel : Selection} (hn : g.node? id = some ⟨kind, .collection schema⟩)
    (hsel : Selection.of? kind = some sel) :
    kind.lists = true ∧ g.fieldSchema sel.fields = .ok schema := by
  have hfits := hw.collectionFits hn rfl
  have hkeep : ∀ {ids}, (g.before id).fieldSchema ids = .ok schema →
    g.fieldSchema ids = .ok schema :=
    fun h => Graph.Keeps.fieldSchema _ (Graph.before_extends g id) _ h
  cases kind with
  | project input fields | summary input fields =>
    cases hsel
    exact ⟨rfl, hkeep hfits.2.2⟩
  | mutate input keys mutates | distinct input fields =>
    cases hsel
    exact ⟨rfl, hkeep hfits.2⟩
  | _ => cases hsel

theorem Runs.shows_schema {ids : List NodeId} (h : Runs env top (.items ids items) s s')
    (hs : Faithful env.graph s) (hschema : env.graph.fieldSchema ids = .ok schema) :
    items.map Item.shown = schema.names.map some := by
  obtain ⟨fields, hfields, hschema⟩ := bind_ok hschema
  have hitems : Job.Shows env.graph (.items ids items) s := h.shows
  rw [hitems hs fields hfields, Schema.names, Schema.fields_of_ofFields hschema, List.map_map]
  rfl

/-- What a job does to the columns that levels and sides of joins show. -/
def Job.Columns (g : Graph) : Job → State → State → Prop
  | .visit id, s, s' => Kept g s → Columned g s → Columned g s' ∧ (g.isCollection id = true →
    s.clauses = .empty → Compile.Growing g s → Showing g id s')
  | .select sel, s, s' => Kept g s → Columned g s → Columned g s' ∧ (Compile.Growing g s →
    ∀ schema, g.fieldSchema sel.fields = .ok schema → ∃ is, s'.clauses.select = some is ∧
      is.map Item.shown = schema.names.map some)
  | .level id lvl, s, s' => Kept g s → Columned g s → Columned g s' ∧
    (g.isCollection id = true → LevelDisplays g s'.levels lvl id)
  | .side id source _, s, s' => Kept g s → Columned g s →
    Columned g s' ∧ Displays g s'.levels source id
  | _, s, s' => Kept g s → Columned g s → Columned g s'

section Steps

variable {careful : Prop} {s₁ s₂ s₃ : State}

/-- What a filter, a slice or a sort takes as its input shows its columns once it is prepared. -/
theorem Prepared.showing_passed (hprep : Prepared env input clause reads s₁ s₂)
    (hw : env.graph.WellFormed careful)
    (hn : env.graph.node? id = some ⟨kind, .collection schema⟩)
    (hp : kind.passThrough? = some input)
    (hshow : env.graph.isCollection input = true → Showing env.graph input s₁) :
    Showing env.graph id s₂ := by
  have hc : env.graph.isCollection input = true := Graph.isCollection_iff.2
    ⟨_, hw.through_schema hn hp (Graph.schemaOf_eq_ok_iff.2 ⟨_, hn, rfl⟩)⟩
  exact (hprep.showing (hshow hc)).through hn hp

theorem Runs.prepared_faithful (h : Runs env top (.visit input) s s₁)
    (hw : env.graph.WellFormed careful) (hscoped : env.graph.ConditionsScoped top)
    (hprep : Prepared env input clause reads s₁ s₂) (hk : Kept env.graph s)
    (hs : Growing env.graph s) : Faithful env.graph s₂ :=
  hprep.faithful (h.input_faithful (h.growing hw hscoped) hk hs)

/-- A union that is compiled shows the columns of its first side. -/
theorem Runs.columns_union {leftLevel rightLevel : LevelId} {label : Alias}
    {aliases : Aliases} (hw : env.graph.WellFormed careful)
    (hn : env.graph.node? id = some ⟨.union left right distinct, .collection schema⟩)
    (hleft : Runs env top (.level left leftLevel) s s₁)
    (hright : Runs env top (.level right rightLevel) s₁ s₂)
    (ih : Job.Columns env.graph (.level left leftLevel) s s₁)
    (ih' : Job.Columns env.graph (.level right rightLevel) s₁ s₂)
    (hk : Kept env.graph s) (hs : Columned env.graph s) :
    Columned env.graph { s₂.withAliases aliases with
      unions := (id, .union leftLevel rightLevel label, label) :: s₂.unions } := by
  have hl := ih hk hs
  have hr := ih' (hleft.keeps hk) hl.1
  have hdisplays := hl.2 (hw.union_sides hn).1
  exact (hr.1.keepUnion hn (hdisplays.mono hright.grows.levels_prefix)).congr rfl rfl rfl

/-- A join that is compiled shows the columns of both sides. -/
theorem Runs.columns_join
    {leftSource rightSource : Source} {leftVisible rightVisible : Visible} {es : List Expr}
    (hn : env.graph.node? id = some ⟨.join left right predicate how fields, .collection schema⟩)
    (hleft : Runs env top (.side left leftSource leftVisible) s s₁)
    (hright : Runs env top (.side right rightSource rightVisible) s₁ s₂)
    (hon : Runs env top (.values predicate.toList es)
      (s₂.revealing (leftVisible ++ rightVisible)) s₃)
    (ih : Job.Columns env.graph (.side left leftSource leftVisible) s s₁)
    (ih' : Job.Columns env.graph (.side right rightSource rightVisible) s₁ s₂)
    (ih'' : Job.Columns env.graph (.values predicate.toList es)
      (s₂.revealing (leftVisible ++ rightVisible)) s₃)
    (hk : Kept env.graph s) (hs : Columned env.graph s) (on : Option Expr) (visible : Visible) :
    Columned env.graph { s₃ with
      joins := (id, ⟨.join leftSource how rightSource none, on, visible⟩) :: s₃.joins } := by
  have hl := ih hk hs
  have hk₂ := (hright.keeps (hleft.keeps hk).1).1
  have hr := ih' (hleft.keeps hk).1 hl.1
  have hs₃ := ih'' (hk₂.congr rfl rfl) (hr.1.congr rfl rfl rfl)
  have hl₃ := (hl.2.mono hright.grows.levels_prefix).mono hon.grows.levels_prefix
  have hr₃ := hr.2.mono hon.grows.levels_prefix
  exact (hs₃.keepJoin hn hl₃ hr₃).congr rfl rfl rfl

end Steps

/-- Finished levels and sides of joins show the columns of their collections. -/
theorem Runs.columns {job : Job} {careful : Prop} (hw : env.graph.WellFormed careful)
    (hscoped : env.graph.ConditionsScoped top) (h : Runs env top job s s') :
    job.Columns env.graph s s' := by
  induction h with
  | visited => exact fun _ hs => ⟨hs, fun _ hempty _ => .of_empty hempty⟩
  | cached _ hc _ =>
    refine fun _ hs => ⟨hs.congr rfl rfl rfl, fun hc' => ?_⟩
    rw [hc] at hc'
    cases hc'
  | source _ _ hn _ hc =>
    intro _ hs
    obtain rfl := setSource_eq_ok hc
    refine ⟨hs.congr rfl rfl rfl, fun _ hempty _ => ?_⟩
    refine Showing.of_source ⟨_, .source hn, .table⟩ rfl ?_
    exact congrArg Clauses.select hempty
  | selection _ _ hn hsel _ ih =>
    intro hk hs
    refine ⟨(ih hk hs).1.congr rfl rfl rfl, fun _ _ hg => ?_⟩
    obtain ⟨hlists, hschema⟩ := Graph.WellFormed.selection_schema hw hn hsel
    obtain ⟨items, hitems, hnames⟩ := (ih hk hs).2 hg _ hschema
    exact Showing.of_select hn hlists hitems hnames
  | filter _ _ hn hrun hprep hv hp _ hc ih ih' =>
    intro hk hs
    obtain rfl := setFilter_eq_ok hc
    have hk₂ := hprep.kept (hrun.keeps hk)
    have hs₁ := ih hk hs
    have hs₃ := ih' hk₂ (hprep.columned hs₁.1)
    refine ⟨hs₃.1.congr rfl rfl rfl, fun _ hempty hg => ?_⟩
    have hshow := hprep.showing_passed hw hn rfl fun hc => hs₁.2 hc hempty hg
    have hsource := congrArg Clauses.source (hp.compiles hv).adds.clauses
    have hselect := congrArg Clauses.select (hp.compiles hv).adds.clauses
    exact hshow.later hsource hselect hp.grows.levels_prefix
  | groupBy _ _ hn hrun hprep hkeys hitems hc hc' hp hhaving ih ih' ih'' ihp =>
    intro hk hs
    obtain rfl := setSelect_eq_ok hc
    obtain rfl := setGroupBy_eq_ok hc'
    have hk₂ := hprep.kept (hrun.keeps hk)
    have hs₃ := ih' hk₂ (hprep.columned (ih hk hs).1)
    have hs₄ := ih'' (hkeys.keeps hk₂) hs₃
    have hs₅ := ihp ((hitems.keeps (hkeys.keeps hk₂)).congr rfl rfl) (hs₄.congr rfl rfl rfl)
    obtain ⟨_, rfl⟩ := hhaving.eq
    refine ⟨hs₅.congr rfl rfl rfl, fun _ _ hg => ?_⟩
    have hschema := Graph.Keeps.fieldSchema _ (Graph.before_extends _ _) _
      (hw.collectionFits hn rfl).2.2.1
    have hf₃ := hkeys.compiles.faithful (hrun.prepared_faithful hw hscoped hprep hk hg)
    have hadds : AddsValues _ _ := hp.leaves
    have hselect := congrArg Clauses.select hadds.clauses
    exact Showing.of_select hn rfl hselect (hitems.shows_schema hf₃ hschema)
  | sort _ _ hn hrun hprep hkeys hc ih ih' =>
    intro hk hs
    obtain rfl := setOrderBy_eq_ok hc
    have hk₂ := hprep.kept (hrun.keeps hk)
    have hs₁ := ih hk hs
    have hs₃ := ih' hk₂ (hprep.columned hs₁.1)
    refine ⟨hs₃.congr rfl rfl rfl, fun _ hempty hg => ?_⟩
    have hshow := hprep.showing_passed hw hn rfl fun hc => hs₁.2 hc hempty hg
    have hsource := congrArg Clauses.source hkeys.compiles.adds.clauses
    have hselect := congrArg Clauses.select hkeys.compiles.adds.clauses
    exact hshow.later hsource hselect hkeys.grows.levels_prefix
  | slice _ _ hn _ hrun hprep hc ih =>
    intro hk hs
    obtain rfl := setLimit_eq_ok hc
    have hs₁ := ih hk hs
    refine ⟨(hprep.columned hs₁.1).congr rfl rfl rfl, fun _ hempty hg => ?_⟩
    have hshow := hprep.showing_passed hw hn rfl fun hc => hs₁.2 hc hempty hg
    exact hshow.later rfl rfl List.prefix_rfl
  | joined _ _ _ hjoin hc hc' ih =>
    intro hk hs
    obtain rfl := joined_clauses hc hc'
    have hs₁ := ih hk hs
    refine ⟨hs₁.congr rfl rfl rfl, fun _ hempty _ => ?_⟩
    exact Showing.of_source (hs₁.join hjoin.lookup_join) rfl
      (congrArg Clauses.select (hjoin.leaves.clauses.trans hempty))
  | united _ _ _ hunion hc ih =>
    intro hk hs
    have hs₁ := ih hk hs
    refine ⟨hs₁.congr rfl rfl rfl, fun _ hempty _ => ?_⟩
    obtain rfl := setSource_eq_ok hc
    have hsame : Same _ _ := hunion.leaves
    exact Showing.of_source (hs₁.union hunion.lookup_union) rfl
      (congrArg Clauses.select (hsame.clauses.trans hempty))
  | value _ _ _ hn ht hvisits _ _ _ ih ih' =>
    intro hk hs
    refine ⟨(ih' (hvisits.keeps hk) (ih hk hs)).congr rfl rfl rfl, fun hc => ?_⟩
    rw [not_isCollection_of_typed hn ht] at hc
    cases hc
  | noOperands | noValues | noKeys | noItems | provideNothing | discovered | unionKept
  | subqueryKept | joinKept => exact fun _ hs => hs
  | skipped _ _ ih => exact ih
  | operand _ _ hrun _ ih ih' | valueThen _ hrun _ _ ih ih' | keyThen _ hrun _ _ ih ih'
  | itemThen _ hrun _ _ _ _ _ ih ih' => exact fun hk hs => ih' (hrun.keeps hk) (ih hk hs).1
  | provideFunction => exact fun _ hs => hs.congr rfl rfl rfl
  | provideWindow _ ih | provideSubquery _ _ ih => exact ih
  | select hrun hprep hitems hc ih ih' =>
    intro hk hs
    obtain rfl := setSelect_eq_ok hc
    have hs₃ := ih' (hprep.kept (hrun.keeps hk)) (hprep.columned (ih hk hs).1)
    refine ⟨hs₃.congr rfl rfl rfl, fun hg schema hschema => ⟨_, rfl, ?_⟩⟩
    exact hitems.shows_schema (hrun.prepared_faithful hw hscoped hprep hk hg) hschema
  | level _ _ hdiscover _ hq ih ih' =>
    intro hk hs
    have hk₁ := hdiscover.keeps (hk.congr rfl rfl)
    have hs₂ := ih' hk₁ (ih (hk.congr rfl rfl) (hs.congr rfl rfl rfl))
    refine ⟨hs₂.1.later rfl rfl (prefix_push _ _), fun hc => ?_⟩
    have hg := hdiscover.growing hw hscoped (hk.congr rfl rfl) (.inner _ _)
    exact (hs₂.2 hc hdiscover.leaves.clauses hg).close hq
  | levelOfValue _ hroot _ hdiscover _ _ ih ih' =>
    intro hk hs
    have hk₁ := hdiscover.keeps (hk.congr rfl rfl)
    have hs₂ := ih' hk₁ (ih (hk.congr rfl rfl) (hs.congr rfl rfl rfl))
    refine ⟨hs₂.1.later rfl rfl (prefix_push _ _), fun hc => ?_⟩
    rw [hroot] at hc
    cases hc
  | discoverJoin _ _ hjoin _ ih ih' => exact fun hk hs => ih' (hjoin.keeps hk) (ih hk hs)
  | discoverUnion _ _ hunion _ ih ih' => exact fun hk hs => ih' (hunion.keeps hk) (ih hk hs)
  | discoverSubquery _ _ _ hsub _ ih ih' => exact fun hk hs => ih' (hsub.keeps hk) (ih hk hs)
  | unionNew _ _ hn hleft hright _ ih ih' => exact hleft.columns_union hw hn hright ih ih'
  | subqueryNew _ _ _ _ _ ih => exact fun hk hs => (ih hk hs).1.congr rfl rfl rfl
  | sideTable _ hn _ => exact fun _ hs => ⟨hs.congr rfl rfl rfl, _, .source hn, .table⟩
  | sideJoin _ hjoin ih =>
    intro hk hs
    obtain ⟨names, hexports, hnames⟩ := (ih hk hs).join hjoin.lookup_join
    exact ⟨ih hk hs, names, hexports, hnames.asSide⟩
  | sideUnion _ hunion ih =>
    exact fun hk hs => ⟨ih hk hs, (ih hk hs).union hunion.lookup_union⟩
  | sideLevel _ hn _ _ _ ih =>
    intro hk hs
    obtain ⟨hlt, names, hexports, hnames⟩ := (ih hk hs).2 (isCollection_of_node hn)
    exact ⟨(ih hk hs).1.congr rfl rfl rfl, names, hexports, .derived hlt hnames⟩
  | joinNew _ _ hn hleft hright hon ih ih' ih'' =>
    exact fun hk hs => hleft.columns_join hn hright hon ih ih' ih'' hk hs _ _

end Columned

/-- A statement for a collection shows the fields of its schema exactly if no join whose columns it
shows without listing them gives a field another name. -/
theorem compile_columns_iff {g : Graph} (hb : Built g) {root : NodeId} {schema : Schema}
    (hschema : g.schemaOf root = .ok schema) (hscoped : g.ConditionsScoped root) {c c' : Compiler}
    {s : Statement} (h : c.compile g root = (.ok s, c')) :
    s.columns = schema.names.map some ↔ ∀ j, g.Exposes root j → ¬ g.Renames j := by
  have hw := hb.fits
  obtain ⟨t, hrun, hlevels⟩ := runs_of_compile hw h
  have hcolumns := (hrun.columns hw hscoped (.start g c.functions) (.start g c.functions)).2
  obtain ⟨_, names, hexports, hnames⟩ := hcolumns (Graph.isCollection_iff.2 ⟨schema, hschema⟩)
  rw [Statement.columns, ← hlevels, hnames, ← hexports.eq_iff hw hschema]
  exact List.map_inj_right fun _ _ => Option.some.inj

/-- Two fields of joined rows, of which one is renamed by the join, for a few rows. -/
def joinedKeys : List Call :=
  [.source "" "a" [⟨"id", .int64⟩, ⟨"x", .int64⟩], .source "" "b" [⟨"id", .int64⟩, ⟨"y", .int64⟩],
    .column 0 "id", .column 1 "id", .binary .eq 2 3, .join 0 1 (some 4) .inner, .column 5 "id_x",
    .column 5 "y", .project 5 [6, 7], .slice 8 none (some 5) none]

/-- A renamed field is shown under its new name where it is listed. -/
theorem compile_columns_iff_joinedKeys :
    Built (Call.run joinedKeys) ∧
    (Call.run joinedKeys).schemaOf 9 = .ok ⟨[⟨"id_x", .int64⟩, ⟨"y", .int64⟩]⟩ ∧
    (Call.run joinedKeys).ConditionsScoped 9 ∧
    ∃ s c', (Compiler.new .default).compile (Call.run joinedKeys) 9 = (.ok s, c') ∧
      s.columns = [some "id_x", some "y"] ∧
      (s.columns = [some "id_x", some "y"] ↔
        ∀ j, (Call.run joinedKeys).Exposes 9 j → ¬ (Call.run joinedKeys).Renames j) := by
  have hb : Built (Call.run joinedKeys) := .run (by simp [joinedKeys, Call.AllowedFrom])
  have hschema : (Call.run joinedKeys).schemaOf 9 = .ok ⟨[⟨"id_x", .int64⟩, ⟨"y", .int64⟩]⟩ := by
    decide +kernel
  have hwell : (Call.run joinedKeys).WellScoped 9 :=
    Graph.wellScoped_of_scoped (by decide +kernel) 9
  have hw := hb.fits
  have hscoped := hwell.conditionsScoped hw
  have hcolumns : ((Compiler.new .default).compile (Call.run joinedKeys) 9).1.toOption.map
      (·.columns) = some [some "id_x", some "y"] := by decide +kernel
  obtain ⟨s, c', hs, hshown⟩ := exists_of_compile hcolumns
  exact ⟨hb, hschema, hscoped, s, c', hs, hshown, compile_columns_iff hb hschema hscoped hs⟩

/-- The rows of two tables that have a field of the same name. -/
def sharedName : List Call :=
  [.source "" "a" [⟨"id", .int64⟩], .source "" "b" [⟨"id", .int64⟩], .join 0 1 none .inner]

/-- A statement for a join shows the fields of both sides under their own names. -/
theorem columns_sharedName :
    (Call.run sharedName).schemaOf 2 = .ok ⟨[⟨"id_x", .int64⟩, ⟨"id_y", .int64⟩]⟩ ∧
    ∃ s c', (Compiler.new .default).compile (Call.run sharedName) 2 = (.ok s, c') ∧
      s.columns = [some "id", some "id"] :=
  ⟨by decide +kernel, exists_of_compile (by decide +kernel)⟩

end Compile

end PlanSql

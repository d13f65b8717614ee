import PlanSql.Proofs.Compile.Effects

/-!
# How columns are named

A field of a collection is named by a field of something visible, found by going through the sides
of joins and the inputs of filters, slices and sorts. While the sides of joins become visible one
after the other, a collection all of whose parts are visible keeps being named by the same fields.
So a column that was compiled for the condition of a join would, if it were compiled again later on
the level, be named by the same field.
-/

namespace PlanSql

variable {careful : Prop} {job : Job}

variable {g : Graph} {id : NodeId}

/-- The node is a join. -/
def Graph.IsJoin (g : Graph) (id : NodeId) : Prop := ∃ left right predicate how fields shape,
  g.node? id = some ⟨.join left right predicate how fields, shape⟩

theorem Graph.not_isJoin {kind : Kind} {shape : Shape} (hn : g.node? id = some ⟨kind, shape⟩)
    (hk : ∀ left right predicate how fields, kind ≠ .join left right predicate how fields) :
    ¬ g.IsJoin id := by
  rintro ⟨left, right, predicate, how, fields, shape', hn'⟩
  obtain ⟨hkind, _⟩ := Node.mk.inj (Option.some.inj (hn.symm.trans hn'))
  exact hk _ _ _ _ _ hkind

/-- The node is the column `source` of `collection`, with type and names `t`. -/
structure Graph.IsColumn (g : Graph) (id collection : NodeId) (t : Typed) (source : String) :
    Prop where
  node : ∃ n, g.node? id = some n ∧ n.kind = .column collection ∧ n.typed? = some t
  source : t.sourceName = some source

/-- A value reads another one, outside of subqueries. -/
inductive Graph.Cites (g : Graph) : NodeId → NodeId → Prop
  | refl {v : NodeId} : Cites g v v
  | step {v x y : NodeId} {n : Node} {slot : Slot} : g.node? v = some n →
    (slot, x) ∈ n.kind.operands → slot ≠ .subquery → g.isCollection x = false → Cites g x y →
    Cites g v y

/-- A collection is a part of the tree of joins that another one is. -/
inductive Graph.Part (g : Graph) : NodeId → NodeId → Prop
  | refl {id : NodeId} : Part g id id
  | left {id left right x : NodeId} {predicate : Option NodeId} {how : JoinKind}
    {fields : List JoinField} {shape : Shape} :
    g.node? id = some ⟨.join left right predicate how fields, shape⟩ → Part g left x → Part g id x
  | right {id left right x : NodeId} {predicate : Option NodeId} {how : JoinKind}
    {fields : List JoinField} {shape : Shape} :
    g.node? id = some ⟨.join left right predicate how fields, shape⟩ → Part g right x → Part g id x

/-- A join below `root` has the condition `predicate`. -/
structure Graph.JoinOn (g : Graph) (root id predicate : NodeId) : Prop where
  reach : g.Reach root id
  node : ∃ left right how fields shape,
    g.node? id = some ⟨.join left right (some predicate) how fields, shape⟩

/-- The conditions of joins below `root` are computed from the parts of the joins. -/
def Graph.ConditionsScoped (g : Graph) (root : NodeId) : Prop :=
  ∀ id predicate, g.JoinOn root id predicate → g.ReadsFrom (g.Part id) predicate

theorem Graph.WellScoped.conditionsScoped {root : NodeId} (h : g.WellScoped root)
    (hw : g.WellFormed careful) : g.ConditionsScoped root := by
  rintro id predicate ⟨hreach, left, right, how, fields, shape, hn⟩
  obtain ⟨schema, rfl⟩ : ∃ schema, shape = .collection schema := hw.shape hn
  have hmem : (.predicate, predicate) ∈
    (Kind.join left right (some predicate) how fields).operands := by
    simp [Kind.operands, Operand.perhaps, Operand.many]
  have hvalue := hw.operand_value hn hmem rfl (by simp)
  refine ((h id _ hreach hn).values rfl _ _ hmem hvalue).mono fun x hx => ?_
  have hside : x = left ∨ x = right := by simpa [Graph.inputs] using hx
  rcases hside with rfl | rfl
  · exact .left hn .refl
  · exact .right hn .refl

theorem Graph.ReadsFrom.column (hw : g.WellFormed careful) {own : NodeId → Prop}
    {v collection : NodeId} {t : Typed} {source : String} (h : g.ReadsFrom own v)
    (hc : g.Cites v id) (hcol : g.IsColumn id collection t source) :
    own collection := by
  induction hc with
  | refl =>
    obtain ⟨n, hn, hkind, ht⟩ := hcol.node
    have hfits := hw.valueFits hn ht
    rw [hkind] at hfits
    obtain ⟨schema, _, _, hschema, _⟩ := hfits
    have hrel : g.IsRelation collection :=
      ⟨schema, Keeps.schemaOf _ (before_extends g _) _ hschema⟩
    have hmem : (.collection, collection) ∈ n.kind.operands := by
      rw [hkind]
      exact .head _
    exact (h.node hn _ _ hmem (by simp)).1 (isCollection_iff.2 hrel)
  | step hn hx hslot hv _ ih => exact ih ((h.node hn _ _ hx hslot).2 hv) hcol

namespace Compile

open PlanSql.Sql

section Resolving

/-- The field of a collection is named by a field of something visible. -/
inductive Resolves (g : Graph) (visible : Visible) : NodeId → String → NodeId → String → Prop
  | here {id : NodeId} {field : String} : (visible.lookup id).isSome →
    Resolves g visible id field id field
  | join {id left right x : NodeId} {predicate : Option NodeId} {how : JoinKind}
    {fields : List JoinField} {shape : Shape} {field name : String} {f : JoinField} :
    visible.lookup id = none → g.node? id = some ⟨.join left right predicate how fields, shape⟩ →
    fields.find? (·.name == field) = some f →
    Resolves g visible (match f.side with | .left => left | .right => right) f.source x name →
    Resolves g visible id field x name
  | through {id input x : NodeId} {n : Node} {field name : String} : visible.lookup id = none →
    g.node? id = some n → n.kind.passThrough? = some input → Resolves g visible input field x name →
    Resolves g visible id field x name

/-- A collection is visible, or it is a join of which both sides are grounded. -/
inductive Grounded (g : Graph) (visible : Visible) : NodeId → Prop
  | seen {id : NodeId} : (visible.lookup id).isSome → Grounded g visible id
  | join {id left right : NodeId} {predicate : Option NodeId} {how : JoinKind}
    {fields : List JoinField} {shape : Shape} :
    g.node? id = some ⟨.join left right predicate how fields, shape⟩ →
    Grounded g visible left → Grounded g visible right → Grounded g visible id

def NoJoins (g : Graph) (visible : Visible) : Prop :=
  ∀ x, (visible.lookup x).isSome → ¬ g.IsJoin x

variable {g : Graph} {visible visible' : Visible} {id x y : NodeId} {field name name' : String}

theorem columnRef_resolves {depth : Nat} {label : Alias}
    (h : columnRef g visible depth id field = .ok (label, name)) :
    ∃ x, Resolves g visible id field x name ∧ visible.lookup x = some label := by
  induction depth generalizing id field with
  | zero => cases h
  | succ depth ih =>
    rw [columnRef] at h
    split at h
    · next found hfound =>
      cases h
      exact ⟨id, .here (by rw [hfound]; rfl), hfound⟩
    · next hnone =>
      obtain ⟨n, hn, h⟩ := bind_ok h
      have hn := Graph.node_eq_ok_iff.1 hn
      obtain ⟨kind, shape⟩ := n
      dsimp only at h
      split at h
      · split at h
        · cases h
        · next f hfind =>
          obtain ⟨x, hx, hlabel⟩ := ih h
          exact ⟨x, .join hnone hn hfind hx, hlabel⟩
      · split at h
        · next input hp =>
          obtain ⟨x, hx, hlabel⟩ := ih h
          exact ⟨x, .through hnone hn hp hx, hlabel⟩
        · cases h

theorem Resolves.seen (h : Resolves g visible id field x name) : (visible.lookup x).isSome := by
  induction h with
  | here hseen => exact hseen
  | join _ _ _ _ ih | through _ _ _ _ ih => exact ih

theorem Resolves.unique (h : Resolves g visible id field x name)
    (h' : Resolves g visible id field y name') : y = x ∧ name' = name := by
  induction h with
  | here hseen =>
    cases h' with
    | here => exact ⟨rfl, rfl⟩
    | join hnone | through hnone => rw [hnone] at hseen; cases hseen
  | join hnone hn hfind _ ih =>
    cases h' with
    | here hseen => rw [hnone] at hseen; cases hseen
    | join _ hn' hfind' hx =>
      obtain ⟨hkind, _⟩ := Node.mk.inj (Option.some.inj (hn.symm.trans hn'))
      cases hkind
      cases hfind.symm.trans hfind'
      exact ih hx
    | through _ hn' hp hx =>
      cases hn.symm.trans hn'
      cases hp
  | through hnone hn hp _ ih =>
    cases h' with
    | here hseen => rw [hnone] at hseen; cases hseen
    | join _ hn' _ _ =>
      cases hn.symm.trans hn'
      cases hp
    | through _ hn' hp' hx =>
      cases hn.symm.trans hn'
      cases hp.symm.trans hp'
      exact ih hx

theorem Grounded.mono (h : Grounded g visible id)
    (hv : ∀ x, (visible.lookup x).isSome → (visible'.lookup x).isSome) :
    Grounded g visible' id := by
  induction h with
  | seen hseen => exact .seen (hv _ hseen)
  | join hn _ _ ihl ihr => exact .join hn ihl ihr

/-- A grounded collection is named by the same fields when more is visible, as long as no join is
visible as a whole. -/
theorem Resolves.mono (h : Resolves g visible id field x name) (hg : Grounded g visible id)
    (hv : ∀ x, (visible.lookup x).isSome → (visible'.lookup x).isSome) (hno : NoJoins g visible') :
    Resolves g visible' id field x name := by
  induction h with
  | here hseen => exact .here (hv _ hseen)
  | join hnone hn hfind _ ih =>
    have hnone' : visible'.lookup _ = none := Option.not_isSome_iff_eq_none.1 fun hseen =>
      hno _ hseen ⟨_, _, _, _, _, _, hn⟩
    refine .join hnone' hn hfind (ih ?_)
    cases hg with
    | seen hseen => rw [hnone] at hseen; cases hseen
    | join hn' hl hr =>
      obtain ⟨hkind, _⟩ := Node.mk.inj (Option.some.inj (hn.symm.trans hn'))
      cases hkind
      split
      · exact hl
      · exact hr
  | through hnone hn hp _ _ =>
    cases hg with
    | seen hseen => rw [hnone] at hseen; cases hseen
    | join hn' _ _ =>
      cases hn.symm.trans hn'
      cases hp

end Resolving

section Revealing

variable {v v' : Visible} {x : NodeId}

/-- A table expression for a collection, with the collections that it makes visible. -/
inductive Reveals (g : Graph) : Source → NodeId → Visible → Prop
  | table {id : NodeId} {stored : Table} {schema : Schema} {label : Alias} :
    g.node? id = some ⟨.source stored, .collection schema⟩ →
    Reveals g (.table stored label) id [(id, label)]
  | union {id left right : NodeId} {distinct : Bool} {schema : Schema}
    {leftLevel rightLevel : LevelId} {label : Alias} :
    g.node? id = some ⟨.union left right distinct, .collection schema⟩ →
    Reveals g (.union leftLevel rightLevel label) id [(id, label)]
  | derived {id : NodeId} {kind : Kind} {schema : Schema} {level : LevelId} {label : Alias} :
    g.node? id = some ⟨kind, .collection schema⟩ → kind.isWrapped = true →
    Reveals g (.derived level label) id [(id, label)]
  | join {id left right : NodeId} {predicate : Option NodeId} {how : JoinKind}
    {fields : List JoinField} {schema : Schema} {leftSource rightSource : Source}
    {on : Option Expr} {leftVisible rightVisible : Visible} :
    g.node? id = some ⟨.join left right predicate how fields, .collection schema⟩ →
    Reveals g leftSource left leftVisible → Reveals g rightSource right rightVisible →
    Reveals g (.join leftSource how rightSource on) id (leftVisible ++ rightVisible)

variable {g : Graph} {source : Source} {id : NodeId} {visible : Visible}

theorem lookup_append_isSome :
    ((v ++ v').lookup x).isSome ↔ (v.lookup x).isSome ∨ (v'.lookup x).isSome := by
  rw [List.lookup_append, Option.isSome_or, Bool.or_eq_true]

/-- What becomes visible hides nothing. -/
theorem lookup_revealing_isSome :
    ((v.reverse ++ v').lookup x).isSome ↔ (v.lookup x).isSome ∨ (v'.lookup x).isSome := by
  rw [lookup_append_isSome]
  simp only [lookup_isSome_iff, List.mem_reverse]

theorem noJoins_append (h : NoJoins g v) (h' : NoJoins g v') : NoJoins g (v ++ v') :=
  fun x hx => (lookup_append_isSome.1 hx).elim (h x) (h' x)

theorem noJoins_singleton {label : Alias} (h : ¬ g.IsJoin id) : NoJoins g [(id, label)] := by
  intro x hx
  obtain ⟨l, hmem⟩ := lookup_isSome_iff.1 hx
  obtain ⟨rfl, _⟩ := Prod.mk.inj (List.mem_singleton.1 hmem)
  exact h

theorem Reveals.noJoins (h : Reveals g source id visible) : NoJoins g visible := by
  induction h with
  | table hn | union hn => exact noJoins_singleton (Graph.not_isJoin hn (by simp))
  | derived hn hk =>
    refine noJoins_singleton (Graph.not_isJoin hn ?_)
    rintro left right predicate how fields rfl
    cases hk
  | join _ _ _ ihl ihr => exact noJoins_append ihl ihr

/-- What a table expression makes visible is enough to name all fields of its collection. -/
theorem Reveals.grounded (h : Reveals g source id visible) : Grounded g visible id := by
  induction h with
  | table | union | derived => exact .seen (by simp)
  | join hn _ _ ihl ihr =>
    apply Grounded.join hn
    · exact ihl.mono fun x hx => lookup_append_isSome.2 (.inl hx)
    · exact ihr.mono fun x hx => lookup_append_isSome.2 (.inr hx)

/-- It is enough to name all fields of the parts of the collection as well. -/
theorem Reveals.grounded_part (h : Reveals g source id visible) (hx : g.Part id x) :
    Grounded g visible x := by
  induction hx generalizing source visible with
  | refl => exact h.grounded
  | left hn _ ih =>
    cases h with
    | join hn' hl _ =>
      cases hn.symm.trans hn'
      exact (ih hl).mono fun x hx => lookup_append_isSome.2 (.inl hx)
    | table hn' | union hn' => cases hn.symm.trans hn'
    | derived hn' hk =>
      cases hn.symm.trans hn'
      cases hk
  | right hn _ ih =>
    cases h with
    | join hn' _ hr =>
      cases hn.symm.trans hn'
      exact (ih hr).mono fun x hx => lookup_append_isSome.2 (.inr hx)
    | table hn' | union hn' => cases hn.symm.trans hn'
    | derived hn' hk =>
      cases hn.symm.trans hn'
      cases hk

theorem Reveals.asSide {ahead : JoinAhead} (h : Reveals g ahead.source id visible) :
    Reveals g ahead.asSide id visible := by
  obtain ⟨source, on, v⟩ := ahead
  cases h with
  | table hn => exact .table hn
  | union hn => exact .union hn
  | derived hn hk => exact .derived hn hk
  | join hn hl hr => exact .join hn hl hr

end Revealing

section Kept

variable {g : Graph} {s s' : State} {id : NodeId} {env : Env}

/-- Joins and unions that are kept are table expressions for their collections. -/
structure Kept (g : Graph) (s : State) : Prop where
  join : ∀ {id ahead}, s.joins.lookup id = some ahead → Reveals g ahead.source id ahead.visible
  union : ∀ {id ahead}, s.unions.lookup id = some ahead → Reveals g ahead.1 id [(id, ahead.2)]

theorem Kept.congr (h : Kept g s) (hj : s'.joins = s.joins) (hu : s'.unions = s.unions) :
    Kept g s' := ⟨hj ▸ h.join, hu ▸ h.union⟩

theorem Kept.keepJoin {ahead : JoinAhead} (h : Kept g s)
    (ha : Reveals g ahead.source id ahead.visible) :
    Kept g { s with joins := (id, ahead) :: s.joins } := by
  refine ⟨fun {x other} hx => ?_, h.union⟩
  rcases lookup_cons_eq_some hx with ⟨rfl, rfl⟩ | hx
  · exact ha
  · exact h.join hx

theorem Kept.keepUnion {ahead : Source × Alias} (h : Kept g s)
    (ha : Reveals g ahead.1 id [(id, ahead.2)]) :
    Kept g { s with unions := (id, ahead) :: s.unions } := by
  refine ⟨h.join, fun {x other} hx => ?_⟩
  rcases lookup_cons_eq_some hx with ⟨rfl, rfl⟩ | hx
  · exact ha
  · exact h.union hx

theorem Kept.start (g : Graph) (functions : FunctionNames) : Kept g (.start functions) :=
  ⟨fun h => (by cases h), fun h => (by cases h)⟩

/-- What a job keeps are table expressions for their collections, and so is a side of a join. -/
def Job.Keeps (g : Graph) : Job → State → State → Prop
  | .side id source visible, s, s' => Kept g s → Kept g s' ∧ Reveals g source id visible
  | _, s, s' => Kept g s → Kept g s'

theorem Prepared.kept {input : NodeId} {clause : Clause} {reads : Bool}
    (h : Prepared env input clause reads s s') (hs : Kept env.graph s) : Kept env.graph s' := by
  cases h with
  | same _ _ => exact hs
  | wrapped _ _ _ _ => exact hs.congr rfl rfl

theorem Runs.keeps {top : NodeId} (h : Runs env top job s s') :
    job.Keeps env.graph s s' := by
  induction h with
  | visited | noOperands | noValues | noKeys | noItems | provideNothing | discovered | unionKept
  | subqueryKept | joinKept => exact fun hs => hs
  | cached | source | provideFunction => exact fun hs => hs.congr rfl rfl
  | selection _ _ _ _ _ ih => exact fun hs => (ih hs).congr rfl rfl
  | filter _ _ _ _ hprep _ _ _ _ ih ih' => exact fun hs => (ih' (hprep.kept (ih hs))).congr rfl rfl
  | groupBy _ _ _ _ hprep _ _ _ _ _ _ ih ih' ih'' ihp =>
    intro hs
    have hitems := ih'' (ih' (hprep.kept (ih hs)))
    exact (ihp (hitems.congr rfl rfl)).congr rfl rfl
  | sort _ _ _ _ hprep _ _ ih ih' => exact fun hs => (ih' (hprep.kept (ih hs))).congr rfl rfl
  | slice _ _ _ _ _ hprep _ ih => exact fun hs => (hprep.kept (ih hs)).congr rfl rfl
  | joined _ _ _ _ _ _ ih | united _ _ _ _ _ ih => exact fun hs => (ih hs).congr rfl rfl
  | value _ _ _ _ _ _ _ _ _ ih ih' => exact fun hs => (ih' (ih hs)).congr rfl rfl
  | skipped _ _ ih => exact ih
  | operand _ _ _ _ ih ih' | valueThen _ _ _ _ ih ih' | keyThen _ _ _ _ ih ih'
  | itemThen _ _ _ _ _ _ _ ih ih' => exact fun hs => ih' (ih hs)
  | provideWindow _ ih | provideSubquery _ _ ih => exact ih
  | select _ hprep _ _ ih ih' => exact fun hs => (ih' (hprep.kept (ih hs))).congr rfl rfl
  | level _ _ _ _ _ ih ih' | levelOfValue _ _ _ _ _ _ ih ih' =>
    exact fun hs => (ih' (ih (hs.congr rfl rfl))).congr rfl rfl
  | discoverJoin _ _ _ _ ih ih' | discoverUnion _ _ _ _ ih ih'
  | discoverSubquery _ _ _ _ _ ih ih' =>
    exact fun hs => ih' (ih hs)
  | unionNew _ _ hn _ _ _ ih ih' =>
    exact fun hs => ((ih' (ih hs)).keepUnion (.union hn)).congr rfl rfl
  | subqueryNew _ _ _ _ _ ih => exact fun hs => (ih hs).congr rfl rfl
  | sideTable _ hn _ => exact fun hs => ⟨hs.congr rfl rfl, .table hn⟩
  | sideJoin _ hjoin ih =>
    intro hs
    exact ⟨ih hs, ((ih hs).join hjoin.lookup_join).asSide⟩
  | sideUnion _ hunion ih =>
    intro hs
    exact ⟨ih hs, (ih hs).union hunion.lookup_union⟩
  | sideLevel _ hn hk _ _ ih => exact fun hs => ⟨(ih hs).congr rfl rfl, .derived hn hk⟩
  | joinNew _ _ hn _ _ _ ih ih' ih'' =>
    intro hs
    have hleft := ih hs
    have hright := ih' hleft.1
    have hon := ih'' (hright.1.congr rfl rfl)
    exact (hon.keepJoin (.join hn hleft.2 hright.2)).congr rfl rfl

end Kept

section Rendering

/-- Values were compiled into the level: a fragment that is new is that of a value in `cites`, and
is the expression of the value with what was there at some point. -/
structure Compiles (env : Env) (cites : NodeId → Prop) (s s' : State) : Prop where
  adds : AddsValues s s'
  rendered : ∀ {x e}, s'.context.fragments.lookup x = some e →
    s.context.fragments.lookup x = some e ∨ cites x ∧ ∃ t n, AddsValues s t ∧ AddsValues t s' ∧
      env.graph.node? x = some n ∧ valueExpr env.graph (t.parts env) x n.kind = .ok e

namespace Compiles

variable {env : Env} {cites cites' : NodeId → Prop} {s s' s'' : State}

theorem refl (s : State) : Compiles env cites s s := ⟨.refl s, .inl⟩

theorem trans (h : Compiles env cites s s') (h' : Compiles env cites s' s'') :
    Compiles env cites s s'' := by
  refine ⟨h.adds.trans h'.adds, fun hx => ?_⟩
  rcases h'.rendered hx with hx | ⟨hcites, t, n, ht, ht', hn, he⟩
  · rcases h.rendered hx with hx | ⟨hcites, t, n, ht, ht', hn, he⟩
    · exact .inl hx
    · exact .inr ⟨hcites, t, n, ht, ht'.trans h'.adds, hn, he⟩
  · exact .inr ⟨hcites, t, n, h.adds.trans ht, ht', hn, he⟩

theorem mono (h : Compiles env cites s s') (hsub : ∀ x, cites x → cites' x) :
    Compiles env cites' s s' :=
  ⟨h.adds, fun hx => (h.rendered hx).imp_right fun hnew => ⟨hsub _ hnew.1, hnew.2⟩⟩

theorem of_adds (h : AddsValues s s') (hf : s'.context.fragments = s.context.fragments) :
    Compiles env cites s s' := by
  refine ⟨h, fun hx => .inl ?_⟩
  rw [hf] at hx
  exact hx

theorem emit {id : NodeId} {n : Node} {e : Expr} (h : Compiles env (env.graph.Cites id) s s')
    (hn : env.graph.node? id = some n) (he : valueExpr env.graph (s'.parts env) id n.kind = .ok e)
    (hnew : s'.context.fragments.lookup id = none) :
    Compiles env (env.graph.Cites id) s ({ s' with
      context := { s'.context with fragments := (id, e) :: s'.context.fragments } }.mark id) := by
  have hadds : AddsValues s' ({ s' with
      context := { s'.context with fragments := (id, e) :: s'.context.fragments } }.mark id) :=
    ⟨rfl, rfl, fun hx => lookup_cons_of_none hnew hx hx⟩
  refine ⟨h.adds.trans hadds, fun {x e'} hx => ?_⟩
  change ((id, e) :: s'.context.fragments).lookup x = some e' at hx
  rcases lookup_cons_eq_some hx with ⟨rfl, rfl⟩ | hx
  · exact .inr ⟨.refl, s', n, h.adds, hadds, hn, he⟩
  · rcases h.rendered hx with hx | ⟨hcites, t, m, ht, ht', hm, he'⟩
    · exact .inl hx
    · exact .inr ⟨hcites, t, m, ht, ht'.trans hadds, hm, he'⟩

end Compiles

/-- A value is one of the job, or one that they read. -/
def Job.Cites (g : Graph) : Job → NodeId → Prop
  | .visit id, x => g.Cites id x
  | .operands os, x => ∃ slot y, (slot, y) ∈ os ∧ slot ≠ .subquery ∧ g.isCollection y = false ∧
    g.Cites y x
  | .values ids _, x | .items ids _, x => ∃ y ∈ ids, g.Cites y x
  | .keys ks _, x => ∃ key ∈ ks, g.isCollection key.expr = false ∧ g.Cites key.expr x
  | .provide _ kind, x => ∃ slot y, (slot, y) ∈ kind.operands ∧ slot ≠ .subquery ∧
    g.isCollection y = false ∧ g.Cites y x
  | _, _ => False

/-- What a job adds are values that it reads. -/
def Job.Compiles (env : Env) : Job → State → State → Prop
  | .visit id, s, s' => env.graph.isCollection id = false →
    Compile.Compiles env (env.graph.Cites id) s s'
  | .operands os, s, s' => Compile.Compiles env (Job.Cites env.graph (.operands os)) s s'
  | .values ids es, s, s' => Compile.Compiles env (Job.Cites env.graph (.values ids es)) s s'
  | .keys ks es, s, s' => Compile.Compiles env (Job.Cites env.graph (.keys ks es)) s s'
  | .items ids is, s, s' => Compile.Compiles env (Job.Cites env.graph (.items ids is)) s s'
  | .provide id kind, s, s' => Compile.Compiles env (Job.Cites env.graph (.provide id kind)) s s'
  | _, _, _ => True

/-- A value that is compiled compiles only what it reads. -/
theorem Runs.compiles {env : Env} {top : NodeId} {s s' : State}
    (h : Runs env top job s s') : job.Compiles env s s' := by
  induction h with
  | visited => exact fun _ => .refl _
  | cached => exact fun _ => .of_adds ⟨rfl, rfl, fun h => h⟩ rfl
  | source _ _ hn | selection _ _ hn | filter _ _ hn | groupBy _ _ hn
  | sort _ _ hn | slice _ _ hn | joined _ _ hn | united _ _ hn =>
    exact elim_of_collection hn
  | value _ _ _ hn _ _ _ he hadd ih ih' =>
    intro _
    have hvisits := ih.mono fun x ⟨slot, y, hy, hslot, hv, hx⟩ =>
      Graph.Cites.step hn (Kind.mem_operands_of_visits hy) hslot hv hx
    have hprovide := ih'.mono fun x ⟨slot, y, hy, hslot, hv, hx⟩ =>
      Graph.Cites.step hn hy hslot hv hx
    rcases Context.addFragment_eq_ok hadd with ⟨hnew, rfl⟩ | ⟨_, rfl⟩
    · exact (hvisits.trans hprovide).emit hn he hnew
    · exact (hvisits.trans hprovide).trans (.of_adds ⟨rfl, rfl, fun h => h⟩ rfl)
  | noOperands | noValues | noKeys | noItems | provideNothing => exact .refl _
  | provideFunction => exact .of_adds ⟨rfl, rfl, fun h => h⟩ rfl
  | skipped _ _ ih =>
    exact ih.mono fun x ⟨slot, y, hy, hrest⟩ => ⟨slot, y, .tail _ hy, hrest⟩
  | operand hslot hv _ _ ih ih' =>
    exact ((ih hv).mono fun x hx => ⟨_, _, .head _, hslot, hv, hx⟩).trans
      (ih'.mono fun x ⟨slot, y, hy, hrest⟩ => ⟨slot, y, .tail _ hy, hrest⟩)
  | valueThen hv _ _ _ ih ih' =>
    exact ((ih hv).mono fun x hx => ⟨_, .head _, hx⟩).trans
      (ih'.mono fun x ⟨y, hy, hx⟩ => ⟨y, .tail _ hy, hx⟩)
  | keyThen hv _ _ _ ih ih' =>
    exact ((ih hv).mono fun x hx => ⟨_, .head _, hv, hx⟩).trans
      (ih'.mono fun x ⟨y, hy, hx⟩ => ⟨y, .tail _ hy, hx⟩)
  | itemThen hv _ _ _ _ _ _ ih ih' =>
    exact ((ih hv).mono fun x hx => ⟨_, .head _, hx⟩).trans
      (ih'.mono fun x ⟨y, hy, hx⟩ => ⟨y, .tail _ hy, hx⟩)
  | provideWindow _ ih =>
    exact ih.mono fun x ⟨key, hkey, hv, hx⟩ =>
      ⟨.orderBy, key.expr, WindowOp.mem_operands_of_orderBy hkey, by simp, hv, hx⟩
  | provideSubquery _ hsub _ =>
    have hsame : Same _ _ := hsub.leaves
    exact .of_adds hsame.adds hsame.fragments
  | _ => trivial

end Rendering

section Growing

variable {env : Env} {input top : NodeId}

def Named (g : Graph) (visible : Visible) (id : NodeId) (e : Expr) : Prop :=
  ∀ collection t source, g.IsColumn id collection t source → ∃ x field label,
    Resolves g visible collection source x field ∧
      e = converted (.column label field) t.sourceDtype t.dtype

/-- Compiled again now, every column would be named by the field by which it is named. -/
def Faithful (g : Graph) (s : State) : Prop :=
  ∀ ⦃id e⦄, s.context.fragments.lookup id = some e → Named g s.visible id e

/-- While joins become visible, no join is visible as a whole, and columns are compiled only of
collections that are grounded. -/
structure Growing (g : Graph) (s : State) : Prop where
  noJoins : NoJoins g s.visible
  named : Faithful g s
  grounded : ∀ {id e}, s.context.fragments.lookup id = some e →
    ∀ collection t source, g.IsColumn id collection t source → Grounded g s.visible collection

variable {g : Graph} {s s' : State}

section Columns

variable {p : Parts} {id collection : NodeId} {n : Node} {t : Typed} {source field : String}
variable {label : Alias} (hcol : g.IsColumn id collection t source) (hn : g.node? id = some n)

include hcol hn

theorem valueExpr_column_eq : valueExpr g p id n.kind = (p.column collection source >>= fun r =>
    .ok (converted (.column r.1 r.2) t.sourceDtype t.dtype)) := by
  obtain ⟨m, hm, hkind, ht⟩ := hcol.node
  cases hn.symm.trans hm
  simp only [hkind, valueExpr, columnExpr, Graph.node_eq_ok_iff.2 hn, bind, Except.bind, ht,
    hcol.source]
  rfl

theorem valueExpr_column {e : Expr} (he : valueExpr g p id n.kind = .ok e) :
    ∃ label field, p.column collection source = .ok (label, field) ∧
      e = converted (.column label field) t.sourceDtype t.dtype := by
  rw [valueExpr_column_eq hcol hn] at he
  obtain ⟨⟨label, field⟩, hp, he⟩ := bind_ok he
  exact ⟨label, field, hp, (Except.ok.inj he).symm⟩

theorem valueExpr_of_column (hp : p.column collection source = .ok (label, field)) :
    valueExpr g p id n.kind = .ok (converted (.column label field) t.sourceDtype t.dtype) := by
  rw [valueExpr_column_eq hcol hn, hp]
  rfl

end Columns

theorem Compiles.faithful {cites : NodeId → Prop} (h : Compiles env cites s s')
    (hs : Faithful env.graph s) : Faithful env.graph s' := by
  intro id e hx collection t source hcol
  rw [h.adds.visible]
  rcases h.rendered hx with hx | ⟨_, u, n, hu, _, hn, he⟩
  · exact hs hx collection t source hcol
  · obtain ⟨label, field, hp, rfl⟩ := valueExpr_column hcol hn he
    obtain ⟨x, hres, _⟩ := columnRef_resolves hp
    rw [hu.visible] at hres
    exact ⟨x, field, label, hres, rfl⟩

theorem Compiles.growing {cites : NodeId → Prop} (h : Compiles env cites s s')
    (hs : Growing env.graph s)
    (hcites : ∀ id collection t source, cites id → env.graph.IsColumn id collection t source →
      Grounded env.graph s.visible collection) : Growing env.graph s' := by
  refine ⟨?_, h.faithful hs.named, fun hx collection t source hcol => ?_⟩
  · rw [h.adds.visible]
    exact hs.noJoins
  · rw [h.adds.visible]
    rcases h.rendered hx with hx | ⟨hcite, _⟩
    · exact hs.grounded hx collection t source hcol
    · exact hcites _ collection t source hcite hcol

theorem Growing.congr (h : Growing g s) (hv : s'.visible = s.visible)
    (hf : s'.context.fragments = s.context.fragments) : Growing g s' := by
  refine ⟨hv ▸ h.noJoins, fun _ _ hx => ?_, fun hx => ?_⟩
  · rw [hf] at hx
    rw [hv]
    exact h.named hx
  · rw [hf] at hx
    rw [hv]
    exact h.grounded hx

theorem Same.growing (h : Same s s') (hs : Growing g s) : Growing g s' :=
  hs.congr h.visible h.fragments

/-- At the start of a level nothing is visible. -/
theorem Growing.inner (g : Graph) (s : State) : Growing g s.inner :=
  ⟨fun _ h => (by cases h), fun _ _ h => (by cases h), fun h => (by cases h)⟩

theorem Growing.reveal {visible : Visible} (h : Growing g s) (hno : NoJoins g visible) :
    Growing g (s.revealing visible) := by
  have hno' : NoJoins g (visible.reverse ++ s.visible) :=
    fun x hx => (lookup_revealing_isSome.1 hx).elim (hno x) (h.noJoins x)
  have hmono : ∀ x, (s.visible.lookup x).isSome →
    ((visible.reverse ++ s.visible).lookup x).isSome :=
    fun x hx => lookup_revealing_isSome.2 (.inr hx)
  refine ⟨hno', fun _ _ hx collection t source hcol => ?_, fun hx collection t source hcol => ?_⟩
  · obtain ⟨x, field, label, hres, he⟩ := h.named hx collection t source hcol
    exact ⟨x, field, label, hres.mono (h.grounded hx collection t source hcol) hmono hno', he⟩
  · exact (h.grounded hx collection t source hcol).mono hmono

theorem Prepared.faithful {clause : Clause} {reads : Bool}
    (h : Prepared env input clause reads s s') (hs : Faithful env.graph s) :
    Faithful env.graph s' := by
  cases h with
  | same _ _ => exact hs
  | wrapped _ _ _ _ =>
    intro id e hx
    cases hx

/-- What a job does to the names of columns. -/
def Job.Growing (g : Graph) : Job → State → State → Prop
  | .visit id, s, s' => g.isCollection id = true → Kept g s → Compile.Growing g s → Faithful g s'
  | .select _, s, s' => Kept g s → Compile.Growing g s → Faithful g s'
  | .discover _, s, s' | .side _ _ _, s, s' | .join _ _, s, s' =>
    Kept g s → Compile.Growing g s → Compile.Growing g s'
  | _, _, _ => True

/-- What an operator reads was compiled while joins became visible, so columns are named as they
would be now. -/
theorem Runs.input_faithful (h : Runs env top (.visit input) s s')
    (ih : Job.Growing env.graph (.visit input) s s') (hk : Kept env.graph s)
    (hs : Growing env.graph s) : Faithful env.graph s' := by
  cases hc : env.graph.isCollection input with
  | true => exact ih hc hk hs
  | false => exact (h.compiles hc).faithful hs.named

theorem Runs.growing (hw : env.graph.WellFormed careful)
    (hscoped : env.graph.ConditionsScoped top) (h : Runs env top job s s') :
    job.Growing env.graph s s' := by
  induction h with
  | visited | cached => exact fun _ _ hs => hs.named
  | source _ _ hn _ _ =>
    intro _ _ hs
    apply Growing.named
    exact (hs.reveal (noJoins_singleton (Graph.not_isJoin hn (by simp)))).congr rfl rfl
  | selection _ _ _ _ _ ih => exact fun _ hk hs => ih hk hs
  | filter _ _ _ hrun hprep hv hp _ _ ih _ =>
    intro _ hk hs
    exact (hp.compiles hv).faithful (hprep.faithful (hrun.input_faithful ih hk hs))
  | groupBy _ _ _ hrun hprep hkeys hitems _ _ hp _ ih _ _ _ =>
    intro _ hk hs
    have hfaithful := hitems.compiles.faithful (hkeys.compiles.faithful
      (hprep.faithful (hrun.input_faithful ih hk hs)))
    exact hp.compiles.faithful hfaithful
  | sort _ _ _ hrun hprep hkeys _ ih _ =>
    intro _ hk hs
    exact hkeys.compiles.faithful (hprep.faithful (hrun.input_faithful ih hk hs))
  | slice _ _ _ _ hrun hprep _ ih =>
    intro _ hk hs
    exact hprep.faithful (hrun.input_faithful ih hk hs)
  | joined _ _ _ hjoin _ _ ih =>
    intro _ hk hs
    apply Growing.named
    exact ((ih hk hs).reveal ((hjoin.keeps hk).join hjoin.lookup_join).noJoins).congr rfl rfl
  | united _ _ hn hunion _ _ =>
    intro _ hk hs
    have hsame : Same _ _ := hunion.leaves
    have hno := Graph.not_isJoin hn (by simp)
    apply Growing.named
    exact ((hsame.growing hs).reveal (noJoins_singleton hno)).congr rfl rfl
  | value _ _ _ hn ht _ _ _ _ _ _ =>
    intro hc
    rw [not_isCollection_of_typed hn ht] at hc
    cases hc
  | select hrun hprep hitems _ ih _ =>
    intro hk hs
    exact hitems.compiles.faithful (hprep.faithful (hrun.input_faithful ih hk hs))
  | discovered => exact fun _ hs => hs
  | discoverJoin _ _ hjoin _ ih ih' => exact fun hk hs => ih' (hjoin.keeps hk) (ih hk hs)
  | discoverUnion _ _ hunion _ _ ih' =>
    intro hk hs
    have hsame : Same _ _ := hunion.leaves
    exact ih' (hunion.keeps hk) (hsame.growing hs)
  | discoverSubquery _ _ _ hsub _ _ ih' =>
    intro hk hs
    have hsame : Same _ _ := hsub.leaves
    exact ih' (hsub.keeps hk) (hsame.growing hs)
  | sideTable _ hn _ =>
    intro _ hs
    exact (hs.reveal (noJoins_singleton (Graph.not_isJoin hn (by simp)))).congr rfl rfl
  | sideJoin _ _ ih => exact ih
  | sideUnion _ hunion _ =>
    intro _ hs
    have hsame : Same _ _ := hunion.leaves
    exact hsame.growing hs
  | sideLevel _ _ _ hlevel _ _ =>
    intro _ hs
    have hsame : Same _ _ := hlevel.leaves
    exact (hsame.growing hs).congr rfl rfl
  | joinKept => exact fun _ hs => hs
  | joinNew _ hreach hn hleft hright hp ih ih' _ =>
    intro hk hs
    have hl := hleft.keeps hk
    have hr := hright.keeps hl.1
    have hgrown := (ih' hl.1 (ih hk hs)).reveal (noJoins_append hl.2.noJoins hr.2.noJoins)
    refine (hp.compiles.growing hgrown fun id collection t source hcites hcol => ?_).congr rfl rfl
    obtain ⟨y, hy, hcite⟩ := hcites
    obtain rfl := Option.mem_toList.1 hy
    -- The column is one of a part of the join, and all parts have just become visible.
    have hpart := (hscoped _ _ ⟨hreach, _, _, _, _, _, hn⟩).column hw hcite hcol
    have hreveals : Reveals env.graph (.join _ _ _ none) _ _ := .join hn hl.2 hr.2
    exact (hreveals.grounded_part hpart).mono fun x hx => lookup_revealing_isSome.2 (.inl hx)
  | _ => trivial

end Growing

end Compile

end PlanSql

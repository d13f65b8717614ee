import Mathlib.Data.List.Forall2
import PlanSql.Proofs.Compile.Naming
import PlanSql.Proofs.Statements.Labels

/-!
# When a column keeps its name

The expression of a column is kept for the rest of the level. While joins are compiled ahead, more
and more becomes visible, and a derived table that is a side of two joins gets a label in each of
them. So a column that is read again may by then have another name, unless all parts of its
collection have one place in the statement. If the conditions of two joins share only columns of
such collections, then a column that the condition of a join reads is always named as it would be if
it were compiled again.
-/

namespace PlanSql

namespace Graph

/-- The collection whose rows a place of a statement holds. -/
def PlaceOf (g : Graph) (root : NodeId) : TablePlace → NodeId → Prop
  | .table id, x => id = x ∧ ∃ stored schema, g.node? x = some ⟨.source stored, .collection schema⟩
  | .union id, x => id = x ∧ ∃ left right distinct schema,
    g.node? x = some ⟨.union left right distinct, .collection schema⟩
  | .side join side, x => g.Reach root join ∧
    (∃ left right predicate how fields shape,
      g.node? join = some ⟨.join left right predicate how fields, shape⟩ ∧
      x = match side with | .left => left | .right => right) ∧
    ∃ kind schema, g.node? x = some ⟨kind, .collection schema⟩ ∧ kind.isWrapped = true

/-- Each part of the collection has at most one place in a statement for `root`. -/
def Steady (g : Graph) (root id : NodeId) : Prop :=
  ∀ x, g.Part id x → ∀ p p', g.PlaceOf root p x → g.PlaceOf root p' x → p = p'

/-- A column of a collection that is not steady, read by the condition of a join. -/
def Volatile (g : Graph) (root id : NodeId) : Prop :=
  ∃ collection t source k predicate, g.IsColumn id collection t source ∧
    ¬ g.Steady root collection ∧ g.JoinOn root k predicate ∧ g.Cites predicate id

/-- The conditions of two joins below `root` share no volatile column. -/
def ConditionsApart (g : Graph) (root : NodeId) : Prop :=
  ∀ id k k' predicate predicate', g.Volatile root id → g.JoinOn root k predicate →
    g.JoinOn root k' predicate' → g.Cites predicate id → g.Cites predicate' id → k = k'

theorem LaysOut.length_eq {g : Graph} {spot : Option (NodeId × JoinSide)} {source : Sql.Source}
    {id : NodeId} {places : List TablePlace} (h : g.LaysOut spot source id places) :
    places.length = source.labels.length := by
  induction h with
  | table | union | derived => rfl
  | join _ _ _ ihl ihr => rw [List.length_append, Sql.Source.labels, List.length_append, ihl, ihr]

end Graph

namespace Compile

open PlanSql.Sql

section Owned

variable {source : Source} {visible : Visible}

/-- The label belongs to a place of the collection. -/
def Shared.Owned (g : Graph) (top : NodeId) (s : Shared) (x : NodeId) (label : Alias) : Prop :=
  ∃ p, g.PlaceOf top p x ∧ s.Owns g p label

variable {g : Graph} {top id x : NodeId} {s s' : Shared} {label label' : Alias}

theorem Shared.Owned.grows (h : s.Owned g top x label) (hgrows : s.Grows s') :
    s'.Owned g top x label := h.imp fun _ hp => ⟨hp.1, hp.2.grows hgrows⟩

theorem Shared.Owned.unique {c : NodeId} (h : s.Owned g top x label) (h' : s.Owned g top x label')
    (hc : g.Steady top c) (hx : g.Part c x) : label = label' := by
  obtain ⟨p, hp, ho⟩ := h
  obtain ⟨p', hp', ho'⟩ := h'
  obtain rfl := hc x hx p p' hp hp'
  exact ho.unique ho'

theorem Reveals.owned (h : Reveals g source id visible) {spot : Option (NodeId × JoinSide)}
    {places : List TablePlace} (hlaid : g.LaysOut spot source id places)
    (howns : List.Forall₂ (s.Owns g) places source.labels) (hreach : g.Reach top id)
    (hspot : ∀ k side, spot = some (k, side) → g.Reach top k ∧
      ∃ left right predicate how fields shape,
        g.node? k = some ⟨.join left right predicate how fields, shape⟩ ∧
        id = match side with | .left => left | .right => right) :
    ∀ x label, (x, label) ∈ visible → s.Owned g top x label := by
  induction h generalizing spot places with
  | table hn =>
    intro x label hx
    obtain ⟨rfl, rfl⟩ := Prod.mk.inj (List.mem_singleton.1 hx)
    cases hlaid with
    | table =>
      cases howns with
      | cons ho _ => exact ⟨.table x, ⟨rfl, _, _, hn⟩, ho⟩
  | union hn =>
    intro x label hx
    obtain ⟨rfl, rfl⟩ := Prod.mk.inj (List.mem_singleton.1 hx)
    cases hlaid with
    | union =>
      cases howns with
      | cons ho _ => exact ⟨.union x, ⟨rfl, _, _, _, _, hn⟩, ho⟩
  | derived hn hk =>
    intro x label hx
    cases List.mem_singleton.1 hx
    cases hlaid with
    | @derived k _ side =>
      obtain ⟨hk', hside⟩ := hspot k side rfl
      cases howns with
      | cons ho _ => exact ⟨.side k side, ⟨hk', hside, _, _, hn, hk⟩, ho⟩
  | @join id left right predicate how fields schema leftSource rightSource on _ _ hn _ _ ihl ihr =>
    cases hlaid with
    | @join _ _ _ _ _ _ _ _ _ _ _ leftPlaces rightPlaces hn' hl hr =>
      cases hn.symm.trans hn'
      have howns' := List.forall₂_take_append _ _ _ howns
      have howns'' := List.forall₂_drop_append _ _ _ howns
      rw [← hl.length_eq, List.take_left] at howns'
      rw [← hl.length_eq, List.drop_left] at howns''
      have hleft : g.Reach top left := .step hreach
        (by simp [Graph.children, hn, Node.children, Kind.operands])
      have hright : g.Reach top right :=
        .step hreach (by simp [Graph.children, hn, Node.children, Kind.operands])
      intro x label hx
      rcases List.mem_append.1 hx with hx | hx
      · refine ihl hl howns' hleft (fun k side hspot' => ?_) x label hx
        cases hspot'
        exact ⟨hreach, _, _, _, _, _, _, hn, rfl⟩
      · refine ihr hr howns'' hright (fun k side hspot' => ?_) x label hx
        cases hspot'
        exact ⟨hreach, _, _, _, _, _, _, hn, rfl⟩

/-- Whatever a kept table expression makes visible has the label of one of its places. -/
theorem Shared.Stands.owned (h : s.Stands g top source id) (hr : Reveals g source id visible) :
    ∀ x label, (x, label) ∈ visible → s.Owned g top x label := by
  obtain ⟨hreach, places, hlaid, howns⟩ := h
  exact hr.owned hlaid howns hreach fun k side hspot => by cases hspot

end Owned

section Settled

variable {id : NodeId} {shared : Shared} {visible : Visible} {env : Env}

/-- What a column is named by is visible under the label by which it is named. -/
def Current (g : Graph) (visible : Visible) (id : NodeId) (e : Expr) : Prop :=
  ∀ collection t source, g.IsColumn id collection t source → ∃ x field label,
    Resolves g visible collection source x field ∧ visible.lookup x = some label ∧
      e = converted (.column label field) t.sourceDtype t.dtype

/-- While joins are compiled ahead, what is visible has the label of one of its places, a column has
been named by such a label, and a column of a collection that is not steady is one that the
condition of a join that is kept reads. What is kept and who has which label is given by
`shared`. -/
structure Settled (g : Graph) (top : NodeId) (shared : Shared) (s : State) : Prop where
  visible : ∀ {x label}, s.visible.lookup x = some label → shared.Owned g top x label
  named : ∀ {id e}, s.context.fragments.lookup id = some e → ∀ collection t source,
    g.IsColumn id collection t source → ∃ x field label,
      Resolves g s.visible collection source x field ∧ shared.Owned g top x label ∧
        e = converted (.column label field) t.sourceDtype t.dtype
  apart : ∀ {id e}, s.context.fragments.lookup id = some e → ∀ collection t source,
    g.IsColumn id collection t source → g.Steady top collection ∨
      ∃ k predicate, g.JoinOn top k predicate ∧ g.Cites predicate id ∧
        (shared.joins.lookup k).isSome

/-- The state of a level on which joins are being compiled ahead. -/
structure Revealing (g : Graph) (top : NodeId) (s : State) : Prop where
  kept : Kept g s
  placed : s.Placed g top
  growing : Growing g s
  settled : Settled g top s.shared s

variable {g : Graph} {top : NodeId} {s s' : State}

theorem Resolves.part {x : NodeId} {field name : String} (h : Resolves g visible id field x name)
    (hg : Grounded g visible id) : g.Part id x := by
  induction h with
  | here => exact .refl
  | join hnone hn _ _ ih =>
    cases hg with
    | seen hseen => rw [hnone] at hseen; cases hseen
    | join hn' hl hr =>
      cases hn.symm.trans hn'
      split at ih
      · exact .left hn (ih hl)
      · exact .right hn (ih hr)
  | through hnone hn hp _ _ =>
    cases hg with
    | seen hseen => rw [hnone] at hseen; cases hseen
    | join hn' _ _ =>
      cases hn.symm.trans hn'
      cases hp

theorem Revealing.inner (hk : Kept g s) (hp : s.Placed g top) : Revealing g top s.inner :=
  ⟨hk.congr rfl rfl, ⟨hp.shared, fun _ hsource => (by cases hsource)⟩, .inner g s,
    fun h => (by cases h), fun h => (by cases h), fun h => (by cases h)⟩

/-- Labels stay when more of them are given out. -/
theorem Settled.grows {shared' : Shared} (h : Settled g top shared s)
    (hgrows : shared.Grows shared') : Settled g top shared' s := by
  constructor
  · exact fun hx => (h.visible hx).grows hgrows
  · intro id e he collection t source hcol
    obtain ⟨x, field, label, hres, howned, he⟩ := h.named he collection t source hcol
    exact ⟨x, field, label, hres, howned.grows hgrows, he⟩
  · intro id e he collection t source hcol
    rcases h.apart he collection t source hcol with hsteady | ⟨k, p, hk, hp, hkept⟩
    · exact .inl hsteady
    · obtain ⟨ahead, hkept⟩ := Option.isSome_iff_exists.1 hkept
      exact .inr ⟨k, p, hk, hp, Option.isSome_iff_exists.2 ⟨ahead, hgrows.join hkept⟩⟩

theorem Settled.congr (h : Settled g top shared s) (hv : s'.visible = s.visible)
    (hf : s'.context.fragments = s.context.fragments) : Settled g top shared s' := by
  constructor
  · rw [hv]
    exact h.visible
  · rw [hv, hf]
    exact h.named
  · rw [hf]
    exact h.apart

theorem Settled.reveal (h : Settled g top shared s) (hs : Growing g s) (hno : NoJoins g visible)
    (howned : ∀ x label, (x, label) ∈ visible → shared.Owned g top x label) :
    Settled g top shared (s.revealing visible) := by
  have hno' : NoJoins g (visible.reverse ++ s.visible) :=
    fun x hx => (lookup_revealing_isSome.1 hx).elim (hno x) (hs.noJoins x)
  refine ⟨fun {x label} hx => ?_, fun {id e} he collection t source hcol => ?_, h.apart⟩
  · change (visible.reverse ++ s.visible).lookup x = some label at hx
    rw [List.lookup_append, Option.or_eq_some_iff] at hx
    rcases hx with hx | ⟨_, hx⟩
    · exact howned x label (List.mem_reverse.1 (mem_of_lookup hx))
    · exact h.visible hx
  · obtain ⟨x, field, label, hres, hlabel, rfl⟩ := h.named he collection t source hcol
    have hgrounded := hs.grounded he collection t source hcol
    exact ⟨x, field, label, hres.mono hgrounded
      (fun y hy => lookup_revealing_isSome.2 (.inr hy)) hno', hlabel, rfl⟩

theorem Compiles.settled {cites : NodeId → Prop} (h : Compiles env cites s s')
    (hs : Settled env.graph top shared s)
    (hcites : ∀ id collection t source, cites id → env.graph.IsColumn id collection t source →
      ∃ k predicate, env.graph.JoinOn top k predicate ∧ env.graph.Cites predicate id ∧
        (shared.joins.lookup k).isSome) : Settled env.graph top shared s' := by
  constructor
  · rw [h.adds.visible]
    exact hs.visible
  · intro id e he collection t source hcol
    rw [h.adds.visible]
    rcases h.rendered he with he | ⟨_, u, n, hu, _, hn, he⟩
    · exact hs.named he collection t source hcol
    · obtain ⟨label, field, hp, rfl⟩ := valueExpr_column hcol hn he
      obtain ⟨x, hres, hlabel⟩ := columnRef_resolves hp
      rw [hu.visible] at hres hlabel
      exact ⟨x, field, label, hres, hs.visible hlabel, rfl⟩
  · intro id e he collection t source hcol
    rcases h.rendered he with he | ⟨hcite, _⟩
    · exact hs.apart he collection t source hcol
    · exact .inr (hcites id collection t source hcite hcol)

/-- What stays on the level stays settled. -/
theorem Revealing.same (h : Revealing g top s) (hsame : Same s s') (hk : Kept g s')
    (hp : s'.Placed g top) (hgrows : s.shared.Grows s'.shared) : Revealing g top s' :=
  ⟨hk, hp, hsame.growing h.growing, (h.settled.grows hgrows).congr hsame.visible hsame.fragments⟩

theorem Revealing.owned_join (h : Revealing g top s) {ahead : JoinAhead}
    (ha : s.joins.lookup id = some ahead) :
    ∀ x label, (x, label) ∈ ahead.visible → s.shared.Owned g top x label :=
  (h.placed.shared.join ha).owned (h.kept.join ha)

/-- What a job does while joins are compiled ahead. What a side makes visible has its labels, except
that the label of a side that is read as a derived table is left to the join. -/
def Job.Reveals (g : Graph) (top : NodeId) : Job → State → State → Prop
  | .discover _, s, s' | .join _ _, s, s' => Revealing g top s → Revealing g top s'
  | .side id _ visible, s, s' => Revealing g top s → Revealing g top s' ∧
    ∀ x label, (x, label) ∈ visible → s'.shared.Owned g top x label ∨
      x = id ∧ ∃ kind schema, g.node? x = some ⟨kind, .collection schema⟩ ∧ kind.isWrapped = true
  | _, _, _ => True

theorem Runs.reveals {careful : Prop} {job : Job} (hw : env.graph.WellFormed careful)
    (hord : env.graph.Ordered) (hscoped : env.graph.ConditionsScoped top)
    (h : Runs env top job s s') : job.Reveals env.graph top s s' := by
  induction h with
  | discovered => exact fun hs => hs
  | discoverJoin _ _ _ _ ih ih' => exact fun hs => ih' (ih hs)
  | discoverUnion _ _ hunion _ _ ih' =>
    exact fun hs => ih' (hs.same hunion.leaves (hunion.keeps hs.kept)
      (hunion.keepsPlaced hord hs.placed).1 hunion.grows)
  | discoverSubquery _ _ _ hsub _ _ ih' =>
    exact fun hs => ih' (hs.same hsub.leaves (hsub.keeps hs.kept)
      (hsub.keepsPlaced hord hs.placed).1 hsub.grows)
  | @sideTable _ stored _ label aliases s hreach hn hl =>
    intro hs
    have hwhole : Runs env top _ _ _ := .sideTable hreach hn hl
    have howned := (stands_table hreach hn hl).owned (.table hn)
    have hno : NoJoins env.graph [(_, label)] := noJoins_singleton (Graph.not_isJoin hn (by simp))
    have hsettled : Settled env.graph top (s.withAliases aliases).shared (s.withAliases aliases) :=
      (hs.settled.grows (.registering (Aliases.register_grows hl))).congr rfl rfl
    have hplaced := (hwhole.keepsPlaced hord).1 hs.placed
    refine ⟨⟨(hwhole.keeps hs.kept).1, hplaced.1, hwhole.growing hw hscoped hs.kept hs.growing, ?_⟩,
      fun x label hx => .inl (howned x label hx)⟩
    exact hsettled.reveal (hs.growing.congr rfl rfl) hno howned
  | sideJoin _ hjoin ih =>
    exact fun hs => ⟨ih hs, fun x label hx =>
      .inl ((ih hs).owned_join hjoin.lookup_join x label hx)⟩
  | sideUnion _ hunion _ =>
    intro hs
    have hs' := hs.same hunion.leaves (hunion.keeps hs.kept) (hunion.keepsPlaced hord hs.placed).1
      hunion.grows
    exact ⟨hs', fun x label hx => .inl ((hs'.placed.shared.union hunion.lookup_union).owned
      (hs'.kept.union hunion.lookup_union) x label hx)⟩
  | sideLevel hreach hn hk hlevel hl _ =>
    intro hs
    have hwhole : Runs env top _ _ _ := .sideLevel hreach hn hk hlevel hl
    have hplaced := (hwhole.keepsPlaced hord).1 hs.placed
    have hsame : Same _ _ := hlevel.leaves
    refine ⟨⟨(hwhole.keeps hs.kept).1, hplaced.1, hwhole.growing hw hscoped hs.kept hs.growing, ?_⟩,
      fun x label hx => ?_⟩
    · exact (hs.settled.grows hwhole.grows).congr hsame.visible hsame.fragments
    · obtain ⟨rfl, _⟩ := Prod.mk.inj (List.mem_singleton.1 hx)
      exact .inr ⟨rfl, _, _, hn, hk⟩
  | joinKept => exact fun hs => hs
  | @joinNew _ _ _ _ how _ _ leftSource rightSource leftVisible rightVisible es
    _ _ _ _ hnew hreach hn
      hleft hright hp ih ih' _ =>
    intro hs
    have hs₂ := (ih' (ih hs).1).1
    have hwhole := Runs.joinNew hnew hreach hn hleft hright hp
    have hkept := hwhole.keeps hs.kept
    have hplaced := (hwhole.keepsPlaced hord hs.placed).1
    have hreveals := hkept.join List.lookup_cons_self
    have howned := (hplaced.shared.join List.lookup_cons_self).owned hreveals
    have hnone := hleft.unkept_of_sides hord hn hright hnew
    have hgrows := hp.grows.trans (.keepJoin (hp.unkept_of_condition hord hn hnone)
      ⟨.join leftSource how rightSource none, es.head?, leftVisible ++ rightVisible⟩)
    have hsettled := (hs₂.settled.grows hgrows).reveal hs₂.growing hreveals.noJoins howned
    refine ⟨hkept, hplaced, hwhole.growing hw hscoped hs.kept hs.growing, ?_⟩
    refine (hp.compiles.settled hsettled fun id collection t source hcites _ => ?_).congr rfl rfl
    obtain ⟨y, hy, hcite⟩ := hcites
    obtain rfl := Option.mem_toList.1 hy
    exact ⟨_, _, ⟨hreach, _, _, _, _, _, hn⟩, hcite, by simp⟩
  | _ => trivial

end Settled

section Current

variable {g : Graph} {top : NodeId} {s s' : State} {P : NodeId → Prop} {env : Env} {input : NodeId}

/-- The columns in `P` that are kept are named as they would be if they were compiled again. -/
def CurrentOn (g : Graph) (P : NodeId → Prop) (s : State) : Prop :=
  ∀ ⦃id e⦄, s.context.fragments.lookup id = some e → P id → Current g s.visible id e

theorem Compiles.currentOn {cites : NodeId → Prop} (h : Compiles env cites s s')
    (hs : CurrentOn env.graph P s) : CurrentOn env.graph P s' := by
  intro id e he hid
  rw [h.adds.visible]
  rcases h.rendered he with he | ⟨_, u, n, hu, _, hn, he⟩
  · exact hs he hid
  · intro collection t source hcol
    obtain ⟨label, field, hp, rfl⟩ := valueExpr_column hcol hn he
    obtain ⟨x, hres, hlabel⟩ := columnRef_resolves hp
    rw [hu.visible] at hres hlabel
    exact ⟨x, field, label, hres, hlabel, rfl⟩

section Condition

variable {env : Env} {careful : Prop} {id left right : NodeId} {predicate : Option NodeId}
  {how : JoinKind} {fields : List JoinField} {schema : Schema} {leftSource rightSource : Source}
  {leftVisible rightVisible : Visible} {s₁ s₂ : State}
variable {x c : NodeId} {label : Alias}

/-- A derived table that is a side of a join has no label as that side before the join is kept. -/
theorem not_owns_side {shared : Shared} (side : JoinSide) (hnone : shared.joins.lookup id = none)
    (hreach : g.Reach top id)
    (hn : g.node? id = some ⟨.join left right predicate how fields, .collection schema⟩)
    (hx : x = match side with | .left => left | .right => right)
    (hwrapped : ∃ kind schema, g.node? x = some ⟨kind, .collection schema⟩ ∧ kind.isWrapped = true)
    (hc : g.Steady top c) (hpart : g.Part c x) : ¬ shared.Owned g top x label := by
  rintro ⟨p, hp, howns⟩
  have hplace : g.PlaceOf top (.side id side) x := ⟨hreach, ⟨_, _, _, _, _, _, hn, hx⟩, hwrapped⟩
  obtain rfl := hc x hpart p _ hp hplace
  obtain ⟨ahead, level, hkept, _⟩ := howns
  rw [hnone] at hkept
  cases hkept

variable (hw : env.graph.WellFormed careful) (hord : env.graph.Ordered)
  (hscoped : env.graph.ConditionsScoped top) (hapart : env.graph.ConditionsApart top)
  (hnew : s.joins.lookup id = none) (hreach : env.graph.Reach top id)
  (hn : env.graph.node? id = some ⟨.join left right predicate how fields, .collection schema⟩)
  (hleft : Runs env top (.side left leftSource leftVisible) s s₁)
  (hright : Runs env top (.side right rightSource rightVisible) s₁ s₂)
  (hs : Revealing env.graph top s)

include hw hord hscoped hnew hreach hn hleft hright hs

/-- Making the sides of a join visible gives no part of a steady collection another label. -/
theorem Runs.same_label {label' : Alias} (hc : env.graph.Steady top c)
    (hpart : env.graph.Part c x) (howned : s₂.shared.Owned env.graph top x label)
    (hlabel : (s₂.revealing (leftVisible ++ rightVisible)).visible.lookup x = some label') :
    label = label' := by
  have hl := hleft.reveals hw hord hscoped hs
  have hr := hright.reveals hw hord hscoped hl.1
  have hnone := hleft.unkept_of_sides hord hn hright hnew
  change ((leftVisible ++ rightVisible).reverse ++ s₂.visible).lookup x = some label' at hlabel
  rw [List.lookup_append, Option.or_eq_some_iff] at hlabel
  rcases hlabel with hlabel | ⟨_, hlabel⟩
  · rcases List.mem_append.1 (List.mem_reverse.1 (mem_of_lookup hlabel)) with hmem | hmem
    · rcases hl.2 x label' hmem with howned' | ⟨hx, hwrapped⟩
      · exact howned.unique (howned'.grows hright.grows) hc hpart
      · exact absurd howned (not_owns_side .left hnone hreach hn hx hwrapped hc hpart)
    · rcases hr.2 x label' hmem with howned' | ⟨hx, hwrapped⟩
      · exact howned.unique howned' hc hpart
      · exact absurd howned (not_owns_side .right hnone hreach hn hx hwrapped hc hpart)
  · exact howned.unique (hr.1.settled.visible hlabel) hc hpart

include hapart

/-- When the condition of a join is compiled, the columns of it that are kept have the names that
they would get now. -/
theorem Runs.condition_current :
    CurrentOn env.graph (fun x => ∃ y ∈ predicate.toList, env.graph.Cites y x)
      (s₂.revealing (leftVisible ++ rightVisible)) := by
  have hl := hleft.reveals hw hord hscoped hs
  have hr := hright.reveals hw hord hscoped hl.1
  have hnone := hleft.unkept_of_sides hord hn hright hnew
  have hkeeps := hleft.keeps hs.kept
  have hno := noJoins_append hkeeps.2.noJoins (hright.keeps hkeeps.1).2.noJoins
  rintro x e he ⟨v, hv, hcites⟩ collection t source hcol
  obtain rfl := Option.mem_toList.1 hv
  have hon : env.graph.JoinOn top id v := ⟨hreach, _, _, _, _, _, hn⟩
  -- A column that is not steady is read by the condition of one join only, which would be kept.
  have hsteady : env.graph.Steady top collection := by
    rcases hr.1.settled.apart he collection t source hcol with hsteady | ⟨k, p, hk, hp, hkept⟩
    · exact hsteady
    · apply Classical.byContradiction
      intro hvolatile
      obtain rfl := hapart x k id p v
        ⟨collection, t, source, k, p, hcol, hvolatile, hk, hp⟩ hk hon hp hcites
      change (s₂.joins.lookup k).isSome at hkept
      rw [hnone] at hkept
      cases hkept
  obtain ⟨y, field, label, hres, howned, rfl⟩ := hr.1.settled.named he collection t source hcol
  have hgrounded := hr.1.growing.grounded he collection t source hcol
  have hres' := hres.mono hgrounded (fun z hz => lookup_revealing_isSome.2 (.inr hz))
    (hr.1.growing.reveal hno).noJoins
  obtain ⟨label', hlabel'⟩ := Option.isSome_iff_exists.1 hres'.seen
  obtain rfl := hleft.same_label hw hord hscoped hnew hreach hn hright hs hsteady
    (hres.part hgrounded) howned hlabel'
  exact ⟨y, field, label, hres', hlabel', rfl⟩

end Condition

end Current

end Compile

end PlanSql

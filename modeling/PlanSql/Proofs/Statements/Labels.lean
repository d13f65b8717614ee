import Mathlib.Data.List.Nodup
import PlanSql.Proofs.Compile.Effects

/-!
# Labels of table expressions

A level selects from one derived table, or from a tree of joins over stored tables, unions and
derived tables. What has a label of its own is a place: a stored table and a union have one each in
the whole statement, and a side of a join that is read as a derived table has one for the join. Two
parts of a tree of joins have the same label exactly if they are the same place, so the labels of a
level are different exactly if no place occurs twice in its tree.
-/

namespace PlanSql

open PlanSql.Sql

/-- The labels of a table expression, from left to right. -/
def Sql.Source.labels : Source → List Alias
  | .table _ label | .derived _ label | .union _ _ label => [label]
  | .join left _ right _ => left.labels ++ right.labels

/-- What has a label of its own. -/
inductive TablePlace where
  | table (id : NodeId)
  | union (id : NodeId)
  | side (join : NodeId) (side : JoinSide)
  deriving DecidableEq

/-- A table expression stands for a collection, with the places of its parts from left to right. A
derived table stands only for a side of a join, which is then given. -/
inductive Graph.LaysOut (g : Graph) :
    Option (NodeId × JoinSide) → Source → NodeId → List TablePlace → Prop
  | table {spot : Option (NodeId × JoinSide)} {id : NodeId} {stored : Table} {schema : Schema}
    {label : Alias} : g.node? id = some ⟨.source stored, .collection schema⟩ →
    LaysOut g spot (.table stored label) id [.table id]
  | union {spot : Option (NodeId × JoinSide)} {id left right : NodeId} {distinct : Bool}
    {schema : Schema} {leftLevel rightLevel : LevelId} {label : Alias} :
    g.node? id = some ⟨.union left right distinct, .collection schema⟩ →
    LaysOut g spot (.union leftLevel rightLevel label) id [.union id]
  | derived {join id : NodeId} {side : JoinSide} {kind : Kind} {schema : Schema} {level : LevelId}
    {label : Alias} : g.node? id = some ⟨kind, .collection schema⟩ → kind.isWrapped = true →
    LaysOut g (some (join, side)) (.derived level label) id [.side join side]
  | join {spot : Option (NodeId × JoinSide)} {id left right : NodeId} {predicate : Option NodeId}
    {how : JoinKind} {fields : List JoinField} {schema : Schema} {leftSource rightSource : Source}
    {on : Option Expr} {leftPlaces rightPlaces : List TablePlace} :
    g.node? id = some ⟨.join left right predicate how fields, .collection schema⟩ →
    LaysOut g (some (id, .left)) leftSource left leftPlaces →
    LaysOut g (some (id, .right)) rightSource right rightPlaces →
    LaysOut g spot (.join leftSource how rightSource on) id (leftPlaces ++ rightPlaces)

/-- What stands for a collection of itself stands for it as a side of a join too. -/
theorem Graph.LaysOut.as {g : Graph} {source : Source} {id : NodeId} {places : List TablePlace}
    (h : g.LaysOut none source id places) (spot : Option (NodeId × JoinSide)) :
    g.LaysOut spot source id places := by
  cases h with
  | table hn => exact .table hn
  | union hn => exact .union hn
  | join hn hl hr => exact .join hn hl hr

namespace Compile

variable {g : Graph} {id top : NodeId} {s s' : State} {schema : Schema} {label : Alias}
  {aliases : Aliases}
variable {ahead : JoinAhead} {places : List TablePlace} {env : Env} {left right : NodeId}

theorem JoinAhead.laysOut_asSide (h : g.LaysOut none ahead.source id places) :
    g.LaysOut none ahead.asSide id places := by
  obtain ⟨source, on, visible⟩ := ahead
  cases h with
  | table hn => exact .table hn
  | union hn => exact .union hn
  | join hn hl hr => exact .join hn hl hr

theorem JoinAhead.labels_asSide (ahead : JoinAhead) :
    ahead.asSide.labels = ahead.source.labels := by
  obtain ⟨source, on, visible⟩ := ahead
  cases source <;> rfl

def sideOf? : JoinSide → Source → Option Source
  | .left, .join left _ _ _ => some left
  | .right, .join _ _ right _ => some right
  | _, _ => none

/-- The label that a place has been given. -/
def Shared.Owns (g : Graph) (s : Shared) : TablePlace → Alias → Prop
  | .table id, label => (∃ stored schema, g.node? id = some ⟨.source stored, .collection schema⟩) ∧
    s.aliases.find? id = some label
  | .union id, label => ∃ source, s.unions.lookup id = some (source, label)
  | .side id side, label => ∃ ahead level, s.joins.lookup id = some ahead ∧
    sideOf? side ahead.source = some (.derived level label)

/-- Different places have different labels, all of them given out. -/
structure Shared.Labelled (g : Graph) (s : Shared) : Prop where
  injective : ∀ {p p' : TablePlace} {label : Alias}, s.Owns g p label → s.Owns g p' label → p = p'
  bounded : ∀ {p : TablePlace} {label : Alias}, s.Owns g p label → label ≤ s.aliases.count

/-- The table expression stands for a collection below `top`, and each label is that of its
place. -/
def Shared.Stands (g : Graph) (top : NodeId) (s : Shared) (source : Source) (id : NodeId) : Prop :=
  g.Reach top id ∧ ∃ places, g.LaysOut none source id places ∧
    List.Forall₂ (s.Owns g) places source.labels

/-- A level may select from the table expression: it is one derived table, or stands for a
collection. -/
def Shared.Selects (g : Graph) (top : NodeId) (s : Shared) (source : Source) : Prop :=
  (∃ level label, source = .derived level label) ∨ ∃ id, s.Stands g top source id

/-- Labels tell places apart, and everything that is kept stands for its collection. -/
structure Shared.Placed (g : Graph) (top : NodeId) (s : Shared) : Prop extends s.Labelled g where
  join : ∀ {id ahead}, s.joins.lookup id = some ahead → s.Stands g top ahead.source id
  union : ∀ {id ahead}, s.unions.lookup id = some ahead → s.Stands g top ahead.1 id
  level : ∀ q ∈ s.levels, s.Selects g top q.source

/-- The state is sound, and so is what its level selects from. -/
structure State.Placed (g : Graph) (top : NodeId) (s : State) : Prop where
  shared : s.shared.Placed g top
  source : ∀ source, s.clauses.source = some source → s.shared.Selects g top source

/-- A place that gets a label gets a new one. -/
structure Shared.Fresh (g : Graph) (s s' : Shared) : Prop where
  count : s.aliases.count ≤ s'.aliases.count
  owns : ∀ {p : TablePlace} {label : Alias}, s'.Owns g p label →
    s.Owns g p label ∨ s.aliases.count < label

section Owners

variable {g : Graph} {top : NodeId} {s s' s'' : Shared} {p : TablePlace} {label : Alias}
variable {source : Source}

theorem Shared.Owns.unique {label' : Alias} (h : s.Owns g p label) (h' : s.Owns g p label') :
    label = label' := by
  cases p with
  | table id => exact Option.some.inj (h.2.symm.trans h'.2)
  | union id =>
    obtain ⟨source, hs⟩ := h
    obtain ⟨source', hs'⟩ := h'
    exact (Prod.mk.inj (Option.some.inj (hs.symm.trans hs'))).2
  | side id side =>
    obtain ⟨ahead, level, ha, hs⟩ := h
    obtain ⟨ahead', level', ha', hs'⟩ := h'
    cases ha.symm.trans ha'
    exact (Source.derived.inj (Option.some.inj (hs.symm.trans hs'))).2

theorem Shared.Owns.grows (h : s.Owns g p label) (hgrows : s.Grows s') : s'.Owns g p label := by
  cases p with
  | table id => exact ⟨h.1, hgrows.find h.2⟩
  | union id => exact h.imp fun _ hs => hgrows.union hs
  | side id side =>
    obtain ⟨ahead, level, ha, hs⟩ := h
    exact ⟨ahead, level, hgrows.join ha, hs⟩

theorem Shared.Stands.grows (h : s.Stands g top source id) (hgrows : s.Grows s') :
    s'.Stands g top source id := by
  obtain ⟨hreach, places, hlaid, howns⟩ := h
  exact ⟨hreach, places, hlaid, howns.imp fun _ _ ho => ho.grows hgrows⟩

theorem Shared.Selects.grows (h : s.Selects g top source) (hgrows : s.Grows s') :
    s'.Selects g top source := h.imp_right fun ⟨id, hid⟩ => ⟨id, hid.grows hgrows⟩

theorem Shared.Fresh.refl (g : Graph) (s : Shared) : s.Fresh g s := ⟨Nat.le_refl _, .inl⟩

theorem Shared.Fresh.trans (h : s.Fresh g s') (h' : s'.Fresh g s'') : s.Fresh g s'' := by
  refine ⟨Nat.le_trans h.count h'.count, fun ho => ?_⟩
  rcases h'.owns ho with ho | hlt
  · exact h.owns ho
  · exact .inr (Nat.lt_of_le_of_lt h.count hlt)

/-- Giving labels to places keeps them apart, if the labels are new and themselves apart. -/
theorem Shared.Labelled.add (New : TablePlace → Alias → Prop) (h : s.Labelled g)
    (hcount : s.aliases.count ≤ s'.aliases.count)
    (howns : ∀ {p label}, s'.Owns g p label → s.Owns g p label ∨ New p label)
    (hnew : ∀ {p label}, New p label → label ≤ s'.aliases.count ∧ ∀ p', ¬ s.Owns g p' label)
    (hinj : ∀ {p p' label}, New p label → New p' label → p = p') : s'.Labelled g := by
  constructor
  · intro p p' label ho ho'
    rcases howns ho with hold | hnew'
    · rcases howns ho' with hold' | hnew''
      · exact h.injective hold hold'
      · exact absurd hold ((hnew hnew'').2 p)
    · rcases howns ho' with hold' | hnew''
      · exact absurd hold' ((hnew hnew').2 p')
      · exact hinj hnew' hnew''
  · intro p label ho
    rcases howns ho with hold | hnew'
    · exact Nat.le_trans (h.bounded hold) hcount
    · exact (hnew hnew').1

/-- A label above all that were given out belongs to nothing. -/
theorem Shared.Labelled.free (h : s.Labelled g) (hlt : s.aliases.count < label) :
    ¬ s.Owns g p label := fun ho => absurd (h.bounded ho) (Nat.not_le_of_lt hlt)

/-- What is kept still stands for its collection when there is more of it. -/
theorem Shared.Placed.grows (h : s.Placed g top) (hgrows : s.Grows s') (hl : s'.Labelled g)
    (hjoin : ∀ {id ahead}, s'.joins.lookup id = some ahead →
      s.joins.lookup id = some ahead ∨ s'.Stands g top ahead.source id)
    (hunion : ∀ {id ahead}, s'.unions.lookup id = some ahead →
      s.unions.lookup id = some ahead ∨ s'.Stands g top ahead.1 id)
    (hlevel : ∀ q ∈ s'.levels, q ∈ s.levels ∨ s'.Selects g top q.source) : s'.Placed g top where
  toLabelled := hl
  join := fun hx => (hjoin hx).elim (fun hx => (h.join hx).grows hgrows) id
  union := fun hx => (hunion hx).elim (fun hx => (h.union hx).grows hgrows) id
  level := fun q hq => (hlevel q hq).elim (fun hq => (h.level q hq).grows hgrows) id

/-- A level that selects from something that stands for a collection may be finished. -/
theorem Shared.Placed.push {q : Query} (h : s.Placed g top) (hq : s.Selects g top q.source) :
    Shared.Placed g top { s with levels := s.levels.push q } := by
  refine h.grows (.push s q) ⟨h.injective, h.bounded⟩ .inl .inl fun q' hq' => ?_
  rcases Array.mem_push.1 hq' with hq' | rfl
  · exact .inl hq'
  · exact .inr (hq.grows (.push s q'))

end Owners

section Aliases

variable {g : Graph} {top id : NodeId} {s : Shared} {label : Alias} {aliases : Aliases}
variable {a : Aliases} {p : TablePlace}

/-- A label given to a collection for the first time is the next one. -/
theorem Aliases.find?_push (a : Aliases) (id : NodeId) {x : NodeId} {l : Alias}
    (h : (⟨(id, a.count + 1) :: a.ofCollection, a.count + 1⟩ : Aliases).find? x = some l) :
    a.find? x = some l ∨ x = id ∧ l = a.count + 1 := by
  by_cases hx : x = id
  · subst hx
    simp only [find?, List.lookup_cons_self, Option.some.injEq] at h
    exact .inr ⟨rfl, h.symm⟩
  · rw [find?, List.lookup_cons, beq_false_of_ne hx] at h
    exact .inl h

theorem Aliases.register_cases (h : a.register id = (label, aliases)) :
    a.find? id = some label ∧ aliases = a ∨
      aliases = ⟨(id, label) :: a.ofCollection, label⟩ ∧ label = a.count + 1 := by
  unfold register at h
  split at h
  · next hfound =>
    cases h
    exact .inl ⟨hfound, rfl⟩
  · cases h
    exact .inr ⟨rfl, rfl⟩

/-- An alias for a derived table is the next one, and at most the collection it stands for gets
it. -/
theorem Aliases.registerDerived_cases (h : a.registerDerived id = (label, aliases)) :
    label = a.count + 1 ∧ aliases.count = a.count + 1 ∧
      ∀ {x l}, aliases.find? x = some l → a.find? x = some l ∨ x = id ∧ l = label := by
  unfold registerDerived at h
  split at h
  · cases h
    exact ⟨rfl, rfl, .inl⟩
  · next hnone =>
    rcases register_cases h with ⟨hfound, _⟩ | ⟨rfl, rfl⟩
    · rw [hfound] at hnone
      exact absurd rfl hnone
    · exact ⟨rfl, rfl, a.find?_push id⟩

/-- With other aliases, only stored tables may have other labels. -/
theorem Shared.owns_withAliases (h : Shared.Owns g { s with aliases := aliases } p label) :
    s.Owns g p label ∨ ∃ x stored schema, p = .table x ∧
      g.node? x = some ⟨.source stored, .collection schema⟩ ∧ aliases.find? x = some label := by
  cases p with
  | table x =>
    obtain ⟨⟨stored, schema, hn⟩, hfind⟩ := h
    exact .inr ⟨x, stored, schema, rfl, hn, hfind⟩
  | union x | side x side => exact .inl h

theorem Shared.owns_of_entry {label' : Alias}
    (hfind : ∀ {x l}, aliases.find? x = some l → s.aliases.find? x = some l ∨ x = id ∧ l = label)
    (h : Shared.Owns g { s with aliases := aliases } p label') :
    s.Owns g p label' ∨ (p = .table id ∧ label' = label) ∧
      ∃ stored schema, g.node? id = some ⟨.source stored, .collection schema⟩ := by
  rcases owns_withAliases h with hold | ⟨x, stored, schema, rfl, hn, hx⟩
  · exact .inl hold
  · rcases hfind hx with hx | ⟨rfl, rfl⟩
    · exact .inl ⟨⟨stored, schema, hn⟩, hx⟩
    · exact .inr ⟨⟨rfl, rfl⟩, stored, schema, hn⟩

/-- The next label may be given to a collection. -/
theorem Shared.Placed.entry (h : s.Placed g top) (hcount : aliases.count = s.aliases.count + 1)
    (hfind : ∀ {x l}, aliases.find? x = some l →
      s.aliases.find? x = some l ∨ x = id ∧ l = s.aliases.count + 1)
    (hgrows : s.Grows { s with aliases := aliases }) :
    Shared.Placed g top { s with aliases := aliases } ∧
      Shared.Fresh g s { s with aliases := aliases } := by
  constructor
  · refine h.grows hgrows ?_ .inl .inl fun q hq => .inl hq
    refine Labelled.add (fun p l => p = .table id ∧ l = s.aliases.count + 1) h.toLabelled
      (hcount ▸ Nat.le_succ _) (fun ho => (owns_of_entry hfind ho).imp_right And.left) ?_ ?_
    · rintro p l ⟨rfl, rfl⟩
      exact ⟨Nat.le_of_eq hcount.symm, fun p' => h.free (Nat.lt_succ_self _)⟩
    · rintro p p' l ⟨rfl, _⟩ ⟨rfl, _⟩
      rfl
  · refine ⟨hcount ▸ Nat.le_succ _, fun ho => ?_⟩
    rcases owns_of_entry hfind ho with hold | ⟨⟨_, rfl⟩, _⟩
    · exact .inl hold
    · exact .inr (Nat.lt_succ_self _)

theorem Shared.Placed.register (h : s.Placed g top)
    (hl : s.aliases.register id = (label, aliases)) :
    Shared.Placed g top { s with aliases := aliases } ∧
      Shared.Fresh g s { s with aliases := aliases } := by
  rcases Aliases.register_cases hl with ⟨_, rfl⟩ | ⟨rfl, rfl⟩
  · exact ⟨h, .refl g s⟩
  · exact h.entry rfl (s.aliases.find?_push id) (.registering (Aliases.register_grows hl))

theorem Shared.Placed.registerDerived (h : s.Placed g top)
    (hl : s.aliases.registerDerived id = (label, aliases)) :
    Shared.Placed g top { s with aliases := aliases } ∧
      Shared.Fresh g s { s with aliases := aliases } := by
  obtain ⟨rfl, hcount, hfind⟩ := Aliases.registerDerived_cases hl
  exact h.entry hcount hfind (.registering (Aliases.registerDerived_grows hl))

theorem Shared.Placed.unowned (h : s.Placed g top)
    (hl : s.aliases.registerDerived id = (label, aliases))
    (hno : ∀ stored schema, g.node? id ≠ some ⟨.source stored, .collection schema⟩)
    (p : TablePlace) :
    ¬ Shared.Owns g { s with aliases := aliases } p label := by
  obtain ⟨rfl, _, hfind⟩ := Aliases.registerDerived_cases hl
  intro ho
  rcases owns_of_entry hfind ho with hold | ⟨_, stored, schema, hn⟩
  · exact h.free (Nat.lt_succ_self _) hold
  · exact hno stored schema hn

end Aliases

/-- From a state in which labels tell places apart, the run ends in such a state, and the labels
that it gave are new. -/
def KeepsPlaced (g : Graph) (top : NodeId) (s s' : State) : Prop :=
  s.Placed g top → s'.Placed g top ∧ s.shared.Fresh g s'.shared

namespace KeepsPlaced

variable {g : Graph} {top : NodeId} {s s' s'' : State}

theorem refl (g : Graph) (top : NodeId) (s : State) : KeepsPlaced g top s s :=
  fun h => ⟨h, .refl g s.shared⟩

theorem trans (h : KeepsPlaced g top s s') (h' : KeepsPlaced g top s' s'') :
    KeepsPlaced g top s s'' := by
  intro hs
  have hs' := h hs
  have hs'' := h' hs'.1
  exact ⟨hs''.1, hs'.2.trans hs''.2⟩

/-- Only what the levels share and what the level selects from counts. -/
theorem of_end (h : KeepsPlaced g top s s') (hshared : s''.shared = s'.shared)
    (hsource : s''.clauses.source = s'.clauses.source) : KeepsPlaced g top s s'' := by
  intro hs
  have hs' := h hs
  constructor
  · constructor
    · rw [hshared]
      exact hs'.1.shared
    · rw [hshared, hsource]
      exact hs'.1.source
  · rw [hshared]
    exact hs'.2

theorem of_start (h : KeepsPlaced g top s' s'') (hshared : s'.shared = s.shared)
    (hsource : s'.clauses.source = s.clauses.source) : KeepsPlaced g top s s'' :=
  ((refl g top s).of_end hshared hsource).trans h

theorem select {source : Source} (h : KeepsPlaced g top s s') (hshared : s''.shared = s'.shared)
    (hsource : s''.clauses.source = some source)
    (hselects : s'.shared.Placed g top → s'.shared.Selects g top source) :
    KeepsPlaced g top s s'' := by
  intro hs
  have hs' := h hs
  constructor
  · constructor
    · rw [hshared]
      exact hs'.1.shared
    · intro source' hsource'
      rw [hshared]
      cases hsource.symm.trans hsource'
      exact hselects hs'.1.shared
  · rw [hshared]
    exact hs'.2

end KeepsPlaced

/-- Wrapping a level keeps it as a level that selects from the same. -/
theorem Prepared.keepsPlaced {input : NodeId} {clause : Clause} {reads : Bool}
    (h : Prepared env input clause reads s s') :
    KeepsPlaced env.graph top s s' := by
  cases h with
  | same _ _ => exact .refl _ top s
  | @wrapped q label aliases lifted hq hl _ _ =>
    intro hs
    have hlabel := hs.shared.registerDerived hl
    have hgrows : s.shared.Grows { s.shared with aliases := aliases } :=
      .registering (Aliases.registerDerived_grows hl)
    have hselects := (hs.source _ (close_eq_ok hq).1).grows hgrows
    constructor
    · constructor
      · exact hlabel.1.push hselects
      · intro source hsource
        exact .inl ⟨s.levels.size, label, (Option.some.inj hsource).symm⟩
    · exact ⟨hlabel.2.count, hlabel.2.owns⟩

/-- A side of a join has been laid out: what it makes of the label of a derived table is left to the
join, and that label is new. -/
structure SideLaid (g : Graph) (s s' : Shared) (id : NodeId) (source : Source) : Prop where
  laid : ∀ join side, ∃ places, g.LaysOut (some (join, side)) source id places ∧
    ∀ {t : Shared}, s'.Grows t →
      (∀ {level label}, source = .derived level label → t.Owns g (.side join side) label) →
      List.Forall₂ (t.Owns g) places source.labels
  fresh : ∀ {level label}, source = .derived level label →
    s.aliases.count < label ∧ label ≤ s'.aliases.count ∧ ∀ p, ¬ s'.Owns g p label

theorem Shared.Stands.sideLaid {s s' : Shared} {source : Source} (h : s'.Stands g top source id) :
    SideLaid g s s' id source := by
  obtain ⟨_, places, hlaid, howns⟩ := h
  constructor
  · intro join side
    exact ⟨places, hlaid.as _, fun hgrows _ => howns.imp fun _ _ ho => ho.grows hgrows⟩
  · rintro level label rfl
    cases hlaid

theorem Shared.Stands.asSide {s : Shared} (h : s.Stands g top ahead.source id) :
    s.Stands g top ahead.asSide id := by
  obtain ⟨hreach, places, hlaid, howns⟩ := h
  refine ⟨hreach, places, JoinAhead.laysOut_asSide hlaid, ?_⟩
  rw [JoinAhead.labels_asSide]
  exact howns

theorem Shared.Placed.sideLaid {kind : Kind} {s s' : Shared} {level : LevelId}
    (h : s'.Placed g top) (hfresh : s.Fresh g s')
    (hn : g.node? id = some ⟨kind, .collection schema⟩) (hk : kind.isWrapped = true)
    (hl : s'.aliases.registerDerived id = (label, aliases)) :
    SideLaid g s { s' with aliases := aliases } id (.derived level label) := by
  obtain ⟨hlabel, hcount, _⟩ := Aliases.registerDerived_cases hl
  have hfree := h.unowned hl fun stored schema' hs => by
    rw [hn] at hs
    obtain ⟨rfl, _⟩ := Node.mk.inj (Option.some.inj hs)
    cases hk
  constructor
  · intro join side
    exact ⟨[.side join side], .derived hn hk, fun _ howns => .cons (howns rfl) .nil⟩
  · intro level' label' hs
    obtain ⟨_, rfl⟩ := Source.derived.inj hs
    refine ⟨?_, Nat.le_of_eq (hlabel.trans hcount.symm), hfree⟩
    rw [hlabel]
    exact Nat.lt_succ_of_le hfresh.count

/-- What the level selects from stays while other things are compiled ahead. -/
theorem State.Placed.source_later (h : s.Placed g top) (hclauses : s'.clauses = s.clauses)
    (hgrows : s.shared.Grows s'.shared) :
    ∀ source, s'.clauses.source = some source → s'.shared.Selects g top source := by
  intro source hsource
  rw [hclauses] at hsource
  exact (h.source source hsource).grows hgrows

theorem Shared.Placed.keepUnion {s : Shared} (h : s.Placed g top)
    (hnew : s.unions.lookup id = none) (hreach : g.Reach top id)
    (hn : g.node? id = some ⟨.union left right false, .collection schema⟩)
    (hl : s.aliases.registerDerived id = (label, aliases)) (leftLevel rightLevel : LevelId) :
    Shared.Placed g top { s with
      aliases := aliases
      unions := (id, .union leftLevel rightLevel label, label) :: s.unions } ∧
    Shared.Fresh g s { s with
      aliases := aliases
      unions := (id, .union leftLevel rightLevel label, label) :: s.unions } := by
  obtain ⟨hlabel, hcount, _⟩ := Aliases.registerDerived_cases hl
  have ht := h.registerDerived hl
  have hfree := h.unowned hl fun stored schema' hs => by
    rw [hn] at hs
    cases hs
  -- The only new owner is the union.
  have howns : ∀ {p l}, Shared.Owns g { s with
        aliases := aliases
        unions := (id, .union leftLevel rightLevel label, label) :: s.unions } p l →
      Shared.Owns g { s with aliases := aliases } p l ∨ p = .union id ∧ l = label := by
    intro p l ho
    cases p with
    | table x | side x side => exact .inl ho
    | union x =>
      by_cases hx : x = id
      · subst hx
        obtain ⟨source, hs⟩ := ho
        rw [List.lookup_cons_self] at hs
        exact .inr ⟨rfl, (Prod.mk.inj (Option.some.inj hs)).2.symm⟩
      · left
        obtain ⟨source, hs⟩ := ho
        rw [List.lookup_cons, beq_false_of_ne hx] at hs
        exact ⟨source, hs⟩
  have hgrows : Shared.Grows { s with aliases := aliases } { s with
      aliases := aliases
      unions := (id, .union leftLevel rightLevel label, label) :: s.unions } :=
    { Shared.Grows.refl { s with aliases := aliases } with
      union := fun hx => lookup_cons_of_none hnew hx hx }
  constructor
  · refine ht.1.grows hgrows ?_ .inl (fun {x ahead} hx => ?_) fun q hq => .inl hq
    · refine Shared.Labelled.add (fun p l => p = .union id ∧ l = label) ht.1.toLabelled
        (Nat.le_refl _) howns ?_ ?_
      · rintro p l ⟨rfl, rfl⟩
        exact ⟨Nat.le_of_eq (hlabel.trans hcount.symm), hfree⟩
      · rintro p p' l ⟨rfl, _⟩ ⟨rfl, _⟩
        rfl
    · rcases lookup_cons_eq_some hx with ⟨rfl, rfl⟩ | hx
      · right
        exact ⟨hreach, [.union x], .union hn, .cons ⟨_, List.lookup_cons_self⟩ .nil⟩
      · exact .inl hx
  · refine ⟨ht.2.count, fun ho => ?_⟩
    rcases howns ho with ho | ⟨_, rfl⟩
    · exact ht.2.owns ho
    · right
      rw [hlabel]
      exact Nat.lt_succ_self _

/-- Subqueries have no labels. -/
theorem Shared.Placed.keepSubquery {s : Shared} (h : s.Placed g top)
    (hnew : s.subqueries.lookup id = none) (level : LevelId) :
    Shared.Placed g top { s with subqueries := (id, level) :: s.subqueries } ∧
      Shared.Fresh g s { s with subqueries := (id, level) :: s.subqueries } := by
  have howns : ∀ {p l}, Shared.Owns g { s with subqueries := (id, level) :: s.subqueries } p l →
      s.Owns g p l := by
    intro p l ho
    cases p <;> exact ho
  have hgrows : s.Grows { s with subqueries := (id, level) :: s.subqueries } :=
    { Shared.Grows.refl s with subquery := fun hx => lookup_cons_of_none hnew hx hx }
  constructor
  · refine h.grows hgrows ?_ .inl .inl fun q hq => .inl hq
    exact ⟨fun ho ho' => h.injective (howns ho) (howns ho'), fun ho => h.bounded (howns ho)⟩
  · exact ⟨Nat.le_refl _, fun ho => .inl (howns ho)⟩

/-- What nothing had as its label, nothing has it later. -/
theorem Shared.Fresh.free {s s' : Shared} (h : s.Fresh g s') (hle : label ≤ s.aliases.count)
    (hfree : ∀ p, ¬ s.Owns g p label) (p : TablePlace) :
    ¬ s'.Owns g p label := by
  intro ho
  rcases h.owns ho with hold | hlt
  · exact hfree p hold
  · exact Nat.not_le_of_lt hlt hle

/-- A join that is kept has the labels of its sides. -/
theorem Shared.Placed.keepJoin {predicate : Option NodeId} {how : JoinKind}
    {fields : List JoinField} {s s₁ s₂ s₃ : Shared} {leftSource rightSource : Source}
    (h : s₃.Placed g top) (hnew : s₃.joins.lookup id = none) (hreach : g.Reach top id)
    (hn : g.node? id = some ⟨.join left right predicate how fields, .collection schema⟩)
    (hleft : SideLaid g s s₁ left leftSource) (hright : SideLaid g s₁ s₂ right rightSource)
    (h₁ : s.Fresh g s₁) (h₂ : s₁.Fresh g s₂) (h₃ : s₂.Fresh g s₃) (hgrows₂ : s₁.Grows s₂)
    (hgrows₃ : s₂.Grows s₃) (on : Option Expr) (visible : Visible) :
    Shared.Placed g top { s₃ with
      joins := (id, ⟨.join leftSource how rightSource none, on, visible⟩) :: s₃.joins } ∧
    Shared.Fresh g s { s₃ with
      joins := (id, ⟨.join leftSource how rightSource none, on, visible⟩) :: s₃.joins } := by
  -- The only new owners are the sides that are derived tables.
  let New : TablePlace → Alias → Prop := fun p l => ∃ level,
    p = .side id .left ∧ leftSource = .derived level l ∨
    p = .side id .right ∧ rightSource = .derived level l
  have howns : ∀ {p l}, Shared.Owns g { s₃ with
        joins := (id, ⟨.join leftSource how rightSource none, on, visible⟩) :: s₃.joins } p l →
      s₃.Owns g p l ∨ New p l := by
    intro p l ho
    cases p with
    | table x | union x => exact .inl ho
    | side x side =>
      obtain ⟨ahead, level, ha, hs⟩ := ho
      rcases lookup_cons_eq_some ha with ⟨rfl, rfl⟩ | ha
      · right
        cases side with
        | left => exact ⟨level, .inl ⟨rfl, Option.some.inj hs⟩⟩
        | right => exact ⟨level, .inr ⟨rfl, Option.some.inj hs⟩⟩
      · exact .inl ⟨ahead, level, ha, hs⟩
  have hgrows : Shared.Grows s₃ { s₃ with
      joins := (id, ⟨.join leftSource how rightSource none, on, visible⟩) :: s₃.joins } :=
    .keepJoin hnew _
  constructor
  · refine h.grows hgrows ?_ (fun {x ahead} hx => ?_) .inl fun q hq => .inl hq
    · refine Shared.Labelled.add New h.toLabelled (Nat.le_refl _) howns ?_ ?_
      · rintro p l ⟨level, ⟨rfl, hs⟩ | ⟨rfl, hs⟩⟩
        · obtain ⟨_, hle, hfree⟩ := hleft.fresh hs
          exact ⟨Nat.le_trans hle (h₂.trans h₃).count, (h₂.trans h₃).free hle hfree⟩
        · obtain ⟨_, hle, hfree⟩ := hright.fresh hs
          exact ⟨Nat.le_trans hle h₃.count, h₃.free hle hfree⟩
      · rintro p p' l ⟨level, ⟨rfl, hs⟩ | ⟨rfl, hs⟩⟩ ⟨level', ⟨rfl, hs'⟩ | ⟨rfl, hs'⟩⟩
        · rfl
        · exact absurd (hleft.fresh hs).2.1 (Nat.not_le_of_lt (hright.fresh hs').1)
        · exact absurd (hleft.fresh hs').2.1 (Nat.not_le_of_lt (hright.fresh hs).1)
        · rfl
    · rcases lookup_cons_eq_some hx with ⟨rfl, rfl⟩ | hx
      · right
        obtain ⟨leftPlaces, hlaid, howned⟩ := hleft.laid x .left
        obtain ⟨rightPlaces, hlaid', howned'⟩ := hright.laid x .right
        refine ⟨hreach, leftPlaces ++ rightPlaces, .join hn hlaid hlaid', ?_⟩
        apply List.rel_append
        · exact howned ((hgrows₂.trans hgrows₃).trans hgrows) fun {level label} hs =>
            ⟨_, level, List.lookup_cons_self, congrArg some hs⟩
        · exact howned' (hgrows₃.trans hgrows) fun {level label} hs =>
            ⟨_, level, List.lookup_cons_self, congrArg some hs⟩
      · exact .inl hx
  · constructor
    · exact ((h₁.trans h₂).trans h₃).count
    · intro p l ho
      rcases howns ho with ho | ⟨level, ⟨_, hs⟩ | ⟨_, hs⟩⟩
      · exact ((h₁.trans h₂).trans h₃).owns ho
      · exact .inr (hleft.fresh hs).1
      · exact .inr (Nat.lt_of_le_of_lt h₁.count (hright.fresh hs).1)

theorem KeepsPlaced.level {s₂ : State} {q : Query} {sortLimit : Nat}
    (h : KeepsPlaced g top s.inner s₂) (hgrows : s.shared.Grows s₂.shared)
    (hq : s₂.clauses.close sortLimit = .ok q) : KeepsPlaced g top s (s.resume s₂ q) := by
  intro hs
  have hinner : s.inner.Placed g top := ⟨hs.shared, fun _ hsource => by cases hsource⟩
  have hs₂ := h hinner
  have hselects := hs₂.1.source _ (close_eq_ok hq).1
  constructor
  · constructor
    · exact hs₂.1.shared.push hselects
    · intro source hsource
      exact (hs.source source hsource).grows (hgrows.trans (.push s₂.shared q))
  · exact ⟨hs₂.2.count, hs₂.2.owns⟩

/-- Giving a label to a stored table or to a derived table keeps what the level selects from. -/
theorem KeepsPlaced.withAliases (hgrows : s.shared.Grows { s.shared with aliases := aliases })
    (hplaced : s.shared.Placed g top → Shared.Placed g top { s.shared with aliases := aliases } ∧
      Shared.Fresh g s.shared { s.shared with aliases := aliases }) :
    KeepsPlaced g top s (s.withAliases aliases) := by
  intro hs
  have hlabel := hplaced hs.shared
  exact ⟨⟨hlabel.1, fun source hsource => (hs.source source hsource).grows hgrows⟩, hlabel.2⟩

theorem KeepsPlaced.register (hl : s.context.aliases.register id = (label, aliases)) :
    KeepsPlaced g top s (s.withAliases aliases) :=
  .withAliases (.registering (Aliases.register_grows hl)) fun hs => hs.register hl

theorem KeepsPlaced.registerDerived (hl : s.context.aliases.registerDerived id = (label, aliases)) :
    KeepsPlaced g top s (s.withAliases aliases) :=
  .withAliases (.registering (Aliases.registerDerived_grows hl)) fun hs => hs.registerDerived hl

theorem stands_table {stored : Table} (hreach : g.Reach top id)
    (hn : g.node? id = some ⟨.source stored, .collection schema⟩)
    (hl : s.context.aliases.register id = (label, aliases)) :
    (s.withAliases aliases).shared.Stands g top (.table stored label) id := by
  have hfind := s.context.aliases.find?_register id
  rw [hl] at hfind
  exact ⟨hreach, [.table id], .table hn, .cons ⟨⟨stored, schema, hn⟩, hfind⟩ .nil⟩

/-- Jobs keep labels apart, and a side of a join is laid out with labels of its own. -/
def Job.KeepsPlaced (g : Graph) (top : NodeId) : Job → State → State → Prop
  | .side id source _, s, s' => Compile.KeepsPlaced g top s s' ∧
    (s.Placed g top → SideLaid g s.shared s'.shared id source)
  | _, s, s' => Compile.KeepsPlaced g top s s'

theorem Runs.keepsPlaced {job : Job} (hord : env.graph.Ordered) (h : Runs env top job s s') :
    job.KeepsPlaced env.graph top s s' := by
  induction h with
  | visited | noOperands | noValues | noKeys | noItems | provideNothing | discovered | unionKept
  | subqueryKept | joinKept => exact .refl _ _ _
  | cached | provideFunction => exact (KeepsPlaced.refl _ _ _).of_end rfl rfl
  | source _ hreach hn hl hc =>
    obtain rfl := setSource_eq_ok hc
    exact (KeepsPlaced.register hl).select rfl rfl fun _ => .inr ⟨_, stands_table hreach hn hl⟩
  | selection _ _ _ _ _ ih => exact ih.of_end rfl rfl
  | filter _ _ _ _ hprep _ _ _ hc ih ih' =>
    obtain rfl := setFilter_eq_ok hc
    exact ((ih.trans hprep.keepsPlaced).trans ih').of_end rfl rfl
  | groupBy _ _ _ _ hprep _ _ hc hc' _ hhaving ih ih' ih'' ihp =>
    obtain rfl := setSelect_eq_ok hc
    obtain rfl := setGroupBy_eq_ok hc'
    have hrun := ((ih.trans hprep.keepsPlaced).trans ih').trans ih''
    obtain ⟨_, rfl⟩ := hhaving.eq
    exact (hrun.trans (ihp.of_start rfl rfl)).of_end rfl rfl
  | sort _ _ _ _ hprep _ hc ih ih' =>
    obtain rfl := setOrderBy_eq_ok hc
    exact ((ih.trans hprep.keepsPlaced).trans ih').of_end rfl rfl
  | slice _ _ _ _ _ hprep hc ih =>
    obtain rfl := setLimit_eq_ok hc
    exact (ih.trans hprep.keepsPlaced).of_end rfl rfl
  | joined _ _ _ hjoin hc hc' ih =>
    obtain rfl := setSource_eq_ok hc
    split at hc'
    · obtain rfl := setOn_eq_ok hc'
      exact ih.select rfl rfl fun hs => .inr ⟨_, hs.join hjoin.lookup_join⟩
    · cases hc'
      exact ih.select rfl rfl fun hs => .inr ⟨_, hs.join hjoin.lookup_join⟩
  | united _ _ _ hunion hc ih =>
    obtain rfl := setSource_eq_ok hc
    exact ih.select rfl rfl fun hs => .inr ⟨_, hs.union hunion.lookup_union⟩
  | value _ _ _ _ _ _ _ _ hadd ih ih' =>
    have hrun := ih.trans ih'
    rcases Context.addFragment_eq_ok hadd with ⟨_, rfl⟩ | ⟨_, rfl⟩
    · exact hrun.of_end rfl rfl
    · exact hrun.of_end rfl rfl
  | skipped _ _ ih => exact ih
  | operand _ _ _ _ ih ih' | valueThen _ _ _ _ ih ih' | keyThen _ _ _ _ ih ih'
  | itemThen _ _ _ _ _ _ _ ih ih' => exact ih.trans ih'
  | provideWindow _ ih | provideSubquery _ _ ih => exact ih
  | select _ hprep _ hc ih ih' =>
    obtain rfl := setSelect_eq_ok hc
    exact ((ih.trans hprep.keepsPlaced).trans ih').of_end rfl rfl
  | level _ _ hrun hrun' hq ih ih' | levelOfValue _ _ _ hrun hrun' hq ih ih' =>
    exact KeepsPlaced.level (ih.trans ih') (hrun.grows.trans hrun'.grows) hq
  | discoverJoin _ _ _ _ ih ih' | discoverUnion _ _ _ _ ih ih'
  | discoverSubquery _ _ _ _ _ ih ih' =>
    exact ih.trans ih'
  | @unionNew _ _ _ _ leftLevel rightLevel _ _ _ _ _ hnew hreach hn hleft hright hl ih ih' =>
    intro hs
    have hrun := (ih.trans ih') hs
    have hsame := hleft.same_operator hord hn .left (.head _) (Nat.le_refl _)
    have hsame' := hright.same_operator hord hn .right (by simp [Kind.operands]) (Nat.le_refl _)
    have hkept := hrun.1.shared.keepUnion ((hsame'.2.1.trans hsame.2.1).trans hnew) hreach hn hl
      leftLevel rightLevel
    have hwhole := Runs.unionNew hnew hreach hn hleft hright hl
    exact ⟨⟨hkept.1, hs.source_later hwhole.leaves.clauses hwhole.grows⟩, hrun.2.trans hkept.2⟩
  | @subqueryNew _ _ _ level _ _ hnew hreach hn hq hlevel ih =>
    intro hs
    have hrun := ih hs
    have hsame := hlevel.same_operator hord hn .subquery
      (mem_operands_of_subquery? hq) (Nat.le_refl _)
    have hkept := hrun.1.shared.keepSubquery (hsame.2.2.trans hnew) level
    have hwhole := Runs.subqueryNew hnew hreach hn hq hlevel
    exact ⟨⟨hkept.1, hs.source_later hwhole.leaves.clauses hwhole.grows⟩, hrun.2.trans hkept.2⟩
  | sideTable hreach hn hl =>
    exact ⟨(KeepsPlaced.register hl).of_end rfl rfl, fun _ => (stands_table hreach hn hl).sideLaid⟩
  | sideJoin _ hjoin ih =>
    exact ⟨ih, fun hs => ((ih hs).1.shared.join hjoin.lookup_join).asSide.sideLaid⟩
  | sideUnion _ hunion ih =>
    exact ⟨ih, fun hs => ((ih hs).1.shared.union hunion.lookup_union).sideLaid⟩
  | sideLevel _ hn hk _ hl ih =>
    exact ⟨ih.trans (.registerDerived hl), fun hs => (ih hs).1.shared.sideLaid (ih hs).2 hn hk hl⟩
  | @joinNew _ _ _ _ _ _ _ _ _ leftVisible rightVisible es _ _ _ _ hnew hreach
    hn hleft hright hon ih
      ih' ih'' =>
    intro hs
    have hs₁ := ih.1 hs
    have hs₂ := ih'.1 hs₁.1
    have hs₃ := ih'' ⟨hs₂.1.shared, hs₂.1.source⟩
    have hnone := hleft.unkept_of_sides hord hn hright hnew
    have hnone' := hon.unkept_of_condition hord hn hnone
    have hkept := hs₃.1.shared.keepJoin hnone' hreach hn (ih.2 hs) (ih'.2 hs₁.1) hs₁.2 hs₂.2 hs₃.2
      hright.grows hon.grows es.head? (leftVisible ++ rightVisible)
    have hwhole := Runs.joinNew hnew hreach hn hleft hright hon
    exact ⟨⟨hkept.1, hs.source_later hwhole.leaves.clauses hwhole.grows⟩, hkept.2⟩

/-- Labels tell places apart exactly if the places are apart. -/
theorem Shared.Labelled.nodup_iff {s : Shared} {labels : List Alias} (h : s.Labelled g)
    (howns : List.Forall₂ (s.Owns g) places labels) :
    labels.Nodup ↔ places.Nodup := by
  have hunique : Relator.BiUnique (s.Owns g) :=
    ⟨fun _ _ _ ho ho' => h.injective ho ho', fun _ _ _ ho ho' => ho.unique ho'⟩
  exact (List.rel_nodup hunique howns).symm

theorem State.placed_start (g : Graph) (top : NodeId) (functions : FunctionNames) :
    (State.start functions).Placed g top := by
  have howns : ∀ {p label}, ¬ (State.start functions).shared.Owns g p label := by
    intro p label ho
    cases p with
    | table id => cases ho.2
    | union id =>
      obtain ⟨source, hs⟩ := ho
      cases hs
    | side id side =>
      obtain ⟨ahead, level, ha, hs⟩ := ho
      cases ha
  constructor
  · exact {
      injective := fun ho _ => absurd ho howns
      bounded := fun ho => absurd ho howns
      join := fun hj => by cases hj
      union := fun hu => by cases hu
      level := fun q hq => absurd hq (Array.not_mem_empty q) }
  · intro source hsource
    cases hsource

/-- A level of the statement of a valid graph selects from one derived table, or from a tree of
joins whose labels are different exactly if no stored table, no union and no derived side of a join
occurs in it twice. -/
theorem compile_labels_nodup_iff {g : Graph} (hb : Built g) (hv : g.validate = .ok ())
    {c c' : Compiler} {root : NodeId} {s : Statement} (h : c.compile g root = (.ok s, c')) :
    ∀ q ∈ s.levels, (∃ level label, q.source = .derived level label) ∨
      ∃ id places, g.Reach root id ∧ g.LaysOut none q.source id places ∧
        (q.source.labels.Nodup ↔ places.Nodup) := by
  have hw := hb.fits
  obtain ⟨t, hrun, hlevels⟩ := runs_of_compile hw h
  have hord : (c.env g).graph.Ordered := hw.validate_iff_children_lt.1 hv
  intro q hq
  rw [← hlevels] at hq
  have hplaced := (hrun.keepsPlaced hord (State.placed_start g root c.functions)).1.shared
  rcases hplaced.level q hq with hderived | ⟨id, hreach, places, hlaid, howns⟩
  · exact .inl hderived
  · exact .inr ⟨id, places, hreach, hlaid, hplaced.toLabelled.nodup_iff howns⟩


/-- The first rows of a table, joined with two other tables, and the results joined. -/
def joinedSlices : List Call :=
  [.source "" "a" [⟨"id", .int64⟩], .slice 0 none (some 5) none, .source "" "b" [⟨"x", .int64⟩],
    .source "" "c" [⟨"y", .int64⟩], .join 1 2 none .inner, .join 1 3 none .inner,
    .join 4 5 none .inner]

/-- A side that is read as a derived table has another label in each join. -/
theorem compile_labels_nodup_iff_joinedSlices :
    Built (Call.run joinedSlices) ∧ (Call.run joinedSlices).validate = .ok () ∧
    ∃ s c', (Compiler.new .default).compile (Call.run joinedSlices) 6 = (.ok s, c') ∧
      ∀ q ∈ s.levels, (∃ level label, q.source = .derived level label) ∨
        ∃ id places, (Call.run joinedSlices).Reach 6 id ∧
          (Call.run joinedSlices).LaysOut none q.source id places ∧
          (q.source.labels.Nodup ↔ places.Nodup) := by
  have hb : Built (Call.run joinedSlices) := .run (by simp [joinedSlices, Call.AllowedFrom])
  have hv : (Call.run joinedSlices).validate = .ok () := by decide +kernel
  have hlabels : ((Compiler.new .default).compile (Call.run joinedSlices) 6).1.toOption.map
      (·.levels.toList.map (·.source.labels)) = some [[1], [1], [2, 3, 4, 5]] := by decide +kernel
  obtain ⟨s, c', hs, _⟩ := exists_of_compile hlabels
  exact ⟨hb, hv, s, c', hs, compile_labels_nodup_iff hb hv hs⟩

/-- A table joined with another one, and the result with the same table. -/
def joinedAgain : List Call :=
  [.source "" "a" [⟨"id", .int64⟩], .source "" "b" [⟨"x", .int64⟩], .join 0 1 none .inner,
    .join 2 0 none .inner]

/-- A stored table that occurs twice in a tree of joins has the same label twice. -/
theorem labels_joinedAgain :
    ∃ s c', (Compiler.new .default).compile (Call.run joinedAgain) 3 = (.ok s, c') ∧
      s.levels.toList.map (·.source.labels) = [[1, 2, 1]] :=
  exists_of_compile (by decide +kernel)


end Compile

end PlanSql

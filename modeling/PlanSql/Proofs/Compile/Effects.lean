import PlanSql.Proofs.Compile.Runs
import PlanSql.Proofs.Progress.Values

/-!
# What a run leaves as it was

What the levels of a statement share only grows. A value that is compiled leaves the clauses of the
level and what can be named as they are, what is compiled ahead leaves the clauses, and a level of
its own leaves everything of the level around it. Where every operand stands before its operator,
nothing is compiled ahead that stands after what the job is about, so nothing is compiled twice.
-/

namespace PlanSql

variable {kind : Kind} {α : Type}

namespace Graph

/-- Every operand stands before its operator. -/
def Ordered (g : Graph) : Prop := ∀ id, ∀ child ∈ g.children id, child < id

variable {g : Graph} {id root : NodeId}

theorem Ordered.operand (h : g.Ordered) {n : Node} (hn : g.node? id = some n) {o : Operand}
    (ho : o ∈ n.kind.operands) : o.2 < id := by
  apply h id
  rw [children, hn]
  exact List.mem_map_of_mem ho

theorem Ordered.reach (h : g.Ordered) (hr : g.Reach root id) : id ≤ root := by
  induction hr with
  | refl => exact Nat.le_refl root
  | step _ hchild ih => exact Nat.le_trans (Nat.le_of_lt (h _ _ hchild)) ih

end Graph

theorem Kind.mem_operands_of_visits {o : Operand} (h : o ∈ kind.visits) :
    o ∈ kind.operands := by
  unfold Kind.visits at h
  split at h
  · cases h
  · exact h

namespace Compile

open PlanSql.Sql

variable {id x top : NodeId} {env : Env} {s s' : State} {job : Job}
variable {a a' : Aliases} {label : Alias} {input left right : NodeId} {clause : Clause}
  {reads : Bool} {predicate : Option NodeId} {how : JoinKind} {fields : List JoinField}
  {shape : Shape}

/-- What the levels of a statement share. -/
structure Shared where
  aliases : Aliases
  joins : List (NodeId × JoinAhead)
  unions : List (NodeId × Source × Alias)
  subqueries : List (NodeId × LevelId)
  levels : Array Query

def State.shared (s : State) : Shared :=
  ⟨s.context.aliases, s.joins, s.unions, s.subqueries, s.levels⟩

/-- No entry is lost. -/
structure Shared.Grows (a b : Shared) : Prop where
  find : ∀ {id label}, a.aliases.find? id = some label → b.aliases.find? id = some label
  count : a.aliases.count ≤ b.aliases.count
  join : ∀ {id ahead}, a.joins.lookup id = some ahead → b.joins.lookup id = some ahead
  union : ∀ {id ahead}, a.unions.lookup id = some ahead → b.unions.lookup id = some ahead
  subquery : ∀ {id level}, a.subqueries.lookup id = some level → b.subqueries.lookup id = some level
  level : ∀ {id : LevelId} {q}, a.levels[id]? = some q → b.levels[id]? = some q

namespace Shared.Grows

variable {a b c : Shared}

theorem refl (a : Shared) : a.Grows a :=
  ⟨fun h => h, Nat.le_refl _, fun h => h, fun h => h, fun h => h, fun h => h⟩

theorem trans (h : a.Grows b) (h' : b.Grows c) : a.Grows c where
  find := fun hx => h'.find (h.find hx)
  count := Nat.le_trans h.count h'.count
  join := fun hx => h'.join (h.join hx)
  union := fun hx => h'.union (h.union hx)
  subquery := fun hx => h'.subquery (h.subquery hx)
  level := fun hx => h'.level (h.level hx)

theorem push (a : Shared) (q : Query) : a.Grows { a with levels := a.levels.push q } where
  find := fun h => h
  count := Nat.le_refl _
  join := fun h => h
  union := fun h => h
  subquery := fun h => h
  level := fun {id q'} h => by
    have hlt : id < a.levels.size := (Array.getElem?_eq_some_iff.1 h).1
    rw [Array.getElem?_push, if_neg (Nat.ne_of_lt hlt)]
    exact h

end Shared.Grows

/-- What is found has just been added, or was there before. -/
theorem lookup_cons_eq_some {a b : α} {l : List (NodeId × α)}
    (h : ((id, a) :: l).lookup x = some b) : x = id ∧ b = a ∨ l.lookup x = some b := by
  by_cases hid : x = id
  · subst hid
    rw [List.lookup_cons_self] at h
    exact .inl ⟨rfl, (Option.some.inj h).symm⟩
  · rw [List.lookup_cons, beq_false_of_ne hid] at h
    exact .inr h

/-- An entry for something that had none hides no entry. -/
theorem lookup_cons_of_none {a b : α} {l l' : List (NodeId × α)}
    (hnew : l.lookup id = none) (h : l.lookup x = some b) (h' : l'.lookup x = some b) :
    ((id, a) :: l').lookup x = some b := by
  have hne : x ≠ id := by
    rintro rfl
    rw [hnew] at h
    cases h
  rw [List.lookup_cons, beq_false_of_ne hne]
  exact h'

theorem Shared.Grows.keepJoin {s : Shared} (hnew : s.joins.lookup id = none) (ahead : JoinAhead) :
    s.Grows { s with joins := (id, ahead) :: s.joins } :=
  { Shared.Grows.refl s with join := fun hx => lookup_cons_of_none hnew hx hx }

/-- Giving an alias to a collection that has none changes no other alias. -/
theorem Aliases.register_grows (h : a.register id = (label, a')) :
    (∀ {x l}, a.find? x = some l → a'.find? x = some l) ∧ a.count ≤ a'.count := by
  unfold Aliases.register at h
  split at h
  · cases h
    exact ⟨fun hx => hx, Nat.le_refl _⟩
  · next hnew =>
    cases h
    exact ⟨fun hx => lookup_cons_of_none hnew hx hx, Nat.le_succ _⟩

theorem Aliases.registerDerived_grows (h : a.registerDerived id = (label, a')) :
    (∀ {x l}, a.find? x = some l → a'.find? x = some l) ∧ a.count ≤ a'.count := by
  unfold Aliases.registerDerived at h
  split at h
  · cases h
    exact ⟨fun hx => hx, Nat.le_succ _⟩
  · exact Aliases.register_grows h

theorem Shared.Grows.registering {s : Shared} {aliases : Aliases}
    (h : (∀ {x l}, s.aliases.find? x = some l → aliases.find? x = some l) ∧
      s.aliases.count ≤ aliases.count) : s.Grows { s with aliases := aliases } :=
  ⟨h.1, h.2, fun h => h, fun h => h, fun h => h, fun h => h⟩

theorem Prepared.grows (h : Prepared env input clause reads s s') : s.shared.Grows s'.shared := by
  cases h with
  | same _ _ => exact .refl _
  | wrapped _ hl _ _ =>
    exact (Shared.Grows.registering (Aliases.registerDerived_grows hl)).trans (.push _ _)

/-- Labels, levels and what is compiled ahead are kept by all that follows. -/
theorem Runs.grows (h : Runs env top job s s') : s.shared.Grows s'.shared := by
  induction h with
  | visited | cached | noOperands | noValues | noKeys | noItems | provideFunction | provideNothing
  | discovered | unionKept | subqueryKept | joinKept => exact .refl _
  | source _ _ _ hl _ | sideTable _ _ hl => exact .registering (Aliases.register_grows hl)
  | selection _ _ _ _ _ ih => exact ih
  | filter _ _ _ _ hprep _ _ _ _ ih ih' => exact (ih.trans hprep.grows).trans ih'
  | groupBy _ _ _ _ hprep _ _ _ _ _ _ ih ih' ih'' ih''' =>
    exact (((ih.trans hprep.grows).trans ih').trans ih'').trans ih'''
  | sort _ _ _ _ hprep _ _ ih ih' => exact (ih.trans hprep.grows).trans ih'
  | slice _ _ _ _ _ hprep _ ih => exact ih.trans hprep.grows
  | joined _ _ _ _ _ _ ih | united _ _ _ _ _ ih => exact ih
  | value _ _ _ _ _ _ _ _ hadd ih ih' =>
    refine ih.trans (ih'.trans ?_)
    rcases Context.addFragment_eq_ok hadd with ⟨_, rfl⟩ | ⟨_, rfl⟩
    · exact .refl _
    · exact .refl _
  | skipped _ _ ih => exact ih
  | operand _ _ _ _ ih ih' | valueThen _ _ _ _ ih ih' | keyThen _ _ _ _ ih ih'
  | itemThen _ _ _ _ _ _ _ ih ih' => exact ih.trans ih'
  | provideWindow _ ih | provideSubquery _ _ ih => exact ih
  | select _ hprep _ _ ih ih' => exact (ih.trans hprep.grows).trans ih'
  | level _ _ _ _ _ ih ih' | levelOfValue _ _ _ _ _ _ ih ih' =>
    exact (ih.trans ih').trans (.push _ _)
  | discoverJoin _ _ _ _ ih ih' | discoverUnion _ _ _ _ ih ih'
  | discoverSubquery _ _ _ _ _ ih ih' =>
    exact ih.trans ih'
  | unionNew hnew _ _ _ _ hl ih ih' =>
    have h := (ih.trans ih').trans (.registering (Aliases.registerDerived_grows hl))
    exact { h with union := fun hx => lookup_cons_of_none hnew hx (h.union hx) }
  | subqueryNew hnew _ _ _ _ ih =>
    exact { ih with subquery := fun hx => lookup_cons_of_none hnew hx (ih.subquery hx) }
  | sideJoin _ _ ih | sideUnion _ _ ih => exact ih
  | sideLevel _ _ _ _ hl ih => exact ih.trans (.registering (Aliases.registerDerived_grows hl))
  | joinNew hnew _ _ _ _ _ ih ih' ih'' =>
    have h := (ih.trans ih').trans ih''
    exact { h with join := fun hx => lookup_cons_of_none hnew hx (h.join hx) }

/-- Values were compiled into the level. -/
structure AddsValues (s s' : State) : Prop where
  clauses : s'.clauses = s.clauses
  visible : s'.visible = s.visible
  fragment : ∀ {x e}, s.context.fragments.lookup x = some e →
    s'.context.fragments.lookup x = some e

/-- Joins, unions and subqueries were compiled ahead of the level. -/
structure AddsAhead (s s' : State) : Prop where
  clauses : s'.clauses = s.clauses
  visible : ∃ more, s'.visible = more ++ s.visible
  fragment : ∀ {x e}, s.context.fragments.lookup x = some e →
    s'.context.fragments.lookup x = some e

section

variable {s s' s'' : State}

theorem AddsValues.refl (s : State) : AddsValues s s := ⟨rfl, rfl, fun h => h⟩

theorem AddsValues.trans (h : AddsValues s s') (h' : AddsValues s' s'') : AddsValues s s'' :=
  ⟨h'.1.trans h.1, h'.2.trans h.2, fun hx => h'.3 (h.3 hx)⟩

theorem AddsValues.ahead (h : AddsValues s s') : AddsAhead s s' := ⟨h.1, ⟨[], h.2⟩, h.3⟩

theorem AddsAhead.refl (s : State) : AddsAhead s s := (AddsValues.refl s).ahead

theorem AddsAhead.trans (h : AddsAhead s s') (h' : AddsAhead s' s'') : AddsAhead s s'' := by
  obtain ⟨more, hmore⟩ := h.visible
  obtain ⟨more', hmore'⟩ := h'.visible
  exact ⟨h'.1.trans h.1, ⟨more' ++ more, by rw [hmore', hmore, List.append_assoc]⟩,
    fun hx => h'.3 (h.3 hx)⟩

theorem AddsAhead.revealing (s : State) (visible : Visible) : AddsAhead s (s.revealing visible) :=
  ⟨rfl, ⟨visible.reverse, rfl⟩, fun h => h⟩

theorem AddsAhead.withJoins (h : AddsAhead s s') (joins : List (NodeId × JoinAhead)) :
    AddsAhead s { s' with joins := joins } := ⟨h.1, h.2, h.3⟩

theorem Same.adds (h : Same s s') : AddsValues s s' := by
  refine ⟨h.clauses, h.visible, fun hx => ?_⟩
  rw [h.fragments]
  exact hx

end

/-- What a job leaves of the level that is being filled. -/
def Job.Leaves (g : Graph) : Job → State → State → Prop
  | .visit id, s, s' => g.isCollection id = false → AddsValues s s'
  | .operands _, s, s' | .values _ _, s, s' | .keys _ _, s, s' | .items _ _, s, s'
  | .provide _ _, s, s' => AddsValues s s'
  | .level _ _, s, s' | .union _ _, s, s' | .subquery _ _ _, s, s' => Same s s'
  | .discover _, s, s' | .side _ _ _, s, s' | .join _ _, s, s' => AddsAhead s s'
  | .select _, _, _ => True

theorem isCollection_of_node {g : Graph} {schema : Schema}
    (h : g.node? id = some ⟨kind, .collection schema⟩) : g.isCollection id = true := by
  simp [Graph.isCollection, h, Node.isCollection]

/-- What is asked only of values holds of a collection. -/
theorem elim_of_collection {g : Graph} {schema : Schema} {P : Prop}
    (hn : g.node? id = some ⟨kind, .collection schema⟩) (hc : g.isCollection id = false) : P := by
  rw [isCollection_of_node hn] at hc
  cases hc

theorem Runs.leaves (h : Runs env top job s s') : job.Leaves env.graph s s' := by
  induction h with
  | visited => exact fun _ => .refl _
  | cached => exact fun _ => ⟨rfl, rfl, fun h => h⟩
  | source _ _ hn | selection _ _ hn | filter _ _ hn | groupBy _ _ hn | sort _ _ hn | slice _ _ hn
  | joined _ _ hn | united _ _ hn => exact elim_of_collection hn
  | value _ _ _ _ _ _ _ _ hadd ih ih' =>
    intro _
    refine (ih.trans ih').trans ?_
    rcases Context.addFragment_eq_ok hadd with ⟨hnew, rfl⟩ | ⟨_, rfl⟩
    · exact ⟨rfl, rfl, fun hx => lookup_cons_of_none hnew hx hx⟩
    · exact ⟨rfl, rfl, fun hx => hx⟩
  | noOperands | noValues | noKeys | noItems | provideNothing => exact .refl _
  | provideFunction => exact ⟨rfl, rfl, fun h => h⟩
  | skipped _ _ ih => exact ih
  | operand _ hv _ _ ih ih' | valueThen hv _ _ _ ih ih' | keyThen hv _ _ _ ih ih'
  | itemThen hv _ _ _ _ _ _ ih ih' => exact (ih hv).trans ih'
  | provideWindow _ ih => exact ih
  | provideSubquery _ _ ih => exact ih.adds
  | select => trivial
  | level | levelOfValue => exact ⟨rfl, rfl, rfl, rfl⟩
  | discovered => exact .refl _
  | discoverJoin _ _ _ _ ih ih' => exact ih.trans ih'
  | discoverUnion _ _ _ _ ih ih' | discoverSubquery _ _ _ _ _ ih ih' =>
    exact ih.adds.ahead.trans ih'
  | unionKept | subqueryKept => exact ⟨rfl, rfl, rfl, rfl⟩
  | unionNew _ _ _ _ _ _ ih ih' =>
    have h := ih.trans ih'
    exact ⟨h.1, h.2, h.3, h.4⟩
  | subqueryNew _ _ _ _ _ ih => exact ⟨ih.1, ih.2, ih.3, ih.4⟩
  | sideTable => exact ⟨rfl, ⟨_, rfl⟩, fun h => h⟩
  | sideJoin _ _ ih => exact ih
  | sideUnion _ _ ih => exact ih.adds.ahead
  | sideLevel _ _ _ _ _ ih =>
    have h := ih.adds.ahead
    exact ⟨h.1, h.2, h.3⟩
  | joinKept => exact .refl _
  | joinNew _ _ _ _ _ _ ih ih' ih'' =>
    exact (((ih.trans ih').trans (.revealing _ _)).trans ih''.ahead).withJoins _

def Job.AtMost (n : Nat) : Job → Prop
  | .visit id | .level id _ | .discover id | .union id _ | .side id _ _ | .join id _ => id ≤ n
  | .operands os => ∀ o ∈ os, o.2 ≤ n
  | .values ids _ | .items ids _ => ∀ x ∈ ids, x ≤ n
  | .keys ks _ => ∀ key ∈ ks, key.expr ≤ n
  | .provide id kind => id ≤ n ∧ ∀ o ∈ kind.operands, o.2 ≤ n
  | .select sel => sel.input ≤ n ∧ ∀ x ∈ sel.fields, x ≤ n
  | .subquery id sequence _ => id ≤ n ∧ sequence ≤ n

/-- What is compiled ahead for nodes after `n` is the same. -/
structure SameAbove (n : Nat) (s s' : State) : Prop where
  joins : ∀ x, n < x → s'.joins.lookup x = s.joins.lookup x
  unions : ∀ x, n < x → s'.unions.lookup x = s.unions.lookup x
  subqueries : ∀ x, n < x → s'.subqueries.lookup x = s.subqueries.lookup x

namespace SameAbove

variable {n m : Nat} {s s' s'' : State}

theorem refl (n : Nat) (s : State) : SameAbove n s s :=
    ⟨fun _ _ => rfl, fun _ _ => rfl, fun _ _ => rfl⟩

theorem trans (h : SameAbove n s s') (h' : SameAbove n s' s'') : SameAbove n s s'' where
  joins := fun x hx => (h'.joins x hx).trans (h.joins x hx)
  unions := fun x hx => (h'.unions x hx).trans (h.unions x hx)
  subqueries := fun x hx => (h'.subqueries x hx).trans (h.subqueries x hx)

/-- Only what is compiled ahead counts. -/
theorem of_end (h : SameAbove n s s') (hj : s''.joins = s'.joins) (hu : s''.unions = s'.unions)
    (hq : s''.subqueries = s'.subqueries) : SameAbove n s s'' :=
  ⟨hj ▸ h.joins, hu ▸ h.unions, hq ▸ h.subqueries⟩

theorem of_start (h : SameAbove n s' s'') (hj : s'.joins = s.joins) (hu : s'.unions = s.unions)
    (hq : s'.subqueries = s.subqueries) : SameAbove n s s'' :=
  ⟨hj ▸ h.joins, hu ▸ h.unions, hq ▸ h.subqueries⟩

end SameAbove

theorem lookup_cons_of_lt {n : NodeId} {a : α} (l : List (NodeId × α)) (hid : id ≤ n)
    (hx : n < x) : ((id, a) :: l).lookup x = l.lookup x := by
  have hne : x ≠ id := Nat.ne_of_gt (Nat.lt_of_le_of_lt hid hx)
  rw [List.lookup_cons, beq_false_of_ne hne]

theorem Prepared.sameAbove (h : Prepared env input clause reads s s') (n : Nat) :
    SameAbove n s s' := by
  cases h with
  | same _ _ => exact .refl n s
  | wrapped _ _ _ _ => exact (SameAbove.refl n s).of_end rfl rfl rfl

/-- A job changes nothing that stands after what it is about. -/
theorem Runs.sameAbove (hord : env.graph.Ordered) (h : Runs env top job s s') :
    ∀ {n}, job.AtMost n → SameAbove n s s' := by
  -- An operand of a node at most at `n` stands at most at `n` too.
  have hop : ∀ (slot : Slot) {id x : NodeId} {m : Node} {n : Nat}, env.graph.node? id = some m →
      (slot, x) ∈ m.kind.operands → id ≤ n → x ≤ n := fun _ _ _ _ _ hm ho hid =>
    Nat.le_trans (Nat.le_of_lt (hord.operand hm ho)) hid
  have hmet : ∀ {root id : NodeId} {n : Nat}, env.graph.Met root id → root ≤ n → id ≤ n :=
    fun hm hroot => Nat.le_trans (hord.reach hm.reach) hroot
  induction h with
  | visited | noOperands | noValues | noKeys | noItems | provideNothing | discovered | unionKept
  | subqueryKept | joinKept => exact fun _ => .refl _ _
  | cached | source | sideTable | provideFunction =>
    exact fun _ => (SameAbove.refl _ _).of_end rfl rfl rfl
  | selection _ _ hn hsel _ ih =>
    intro n hid
    obtain ⟨hinput, hfields⟩ := Selection.operands hsel
    have hrun := ih ⟨hop .input hn hinput hid, fun x hx =>
      (hfields x hx).elim fun slot hslot => hop slot hn hslot hid⟩
    exact hrun.of_end rfl rfl rfl
  | filter _ _ hn _ hprep _ _ _ _ ih ih' =>
    intro n hid
    have hinput := ih (hop .input hn (.head _) hid)
    have hpred := ih' (hop .predicate hn (by simp [Kind.operands]) hid)
    exact ((hinput.trans (hprep.sameAbove n)).trans hpred).of_end rfl rfl rfl
  | groupBy _ _ hn _ hprep _ _ _ _ _ _ ih ih' ih'' ihp =>
    intro n hid
    have hinput := ih (hop .input hn (.head _) hid)
    have hkeys := ih' fun x hx => hop .keys hn (by simp [Kind.operands, Operand.many, hx]) hid
    have hitems := ih'' fun x hx => (List.mem_append.1 hx).elim
      (fun hx => hop .keys hn (by simp [Kind.operands, Operand.many, hx]) hid)
      fun hx => hop .aggregates hn (by simp [Kind.operands, Operand.many, hx]) hid
    have hpred := ihp fun x hx => hop .having hn
      (by simpa [Kind.operands, Operand.perhaps, Operand.many] using hx) hid
    have hrun := ((hinput.trans (hprep.sameAbove n)).trans hkeys).trans hitems
    exact (hrun.trans (hpred.of_start rfl rfl rfl)).of_end rfl rfl rfl
  | sort _ _ hn _ hprep _ _ ih ih' =>
    intro n hid
    have hinput := ih (hop .input hn (.head _) hid)
    have hkeys := ih' fun key hkey => hop .sortKeys hn
      (.tail _ (List.mem_map_of_mem (List.mem_map_of_mem hkey))) hid
    exact ((hinput.trans (hprep.sameAbove n)).trans hkeys).of_end rfl rfl rfl
  | slice _ _ hn _ _ hprep _ ih =>
    intro n hid
    have hinput := ih (hop .input hn (.head _) hid)
    exact (hinput.trans (hprep.sameAbove n)).of_end rfl rfl rfl
  | joined _ _ _ _ _ _ ih | united _ _ _ _ _ ih => exact fun hid => (ih hid).of_end rfl rfl rfl
  | @value id m _ _ _ _ _ _ _ _ _ hn _ _ _ _ _ ih ih' =>
    intro n hid
    have hoperands : ∀ o ∈ m.kind.operands, o.2 ≤ n := fun o ho => hop o.1 hn ho hid
    have hvisits := ih fun o ho => hoperands o (Kind.mem_operands_of_visits ho)
    exact (hvisits.trans (ih' ⟨hid, hoperands⟩)).of_end rfl rfl rfl
  | skipped _ _ ih => exact fun hos => ih fun o ho => hos o (.tail _ ho)
  | operand _ _ _ _ ih ih' =>
    exact fun hos => (ih (hos _ (.head _))).trans
      (ih' fun o ho => hos o (.tail _ ho))
  | valueThen _ _ _ _ ih ih' =>
    exact fun hids => (ih (hids _ (.head _))).trans
      (ih' fun x hx => hids x (.tail _ hx))
  | keyThen _ _ _ _ ih ih' =>
    exact fun hkeys => (ih (hkeys _ (.head _))).trans
      (ih' fun x hx => hkeys x (.tail _ hx))
  | itemThen _ _ _ _ _ _ _ ih ih' =>
    exact fun hids => (ih (hids _ (.head _))).trans
      (ih' fun x hx => hids x (.tail _ hx))
  | provideWindow _ ih =>
    exact fun hids => ih fun key hkey => hids.2 _ (WindowOp.mem_operands_of_orderBy hkey)
  | provideSubquery hq _ ih =>
    exact fun hids => ih ⟨hids.1, hids.2 _ (mem_operands_of_subquery? hq)⟩
  | select _ hprep _ _ ih ih' =>
    exact fun hsel => (((ih hsel.1).trans (hprep.sameAbove _)).trans (ih' hsel.2)).of_end
      rfl rfl rfl
  | level _ _ _ _ _ ih ih' =>
    intro n hroot
    have hrun := (ih hroot).trans (ih' hroot)
    exact ⟨hrun.joins, hrun.unions, hrun.subqueries⟩
  | levelOfValue _ _ howner _ _ _ ih ih' =>
    intro n hroot
    have hcollection := Nat.le_trans (hord.reach (Graph.owningCollection_reach howner).1) hroot
    have hfields : ∀ x ∈ [_], x ≤ n := List.forall_mem_singleton.2 hroot
    have hrun := (ih hroot).trans (ih' ⟨hcollection, hfields⟩)
    exact ⟨hrun.joins, hrun.unions, hrun.subqueries⟩
  | discoverJoin hm _ _ _ ih ih' | discoverUnion hm _ _ _ ih ih' =>
    exact fun hroot => (ih (hmet hm hroot)).trans (ih' hroot)
  | discoverSubquery hm hn hq _ _ ih ih' =>
    intro n hroot
    have hid := hmet hm hroot
    exact (ih ⟨hid, hop .subquery hn (mem_operands_of_subquery? hq) hid⟩).trans (ih' hroot)
  | unionNew _ _ hn _ _ _ ih ih' =>
    intro n hid
    have hleft := ih (hop .left hn (.head _) hid)
    have hright := ih' (hop .right hn (by simp [Kind.operands]) hid)
    have hrun := hleft.trans hright
    exact ⟨hrun.joins, fun x hx => (lookup_cons_of_lt _ hid hx).trans (hrun.unions x hx),
      hrun.subqueries⟩
  | subqueryNew _ _ _ _ _ ih =>
    intro n hid
    have hrun := ih hid.2
    exact ⟨hrun.joins, hrun.unions, fun x hx =>
      (lookup_cons_of_lt _ hid.1 hx).trans (hrun.subqueries x hx)⟩
  | sideJoin _ _ ih | sideUnion _ _ ih => exact ih
  | sideLevel _ _ _ _ _ ih => exact fun hid => (ih hid).of_end rfl rfl rfl
  | joinNew _ _ hn _ _ _ ih ih' ih'' =>
    intro n hid
    have hleft := ih (hop .left hn (.head _) hid)
    have hright := ih' (hop .right hn (by simp [Kind.operands]) hid)
    have hpred := ih'' fun x hx =>
      hop .predicate hn (by simpa [Kind.operands, Operand.perhaps, Operand.many] using hx) hid
    have hrun := (hleft.trans hright).trans (hpred.of_start rfl rfl rfl)
    exact ⟨fun x hx => (lookup_cons_of_lt _ hid hx).trans (hrun.joins x hx), hrun.unions,
      hrun.subqueries⟩

theorem Runs.same_operator {n : Node} (h : Runs env top job s s') (hord : env.graph.Ordered)
    (hn : env.graph.node? id = some n) (slot : Slot) (hx : (slot, x) ∈ n.kind.operands)
    (hjob : job.AtMost x) :
    s'.joins.lookup id = s.joins.lookup id ∧ s'.unions.lookup id = s.unions.lookup id ∧
      s'.subqueries.lookup id = s.subqueries.lookup id := by
  have hsame := h.sameAbove hord hjob
  have hlt : x < id := hord.operand hn hx
  exact ⟨hsame.joins id hlt, hsame.unions id hlt, hsame.subqueries id hlt⟩

/-- While the sides of a join are compiled, the join itself is not kept. -/
theorem Runs.unkept_of_sides {leftSource rightSource : Source}
    {leftVisible rightVisible : Visible} {s₁ s₂ : State} (hord : env.graph.Ordered)
    (hn : env.graph.node? id = some ⟨.join left right predicate how fields, shape⟩)
    (hleft : Runs env top (.side left leftSource leftVisible) s s₁)
    (hright : Runs env top (.side right rightSource rightVisible) s₁ s₂)
    (hnew : s.joins.lookup id = none) : s₂.joins.lookup id = none := by
  have hsame := hleft.same_operator hord hn .left (.head _) (Nat.le_refl _)
  have hsame' := hright.same_operator hord hn .right (by simp [Kind.operands]) (Nat.le_refl _)
  exact (hsame'.1.trans hsame.1).trans hnew

/-- While the condition of a join is compiled, the join itself is not kept. -/
theorem Runs.unkept_of_condition {es : List Expr} (hord : env.graph.Ordered)
    (hn : env.graph.node? id = some ⟨.join left right predicate how fields, shape⟩)
    (h : Runs env top (.values predicate.toList es) s s') (hnew : s.joins.lookup id = none) :
    s'.joins.lookup id = none := by
  cases predicate with
  | none =>
    cases h
    exact hnew
  | some p =>
    have hmem : (.predicate, p) ∈ (Kind.join left right (some p) how fields).operands := by
      simp [Kind.operands, Operand.perhaps, Operand.many]
    exact (h.same_operator hord hn .predicate hmem (by simp [Job.AtMost])).1.trans hnew

theorem Runs.lookup_join {ahead : JoinAhead} (h : Runs env top (.join id ahead) s s') :
    s'.joins.lookup id = some ahead := by
  cases h with
  | joinKept hk => exact hk
  | joinNew => exact List.lookup_cons_self

theorem Runs.lookup_union {ahead : Source × Alias} (h : Runs env top (.union id ahead) s s') :
    s'.unions.lookup id = some ahead := by
  cases h with
  | unionKept hk => exact hk
  | unionNew => exact List.lookup_cons_self

end Compile

end PlanSql

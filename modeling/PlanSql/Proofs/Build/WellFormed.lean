import PlanSql.Proofs.Build.Calls
import PlanSql.Proofs.Build.Fits

/-!
# Built graphs are well-formed

Every node of a built graph fits the nodes before it. Each builder is shown to keep this, whether it
succeeds or fails; what holds of all built graphs follows by induction over the calls.
-/

namespace PlanSql

variable {n : Node} {α β : Type} {g : Graph}

namespace Graph

variable {g : Graph}

/-- The nodes before `id`, with all functions. -/
def before (g : Graph) (id : NodeId) : Graph := { g with nodes := g.nodes.take id }

/-- Every node fits the nodes before it. -/
def WellFormed (g : Graph) (careful : Prop) : Prop :=
  ∀ id n, g.node? id = some n → n.Fits (g.before id) careful

theorem node?_before (g : Graph) (id i : NodeId) :
    (g.before id).node? i = if i < id then g.node? i else none := by
  simp only [before, node?, Array.take_eq_extract, Array.getElem?_extract]
  grind

theorem before_extends (g : Graph) (id : NodeId) : Extends (g.before id) g where
  node := fun h => by
    rw [node?_before] at h
    split at h
    · exact h
    · cases h
  function := fun h => h

theorem Extends.before {g' : Graph} (h : Extends g g') (id : NodeId) :
    Extends (g.before id) (g'.before id) where
  node := fun {i n} hn => by
    rw [node?_before] at hn ⊢
    split at hn
    · next hlt => rw [if_pos hlt]; exact h.node hn
    · cases hn
  function := fun hf => h.function hf

theorem lt_of_node?_before {id i : NodeId} (h : (g.before id).node? i = some n) :
    i < id := by
  rw [node?_before] at h
  split at h
  · assumption
  · cases h

/-- All nodes come before the end. -/
theorem extends_before_size (g : Graph) : Extends g (g.before g.size) where
  node := fun {i n} h => by rw [node?_before, if_pos (lt_size_of_node? h)]; exact h
  function := fun h => h

end Graph

namespace Build

open PlanSql.Graph

variable {g : Graph} {kind : Kind} {operands : List NodeId}

/-- A graph that grows and stays well-formed. -/
structure Grows (careful : Prop) (g g' : Graph) : Prop where
  extension : Extends g g'
  wellFormed : g.WellFormed careful → g'.WellFormed careful

variable {careful : Prop}

theorem Grows.refl (g : Graph) : Grows careful g g := ⟨.refl g, id⟩

theorem Grows.trans {g' g'' : Graph} (h : Grows careful g g') (h' : Grows careful g' g'') :
    Grows careful g g'' :=
  ⟨h.1.trans h'.1, fun hw => h'.2 (h.2 hw)⟩

theorem Grows.push (hn : g.WellFormed careful → n.Fits g careful) :
    Grows careful g { g with nodes := g.nodes.push n } where
  extension := extends_push g n
  wellFormed := by
    intro hw id m hm
    by_cases hid : id < g.size
    · rw [node?_push_of_lt g n id hid] at hm
      exact (hw id m hm).mono ((extends_push g n).before id)
    · have hsize : id < g.size + 1 := by simpa [size] using lt_size_of_node? hm
      obtain rfl : id = g.size := Nat.le_antisymm (Nat.lt_succ_iff.1 hsize) (Nat.not_lt.1 hid)
      obtain rfl : n = m := by
        rw [node?_push_size] at hm
        exact Option.some.inj hm
      exact (hn hw).mono ((extends_before_size g).trans ((extends_push g n).before g.size))

/-- The action lets the graph grow, also when it fails. -/
def SafeAt {α : Type} (careful : Prop) (m : Build α) (g : Graph) : Prop :=
  Meets m g (fun _ g' => Grows careful g g') (fun _ g' => Grows careful g g')

/-- The action lets every graph grow, also when it fails. -/
def Safe {α : Type} (careful : Prop) (m : Build α) : Prop := ∀ g, SafeAt careful m g

theorem Meets.ask {f : Graph → Except Error α} {post : α → Graph → Prop}
    {fault : Error → Graph → Prop} (hp : ∀ a, f g = .ok a → post a g) (hf : ∀ e, fault e g) :
    Meets (ask f) g post fault := by
  unfold Meets Build.ask
  cases hfg : f g with
  | ok a => exact hp a hfg
  | error e => exact hf e

namespace Safe

variable {α β : Type}

/-- What is asked may be used by the rest of the action. -/
theorem ask_bind {f : Graph → Except Error α} {k : α → Build β}
    (h : ∀ a, f g = .ok a → SafeAt careful (k a) g) : SafeAt careful (ask f >>= k) g :=
  .bind (Meets.ask h fun _ => .refl g)

/-- The rest of an action starts in a graph that has grown. -/
theorem bind {m : Build α} {k : α → Build β} (hm : Safe careful m) (hk : ∀ a, Safe careful (k a)) :
    Safe careful (m >>= k) := by
  intro g
  refine .bind ((hm g).mono (fun a g' hg => ?_) fun e g' hg => hg)
  exact (hk a g').mono (fun _ _ h => hg.trans h) fun _ _ h => hg.trans h

theorem pure (a : α) : Safe careful (Pure.pure a : Build α) := fun g => .pure (.refl g)

theorem throw (e : Error) : Safe careful (MonadExcept.throw e : Build α) :=
    fun g => .throw (.refl g)

theorem mapM {f : α → Build β} (hf : ∀ a, Safe careful (f a)) (as : List α) :
    Safe careful (as.mapM f) := by
  induction as with
  | nil => exact pure _
  | cons a rest ih =>
    rw [List.mapM_cons]
    exact (hf a).bind fun _ => ih.bind fun _ => pure _

end Safe

theorem safeAt_push {shape : Shape} (h : g.WellFormed careful → Node.Fits ⟨kind, shape⟩ g careful) :
    SafeAt careful (push kind shape) g :=
  Grows.push h

theorem safeAt_pushValue {typed : Typed} (h : g.WellFormed careful → g.ValueFits typed kind) :
    SafeAt careful (pushValue kind operands typed) g := by
  refine Safe.ask_bind fun shape hshape => safeAt_push fun hw => ?_
  cases hshape
  unfold Graph.valueShape
  split
  · exact h hw
  · exact h hw

theorem safeAt_pushNamed {dtype : DataType}
    (h : ∀ name, g.WellFormed careful → g.ValueFits (.plain dtype name) kind) :
    SafeAt careful (pushNamed kind operands dtype) g :=
  Safe.ask_bind fun name _ => safeAt_pushValue (h name)

/-- What a check has found may be used by the rest of the action. -/
theorem safeAt_check_bind {r : Except Error α} {k : α → Build β}
    (h : ∀ a, r = .ok a → SafeAt careful (k a) g) :
    SafeAt careful (check r >>= k) g := Safe.ask_bind h

theorem safeAt_ite {c : Prop} [Decidable c] {m m' : Build β}
    (h : c → SafeAt careful m g) (h' : ¬c → SafeAt careful m' g) :
    SafeAt careful (if c then m else m') g := by
  split
  · next hc => exact h hc
  · next hc => exact h' hc

/-- An action that goes on only if nothing speaks against it. -/
theorem safeAt_unless {c : Prop} [Decidable c] {e : Error} {k : α → Build β}
    {m : Build β} (h : ¬c → SafeAt careful m g) :
    SafeAt careful (if c then MonadExcept.throw e >>= k else m) g :=
  safeAt_ite (fun _ => Safe.throw e g) h

section Collections

variable {g : Graph}

theorem safe_sourceOf (space name : String) (fields : List Field) :
    Safe careful (Call.sourceOf space name fields) := by
  refine fun g => safeAt_check_bind fun schema hs => safeAt_push fun _ => ⟨rfl, ?_⟩
  obtain ⟨_, hv, hp⟩ := bind_ok hs
  cases hp
  exact hv

theorem safe_column (collection : NodeId) (name : String) :
    Safe careful (column collection name) := by
  refine fun g => Safe.ask_bind fun field hf => safeAt_push fun _ => ?_
  obtain ⟨schema, hs, hfind⟩ := bind_ok hf
  refine ⟨schema, name, field, hs, rfl, ?_, rfl⟩
  unfold Schema.field at hfind
  split at hfind
  · next hsome => cases hfind; exact hsome
  · cases hfind

theorem safe_columns (collection : NodeId) : Safe careful (columns collection) :=
  fun g => Safe.ask_bind fun _ _ => Safe.mapM (safe_column collection) _ g

theorem safe_project (input : NodeId) (fields : List NodeId) :
    Safe careful (project input fields) := by
  refine fun g => Safe.ask_bind fun s hs => safeAt_unless fun hne => ?_
  exact Safe.ask_bind fun schema hschema => safeAt_push fun _ =>
    ⟨⟨s, hs⟩, by simpa using hne, hschema⟩

theorem safe_summary (input : NodeId) (fields : List NodeId) :
    Safe careful (summary input fields) := by
  refine fun g => Safe.ask_bind fun s hs => safeAt_unless fun hne => ?_
  exact Safe.ask_bind fun schema hschema => safeAt_push fun _ =>
    ⟨⟨s, hs⟩, by simpa using hne, hschema⟩

/-- A truth value is a value of that type. -/
theorem dtypeOf_of_expectBoolean {id : NodeId} (h : g.expectBoolean id = .ok ()) :
    g.dtypeOf id = .ok .boolean := by
  obtain ⟨dtype, hd, hif⟩ := bind_ok h
  split at hif
  · next hb => rw [hd, hb]
  · cases hif

theorem safe_filter (input predicate : NodeId) : Safe careful (filter input predicate) :=
  fun _ => Safe.ask_bind fun _ hs => Safe.ask_bind fun _ hp => safeAt_push fun _ =>
    ⟨hs, dtypeOf_of_expectBoolean hp⟩

/-- A condition that may be missing is looked up first. -/
theorem safeAt_having_bind {having : Option NodeId} {k : Build β}
    (h : (∀ p ∈ having, g.dtypeOf p = .ok .boolean) → SafeAt careful k g) :
    SafeAt careful (match having with
      | some p => ask (·.expectBoolean p) >>= fun _ => k
      | none => k) g := by
  cases having with
  | none => exact h (by simp)
  | some p =>
    exact Safe.ask_bind fun _ hp => h (by simpa using dtypeOf_of_expectBoolean hp)

theorem safe_groupBy (input : NodeId) (keys aggregates : List NodeId) (having : Option NodeId) :
    Safe careful (groupBy input keys aggregates having) := by
  refine fun g => safeAt_having_bind fun hp => Safe.ask_bind fun s hs => safeAt_unless fun hne => ?_
  exact Safe.ask_bind fun schema hschema => safeAt_push fun _ =>
    ⟨⟨s, hs⟩, by simpa using hne, hschema, hp⟩

theorem safe_mutate (input : NodeId) (keys mutates : List NodeId) :
    Safe careful (mutate input keys mutates) :=
  fun _ => Safe.ask_bind fun s hs => Safe.ask_bind fun _ hschema => safeAt_push fun _ =>
    ⟨⟨s, hs⟩, hschema⟩

theorem safe_sort (input : NodeId) (keys : List SortKey) : Safe careful (sort input keys) := by
  refine fun g => Safe.ask_bind fun s hs => safeAt_unless fun hne => ?_
  exact Safe.ask_bind fun _ hv => safeAt_push fun _ => ⟨hs, by simpa using hne, hv⟩

/-- Nothing is checked about the input if values are given, so a careful caller does it. -/
theorem safeAt_distinct (input : NodeId) (fields : List NodeId)
    (hc : careful → g.IsRelation input) : SafeAt careful (distinct input fields) g := by
  have hshow : ∀ fields g', Grows careful g g' → SafeAt careful (do
      let schema ← ask (·.fieldSchema fields)
      push (.distinct input fields) (.collection schema)) g' := by
    intro fields g' hg
    exact Safe.ask_bind fun _ hschema => safeAt_push fun _ =>
      ⟨fun hcareful => hg.extension.isRelation (hc hcareful), hschema⟩
  unfold distinct
  split
  · refine .bind ((safe_columns input g).imp fun columns g' hg => ?_)
    exact (hshow columns g' hg).mono (fun _ _ h => hg.trans h) fun _ _ h => hg.trans h
  · exact hshow fields g (.refl g)

theorem safe_slice (input : NodeId) (start stop step : Option Int64) :
    Safe careful (slice input start stop step) :=
  fun _ => Safe.ask_bind fun _ hs => safeAt_push fun _ => hs

theorem safe_join (left right : NodeId) (predicate : Option NodeId) (how : JoinKind) :
    Safe careful (join left right predicate how) := by
  refine fun g => safeAt_unless fun hne => Safe.ask_bind fun ls hl => Safe.ask_bind fun rs hr =>
    safeAt_having_bind fun hp => ?_
  exact safeAt_check_bind fun schema hschema => safeAt_push fun _ =>
    ⟨hne, ls, rs, hl, hr, hp, rfl, hschema⟩

theorem safe_union (left right : NodeId) (unique : Bool) :
    Safe careful (union left right unique) := by
  refine fun g => Safe.ask_bind fun s hl => Safe.ask_bind fun other hr =>
    safeAt_unless fun heq => ?_
  obtain rfl : other = s := by simpa using heq
  exact safeAt_push fun _ => ⟨hl, hr⟩

end Collections

section Values

variable {id : NodeId} {t : Typed}

theorem safe_literal (value : Value) : Safe careful (literal value) := by
  intro g
  unfold literal
  split
  · next dtype hd =>
    refine safeAt_push fun _ t ht => ?_
    rw [hd] at ht
    exact Option.some.inj ht
  · exact Safe.throw _ g

theorem safe_null (dtype : DataType) : Safe careful (null dtype) :=
  fun _ => safeAt_push fun _ t ht => by cases ht

theorem safe_binary (op : BinaryOp) (lhs rhs : NodeId) : Safe careful (binary op lhs rhs) :=
  fun _ => Safe.ask_bind fun l hl => Safe.ask_bind fun r hr => safeAt_check_bind fun _ ht =>
    safeAt_pushNamed fun _ _ => ⟨l, r, hl, hr, ht⟩

theorem safe_unary (op : UnaryOp) (input : NodeId) : Safe careful (unary op input) := by
  refine fun g => Safe.ask_bind fun dtype hd => safeAt_unless fun ha => ?_
  have hallowed : unaryAllows op dtype = true := by simpa using ha
  exact safeAt_pushNamed fun _ _ => ⟨hd, hallowed⟩

theorem safe_math (func : MathFunc) (input : NodeId) : Safe careful (math func input) := by
  refine fun g => Safe.ask_bind fun dtype hd => safeAt_unless fun hn => ?_
  exact safeAt_pushNamed fun _ _ => ⟨dtype, hd, by simpa using hn, rfl⟩

theorem safe_datetimePart (input : NodeId) (part : DatetimePart) :
    Safe careful (datetimePart input part) := by
  refine fun g => Safe.ask_bind fun dtype hd => safeAt_unless fun hn => ?_
  obtain rfl : dtype = .datetime := by simpa using hn
  exact safeAt_pushNamed fun _ _ => ⟨hd, rfl⟩

theorem valueFits_of_typedOf (hw : g.WellFormed careful) (hn : g.node id = .ok n)
    (ht : g.typedOf id = .ok t) : g.ValueFits t n.kind := by
  obtain ⟨m, hm, htyped⟩ := bind_ok ht
  obtain rfl : n = m := Except.ok.inj (hn.symm.trans hm)
  have hfits := (hw id n (node_eq_ok_iff.1 hn)).mono (before_extends g id)
  obtain ⟨kind, shape⟩ := n
  cases shape with
  | collection schema => cases htyped
  | sequence typed | scalar typed => cases htyped; exact hfits

theorem typedOf_dtypeOf (h : g.typedOf id = .ok t) :
    g.dtypeOf id = .ok t.dtype := dtypeOf_eq_ok_iff.2 ⟨t, h, rfl⟩

theorem safe_asType (input : NodeId) (dtype : DataType) : Safe careful (asType input dtype) := by
  refine fun g => Safe.ask_bind fun n hn => Safe.ask_bind fun t ht => ?_
  refine safeAt_ite (fun _ => Safe.pure input g) fun hne => ?_
  refine safeAt_ite (fun _ => safeAt_check_bind fun _ _ => ?_) fun _ => ?_
  all_goals
    split
    · next c hk =>
      refine safeAt_pushValue fun hw => ?_
      have hfits := valueFits_of_typedOf hw hn ht
      rw [hk] at hfits ⊢
      exact hfits
    · exact safeAt_pushValue fun _ => ⟨typedOf_dtypeOf ht, hne⟩

theorem safe_rename (input : NodeId) (name : String) : Safe careful (rename input name) := by
  refine fun g => safeAt_unless fun _ => Safe.ask_bind fun n hn => ?_
  have hfits : g.WellFormed careful → n.Fits g careful := fun hw =>
    (hw input n (node_eq_ok_iff.1 hn)).mono (before_extends g input)
  obtain ⟨kind, shape⟩ := n
  cases shape with
  | sequence t | scalar t => exact safeAt_push fun hw => hfits hw
  | collection schema => exact Safe.throw _ g

theorem registerFunction_meets (f : UserFunction) (g : Graph) :
    Meets (registerFunction f) g (fun id g' => Grows careful g g' ∧ g'.function id = .ok f)
      fun _ g' => Grows careful g g' := by
  cases hfind : g.functions.findIdx? (· == f) with
  | some id =>
    have hfound : g.functions[id]? = some f := by
      obtain ⟨hlt, heq, _⟩ := Array.findIdx?_eq_some_iff_getElem.1 hfind
      simpa [hlt] using heq
    have hf : g.function id = .ok f := by simp [Graph.function, hfound]
    simpa [Meets, registerFunction, hfind] using ⟨Grows.refl g, hf⟩
  | none =>
    let g' : Graph := { g with functions := g.functions.push f }
    have hext : Extends g g' := ⟨id, fun {i u} hu => by
      obtain ⟨hlt, _⟩ := Array.getElem?_eq_some_iff.1 hu
      simpa [g', Array.getElem?_push, Nat.ne_of_lt hlt] using hu⟩
    have hgrows : Grows careful g g' := ⟨hext, fun hw i n hn => (hw i n hn).mono (hext.before i)⟩
    have hf : g'.function g.functions.size = .ok f := by simp [g', Graph.function]
    simpa [Meets, registerFunction, hfind] using ⟨hgrows, hf⟩

theorem safe_map (input : NodeId) (function : String) (output : DataType) :
    Safe careful (map input function output) := by
  refine fun g => Safe.ask_bind fun t ht => .bind ?_
  refine (registerFunction_meets _ g).imp fun id g' ⟨hg, hf⟩ => ?_
  refine (safeAt_pushNamed fun name _ => ?_).mono (fun _ _ h => hg.trans h) fun _ _ h => hg.trans h
  exact ⟨⟨t.dtype, Keeps.dtypeOf _ hg.extension _ (typedOf_dtypeOf ht)⟩, _, hf, rfl⟩

theorem safe_text (input : NodeId) (op : TextOp) : Safe careful (text input op) := by
  refine fun g => Safe.ask_bind fun t ht => safeAt_unless fun hs => ?_
  have hstring : t.dtype = .string := by simpa using hs
  exact safeAt_pushValue fun _ => ⟨hstring ▸ typedOf_dtypeOf ht, rfl⟩

end Values

section Elements

theorem safe_isNull (input : NodeId) : Safe careful (isNull input) :=
  fun _ => Safe.ask_bind fun t ht => safeAt_pushValue fun _ => ⟨⟨t.dtype, typedOf_dtypeOf ht⟩, rfl⟩

theorem safe_notNull (input : NodeId) : Safe careful (notNull input) :=
  fun _ => Safe.ask_bind fun t ht => safeAt_pushValue fun _ => ⟨⟨t.dtype, typedOf_dtypeOf ht⟩, rfl⟩

theorem safe_fillNull (input value : NodeId) : Safe careful (fillNull input value) := by
  refine fun g => Safe.ask_bind fun t ht => Safe.ask_bind fun other ho => safeAt_unless fun ha => ?_
  have haccepts : t.dtype.accepts other = true := by simpa using ha
  have hinput := typedOf_dtypeOf ht
  exact safeAt_pushValue fun _ => ⟨hinput, other, ho, haccepts⟩

theorem safe_membership (input : NodeId) (values : Membership) (negated : Bool) :
    Safe careful (membership input values negated) := by
  refine fun g => Safe.ask_bind fun t ht => ?_
  have hpush : g.MembershipFits t.dtype values → SafeAt careful (pushValue
      (.element (if negated then .notIn input values else .isIn input values)) [input]
      (.plain .boolean t.name)) g := by
    intro hm
    refine safeAt_pushValue fun _ => ?_
    cases negated with
    | false | true => exact ⟨rfl, t.dtype, typedOf_dtypeOf ht, hm⟩
  cases values with
  | literals ids => exact Safe.ask_bind fun _ hc => hpush hc
  | subquery id =>
    exact Safe.ask_bind fun _ hc => Safe.ask_bind fun c ho => hpush ⟨hc, c, ho⟩

theorem safe_inValues (input : NodeId) (values : List Value) (negated : Bool) :
    Safe careful (inValues input values negated) := by
  refine fun g => safeAt_unless fun _ => Safe.ask_bind fun dtype _ => ?_
  have hmember : ∀ v, Safe careful (member dtype v) := fun v g =>
    safeAt_ite (fun _ => safe_null dtype g) fun _ => safe_literal v g
  exact (Safe.mapM hmember values).bind (fun ids => safe_membership input (.literals ids) negated) g

theorem safe_between (input : NodeId) (left right : Option NodeId) (inclusive : Bool) :
    Safe careful (between input left right inclusive) := by
  refine fun g => safeAt_unless fun hb => Safe.ask_bind fun t ht => Safe.ask_bind fun _ hc => ?_
  have hsome : left.isSome ∨ right.isSome := by
    cases left <;> cases right <;> simp_all
  exact safeAt_pushValue fun _ => ⟨rfl, hsome, t.dtype, typedOf_dtypeOf ht, hc⟩

theorem safe_ifElse (condition consequent alternative : NodeId) :
    Safe careful (ifElse condition consequent alternative) := by
  refine fun g => Safe.ask_bind fun _ hc => Safe.ask_bind fun dtype hd => ?_
  obtain ⟨ts, hts, ht⟩ := bind_ok hd
  exact safeAt_pushNamed fun _ _ => ⟨dtypeOf_of_expectBoolean hc, ts, hts, ht⟩

theorem safe_switch (subject : Option NodeId) (conditions results : List NodeId)
    (fallback : Option NodeId) : Safe careful (switch subject conditions results fallback) := by
  refine fun g => safeAt_unless fun hb => Safe.ask_bind fun _ hc => Safe.ask_bind fun dtype hd => ?_
  obtain ⟨ts, hts, ht⟩ := bind_ok hd
  have hbranches : conditions ≠ [] ∧ conditions.length = results.length := by simpa using hb
  exact safeAt_pushNamed fun _ _ => ⟨hbranches.1, hbranches.2, hc, ts, hts, ht⟩

theorem safe_cut (input : NodeId) (bins : List Value) (labels : Option (List Value))
    (options : CutOptions) : Safe careful (cut input bins labels options) := by
  refine fun g => Safe.ask_bind fun t ht => safeAt_unless fun hb => safeAt_unless fun hl =>
    safeAt_check_bind fun _ hbins => safeAt_check_bind fun dtype hd => safeAt_pushValue fun _ => ?_
  exact ⟨⟨t.dtype, typedOf_dtypeOf ht, hbins⟩, Nat.not_lt.1 hb, Decidable.not_not.1 hl, hd⟩

end Elements

section Aggregates

theorem safe_reduceWith (func : Reduction) (input : NodeId) (ddof : Int64) :
    Safe careful (reduceWith func input ddof) := by
  refine fun g => Safe.ask_bind fun n hn => safeAt_ite (fun hcoll => safeAt_unless fun hf => ?_) ?_
  · have hcount : func = .count := by simpa using hf
    refine safeAt_push fun _ => .inl ⟨?_, hcount, rfl⟩
    have hnode := node_eq_ok_iff.1 hn
    obtain ⟨kind, shape⟩ := n
    cases shape with
    | collection schema => exact ⟨schema, schemaOf_eq_ok_iff.2 ⟨_, hnode, rfl⟩⟩
    | sequence t | scalar t => cases hcoll
  · exact fun _ => Safe.ask_bind fun dtype hd => safeAt_check_bind fun result hr =>
      Safe.ask_bind fun name _ => safeAt_push fun _ => .inr ⟨dtype, hd, hr⟩

theorem safe_cumulative (func : Cumulative) (input : NodeId) (spec : WindowSpec) (unique : Bool) :
    Safe careful (cumulative func input spec unique) :=
  fun _ => Safe.ask_bind fun _ hw => Safe.ask_bind fun t ht => safeAt_check_bind fun _ hd =>
    safeAt_push fun _ => ⟨hw, t.dtype, typedOf_dtypeOf ht, hd⟩

theorem safe_rank (func : Rank) (spec : WindowSpec) : Safe careful (rank func spec) := by
  refine fun g => Safe.ask_bind fun _ hw => safeAt_unless fun ho =>
    safeAt_push fun _ => ⟨hw, rfl, ?_⟩
  simpa using ho

theorem safe_shift (func : Shift) (input : NodeId) (offset : Int64) (default : Option Value)
    (spec : WindowSpec) : Safe careful (shift func input offset default spec) := by
  refine fun g => Safe.ask_bind fun _ hw => Safe.ask_bind fun t ht => ?_
  have hinput := typedOf_dtypeOf ht
  split
  · next d hd =>
    refine safeAt_check_bind fun top htop => safeAt_push fun _ => ⟨hw, hinput, fun d' hd' => ?_⟩
    cases hd.symm.trans hd'
    exact ⟨top, htop⟩
  · next hnone =>
    refine safeAt_push fun _ => ⟨hw, hinput, fun d' hd' => ?_⟩
    cases hnone.symm.trans hd'

end Aggregates

end Build

namespace Call

open Build PlanSql.Graph

variable {careful : Prop}

theorem safe_discard {m : Build α} (hm : SafeAt careful m g) :
    SafeAt careful (discard m) g := .bind (hm.imp fun _ _ hg => hg)

/-- Every builder lets the graph grow. -/
theorem safeAt_action (c : Call) (g : Graph) (hc : careful → c.NamesCollection g) :
    SafeAt careful c.action g := by
  cases c with
  | source space name fields => exact safe_discard (safe_sourceOf space name fields g)
  | column collection name => exact safe_discard (safe_column collection name g)
  | columns collection => exact safe_discard (safe_columns collection g)
  | project input fields => exact safe_discard (safe_project input fields g)
  | filter input predicate => exact safe_discard (safe_filter input predicate g)
  | groupBy input keys aggregates having =>
    exact safe_discard (safe_groupBy input keys aggregates having g)
  | mutate input keys mutates => exact safe_discard (safe_mutate input keys mutates g)
  | sort input keys => exact safe_discard (safe_sort input keys g)
  | distinct input fields =>
    exact safe_discard (safeAt_distinct input fields fun h => isCollection_iff.1 (hc h))
  | slice input start stop step => exact safe_discard (safe_slice input start stop step g)
  | summary input fields => exact safe_discard (safe_summary input fields g)
  | join left right predicate how => exact safe_discard (safe_join left right predicate how g)
  | union left right unique => exact safe_discard (safe_union left right unique g)
  | literal value => exact safe_discard (safe_literal value g)
  | null dtype => exact safe_discard (safe_null dtype g)
  | binary op lhs rhs => exact safe_discard (safe_binary op lhs rhs g)
  | unary op input => exact safe_discard (safe_unary op input g)
  | math func input => exact safe_discard (safe_math func input g)
  | datetimePart input part => exact safe_discard (safe_datetimePart input part g)
  | asType input dtype => exact safe_discard (safe_asType input dtype g)
  | rename input name => exact safe_discard (safe_rename input name g)
  | map input function output => exact safe_discard (safe_map input function output g)
  | text input op => exact safe_discard (safe_text input op g)
  | isNull input => exact safe_discard (safe_isNull input g)
  | notNull input => exact safe_discard (safe_notNull input g)
  | fillNull input value => exact safe_discard (safe_fillNull input value g)
  | inValues input values negated => exact safe_discard (safe_inValues input values negated g)
  | inSequence input sequence negated =>
    exact safe_discard (safe_membership input (.subquery sequence) negated g)
  | between input left right inclusive =>
    exact safe_discard (safe_between input left right inclusive g)
  | ifElse condition consequent alternative =>
    exact safe_discard (safe_ifElse condition consequent alternative g)
  | switch subject conditions results fallback =>
    exact safe_discard (safe_switch subject conditions results fallback g)
  | cut input bins labels options => exact safe_discard (safe_cut input bins labels options g)
  | reduce func input ddof => exact safe_discard (safe_reduceWith func input ddof g)
  | cumulative func input spec unique =>
    exact safe_discard (safe_cumulative func input spec unique g)
  | rank func spec => exact safe_discard (safe_rank func spec g)
  | shift func input offset default spec =>
    exact safe_discard (safe_shift func input offset default spec g)

/-- A call lets the graph grow, whether it succeeds or fails. -/
theorem grows_after (c : Call) (g : Graph) (hc : careful → c.NamesCollection g) :
    Grows careful g (c.after g) := by
  have h := safeAt_action c g hc
  unfold SafeAt Meets at h
  unfold after
  split at h
  · next hm => rw [hm]; exact h
  · next hm => rw [hm]; exact h

end Call

theorem BuiltBy.wellFormed {allowed : Graph → Call → Prop} {careful : Prop}
    (h : BuiltBy allowed g) (hc : careful → ∀ g c, allowed g c → c.NamesCollection g) :
    g.WellFormed careful := by
  induction h with
  | empty => intro id n hn; simp [Graph.node?, Graph.empty] at hn
  | call c _ ha ih => exact (c.grows_after _ fun h => hc h _ c ha).wellFormed ih

/-- Whatever the calls are, all operands are in order but perhaps those of `distinct`. -/
theorem BuiltBy.fits {allowed : Graph → Call → Prop} (h : BuiltBy allowed g) :
    g.WellFormed False := h.wellFormed False.elim

end PlanSql

import PlanSql.Proofs.Statements.References

/-!
# The collection that a value reads

A value that is compiled on its own is selected from the first collection that a depth-first search
of its operands meets. The search goes into the sequences of membership tests as well, but only if
the tested value reads nothing. So a value that reads one collection outside of its subqueries is
selected from that collection, unless it tests a value that reads nothing, such as a literal, and
then it may be selected from what the sequence of the test reads.
-/

namespace PlanSql

open Compile

namespace Graph

variable {g : Graph} {v x y c : NodeId} {n : Node} {slot : Slot}

/-- Something stands in a value outside of its subqueries. -/
inductive Within (g : Graph) (v : NodeId) : NodeId → Prop
  | self : Within g v v
  | operand {x y : NodeId} {n : Node} {slot : Slot} : Within g v x → g.isCollection x = false →
    g.node? x = some n → (slot, y) ∈ n.kind.operands → slot ≠ .subquery → Within g v y

/-- A value reads a collection outside of its subqueries. -/
def Reads (g : Graph) (v c : NodeId) : Prop := g.Within v c ∧ g.isCollection c = true

/-- A value that reads nothing is looked for in a sequence, outside of the subqueries of `v`. -/
def TestsConstant (g : Graph) (v sequence : NodeId) : Prop :=
  ∃ test n, g.Within v test ∧ g.node? test = some n ∧ n.kind.subquery? = some sequence ∧
    ∀ x c, (.input, x) ∈ n.kind.operands → ¬ g.Reads x c

theorem Within.of_operand (hc : g.isCollection v = false) (hn : g.node? v = some n)
    (ho : (slot, x) ∈ n.kind.operands) (hslot : slot ≠ .subquery) (h : g.Within x y) :
    g.Within v y := by
  induction h with
  | self => exact .operand .self hc hn ho hslot
  | operand _ hc' hn' ho' hslot' ih => exact .operand ih hc' hn' ho' hslot'

/-- What stands in a value is the value, or stands in one of its operands. -/
theorem Within.eq_or_operand (hn : g.node? v = some n) (h : g.Within v y) :
    y = v ∨ ∃ slot x, (slot, x) ∈ n.kind.operands ∧ slot ≠ .subquery ∧ g.Within x y := by
  induction h with
  | self => exact .inl rfl
  | operand _ hc hm ho hslot ih =>
    refine .inr ?_
    rcases ih with rfl | ⟨slot, x, hx, hslot', hwithin⟩
    · cases hn.symm.trans hm
      exact ⟨_, _, ho, hslot, .self⟩
    · exact ⟨slot, x, hx, hslot', hwithin.operand hc hm ho hslot⟩

theorem Within.eq_of_isCollection (hc : g.isCollection x = true) (h : g.Within x y) : y = x := by
  induction h with
  | self => rfl
  | operand _ hno _ _ _ ih =>
    subst ih
    simp [hc] at hno

theorem ReadsFrom.of_reads {own : NodeId → Prop} (h : g.ReadsFrom own v)
    (hv : g.isCollection v = false) (hr : g.Reads v c) : own c := by
  induction h with
  | @value v n hn hown _ ih =>
    rcases hr.1.eq_or_operand hn with rfl | ⟨slot, x, hx, hslot, hwithin⟩
    · simp [hr.2] at hv
    · cases hcoll : g.isCollection x with
      | false => exact ih slot x hx hslot hcoll hcoll ⟨hwithin, hr.2⟩
      | true => exact hwithin.eq_of_isCollection hcoll ▸ hown slot x hx hslot hcoll

def Finds (g : Graph) (v : NodeId) : Option NodeId → Prop
  | none => ∀ c, ¬ g.Reads v c
  | some c => g.Reads v c ∨ ∃ sequence, g.TestsConstant v sequence ∧
    g.owningCollection sequence = .ok c

theorem Finds.of_operand (hc : g.isCollection v = false) (hn : g.node? v = some n)
    (ho : (slot, x) ∈ n.kind.operands) (hslot : slot ≠ .subquery) (h : g.Finds x (some c)) :
    g.Finds v (some c) := by
  rcases h with ⟨hwithin, hcoll⟩ | ⟨sequence, ⟨test, m, hwithin, htest⟩, howner⟩
  · exact .inl ⟨.of_operand hc hn ho hslot hwithin, hcoll⟩
  · exact .inr ⟨sequence, ⟨test, m, .of_operand hc hn ho hslot hwithin, htest⟩, howner⟩

theorem finds_none (hc : g.isCollection v = false) (hn : g.node? v = some n)
    (h : ∀ slot x, (slot, x) ∈ n.kind.operands → slot ≠ .subquery → g.Finds x none) :
    g.Finds v none := by
  rintro c ⟨hwithin, hcoll⟩
  rcases hwithin.eq_or_operand hn with rfl | ⟨slot, x, hx, hslot, hbelow⟩
  · simp [hc] at hcoll
  · exact h slot x hx hslot c ⟨hbelow, hcoll⟩

theorem firstM_finds {f : NodeId → Except Error (Option NodeId)} {P : NodeId → Option NodeId → Prop}
    {ids : List NodeId} (h : ∀ x ∈ ids, ∃ r, f x = .ok r ∧ P x r) :
    ∃ r, firstM f ids = .ok r ∧ (r = none → ∀ x ∈ ids, P x none) ∧
      ∀ c, r = some c → ∃ x ∈ ids, P x (some c) := by
  induction ids with
  | nil => exact ⟨none, rfl, fun _ => List.forall_mem_nil _, by simp⟩
  | cons x rest ih =>
    obtain ⟨r, hr, hP⟩ := h x (.head _)
    cases r with
    | some c =>
      refine ⟨some c, by simp [firstM, hr, bind, Except.bind, pure, Except.pure], by simp, ?_⟩
      exact fun _ hc => ⟨x, .head _, hc ▸ hP⟩
    | none =>
      obtain ⟨r, hrest, hnone, hsome⟩ := ih fun y hy => h y (.tail _ hy)
      refine ⟨r, by simp [firstM, hr, bind, Except.bind, hrest],
        fun hr => List.forall_mem_cons.2 ⟨hP, hnone hr⟩, fun c hc => ?_⟩
      obtain ⟨y, hy, hPy⟩ := hsome c hc
      exact ⟨y, .tail _ hy, hPy⟩

theorem firstCollection_eq (hn : g.node? v = some n) (depth : Nat) :
    g.firstCollection (depth + 1) v =
      if n.isCollection then .ok (some v) else firstM (g.firstCollection depth) n.children := by
  simp [firstCollection, node, hn, bind, Except.bind, pure, Except.pure]

theorem operands_of_subquery? {kind : Kind} {sequence : NodeId}
    (h : kind.subquery? = some sequence) :
    ∃ input, kind.operands = [(.input, input), (.subquery, sequence)] := by
  unfold Kind.subquery? at h
  split at h
  · next input _ => cases h; exact ⟨input, rfl⟩
  · next input _ => cases h; exact ⟨input, rfl⟩
  · cases h

/-- A membership test was built over a sequence that reads a collection. -/
theorem ValueFits.subquery_owner {typed : Typed} {kind : Kind} {sequence : NodeId}
    (h : g.ValueFits typed kind) (hq : kind.subquery? = some sequence) :
    ∃ c, g.owningCollection sequence = .ok c := by
  unfold Kind.subquery? at hq
  split at hq
  · cases hq
    obtain ⟨_, _, _, _, howner⟩ := h
    exact howner
  · cases hq
    obtain ⟨_, _, _, _, howner⟩ := h
    exact howner
  · cases hq

/-- The search ends, and comes to what it may come to. By induction on the position of the value,
whose operands all stand before it. -/
theorem firstCollection_finds (hw : g.WellFormed False) {depth : Nat} (hlt : v < depth)
    (hle : depth ≤ g.size + 1) (hv : g.IsValue v ∨ g.isCollection v = true) :
    ∃ r, g.firstCollection depth v = .ok r ∧ g.Finds v r := by
  induction v using Nat.strongRecOn generalizing depth with
  | ind v ih =>
    obtain ⟨depth, rfl⟩ : ∃ d, depth = d + 1 := Nat.exists_eq_add_one.2 (Nat.zero_lt_of_lt hlt)
    rcases hv with hv | hcoll
    · obtain ⟨n, t, hn, ht⟩ := isValue_iff.1 hv
      have hvc := not_isCollection_of_isValue hv
      have hno : n.isCollection = false := by simpa [isCollection, hn] using hvc
      have hext := before_extends g v
      have hfits := hw.valueFits hn ht
      have hdepth := Nat.le_of_lt_succ hlt
      have hshallow := Nat.le_of_succ_le hle
      have hoperand : ∀ o ∈ n.kind.operands,
          ∃ r, g.firstCollection depth o.2 = .ok r ∧ g.Finds o.2 r := by
        intro o ho
        rcases hfits.operand o ho with hval | ⟨_, hrel⟩
        · have hbefore := lt_of_isValue_before hval
          exact ih o.2 hbefore (Nat.lt_of_lt_of_le hbefore hdepth) hshallow
            (.inl (hext.isValue hval))
        · have hbefore := lt_of_isRelation_before hrel
          exact ih o.2 hbefore (Nat.lt_of_lt_of_le hbefore hdepth) hshallow
            (.inr (isCollection_iff.2 (hext.isRelation hrel)))
      simp only [firstCollection_eq hn, hno, Bool.false_eq_true, if_false, Node.children]
      cases hq : n.kind.subquery? with
      | none =>
        have hslot : ∀ slot x, (slot, x) ∈ n.kind.operands → slot ≠ .subquery := by
          rintro slot x hx rfl
          simp [subquery?_of_mem_operands hx] at hq
        obtain ⟨r, hr, hnone, hsome⟩ := firstM_finds (P := g.Finds)
          (List.forall_mem_map.2 hoperand)
        refine ⟨r, hr, ?_⟩
        cases r with
        | none =>
          exact finds_none hvc hn fun slot x hx _ => hnone rfl x (List.mem_map_of_mem hx)
        | some c =>
          obtain ⟨x, hx, hfinds⟩ := hsome c rfl
          obtain ⟨⟨slot, x⟩, ho, rfl⟩ := List.mem_map.1 hx
          exact hfinds.of_operand hvc hn ho (hslot slot x ho)
      | some sequence =>
        obtain ⟨input, hops⟩ := operands_of_subquery? hq
        obtain ⟨r, hr, hfinds⟩ := hoperand (.input, input) (by simp [hops])
        obtain ⟨r', hr', -⟩ := hoperand (.subquery, sequence) (by simp [hops])
        -- A deeper search comes to the same, so the sequence is searched to its owner.
        obtain ⟨c, hc⟩ := hfits.subquery_owner hq
        have howner := Keeps.owningCollection sequence hext c hc
        obtain rfl : r' = some c := by
          have hdeep := (Extends.refl g).firstCollection hshallow sequence r' hr'
          simp only [owningCollection, hdeep, bind, Except.bind] at howner
          cases r' with
          | none => cases howner
          | some c' => cases howner; rfl
        cases r with
        | some c' =>
          refine ⟨some c', by simp [hops, firstM, hr, bind, Except.bind, pure, Except.pure], ?_⟩
          have hinput : (.input, input) ∈ n.kind.operands := by simp [hops]
          exact hfinds.of_operand hvc hn hinput (by decide)
        | none =>
          refine ⟨some c, by simp [hops, firstM, hr, hr', bind, Except.bind, pure, Except.pure],
            .inr ⟨sequence, ⟨v, n, .self, hn, hq, fun x c' hx => ?_⟩, howner⟩⟩
          obtain rfl : x = input := by simpa [hops] using hx
          exact hfinds c'
    · obtain ⟨n, hn, hcol⟩ : ∃ n, g.node? v = some n ∧ n.isCollection = true := by
        simpa [isCollection, Option.any_eq_true] using hcoll
      exact ⟨some v, by rw [firstCollection_eq hn, if_pos hcol], .inl ⟨.self, hcoll⟩⟩

end Graph

/-- A value that reads a collection outside of its subqueries, and no other collection, is selected
from that collection or from what the sequence of a test reads that tests a value that reads
nothing. -/
theorem value_selected_from {g : Graph} (hb : Built g) {v c : NodeId} (hv : g.IsValue v)
    (hreads : g.Reads v c) (honly : g.ReadsFrom (· = c) v) :
    ∃ owner, g.owningCollection v = .ok owner ∧
      (owner = c ∨ ∃ sequence, g.TestsConstant v sequence ∧
      g.owningCollection sequence = .ok owner) ∧ ∀ env steps id, env.graph = g →
        compileValue env steps v = compileKind env steps id (.project owner [v]) := by
  have hw := hb.fits
  obtain ⟨n, t, hn, -⟩ := isValue_iff.1 hv
  have hlt : v < g.size := Graph.lt_size_of_node? hn
  obtain ⟨r, hr, hfinds⟩ := Graph.firstCollection_finds hw
    (Nat.lt_succ_of_lt hlt) Nat.le.refl (.inl hv)
  cases r with
  | none => exact absurd hreads (hfinds c)
  | some owner =>
    have howner : g.owningCollection v = .ok owner := by
      simp [Graph.owningCollection, hr, bind, Except.bind, pure, Except.pure]
    refine ⟨owner, howner, hfinds.imp_left fun h => ?_, ?_⟩
    · exact honly.of_reads (not_isCollection_of_isValue hv) h
    · rintro env steps id rfl
      funext s
      simp [compileValue, compileKind, check, howner, bind, EStateM.bind]

/-- Whether a flag is set and something is one of the numbers of another table. -/
def Call.flaggedMember (tested : NodeId) : List Call :=
  [.source "" "a" [⟨"flag", .boolean⟩, ⟨"x", .int64⟩], .source "" "b" [⟨"y", .int64⟩],
    .literal (.integer 1), .column 0 "x", .column 1 "y", .inSequence tested 4 false,
    .column 0 "flag", .binary .and 5 6]

theorem Call.reads_flaggedMember {tested : NodeId} (h : tested = 2 ∨ tested = 3) :
    (Call.run (Call.flaggedMember tested)).Reads 7 0 ∧
      (Call.run (Call.flaggedMember tested)).ReadsFrom (· = 0) 7 := by
  have hflag : (Slot.rhs, 6) ∈ (Kind.binary .and 5 6).operands := .tail _ (.head _)
  have htable : (Slot.collection, 0) ∈ (Kind.column 0).operands := .head _
  rcases h with rfl | rfl
  all_goals
    refine ⟨⟨?_, rfl⟩, ?_⟩
    · exact .of_operand rfl rfl hflag (by decide) (.of_operand rfl rfl htable (by decide) .self)
    · exact (@Graph.readsFrom_sound _ 7 (· == 0) 3 rfl).mono fun c hc => by simpa using hc

/-- The test of a column is selected from the table of the column. -/
theorem value_selected_from_flaggedMember :
    (Call.run (Call.flaggedMember 3)).owningCollection 7 = .ok 0 ∧
      ∀ env steps id, env.graph = Call.run (Call.flaggedMember 3) →
        compileValue env steps 7 = compileKind env steps id (.project 0 [7]) := by
  have hb : Built (Call.run (Call.flaggedMember 3)) :=
    BuiltBy.run ⟨trivial, trivial, trivial, trivial, trivial, trivial, trivial, trivial, trivial⟩
  obtain ⟨hreads, honly⟩ := Call.reads_flaggedMember (.inr rfl)
  obtain ⟨owner, howner, -, hcompile⟩ := value_selected_from hb ⟨_, rfl⟩ hreads honly
  obtain rfl : 0 = owner := Except.ok.inj howner
  exact ⟨howner, hcompile⟩

/-- With a literal in place of the column, it is selected from the table of the sequence. -/
theorem flaggedMember_owner : (Call.run (Call.flaggedMember 2)).Reads 7 0 ∧
    (Call.run (Call.flaggedMember 2)).ReadsFrom (· = 0) 7 ∧
    (Call.run (Call.flaggedMember 2)).owningCollection 7 = .ok 1 := by
  obtain ⟨hreads, honly⟩ := Call.reads_flaggedMember (.inl rfl)
  exact ⟨hreads, honly, rfl⟩

end PlanSql

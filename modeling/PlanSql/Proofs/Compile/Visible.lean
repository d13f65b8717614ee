import PlanSql.Proofs.Compile.Naming
import PlanSql.Proofs.Progress.Levels

/-!
# What becomes visible on a level

While joins are compiled ahead, the parts of the joins that are met become visible. What an operator
adds are the collections under its input, or the operator itself if it is a stored table or a union:
an operator is never visible on the level that computes it.
-/

namespace PlanSql

namespace Graph

variable {input : NodeId}

/-- A collection is another one, or stands among the inputs from which the other one is computed. -/
inductive Under (g : Graph) : NodeId → NodeId → Prop
  | refl {id : NodeId} : Under g id id
  | step {id input x : NodeId} {n : Node} : g.node? id = some n → input ∈ inputs n.kind →
    Under g input x → Under g id x

/-- Compiling a collection may make another one visible. -/
inductive Shows (g : Graph) : NodeId → NodeId → Prop
  | self {id : NodeId} {n : Node} : g.node? id = some n → (∀ input, inputs n.kind ≠ [input]) →
    Shows g id id
  | under {id input x : NodeId} {n : Node} : g.node? id = some n → input ∈ inputs n.kind →
    Under g input x → Shows g id x

def MetPart (g : Graph) (root x : NodeId) : Prop := ∃ j, g.IsJoin j ∧ g.Met root j ∧ g.Part j x

variable {g : Graph} {id x y : NodeId}

theorem Under.reach (h : g.Under id x) : g.Reach id x := by
  induction h with
  | refl => exact .refl
  | step hn hinput _ ih =>
    obtain ⟨slot, ho⟩ := Compile.mem_operands_of_mem_inputs hinput
    exact (Reach.operand .refl hn ho).trans ih

theorem Shows.toUnder (h : g.Shows id x) : g.Under id x := by
  cases h with
  | self => exact .refl
  | under hn hinput h => exact .step hn hinput h

/-- What an operator with an input makes visible stands before it. -/
theorem Shows.lt (hord : g.Ordered) {n : Node} (hn : g.node? id = some n)
    (hi : inputs n.kind = [input]) (h : g.Shows id x) : x < id := by
  cases h with
  | self hn' hno =>
    cases hn.symm.trans hn'
    exact absurd hi (hno input)
  | under hn' hinput h =>
    obtain ⟨slot, ho⟩ := Compile.mem_operands_of_mem_inputs hinput
    exact Nat.lt_of_le_of_lt (hord.reach h.reach) (hord.operand hn' ho)

theorem Part.under (h : g.Part id x) : g.Under id x := by
  induction h with
  | refl => exact .refl
  | left hn _ ih | right hn _ ih => exact .step hn (by simp [inputs]) ih

theorem Part.shows (h : g.Part id x) (hj : g.IsJoin id) : g.Shows id x := by
  cases h with
  | refl =>
    obtain ⟨left, right, predicate, how, fields, shape, hn⟩ := hj
    exact .self hn (by simp [inputs])
  | left hn h | right hn h => exact .under hn (by simp [inputs]) h.under

theorem mem_inputs_of_passThrough? {kind : Kind} (h : kind.passThrough? = some input) :
    input ∈ inputs kind := by
  cases kind with
  | filter | sort | slice =>
    cases h
    exact List.mem_singleton_self _
  | _ => cases h

end Graph

namespace Compile

open PlanSql.Sql

variable {g : Graph} {id x : NodeId} {env : Env} {s s' : State}

/-- What a wrapped level stands for is under what was wrapped. -/
theorem under_of_lift {depth : Nat} {lifted : NodeId} (h : lift g depth id = .ok lifted) :
    g.Under id lifted := by
  induction depth generalizing id with
  | zero => cases h
  | succ depth ih =>
    obtain ⟨n, hn, h⟩ := bind_ok h
    have hn := Graph.node_eq_ok_iff.1 hn
    split at h
    · next input hp => exact .step hn (Graph.mem_inputs_of_passThrough? hp) (ih h)
    · cases h
      exact .refl

theorem Reveals.part {source : Source} {visible : Visible} (h : Reveals g source id visible)
    (hx : (visible.lookup x).isSome) : g.Part id x := by
  have hone : ∀ {y : NodeId} {label : Alias},
    (([(y, label)] : Visible).lookup x).isSome → x = y := by
    intro y label hy
    obtain ⟨l, hl⟩ := lookup_isSome_iff.1 hy
    exact (Prod.mk.inj (List.mem_singleton.1 hl)).1
  induction h with
  | table | union | derived =>
    rw [hone hx]
    exact .refl
  | join hn _ _ ihl ihr =>
    rcases lookup_append_isSome.1 hx with hx | hx
    · exact .left hn (ihl hx)
    · exact .right hn (ihr hx)

/-- Of what is visible at the end, everything that is not `new` was visible before. -/
def Unveils (new : NodeId → Prop) (s s' : State) : Prop :=
  ∀ x, (s'.visible.lookup x).isSome → (s.visible.lookup x).isSome ∨ new x

namespace Unveils

variable {new new' : NodeId → Prop} {s s' s'' : State}

theorem of_visible (h : s'.visible = s.visible) : Unveils new s s' := by
  intro x hx
  rw [h] at hx
  exact .inl hx

theorem trans (h : Unveils new s s') (h' : Unveils new s' s'') : Unveils new s s'' := by
  intro x hx
  rcases h' x hx with hx | hnew
  · exact h x hx
  · exact .inr hnew

theorem mono (h : Unveils new s s') (hsub : ∀ x, new x → new' x) : Unveils new' s s' :=
  fun x hx => (h x hx).imp_right (hsub x)

theorem congr (h : Unveils new s s') (hv : s''.visible = s'.visible) : Unveils new s s'' :=
  h.trans (.of_visible hv)

theorem revealing {visible : Visible} (h : ∀ x, (visible.lookup x).isSome → new x) :
    Unveils new s (s.revealing visible) := by
  intro x hx
  rcases lookup_revealing_isSome.1 hx with hx | hx
  · exact .inr (h x hx)
  · exact .inl hx

theorem revealing_one {label : Alias} (h : new id) : Unveils new s (s.revealing [(id, label)]) := by
  apply revealing
  intro x hx
  obtain ⟨l, hl⟩ := lookup_isSome_iff.1 hx
  obtain ⟨rfl, _⟩ := Prod.mk.inj (List.mem_singleton.1 hl)
  exact h

/-- A level that is wrapped shows only what it stands for. -/
theorem prepared {env : Env} {input : NodeId} {clause : Clause} {reads : Bool}
    (h : Prepared env input clause reads s s') (hnew : ∀ x, env.graph.Under input x → new x) :
    Unveils new s s' := by
  cases h with
  | same => exact .of_visible rfl
  | wrapped _ _ hlift _ =>
    intro x hx
    obtain ⟨l, hl⟩ := lookup_isSome_iff.1 hx
    obtain ⟨rfl, _⟩ := Prod.mk.inj (List.mem_singleton.1 hl)
    exact .inr (hnew _ (under_of_lift hlift))

end Unveils

def Job.Unveils (g : Graph) : Job → State → State → Prop
  | .visit id, s, s' => Kept g s → Compile.Unveils (g.Shows id) s s'
  | .select sel, s, s' => Kept g s → Compile.Unveils (g.Under sel.input) s s'
  | .discover root, s, s' => Kept g s → Compile.Unveils (g.MetPart root) s s'
  | .side id _ _, s, s' | .join id _, s, s' => Kept g s → Compile.Unveils (g.Part id) s s'
  | _, _, _ => True

/-- What an operator with one input makes visible, if its values make nothing visible. -/
theorem Unveils.operator {input : NodeId} {n : Node} {clause : Clause} {reads : Bool}
    {s₁ s₂ : State} (hn : env.graph.node? id = some n) (hinput : input ∈ Graph.inputs n.kind)
    (h : Unveils (env.graph.Shows input) s s₁) (hprep : Prepared env input clause reads s₁ s₂)
    (hv : s'.visible = s₂.visible) :
    Unveils (env.graph.Shows id) s s' := by
  have hunder := (h.mono fun x hx => hx.toUnder).trans (.prepared hprep fun x hx => hx)
  exact (hunder.congr hv).mono fun x hx => .under hn hinput hx

/-- A run makes visible only what belongs to its job. -/
theorem Runs.unveils {top : NodeId} {job : Job} (h : Runs env top job s s') :
    job.Unveils env.graph s s' := by
  induction h with
  | visited | cached => exact fun _ => .of_visible rfl
  | source _ _ hn =>
    exact fun _ => (Unveils.revealing_one (.self hn (by simp [Graph.inputs]))).congr rfl
  | selection _ _ hn hsel _ ih =>
    intro hk
    refine ((ih hk).mono fun x hx => ?_).congr rfl
    exact .under hn (by rw [inputs_of_selection hsel]; exact List.mem_singleton_self _) hx
  | filter _ _ hn _ hprep hv hp _ _ ih _ =>
    exact fun hk => .operator hn (List.mem_singleton_self _) (ih hk) hprep (hp.leaves hv).visible
  | groupBy _ _ hn _ hprep hkeys hitems _ _ hp _ ih _ _ _ =>
    intro hk
    have hadds := AddsValues.trans hkeys.leaves hitems.leaves
    have hadds' : AddsValues _ _ := hp.leaves
    exact .operator hn (List.mem_singleton_self _) (ih hk) hprep
      (hadds'.visible.trans hadds.visible)
  | sort _ _ hn _ hprep hkeys _ ih _ =>
    intro hk
    have hadds : AddsValues _ _ := hkeys.leaves
    exact .operator hn (List.mem_singleton_self _) (ih hk) hprep hadds.visible
  | slice _ _ hn _ _ hprep _ ih =>
    exact fun hk => .operator hn (List.mem_singleton_self _) (ih hk) hprep rfl
  | joined _ _ hn hjoin _ _ ih =>
    intro hk
    have hj : env.graph.IsJoin _ := ⟨_, _, _, _, _, _, hn⟩
    have hreveals := (hjoin.keeps hk).join hjoin.lookup_join
    exact (((ih hk).mono fun x hx => hx.shows hj).trans
      (.revealing fun x hx => (hreveals.part hx).shows hj)).congr rfl
  | united _ _ hn hunion _ _ =>
    intro _
    have hsame : Same _ _ := hunion.leaves
    exact ((Unveils.of_visible hsame.visible).trans
      (.revealing_one (.self hn (by simp [Graph.inputs])))).congr rfl
  | value hnew hno hreach hn ht hvisits hprovide he hadd _ _ =>
    intro _
    have hv := not_isCollection_of_typed hn ht
    exact .of_visible
      ((Runs.value hnew hno hreach hn ht hvisits hprovide he hadd).leaves hv).visible
  | select _ hprep hitems _ ih _ =>
    intro hk
    have hunder := ((ih hk).mono fun x hx => hx.toUnder).trans (.prepared hprep fun x hx => hx)
    have hadds : AddsValues _ _ := hitems.leaves
    exact hunder.congr hadds.visible
  | discovered => exact fun _ => .of_visible rfl
  | discoverJoin hmet hn hjoin _ ih ih' =>
    intro hk
    have hj : env.graph.IsJoin _ := ⟨_, _, _, _, _, _, hn⟩
    exact ((ih hk).mono fun x hx => ⟨_, hj, hmet, hx⟩).trans (ih' (hjoin.keeps hk))
  | discoverUnion _ _ hunion _ _ ih' =>
    intro hk
    have hsame : Same _ _ := hunion.leaves
    exact (Unveils.of_visible hsame.visible).trans (ih' (hunion.keeps hk))
  | discoverSubquery _ _ _ hsub _ _ ih' =>
    intro hk
    have hsame : Same _ _ := hsub.leaves
    exact (Unveils.of_visible hsame.visible).trans (ih' (hsub.keeps hk))
  | sideTable => exact fun _ => (Unveils.revealing_one .refl).congr rfl
  | sideJoin _ _ ih => exact ih
  | sideUnion _ hunion _ =>
    intro _
    have hsame : Same _ _ := hunion.leaves
    exact .of_visible hsame.visible
  | sideLevel _ _ _ hlevel _ _ =>
    intro _
    have hsame : Same _ _ := hlevel.leaves
    exact .of_visible hsame.visible
  | joinKept => exact fun _ => .of_visible rfl
  | joinNew _ _ hn hleft hright hp ih ih' _ =>
    intro hk
    have hl := hleft.keeps hk
    have hr := hright.keeps hl.1
    have hreveals : Reveals env.graph (.join _ _ _ none) _ _ := .join hn hl.2 hr.2
    have hleft' := (ih hk).mono fun x hx => Graph.Part.left hn hx
    have hsides := hleft'.trans ((ih' hl.1).mono fun x hx => Graph.Part.right hn hx)
    have hadds : AddsValues _ _ := hp.leaves
    exact (hsides.trans (.revealing fun x hx => hreveals.part hx)).congr hadds.visible
  | _ => trivial

end Compile

end PlanSql

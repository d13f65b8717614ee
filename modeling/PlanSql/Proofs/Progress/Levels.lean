import PlanSql.Proofs.Progress.Values

/-!
# Levels of well-scoped plans

An operator finds the clauses that it fills free, since it wraps the level before it fills one that
is not, and it finds the columns of its input, since it wraps the level if it does not. Joins,
unions and subqueries are compiled ahead and leave the level as it was.
-/

namespace PlanSql.Compile

open PlanSql.Sql

variable {g : Graph} {root : NodeId} {c : Compiler} {e : Error}

section

variable {env : Env} {root : NodeId} {depth : Nat} {bound : Nat} {own : NodeId → Prop} {s : State}
variable {input : NodeId}

/-! ## Clauses -/

theorem Open.of_empty {c : Clauses Expr Source} (h : c = .empty) (source : Source) :
    c.setSource source = .ok { c with source := some source } ∧
      Open { c with source := some source } := by
  subst h
  exact ⟨rfl, rfl, fun h => by cases h⟩

variable (hw : env.graph.WellFormed True)

include hw

/-- A level can be wrapped, and what was wrapped is covered then. -/
theorem promote_ends (hinput : input < env.graph.size) (hs : Sound env.graph s)
    (hopen : Open s.clauses) :
    Ends env root (promote env input) s fun _ s' => Sound env.graph s' ∧ Open s'.clauses ∧
      Covered env.graph s'.visible input ∧ ∀ clause, s'.clauses.conflicts clause = false := by
  refine .bind (Meets.finishLevel (fun q _ => .bind (.modifyGet ?_)) fun e he => ?_)
  · generalize s.context.aliases.registerDerived input = r
    obtain ⟨label, aliases⟩ := r
    obtain ⟨lifted, hlift, hcovered⟩ := lift_ok hw hinput (Nat.lt_succ_of_lt hinput)
    refine .bind (found_ends hlift ?_)
    refine .bind (.modify (Meets.fill (fun c hc => ?_) fun err herr => by cases herr))
    cases hc
    refine ⟨⟨fun v hv hvalue => ?_, hs.joins⟩, ⟨rfl, fun h => by cases h⟩, hcovered label, ?_⟩
    · have hkept := (List.mem_filter.1 hv).2
      simp [hvalue] at hkept
    · intro clause
      cases clause <;> rfl
  · obtain ⟨source, hsource⟩ := Option.isSome_iff_exists.1 hopen.source
    simp [Clauses.close, hsource] at he

/-- Before a clause is filled, the level is one on which it is free and the input can be read. -/
theorem prepare_ends (hinput : input < env.graph.size) (clause : Clause) (hs : Sound env.graph s)
    (hopen : Open s.clauses) (reads : Bool) :
    Ends env root (prepare env input clause reads) s fun _ s' =>
      Sound env.graph s' ∧ Open s'.clauses ∧ (reads = true → Covered env.graph s'.visible input) ∧
        s'.clauses.conflicts clause = false := by
  have hwrap : Ends env root (promote env input) s fun _ s' =>
      Sound env.graph s' ∧ Open s'.clauses ∧ (reads = true → Covered env.graph s'.visible input) ∧
        s'.clauses.conflicts clause = false :=
    (promote_ends hw hinput hs hopen).imp fun _ s' ⟨h, ho, hc, hf⟩ =>
    ⟨h, ho, fun _ => hc, hf clause⟩
  refine .bind (.get ?_)
  split
  · exact hwrap
  · next hfree =>
    split
    · obtain ⟨b, hb, hcovered⟩ : ∃ b, addressable env.graph s.visible env.depth input = .ok b ∧
          (b = true → Covered env.graph s.visible input) :=
        addressable_ok hw hinput (Nat.lt_succ_of_lt hinput)
      refine .bind (found_ends hb ?_)
      split
      · exact hwrap
      · next htrue =>
        exact .pure ⟨hs, hopen, fun _ => hcovered (by simpa using htrue), by simpa using hfree⟩
    · next hreads => exact .pure ⟨hs, hopen, fun h => absurd h hreads, by simpa using hfree⟩

variable (ih : Works env root depth) (hcov : Covers env.graph root own s.visible)
  (hs : Sound env.graph s)

include ih hcov hs

theorem selectItem_ends {x : NodeId} (hx : Ready env root depth bound own x) :
    Ends env root ((Steps.upTo env depth).selectItem env x) s fun _ s' =>
      Sound env.graph s' ∧ Gained env.graph bound s s' := by
  obtain ⟨n, t, hn, ht⟩ := isValue_iff.1 hx.value
  refine .bind ((hx.visit_ends ih hcov hs).imp fun _ s₁ ⟨hs₁, hgain, hfrag⟩ => ?_)
  refine .bind (found_ends (Graph.node_eq_ok_iff.2 hn) ?_)
  rw [ht]
  have hname : Ends env root (Steps.itemName env n t) s₁ fun _ s' => s' = s₁ := by
    unfold Steps.itemName
    split
    · next c source hk hsource =>
      split
      · obtain ⟨name, hname, hcolumn⟩ :=
          column_ends (s := s₁) hw hn ht hk hx.reads (hgain.visible ▸ hcov)
        cases hsource.symm.trans hname
        exact .bind (Meets.resolve (fun _ _ => .pure rfl) fun e he => .inr (.inr (hcolumn e he)))
      · exact .pure rfl
    · exact .pure rfl
  refine .bind (hname.imp fun _ s' hs' => ?_)
  subst s'
  exact .bind (fragment_ends hfrag fun e => .pure ⟨hs₁, hgain⟩)

theorem selectItems_ends {ids : List NodeId}
    (hids : ∀ x ∈ ids, Ready env root depth bound own x) :
    Ends env root ((Steps.upTo env depth).selectItems env ids) s fun _ s' =>
      Sound env.graph s' ∧ Gained env.graph bound s s' := by
  induction ids generalizing s with
  | nil => exact .pure ⟨hs, .refl s⟩
  | cons x rest iho =>
    refine .bind ((selectItem_ends hw ih hcov hs (hids x (.head _))).imp
      fun _ s₁ ⟨hs₁, hgain⟩ => .bind ?_)
    refine (iho (hgain.visible ▸ hcov) hs₁ fun y hy =>
      hids y (.tail _ hy)).imp fun _ s' ⟨hs', hgain'⟩ => ?_
    exact .pure ⟨hs', hgain.trans hgain'⟩

end

/-! ## Operators -/

section

variable {env : Env} {root : NodeId} {depth : Nat} {bound : Nat} {input : NodeId} {s : State}
variable {id : NodeId} {start stop step : Option Int64}

/-- A level on which nothing is set and no collection was visited, with what an operator needs to
read a collection. -/
structure Start (env : Env) (root : NodeId) (depth : Nat) (input : NodeId) (s : State) : Prop where
  deep : 3 * input + 2 ≤ depth
  reach : env.graph.Reach root input
  collection : env.graph.isCollection input = true
  sound : Sound env.graph s
  clauses : s.clauses = .empty
  visited : ∀ x ∈ s.visited, env.graph.isCollection x = false

theorem lt_size_of_isCollection {g : Graph} (h : g.isCollection id = true) :
    id < g.size := by
  obtain ⟨schema, hschema⟩ := Graph.isCollection_iff.1 h
  obtain ⟨n, hn, _⟩ := Graph.schemaOf_eq_ok_iff.1 hschema
  exact Graph.lt_size_of_node? hn

theorem sliceLimit_eq_error {e : Error} (h : sliceLimit start stop step = .error e) :
    e.Inexpressible ∨ (∃ n, stop = some n ∧ n < 0 ∧ e = .inconsistent (.negativeStop n.toInt)) ∨
      stop = none ∧ e = .inconsistent .noStop := by
  unfold sliceLimit at h
  split at h
  · cases h
    exact .inl trivial
  · split at h
    · cases h
      exact .inl trivial
    · split at h
      · next n =>
        split at h
        · cases h
        · next hneg => exact .inr (.inl ⟨n, rfl, Int64.not_le.1 hneg, (Except.error.inj h).symm⟩)
      · exact .inr (.inr ⟨rfl, (Except.error.inj h).symm⟩)

theorem fill_ends {f : Clauses Expr Source → Except Error (Clauses Expr Source)}
    {c : Clauses Expr Source} {post : Unit → State → Prop} (hf : f s.clauses = .ok c)
    (hp : post () { s with clauses := c }) : Ends env root (fill f) s post := by
  refine Meets.fill (fun c' hc => ?_) fun e he => ?_
  · cases hf.symm.trans hc
    exact hp
  · rw [hf] at he
    cases he

variable (hw : env.graph.WellFormed True) (ih : Works env root depth)
  (hstart : Start env root depth input s)

include hw ih hstart

theorem visit_prepare_ends (clause : Clause) (reads : Bool) {k : Compile Unit}
    {post : Unit → State → Prop}
    (hk : ∀ s', Sound env.graph s' → Open s'.clauses →
      (reads = true → Covers env.graph root (env.graph.IfScoped root (· = input)) s'.visible) →
      s'.clauses.conflicts clause = false → Ends env root k s' post) :
    Ends env root (do (Steps.upTo env depth).visit input; prepare env input clause reads; k)
      s post := by
  have hvisit := ih.collection input s hstart.deep hstart.reach hstart.collection hstart.sound
    hstart.clauses hstart.visited
  refine .bind (hvisit.imp fun _ s₁ ⟨hs₁, hopen₁⟩ => .bind ?_)
  exact (prepare_ends hw (lt_size_of_isCollection hstart.collection) clause hs₁ hopen₁ reads).imp
    fun _ s₂ ⟨hs₂, hopen₂, hcov, hfree⟩ =>
      hk s₂ hs₂ hopen₂ (fun h c hc hscoped => hc hscoped ▸ hcov h) hfree

theorem compileSelect_ends {clause : Clause} {fields : List NodeId} {distinct : Bool}
    (hclause : clause = .select ∨ clause = .groupBy)
    (hfields : ∀ x ∈ fields, Ready env root depth bound (env.graph.IfScoped root (· = input)) x) :
    Ends env root (compileSelect env (Steps.upTo env depth) input clause fields distinct)
      s fun _ s' =>
      Sound env.graph s' ∧ Open s'.clauses := by
  refine visit_prepare_ends hw ih hstart clause true fun s₁ hs₁ hopen hcov hfree => ?_
  refine .bind ((selectItems_ends hw ih (hcov rfl) hs₁ hfields).imp fun items s₂ ⟨hs₂, hgain⟩ => ?_)
  have hselect : s₂.clauses.select = none := by
    rw [hgain.clauses]
    rcases hclause with rfl | rfl <;> simp [Clauses.conflicts] at hfree
    · exact hfree.1
    · exact hfree.1.1.1
  rw [← hgain.clauses] at hopen
  exact fill_ends (if_neg (by simp [hselect])) ⟨⟨hs₂.1, hs₂.2⟩, hopen.1, hopen.2⟩

theorem compileFilter_ends {predicate : NodeId}
    (hx : Ready env root depth bound (env.graph.IfScoped root (· = input)) predicate) :
    Ends env root (compileFilter env (Steps.upTo env depth) input predicate) s fun _ s' =>
      Sound env.graph s' ∧ Open s'.clauses := by
  refine visit_prepare_ends hw ih hstart .filter true fun s₁ hs₁ hopen hcov hfree => ?_
  refine .bind ((hx.visit_ends ih (hcov rfl) hs₁).imp fun _ s₂ ⟨hs₂, hgain, hfrag⟩ => ?_)
  refine .bind (fragment_ends hfrag fun e => ?_)
  have hfilter : s₂.clauses.filter = none := by
    rw [hgain.clauses]
    simp [Clauses.conflicts] at hfree
    exact hfree.1.1.1
  rw [← hgain.clauses] at hopen
  exact fill_ends (if_neg (by simp [hfilter])) ⟨⟨hs₂.1, hs₂.2⟩, hopen.1, hopen.2⟩

theorem compileSort_ends {keys : List SortKey}
    (hkeys : ∀ k ∈ keys, Ready env root depth bound (env.graph.IfScoped root (· = input)) k.expr) :
    Ends env root (compileSort env (Steps.upTo env depth) input keys) s fun _ s' =>
      Sound env.graph s' ∧ Open s'.clauses := by
  refine visit_prepare_ends hw ih hstart .orderBy true fun s₁ hs₁ hopen hcov hfree => ?_
  refine .bind ((sortKeys_ends ih (hcov rfl) hs₁ hkeys).imp fun es s₂ ⟨hs₂, hgain⟩ => ?_)
  have horder : s₂.clauses.orderBy = none := by
    rw [hgain.clauses]
    simp [Clauses.conflicts] at hfree
    exact hfree.1
  rw [← hgain.clauses] at hopen
  exact fill_ends (if_neg (by simp [horder])) ⟨⟨hs₂.1, hs₂.2⟩, hopen.1, hopen.2⟩

theorem compileSlice_ends {shape : Shape} (hreach : env.graph.Reach root id)
    (hn : env.graph.node? id = some ⟨.slice input start stop step, shape⟩) :
    Ends env root (compileSlice env (Steps.upTo env depth) input start stop step) s fun _ s' =>
      Sound env.graph s' ∧ Open s'.clauses := by
  refine .bind (Meets.check (fun n _ => ?_) fun e he =>
    (sliceLimit_eq_error he).imp_right fun hstop =>
    .inl ⟨id, input, start, stop, step, shape, hreach, hn, hstop⟩)
  refine visit_prepare_ends hw ih hstart .limit false fun s₁ hs₁ hopen _ hfree => ?_
  have hlimit : s₁.clauses.limit = none := by simpa [Clauses.conflicts] using hfree
  exact fill_ends (if_neg (by simp [hlimit])) ⟨⟨hs₁.1, hs₁.2⟩, hopen.1, hopen.2⟩

theorem compileGroupBy_ends {keys aggregates : List NodeId} {having : Option NodeId}
    (hkeys : ∀ x ∈ keys, Ready env root depth bound (env.graph.IfScoped root (· = input)) x)
    (haggs : ∀ x ∈ aggregates, Ready env root depth bound (env.graph.IfScoped root (· = input)) x)
    (hpred : ∀ x ∈ having, Ready env root depth bound (env.graph.IfScoped root (· = input)) x) :
    Ends env root (compileGroupBy env (Steps.upTo env depth) input keys aggregates having)
      s fun _ s' =>
      Sound env.graph s' ∧ Open s'.clauses := by
  refine visit_prepare_ends hw ih hstart .groupBy true fun s₁ hs₁ hopen hcov hfree => ?_
  refine .bind ((values_ends ih (hcov rfl) hs₁ hkeys).imp fun es s₂ ⟨hs₂, hgain₂⟩ => ?_)
  have hcov₂ : Covers env.graph root (env.graph.IfScoped root (· = input)) s₂.visible :=
    hgain₂.visible ▸ hcov rfl
  have hfields : ∀ x ∈ keys ++ aggregates,
    Ready env root depth bound (env.graph.IfScoped root (· = input)) x :=
    fun x hx => (List.mem_append.1 hx).elim (hkeys x) (haggs x)
  refine .bind ((selectItems_ends hw ih hcov₂ hs₂ hfields).imp fun items s₃ ⟨hs₃, hgain₃⟩ => ?_)
  have hgain := hgain₂.trans hgain₃
  obtain ⟨⟨⟨hselect, hgroup⟩, _⟩, _⟩ :
      ((s₃.clauses.select = none ∧ s₃.clauses.groupBy = none) ∧ s₃.clauses.orderBy = none) ∧
        s₃.clauses.limit = none := by
    rw [hgain.clauses]
    simpa [Clauses.conflicts] using hfree
  rw [← hgain.clauses] at hopen
  have hhaving : s₃.clauses.having = none := by
    cases hh : s₃.clauses.having with
    | none => rfl
    | some e => simpa [hgroup] using hopen.having (by simp [hh])
  refine .bind (fill_ends (if_neg (by simp [hselect]))
    (.bind (fill_ends (if_neg (by simp [hgroup])) ?_)))
  cases having with
  | none => exact .pure ⟨⟨hs₃.1, hs₃.2⟩, hopen.1, fun _ => rfl⟩
  | some predicate =>
    have hcov₃ : Covers env.graph root (env.graph.IfScoped root (· = input)) s₃.visible :=
      hgain.visible ▸ hcov rfl
    have hvisit := (hpred predicate rfl).visit_ends ih
      (s := { s₃ with clauses := { s₃.clauses with
        select := some items, distinct := false, groupBy := some es } }) hcov₃ ⟨hs₃.1, hs₃.2⟩
    refine .bind (hvisit.imp fun _ s₄ ⟨hs₄, hgain₄, hfrag⟩ => ?_)
    refine .bind (fragment_ends hfrag fun e => ?_)
    refine Meets.fill (fun c hc => ?_) fun err herr => ?_
    · rw [hgain₄.clauses] at hc
      simp only [Clauses.setHaving, hhaving] at hc
      cases hc
      exact ⟨⟨hs₄.1, hs₄.2⟩, hopen.1, fun _ => rfl⟩
    · rw [hgain₄.clauses] at herr
      simp [Clauses.setHaving, hhaving] at herr

end

/-! ## Compiling ahead -/

section

variable {env : Env} {root : NodeId} {depth : Nat} {s : State} {x id : NodeId}
variable {n : Node} {left right : NodeId} {shape : Shape}

theorem mem_operands_of_mem_inputs {kind : Kind} (hx : x ∈ Graph.inputs kind) :
    ∃ slot, (slot, x) ∈ kind.operands := by
  cases kind with
  | join left right predicate how fields | union left right distinct =>
    simp only [Graph.inputs, List.mem_cons, List.not_mem_nil, or_false] at hx
    rcases hx with rfl | rfl
    · exact ⟨.left, by simp [Kind.operands]⟩
    · exact ⟨.right, by simp [Kind.operands]⟩
  | _ => simp_all [Graph.inputs, Kind.operands]

/-- An input of something reached, with what is needed to compile it. -/
structure Below (env : Env) (root id x : NodeId) : Prop where
  before : 3 * x + 3 ≤ 3 * id
  reach : env.graph.Reach root x
  collection : env.graph.isCollection x = true

variable (hw : env.graph.WellFormed True)

include hw

theorem below_of_mem_inputs (hreach : env.graph.Reach root id) (hn : env.graph.node? id = some n)
    (hx : x ∈ Graph.inputs n.kind) : Below env root id x := by
  obtain ⟨hlt, hcollection, _⟩ := hw.input hn hx
  obtain ⟨slot, hmem⟩ := mem_operands_of_mem_inputs hx
  exact ⟨Nat.mul_le_mul_left 3 hlt, hreach.operand hn hmem, hcollection⟩

theorem ready_of_slot {slot : Slot} (hd : 3 * id ≤ depth) (hreach : env.graph.Reach root id)
    (hn : env.graph.node? id = some n) (hc : n.isCollection = true)
    (hx : (slot, x) ∈ n.kind.operands) (hslot : slot.isInput = false) :
    Ready env root depth id (env.graph.IfScoped root (· ∈ Graph.inputs n.kind)) x := by
  have hchild := hw.child hn hx
  have hvalue := hchild.value hc hslot
  have hlt : 3 * x + 3 ≤ 3 * id := Nat.mul_le_mul_left 3 hchild.before
  have hreads := Graph.readsFrom_ifScoped hw hvalue fun hscoped : env.graph.WellScoped root =>
    (hscoped id n hreach hn).values hc slot x hx (not_isCollection_of_isValue hvalue)
  exact ⟨Nat.le_of_succ_le (Nat.le_trans hlt hd), hchild.before,
    hreach.operand hn hx, hvalue, hreads⟩

variable (ih : Works env root depth)

include ih

theorem unionAhead_ends {distinct : Bool} (hd : 3 * id ≤ depth) (hreach : env.graph.Reach root id)
    (hn : env.graph.node? id = some ⟨.union left right distinct, shape⟩) (hs : Sound env.graph s) :
    Ends env root (unionAhead (Steps.upTo env depth) id left right distinct) s fun _ s' =>
      Sound env.graph s' ∧ Same s s' := by
  have hleft := below_of_mem_inputs hw hreach hn (x := left) (by simp [Graph.inputs])
  have hright := below_of_mem_inputs hw hreach hn (x := right) (by simp [Graph.inputs])
  refine .bind (.get ?_)
  split
  · exact .pure ⟨hs, rfl, rfl, rfl, rfl⟩
  · split
    · exact .throw (.inl trivial)
    · refine .bind ((ih.level left s (Nat.le_trans hleft.before hd) hleft.reach
        (.inl hleft.collection) hs).imp fun _ s₁ h₁ => ?_)
      obtain ⟨hs₁, hsame₁⟩ := h₁
      refine .bind ((ih.level right s₁ (Nat.le_trans hright.before hd) hright.reach
        (.inl hright.collection) hs₁).imp fun _ s₂ h₂ => ?_)
      obtain ⟨hs₂, hsame₂⟩ := h₂
      have hsame := hsame₁.trans hsame₂
      refine .bind (.modifyGet (.bind (.modify (.pure ⟨⟨hs₂.1, hs₂.2⟩, ?_⟩))))
      exact ⟨hsame.1, hsame.2, hsame.3, hsame.4⟩

theorem joinSide_ends {side : NodeId} (hd : 3 * id ≤ depth) (hside : Below env root id side)
    (hs : Sound env.graph s) :
    Ends env root (joinSide env (Steps.upTo env depth) side) s fun r s' =>
      Sound env.graph s' ∧ Ahead env.graph s s' ∧ Covered env.graph r.2 side := by
  have hdeep : 3 * side + 3 ≤ depth := Nat.le_trans hside.before hd
  obtain ⟨schema, hschema⟩ := Graph.isCollection_iff.1 hside.collection
  obtain ⟨n, hn, _⟩ := Graph.schemaOf_eq_ok_iff.1 hschema
  have hone : ∀ label, Covered env.graph [(side, label)] side := fun _ => .seen (by simp)
  refine .bind (found_ends (Graph.node_eq_ok_iff.2 hn) ?_)
  obtain ⟨kind, shape⟩ := n
  dsimp only
  split
  · refine .bind (.bind (.modifyGet (.bind (.modify (.pure (.pure ⟨⟨hs.1, hs.2⟩, ?_, hone _⟩))))))
    exact ⟨rfl, fun c hc => hc.append_left _, fun _ h _ => h⟩
  · refine .bind ((ih.join side _ _ _ _ _ _ s (Nat.le_of_succ_le (Nat.le_of_succ_le hdeep))
      hside.reach hn hs).imp fun ahead s' ⟨hs', hahead, hcov⟩ => .pure ⟨hs', hahead, hcov⟩)
  · refine .bind ((unionAhead_ends hw ih (Nat.le_of_add_right_le hdeep) hside.reach hn hs).imp
      fun r s' ⟨hs', hsame⟩ => .pure ⟨hs', hsame.ahead, hone _⟩)
  · refine .bind ((ih.level side s hdeep hside.reach (.inl hside.collection) hs).imp
      fun _ s' ⟨hs', hsame⟩ => .bind (.modifyGet (.pure ⟨⟨hs'.1, hs'.2⟩, ?_, hone _⟩)))
    exact ⟨hsame.clauses, hsame.ahead.covered, hsame.ahead.visited⟩

/-- A join is compiled ahead, with its condition over both sides. -/
theorem joinAhead_ends {predicate : Option NodeId} {how : JoinKind} {fields : List JoinField}
    (hd : 3 * id ≤ depth) (hreach : env.graph.Reach root id)
    (hn : env.graph.node? id = some ⟨.join left right predicate how fields, shape⟩)
    (hs : Sound env.graph s) :
    Ends env root (joinAhead env (Steps.upTo env depth) id left right predicate how)
      s fun ahead s' =>
      Sound env.graph s' ∧ Ahead env.graph s s' ∧ Covered env.graph ahead.visible id := by
  have hleft := below_of_mem_inputs hw hreach hn (x := left) (by simp [Graph.inputs])
  have hright := below_of_mem_inputs hw hreach hn (x := right) (by simp [Graph.inputs])
  refine .bind (.get ?_)
  split
  · next ahead hlookup => exact .pure ⟨hs, .refl s, hs.joins id ahead hlookup⟩
  · refine .bind ((joinSide_ends hw ih hd hleft hs).imp fun l s₁ h₁ => ?_)
    obtain ⟨hs₁, hahead₁, hcovl⟩ := h₁
    refine .bind ((joinSide_ends hw ih hd hright hs₁).imp fun r s₂ h₂ => ?_)
    obtain ⟨hs₂, hahead₂, hcovr⟩ := h₂
    obtain ⟨leftSource, leftVisible⟩ := l
    obtain ⟨rightSource, rightVisible⟩ := r
    have hcovered : Covered env.graph (leftVisible ++ rightVisible) id :=
      .join hn (hcovl.append_right _) (hcovr.append_left _)
    refine .bind (.modify ?_)
    have hahead₃ : Ahead env.graph s { s₂ with
        visible := (leftVisible ++ rightVisible).reverse ++ s₂.visible } :=
      (hahead₁.trans hahead₂).trans ⟨rfl, fun c hc => hc.append_left _, fun _ h _ => h⟩
    have hsound₃ : Sound env.graph { s₂ with
        visible := (leftVisible ++ rightVisible).reverse ++ s₂.visible } := ⟨hs₂.1, hs₂.2⟩
    generalize hs₃ : ({ s₂ with
      visible := (leftVisible ++ rightVisible).reverse ++ s₂.visible } : State) = s₃ at *
    -- Whatever the condition is, the join is noted and covered by what it makes visible.
    have hdone : ∀ on s₄, Sound env.graph s₄ → Ahead env.graph s s₄ → Ends env root (do
        modify fun s => { s with joins := (id, ⟨.join leftSource how rightSource none, on,
          leftVisible ++ rightVisible⟩) :: s.joins }
        pure (⟨.join leftSource how rightSource none, on, leftVisible ++ rightVisible⟩ : JoinAhead))
        s₄ fun ahead s' =>
          Sound env.graph s' ∧ Ahead env.graph s s' ∧ Covered env.graph ahead.visible id := by
      intro on s₄ hs₄ hahead₄
      refine .bind (.modify (.pure ⟨⟨hs₄.visited, fun x ahead hx => ?_⟩, ⟨hahead₄.1, hahead₄.2,
        hahead₄.3⟩, hcovered⟩))
      rw [List.lookup_cons] at hx
      split at hx
      · next heq =>
        cases hx
        rw [eq_of_beq heq]
        exact hcovered
      · exact hs₄.joins x ahead hx
    cases predicate with
    | none => exact hdone none s₃ hsound₃ hahead₃
    | some p =>
      have hcov₃ : Covers env.graph root (env.graph.IfScoped root
          (· ∈ Graph.inputs (.join left right (some p) how fields))) s₃.visible := by
        intro c hc hscoped
        have hc := hc hscoped
        simp only [Graph.inputs, List.mem_cons, List.not_mem_nil, or_false] at hc
        rw [← hs₃]
        rcases hc with rfl | rfl
        · exact (hcovl.append_right _).reverse.append_right _
        · exact (hcovr.append_left _).reverse.append_right _
      have hmem : (Slot.predicate, p) ∈ (Kind.join left right (some p) how fields).operands := by
        simp [Kind.operands, Operand.perhaps, Operand.many]
      have hc := (hw.input hn (x := left) (by simp [Graph.inputs])).2.2
      have hp := ready_of_slot hw hd hreach hn hc hmem rfl
      refine .bind ((hp.visit_ends ih hcov₃ hsound₃).imp fun _ s₄ h₄ => ?_)
      obtain ⟨hs₄, hgain, hfrag⟩ := h₄
      exact .bind (fragment_ends hfrag fun e => hdone (some e) s₄ hs₄ (hahead₃.trans hgain.ahead))

end

/-! ## Levels -/

section

variable {env : Env} {root : NodeId} {depth : Nat} {s : State} {id : NodeId}

/-- A level over something is finished, and the level around it is taken up again. -/
theorem closeLevel_ends {s₂ : State} (hs : Sound env.graph s) (hs₂ : Sound env.graph s₂)
    (hopen : Open s₂.clauses) :
    Ends env root (closeLevel env s) s₂ fun _ s' => Sound env.graph s' ∧ Same s s' := by
  refine Meets.closeLevel (fun q _ => ?_) fun e he => ?_
  · exact ⟨⟨hs.visited, hs₂.joins⟩, rfl, rfl, rfl, rfl⟩
  · obtain ⟨source, hsource⟩ := Option.isSome_iff_exists.1 hopen.source
    simp [Clauses.close, hsource] at he

variable (hw : env.graph.WellFormed True) (ih : Works env root depth)

include hw ih

/-- What a level needs is compiled ahead. -/
theorem discover_ends (hd : 3 * id + 2 ≤ depth) (hreach : env.graph.Reach root id)
    (hid : id < env.graph.size) (hs : Sound env.graph s) (hclauses : s.clauses = .empty)
    (hvisited : ∀ x ∈ s.visited, env.graph.isCollection x = false) :
    Ends env root (discover env (Steps.upTo env depth) id) s fun _ s' => Sound env.graph s' ∧
      s'.clauses = .empty ∧ ∀ x ∈ s'.visited, env.graph.isCollection x = false := by
  have hbelow : ∀ x, env.graph.Reach id x → 3 * x + 2 ≤ depth := fun x hx =>
    Nat.le_trans (Nat.add_le_add_right (Nat.mul_le_mul_left 3 (Graph.Reach.le hw hx)) 2) hd
  refine Meets.discover ?_ ?_ ?_ ?_ ⟨hs, hclauses, hvisited⟩
  · intro x hx e s' _ he
    have hlt := Nat.lt_of_le_of_lt (Graph.Reach.le hw hx) hid
    obtain ⟨n, hn⟩ := Option.isSome_iff_exists.1 ((env.graph.node?_isSome_iff x).2 hlt)
    rw [Graph.node_eq_ok_iff.2 hn] at he
    cases he
  · intro x left right predicate how fields shape s' hx ⟨hs', hc', hv'⟩ hn
    refine (ih.join x left right predicate how fields shape s' (Nat.le_of_succ_le (hbelow x hx))
      (hreach.trans hx) hn hs').imp fun _ s'' ⟨hs'', hahead, _⟩ =>
        ⟨hs'', hahead.clauses.trans hc', ?_⟩
    intro y hy
    cases hcoll : env.graph.isCollection y with
    | false => rfl
    | true => simpa [hcoll] using hv' y (hahead.visited y hy hcoll)
  · intro x left right distinct shape s' hx ⟨hs', hc', hv'⟩ hn
    have hdeep : 3 * x ≤ depth := Nat.le_of_add_right_le (hbelow x hx)
    refine (unionAhead_ends hw ih hdeep (hreach.trans hx) hn hs').imp fun _ s'' ⟨hs'', hsame⟩ =>
      ⟨hs'', hsame.clauses.trans hc', fun y hy => hv' y (hsame.visited ▸ hy)⟩
  · intro x n sequence s' hx ⟨hs', hc', hv'⟩ hn hq
    have hdeep : 3 * x ≤ depth := Nat.le_of_add_right_le (hbelow x hx)
    refine (subqueryAhead_ends hw ih hdeep (hreach.trans hx) hn hq hs').imp
      fun _ s'' ⟨hs'', hsame⟩ => ⟨hs'', hsame.clauses.trans hc', fun y hy =>
        hv' y (hsame.visited ▸ hy)⟩

/-- A collection, or a value over the collection it is read from, is compiled as a level. -/
theorem compileLevel_ends (hd : 3 * id + 3 ≤ depth + 1) (hreach : env.graph.Reach root id)
    (hlevel : IsLevel env.graph root id) (hs : Sound env.graph s) :
    Ends env root ((Steps.upTo env (depth + 1)).level id) s fun _ s' =>
      Sound env.graph s' ∧ Same s s' := by
  have hdeep : 3 * id + 2 ≤ depth := Nat.le_of_succ_le_succ hd
  have hid : id < env.graph.size := by
    rcases hlevel with h | ⟨h, _⟩
    · exact lt_size_of_isCollection h
    · obtain ⟨n, _, hn, _⟩ := isValue_iff.1 h
      exact Graph.lt_size_of_node? hn
  have hfresh : Sound env.graph s.inner := ⟨by simp [State.inner], hs.joins⟩
  refine .bind (.get (.bind (.set (.bind ?_))))
  refine (discover_ends hw ih hdeep hreach hid hfresh rfl fun _ h => by cases h).imp
    fun _ s₁ ⟨hs₁, hclauses, hvisited⟩ => ?_
  dsimp only
  split
  · next hc =>
    refine .bind ((ih.collection id s₁ hdeep hreach hc hs₁ hclauses hvisited).imp
      fun _ s₂ ⟨hs₂, hopen⟩ => closeLevel_ends hs hs₂ hopen)
  · next hc =>
    suffices hbody : Ends env root (compileValue env (Steps.upTo env depth) id) s₁ fun _ s' =>
        Sound env.graph s' ∧ Open s'.clauses from
      .bind (hbody.imp fun _ s₂ ⟨hs₂, hopen⟩ => closeLevel_ends hs hs₂ hopen)
    obtain ⟨hvalue, c, howner, hreads⟩ := hlevel.resolve_left hc
    obtain ⟨hreach', hcollection⟩ := Graph.owningCollection_reach howner
    have hlt : c < id := Nat.lt_of_le_of_ne (Graph.Reach.le hw hreach')
      fun h => hc (h ▸ hcollection)
    have hbefore : 3 * c + 3 ≤ 3 * id := Nat.mul_le_mul_left 3 hlt
    have hstart : Start env root depth c s₁ := ⟨Nat.le_of_succ_le (Nat.le_trans hbefore
      (Nat.le_of_add_right_le hdeep)), hreach.trans hreach', hcollection, hs₁, hclauses, hvisited⟩
    refine .bind (found_ends howner ?_)
    have hready : ∀ x ∈ [id],
        Ready env root depth (id + 1) (env.graph.IfScoped root (· = c)) x := by
      simp only [List.mem_singleton, forall_eq]
      exact ⟨hdeep, Nat.lt_succ_self id, hreach, hvalue, Graph.readsFrom_ifScoped hw hvalue hreads⟩
    exact compileSelect_ends hw ih hstart (.inl rfl) hready

/-- An operator is compiled onto a level on which nothing is set. -/
theorem compileKind_ends {n : Node} (hd : 3 * id + 1 ≤ depth) (hreach : env.graph.Reach root id)
    (hn : env.graph.node? id = some n) (hc : n.isCollection = true) (hs : Sound env.graph s)
    (hclauses : s.clauses = .empty) (hvisited : ∀ x ∈ s.visited, env.graph.isCollection x = false) :
    Ends env root (compileKind env (Steps.upTo env depth) id n.kind) s fun _ s' =>
      Sound env.graph s' ∧ Open s'.clauses := by
  have hd' : 3 * id ≤ depth := Nat.le_of_succ_le hd
  have hstart : ∀ x ∈ Graph.inputs n.kind, Start env root depth x s := by
    intro x hx
    have hbelow := below_of_mem_inputs hw hreach hn hx
    exact ⟨Nat.le_of_succ_le (Nat.le_trans hbelow.before hd'), hbelow.reach, hbelow.collection, hs,
      hclauses, hvisited⟩
  have hready : ∀ {input : NodeId}, Graph.inputs n.kind = [input] → ∀ slot x,
      (slot, x) ∈ n.kind.operands → slot.isInput = false →
      Ready env root depth id (env.graph.IfScoped root (· = input)) x := by
    intro input hinput slot x hx hslot
    have hx := ready_of_slot hw hd' hreach hn hc hx hslot
    exact ⟨hx.deep, hx.before, hx.reach, hx.value, hx.reads.mono fun c h hscoped => by
      simpa [hinput] using h hscoped⟩
  have hmany : ∀ {input : NodeId} (slot : Slot) (ids : List NodeId),
      Graph.inputs n.kind = [input] → (∀ o ∈ Operand.many slot ids, o ∈ n.kind.operands) →
      slot.isInput = false → ∀ x ∈ ids,
        Ready env root depth id (env.graph.IfScoped root (· = input)) x :=
    fun slot _ hinput hsub hslot x hx =>
      hready hinput slot x (hsub _ (List.mem_map_of_mem hx)) hslot
  obtain ⟨kind, shape⟩ := n
  cases kind with
  | source table =>
    refine .bind (.bind (.modifyGet (.bind (.modify (.pure ?_)))))
    obtain ⟨hset, hopen⟩ := Open.of_empty hclauses
      (.table table (s.context.aliases.register id).1)
    exact fill_ends hset ⟨⟨hs.1, hs.2⟩, hopen⟩
  | project input fields =>
    exact compileSelect_ends hw ih (hstart input (.head _)) (.inl rfl)
      (hmany .fields fields rfl (fun _ ho => .tail _ ho) rfl)
  | distinct input fields | summary input fields =>
    exact compileSelect_ends hw ih (hstart input (.head _)) (.inr rfl)
      (hmany .fields fields rfl (fun _ ho => .tail _ ho) rfl)
  | mutate input keys mutates =>
    have hkeys := hmany .keys keys rfl
      (fun _ ho => .tail _ (List.mem_append_left _ ho)) rfl
    have hmutates := hmany .mutates mutates rfl
      (fun _ ho => .tail _ (List.mem_append_right _ ho)) rfl
    exact compileSelect_ends hw ih (hstart input (.head _)) (.inl rfl)
      fun x hx => (List.mem_append.1 hx).elim (hkeys x) (hmutates x)
  | filter input predicate =>
    exact compileFilter_ends hw ih (hstart input (.head _))
      (hready rfl .predicate predicate (by simp [Kind.operands]) rfl)
  | sort input keys =>
    have hkeys := hmany .sortKeys (keys.map SortKey.expr) rfl
      (fun _ ho => .tail _ ho) rfl
    exact compileSort_ends hw ih (hstart input (.head _))
      fun k hk => hkeys k.expr (List.mem_map_of_mem hk)
  | slice input start stop step =>
    exact compileSlice_ends hw ih (hstart input (.head _)) hreach hn
  | groupBy input keys aggregates having =>
    have hoperands : ∀ o, o ∈ Operand.many .keys keys ∨ o ∈ Operand.many .aggregates aggregates ∨
        o ∈ Operand.perhaps .having having →
          o ∈ (Kind.groupBy input keys aggregates having).operands := by
      intro o ho
      simp only [Kind.operands, List.cons_append, List.mem_cons, List.mem_append]
      exact .inr (by rcases ho with h | h | h <;> simp [h])
    have hpred := hmany .having having.toList rfl (fun _ ho => hoperands _ (.inr (.inr ho))) rfl
    exact compileGroupBy_ends hw ih (hstart input (.head _))
      (hmany .keys keys rfl (fun _ ho => hoperands _ (.inl ho)) rfl)
      (hmany .aggregates aggregates rfl (fun _ ho => hoperands _ (.inr (.inl ho))) rfl)
      fun x hx => hpred x (Option.mem_toList.2 hx)
  | join left right predicate how fields =>
    refine .bind ((ih.join id left right predicate how fields shape s hd hreach hn hs).imp
      fun ahead s₁ h₁ => .bind (.modify ?_))
    obtain ⟨hs₁, hahead, -⟩ := h₁
    obtain ⟨hset, hopen⟩ := Open.of_empty (hahead.clauses.trans hclauses) ahead.source
    refine .bind (fill_ends hset ?_)
    split
    · next condition _ =>
      have hon : s₁.clauses.on = none := by rw [hahead.clauses, hclauses]; rfl
      exact fill_ends (if_neg (by simp [hon])) ⟨⟨hs₁.1, hs₁.2⟩, hopen.1, hopen.2⟩
    · exact .pure ⟨⟨hs₁.1, hs₁.2⟩, hopen⟩
  | union left right distinct =>
    refine .bind ((unionAhead_ends hw ih hd' hreach hn hs).imp
      fun r s₁ h₁ => .bind (.modify ?_))
    obtain ⟨hs₁, hsame⟩ := h₁
    obtain ⟨hset, hopen⟩ := Open.of_empty (hsame.clauses.trans hclauses) r.1
    exact fill_ends hset ⟨⟨hs₁.1, hs₁.2⟩, hopen⟩
  | _ =>
    have hfits := hw id _ hn
    cases shape with
    | collection schema => exact hfits.elim
    | _ => cases hc

theorem visit_collection_ends (hd : 3 * id + 2 ≤ depth + 1) (hreach : env.graph.Reach root id)
    (hc : env.graph.isCollection id = true) (hs : Sound env.graph s)
    (hclauses : s.clauses = .empty) (hvisited : ∀ x ∈ s.visited, env.graph.isCollection x = false) :
    Ends env root ((Steps.upTo env (depth + 1)).visit id) s fun _ s' =>
      Sound env.graph s' ∧ Open s'.clauses := by
  obtain ⟨schema, hschema⟩ := Graph.isCollection_iff.1 hc
  obtain ⟨n, hn, hshape⟩ := Graph.schemaOf_eq_ok_iff.1 hschema
  have hnot : id ∉ s.visited := fun h => by simpa [hc] using hvisited id h
  refine .bind (.get ?_)
  rw [if_neg hnot]
  simp only [hc, Bool.true_or, if_true]
  refine .bind (found_ends (Graph.node_eq_ok_iff.2 hn) ?_)
  refine .bind ((compileKind_ends hw ih (Nat.le_of_succ_le_succ hd) hreach hn
    (by simp [Node.isCollection, hshape]) hs hclauses hvisited).imp fun _ s' ⟨hs', hopen⟩ => ?_)
  refine .modify ⟨⟨fun x hx hvalue => ?_, hs'.joins⟩, hopen⟩
  rcases List.mem_cons.1 hx with rfl | hx
  · simp [hc] at hvalue
  · exact hs'.visited x hx hvalue

omit ih in
/-- Everything that a root is made of can be compiled, if columns can be named. -/
theorem works (depth : Nat) : Works env root depth := by
  induction depth with
  | zero =>
    refine ⟨fun v _ _ h => ?_, fun c _ h => ?_, fun id _ h => ?_, fun id _ _ _ _ _ _ _ h => ?_⟩
    all_goals exact absurd h (Nat.not_succ_le_zero _)
  | succ depth ih =>
    refine ⟨?_, ?_, ?_, ?_⟩
    · intro v own s hd hreach hvalue hreads hcov hs
      exact visit_value_ends hw ih hd hreach hvalue hreads hcov hs
    · intro c s hd hreach hc hs hclauses hvisited
      exact visit_collection_ends hw ih hd hreach hc hs hclauses hvisited
    · intro id s hd hreach hlevel hs
      exact compileLevel_ends hw ih hd hreach hlevel hs
    · intro id left right predicate how fields shape s hd hreach hn hs
      exact joinAhead_ends hw ih (Nat.le_of_succ_le_succ hd) hreach hn hs

end

/-- A root is compiled, up to what cannot be expressed, slices with a bad stop, and columns that
cannot be named. -/
theorem error_of_compile (hw : g.WellFormed True) (hroot : g.isCollection root = true)
    (he : (c.compile g root).1 = .error e) :
    e.Inexpressible ∨ BadStop g root e ∨ OutOfScope g root e := by
  have hworks : Works (c.env g) root (3 * g.size + 4) := works hw _
  have hdeep : 3 * root + 3 ≤ 3 * g.size + 4 :=
    Nat.le_add_right_of_le (Nat.mul_le_mul_left 3 (lt_size_of_isCollection hroot))
  have hlevel := hworks.level root (.start c.functions) hdeep .refl (.inl hroot)
    ⟨by simp [State.start], by simp [State.start]⟩
  have hstatement : Ends (c.env g) root (statement (c.env g) root) (.start c.functions)
      fun _ _ => True := .bind (hlevel.imp fun _ _ _ => .bind (.get (.pure trivial)))
  unfold Compiler.compile at he
  split at he
  · cases he
  · next e' s' hrun =>
    cases he
    exact hstatement.of_error hrun

theorem error_of_wellScoped (hw : g.WellFormed True) (hroot : g.isCollection root = true)
    (hscoped : g.WellScoped root) (he : (c.compile g root).1 = .error e) :
    e.Inexpressible ∨ BadStop g root e :=
  (error_of_compile hw hroot he).imp_right fun h => h.resolve_right fun ho => ho.1 hscoped

/-- A well-scoped plan compiles, unless something in it has no form in a statement, a position
overflows, or a slice has a stop that is negative or missing. -/
theorem compile_wellScoped {g : Graph} (hg : BuiltBy (fun g c => c.NamesCollection g) g)
    {root : NodeId} (hroot : g.isCollection root = true) (hscoped : g.WellScoped root)
    (c : Compiler) :
    (∃ statement, (c.compile g root).1 = .ok statement) ∨
      ∃ e, (c.compile g root).1 = .error e ∧
        ((∃ what, e = .unsupported what) ∨ e = .overflow ∨
          ∃ id input start stop step shape, g.Reach root id ∧
            g.node? id = some ⟨.slice input start stop step, shape⟩ ∧
            ((∃ n, stop = some n ∧ n < 0 ∧ e = .inconsistent (.negativeStop n.toInt)) ∨
              stop = none ∧ e = .inconsistent .noStop)) := by
  have hw : g.WellFormed True := hg.wellFormed fun _ _ _ h => h
  cases hresult : (c.compile g root).1 with
  | ok statement => exact .inl ⟨statement, rfl⟩
  | error e =>
    refine .inr ⟨e, rfl, ?_⟩
    rcases error_of_wellScoped hw hroot hscoped hresult with h | h
    · cases e with
      | unsupported what => exact .inl ⟨what, rfl⟩
      | overflow => exact .inr (.inl rfl)
      | _ => exact h.elim
    · exact .inr (.inr h)

/-- The different names and totals of joined rows, of those whose name is listed in a third
table. -/
def listedTotals : List Call :=
  [.source "" "users" [⟨"id", .int64⟩, ⟨"name", .string⟩],
    .source "" "orders" [⟨"user", .int64⟩, ⟨"total", .int64⟩],
    .column 0 "id", .column 1 "user", .binary .eq 2 3, .join 0 1 (some 4) .inner,
    .column 5 "name", .column 5 "total", .distinct 5 [6, 7], .column 8 "name",
    .source "" "listed" [⟨"name", .string⟩], .column 10 "name", .inSequence 9 11 false,
    .filter 8 12]

/-- The totals have a statement, or a reason why there is none. -/
theorem compile_listedTotals :
    BuiltBy (fun g c => c.NamesCollection g) (Call.run listedTotals) ∧
    (Call.run listedTotals).isCollection 13 = true ∧ (Call.run listedTotals).WellScoped 13 ∧
    ((∃ statement, ((Compiler.new .default).compile (Call.run listedTotals) 13).1 = .ok statement) ∨
      ∃ e, ((Compiler.new .default).compile (Call.run listedTotals) 13).1 = .error e ∧
        ((∃ what, e = .unsupported what) ∨ e = .overflow ∨
          ∃ id input start stop step shape, (Call.run listedTotals).Reach 13 id ∧
            (Call.run listedTotals).node? id = some ⟨.slice input start stop step, shape⟩ ∧
            ((∃ n, stop = some n ∧ n < 0 ∧ e = .inconsistent (.negativeStop n.toInt)) ∨
              stop = none ∧ e = .inconsistent .noStop))) := by
  have hbuilt : BuiltBy (fun g c => c.NamesCollection g) (Call.run listedTotals) := by
    refine .run ?_
    simp only [listedTotals, Call.AllowedFrom, Call.NamesCollection, true_and, and_true]
    decide +kernel
  have hroot : (Call.run listedTotals).isCollection 13 = true := by decide +kernel
  have hscoped : (Call.run listedTotals).WellScoped 13 :=
    Graph.wellScoped_of_scoped (by decide +kernel) 13
  exact ⟨hbuilt, hroot, hscoped, compile_wellScoped hbuilt hroot hscoped (.new .default)⟩

end PlanSql.Compile

import PlanSql.Proofs.Progress.Levels
import PlanSql.Proofs.Reading.Statements
import PlanSql.Proofs.Rows.Linearization

/-!
# The statement of a pipeline shows its rows

Each operator of a pipeline is compiled onto the level of its input or above it, and the level keeps
showing the rows of the pipeline. By induction over the operators this holds of the whole pipeline,
so the finished statement shows its rows.
-/

namespace PlanSql.Rows

open PlanSql.Sql PlanSql.Compile

section Shapes

variable {g : Graph} {careful : Prop} {table : Table} {ops : List Kind} {id own : NodeId}

/-- The values that an operator lists. -/
def shownFields : Kind → List NodeId
  | .project _ fields | .distinct _ fields | .summary _ fields => fields
  | .mutate _ keys mutates => keys ++ mutates
  | .groupBy _ keys aggregates _ => keys ++ aggregates
  | _ => []

theorem named_of_mem_shownFields (hw : g.WellFormed careful) {n : Node}
    (hn : g.node? id = some n) : ∀ f ∈ shownFields n.kind, ∃ t name, g.typedOf f = .ok t ∧
      t.name = some name := by
  have hfields : ∀ {fields : List NodeId} {schema : Schema},
      (g.before id).fieldSchema fields = .ok schema →
      ∀ f ∈ fields, ∃ t name, g.typedOf f = .ok t ∧ t.name = some name := by
    intro fields schema h f hf
    obtain ⟨t, name, ht, hname⟩ := Graph.typedOf_of_fieldSchema h f hf
    exact ⟨t, name, Graph.Keeps.typedOf f (Graph.before_extends g id) t ht, hname⟩
  have hfits := hw id n hn
  obtain ⟨kind, shape⟩ := n
  cases shape with
  | collection schema =>
    cases kind with
    | project input fields | summary input fields => exact hfields hfits.2.2
    | distinct input fields | mutate input keys mutates => exact hfields hfits.2
    | groupBy input keys aggregates having => exact hfields hfits.2.2.1
    | _ => exact fun f hf => absurd hf (List.not_mem_nil)
  | sequence typed | scalar typed =>
    cases kind <;> first | exact hfits.elim | exact fun f hf => absurd hf (List.not_mem_nil)

theorem Pipeline.isCollection (hw : g.WellFormed careful) (hp : Pipeline g id table ops) :
    g.isCollection id = true := by
  have hrelation : ∀ {kind : Kind} {shape : Shape}, g.node? id = some ⟨kind, shape⟩ →
      (∀ t, ¬ (g.before id).ValueFits t kind) → g.isCollection id = true := by
    intro kind shape hn hno
    have hfits := hw id _ hn
    cases shape with
    | collection schema => simp [Graph.isCollection, hn, Node.isCollection]
    | sequence typed | scalar typed => exact absurd hfits (hno typed)
  cases hp with
  | source hn => exact hrelation hn fun _ h => h
  | @step _ _ kind _ _ _ _ hn hreads =>
    refine hrelation hn fun t h => ?_
    cases kind <;> first | exact h | exact hreads

end Shapes

/-! ## Compiling one operator -/

section Operators

variable {V : Type} [DecidableEq V] {S : Scalars V} {tables : Table → List (Row V)} {env : Env}
  {table : Table} {ops : List Kind} {own id : NodeId} {s : State} {shape : Shape} {depth : Nat}
  {careful : Prop}
variable {fields : List NodeId}

def Shows (S : Scalars V) (tables : Table → List (Row V)) (env : Env) (table : Table)
    (ops : List Kind) (own : NodeId) (m : Compile Unit) (s : State) : Prop :=
  Meets m s (fun _ s' => ∃ b a, Describes S tables env table ops own b a s') fun _ _ => True

variable (hw : env.graph.WellFormed careful) (hp : Pipeline env.graph own table ops)
  (hv : Shows S tables env table ops own ((Steps.upTo env depth).visit own) s)

include hw hp hv

theorem compileFilter_shows {predicate : NodeId}
    (hn : env.graph.node? id = some ⟨.filter own predicate, shape⟩)
    (hrow : RowWise env.graph own predicate) :
    Shows S tables env table (ops ++ [.filter own predicate]) id
      (compileFilter env (Steps.upTo env depth) own predicate) s := by
  refine .bind (hv.imp fun _ s₁ ⟨_, _, h₁⟩ => ?_)
  refine .bind ((prepare_meets hp h₁).imp fun _ s₂ ⟨b, a, h₂, hselect, hfree⟩ => ?_)
  have hvisit := hrow.grouped.visit_keepsLevel (hp.isCollection hw) (h₂.plain hselect).2 depth
    s₂ h₂.level
  refine .bind (hvisit.imp fun _ s₃ ⟨hsame, hlevel⟩ => ?_)
  refine .bind (Meets.fragment (fun e he => Meets.fill (fun c hc => ?_) fun _ _ => trivial)
    fun _ _ => trivial)
  obtain rfl := setFilter_eq_ok hc
  rw [← hsame.clauses] at hselect hfree
  exact ⟨b, a, (h₂.same hsame hlevel).filter hw hselect hfree hn
    fun F hF => hlevel.fragments F hF predicate e he⟩

theorem compileSort_shows {keys : List SortKey}
    (hn : env.graph.node? id = some ⟨.sort own keys, shape⟩)
    (hrow : ∀ k ∈ keys, RowWise env.graph own k.expr) :
    Shows S tables env table (ops ++ [.sort own keys]) id
      (compileSort env (Steps.upTo env depth) own keys) s := by
  refine .bind (hv.imp fun _ s₁ ⟨_, _, h₁⟩ => ?_)
  refine .bind ((prepare_meets hp h₁).imp fun _ s₂ ⟨b, a, h₂, hselect, hfree⟩ => ?_)
  have hkeys := sortKeys_gives (hp.isCollection hw) (h₂.plain hselect).2 depth
    (fun k hk => (hrow k hk).grouped) s₂ h₂.level
  refine .bind (hkeys.imp fun es s₃ ⟨hsame, hlevel, hes⟩ => ?_)
  refine Meets.fill (fun c hc => ?_) fun _ _ => trivial
  obtain rfl := setOrderBy_eq_ok hc
  rw [← hsame.clauses] at hselect hfree
  exact ⟨b, a, (h₂.same hsame hlevel).sort hw hselect hfree hn hes⟩

omit hw in
theorem compileSlice_shows {n : Int64}
    (hn : env.graph.node? id = some ⟨.slice own none (some n) none, shape⟩) (hpos : 0 ≤ n) :
    Shows S tables env table (ops ++ [.slice own none (some n) none]) id
      (compileSlice env (Steps.upTo env depth) own none (some n) none) s := by
  have hreads : ReadsOwn env.graph own (.slice own none (some n) none) :=
    ⟨rfl, rfl, rfl, n, rfl, hpos⟩
  refine .bind (Meets.check (fun limit hlimit => ?_) fun _ _ => trivial)
  obtain rfl : n.toInt.toNat = limit := by
    simp only [sliceLimit, Option.any_none, Bool.false_eq_true, if_false, if_pos hpos] at hlimit
    exact Except.ok.inj hlimit
  refine .bind (hv.imp fun _ s₁ ⟨_, _, h₁⟩ => ?_)
  refine .bind ((prepare_limit_meets hp h₁).imp fun _ s₂ ⟨b, a, h₂, hfree⟩ => ?_)
  refine Meets.fill (fun c hc => ?_) fun _ _ => trivial
  obtain rfl := setLimit_eq_ok hc
  exact ⟨b, a, h₂.slice hfree (.step hp hn hreads) hn⟩

/-- An operator that shows some values of each row. -/
theorem compileSelect_shows {op : Kind} {clause : Clause} {distinct : Bool}
    (hn : env.graph.node? id = some ⟨op, shape⟩) (hreads : ReadsOwn env.graph own op)
    (hthrough : op.passThrough? = none) (hfields : shownFields op = fields)
    (hclause : clause = .select ∨ clause = .groupBy)
    (hdistinct : distinct = true → clause = .groupBy)
    (hrow : ∀ f ∈ fields, RowWise env.graph own f)
    (happly : ∀ names rows, apply S env.graph names op rows =
      let shown := rows.map (rowOf S env.graph names fields)
      if distinct then shown.eraseDups else shown) :
    Shows S tables env table (ops ++ [op]) id
      (compileSelect env (Steps.upTo env depth) own clause fields distinct) s := by
  refine .bind (hv.imp fun _ s₁ ⟨_, _, h₁⟩ => ?_)
  refine .bind ((prepare_meets hp h₁).imp fun _ s₂ ⟨b, a, h₂, hselect, hfree⟩ => ?_)
  have hitems := selectItems_gives (hp.isCollection hw) (h₂.plain hselect).2 depth
    (fun f hf => (hrow f hf).grouped) (hfields ▸ named_of_mem_shownFields hw hn) s₂ h₂.level
  refine .bind (hitems.imp fun items s₃ ⟨hsame, hlevel, hi⟩ => ?_)
  refine Meets.fill (fun c hc => ?_) fun _ _ => trivial
  obtain rfl := setSelect_eq_ok hc
  rw [← hsame.clauses] at hselect hfree
  have hlimit : s₃.clauses.limit = none := by
    rcases hclause with rfl | rfl <;> simp [Clauses.conflicts] at hfree <;> exact hfree.2
  have horder : distinct = true → s₃.clauses.orderBy = none := by
    intro hd
    obtain rfl := hdistinct hd
    simp [Clauses.conflicts] at hfree
    exact hfree.1.2
  exact ⟨b, a, (h₂.same hsame hlevel).select hw hselect hlimit hn
    (.step hp hn hreads) hreads hthrough horder (fun F _ => happly (namesOf F)) hi
    (items_any_eq_false hlevel.names hi hrow)⟩

theorem compileSummary_shows (hn : env.graph.node? id = some ⟨.summary own fields, shape⟩)
    (hreads : ReadsOwn env.graph own (.summary own fields)) :
    Shows S tables env table (ops ++ [.summary own fields]) id
      (compileSelect env (Steps.upTo env depth) own .groupBy fields false) s := by
  refine .bind (hv.imp fun _ s₁ ⟨_, _, h₁⟩ => ?_)
  refine .bind ((prepare_meets hp h₁).imp fun _ s₂ ⟨b, a, h₂, hselect, hfree⟩ => ?_)
  have hitems := selectItems_gives (hp.isCollection hw) (h₂.plain hselect).2 depth hreads.2
    (named_of_mem_shownFields hw hn) s₂ h₂.level
  refine .bind (hitems.imp fun items s₃ ⟨hsame, hlevel, hi⟩ => ?_)
  refine Meets.fill (fun c hc => ?_) fun _ _ => trivial
  obtain rfl := setSelect_eq_ok hc
  rw [← hsame.clauses] at hfree
  exact ⟨b, a, (h₂.same hsame hlevel).summary hw hfree hn (.step hp hn hreads) hreads hi⟩

theorem compileGroupBy_shows {keys aggregates : List NodeId} {having : Option NodeId}
    (hn : env.graph.node? id = some ⟨.groupBy own keys aggregates having, shape⟩)
    (hreads : ReadsOwn env.graph own (.groupBy own keys aggregates having)) :
    Shows S tables env table (ops ++ [.groupBy own keys aggregates having]) id
      (compileGroupBy env (Steps.upTo env depth) own keys aggregates having) s := by
  have ⟨_, hkey, hagg, hpred⟩ := hreads
  have hown := hp.isCollection hw
  have hgrouped : ∀ f ∈ keys ++ aggregates, Grouped env.graph own f := fun f hf =>
    (List.mem_append.1 hf).elim (fun h => (hkey f h).grouped) (hagg f)
  refine .bind (hv.imp fun _ s₁ ⟨_, _, h₁⟩ => ?_)
  refine .bind ((prepare_meets hp h₁).imp fun _ s₂ ⟨b, a, h₂, hselect, hfree⟩ => ?_)
  obtain ⟨hplain, hpass⟩ := h₂.plain hselect
  have hkeys := values_gives hown hpass depth (fun k hk => (hkey k hk).grouped) s₂ h₂.level
  refine .bind (hkeys.imp fun es s₃ ⟨hsame₃, hlevel₃, hes⟩ => ?_)
  have hitems := selectItems_gives hown hpass depth hgrouped
    (named_of_mem_shownFields hw hn) s₃ hlevel₃
  refine .bind (hitems.imp fun items s₄ ⟨hsame₄, hlevel₄, hi⟩ => ?_)
  refine .bind (Meets.fill (fun c hc => ?_) fun _ _ => trivial)
  obtain rfl := setSelect_eq_ok hc
  refine .bind (Meets.fill (fun c hc => ?_) fun _ _ => trivial)
  obtain rfl := setGroupBy_eq_ok hc
  have hsame := hsame₃.trans hsame₄
  have hes' : List.Forall₂ (Rendered env.graph a s₄) keys es :=
    hes.imp fun _ _ h => h.mono hsame₄.functions
  have h₄ := h₂.same hsame hlevel₄
  have hhaving : s₄.clauses.having = none := by
    obtain ⟨source, _⟩ := h₂.rows
    rw [hsame.clauses]
    exact (hplain source).having
  rw [← hsame.clauses] at hfree
  have hpipe : Pipeline env.graph id table (ops ++ [.groupBy own keys aggregates having]) :=
    .step hp hn hreads
  cases having with
  | none =>
    have hdone := h₄.groupBy hw hfree hn hpipe hreads hes' hi .none
    rw [← hhaving] at hdone
    exact .pure ⟨b, a, hdone⟩
  | some predicate =>
    -- The condition is compiled after the clauses are filled, which it does not look at.
    have hvisit := (hpred predicate rfl).visit_keepsLevel hown hpass depth
      { s₄ with clauses := { s₄.clauses with
        select := some items, distinct := false, groupBy := some es } }
      ⟨hlevel₄.visible, hlevel₄.fragments, hlevel₄.names⟩
    refine .bind (hvisit.imp fun _ s₅ ⟨hsame₅, hlevel₅⟩ => ?_)
    refine .bind (Meets.fragment (fun e he => Meets.fill (fun c hc => ?_) fun _ _ => trivial)
      fun _ _ => trivial)
    have hrendered : Rendered env.graph a s₅ predicate e := fun F hF =>
      hlevel₅.fragments F hF predicate e he
    have h₅ : Describes S tables env table ops own b a { s₅ with clauses := s₄.clauses } :=
      h₄.same ⟨rfl, hsame₅.levels, hsame₅.functions⟩
        ⟨hlevel₅.visible, hlevel₅.fragments, hlevel₅.names⟩
    rw [hsame₅.clauses] at hc
    obtain rfl := setHaving_eq_ok hc hhaving
    refine ⟨b, a, h₅.groupBy hw hfree hn hpipe hreads
      (hes'.imp fun _ _ h => h.mono hsame₅.functions)
      (hi.imp fun _ _ h => ⟨h.1.mono hsame₅.functions, h.2⟩) (.some hrendered)⟩

end Operators

/-! ## Compiling a pipeline -/

section Run

variable {V : Type} [DecidableEq V] {S : Scalars V} {tables : Table → List (Row V)} {env : Env}
  {table : Table} {ops : List Kind} {id root : NodeId} {s : State} {careful : Prop}
variable {g : Graph}

/-- A level on which nothing has happened yet. -/
structure Fresh (s : State) : Prop where
  clauses : s.clauses = .empty
  visited : s.visited = []
  visible : s.visible = []
  fragments : s.context.fragments = []
  names : Distinguished s.context.functions
  done : ∀ q ∈ s.levels, OrderedPlainly q

theorem compileSource_shows {shape : Shape} (hn : env.graph.node? id = some ⟨.source table, shape⟩)
    (hs : Fresh s) : Shows S tables env table [] id (compileSource id table) s := by
  refine .bind (.bind (.modifyGet ?_))
  generalize s.context.aliases.register id = r
  obtain ⟨label, aliases⟩ := r
  refine .bind (.modify (.pure (Meets.fill (fun c hc => ?_) fun _ _ => trivial)))
  dsimp only at hc
  rw [hs.clauses] at hc
  obtain rfl : bare (.table table label) = c := Except.ok.inj hc
  refine ⟨id, label, describes_bare (.source hn) rfl ⟨?_, ?_, hs.names⟩ (.refl id) hs.done ?_⟩
  · simp [hs.visible]
  · intro F _ x e hx
    simp [Context.fragment, hs.fragments] at hx
  · exact fun F _ _ => rfl

theorem Pipeline.visit_shows (hw : env.graph.WellFormed careful)
    (hp : Pipeline env.graph id table ops) (hs : Fresh s) (depth : Nat) :
    Shows S tables env table ops id ((Steps.upTo env depth).visit id) s := by
  induction depth generalizing id ops with
  | zero => exact .throw trivial
  | succ depth ih =>
    have hcollection := hp.isCollection hw
    refine .bind (.get ?_)
    rw [if_neg (by simp [hs.visited])]
    simp only [hcollection, Bool.true_or, if_true]
    refine .bind (Meets.check (fun n hn => ?_) fun _ _ => trivial)
    suffices hkind : Shows S tables env table ops id
        (compileKind env (Steps.upTo env depth) id n.kind) s by
      refine .bind (hkind.imp fun _ s' hshows => ?_)
      obtain ⟨b, a, h⟩ := hshows
      refine .modify ⟨b, a, ?_⟩
      exact h.same ⟨rfl, rfl, .refl _⟩ ⟨h.level.visible, h.level.fragments, h.level.names⟩
    have hfound := Graph.node_eq_ok_iff.1 hn
    cases hp with
    | source hm =>
      cases hfound.symm.trans hm
      exact compileSource_shows hm hs
    | @step _ input kind shape _ ops hp' hm hreads =>
      cases hfound.symm.trans hm
      have hv := ih hp'
      cases kind with
      | filter _ predicate =>
        obtain ⟨rfl, hrow⟩ := hreads
        exact compileFilter_shows hw hp' hv hm hrow
      | sort _ keys =>
        obtain ⟨rfl, hrow⟩ := hreads
        exact compileSort_shows hw hp' hv hm hrow
      | slice _ start stop step =>
        obtain ⟨rfl, rfl, rfl, n, rfl, hpos⟩ := hreads
        exact compileSlice_shows hp' hv hm hpos
      | project _ fields | mutate _ keys mutates =>
        obtain rfl := hreads.1
        exact compileSelect_shows hw hp' hv hm hreads rfl rfl (.inl rfl)
          (fun h => by cases h) hreads.2
          fun _ _ => rfl
      | distinct _ fields =>
        obtain rfl := hreads.1
        exact compileSelect_shows hw hp' hv hm hreads rfl rfl (.inr rfl) (fun _ => rfl) hreads.2
          fun _ _ => rfl
      | summary _ fields =>
        obtain rfl := hreads.1
        exact compileSummary_shows hw hp' hv hm hreads
      | groupBy _ keys aggregates having =>
        obtain rfl := hreads.1
        exact compileGroupBy_shows hw hp' hv hm hreads
      | _ => exact hreads.elim

/-! ## Nothing is compiled ahead -/

/-- A pipeline over `table`, or a value over one. -/
def Inside (g : Graph) (table : Table) (id : NodeId) : Prop :=
  ∃ own ops, Pipeline g own table ops ∧ (id = own ∨ Grouped g own id)

theorem ReadsOwn.operands {own : NodeId} {kind : Kind} (h : ReadsOwn g own kind) :
    ∀ o ∈ kind.operands, o.2 = own ∨ Grouped g own o.2 := by
  have hmany : ∀ {slot : Slot} {ids : List NodeId} {o : Operand},
      (∀ x ∈ ids, Grouped g own x) → o ∈ Operand.many slot ids → o.2 = own ∨ Grouped g own o.2 :=
    fun hids ho => .inr (hids _ (Graph.mem_many ho))
  intro o ho
  cases kind with
  | filter input predicate =>
    obtain ⟨rfl, hrow⟩ := h
    simp only [Kind.operands, List.mem_cons, List.not_mem_nil, or_false] at ho
    rcases ho with rfl | rfl
    · exact .inl rfl
    · exact .inr hrow.grouped
  | slice input start stop step =>
    obtain rfl := h.1
    obtain rfl := List.mem_singleton.1 ho
    exact .inl rfl
  | sort input keys =>
    obtain ⟨rfl, hrow⟩ := h
    rcases List.mem_cons.1 ho with rfl | ho
    · exact .inl rfl
    · refine hmany (fun x hx => ?_) ho
      obtain ⟨k, hk, rfl⟩ := List.mem_map.1 hx
      exact (hrow k hk).grouped
  | project input fields | distinct input fields =>
    obtain ⟨rfl, hrow⟩ := h
    rcases List.mem_cons.1 ho with rfl | ho
    · exact .inl rfl
    · exact hmany (fun x hx => (hrow x hx).grouped) ho
  | summary input fields =>
    obtain ⟨rfl, hgrouped⟩ := h
    rcases List.mem_cons.1 ho with rfl | ho
    · exact .inl rfl
    · exact hmany hgrouped ho
  | mutate input keys mutates =>
    obtain ⟨rfl, hrow⟩ := h
    simp only [Kind.operands, List.cons_append, List.mem_cons, List.mem_append] at ho
    rcases ho with rfl | ho | ho
    · exact .inl rfl
    · exact hmany (fun x hx => (hrow x (List.mem_append_left _ hx)).grouped) ho
    · exact hmany (fun x hx => (hrow x (List.mem_append_right _ hx)).grouped) ho
  | groupBy input keys aggregates having =>
    obtain ⟨rfl, hkey, hagg, hpred⟩ := h
    simp only [Kind.operands, List.cons_append, List.mem_cons, List.mem_append] at ho
    rcases ho with rfl | (ho | ho) | ho
    · exact .inl rfl
    · exact hmany (fun x hx => (hkey x hx).grouped) ho
    · exact hmany hagg ho
    · exact hmany (fun x hx => hpred x (Option.mem_toList.1 hx)) ho
  | _ => exact h.elim

/-- What is inside a pipeline refers only to what is inside it. -/
theorem Inside.children {child : NodeId} (h : Inside g table id) (hc : child ∈ g.children id) :
    Inside g table child := by
  unfold Graph.children at hc
  cases hn : g.node? id with
  | none => simp [hn] at hc
  | some n =>
    rw [hn] at hc
    obtain ⟨o, ho, rfl⟩ := List.mem_map.1 hc
    obtain ⟨own, ops, hp, rfl | hv⟩ := h
    · cases hp with
      | source hm =>
        cases hn.symm.trans hm
        cases ho
      | step hp' hm hreads =>
        cases hn.symm.trans hm
        exact ⟨_, _, hp', hreads.operands o ho⟩
    · by_cases hcol : ∃ c, n.kind = .column c
      · obtain ⟨c, hk⟩ := hcol
        obtain rfl := (hv.shape hn).column c hk
        rw [hk] at ho
        obtain rfl := List.mem_singleton.1 ho
        exact ⟨_, _, hp, .inl rfl⟩
      · exact ⟨own, ops, hp, (hv.shape hn).operands (fun c hk => hcol ⟨c, hk⟩) o ho⟩

theorem Inside.reach (h : Inside g table root) (hr : g.Reach root id) :
    Inside g table id := by
  induction hr with
  | refl => exact h
  | step _ hc ih => exact ih.children hc

/-- Nothing inside a pipeline is compiled ahead of it. -/
theorem Inside.alone {n : Node} (h : Inside g table id) (hn : g.node? id = some n) :
    n.kind.subquery? = none ∧ (∀ l r p k fs, n.kind ≠ .join l r p k fs) ∧
      ∀ l r d, n.kind ≠ .union l r d := by
  obtain ⟨own, ops, hp, rfl | hv⟩ := h
  · cases hp with
    | source hm =>
      cases hn.symm.trans hm
      exact ⟨rfl, by simp, by simp⟩
    | @step _ _ kind _ _ _ _ hm hreads =>
      cases hn.symm.trans hm
      cases kind <;> first | exact hreads.elim | exact ⟨rfl, by simp, by simp⟩
  · have hshape := hv.shape hn
    have hvalue := hshape.value
    refine ⟨hshape.subquery, ?_, ?_⟩
    · intro l r p k fs hk
      simp [hk, isScalar, looksAround] at hvalue
    · intro l r d hk
      simp [hk, isScalar, looksAround] at hvalue

/-- Looking for what is to be compiled ahead of a pipeline changes nothing. -/
theorem Pipeline.discover_meets (hp : Pipeline env.graph root table ops) (steps : Steps) :
    Meets (discover env steps root) s (fun _ s' => s' = s) fun _ _ => True := by
  have hroot : Inside env.graph table root := ⟨root, ops, hp, .inl rfl⟩
  refine Meets.discover (I := (· = s)) (fun _ _ _ _ _ _ => trivial) ?_ ?_ ?_ rfl
  · intro id l r p k fs shape _ hr _ hn
    exact absurd rfl (((hroot.reach hr).alone hn).2.1 l r p k fs)
  · intro id l r d shape _ hr _ hn
    exact absurd rfl (((hroot.reach hr).alone hn).2.2 l r d)
  · intro id n sequence _ hr _ hn hq
    exact absurd hq (by simp [((hroot.reach hr).alone hn).1])

theorem Pipeline.compileLevel_meets (S : Scalars V) (tables : Table → List (Row V))
    (hw : env.graph.WellFormed careful) (hp : Pipeline env.graph root table ops)
    (hnames : Distinguished s.context.functions)
    (hdone : ∀ q ∈ s.levels, OrderedPlainly q) (depth : Nat) :
    Meets (compileLevel env (Steps.upTo env depth) root) s (fun level s' =>
      WhenSortsFit S tables env table ops s' (fun made =>
        (allRows S tables #[] s'.levels.toList).getD level none = some made) ∧
      ∀ q ∈ s'.levels, OrderedPlainly q) fun _ _ => True := by
  refine .bind (.get (.bind (.set (.bind ((hp.discover_meets _).imp ?_)))))
  rintro - s' rfl
  rw [if_pos (hp.isCollection hw)]
  have hfresh : Fresh s.inner := ⟨rfl, rfl, rfl, rfl, hnames, hdone⟩
  have hvisit : Shows S tables env table ops root ((Steps.upTo env depth).visit root) _ :=
    hp.visit_shows hw hfresh depth
  refine .bind (hvisit.imp fun _ s' ⟨b, a, h⟩ => ?_)
  refine Meets.closeLevel (fun q hq => ?_) fun _ _ => trivial
  obtain ⟨hrows, hordered⟩ := h.queryRows_close hq
  refine ⟨fun F hF hfit => ?_, fun q' hq' => ?_⟩
  · exact (getD_allRows_push S tables s'.levels q).trans (hrows F hF hfit)
  · rcases Array.mem_push.1 hq' with hq' | rfl
    · exact h.done q' hq'
    · exact hordered

end Run

section Scopes

variable {g : Graph} {careful : Prop} {table : Table} {ops : List Kind} {root own v : NodeId}

theorem Grouped.not_isCollection (hw : g.WellFormed careful) (h : Grouped g own v) :
    g.isCollection v = false := by
  cases hn : g.node? v with
  | none => simp [Graph.isCollection, hn]
  | some n =>
    have hvalue := (h.shape hn).value
    have hfits := hw v n hn
    obtain ⟨kind, shape⟩ := n
    cases shape with
    | collection schema =>
      cases kind <;> first | exact hfits.elim | simp [isScalar, looksAround] at hvalue
    | sequence typed | scalar typed => simp [Graph.isCollection, hn, Node.isCollection]

theorem readsFrom_of_operands {n : Node} (hown : g.isCollection own = true)
    (hn : g.node? v = some n)
    (hops : ∀ o ∈ n.kind.operands,
      o.2 = own ∨ g.isCollection o.2 = false ∧ g.ReadsFrom (· = own) o.2) :
    g.ReadsFrom (· = own) v := by
  refine .value hn (fun slot x hx _ hc => ?_) fun slot x hx _ hc => ?_
  · exact (hops _ hx).resolve_right fun h => by simp [h.1] at hc
  · exact ((hops _ hx).resolve_left fun h => by simp_all).2

theorem RowWise.readsFrom (hw : g.WellFormed careful) (hown : g.isCollection own = true)
    (h : RowWise g own v) : g.ReadsFrom (· = own) v := by
  induction h with
  | column hn =>
    exact readsFrom_of_operands hown hn fun o ho => .inl (by rw [List.mem_singleton.1 ho])
  | scalar hn _ _ hops ih =>
    exact readsFrom_of_operands hown hn fun o ho =>
      .inr ⟨(hops o ho).grouped.not_isCollection hw, ih o ho⟩

/-- Values over a collection refer to no other collection. -/
theorem Grouped.readsFrom (hw : g.WellFormed careful) (hown : g.isCollection own = true)
    (h : Grouped g own v) : g.ReadsFrom (· = own) v := by
  induction h with
  | column hn =>
    exact readsFrom_of_operands hown hn fun o ho => .inl (by rw [List.mem_singleton.1 ho])
  | scalar hn _ _ hops ih =>
    exact readsFrom_of_operands hown hn fun o ho => .inr ⟨(hops o ho).not_isCollection hw, ih o ho⟩
  | aggregate hn hrow =>
    refine readsFrom_of_operands hown hn fun o ho => .inr ?_
    rw [List.mem_singleton.1 ho]
    exact ⟨hrow.grouped.not_isCollection hw, hrow.readsFrom hw hown⟩
  | count hn =>
    exact readsFrom_of_operands hown hn fun o ho => .inl (by rw [List.mem_singleton.1 ho])

theorem Pipeline.wellScoped (hw : g.WellFormed careful) (hp : Pipeline g root table ops) :
    g.WellScoped root := by
  intro id n hr hn
  have hinside : Inside g table id := Inside.reach ⟨root, ops, hp, .inl rfl⟩ hr
  refine ⟨fun hc slot x hx hvalue => ?_, fun sequence _ hq => ?_⟩
  · obtain ⟨own, ops', hp', rfl | hv⟩ := hinside
    · cases hp' with
      | source hm =>
        cases hn.symm.trans hm
        cases hx
      | @step _ input kind _ _ _ hp'' hm hreads =>
        cases hn.symm.trans hm
        have hown : g.isCollection input = true := hp''.isCollection hw
        have hmem : input ∈ Graph.inputs kind := by
          cases kind <;> first | exact hreads.elim | exact List.mem_singleton.2 hreads.1.symm
        rcases hreads.operands _ hx with rfl | hgrouped
        · exact absurd hown (by simp [hvalue])
        · exact (hgrouped.readsFrom hw hown).mono fun c hc => hc ▸ hmem
    · have hno := hv.not_isCollection hw
      simp [Graph.isCollection, hn, hc] at hno
  · simp [(hinside.alone hn).1] at hq

theorem Pipeline.not_badStop (hp : Pipeline g root table ops) (e : Error) : ¬ BadStop g root e := by
  rintro ⟨id, input, start, stop, step, shape, hr, hn, hstop⟩
  obtain ⟨own, ops', hp', rfl | hv⟩ := Inside.reach ⟨root, ops, hp, .inl rfl⟩ hr
  · cases hp' with
    | source hm => cases hn.symm.trans hm
    | step _ hm hreads =>
      cases hn.symm.trans hm
      obtain ⟨_, _, _, n, rfl, hpos⟩ := hreads
      rcases hstop with ⟨m, hm, hneg, _⟩ | ⟨hnone, _⟩
      · cases hm
        exact absurd hpos (Int64.not_le.2 hneg)
      · cases hnone
  · have hvalue := (hv.shape hn).value
    simp [isScalar, looksAround] at hvalue

end Scopes

/-- A statement of a pipeline shows the rows of the pipeline, and its levels are ordered plainly. -/
theorem Pipeline.rows_of_compile {V : Type} [DecidableEq V] (S : Scalars V)
    (tables : Table → List (Row V)) {g : Graph} (hw : g.WellFormed False) {root : NodeId}
    {table : Table} {ops : List Kind} (hp : Pipeline g root table ops) {c c' : Compiler}
    (hc : Distinguished c.functions) {stmt : Statement} (h : c.compile g root = (.ok stmt, c')) :
    (SortsWithin S g (namesOf c'.functions) c.options.sortLimit ops (tables table) →
      statementRows S tables stmt = some (run S g (namesOf c'.functions) ops (tables table))) ∧
    ∀ q ∈ stmt.levels, OrderedPlainly q := by
  have hp' : Pipeline (c.env g).graph root table ops := hp
  have hstatement : Meets (Compile.statement (c.env g) root) (.start c.functions) (fun stmt s' =>
      WhenSortsFit S tables (c.env g) table ops s' (fun made =>
        statementRows S tables stmt = some made) ∧ ∀ q ∈ stmt.levels, OrderedPlainly q)
      fun _ _ => True := by
    refine .bind ((hp'.compileLevel_meets S tables hw hc ?_ (3 * g.size + 3)).imp
      fun level s' hs' => ?_)
    · simp [State.start]
    · exact .bind (.get (.pure hs'))
  unfold Compiler.compile at h
  split at h
  · next result s' hrun =>
    obtain ⟨hrows, hordered⟩ := hstatement.of_ok hrun
    obtain ⟨hstmt, rfl⟩ := Prod.mk.inj h
    obtain rfl := Except.ok.inj hstmt
    exact ⟨fun hfit => hrows s'.context.functions (.refl _) hfit, hordered⟩
  · cases h

/-- The statement of a pipeline shows the rows that its operators make one after the other, as long
as no sort has more rows than a sorted level is limited to. No level has an order together with
groups, a summary or dropped repetitions. There is a statement unless a value has no form in one. -/
theorem compile_pipeline {V : Type} [DecidableEq V] (S : Scalars V) (tables : Table → List (Row V))
    {g : Graph} (hg : Built g) {root : NodeId} {table : Table} {ops : List Kind}
    (hp : Pipeline g root table ops) {c : Compiler} (hc : Distinguished c.functions) :
    (∀ stmt c', c.compile g root = (.ok stmt, c') →
      (SortsWithin S g (namesOf c'.functions) c.options.sortLimit ops (tables table) →
        statementRows S tables stmt = some (run S g (namesOf c'.functions) ops (tables table))) ∧
      ∀ q ∈ stmt.levels, OrderedPlainly q) ∧
    (BuiltBy (fun g c => c.NamesCollection g) g → ∀ e c', c.compile g root = (.error e, c') →
      (∃ what, e = .unsupported what) ∨ e = .overflow) := by
  have hw := hg.fits
  refine ⟨fun stmt c' h => hp.rows_of_compile S tables hw hc h, fun hg' e c' h => ?_⟩
  have hw' : g.WellFormed True := hg'.wellFormed fun _ _ _ h => h
  have herror := error_of_wellScoped hw' (hp.isCollection hw) (hp.wellScoped hw)
    (congrArg Prod.fst h)
  have hinexpressible := herror.resolve_right (hp.not_badStop e)
  cases e with
  | unsupported what => exact .inl ⟨what, rfl⟩
  | overflow => exact .inr rfl
  | _ => exact hinexpressible.elim

-- The zero that the sum of a list starts from is the literal one, whatever else is imported.
attribute [local instance (2000)] Zero.ofOfNat0

/-- Integers, with sums as the aggregates. -/
def integers : Scalars Int where
  constant v := match v with
    | .integer n => n.toInt
    | _ => 0
  binary op x y := match op with
    | .add => x + y
    | .gt => if x > y then 1 else 0
    | _ => 0
  negate x := -x
  not x := 1 - x
  isNull negated _ := if negated then 1 else 0
  inList negated x xs := if (x ∈ xs) = negated then 0 else 1
  between x low high := if low ≤ x ∧ x ≤ high then 1 else 0
  call _ _ := 0
  convert _ _ x := x
  cases _ _ _ := 0
  aggregate _ rows := (rows.map List.sum).sum
  aggregateDistinct _ xs := xs.sum
  unknown := 0
  holds x := x != 0
  le x y := decide (x ≤ y)
  le_total x y := by simpa using Int.le_total x y
  le_trans x y z := by simpa using Int.le_trans

/-- The totals of the shops in the three largest sales. -/
def largestSales : List Call :=
  [.source "" "sales" [⟨"shop", .int64⟩, ⟨"amount", .int64⟩], .column 0 "amount",
    .literal (.integer 1), .binary .gt 1 2, .filter 0 3, .column 4 "amount", .sort 4 [⟨5, false⟩],
    .slice 6 none (some 3) none, .column 7 "shop", .column 7 "amount", .reduce .sum 9 0,
    .rename 10 "total", .groupBy 7 [8] [11] none]

/-- The table of the sales. -/
def salesTable : Table := ⟨"", "sales", ⟨[⟨"shop", .int64⟩, ⟨"amount", .int64⟩]⟩⟩

/-- Some sales. -/
def sales : List (Row Int) :=
  [(1, 5), (2, 7), (1, 9), (2, 1), (3, 4)].map fun (shop, amount) =>
    [("shop", shop), ("amount", amount)]

theorem pipeline_largestSales : Pipeline (Call.run largestSales) 12 salesTable
    [.filter 0 3, .sort 4 [⟨5, false⟩], .slice 6 none (some 3) none, .groupBy 7 [8] [11] none] := by
  have hnode : ∀ id kind, ((Call.run largestSales).node? id).map Node.kind = some kind →
      ∃ shape, (Call.run largestSales).node? id = some ⟨kind, shape⟩ := by
    intro id kind h
    obtain ⟨n, hn, rfl⟩ := Option.map_eq_some_iff.1 h
    exact ⟨n.shape, hn⟩
  have hcolumn : ∀ id own, ((Call.run largestSales).node? id).map Node.kind = some (.column own) →
      RowWise (Call.run largestSales) own id :=
    fun id own h => (hnode id _ h).elim fun _ hn => .column hn
  obtain ⟨_, hsource⟩ := hnode 0 (.source salesTable) (by decide +kernel)
  obtain ⟨_, hone⟩ := hnode 2 (.literal (.integer 1)) (by decide +kernel)
  obtain ⟨_, hlarge⟩ := hnode 3 (.binary .gt 1 2) (by decide +kernel)
  obtain ⟨_, hfilter⟩ := hnode 4 (.filter 0 3) (by decide +kernel)
  obtain ⟨_, hsort⟩ := hnode 6 (.sort 4 [⟨5, false⟩]) (by decide +kernel)
  obtain ⟨_, hslice⟩ := hnode 7 (.slice 6 none (some 3) none) (by decide +kernel)
  obtain ⟨_, htotal⟩ := hnode 11 (.reduction .sum 9 0) (by decide +kernel)
  obtain ⟨_, hgroup⟩ := hnode 12 (.groupBy 7 [8] [11] none) (by decide +kernel)
  have hpredicate : RowWise (Call.run largestSales) 0 3 := by
    refine .scalar hlarge rfl rfl ?_
    simpa [Kind.operands] using ⟨hcolumn 1 0 (by decide +kernel),
      RowWise.scalar hone rfl rfl (by simp [Kind.operands])⟩
  have hsorted := Pipeline.step (.step (.source hsource) hfilter ⟨rfl, hpredicate⟩) hsort
    ⟨rfl, by simpa using hcolumn 5 4 (by decide +kernel)⟩
  refine .step (.step hsorted hslice ⟨rfl, rfl, rfl, 3, rfl, by decide⟩) hgroup
    ⟨rfl, ?_, ?_, by simp⟩
  · simpa using hcolumn 8 7 (by decide +kernel)
  · simpa using Grouped.aggregate htotal (hcolumn 9 7 (by decide +kernel))

/-- The statement shows the totals of two shops. -/
theorem compile_largestSales :
    Built (Call.run largestSales) ∧
    Pipeline (Call.run largestSales) 12 salesTable [.filter 0 3, .sort 4 [⟨5, false⟩],
      .slice 6 none (some 3) none, .groupBy 7 [8] [11] none] ∧
    Distinguished (Compiler.new .default).functions ∧
    ∃ stmt c', (Compiler.new .default).compile (Call.run largestSales) 12 = (.ok stmt, c') ∧
      statementRows integers (fun _ => sales) stmt =
        some [[("shop", 1), ("total", 14)], [("shop", 2), ("total", 7)]] ∧
      ∀ q ∈ stmt.levels, OrderedPlainly q := by
  have hbuilt : Built (Call.run largestSales) := .run (by simp [largestSales, Call.AllowedFrom])
  have hnames : Distinguished (Compiler.new .default).functions := fun _ _ h => by cases h
  have hok : ((Compiler.new .default).compile (Call.run largestSales) 12).1.isOk = true := by
    decide +kernel
  have hrun : run integers (Call.run largestSales)
      (namesOf ((Compiler.new .default).compile (Call.run largestSales) 12).2.functions)
      [.filter 0 3, .sort 4 [⟨5, false⟩], .slice 6 none (some 3) none, .groupBy 7 [8] [11] none]
      sales = [[("shop", 1), ("total", 14)], [("shop", 2), ("total", 7)]] := by
    decide +kernel
  have hsort : (run integers (Call.run largestSales)
      (namesOf ((Compiler.new .default).compile (Call.run largestSales) 12).2.functions)
      [.filter 0 3, .sort 4 [⟨5, false⟩]] sales).length ≤
        (Compiler.new .default).options.sortLimit := by
    decide +kernel
  refine ⟨hbuilt, pipeline_largestSales, hnames, ?_⟩
  generalize hcompile : (Compiler.new .default).compile (Call.run largestSales) 12 = result
  rw [hcompile] at hok hrun hsort
  obtain ⟨answer, c'⟩ := result
  cases answer with
  | error e => cases hok
  | ok stmt =>
    have h := (compile_pipeline integers (fun _ => sales) hbuilt pipeline_largestSales hnames).1
      stmt c' hcompile
    refine ⟨stmt, c', rfl, ?_, h.2⟩
    refine (h.1 fun before input keys after hops => ?_).trans (congrArg some hrun)
    -- the sort is the second operator
    obtain _ | ⟨_, _ | ⟨_, _ | ⟨_, _ | ⟨_, _⟩⟩⟩⟩ := before
    · simp at hops
    · simp only [List.cons_append, List.nil_append, List.cons.injEq] at hops
      obtain ⟨rfl, hsorted, -⟩ := hops
      rw [← hsorted]
      exact hsort
    · simp at hops
    · simp at hops
    · simp at hops

/-- If no node of a pipeline is misread, its statement says what it means: every expression of it is
read as its own tree, and with these expressions the statement shows the rows of the pipeline. -/
theorem pipeline_read_back {V : Type} [DecidableEq V] (S : Scalars V)
    (tables : Table → List (Row V)) {g : Graph} (hg : Built g) {root : NodeId} {table : Table}
    {ops : List Kind} (hp : Pipeline g root table ops) {c c' : Compiler}
    (hc : Distinguished c.functions) {stmt : Statement} (h : c.compile g root = (.ok stmt, c'))
    (hright : ∀ id n, g.node? id = some n → Reading.misread g n = false) (layout : Layout)
    (levelText : LevelId → String) :
    (∀ shown ∈ Reading.statementExprs stmt, ∃ e, (shown = e ∨ shown = .descending e) ∧
      Reading.dense (e.text layout levelText) =
        Reading.spell (Reading.treeOf levelText e).tokens ∧
      Reading.parse (Reading.treeOf levelText e).tokens =
        some (Reading.treeOf levelText e).erase) ∧
    (SortsWithin S g (namesOf c'.functions) c.options.sortLimit ops (tables table) →
      statementRows S tables stmt = some (run S g (namesOf c'.functions) ops (tables table))) := by
  have hw := hg.fits
  refine ⟨fun shown hshown => ?_, (hp.rows_of_compile S tables hw hc h).1⟩
  obtain ⟨v, e, hrendering, he⟩ := Reading.compile_shows hw h shown hshown
  refine ⟨e, he, Reading.dense_text layout levelText e, ?_⟩
  rw [Reading.parse_tokens_iff, hrendering.adequate_iff hw levelText]
  exact fun w n _ hn => hright w n hn

end PlanSql.Rows

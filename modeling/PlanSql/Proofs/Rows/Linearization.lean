import PlanSql.Proofs.Rows.Values

/-!
# Linearization keeps the meaning of a pipeline

The compiler puts as many operators of a pipeline on one level as it can and wraps the level when
the next one does not fit. `Describes` is what holds after each operator: the clauses set so far,
read in the order of a statement, show the rows that the operators make one after the other. Every
operator keeps it, and wrapping a level keeps it, so the statement of a pipeline shows its rows.
-/

namespace PlanSql.Rows

open PlanSql.Sql PlanSql.Compile

/-! ## The level of a pipeline -/

section Level

variable {V : Type} [DecidableEq V] {S : Scalars V} {tables : Table → List (Row V)} {env : Env}
  {table : Table} {ops : List Kind} {own b : NodeId} {a : Alias} {s : State}
variable {g : Graph} {id : NodeId} {depth : Nat} {q : Query} {s' : State} {op : Kind}

def levelOf (c : Clauses Expr Source) (source : Source) : Query :=
  ⟨c.select, c.distinct, source, c.on, c.filter, c.groupBy, c.having, c.orderBy, c.limit⟩

/-- A level with an order shows no groups and keeps repeated rows. -/
def OrderedPlainly (q : Query) : Prop :=
  q.orderBy.isSome → q.groupBy = none ∧ q.distinct = false ∧ isGrouped q = false

/-- The rows that the operators give have the property if no sort has too many of them. -/
def WhenSortsFit (S : Scalars V) (tables : Table → List (Row V)) (env : Env) (table : Table)
    (ops : List Kind) (s : State) (P : List (Row V) → Prop) : Prop :=
  ∀ F, Keeps s.context.functions F →
    SortsWithin S env.graph (namesOf F) env.sortLimit ops (tables table) →
    P (run S env.graph (namesOf F) ops (tables table))

/-- The state after the operators `ops` over `table`, the last of which is `own`: the level selects
from `b`, which it knows as `a`. -/
structure Describes (S : Scalars V) (tables : Table → List (Row V)) (env : Env) (table : Table)
    (ops : List Kind) (own b : NodeId) (a : Alias) (s : State) : Prop where
  level : OnLevel env.graph b a s
  on : s.clauses.on = none
  /-- What the level selects from is no longer a pipeline than the whole. -/
  below : ∃ ops', Pipeline env.graph b table ops' ∧ ops'.length ≤ ops.length
  rows : ∃ source, s.clauses.source = some source ∧
    WhenSortsFit S tables env table ops s fun made =>
    ∃ rows, sourceRows tables (allRows S tables #[] s.levels.toList) source = some (a, rows) ∧
      levelRows S a (levelOf s.clauses source) rows = made
  /-- The limit of levels that have only an order cuts nothing off. -/
  capped : s.clauses.orderBy.isSome → s.clauses.limit = none →
    WhenSortsFit S tables env table ops s fun made => made.length ≤ env.sortLimit
  /-- As long as nothing is selected, the columns of `own` can be named. -/
  plain : s.clauses.select = none →
    (∀ source, IsPlain (levelOf s.clauses source)) ∧ Passes env.graph own b
  closed : s.clauses.select.isSome → ∀ depth r,
    addressable env.graph [(b, a)] depth own = .ok r → r = false
  ordered : ∀ source, OrderedPlainly (levelOf s.clauses source)
  done : ∀ q ∈ s.levels, OrderedPlainly q

/-- The clauses of a level that only says what it selects from. -/
def bare (source : Source) : Clauses Expr Source :=
  ⟨none, false, some source, none, none, none, none, none, none⟩

theorem levelRows_bare (source : Source) (rows : List (Row V)) :
    levelRows S a (levelOf (bare source) source) rows = rows :=
  levelRows_of_plain ⟨rfl, rfl, rfl, rfl⟩ rfl rows

theorem conflicts_bare (source : Source) (clause : Clause) :
    (bare source).conflicts clause = false := by cases clause <;> rfl

theorem Passes.pipeline (h : Passes g own b) (hp : Pipeline g own table ops) :
    ∃ ops', Pipeline g b table ops' ∧ ops'.length ≤ ops.length := by
  induction h generalizing ops with
  | refl id => exact ⟨ops, hp, Nat.le_refl _⟩
  | step hn hpass _ ih =>
    cases hp with
    | source hm =>
      cases hn.symm.trans hm
      cases hpass
    | step hp' hm hr =>
      cases hn.symm.trans hm
      obtain rfl := hr.passThrough hpass
      obtain ⟨ops', hb, hle⟩ := ih hp'
      exact ⟨ops', hb, by simp only [List.length_append]; omega⟩

theorem passes_of_lift (h : lift g depth own = .ok b) :
    Passes g own b := by
  induction depth generalizing own with
  | zero => cases h
  | succ depth ih =>
    obtain ⟨n, hn, h⟩ := bind_ok h
    have hfound := Graph.node_eq_ok_iff.1 hn
    cases hp : n.kind.passThrough? with
    | some input =>
      rw [hp] at h
      exact .step hfound hp (ih h)
    | none =>
      rw [hp] at h
      obtain rfl := Except.ok.inj h
      exact .refl own

theorem describes_bare {source : Source} (hp : Pipeline env.graph own table ops)
    (hclauses : s.clauses = bare source) (hlevel : OnLevel env.graph b a s)
    (hpass : Passes env.graph own b) (hdone : ∀ q ∈ s.levels, OrderedPlainly q)
    (hrows : WhenSortsFit S tables env table ops s fun made =>
      sourceRows tables (allRows S tables #[] s.levels.toList) source = some (a, made)) :
    Describes S tables env table ops own b a s where
  level := hlevel
  on := by rw [hclauses]; rfl
  below := hpass.pipeline hp
  rows := by
    refine ⟨source, by rw [hclauses]; rfl, fun F hF hfit => ⟨_, hrows F hF hfit, ?_⟩⟩
    rw [hclauses]
    exact levelRows_bare source _
  capped := by rw [hclauses]; intro h; cases h
  plain := by
    rw [hclauses]
    exact fun _ => ⟨fun _ => ⟨rfl, rfl, rfl, rfl⟩, hpass⟩
  closed := by rw [hclauses]; intro h; cases h
  ordered := by rw [hclauses]; intro _ h; cases h
  done := hdone

/-- A finished level shows the rows of the pipeline: the limit that a sorted level is given cuts
nothing off. -/
theorem Describes.queryRows_close (h : Describes S tables env table ops own b a s)
    (hq : s.clauses.close env.sortLimit = .ok q) :
    WhenSortsFit S tables env table ops s (fun made =>
      queryRows S tables (allRows S tables #[] s.levels.toList) q = some made) ∧
    OrderedPlainly q := by
  obtain ⟨source, hsource, hrows⟩ := h.rows
  have hclosed : q = { levelOf s.clauses source with
      limit := s.clauses.limit.or (s.clauses.orderBy.map fun _ => env.sortLimit) } := by
    rw [Clauses.close, hsource] at hq
    exact (Except.ok.inj hq).symm
  subst hclosed
  refine ⟨fun F hF hfit => ?_, fun ho => h.ordered source ho⟩
  obtain ⟨rows, hfrom, hshown⟩ := hrows F hF hfit
  -- The rows of a level are those that its clauses show, once its source has rows.
  have hquery : ∀ limit, queryRows S tables (allRows S tables #[] s.levels.toList)
      { levelOf s.clauses source with limit := limit } =
        some (levelRows S a { levelOf s.clauses source with limit := limit } rows) := by
    intro limit
    simp only [queryRows, levelOf, h.on, hfrom, Option.map_some]
  rw [hquery]
  cases hl : s.clauses.limit with
  | some n =>
    have hsame : { levelOf s.clauses source with limit := some n } = levelOf s.clauses source := by
      simp [levelOf, hl]
    rw [Option.some_or, hsame, hshown]
  | none =>
    cases ho : s.clauses.orderBy with
    | none =>
      have hsame : { levelOf s.clauses source with limit := none } = levelOf s.clauses source := by
        simp [levelOf, hl]
      rw [Option.map_none, Option.none_or, hsame, hshown]
    | some keys =>
      have hcap := h.capped (by simp [ho]) hl F hF hfit
      rw [Option.map_some, Option.none_or, levelRows_limit hl, hshown, List.take_of_length_le hcap]

/-- Wrapping the level keeps the rows of the pipeline. -/
theorem promote_meets (hp : Pipeline env.graph own table ops)
    (h : Describes S tables env table ops own b a s) :
    Meets (promote env own) s (fun _ s' => ∃ b' a' source,
      Describes S tables env table ops own b' a' s' ∧ s'.clauses = bare source)
      fun _ _ => True := by
  refine .bind (Meets.finishLevel (fun q hq => .bind (.modifyGet ?_)) fun _ _ => trivial)
  generalize s.context.aliases.registerDerived own = r
  obtain ⟨label, aliases⟩ := r
  refine .bind (Meets.check (fun lifted hlift => ?_) fun _ _ => trivial)
  refine .bind (.modify (Meets.fill (fun c hc => ?_) fun _ _ => trivial))
  obtain rfl : bare (.derived s.levels.size label) = c := Except.ok.inj hc
  obtain ⟨hrows, hordered⟩ := h.queryRows_close hq
  refine ⟨lifted, label, _, describes_bare hp rfl ⟨rfl, ?_, h.level.names⟩ (passes_of_lift hlift)
    ?_ ?_, rfl⟩
  · intro F _ x e hx
    cases hx
  · intro q' hq'
    rcases Array.mem_push.1 hq' with hq' | rfl
    · exact h.done q' hq'
    · exact hordered
  · intro F hF hfit
    have hlast := getD_allRows_push S tables s.levels q
    simp only [sourceRows, hlast, hrows F hF hfit, Option.map_some]

/-- Before a clause is filled whose values read the columns of the input, the level is one on which
they can be named. -/
theorem prepare_meets (hp : Pipeline env.graph own table ops) {clause : Clause}
    (h : Describes S tables env table ops own b a s) :
    Meets (prepare env own clause true) s (fun _ s' => ∃ b' a',
      Describes S tables env table ops own b' a' s' ∧ s'.clauses.select = none ∧
        s'.clauses.conflicts clause = false) fun _ _ => True := by
  have hwrap : Meets (promote env own) s (fun _ s' => ∃ b' a',
      Describes S tables env table ops own b' a' s' ∧ s'.clauses.select = none ∧
        s'.clauses.conflicts clause = false) fun _ _ => True :=
    (promote_meets hp h).imp fun _ s' ⟨b', a', source, hs', hc⟩ =>
      ⟨b', a', hs', by rw [hc]; rfl, by rw [hc]; exact conflicts_bare source clause⟩
  refine .bind (.get ?_)
  split
  · exact hwrap
  · next hconflict =>
    refine .bind (Meets.check (fun r hr => ?_) fun _ _ => trivial)
    split
    · exact hwrap
    · next haddr =>
      have hselect : s.clauses.select = none := by
        rw [h.level.visible] at hr
        by_contra hne
        have hfalse := h.closed (Option.isSome_iff_ne_none.2 hne) _ r hr
        simp [hfalse] at haddr
      exact .pure ⟨b, a, h, hselect, by simpa using hconflict⟩

theorem prepare_limit_meets (hp : Pipeline env.graph own table ops)
    (h : Describes S tables env table ops own b a s) :
    Meets (prepare env own .limit false) s (fun _ s' => ∃ b' a',
      Describes S tables env table ops own b' a' s' ∧ s'.clauses.limit = none)
      fun _ _ => True := by
  refine .bind (.get ?_)
  split
  · refine (promote_meets hp h).imp fun _ s' ⟨b', a', source, hs', hc⟩ => ⟨b', a', hs', ?_⟩
    rw [hc]
    rfl
  · next hconflict =>
    refine .pure ⟨b, a, h, ?_⟩
    simpa [Clauses.conflicts] using hconflict

theorem WhenSortsFit.mono {P : List (Row V) → Prop}
    (hf : Keeps s.context.functions s'.context.functions)
    (h : WhenSortsFit S tables env table ops s P) : WhenSortsFit S tables env table ops s' P :=
  fun F hF hfit => h F (hf.trans hF) hfit

/-- Compiling values keeps what is known of the level. -/
theorem Describes.same (h : Describes S tables env table ops own b a s) (hsame : SameLevel s s')
    (hlevel : OnLevel env.graph b a s') :
    Describes S tables env table ops own b a s' := by
  obtain ⟨hclauses, hlevels, hf⟩ := hsame
  obtain ⟨source, hsource, hrows⟩ := h.rows
  refine ⟨hlevel, ?_, h.below, ?_, ?_, ?_, ?_, ?_, ?_⟩
  · rw [hclauses]; exact h.on
  · rw [hclauses, hlevels]; exact ⟨source, hsource, hrows.mono hf⟩
  · rw [hclauses]; exact fun ho hl => (h.capped ho hl).mono hf
  · rw [hclauses]; exact h.plain
  · rw [hclauses]; exact h.closed
  · rw [hclauses]; exact h.ordered
  · rw [hlevels]; exact h.done

/-- Filling a clause does what an operator does. -/
theorem Describes.step (h : Describes S tables env table ops own b a s) {c : Clauses Expr Source}
    (hsource : c.source = s.clauses.source) (hon : c.on = s.clauses.on)
    (hstep : ∀ F, Keeps s.context.functions F → ∀ source rows,
      levelRows S a (levelOf c source) rows =
        apply S env.graph (namesOf F) op (levelRows S a (levelOf s.clauses source) rows))
    (hcapped : c.orderBy.isSome → c.limit = none →
      WhenSortsFit S tables env table (ops ++ [op]) s fun made => made.length ≤ env.sortLimit)
    (hplain : c.select = none → (∀ source, IsPlain (levelOf c source)) ∧ Passes env.graph id b)
    (hclosed : c.select.isSome → ∀ depth r,
      addressable env.graph [(b, a)] depth id = .ok r → r = false)
    (hordered : ∀ source, OrderedPlainly (levelOf c source)) :
    Describes S tables env table (ops ++ [op]) id b a { s with clauses := c } where
  level := ⟨h.level.visible, h.level.fragments, h.level.names⟩
  on := hon.trans h.on
  below := by
    obtain ⟨ops', hb, hle⟩ := h.below
    exact ⟨ops', hb, by simp only [List.length_append]; omega⟩
  rows := by
    obtain ⟨source, hs, hrows⟩ := h.rows
    refine ⟨source, hsource.trans hs, fun F hF hfit => ?_⟩
    obtain ⟨rows, hfrom, hshown⟩ := hrows F hF hfit.of_concat
    refine ⟨rows, hfrom, ?_⟩
    rw [hstep F hF, hshown, run_concat]
  capped := hcapped
  plain := hplain
  closed := hclosed
  ordered := hordered
  done := h.done

/-- What the level selects from comes before the next operator. -/
theorem Describes.ne (h : Describes S tables env table ops own b a s)
    (hp : Pipeline env.graph id table (ops ++ [op])) : id ≠ b := by
  rintro rfl
  obtain ⟨ops', hb, hle⟩ := h.below
  have heq := hp.unique hb
  rw [← heq, List.length_append, List.length_singleton] at hle
  omega

/-- The columns of something that is neither what the level selects from nor passes rows through
cannot be named. -/
theorem addressable_eq_false {n : Node} (hn : g.node? id = some n) (hne : id ≠ b)
    (hjoin : ∀ l r p h fs, n.kind ≠ .join l r p h fs)
    (hpass : ∀ input, n.kind.passThrough? = some input → ∀ depth r,
      addressable g [(b, a)] depth input = .ok r → r = false) {r : Bool}
    (hr : addressable g [(b, a)] depth id = .ok r) : r = false := by
  cases depth with
  | zero => cases hr
  | succ depth =>
    have hbeq : (id == b) = false := beq_false_of_ne hne
    have hlookup : (List.lookup id [(b, a)]).isSome = false := by simp [List.lookup_cons, hbeq]
    rw [addressable, hlookup] at hr
    obtain ⟨m, hm, hr⟩ := bind_ok hr
    cases hn.symm.trans (Graph.node_eq_ok_iff.1 hm)
    split at hr
    · next l r p h fs hk => exact absurd hk (hjoin l r p h fs)
    · split at hr
      · next input hi => exact hpass input hi depth r hr
      · exact (Except.ok.inj hr).symm

/-! ## One operator -/

theorem IsPlain.orderedPlainly (h : IsPlain q) : OrderedPlainly q :=
  fun _ => ⟨h.groupBy, h.distinct, by simp [isGrouped, h.select, h.groupBy]⟩

section Operators

variable {careful : Prop} (hw : env.graph.WellFormed careful)
  (h : Describes S tables env table ops own b a s) {id : NodeId} {shape : Shape}
variable {items : List (Item Expr)} {es : List Expr} {op : Kind} {fields : List NodeId}

include hw h

theorem Describes.filter (hselect : s.clauses.select = none)
    (hfree : s.clauses.conflicts .filter = false) {predicate : NodeId} {e : Expr}
    (hn : env.graph.node? id = some ⟨.filter own predicate, shape⟩)
    (he : Rendered env.graph a s predicate e) :
    Describes S tables env table (ops ++ [.filter own predicate]) id b a
      { s with clauses := { s.clauses with filter := some e } } := by
  obtain ⟨hplain, hpass⟩ := h.plain hselect
  obtain ⟨hfilter, hlimit⟩ : s.clauses.filter = none ∧ s.clauses.limit = none := by
    simp [Clauses.conflicts] at hfree
    exact ⟨hfree.1.1.1, hfree.2⟩
  have hplain' : ∀ source, IsPlain (levelOf { s.clauses with filter := some e } source) :=
    fun source => ⟨(hplain source).1, (hplain source).2, (hplain source).3, (hplain source).4⟩
  refine h.step rfl rfl (fun F hF source rows => ?_) (fun ho hl F hF hfit => ?_)
    (fun _ => ⟨hplain', .step hn rfl hpass⟩) (fun hsome => by simp [hselect] at hsome)
    fun source => (hplain' source).orderedPlainly
  · have hrows := levelRows_filter (S := S) (a := a) (hplain source) hlimit hfilter e rows
    simp only [he.eval_eq hw hF] at hrows
    exact hrows
  · rw [run_concat]
    exact (List.length_filter_le _ _).trans (h.capped ho hl F hF hfit.of_concat)

theorem Describes.sort (hselect : s.clauses.select = none)
    (hfree : s.clauses.conflicts .orderBy = false) {keys : List SortKey}
    (hn : env.graph.node? id = some ⟨.sort own keys, shape⟩)
    (hes : List.Forall₂ (KeyRendered env.graph a s) keys es) :
    Describes S tables env table (ops ++ [.sort own keys]) id b a
      { s with clauses := { s.clauses with orderBy := some es } } := by
  obtain ⟨hplain, hpass⟩ := h.plain hselect
  obtain ⟨horder, hlimit⟩ : s.clauses.orderBy = none ∧ s.clauses.limit = none := by
    simpa [Clauses.conflicts] using hfree
  have hplain' : ∀ source, IsPlain (levelOf { s.clauses with orderBy := some es } source) :=
    fun source => ⟨(hplain source).1, (hplain source).2, (hplain source).3, (hplain source).4⟩
  refine h.step rfl rfl (fun F hF source rows => ?_) (fun _ _ F hF hfit => hfit.length_le)
    (fun _ => ⟨hplain', .step hn rfl hpass⟩) (fun hsome => by simp [hselect] at hsome)
    fun source => (hplain' source).orderedPlainly
  have hrows := levelRows_orderBy (S := S) (a := a) (hplain source) hlimit horder es rows
  rw [keys_eq hw hF hes] at hrows
  exact hrows

omit hw in
theorem Describes.slice (hfree : s.clauses.limit = none) {n : Int64}
    (hp : Pipeline env.graph id table (ops ++ [.slice own none (some n) none]))
    (hn : env.graph.node? id = some ⟨.slice own none (some n) none, shape⟩) :
    Describes S tables env table (ops ++ [.slice own none (some n) none]) id b a
      { s with clauses := { s.clauses with limit := some n.toInt.toNat } } := by
  refine h.step rfl rfl (fun F hF source rows => ?_) (fun _ hl => by cases hl) (fun hselect => ?_)
    (fun hsome depth r hr => ?_) fun source => h.ordered source
  · exact levelRows_limit (q := levelOf s.clauses source) hfree n.toInt.toNat rows
  · obtain ⟨hplain, hpass⟩ := h.plain hselect
    exact ⟨fun source => ⟨(hplain source).1, (hplain source).2,
      (hplain source).3, (hplain source).4⟩, .step hn rfl hpass⟩
  · refine addressable_eq_false hn (h.ne hp) (by simp) (fun input hinput => ?_) hr
    cases hinput
    exact h.closed hsome

omit hw in
/-- The columns of an operator that shows values of its own cannot be named on its level. -/
theorem Describes.not_addressable (hn : env.graph.node? id = some ⟨op, shape⟩)
    (hp : Pipeline env.graph id table (ops ++ [op])) (hreads : ReadsOwn env.graph own op)
    (hthrough : op.passThrough? = none) (depth : Nat) (r : Bool)
    (hr : addressable env.graph [(b, a)] depth id = .ok r) : r = false := by
  refine addressable_eq_false hn (h.ne hp) ?_ ?_ hr
  · rintro left right predicate how fields rfl
    exact hreads
  · intro input hinput
    simp [hthrough] at hinput

/-- Values without aggregates are shown for each row. -/
theorem Describes.select (hselect : s.clauses.select = none) (hlimit : s.clauses.limit = none)
    {distinct : Bool} (hn : env.graph.node? id = some ⟨op, shape⟩)
    (hp : Pipeline env.graph id table (ops ++ [op])) (hreads : ReadsOwn env.graph own op)
    (hthrough : op.passThrough? = none) (horder : distinct = true → s.clauses.orderBy = none)
    (happly : ∀ F, Keeps s.context.functions F → ∀ rows, apply S env.graph (namesOf F) op rows =
      let shown := rows.map (rowOf S env.graph (namesOf F) fields)
      if distinct then shown.eraseDups else shown)
    (hitems : List.Forall₂ (ItemRendered env.graph a s) fields items)
    (hno : items.any (fun i => hasAggregate i.expr) = false) :
    Describes S tables env table (ops ++ [op]) id b a
      { s with clauses := { s.clauses with select := some items, distinct := distinct } } := by
  obtain ⟨hplain, -⟩ := h.plain hselect
  refine h.step rfl rfl (fun F hF source rows => ?_) (fun ho hl F hF hfit => ?_)
    (fun hnone => by cases hnone) (fun _ => h.not_addressable hn hp hreads hthrough)
    fun source ho => ?_
  · have hrows := levelRows_select (S := S) (a := a) (hplain source) hlimit items hno distinct rows
    have hshown : (fun row => items.map fun i => (shownName i, eval S a row i.expr)) =
        rowOf S env.graph (namesOf F) fields := funext (items_eval_eq hw hF hitems)
    rw [hshown] at hrows
    rw [happly F hF]
    exact hrows
  · cases hd : distinct with
    | true => simp [horder hd] at ho
    | false =>
      rw [run_concat, happly F hF, hd]
      simpa using h.capped ho hl F hF hfit.of_concat
  · refine ⟨(hplain source).groupBy, ?_, ?_⟩
    · cases hd : distinct with
      | true =>
        have horder' : (levelOf s.clauses source).orderBy.isSome := ho
        simp [levelOf, horder hd] at horder'
      | false => rfl
    · have hgroup : s.clauses.groupBy = none := (hplain source).groupBy
      simpa [isGrouped, levelOf, hgroup] using hno

/-- Values with an aggregate are shown once; without any, for each row. -/
theorem Describes.summary (hfree : s.clauses.conflicts .groupBy = false)
    (hn : env.graph.node? id = some ⟨.summary own fields, shape⟩)
    (hp : Pipeline env.graph id table (ops ++ [.summary own fields]))
    (hreads : ReadsOwn env.graph own (.summary own fields))
    (hitems : List.Forall₂ (ItemRendered env.graph a s) fields items) :
    Describes S tables env table (ops ++ [.summary own fields]) id b a
      { s with clauses := { s.clauses with select := some items, distinct := false } } := by
  obtain ⟨⟨⟨hselect, hgroup⟩, horder⟩, hlimit⟩ :
      ((s.clauses.select = none ∧ s.clauses.groupBy = none) ∧ s.clauses.orderBy = none) ∧
        s.clauses.limit = none := by simpa [Clauses.conflicts] using hfree
  have hneeds : ∀ F, Keeps s.context.functions F →
      items.any (fun i => hasAggregate i.expr) = fields.any (needsRows env.graph (namesOf F)) :=
    fun F hF => items_any_eq hw hF S hitems
  cases hany : items.any fun i => hasAggregate i.expr with
  | false =>
    refine h.select hw hselect hlimit hn hp hreads rfl (fun hd => by cases hd) (fun F hF rows => ?_)
      hitems hany
    rw [apply, ← hneeds F hF, hany]
    rfl
  | true =>
    obtain ⟨hplain, -⟩ := h.plain hselect
    refine h.step rfl rfl (fun F hF source rows => ?_) (fun ho => by simp [horder] at ho)
      (fun hnone => by cases hnone) (fun _ => h.not_addressable hn hp hreads rfl)
      fun source ho => by simp [levelOf, horder] at ho
    have hrows := levelRows_summary (S := S) (a := a) (hplain source) hlimit horder items hany rows
    rw [items_groupEval_eq hw hF hitems] at hrows
    have hdistinct : s.clauses.distinct = false := (hplain source).distinct
    rw [apply, ← hneeds F hF, hany, if_pos rfl, ← hrows, levelOf, levelOf, ← hdistinct]

theorem Describes.groupBy (hfree : s.clauses.conflicts .groupBy = false)
    {keys aggregates : List NodeId} {having : Option NodeId} {condition : Option Expr}
    (hn : env.graph.node? id = some ⟨.groupBy own keys aggregates having, shape⟩)
    (hp : Pipeline env.graph id table (ops ++ [.groupBy own keys aggregates having]))
    (hreads : ReadsOwn env.graph own (.groupBy own keys aggregates having))
    (hes : List.Forall₂ (Rendered env.graph a s) keys es)
    (hitems : List.Forall₂ (ItemRendered env.graph a s) (keys ++ aggregates) items)
    (hcondition : Option.Rel (Rendered env.graph a s) having condition) :
    Describes S tables env table (ops ++ [.groupBy own keys aggregates having]) id b a
      { s with clauses := { s.clauses with
        select := some items, distinct := false, groupBy := some es, having := condition } } := by
  obtain ⟨⟨⟨hselect, hgroup⟩, horder⟩, hlimit⟩ :
      ((s.clauses.select = none ∧ s.clauses.groupBy = none) ∧ s.clauses.orderBy = none) ∧
        s.clauses.limit = none := by simpa [Clauses.conflicts] using hfree
  obtain ⟨hplain, -⟩ := h.plain hselect
  refine h.step rfl rfl (fun F hF source rows => ?_) (fun ho => by simp [horder] at ho)
    (fun hnone => by cases hnone) (fun _ => h.not_addressable hn hp hreads rfl)
    fun source ho => by simp [levelOf, horder] at ho
  have hrows := levelRows_groupBy (S := S) (a := a) (hplain source) hlimit horder items es condition
    rows
  have hkeys : (fun row => es.map (eval S a row)) =
      fun row => keys.map fun k => valueIn S env.graph (namesOf F) k row :=
    funext (values_eval_eq hw hF hes)
  have hshown : (fun group => items.map fun i => (shownName i, groupEval S a group i.expr)) =
      groupOf S env.graph (namesOf F) (keys ++ aggregates) :=
    funext (items_groupEval_eq hw hF hitems)
  have hdistinct : s.clauses.distinct = false := (hplain source).distinct
  simp only [hkeys, hshown] at hrows
  rw [levelOf, ← hdistinct]
  refine Eq.trans hrows ?_
  cases hcondition with
  | none => rfl
  | some he => simp only [he.groupEval_eq hw hF, apply]

end Operators

end Level

end PlanSql.Rows

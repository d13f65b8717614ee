import PlanSql.Proofs.Copies.Actions

/-!
# Compilations side by side

The steps of a compilation on nodes and those of another one on their copies keep matching states.
Each operator is written in terms of steps into its operands, so there is one lemma for each
operator and one for the steps of every depth. Operands stand before their operators, so a step may
always go as deep as its operands need, or both compilations stop at the same depth.
-/

namespace PlanSql.Compile

open PlanSql.Sql PlanSql.Reading

namespace Copy

variable {env env' : Env} {c : Copy env env'} {F : FunctionNames} {x : NodeId}

/-! ## Scopes -/

theorem resolve_goes (hx : c.has x) (field : String) :
    c.Goes F (resolve env x field) (resolve env' (c.map x) field) Equal :=
  .get fun _ _ hs _ => .checked hs (hs.parts.column hx field) fun _ _ _ h => h.symm

theorem promote_goes (hx : c.has x) :
    c.Goes F (promote env x) (promote env' (c.map x)) Whatever := by
  refine finishLevel_goes.equal fun F₁ level _ => (derivedAlias_goes hx).equal fun F₂ label _ => ?_
  refine .check (lift_agree hx (reaches_depth hx)) fun y y' _ hy => ?_
  obtain ⟨hhas, rfl⟩ := hy
  refine Goes.next ?_ fun F₃ _ _ _ => fill_goes (adds_setSource _) (by simp [conditions])
  refine .modifyGet (fun s s' hs _ => ⟨{ hs with
    fragments := fun _ => rfl
    visited := fun {z} hz => ?_
    visible := fun {z} hz => lookup_cons_eq hhas hz rfl
    informed := { hs.informed with fragments := by simp } }, trivial⟩) fun _ => rfl
  show c.map z ∈ s'.visited.filter env'.graph.isCollection ↔
    z ∈ s.visited.filter env.graph.isCollection
  rw [List.mem_filter, List.mem_filter, hs.visited hz, isCollection_eq hz]

theorem prepare_goes (hx : c.has x) (clause : Clause) (reads : Bool) :
    c.Goes F (prepare env x clause reads) (prepare env' (c.map x) clause reads) Whatever := by
  refine .get fun s s' hs hgrows => ?_
  rw [hs.clauses]
  split
  · exact promote_goes hx s s' hs hgrows
  · split
    · refine .check hs (addressable_agree (fun _ => hs.visible) hx (reaches_depth hx))
        fun b b' _ hb => ?_
      subst hb
      split
      · exact promote_goes hx s s' hs hgrows
      · exact ⟨hs, .refl, trivial⟩
    · exact ⟨hs, .refl, trivial⟩

/-! ## Steps into operands -/

def Visits (c : Copy env env') (steps steps' : Steps) (x : NodeId) : Prop :=
  c.has x ∧ ∀ F, c.Goes F (steps.visit x) (steps'.visit (c.map x)) Whatever

def JoinsAlike (c : Copy env env') (F : FunctionNames) (a a' : JoinAhead) : Prop :=
  c.SameJoin a a' ∧ ∀ e ∈ conditions a.source ++ a.on.toList, Known F e

/-- A join and its copy are compiled ahead side by side. -/
def Joins (c : Copy env env') (steps steps' : Steps) (x : NodeId) : Prop :=
  ∀ F left right predicate how fields shape,
    env.graph.node? x = some ⟨.join left right predicate how fields, shape⟩ →
    c.Goes F (steps.join x left right predicate how)
      (steps'.join (c.map x) (c.map left) (c.map right) (predicate.map c.map) how) c.JoinsAlike

/-- All steps into a node and into its copy go side by side. -/
structure Serves (c : Copy env env') (steps steps' : Steps) (x : NodeId) : Prop where
  visits : c.Visits steps steps' x
  level : ∀ F, c.Goes F (steps.level x) (steps'.level (c.map x)) Equal
  joins : c.Joins steps steps' x

/-- The results are the same expressions, and they call known functions only. -/
def SameExprs (F : FunctionNames) (es es' : List Expr) : Prop := es' = es ∧ ∀ e ∈ es, Known F e

section Steps

variable {steps steps' : Steps}
variable {n : Node} {left right input : NodeId} {functions : FunctionId → FunctionId}
variable {l : List NodeId} {distinct : Bool} {predicate : Option NodeId} {how : JoinKind}
  {root : NodeId} {w w' : Walk}

theorem values_goes (hl : ∀ y ∈ l, c.Visits steps steps' y) :
    c.Goes F (steps.values l) (steps'.values (l.map c.map)) SameExprs := by
  induction l generalizing F with
  | nil => exact .pure fun _ _ => ⟨rfl, by simp⟩
  | cons y rest ih =>
    obtain ⟨hy, hvisit⟩ := hl y (.head _)
    refine (hvisit F).next fun F₁ _ _ _ => (fragment_goes hy).bind fun F₂ e e' _ he => ?_
    refine (ih fun z hz => hl z (.tail _ hz)).bind fun F₃ es es' hgrows hes => ?_
    obtain ⟨rfl, he⟩ := he
    obtain ⟨rfl, hes⟩ := hes
    exact .pure fun F₄ hgrows' => ⟨rfl, List.forall_mem_cons.2
      ⟨he.mono (hgrows.trans hgrows'), fun e he => (hes e he).mono hgrows'⟩⟩

theorem sortKeysSteps_goes {l : List SortKey} (hl : ∀ key ∈ l, c.Visits steps steps' key.expr) :
    c.Goes F (steps.sortKeys l) (steps'.sortKeys (l.map (SortKey.rename c.map))) SameExprs := by
  induction l generalizing F with
  | nil => exact .pure fun _ _ => ⟨rfl, by simp⟩
  | cons key rest ih =>
    obtain ⟨hkey, hvisit⟩ := hl key (.head _)
    refine (hvisit F).next fun F₁ _ _ _ => (fragment_goes hkey).bind fun F₂ e e' _ he => ?_
    refine (ih fun z hz => hl z (.tail _ hz)).bind fun F₃ es es' hgrows hes => ?_
    obtain ⟨rfl, he⟩ := he
    obtain ⟨rfl, hes⟩ := hes
    refine .pure fun F₄ hgrows' => ⟨rfl, List.forall_mem_cons.2
      ⟨?_, fun e he => (hes e he).mono hgrows'⟩⟩
    split
    · exact he.mono (hgrows.trans hgrows')
    · exact he.mono (hgrows.trans hgrows')

theorem operands_goes {l : List Operand} (hl : ∀ o ∈ l, c.Visits steps steps' o.2) :
    c.Goes F (steps.operands env l) (steps'.operands env' (l.map (Prod.map id c.map)))
      Whatever := by
  induction l generalizing F with
  | nil => exact .pure fun _ _ => trivial
  | cons o rest ih =>
    obtain ⟨slot, y⟩ := o
    obtain ⟨hy, hvisit⟩ := hl (slot, y) (.head _)
    have hrest : ∀ F, c.Goes F (steps.operands env rest)
        (steps'.operands env' (rest.map (Prod.map id c.map))) Whatever := fun F =>
      ih fun z hz => hl z (.tail _ hz)
    rw [List.map_cons, Steps.operands]
    show c.Goes F _ (Steps.operands steps' env' ((slot, c.map y) :: _)) Whatever
    rw [Steps.operands, isCollection_eq hy]
    split
    · exact (hvisit F).next fun F₁ _ _ _ => hrest F₁
    · exact hrest F

theorem itemName_goes (hx : c.has x) (hn : env.graph.node? x = some n)
    (functions : FunctionId → FunctionId) (typed : Typed) :
    c.Goes F (Steps.itemName env n typed) (Steps.itemName env' (n.rename c.map functions) typed)
      Equal := by
  obtain ⟨kind, shape⟩ := n
  cases kind with
  | column collection =>
    have hcoll : c.has collection := operand hx hn (o := (.collection, collection)) (.head _)
    unfold Steps.itemName
    dsimp only [Node.rename, Kind.rename]
    cases typed.sourceName with
    | none => exact .pure fun _ _ => rfl
    | some source =>
      refine .ite (fun _ => ?_) fun _ => .pure fun _ _ => rfl
      exact (resolve_goes hcoll source).equal fun F₁ r _ => .pure fun _ _ => rfl
  | _ => exact .pure fun _ _ => rfl

theorem selectItem_goes (hx : c.Visits steps steps' x) :
    c.Goes F (steps.selectItem env x) (steps'.selectItem env' (c.map x)) fun F' i i' =>
      i' = i ∧ Known F' i.expr := by
  obtain ⟨hhas, hvisit⟩ := hx
  refine (hvisit F).next fun F₁ _ _ _ => .node hhas fun n functions hn _ => ?_
  have htyped : (n.rename c.map functions).typed? = n.typed? := rfl
  rw [htyped]
  cases n.typed? with
  | none => exact .throw (c.faulty rfl)
  | some typed =>
    refine (itemName_goes hhas hn functions typed).equal fun F₂ name _ => ?_
    refine (fragment_goes hhas).bind fun F₃ e e' _ he => .pure fun F₄ hgrows => ?_
    obtain ⟨rfl, he⟩ := he
    exact ⟨rfl, he.mono hgrows⟩

theorem selectItems_goes (hl : ∀ y ∈ l, c.Visits steps steps' y) :
    c.Goes F (steps.selectItems env l) (steps'.selectItems env' (l.map c.map))
      fun F' items items' => items' = items ∧ ∀ e ∈ items.map Item.expr, Known F' e := by
  induction l generalizing F with
  | nil => exact .pure fun _ _ => ⟨rfl, by simp⟩
  | cons y rest ih =>
    refine (selectItem_goes (hl y (.head _))).bind fun F₁ i i' _ hi => ?_
    refine (ih fun z hz => hl z (.tail _ hz)).bind
      fun F₂ items items' hgrows hitems => ?_
    obtain ⟨rfl, hi⟩ := hi
    obtain ⟨rfl, hitems⟩ := hitems
    exact .pure fun F₃ hgrows' => ⟨rfl, List.forall_mem_cons.2
      ⟨hi.mono (hgrows.trans hgrows'), fun e he => (hitems e he).mono hgrows'⟩⟩

/-! ## Ahead of a level -/

theorem tableSource_goes (hx : c.has x) (table : Table) :
    c.Goes F (tableSource x table) (tableSource (c.map x) table) fun _ r r' =>
      r' = r ∧ conditions r.1 = [] := by
  refine (aliasOf_goes hx).equal fun F₁ label _ => ?_
  refine Goes.next (reveal_goes rfl (by simpa using hx)) fun F₂ _ _ _ => ?_
  exact .pure fun _ _ => ⟨rfl, rfl⟩

/-- A union and its copy are the same table expression. -/
theorem unionAhead_goes (hx : c.has x) (hl : c.Serves steps steps' left)
    (hr : c.Serves steps steps' right) :
    c.Goes F (unionAhead steps x left right distinct)
      (unionAhead steps' (c.map x) (c.map left) (c.map right) distinct) fun F' r r' =>
        r' = r ∧ ∀ e ∈ conditions r.1, Known F' e := by
  refine .get fun s s' hs hgrows => ?_
  rw [hs.unions hx]
  cases hlookup : s.unions.lookup x with
  | some ahead => exact ⟨hs, .refl, rfl, hs.informed.unions _ (mem_of_lookup hlookup)⟩
  | none =>
    have hrest : c.Goes s.context.functions
        (do
          let leftLevel ← steps.level left
          let rightLevel ← steps.level right
          let label ← derivedAlias x
          let ahead := (Source.union leftLevel rightLevel label, label)
          modify fun s => { s with unions := (x, ahead) :: s.unions }
          pure ahead)
        (do
          let leftLevel ← steps'.level (c.map left)
          let rightLevel ← steps'.level (c.map right)
          let label ← derivedAlias (c.map x)
          let ahead := (Source.union leftLevel rightLevel label, label)
          modify fun s => { s with unions := (c.map x, ahead) :: s.unions }
          pure ahead) fun F' r r' => r' = r ∧ ∀ e ∈ conditions r.1, Known F' e := by
      refine (hl.level _).equal fun F₁ l _ => (hr.level _).equal fun F₂ r _ => ?_
      refine (derivedAlias_goes hx).equal fun F₃ label _ => Goes.next ?_ fun F₄ _ _ _ => ?_
      · refine .modifyGet (fun s s' hs _ => ⟨{ hs with
          unions := fun {z} hz => lookup_cons_eq hx hz (hs.unions hz)
          informed := { hs.informed with
            unions := List.forall_mem_cons.2 ⟨?_, hs.informed.unions⟩ } }, trivial⟩) fun _ => rfl
        simp [conditions]
      · exact .pure fun _ _ => ⟨rfl, by simp [conditions]⟩
    dsimp only
    split
    · exact ⟨c.faulty rfl, .refl, hs.names⟩
    · exact hrest s s' hs .refl

theorem subqueryAhead_goes {sequence : NodeId} (hx : c.has x)
    (hq : c.Serves steps steps' sequence) :
    c.Goes F (subqueryAhead steps x sequence)
      (subqueryAhead steps' (c.map x) (c.map sequence)) Whatever := by
  refine .get fun s s' hs hgrows => ?_
  rw [hs.subqueries hx]
  cases s.subqueries.lookup x with
  | some level => exact ⟨hs, .refl, trivial⟩
  | none =>
    refine ((hq.level F).equal fun F₁ level _ => Goes.next ?_ fun F₂ _ _ _ =>
      .pure fun _ _ => trivial) s s' hs hgrows
    exact .modifyGet (fun s s' hs _ => ⟨{ hs with
      subqueries := fun {z} hz => lookup_cons_eq hx hz (hs.subqueries hz)
      informed := { hs.informed with } }, trivial⟩) fun _ => rfl

def SameSide (c : Copy env env') (F : FunctionNames) (r r' : Source × Visible) : Prop :=
  r'.1 = r.1 ∧ (r'.2 = r.2.map (Prod.map c.map id) ∧ ∀ v ∈ r.2, c.has v.1) ∧
    ∀ e ∈ conditions r.1, Known F e

theorem joinSide_goes (hx : c.Serves steps steps' x)
    (hops : ∀ y ∈ env.graph.children x, c.Serves steps steps' y) :
    c.Goes F (joinSide env steps x) (joinSide env' steps' (c.map x)) c.SameSide := by
  have hhas := hx.visits.1
  refine .node hhas fun n functions hn _ => ?_
  obtain ⟨kind, shape⟩ := n
  have hderived : c.Goes F
      (do
        let level ← steps.level x
        let label ← derivedAlias x
        pure (Source.derived level label, [(x, label)]))
      (do
        let level ← steps'.level (c.map x)
        let label ← derivedAlias (c.map x)
        pure (Source.derived level label, [(c.map x, label)])) c.SameSide := by
    refine (hx.level F).equal fun F₁ level _ => (derivedAlias_goes hhas).equal fun F₂ label _ => ?_
    exact .pure fun _ _ => ⟨rfl, ⟨rfl, by simpa using hhas⟩, by simp [conditions]⟩
  cases kind with
  | source table =>
    refine (tableSource_goes hhas table).bind fun F₁ r r' _ hr => ?_
    obtain ⟨rfl, hnone⟩ := hr
    exact .pure fun _ _ => ⟨rfl, ⟨rfl, by simpa using hhas⟩, by simp [hnone]⟩
  | join left right predicate how fields =>
    refine (hx.joins F left right predicate how fields shape hn).bind fun F₁ a a' _ ha => ?_
    refine .pure fun F₂ hgrows => ⟨?_, ha.1.visible, fun e he => (ha.2 e ?_).mono hgrows⟩
    · dsimp only
      rw [ha.1.source, ha.1.on]
    · dsimp only at he
      split at he
      · next l how' r on hsource =>
        simp only [hsource, conditions, List.mem_append] at he ⊢
        grind
      · exact List.mem_append_left _ he
  | union left right distinct =>
    have hl := hops left (mem_children hn (o := (.left, left)) (.head _))
    have hr := hops right (mem_children hn (o := (.right, right)) (by simp [Kind.operands]))
    refine (unionAhead_goes hhas hl hr).bind fun F₁ r r' _ hr => ?_
    obtain ⟨rfl, hknown⟩ := hr
    exact .pure fun F₂ hgrows => ⟨rfl, ⟨rfl, by simpa using hhas⟩,
      fun e he => (hknown e he).mono hgrows⟩
  | _ => exact hderived

/-- A join whose sides and condition are compiled side by side is compiled ahead side by side. -/
theorem joinAhead_goes (hx : c.has x) (hl : c.Serves steps steps' left)
    (hr : c.Serves steps steps' right)
    (hlops : ∀ y ∈ env.graph.children left, c.Serves steps steps' y)
    (hrops : ∀ y ∈ env.graph.children right, c.Serves steps steps' y)
    (hp : ∀ p ∈ predicate, c.Serves steps steps' p) :
    c.Goes F (joinAhead env steps x left right predicate how)
      (joinAhead env' steps' (c.map x) (c.map left) (c.map right) (predicate.map c.map) how)
      c.JoinsAlike := by
  refine .get fun s s' hs hgrows => ?_
  have hjoins := hs.joins hx
  cases hlookup : s.joins.lookup x with
  | some ahead =>
    rw [hlookup] at hjoins
    cases hlookup' : s'.joins.lookup (c.map x) with
    | none =>
      rw [hlookup'] at hjoins
      cases hjoins
    | some ahead' =>
      rw [hlookup'] at hjoins
      cases hjoins with
      | some hsame => exact ⟨hs, .refl, hsame, hs.informed.joins _ (mem_of_lookup hlookup)⟩
  | none =>
    rw [hlookup] at hjoins
    cases hlookup' : s'.joins.lookup (c.map x) with
    | some ahead' =>
      rw [hlookup'] at hjoins
      cases hjoins
    | none =>
      refine Goes.bind (F := s.context.functions) (joinSide_goes hl hlops)
        (fun F₁ l l' _ hleft => ?_) s s' hs .refl
      refine (joinSide_goes hr hrops).bind fun F₂ r r' hF₂ hright => ?_
      obtain ⟨hls, ⟨hlv, hlhas⟩, hlknown⟩ := hleft
      obtain ⟨hrs, ⟨hrv, hrhas⟩, hrknown⟩ := hright
      have hvisible : l'.2 ++ r'.2 = (l.2 ++ r.2).map (Prod.map c.map id) := by
        rw [hlv, hrv, List.map_append]
      have hhas : ∀ v ∈ l.2 ++ r.2, c.has v.1 := List.forall_mem_append.2 ⟨hlhas, hrhas⟩
      refine Goes.next (reveal_goes hvisible hhas) fun F₃ _ _ hF₃ => ?_
      -- whatever the condition is, the join is noted with it
      have hdone : ∀ F₄ (on : Option Expr), F₃.Grows env.functionStem F₄ →
          (∀ e ∈ on.toList, Known F₄ e) → c.Goes F₄
            (do
              modify fun s => { s with
                joins := (x, ⟨.join l.1 how r.1 none, on, l.2 ++ r.2⟩) :: s.joins }
              pure (⟨.join l.1 how r.1 none, on, l.2 ++ r.2⟩ : JoinAhead))
            (do
              modify fun s => { s with
                joins := (c.map x, ⟨.join l'.1 how r'.1 none, on, l'.2 ++ r'.2⟩) :: s.joins }
              pure (⟨.join l'.1 how r'.1 none, on, l'.2 ++ r'.2⟩ : JoinAhead)) c.JoinsAlike := by
        intro F₄ on hF₄ hon
        have hsame : c.SameJoin ⟨.join l.1 how r.1 none, on, l.2 ++ r.2⟩
            ⟨.join l'.1 how r'.1 none, on, l'.2 ++ r'.2⟩ :=
          ⟨by rw [hls, hrs], rfl, hvisible, hhas⟩
        have hall : ∀ F₅, F₄.Grows env.functionStem F₅ →
            ∀ e ∈ conditions (.join l.1 how r.1 none) ++ on.toList, Known F₅ e := by
          intro F₅ hF₅
          simp only [conditions, List.forall_mem_append]
          refine ⟨⟨⟨fun e he => ?_, fun e he => ?_⟩, by simp⟩, fun e he => (hon e he).mono hF₅⟩
          · exact (hlknown e he).mono (hF₂.trans (hF₃.trans (hF₄.trans hF₅)))
          · exact (hrknown e he).mono (hF₃.trans (hF₄.trans hF₅))
        refine Goes.next ?_ fun F₅ _ _ hF₅ => .pure fun F₆ hF₆ => ⟨hsame, hall F₆ (hF₅.trans hF₆)⟩
        refine .modifyGet (fun s s' hs hgrows => ⟨{ hs with
          joins := fun {z} hz => ?_
          informed := { hs.informed with
            joins := List.forall_mem_cons.2 ⟨hall _ hgrows, hs.informed.joins⟩ } }, trivial⟩)
          fun _ => rfl
        by_cases hzx : z = x
        · subst hzx
          simpa using Option.Rel.some hsame
        · have hne : (z == x) = false := beq_false_of_ne hzx
          have hne' : (c.map z == c.map x) = false :=
            beq_false_of_ne fun h => hzx (c.inj hz hx h)
          simp only [List.lookup_cons, hne, hne']
          exact hs.joins hz
      cases predicate with
      | none => exact hdone F₃ none .refl (by simp)
      | some p =>
        have hvisits := (hp p rfl).visits
        refine (hvisits.2 F₃).next fun F₄ _ _ hF₄ => (fragment_goes hvisits.1).bind
          fun F₅ e e' hF₅ he => ?_
        obtain ⟨rfl, he⟩ := he
        exact hdone F₅ (some e') (hF₄.trans hF₅) (by simpa using he)

theorem isAhead_eq {s s' : State} (hs : c.Matched s s') (hx : c.has x) :
    isAhead s' (c.map x) = isAhead s x := by
  have hjoins : (s'.joins.lookup (c.map x)).isSome = (s.joins.lookup x).isSome := by
    have hrel := hs.joins hx
    generalize s.joins.lookup x = a at hrel ⊢
    generalize s'.joins.lookup (c.map x) = a' at hrel ⊢
    cases hrel <;> rfl
  rw [isAhead, isAhead, hjoins, hs.unions hx, hs.subqueries hx]

def hideAhead (steps : Steps) (x : NodeId) (w : Walk) (sequence? : Option NodeId) : Compile Walk :=
  match sequence? with
  | some sequence => do
    let _ ← subqueryAhead steps x sequence
    pure (w.hide x sequence)
  | none => pure w

theorem discoverNode_goes (hx : c.has x) (hjoin : c.Joins steps steps' x)
    (hops : ∀ y ∈ env.graph.children x, c.Serves steps steps' y) (hw : c.Walks w w')
    (hbelow : Walk.Below env.graph root w) :
    c.Goes F (discoverNode env steps x w) (discoverNode env' steps' (c.map x) w') fun _ v v' =>
      c.Walks v v' ∧ Walk.Below env.graph root v ∧ v.seen = w.seen := by
  have hprune : c.Walks (w.prune x) (w'.prune (c.map x)) ∧
      Walk.Below env.graph root (w.prune x) ∧ (w.prune x).seen = w.seen :=
    ⟨hw.prune hx, ⟨hbelow.1, hbelow.2, hbelow.3, hbelow.4⟩, rfl⟩
  refine .get fun s s' hs hgrows => ?_
  rw [isAhead_eq hs hx]
  split
  · exact ⟨hs, .refl, hprune⟩
  · refine Goes.node (F := F) hx (fun n functions hn _ => ?_) s s' hs hgrows
    obtain ⟨kind, shape⟩ := n
    have hrest : c.Goes F (hideAhead steps x w kind.subquery?)
        (hideAhead steps' (c.map x) w' (kind.rename c.map functions).subquery?) fun _ v v' =>
          c.Walks v v' ∧ Walk.Below env.graph root v ∧ v.seen = w.seen := by
      rw [Kind.subquery?_rename]
      cases hq : kind.subquery? with
      | none => exact .pure fun _ _ => ⟨hw, hbelow, rfl⟩
      | some sequence =>
        have hserve := hops sequence (mem_children hn (mem_operands_of_subquery? hq))
        refine (subqueryAhead_goes hx hserve).next fun F₁ _ _ _ => .pure fun _ _ => ?_
        exact ⟨hw.hide hx hserve.visits.1, ⟨hbelow.1, hbelow.2, hbelow.3, hbelow.4⟩, rfl⟩
    unfold hideAhead at hrest
    cases kind with
    | join left right predicate how fields =>
      refine (hjoin F left right predicate how fields shape hn).bind fun F₁ _ _ _ _ => ?_
      exact .pure fun _ _ => hprune
    | union left right distinct =>
      have hl := hops left (mem_children hn (o := (.left, left)) (.head _))
      have hr := hops right (mem_children hn (o := (.right, right)) (by simp [Kind.operands]))
      exact (unionAhead_goes hx hl hr).bind fun F₁ _ _ _ _ => .pure fun _ _ => hprune
    | _ => exact hrest

/-- The walks may go on for the same number of nodes, or for as many as there are. -/
def Lasts (c : Copy env env') (count count' : Nat) (w : Walk) : Prop :=
  c.even ∧ count = count' ∨
    ¬ c.even ∧ env.graph.size + 1 ≤ count + w.seen.length ∧
      env'.graph.size + 1 ≤ count' + w.seen.length

theorem discoverFrom_goes (hserve : ∀ y, env.graph.Reach root y →
      c.Joins steps steps' y ∧ ∀ z ∈ env.graph.children y, c.Serves steps steps' z)
    {count count' : Nat} (hw : c.Walks w w') (hbelow : Walk.Below env.graph root w)
    (hlasts : c.Lasts count count' w) :
    c.Goes F (discoverFrom env steps count w) (discoverFrom env' steps' count' w') Whatever := by
  induction count generalizing count' w w' F with
  | zero =>
    rcases hlasts with ⟨-, rfl⟩ | ⟨heven, hcount, -⟩
    · exact .pure fun _ _ => trivial
    · have := (hw.length_seen_le heven).1
      lia
  | succ count ih =>
    cases count' with
    | zero =>
      rcases hlasts with ⟨-, hcount⟩ | ⟨heven, -, hcount⟩
      · lia
      · have := (hw.length_seen_le heven).2
        lia
    | succ count' =>
      rw [discoverFrom, discoverFrom]
      rcases hw.next with ⟨hnone, hnone'⟩ | ⟨x, v, v', hsome, hsome', hx, hv, hlength⟩
      · rw [hnone, hnone']
        exact .pure fun _ _ => trivial
      · rw [hsome, hsome']
        obtain ⟨hreach, hbelow'⟩ := hbelow.next hsome
        obtain ⟨hjoin, hops⟩ := hserve x hreach
        refine (discoverNode_goes hx hjoin hops hv hbelow').bind fun F₁ u u' _ hu => ?_
        obtain ⟨hu, hbelow'', hseen⟩ := hu
        refine ih hu hbelow'' ?_
        rcases hlasts with ⟨heven, hcount⟩ | ⟨heven, hcount, hcount'⟩
        · exact .inl ⟨heven, by lia⟩
        · exact .inr ⟨heven, by rw [hseen, hlength]; lia, by rw [hseen, hlength]; lia⟩

theorem discover_goes (hx : c.has x)
    (hserve : ∀ y, env.graph.Reach x y →
      c.Joins steps steps' y ∧ ∀ z ∈ env.graph.children y, c.Serves steps steps' z) :
    c.Goes F (discover env steps x) (discover env' steps' (c.map x)) Whatever := by
  refine discoverFrom_goes hserve (.start hx) ⟨rfl, rfl, ?_, by simp [Walk.start]⟩ ?_
  · simp only [Walk.start, List.mem_singleton, forall_eq]
    exact .refl
  · by_cases heven : c.even
    · exact .inl ⟨heven, by rw [c.size heven]⟩
    · exact .inr ⟨heven, Nat.le_add_right _ _, Nat.le_add_right _ _⟩

/-! ## Operators -/

theorem compileSelect_goes {fields : List NodeId} (clause : Clause) (distinct : Bool)
    (hi : c.Visits steps steps' input) (hfields : ∀ y ∈ fields, c.Visits steps steps' y) :
    c.Goes F (compileSelect env steps input clause fields distinct)
      (compileSelect env' steps' (c.map input) clause (fields.map c.map) distinct) Whatever := by
  refine (hi.2 F).next fun F₁ _ _ _ => (prepare_goes hi.1 clause true).next fun F₂ _ _ _ => ?_
  refine (selectItems_goes hfields).bind fun F₃ items items' _ h => ?_
  obtain ⟨rfl, hknown⟩ := h
  exact fill_goes (adds_setSelect _ distinct) hknown

theorem compileFilter_goes {predicate : NodeId} (hi : c.Visits steps steps' input)
    (hp : c.Visits steps steps' predicate) :
    c.Goes F (compileFilter env steps input predicate)
      (compileFilter env' steps' (c.map input) (c.map predicate)) Whatever := by
  refine (hi.2 F).next fun F₁ _ _ _ => (prepare_goes hi.1 .filter true).next fun F₂ _ _ _ => ?_
  refine (hp.2 F₂).next fun F₃ _ _ _ => (fragment_goes hp.1).bind fun F₄ e e' _ h => ?_
  obtain ⟨rfl, he⟩ := h
  exact fill_goes (adds_setFilter _) (by simpa using he)

theorem compileGroupBy_goes {keys aggregates : List NodeId} {having : Option NodeId}
    (hi : c.Visits steps steps' input) (hkeys : ∀ y ∈ keys, c.Visits steps steps' y)
    (haggs : ∀ y ∈ aggregates, c.Visits steps steps' y)
    (hhaving : ∀ y ∈ having, c.Visits steps steps' y) :
    c.Goes F (compileGroupBy env steps input keys aggregates having)
      (compileGroupBy env' steps' (c.map input) (keys.map c.map) (aggregates.map c.map)
        (having.map c.map)) Whatever := by
  refine (hi.2 F).next fun F₁ _ _ _ => (prepare_goes hi.1 .groupBy true).next fun F₂ _ _ _ => ?_
  refine (values_goes hkeys).bind fun F₃ es es' _ hes => ?_
  obtain ⟨rfl, hes⟩ := hes
  rw [← List.map_append]
  refine (selectItems_goes (List.forall_mem_append.2 ⟨hkeys, haggs⟩)).bind
    fun F₄ items items' hF₄ hitems => ?_
  obtain ⟨rfl, hitems⟩ := hitems
  refine (fill_goes (adds_setSelect _ false) hitems).next fun F₅ _ _ hF₅ => ?_
  refine (fill_goes (adds_setGroupBy _) fun e he => (hes e he).mono (hF₄.trans hF₅)).next
    fun F₆ _ _ _ => ?_
  cases having with
  | none => exact .pure fun _ _ => trivial
  | some p =>
    have hp := hhaving p rfl
    refine (hp.2 F₆).next fun F₇ _ _ _ => (fragment_goes hp.1).bind fun F₈ e e' _ h => ?_
    obtain ⟨rfl, he⟩ := h
    exact fill_goes (adds_setHaving canonicalText _) (by simpa using he)

theorem compileSort_goes {keys : List SortKey} (hi : c.Visits steps steps' input)
    (hkeys : ∀ key ∈ keys, c.Visits steps steps' key.expr) :
    c.Goes F (compileSort env steps input keys)
      (compileSort env' steps' (c.map input) (keys.map (SortKey.rename c.map))) Whatever := by
  refine (hi.2 F).next fun F₁ _ _ _ => (prepare_goes hi.1 .orderBy true).next fun F₂ _ _ _ => ?_
  refine (sortKeysSteps_goes hkeys).bind fun F₃ es es' _ hes => ?_
  obtain ⟨rfl, hes⟩ := hes
  exact fill_goes (adds_setOrderBy _) hes

theorem compileSlice_goes (start stop step : Option Int64) (hi : c.Visits steps steps' input) :
    c.Goes F (compileSlice env steps input start stop step)
      (compileSlice env' steps' (c.map input) start stop step) Whatever := by
  have hlimit : c.Agree Eq (sliceLimit start stop step) (sliceLimit start stop step) := by
    refine .ite (fun _ => c.faulty rfl) fun _ => .ite
      (fun _ => c.faulty rfl) fun _ => ?_
    cases stop with
    | none => exact c.faulty rfl
    | some n => exact .ite (fun _ => .pure rfl) fun _ => c.faulty rfl
  refine .check hlimit fun n n' _ hn => (hi.2 F).next fun F₁ _ _ _ => ?_
  subst hn
  exact (prepare_goes hi.1 .limit false).next fun F₂ _ _ _ => fill_goes (adds_setLimit n) (by simp)

theorem compileJoin_goes {fields : List JoinField} {shape : Shape}
    (hjoin : c.Joins steps steps' x)
    (hn : env.graph.node? x = some ⟨.join left right predicate how fields, shape⟩) :
    c.Goes F (compileJoin steps x left right predicate how)
      (compileJoin steps' (c.map x) (c.map left) (c.map right) (predicate.map c.map) how)
      Whatever := by
  refine (hjoin F left right predicate how fields shape hn).bind fun F₁ a a' _ ha => ?_
  obtain ⟨hsame, hknown⟩ := ha
  obtain ⟨hsource, hon⟩ := List.forall_mem_append.1 hknown
  refine (reveal_goes hsame.visible.1 hsame.visible.2).next fun F₂ _ _ hF₂ => ?_
  rw [hsame.source, hsame.on]
  refine (fill_goes (adds_setSource _) fun e he => (hsource e he).mono hF₂).next fun F₃ _ _ hF₃ =>
    ?_
  cases ha : a.on with
  | none => exact .pure fun _ _ => trivial
  | some e =>
    have he := hon e (by simp [ha])
    exact fill_goes (adds_setOn e) (by simpa using he.mono (hF₂.trans hF₃))

theorem compileUnion_goes (hx : c.has x) (hl : c.Serves steps steps' left)
    (hr : c.Serves steps steps' right) :
    c.Goes F (compileUnion steps x left right distinct)
      (compileUnion steps' (c.map x) (c.map left) (c.map right) distinct) Whatever := by
  refine (unionAhead_goes hx hl hr).bind fun F₁ r r' _ hr => ?_
  obtain ⟨rfl, hknown⟩ := hr
  refine (reveal_goes rfl (by simpa using hx)).next fun F₂ _ _ hF₂ => ?_
  exact fill_goes (adds_setSource _) fun e he => (hknown e he).mono hF₂

section Kinds

variable (hx : c.has x) (hn : env.graph.node? x = some n)
  (hfun : ∀ input function, n.kind = .userMap input function →
    env'.graph.function (functions function) = env.graph.function function)
  (hops : ∀ o ∈ n.kind.operands, c.Serves steps steps' o.2)

include hx hn hfun hops

theorem provide_goes :
    c.Goes F (provide env steps x n.kind)
      (provide env' steps' (c.map x) (n.kind.rename c.map functions)) fun F' _ _ =>
        ∀ input function f, n.kind = .userMap input function →
          env.graph.function function = .ok f → (F'.find? f.name).isSome := by
  obtain ⟨kind, shape⟩ := n
  dsimp only at hfun hops ⊢
  have hrest : (∀ input function, kind ≠ .userMap input function) → c.Goes F
      (kind.subquery?.elim (pure ()) fun sequence => do
        let _ ← subqueryAhead steps x sequence)
      ((kind.rename c.map functions).subquery?.elim (pure ()) fun sequence => do
        let _ ← subqueryAhead steps' (c.map x) sequence) fun F' _ _ =>
          ∀ input function f, kind = .userMap input function →
            env.graph.function function = .ok f → (F'.find? f.name).isSome := by
    intro hkind
    rw [Kind.subquery?_rename]
    cases hq : kind.subquery? with
    | none => exact .pure fun _ _ input function _ hk => absurd hk (hkind input function)
    | some sequence =>
      have hserve := hops _ (mem_operands_of_subquery? hq)
      refine (subqueryAhead_goes hx hserve).next fun F₁ _ _ _ => ?_
      exact .pure fun _ _ input function _ hk => absurd hk (hkind input function)
  cases kind with
  | userMap input function =>
    have hsame := hfun input function rfl
    show c.Goes F
      (do
        let f ← check (env.graph.function function)
        let _ ← functionName env f.name)
      (do
        let f ← check (env'.graph.function (functions function))
        let _ ← functionName env' f.name) _
    refine .check (function_related (w := c.comparison) hsame) fun f f' hf hff => ?_
    subst hff
    refine (functionName_goes hx hn hf).bind fun F₁ a b _ hab => .pure fun F₂ hF₂ => ?_
    intro input' function' f' hk hf'
    cases hk
    obtain rfl : f = f' := Except.ok.inj (hf.symm.trans hf')
    rw [hF₂.keeps _ _ hab.2]
    rfl
  | window op =>
    have hhas : ∀ o ∈ op.operands, c.has o.2 := fun o ho => (hops o ho).visits.1
    have hspec : (op.rename c.map).spec = op.spec.rename c.map := by cases op <;> rfl
    have horder : ∀ key ∈ op.spec.orderBy, c.Visits steps steps' key.expr := fun key hkey =>
      (hops _ (WindowOp.mem_operands_of_orderBy hkey)).visits
    show c.Goes F (MonadState.get >>= _) (MonadState.get >>= _) _
    refine .get fun s s' hs hgrows => ?_
    refine .check hs (windowFunc_related (w := c.comparison) eq_congruence (fun _ _ => trivial)
      (fun _ _ => trivial) fun o ho => hs.parts.given (hhas o ho)) fun _ _ _ _ => ?_
    rw [hspec]
    refine .check hs (Parts.fragments_related (w := c.comparison) fun y hy =>
      hs.parts.given (hhas _ (op.mem_operands_of_partitionBy hy))) fun _ _ _ _ => ?_
    refine Goes.bind (F := F) (sortKeysSteps_goes horder) (fun F₁ _ _ _ _ => ?_) s s' hs hgrows
    exact .pure fun _ _ _ _ _ hk => by cases hk
  | _ =>
    rw [provide_of_ne (by simp) (by simp),
      provide_of_ne (by simp [Kind.rename]) (by simp [Kind.rename])]
    exact hrest (by simp)

/-- A value and its copy are given the same expression. -/
theorem compileExpr_goes :
    c.Goes F (compileExpr env steps x n.kind)
      (compileExpr env' steps' (c.map x) (n.kind.rename c.map functions)) Whatever := by
  have hvalue : ∀ F, c.Goes F
      (do
        provide env steps x n.kind
        let p := (← get).parts env
        emit x (← check (valueExpr env.graph p x n.kind)))
      (do
        provide env' steps' (c.map x) (n.kind.rename c.map functions)
        let p := (← get).parts env'
        emit (c.map x) (← check (valueExpr env'.graph p (c.map x) (n.kind.rename c.map functions))))
      Whatever := by
    intro F
    refine (provide_goes hx hn hfun hops).bind fun F₁ _ _ _ hnamed => .get fun s s' hs hgrows => ?_
    refine .check hs (valueExpr_agree hs.parts hx hn fun input function hk =>
      ⟨hfun input function hk, fun f hf => ?_⟩) fun e e' he hee => ?_
    · show (s'.context.functions.find? f.name).getD "" = (s.context.functions.find? f.name).getD ""
      rw [c.find hs.names hx (by rw [hn, ← hk]) hf]
    · subst hee
      refine emit_goes hx (valueExpr_calls he (fun _ => .inl) (fun y e hy => ?_) ?_) s s' hs .refl
      · exact hs.informed.fragments y e (Context.fragment_eq_ok_iff.1 hy)
      · intro input function f hk hf
        obtain ⟨name, hname⟩ := Option.isSome_iff_exists.1 (hnamed input function f hk hf)
        have hfound := hgrows.keeps _ _ hname
        refine .inr ⟨f.name, ?_⟩
        show _ = some ((s.context.functions.find? f.name).getD "")
        rw [hfound]
        rfl
  have hall : ∀ o ∈ n.kind.operands, c.Visits steps steps' o.2 := fun o ho => (hops o ho).visits
  have hrename : (n.kind.rename c.map functions).operands =
    n.kind.operands.map (Prod.map id c.map) :=
    Kind.operands_rename n.kind
  have hoperands := operands_goes (F := F) hall
  rw [← hrename] at hoperands
  obtain ⟨kind, shape⟩ := n
  cases kind with
  | column collection => exact hvalue F
  | _ => exact hoperands.next fun F₁ _ _ _ => hvalue F₁

/-- Nodes of the same kind, over operands that go along, compile alike. -/
theorem compileKind_goes (hjoin : c.Joins steps steps' x) :
    c.Goes F (compileKind env steps x n.kind)
      (compileKind env' steps' (c.map x) (n.kind.rename c.map functions)) Whatever := by
  have hexpr := compileExpr_goes (F := F) hx hn hfun hops
  have hvisits : ∀ o ∈ n.kind.operands, c.Visits steps steps' o.2 := fun o ho => (hops o ho).visits
  obtain ⟨kind, shape⟩ := n
  have hmany : ∀ (slot : Slot) (l : List NodeId),
      (∀ o ∈ Operand.many slot l, o ∈ kind.operands) → ∀ y ∈ l, c.Visits steps steps' y :=
    fun slot l hsub y hy => hvisits (slot, y) (hsub _ (List.mem_map_of_mem hy))
  cases kind with
  | source table =>
    refine (tableSource_goes hx table).bind fun F₁ r r' _ hr => ?_
    obtain ⟨rfl, hnone⟩ := hr
    exact fill_goes (adds_setSource _) (by simp [hnone])
  | project input fields =>
    exact compileSelect_goes .select false (hvisits (.input, input) (.head _))
      (hmany .fields fields (by simp +contextual [Kind.operands]))
  | filter input predicate =>
    exact compileFilter_goes (hvisits (.input, input) (.head _))
      (hvisits (.predicate, predicate) (by simp [Kind.operands]))
  | groupBy input keys aggregates having =>
    refine compileGroupBy_goes (hvisits (.input, input) (.head _))
      (hmany .keys keys (by simp +contextual [Kind.operands]))
      (hmany .aggregates aggregates (by simp +contextual [Kind.operands])) fun y hy => ?_
    exact hmany .having having.toList (by simp +contextual [Kind.operands, Operand.perhaps]) y
      (Option.mem_toList.2 hy)
  | mutate input keys mutates =>
    have hi := hvisits (.input, input) (.head _)
    have hkeys := hmany .keys keys (by simp +contextual [Kind.operands])
    have hmutates := hmany .mutates mutates (by simp +contextual [Kind.operands])
    have hselect := compileSelect_goes (F := F) .select false hi
      (List.forall_mem_append.2 ⟨hkeys, hmutates⟩)
    rwa [List.map_append] at hselect
  | sort input keys =>
    refine compileSort_goes (hvisits (.input, input) (.head _)) fun key hkey => ?_
    exact hmany .sortKeys (keys.map SortKey.expr) (by simp +contextual [Kind.operands]) _
      (List.mem_map_of_mem hkey)
  | distinct input fields =>
    exact compileSelect_goes .groupBy true (hvisits (.input, input) (.head _))
      (hmany .fields fields (by simp +contextual [Kind.operands]))
  | slice input start stop step =>
    exact compileSlice_goes start stop step (hvisits (.input, input) (.head _))
  | summary input fields =>
    exact compileSelect_goes .groupBy false (hvisits (.input, input) (.head _))
      (hmany .fields fields (by simp +contextual [Kind.operands]))
  | join left right predicate how fields => exact compileJoin_goes hjoin hn
  | union left right distinct =>
    exact compileUnion_goes hx (hops (.left, left) (.head _))
      (hops (.right, right) (by simp [Kind.operands]))
  | _ => exact hexpr

end Kinds

theorem visitNode_goes (hx : c.has x) (hops : ∀ y ∈ env.graph.children x, c.Serves steps steps' y)
    (hjoin : c.Joins steps steps' x) :
    c.Goes F (visitNode env steps x) (visitNode env' steps' (c.map x)) Whatever := by
  refine .get fun s s' hs hgrows => ?_
  have hfragment : s'.context.hasFragment (c.map x) = s.context.hasFragment x := by
    rw [Context.hasFragment, Context.hasFragment, hs.fragments hx]
  simp only [hs.visited hx, isCollection_eq hx, hfragment]
  split
  · exact ⟨hs, .refl, trivial⟩
  · have hcompile : c.Goes F
        (do
          let node ← check (env.graph.node x)
          compileKind env steps x node.kind
          markVisited x)
        (do
          let node ← check (env'.graph.node (c.map x))
          compileKind env' steps' (c.map x) node.kind
          markVisited (c.map x)) Whatever := by
      refine .node hx fun n functions hn hfun => ?_
      refine (compileKind_goes hx hn hfun (fun o ho => hops o.2 (mem_children hn ho)) hjoin).next
        fun F₁ _ _ _ => markVisited_goes hx
    split
    · exact hcompile s s' hs hgrows
    · exact markVisited_goes hx s s' hs hgrows

/-- A level of its own leaves the level around it as it was, on both sides. -/
theorem compileLevel_goes (hx : c.has x)
    (hvisit : ∀ y, env.graph.Reach x y → c.Visits steps steps' y)
    (hserve : ∀ y, env.graph.Reach x y →
      c.Joins steps steps' y ∧ ∀ z ∈ env.graph.children y, c.Serves steps steps' z) :
    c.Goes F (compileLevel env steps x) (compileLevel env' steps' (c.map x)) Equal := by
  refine .get fun s s' hs hgrows => ?_
  -- the level starts with nothing of the one around it
  have hinner : c.Matched s.inner s'.inner :=
    { hs with
      fragments := fun _ => rfl
      clauses := rfl
      visited := fun _ => by simp [State.inner]
      visible := fun _ => rfl
      informed := { hs.informed with
        fragments := nofun
        clauses := by simp [State.inner, clauseExprs, Clauses.empty] } }
  have hclose : ∀ F', s.context.functions.Grows env.functionStem F' →
      c.Goes F' (closeLevel env s) (closeLevel env' s') Equal := by
    intro F' hF'
    refine finishLevel_goes.equal fun F₁ level hF₁ =>
      Goes.next ?_ fun F₂ _ _ _ => .pure fun _ _ => rfl
    refine .modifyGet (fun t t' ht hgrows' => ⟨{ ht with
      fragments := hs.fragments
      clauses := hs.clauses
      visited := hs.visited
      visible := hs.visible
      informed := ?_ }, trivial⟩) fun _ => rfl
    have houter := hs.informed.mono (hF'.trans (hF₁.trans hgrows'))
    exact { ht.informed with fragments := houter.fragments, clauses := houter.clauses }
  refine Goes.next (F := s.context.functions) (discover_goes hx hserve) (fun F₁ _ _ hF₁ => ?_) _ _
    hinner .refl
  dsimp only
  rw [isCollection_eq hx]
  refine .ite (fun _ => ?_) fun _ => ?_
  · exact ((hvisit x .refl).2 F₁).next fun F₂ _ _ hF₂ => hclose F₂ (hF₁.trans hF₂)
  · have hvalue : c.Goes F₁ (compileValue env steps x) (compileValue env' steps' (c.map x))
        Whatever := by
      refine .check (owningCollection_agree hx) fun y y' hy hyy => ?_
      obtain ⟨hhas, rfl⟩ := hyy
      have hroot : ∀ z ∈ [x], c.Visits steps steps' z := by simpa using hvisit x .refl
      exact compileSelect_goes .select false (hvisit y (Graph.owningCollection_reach hy).1) hroot
    exact hvalue.next fun F₂ _ _ hF₂ => hclose F₂ (hF₁.trans hF₂)

end Steps

/-! ## Steps of every depth -/

/-- Steps of the given depths go as deep as a step of weight `k` into `x` needs: an operand stands
before its operator, and a step takes at most three to get to an operand. -/
def Within (c : Copy env env') (depth depth' k : Nat) (x : NodeId) : Prop :=
  c.even ∧ depth = depth' ∨ ¬ c.even ∧ 3 * x + k ≤ depth ∧ 3 * c.map x + k ≤ depth'

section Depth

variable {depth depth' k : Nat} {y : NodeId} {j : Nat}

theorem Within.self (h : c.Within (depth + 1) (depth' + 1) k x) (hj : j < k) :
    c.Within depth depth' j x := by
  rcases h with ⟨heven, h⟩ | ⟨heven, h, h'⟩
  · exact .inl ⟨heven, by lia⟩
  · exact .inr ⟨heven, by lia, by lia⟩

theorem Within.child (h : c.Within (depth + 1) (depth' + 1) k x) (hx : c.has x)
    (hy : y ∈ env.graph.children x) (hj : j ≤ k + 2) : c.Within depth depth' j y := by
  rcases h with ⟨heven, h⟩ | ⟨heven, h, h'⟩
  · exact .inl ⟨heven, by lia⟩
  · have hlt := child_lt heven hx hy
    exact .inr ⟨heven, by lia, by lia⟩

theorem reach_has (hx : c.has x) (h : env.graph.Reach x y) : c.has y := by
  induction h with
  | refl => exact hx
  | step _ hy ih => exact c.child ih hy

theorem Within.reach (h : c.Within depth depth' k x) (hx : c.has x) (hy : env.graph.Reach x y) :
    c.Within depth depth' k y := by
  induction hy with
  | refl => exact h
  | step hmid hchild ih =>
    rcases ih with ⟨heven, ih⟩ | ⟨heven, ih, ih'⟩
    · exact .inl ⟨heven, ih⟩
    · have hlt := child_lt heven (reach_has hx hmid) hchild
      exact .inr ⟨heven, by lia, by lia⟩

end Depth

/-- All steps of the given depths that go deep enough go side by side. -/
structure Tandem (c : Copy env env') (depth depth' : Nat) : Prop where
  visit : ∀ {x}, c.has x → c.Within depth depth' 2 x →
    c.Visits (Steps.upTo env depth) (Steps.upTo env' depth') x
  level : ∀ {x F}, c.has x → c.Within depth depth' 3 x →
    c.Goes F ((Steps.upTo env depth).level x) ((Steps.upTo env' depth').level (c.map x)) Equal
  join : ∀ {x}, c.has x → c.Within depth depth' 1 x →
    c.Joins (Steps.upTo env depth) (Steps.upTo env' depth') x

theorem Tandem.serves {depth depth' : Nat} (h : c.Tandem depth depth') (hx : c.has x)
    (hdeep : ∀ k ≤ 3, c.Within depth depth' k x) :
    c.Serves (Steps.upTo env depth) (Steps.upTo env' depth') x :=
  ⟨h.visit hx (hdeep 2 (by decide)), fun _ => h.level hx (hdeep 3 (by decide)),
    h.join hx (hdeep 1 (by decide))⟩

/-- Without depth left, both compilations stop. -/
theorem tandem_zero (c : Copy env env') (depth' : Nat) : c.Tandem 0 depth' := by
  have hstop : ∀ {k x}, 0 < k → c.Within 0 depth' k x → c.even ∧ depth' = 0 := by
    intro k x hk h
    rcases h with ⟨heven, h⟩ | ⟨-, h, -⟩
    · exact ⟨heven, h.symm⟩
    · lia
  refine ⟨fun hx h => ⟨hx, ?_⟩, fun hx h => ?_, fun hx h => ?_⟩
  · obtain ⟨heven, rfl⟩ := hstop (by decide) h
    exact fun _ => .throw ⟨c.cyclic heven, rfl⟩
  · obtain ⟨heven, rfl⟩ := hstop (by decide) h
    exact .throw ⟨c.cyclic heven, rfl⟩
  · obtain ⟨heven, rfl⟩ := hstop (by decide) h
    exact fun _ _ _ _ _ _ _ _ => .throw ⟨c.cyclic heven, rfl⟩

/-- The steps of a compilation and those of the other one go side by side, however deep. -/
theorem tandem (c : Copy env env') (depth depth' : Nat) : c.Tandem depth depth' := by
  induction depth generalizing depth' with
  | zero => exact tandem_zero c depth'
  | succ depth ih =>
    cases depth' with
    | zero =>
      have hnever : ∀ {k x}, 0 < k → ¬ c.Within (depth + 1) 0 k x := by
        intro k x hk h
        rcases h with ⟨-, h⟩ | ⟨-, -, h⟩
        · lia
        · lia
      exact ⟨fun _ h => absurd h (hnever (by decide)), fun _ h => absurd h (hnever (by decide)),
        fun _ h => absurd h (hnever (by decide))⟩
    | succ depth' =>
      have hops : ∀ {k x}, 0 < k → c.has x → c.Within (depth + 1) (depth' + 1) k x →
          ∀ y ∈ env.graph.children x,
            c.Serves (Steps.upTo env depth) (Steps.upTo env' depth') y := by
        intro k x hk hx h y hy
        exact (ih depth').serves (c.child hx hy) fun j hj => h.child hx hy (by omega)
      refine ⟨fun {x} hx h => ⟨hx, fun F => ?_⟩, fun {x F} hx h => ?_, fun {x} hx h => ?_⟩
      · exact visitNode_goes hx (hops (by decide) hx h) ((ih depth').join hx (h.self (by decide)))
      · -- the nodes below a root need no more depth than the root itself
        refine compileLevel_goes hx (fun y hy => ?_) fun y hy => ?_
        · exact (ih depth').visit (reach_has hx hy) ((h.reach hx hy).self (by decide))
        · have hhas := reach_has hx hy
          have hdeep := h.reach hx hy
          exact ⟨(ih depth').join hhas (hdeep.self (by decide)), hops (by decide) hhas hdeep⟩
      · intro F left right predicate how fields shape hn
        have hside : ∀ slot y, (slot, y) ∈ (Kind.join left right predicate how fields).operands →
            c.Serves (Steps.upTo env depth) (Steps.upTo env' depth') y ∧
              ∀ z ∈ env.graph.children y,
                c.Serves (Steps.upTo env depth) (Steps.upTo env' depth') z := by
          intro slot y hy
          have hchild := mem_children hn hy
          refine ⟨hops (by decide) hx h y hchild, fun z hz => ?_⟩
          refine (ih depth').serves (c.child (c.child hx hchild) hz) fun j hj => ?_
          exact (h.child hx hchild hj).reach (c.child hx hchild) (.step .refl hz)
        have hl := hside .left left (.head _)
        have hr := hside .right right (by simp [Kind.operands])
        refine joinAhead_goes hx hl.1 hr.1 hl.2 hr.2 fun p hp => ?_
        obtain rfl : predicate = some p := hp
        exact (hside .predicate p (by simp [Kind.operands, Operand.perhaps, Operand.many])).1

end Copy

end PlanSql.Compile

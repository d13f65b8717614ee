import PlanSql.Proofs.Compile.Actions
import PlanSql.Proofs.Rows.Pipeline

/-!
# Values on a level

While a level over one collection is being built, every fragment that is stored is the expression of
its value over the rows of that level. `Renders` is that relation; it does not mention the order in
which values are compiled. A visit of a value over the level's collection keeps it and leaves the
clauses alone.
-/

namespace PlanSql.Rows

open PlanSql.Sql PlanSql.Compile

variable {F : FunctionNames} {g : Graph}

/-! ## Names of user functions -/

/-- The deployed name of a user function. -/
def namesOf (F : FunctionNames) (function : String) : String := (F.find? function).getD ""

def Keeps (F F' : FunctionNames) : Prop :=
  ∀ function name, F.find? function = some name → F'.find? function = some name

/-- No user function is deployed under the name of an aggregate. -/
def Distinguished (F : FunctionNames) : Prop :=
  ∀ function name, F.find? function = some name → isAggregate name = false

theorem Keeps.refl (F : FunctionNames) : Keeps F F := fun _ _ h => h

theorem Keeps.trans {F' F'' : FunctionNames} (h : Keeps F F') (h' : Keeps F' F'') :
    Keeps F F'' := fun f n hf => h' f n (h f n hf)

theorem Keeps.register (F : FunctionNames) (function stem : String) :
    Keeps F (F.register function stem).2 := by
  intro f name hf
  unfold FunctionNames.register
  split
  · exact hf
  · rw [FunctionNames.find?] at hf
    simp [FunctionNames.find?, List.lookup_append, hf]

/-- A name with a number at its end is not that of an aggregate. -/
theorem isAggregate_numbered (stem : String) (n : Nat) :
    isAggregate (stem ++ "_" ++ Nat.repr n) = false := by
  have hlast : ∃ c, (stem ++ "_" ++ Nat.repr n).toList.getLast? = some c ∧ c.isDigit = true := by
    have hdigits : Nat.toDigits 10 n ≠ [] := Nat.toDigits_ne_nil
    refine ⟨(Nat.toDigits 10 n).getLast hdigits, ?_, ?_⟩
    · rw [String.toList_append, Nat.toList_repr, List.getLast?_append,
        List.getLast?_eq_some_getLast hdigits]
      rfl
    · exact Nat.isDigit_of_mem_toDigits (by decide) (by decide) (List.getLast_mem hdigits)
  obtain ⟨c, hc, hdigit⟩ := hlast
  have hnone : ∀ name ∈ aggregateNames, name.toList.getLast?.any Char.isDigit = false := by decide
  by_contra hagg
  have hmem : stem ++ "_" ++ Nat.repr n ∈ aggregateNames := by
    simpa [isAggregate] using hagg
  have hlast := hnone _ hmem
  rw [hc, Option.any_some, hdigit] at hlast
  cases hlast

theorem Distinguished.register (h : Distinguished F) (function stem : String) :
    Distinguished (F.register function stem).2 := by
  intro f name hf
  unfold FunctionNames.register at hf
  split at hf
  · exact h f name hf
  · simp only [FunctionNames.find?, List.lookup_append] at hf
    cases hold : F.entries.lookup f with
    | some old =>
      rw [hold] at hf
      obtain rfl : old = name := by simpa using hf
      exact h f old hold
    | none =>
      rw [hold, Option.none_or, List.lookup_cons] at hf
      split at hf
      · cases hf
        exact isAggregate_numbered stem _
      · cases hf

theorem Distinguished.namesOf (h : Distinguished F) (function : String) :
    isAggregate (namesOf F function) = false := by
  unfold Rows.namesOf
  cases hf : F.find? function with
  | none => rfl
  | some name => exact h function name hf

/-! ## Expressions of values -/

/-- `e` is the expression of a value where rows are known as `a`. -/
inductive Renders (g : Graph) (names : String → String) (a : Alias) : NodeId → Expr → Prop
  | intro {id : NodeId} {n : Node} {e : Expr} (p : Parts) (hn : g.node? id = some n)
    (hq : n.kind.subquery? = none) (hfrag : ∀ x e, p.fragment x = .ok e → Renders g names a x e)
    (hcol : ∀ c field r, n.kind = .column c → p.column c field = .ok r → r = (a, field))
    (hfun : ∀ x function f, n.kind = .userMap x function → g.function function = .ok f →
      p.function f.name = names f.name)
    (he : valueExpr g p id n.kind = .ok e) : Renders g names a id e

theorem CollectionFits.valueExpr_ne_ok {g' : Graph} {careful : Prop} {schema : Schema}
    {kind : Kind} (h : g.CollectionFits careful schema kind) (p : Parts) (id : NodeId) (e : Expr) :
    valueExpr g' p id kind ≠ .ok e := by
  cases kind <;> first | exact h.elim | simp [valueExpr]

section

variable {V : Type} {g : Graph} {names : String → String} {a : Alias} {id : NodeId} {e : Expr}

theorem Renders.operand_lt {careful : Prop} (hw : g.WellFormed careful) {n : Node} {p : Parts}
    (hn : g.node? id = some n) (he : valueExpr g p id n.kind = .ok e) :
    ∀ o ∈ n.kind.operands, o.2 < id := by
  cases hs : n.shape with
  | collection schema =>
    exact absurd he (CollectionFits.valueExpr_ne_ok (hw.collectionFits hn hs) p id e)
  | sequence t | scalar t =>
    have ht : n.typed? = some t := by simp [Node.typed?, hs]
    exact hw.operand_lt hn ht

theorem Renders.sameMeaning {careful : Prop} (hw : g.WellFormed careful) (S : Scalars V)
    (h : Renders g names a id e) (depth : Nat) (hd : id < depth) :
    ∃ e', exprTo g names depth id = .ok e' ∧ SameMeaning S a 0 e e' := by
  induction h generalizing depth with
  | @intro id n e p hn hq hfrag hcol hfun he ih =>
    cases depth with
    | zero => exact absurd hd (Nat.not_lt_zero id)
    | succ depth =>
      have hbefore := operand_lt hw hn he
      have hcong := SameMeaning.congruence S a 0
      let p' : Parts := ⟨exprTo g names depth, fun _ field => .ok (0, field), names, fun _ => 0⟩
      have hfollows : Follows (SameMeaning S a 0) (valueExpr g p id n.kind)
          (valueExpr g p' id n.kind) := by
        refine valueExpr_follows hcong.toCongruence (fun _ _ => trivial)
          (fun _ => ⟨hcong, fun _ _ => trivial⟩) (fun _ _ => trivial) (fun _ _ _ _ _ h => h.negate)
          ⟨trivial, fun _ _ _ _ => trivial, ?_, ?_, ?_, ?_⟩
        · refine fun o ho _ => ⟨trivial, fun x hx => ?_⟩
          exact ih o.2 x hx depth (Nat.lt_of_lt_of_le (hbefore o ho) (Nat.lt_succ_iff.1 hd))
        · intro c hk field r hr
          obtain rfl := hcol c field r hk hr
          exact ⟨(0, field), rfl, fun _ => by simp [eval, evalWith, Scalars.field],
            fun _ => by simp [groupEval, evalWith, Scalars.field], rfl, rfl, rfl⟩
        · exact fun x function hk => ⟨rfl, fun f hf => ⟨hfun x function f hk hf, trivial⟩⟩
        · simp [hq]
      obtain ⟨e', he', hsame⟩ := hfollows e he
      exact ⟨e', Except.bind_eq_ok_iff.2 ⟨n, Graph.node_eq_ok_iff.2 hn, he'⟩, hsame⟩

/-- The expression of a value that looks at one row holds no aggregate. -/
theorem Renders.hasAggregate_eq_false (hnames : ∀ f, isAggregate (names f) = false) {own : NodeId}
    (h : Renders g names a id e) (hrow : RowWise g own id) : hasAggregate e = false := by
  induction h with
  | @intro id n e p hn hq hfrag hcol hfun he ih =>
    have hfollows : Follows (fun e _ => hasAggregate e = false) (valueExpr g p id n.kind)
        (valueExpr g p id n.kind) := by
      cases hrow with
      | column hm =>
        cases hn.symm.trans hm
        exact columnExpr_related (w := .onSuccess g)
          noAggregate_congruence trivial fun field r hr =>
          ⟨r, hr, rfl⟩
      | scalar hm hs _ hops =>
        cases hn.symm.trans hm
        have haround : looksAround n.kind = false := by
          cases hk : n.kind <;> simp_all [isScalar, looksAround]
        refine valueExpr_follows noAggregate_congruence ?_ (fun h => ?_) (fun _ _ => trivial)
          (fun _ _ _ _ _ h => h) ⟨trivial, fun _ _ _ _ => trivial, ?_, ?_, ?_, ?_⟩
        · intro name hname
          simp only [isRowFunction, Bool.and_eq_true, Bool.not_eq_true'] at hname
          exact hname.1
        · simp [haround] at h
        · exact fun o ho _ => ⟨trivial, fun x hx => ⟨x, hx, ih o.2 x hx (hops o ho)⟩⟩
        · exact fun c _ field r hr => ⟨r, hr, rfl⟩
        · refine fun x function hk => ⟨rfl, fun f hf => ⟨rfl, ?_⟩⟩
          rw [hfun x function f hk hf]
          exact hnames f.name
        · exact fun _ => rfl
    obtain ⟨_, _, hno⟩ := hfollows e he
    exact hno

end

/-! ## Visiting values -/

/-- `b` is `id` or is reached from it through filters, slices and sorts. -/
inductive Passes (g : Graph) : NodeId → NodeId → Prop
  | refl (id : NodeId) : Passes g id id
  | step {id input b : NodeId} {n : Node} : g.node? id = some n → n.kind.passThrough? = some input →
    Passes g input b → Passes g id b

/-- Where only `b` can be named, a collection over it is named by the same alias and field names. -/
theorem Passes.columnRef {b c : NodeId} {a : Alias} (h : Passes g c b) {depth : Nat}
    {field : String} {r : Alias × String} (hr : columnRef g [(b, a)] depth c field = .ok r) :
    r = (a, field) := by
  induction depth generalizing c with
  | zero => cases hr
  | succ depth ih =>
    rw [Compile.columnRef] at hr
    by_cases hc : c = b
    · have hlookup : List.lookup c [(b, a)] = some a := by simp [hc]
      rw [hlookup] at hr
      exact (Except.ok.inj hr).symm
    · have hne : (c == b) = false := beq_false_of_ne hc
      have hlookup : List.lookup c [(b, a)] = none := by simp [List.lookup_cons, hne]
      rw [hlookup] at hr
      cases h with
      | refl => exact absurd rfl hc
      | @step _ input _ n hn hp hpass =>
        obtain ⟨m, hm, hr⟩ := bind_ok hr
        cases hn.symm.trans (Graph.node_eq_ok_iff.1 hm)
        split at hr
        · next hk => simp [hk, Kind.passThrough?] at hp
        · rw [hp] at hr
          exact ih hpass hr

/-- A level over one collection: only `b` can be named, as `a`, and every fragment is the expression
of its value. -/
structure OnLevel (g : Graph) (b : NodeId) (a : Alias) (s : State) : Prop where
  visible : s.visible = [(b, a)]
  fragments : ∀ F, Keeps s.context.functions F → ∀ x e, s.context.fragment x = .ok e →
    Renders g (namesOf F) a x e
  names : Distinguished s.context.functions

/-- Nothing happened but that values were compiled. -/
structure SameLevel (s s' : State) : Prop where
  clauses : s'.clauses = s.clauses
  levels : s'.levels = s.levels
  functions : Keeps s.context.functions s'.context.functions

theorem SameLevel.refl (s : State) : SameLevel s s := ⟨rfl, rfl, .refl _⟩

theorem SameLevel.trans {s s' s'' : State} (h : SameLevel s s') (h' : SameLevel s' s'') :
    SameLevel s s'' :=
  ⟨h'.1.trans h.1, h'.2.trans h.2, h.3.trans h'.3⟩

section Visit

variable {env : Env} {b own : NodeId} {a : Alias} {steps : Steps} {id : NodeId}
variable {kind : Kind} {n : Node} {v : NodeId}

/-- What an action on values does to the level. -/
def KeepsLevel {α : Type} (env : Env) (b : NodeId) (a : Alias) (m : Compile α) : Prop :=
  ∀ s, OnLevel env.graph b a s →
    Meets m s (fun _ s' => SameLevel s s' ∧ OnLevel env.graph b a s') fun _ _ => True

theorem KeepsLevel.bind {α β : Type} {m : Compile α} {f : α → Compile β}
    (hm : KeepsLevel env b a m) (hf : ∀ x, KeepsLevel env b a (f x)) :
    KeepsLevel env b a (m >>= f) := by
  intro s hs
  refine .bind ((hm s hs).imp fun x s' ⟨hsame, hs'⟩ => ?_)
  exact (hf x s' hs').imp fun _ s'' ⟨hsame', hs''⟩ => ⟨hsame.trans hsame', hs''⟩

theorem KeepsLevel.pure {α : Type} (x : α) : KeepsLevel env b a (Pure.pure x : Compile α) :=
  fun s hs => .pure ⟨.refl s, hs⟩

theorem compileKind_eq_compileExpr
    (h : isScalar kind = true ∨ looksAround kind = true ∨ ∃ c, kind = .column c) :
    compileKind env steps id kind = compileExpr env steps id kind := by
  cases kind <;> first | rfl | simp [isScalar, looksAround] at h

/-- Visiting the operands of a value keeps the level if visiting each value among them does. -/
theorem KeepsLevel.operands {os : List Operand}
    (h : ∀ o ∈ os, env.graph.isCollection o.2 = false → KeepsLevel env b a (steps.visit o.2)) :
    KeepsLevel env b a (steps.operands env os) := by
  induction os with
  | nil => exact .pure ()
  | cons o rest ih =>
    have hrest := ih fun o ho => h o (.tail _ ho)
    obtain ⟨slot, id⟩ := o
    rw [Steps.operands]
    split
    · next hv => exact (h _ List.mem_cons_self (by simpa using hv.2)).bind fun _ => hrest
    · exact hrest

/-- The user function that a value applies has a name. -/
def Named (g : Graph) (kind : Kind) (s : State) : Prop :=
  ∀ x function f, kind = .userMap x function → g.function function = .ok f →
    (s.context.functions.find? f.name).isSome

theorem provide_meets (hq : kind.subquery? = none) (hwin : ∀ op, kind ≠ .window op) {s : State}
    (hs : OnLevel env.graph b a s) :
    Meets (provide env steps id kind) s
      (fun _ s' => SameLevel s s' ∧ OnLevel env.graph b a s' ∧ Named env.graph kind s')
      fun _ _ => True := by
  have hrest : (∀ x function, kind ≠ .userMap x function) → Meets
      (provide env steps id kind) s
        (fun _ s' => SameLevel s s' ∧ OnLevel env.graph b a s' ∧ Named env.graph kind s')
        fun _ _ => True := by
    intro hk
    rw [provide_of_ne hk hwin, hq]
    exact .pure ⟨.refl s, hs, fun x function _ h _ => absurd h (hk x function)⟩
  cases kind with
  | userMap x function =>
    refine .bind (Meets.check (fun f hf => .bind (.modifyGet (.pure ?_))) fun _ _ => trivial)
    have hkeeps := Keeps.register s.context.functions f.name env.functionStem
    refine ⟨⟨rfl, rfl, hkeeps⟩, ⟨hs.visible, ?_, hs.names.register _ _⟩, ?_⟩
    · exact fun F hF y e he => hs.fragments F (hkeeps.trans hF) y e he
    · rintro _ _ f' ⟨⟩ hf'
      cases hf.symm.trans hf'
      simp [FunctionNames.find?_register]
  | window op => exact absurd rfl (hwin op)
  | _ => exact hrest (by simp)

theorem compileExpr_keepsLevel (hn : env.graph.node? id = some n) (hq : n.kind.subquery? = none)
    (hwin : ∀ op, n.kind ≠ .window op) (hcol : ∀ c, n.kind = .column c → Passes env.graph c b)
    (hops : (∀ c, n.kind ≠ .column c) → KeepsLevel env b a (steps.operands env n.kind.operands)) :
    KeepsLevel env b a (compileExpr env steps id n.kind) := by
  have hrest : KeepsLevel env b a (do
      provide env steps id n.kind
      let p := (← get).parts env
      emit id (← check (valueExpr env.graph p id n.kind))) := by
    intro s hs
    refine .bind ((provide_meets hq hwin hs).imp fun _ s' ⟨hsame, hs', hnamed⟩ => .bind (.get ?_))
    refine .bind (Meets.check (fun e he => Meets.emit (fun c hc => ?_) fun _ _ => trivial)
      fun _ _ => trivial)
    rcases Context.addFragment_eq_ok hc with ⟨_, rfl⟩ | ⟨_, rfl⟩
    · refine ⟨⟨hsame.1, hsame.2, hsame.3⟩, hs'.visible, fun F hF x e' hx => ?_, hs'.names⟩
      rw [Context.fragment_cons] at hx
      split at hx
      · next hid =>
        cases hx
        subst hid
        refine .intro (s'.parts env) hn hq (hs'.fragments F hF) ?_ ?_ he
        · intro c field r hk hr
          have hvisible : columnRef env.graph [(b, a)] env.depth c field = .ok r := by
            rw [← hs'.visible]
            exact hr
          exact (hcol c hk).columnRef hvisible
        · intro y function f hk hf
          obtain ⟨name, hname⟩ := Option.isSome_iff_exists.1 (hnamed y function f hk hf)
          simp [State.parts, namesOf, hname, hF _ _ hname]
      · exact hs'.fragments F hF x e' hx
    · exact ⟨⟨hsame.1, hsame.2, hsame.3⟩, hs'.visible, hs'.fragments, hs'.names⟩
  unfold compileExpr
  split
  · exact KeepsLevel.pure () |>.bind fun _ => hrest
  · next hk => exact (hops hk).bind fun _ => hrest

/-- What the node of a value over `own` looks like. -/
structure Grouped.Shape (g : Graph) (own : NodeId) (kind : Kind) : Prop where
  value : isScalar kind = true ∨ looksAround kind = true ∨ ∃ c, kind = .column c
  subquery : kind.subquery? = none
  window : ∀ op, kind ≠ .window op
  column : ∀ c, kind = .column c → c = own
  operands : (∀ c, kind ≠ .column c) → ∀ o ∈ kind.operands, o.2 = own ∨ Grouped g own o.2

theorem Grouped.shape {g : Graph} (h : Grouped g own v) (hn : g.node? v = some n) :
    Grouped.Shape g own n.kind := by
  cases h with
  | column hm =>
    cases hn.symm.trans hm
    exact ⟨.inr (.inr ⟨own, rfl⟩), rfl, by simp, by simp, fun h => absurd rfl (h own)⟩
  | scalar hm hs hq hops =>
    cases hn.symm.trans hm
    refine ⟨.inl hs, hq, ?_, ?_, fun _ o ho => .inr (hops o ho)⟩
    · intro op hk
      simp [hk, isScalar] at hs
    · intro c hk
      simp [hk, isScalar] at hs
  | aggregate hm hrow =>
    cases hn.symm.trans hm
    refine ⟨.inr (.inl rfl), rfl, by simp, by simp, fun _ o ho => ?_⟩
    obtain rfl := List.mem_singleton.1 ho
    exact .inr hrow.grouped
  | count hm =>
    cases hn.symm.trans hm
    refine ⟨.inr (.inl rfl), rfl, by simp, by simp, fun _ o ho => ?_⟩
    obtain rfl := List.mem_singleton.1 ho
    exact .inl rfl

theorem Grouped.visit_keepsLevel (hown : env.graph.isCollection own = true)
    (hpass : Passes env.graph own b) (depth : Nat) (hv : Grouped env.graph own v) :
    KeepsLevel env b a ((Steps.upTo env depth).visit v) := by
  induction depth generalizing v with
  | zero => exact fun s hs => .throw trivial
  | succ depth ih =>
    intro s hs
    refine .bind (.get ?_)
    split
    · exact .pure ⟨.refl s, hs⟩
    · have hmark : ∀ s', SameLevel s s' → OnLevel env.graph b a s' →
          Meets (markVisited v) s' (fun _ s'' => SameLevel s s'' ∧ OnLevel env.graph b a s'')
            fun _ _ => True := fun s' hsame hs' =>
        .modify ⟨⟨hsame.1, hsame.2, hsame.3⟩, hs'.1, hs'.2, hs'.3⟩
      split
      · refine .bind (Meets.check (fun n hn => ?_) fun _ _ => trivial)
        have hfound := Graph.node_eq_ok_iff.1 hn
        have hshape := hv.shape hfound
        rw [compileKind_eq_compileExpr hshape.value]
        have hkeeps : KeepsLevel env b a (compileExpr env (Steps.upTo env depth) v n.kind) := by
          refine compileExpr_keepsLevel hfound hshape.subquery hshape.window
            (fun c hc => hshape.column c hc ▸ hpass) fun hcol =>
              KeepsLevel.operands fun o ho hvalue => ?_
          rcases hshape.operands hcol o ho with rfl | hgrouped
          · simp [hown] at hvalue
          · exact ih hgrouped
        exact .bind ((hkeeps s hs).imp fun _ s' ⟨hsame, hs'⟩ => hmark s' hsame hs')
      · exact hmark s (.refl s) hs

end Visit

end PlanSql.Rows

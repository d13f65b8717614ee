import PlanSql.Proofs.Compile.Naming
import PlanSql.Proofs.Values.Congruence

/-!
# The columns that expressions name

An expression is put together from the expressions of the values that it reads, so every column that
it names is named by the expression of a column that the value reads. On a level this stays so,
since expressions are kept together until the level is read as a derived table.
-/

namespace PlanSql

namespace Sql

mutual

/-- The columns that an expression names, with their labels. What a subquery names is not
counted. -/
def Expr.references : Expr → List (Alias × String)
  | .column label field => [(label, field)]
  | .constant _ => []
  | .group e | .negate e | .not e | .isNull _ e | .inLevel _ e _ | .callDistinct _ e
  | .convert e _ _ | .descending e => e.references
  | .binary _ l r => l.references ++ r.references
  | .inList _ e items => e.references ++ Expr.allReferences items
  | .between e low high => e.references ++ low.references ++ high.references
  | .call _ args => Expr.allReferences args
  | .windowed func partition order _ =>
    func.references ++ Expr.allReferences partition ++ Expr.allReferences order
  | .cases subject branches fallback =>
    Expr.references? subject ++ Expr.branchReferences branches ++ Expr.references? fallback

def Expr.allReferences : List Expr → List (Alias × String)
  | [] => []
  | e :: rest => e.references ++ Expr.allReferences rest

/-- The columns that an expression names, if there is one. -/
def Expr.references? : Option Expr → List (Alias × String)
  | none => []
  | some e => e.references

def Expr.branchReferences : List (Expr × Expr) → List (Alias × String)
  | [] => []
  | (condition, result) :: rest =>
    condition.references ++ result.references ++ Expr.branchReferences rest

end

end Sql

open PlanSql.Sql

namespace Compile

section Expressions

variable {P : Alias × String → Prop} {es es' : List Expr} {e : Expr}

/-- Every column that the expression names is in `P`. -/
def Names (P : Alias × String → Prop) (e : Expr) : Prop := ∀ r ∈ e.references, P r

theorem names_allReferences (h : List.Forall₂ (fun e _ => Names P e) es es') :
    ∀ r ∈ Expr.allReferences es, P r := by
  induction h with
  | nil => simp [Expr.allReferences]
  | cons he _ ih => exact List.forall_mem_append.2 ⟨he, ih⟩

theorem names_references? {e e' : Option Expr} (h : Option.Rel (fun e _ => Names P e) e e') :
    ∀ r ∈ Expr.references? e, P r := by
  cases h with
  | none => simp [Expr.references?]
  | some he => exact he

theorem names_branchReferences {bs bs' : List (Expr × Expr)}
    (h : List.Forall₂ (fun b _ => Names P b.1 ∧ Names P b.2) bs bs') :
    ∀ r ∈ Expr.branchReferences bs, P r := by
  induction h with
  | nil => simp [Expr.branchReferences]
  | cons hb _ ih => exact List.forall_mem_append.2 ⟨List.forall_mem_append.2 hb, ih⟩

theorem names_converted {source target : DataType} :
    Names P (converted e source target) ↔ Names P e := by
  unfold converted
  split
  · rfl
  · rfl

theorem names_keys (h : List.Forall₂ (KeyRel fun e _ => Names P e) es es') :
    ∀ r ∈ Expr.allReferences es, P r := by
  refine names_allReferences (h.imp fun e e' hkey => ?_)
  cases hkey with
  | ascending he | descending he => exact he

/-- An expression names what its parts name. -/
theorem names_congruence (P : Alias × String → Prop) :
    FullCongruence (fun e _ => Names P e) (fun _ => True) fun _ => True where
  constant v _ := by simp [Names, Expr.references]
  group h := h
  binary h h' := List.forall_mem_append.2 ⟨h, h'⟩
  not h := h
  isNull h := h
  inList h hes := List.forall_mem_append.2 ⟨h, names_allReferences hes⟩
  inLevel h := h
  between h hl hh := List.forall_mem_append.2 ⟨List.forall_mem_append.2 ⟨h, hl⟩, hh⟩
  call _ hes := names_allReferences hes
  convert _ h := h
  cases hs hbs hf := List.forall_mem_append.2
    ⟨List.forall_mem_append.2
      ⟨names_references? hs, names_branchReferences hbs⟩, names_references? hf⟩
  callDistinct _ h := h
  windowed _ h hps hos := List.forall_mem_append.2
    ⟨List.forall_mem_append.2 ⟨h, names_allReferences hps⟩, names_keys hos⟩

theorem valueExpr_names {g : Graph} {p : Parts} {id : NodeId} {kind : Kind}
    (he : valueExpr g p id kind = .ok e) (hkind : ∀ c, kind ≠ .column c)
    (hfrag : ∀ o ∈ kind.operands, o.1 ≠ .subquery → ∀ x, p.fragment o.2 = .ok x → Names P x) :
    Names P e :=
  (names_congruence P).of_value (fun _ _ => trivial) (fun _ _ => trivial) (fun _ _ _ _ h => h) hfrag
    (fun c hc => absurd hc (hkind c)) (fun _ _ _ _ _ => trivial) he

end Expressions

section Traced

variable {env : Env} {id : NodeId} {e : Expr}

/-- The columns that kept expressions name are named by the kept expressions of columns that their
values read. -/
structure Traced (g : Graph) (s : State) : Prop where
  value : ∀ {id e}, s.context.fragments.lookup id = some e → g.isCollection id = false
  column : ∀ {id e}, s.context.fragments.lookup id = some e → ∀ r ∈ e.references,
    ∃ x collection t source e', g.Cites id x ∧ g.IsColumn x collection t source ∧
      s.context.fragments.lookup x = some e' ∧ r ∈ e'.references

variable {g : Graph} {s s' : State}

theorem Traced.congr (h : Traced g s) (hf : s'.context.fragments = s.context.fragments) :
    Traced g s' := by
  constructor
  · rw [hf]
    exact h.value
  · rw [hf]
    exact h.column

theorem Traced.of_empty (h : s.context.fragments = []) : Traced g s := by
  constructor
  · rw [h]
    exact fun h => (by cases h)
  · rw [h]
    exact fun h => (by cases h)

/-- Expressions in which all kept columns name only columns in `P` do so as well. -/
theorem Traced.names {P : Alias × String → Prop} (h : Traced g s)
    (he : s.context.fragments.lookup id = some e)
    (hP : ∀ x collection t source e', g.Cites id x → g.IsColumn x collection t source →
      s.context.fragments.lookup x = some e' → Names P e') : Names P e := by
  intro r hr
  obtain ⟨x, collection, t, source, e', hcites, hcol, he', hr'⟩ := h.column he r hr
  exact hP x collection t source e' hcites hcol he' r hr'

theorem Traced.emit {careful : Prop} {n : Node} {t : Typed} (hw : env.graph.WellFormed careful)
    (h : Traced env.graph s) (hn : env.graph.node? id = some n) (ht : n.typed? = some t)
    (he : valueExpr env.graph (s.parts env) id n.kind = .ok e)
    (hnew : s.context.fragments.lookup id = none)
    (hf : s'.context.fragments = (id, e) :: s.context.fragments) : Traced env.graph s' := by
  have hkept : ∀ {x e'}, s.context.fragments.lookup x = some e' →
      ((id, e) :: s.context.fragments).lookup x = some e' :=
        fun hx => lookup_cons_of_none hnew hx hx
  have hvalue := not_isCollection_of_typed hn ht
  constructor
  · rw [hf]
    intro x e' hx
    by_cases hid : x = id
    · rw [hid]
      exact hvalue
    · rw [List.lookup_cons, beq_false_of_ne hid] at hx
      exact h.value hx
  · rw [hf]
    intro x e' hx
    rcases lookup_cons_eq_some hx with ⟨rfl, rfl⟩ | hx
    · by_cases hkind : ∃ c, n.kind = .column c
      · obtain ⟨c, hkind⟩ := hkind
        have hfits := hw.valueFits hn ht
        rw [hkind] at hfits
        obtain ⟨_, source, _, _, hsource, _⟩ := hfits
        exact fun r hr => ⟨x, c, t, source, e', .refl, ⟨⟨n, hn, hkind, ht⟩, hsource⟩,
          List.lookup_cons_self, hr⟩
      · refine valueExpr_names he (fun c hc => hkind ⟨c, hc⟩) fun o ho hslot e' he' r hr => ?_
        have he' := Context.fragment_eq_ok_iff.1 he'
        obtain ⟨y, collection, t', source, e'', hcites, hcol, hy, hr⟩ := h.column he' r hr
        exact ⟨y, collection, t', source, e'', .step hn ho hslot (h.value he') hcites, hcol,
          hkept hy, hr⟩
    · intro r hr
      obtain ⟨y, collection, t', source, e'', hcites, hcol, hy, hr⟩ := h.column hx r hr
      exact ⟨y, collection, t', source, e'', hcites, hcol, hkept hy, hr⟩

theorem Prepared.traced {input : NodeId} {clause : Clause} {reads : Bool}
    (h : Prepared env input clause reads s s') (hs : Traced env.graph s) : Traced env.graph s' := by
  cases h with
  | same _ _ => exact hs
  | wrapped _ _ _ _ => exact .of_empty rfl

theorem Runs.traced {top : NodeId} {job : Job} {careful : Prop}
    (hw : env.graph.WellFormed careful) (h : Runs env top job s s') (hs : Traced env.graph s) :
    Traced env.graph s' := by
  induction h with
  | visited | noOperands | noValues | noKeys | noItems | provideNothing | discovered | unionKept
  | subqueryKept | joinKept => exact hs
  | cached | source | provideFunction | sideTable => exact hs.congr rfl
  | selection _ _ _ _ _ ih => exact (ih hs).congr rfl
  | filter _ _ _ _ hprep _ _ _ _ ih ih' => exact (ih' (hprep.traced (ih hs))).congr rfl
  | groupBy _ _ _ _ hprep _ _ _ _ _ _ ih ih' ih'' ihp =>
    have hitems := ih'' (ih' (hprep.traced (ih hs)))
    exact (ihp (hitems.congr rfl)).congr rfl
  | sort _ _ _ _ hprep _ _ ih ih' => exact (ih' (hprep.traced (ih hs))).congr rfl
  | slice _ _ _ _ _ hprep _ ih => exact (hprep.traced (ih hs)).congr rfl
  | joined _ _ _ _ _ _ ih | united _ _ _ _ _ ih => exact (ih hs).congr rfl
  | value _ _ _ hn ht _ _ he hadd ih ih' =>
    rcases Context.addFragment_eq_ok hadd with ⟨hnew, rfl⟩ | ⟨_, rfl⟩
    · exact (ih' (ih hs)).emit hw hn ht he hnew rfl
    · exact (ih' (ih hs)).congr rfl
  | skipped _ _ ih => exact ih hs
  | operand _ _ _ _ ih ih' | valueThen _ _ _ _ ih ih' | keyThen _ _ _ _ ih ih'
  | itemThen _ _ _ _ _ _ _ ih ih' => exact ih' (ih hs)
  | provideWindow _ ih | provideSubquery _ _ ih => exact ih hs
  | select _ hprep _ _ ih ih' => exact (ih' (hprep.traced (ih hs))).congr rfl
  | level | levelOfValue => exact hs.congr rfl
  | discoverJoin _ _ _ _ ih ih' | discoverUnion _ _ _ _ ih ih'
  | discoverSubquery _ _ _ _ _ ih ih' =>
    exact ih' (ih hs)
  | unionNew _ _ _ _ _ _ ih ih' => exact (ih' (ih hs)).congr rfl
  | subqueryNew _ _ _ _ _ ih => exact (ih hs).congr rfl
  | sideJoin _ _ ih | sideUnion _ _ ih => exact ih hs
  | sideLevel _ _ _ _ _ ih => exact (ih hs).congr rfl
  | joinNew _ _ _ _ _ _ ih ih' ih'' => exact (ih'' ((ih' (ih hs)).congr rfl)).congr rfl

end Traced

end Compile

end PlanSql

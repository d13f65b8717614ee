import PlanSql.Proofs.Copies.Nodes

/-!
# Expressions of copied values

An expression is made from the expressions of operands, from names and from types, never from ids.
So a value and its copy have the same expression wherever their operands have.
-/

namespace PlanSql.Compile

open PlanSql.Sql

theorem eq_congruence : FullCongruence Eq (fun _ => True) fun _ => True := by
  have hlist : ∀ {α : Type} {R : α → α → Prop} {l l' : List α}, (∀ a b, R a b → a = b) →
      List.Forall₂ R l l' → l = l' := fun hR h => List.forall₂_eq_eq_eq ▸ h.imp hR
  have hes : ∀ {es es' : List Expr}, List.Forall₂ Eq es es' → es = es' := hlist fun _ _ h => h
  have hoption : ∀ {o o' : Option Expr}, Option.Rel Eq o o' → o = o' := by
    rintro _ _ (rfl | _) <;> rfl
  have hkey : ∀ e e', KeyRel Eq e e' → e = e' := by
    rintro _ _ (rfl | rfl) <;> rfl
  exact {
    constant := fun _ _ => rfl
    group := fun h => congrArg _ h
    binary := fun h h' => congrArg₂ _ h h'
    not := fun h => congrArg _ h
    isNull := fun h => congrArg _ h
    inList := fun h h' => congrArg₂ _ h (hes h')
    inLevel := fun h => by rw [h]
    between := fun h h' h'' => by rw [h, h', h'']
    call := fun _ h => congrArg _ (hes h)
    convert := fun _ h => by rw [h]
    cases := fun h h' h'' => by
      rw [hoption h, hlist (fun _ _ h => Prod.ext h.1 h.2) h', hoption h'']
    callDistinct := fun _ h => congrArg _ h
    windowed := fun _ h h' h'' => by rw [h, hes h', hlist hkey h''] }

namespace Copy

variable {env env' : Env} {c : Copy env env'}

/-- Checks on nodes and on their copies, with the same errors up to ids. -/
def comparison (c : Copy env env') : Comparison env.graph env'.graph where
  map := c.map
  has := c.has
  overflow := c.fault .overflow
  Rel := c.Agree
  pure := .pure
  throw := c.faulty
  overflows h := .throw h rfl
  bind := .bind
  node := node_agree
  isCollection := isCollection_eq
  operand hx hn := operand hx hn

/-- Parts that give the same for a node and its copy. -/
structure SameParts (c : Copy env env') (p p' : Parts) : Prop where
  fragment : ∀ {x}, c.has x → c.Agree Eq (p.fragment x) (p'.fragment (c.map x))
  column : ∀ {x}, c.has x → ∀ field, c.Agree Eq (p.column x field) (p'.column (c.map x) field)
  level : ∀ {x}, c.has x → p'.level (c.map x) = p.level x

variable {p p' : Parts} {x : NodeId} {n : Node}

variable (h : c.SameParts p p')

include h

theorem SameParts.given (hx : c.has x) : c.comparison.Given Eq p p' x := ⟨hx, h.fragment hx⟩

theorem valueExpr_agree {functions : FunctionId → FunctionId} (hx : c.has x)
    (hn : env.graph.node? x = some n) (hfun : ∀ input function, n.kind = .userMap input function →
      env'.graph.function (functions function) = env.graph.function function ∧
        ∀ f, env.graph.function function = .ok f → p'.function f.name = p.function f.name) :
    c.Agree Eq (valueExpr env.graph p x n.kind)
      (valueExpr env'.graph p' (c.map x) (n.kind.rename c.map functions)) := by
  have hop : ∀ o ∈ n.kind.operands, c.has o.2 := fun o ho => operand hx hn ho
  refine valueExpr_related (w := c.comparison) eq_congruence.toCongruence (fun _ _ => trivial)
    (fun _ => ⟨eq_congruence, fun _ _ => trivial⟩) (fun _ _ => trivial)
    (fun _ _ _ _ _ => congrArg Expr.negate)
    ⟨hx, ?_, fun o ho _ => h.given (hop o ho), ?_, ?_, fun _ => (h.level hx).symm⟩
  · rintro input op hk
    exact c.overflows hx (hn.trans (by rw [← hk]))
  · intro collection hk field
    have hcoll := hop (.collection, collection) (by simp [hk, Kind.operands])
    exact (h.column hcoll field).imp fun _ _ h => h ▸ rfl
  · intro input function hk
    obtain ⟨hsame, hname⟩ := hfun input function hk
    exact ⟨hsame, fun f hf => ⟨(hname f hf).symm, trivial⟩⟩

end Copy

end PlanSql.Compile

import PlanSql.Proofs.Lexing.Texts

/-!
# Signs of values

A sign stands before an operand only where a number is negated, and an operand that needs no
parentheses begins with a sign only if it is a negated number or a negative constant.
-/

namespace PlanSql

open Text Sql Compile

namespace Sql

/-- An expression is no sort key with a direction, and a window follows something without a sign. -/
def Expr.isHeaded : Expr → Bool
  | .descending _ => false
  | .windowed func .. => !func.beginsWithSign
  | _ => true

theorem Expr.beginsWithSign_eq {e : Expr} (h : e.isHeaded = true) (levelText : LevelId → String)
    (hlevel : (Reading.treeOf levelText e).level = 2 ∨ 6 < (Reading.treeOf levelText e).level) :
    e.beginsWithSign = false := by
  cases e with
  | constant v =>
    rw [Reading.level_constant] at hlevel
    rw [Expr.beginsWithSign]
    cases hv : Reading.isSigned v with
    | false => rfl
    | true =>
      rw [hv, if_pos rfl] at hlevel
      omega
  | binary op l r =>
    rw [Reading.level_binary] at hlevel
    cases op <;> simp [Reading.level] at hlevel
  | inList negated x items =>
    rw [Reading.level_inList] at hlevel
    omega
  | negate x | isNull negated x | inLevel negated x level | between x low high =>
    simp [Reading.treeOf, Reading.Tree.level, Reading.Suffix.level] at hlevel
  | windowed func partition order frame => simpa [Expr.isHeaded, Expr.beginsWithSign] using h
  | descending x => cases h
  | column label field | group x | not x | call name args | callDistinct name x
  | convert x source target | cases subject branches fallback => rfl

end Sql

/-! ## Expressions of values -/

namespace Compile

/-- Only sort keys have a direction, and only calls are followed by a window. -/
theorem isHeaded_congruence :
    FullCongruence (fun e _ => e.isHeaded = true) (fun _ => True) fun _ => True where
  constant _ _ := rfl
  group _ := rfl
  binary _ _ := rfl
  not _ := rfl
  isNull _ := rfl
  inList _ _ := rfl
  inLevel _ := rfl
  between _ _ _ := rfl
  call _ _ := rfl
  convert _ _ := rfl
  cases _ _ _ := rfl
  callDistinct _ _ := rfl
  windowed {e _ _ _ _ _ _} hcall _ _ _ := by
    cases e <;> first | rfl | cases hcall

end Compile

/-! ## Values of a graph -/

/-- No number that begins with a sign is negated, as far as `root` reaches: neither a negated number
nor a negative constant. -/
def Graph.SignsApart (g : Graph) (root : NodeId) : Prop :=
  ∀ id n, g.Reach root id → g.node? id = some n →
    ∀ x ∈ n.kind.negated?, Reading.writtenLevel g x ≠ 6

namespace Reading

/-- An expression of a value that is written as its node says. -/
structure Marked (g : Graph) (id : NodeId) (e : Expr) : Prop where
  headed : e.isHeaded = true
  level : (treeOf (fun _ => "") e).level = writtenLevel g id

section Marked

variable {g : Graph} {careful : Prop} {p : Parts} {id x : NodeId} {e : Expr}
  (hp : ∀ x e, p.fragment x = .ok e → Marked g x e)

include hp

theorem operand_beginsWithSign (hlevel : writtenLevel g x ≠ 6) (h : operand g p x = .ok e) :
    e.beginsWithSign = false := by
  have hplaced := operand_written (fun _ => "") h fun e' he' => (hp x e' he').level
  have hheaded : e.isHeaded = true := by
    obtain ⟨e', he', h⟩ := bind_ok h
    obtain ⟨m, _, h⟩ := bind_ok h
    obtain ⟨b, _, h⟩ := bind_ok h
    cases b with
    | true =>
      cases h
      rfl
    | false =>
      obtain rfl := Except.ok.inj h
      exact (hp x e' he').headed
  refine Expr.beginsWithSign_eq hheaded (fun _ => "") ?_
  have hsix := hplaced.sign.not.2 hlevel
  have htight := hplaced.tight
  omega

theorem marked_of_value (hw : g.WellFormed careful) {n : Node} {t : Typed}
    (hn : g.node? id = some n)
    (ht : n.typed? = some t) (h : valueExpr g p id n.kind = .ok e) : Marked g id e where
  headed := isHeaded_congruence.of_value (fun _ _ => trivial) (fun _ _ => trivial)
    (fun _ _ _ _ _ => rfl) (fun o _ _ x hx => (hp o.2 x hx).headed) (fun _ _ _ _ _ => rfl)
    (fun _ _ _ _ _ => trivial) h
  level := by
    rw [writtenLevel_eq hn]
    exact (valueExpr_written _ hw hn ht (fun x e hx => (hp x e hx).level) h).level

end Marked

end Reading

end PlanSql

import PlanSql.Proofs.Rows.Rendering

/-!
# The functions that expressions call

The functions that an expression calls are built-in ones and user functions. User functions go by
the names under which they were registered: a stem and a number, so that no two have one name and
none has that of a built-in function. Registering functions only ever adds names.
-/

namespace PlanSql

namespace Sql

mutual

/-- The names of the functions that an expression calls. What a subquery calls is not counted. -/
def Expr.calls : Expr → List String
  | .column .. | .constant _ => []
  | .group e | .negate e | .not e | .isNull _ e | .inLevel _ e _ | .convert e _ _
  | .descending e => e.calls
  | .callDistinct name e => name :: e.calls
  | .binary _ l r => l.calls ++ r.calls
  | .inList _ e items => e.calls ++ Expr.allCalls items
  | .between e low high => e.calls ++ low.calls ++ high.calls
  | .call name args => name :: Expr.allCalls args
  | .windowed func partition order _ =>
    func.calls ++ Expr.allCalls partition ++ Expr.allCalls order
  | .cases subject branches fallback =>
    Expr.calls? subject ++ Expr.branchCalls branches ++ Expr.calls? fallback

def Expr.allCalls : List Expr → List String
  | [] => []
  | e :: rest => e.calls ++ Expr.allCalls rest

/-- The names of the functions that an expression calls, if there is one. -/
def Expr.calls? : Option Expr → List String
  | none => []
  | some e => e.calls

def Expr.branchCalls : List (Expr × Expr) → List String
  | [] => []
  | (condition, result) :: rest => condition.calls ++ result.calls ++ Expr.branchCalls rest

end

-- The equations of the definitions above are derived once, for all the proofs below.
attribute [local simp] Expr.calls

end Sql

namespace Compile

open PlanSql.Sql

/-! ## Names of user functions -/

namespace FunctionNames

variable {name : String}

/-- `F'` has the names of `F` and those of functions registered since. -/
inductive Grows (stem : String) (F : FunctionNames) : FunctionNames → Prop
  | refl : Grows stem F F
  | register {F' : FunctionNames} (function : String) : Grows stem F F' →
    Grows stem F (F'.register function stem).2

/-- The first name is a stem with the number one, and so on. -/
def Numbered (F : FunctionNames) : Prop :=
  ∀ i entry, F.entries[i]? = some entry → ∃ stem, entry.2 = stem ++ "_" ++ Nat.repr (i + 1)

/-- The name is that of a registered function. -/
def Gives (F : FunctionNames) (name : String) : Prop := ∃ function, F.find? function = some name

variable {stem : String} {F F' F'' : FunctionNames}

theorem Grows.trans (h : Grows stem F F') (h' : Grows stem F' F'') : Grows stem F F'' := by
  induction h' with
  | refl => exact h
  | register function _ ih => exact .register function ih

theorem Grows.keeps (h : Grows stem F F') : Rows.Keeps F F' := by
  induction h with
  | refl => exact .refl F
  | register function _ ih => exact ih.trans (.register _ function stem)

theorem Grows.gives (h : Grows stem F F') (hn : F.Gives name) : F'.Gives name := by
  obtain ⟨function, hf⟩ := hn
  exact ⟨function, h.keeps function name hf⟩

/-- Names are only added, and only at the end. -/
theorem Grows.isPrefix (h : Grows stem F F') : F.entries <+: F'.entries := by
  induction h with
  | refl => exact List.prefix_refl _
  | @register F' function _ ih =>
    refine ih.trans ?_
    rw [FunctionNames.register]
    split
    · exact List.prefix_refl _
    · exact List.prefix_append _ _

theorem numbered_empty : Numbered .empty := by
  intro i entry h
  cases h

theorem Numbered.register (h : Numbered F) (function stem : String) :
    Numbered (F.register function stem).2 := by
  rw [FunctionNames.register]
  split
  · exact h
  · intro i entry hentry
    rw [List.getElem?_append] at hentry
    split at hentry
    · exact h i entry hentry
    · next hlt =>
      have hi : i = F.entries.length := by
        have hlt' := (List.getElem?_eq_some_iff.1 hentry).1
        simp only [List.length_singleton] at hlt'
        omega
      subst hi
      rw [Nat.sub_self] at hentry
      cases hentry
      exact ⟨stem, rfl⟩

theorem Numbered.grows (h : Numbered F) (hg : Grows stem F F') : Numbered F' := by
  induction hg with
  | refl => exact h
  | register function _ ih => exact ih.register function stem

theorem number_inj {stem stem' : String} {m n : Nat}
    (h : stem ++ "_" ++ Nat.repr m = stem' ++ "_" ++ Nat.repr n) : m = n := by
  -- the digits at the end are what comes before the last underscore, from behind
  have hdigits : ∀ (stem : String) (k : Nat),
      (stem ++ "_" ++ Nat.repr k).toList.reverse.takeWhile (· != '_') =
      (Nat.toDigits 10 k).reverse := by
    intro stem k
    have hpos : ∀ c ∈ (Nat.toDigits 10 k).reverse, (c != '_') = true := by
      intro c hc
      rw [bne_iff_ne]
      rintro rfl
      cases Nat.isDigit_of_mem_toDigits (by decide) (by decide) (List.mem_reverse.1 hc)
    simp [List.takeWhile_append_of_pos hpos]
  have hsame : Nat.toDigits 10 m = Nat.toDigits 10 n := by
    rw [← List.reverse_inj, ← hdigits stem, ← hdigits stem', h]
  rw [← Nat.ofDigitChars_ten_toDigits (n := m), hsame, Nat.ofDigitChars_ten_toDigits]

theorem exists_entry {function : String} (h : F.find? function = some name) :
    ∃ i : Nat, F.entries[i]? = some (function, name) := by
  obtain ⟨l₁, l₂, hentries, -⟩ := List.lookup_eq_some_iff.1 h
  refine ⟨l₁.length, ?_⟩
  rw [hentries]
  simp

/-- No two functions have one name. -/
theorem Numbered.unique (h : Numbered F) {f f' : String} (hf : F.find? f = some name)
    (hf' : F.find? f' = some name) : f = f' := by
  obtain ⟨i, hi⟩ := exists_entry hf
  obtain ⟨j, hj⟩ := exists_entry hf'
  obtain ⟨stem, hstem⟩ := h i _ hi
  obtain ⟨stem', hstem'⟩ := h j _ hj
  have hnumbers := number_inj (hstem.symm.trans hstem')
  obtain rfl : i = j := by omega
  rw [hi] at hj
  exact (Prod.mk.inj (Option.some.inj hj)).1

/-- The name of a user function is never that of a built-in function. -/
theorem Numbered.not_isBuiltIn (h : Numbered F) (hn : F.Gives name) :
    isBuiltIn name = false := by
  obtain ⟨function, hf⟩ := hn
  obtain ⟨i, hi⟩ := exists_entry hf
  obtain ⟨stem, hname⟩ : ∃ stem, name = stem ++ "_" ++ Nat.repr (i + 1) := h i _ hi
  have hdigits : Nat.toDigits 10 (i + 1) ≠ [] := Nat.toDigits_ne_nil
  have hlast := List.getLast_mem hdigits
  have hdigit : ((Nat.toDigits 10 (i + 1)).getLast hdigits).isDigit = true :=
    Nat.isDigit_of_mem_toDigits (by decide) (by decide) hlast
  rw [← Bool.not_eq_true, hname]
  intro hbuiltIn
  have hchar := (capital_of_isBuiltIn hbuiltIn).2 _ (by
    rw [String.toList_append, Nat.toList_repr]
    exact List.mem_append_right _ hlast)
  rw [Bool.or_eq_true, beq_iff_eq] at hchar
  rcases hchar with hupper | hunder
  · rw [isUpper_of_isDigit hdigit] at hupper
    cases hupper
  · rw [hunder] at hdigit
    cases hdigit

end FunctionNames

/-! ## Calls -/

section Calls

variable {P : String → Prop} {es es' : List Expr}

def Calls (P : String → Prop) (e : Expr) : Prop := ∀ name ∈ e.calls, P name

theorem calls_allCalls (h : List.Forall₂ (fun e _ => Calls P e) es es') :
    ∀ name ∈ Expr.allCalls es, P name := by
  induction h with
  | nil => simp [Expr.allCalls]
  | cons he _ ih => exact List.forall_mem_append.2 ⟨he, ih⟩

theorem calls_calls? {e e' : Option Expr} (h : Option.Rel (fun e _ => Calls P e) e e') :
    ∀ name ∈ Expr.calls? e, P name := by
  cases h with
  | none => simp [Expr.calls?]
  | some he => exact he

theorem calls_branchCalls {bs bs' : List (Expr × Expr)}
    (h : List.Forall₂ (fun b _ => Calls P b.1 ∧ Calls P b.2) bs bs') :
    ∀ name ∈ Expr.branchCalls bs, P name := by
  induction h with
  | nil => simp [Expr.branchCalls]
  | cons hb _ ih => exact List.forall_mem_append.2 ⟨List.forall_mem_append.2 hb, ih⟩

theorem calls_keys (h : List.Forall₂ (KeyRel fun e _ => Calls P e) es es') :
    ∀ name ∈ Expr.allCalls es, P name := by
  refine calls_allCalls (h.imp fun e e' hkey => ?_)
  cases hkey with
  | ascending he | descending he => exact he

/-- An expression calls what its parts call, and perhaps one function more. -/
theorem calls_congruence (P : String → Prop) :
    FullCongruence (fun e _ => Calls P e) P fun _ => True where
  constant v _ := by simp [Calls, Expr.calls]
  group h := h
  binary h h' := List.forall_mem_append.2 ⟨h, h'⟩
  not h := h
  isNull h := h
  inList h hes := List.forall_mem_append.2 ⟨h, calls_allCalls hes⟩
  inLevel h := h
  between h hl hh := List.forall_mem_append.2 ⟨List.forall_mem_append.2 ⟨h, hl⟩, hh⟩
  call hP hes := List.forall_mem_cons.2 ⟨hP, calls_allCalls hes⟩
  convert _ h := h
  cases hs hbs hf := List.forall_mem_append.2
    ⟨List.forall_mem_append.2 ⟨calls_calls? hs, calls_branchCalls hbs⟩, calls_calls? hf⟩
  callDistinct hP h := List.forall_mem_cons.2 ⟨hP, h⟩
  windowed _ h hps hos := List.forall_mem_append.2
    ⟨List.forall_mem_append.2 ⟨h, calls_allCalls hps⟩, calls_keys hos⟩

/-- The expression of a value calls what the expressions of its operands call, and built-in or user
functions in `P`. -/
theorem valueExpr_calls {g : Graph} {p : Parts} {id : NodeId} {kind : Kind} {e : Expr}
    (he : valueExpr g p id kind = .ok e) (hwords : ∀ name, isBuiltIn name = true → P name)
    (hfrag : ∀ x e, p.fragment x = .ok e → Calls P e)
    (hfun : ∀ input function f, kind = .userMap input function → g.function function = .ok f →
      P (p.function f.name)) : Calls P e :=
  (calls_congruence P).of_value hwords (fun _ _ => trivial) (fun _ _ _ _ h => h)
    (fun o _ _ => hfrag o.2) (fun _ _ _ _ _ => by simp [Calls, Expr.calls]) hfun he

end Calls

end Compile

end PlanSql

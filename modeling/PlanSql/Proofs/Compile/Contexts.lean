import PlanSql.Proofs.Statements.Labels
import PlanSql.Proofs.Values.Calls

/-!
# Names and fragments over whole runs

A context is changed by calls, one after the other: for the alias of a collection, for an alias of
its own, for a fragment to be stored, for the name of a user function, and for a new statement.
Between two new statements aliases are numbered from one on and no two that were given for different
things are the same; a fragment stays as it was stored. The names of user functions stay for good.
-/

namespace PlanSql.Compile

open PlanSql.Sql

theorem aliasText_inj {l l' : Alias} (h : l.text = l'.text) : l = l' := by
  rw [Alias.text, Alias.text, String.append_right_inj] at h
  rw [← Nat.ofDigitChars_ten_toDigits (n := l), ← Nat.toList_repr, h, Nat.toList_repr,
    Nat.ofDigitChars_ten_toDigits]

/-! ## Aliases -/

namespace Aliases

variable {a a' a'' : Aliases}

/-- Labels are numbers that were counted, and no two collections have one. -/
structure Distinct (a : Aliases) : Prop where
  counted : ∀ {x} {l : Nat}, a.find? x = some l → l ≤ a.count
  unique : ∀ {x y} {l : Nat}, a.find? x = some l → a.find? y = some l → x = y

/-- What was given stays, and what is new comes after it. -/
structure Gains (a a' : Aliases) : Prop where
  keeps : ∀ {x l}, a.find? x = some l → a'.find? x = some l
  count : a.count ≤ a'.count
  new : ∀ {x} {l : Nat}, a'.find? x = some l → a.find? x = some l ∨ a.count < l
  distinct : a.Distinct → a'.Distinct

theorem Gains.refl (a : Aliases) : Gains a a := ⟨fun h => h, Nat.le_refl _, .inl, fun h => h⟩

theorem Gains.trans (h : Gains a a') (h' : Gains a' a'') : Gains a a'' where
  keeps hx := h'.keeps (h.keeps hx)
  count := Nat.le_trans h.count h'.count
  new hx := (h'.new hx).elim h.new fun hlt => .inr (Nat.lt_of_le_of_lt h.count hlt)
  distinct ha := h'.distinct (h.distinct ha)

theorem Gains.fresh (a : Aliases) : Gains a a.fresh.2 where
  keeps hx := hx
  count := Nat.le_succ _
  new := .inl
  distinct h := ⟨fun hx => Nat.le_succ_of_le (h.counted hx), h.unique⟩

theorem Gains.register (a : Aliases) (id : NodeId) : Gains a (a.register id).2 := by
  rcases register_cases (Prod.eta (a.register id)).symm with ⟨-, heq⟩ | ⟨heq, hlabel⟩
  · rw [heq]
    exact .refl a
  · have hcases : ∀ {x} {l : Nat}, (a.register id).2.find? x = some l →
        a.find? x = some l ∨ x = id ∧ l = a.count + 1 := by
      rw [heq, hlabel]
      exact a.find?_push id
    have hcount : (a.register id).2.count = a.count + 1 := by rw [heq, hlabel]
    refine ⟨(register_grows (Prod.eta (a.register id)).symm).1, by omega,
      fun hx => (hcases hx).imp_right fun h => by omega, fun h =>
        ⟨fun hx => ?_, fun {x y l} hx hy => ?_⟩⟩
    · rcases hcases hx with hx | ⟨-, rfl⟩
      · exact hcount ▸ Nat.le_succ_of_le (h.counted hx)
      · exact Nat.le_of_eq hcount.symm
    · have hlt : ∀ {z}, a.find? z = some l → l ≠ a.count + 1 := fun hz => by
        have := h.counted hz
        omega
      rcases hcases hx with hx | ⟨rfl, rfl⟩
      · rcases hcases hy with hy | ⟨-, rfl⟩
        · exact h.unique hx hy
        · exact absurd rfl (hlt hx)
      · rcases hcases hy with hy | ⟨rfl, -⟩
        · exact absurd rfl (hlt hy)
        · rfl

end Aliases

/-! ## Calls -/

namespace Context

/-- A call on a context. -/
inductive Call (ε : Type) where
  | register (id : NodeId)
  | fresh
  | store (id : NodeId) (e : ε)
  | name (function stem : String)
  | reset

/-- What a call answers. -/
inductive Answer where
  | label (label : Alias)
  | name (name : String)
  | done
  | refused (error : Error)

section Calls

variable {ε : Type} (text : ε → String)

def call (c : Context ε) : Call ε → Answer × Context ε
  | .register id =>
    (.label (c.aliases.register id).1, { c with aliases := (c.aliases.register id).2 })
  | .fresh => (.label c.aliases.fresh.1, { c with aliases := c.aliases.fresh.2 })
  | .store id e =>
    match c.addFragment text id e with
    | .ok c' => (.done, c')
    | .error error => (.refused error, c)
  | .name function stem =>
    (.name (c.functions.register function stem).1,
      { c with functions := (c.functions.register function stem).2 })
  | .reset => (.done, c.reset)

/-- The context after some calls. -/
def after (c : Context ε) (calls : List (Call ε)) : Context ε :=
  calls.foldl (fun c x => (c.call text x).2) c

/-- The aliases that the calls give out for the first time. -/
def news (c : Context ε) : List (Call ε) → List Alias
  | [] => []
  | x :: rest =>
    let later := news (c.call text x).2 rest
    match x with
    | .register id =>
      if (c.aliases.find? id).isSome then later else (c.aliases.register id).1 :: later
    | .fresh => c.aliases.fresh.1 :: later
    | _ => later

/-- What stays until a new statement begins. -/
structure Keeps (c c' : Context ε) : Prop where
  aliases : c.aliases.Gains c'.aliases
  fragments : ∀ {id e}, c.fragments.lookup id = some e → c'.fragments.lookup id = some e

variable {text} {c : Context ε} {x y : Call ε} {calls : List (Call ε)}

variable (text) in
theorem call_store (c : Context ε) (id : NodeId) (e : ε) :
    (c.call text (.store id e)).2 = c ∨ c.fragments.lookup id = none ∧
      (c.call text (.store id e)).2 = { c with fragments := (id, e) :: c.fragments } := by
  cases h : c.addFragment text id e with
  | error error => exact .inl (by rw [call, h])
  | ok c' =>
    rcases addFragment_eq_ok h with ⟨hnone, rfl⟩ | ⟨-, rfl⟩
    · exact .inr ⟨hnone, by rw [call, h]⟩
    · exact .inl (by rw [call, h])

theorem keeps_call (hx : x ≠ .reset) : c.Keeps (c.call text x).2 := by
  cases x with
  | register id => exact ⟨.register _ id, fun h => h⟩
  | fresh => exact ⟨.fresh _, fun h => h⟩
  | store id e =>
    rcases c.call_store text id e with heq | ⟨hnone, heq⟩
    · rw [heq]
      exact ⟨.refl _, fun h => h⟩
    · rw [heq]
      exact ⟨.refl _, fun h => lookup_cons_of_none hnone h h⟩
  | name function stem => exact ⟨.refl _, fun h => h⟩
  | reset => exact absurd rfl hx

variable (text) in
theorem keeps_after (hcalls : .reset ∉ calls) (c : Context ε) : c.Keeps (c.after text calls) := by
  induction calls generalizing c with
  | nil => exact ⟨.refl _, fun h => h⟩
  | cons x rest ih =>
    rw [List.mem_cons, not_or] at hcalls
    have hfirst : c.Keeps (c.call text x).2 := keeps_call (Ne.symm hcalls.1)
    have hrest := ih hcalls.2 (c.call text x).2
    exact ⟨hfirst.aliases.trans hrest.aliases, fun h => hrest.fragments (hfirst.fragments h)⟩

theorem news_eq_range (hcalls : .reset ∉ calls) (c : Context ε) :
    c.news text calls = List.range' (c.aliases.count + 1) (c.news text calls).length := by
  induction calls generalizing c with
  | nil => rfl
  | cons x rest ih =>
    rw [List.mem_cons, not_or] at hcalls
    have hrest := ih hcalls.2 (c.call text x).2
    cases x with
    | register id =>
      rw [news]
      cases h : c.aliases.find? id with
      | some label | none => simpa [call, Aliases.register, h, List.range'_succ] using hrest
    | fresh => simpa [news, call, Aliases.fresh, List.range'_succ] using hrest
    | store id e =>
      rcases c.call_store text id e with heq | ⟨-, heq⟩
      · rw [heq] at hrest
        simpa [news, heq] using hrest
      · rw [heq] at hrest
        simpa [news, heq] using hrest
    | name function stem => exact hrest
    | reset => exact absurd rfl hcalls.1

/-- A call that answers with an alias asks for that of a collection or for one of its own. -/
theorem call_eq_label {l : Nat} (h : (c.call text x).1 = .label l) :
    (∃ id, x = .register id ∧ l = (c.aliases.register id).1) ∨ x = .fresh ∧
      l = c.aliases.count + 1 := by
  cases x with
  | register id =>
    cases h
    exact .inl ⟨id, rfl, rfl⟩
  | fresh =>
    cases h
    exact .inr ⟨rfl, rfl⟩
  | store id e => cases hs : c.addFragment text id e <;> simp [call, hs] at h
  | name | reset => cases h

/-- Two calls give the same alias only if both ask for that of one collection. -/
theorem label_eq_iff {l l' : Nat} (h : c.aliases.Distinct) (hcalls : .reset ∉ x :: calls)
    (hx : (c.call text x).1 = .label l)
    (hy : ((c.after text (x :: calls)).call text y).1 = .label l') :
    l = l' ↔ ∃ id, x = .register id ∧ y = .register id := by
  have hd := (keeps_after text hcalls c).aliases.distinct h
  rw [List.mem_cons, not_or] at hcalls
  have hthen : (c.call text x).2.aliases.Gains (c.after text (x :: calls)).aliases :=
    (keeps_after text hcalls.2 _).aliases
  generalize c.after text (x :: calls) = c' at hthen hd hy
  rcases call_eq_label hx with ⟨id, rfl, rfl⟩ | ⟨rfl, rfl⟩
  · have hfound := hthen.keeps (c.aliases.find?_register id)
    rcases call_eq_label hy with ⟨id', rfl, rfl⟩ | ⟨rfl, rfl⟩
    · have hgains := Aliases.Gains.register c'.aliases id'
      have hfound' := c'.aliases.find?_register id'
      constructor
      · intro heq
        rw [← heq] at hfound'
        exact ⟨id, rfl, by rw [(hgains.distinct hd).unique (hgains.keeps hfound) hfound']⟩
      · rintro ⟨_, heq, heq'⟩
        obtain rfl := Call.register.inj heq
        obtain rfl := Call.register.inj heq'
        exact Option.some.inj ((hgains.keeps hfound).symm.trans hfound')
    · have hle := hd.counted hfound
      simp only [reduceCtorEq, and_false, exists_const, iff_false]
      omega
  · simp only [reduceCtorEq, false_and, exists_const, iff_false]
    have hcount : c.aliases.count + 1 ≤ c'.aliases.count := hthen.count
    rcases call_eq_label hy with ⟨id', rfl, rfl⟩ | ⟨rfl, rfl⟩
    · -- the label was there before, or comes after every label up to here
      rcases (hthen.trans (.register c'.aliases id')).new
        (c'.aliases.find?_register id') with hl | hl
      · have hle := h.counted hl
        omega
      · exact Nat.ne_of_lt hl
    · omega

/-! ## Names of user functions -/

variable (text) in
theorem functions_after (c : Context ε) (calls : List (Call ε)) :
    Rows.Keeps c.functions (c.after text calls).functions ∧
      (c.functions.Numbered → (c.after text calls).functions.Numbered) := by
  induction calls generalizing c with
  | nil => exact ⟨.refl _, fun h => h⟩
  | cons x rest ih =>
    obtain ⟨hkeeps, hnumbered⟩ := ih (c.call text x).2
    cases x with
    | name function stem =>
      exact ⟨(Rows.Keeps.register _ function stem).trans hkeeps,
        fun h => hnumbered (h.register function stem)⟩
    | store id e =>
      have hsame : (c.call text (.store id e)).2.functions = c.functions := by
        rcases c.call_store text id e with h | ⟨-, h⟩ <;> rw [h]
      rw [hsame] at hkeeps hnumbered
      exact ⟨hkeeps, hnumbered⟩
    | register | fresh | reset => exact ⟨hkeeps, hnumbered⟩

/-- Two calls give the same name only if they ask for that of one function. -/
theorem name_eq_iff {f f' stem stem' : String} (h : c.functions.Numbered) (calls : List (Call ε)) :
    (c.functions.register f stem).1 =
      (((c.call text (.name f stem)).2.after text calls).functions.register f' stem').1 ↔
        f = f' := by
  obtain ⟨hkeeps, hnumbered⟩ := functions_after text (c.call text (.name f stem)).2 calls
  generalize (c.call text (.name f stem)).2.after text calls = c' at hkeeps hnumbered ⊢
  have hfound := Rows.Keeps.register _ f' stem' f _ (hkeeps f _ (c.functions.find?_register f stem))
  have hfound' := c'.functions.find?_register f' stem'
  constructor
  · intro heq
    rw [heq] at hfound
    exact ((hnumbered (h.register f stem)).register f' stem').unique hfound hfound'
  · rintro rfl
    exact Option.some.inj (hfound.symm.trans hfound')

theorem after_append (c : Context ε) (calls calls' : List (Call ε)) :
    c.after text (calls ++ calls') = (c.after text calls).after text calls' := List.foldl_append

variable (text)

/-- **A context keeps what it has given.** Since a new statement was begun, after any calls before
it: the aliases that are new are `t1`, `t2` and so on; two calls are answered with the same alias
exactly if both ask for that of one collection; what is stored for a node without a fragment is its
fragment; and a stored fragment stays, while storing one with another text is refused and changes
nothing. Over all calls, two that ask for the names of functions are answered with the same name
exactly if they ask for one function, whatever the stems are. -/
theorem calls_keep (before : List (Call ε)) :
    let c := ((ofFunctions .empty).after text before).reset
    (∀ calls, .reset ∉ calls →
      (c.news text calls).map Alias.text =
        (List.range' 1 (c.news text calls).length).map fun k => "t" ++ Nat.repr k) ∧
    (∀ calls x calls' y l l', .reset ∉ calls ++ x :: calls' →
      ((c.after text calls).call text x).1 = .label l →
      ((c.after text (calls ++ x :: calls')).call text y).1 = .label l' →
      (l.text = l'.text ↔ ∃ id, x = .register id ∧ y = .register id)) ∧
    (∀ calls id e, (c.after text calls).hasFragment id = false →
      ((c.after text calls).call text (.store id e)).1 = .done ∧
      (c.after text (calls ++ [.store id e])).fragment id = .ok e) ∧
    (∀ calls calls' id e, .reset ∉ calls' → (c.after text calls).fragment id = .ok e →
      (c.after text (calls ++ calls')).fragment id = .ok e ∧
      ∀ e', text e ≠ text e' → (c.after text (calls ++ calls')).call text (.store id e') =
        (.refused (.inconsistent (.fragmentConflict id (text e) (text e'))),
          c.after text (calls ++ calls'))) ∧
    ∀ calls f stem calls' f' stem' name name',
      ((c.after text calls).call text (.name f stem)).1 = .name name →
      ((c.after text (calls ++ .name f stem :: calls')).call text (.name f' stem')).1 =
      .name name' → (name = name' ↔ f = f') := by
  intro c
  have hdistinct : c.aliases.Distinct := ⟨fun h => (by cases h), fun h _ => (by cases h)⟩
  refine ⟨fun calls hcalls => ?_, fun calls x calls' y l l' hcalls hx hy => ?_,
    fun calls id e hnone => ?_, fun calls calls' id e hcalls' he => ?_, ?_⟩
  · exact congrArg (List.map Alias.text) (news_eq_range hcalls c)
  · rw [List.mem_append, not_or] at hcalls
    rw [after_append] at hy
    rw [← label_eq_iff ((keeps_after text hcalls.1 c).aliases.distinct hdistinct) hcalls.2 hx hy]
    exact ⟨aliasText_inj, congrArg Alias.text⟩
  · rw [after_append]
    generalize c.after text calls = c at hnone ⊢
    have hnone : c.fragments.lookup id = none := by simpa [hasFragment] using hnone
    have hcall : c.call text (.store id e) =
        (.done, { c with fragments := (id, e) :: c.fragments }) := by
      rw [call, addFragment, hnone]
    refine ⟨congrArg Prod.fst hcall, fragment_eq_ok_iff.2 ?_⟩
    rw [after, List.foldl_cons, List.foldl_nil, hcall]
    exact List.lookup_cons_self
  · rw [after_append]
    generalize c.after text calls = c at he ⊢
    rw [fragment_eq_ok_iff] at he
    have hkept := (keeps_after text hcalls' c).fragments he
    refine ⟨fragment_eq_ok_iff.2 hkept, fun e' hne => ?_⟩
    rw [call, addFragment, hkept]
    simp only [if_neg hne]
  · intro calls f stem calls' f' stem' name name' hx hy
    have hnumbered := (functions_after text (ofFunctions .empty) before).2
      FunctionNames.numbered_empty
    obtain rfl := Answer.name.inj hx
    rw [after_append] at hy
    obtain rfl := Answer.name.inj hy
    exact name_eq_iff ((functions_after text c calls).2 hnumbered) calls'

end Calls

end Context

end PlanSql.Compile

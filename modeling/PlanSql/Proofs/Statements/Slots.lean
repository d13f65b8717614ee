import Mathlib.Data.List.Perm.Basic
import PlanSql.Proofs.Outcome

/-!
# Clauses as a record that is written once

The clauses of a level are filled by calls, one after the other, and rendered by calls between them.
A slot that is filled stays as it is until the level is rendered, so the order in which slots are
filled does not matter for what is rendered.
-/

namespace PlanSql.Sql.Clauses

variable {ε φ : Type}

/-- A slot to be filled, with what it is to be filled with. -/
inductive Put (ε φ : Type) where
  | select (items : List (Item ε)) (distinct : Bool)
  | source (source : φ)
  | on (condition : ε)
  | filter (condition : ε)
  | groupBy (keys : List ε)
  | having (condition : ε)
  | orderBy (keys : List ε)
  | limit (n : Nat)

/-- A call on the clauses of a level. -/
inductive Call (ε φ : Type) where
  | put (p : Put ε φ)
  | render (layout : Layout) (sortLimit : Nat)

section Calls

variable (text : ε → String) (sourceText : φ → String)

def put (c : Clauses ε φ) : Put ε φ → Except Error (Clauses ε φ)
  | .select items distinct => c.setSelect items distinct
  | .source source => c.setSource source
  | .on condition => c.setOn condition
  | .filter condition => c.setFilter condition
  | .groupBy keys => c.setGroupBy keys
  | .having condition => c.setHaving text condition
  | .orderBy keys => c.setOrderBy keys
  | .limit n => c.setLimit n

def call (c : Clauses ε φ) : Call ε φ → Except Error (Option String) × Clauses ε φ
  | .put p =>
    match c.put text p with
    | .ok c' => (.ok none, c')
    | .error e => (.error e, c)
  | .render layout sortLimit =>
    let (level, c') := c.take sortLimit
    (level.map fun l => some ((l.map text sourceText).text layout), c')

/-- The clauses after some calls. -/
def after (c : Clauses ε φ) (calls : List (Call ε φ)) : Clauses ε φ :=
  calls.foldl (fun c x => (c.call text sourceText x).2) c

/-- The clauses after some slots have been filled, all of them with success. -/
def puts (c : Clauses ε φ) : List (Put ε φ) → Except Error (Clauses ε φ)
  | [] => .ok c
  | p :: rest => c.put text p >>= fun c' => c'.puts rest

/-- Those of the calls to fill a slot that succeed. -/
def done (c : Clauses ε φ) : List (Put ε φ) → List (Put ε φ)
  | [] => []
  | p :: rest =>
    match c.put text p with
    | .ok c' => p :: c'.done rest
    | .error _ => c.done rest

/-- Whether a slot is already filled; for the condition on groups, with another text. -/
def taken (c : Clauses ε φ) : Put ε φ → Bool
  | .select .. => c.select.isSome
  | .source _ => c.source.isSome
  | .on _ => c.on.isSome
  | .filter _ => c.filter.isSome
  | .groupBy _ => c.groupBy.isSome
  | .having condition => c.having.any fun present => decide (text present ≠ text condition)
  | .orderBy _ => c.orderBy.isSome
  | .limit _ => c.limit.isSome

/-- Fills a slot without a check; the first condition on groups stays. -/
def write (c : Clauses ε φ) : Put ε φ → Clauses ε φ
  | .select items distinct => { c with select := some items, distinct := distinct }
  | .source source => { c with source := some source }
  | .on condition => { c with on := some condition }
  | .filter condition => { c with filter := some condition }
  | .groupBy keys => { c with groupBy := some keys }
  | .having condition => { c with having := c.having.or (some condition) }
  | .orderBy keys => { c with orderBy := some keys }
  | .limit n => { c with limit := some n }

/-- The calls with which the operators fill their clauses. -/
def asked (items : List (Item ε)) (distinct : Bool) (condition : ε) (keys : List ε) (n : Nat) :
    Clause → List (Put ε φ)
  | .select => [.select items distinct]
  | .filter => [.filter condition]
  | .groupBy => [.select items distinct, .groupBy keys]
  | .orderBy => [.orderBy keys]
  | .limit => [.limit n]

/-- Clauses that are the same but for the condition on groups, of which only the text is. -/
def Same (c c' : Clauses ε φ) : Prop :=
  c' = { c with having := c'.having } ∧ c'.having.map text = c.having.map text

variable {text sourceText} {c c' d : Clauses ε φ} {p q : Put ε φ} {ps qs : List (Put ε φ)}

theorem ite_error_eq_ok_iff {α : Type} {b : Bool} {e : Error} {x y : α} :
    (if b then .error e else .ok x) = Except.ok y ↔ b = false ∧ x = y := by
  cases b <;> simp

/-- A slot is filled exactly if it is not taken. -/
theorem put_eq_ok_iff : c.put text p = .ok c' ↔ c.taken text p = false ∧ c.write p = c' := by
  cases p with
  | having condition =>
    cases hc : c.having with
    | none => simp [put, setHaving, taken, write, hc]
    | some present =>
      by_cases htext : text present = text condition
      · have heq : { c with having := some present } = c := by rw [← hc]
        simp [put, setHaving, taken, write, hc, htext, heq]
      · simp [put, setHaving, taken, write, hc, htext]
  | select | source | on | filter | groupBy | orderBy | limit => exact ite_error_eq_ok_iff

theorem Same.refl (c : Clauses ε φ) : c.Same text c := ⟨rfl, rfl⟩

theorem Same.trans (h : c.Same text c') (h' : c'.Same text d) : c.Same text d :=
  ⟨h'.1.trans (by rw [h.1]), h'.2.trans h.2⟩

theorem Same.taken_eq (h : c.Same text c') (p : Put ε φ) : c'.taken text p = c.taken text p := by
  cases p with
  | having condition =>
    have heq := congrArg (Option.any fun s => decide (s ≠ text condition)) h.2
    simpa [taken, Option.any_map, Function.comp_def] using heq
  | _ => rw [h.1]; rfl

theorem Same.write (h : c.Same text c') (p : Put ε φ) : (c.write p).Same text (c'.write p) := by
  obtain ⟨heq, htext⟩ := h
  constructor
  · cases p <;> (rw [heq]; rfl)
  · cases p with
    | having condition => cases hc : c.having <;> cases hc' : c'.having <;> simp_all [Clauses.write]
    | _ => exact htext

/-- Two slots may be filled in either order. -/
theorem write_comm (hp : c.taken text p = false) (hq : (c.write p).taken text q = false) :
    c.taken text q = false ∧ (c.write q).taken text p = false ∧
      ((c.write p).write q).Same text ((c.write q).write p) := by
  cases p with
  | having condition =>
    cases hc : c.having <;> cases q <;> simp_all [taken, write, Same]
  | _ => cases q <;> simp_all [taken, write, Same]

theorem put_same (hp : c.put text p = .ok d) (hc : c.Same text c') :
    c'.put text p = .ok (c'.write p) ∧ d.Same text (c'.write p) := by
  obtain ⟨hfree, rfl⟩ := put_eq_ok_iff.1 hp
  exact ⟨put_eq_ok_iff.2 ⟨(hc.taken_eq p).trans hfree, rfl⟩, hc.write p⟩

theorem puts_same (hps : c.puts text ps = .ok d) (hc : c.Same text c') :
    ∃ d', c'.puts text ps = .ok d' ∧ d.Same text d' := by
  induction ps generalizing c c' with
  | nil =>
    obtain rfl := Except.ok.inj hps
    exact ⟨c', rfl, hc⟩
  | cons p rest ih =>
    obtain ⟨c₁, hp, hrest⟩ := bind_ok hps
    obtain ⟨hp', hc₁⟩ := put_same hp hc
    rw [puts, hp']
    exact ih hrest hc₁

/-- Slots may be filled in any order. -/
theorem puts_perm (h : ps.Perm qs) (hps : c.puts text ps = .ok d) (hc : c.Same text c') :
    ∃ d', c'.puts text qs = .ok d' ∧ d.Same text d' := by
  induction h generalizing c c' d with
  | nil =>
    obtain rfl := Except.ok.inj hps
    exact ⟨c', rfl, hc⟩
  | cons p _ ih =>
    obtain ⟨c₁, hp, hrest⟩ := bind_ok hps
    obtain ⟨hp', hc₁⟩ := put_same hp hc
    rw [puts, hp']
    exact ih hrest hc₁
  | swap q p rest =>
    obtain ⟨c₁, hp, hrest⟩ := bind_ok hps
    obtain ⟨c₂, hq, hrest⟩ := bind_ok hrest
    obtain ⟨hfree, rfl⟩ := put_eq_ok_iff.1 hp
    obtain ⟨hfree', rfl⟩ := put_eq_ok_iff.1 hq
    obtain ⟨hq', hp', hsame⟩ := write_comm hfree hfree'
    obtain ⟨hq₁, hc₁⟩ := put_same (put_eq_ok_iff.2 ⟨hq', rfl⟩) hc
    obtain ⟨hp₁, hc₂⟩ := put_same (put_eq_ok_iff.2 ⟨hp', rfl⟩) hc₁
    rw [puts, hq₁]
    show ∃ d', puts text _ (_ :: _) = .ok d' ∧ _
    rw [puts, hp₁]
    exact puts_same hrest (hsame.trans hc₂)
  | trans _ _ ih ih' =>
    obtain ⟨d₁, hd₁, hsame⟩ := ih hps hc
    obtain ⟨d₂, hd₂, hsame'⟩ := ih' hd₁ (.refl c')
    exact ⟨d₂, hd₂, hsame.trans hsame'⟩

theorem puts_done (c : Clauses ε φ) (ps : List (Put ε φ)) :
    c.puts text (c.done text ps) = .ok (c.after text sourceText (ps.map .put)) := by
  induction ps generalizing c with
  | nil => rfl
  | cons p rest ih =>
    rw [List.map_cons, after, List.foldl_cons, done, call]
    cases h : c.put text p with
    | ok c' =>
      simp only [puts, h]
      exact ih c'
    | error e => exact ih c

theorem after_of_puts (h : c.puts text ps = .ok d) : c.after text sourceText (ps.map .put) = d := by
  induction ps generalizing c with
  | nil => exact Except.ok.inj h
  | cons p rest ih =>
    obtain ⟨c₁, hp, hrest⟩ := bind_ok h
    rw [← ih hrest, List.map_cons, after, List.foldl_cons, call, hp]
    rfl

/-- What is rendered depends only on what the slots hold. -/
theorem Same.render (h : c.Same text c') (layout : Layout) (sortLimit : Nat) :
    (c'.call text sourceText (.render layout sortLimit)).1 =
      (c.call text sourceText (.render layout sortLimit)).1 := by
  obtain ⟨heq, htext⟩ := h
  rw [heq]
  cases hs : c.source with
  | none => simp [call, take, close, hs, Except.map]
  | some source => simp [call, take, close, hs, Except.map, Level.map, htext]

variable (text sourceText)

/-- **Slots are written once.** Whatever has been called before: a call to fill a slot fails exactly
if the slot is taken, and then changes nothing, and else fills that slot. Rendering empties all
slots and gives a text if the level says what it selects from. After that, those calls of any list
that succeed do so in every order, and in every order the same is rendered. If filling a clause
makes no conflict, the calls that the operators make for it succeed. -/
theorem slots_written_once (calls : List (Call ε φ)) :
    let c := (empty : Clauses ε φ).after text sourceText calls
    (∀ p, (c.taken text p = true → ∃ e, c.call text sourceText (.put p) = (.error e, c)) ∧
      (c.taken text p = false → c.call text sourceText (.put p) = (.ok none, c.write p))) ∧
    (∀ layout sortLimit, (c.call text sourceText (.render layout sortLimit)).2 = empty ∧
      (c.source.isSome → ∃ s, (c.call text sourceText (.render layout sortLimit)).1 =
        .ok (some s))) ∧
    (∀ layout sortLimit ps qs layout' sortLimit',
      let c₀ := (c.call text sourceText (.render layout sortLimit)).2
      (c₀.done text ps).Perm qs → (∃ d, c₀.puts text qs = .ok d) ∧
        ((c₀.after text sourceText (qs.map .put)).call text sourceText
          (.render layout' sortLimit')).1 =
          ((c₀.after text sourceText (ps.map .put)).call text sourceText
            (.render layout' sortLimit')).1) ∧
    ∀ items distinct condition keys n clause, c.conflicts clause = false →
      ∃ d, c.puts text (asked items distinct condition keys n clause) = .ok d := by
  intro c
  refine ⟨fun p => ⟨fun htaken => ?_, fun hfree => ?_⟩, fun layout sortLimit => ⟨rfl, fun hs => ?_⟩,
    fun layout sortLimit ps qs layout' sortLimit' => ?_, ?_⟩
  · cases h : c.put text p with
    | ok c' =>
      rw [(put_eq_ok_iff.1 h).1] at htaken
      cases htaken
    | error e => exact ⟨e, by rw [call, h]⟩
  · rw [call, put_eq_ok_iff.2 ⟨hfree, rfl⟩]
  · obtain ⟨source, hs⟩ := Option.isSome_iff_exists.1 hs
    exact ⟨_, by rw [call, take, close, hs]; rfl⟩
  · intro c₀ hperm
    have hdone : c₀.puts text _ = .ok (c₀.after text sourceText _) := puts_done c₀ ps
    obtain ⟨d, hd, hsame⟩ := puts_perm hperm hdone (.refl c₀)
    refine ⟨⟨d, hd⟩, ?_⟩
    rw [after_of_puts hd]
    exact hsame.render layout' sortLimit'
  · intro items distinct condition keys n clause hfree
    cases clause <;> simp [conflicts] at hfree <;>
      simp [asked, puts, put, setSelect, setFilter, setGroupBy, setOrderBy, setLimit,
        hfree, bind, Except.bind]

end Calls

end PlanSql.Sql.Clauses

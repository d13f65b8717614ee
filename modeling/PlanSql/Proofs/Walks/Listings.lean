import Mathlib.Data.List.Nodup
import PlanSql.Proofs.Copies.Statements

/-!
# What a walk lists

Nodes that share operands unfold to a tree, in which a shared operand occurs once for every way that
leads to it. A walk lists this tree, nodes before their operands or after them (`preorder`,
`postorder`). If it yields every node only once, it leaves out all occurrences but the first:
whatever was met and stands below the nodes that are still being listed has been listed with all its
operands.
-/

namespace PlanSql

namespace Graph

variable {g : Graph} {x y : NodeId} {f : NodeId → List NodeId}

/-- The tree that a node unfolds to, listed with nodes before their operands. -/
def preorder (g : Graph) (h : g.Ordered) (id : NodeId) : List NodeId :=
  id :: (g.children id).attach.flatMap fun c => g.preorder h c.1
termination_by id
decreasing_by exact h id c.1 c.2

/-- The tree that a node unfolds to, listed with nodes after their operands. -/
def postorder (g : Graph) (h : g.Ordered) (id : NodeId) : List NodeId :=
  (g.children id).attach.flatMap (fun c => g.postorder h c.1) ++ [id]
termination_by id
decreasing_by exact h id c.1 c.2

theorem preorder_eq (h : g.Ordered) (id : NodeId) :
    g.preorder h id = id :: (g.children id).flatMap (g.preorder h) := by
  rw [preorder]
  simp

theorem postorder_eq (h : g.Ordered) (id : NodeId) :
    g.postorder h id = (g.children id).flatMap (g.postorder h) ++ [id] := by
  rw [postorder]
  simp

theorem reach_iff : g.Reach x y ↔ y = x ∨ ∃ c ∈ g.children x, g.Reach c y := by
  constructor
  · intro h
    induction h with
    | refl => exact .inl rfl
    | step _ hchild ih =>
      rcases ih with rfl | ⟨c, hc, hreach⟩
      · exact .inr ⟨_, hchild, .refl⟩
      · exact .inr ⟨c, hc, hreach.step hchild⟩
  · rintro (rfl | ⟨c, hc, hreach⟩)
    · exact .refl
    · exact (Reach.refl.step hc).trans hreach

theorem mem_listing_iff (h : g.Ordered)
    (hf : ∀ x y, y ∈ f x ↔ y = x ∨ ∃ c ∈ g.children x, y ∈ f c) (x y : NodeId) :
    y ∈ f x ↔ g.Reach x y := by
  induction x using Nat.strong_induction_on with
  | _ x ih =>
    rw [hf, reach_iff]
    refine or_congr_right (exists_congr fun c => and_congr_right fun hc => ih c (h x c hc))

theorem mem_preorder_iff (h : g.Ordered) : y ∈ g.preorder h x ↔ g.Reach x y :=
  mem_listing_iff h (fun x y => by rw [preorder_eq, List.mem_cons, List.mem_flatMap]) x y

theorem mem_postorder_iff (h : g.Ordered) : y ∈ g.postorder h x ↔ g.Reach x y :=
  mem_listing_iff h (fun x y => by
    rw [postorder_eq, List.mem_append, List.mem_singleton, List.mem_flatMap, or_comm]) x y

/-- Every node of the list has its operands in front of it. -/
def OperandsFirst (g : Graph) (l : List NodeId) : Prop :=
  ∀ l₁ p l₂, l = l₁ ++ p :: l₂ → ∀ c ∈ g.children p, c ∈ l₁

theorem OperandsFirst.append {a b : List NodeId} (ha : g.OperandsFirst a)
    (hb : ∀ l₁ p l₂, b = l₁ ++ p :: l₂ → ∀ c ∈ g.children p, c ∈ a ++ l₁) :
    g.OperandsFirst (a ++ b) := by
  intro l₁ p l₂ heq c hc
  rcases List.append_eq_append_iff.1 heq with ⟨d, rfl, hd⟩ | ⟨d, rfl, hd⟩
  · exact hb d p l₂ hd c hc
  · cases d with
    | nil => simpa using hb [] p l₂ hd.symm c hc
    | cons q d =>
      cases hd
      exact ha l₁ p d rfl c hc

theorem OperandsFirst.flatMap {ids : List NodeId} (h : ∀ id ∈ ids, g.OperandsFirst (f id)) :
    g.OperandsFirst (ids.flatMap f) := by
  induction ids with
  | nil => exact fun l₁ p l₂ heq => by simp at heq
  | cons id rest ih =>
    have hrest := ih fun x hx => h x (.tail _ hx)
    exact (h id (.head _)).append fun l₁ p l₂ heq c hc =>
      List.mem_append_right _ (hrest l₁ p l₂ heq c hc)

theorem operandsFirst_postorder (h : g.Ordered) (id : NodeId) :
    g.OperandsFirst (g.postorder h id) := by
  induction id using Nat.strong_induction_on with
  | _ id ih =>
    rw [postorder_eq]
    refine (OperandsFirst.flatMap fun c hc => ih c (h id c hc)).append fun l₁ p l₂ heq c hc => ?_
    cases l₁ with
    | nil =>
      obtain ⟨rfl, -⟩ := List.cons.inj heq
      rw [List.append_nil]
      exact List.mem_flatMap.2 ⟨c, hc, (mem_postorder_iff h).2 .refl⟩
    | cons q l₁ => simp at heq

theorem nodup_eraseDups (l : List NodeId) : l.eraseDups.Nodup := by
  cases l with
  | nil => simp
  | cons a l =>
    rw [List.eraseDups_cons, List.nodup_cons, List.mem_eraseDups]
    exact ⟨by simp, nodup_eraseDups (l.filter fun b => !b == a)⟩
termination_by l.length
decreasing_by exact Nat.lt_succ_of_le (List.length_filter_le _ _)

/-- First occurrences have the first occurrences of their operands in front of them. -/
theorem OperandsFirst.eraseDups {l : List NodeId} (h : g.OperandsFirst l) :
    g.OperandsFirst l.eraseDups := by
  intro l₁ p l₂ heq c hc
  have hp : p ∈ l := List.mem_eraseDups.1 (heq ▸ by simp)
  obtain ⟨a, b, rfl, hnew⟩ := List.eq_append_cons_of_mem hp
  have hnodup := nodup_eraseDups (a ++ p :: b)
  rw [heq, List.nodup_middle, List.nodup_cons, List.mem_append, not_or] at hnodup
  have hsplit : (a ++ p :: b).eraseDups =
      a.eraseDups ++ p :: ((b.removeAll a).filter fun x => !x == p).eraseDups := by
    rw [List.eraseDups_append, ← List.eraseDups_cons]
    simp [List.removeAll, hnew]
  obtain ⟨rfl, -, -⟩ := (List.append_cons_inj_of_notMem hnodup.1.1 hnodup.1.2).1
    (heq.symm.trans hsplit)
  exact List.mem_eraseDups.2 (h a p b rfl c hc)

end Graph

namespace Walk

variable {w : Walk} {ids : List NodeId} {v : Walk}

/-! ## Runs of a walk -/

/-- A change between two steps of a walk. -/
inductive Edit where
  | prune (id : NodeId)
  | hide (parent child : NodeId)

def edit (w : Walk) : Edit → Walk
  | .prune id => w.prune id
  | .hide parent child => w.hide parent child

/-- The walk yields some nodes and ends, where the changes `edits n` come before step number `n`,
and its next step has the given number. -/
inductive Yields (edits : Nat → List Edit) : Nat → Walk → List NodeId → Prop
  | ended {n : Nat} {w : Walk} : ((edits n).foldl edit w).next = none → Yields edits n w []
  | step {n : Nat} {w v : Walk} {id : NodeId} {ids : List NodeId} :
    ((edits n).foldl edit w).next = some (id, v) → Yields edits (n + 1) v ids →
    Yields edits n w (id :: ids)

theorem Yields.unique {edits : Nat → List Edit} {n : Nat} {ids' : List NodeId}
    (h : Yields edits n w ids) (h' : Yields edits n w ids') : ids' = ids := by
  induction h generalizing ids' with
  | ended hnone =>
    cases h' with
    | ended => rfl
    | step hsome => cases hnone.symm.trans hsome
  | step hsome _ ih =>
    cases h' with
    | ended hnone => cases hnone.symm.trans hsome
    | step hsome' hrest =>
      cases hsome.symm.trans hsome'
      rw [ih hrest]

/-- The walk yields some nodes and ends if it is left alone. -/
def Lists (w : Walk) (ids : List NodeId) : Prop := ∀ n, Yields (fun _ => []) n w ids

theorem Lists.congr (h : w.Lists ids) (hnext : v.next = w.next) :
    v.Lists ids := by
  intro n
  cases h n with
  | ended hnone => exact .ended (hnext.trans hnone)
  | step hsome hrest => exact .step (hnext.trans hsome) hrest

theorem Lists.cons {id : NodeId} (h : v.Lists ids) (hnext : w.next = some (id, v)) :
    w.Lists (id :: ids) :=
  fun n => .step hnext (h (n + 1))

/-- A walk that was left alone, on its way. -/
def midway (g : Graph) (order : WalkOrder) (unique : Bool) (stack : List (NodeId × Bool))
    (seen : List NodeId) : Walk :=
  ⟨g, order, unique, stack, seen, [], [], none⟩

section Steps

variable {g : Graph} {order : WalkOrder} {unique : Bool} {x : NodeId} {rest : List (NodeId × Bool)}
  {seen ids : List NodeId}
variable {depth : Nat}

/-- The nodes met after another one. -/
def noted (unique : Bool) (x : NodeId) (seen : List NodeId) : List NodeId :=
  if unique then x :: seen else seen

theorem graph_meet : (w.meet x).graph = w.graph := by
  unfold meet
  split <;> rfl

theorem midway_meet : (midway g order unique rest seen).meet x =
    midway g order unique rest (noted unique x seen) := by
  cases unique <;> rfl

theorem midway_skips (hx : unique = true → x ∉ seen) :
    (midway g order unique rest seen).skips x = false := by
  cases unique with
  | false => rfl
  | true => exact decide_eq_false (hx rfl)

theorem midway_visibleChildren : (midway g order unique rest seen).visibleChildren
    x = g.children x := by
  simp [visibleChildren, midway]

theorem midway_listed : (midway g order unique rest seen).listed = rest := rfl

/-- A node that was met is passed over. -/
theorem Lists.skip (h : (midway g order true rest seen).Lists ids) (hx : x ∈ seen) :
    (midway g order true ((x, false) :: rest) seen).Lists ids := by
  refine h.congr ?_
  cases order with
  | topDown =>
    show nextTopDown _ = nextTopDown _
    rw [nextTopDown, nextTopDown, midway_listed,
      List.dropWhile_cons_of_pos (by simp [skips, midway, hx])]
    rfl
  | bottomUp =>
    show nextBottomUp _ (g.size + 1) = nextBottomUp _ (g.size + 1)
    rw [nextBottomUp.eq_def, nextBottomUp.eq_def]
    have hstack : (midway g .bottomUp true ((x, false) :: rest) seen).stack =
      (x, false) :: rest := rfl
    rw [hstack, List.dropWhile_cons_of_pos (by simp [skips, midway, hx])]
    rfl

theorem Lists.topDown
    (h : (midway g .topDown unique ((g.children x).map (·, false) ++ rest)
      (noted unique x seen)).Lists ids)
    (hx : unique = true → x ∉ seen) :
    (midway g .topDown unique ((x, false) :: rest) seen).Lists (x :: ids) := by
  have hnext : (midway g .topDown unique ((x, false) :: rest) seen).next =
      some (x, { midway g .topDown unique rest (noted unique x seen) with pending := some x }) := by
    show nextTopDown _ = _
    rw [nextTopDown, midway_listed, List.dropWhile_cons_of_neg (by simp [midway_skips hx])]
    cases unique <;> rfl
  refine Lists.cons (h.congr ?_) hnext
  show nextTopDown _ = nextTopDown _
  rw [nextTopDown, nextTopDown]
  have hlisted : ({ midway g .topDown unique rest (noted unique x seen) with
      pending := some x } : Walk).listed =
      (g.children x).map (·, false) ++ rest := by
    simp [listed, visibleChildren, midway]
  rw [hlisted]
  cases unique <;> rfl

/-- The entries in front of the first marked one stand for nodes before `depth`. -/
def Shallow (depth : Nat) : List (NodeId × Bool) → Prop
  | [] => True
  | (x, marked) :: rest => marked = true ∨ x < depth ∧ Shallow depth rest

theorem Shallow.dropWhile {p : NodeId → Bool} {stack : List (NodeId × Bool)}
    (h : Shallow depth stack) :
    Shallow depth (stack.dropWhile fun (x, marked) => !marked && p x) := by
  induction stack with
  | nil => trivial
  | cons entry rest ih =>
    obtain ⟨x, _ | _⟩ := entry
    · obtain ⟨hx, hrest⟩ : x < depth ∧ Shallow depth rest := h.resolve_left nofun
      cases hp : p x with
      | true =>
        rw [List.dropWhile_cons_of_pos (by simpa using hp)]
        exact ih hrest
      | false =>
        rw [List.dropWhile_cons_of_neg (by simpa using hp)]
        exact .inr ⟨hx, hrest⟩
    · exact .inl rfl

theorem shallow_operands (h : ∀ y ∈ ids, y < depth) :
    Shallow depth (ids.map (·, false) ++ (x, true) :: rest) := by
  induction ids with
  | nil => exact .inl rfl
  | cons y ids ih =>
    exact .inr ⟨h y (.head _), ih fun z hz => h z (.tail _ hz)⟩

/-- Going down from a node takes fewer steps than its id says, so more depth changes nothing. -/
theorem nextBottomUp_eq (hg : g.Ordered) {depth' : Nat} (hw : w.graph = g)
    (h : Shallow depth w.stack) (h' : Shallow depth' w.stack) :
    w.nextBottomUp depth = w.nextBottomUp depth' := by
  induction depth using Nat.strong_induction_on generalizing w depth' with
  | _ depth ih =>
    have hd := h.dropWhile (p := w.skips)
    have hd' := h'.dropWhile (p := w.skips)
    rw [nextBottomUp.eq_def w depth, nextBottomUp.eq_def w depth']
    generalize (w.stack.dropWhile fun (x, marked) => !marked && w.skips x) = left at hd hd'
    match left, hd, hd' with
    | [], _, _ | (_, true) :: _, _, _ => rfl
    | (x, false) :: rest, .inr ⟨hx, _⟩, .inr ⟨hx', _⟩ =>
      obtain ⟨depth, rfl⟩ := Nat.exists_eq_succ_of_ne_zero (Nat.ne_zero_of_lt hx)
      obtain ⟨depth', rfl⟩ := Nat.exists_eq_succ_of_ne_zero (Nat.ne_zero_of_lt hx')
      have hlt : ∀ y ∈ ((w.meet x).visibleChildren x).filter fun y =>
        !(w.meet x).skips y, y < x := by
        intro y hy
        have hy := List.mem_of_mem_filter hy
        rw [visibleChildren, graph_meet, hw] at hy
        split at hy
        · cases hy
        · exact hg x y (List.mem_of_mem_filter hy)
      refine ih depth (Nat.lt_succ_self depth) (graph_meet.trans hw) ?_ ?_
      · exact shallow_operands fun y hy => Nat.lt_of_lt_of_le (hlt y hy) (Nat.le_of_lt_succ hx)
      · exact shallow_operands fun y hy => Nat.lt_of_lt_of_le (hlt y hy) (Nat.le_of_lt_succ hx')

/-- A node that was not met is yielded after its operands. -/
theorem Lists.bottomUp (hg : g.Ordered) (hsize : x ≤ g.size)
    (h : (midway g .bottomUp unique (((g.children x).filter fun c =>
      !(unique && c ∈ noted unique x seen)).map (·, false) ++ (x, true) :: rest)
      (noted unique x seen)).Lists ids) (hx : unique = true → x ∉ seen) :
    (midway g .bottomUp unique ((x, false) :: rest) seen).Lists ids := by
  refine h.congr ?_
  show nextBottomUp _ (g.size + 1) = nextBottomUp _ (g.size + 1)
  rw [nextBottomUp.eq_def]
  have hdrop : (midway g .bottomUp unique ((x, false) :: rest) seen).stack.dropWhile
      (fun (id, expanded) =>
        !expanded && (midway g .bottomUp unique ((x, false) :: rest) seen).skips id) =
      (x, false) :: rest :=
    List.dropWhile_cons_of_neg (by simp [midway_skips hx])
  rw [hdrop]
  have hlt : ∀ y ∈ (g.children x).filter fun c =>
    !(unique && c ∈ noted unique x seen), y < g.size :=
    fun y hy => Nat.lt_of_lt_of_le (hg x y (List.mem_of_mem_filter hy)) hsize
  have hexpand : (midway g .bottomUp unique ((x, false) :: rest) seen).expand x rest =
      midway g .bottomUp unique (((g.children x).filter fun c =>
        !(unique && c ∈ noted unique x seen)).map (·, false) ++ (x, true) :: rest)
        (noted unique x seen) := by
    rw [expand, midway_meet, midway_visibleChildren]
    rfl
  show ((midway g .bottomUp unique ((x, false) :: rest) seen).expand x rest).nextBottomUp g.size = _
  rw [hexpand]
  exact nextBottomUp_eq hg rfl (shallow_operands hlt)
    (shallow_operands fun y hy => Nat.lt_succ_of_lt (hlt y hy))

theorem Lists.marked (h : (midway g .bottomUp unique rest seen).Lists ids) :
    (midway g .bottomUp unique ((x, true) :: rest) seen).Lists (x :: ids) := by
  refine h.cons ?_
  show nextBottomUp _ (g.size + 1) = _
  rw [nextBottomUp.eq_def]
  rfl

end Steps

/-! ## Whole listings -/

section Passing

variable {g : Graph} {order : WalkOrder} {unique : Bool} {x : NodeId} {rest : List (NodeId × Bool)}
  {seen seen' l l' : List NodeId} {f : NodeId → List NodeId}

/-- What a walk yields of a listing: all of it, or the first occurrences of what was not met. -/
def pick (unique : Bool) (seen l : List NodeId) : List NodeId :=
  if unique then (l.removeAll seen).eraseDups else l

/-- The nodes of a listing have been met as well, if nodes that were met are passed over. -/
def Adds (unique : Bool) (seen l seen' : List NodeId) : Prop :=
  ∀ y, y ∈ seen' ↔ y ∈ seen ∨ unique = true ∧ y ∈ l

theorem Adds.trans {seen₁ : List NodeId} (h : Adds unique seen l seen₁)
    (h' : Adds unique seen₁ l' seen') :
    Adds unique seen (l ++ l') seen' := by
  intro y
  rw [h' y, h y, List.mem_append]
  grind

theorem pick_append (h : Adds unique seen l seen') :
    pick unique seen (l ++ l') = pick unique seen l ++ pick unique seen' l' := by
  cases unique with
  | false => rfl
  | true =>
    simp only [pick, if_pos, List.removeAll, List.filter_append, List.eraseDups_append]
    congr 2
    rw [List.filter_filter]
    refine List.filter_congr fun y _ => ?_
    have hy := h y
    grind

theorem pick_nil : pick unique seen [] = [] := by
  cases unique <;> simp [pick, List.removeAll]

theorem pick_of_subset (h : ∀ y ∈ l, y ∈ seen) : pick true seen l = [] := by
  have hnil : l.removeAll seen = [] := by simpa [List.removeAll] using h
  rw [pick, if_pos rfl, hnil, List.eraseDups_nil]

theorem pick_singleton (h : unique = true → x ∉ seen) : pick unique seen [x] = [x] := by
  cases unique with
  | false => rfl
  | true => simp [pick, List.removeAll, h rfl, List.eraseDups_cons]

theorem pick_last (hx : unique = true → x ∉ seen) (hl : x ∉ l) :
    pick unique seen (l ++ [x]) = pick unique (noted unique x seen) l ++ [x] := by
  cases unique with
  | false => rfl
  | true =>
    have hadds : Adds true seen l (seen ++ l) := by simp [Adds]
    have hsame : l.removeAll (x :: seen) = l.removeAll seen :=
      List.filter_congr fun y hy => by
        have hne : y ≠ x := fun h => hl (h ▸ hy)
        simp [hne]
    rw [pick_append hadds, pick_singleton fun _ => by simp [hx rfl, hl]]
    simp only [pick, noted, if_pos, hsame]

/-- What was met and does not stand after `x` was met with all that it reaches. -/
def Closed (g : Graph) (seen : List NodeId) (x : NodeId) : Prop :=
  ∀ y ∈ seen, y ≤ x → ∀ z, g.Reach y z → z ∈ seen

def Passes (g : Graph) (order : WalkOrder) (unique : Bool) (x : NodeId) (l : List NodeId) : Prop :=
  ∀ seen rest, Closed g seen x → ∃ seen', Adds unique seen l seen' ∧ ∀ tail,
    (midway g order unique rest seen').Lists tail →
    (midway g order unique ((x, false) :: rest) seen).Lists (pick unique seen l ++ tail)

theorem passes_met (hf : ∀ z, z ∈ l → g.Reach x z) (hclosed : Closed g seen x) (hx : x ∈ seen) :
    Adds true seen l seen ∧ pick true seen l = [] := by
  have hmem : ∀ z ∈ l, z ∈ seen := fun z hz => hclosed x hx (Nat.le_refl x) z (hf z hz)
  exact ⟨fun y => ⟨.inl, fun h => h.elim id fun h => hmem y h.2⟩, pick_of_subset hmem⟩

/-- Operands are listed one after the other; some that were met may have been left out. -/
theorem passes_all (keep : NodeId → Bool) (hpass : ∀ c ∈ ids, Passes g order unique c (f c))
    (hf : ∀ c z, z ∈ f c ↔ g.Reach c z) (hclosed : ∀ c ∈ ids, Closed g seen c)
    (hkeep : ∀ c ∈ ids, keep c = false → unique = true ∧ c ∈ seen) (rest : List (NodeId × Bool)) :
    ∃ seen', Adds unique seen (ids.flatMap f) seen' ∧ ∀ tail,
      (midway g order unique rest seen').Lists tail →
      (midway g order unique ((ids.filter keep).map (·, false) ++ rest) seen).Lists
        (pick unique seen (ids.flatMap f) ++ tail) := by
  induction ids generalizing seen with
  | nil => exact ⟨seen, by simp [Adds], fun tail h => by simpa [pick_nil] using h⟩
  | cons c ids ih =>
    have hc := hclosed c (.head _)
    -- All that is met by listing `c` is met with what it reaches.
    have hrest : ∀ {seen₁}, Adds unique seen (f c) seen₁ → _ := fun {seen₁} hadds =>
      @ih seen₁ (fun d hd => hpass d (.tail _ hd))
        (fun d hd y hy hle z hz => by
          rcases (hadds y).1 hy with hy | ⟨hu, hy⟩
          · exact (hadds z).2 (.inl (hclosed d (.tail _ hd) y hy hle z hz))
          · exact (hadds z).2 (.inr ⟨hu, (hf c z).2 (((hf c y).1 hy).trans hz)⟩))
        fun d hd hk => by
          obtain ⟨hu, hmet⟩ := hkeep d (.tail _ hd) hk
          exact ⟨hu, (hadds d).2 (.inl hmet)⟩
    cases hk : keep c with
    | false =>
      obtain ⟨rfl, hmet⟩ := hkeep c (.head _) hk
      obtain ⟨hadds, hpick⟩ := passes_met (fun z => (hf c z).1) hc hmet
      obtain ⟨seen', hadds', hlists⟩ := hrest hadds
      refine ⟨seen', hadds.trans hadds', fun tail htail => ?_⟩
      rw [List.flatMap_cons, pick_append hadds, hpick, List.filter_cons_of_neg (by simp [hk])]
      exact hlists tail htail
    | true =>
      obtain ⟨seen₁, hadds, hlists⟩ :=
        hpass c (.head _) seen ((ids.filter keep).map (·, false) ++ rest) hc
      obtain ⟨seen', hadds', hlists'⟩ := hrest hadds
      refine ⟨seen', hadds.trans hadds', fun tail htail => ?_⟩
      rw [List.flatMap_cons, pick_append hadds, List.append_assoc, List.filter_cons_of_pos hk]
      exact hlists _ (hlists' tail htail)

theorem Closed.noted (unique : Bool) (h : Closed g seen x) {c : NodeId} (hc : c < x) :
    Closed g (noted unique x seen) c := by
  intro y hy hle z hz
  cases unique with
  | false => exact h y hy (Nat.le_trans hle (Nat.le_of_lt hc)) z hz
  | true =>
    rcases List.mem_cons.1 hy with rfl | hy
    · exact absurd hc (Nat.not_lt.2 hle)
    · exact .tail _ (h y hy (Nat.le_trans hle (Nat.le_of_lt hc)) z hz)

theorem adds_noted : Adds unique seen [x] (noted unique x seen) := by
  intro y
  cases unique <;> simp [Walk.noted, or_comm]

theorem passes_topDown (unique : Bool) (hg : g.Ordered) (x : NodeId) :
    Passes g .topDown unique x (g.preorder hg x) := by
  induction x using Nat.strong_induction_on with
  | _ x ih =>
    intro seen rest hclosed
    by_cases hx : unique = true ∧ x ∈ seen
    · obtain ⟨rfl, hx⟩ := hx
      obtain ⟨hadds, hpick⟩ := passes_met (fun z => (Graph.mem_preorder_iff hg).1) hclosed hx
      exact ⟨seen, hadds, fun tail htail => hpick ▸ htail.skip hx⟩
    · obtain ⟨seen', hadds, hlists⟩ := passes_all (fun _ => true) (fun c hc => ih c (hg x c hc))
        (fun c z => Graph.mem_preorder_iff hg)
        (fun c hc => hclosed.noted unique (hg x c hc)) nofun rest
      rw [List.filter_true] at hlists
      rw [Graph.preorder_eq, ← List.singleton_append]
      refine ⟨seen', adds_noted.trans hadds, fun tail htail => ?_⟩
      rw [pick_append adds_noted, pick_singleton fun hu hmem => hx ⟨hu, hmem⟩]
      exact (hlists tail htail).topDown fun hu hmem => hx ⟨hu, hmem⟩

theorem passes_bottomUp (unique : Bool) (hg : g.Ordered) (x : NodeId) (hsize : x ≤ g.size) :
    Passes g .bottomUp unique x (g.postorder hg x) := by
  induction x using Nat.strong_induction_on with
  | _ x ih =>
    intro seen rest hclosed
    by_cases hx : unique = true ∧ x ∈ seen
    · obtain ⟨rfl, hx⟩ := hx
      obtain ⟨hadds, hpick⟩ := passes_met (fun z => (Graph.mem_postorder_iff hg).1) hclosed hx
      exact ⟨seen, hadds, fun tail htail => hpick ▸ htail.skip hx⟩
    · obtain ⟨seen', hadds, hlists⟩ := passes_all
        (fun c => !(unique && c ∈ noted unique x seen))
        (fun c hc => ih c (hg x c hc) (Nat.le_trans (Nat.le_of_lt (hg x c hc)) hsize))
        (fun c z => Graph.mem_postorder_iff hg) (fun c hc => hclosed.noted unique (hg x c hc))
        (fun c _ hkeep => by simpa using hkeep) ((x, true) :: rest)
      have hx : unique = true → x ∉ seen := fun hu hmem => hx ⟨hu, hmem⟩
      have hlater : x ∉ (g.children x).flatMap (g.postorder hg) := by
        rw [List.mem_flatMap]
        rintro ⟨c, hc, hreach⟩
        have hle := hg.reach ((Graph.mem_postorder_iff hg).1 hreach)
        exact Nat.not_lt.2 hle (hg x c hc)
      rw [Graph.postorder_eq]
      refine ⟨seen', fun y => ?_, fun tail htail => ?_⟩
      · rw [(adds_noted.trans hadds) y, List.mem_append, List.mem_append, or_comm (a := y ∈ [x])]
      · rw [pick_last hx hlater, List.append_assoc]
        exact (hlists _ htail.marked).bottomUp hg hsize hx

/-- A walk that is left alone lists the tree that its root unfolds to. -/
theorem Passes.lists (h : Passes g order unique x l) :
    (start g x order unique).Lists (if unique then l.eraseDups else l) := by
  obtain ⟨seen', -, hlists⟩ := h [] [] nofun
  have hpick : pick unique [] l = if unique then l.eraseDups else l := by
    simp [pick, List.removeAll]
  have hend : (midway g order unique [] seen').Lists [] := fun n => .ended (by cases order <;> rfl)
  have hall := hlists [] hend
  rw [hpick, List.append_nil] at hall
  exact hall

end Passing

/-- Walks list the tree that their root unfolds to, in preorder or in postorder. Walks that yield
every node once list first occurrences; so they yield exactly what the root reaches, each node once,
and a walk from below yields operands before every node that has them. -/
theorem lists_unfolding {g : Graph} (hg : g.Ordered) {root : NodeId} (hroot : root < g.size) :
    (start g root .topDown false).Lists (g.preorder hg root) ∧
    (start g root .bottomUp false).Lists (g.postorder hg root) ∧
    (start g root .topDown true).Lists (g.preorder hg root).eraseDups ∧
    (start g root .bottomUp true).Lists (g.postorder hg root).eraseDups ∧
    (∀ order ids, (start g root order true).Lists ids →
      ids.Nodup ∧ ∀ x, x ∈ ids ↔ g.Reach root x) ∧
    ∀ ids, (start g root .bottomUp true).Lists ids → g.OperandsFirst ids := by
  have hdown := fun unique => (passes_topDown unique hg root).lists
  have hup := fun unique => (passes_bottomUp unique hg root (Nat.le_of_lt hroot)).lists
  refine ⟨hdown false, hup false, hdown true, hup true, fun order ids hids =>
    ?_, fun ids hids => ?_⟩
  · cases order with
    | topDown =>
      obtain rfl := (hdown true 0).unique (hids 0)
      exact ⟨Graph.nodup_eraseDups _, fun x => List.mem_eraseDups.trans (Graph.mem_preorder_iff hg)⟩
    | bottomUp =>
      obtain rfl := (hup true 0).unique (hids 0)
      exact ⟨Graph.nodup_eraseDups _, fun x =>
        List.mem_eraseDups.trans (Graph.mem_postorder_iff hg)⟩
  · obtain rfl := (hup true 0).unique (hids 0)
    exact (Graph.operandsFirst_postorder hg root).eraseDups

/-- The square of a sum of two columns: the sum is shared by the two factors, and the table by the
two columns. -/
def sharedSum : List Call :=
  [.source "p" "t" [⟨"a", .int64⟩, ⟨"b", .int64⟩], .column 0 "a", .column 0 "b", .binary .add 1 2,
    .binary .mul 3 3]

/-- The square is listed in all four ways. -/
theorem lists_sharedSum : (Call.run sharedSum).Ordered ∧ 4 < (Call.run sharedSum).size ∧
    (start (Call.run sharedSum) 4 .topDown false).Lists [4, 3, 1, 0, 2, 0, 3, 1, 0, 2, 0] ∧
    (start (Call.run sharedSum) 4 .bottomUp false).Lists [0, 1, 0, 2, 3, 0, 1, 0, 2, 3, 4] ∧
    (start (Call.run sharedSum) 4 .topDown true).Lists [4, 3, 1, 0, 2] ∧
    (start (Call.run sharedSum) 4 .bottomUp true).Lists [0, 1, 2, 3, 4] := by
  have hg : (Call.run sharedSum).Ordered := Graph.ordered_of_validate (by decide +kernel)
  have hsize : 4 < (Call.run sharedSum).size := by decide +kernel
  have h4 : (Call.run sharedSum).children 4 = [3, 3] := by decide +kernel
  have h3 : (Call.run sharedSum).children 3 = [1, 2] := by decide +kernel
  have h2 : (Call.run sharedSum).children 2 = [0] := by decide +kernel
  have h1 : (Call.run sharedSum).children 1 = [0] := by decide +kernel
  have h0 : (Call.run sharedSum).children 0 = [] := by decide +kernel
  have hpre : (Call.run sharedSum).preorder hg 4 = [4, 3, 1, 0, 2, 0, 3, 1, 0, 2, 0] := by
    simp [Graph.preorder_eq, h0, h1, h2, h3, h4]
  have hpost : (Call.run sharedSum).postorder hg 4 = [0, 1, 0, 2, 3, 0, 1, 0, 2, 3, 4] := by
    simp [Graph.postorder_eq, h0, h1, h2, h3, h4]
  have hlists := lists_unfolding hg hsize
  rw [hpre, hpost] at hlists
  exact ⟨hg, hsize, hlists.1, hlists.2.1, hlists.2.2.1, hlists.2.2.2.1⟩

end Walk

end PlanSql

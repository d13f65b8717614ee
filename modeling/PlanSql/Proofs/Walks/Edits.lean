import Mathlib.Data.Finset.Card
import Mathlib.Data.List.TakeWhile
import PlanSql.Proofs.Walks.Listings

/-!
# Changes during a walk

A walk from above looks a node's operands up at the step after the one that yielded the node.
Whatever is pruned or hidden while a walk that yields every node once is on its way, the walk ends,
and it yields its root and those operands of the nodes it yields that are neither cut off nor hidden
when they are looked up, each once.
-/

namespace PlanSql.Walk

variable {edits : Nat → List Edit} {n : Nat} {w v : Walk} {id x : NodeId}

/-- The operands of a node were cut off before step number `n`. -/
def PrunedBy (edits : Nat → List Edit) (n : Nat) (id : NodeId) : Prop :=
  ∃ m ≤ n, .prune id ∈ edits m

/-- An edge was hidden before step number `n`. -/
def HiddenBy (edits : Nat → List Edit) (n : Nat) (parent child : NodeId) : Prop :=
  ∃ m ≤ n, .hide parent child ∈ edits m

/-- The operands of a node that a walk sees at step number `n`. -/
def Sees (g : Graph) (edits : Nat → List Edit) (n : Nat) (parent child : NodeId) : Prop :=
  child ∈ g.children parent ∧ ¬ PrunedBy edits n parent ∧ ¬ HiddenBy edits n parent child

theorem exists_foldl_edit (es : List Edit) (w : Walk) : ∃ pruned hidden,
    es.foldl edit w = { w with pruned := pruned, hidden := hidden } ∧
    (∀ id, id ∈ pruned ↔ .prune id ∈ es ∨ id ∈ w.pruned) ∧
    ∀ p c, (p, c) ∈ hidden ↔ .hide p c ∈ es ∨ (p, c) ∈ w.hidden := by
  induction es generalizing w with
  | nil => exact ⟨w.pruned, w.hidden, rfl, by simp, by simp⟩
  | cons e es ih =>
    obtain ⟨pruned, hidden, heq, hpruned, hhidden⟩ := ih (w.edit e)
    cases e with
    | prune id =>
      refine ⟨pruned, hidden, heq, fun x => (hpruned x).trans ?_, fun p c => (hhidden p c).trans ?_⟩
      · simp only [edit, Walk.prune, List.mem_cons, Edit.prune.injEq]
        tauto
      · simp [edit, Walk.prune]
    | hide a b =>
      refine ⟨pruned, hidden, heq, fun x => (hpruned x).trans ?_, fun p c => (hhidden p c).trans ?_⟩
      · simp [edit, Walk.hide]
      · simp only [edit, Walk.hide, List.mem_cons, Edit.hide.injEq, Prod.mk.injEq]
        tauto

/-- A walk from above that yields nodes once, on its way: what was pruned and hidden before step
number `n`, and the nodes it has met. -/
structure Edited (g : Graph) (edits : Nat → List Edit) (n : Nat) (w : Walk) : Prop where
  graph : w.graph = g
  order : w.order = .topDown
  unique : w.unique = true
  pruned : ∀ id, id ∈ w.pruned ↔ ∃ m < n, .prune id ∈ edits m
  hidden : ∀ p c, (p, c) ∈ w.hidden ↔ ∃ m < n, .hide p c ∈ edits m

/-- What is still to come: what stands on the stack, and the operands of the node yielded last. -/
def Ahead (g : Graph) (edits : Nat → List Edit) (n : Nat) (w : Walk) (x : NodeId) : Prop :=
  x ∈ w.stack.map Prod.fst ∨ ∃ last, w.pending = some last ∧ Sees g edits n last x

section Steps

variable {g : Graph}

/-- A changed walk that yields nodes once passes over what was met. -/
theorem Edited.next (h : Edited g edits n w) :
    (((edits n).foldl edit w).next = none ∧ ∀ x, Ahead g edits n w x → x ∈ w.seen) ∨
    ∃ id v, ((edits n).foldl edit w).next = some (id, v) ∧ Edited g edits (n + 1) v ∧
      v.seen = id :: w.seen ∧ id ∉ w.seen ∧ ∀ x, x ∉ w.seen →
        (Ahead g edits n w x ∨ Sees g edits (n + 1) id x ↔ x = id ∨ Ahead g edits (n + 1) v x) := by
  obtain ⟨pruned, hidden, heq, hpruned, hhidden⟩ := exists_foldl_edit (edits n) w
  have hpruned : ∀ x, x ∈ pruned ↔ PrunedBy edits n x := fun x => by
    rw [hpruned, h.pruned, PrunedBy]
    grind
  have hhidden : ∀ p c, (p, c) ∈ hidden ↔ HiddenBy edits n p c := fun p c => by
    rw [hhidden, h.hidden, HiddenBy]
    grind
  rw [heq]
  generalize hw' : ({ w with pruned := pruned, hidden := hidden } : Walk) = w'
  have hlisted : ∀ x, x ∈ w'.listed.map Prod.fst ↔ Ahead g edits n w x := by
    intro x
    have hvisible : ∀ last, x ∈ w'.visibleChildren last ↔ Sees g edits n last x := by
      intro last
      simp only [Sees, ← hpruned, ← hhidden, ← h.graph, ← hw', visibleChildren]
      split <;> simp_all
    have hpending : w'.pending = w.pending := hw' ▸ rfl
    have hstack : w'.stack = w.stack := hw' ▸ rfl
    rw [Walk.listed, hpending, hstack, Ahead]
    cases w.pending with
    | none => simp
    | some last => simp [hvisible, or_comm]
  have hskips : ∀ x, w'.skips x = true ↔ x ∈ w.seen := by simp [skips, ← hw', h.unique]
  have hnext : w'.next = w'.nextTopDown := by rw [Walk.next, ← hw', h.order]
  rw [hnext, nextTopDown]
  have hsplit := List.takeWhile_append_dropWhile
    (p := fun entry => w'.skips entry.1) (l := w'.listed)
  have hmet : ∀ p ∈ w'.listed.takeWhile fun entry => w'.skips entry.1, p.1 ∈ w.seen := by
    intro p hp
    have hskip := List.mem_takeWhile_imp hp
    exact (hskips p.1).1 hskip
  have hnew := List.head?_dropWhile_not (fun entry => w'.skips entry.1) w'.listed
  cases hdrop : w'.listed.dropWhile fun entry => w'.skips entry.1 with
  | nil =>
    refine .inl ⟨rfl, fun x hx => ?_⟩
    obtain ⟨p, hp, rfl⟩ := List.mem_map.1 ((hlisted x).2 hx)
    rw [← hsplit, hdrop, List.append_nil] at hp
    exact hmet p hp
  | cons entry rest =>
    obtain ⟨id, marked⟩ := entry
    rw [hdrop] at hnew
    have hahead : ∀ x, x ∉ w.seen → (Ahead g edits n w x ↔ x = id ∨ x ∈ rest.map Prod.fst) := by
      intro x hx
      rw [← hlisted, ← hsplit, hdrop, List.map_append, List.mem_append,
        List.map_cons, List.mem_cons]
      refine or_iff_right fun hmem => ?_
      obtain ⟨p, hp, rfl⟩ := List.mem_map.1 hmem
      exact hx (hmet p hp)
    refine .inr ⟨id,
      { w with
        pruned := pruned, hidden := hidden, seen := id :: w.seen, stack :=
          rest, pending := some id },
      ?_, ⟨h.graph, h.order, h.unique, fun x => ?_, fun p c => ?_⟩, rfl, ?_, fun x hx => ?_⟩
    · simp only [meet, ← hw', h.unique, if_true]
    · simp only [hpruned, PrunedBy, Nat.lt_succ_iff]
    · simp only [hhidden, HiddenBy, Nat.lt_succ_iff]
    · exact fun hmem => by simp [(hskips id).2 hmem] at hnew
    · rw [hahead x hx, Ahead]
      simp [or_assoc]

/-- From any state on, the walk ends, and yields, each once, what is still to come and what it sees
from the nodes that it yields. -/
theorem Edited.yields (hg : g.Ordered) {root : NodeId} (h : Edited g edits n w)
    (hroot : ∀ x, x ∉ w.seen → Ahead g edits n w x → x ≤ root) :
    ∃ ids, Yields edits n w ids ∧ ids.Nodup ∧ ∀ x, x ∈ ids ↔ x ∉ w.seen ∧
      (Ahead g edits n w x ∨ ∃ k p, ids[k]? = some p ∧ Sees g edits (n + k + 1) p x) := by
  induction hcard : (Finset.range (root + 1) \ w.seen.toFinset).card using Nat.strong_induction_on
    generalizing n w with
  | _ m ih =>
    rcases h.next with ⟨hnone, hmet⟩ | ⟨id, v, hsome, hv, hseen, hnew, hahead⟩
    · refine ⟨[], .ended hnone, .nil, fun x => ⟨nofun, fun hx => ?_⟩⟩
      rcases hx.2 with hx' | ⟨k, p, hk, -⟩
      · exact absurd (hmet x hx') hx.1
      · cases hk
    · have hid : id ≤ root := by
        rcases (hahead id hnew).2 (.inl rfl) with hid | hid
        · exact hroot id hnew hid
        · exact absurd (hg id id hid.1) (Nat.lt_irrefl id)
      have hless : (Finset.range (root + 1) \ v.seen.toFinset).card < m := by
        rw [← hcard, hseen]
        refine Finset.card_lt_card ⟨fun x => by simp +contextual, fun hsub => ?_⟩
        have hmem : id ∈ Finset.range (root + 1) \ w.seen.toFinset := by
          simpa [Nat.lt_succ_iff] using ⟨hid, hnew⟩
        simpa using hsub hmem
      have hrest : ∀ x, x ∉ v.seen → Ahead g edits (n + 1) v x → x ≤ root := by
        intro x hx hv
        rw [hseen, List.mem_cons, not_or] at hx
        rcases (hahead x hx.2).2 (.inr hv) with hx' | hx'
        · exact hroot x hx.2 hx'
        · exact Nat.le_trans (Nat.le_of_lt (hg id x hx'.1)) hid
      obtain ⟨ids, hyields, hnodup, hmem⟩ := ih _ hless hv hrest rfl
      refine ⟨id :: ids, .step hsome hyields, ?_, fun x => ?_⟩
      · rw [List.nodup_cons, hmem, hseen]
        exact ⟨fun h => h.1 (.head _), hnodup⟩
      · have hlater : (∃ k p, (id :: ids)[k]? = some p ∧ Sees g edits (n + k + 1) p x) ↔
            Sees g edits (n + 1) id x ∨
              ∃ k p, ids[k]? = some p ∧ Sees g edits (n + 1 + k + 1) p x := by
          rw [← Nat.or_exists_add_one]
          simp [Nat.add_right_comm n 1, ← Nat.add_assoc]
        rw [List.mem_cons, hmem, hseen, List.mem_cons, hlater]
        by_cases hx : x ∈ w.seen
        · have hne : x ≠ id := fun h => hnew (h ▸ hx)
          simp [hx, hne]
        · rw [← or_assoc (a := Ahead g edits n w x), hahead x hx, or_assoc]
          by_cases hfirst : x = id
          · simp [hfirst, hnew]
          · simp [hfirst, hx]

end Steps

/-- However nodes are pruned and edges are hidden between the steps of a walk from above that yields
nodes once, the walk ends and yields no node twice, and it yields the root and those operands of the
nodes it yields that are neither hidden nor cut off at the step after the one that yielded the
node. -/
theorem yields_edited {g : Graph} (hg : g.validate = .ok ()) (root : NodeId)
    (edits : Nat → List Edit) :
    ∃ ids, Yields edits 0 (start g root .topDown true) ids ∧ ids.Nodup ∧ ∀ c, c ∈ ids ↔ c = root ∨
      ∃ k p, ids[k]? = some p ∧ c ∈ g.children p ∧ ¬ PrunedBy edits (k + 1) p ∧
        ¬ HiddenBy edits (k + 1) p c := by
  have hstart : Edited g edits 0 (start g root .topDown true) :=
    ⟨rfl, rfl, rfl, by simp [start], by simp [start]⟩
  have hahead : ∀ x, Ahead g edits 0 (start g root .topDown true) x ↔ x = root := by
    simp [Ahead, start]
  obtain ⟨ids, hyields, hnodup, hmem⟩ := hstart.yields (Graph.ordered_of_validate hg)
    fun x _ hx => Nat.le_of_eq ((hahead x).1 hx)
  refine ⟨ids, hyields, hnodup, fun c => (hmem c).trans ?_⟩
  rw [hahead]
  simp [start, Sees]

/-- The edge to the first summand is hidden after the first step. -/
def hideSummand : Nat → List Edit
  | 1 => [.hide 3 1]
  | _ => []

/-- The hidden summand is not met. -/
theorem yields_sharedSum : (Call.run sharedSum).validate = .ok () ∧
    ∃ ids, Yields hideSummand 0 (start (Call.run sharedSum) 4 .topDown true) ids ∧ ids.Nodup ∧
      3 ∈ ids ∧ 1 ∉ ids := by
  have hvalid : (Call.run sharedSum).validate = .ok () := by decide +kernel
  have h4 : (Call.run sharedSum).children 4 = [3, 3] := by decide +kernel
  have hone : ∀ p < 5, 1 ∈ (Call.run sharedSum).children p → p = 3 := by decide +kernel
  obtain ⟨ids, hyields, hnodup, hmem⟩ := yields_edited hvalid 4 hideSummand
  have hpruned : ∀ n p, ¬PrunedBy hideSummand n p := by
    rintro n p ⟨m, -, hm⟩
    unfold hideSummand at hm
    split at hm <;> simp at hm
  refine ⟨hvalid, ids, hyields, hnodup, ?_, ?_⟩
  · obtain ⟨k, hk⟩ := List.mem_iff_getElem?.1 ((hmem 4).2 (.inl rfl))
    refine (hmem 3).2 (.inr ⟨k, 4, hk, by simp [h4], hpruned _ _, ?_⟩)
    rintro ⟨m, -, hm⟩
    unfold hideSummand at hm
    split at hm <;> simp at hm
  · intro h
    rcases (hmem 1).1 h with h | ⟨k, p, -, hp, -, hhidden⟩
    · cases h
    · have hlt : p < 5 := by
        rw [show 5 = (Call.run sharedSum).size by decide +kernel]
        unfold Graph.children at hp
        split at hp
        · next hn => exact Graph.lt_size_of_node? hn
        · cases hp
      obtain rfl := hone p hlt hp
      exact hhidden ⟨1, by omega, by simp [hideSummand]⟩

end PlanSql.Walk

import PlanSql.Proofs.Compile.Effects
import PlanSql.Proofs.Rows.Rendering

/-!
# Copies of nodes

Nodes refer to each other by their ids only, so nodes of one graph may stand in another one under
other ids. `Copy` describes such nodes together with what two compilations may know of each other
that go through them side by side: which names they have given to user functions, with which errors
they may end, and how deep they may go. This file has its laws for nodes, for the searches through a
graph, and for walks.
-/

namespace PlanSql

/-- The node at `x` stands at `ids x` in another graph: the two are the same but for the ids of
their operands and that of the user function, which is the same function; or neither is there. -/
def Graph.Copied (g g' : Graph) (ids : NodeId → NodeId) (x : NodeId) : Prop :=
  ∃ functions : FunctionId → FunctionId,
    g'.node? (ids x) = (g.node? x).map (Node.rename ids functions) ∧
      ∀ input function shape, g.node? x = some ⟨.userMap input function, shape⟩ →
        g'.function (functions function) = g.function function

theorem Graph.copied_of_eq {g g' : Graph} {x : NodeId} (hnode : g'.node? x = g.node? x)
    (hfun : ∀ input function shape, g.node? x = some ⟨.userMap input function, shape⟩ →
      g'.function function = g.function function) : g.Copied g' (fun x => x) x := by
  refine ⟨fun k => k, ?_, hfun⟩
  rw [hnode]
  cases g.node? x with
  | none => rfl
  | some n => rw [Option.map_some, Node.rename_self]

namespace Compile

open PlanSql.Sql

/-- Nodes of a graph that stand in another one as well, and what is known of two compilations that
go through them side by side. -/
structure Copy (env env' : Env) where
  map : NodeId → NodeId
  has : NodeId → Prop
  names : FunctionNames → FunctionNames → Prop
  fault : Error → Prop
  even : Prop
  stem : env'.functionStem = env.functionStem
  sortLimit : env'.sortLimit = env.sortLimit
  inj : ∀ {x y}, has x → has y → map x = map y → x = y
  child : ∀ {x y}, has x → y ∈ env.graph.children x → has y
  copied : ∀ {x}, has x → env.graph.Copied env'.graph map x
  find : ∀ {F F' x input function shape f}, names F F' → has x →
    env.graph.node? x = some ⟨.userMap input function, shape⟩ →
    env.graph.function function = .ok f → F'.find? f.name = F.find? f.name
  register : ∀ {F F' x input function shape f}, names F F' → has x →
    env.graph.node? x = some ⟨.userMap input function, shape⟩ →
    env.graph.function function = .ok f →
    (F'.register f.name env.functionStem).1 = (F.register f.name env.functionStem).1 ∧
      names (F.register f.name env.functionStem).2 (F'.register f.name env.functionStem).2
  fails : ∀ {e}, e ≠ .overflow → e ≠ .inconsistent .cyclic → fault e
  overflows : ∀ {x input op shape}, has x → env.graph.node? x = some ⟨.text input op, shape⟩ →
    op.Overflows → fault .overflow
  cyclic : even → fault (.inconsistent .cyclic)
  size : even → env'.graph.size = env.graph.size
  ordered : ¬ even → env.graph.Ordered ∧ env'.graph.Ordered ∧
    ∀ x, has x → x < env.graph.size ∧ map x < env'.graph.size

namespace Copy

variable {env env' : Env} (c : Copy env env') {α β γ δ : Type} {x : NodeId}

/-! ## Checks -/

theorem faulty {e e' : Error} (h : e.renamed? c.map = some e') :
    c.fault e ∧ e' = e.rename c.map := by
  unfold Error.renamed? at h
  split at h
  · cases h
  · cases h
  · next hover hcyclic => exact ⟨c.fails hover hcyclic, (Option.some.inj h).symm⟩

/-- Both checks fail with the same error, up to ids, or their results are related. -/
def Agree (R : α → β → Prop) (x : Except Error α) (y : Except Error β) : Prop :=
  match x, y with
  | .ok a, .ok b => R a b
  | .error e, .error e' => c.fault e ∧ e' = e.rename c.map
  | _, _ => False

variable {c} {R : α → β → Prop} {S : γ → δ → Prop}

namespace Agree

theorem pure {a : α} {b : β} (h : R a b) :
    c.Agree R (Pure.pure a : Except Error α) (Pure.pure b) := h

theorem throw {e e' : Error} (he : c.fault e) (h : e' = e.rename c.map) :
    c.Agree R (MonadExcept.throw e : Except Error α) (MonadExcept.throw e') := ⟨he, h⟩

theorem bind {x : Except Error α} {y : Except Error β} {f : α → Except Error γ}
    {k : β → Except Error δ} (h : c.Agree R x y)
    (hf : ∀ a b, x = .ok a → R a b → c.Agree S (f a) (k b)) : c.Agree S (x >>= f) (y >>= k) := by
  cases x with
  | ok a =>
    cases y with
    | ok b => exact hf a b rfl h
    | error e => exact h.elim
  | error e =>
    cases y with
    | ok b => exact h.elim
    | error e' => exact h

theorem ite {p : Prop} [Decidable p] {x x' : Except Error α} {y y' : Except Error β}
    (h : p → c.Agree R x y) (h' : ¬ p → c.Agree R x' y') :
    c.Agree R (if p then x else x') (if p then y else y') := by
  split
  · next hp => exact h hp
  · next hp => exact h' hp

theorem imp {R' : α → β → Prop} {x : Except Error α} {y : Except Error β} (h : c.Agree R x y)
    (hR : ∀ a b, R a b → R' a b) : c.Agree R' x y := by
  cases x <;> cases y
  case ok.ok a b => exact hR a b h
  all_goals exact h

/-- With the same results, the checks differ only in the ids that an error names. -/
theorem eq_mapError {x y : Except Error α} (h : c.Agree Eq x y) :
    y = x.mapError (Error.rename c.map) := by
  cases x with
  | ok a =>
    cases y with
    | ok b => exact congrArg Except.ok (Eq.symm h)
    | error e => exact h.elim
  | error e =>
    cases y with
    | ok b => exact h.elim
    | error e' => exact congrArg Except.error h.2

end Agree

/-! ## Nodes -/

section Nodes

variable {x : NodeId}

theorem operand {n : Node} (hx : c.has x) (hn : env.graph.node? x = some n) {o : Operand}
    (ho : o ∈ n.kind.operands) : c.has o.2 := by
  apply c.child hx
  rw [Graph.children, hn]
  exact List.mem_map_of_mem ho

/-- What follows a look at a node is followed with the two forms of the node. -/
theorem node_agree {f : Node → Except Error γ} {k : Node → Except Error δ} (hx : c.has x)
    (h : ∀ n functions, env.graph.node? x = some n →
      c.Agree S (f n) (k (n.rename c.map functions))) :
    c.Agree S (env.graph.node x >>= f) (env'.graph.node (c.map x) >>= k) := by
  obtain ⟨functions, hcopy, -⟩ := c.copied hx
  rw [Graph.node, Graph.node, hcopy]
  cases hn : env.graph.node? x with
  | none => exact c.faulty rfl
  | some n => exact h n functions hn

theorem isCollection_eq (hx : c.has x) :
    env'.graph.isCollection (c.map x) = env.graph.isCollection x := by
  obtain ⟨functions, hcopy, -⟩ := c.copied hx
  rw [Graph.isCollection, Graph.isCollection, hcopy]
  cases env.graph.node? x with
  | none | some n => rfl

theorem children_eq (hx : c.has x) :
    env'.graph.children (c.map x) = (env.graph.children x).map c.map := by
  obtain ⟨functions, hcopy, -⟩ := c.copied hx
  rw [Graph.children, Graph.children, hcopy]
  cases env.graph.node? x with
  | none => rfl
  | some n => exact Node.children_rename n

theorem map_eq_iff {y : NodeId} (hx : c.has x) (hy : c.has y) : c.map x = c.map y ↔ x = y :=
  ⟨c.inj hx hy, fun h => h ▸ rfl⟩

/-- A table of nodes with their ids replaced gives the same answers. -/
theorem lookup_map {l : List (NodeId × α)} (hl : ∀ p ∈ l, c.has p.1) (hx : c.has x) :
    (l.map (Prod.map c.map id)).lookup (c.map x) = l.lookup x := by
  induction l with
  | nil => rfl
  | cons p rest ih =>
    have hp := hl p (.head _)
    have hbeq : (c.map x == c.map p.1) = (x == p.1) := by
      rw [Bool.eq_iff_iff, beq_iff_eq, beq_iff_eq]
      exact map_eq_iff hx hp
    rw [List.map_cons, List.lookup_cons, List.lookup_cons]
    simp only [Prod.map_fst, Prod.map_snd, hbeq, id_eq]
    rw [ih fun q hq => hl q (.tail _ hq)]

end Nodes

/-! ## Searches -/

/-- Searches of the given depths get through all that is below `x`. -/
def Reaches (c : Copy env env') (depth depth' : Nat) (x : NodeId) : Prop :=
  c.even ∧ depth = depth' ∨ ¬ c.even ∧ x < depth ∧ c.map x < depth'

theorem reaches_depth (hx : c.has x) :
    c.Reaches env.depth env'.depth x := by
  by_cases heven : c.even
  · exact .inl ⟨heven, by rw [Env.depth, Env.depth, c.size heven]⟩
  · obtain ⟨-, -, hlt⟩ := c.ordered heven
    exact .inr ⟨heven, Nat.lt_succ_of_lt (hlt x hx).1, Nat.lt_succ_of_lt (hlt x hx).2⟩

/-- Operands stand before their operators in both graphs, unless the depths are the same. -/
theorem child_lt {y : NodeId} (heven : ¬ c.even) (hx : c.has x) (hy : y ∈ env.graph.children x) :
    y < x ∧ c.map y < c.map x := by
  obtain ⟨hord, hord', -⟩ := c.ordered heven
  refine ⟨hord x y hy, hord' (c.map x) (c.map y) ?_⟩
  rw [children_eq hx]
  exact List.mem_map_of_mem hy

/-- A search is led by the operands of the nodes it comes to. Without depth left it is a search of
equal depth. -/
@[elab_as_elim]
theorem Reaches.induction {P : Nat → Nat → NodeId → Prop} (hzero : c.even → ∀ x, P 0 0 x)
    (hsucc : ∀ depth depth' x, c.has x → (∀ y ∈ env.graph.children x, c.has y → P depth depth' y) →
      P (depth + 1) (depth' + 1) x) {depth depth' : Nat} (hx : c.has x)
    (h : c.Reaches depth depth' x) :
    P depth depth' x := by
  induction depth generalizing depth' x with
  | zero =>
    rcases h with ⟨heven, rfl⟩ | ⟨-, hlt, -⟩
    · exact hzero heven x
    · lia
  | succ depth ih =>
    cases depth' with
    | zero =>
      rcases h with ⟨-, heq⟩ | ⟨-, -, hlt⟩
      · lia
      · lia
    | succ depth' =>
      refine hsucc depth depth' x hx fun y hy hhas => ih hhas ?_
      rcases h with ⟨heven, heq⟩ | ⟨heven, hlt, hlt'⟩
      · exact .inl ⟨heven, by lia⟩
      · have hchild := child_lt heven hx hy
        exact .inr ⟨heven, by lia, by lia⟩

section Searches

variable {visible visible' : Visible} {x : NodeId} {depth depth' : Nat} {n : Node}

theorem mem_children (hn : env.graph.node? x = some n) {o : Operand} (ho : o ∈ n.kind.operands) :
    o.2 ∈ env.graph.children x := by
  rw [Graph.children, hn]
  exact List.mem_map_of_mem ho

/-- What goes on with the input of a filter, slice or sort goes on with its copy. -/
theorem passThrough_agree (hn : env.graph.node? x = some n) (functions : FunctionId → FunctionId)
    {f : NodeId → Except Error γ} {k : NodeId → Except Error δ} {r : Except Error γ}
    {r' : Except Error δ} (hf : ∀ y ∈ env.graph.children x, c.Agree S (f y) (k (c.map y)))
    (hr : c.Agree S r r') :
    c.Agree S
      (match n.kind.passThrough? with
        | some input => f input
        | none => r)
      (match (n.kind.rename c.map functions).passThrough? with
        | some input => k input
        | none => r') := by
  rw [Kind.passThrough?_rename]
  cases hp : n.kind.passThrough? with
  | none => exact hr
  | some input => exact hf input (mem_children hn (mem_operands_of_passThrough? hp))

theorem addressable_agree (hv : ∀ x, c.has x → visible'.lookup (c.map x) = visible.lookup x)
    (hx : c.has x) (h : c.Reaches depth depth' x) :
    c.Agree Eq (addressable env.graph visible depth x)
      (addressable env'.graph visible' depth' (c.map x)) := by
  refine Reaches.induction ?_ ?_ hx h
  · intro heven x
    exact .throw (c.cyclic heven) rfl
  · intro depth depth' x hx ih
    have hchild : ∀ y ∈ env.graph.children x,
        c.Agree Eq (addressable env.graph visible depth y)
          (addressable env'.graph visible' depth' (c.map y)) := fun y hy => ih y hy (c.child hx hy)
    rw [addressable, addressable, hv x hx]
    refine .ite (fun _ => .pure rfl) fun _ => node_agree hx fun n functions hn => ?_
    obtain ⟨kind, shape⟩ := n
    cases kind with
    | join left right predicate how fields =>
      have hleft := mem_children hn (o := (.left, left)) (.head _)
      have hright := mem_children hn (o := (.right, right)) (by simp [Kind.operands])
      refine (hchild left hleft).bind fun b b' _ hbb => ?_
      subst hbb
      exact .ite (fun _ => hchild right hright) fun _ => .pure rfl
    | _ => exact passThrough_agree hn functions hchild (.pure (Eq.refl false))

theorem columnRef_agree (hv : ∀ x, c.has x → visible'.lookup (c.map x) = visible.lookup x)
    (hx : c.has x) (h : c.Reaches depth depth' x) (field : String) :
    c.Agree Eq (columnRef env.graph visible depth x field)
      (columnRef env'.graph visible' depth' (c.map x) field) := by
  revert field
  refine Reaches.induction ?_ ?_ hx h
  · intro heven x field
    exact .throw (c.cyclic heven) rfl
  · intro depth depth' x hx ih field
    have hchild : ∀ y ∈ env.graph.children x, ∀ field,
        c.Agree Eq (columnRef env.graph visible depth y field)
          (columnRef env'.graph visible' depth' (c.map y) field) :=
      fun y hy => ih y hy (c.child hx hy)
    have hout : c.Agree Eq (throw (.schema (.outOfScope x)) : Except Error (Alias × String))
        (throw (.schema (.outOfScope (c.map x)))) := c.faulty rfl
    rw [columnRef, columnRef, hv x hx]
    cases visible.lookup x with
    | some label => exact .pure rfl
    | none =>
      refine node_agree hx fun n functions hn => ?_
      obtain ⟨kind, shape⟩ := n
      cases kind with
      | join left right predicate how fields =>
        have hleft := mem_children hn (o := (.left, left)) (.head _)
        have hright := mem_children hn (o := (.right, right)) (by simp [Kind.operands])
        dsimp only [Node.rename, Kind.rename]
        cases fields.find? (·.name == field) with
        | none => exact c.faulty rfl
        | some f =>
          dsimp only
          cases f.side with
          | left => exact hchild left hleft f.source
          | right => exact hchild right hright f.source
      | _ =>
        exact passThrough_agree (f := (columnRef env.graph visible depth · field))
          (k := (columnRef env'.graph visible' depth' · field)) hn functions
          (fun y hy => hchild y hy field) hout

theorem lift_agree (hx : c.has x) (h : c.Reaches depth depth' x) :
    c.Agree (fun y y' => c.has y ∧ y' = c.map y) (lift env.graph depth x)
      (lift env'.graph depth' (c.map x)) := by
  refine Reaches.induction ?_ ?_ hx h
  · intro heven x
    exact .throw (c.cyclic heven) rfl
  · intro depth depth' x hx ih
    rw [lift, lift]
    refine node_agree hx fun n functions hn => ?_
    exact passThrough_agree hn functions (fun y hy => ih y hy (c.child hx hy)) (.pure ⟨hx, rfl⟩)

def Finds (c : Copy env env') (y y' : Option NodeId) : Prop :=
  y' = y.map c.map ∧ ∀ z ∈ y, c.has z

theorem firstM_agree {f f' : NodeId → Except Error (Option NodeId)} {l : List NodeId}
    (h : ∀ y ∈ l, c.Agree c.Finds (f y) (f' (c.map y))) :
    c.Agree c.Finds (Graph.firstM f l) (Graph.firstM f' (l.map c.map)) := by
  induction l with
  | nil => exact .pure ⟨rfl, nofun⟩
  | cons y rest ih =>
    refine (h y (.head _)).bind fun a b _ hab => ?_
    obtain ⟨rfl, hhas⟩ := hab
    cases a with
    | none => exact ih fun z hz => h z (.tail _ hz)
    | some z => exact .pure ⟨rfl, hhas⟩

theorem firstCollection_agree (hx : c.has x) (h : c.Reaches depth depth' x) :
    c.Agree c.Finds (env.graph.firstCollection depth x)
      (env'.graph.firstCollection depth' (c.map x)) := by
  refine Reaches.induction ?_ ?_ hx h
  · intro heven x
    exact .throw (c.cyclic heven) rfl
  · intro depth depth' x hx ih
    rw [Graph.firstCollection, Graph.firstCollection]
    refine node_agree hx fun n functions hn => .ite (fun _ => .pure ⟨rfl, ?_⟩) fun _ => ?_
    · intro z hz
      obtain rfl := Option.mem_some_iff.1 hz
      exact hx
    · rw [Node.children_rename]
      refine firstM_agree fun y hy => ?_
      have hchild : y ∈ env.graph.children x := by rwa [Graph.children, hn]
      exact ih y hchild (c.child hx hchild)

theorem owningCollection_agree (hx : c.has x) :
    c.Agree (fun y y' => c.has y ∧ y' = c.map y) (env.graph.owningCollection x)
      (env'.graph.owningCollection (c.map x)) := by
  refine (firstCollection_agree hx (reaches_depth hx)).bind fun y y' _ hy => ?_
  obtain ⟨rfl, hhas⟩ := hy
  cases y with
  | none => exact c.faulty rfl
  | some z => exact .pure ⟨hhas z rfl, rfl⟩

end Searches

/-! ## Walks -/

/-- Two walks are at the same place, each in its graph. -/
structure Walks (c : Copy env env') (w w' : Walk) : Prop where
  graph : w.graph = env.graph ∧ w'.graph = env'.graph
  topDown : w.order = .topDown ∧ w'.order = .topDown
  unique : w.unique = true ∧ w'.unique = true
  stack : w'.stack = w.stack.map (Prod.map c.map id) ∧ ∀ p ∈ w.stack, c.has p.1
  seen : w'.seen = w.seen.map c.map ∧ ∀ x ∈ w.seen, c.has x
  pruned : w'.pruned = w.pruned.map c.map ∧ ∀ x ∈ w.pruned, c.has x
  hidden : w'.hidden = w.hidden.map (Prod.map c.map c.map) ∧
    ∀ p ∈ w.hidden, c.has p.1 ∧ c.has p.2
  pending : w'.pending = w.pending.map c.map ∧ ∀ x ∈ w.pending, c.has x
  nodup : w.seen.Nodup

theorem mem_map_iff {l : List NodeId} (hl : ∀ y ∈ l, c.has y) (hx : c.has x) :
    c.map x ∈ l.map c.map ↔ x ∈ l := by
  rw [List.mem_map]
  constructor
  · rintro ⟨y, hy, heq⟩
    exact c.inj (hl y hy) hx heq ▸ hy
  · intro h
    exact ⟨x, h, rfl⟩

namespace Walks

variable {w w' : Walk} {x : NodeId} {y : NodeId}

theorem start {root : NodeId} (hroot : c.has root) :
    c.Walks (.start env.graph root .topDown true)
      (.start env'.graph (c.map root) .topDown true) where
  graph := ⟨rfl, rfl⟩
  topDown := ⟨rfl, rfl⟩
  unique := ⟨rfl, rfl⟩
  stack := ⟨rfl, by simpa [Walk.start] using hroot⟩
  seen := ⟨rfl, nofun⟩
  pruned := ⟨rfl, nofun⟩
  hidden := ⟨rfl, nofun⟩
  pending := ⟨rfl, nofun⟩
  nodup := .nil

variable (h : c.Walks w w')

include h

theorem prune (hx : c.has x) :
    c.Walks (w.prune x) (w'.prune (c.map x)) := by
  refine { h with pruned := ⟨?_, ?_⟩ }
  · rw [Walk.prune, h.pruned.1]
    rfl
  · intro y hy
    rcases List.mem_cons.1 hy with rfl | hy
    · exact hx
    · exact h.pruned.2 y hy

theorem hide (hx : c.has x) (hy : c.has y) :
    c.Walks (w.hide x y) (w'.hide (c.map x) (c.map y)) := by
  refine { h with hidden := ⟨?_, ?_⟩ }
  · rw [Walk.hide, h.hidden.1]
    rfl
  · intro p hp
    rcases List.mem_cons.1 hp with rfl | hp
    · exact ⟨hx, hy⟩
    · exact h.hidden.2 p hp

theorem skips_eq (hx : c.has x) :
    w'.skips (c.map x) = w.skips x := by
  rw [Walk.skips, Walk.skips, h.unique.1, h.unique.2, h.seen.1]
  simp only [mem_map_iff h.seen.2 hx]

theorem hidden_iff (hx : c.has x) (hy : c.has y) :
    (c.map x, c.map y) ∈ w'.hidden ↔ (x, y) ∈ w.hidden := by
  rw [h.hidden.1, List.mem_map]
  constructor
  · rintro ⟨p, hp, heq⟩
    obtain ⟨h₁, h₂⟩ := Prod.mk.inj heq
    have hhas := h.hidden.2 p hp
    obtain rfl := c.inj hhas.1 hx h₁
    obtain rfl := c.inj hhas.2 hy h₂
    exact hp
  · intro hp
    exact ⟨(x, y), hp, rfl⟩

theorem visibleChildren_eq (hx : c.has x) :
    w'.visibleChildren (c.map x) = (w.visibleChildren x).map c.map := by
  rw [Walk.visibleChildren, Walk.visibleChildren, h.pruned.1]
  simp only [mem_map_iff h.pruned.2 hx]
  split
  · rfl
  · rw [h.graph.1, h.graph.2, children_eq hx, List.filter_map]
    congr 1
    apply List.filter_congr
    intro y hy
    simp only [Function.comp_apply, hidden_iff h hx (c.child hx hy)]

theorem visibleChildren_has (hx : c.has x) :
    ∀ y ∈ w.visibleChildren x, c.has y := by
  intro y hy
  rw [Walk.visibleChildren, h.graph.1] at hy
  split at hy
  · cases hy
  · exact c.child hx (List.mem_of_mem_filter hy)

theorem listed :
    w'.listed = w.listed.map (Prod.map c.map id) ∧ ∀ p ∈ w.listed, c.has p.1 := by
  rw [Walk.listed, Walk.listed, h.pending.1, h.stack.1]
  cases hp : w.pending with
  | none => exact ⟨rfl, h.stack.2⟩
  | some last =>
    have hlast := h.pending.2 last hp
    constructor
    · simp only [Option.map_some, h.visibleChildren_eq hlast, List.map_append, List.map_map]
      rfl
    · intro p hp
      rcases List.mem_append.1 hp with hp | hp
      · obtain ⟨y, hy, rfl⟩ := List.mem_map.1 hp
        exact h.visibleChildren_has hlast y hy
      · exact h.stack.2 p hp

/-- Entries that were met are passed over on both sides. -/
theorem dropWhile_eq {l : List (NodeId × Bool)} (hl : ∀ p ∈ l, c.has p.1) :
    (l.map (Prod.map c.map id)).dropWhile (fun (x, _) => w'.skips x) =
      (l.dropWhile fun (x, _) => w.skips x).map (Prod.map c.map id) := by
  induction l with
  | nil => rfl
  | cons p rest ih =>
    have hskip := h.skips_eq (hl p (.head _))
    rw [List.map_cons, List.dropWhile_cons, List.dropWhile_cons]
    simp only [Prod.map_fst, hskip]
    split
    · exact ih fun q hq => hl q (.tail _ hq)
    · rfl

/-- Both walks come to the same node next, or both have ended. -/
theorem next :
    w.next = none ∧ w'.next = none ∨
      ∃ x v v', w.next = some (x, v) ∧ w'.next = some (c.map x, v') ∧ c.has x ∧ c.Walks v v' ∧
        v.seen.length = w.seen.length + 1 := by
  obtain ⟨hlisted, hhas⟩ := h.listed
  rw [Walk.next, Walk.next, h.topDown.1, h.topDown.2]
  dsimp only
  rw [Walk.nextTopDown, Walk.nextTopDown, hlisted, h.dropWhile_eq hhas]
  cases hdrop : w.listed.dropWhile fun (x, _) => w.skips x with
  | nil => exact .inl ⟨rfl, rfl⟩
  | cons p rest =>
    obtain ⟨x, b⟩ := p
    have hsub : ∀ q ∈ (x, b) :: rest, c.has q.1 := fun q hq =>
      hhas q ((List.dropWhile_sublist _).subset (hdrop ▸ hq))
    have hx := hsub (x, b) (.head _)
    have hnew : x ∉ w.seen := by
      have hskip := List.head?_dropWhile_not (fun (x, _) => w.skips x) w.listed
      rw [hdrop] at hskip
      simpa [Walk.skips, h.unique.1] using hskip
    refine .inr ⟨x, _, _, rfl, rfl, hx, ?_, ?_⟩
    · rw [Walk.meet, Walk.meet, h.unique.1, h.unique.2, if_pos rfl, if_pos rfl]
      exact
        { graph := h.graph
          topDown := h.topDown
          unique := ⟨rfl, rfl⟩
          stack := ⟨rfl, fun q hq => hsub q (.tail _ hq)⟩
          seen := ⟨by rw [h.seen.1]; rfl, by
            intro y hy
            rcases List.mem_cons.1 hy with rfl | hy
            · exact hx
            · exact h.seen.2 y hy⟩
          pruned := h.pruned
          hidden := h.hidden
          pending := ⟨rfl, fun y hy => Option.mem_some_iff.1 hy ▸ hx⟩
          nodup := List.nodup_cons.2 ⟨hnew, h.nodup⟩ }
    · rw [Walk.meet, h.unique.1, if_pos rfl]
      rfl

/-- Where ids are bounded, so is the number of nodes that were met. -/
theorem length_seen_le (heven : ¬ c.even) :
    w.seen.length ≤ env.graph.size ∧ w.seen.length ≤ env'.graph.size := by
  obtain ⟨-, -, hlt⟩ := c.ordered heven
  have hbound : ∀ (l : List Nat) (n : Nat), l.Nodup → (∀ x ∈ l, x < n) → l.length ≤ n := by
    intro l n hl hn
    have hsub : l ⊆ List.range n := fun x hx => List.mem_range.2 (hn x hx)
    simpa using (List.subperm_of_subset hl hsub).length_le
  constructor
  · exact hbound w.seen _ h.nodup fun x hx => (hlt x (h.seen.2 x hx)).1
  · rw [← List.length_map (f := c.map)]
    apply hbound
    · exact h.nodup.map_on fun x hx y hy heq => c.inj (h.seen.2 x hx) (h.seen.2 y hy) heq
    · intro y hy
      obtain ⟨x, hx, rfl⟩ := List.mem_map.1 hy
      exact (hlt x (h.seen.2 x hx)).2

end Walks

end Copy

end Compile

end PlanSql

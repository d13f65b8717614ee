import PlanSql.Proofs.Compile.Actions
import PlanSql.Proofs.Build.Operands

/-!
# Which columns can be named

A collection is covered by what is visible if it is visible itself, or if it is a filter, slice or
sort of something covered, or a join of two covered sides. The searches of a compilation find
exactly that out, and every field of a covered collection has a name.
-/

namespace PlanSql

namespace Graph

variable {g : Graph} {id x : NodeId} {n : Node} {o : Operand} {root c : NodeId}

/-- Where the operands of a node of a well-formed graph are. -/
structure Child (g : Graph) (n : Node) (id : NodeId) (o : Operand) : Prop where
  before : o.2 < id
  known : g.IsValue o.2 ∨ g.IsRelation o.2
  value : n.isCollection = true → o.1.isInput = false → g.IsValue o.2

theorem WellFormed.child (hw : g.WellFormed True) (hn : g.node? id = some n)
    (ho : o ∈ n.kind.operands) : g.Child n id o := by
  have hext := before_extends g id
  cases hs : n.shape with
  | collection schema =>
    rcases (hw.collectionFits hn hs).operand o ho with ⟨_, hslot, hr⟩ | hv
    · have hrel := hr fun _ _ _ => trivial
      exact ⟨lt_of_isRelation_before hrel, .inr (hext.isRelation hrel),
        fun _ h => by simp [hslot] at h⟩
    · exact ⟨lt_of_isValue_before hv, .inl (hext.isValue hv), fun _ _ => hext.isValue hv⟩
  | sequence t | scalar t =>
    have ht : n.typed? = some t := by simp [Node.typed?, hs]
    have hno : n.isCollection = false := by simp [Node.isCollection, hs]
    rcases (hw.valueFits hn ht).operand o ho with hv | ⟨_, hr⟩
    · exact ⟨lt_of_isValue_before hv, .inl (hext.isValue hv), fun h => by simp [hno] at h⟩
    · exact ⟨lt_of_isRelation_before hr, .inr (hext.isRelation hr), fun h => by simp [hno] at h⟩

theorem WellFormed.input (hw : g.WellFormed True) (hn : g.node? id = some n)
    (hx : x ∈ inputs n.kind) :
    x < id ∧ g.isCollection x = true ∧ n.isCollection = true := by
  have hfits := hw id n hn
  obtain ⟨kind, shape⟩ := n
  cases shape with
  | collection schema =>
    suffices h : (g.before id).IsRelation x from
      ⟨lt_of_isRelation_before h, isCollection_iff.2 ((before_extends g id).isRelation h), rfl⟩
    cases kind with
    | project | summary | groupBy | mutate =>
      obtain rfl := List.mem_singleton.1 hx
      exact hfits.1
    | filter | sort =>
      obtain rfl := List.mem_singleton.1 hx
      exact ⟨schema, hfits.1⟩
    | distinct =>
      obtain rfl := List.mem_singleton.1 hx
      exact hfits.1 trivial
    | slice =>
      obtain rfl := List.mem_singleton.1 hx
      exact ⟨schema, hfits⟩
    | join left right predicate how fields =>
      obtain ⟨_, ls, rs, hl, hr, _⟩ := hfits
      simp only [inputs, List.mem_cons, List.not_mem_nil, or_false] at hx
      rcases hx with rfl | rfl
      · exact ⟨ls, hl⟩
      · exact ⟨rs, hr⟩
    | union left right distinct =>
      simp only [inputs, List.mem_cons, List.not_mem_nil, or_false] at hx
      rcases hx with rfl | rfl
      · exact ⟨schema, hfits.1⟩
      · exact ⟨schema, hfits.2⟩
    | _ => exact absurd hx List.not_mem_nil
  | sequence typed | scalar typed =>
    cases kind <;> first | exact hfits.elim | exact absurd hx List.not_mem_nil

/-- A filter, slice or sort has the fields of its input. -/
theorem WellFormed.passThrough (hw : g.WellFormed True) {input : NodeId}
    (hn : g.node? id = some n) (hp : n.kind.passThrough? = some input) :
    input < id ∧ ∀ schema, g.schemaOf id = .ok schema → g.schemaOf input = .ok schema := by
  have hmem : (.input, input) ∈ n.kind.operands := by
    cases hk : n.kind with
    | filter i q | slice i a b c | sort i keys => simp_all [Kind.operands, Kind.passThrough?]
    | _ => simp [hk, Kind.passThrough?] at hp
  refine ⟨(hw.child hn hmem).before, fun schema hs => ?_⟩
  obtain ⟨m, hm, hshape⟩ := schemaOf_eq_ok_iff.1 hs
  cases hn.symm.trans hm
  have hfits := hw.collectionFits hn hshape
  suffices h : (g.before id).schemaOf input = .ok schema from
    Keeps.schemaOf input (before_extends g id) schema h
  obtain ⟨kind, shape⟩ := n
  cases kind with
  | filter i q => obtain rfl := Option.some.inj hp; exact hfits.1
  | slice i a b c => obtain rfl := Option.some.inj hp; exact hfits
  | sort i keys => obtain rfl := Option.some.inj hp; exact hfits.1
  | _ => cases hp

theorem Reach.operand (h : g.Reach root id) (hn : g.node? id = some n) (ho : o ∈ n.kind.operands) :
    g.Reach root o.2 := by
  refine h.step ?_
  rw [Graph.children, hn]
  exact List.mem_map_of_mem ho

theorem Reach.le (hw : g.WellFormed True) (h : g.Reach id x) :
    x ≤ id := by
  induction h with
  | refl => exact Nat.le_refl id
  | @step y child _ hc ih =>
    unfold children at hc
    split at hc
    · next n hn =>
      obtain ⟨o, ho, rfl⟩ := List.mem_map.1 hc
      exact Nat.le_of_lt (Nat.lt_of_lt_of_le (hw.child hn ho).before ih)
    · exact absurd hc List.not_mem_nil

theorem Reach.trans (h : g.Reach root id) (h' : g.Reach id x) :
    g.Reach root x := by
  induction h' with
  | refl => exact h
  | step _ hc ih => exact .step ih hc

theorem firstCollection_reach {depth : Nat} (h : g.firstCollection depth id = .ok (some c)) :
    g.Reach id c ∧ g.isCollection c = true := by
  induction depth generalizing id with
  | zero => cases h
  | succ depth ih =>
    obtain ⟨n, hn, h⟩ := bind_ok h
    have hfound := node_eq_ok_iff.1 hn
    split at h
    · next hc =>
      cases h
      exact ⟨.refl, by simp [isCollection, hfound, hc]⟩
    · have hmany : ∀ ids, (∀ x ∈ ids, x ∈ g.children id) →
          firstM (g.firstCollection depth) ids = .ok (some c) →
          g.Reach id c ∧ g.isCollection c = true := by
        intro ids hids hfirst
        induction ids with
        | nil => cases hfirst
        | cons x rest ihr =>
          obtain ⟨found, hx, hrest⟩ := bind_ok hfirst
          cases found with
          | some y =>
            cases hrest
            obtain ⟨hreach, hcollection⟩ := ih hx
            exact ⟨Reach.trans (.step .refl (hids x (.head _))) hreach, hcollection⟩
          | none => exact ihr (fun y hy => hids y (.tail _ hy)) hrest
      refine hmany n.children (fun x hx => ?_) h
      rw [children, hfound]
      exact hx

theorem owningCollection_reach (h : g.owningCollection id = .ok c) :
    g.Reach id c ∧ g.isCollection c = true := by
  obtain ⟨found, hfound, h⟩ := bind_ok h
  cases found with
  | none => cases h
  | some x =>
    cases h
    exact firstCollection_reach hfound

end Graph

namespace Schema

variable {s : Schema}

theorem find?_isSome_of_mem {f : Field} (h : f ∈ s.fields) :
    (s.find? f.name).isSome := by
  rw [find?, List.find?_isSome]
  exact ⟨f, h, by simp⟩

theorem fields_of_ofFields {fields : List Field} (h : ofFields fields = .ok s) :
    s.fields = fields := by
  obtain ⟨_, _, h⟩ := bind_ok h
  cases h
  rfl

end Schema

theorem Build.source_mem_of_mem_joinFields {side : JoinSide} {suffix : String} {own other : Schema}
    {f : JoinField} (h : f ∈ Build.joinFields side suffix own other) :
    f.side = side ∧ (own.find? f.source).isSome := by
  obtain ⟨field, hfield, rfl⟩ := List.mem_map.1 h
  exact ⟨rfl, Schema.find?_isSome_of_mem hfield⟩

theorem Graph.WellFormed.joinField {g : Graph} (hw : g.WellFormed True) {id left right : NodeId}
    {predicate : Option NodeId} {how : JoinKind} {fields : List JoinField} {shape : Shape}
    {schema : Schema} {name : String}
    (hn : g.node? id = some ⟨.join left right predicate how fields, shape⟩)
    (hs : g.schemaOf id = .ok schema) (hf : (schema.find? name).isSome) :
    ∃ f own, fields.find? (·.name == name) = some f ∧
      g.schemaOf (match f.side with | .left => left | .right => right) = .ok own ∧
      (own.find? f.source).isSome := by
  obtain ⟨m, hm, hshape⟩ := schemaOf_eq_ok_iff.1 hs
  cases hn.symm.trans hm
  obtain ⟨_, ls, rs, hl, hr, _, hfields, hschema⟩ := hw.collectionFits hn hshape
  obtain ⟨f, hfind⟩ : ∃ f, fields.find? (·.name == name) = some f := by
    rw [← Option.isSome_iff_exists, List.find?_isSome]
    rw [Schema.find?, Schema.fields_of_ofFields hschema, List.find?_isSome] at hf
    obtain ⟨field, hmem, hname⟩ := hf
    obtain ⟨f, hf, rfl⟩ := List.mem_map.1 hmem
    exact ⟨f, hf, hname⟩
  have hext := before_extends g id
  have hmem := List.mem_of_find?_eq_some hfind
  rw [hfields, List.mem_append] at hmem
  rcases hmem with hmem | hmem
  · obtain ⟨hside, hsource⟩ := Build.source_mem_of_mem_joinFields hmem
    refine ⟨f, ls, hfind, ?_, hsource⟩
    rw [hside]
    exact Keeps.schemaOf left hext ls hl
  · obtain ⟨hside, hsource⟩ := Build.source_mem_of_mem_joinFields hmem
    refine ⟨f, rs, hfind, ?_, hsource⟩
    rw [hside]
    exact Keeps.schemaOf right hext rs hr

namespace Compile

open PlanSql.Sql

/-- The columns of a collection can be named. -/
inductive Covered (g : Graph) (visible : Visible) : NodeId → Prop
  | seen {id : NodeId} : (visible.lookup id).isSome → Covered g visible id
  | join {id left right : NodeId} {predicate : Option NodeId} {how : JoinKind}
    {fields : List JoinField} {shape : Shape} :
    g.node? id = some ⟨.join left right predicate how fields, shape⟩ →
    Covered g visible left → Covered g visible right → Covered g visible id
  | through {id input : NodeId} {n : Node} : g.node? id = some n →
    n.kind.passThrough? = some input → Covered g visible input → Covered g visible id

section

variable {g : Graph} {visible visible' : Visible} {id : NodeId} {depth : Nat}
variable {schema : Schema} {name : String}

theorem Covered.mono (h : Covered g visible id)
    (hv : ∀ x, (visible.lookup x).isSome → (visible'.lookup x).isSome) : Covered g visible' id := by
  induction h with
  | seen hseen => exact .seen (hv _ hseen)
  | join hn _ _ ihl ihr => exact .join hn ihl ihr
  | through hn hp _ ih => exact .through hn hp ih

/-- What becomes visible does not hide anything. -/
theorem Covered.append_left (h : Covered g visible id) (more : Visible) :
    Covered g (more ++ visible) id :=
  h.mono fun x hx => by simp [List.lookup_append, hx]

theorem Covered.append_right (h : Covered g visible id) (more : Visible) :
    Covered g (visible ++ more) id :=
  h.mono fun x hx => by simp [List.lookup_append, hx]

theorem lookup_isSome_iff {x : NodeId} :
    (visible.lookup x).isSome ↔ ∃ label, (x, label) ∈ visible := by
  induction visible with
  | nil => simp
  | cons entry rest ih =>
    obtain ⟨y, label⟩ := entry
    by_cases h : x = y
    · subst h
      simp
    · have hne : (x == y) = false := beq_false_of_ne h
      simp [List.lookup_cons, hne, ih, h]

theorem Covered.reverse (h : Covered g visible id) : Covered g visible.reverse id :=
  h.mono fun x hx => by
    rw [lookup_isSome_iff] at hx ⊢
    simpa using hx

variable (hw : g.WellFormed True)

include hw

theorem Covered.columnRef_ok (h : Covered g visible id) (hs : g.schemaOf id = .ok schema)
    (hf : (schema.find? name).isSome) (hd : id < depth) :
    ∃ r, columnRef g visible depth id name = .ok r := by
  induction h generalizing schema name depth with
  | @seen id hseen =>
    cases depth with
    | zero => exact absurd hd (Nat.not_lt_zero id)
    | succ depth =>
      obtain ⟨label, hlabel⟩ := Option.isSome_iff_exists.1 hseen
      exact ⟨(label, name), by rw [columnRef, hlabel]; rfl⟩
  | @join id left right predicate how fields shape hn _ _ ihl ihr =>
    cases depth with
    | zero => exact absurd hd (Nat.not_lt_zero id)
    | succ depth =>
      rw [columnRef]
      split
      · exact ⟨_, rfl⟩
      · obtain ⟨f, own, hfind, hown, hsource⟩ := hw.joinField hn hs hf
        have hleft : left < depth := Nat.lt_of_lt_of_le
          (hw.child hn (o := (.left, left)) (.head _)).before (Nat.lt_succ_iff.1 hd)
        have hright : right < depth := Nat.lt_of_lt_of_le
          (hw.child hn (o := (.right, right)) (by simp [Kind.operands])).before
          (Nat.lt_succ_iff.1 hd)
        rw [Graph.node_eq_ok_iff.2 hn]
        dsimp only [bind, Except.bind]
        rw [hfind]
        dsimp only
        cases hside : f.side with
        | left =>
          rw [hside] at hown
          exact ihl hown hsource hleft
        | right =>
          rw [hside] at hown
          exact ihr hown hsource hright
  | @through id input n hn hp _ ih =>
    cases depth with
    | zero => exact absurd hd (Nat.not_lt_zero id)
    | succ depth =>
      rw [columnRef]
      split
      · exact ⟨_, rfl⟩
      · obtain ⟨hlt, hschema⟩ := hw.passThrough hn hp
        have hinput := ih (hschema schema hs) hf (Nat.lt_of_lt_of_le hlt (Nat.lt_succ_iff.1 hd))
        rw [Graph.node_eq_ok_iff.2 hn]
        dsimp only [bind, Except.bind]
        split
        · next hk => simp [hk, Kind.passThrough?] at hp
        · rw [hp]
          exact hinput

/-- A field of a collection that has no name belongs to something out of scope. -/
theorem columnRef_eq_error (hs : g.schemaOf id = .ok schema) (hf : (schema.find? name).isSome)
    (hd : id < depth) {e : Error} (he : columnRef g visible depth id name = .error e) :
    ∃ x, e = .schema (.outOfScope x) := by
  induction depth generalizing id schema name with
  | zero => exact absurd hd (Nat.not_lt_zero id)
  | succ depth ih =>
    obtain ⟨⟨kind, shape⟩, hn, -⟩ := Graph.schemaOf_eq_ok_iff.1 hs
    have hbefore : ∀ {x}, x < id → x < depth :=
      fun hx => Nat.lt_of_lt_of_le hx (Nat.lt_succ_iff.1 hd)
    rw [columnRef, Graph.node_eq_ok_iff.2 hn] at he
    split at he
    · cases he
    · dsimp only [bind, Except.bind] at he
      split at he
      · next left right predicate how fields =>
        obtain ⟨f, own, hfind, hown, hsource⟩ := hw.joinField hn hs hf
        have hleft : left < id := (hw.child hn (o := (.left, left)) (.head _)).before
        have hright : right < id :=
          (hw.child hn (o := (.right, right)) (by simp [Kind.operands])).before
        rw [hfind] at he
        refine ih hown hsource (hbefore ?_) he
        cases f.side with
        | left => exact hleft
        | right => exact hright
      · split at he
        · next input hp =>
          obtain ⟨hlt, hschema⟩ := hw.passThrough hn hp
          exact ih (hschema schema hs) hf (hbefore hlt) he
        · exact ⟨id, (Except.error.inj he).symm⟩

/-- Whether a collection is covered can be found out. -/
theorem addressable_ok (hid : id < g.size) (hd : id < depth) :
    ∃ b, addressable g visible depth id = .ok b ∧ (b = true → Covered g visible id) := by
  induction depth generalizing id with
  | zero => exact absurd hd (Nat.not_lt_zero id)
  | succ depth ih =>
    have hsmaller : ∀ x, x < id → ∃ b, addressable g visible depth x = .ok b ∧
        (b = true → Covered g visible x) := fun x hx =>
      ih (Nat.lt_trans hx hid) (Nat.lt_of_lt_of_le hx (Nat.lt_succ_iff.1 hd))
    obtain ⟨n, hn⟩ := Option.isSome_iff_exists.1 ((g.node?_isSome_iff id).2 hid)
    rw [addressable]
    split
    · next hseen => exact ⟨true, rfl, fun _ => .seen hseen⟩
    · rw [Graph.node_eq_ok_iff.2 hn]
      obtain ⟨kind, shape⟩ := n
      dsimp only [bind, Except.bind]
      split
      · next left right predicate how fields =>
        obtain ⟨bl, hl, hcl⟩ := hsmaller left
          (hw.child hn (o := (.left, left)) (.head _)).before
        obtain ⟨br, hr, hcr⟩ := hsmaller right
          (hw.child hn (o := (.right, right)) (by simp [Kind.operands])).before
        rw [hl]
        cases bl with
        | false => exact ⟨false, rfl, fun h => by cases h⟩
        | true => exact ⟨br, hr, fun h => .join hn (hcl rfl) (hcr h)⟩
      · split
        · next input hp =>
          obtain ⟨b, hb, hc⟩ := hsmaller input (hw.passThrough hn hp).1
          exact ⟨b, hb, fun h => .through hn hp (hc h)⟩
        · exact ⟨false, rfl, fun h => by cases h⟩

/-- What a wrapped level stands for can be found, and covers what was wrapped. -/
theorem lift_ok (hid : id < g.size) (hd : id < depth) :
    ∃ b, lift g depth id = .ok b ∧ ∀ label, Covered g [(b, label)] id := by
  induction depth generalizing id with
  | zero => exact absurd hd (Nat.not_lt_zero id)
  | succ depth ih =>
    obtain ⟨n, hn⟩ := Option.isSome_iff_exists.1 ((g.node?_isSome_iff id).2 hid)
    rw [lift, Graph.node_eq_ok_iff.2 hn]
    dsimp only [bind, Except.bind]
    split
    · next input hp =>
      have hlt := (hw.passThrough hn hp).1
      obtain ⟨b, hb, hc⟩ := ih (Nat.lt_trans hlt hid)
        (Nat.lt_of_lt_of_le hlt (Nat.lt_succ_iff.1 hd))
      exact ⟨b, hb, fun label => .through hn hp (hc label)⟩
    · exact ⟨id, rfl, fun label => .seen (by simp)⟩

end

end Compile

end PlanSql

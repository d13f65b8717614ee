import PlanSql.Error

/-!
# Schemas

A schema is an ordered list of named, typed fields. Its names are valid when they are pairwise
different and not empty.
-/

namespace PlanSql

/-- A named field of a collection. -/
structure Field where
  name : String
  dtype : DataType
  deriving DecidableEq

/-- The fields of a collection, in order. -/
structure Schema where
  fields : List Field
  deriving DecidableEq

namespace Schema

def names (s : Schema) : List String := s.fields.map Field.name

/-- The first fault of a list of field names, where the names in `seen` are taken. -/
def nameFault? (seen : List String) : List String → Option SchemaFault
  | [] => none
  | name :: rest =>
    if name.isEmpty then some .emptyName
    else if name ∈ seen then some (.duplicateField name)
    else nameFault? (name :: seen) rest

/-- Fails at the first empty or repeated field name. -/
def validate (s : Schema) : Except Error Unit :=
  match nameFault? [] s.names with
  | some fault => .error (.schema fault)
  | none => .ok ()

/-- The schema with the given fields, if their names are valid. -/
def ofFields (fields : List Field) : Except Error Schema := do
  validate ⟨fields⟩
  pure ⟨fields⟩

def find? (s : Schema) (name : String) : Option Field := s.fields.find? (·.name == name)

def field (s : Schema) (name : String) : Except Error Field :=
  match s.find? name with
  | some f => .ok f
  | none => .error (.schema (.missingField name))

/-- Names have no fault exactly if they are pairwise different, not empty and not taken. -/
theorem nameFault?_eq_none_iff (seen names : List String) :
    nameFault? seen names = none ↔ names.Nodup ∧ ∀ n ∈ names, n ≠ "" ∧ n ∉ seen := by
  induction names generalizing seen with
  | nil => simp [nameFault?]
  | cons n rest ih =>
    by_cases he : n = ""
    · simp [nameFault?, he]
    · by_cases hs : n ∈ seen
      · simp [nameFault?, he, hs]
      · simp only [nameFault?, String.isEmpty_iff, he, hs, if_false, ih, List.mem_cons,
          List.nodup_cons]
        constructor
        · rintro ⟨hn, hr⟩
          refine ⟨⟨fun hm => (hr n hm).2 (Or.inl rfl), hn⟩, ?_⟩
          rintro m (rfl | hm)
          · exact ⟨he, hs⟩
          · exact ⟨(hr m hm).1, fun h => (hr m hm).2 (Or.inr h)⟩
        · rintro ⟨⟨hm, hn⟩, hr⟩
          refine ⟨hn, fun m h => ⟨(hr m (Or.inr h)).1, ?_⟩⟩
          rintro (rfl | hs')
          · exact hm h
          · exact (hr m (Or.inr h)).2 hs'

/-- A schema is valid exactly if its names are pairwise different and not empty. -/
theorem validate_eq_ok_iff (s : Schema) :
    s.validate = .ok () ↔ s.names.Nodup ∧ "" ∉ s.names := by
  have h := nameFault?_eq_none_iff [] s.names
  unfold validate
  split
  · next fault hf =>
    rw [hf] at h
    simp only [reduceCtorEq, false_iff] at h ⊢
    exact fun ⟨hn, he⟩ => h ⟨hn, fun n hm => ⟨fun hz => he (hz ▸ hm), by simp⟩⟩
  · next hf =>
    obtain ⟨hn, hr⟩ := h.1 hf
    simp only [true_iff]
    exact ⟨hn, fun he => (hr "" he).1 rfl⟩

end Schema

end PlanSql

import PlanSql.Number.Shortest

/-!
# Documents

A document is a tree of records, lists, texts and numbers. Members of an object keep their order,
and a name may occur more than once; `single?` and `fields?` refuse that for the names they ask for.
-/

namespace PlanSql

/-- A document. -/
inductive Json where
  | null
  | bool (b : Bool)
  | integer (n : Int)
  | float (x : Binary64)
  | string (s : String)
  | array (items : List Json)
  | object (members : List (String × Json))

namespace Json

variable {α β : Type}

def bool? : Json → Option Bool
  | bool b => some b
  | _ => none

def string? : Json → Option String
  | string s => some s
  | _ => none

def within? (low high : Int) : Json → Option Int
  | integer n => if low ≤ n ∧ n ≤ high then some n else none
  | _ => none

/-- A whole number of 64 bits without a sign, such as a count or an id. -/
def nat? (j : Json) : Option Nat := (j.within? 0 (2 ^ 64 - 1)).map Int.toNat

def uint64? (j : Json) : Option UInt64 := j.nat?.map Nat.toUInt64

def int64? (j : Json) : Option Int64 := (j.within? (-2 ^ 63) (2 ^ 63 - 1)).map Int64.ofInt

def int32? (j : Json) : Option Int32 := (j.within? (-2 ^ 31) (2 ^ 31 - 1)).map Int32.ofInt

/-- A floating point number; a whole number is rounded to one. -/
def float? : Json → Option Binary64
  | float x => some x
  | integer n => some (Binary64.ofRatio (n < 0) n.natAbs 1)
  | _ => none

/-- Applies a reader to every element, and fails where it fails. -/
def mapAll (f : Json → Option α) : List Json → Option (List α)
  | [] => some []
  | j :: rest => do
    let x ← f j
    let xs ← mapAll f rest
    pure (x :: xs)

def list? (f : Json → Option α) : Json → Option (List α)
  | array items => mapAll f items
  | _ => none

def split (name : String) : List (String × Json) → List Json × List (String × Json)
  | [] => ([], [])
  | (key, value) :: rest =>
    let (found, others) := split name rest
    if key = name then (value :: found, others) else (found, (key, value) :: others)

/-- The only member with the given name, or that there is none; more than one is refused. -/
def single? (name : String) (members : List (String × Json)) : Option (Option Json) :=
  match (split name members).1 with
  | [] => some none
  | [value] => some (some value)
  | _ => none

/-- The fields of a record with the given names: an object gives them by name and may leave some
out or have others, a list gives all of them in order. -/
def fields? (names : List String) : Json → Option (List (Option Json))
  | object members => names.mapM fun name => single? name members
  | array items => if items.length = names.length then some (items.map some) else none
  | _ => none

def required (f : Json → Option α) (j : Option Json) : Option α := j.bind f

def optional (f : Json → Option α) : Option Json → Option (Option α)
  | none => some none
  | some null => some none
  | some j => (f j).map some

def tagged? (tag : String) : Json → Option (Json × Json)
  | object members =>
    match split tag members with
    | ([value], others) => some (value, object others)
    | _ => none
  | array (value :: rest) => some (value, array rest)
  | _ => none

def bareName? : Json → Option String
  | string s => some s
  | object [(key, null)] => some key
  | _ => none

def name? : Json → Option String
  | object [(key, object [])] => some key
  | j => j.bareName?

/-- Reads a tag: a name, or the place of a name in the family. -/
def tagIn? (family : List String) : Json → Option String
  | string s => some s
  | integer n => if 0 ≤ n then family[n.toNat]? else none
  | _ => none

/-- A name with contents: an object with one member. -/
def variant? : Json → Option (String × Json)
  | object [(key, value)] => some (key, value)
  | _ => none

/-- What may be missing, as a document. -/
def ofOption (f : α → Json) : Option α → Json
  | none => null
  | some x => f x

def ofList (f : α → Json) (xs : List α) : Json := array (xs.map f)

/-- An id or a count as a document. -/
def ofNat (n : Nat) : Json := integer n

/-- A list that is written element by element is read element by element. -/
theorem mapAll_map {f : Json → Option β} {g : α → Json} {h : α → β} {xs : List α}
    (hread : ∀ x ∈ xs, f (g x) = some (h x)) : mapAll f (xs.map g) = some (xs.map h) := by
  induction xs with
  | nil => rfl
  | cons x xs ih => simp [mapAll, hread x, ih fun y hy => hread y (List.mem_cons_of_mem _ hy)]

/-- What may be missing is read if it is there, where null is not read as something. -/
theorem optional_ofOption {f : Json → Option β} {g : α → Json} {h : α → β} {o : Option α}
    (hnull : f null = none) (hread : ∀ x ∈ o, f (g x) = some (h x)) :
    optional f (some (ofOption g o)) = some (o.map h) := by
  cases o with
  | none => rfl
  | some x =>
    have hx := hread x rfl
    rw [ofOption, Option.map_some]
    generalize g x = j at hx
    cases j with
    | null => rw [hnull] at hx; cases hx
    | bool b => exact congrArg (Option.map some) hx
    | integer n => exact congrArg (Option.map some) hx
    | float y => exact congrArg (Option.map some) hx
    | string s => exact congrArg (Option.map some) hx
    | array items => exact congrArg (Option.map some) hx
    | object members => exact congrArg (Option.map some) hx

theorem single?_cons_of_ne {key name : String} (h : key ≠ name) (j : Json)
    (members : List (String × Json)) : single? name ((key, j) :: members) =
      single? name members := by
  simp [single?, split, h]

theorem split_of_notMem {name : String} {members : List (String × Json)}
    (h : name ∉ members.map Prod.fst) : split name members = ([], members) := by
  induction members with
  | nil => rfl
  | cons m members ih =>
    obtain ⟨key, j⟩ := m
    simp only [List.map_cons, List.mem_cons, not_or] at h
    simp [split, ih h.2, Ne.symm h.1]

/-- A member is found by its name if no other has it. -/
theorem single?_cons_self {name : String} {members : List (String × Json)}
    (h : name ∉ members.map Prod.fst) (j : Json) :
    single? name ((name, j) :: members) = some (some j) := by
  simp [single?, split, split_of_notMem h]

/-- A tag that comes first is taken off. -/
theorem tagged?_cons {tag : String} {members : List (String × Json)}
    (h : tag ∉ members.map Prod.fst) (j : Json) :
    tagged? tag (object ((tag, j) :: members)) = some (j, object members) := by
  simp [tagged?, split, split_of_notMem h]

end Json

end PlanSql

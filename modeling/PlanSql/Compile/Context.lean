import PlanSql.Sql.Expr

/-!
# Names and fragments of a compilation

`Aliases` numbers the table expressions of one statement. `Fragments` remembers the expression
compiled for a node; it is written once. `FunctionNames` gives user functions the names under which
they are deployed; it outlives a statement. `Context` holds the three of them.
-/

namespace PlanSql.Compile

open PlanSql.Sql (Alias)

/-- The aliases of one statement: those of collections, and how many were given out. -/
structure Aliases where
  ofCollection : List (NodeId × Alias)
  count : Nat
  deriving DecidableEq

namespace Aliases

def empty : Aliases := ⟨[], 0⟩

def find? (a : Aliases) (id : NodeId) : Option Alias := a.ofCollection.lookup id

/-- The next alias, for no collection in particular. -/
def fresh (a : Aliases) : Alias × Aliases := (a.count + 1, { a with count := a.count + 1 })

/-- The alias of a collection, which is the next one if it had none. -/
def register (a : Aliases) (id : NodeId) : Alias × Aliases :=
  match a.find? id with
  | some label => (label, a)
  | none => (a.count + 1, ⟨(id, a.count + 1) :: a.ofCollection, a.count + 1⟩)

/-- An alias for a derived table that stands for a collection: that of the collection if it is
new, else one of its own. -/
def registerDerived (a : Aliases) (id : NodeId) : Alias × Aliases :=
  if (a.find? id).isSome then a.fresh else a.register id

theorem find?_register (a : Aliases) (id : NodeId) :
    (a.register id).2.find? id = some (a.register id).1 := by
  unfold register
  split
  · next h => exact h
  · simp [find?]

end Aliases

/-- The names of user functions, in the order in which they were given. -/
structure FunctionNames where
  entries : List (String × String)
  deriving DecidableEq

namespace FunctionNames

/-- No function has a name. -/
def empty : FunctionNames := ⟨[]⟩

def find? (f : FunctionNames) (function : String) : Option String := f.entries.lookup function

/-- The name of a function, which is the stem and the next number if it had none. -/
def register (f : FunctionNames) (function stem : String) : String × FunctionNames :=
  match f.find? function with
  | some name => (name, f)
  | none =>
    let name := stem ++ "_" ++ Nat.repr (f.entries.length + 1)
    (name, ⟨f.entries ++ [(function, name)]⟩)

def sorted (f : FunctionNames) : List (String × String) :=
  f.entries.mergeSort fun a b => decide (a.1 ≤ b.1)

/-- After a function has been given a name, that is its name. -/
theorem find?_register (f : FunctionNames) (function stem : String) :
    (f.register function stem).2.find? function = some (f.register function stem).1 := by
  unfold register
  split
  · next h => exact h
  · next h =>
    rw [find?] at h
    simp [find?, List.lookup_append, h]

end FunctionNames

/-- The state of names and fragments. Fragments are of any type that has a text. -/
structure Context (ε : Type) where
  aliases : Aliases
  fragments : List (NodeId × ε)
  functions : FunctionNames

namespace Context

variable {ε : Type}

/-- Nothing is known but the names of user functions. -/
def ofFunctions (functions : FunctionNames) : Context ε := ⟨.empty, [], functions⟩

def reset (c : Context ε) : Context ε := ofFunctions c.functions

def fragment (c : Context ε) (id : NodeId) : Except Error ε :=
  match c.fragments.lookup id with
  | some e => .ok e
  | none => .error (.inconsistent (.noFragment id))

def hasFragment (c : Context ε) (id : NodeId) : Bool := (c.fragments.lookup id).isSome

/-- Stores the fragment of a node. A fragment with the same text as the present one changes
nothing. -/
def addFragment (text : ε → String) (c : Context ε) (id : NodeId) (e : ε) :
    Except Error (Context ε) :=
  match c.fragments.lookup id with
  | none => .ok { c with fragments := (id, e) :: c.fragments }
  | some present =>
    if text present = text e then .ok c
    else .error (.inconsistent (.fragmentConflict id (text present) (text e)))

end Context

end PlanSql.Compile

import PlanSql.Error
import PlanSql.Sql.Layout
import PlanSql.Text.Lines
import PlanSql.Text.Quoted

/-!
# Clauses of one query level

`Clauses` collects the clauses of a level while it is being built: every slot is filled at most
once. `Level` is the finished level, which always says what it selects from. Both are written for
any kind of expression and of table expression; with text for both, `Level.text` is the text of the
level.
-/

namespace PlanSql.Sql

variable {ε φ : Type}

/-- An entry of the list of selected values. -/
structure Item (ε : Type) where
  expr : ε
  name : Option String
  deriving DecidableEq

/-- The slots that an operator may want to fill. -/
inductive Clause where
  | select | filter | groupBy | orderBy | limit
  deriving DecidableEq

/-- The clauses of a level that is being built. -/
structure Clauses (ε φ : Type) where
  /-- The selected values; all columns if there are none. -/
  select : Option (List (Item ε))
  distinct : Bool
  source : Option φ
  on : Option ε
  filter : Option ε
  groupBy : Option (List ε)
  having : Option ε
  orderBy : Option (List ε)
  limit : Option Nat

/-- A finished level. -/
structure Level (ε φ : Type) where
  select : Option (List (Item ε))
  distinct : Bool
  source : φ
  on : Option ε
  filter : Option ε
  groupBy : Option (List ε)
  having : Option ε
  orderBy : Option (List ε)
  limit : Option Nat
  deriving DecidableEq

namespace Clauses

/-- No clause is set. -/
def empty : Clauses ε φ := ⟨none, false, none, none, none, none, none, none, none⟩

/-- Whether filling a slot now would change what the filled slots mean, or fail. -/
def conflicts (c : Clauses ε φ) : Clause → Bool
  | .select => c.select.isSome || c.limit.isSome
  | .filter => c.filter.isSome || c.groupBy.isSome || c.select.isSome || c.limit.isSome
  | .groupBy => c.select.isSome || c.groupBy.isSome || c.orderBy.isSome || c.limit.isSome
  | .orderBy => c.orderBy.isSome || c.limit.isSome
  | .limit => c.limit.isSome

/-- The error of a slot that is filled twice. -/
def occupied (clause : String) : Error := .inconsistent (.occupied clause)

def setSelect (c : Clauses ε φ) (items : List (Item ε)) (distinct : Bool) :
    Except Error (Clauses ε φ) :=
  if c.select.isSome then .error (occupied "SELECT")
  else .ok { c with select := some items, distinct := distinct }

def setSource (c : Clauses ε φ) (source : φ) : Except Error (Clauses ε φ) :=
  if c.source.isSome then .error (occupied "FROM") else .ok { c with source := some source }

/-- Fills the condition of the outermost join. -/
def setOn (c : Clauses ε φ) (condition : ε) : Except Error (Clauses ε φ) :=
  if c.on.isSome then .error (occupied "ON") else .ok { c with on := some condition }

def setFilter (c : Clauses ε φ) (condition : ε) : Except Error (Clauses ε φ) :=
  if c.filter.isSome then .error (occupied "WHERE") else .ok { c with filter := some condition }

/-- Fills the values that rows of one group share. -/
def setGroupBy (c : Clauses ε φ) (keys : List ε) : Except Error (Clauses ε φ) :=
  if c.groupBy.isSome then .error (occupied "GROUP BY") else .ok { c with groupBy := some keys }

/-- Fills the condition on groups. A condition with the same text as the present one changes
nothing. -/
def setHaving (text : ε → String) (c : Clauses ε φ) (condition : ε) :
    Except Error (Clauses ε φ) :=
  match c.having with
  | none => .ok { c with having := some condition }
  | some present =>
    if text present = text condition then .ok c
    else .error (.inconsistent (.havingConflict (text present) (text condition)))

def setOrderBy (c : Clauses ε φ) (keys : List ε) : Except Error (Clauses ε φ) :=
  if c.orderBy.isSome then .error (occupied "ORDER BY") else .ok { c with orderBy := some keys }

/-- Fills the greatest number of rows. -/
def setLimit (c : Clauses ε φ) (n : Nat) : Except Error (Clauses ε φ) :=
  if c.limit.isSome then .error (occupied "LIMIT") else .ok { c with limit := some n }

def close (c : Clauses ε φ) (sortLimit : Nat) : Except Error (Level ε φ) :=
  match c.source with
  | none => .error (.inconsistent .noFrom)
  | some source =>
    let limit := c.limit.or (c.orderBy.map fun _ => sortLimit)
    .ok ⟨c.select, c.distinct, source, c.on, c.filter, c.groupBy, c.having, c.orderBy, limit⟩

def take (c : Clauses ε φ) (sortLimit : Nat) : Except Error (Level ε φ) × Clauses ε φ :=
  (c.close sortLimit, empty)

end Clauses

namespace Item

/-- The entry with its value replaced by what `f` makes of it. -/
def map {ε' : Type} (f : ε → ε') (i : Item ε) : Item ε' := ⟨f i.expr, i.name⟩

/-- The text of an entry, its value filled up to `width` characters if it is given a name. -/
def text (width : Nat) (i : Item String) : String :=
  match i.name with
  | some name =>
    let fill := String.ofList (List.replicate (width - i.expr.length) ' ')
    i.expr ++ fill ++ " AS " ++ Text.quoteName name
  | none => i.expr

/-- Whether the value takes more than one line. -/
def isLong (i : Item String) : Bool := i.expr.toList.contains '\n'

/-- The width up to which values with a name are filled: that of the longest one on one line. -/
def width (items : List (Item String)) : Nat :=
  ((items.filter fun i => i.name.isSome && !i.isLong).map (·.expr.length)).foldl max 0

end Item

namespace Level

/-- The level with its values and what it selects from replaced. -/
def map {ε' φ' : Type} (f : ε → ε') (g : φ → φ') (l : Level ε φ) : Level ε' φ' :=
  ⟨l.select.map (·.map (Item.map f)), l.distinct, g l.source, l.on.map f, l.filter.map f,
    l.groupBy.map (·.map f), l.having.map f, l.orderBy.map (·.map f), l.limit⟩

def selectText (layout : Layout) (distinct : Bool) (items : Option (List (Item String))) :
    String :=
  let keyword := if distinct then "SELECT DISTINCT" else "SELECT"
  match items with
  | none => keyword ++ " *"
  | some items =>
    if layout.beautify then
      let width := Item.width items
      let entries := items.map fun i =>
        Text.indentLines layout.pad (i.text (if i.isLong then 0 else width))
      keyword ++ "\n" ++ ",\n".intercalate entries
    else keyword ++ " " ++ ", ".intercalate (items.map (Item.text 0))

def line (keyword : String) : Option String → List String
  | some text => [keyword ++ " " ++ text]
  | none => []

/-- The text of a level: one clause per line, in the fixed order of a statement. -/
def text (layout : Layout) (l : Level String String) : String :=
  let optional := line "ON" l.on ++ line "WHERE" l.filter ++
    line "GROUP BY" (l.groupBy.map (", ".intercalate ·)) ++ line "HAVING" l.having ++
    line "ORDER BY" (l.orderBy.map (", ".intercalate ·)) ++ line "LIMIT" (l.limit.map Nat.repr)
  "\n".intercalate (selectText layout l.distinct l.select :: ("FROM " ++ l.source) :: optional)

end Level

end PlanSql.Sql

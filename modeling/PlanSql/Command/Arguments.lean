/-!
# Command line arguments

Arguments are parameters, which begin with a hyphen, and places, which do not. A parameter is given
at most once; one with a value has it behind an equals sign or in the next argument. Arguments are
read in order, and the first one that makes no sense, or that asks to stop, ends the reading.
-/

namespace PlanSql.Command

/-- A count of 64 bits, perhaps with a plus sign. -/
def count? (s : String) : Option Nat :=
  let digits := match s.toList with
    | '+' :: rest => rest
    | cs => cs
  let n := digits.foldl (fun n c => 10 * n + (c.toNat - 48)) 0
  if digits.isEmpty || !digits.all Char.isDigit || UInt64.size ≤ n then none else some n

/-- Why nothing is run. -/
inductive Stop where
  | usage
  | help
  | version
  deriving DecidableEq

/-- What the value of a parameter is. -/
inductive Form where
  | path
  | count
  deriving DecidableEq

/-- Whether a value has a form. -/
def Form.admits : Form → String → Bool
  | path, s => !s.isEmpty
  | count, s => (count? s).isSome

/-- What a parameter does. -/
inductive Effect where
  | flag
  | value (form : Form)
  | stop (why : Stop)
  deriving DecidableEq

/-- A parameter. -/
structure Parameter where
  name : String
  letter : Option Char
  effect : Effect
  deriving DecidableEq

/-- The arguments read so far. -/
structure Arguments where
  /-- Parameters with their values; those of flags are empty. -/
  given : List (String × String)
  places : List String
  waiting : Option Parameter
  /-- Whether all further arguments are places. -/
  onlyPlaces : Bool

namespace Arguments

/-- No argument has been read. -/
def empty : Arguments := ⟨[], [], none, false⟩

def value? (a : Arguments) (name : String) : Option String := a.given.lookup name

/-- Whether a flag is on. -/
def isOn (a : Arguments) (name : String) : Bool := (a.value? name).isSome

/-- Notes a parameter, which must not have been given before. -/
def give (a : Arguments) (p : Parameter) (value : String) : Except Stop Arguments :=
  if a.isOn p.name then .error .usage
  else .ok { a with given := (p.name, value) :: a.given, waiting := none }

def giveValue (a : Arguments) (p : Parameter) (form : Form) (value : String) :
    Except Stop Arguments :=
  if form.admits value then a.give p value else .error .usage

/-- Notes that the value of a parameter comes next. -/
def await (a : Arguments) (p : Parameter) : Except Stop Arguments :=
  if a.isOn p.name then .error .usage else .ok { a with waiting := some p }

/-- Notes a place, of which there may be at most `limit`; an empty one is none. -/
def place (limit : Nat) (a : Arguments) (s : String) : Except Stop Arguments :=
  if s.isEmpty || limit ≤ a.places.length then .error .usage
  else .ok { a with places := a.places ++ [s] }

/-- Whether an argument begins with a hyphen; a hyphen alone is a place. -/
def isParameter (cs : List Char) : Bool :=
  match cs with
  | '-' :: _ :: _ => true
  | _ => false

/-- A parameter by its full name, perhaps with a value behind an equals sign. -/
def readLong (ps : List Parameter) (a : Arguments) (cs : List Char) : Except Stop Arguments :=
  let name := String.ofList (cs.takeWhile (· ≠ '='))
  match ps.find? (·.name == name), cs.dropWhile (· ≠ '=') with
  | none, _ => .error .usage
  | some p, [] =>
    match p.effect with
    | .flag => a.give p ""
    | .value _ => a.await p
    | .stop why => .error why
  | some p, _ :: value =>
    match p.effect with
    | .value form => a.giveValue p form (String.ofList value)
    | _ => .error .usage

def readLetters (ps : List Parameter) : Arguments → List Char → Except Stop Arguments
  | a, [] => .ok a
  | a, c :: rest =>
    match ps.find? (·.letter == some c) with
    | none => .error .usage
    | some p =>
      match p.effect with
      | .flag => do readLetters ps (← a.give p "") rest
      | .value form =>
        match rest with
        | [] => a.await p
        | '=' :: value => a.giveValue p form (String.ofList value)
        | value => a.giveValue p form (String.ofList value)
      | .stop why => .error why

def readAwaited (a : Arguments) (p : Parameter) (s : String) : Except Stop Arguments :=
  match p.effect with
  | .value form => if isParameter s.toList then .error .usage else a.giveValue p form s
  | _ => .error .usage

def read (ps : List Parameter) (limit : Nat) (a : Arguments) (s : String) :
    Except Stop Arguments :=
  let cs := s.toList
  match a.waiting with
  | some p => a.readAwaited p s
  | none =>
    if a.onlyPlaces || !isParameter cs then a.place limit s
    else if s = "--" then .ok { a with onlyPlaces := true }
    else
      match cs with
      | '-' :: '-' :: rest => readLong ps a rest
      | _ :: rest => readLetters ps a rest
      | [] => .error .usage

/-- Reads all arguments; none may be left waiting for its value. -/
def readAll (ps : List Parameter) (limit : Nat) (args : List String) : Except Stop Arguments := do
  let a ← args.foldlM (read ps limit) empty
  if a.waiting.isSome then .error .usage else .ok a

end Arguments

end PlanSql.Command

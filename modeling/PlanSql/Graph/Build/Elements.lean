import PlanSql.Graph.Build.Values

/-!
# Building tests, choices and buckets
-/

namespace PlanSql.Build

/-- Whether a value is null. -/
def isNull (input : NodeId) : Build NodeId := do
  let typed ← ask (·.typedOf input)
  pushValue (.element (.isNull input)) [input] (.plain .boolean typed.name)

def notNull (input : NodeId) : Build NodeId := do
  let typed ← ask (·.typedOf input)
  pushValue (.element (.notNull input)) [input] (.plain .boolean typed.name)

def fillNull (input value : NodeId) : Build NodeId := do
  let typed ← ask (·.typedOf input)
  let other ← ask (·.dtypeOf value)
  if !typed.dtype.accepts other then throw (.illegalCast other typed.dtype)
  pushValue (.element (.fillNull input value)) [input, value] (.plain typed.dtype typed.name)

/-- A membership test against the given right side. -/
def membership (input : NodeId) (values : Membership) (negated : Bool) : Build NodeId := do
  let typed ← ask (·.typedOf input)
  match values with
  | .literals ids => ask (·.expectComparable typed.dtype ids)
  | .subquery id => do
    ask (·.expectComparable typed.dtype [id])
    let _ ← ask (·.owningCollection id)
  let op := if negated then ElementOp.notIn input values else ElementOp.isIn input values
  pushValue (.element op) [input] (.plain .boolean typed.name)

/-- A constant for a list of values: null takes the type of the tested value. -/
def member (dtype : DataType) (value : Value) : Build NodeId :=
  if value.isNull then null dtype else literal value

/-- A membership test against constants, which become nodes of their own. -/
def inValues (input : NodeId) (values : List Value) (negated : Bool) : Build NodeId := do
  if values.isEmpty then throw (.inconsistent .emptyMembership)
  let dtype ← ask (·.dtypeOf input)
  let ids ← values.mapM (member dtype)
  membership input (.literals ids) negated

/-- A membership test against the values of a sequence. -/
def inSequence (input sequence : NodeId) (negated : Bool) : Build NodeId :=
  membership input (.subquery sequence) negated

/-- Whether a value lies between two bounds, one of which may be missing. -/
def between (input : NodeId) (left right : Option NodeId) (inclusive : Bool) : Build NodeId := do
  if left.isNone && right.isNone then throw (.inconsistent .unbounded)
  let typed ← ask (·.typedOf input)
  let bounds := left.toList ++ right.toList
  ask (·.expectComparable typed.dtype bounds)
  pushValue (.element (.between input left right inclusive)) (input :: bounds)
    (.plain .boolean typed.name)

/-- One of two values, as a truth value decides. -/
def ifElse (condition consequent alternative : NodeId) : Build NodeId := do
  ask (·.expectBoolean condition)
  let dtype ← ask fun g => do DataType.common (← g.dtypesOf [consequent, alternative])
  pushNamed (.element (.ifElse condition consequent alternative))
    [condition, consequent, alternative] dtype

/-- Fails at the first condition that is no truth value, or, when there is a subject, that cannot
be compared with it. -/
def expectConditions (g : Graph) (subject : Option NodeId) : List NodeId → Except Error Unit
  | [] => pure ()
  | condition :: rest => do
    match subject with
    | some s => do
      let dtype ← g.dtypeOf s
      g.expectComparable dtype [condition]
    | none => g.expectBoolean condition
    expectConditions g subject rest

/-- The result of the first condition that holds, or equals the subject when there is one. -/
def switch (subject : Option NodeId) (conditions results : List NodeId)
    (fallback : Option NodeId) : Build NodeId := do
  if conditions.isEmpty || conditions.length != results.length then
    throw (.inconsistent .branches)
  ask fun g => expectConditions g subject conditions
  let dtype ← ask fun g => do DataType.common (← g.dtypesOf (results ++ fallback.toList))
  pushNamed (.element (.switch subject conditions results fallback))
    (subject.toList ++ conditions ++ results ++ fallback.toList) dtype

/-- How the buckets of a cut treat their bounds; see `Cut`. -/
structure CutOptions where
  /-- Buckets contain their upper bound, not their lower one. -/
  right : Bool
  includeLowest : Bool
  includeUnder : Bool
  includeOver : Bool

/-- Buckets contain their upper bound, and there are none outside the bins. -/
def CutOptions.default : CutOptions := ⟨true, false, false, false⟩

def CutOptions.buckets (o : CutOptions) (bins : List Value) : Nat :=
  bins.length - 1 + o.includeUnder.toNat + o.includeOver.toNat

def expectBins (dtype : DataType) : List Value → Except Error Unit
  | [] => pure ()
  | bin :: rest => do
    match bin.dtype? with
    | some t => do
      let _ ← DataType.common [dtype, t]
    | none => throw (.inconsistent .nullBin)
    expectBins dtype rest

/-- The type of labels: integers if all of them are null. -/
def labelType (labels : List Value) : Except Error DataType :=
  match labels.filterMap Value.dtype? with
  | [] => pure .int64
  | t :: ts => DataType.common (t :: ts)

/-- The label of the bucket that a value falls into; labels count from zero if none are given. -/
def cut (input : NodeId) (bins : List Value) (labels : Option (List Value))
    (options : CutOptions) : Build NodeId := do
  let typed ← ask (·.typedOf input)
  if bins.length < 2 then throw (.inconsistent .fewBins)
  let buckets := options.buckets bins
  let labels := labels.getD ((List.range buckets).map fun n => .integer (Int64.ofNat n))
  if labels.length ≠ buckets then throw (.inconsistent (.labelCount buckets labels.length))
  check (expectBins typed.dtype bins)
  let dtype ← check (labelType labels)
  let kind := Kind.element (.cut input ⟨bins, options.right, labels, options.includeLowest,
    options.includeUnder, options.includeOver⟩)
  pushValue kind [input] (.plain dtype typed.name)

end PlanSql.Build

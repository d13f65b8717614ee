import PlanSql.Operator

/-!
# The grammar of expressions

How expressions are usually read. From the loosest to the tightest:

* 0: `OR`
* 1: `AND`
* 2: `NOT`
* 3: comparisons, `IS NULL`, `IN`, `BETWEEN`, from left to right
* 4: `+` and `-`
* 5: `*`, `/` and `%`
* 6: a sign
* 7: a function over a window
* 8: names, constants, calls, choices and what is in parentheses

A written expression is a tree with parentheses in it. Reading its tokens gives back the tree
without the parentheses exactly if every operand is written tightly enough for its place.
-/

namespace PlanSql.Reading

/-- The level of an operator between two operands. Powers are written as calls. -/
def level : BinaryOp → Nat
  | .or => 0
  | .and => 1
  | .gt | .ge | .lt | .le | .eq | .ne => 3
  | .add | .sub => 4
  | .mul | .div | .mod | .power => 5

/-- What may follow an operand that is complete. -/
inductive Suffix where
  | test
  | window
  deriving DecidableEq

/-- The level of a suffix. -/
def Suffix.level : Suffix → Nat
  | .test => 3
  | .window => 7

/-- What a text is a sequence of. A form is a call, a choice or a conversion: an opening, arguments
with something between them, and a closing. -/
inductive Token where
  | word (text : String)
  | op (op : BinaryOp)
  | not
  | between
  | suffix (kind : Suffix) (text : String)
  | suffixOpens (kind : Suffix) (text : String)
  | opens (text : String)
  | sep (text : String)
  | closes (text : String)
  | left
  /-- Two signs without a blank between them: what follows is not read. -/
  | comment
  deriving DecidableEq

mutual

/-- An expression. -/
inductive Tree where
  | word (text : String)
  | group (x : Tree)
  | binary (op : BinaryOp) (lhs rhs : Tree)
  | negate (x : Tree)
  | not (x : Tree)
  | suffix (kind : Suffix) (text : String) (x : Tree)
  | suffixForm (kind : Suffix) (text : String) (x : Tree) (args : Args)
  | between (x low high : Tree)
  | form (text : String) (args : Args)

/-- Arguments, each with what follows it. -/
inductive Args where
  | last (x : Tree) (text : String)
  | more (x : Tree) (text : String) (rest : Args)

end

/-- A sign before some tokens. It has no blank after it. -/
def signed : List Token → List Token
  | .op .sub :: rest => .comment :: rest
  | ts => .op .sub :: ts

mutual

/-- The tokens of an expression. -/
def Tree.tokens : Tree → List Token
  | .word text => [.word text]
  | .group x => .left :: (x.tokens ++ [.closes ")"])
  | .binary op lhs rhs => lhs.tokens ++ .op op :: rhs.tokens
  | .negate x => signed x.tokens
  | .not x => .not :: x.tokens
  | .suffix kind text x => x.tokens ++ [.suffix kind text]
  | .suffixForm kind text x args => x.tokens ++ .suffixOpens kind text :: args.tokens
  | .between x low high => x.tokens ++ .between :: (low.tokens ++ .op .and :: high.tokens)
  | .form text args => .opens text :: args.tokens

/-- The tokens of arguments. -/
def Args.tokens : Args → List Token
  | .last x text => x.tokens ++ [.closes text]
  | .more x text rest => x.tokens ++ .sep text :: rest.tokens

end

mutual

/-- An expression without its parentheses. -/
def Tree.erase : Tree → Tree
  | .word text => .word text
  | .group x => x.erase
  | .binary op lhs rhs => .binary op lhs.erase rhs.erase
  | .negate x => .negate x.erase
  | .not x => .not x.erase
  | .suffix kind text x => .suffix kind text x.erase
  | .suffixForm kind text x args => .suffixForm kind text x.erase args.erase
  | .between x low high => .between x.erase low.erase high.erase
  | .form text args => .form text args.erase

/-- Arguments without their parentheses. -/
def Args.erase : Args → Args
  | .last x text => .last x.erase text
  | .more x text rest => .more x.erase text rest.erase

end

/-- The level at which an expression is written. -/
def Tree.level : Tree → Nat
  | .binary op _ _ => Reading.level op
  | .negate _ => 6
  | .not _ => 2
  | .suffix kind _ _ | .suffixForm kind _ _ _ => kind.level
  | .between .. => 3
  | .word _ | .group _ | .form .. => 8

mutual

/-- Every operand is written tightly enough for its place, and no two signs meet. -/
def Tree.Adequate : Tree → Prop
  | .word _ => True
  | .group x => x.Adequate
  | .binary op lhs rhs =>
    (lhs.Adequate ∧ Reading.level op ≤ lhs.level) ∧ (rhs.Adequate ∧ Reading.level op < rhs.level)
  | .negate x => x.Adequate ∧ 6 < x.level
  | .not x => x.Adequate ∧ 2 ≤ x.level
  | .suffix kind _ x => x.Adequate ∧ kind.level ≤ x.level
  | .suffixForm kind _ x args => (x.Adequate ∧ kind.level ≤ x.level) ∧ args.Adequate
  | .between x low high =>
    (x.Adequate ∧ 3 ≤ x.level) ∧ (low.Adequate ∧ 4 ≤ low.level) ∧ (high.Adequate ∧ 4 ≤ high.level)
  | .form _ args => args.Adequate

/-- Every operand in the arguments is written tightly enough. -/
def Args.Adequate : Args → Prop
  | .last x _ => x.Adequate
  | .more x _ rest => x.Adequate ∧ rest.Adequate

end

/-- What tokens are read as. -/
inductive Phrase where
  | expr (t : Tree)
  | args (a : Args)

/-- The grammar: tokens that are read as a phrase at a level. What is read at a level is also read
at the looser ones. Arguments have no level. -/
inductive Reads : Nat → List Token → Phrase → Prop
  | word {n : Nat} (text : String) : n ≤ 8 → Reads n [.word text] (.expr (.word text))
  | parens {n : Nat} {ts : List Token} {t : Tree} : n ≤ 8 → Reads 0 ts (.expr t) →
    Reads n (.left :: (ts ++ [.closes ")"])) (.expr t)
  | form {n : Nat} {text : String} {ts : List Token} {a : Args} : n ≤ 8 → Reads 0 ts (.args a) →
    Reads n (.opens text :: ts) (.expr (.form text a))
  | not {n : Nat} {ts : List Token} {t : Tree} : n ≤ 2 → Reads 2 ts (.expr t) →
    Reads n (.not :: ts) (.expr (.not t))
  | negate {n : Nat} {ts : List Token} {t : Tree} : n ≤ 6 → Reads 6 ts (.expr t) →
    Reads n (.op .sub :: ts) (.expr (.negate t))
  | binary {n : Nat} {op : BinaryOp} {ls rs : List Token} {l r : Tree} : n ≤ level op →
    Reads (level op) ls (.expr l) → Reads (level op + 1) rs (.expr r) →
    Reads n (ls ++ .op op :: rs) (.expr (.binary op l r))
  | suffix {n : Nat} {kind : Suffix} {text : String} {ts : List Token} {t : Tree} :
    n ≤ kind.level → Reads kind.level ts (.expr t) →
    Reads n (ts ++ [.suffix kind text]) (.expr (.suffix kind text t))
  | suffixForm {n : Nat} {kind : Suffix} {text : String} {ts us : List Token} {t : Tree}
    {a : Args} : n ≤ kind.level → Reads kind.level ts (.expr t) → Reads 0 us (.args a) →
    Reads n (ts ++ .suffixOpens kind text :: us) (.expr (.suffixForm kind text t a))
  | between {n : Nat} {ts ls hs : List Token} {t l h : Tree} : n ≤ 3 → Reads 3 ts (.expr t) →
    Reads 4 ls (.expr l) → Reads 4 hs (.expr h) →
    Reads n (ts ++ .between :: (ls ++ .op .and :: hs)) (.expr (.between t l h))
  | last {n : Nat} {text : String} {ts : List Token} {t : Tree} : Reads 0 ts (.expr t) →
    Reads n (ts ++ [.closes text]) (.args (.last t text))
  | more {n : Nat} {text : String} {ts us : List Token} {t : Tree} {a : Args} :
    Reads 0 ts (.expr t) → Reads 0 us (.args a) →
    Reads n (ts ++ .sep text :: us) (.args (.more t text a))

end PlanSql.Reading

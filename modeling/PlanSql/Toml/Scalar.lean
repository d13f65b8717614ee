import PlanSql.Datetime
import PlanSql.Number.FloatText
import PlanSql.Toml.Basic

/-!
# Texts, numbers and dates in settings

Texts stand between quotes or apostrophes, on one line or, with three of them, on several. All other
values are words: a truth value, a number or a date.
-/

namespace PlanSql.Toml

open PlanSql.Text (Reader)

/-- Whether a character may stand in a text or a comment: no control character but the tab. -/
def isPlain (c : Char) : Bool := c == '\t' || (32 ≤ c.toNat && c.toNat != 127)

def readEscape : Reader Char
  | 'u' :: rest => code 4 rest
  | 'U' :: rest => code 8 rest
  | 'b' :: rest => some ('\x08', rest)
  | 't' :: rest => some ('\t', rest)
  | 'n' :: rest => some ('\n', rest)
  | 'f' :: rest => some ('\x0c', rest)
  | 'r' :: rest => some ('\r', rest)
  | '\x22' :: rest => some ('\x22', rest)
  | '\\' :: rest => some ('\\', rest)
  | _ => none
where
  code (count : Nat) : Reader Char := fun cs => do
    let (n, rest) ← Text.readHex count 0 cs
    let c ← Text.charOf? n
    pure (c, rest)

def readLine (close : Char) (escapes : Bool) : Nat → Reader (List Char)
  | 0, _ => none
  | size + 1, cs =>
    match cs with
    | [] => none
    | c :: rest =>
      if c = close then some ([], rest)
      else if c = '\\' ∧ escapes then do
        let (e, rest) ← readEscape rest
        let (tail, rest) ← readLine close escapes size rest
        pure (e :: tail, rest)
      else if isPlain c then do
        let (tail, rest) ← readLine close escapes size rest
        pure (c :: tail, rest)
      else none

def lineBreak? : List Char → Option (List Char)
  | '\n' :: rest => some rest
  | '\r' :: '\n' :: rest => some rest
  | _ => none

/-- Whether a character stands between the words of a line. -/
def isGap (c : Char) : Bool := c == ' ' || c == '\t'

/-- The text from its first character that is neither a gap nor a line break. -/
def skipBlankLines : Nat → List Char → List Char
  | 0, cs => cs
  | size + 1, cs =>
    let cs := cs.dropWhile isGap
    match lineBreak? cs with
    | some rest => skipBlankLines size rest
    | none => cs

/-- The characters behind a backslash that ends a line, if it does. -/
def lineEnd? (size : Nat) (cs : List Char) : Option (List Char) :=
  (lineBreak? (cs.dropWhile isGap)).map (skipBlankLines size)

/-- The end of a text on several lines: three closing characters, before which up to two more of
them belong to the text. -/
def closing? (close : Char) (cs : List Char) : Option (Nat × List Char) :=
  let count := min 5 (cs.takeWhile (· == close)).length
  if count < 3 then none else some (count - 3, cs.drop count)

/-- A text on several lines, up to its end. -/
def readLines (close : Char) (escapes : Bool) : Nat → Reader (List Char)
  | 0, _ => none
  | size + 1, cs =>
    match closing? close cs with
    | some (more, rest) => some (List.replicate more close, rest)
    | none =>
      match lineBreak? cs with
      | some rest => do
        let (tail, rest) ← readLines close escapes size rest
        pure ('\n' :: tail, rest)
      | none =>
        match cs with
        | [] => none
        | c :: rest =>
          if c = '\\' ∧ escapes then
            match lineEnd? size rest with
            | some rest => readLines close escapes size rest
            | none => do
              let (e, rest) ← readEscape rest
              let (tail, rest) ← readLines close escapes size rest
              pure (e :: tail, rest)
          else if isPlain c then do
            let (tail, rest) ← readLines close escapes size rest
            pure (c :: tail, rest)
          else none

/-- A text on several lines, behind its opening characters; a line break there is dropped. -/
def readBlock (close : Char) (escapes : Bool) (size : Nat) : Reader String := fun cs =>
  (readLines close escapes size ((lineBreak? cs).getD cs)).map
    fun (cs, rest) => (String.ofList cs, rest)

def readShort (size : Nat) : Reader String := fun cs =>
  match cs with
  | '\x22' :: rest =>
    (readLine '\x22' true size rest).map fun (cs, rest) => (String.ofList cs, rest)
  | '\x27' :: rest =>
    (readLine '\x27' false size rest).map fun (cs, rest) => (String.ofList cs, rest)
  | _ => none

def readText (size : Nat) : Reader String := fun cs =>
  match cs with
  | '\x22' :: '\x22' :: '\x22' :: rest => readBlock '\x22' true size rest
  | '\x27' :: '\x27' :: '\x27' :: rest => readBlock '\x27' false size rest
  | _ => readShort size cs

/-- Digits without the single underscores that may stand between them. -/
def ungroup? (isDigit : Char → Bool) : List Char → Option (List Char)
  | [] => none
  | [d] => if isDigit d then some [d] else none
  | d :: '_' :: rest => if isDigit d then (ungroup? isDigit rest).map (d :: ·) else none
  | d :: rest => if isDigit d then (ungroup? isDigit rest).map (d :: ·) else none

/-- A number in a base up to sixteen. -/
def based? (base : Nat) (cs : List Char) : Option Nat :=
  (ungroup? (fun c => (Text.hexDigit? c).any (· < base)) cs).map fun ds =>
    ds.foldl (fun n c => base * n + (Text.hexDigit? c).getD 0) 0

/-- A decimal number without leading zeros. -/
def unsigned? (cs : List Char) : Option Nat :=
  match cs with
  | '0' :: _ :: _ => none
  | _ => based? 10 cs

def integer? (cs : List Char) : Option Int := do
  let n ← match cs with
    | '0' :: 'x' :: ds => (based? 16 ds).map Int.ofNat
    | '0' :: 'o' :: ds => (based? 8 ds).map Int.ofNat
    | '0' :: 'b' :: ds => (based? 2 ds).map Int.ofNat
    | '+' :: ds => (unsigned? ds).map Int.ofNat
    | '-' :: ds => (unsigned? ds).map fun n => -Int.ofNat n
    | ds => (unsigned? ds).map Int.ofNat
  if -2 ^ 63 ≤ n ∧ n < 2 ^ 63 then pure n else none

def unsign : List Char → List Char
  | '+' :: rest => rest
  | '-' :: rest => rest
  | rest => rest

/-- Whether a character may stand among digits. -/
def isGrouped (c : Char) : Bool := c.isDigit || c == '_'

/-- Whether a word of digits rounds to positive infinity. -/
def exceedsRange (cs : List Char) : Bool :=
  Binary64.ofText? (String.ofList (cs.filter (· != '_'))) == some (.infinity false)

/-- Whether a word is a floating point number: a whole number with a fraction, an exponent or both,
or one of two names. -/
def isFloat (word : List Char) : Bool :=
  let cs := unsign word
  let whole := cs.takeWhile isGrouped
  let rest := cs.drop whole.length
  let (places, power) := match rest with
    | '.' :: more =>
      let places := more.takeWhile isGrouped
      (some places, more.drop places.length)
    | other => (none, other)
  let powerOk := match power with
    | [] => places.isSome
    | mark :: more => (mark == 'e' || mark == 'E') && (based? 10 (unsign more)).isSome
  cs == ['i', 'n', 'f'] || cs == ['n', 'a', 'n'] ||
    ((unsigned? whole).isSome && places.all (fun ds => (based? 10 ds).isSome) && powerOk &&
      !exceedsRange word)

/-- The number in exactly two digits at the front of a text, if it is in a range. -/
def readPair (low high : Nat) : Reader Nat
  | a :: b :: rest =>
    if a.isDigit && b.isDigit then
      let n := 10 * (a.toNat - 48) + (b.toNat - 48)
      if low ≤ n ∧ n ≤ high then some (n, rest) else none
    else none
  | _ => none

/-- The rest behind a date of the calendar. -/
def date? (cs : List Char) : Option (List Char) := do
  let (century, cs) ← readPair 0 99 cs
  let (year, cs) ← readPair 0 99 cs
  let (_, cs) ← Text.readExactly ['-'] cs
  let (month, cs) ← readPair 1 12 cs
  let (_, cs) ← Text.readExactly ['-'] cs
  let (_, cs) ← readPair 1 (Calendar.monthLength (100 * century + year : Nat) month) cs
  pure cs

def time? (cs : List Char) : Option (List Char) := do
  let (_, cs) ← readPair 0 23 cs
  let (_, cs) ← Text.readExactly [':'] cs
  let (_, cs) ← readPair 0 59 cs
  let (_, cs) ← Text.readExactly [':'] cs
  let (_, cs) ← readPair 0 60 cs
  match cs with
  | '.' :: digits =>
    if digits.head?.any Char.isDigit then pure (digits.dropWhile Char.isDigit) else none
  | rest => pure rest

/-- Whether a text is the distance to UTC behind a date and time; it may be missing. -/
def isOffset (cs : List Char) : Bool :=
  match cs with
  | [] | ['Z'] | ['z'] => true
  | sign :: rest =>
    (sign == '+' || sign == '-') &&
      ((do
        let (_, cs) ← readPair 0 23 rest
        let (_, cs) ← Text.readExactly [':'] cs
        let (_, cs) ← readPair 0 59 cs
        pure cs.isEmpty).getD false)

/-- Whether a word is a date, a time of day, or both. -/
def isDatetime (cs : List Char) : Bool :=
  match date? cs with
  | some [] => true
  | some (mark :: rest) =>
    (mark == 'T' || mark == 't' || mark == ' ') && (time? rest).any isOffset
  | none => time? cs == some []

def ofWord? (cs : List Char) : Option Toml :=
  if cs = ['t', 'r', 'u', 'e'] then some (.boolean true)
  else if cs = ['f', 'a', 'l', 's', 'e'] then some (.boolean false)
  else
    match integer? cs with
    | some n => some (.integer n)
    | none =>
      if isFloat cs then some .float else if isDatetime cs then some .datetime else none

def isWordChar (c : Char) : Bool :=
  c.isAlphanum || c == '_' || c == '+' || c == '-' || c == '.' || c == ':'

/-- A value that is one word. A date and its time may have a space between them. -/
def readWord : Reader Toml := fun cs =>
  let word := cs.takeWhile isWordChar
  let rest := cs.dropWhile isWordChar
  match date? word, rest with
  | some [], ' ' :: more =>
    if more.head?.any Char.isDigit then
      let time := more.takeWhile isWordChar
      (ofWord? (word ++ ' ' :: time)).map fun v => (v, more.dropWhile isWordChar)
    else (ofWord? word).map fun v => (v, rest)
  | _, _ => (ofWord? word).map fun v => (v, rest)

end PlanSql.Toml

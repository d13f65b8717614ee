import PlanSql.Json.Outline
import PlanSql.Json.Writer
import PlanSql.Proofs.Document.Numbers

/-!
# Documents are read from their texts

A document that nests at most 127 lists and objects, whose whole numbers fit in 64 bits and whose
floating point numbers read back, is read from the text with one element a line. The readers stop at
a number of characters that no text exceeds.
-/

namespace PlanSql

open Binary64 (digitsValue)

/-- The text of the number in a document is read as the number, with nothing left. Infinities and
what is no number have no such text, and the reader rounds some others to a neighbour. -/
def Binary64.ReadsBack (x : Binary64) : Prop :=
  Json.readNumber x.jsonText.toList = some (.float x, [])

instance (x : Binary64) : Decidable x.ReadsBack :=
  match h : Json.readNumber x.jsonText.toList with
  | some (.float y, []) =>
    decidable_of_iff (y = x) (by simp [Binary64.ReadsBack, h])
  | none => isFalse (by simp [Binary64.ReadsBack, h])
  | some (.null, _) | some (.bool _, _) | some (.integer _, _) | some (.string _, _)
  | some (.array _, _) | some (.object _, _) => isFalse (by simp [Binary64.ReadsBack, h])
  | some (.float _, _ :: _) => isFalse (by simp [Binary64.ReadsBack, h])

namespace Json

variable {c : Char} {j : Json} {n : Nat} {cs gap : List Char}

/-! ## Numbers -/

section Numbers

variable {cs rest l : List Char}

/-- What follows is not part of the number before it. -/
def StopsNumber (rest : List Char) : Prop :=
  ∀ c ∈ rest.head?, c.isDigit = false ∧ c ≠ '.' ∧ c ≠ 'e' ∧ c ≠ 'E'

theorem StopsNumber.digits (h : StopsNumber rest) : StopsDigits rest := fun c hc => (h c hc).1

/-- Digits end where another text begins. -/
theorem takeWhile_digits_append (h : StopsDigits rest) (cs : List Char) :
    (cs ++ rest).takeWhile Char.isDigit = cs.takeWhile Char.isDigit ∧
      (cs ++ rest).dropWhile Char.isDigit = cs.dropWhile Char.isDigit ++ rest := by
  induction cs with
  | nil => exact ⟨takeWhile_digits (by simp) h, dropWhile_digits (by simp) h⟩
  | cons c cs ih =>
    by_cases hc : c.isDigit = true
    · simpa [hc] using ih
    · simp [hc]

theorem readFraction_append (h : StopsDigits rest) {ds : List Char}
    (hcs : readFraction cs = some (ds, l)) : readFraction (cs ++ rest) = some (ds, l ++ rest) := by
  obtain ⟨htake, hdrop⟩ := takeWhile_digits_append h cs
  simp only [readFraction, htake, hdrop] at hcs ⊢
  split at hcs
  · cases hcs
  · next hne =>
    cases hcs
    rw [if_neg hne]

def powerSign : List Char → Int × List Char
  | '-' :: rest => (-1, rest)
  | '+' :: rest => (1, rest)
  | rest => (1, rest)

theorem readPower?_cons (mark : Char) (cs : List Char) : readPower? (mark :: cs) =
    if mark = 'e' ∨ mark = 'E' then (readFraction (powerSign cs).2).map fun (digits, rest) =>
      (some ((powerSign cs).1 * (digitsValue 0 digits : Nat)), rest)
    else some (none, mark :: cs) := rfl

theorem powerSign_append (hcs : cs ≠ []) (rest : List Char) :
    powerSign (cs ++ rest) = ((powerSign cs).1, (powerSign cs).2 ++ rest) := by
  cases cs with
  | nil => exact absurd rfl hcs
  | cons c cs =>
    by_cases hminus : c = '-'
    · rw [hminus]
      rfl
    by_cases hplus : c = '+'
    · rw [hplus]
      rfl
    · simp [powerSign, hminus, hplus]

theorem readPower?_of_stops (h : StopsNumber rest) : readPower? rest = some (none, rest) := by
  cases rest with
  | nil => rfl
  | cons c rest =>
    obtain ⟨_, _, he, hE⟩ := h c rfl
    rw [readPower?_cons, if_neg (by simp [he, hE])]

theorem readPower?_append (h : StopsNumber rest) {power : Option Int}
    (hcs : readPower? cs = some (power, l)) :
    readPower? (cs ++ rest) = some (power, l ++ rest) := by
  cases cs with
  | nil =>
    cases hcs
    exact readPower?_of_stops h
  | cons mark cs =>
    rw [readPower?_cons] at hcs
    rw [List.cons_append, readPower?_cons]
    split at hcs
    · next hmark =>
      obtain ⟨⟨digits, l'⟩, hread, hpair⟩ := Option.map_eq_some_iff.1 hcs
      cases hpair
      -- A mark with nothing behind it begins no exponent.
      have hne : cs ≠ [] := by
        rintro rfl
        cases hread
      rw [if_pos hmark, powerSign_append hne, readFraction_append h.digits hread]
      rfl
    · next hmark =>
      cases hcs
      rw [if_neg hmark]
      rfl

/-- The digits behind a point, if there is one. -/
def placesOf : Text.Reader (Option (List Char))
  | '.' :: rest => (readFraction rest).map fun (digits, rest) => (some digits, rest)
  | rest => some (none, rest)

def numberOf (negative : Bool) (whole : List Char) (places : Option (List Char))
    (power : Option Int) : Option Json :=
  let (n, dropped) := addDigits 0 whole
  if places.isNone && power.isNone && dropped.isEmpty then some (ofWhole negative n)
  else
    let digits := places.getD []
    let (m, rest) := addDigits n digits
    let scale : Int := dropped.length - (digits.length - rest.length : Nat) + power.getD 0
    (Binary64.scaled? negative m scale).map .float

theorem placesOf_of_ne (hc : c ≠ '.') (cs : List Char) :
    placesOf (c :: cs) = some (none, c :: cs) := by
  simp [placesOf, hc]

theorem numberFrom_eq (negative : Bool) (whole cs : List Char) : numberFrom negative whole cs =
    (placesOf cs).bind fun (places, cs) => (readPower? cs).bind fun (power, cs) =>
      (numberOf negative whole places power).map fun j => (j, cs) := by
  have hlast (p : Prop) [Decidable p] (j : Json) (x : Option Binary64) (l : List Char) :
      (if p then pure (j, l) else x >>= fun y => pure (.float y, l)) =
        (if p then some j else x.map .float).map fun j => (j, l) := by
    split
    · rfl
    · cases x <;> rfl
  rcases hdigits : addDigits 0 whole with ⟨n, dropped⟩
  simp only [numberFrom, numberOf, hdigits, hlast]
  split
  · rfl
  · next hdot =>
    rw [placesOf]
    · rfl
    · exact hdot

theorem placesOf_append (h : StopsNumber rest) {places : Option (List Char)}
    (hcs : placesOf cs = some (places, l)) : placesOf (cs ++ rest) = some (places, l ++ rest) := by
  cases cs with
  | nil =>
    cases hcs
    cases rest with
    | nil => rfl
    | cons c rest => exact placesOf_of_ne (h c rfl).2.1 rest
  | cons c cs =>
    by_cases hc : c = '.'
    · subst hc
      obtain ⟨⟨digits, l'⟩, hread, hpair⟩ := Option.map_eq_some_iff.1 hcs
      cases hpair
      simp [placesOf, readFraction_append h.digits hread]
    · rw [placesOf_of_ne hc] at hcs
      cases hcs
      exact placesOf_of_ne hc (cs ++ rest)

theorem numberFrom_append (h : StopsNumber rest) {negative : Bool} {whole : List Char}
    (hcs : numberFrom negative whole cs = some (j, l)) :
    numberFrom negative whole (cs ++ rest) = some (j, l ++ rest) := by
  rw [numberFrom_eq] at hcs ⊢
  obtain ⟨⟨places, cs₁⟩, hplaces, hcs⟩ := Option.bind_eq_some_iff.1 hcs
  obtain ⟨⟨power, cs₂⟩, hpower, hcs⟩ := Option.bind_eq_some_iff.1 hcs
  obtain ⟨j', hj, hpair⟩ := Option.map_eq_some_iff.1 hcs
  cases hpair
  simp [placesOf_append h hplaces, readPower?_append h hpower, hj]

def numberSign : List Char → Bool × List Char
  | '-' :: rest => (true, rest)
  | rest => (false, rest)

/-- The number with the given sign. -/
def unsigned (negative : Bool) : Text.Reader Json := fun cs =>
  match cs.takeWhile Char.isDigit with
  | [] => none
  | '0' :: _ :: _ => none
  | whole => numberFrom negative whole (cs.dropWhile Char.isDigit)

theorem readNumber_eq (cs : List Char) :
    readNumber cs = unsigned (numberSign cs).1 (numberSign cs).2 := by
  unfold readNumber
  split
  next heq =>
    change numberSign cs = _ at heq
    rw [heq]
    rfl

theorem readNumber_minus (cs : List Char) : readNumber ('-' :: cs) = unsigned true cs := by
  rw [readNumber_eq, numberSign]

theorem readNumber_of_ne (hc : c ≠ '-') (cs : List Char) :
    readNumber (c :: cs) = unsigned false (c :: cs) := by
  rw [readNumber_eq, numberSign]
  intro rest heq
  exact hc (List.cons.inj heq).1

theorem unsigned_append (h : StopsNumber rest) {negative : Bool}
    (hcs : unsigned negative cs = some (j, l)) :
    unsigned negative (cs ++ rest) = some (j, l ++ rest) := by
  obtain ⟨htake, hdrop⟩ := takeWhile_digits_append h.digits cs
  simp only [unsigned, htake, hdrop] at hcs ⊢
  split at hcs
  · cases hcs
  · cases hcs
  · exact numberFrom_append h hcs

theorem readNumber_append (h : StopsNumber rest) (hcs : readNumber cs = some (j, l)) :
    readNumber (cs ++ rest) = some (j, l ++ rest) := by
  cases cs with
  | nil => cases hcs
  | cons c cs =>
    rw [List.cons_append]
    by_cases hc : c = '-'
    · subst hc
      rw [readNumber_minus] at hcs ⊢
      exact unsigned_append h hcs
    · rw [readNumber_of_ne hc] at hcs ⊢
      exact unsigned_append h hcs

theorem head_of_readNumber (hcs : readNumber cs = some (j, l)) :
    ∃ c cs', cs = c :: cs' ∧ (c = '-' ∨ c.isDigit = true) := by
  cases cs with
  | nil => cases hcs
  | cons c cs =>
    refine ⟨c, cs, rfl, ?_⟩
    by_cases hc : c = '-'
    · exact .inl hc
    · rw [readNumber_of_ne hc] at hcs
      by_contra hdigit
      simp [unsigned, not_or.1 hdigit] at hcs

theorem addDigits_of_fits {ds : List Char} (h : digitsValue n ds < 2 ^ 64) :
    addDigits n ds = (digitsValue n ds, []) := by
  induction ds generalizing n with
  | nil => rfl
  | cons c ds ih =>
    rw [digitsValue_cons] at h ⊢
    rw [addDigits, if_pos (Nat.lt_of_le_of_lt (le_digitsValue _ ds) h), ih h]

theorem head_toDigits_ne_zero (hn : n ≠ 0) : (Nat.toDigits 10 n).head? ≠ some '0' := by
  induction n using Nat.strongRecOn with
  | _ n ih =>
    rcases Nat.lt_or_ge n 10 with hlt | hge
    · have hdigit : ∀ k < 10, k ≠ 0 → Nat.digitChar k ≠ '0' := by decide
      rw [Nat.toDigits_of_lt_base hlt]
      simpa using hdigit n hlt hn
    · have hhead := ih (n / 10) (by omega) (by omega)
      rw [Nat.toDigits_of_base_le (by decide) hge]
      cases hds : Nat.toDigits 10 (n / 10) with
      | nil => exact absurd hds Nat.toDigits_ne_nil
      | cons d ds => simpa [hds] using hhead

theorem unsigned_toDigits (hn : n < 2 ^ 64) (negative : Bool) :
    unsigned negative (Nat.toDigits 10 n) = some (ofWhole negative n, []) := by
  have htake : (Nat.toDigits 10 n ++ []).takeWhile Char.isDigit = Nat.toDigits 10 n :=
    takeWhile_digits isDigit_of_mem_toDigits fun _ h => nomatch h
  have hdrop : (Nat.toDigits 10 n ++ []).dropWhile Char.isDigit = [] :=
    dropWhile_digits isDigit_of_mem_toDigits fun _ h => nomatch h
  rw [List.append_nil] at htake hdrop
  have hnumber : numberFrom negative (Nat.toDigits 10 n) [] = some (ofWhole negative n, []) := by
    have hfits := addDigits_of_fits ((digitsValue_toDigits n).symm ▸ hn)
    rw [digitsValue_toDigits] at hfits
    simp [numberFrom_eq, placesOf, readPower?, numberOf, hfits]
  rw [unsigned, htake, hdrop]
  split
  · next h => exact absurd h Nat.toDigits_ne_nil
  · next c ds h =>
    by_cases hzero : n = 0
    · subst hzero
      cases h
    · exact absurd (h ▸ rfl) (head_toDigits_ne_zero hzero)
  · exact hnumber

/-- Whole numbers of 64 bits, with or without sign, are read from their texts. -/
theorem readNumber_toString {n : Int} (hlow : -2 ^ 63 ≤ n) (hhigh : n < 2 ^ 64) :
    readNumber (toString n).toList = some (.integer n, []) := by
  cases n with
  | ofNat n =>
    have htext : (toString (Int.ofNat n)).toList = Nat.toDigits 10 n := Nat.toList_repr
    obtain ⟨c, cs, hcs⟩ := List.exists_cons_of_ne_nil (Nat.toDigits_ne_nil (b := 10) (n := n))
    have hc : c ≠ '-' := by
      rintro rfl
      exact absurd (isDigit_of_mem_toDigits '-' (hcs ▸ List.mem_cons_self)) (by decide)
    rw [Int.ofNat_eq_natCast] at hhigh
    rw [htext, hcs, readNumber_of_ne hc, ← hcs, unsigned_toDigits (by omega)]
    rfl
  | negSucc n =>
    have htext : (toString (Int.negSucc n)).toList = '-' :: Nat.toDigits 10 (n + 1) := by
      rw [show toString (Int.negSucc n) = "-" ++ Nat.repr (n + 1) from rfl, String.toList_append,
        Nat.toList_repr]
      rfl
    rw [htext, readNumber_minus, unsigned_toDigits (by omega), ofWhole, if_pos rfl,
      if_neg (by omega)]
    rfl

end Numbers

/-! ## Texts -/

section Strings

variable {size : Nat}

theorem hexDigit?_digitChar : ∀ k < 16, Text.hexDigit? (Nat.digitChar k) = some k := by
  decide

theorem charOf?_toNat (c : Char) : Text.charOf? c.toNat = some c := by
  have hvalid : c.toNat.isValidChar := c.valid
  rw [Text.charOf?, dif_pos hvalid]
  rfl

theorem readUnicode_control (hc : c.toNat < 32) (rest : List Char) :
    readUnicode ('0' :: '0' :: Nat.digitChar (c.toNat / 16) ::
      Nat.digitChar (c.toNat % 16) :: rest) =
      some (c, rest) := by
  have hzero : Text.hexDigit? '0' = some 0 := by decide
  have hhex : Text.readHex 4 0
      ('0' :: '0' :: Nat.digitChar (c.toNat / 16) :: Nat.digitChar (c.toNat % 16) :: rest) =
        some (c.toNat, rest) := by
    simp only [Text.readHex, hzero, hexDigit?_digitChar (c.toNat / 16) (by omega),
      hexDigit?_digitChar (c.toNat % 16) (by omega), Option.bind_eq_bind, Option.bind_some]
    congr 2
    omega
  rw [readUnicode, hhex]
  simp only [Option.bind_eq_bind, Option.bind_some]
  rw [if_neg (by omega), charOf?_toNat]
  rfl

def withFirst (c : Char) (o : Option (List Char × List Char)) : Option (List Char × List Char) :=
  o.map fun (tail, rest) => (c :: tail, rest)

theorem readChars_escaped {rest : List Char} (h : readEscape cs = some (c, rest)) :
    readChars (size + 1) ('\\' :: cs) = withFirst c (readChars size rest) := by
  simp only [readChars, h, Option.bind_eq_bind, Option.bind_some]
  cases readChars size rest <;> rfl

theorem readChars_plain (hquote : c ≠ '\x22') (hslash : c ≠ '\\')
    (hcontrol : ¬c.toNat < 32) (cs : List Char) :
    readChars (size + 1) (c :: cs) = withFirst c (readChars size cs) := by
  simp only [readChars, hcontrol, if_false]
  cases readChars size cs <;> rfl

theorem readChars_escapeChar (c : Char) (cs : List Char) :
    readChars (size + 1) (escapeChar c ++ cs) = withFirst c (readChars size cs) := by
  unfold escapeChar
  split_ifs with hquote hslash hb hf hn hr ht hcontrol
  · subst hquote
    exact readChars_escaped rfl
  · subst hslash
    exact readChars_escaped rfl
  · subst hb
    exact readChars_escaped rfl
  · subst hf
    exact readChars_escaped rfl
  · subst hn
    exact readChars_escaped rfl
  · subst hr
    exact readChars_escaped rfl
  · subst ht
    exact readChars_escaped rfl
  · exact readChars_escaped (readUnicode_control hcontrol cs)
  · exact readChars_plain hquote hslash hcontrol cs

theorem readChars_escaped_text {s : List Char} (hs : s.length < size) (rest : List Char) :
    readChars size (s.flatMap escapeChar ++ '\x22' :: rest) = some (s, rest) := by
  induction s generalizing size with
  | nil =>
    cases size with
    | zero => simp at hs
    | succ size => rfl
  | cons c s ih =>
    cases size with
    | zero => simp at hs
    | succ size =>
      rw [List.flatMap_cons, List.append_assoc, readChars_escapeChar,
        ih (by simpa using hs)]
      rfl

theorem readString_quote {s : String} (hs : s.toList.length < size) (rest : List Char) :
    readString size ((quote s).toList ++ rest) = some (s, rest) := by
  have htext : (quote s).toList ++ rest =
      '\x22' :: (s.toList.flatMap escapeChar ++ '\x22' :: rest) := by
    simp [quote]
  rw [htext, readString, readChars_escaped_text hs]
  simp

end Strings

/-! ## Spaces -/

section Spaces

variable {gap : List Char} {c : Char}

theorem skipSpace_cons (hc : isSpace c = false) (cs : List Char) :
    skipSpace (c :: cs) = c :: cs := by
  simp [skipSpace, hc]

theorem skipSpace_gap (hgap : ∀ c ∈ gap, isSpace c = true) (cs : List Char) :
    skipSpace (gap ++ cs) = skipSpace cs :=
  List.dropWhile_append_of_pos hgap

theorem isSpace_of_mem_newLine {level : Nat} : ∀ c ∈ (newLine level).toList, isSpace c = true := by
  intro c hc
  rw [newLine, String.toList_ofList] at hc
  rcases List.mem_cons.1 hc with rfl | hc
  · decide
  · rw [List.eq_of_mem_replicate hc]
    decide

theorem isSpace_of_isDigit (hc : c.isDigit = true) : isSpace c = false := by
  have hrange := Text.toNat_of_isDigit hc
  have hne : ∀ d : Char, d.toNat < 48 → c ≠ d := by
    rintro d hd rfl
    omega
  simp [isSpace, hne ' ' (by decide), hne '\n' (by decide), hne '\r' (by decide),
    hne '\t' (by decide)]

end Spaces

/-! ## Lists and objects -/

section Bodies

variable {α β : Type} {element : Text.Reader α} {text : β → List Char} {value : β → α}

/-- A reader takes a text from behind spaces, whatever follows it that is no part of a number. -/
def Takes (element : Text.Reader α) (text : List Char) (x : α) : Prop :=
  ∀ gap rest : List Char, (∀ c ∈ gap, isSpace c = true) → StopsNumber rest →
    element (gap ++ (text ++ rest)) = some (x, rest)

/-- The texts behind the first one, with a comma before each and each on a line of its own, up to
the closing character. -/
def laterText (text : β → List Char) (level : Nat) (close : Char) : List β → List Char
  | [] => (newLine level).toList ++ [close]
  | b :: bs =>
    ',' :: ((newLine (level + 1)).toList ++ (text b ++ laterText text level close bs))

def bodyText (text : β → List Char) (level : Nat) (close : Char) : List β → List Char
  | [] => [close]
  | b :: bs => (newLine (level + 1)).toList ++ (text b ++ laterText text level close bs)

/-- A character that ends a list or an object. -/
def Closes (c : Char) : Prop := c = ']' ∨ c = '\x7d'

theorem Closes.isSpace_eq (h : Closes c) : isSpace c = false := by
  rcases h with rfl | rfl <;> decide

theorem Closes.ne_comma (h : Closes c) : c ≠ ',' := by
  rcases h with rfl | rfl <;> decide

theorem stopsNumber_cons (h : isSpace c = true ∨ Closes c ∨ c = ',') (cs : List Char) :
    StopsNumber (c :: cs) := by
  rintro d ⟨⟩
  simp only [isSpace, Bool.or_eq_true, beq_iff_eq] at h
  rcases h with (((rfl | rfl) | rfl) | rfl) | (rfl | rfl) | rfl <;> decide

variable {level : Nat} {close : Char}

theorem stopsNumber_laterText (bs : List β) (rest : List Char) :
    StopsNumber (laterText text level close bs ++ rest) := by
  cases bs with
  | nil =>
    rw [laterText, newLine, String.toList_ofList]
    exact stopsNumber_cons (.inl (by decide)) _
  | cons b bs => exact stopsNumber_cons (.inr (.inr rfl)) _

theorem length_lt_laterText (bs : List β) : bs.length < (laterText text level close bs).length := by
  induction bs with
  | nil => simp [laterText]
  | cons b bs ih =>
    simp only [laterText, List.length_cons, List.length_append]
    omega

theorem length_le_laterText {b : β} {bs : List β} (hb : b ∈ bs) :
    (text b).length ≤ (laterText text level close bs).length := by
  induction bs with
  | nil => cases hb
  | cons b' bs ih =>
    simp only [laterText, List.length_cons, List.length_append]
    rcases List.mem_cons.1 hb with rfl | hb
    · omega
    · have := ih hb
      omega

theorem readItems_laterText {count : Nat} {b : β} {bs : List β}
    (htakes : ∀ x ∈ b :: bs, Takes element (text x) (value x))
    (hgap : ∀ c ∈ gap, isSpace c = true) (hclose : Closes close) (hcount : bs.length < count)
    (rest : List Char) :
    readItems element close count (gap ++ (text b ++ (laterText text level close bs ++ rest))) =
      some ((b :: bs).map value, rest) := by
  induction bs generalizing b count gap with
  | nil =>
    obtain ⟨count, rfl⟩ : ∃ n, count = n + 1 := ⟨count - 1, by omega⟩
    rw [readItems, htakes b List.mem_cons_self gap _ hgap (stopsNumber_laterText [] rest)]
    simp [laterText, skipSpace_gap isSpace_of_mem_newLine, skipSpace_cons hclose.isSpace_eq,
      hclose.ne_comma]
  | cons b' bs ih =>
    obtain ⟨count, rfl⟩ : ∃ n, count = n + 1 := ⟨count - 1, by omega⟩
    have hrest := ih (fun x hx => htakes x (.tail _ hx))
      (@isSpace_of_mem_newLine (level + 1)) (Nat.lt_of_succ_lt_succ hcount)
    rw [readItems, htakes b List.mem_cons_self gap _ hgap
      (stopsNumber_laterText (b' :: bs) rest)]
    simp only [laterText, List.cons_append, List.append_assoc, Option.bind_eq_bind,
      Option.bind_some, skipSpace_cons (show isSpace ',' = false by decide), if_true, hrest]
    rfl

/-- What begins with neither a space nor the end of a list or an object. -/
def Opens (cs : List Char) : Prop := ∃ c cs', cs = c :: cs' ∧ isSpace c = false ∧ ¬Closes c

/-- A list or an object is read if its elements are, which are no longer than all of it. -/
theorem readBody_bodyText {size : Nat} {bs : List β} (hopens : ∀ b ∈ bs, Opens (text b))
    (htakes : ∀ b ∈ bs, (text b).length ≤ size → Takes element (text b) (value b))
    (hclose : Closes close) (hsize : (bodyText text level close bs).length ≤ size)
    (rest : List Char) :
    readBody element close size (bodyText text level close bs ++ rest) =
      some (bs.map value, rest) := by
  cases bs with
  | nil =>
    rw [bodyText, List.singleton_append, readBody, skipSpace_cons hclose.isSpace_eq]
    exact if_pos rfl
  | cons b bs =>
    simp only [bodyText, List.length_append] at hsize
    have hfits : ∀ x ∈ b :: bs, (text x).length ≤ size := by
      intro x hx
      rcases List.mem_cons.1 hx with rfl | hx
      · omega
      · have : (text x).length ≤ (laterText text level close bs).length := length_le_laterText hx
        omega
    have hcount : bs.length < (laterText text level close bs).length := length_lt_laterText bs
    have hread := @readItems_laterText _ _ _ _ _ _ level _ size _ _
      (fun x hx => htakes x hx (hfits x hx)) (List.forall_mem_nil _) hclose (by omega) rest
    obtain ⟨c, cs, hcs, hspace, hc⟩ := hopens b (.head _)
    have hne : c ≠ close := by
      rintro rfl
      exact hc hclose
    rw [hcs, List.nil_append] at hread
    rw [bodyText, List.append_assoc, List.append_assoc, hcs, readBody,
      skipSpace_gap isSpace_of_mem_newLine, List.cons_append, skipSpace_cons hspace]
    exact (if_neg hne).trans hread

variable (element) in
/-- A reader that goes on with the body of a list or an object after an opening character. -/
theorem takes_bodyText {reader : Text.Reader Json} (make : List α → Json)
    {start : Char} {size : Nat}
    {bs : List β} (hreader : ∀ cs rest, skipSpace cs = start :: rest → reader cs =
      (readBody element close size rest).map fun (items, rest) => (make items, rest))
    (hstart : isSpace start = false) (hopens : ∀ b ∈ bs, Opens (text b))
    (htakes : ∀ b ∈ bs, (text b).length ≤ size → Takes element (text b) (value b))
    (hclose : Closes close) (hsize : (start :: bodyText text level close bs).length ≤ size) :
    Takes reader (start :: bodyText text level close bs) (make (bs.map value)) := by
  intro gap rest hgap _
  rw [List.cons_append, hreader _ _ ((skipSpace_gap hgap _).trans (skipSpace_cons hstart _)),
    readBody_bodyText hopens htakes hclose (Nat.le_of_succ_le hsize)]
  rfl

end Bodies

/-! ## Documents -/

/-- A document that nests at most `depth` lists and objects, and whose numbers have texts that are
read as the same numbers. -/
inductive Printable : Nat → Json → Prop where
  | null {depth : Nat} : Printable depth .null
  | bool {depth : Nat} (b : Bool) : Printable depth (.bool b)
  | integer {depth : Nat} {n : Int} (hlow : -2 ^ 63 ≤ n) (hhigh : n < 2 ^ 64) :
    Printable depth (.integer n)
  | float {depth : Nat} {x : Binary64} (h : x.ReadsBack) : Printable depth (.float x)
  | string {depth : Nat} (s : String) : Printable depth (.string s)
  | array {depth : Nat} {items : List Json} (h : ∀ j ∈ items, Printable depth j) :
    Printable (depth + 1) (.array items)
  | object {depth : Nat} {members : List (String × Json)} (h : ∀ m ∈ members, Printable depth m.2) :
    Printable (depth + 1) (.object members)

section Values

variable {size depth level : Nat} {j : Json}

def chars (level : Nat) (j : Json) : List Char := (prettyAt level j).toList

def memberChars (level : Nat) (m : String × Json) : List Char := (prettyMember level m).toList

theorem memberChars_eq (level : Nat) (name : String) (j : Json) : memberChars level (name, j) =
    (quote name).toList ++ ':' :: ' ' :: chars (level + 1) j := by
  simp only [memberChars, prettyMember, chars, String.toList_append,
    show ": ".toList = [':', ' '] by decide, List.append_assoc, List.cons_append, List.nil_append]

theorem toList_prettyItems (level : Nat) (items : List Json) :
    (prettyItems level items).toList = laterText (chars (level + 1)) level ']' items := by
  induction items with
  | nil => simp [prettyItems, laterText]
  | cons j items ih => simp [prettyItems, laterText, chars, ih]

theorem toList_prettyMembers (level : Nat) (members : List (String × Json)) :
    (prettyMembers level members).toList = laterText (memberChars level) level '\x7d' members := by
  induction members with
  | nil => simp [prettyMembers, laterText]
  | cons m members ih => simp [prettyMembers, laterText, memberChars, ih]

theorem chars_array (level : Nat) (items : List Json) :
    chars level (.array items) = '[' :: bodyText (chars (level + 1)) level ']' items := by
  cases items with
  | nil => simp [chars, prettyAt, scalarText, bodyText]
  | cons j items => simp [chars, prettyAt, toList_prettyItems, bodyText]

theorem chars_object (level : Nat) (members : List (String × Json)) :
    chars level (.object members) = '\x7b' ::
      bodyText (memberChars level) level '\x7d' members := by
  cases members with
  | nil => simp [chars, prettyAt, scalarText, bodyText]
  | cons m members => simp [chars, prettyAt, toList_prettyMembers, bodyText, memberChars]

theorem chars_null (level : Nat) : chars level .null = ['n', 'u', 'l', 'l'] := by
  simp [chars, prettyAt, scalarText]

theorem chars_bool (level : Nat) (b : Bool) : chars level (.bool b) =
    if b then ['t', 'r', 'u', 'e'] else ['f', 'a', 'l', 's', 'e'] := by
  cases b <;> simp [chars, prettyAt, scalarText]

theorem opens_of_readNumber {l : List Char} {k : Json} (h : readNumber cs = some (k, l)) :
    Opens cs := by
  obtain ⟨c, cs, rfl, rfl | hc⟩ := head_of_readNumber h
  · exact ⟨'-', cs, rfl, by decide, by simp [Closes]⟩
  · refine ⟨c, cs, rfl, isSpace_of_isDigit hc, ?_⟩
    rintro (rfl | rfl) <;> exact absurd hc (by decide)

theorem quote_append (s : String) (rest : List Char) : (quote s).toList ++ rest =
    '\x22' :: (s.toList.flatMap escapeChar ++ '\x22' :: rest) := by
  simp [quote]

theorem opens_quote (s : String) (rest : List Char) : Opens ((quote s).toList ++ rest) :=
  ⟨'\x22', _, quote_append s rest, by decide, by simp [Closes]⟩

/-- The text of a document begins with a character of its own. -/
theorem Printable.opens (h : Printable depth j) (level : Nat) : Opens (chars level j) := by
  cases h with
  | null => exact ⟨'n', _, chars_null level, by decide, by simp [Closes]⟩
  | bool b =>
    cases b with
    | false => exact ⟨'f', _, chars_bool level false, by decide, by simp [Closes]⟩
    | true => exact ⟨'t', _, chars_bool level true, by decide, by simp [Closes]⟩
  | integer hlow hhigh => exact opens_of_readNumber (readNumber_toString hlow hhigh)
  | float h => exact opens_of_readNumber h
  | string s =>
    have hopens := opens_quote s []
    rwa [List.append_nil] at hopens
  | array => exact ⟨'[', _, chars_array level _, by decide, by simp [Closes]⟩
  | object => exact ⟨'\x7b', _, chars_object level _, by decide, by simp [Closes]⟩

theorem opens_memberChars (level : Nat) (m : String × Json) : Opens (memberChars level m) := by
  rw [memberChars_eq]
  exact opens_quote _ _

theorem readScalar_gap (hgap : ∀ c ∈ gap, isSpace c = true) (cs : List Char) :
    readScalar size (gap ++ cs) = readScalar size cs := by
  rw [readScalar, readScalar, skipSpace_gap hgap]

theorem readValue_of_ne (hgap : ∀ c ∈ gap, isSpace c = true)
    (hc : isSpace c = false) (hlist : c ≠ '[') (hobject : c ≠ '\x7b') :
    readValue size depth (gap ++ c :: cs) = readScalar size (c :: cs) := by
  cases depth with
  | zero => exact readScalar_gap hgap _
  | succ depth =>
    have hskip : skipSpace (gap ++ c :: cs) = c :: cs := by
      rw [skipSpace_gap hgap, skipSpace_cons hc]
    simp [readValue, hskip, hlist, hobject]

theorem takes_number {k : Json} (h : readNumber cs = some (k, [])) :
    Takes (readValue size depth) cs k := by
  intro gap rest hgap hrest
  have hread := readNumber_append hrest h
  obtain ⟨c, cs, rfl, hc⟩ := head_of_readNumber h
  have hspace : isSpace c = false := by
    rcases hc with rfl | hc
    · decide
    · exact isSpace_of_isDigit hc
  have hne : ∀ d, d ≠ '-' → d.isDigit = false → c ≠ d := by
    rintro d hd hdigit rfl
    simp [hd, hdigit] at hc
  rw [List.cons_append] at hread ⊢
  rw [readValue_of_ne hgap hspace (hne '[' (by decide) (by decide))
    (hne '\x7b' (by decide) (by decide)), readScalar, skipSpace_cons hspace]
  simpa [hne 'n' (by decide) (by decide), hne 't' (by decide) (by decide),
    hne 'f' (by decide) (by decide), hne '\x22' (by decide) (by decide)] using hread

theorem length_lt_quote (s : String) : s.toList.length < (quote s).toList.length := by
  have hchar : ∀ c : Char, 1 ≤ (escapeChar c).length := by
    intro c
    unfold escapeChar
    split_ifs <;> simp
  have hflat : ∀ cs : List Char, cs.length ≤ (cs.flatMap escapeChar).length := by
    intro cs
    induction cs with
    | nil => simp
    | cons c cs ih =>
      have := hchar c
      simp only [List.flatMap_cons, List.length_append, List.length_cons]
      omega
  have := hflat s.toList
  simp only [quote, String.toList_ofList, List.length_cons, List.length_append, List.cons_append]
  omega

theorem readString_gap {rest : List Char} {name : String} (hgap : ∀ c ∈ gap, isSpace c = true)
    (hsize : (quote name).toList.length ≤ size) :
    readString size (skipSpace (gap ++ ((quote name).toList ++ rest))) = some (name, rest) := by
  rw [skipSpace_gap hgap, quote_append, skipSpace_cons (by decide), ← quote_append,
    readString_quote (Nat.lt_of_lt_of_le (length_lt_quote name) hsize)]

theorem takes_quote {s : String} (hsize : (quote s).toList.length ≤ size) :
    Takes (readValue size depth) (quote s).toList (.string s) := by
  intro gap rest hgap _
  rw [quote_append, readValue_of_ne hgap (by decide) (by decide) (by decide), readScalar,
    skipSpace_cons (by decide)]
  have hread := readString_quote (Nat.lt_of_lt_of_le (length_lt_quote s) hsize) rest
  rw [quote_append] at hread
  simp [hread]

theorem spaces_space : ∀ c ∈ [' '], isSpace c = true := List.forall_mem_singleton.2 rfl

/-- A reader that goes on with the value of a member after its name. -/
theorem takes_memberChars {α : Type} {reader : Text.Reader α} {value : Text.Reader Json}
    {m : String × Json} {x : α} (hreader : ∀ cs rest rest',
      readString size (skipSpace cs) = some (m.1, ':' :: rest) → value rest = some (m.2, rest') →
        reader cs = some (x, rest'))
    (hvalue : Takes value (chars (level + 1) m.2) m.2)
    (hsize : (memberChars level m).length ≤ size) :
    Takes reader (memberChars level m) x := by
  intro gap rest hgap hrest
  rw [memberChars_eq] at hsize ⊢
  rw [List.length_append] at hsize
  rw [List.append_assoc]
  exact hreader _ _ _ (readString_gap hgap (by omega)) (hvalue [' '] rest spaces_space hrest)

theorem length_le_memberChars (level : Nat) (m : String × Json) :
    (chars (level + 1) m.2).length ≤ (memberChars level m).length := by
  rw [memberChars_eq]
  simp only [List.length_append, List.length_cons]
  omega

theorem Printable.takes (h : Printable depth j) (hsize : (chars level j).length ≤ size) :
    Takes (readValue size depth) (chars level j) j := by
  induction h generalizing level with
  | null =>
    intro gap rest hgap _
    rw [chars_null, List.cons_append, readValue_of_ne hgap (by decide) (by decide) (by decide),
      readScalar, skipSpace_cons (by decide)]
    simp [Text.readExactly]
  | bool b =>
    intro gap rest hgap _
    cases b with
    | false | true =>
      rw [chars_bool]
      simp [readValue_of_ne hgap, readScalar, skipSpace_cons, isSpace, Text.readExactly]
  | integer hlow hhigh => exact takes_number (readNumber_toString hlow hhigh)
  | float h => exact takes_number h
  | string s => exact takes_quote hsize
  | @array depth items h ih =>
    rw [chars_array] at hsize ⊢
    have htakes : Takes (readValue size (depth + 1)) _ (.array (items.map id)) :=
      takes_bodyText _ .array (fun _ _ hskip => by simp only [readValue, hskip]) (by decide)
        (fun k hk => (h k hk).opens (level + 1)) (fun k hk => ih k hk) (.inl rfl) hsize
    rwa [List.map_id] at htakes
  | @object depth members h ih =>
    rw [chars_object] at hsize ⊢
    have htakes : Takes (readValue size (depth + 1))
        ('\x7b' :: bodyText (memberChars level) level '\x7d' members)
        (.object (members.map id)) := by
      refine takes_bodyText (readMember (readValue size depth) size) .object
        (fun _ _ hskip => by simp only [readValue, hskip]) (by decide)
        (fun m _ => opens_memberChars level m) (fun m hm hfits => ?_) (.inr rfl) hsize
      refine takes_memberChars (fun _ _ _ hname hvalue => ?_)
        (ih m hm (Nat.le_trans (length_le_memberChars level m) hfits)) hfits
      simp [readMember, hname, hvalue, skipSpace_cons (show isSpace ':' = false by decide)]
    rwa [List.map_id] at htakes

end Values

end Json

end PlanSql

import Mathlib.Data.List.TakeWhile
import PlanSql.Json.Reader
import PlanSql.Value

/-!
# Numbers, decimals and datetimes in texts

Whole numbers, decimals and datetimes are read from the texts that are written for them. Floating
point numbers need not be: the digits are the shortest that round to the number, but a document is
read with two roundings.
-/

namespace PlanSql

open Binary64 (digitsValue)

/-! ## Digits -/

section Digits

variable {ds rest : List Char}

/-- What follows is not part of the digits before it. -/
def StopsDigits (rest : List Char) : Prop := ∀ c ∈ rest.head?, c.isDigit = false

theorem takeWhile_digits (hds : ∀ c ∈ ds, c.isDigit = true) (hrest : StopsDigits rest) :
    (ds ++ rest).takeWhile Char.isDigit = ds := by
  rw [List.takeWhile_append_of_pos hds]
  cases rest with
  | nil => simp
  | cons c rest => simp [hrest c rfl]

theorem dropWhile_digits (hds : ∀ c ∈ ds, c.isDigit = true) (hrest : StopsDigits rest) :
    (ds ++ rest).dropWhile Char.isDigit = rest := by
  rw [List.dropWhile_append_of_pos hds]
  cases rest with
  | nil => rfl
  | cons c rest => simp [hrest c rfl]

theorem isDigit_of_mem_toDigits {n : Nat} : ∀ c ∈ Nat.toDigits 10 n, c.isDigit = true :=
  fun _ => Nat.isDigit_of_mem_toDigits (by decide) (by decide)

theorem digitsValue_append (start : Nat) (ds ds' : List Char) :
    digitsValue start (ds ++ ds') = digitsValue (digitsValue start ds) ds' := by
  unfold digitsValue
  exact List.foldl_append

theorem digitsValue_cons (start : Nat) (c : Char) (ds : List Char) :
    digitsValue start (c :: ds) = digitsValue (10 * start + (c.toNat - 48)) ds := by
  rw [digitsValue, List.foldl_cons, digitsValue]

theorem le_digitsValue (start : Nat) (ds : List Char) : start ≤ digitsValue start ds := by
  induction ds generalizing start with
  | nil => exact Nat.le_refl start
  | cons c ds ih =>
    have h := ih (10 * start + (c.toNat - 48))
    rw [digitsValue_cons]
    omega

theorem digitsValue_toDigits (n : Nat) : digitsValue 0 (Nat.toDigits 10 n) = n :=
  Nat.ofDigitChars_toDigits (by decide) (by decide)

/-- Zeros in front make no difference. -/
theorem digitsValue_zeros (k : Nat) (ds : List Char) :
    digitsValue 0 (List.replicate k '0' ++ ds) = digitsValue 0 ds := by
  induction k with
  | zero => rfl
  | succ k ih => exact ih

end Digits

/-! ## Decimals -/

namespace Decimal

/-- Digits are read as long as they fit. Those behind the point are counted. -/
theorem readRest?_digits {negative point started : Bool} {n k : Nat} {ds : List Char}
    (hds : ∀ c ∈ ds, c.isDigit = true) (hk : if point then k + ds.length ≤ 28 else k = 0)
    (hfit : digitsValue n ds < 2 ^ 96) (rest : List Char) :
    readRest? negative ⟨n, k, point, started⟩ (ds ++ rest) =
      readRest? negative ⟨digitsValue n ds, if point then k + ds.length else 0, point,
        started || !ds.isEmpty⟩ rest := by
  induction ds generalizing n k started with
  | nil => cases point <;> simp_all [digitsValue]
  | cons c ds ih =>
    rw [digitsValue_cons] at hfit ⊢
    have hnext : 10 * n + (c.toNat - 48) < 2 ^ 96 := Nat.lt_of_le_of_lt (le_digitsValue _ ds) hfit
    have hroom : ¬ (point = true ∧ 28 ≤ k) := by
      rintro ⟨rfl, hle⟩
      simp only [if_true, List.length_cons] at hk
      omega
    rw [List.cons_append, readRest?, if_neg hroom, if_pos (hds c List.mem_cons_self), if_pos hnext,
      ih (fun c' hc' => hds c' (.tail _ hc')) _ hfit]
    · cases point <;> simp [Nat.add_assoc, Nat.add_comm 1]
    · cases point with
      | false => rfl
      | true => simpa [Nat.add_assoc, Nat.add_comm 1] using hk

theorem exists_positional (d : Decimal) : ∃ whole places, whole ≠ [] ∧ places.length = d.places ∧
    (∀ c ∈ whole ++ places, c.isDigit = true) ∧ digitsValue 0 (whole ++ places) = d.digits ∧
    Digits.positional ⟨d.digits, -(d.places : Int)⟩ =
      whole ++ if d.places = 0 then [] else '.' :: places := by
  by_cases hzero : d.places = 0
  · refine ⟨Nat.toDigits 10 d.digits, [], Nat.toDigits_ne_nil, by simp [hzero], ?_, ?_, ?_⟩
    · simpa using isDigit_of_mem_toDigits
    · rw [List.append_nil, digitsValue_toDigits]
    · simp [Digits.positional, Digits.chars, hzero]
  · have hneg : ¬ (0 : Int) ≤ -(d.places : Int) := by omega
    generalize hfilled : List.replicate (d.places + 1 - (Nat.toDigits 10 d.digits).length) '0' ++
      Nat.toDigits 10 d.digits = filled
    have hlength : d.places < filled.length := by
      have hpos : 0 < (Nat.toDigits 10 d.digits).length := Nat.length_toDigits_pos
      rw [← hfilled, List.length_append, List.length_replicate]
      omega
    have hdigits : ∀ c ∈ filled, c.isDigit = true := by
      rw [← hfilled]
      intro c hc
      rcases List.mem_append.1 hc with hc | hc
      · rw [List.eq_of_mem_replicate hc]
        decide
      · exact isDigit_of_mem_toDigits c hc
    refine ⟨filled.take (filled.length - d.places), filled.drop (filled.length - d.places), ?_, ?_,
      ?_, ?_, ?_⟩
    · intro hnil
      have hlen := congrArg List.length hnil
      rw [List.length_take, List.length_nil] at hlen
      omega
    · rw [List.length_drop]
      omega
    · rwa [List.take_append_drop]
    · rw [List.take_append_drop, ← hfilled, digitsValue_zeros, digitsValue_toDigits]
    · simp only [Digits.positional, if_neg hneg, if_neg hzero, Int.neg_neg, Int.toNat_natCast,
        Digits.chars, hfilled]

theorem readRest?_positional (d : Decimal) (negative : Bool) :
    readRest? negative ⟨0, 0, false, false⟩ (Digits.positional ⟨d.digits, -(d.places : Int)⟩) =
      ofParts? negative d.digits d.places := by
  obtain ⟨whole, places, hne, hlength, hdigits, hvalue, htext⟩ := d.exists_positional
  have hfit := d.digits_lt
  rw [← hvalue, digitsValue_append] at hfit
  have hstarted : (false || !whole.isEmpty) = true := by simpa using hne
  rw [htext, @readRest?_digits negative false false 0 0 _
    (fun c hc => hdigits c (List.mem_append_left _ hc)) rfl
    (Nat.lt_of_le_of_lt (le_digitsValue _ places) hfit), hstarted]
  by_cases hzero : d.places = 0
  · obtain rfl : places = [] := List.length_eq_zero_iff.1 (hlength.trans hzero)
    rw [List.append_nil] at hvalue
    rw [if_pos hzero, readRest?, hvalue, hzero]
    rfl
  · have hplaces := @readRest?_digits negative true true _ 0 _
      (fun c hc => hdigits c (List.mem_append_right _ hc))
      (by rw [if_pos rfl, Nat.zero_add, hlength]; exact d.places_le) hfit []
    rw [if_neg hzero, readRest?, if_neg (by simp), if_neg (by decide), if_pos (by simp)]
    rw [← digitsValue_append, hvalue, List.append_nil] at hplaces
    simpa [hlength, readRest?] using hplaces

/-- A decimal is read from its text; only the sign of zero is lost. -/
theorem ofText?_toString (d : Decimal) : ofText? d.toString = some d.settled := by
  have hparts : ofParts? d.negative d.digits d.places = some d.settled := by
    unfold ofParts? make?
    rw [dif_pos ⟨d.digits_lt, d.places_le⟩]
    rfl
  have hplain : readPlain? d.toString.toList = some d.settled := by
    rw [← hparts, toString, String.toList_append, String.toList_ofList]
    cases hsign : d.negative with
    | true => exact d.readRest?_positional true
    | false =>
      obtain ⟨whole, places, hne, _, hdigits, _, htext⟩ := d.exists_positional
      have hread := d.readRest?_positional false
      rw [htext] at hread ⊢
      cases whole with
      | nil => exact absurd rfl hne
      | cons c whole =>
        have hc := hdigits c (by simp)
        unfold readPlain?
        split
        · next heq =>
          obtain ⟨rfl, _⟩ := List.cons.inj heq
          exact absurd hc (by decide)
        · next heq =>
          obtain ⟨rfl, _⟩ := List.cons.inj heq
          exact absurd hc (by decide)
        · exact hread
  rw [ofText?, hplain]
  rfl

end Decimal

/-! ## Datetimes -/

namespace Datetime

section Readers

variable {ds rest : List Char}

theorem dropWhile_blank (hds : ∀ c ∈ ds, c.isDigit = true) (hne : ds ≠ []) :
    (ds ++ rest).dropWhile Text.isBlank = ds ++ rest := by
  cases ds with
  | nil => exact absurd rfl hne
  | cons c ds => simp [Text.isBlank_of_isDigit (hds c List.mem_cons_self)]

theorem number_digits {width : Nat} (hds : ∀ c ∈ ds, c.isDigit = true) (hne : ds ≠ [])
    (hwidth : ds.length ≤ width) (hrest : ds.length = width ∨ StopsDigits rest) :
    number width (ds ++ rest) = some (digitsValue 0 ds, rest) := by
  have hstop : StopsDigits (rest.take (width - ds.length)) := by
    rcases hrest with rfl | hrest
    · simp [StopsDigits]
    · intro c hc
      rw [List.head?_take] at hc
      split at hc
      · cases hc
      · exact hrest c hc
  have hempty : ds.isEmpty = false := by simpa using hne
  simp only [number, dropWhile_blank hds hne]
  rw [List.take_append, List.take_of_length_le hwidth, takeWhile_digits hds hstop, hempty,
    List.drop_left]
  rfl

theorem mark_cons {c : Char} (hc : Text.isBlank c = false) :
    mark c (c :: rest) = some ((), rest) := by
  simp [mark, hc]

end Readers

section Texts

variable {width n : Nat} {rest : List Char}

theorem toList_padded (width n : Nat) : (padded width n).toList =
    List.replicate (width - (Nat.toDigits 10 n).length) '0' ++ Nat.toDigits 10 n := by
  rw [padded, String.toList_ofList]

theorem isDigit_of_mem_padded : ∀ c ∈ (padded width n).toList, c.isDigit = true := by
  intro c hc
  rw [toList_padded] at hc
  rcases List.mem_append.1 hc with hc | hc
  · rw [List.eq_of_mem_replicate hc]
    decide
  · exact isDigit_of_mem_toDigits c hc

theorem padded_ne_nil : (padded width n).toList ≠ [] := by
  rw [toList_padded]
  exact fun h => Nat.toDigits_ne_nil (List.append_eq_nil_iff.1 h).2

theorem digitsValue_padded : digitsValue 0 (padded width n).toList = n := by
  rw [toList_padded, digitsValue_zeros, digitsValue_toDigits]

theorem length_padded (hw : 0 < width) (hn : n < 10 ^ width) :
    (padded width n).toList.length = width := by
  have hlength := (Nat.length_toDigits_le_iff (b := 10) (by decide) hw).2 hn
  rw [toList_padded, List.length_append, List.length_replicate]
  omega

theorem number_padded (hw : 0 < width) (hn : n < 10 ^ width) :
    number width ((padded width n).toList ++ rest) = some (n, rest) := by
  have hlength := length_padded hw hn
  rw [number_digits isDigit_of_mem_padded padded_ne_nil (Nat.le_of_eq hlength) (.inl hlength),
    digitsValue_padded]

theorem signedYear_digits {ds : List Char} (hds : ∀ c ∈ ds, c.isDigit = true) (hne : ds ≠ []) :
    signedYear (ds ++ rest) = (number 4 (ds ++ rest)).map fun (n, rest) => ((n : Int), rest) := by
  have hsign : ∀ c ∈ ds.head?, c ≠ '-' ∧ c ≠ '+' := by
    intro c hc
    have hdigit := hds c (List.mem_of_mem_head? hc)
    refine ⟨?_, ?_⟩
    · rintro rfl
      exact absurd hdigit (by decide)
    · rintro rfl
      exact absurd hdigit (by decide)
  unfold signedYear
  rw [dropWhile_blank hds hne]
  cases ds with
  | nil => exact absurd rfl hne
  | cons c ds =>
    obtain ⟨hminus, hplus⟩ := hsign c rfl
    split
    · next heq => exact absurd (List.cons.inj heq).1 hminus
    · next heq => exact absurd (List.cons.inj heq).1 hplus
    · rfl

theorem signed_padded (sign : Int) (n : Nat) (hrest : StopsDigits rest) :
    signedYear.signed sign ((padded width n).toList ++ rest) = some (sign * n, rest) := by
  unfold signedYear.signed
  rw [number_digits isDigit_of_mem_padded padded_ne_nil (by simp) (.inr hrest), digitsValue_padded]
  rfl

theorem signedYear_minus (cs : List Char) : signedYear ('-' :: cs) =
    if cs.head?.any Char.isDigit then signedYear.signed (-1) cs else none := by
  rw [signedYear, List.dropWhile_cons_of_neg (by decide)]
  simp only

theorem signedYear_plus (cs : List Char) : signedYear ('+' :: cs) =
    if cs.head?.any Char.isDigit then signedYear.signed 1 cs else none := by
  rw [signedYear, List.dropWhile_cons_of_neg (by decide)]
  simp only

theorem signedYear_yearText (year : Int) (hrest : StopsDigits rest) :
    signedYear ((yearText year).toList ++ rest) = some (year, rest) := by
  have hhead : ((padded 4 year.natAbs).toList ++ rest).head?.any Char.isDigit = true := by
    cases hds : (padded 4 year.natAbs).toList with
    | nil => exact absurd hds padded_ne_nil
    | cons c ds => exact isDigit_of_mem_padded c (hds ▸ List.mem_cons_self)
  unfold yearText
  split
  · next hyear =>
    have hvalue : (year.natAbs : Int) = year := Int.natAbs_of_nonneg hyear.1
    rw [signedYear_digits isDigit_of_mem_padded padded_ne_nil, number_padded (by decide) (by omega)]
    simp only [Option.map_some, hvalue]
  · next hyear =>
    rw [String.toList_append, List.append_assoc]
    split
    · have hvalue : -1 * (year.natAbs : Int) = year := by omega
      rw [show "-".toList = ['-'] by decide, List.singleton_append, signedYear_minus, if_pos hhead,
        signed_padded (-1) _ hrest, hvalue]
    · have hvalue : 1 * (year.natAbs : Int) = year := by omega
      rw [show "+".toList = ['+'] by decide, List.singleton_append, signedYear_plus, if_pos hhead,
        signed_padded 1 _ hrest, hvalue]

/-- The digits of a fraction count from the left. -/
theorem fraction_padded (hw : 0 < width) (hwidth : width ≤ 9) (hn : n < 10 ^ width) :
    fraction ('.' :: (padded width n).toList) = some (n * 10 ^ (9 - width), []) := by
  have hlength := length_padded hw hn
  have hdigits : ((padded width n).toList.take 9).takeWhile Char.isDigit =
    (padded width n).toList := by
    rw [List.take_of_length_le (by omega), List.takeWhile_eq_self_iff]
    exact isDigit_of_mem_padded
  have hrest : (padded width n).toList.dropWhile Char.isDigit = [] :=
    List.dropWhile_eq_nil_iff.2 isDigit_of_mem_padded
  have hempty : (padded width n).toList.isEmpty = false := by simpa using padded_ne_nil
  have hvalue : digitsValue 0 (padded width n).toList = n := digitsValue_padded
  unfold digitsValue at hvalue
  simp only [fraction, hdigits, hrest, hempty, hvalue, hlength]
  rfl

theorem fraction_fractionText (hn : n < 10 ^ 9) :
    fraction (fractionText n).toList = some (n, []) := by
  have hpoint : ∀ s : String, ("." ++ s).toList = '.' :: s.toList := fun s => by
    rw [String.toList_append]
    rfl
  unfold fractionText
  split
  · next hzero =>
    rw [hzero]
    rfl
  split
  · next hmilli =>
    have hvalue : n / 1000000 * 10 ^ (9 - 3) = n := by omega
    rw [hpoint, fraction_padded (by decide) (by decide) (by omega), hvalue]
  split
  · next hmicro =>
    have hvalue : n / 1000 * 10 ^ (9 - 6) = n := by omega
    rw [hpoint, fraction_padded (by decide) (by decide) (by omega), hvalue]
  · have hvalue : n * 10 ^ (9 - 9) = n := by omega
    rw [hpoint, fraction_padded (by decide) (by decide) hn, hvalue]

end Texts

theorem month_day_lt {year : Int} {month day : Nat} (hday : 1 ≤ day)
    (hmonth : day ≤ Calendar.monthLength year month) : month < 10 ^ 2 ∧ day < 10 ^ 2 := by
  unfold Calendar.monthLength at hmonth
  split at hmonth
  · split at hmonth <;> omega
  split at hmonth
  · omega
  split at hmonth
  · omega
  · omega

theorem ofText?_jsonText (t : Datetime) : ofText? t.jsonText = some t := by
  obtain ⟨_, ⟨hday, hmonth⟩, hhour, hminute, hsecond, hnano⟩ := t.valid
  obtain ⟨hmonth, hday⟩ := month_day_lt hday hmonth
  have hstop : ∀ rest, StopsDigits ('-' :: rest) := by
    intro rest c hc
    cases hc
    decide
  have hparts : ofParts? t.year t.month t.day t.hour t.minute t.second t.nano = some t := by
    rw [ofParts?, dif_pos t.valid]
  have htext : t.jsonText.toList = (yearText t.year).toList ++ '-' :: ((padded 2 t.month).toList ++
      '-' :: ((padded 2 t.day).toList ++ 'T' :: ((padded 2 t.hour).toList ++
      ':' :: ((padded 2 t.minute).toList ++ ':' :: ((padded 2 t.second).toList ++
      (fractionText t.nano).toList))))) := by
    simp [jsonText, text]
  have hpadded : ∀ {n rest}, n < 10 ^ 2 → number 2 ((padded 2 n).toList ++ rest) = some (n, rest) :=
    number_padded (by decide)
  have hdash : ∀ {rest}, mark '-' ('-' :: rest) = some ((), rest) := mark_cons (by decide)
  have hcolon : ∀ {rest}, mark ':' (':' :: rest) = some ((), rest) := mark_cons (by decide)
  have hletter : ∀ {rest}, mark 'T' ('T' :: rest) = some ((), rest) := mark_cons (by decide)
  have hnext : ∀ {α : Type} {read : Option α} {x : α} {f : α → Option Datetime},
      read = some x → f x = some t → (read >>= f) = some t :=
    fun h h' => Option.bind_eq_some_iff.2 ⟨_, h, h'⟩
  rw [ofText?, htext]
  refine hnext (signedYear_yearText t.year (hstop _)) ?_
  refine hnext hdash <| hnext (hpadded hmonth) <| hnext hdash <| hnext (hpadded hday) ?_
  refine hnext hletter <| hnext (hpadded (by omega)) <| hnext hcolon <|
    hnext (hpadded (by omega)) ?_
  refine hnext hcolon <| hnext (hpadded (by omega)) <| hnext (fraction_fractionText hnano) ?_
  exact hparts

end Datetime

end PlanSql

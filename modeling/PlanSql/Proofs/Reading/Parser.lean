import PlanSql.Proofs.Reading.Adequacy

/-!
# Reading by descent

The grammar as a function: at each level, what is tighter is read first, and then as much of the
level as follows. It finds exactly what the grammar reads, so there is at most one reading.
-/

namespace PlanSql.Reading

mutual

/-- Reads an expression at a level from the beginning of some tokens, with what is left of them. -/
def parseAt : Nat → Nat → List Token → Option (Tree × List Token)
  | 0, _, _ => none
  | fuel + 1, n, ts =>
    if n = 8 then parseAtom fuel ts
    else if n = 2 ∧ ts.head? = some .not then
      (parseAt fuel 2 ts.tail).map fun (t, rest) => (.not t, rest)
    else if n = 6 ∧ ts.head? = some (.op .sub) then
      (parseAt fuel 6 ts.tail).map fun (t, rest) => (.negate t, rest)
    else
      match parseAt fuel (n + 1) ts with
      | some (t, rest) => if n = 2 ∨ n = 6 then some (t, rest) else parseTail fuel n t rest
      | none => none

def parseAtom : Nat → List Token → Option (Tree × List Token)
  | 0, _ => none
  | fuel + 1, ts =>
    match ts with
    | .word text :: rest => some (.word text, rest)
    | .left :: rest =>
      match parseAt fuel 0 rest with
      | some (t, .closes ")" :: rest) => some (t, rest)
      | _ => none
    | .opens text :: rest => (parseArgs fuel rest).map fun (a, rest) => (.form text a, rest)
    | _ => none

/-- Reads what follows an operand at a level. -/
def parseTail : Nat → Nat → Tree → List Token → Option (Tree × List Token)
  | 0, _, _, _ => none
  | fuel + 1, n, t, ts =>
    match ts with
    | .op op :: rest =>
      if level op = n then
        match parseAt fuel (n + 1) rest with
        | some (r, rest) => parseTail fuel n (.binary op t r) rest
        | none => none
      else some (t, ts)
    | .suffix kind text :: rest =>
      if kind.level = n then parseTail fuel n (.suffix kind text t) rest else some (t, ts)
    | .suffixOpens kind text :: rest =>
      if kind.level = n then
        match parseArgs fuel rest with
        | some (a, rest) => parseTail fuel n (.suffixForm kind text t a) rest
        | none => none
      else some (t, ts)
    | .between :: rest =>
      if n = 3 then
        match parseAt fuel 4 rest with
        | some (low, .op .and :: rest) =>
          match parseAt fuel 4 rest with
          | some (high, rest) => parseTail fuel n (.between t low high) rest
          | none => none
        | _ => none
      else some (t, ts)
    | _ => some (t, ts)

/-- Reads arguments up to the closing of their form. -/
def parseArgs : Nat → List Token → Option (Args × List Token)
  | 0, _ => none
  | fuel + 1, ts =>
    match parseAt fuel 0 ts with
    | some (t, .closes text :: rest) => some (.last t text, rest)
    | some (t, .sep text :: rest) =>
      (parseArgs fuel rest).map fun (a, rest) => (.more t text a, rest)
    | _ => none

end

/-- Reads all of some tokens as an expression. No reading goes deeper than this many steps. -/
def parse (ts : List Token) : Option Tree :=
  match parseAt (10 * ts.length + 9) 0 ts with
  | some (t, []) => some t
  | _ => none

section Sound

/-- What is found with some fuel is read by the grammar. -/
structure Sound (fuel : Nat) : Prop where
  expr : ∀ n ts t rest, parseAt fuel n ts = some (t, rest) →
    ∃ us, ts = us ++ rest ∧ Reads n us (.expr t)
  atom : ∀ ts t rest, parseAtom fuel ts = some (t, rest) →
    ∃ us, ts = us ++ rest ∧ Reads 8 us (.expr t)
  tail : ∀ n vs t ts t' rest, parseTail fuel n t ts = some (t', rest) → Reads n vs (.expr t) →
    ∃ us, ts = us ++ rest ∧ Reads n (vs ++ us) (.expr t')
  args : ∀ ts a rest, parseArgs fuel ts = some (a, rest) →
    ∃ us, ts = us ++ rest ∧ Reads 0 us (.args a)

variable {fuel n : Nat} {ts rest : List Token} {t : Tree}

theorem Sound.parseAt_succ (h : Sound fuel) (hp : parseAt (fuel + 1) n ts = some (t, rest)) :
    ∃ us, ts = us ++ rest ∧ Reads n us (.expr t) := by
  rw [parseAt] at hp
  split at hp
  · next hn =>
    rw [hn]
    exact h.atom ts t rest hp
  split at hp
  · next hn =>
    obtain ⟨rfl, hhead⟩ := hn
    obtain ⟨ts, rfl⟩ := List.head?_eq_some_iff.1 hhead
    obtain ⟨⟨t, rest'⟩, hin, heq⟩ := Option.map_eq_some_iff.1 hp
    cases heq
    obtain ⟨us, htail, hread⟩ := h.expr _ _ _ _ hin
    exact ⟨.not :: us, congrArg _ htail, .not (Nat.le_refl 2) hread⟩
  split at hp
  · next hn =>
    obtain ⟨rfl, hhead⟩ := hn
    obtain ⟨ts, rfl⟩ := List.head?_eq_some_iff.1 hhead
    obtain ⟨⟨t, rest'⟩, hin, heq⟩ := Option.map_eq_some_iff.1 hp
    cases heq
    obtain ⟨us, htail, hread⟩ := h.expr _ _ _ _ hin
    exact ⟨.op .sub :: us, congrArg _ htail, .negate (Nat.le_refl 6) hread⟩
  split at hp
  · next hin =>
    obtain ⟨us, rfl, hread⟩ := h.expr _ _ _ _ hin
    have hloose := hread.mono (Nat.le_succ n)
    split at hp
    · cases hp
      exact ⟨us, rfl, hloose⟩
    · obtain ⟨vs, rfl, hread'⟩ := h.tail _ us _ _ _ _ hp hloose
      exact ⟨us ++ vs, (List.append_assoc _ _ _).symm, hread'⟩
  · cases hp

theorem Sound.parseAtom_succ (h : Sound fuel) (hp : parseAtom (fuel + 1) ts = some (t, rest)) :
    ∃ us, ts = us ++ rest ∧ Reads 8 us (.expr t) := by
  unfold parseAtom at hp
  split at hp
  · cases hp
    exact ⟨[_], rfl, .word _ (Nat.le_refl 8)⟩
  · split at hp
    · next hin =>
      cases hp
      obtain ⟨us, rfl, hread⟩ := h.expr _ _ _ _ hin
      exact ⟨.left :: (us ++ [.closes ")"]), by simp, .parens (Nat.le_refl 8) hread⟩
    · cases hp
  · obtain ⟨⟨a, rest'⟩, hin, heq⟩ := Option.map_eq_some_iff.1 hp
    cases heq
    obtain ⟨us, rfl, hread⟩ := h.args _ _ _ hin
    exact ⟨.opens _ :: us, rfl, .form (Nat.le_refl 8) hread⟩
  · cases hp

theorem Sound.parseTail_succ (h : Sound fuel) {vs : List Token} {t' : Tree}
    (hp : parseTail (fuel + 1) n t ts = some (t', rest)) (hv : Reads n vs (.expr t)) :
    ∃ us, ts = us ++ rest ∧ Reads n (vs ++ us) (.expr t') := by
  -- each way to go on reads some tokens and continues with a longer operand
  have hmore : ∀ (us : List Token) {ts' : List Token} {t₁ : Tree}, Reads n (vs ++ us) (.expr t₁) →
      parseTail fuel n t₁ ts' = some (t', rest) →
      ∃ ws, us ++ ts' = ws ++ rest ∧ Reads n (vs ++ ws) (.expr t') := by
    intro us ts' t₁ hread hp'
    obtain ⟨ws, rfl, hread'⟩ := h.tail _ _ _ _ _ _ hp' hread
    exact ⟨us ++ ws, (List.append_assoc _ _ _).symm, by rwa [← List.append_assoc]⟩
  have hdone : ∀ {us : List Token}, us = rest → ∃ ws, us = ws ++ rest ∧
    Reads n (vs ++ ws) (.expr t) :=
    fun heq => ⟨[], heq, by rwa [List.append_nil]⟩
  unfold parseTail at hp
  split at hp
  · split at hp
    · next op _ hn =>
      subst hn
      split at hp
      · next hin =>
        obtain ⟨us, rfl, hread⟩ := h.expr _ _ _ _ hin
        exact hmore (.op op :: us) (.binary (Nat.le_refl _) hv hread) hp
      · cases hp
    · cases hp
      exact hdone rfl
  · split at hp
    · next kind text _ hn =>
      subst hn
      exact hmore [.suffix kind text] (.suffix (Nat.le_refl _) hv) hp
    · cases hp
      exact hdone rfl
  · split at hp
    · next kind text _ hn =>
      subst hn
      split at hp
      · next hin =>
        obtain ⟨us, rfl, hread⟩ := h.args _ _ _ hin
        exact hmore (.suffixOpens kind text :: us) (.suffixForm (Nat.le_refl _) hv hread) hp
      · cases hp
    · cases hp
      exact hdone rfl
  · split at hp
    · next hn =>
      subst hn
      split at hp
      · next hlow =>
        obtain ⟨ls, rfl, hl⟩ := h.expr _ _ _ _ hlow
        split at hp
        · next hhigh =>
          obtain ⟨hs, rfl, hh⟩ := h.expr _ _ _ _ hhigh
          have hread := Reads.between (Nat.le_refl 3) hv hl hh
          obtain ⟨ws, heq, hread'⟩ := hmore _ hread hp
          exact ⟨ws, by rw [← heq]; simp, hread'⟩
        · cases hp
      · cases hp
    · cases hp
      exact hdone rfl
  · cases hp
    exact hdone rfl

theorem Sound.parseArgs_succ (h : Sound fuel) {a : Args}
    (hp : parseArgs (fuel + 1) ts = some (a, rest)) :
    ∃ us, ts = us ++ rest ∧ Reads 0 us (.args a) := by
  unfold parseArgs at hp
  split at hp
  · next text _ hin =>
    cases hp
    obtain ⟨us, rfl, hread⟩ := h.expr _ _ _ _ hin
    exact ⟨us ++ [.closes text], by simp, .last hread⟩
  · next text _ hin =>
    obtain ⟨us, rfl, hread⟩ := h.expr _ _ _ _ hin
    obtain ⟨⟨a, rest'⟩, hargs, heq⟩ := Option.map_eq_some_iff.1 hp
    cases heq
    obtain ⟨vs, rfl, hread'⟩ := h.args _ _ _ hargs
    exact ⟨us ++ .sep text :: vs, by simp, .more hread hread'⟩
  · cases hp

/-- With any fuel, what is found is read by the grammar. -/
theorem sound (fuel : Nat) : Sound fuel := by
  induction fuel with
  | zero =>
    constructor
    · intro n ts t rest h
      simp [parseAt] at h
    · intro ts t rest h
      simp [parseAtom] at h
    · intro n vs t ts t' rest h
      simp [parseTail] at h
    · intro ts a rest h
      simp [parseArgs] at h
  | succ fuel ih =>
    exact ⟨fun _ _ _ _ => ih.parseAt_succ, fun _ _ _ => ih.parseAtom_succ,
      fun _ _ _ _ _ _ => ih.parseTail_succ, fun _ _ _ => ih.parseArgs_succ⟩

end Sound

section Complete

/-- The level of which a token goes on with an operand, if it does. -/
def Token.tail? : Token → Option Nat
  | .op o => some (level o)
  | .suffix kind _ | .suffixOpens kind _ => some kind.level
  | .between => some 3
  | _ => none

/-- An expression at level `n` ends before these tokens. -/
def Stops (n : Nat) (ts : List Token) : Prop := ∀ t ∈ ts.head?, ∀ m ∈ t.tail?, m < n

theorem Stops.mono (h : Stops n ts) (hle : n ≤ m) : Stops m ts :=
  fun t ht k hk => Nat.lt_of_lt_of_le (h t ht k hk) hle

/-- The fuel that it takes to read some tokens at a level. -/
def need (n : Nat) (ts : List Token) : Nat := 10 * ts.length + 8 - n

/-- An expression is found where it ends. -/
def Finds (n : Nat) (ts : List Token) (t : Tree) : Prop :=
  ∀ fuel rest, need n ts < fuel → Stops n rest → parseAt fuel n (ts ++ rest) = some (t, rest)

/-- An expression is found where it ends or where its level goes on. -/
def Chains (n : Nat) (ts : List Token) (t : Tree) : Prop :=
  ∀ fuel rest, need n ts < fuel → Stops (n + 1) rest → ∃ fuel', fuel ≤ fuel' + need n ts ∧
    parseAt fuel n (ts ++ rest) = parseTail fuel' n t rest

/-- A level at which something may go on with an operand. -/
def IsChain (n : Nat) : Prop := n < 8 ∧ n ≠ 2 ∧ n ≠ 6
  deriving Decidable

def FindsArgs (ts : List Token) (a : Args) : Prop :=
  ∀ fuel rest, 10 * ts.length < fuel → parseArgs fuel (ts ++ rest) = some (a, rest)

/-- The parser, given fuel for the tokens, returns the phrase and leaves what follows it. -/
def Found (n : Nat) (ts : List Token) : Phrase → Prop
  | .expr t => Finds n ts t ∧ (IsChain n → Chains n ts t)
  | .args a => FindsArgs ts a

variable {n m : Nat} {ts us : List Token} {t : Tree}

/-- Where an expression ends, nothing of its level follows. -/
theorem parseTail_of_stops {rest : List Token} (h : Stops n rest) (fuel : Nat) (t : Tree) :
    parseTail (fuel + 1) n t rest = some (t, rest) := by
  unfold parseTail
  split
  · next op rest =>
    have := h _ rfl _ rfl
    rw [if_neg (by omega)]
  · next kind text rest =>
    have := h _ rfl _ rfl
    rw [if_neg (by omega)]
  · next kind text rest =>
    have := h _ rfl _ rfl
    rw [if_neg (by omega)]
  · next rest =>
    have := h _ rfl _ rfl
    rw [if_neg (by omega)]
  · rfl

theorem Chains.finds (h : Chains n ts t) : Finds n ts t := by
  intro fuel rest hfuel hstops
  obtain ⟨fuel', hle, hparse⟩ := h fuel rest hfuel (hstops.mono (Nat.le_succ n))
  obtain ⟨k, rfl⟩ := Nat.exists_eq_add_one_of_ne_zero (show fuel' ≠ 0 by omega)
  rw [hparse, parseTail_of_stops hstops]

theorem Found.down (hread : Reads (n + 1) ts (.expr t)) (h : Found (n + 1) ts (.expr t)) :
    Found n ts (.expr t) := by
  have hle := hread.level_le
  have hlen : 0 < ts.length := List.length_pos_iff.2 hread.ne_nil
  have hhead : ∀ rest, (ts ++ rest).head? = ts.head? := head?_append_of_ne_nil hread.ne_nil
  -- neither an inversion nor a sign comes first where it would be read at this level
  have hplain : ∀ fuel rest, parseAt (fuel + 1) n (ts ++ rest) =
      match parseAt fuel (n + 1) (ts ++ rest) with
      | some (t, rest) => if n = 2 ∨ n = 6 then some (t, rest) else parseTail fuel n t rest
      | none => none := by
    intro fuel rest
    rw [parseAt, if_neg (by omega), if_neg, if_neg]
    · rintro ⟨rfl, hsign⟩
      exact (hread.head_ne.2 t rfl).2 (by omega) (hhead rest ▸ hsign)
    · rintro ⟨rfl, hnot⟩
      exact (hread.head_ne.2 t rfl).1 (by omega) (hhead rest ▸ hnot)
  have hstep : ∀ fuel rest, need n ts < fuel + 1 → Stops (n + 1) rest →
      parseAt (fuel + 1) n (ts ++ rest) =
        if n = 2 ∨ n = 6 then some (t, rest) else parseTail fuel n t rest := by
    intro fuel rest hfuel hstops
    rw [hplain, h.1 fuel rest (by unfold need at *; omega) hstops]
  have hchains : IsChain n → Chains n ts t := by
    intro hchain fuel rest hfuel hstops
    obtain ⟨k, rfl⟩ := Nat.exists_eq_add_one_of_ne_zero (show fuel ≠ 0 by omega)
    refine ⟨k, by unfold need; omega, ?_⟩
    rw [hstep k rest hfuel hstops, if_neg (not_or.2 hchain.2)]
  refine ⟨?_, hchains⟩
  by_cases hn : n = 2 ∨ n = 6
  · intro fuel rest hfuel hstops
    obtain ⟨k, rfl⟩ := Nat.exists_eq_add_one_of_ne_zero (show fuel ≠ 0 by omega)
    rw [hstep k rest hfuel (hstops.mono (Nat.le_succ n)), if_pos hn]
  · exact (hchains ⟨by omega, not_or.1 hn⟩).finds

theorem Found.of_le (hread : Reads m ts (.expr t)) (h : Found m ts (.expr t)) (hle : n ≤ m) :
    Found n ts (.expr t) := by
  induction hle with
  | refl => exact h
  | step hle ih => exact ih (hread.mono (Nat.le_succ _)) (h.down hread)

/-- A word, a form or parentheses are found at their level. -/
theorem found_atom (hne : ts ≠ []) (hatom : ∀ fuel rest, 10 * ts.length ≤ fuel + 1 →
    parseAtom (fuel + 1) (ts ++ rest) = some (t, rest)) : Found 8 ts (.expr t) := by
  refine ⟨fun fuel rest hfuel _ => ?_, fun h => absurd h.1 (by decide)⟩
  have := List.length_pos_iff.2 hne
  unfold need at hfuel
  obtain ⟨k, rfl⟩ : ∃ k, fuel = k + 1 + 1 := ⟨fuel - 2, by omega⟩
  rw [parseAt, if_pos rfl, hatom k rest (by omega)]

theorem Found.extend {l : Tree} (hl : Found n ts (.expr l)) (hchain : IsChain n)
    (hne : us ≠ []) (hgoes : ∀ rest, Stops (n + 1) (us ++ rest))
    (hnext : ∀ fuel rest, 10 * us.length ≤ fuel → Stops (n + 1) rest →
      parseTail (fuel + 1) n l (us ++ rest) = parseTail fuel n t rest) :
    Found n (ts ++ us) (.expr t) := by
  have hpos := List.length_pos_iff.2 hne
  have hneed : need n (ts ++ us) = need n ts + 10 * us.length := by
    unfold need
    rw [List.length_append]
    have := hchain.1
    omega
  have hchains : Chains n (ts ++ us) t := by
    intro fuel rest hfuel hstops
    obtain ⟨fuel', hle, hparse⟩ := hl.2 hchain fuel (us ++ rest) (by omega) (hgoes rest)
    obtain ⟨k, rfl⟩ := Nat.exists_eq_add_one_of_ne_zero (show fuel' ≠ 0 by omega)
    refine ⟨k, by omega, ?_⟩
    rw [List.append_assoc, hparse, hnext k rest (by omega) hstops]
  exact ⟨hchains.finds, fun _ => hchains⟩

theorem isChain_level (op : BinaryOp) : IsChain (level op) := by
  cases op <;> decide

theorem Suffix.isChain_level (kind : Suffix) : IsChain kind.level := by
  cases kind <;> decide

/-- The parser finds all that the grammar reads: its fuel never runs out. -/
theorem Reads.found {p : Phrase} (h : Reads n ts p) : Found n ts p := by
  induction h with
  | word text hn =>
    refine (found_atom (by simp) fun fuel rest _ => ?_).of_le (.word text (Nat.le_refl 8)) hn
    simp [parseAtom]
  | @parens n ts t hn h ih =>
    refine (found_atom (by simp) fun fuel rest hfuel => ?_).of_le (.parens (Nat.le_refl 8) h) hn
    have hin := ih.1 fuel (.closes ")" :: rest)
      (by unfold need; simp at hfuel; omega) (by simp [Stops, Token.tail?])
    simp [parseAtom, hin]
  | @form n text ts a hn h ih =>
    refine (found_atom (by simp) fun fuel rest hfuel => ?_).of_le (.form (Nat.le_refl 8) h) hn
    have hin := ih fuel rest (by simp at hfuel; omega)
    simp [parseAtom, hin]
  | @not n ts t hn h ih =>
    refine Found.of_le (.not (Nat.le_refl 2) h) ⟨fun fuel rest hfuel hstops => ?_, ?_⟩ hn
    · obtain ⟨k, rfl⟩ := Nat.exists_eq_add_one_of_ne_zero (show fuel ≠ 0 by omega)
      have hin := ih.1 k rest (by unfold need at *; simp at hfuel; omega) hstops
      simp [parseAt, hin]
    · exact fun hchain => absurd rfl hchain.2.1
  | @negate n ts t hn h ih =>
    refine Found.of_le (.negate (Nat.le_refl 6) h) ⟨fun fuel rest hfuel hstops => ?_, ?_⟩ hn
    · obtain ⟨k, rfl⟩ := Nat.exists_eq_add_one_of_ne_zero (show fuel ≠ 0 by omega)
      have hin := ih.1 k rest (by unfold need at *; simp at hfuel; omega) hstops
      simp [parseAt, hin]
    · exact fun hchain => absurd rfl hchain.2.2
  | @binary n op ls rs l r hn hl hr ihl ihr =>
    refine Found.of_le (.binary (Nat.le_refl _) hl hr) (ihl.extend (isChain_level op) (by simp)
      (by simp [Stops, Token.tail?]) fun fuel rest hfuel hstops => ?_) hn
    have hin := ihr.1 fuel rest (by unfold need; simp at hfuel; omega) hstops
    simp [parseTail, hin]
  | @suffix n kind text ts t hn h ih =>
    refine Found.of_le (.suffix (Nat.le_refl _) h) (ih.extend kind.isChain_level (by simp)
      (by simp [Stops, Token.tail?]) fun fuel rest hfuel hstops => ?_) hn
    simp [parseTail]
  | @suffixForm n kind text ts us t a hn h ha ih iha =>
    refine Found.of_le (.suffixForm (Nat.le_refl _) h ha) (ih.extend kind.isChain_level (by simp)
      (by simp [Stops, Token.tail?]) fun fuel rest hfuel hstops => ?_) hn
    have hin := iha fuel rest (by simp at hfuel; omega)
    simp [parseTail, hin]
  | @between n ts ls hs t l h hn ht hl hh iht ihl ihh =>
    refine Found.of_le (.between (Nat.le_refl 3) ht hl hh) (iht.extend (by decide) (by simp)
      (by simp [Stops, Token.tail?]) fun fuel rest hfuel hstops => ?_) hn
    simp only [List.length_cons, List.length_append] at hfuel
    have hlow := ihl.1 fuel (.op .and :: (hs ++ rest)) (by unfold need; omega)
      (by simp [Stops, Token.tail?, level])
    have hhigh := ihh.1 fuel rest (by unfold need; omega) hstops
    simp [parseTail, hlow, hhigh]
  | @last n text ts t h ih =>
    intro fuel rest hfuel
    obtain ⟨k, rfl⟩ := Nat.exists_eq_add_one_of_ne_zero (show fuel ≠ 0 by omega)
    have hin := ih.1 k (.closes text :: rest)
      (by unfold need; simp at hfuel; omega) (by simp [Stops, Token.tail?])
    simp [parseArgs, hin]
  | @more n text ts us t a h ha ih iha =>
    intro fuel rest hfuel
    obtain ⟨k, rfl⟩ := Nat.exists_eq_add_one_of_ne_zero (show fuel ≠ 0 by omega)
    simp only [List.length_cons, List.length_append] at hfuel
    have hin := ih.1 k (.sep text :: (us ++ rest)) (by unfold need; omega)
      (by simp [Stops, Token.tail?])
    have hargs := iha k rest (by omega)
    simp [parseArgs, hin, hargs]

theorem parse_eq_some_iff : parse ts = some t ↔ Reads 0 ts (.expr t) := by
  constructor
  · intro h
    unfold parse at h
    split at h
    · next t' hp =>
      cases h
      obtain ⟨us, hus, hread⟩ := (sound _).expr _ _ _ _ hp
      rw [List.append_nil] at hus
      exact hus ▸ hread
    · cases h
  · intro h
    have hp := h.found.1 (10 * ts.length + 9) [] (by unfold need; omega) (by simp [Stops])
    rw [List.append_nil] at hp
    rw [parse, hp]

/-- A written tree is read as the tree without its parentheses exactly if it is adequate. -/
theorem parse_tokens_iff : parse t.tokens = some t.erase ↔ t.Adequate :=
  parse_eq_some_iff.trans t.reads_iff_adequate

end Complete

end PlanSql.Reading

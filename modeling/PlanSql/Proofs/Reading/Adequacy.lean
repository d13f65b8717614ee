import PlanSql.Proofs.Reading.Grammar

/-!
# Which trees are read back

The tokens of a tree are read as the tree without its parentheses exactly if the tree is adequate.
One half follows the tree. The other half has to find out where a reading cuts the tokens. Tokens
other than parentheses are as many in a reading as in the tree, so a cut at an operator is at the
operator of the tree; and openings and closings are nested, so a pair of parentheses around
everything is one pair.
-/

namespace PlanSql.Reading

-- The zero that the sum of a list starts from is the literal one, whatever else is imported.
attribute [local instance (2000)] Zero.ofOfNat0

section Weights

/-- How much a token counts: parentheses and other closings do not. -/
def Token.weight : Token → Nat
  | .left | .closes _ => 0
  | .comment => 2
  | _ => 1

def weight (ts : List Token) : Nat := (ts.map Token.weight).sum

@[simp] theorem weight_nil : weight [] = 0 := rfl

@[simp] theorem weight_cons (t : Token) (ts : List Token) :
    weight (t :: ts) = t.weight + weight ts := by
  rw [weight, weight, List.map_cons, List.sum_cons]

@[simp] theorem weight_append (ts us : List Token) : weight (ts ++ us) = weight ts + weight us := by
  rw [weight, List.map_append, List.sum_append_nat, weight, weight]

/-- A sign makes a comment of a sign after it, and nothing else of what comes after it. -/
theorem signed_cases (ts : List Token) :
    (∃ rest, ts = .op .sub :: rest ∧ signed ts = .comment :: rest) ∨
      ts.head? ≠ some (.op .sub) ∧ signed ts = .op .sub :: ts := by
  unfold signed
  split
  · next rest => exact .inl ⟨rest, rfl, rfl⟩
  · next hne =>
    refine .inr ⟨fun h => ?_, rfl⟩
    obtain ⟨rest, rfl⟩ := List.head?_eq_some_iff.1 h
    exact hne rest rfl

theorem weight_signed (ts : List Token) : weight (signed ts) = weight ts + 1 := by
  rcases signed_cases ts with ⟨rest, rfl, h⟩ | ⟨_, h⟩
  · rw [h, weight_cons, weight_cons]
    simp only [Token.weight]
    omega
  · rw [h, weight_cons]
    simp only [Token.weight]
    omega

/-- A list is cut in one way at a token that counts, if it is known how much stands before it. -/
theorem eq_of_cut {ls ls' rs rs' : List Token} {a b : Token} (h : ls ++ a :: rs = ls' ++ b :: rs')
    (ha : 0 < a.weight) (hb : 0 < b.weight) (hw : weight ls = weight ls') :
    ls = ls' ∧ a = b ∧ rs = rs' := by
  induction ls generalizing ls' with
  | nil =>
    cases ls' with
    | nil => exact ⟨rfl, List.cons.inj h⟩
    | cons c ls' =>
      obtain ⟨rfl, _⟩ := List.cons.inj h
      rw [weight_nil, weight_cons] at hw
      omega
  | cons c ls ih =>
    cases ls' with
    | nil =>
      obtain ⟨rfl, _⟩ := List.cons.inj h
      rw [weight_nil, weight_cons] at hw
      omega
    | cons c' ls' =>
      obtain ⟨rfl, htail⟩ := List.cons.inj h
      rw [weight_cons, weight_cons] at hw
      obtain ⟨rfl, hrest⟩ := ih htail (by omega)
      exact ⟨rfl, hrest⟩

mutual

/-- How much the tokens of an expression count. -/
def Tree.weight : Tree → Nat
  | .word _ => 1
  | .group x => x.weight
  | .binary _ lhs rhs => lhs.weight + (1 + rhs.weight)
  | .negate x | .not x | .suffix _ _ x => x.weight + 1
  | .suffixForm _ _ x args => x.weight + (1 + args.weight)
  | .between x low high => x.weight + (1 + (low.weight + (1 + high.weight)))
  | .form _ args => args.weight + 1

/-- How much the tokens of arguments count. -/
def Args.weight : Args → Nat
  | .last x _ => x.weight
  | .more x _ rest => x.weight + (1 + rest.weight)

end

mutual

theorem Tree.weight_tokens (t : Tree) : Reading.weight t.tokens = t.weight := by
  cases t with
  | word => rfl
  | group x => simp [Tree.tokens, Tree.weight, Token.weight, x.weight_tokens]
  | binary op l r =>
    simp [Tree.tokens, Tree.weight, Token.weight, l.weight_tokens, r.weight_tokens]
  | negate x => rw [Tree.tokens, weight_signed, x.weight_tokens, Tree.weight]
  | not x => simp [Tree.tokens, Tree.weight, Token.weight, x.weight_tokens, Nat.add_comm]
  | suffix kind text x => simp [Tree.tokens, Tree.weight, Token.weight, x.weight_tokens]
  | suffixForm kind text x args =>
    simp [Tree.tokens, Tree.weight, Token.weight, x.weight_tokens, args.weight_tokens]
  | between x low high =>
    simp [Tree.tokens, Tree.weight, Token.weight, x.weight_tokens, low.weight_tokens,
      high.weight_tokens]
  | form text args =>
    simp [Tree.tokens, Tree.weight, Token.weight, args.weight_tokens, Nat.add_comm]

theorem Args.weight_tokens (a : Args) : Reading.weight a.tokens = a.weight := by
  cases a with
  | last x text => simp [Args.tokens, Args.weight, Token.weight, x.weight_tokens]
  | more x text rest =>
    simp [Args.tokens, Args.weight, Token.weight, x.weight_tokens, rest.weight_tokens]

end

mutual

theorem Tree.weight_erase (t : Tree) : t.erase.weight = t.weight := by
  cases t with
  | word => rfl
  | group x => rw [Tree.erase, x.weight_erase, Tree.weight]
  | binary op l r => rw [Tree.erase, Tree.weight, Tree.weight, l.weight_erase, r.weight_erase]
  | negate x | not x | suffix kind text x =>
    rw [Tree.erase, Tree.weight, Tree.weight, x.weight_erase]
  | suffixForm kind text x args =>
    rw [Tree.erase, Tree.weight, Tree.weight, x.weight_erase, args.weight_erase]
  | between x low high =>
    rw [Tree.erase, Tree.weight, Tree.weight, x.weight_erase, low.weight_erase, high.weight_erase]
  | form text args => rw [Tree.erase, Tree.weight, Tree.weight, args.weight_erase]

theorem Args.weight_erase (a : Args) : a.erase.weight = a.weight := by
  cases a with
  | last x text => rw [Args.erase, Args.weight, Args.weight, x.weight_erase]
  | more x text rest =>
    rw [Args.erase, Args.weight, Args.weight, x.weight_erase, rest.weight_erase]

end

/-- How much the tokens of a phrase count. -/
def Phrase.weight : Phrase → Nat
  | .expr t => t.weight
  | .args a => a.weight

theorem Reads.weight_eq {n : Nat} {ts : List Token} {p : Phrase} (h : Reads n ts p) :
    weight ts = p.weight := by
  induction h with
  | word => rfl
  | parens _ _ ih => simpa [Token.weight] using ih
  | form _ _ ih | not _ _ ih | negate _ _ ih =>
    simp [Phrase.weight, Tree.weight, Token.weight] at ih ⊢
    omega
  | binary _ _ _ ihl ihr | suffix _ _ ih | suffixForm _ _ _ ih iha | between _ _ _ _ iht ihl ihh =>
    simp_all [Phrase.weight, Tree.weight, Token.weight]
  | last _ ih | more _ _ ih iha => simp_all [Phrase.weight, Args.weight, Token.weight]

theorem Tree.weight_pos (t : Tree) : 0 < t.weight := by
  cases t with
  | group x => exact x.weight_pos
  | _ => simp only [Tree.weight]; omega

end Weights

section Nesting

variable {ts : List Token} {n : Nat}

/-- How many more enclosures are open after a token. -/
def Token.nesting : Token → Int
  | .left | .opens _ | .suffixOpens .. => 1
  | .closes _ => -1
  | _ => 0

/-- How many more enclosures are open after some tokens. -/
def nesting (ts : List Token) : Int := (ts.map Token.nesting).sum

@[simp] theorem nesting_nil : nesting [] = 0 := rfl

@[simp] theorem nesting_cons (t : Token) (ts : List Token) :
    nesting (t :: ts) = t.nesting + nesting ts := by
  rw [nesting, nesting, List.map_cons, List.sum_cons]

@[simp] theorem nesting_append (ts us : List Token) :
    nesting (ts ++ us) = nesting ts + nesting us := by
  rw [nesting, List.map_append, List.sum_append_int, nesting, nesting]

/-- The tokens close `k` enclosures more than they open, and no more before the last token. -/
structure Nested (k : Int) (ts : List Token) : Prop where
  total : nesting ts = -k
  before : ∀ ps qs, ts = ps ++ qs → qs ≠ [] → 0 ≤ nesting ps

namespace Nested

variable {k : Int} {ts us : List Token} {t : Token}

theorem nil : Nested 0 [] := ⟨rfl, fun _ _ h hne => absurd (List.append_eq_nil_iff.1 h.symm).2 hne⟩

theorem append (h : Nested 0 ts) (h' : Nested k us) : Nested k (ts ++ us) := by
  refine ⟨?_, fun ps qs heq hne => ?_⟩
  · rw [nesting_append, h.total, h'.total]
    omega
  · rcases List.append_eq_append_iff.1 heq with ⟨as, rfl, hus⟩ | ⟨cs, hts, _⟩
    · rw [nesting_append, h.total]
      have := h'.before as qs hus hne
      omega
    · by_cases hcs : cs = []
      · rw [hcs, List.append_nil] at hts
        rw [← hts, h.total]
        omega
      · exact h.before ps cs hts hcs

/-- A token that opens nothing and closes nothing may come first. -/
theorem cons (h : Nested k ts) (ht : t.nesting = 0) : Nested k (t :: ts) := by
  have hone : Nested 0 [t] := by
    refine ⟨by simp [ht], fun ps qs heq hne => ?_⟩
    cases ps with
    | nil => simp
    | cons p ps =>
      obtain ⟨_, hnil⟩ := List.cons.inj heq
      exact absurd (List.append_eq_nil_iff.1 hnil.symm).2 hne
  exact hone.append h

theorem opened (h : Nested 1 ts) (ht : t.nesting = 1) : Nested 0 (t :: ts) := by
  refine ⟨by rw [nesting_cons, h.total, ht]; omega, fun ps qs heq hne => ?_⟩
  cases ps with
  | nil => simp
  | cons p ps =>
    obtain ⟨rfl, htail⟩ := List.cons.inj heq
    rw [nesting_cons, ht]
    have := h.before ps qs htail hne
    omega

theorem closed (h : Nested 0 ts) (ht : t.nesting = -1) : Nested 1 (ts ++ [t]) := by
  refine ⟨by rw [nesting_append, h.total, nesting_cons, ht]; simp, fun ps qs heq hne => ?_⟩
  rcases List.append_eq_append_iff.1 heq with ⟨as, rfl, hus⟩ | ⟨cs, hts, _⟩
  · cases as with
    | nil => simp [h.total]
    | cons a as =>
      obtain ⟨_, hnil⟩ := List.cons.inj hus
      exact absurd (List.append_eq_nil_iff.1 hnil.symm).2 hne
  · by_cases hcs : cs = []
    · rw [hcs, List.append_nil] at hts
      rw [← hts, h.total]
      omega
    · exact h.before ps cs hts hcs

/-- Tokens that do not close more than they open cannot end inside a pair of parentheses around
everything. -/
theorem ne_parens (h : Nested 0 ts) (h' : Nested 0 us) (hne : us ≠ []) {rest : List Token}
    (hrest : rest ≠ []) (text : String) : us ++ rest ≠ .left :: (ts ++ [.closes text]) := by
  intro heq
  cases us with
  | nil => exact hne rfl
  | cons u us =>
    obtain ⟨rfl, htail⟩ := List.cons.inj heq
    have hinside := (h.closed (t := .closes text) rfl).before us rest htail.symm hrest
    have htotal := h'.total
    rw [nesting_cons] at htotal
    simp only [Token.nesting] at htotal
    omega

end Nested

/-- How many enclosures a phrase closes more than it opens. -/
def Phrase.closings : Phrase → Int
  | .expr _ => 0
  | .args _ => 1

theorem Reads.nested {p : Phrase} (h : Reads n ts p) :
    Nested p.closings ts := by
  induction h with
  | word text => exact Nested.nil.cons rfl
  | parens _ _ ih => exact (ih.closed rfl).opened rfl
  | form _ _ ih => exact ih.opened rfl
  | not _ _ ih | negate _ _ ih => exact ih.cons rfl
  | binary _ _ _ ihl ihr => exact ihl.append (ihr.cons rfl)
  | suffix _ _ ih => exact ih.append (Nested.nil.cons rfl)
  | suffixForm _ _ _ ih iha => exact ih.append (iha.opened rfl)
  | between _ _ _ _ iht ihl ihh => exact iht.append ((ihl.append (ihh.cons rfl)).cons rfl)
  | last _ ih => exact ih.closed rfl
  | more _ _ ih iha => exact ih.append (iha.cons rfl)

theorem nested_signed (h : Nested 0 ts) : Nested 0 (signed ts) := by
  rcases signed_cases ts with ⟨rest, rfl, hs⟩ | ⟨_, hs⟩
  · rw [hs]
    -- a comment opens and closes as much as the sign that it begins with
    refine ⟨by simpa [Token.nesting] using h.total, fun ps qs heq hne => ?_⟩
    cases ps with
    | nil => simp
    | cons p ps =>
      obtain ⟨rfl, htail⟩ := List.cons.inj heq
      have := h.before (.op .sub :: ps) qs (congrArg _ htail) hne
      simpa [Token.nesting] using this
  · rw [hs]
    exact h.cons rfl

mutual

theorem Tree.nested_tokens (t : Tree) : Nested 0 t.tokens := by
  cases t with
  | word => exact Nested.nil.cons rfl
  | group x => exact (x.nested_tokens.closed rfl).opened rfl
  | binary op l r => exact l.nested_tokens.append (r.nested_tokens.cons rfl)
  | negate x => exact nested_signed x.nested_tokens
  | not x => exact x.nested_tokens.cons rfl
  | suffix kind text x => exact x.nested_tokens.append (Nested.nil.cons rfl)
  | suffixForm kind text x args => exact x.nested_tokens.append (args.nested_tokens.opened rfl)
  | between x low high =>
    exact x.nested_tokens.append
      ((low.nested_tokens.append (high.nested_tokens.cons rfl)).cons rfl)
  | form text args => exact args.nested_tokens.opened rfl

theorem Args.nested_tokens (a : Args) : Nested 1 a.tokens := by
  cases a with
  | last x text => exact x.nested_tokens.closed rfl
  | more x text rest => exact x.nested_tokens.append (rest.nested_tokens.cons rfl)

end

theorem Tree.tokens_ne_nil (t : Tree) : t.tokens ≠ [] := by
  intro h
  have hw := t.weight_tokens
  rw [h, weight_nil] at hw
  have := t.weight_pos
  omega

theorem Reads.ne_nil {t : Tree} (h : Reads n ts (.expr t)) : ts ≠ [] := by
  rintro rfl
  have hw : 0 = t.weight := h.weight_eq
  have := t.weight_pos
  omega

end Nesting

theorem level_le_eight (op : BinaryOp) : level op ≤ 8 := by
  cases op <;> decide

theorem Suffix.level_le_eight (kind : Suffix) : kind.level ≤ 8 := by
  cases kind <;> decide

theorem head?_append_of_ne_nil {ts : List Token} (h : ts ≠ []) (us : List Token) :
    (ts ++ us).head? = ts.head? := by
  cases ts with
  | nil => exact absurd rfl h
  | cons t ts => rfl

namespace Reads

variable {n m : Nat} {ts : List Token} {t : Tree} {p : Phrase}

theorem mono (h : Reads n ts p) (hle : m ≤ n) : Reads m ts p := by
  cases h with
  | word text hn => exact .word text (by omega)
  | parens hn h => exact .parens (by omega) h
  | form hn h => exact .form (by omega) h
  | not hn h => exact .not (by omega) h
  | negate hn h => exact .negate (by omega) h
  | binary hn hl hr => exact .binary (by omega) hl hr
  | suffix hn h => exact .suffix (by omega) h
  | suffixForm hn h ha => exact .suffixForm (by omega) h ha
  | between hn ht hl hh => exact .between (by omega) ht hl hh
  | last h => exact .last h
  | more h ha => exact .more h ha

theorem level_le (h : Reads n ts (.expr t)) : n ≤ 8 := by
  cases h with
  | binary hn => exact Nat.le_trans hn (level_le_eight _)
  | suffix hn | suffixForm hn => exact Nat.le_trans hn (Suffix.level_le_eight _)
  | _ => omega

/-- A comment is never read, and inversions and signs do not begin what is tighter than they are. -/
theorem head_ne (h : Reads n ts p) :
    ts.head? ≠ some .comment ∧
      ∀ t, p = .expr t → (2 < n → ts.head? ≠ some .not) ∧ (6 < n → ts.head? ≠ some (.op .sub)) := by
  induction h with
  | word | parens | form => simp
  | not hn | negate hn => simp; omega
  | binary hn hl _ ih =>
    rw [head?_append_of_ne_nil hl.ne_nil]
    refine ⟨ih.1, fun t _ => ⟨fun hlt => (ih.2 _ rfl).1 (by omega), fun hlt =>
      (ih.2 _ rfl).2 (by omega)⟩⟩
  | suffix hn ht ih | suffixForm hn ht _ ih | between hn ht _ _ ih =>
    rw [head?_append_of_ne_nil ht.ne_nil]
    refine ⟨ih.1, fun t _ => ⟨fun hlt => (ih.2 _ rfl).1 (by omega), fun hlt =>
      (ih.2 _ rfl).2 (by omega)⟩⟩
  | last ht ih | more ht _ ih =>
    rw [head?_append_of_ne_nil ht.ne_nil]
    exact ⟨ih.1, by simp⟩

theorem of_parens {text : String} (h : Reads n (.left :: (ts ++ [.closes text])) (.expr t))
    (hts : Nested 0 ts) : Reads 0 ts (.expr t) := by
  generalize hus : Token.left :: (ts ++ [.closes text]) = us at h
  cases h with
  | parens hn h =>
    obtain ⟨_, htail⟩ := List.cons.inj hus
    obtain ⟨rfl, _⟩ := List.append_inj' htail rfl
    exact h
  | binary _ hl _ | suffix _ hl | suffixForm _ hl _ | between _ hl _ _ =>
    exact absurd hus.symm (hts.ne_parens hl.nested hl.ne_nil (by simp) text)
  | _ => cases hus

end Reads

mutual

theorem Tree.Adequate.reads {t : Tree} (h : t.Adequate) :
    Reads t.level t.tokens (.expr t.erase) := by
  cases t with
  | word text => exact .word text (Nat.le_refl 8)
  | group x =>
    have hx : x.Adequate := h
    exact .parens (Nat.le_refl 8) (hx.reads.mono (Nat.zero_le _))
  | binary op l r =>
    obtain ⟨⟨hl, hll⟩, hr, hlr⟩ := h
    exact .binary (Nat.le_refl _) (hl.reads.mono hll) (hr.reads.mono hlr)
  | negate x =>
    obtain ⟨hx, hlx⟩ := h
    have hread := hx.reads
    rcases signed_cases x.tokens with ⟨rest, hts, _⟩ | ⟨_, hs⟩
    · rw [hts] at hread
      exact absurd rfl ((hread.head_ne.2 _ rfl).2 hlx)
    · rw [Tree.tokens, hs]
      exact .negate (Nat.le_refl 6) (hread.mono (by omega))
  | not x => exact .not (Nat.le_refl 2) (h.1.reads.mono h.2)
  | suffix kind text x => exact .suffix (Nat.le_refl _) (h.1.reads.mono h.2)
  | suffixForm kind text x args =>
    exact .suffixForm (Nat.le_refl _) (h.1.1.reads.mono h.1.2) (Args.Adequate.reads h.2)
  | between x low high =>
    obtain ⟨⟨hx, hlx⟩, ⟨hlow, hllow⟩, hhigh, hlhigh⟩ := h
    exact .between (Nat.le_refl 3) (hx.reads.mono hlx) (hlow.reads.mono hllow)
      (hhigh.reads.mono hlhigh)
  | form text args =>
    have hargs : args.Adequate := h
    exact .form (Nat.le_refl 8) hargs.reads

theorem Args.Adequate.reads {a : Args} (h : a.Adequate) : Reads 0 a.tokens (.args a.erase) := by
  cases a with
  | last x text =>
    have hx : x.Adequate := h
    exact .last (hx.reads.mono (Nat.zero_le _))
  | more x text rest =>
    exact .more (h.1.reads.mono (Nat.zero_le _)) (Args.Adequate.reads h.2)

end

theorem Tree.eq_negate_of_level {t : Tree} (h : t.level = 6) : ∃ x, t = .negate x := by
  cases t with
  | negate x => exact ⟨x, rfl⟩
  | binary op _ _ => cases op <;> cases h
  | suffix kind _ _ | suffixForm kind _ _ _ => cases kind <;> cases h
  | _ => cases h

mutual

/-- Only a tree with parentheses where its operands need them is read back from its tokens. -/
theorem Tree.adequate_of_reads {t : Tree} {n : Nat} (h : Reads n t.tokens (.expr t.erase)) :
    t.Adequate ∧ n ≤ t.level := by
  cases t with
  | word text => exact ⟨trivial, h.level_le⟩
  | group x =>
    have hx : Reads 0 x.tokens (.expr x.erase) := Reads.of_parens h x.nested_tokens
    exact ⟨(Tree.adequate_of_reads hx).1, h.level_le⟩
  | binary op l r =>
    generalize hts : (Tree.binary op l r).tokens = ts at h
    cases h with
    | parens _ h =>
      exact absurd hts (h.nested.ne_parens l.nested_tokens l.tokens_ne_nil (by simp) ")")
    | binary hn hl hr =>
      have hw := hl.weight_eq.trans (l.weight_erase.trans l.weight_tokens.symm)
      obtain ⟨rfl, _, rfl⟩ := eq_of_cut hts Nat.one_pos Nat.one_pos hw.symm
      exact ⟨⟨Tree.adequate_of_reads hl, Tree.adequate_of_reads hr⟩, hn⟩
  | negate x =>
    generalize hts : (Tree.negate x).tokens = ts at h
    rw [Tree.tokens] at hts
    rcases signed_cases x.tokens with ⟨rest, _, hs⟩ | ⟨hne, hs⟩
    · rw [hs] at hts
      cases h <;> cases hts
    · rw [hs] at hts
      cases h with
      | parens => cases hts
      | negate hn h =>
        obtain ⟨_, rfl⟩ := List.cons.inj hts
        obtain ⟨hx, hlx⟩ := Tree.adequate_of_reads h
        refine ⟨⟨hx, Nat.lt_of_le_of_ne hlx fun hsix => ?_⟩, hn⟩
        -- at the same level there is only another sign, and the two of them begin a comment
        obtain ⟨y, rfl⟩ := Tree.eq_negate_of_level hsix.symm
        rcases signed_cases y.tokens with ⟨rest, _, hs'⟩ | ⟨_, hs'⟩
        · exact h.head_ne.1 (by rw [Tree.tokens, hs', List.head?_cons])
        · exact hne (by rw [Tree.tokens, hs', List.head?_cons])
  | not x =>
    generalize hts : (Tree.not x).tokens = ts at h
    cases h with
    | parens => cases hts
    | not hn h =>
      obtain ⟨_, rfl⟩ := List.cons.inj hts
      exact ⟨Tree.adequate_of_reads h, hn⟩
  | suffix kind text x =>
    generalize hts : (Tree.suffix kind text x).tokens = ts at h
    cases h with
    | parens _ h =>
      exact absurd hts (h.nested.ne_parens x.nested_tokens x.tokens_ne_nil (by simp) ")")
    | suffix hn h =>
      obtain ⟨rfl, _⟩ := List.append_inj' hts rfl
      exact ⟨Tree.adequate_of_reads h, hn⟩
  | suffixForm kind text x args =>
    generalize hts : (Tree.suffixForm kind text x args).tokens = ts at h
    cases h with
    | parens _ h =>
      exact absurd hts (h.nested.ne_parens x.nested_tokens x.tokens_ne_nil (by simp) ")")
    | suffixForm hn h ha =>
      have hw := h.weight_eq.trans (x.weight_erase.trans x.weight_tokens.symm)
      obtain ⟨rfl, _, rfl⟩ := eq_of_cut hts Nat.one_pos Nat.one_pos hw.symm
      exact ⟨⟨Tree.adequate_of_reads h, Args.adequate_of_reads ha⟩, hn⟩
  | between x low high =>
    generalize hts : (Tree.between x low high).tokens = ts at h
    cases h with
    | parens _ h =>
      exact absurd hts (h.nested.ne_parens x.nested_tokens x.tokens_ne_nil (by simp) ")")
    | between hn hx hlow hhigh =>
      have hw := hx.weight_eq.trans (x.weight_erase.trans x.weight_tokens.symm)
      obtain ⟨rfl, _, hrest⟩ := eq_of_cut hts Nat.one_pos Nat.one_pos hw.symm
      have hw' := hlow.weight_eq.trans (low.weight_erase.trans low.weight_tokens.symm)
      obtain ⟨rfl, _, rfl⟩ := eq_of_cut hrest Nat.one_pos Nat.one_pos hw'.symm
      exact ⟨⟨Tree.adequate_of_reads hx, Tree.adequate_of_reads hlow,
        Tree.adequate_of_reads hhigh⟩, hn⟩
  | form text args =>
    generalize hts : (Tree.form text args).tokens = ts at h
    cases h with
    | parens => cases hts
    | form hn ha =>
      obtain ⟨_, rfl⟩ := List.cons.inj hts
      exact ⟨Args.adequate_of_reads ha, hn⟩

theorem Args.adequate_of_reads {a : Args} (h : Reads 0 a.tokens (.args a.erase)) : a.Adequate := by
  cases a with
  | last x text =>
    generalize hts : (Args.last x text).tokens = ts at h
    cases h with
    | last h =>
      obtain ⟨rfl, _⟩ := List.append_inj' hts rfl
      exact (Tree.adequate_of_reads h).1
  | more x text rest =>
    generalize hts : (Args.more x text rest).tokens = ts at h
    cases h with
    | more h ha =>
      have hw := h.weight_eq.trans (x.weight_erase.trans x.weight_tokens.symm)
      obtain ⟨rfl, _, rfl⟩ := eq_of_cut hts Nat.one_pos Nat.one_pos hw.symm
      exact ⟨(Tree.adequate_of_reads h).1, Args.adequate_of_reads ha⟩

end

theorem Tree.reads_iff_adequate (t : Tree) : Reads 0 t.tokens (.expr t.erase) ↔ t.Adequate :=
  ⟨fun h => (Tree.adequate_of_reads h).1, fun h => h.reads.mono (Nat.zero_le _)⟩

end PlanSql.Reading

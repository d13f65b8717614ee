import PlanSql.Proofs.Copies.History

/-!
# What a failed call leaves behind

A call that fails leaves no alias and no fragment, as any call does, but the user functions that it
came to before it failed keep the names they were given. So later calls give what they would have
given without it exactly if it has named no function (`compileText_leaves`). Where it has, the list
of functions to deploy differs, and so does the text of a later statement that applies a function
which has no name yet; statements that apply only functions which had their names before keep their
text.
-/

namespace PlanSql

open Sql

def Graph.Applies (g : Graph) (root : NodeId) (name : String) : Prop :=
  ∃ x input function shape f, g.Reach root x ∧ g.node? x = some ⟨.userMap input function, shape⟩ ∧
    g.function function = .ok f ∧ f.name = name

namespace Compiler

/-- What calls give, one after the other: the text of the statement or an error, and the functions
to deploy with their names. -/
def outcomes : Compiler → List (Graph × NodeId) →
    List (Except Error String × List (String × String))
  | _, [] => []
  | c, call :: rest =>
    ((c.compileText call.1 call.2).1, (c.compileText call.1 call.2).2.functions.sorted) ::
      outcomes (c.compileText call.1 call.2).2 rest

/-- The user functions that a call applies have their names already. -/
def Knows (c : Compiler) (call : Graph × NodeId) : Prop :=
  ∀ name, call.1.Applies call.2 name → (c.functions.find? name).isSome

end Compiler

namespace Compile

variable {c c' : Compiler} {g : Graph} {root : NodeId} {F F' : FunctionNames}

/-! ## Names that a call adds -/

namespace FunctionNames

variable {F F' : FunctionNames} {name stem : String} {given : String}

theorem register_of_find? (h : F.find? name = some given) :
    F.register name stem = (given, F) := by
  rw [register, h]

theorem register_entries (F : FunctionNames) (name stem : String) :
    (F.register name stem).2 = F ∨ F.find? name = none ∧ ∃ given,
      (F.register name stem).2.entries = F.entries ++ [(name, given)] := by
  cases h : F.find? name with
  | some given => exact .inl (by rw [register_of_find? h])
  | none =>
    refine .inr ⟨rfl, stem ++ "_" ++ Nat.repr (F.entries.length + 1), ?_⟩
    simp only [register, h]

theorem find?_of_isPrefix (h : F.entries <+: F'.entries) (hf : F.find? name = some given) :
    F'.find? name = some given := by
  obtain ⟨more, hmore⟩ := h
  rw [find?] at hf
  rw [find?, ← hmore, List.lookup_append, hf]
  rfl

theorem length_sorted (F : FunctionNames) : F.sorted.length = F.entries.length :=
  List.length_mergeSort _

/-- Names that were only added are the same if there are no more of them. -/
theorem eq_of_isPrefix (h : F.entries <+: F'.entries)
    (hlength : F'.entries.length = F.entries.length) : F' = F := by
  have hentries := h.eq_of_length hlength.symm
  cases F
  cases F'
  exact congrArg FunctionNames.mk hentries.symm

end FunctionNames

def NamesApplied (g : Graph) (root : NodeId) (F F' : FunctionNames) : Prop :=
  ∃ new, F'.entries = F.entries ++ new ∧
    ∀ entry ∈ new, F.find? entry.1 = none ∧ g.Applies root entry.1

theorem NamesApplied.register (h : NamesApplied g root F F') {name stem : String}
    (happlies : g.Applies root name) : NamesApplied g root F (F'.register name stem).2 := by
  obtain ⟨new, hnew, hall⟩ := h
  rcases FunctionNames.register_entries F' name stem with hsame | ⟨hnone, given, hentries⟩
  · rw [hsame]
    exact ⟨new, hnew, hall⟩
  · refine ⟨new ++ [(name, given)], by rw [hentries, hnew, List.append_assoc], ?_⟩
    intro entry hentry
    rcases List.mem_append.1 hentry with hentry | hentry
    · exact hall entry hentry
    · obtain rfl := List.mem_singleton.1 hentry
      refine ⟨?_, happlies⟩
      cases hfound : F.find? name with
      | none => rfl
      | some other =>
        rw [FunctionNames.find?_of_isPrefix ⟨new, hnew.symm⟩ hfound] at hnone
        cases hnone

def Copy.adding (env : Env) (root : NodeId) (F₀ : FunctionNames) : Copy env env :=
  { Copy.itself env (env.graph.Reach root) (@reach_child env root) with
    names := fun F F' => F' = F ∧ NamesApplied env.graph root F₀ F
    find := by
      rintro F F' x input function shape f ⟨rfl, -⟩ - - -
      rfl
    register := by
      rintro F F' x input function shape f ⟨rfl, hnames⟩ hx hn hf
      exact ⟨rfl, rfl, hnames.register ⟨x, input, function, shape, f, hx, hn, hf, rfl⟩⟩ }

/-- A call names only functions that it applies and that have no name, whether it succeeds or
fails. -/
theorem compile_namesApplied (c : Compiler) (g : Graph) (root : NodeId) :
    NamesApplied g root c.functions (c.compile g root).2.functions :=
  (compile_alike c c (.adding (c.env g) root c.functions) .refl
    ⟨rfl, [], (List.append_nil _).symm, nofun⟩).names.2

theorem functions_eq_of_knows (h : c.Knows (g, root)) :
    (c.compile g root).2.functions = c.functions := by
  obtain ⟨new, hnew, hall⟩ := compile_namesApplied c g root
  cases new with
  | nil => exact FunctionNames.eq_of_isPrefix ⟨[], hnew.symm⟩ (by rw [hnew, List.append_nil])
  | cons entry rest =>
    obtain ⟨hnone, happlies⟩ := hall entry (.head _)
    have hsome := h entry.1 happlies
    rw [hnone] at hsome
    cases hsome

/-! ## Names that do not matter -/

def Copy.knowing (env : Env) (root : NodeId) {F₀ F₁ : FunctionNames}
    (h : ∀ name, env.graph.Applies root name → (F₀.find? name).isSome)
    (hfirst : F₀.entries <+: F₁.entries) : Copy env env :=
  { Copy.itself env (env.graph.Reach root) (@reach_child env root) with
    names := fun F F' => F = F₀ ∧ F' = F₁
    find := by
      rintro F F' x input function shape f ⟨rfl, rfl⟩ hx hn hf
      obtain ⟨given, hgiven⟩ := Option.isSome_iff_exists.1
        (h f.name ⟨x, input, function, shape, f, hx, hn, hf, rfl⟩)
      rw [hgiven, FunctionNames.find?_of_isPrefix hfirst hgiven]
    register := by
      rintro F F' x input function shape f ⟨rfl, rfl⟩ hx hn hf
      obtain ⟨given, hgiven⟩ := Option.isSome_iff_exists.1
        (h f.name ⟨x, input, function, shape, f, hx, hn, hf, rfl⟩)
      rw [FunctionNames.register_of_find? hgiven,
        FunctionNames.register_of_find? (FunctionNames.find?_of_isPrefix hfirst hgiven)]
      exact ⟨rfl, rfl, rfl⟩ }

/-- Further names do not matter to a call that applies only functions which have their names. -/
theorem compile_of_knows (options : Options) (h : (Compiler.preloaded options F).Knows (g, root))
    (hfirst : F.entries <+: F'.entries) :
    ((Compiler.preloaded options F').compile g root).1 =
        ((Compiler.preloaded options F).compile g root).1 ∧
      ((Compiler.preloaded options F).compile g root).2.functions = F ∧
      ((Compiler.preloaded options F').compile g root).2.functions = F' := by
  have halike := compile_alike (.preloaded options F) (.preloaded options F')
    (.knowing ((Compiler.preloaded options F).env g) root h hfirst) .refl ⟨rfl, rfl⟩
  exact ⟨halike.result.eq_mapError.trans (Error.mapError_rename_self _), halike.names⟩

/-! ## Later calls -/

/-- What later calls give depends on options and names only. -/
theorem outcomes_congr (hoptions : c'.options = c.options) (hnames : c'.functions = c.functions)
    (calls : List (Graph × NodeId)) : c'.outcomes calls = c.outcomes calls := by
  cases calls with
  | nil => rfl
  | cons call rest =>
    have hsame : c'.compileText call.1 call.2 = c.compileText call.1 call.2 := by
      rw [compileText_preloaded c', compileText_preloaded c, hoptions, hnames]
    simp only [Compiler.outcomes, hsame]

/-- Further names do not matter to the texts of calls that apply only functions which have their
names. -/
theorem outcomes_texts (options : Options) (hfirst : F.entries <+: F'.entries)
    {calls : List (Graph × NodeId)}
    (h : ∀ call ∈ calls, (Compiler.preloaded options F).Knows call) :
    ((Compiler.preloaded options F').outcomes calls).map Prod.fst =
      ((Compiler.preloaded options F).outcomes calls).map Prod.fst := by
  induction calls with
  | nil => rfl
  | cons call rest ih =>
    obtain ⟨hresult, hF, hF'⟩ := compile_of_knows options (h call (.head _)) hfirst
    have hnext : ∀ F, ((Compiler.preloaded options F).compile call.1 call.2).2.functions = F →
        ((Compiler.preloaded options F).compileText call.1 call.2).2 = .preloaded options F :=
      fun F hF => (compileText_snd _ _ _).trans (congrArg (Compiler.preloaded options) hF)
    have hrest := ih fun call hcall => h call (.tail _ hcall)
    simp only [Compiler.outcomes, List.map_cons, hnext F hF, hnext F' hF', hrest]
    exact congrArg (· :: _) (congrArg (Except.map _) hresult)

/-- A compiler whose list of functions to deploy is the same after every later call has the same
names. -/
theorem functions_eq_of_outcomes (hfirst : c.functions.entries <+: c'.functions.entries)
    (h : ∀ calls, c'.outcomes calls = c.outcomes calls) : c'.functions = c.functions := by
  -- a root that is missing is refused at once, so the list after it is the one before it
  have hkept : ∀ c : Compiler, (c.compileText .empty 0).2.functions = c.functions := by
    intro c
    have hmissing : Graph.empty.node? 0 = none := rfl
    exact congrArg (fun r => Compiler.functions (Prod.snd r)) (compile_missing hmissing c)
  have hsorted : c'.functions.sorted = c.functions.sorted := by
    have hcall := h [(.empty, 0)]
    simp only [Compiler.outcomes, hkept, List.cons.injEq, Prod.mk.injEq, and_true] at hcall
    exact hcall.2
  refine FunctionNames.eq_of_isPrefix hfirst ?_
  rw [← FunctionNames.length_sorted c'.functions, hsorted, FunctionNames.length_sorted]

/-- Of a call, and so of one that fails, later calls see the names of the user functions that it
came to and that had none before, and nothing else. They all give what they would have given without
it exactly if it has named no function, as when all functions that it applies had their names; and
the texts of calls that apply only functions which had their names before it are what they would
have been in any case. -/
theorem compileText_leaves (c : Compiler) (g : Graph) (root : NodeId) :
    let c' := (c.compileText g root).2
    ((∀ calls, c'.outcomes calls = c.outcomes calls) ↔ c'.functions = c.functions) ∧
    (c.Knows (g, root) → ∀ calls, c'.outcomes calls = c.outcomes calls) ∧
    (∃ new, c'.functions.entries = c.functions.entries ++ new ∧
      ∀ entry ∈ new, c.functions.find? entry.1 = none ∧ g.Applies root entry.1) ∧
    ∀ calls, (∀ call ∈ calls, c.Knows call) →
      (c'.outcomes calls).map Prod.fst = (c.outcomes calls).map Prod.fst := by
  intro c'
  have hoptions : c'.options = c.options := compileText_options c g root
  obtain ⟨new, hnew, hall⟩ := compile_namesApplied c g root
  have hfirst : c.functions.entries <+: c'.functions.entries := ⟨new, hnew.symm⟩
  refine ⟨⟨functions_eq_of_outcomes hfirst, outcomes_congr hoptions⟩, fun hknows => ?_,
    ⟨new, hnew, hall⟩, fun calls hcalls => ?_⟩
  · exact outcomes_congr hoptions (functions_eq_of_knows hknows)
  · have hafter : c'.options = (Compiler.preloaded c.options c'.functions).options := hoptions
    have hbefore : c.options = (Compiler.preloaded c.options c.functions).options := rfl
    rw [outcomes_congr hafter rfl calls, outcomes_congr hbefore rfl calls]
    exact outcomes_texts c.options hfirst hcalls

/-- Rows with a user function beside a value that cannot be expressed, and rows with another user
function. -/
def tagsAndMarks : List Call :=
  [.source "" "a" [⟨"id", .int64⟩], .column 0 "id", .map 1 "tag" .string, .unary .invert 1,
    .rename 3 "inverse", .project 0 [2, 4], .map 1 "mark" .string, .project 0 [6]]

/-- The function of a statement that cannot be compiled stays in the list to deploy, and the next
one gets another name than without it. -/
theorem outcomes_failedTags :
    (Compiler.new .default).outcomes
        [(Call.run tagsAndMarks, 5), (Call.run tagsAndMarks, 7)] =
      [(.error (.unsupported (.bitwiseInvert .int64)), [("tag", "dfql_udf_1")]),
        (.ok "SELECT dfql_udf_2(t1.`id`) AS `id`\nFROM `a` t1",
          [("mark", "dfql_udf_2"), ("tag", "dfql_udf_1")])] ∧
    (Compiler.new .default).outcomes [(Call.run tagsAndMarks, 7)] =
      [(.ok "SELECT dfql_udf_1(t1.`id`) AS `id`\nFROM `a` t1", [("mark", "dfql_udf_1")])] := by
  have hfailed : ((Compiler.new .default).compileText (Call.run tagsAndMarks) 5).1 =
      .error (.unsupported (.bitwiseInvert .int64)) := by decide +kernel
  have hleft : ((Compiler.new .default).compileText (Call.run tagsAndMarks) 5).2 =
      .preloaded .default ⟨[("tag", "dfql_udf_1")]⟩ :=
    (compileText_snd _ _ _).trans (congrArg (Compiler.preloaded _) (by decide +kernel))
  have hlater : ((Compiler.preloaded .default ⟨[("tag", "dfql_udf_1")]⟩).compileText
      (Call.run tagsAndMarks) 7).1 = .ok "SELECT dfql_udf_2(t1.`id`) AS `id`\nFROM `a` t1" := by
    decide +kernel
  have hnames : ((Compiler.preloaded .default ⟨[("tag", "dfql_udf_1")]⟩).compileText
      (Call.run tagsAndMarks) 7).2.functions =
        ⟨[("tag", "dfql_udf_1"), ("mark", "dfql_udf_2")]⟩ := by decide +kernel
  have hfresh : ((Compiler.new .default).compileText (Call.run tagsAndMarks) 7).1 =
      .ok "SELECT dfql_udf_1(t1.`id`) AS `id`\nFROM `a` t1" := by decide +kernel
  have hnew : ((Compiler.new .default).compileText (Call.run tagsAndMarks) 7).2.functions =
      ⟨[("mark", "dfql_udf_1")]⟩ := by decide +kernel
  have hone : ∀ entry, FunctionNames.sorted ⟨[entry]⟩ = [entry] := List.mergeSort_singleton
  have htwo : FunctionNames.sorted ⟨[("tag", "dfql_udf_1"), ("mark", "dfql_udf_2")]⟩ =
      [("mark", "dfql_udf_2"), ("tag", "dfql_udf_1")] := by
    have hlate : ¬ ("tag" ≤ "mark") := by decide
    simp [FunctionNames.sorted, List.mergeSort, List.MergeSort.Internal.splitInTwo, hlate]
  have hfunctions : (Compiler.preloaded .default ⟨[("tag", "dfql_udf_1")]⟩).functions =
      ⟨[("tag", "dfql_udf_1")]⟩ := rfl
  constructor
  · simp only [Compiler.outcomes, hfailed, hleft, hlater, hnames, hfunctions, hone, htwo]
  · simp only [Compiler.outcomes, hfresh, hnew, hone]

end Compile

end PlanSql

import PlanSql.Proofs.Copies.Statements

/-!
# What a compiler remembers

A compiler compiles one root after the other. All that a call leaves behind are the names of user
functions: each has one name, which it keeps, and no two have the same. What a call gives depends on
earlier calls only by these names, and not at all if the root reaches no user function.
-/

namespace PlanSql

open Sql Reading

namespace Compiler

/-- The compiler after a number of calls, whether they succeed or fail. -/
def after (c : Compiler) (calls : List (Graph × NodeId)) : Compiler :=
  calls.foldl (fun c call => (c.compileText call.1 call.2).2) c

/-- A compiler that has done nothing, but knows names of user functions. -/
def preloaded (options : Options) (F : Compile.FunctionNames) : Compiler :=
  ⟨options, .ofFunctions F⟩

end Compiler

namespace Compile

variable {c : Compiler} {g : Graph} {root : NodeId}

/-! ## One call -/

/-- A call changes nothing of a compiler but the names of user functions. -/
theorem compileText_snd (c : Compiler) (g : Graph) (root : NodeId) :
    (c.compileText g root).2 =
      .preloaded c.options (c.compileText g root).2.functions := by
  show (c.compile g root).2 = .preloaded c.options (c.compile g root).2.functions
  unfold Compiler.compile
  cases statement (c.env g) root (.start c.functions) with
  | ok s state | error e state => rfl

/-- A call reads nothing of a compiler but its options and the names of user functions. -/
theorem compileText_preloaded (c : Compiler) (g : Graph) (root : NodeId) :
    c.compileText g root = (Compiler.preloaded c.options c.functions).compileText g root := rfl

theorem compileText_options (c : Compiler) (g : Graph) (root : NodeId) :
    (c.compileText g root).2.options = c.options := by
  rw [compileText_snd]
  rfl

theorem compile_itself (c : Compiler) (g : Graph) (root : NodeId) :
    Alike (Copy.itself (c.env g) (fun _ => True) fun _ _ => trivial) (c.compile g root)
      (c.compile g root) :=
  compile_alike c c (Copy.itself (c.env g) (fun _ => True) fun _ _ => trivial) trivial rfl

def Copy.unnamed (env : Env) {root : NodeId}
    (hnone : ∀ x, env.graph.Reach root x → ∀ input function shape,
      env.graph.node? x ≠ some ⟨.userMap input function, shape⟩) : Copy env env :=
  { Copy.itself env (env.graph.Reach root) (@reach_child env root) with
    names := fun _ _ => True
    find := fun _ hx hn _ => absurd hn (hnone _ hx _ _ _)
    register := fun _ hx hn _ => absurd hn (hnone _ hx _ _ _) }

/-- Without user functions their names do not matter. -/
theorem compile_unnamed (options : Options) (F F' : FunctionNames)
    (hnone : ∀ x, g.Reach root x → ∀ input function shape,
      g.node? x ≠ some ⟨.userMap input function, shape⟩) :
    ((Compiler.preloaded options F').compile g root).1 =
      ((Compiler.preloaded options F).compile g root).1 := by
  have hresult := (compile_alike (.preloaded options F) (.preloaded options F')
    (.unnamed ((Compiler.preloaded options F).env g) hnone) .refl trivial).result
  exact hresult.eq_mapError.trans (Error.mapError_rename_self _)

/-! ## Many calls -/

theorem after_options (c : Compiler) (calls : List (Graph × NodeId)) :
    (c.after calls).options = c.options := by
  induction calls generalizing c with
  | nil => rfl
  | cons call rest ih =>
    show Compiler.options (Compiler.after (c.compileText call.1 call.2).2 rest) = c.options
    rw [ih, compileText_options]

/-- Names of user functions are only added, one call after the other. -/
theorem after_grows (c : Compiler) (calls : List (Graph × NodeId)) :
    c.functions.Grows c.options.functionStem (c.after calls).functions := by
  induction calls generalizing c with
  | nil => exact .refl
  | cons call rest ih =>
    have hnext := ih (c.compileText call.1 call.2).2
    rw [compileText_options] at hnext
    exact (compile_itself c call.1 call.2).grows.trans hnext

/-- Of earlier calls, whatever they were and whether they have failed, a compiler has nothing but
the names of user functions, and a call depends on nothing else of them. A root that reaches no user
function is compiled as by a new compiler. Names are only added: a function keeps its name, no two
functions have the same, none has that of a built-in function, and a statement calls built-in
functions and functions by the names they have. -/
theorem compileText_history (options : Options) (calls : List (Graph × NodeId)) (g : Graph)
    (root : NodeId) :
    let c := (Compiler.new options).after calls
    let c' := (c.compileText g root).2
    (c'.context.aliases = .empty ∧ c'.context.fragments = []) ∧
    c.compileText g root = (Compiler.preloaded options c.functions).compileText g root ∧
    ((∀ x, g.Reach root x → ∀ input function shape,
        g.node? x ≠ some ⟨.userMap input function, shape⟩) →
      (c.compileText g root).1 = ((Compiler.new options).compileText g root).1) ∧
    c.functions.entries <+: c'.functions.entries ∧
    (∀ f name, c.functions.find? f = some name → c'.functions.find? f = some name) ∧
    (∀ f f' name, c'.functions.find? f = some name → c'.functions.find? f' = some name → f = f') ∧
    (∀ f name, c'.functions.find? f = some name → isBuiltIn name = false) ∧
    ∀ s, (c.compile g root).1 = .ok s → ∀ e ∈ statementExprs s, ∀ name ∈ e.calls,
      isBuiltIn name ∨ ∃ f, c'.functions.find? f = some name := by
  intro c c'
  have hoptions : c.options = options := after_options _ _
  have hcall := compile_itself c g root
  have hgrows := hcall.grows
  rw [hoptions] at hgrows
  have hnumbered : c'.functions.Numbered :=
    (FunctionNames.numbered_empty.grows (after_grows (.new options) calls)).grows hgrows
  have hpreloaded : c.compileText g root =
      (Compiler.preloaded options c.functions).compileText g root := by
    rw [← hoptions]
    exact compileText_preloaded c g root
  have hreset : c' = .preloaded c.options c'.functions := compileText_snd c g root
  refine ⟨?_, hpreloaded, fun hnone => ?_, hgrows.isPrefix, hgrows.keeps,
    fun f f' name => hnumbered.unique, fun f name hf =>
      hnumbered.not_isBuiltIn ⟨f, hf⟩, hcall.calls⟩
  · rw [hreset]
    exact ⟨rfl, rfl⟩
  · rw [hpreloaded]
    exact congrArg (Except.map _) (compile_unnamed options .empty c.functions hnone)

end Compile

end PlanSql

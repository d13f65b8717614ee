import PlanSql.Compile.State
import PlanSql.Graph.Build.Basic

/-!
# Outcomes of actions

Builders and compilations are actions on a state that may fail. `Meets m s post fault` says how the
action `m` ends when it starts in `s`: with a value and a state that satisfy `post`, or with an
error and a state that satisfy `fault`. The laws below follow the parts an action is written with,
so that a proof about an action never opens the monad.
-/

namespace PlanSql

/-- Two checks in a row succeed exactly if the first one does and the second one does with its
result. -/
theorem Except.bind_eq_ok_iff {ε α β : Type} {x : Except ε α} {f : α → Except ε β} {b : β} :
    x >>= f = .ok b ↔ ∃ a, x = .ok a ∧ f a = .ok b := by
  cases x <;> simp [bind, Except.bind]

theorem bind_ok {ε α β : Type} {x : Except ε α} {f : α → Except ε β} {b : β}
    (h : x >>= f = .ok b) : ∃ a, x = .ok a ∧ f a = .ok b := Except.bind_eq_ok_iff.1 h

/-- Started in `s`, the action ends as `post` says, or fails as `fault` says. -/
def Meets {ε σ α : Type} (m : EStateM ε σ α) (s : σ) (post : α → σ → Prop) (fault : ε → σ → Prop) :
    Prop :=
  match m s with
  | .ok a s' => post a s'
  | .error e s' => fault e s'

namespace Meets

variable {ε σ α β : Type} {m : EStateM ε σ α} {f : α → EStateM ε σ β} {s s' : σ}
  {post post' : α → σ → Prop} {fault fault' : ε → σ → Prop} {next : β → σ → Prop}

theorem of_ok {a : α} (h : Meets m s post fault) (hm : m s = .ok a s') : post a s' := by
  simpa only [Meets, hm] using h

theorem of_error {e : ε} (h : Meets m s post fault) (hm : m s = .error e s') : fault e s' := by
  simpa only [Meets, hm] using h

/-- An outcome may be described more loosely. -/
theorem mono (h : Meets m s post fault) (hp : ∀ a t, post a t → post' a t)
    (hf : ∀ e t, fault e t → fault' e t) : Meets m s post' fault' := by
  unfold Meets at h ⊢
  split
  · next a t hm => rw [hm] at h; exact hp a t h
  · next e t hm => rw [hm] at h; exact hf e t h

/-- The value and the state may be described more loosely. -/
theorem imp (h : Meets m s post fault) (hp : ∀ a t, post a t → post' a t) :
    Meets m s post' fault := h.mono hp fun _ _ hf => hf

theorem pure {a : α} (h : post a s) : Meets (Pure.pure a : EStateM ε σ α) s post fault := h

theorem throw {e : ε} (h : fault e s) :
    Meets (MonadExcept.throw e : EStateM ε σ α) s post fault := h

/-- Two actions in a row: the second starts where the first has ended. -/
theorem bind (h : Meets m s (fun a t => Meets (f a) t next fault) fault) :
    Meets (m >>= f) s next fault := by
  unfold Meets at h
  show Meets (EStateM.bind m f) s next fault
  simp only [Meets, EStateM.bind]
  split at h
  · next hm => simp only [hm]; exact h
  · next hm => simp only [hm]; exact h

theorem get {post : σ → σ → Prop} (h : post s s) :
    Meets (MonadState.get : EStateM ε σ σ) s post fault := h

theorem set {t : σ} {post : PUnit → σ → Prop} (h : post ⟨⟩ t) :
    Meets (MonadStateOf.set t : EStateM ε σ PUnit) s post fault := h

theorem modify {g : σ → σ} {post : PUnit → σ → Prop} (h : post ⟨⟩ (g s)) :
    Meets (modify g : EStateM ε σ PUnit) s post fault := h

theorem modifyGet {g : σ → α × σ} (h : post (g s).1 (g s).2) :
    Meets (MonadStateOf.modifyGet g : EStateM ε σ α) s post fault := h

end Meets

end PlanSql

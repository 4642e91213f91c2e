import Mathlib
/-!
# Runs of a step function

A system is a step function `σ → α → Option σ`: the state an action leads to, or
`none` where the action is not enabled. `Run step ok s₀` are the states reached
from `s₀` by steps that all satisfy `ok`; with `ok` always true they are the
reachable states. A theorem about every `Run` holds for every interleaving of
the actions.
-/

namespace Umd.Lib

variable {σ α : Type}

/-- The state after a list of actions. -/
def runAll (step : σ → α → Option σ) : σ → List α → Option σ
  | s, [] => some s
  | s, a :: as => (step s a).bind fun s' => runAll step s' as

theorem runAll_append (step : σ → α → Option σ) (as bs : List α) (s : σ) :
    runAll step s (as ++ bs) = (runAll step s as).bind fun s' => runAll step s' bs := by
  induction as generalizing s with
  | nil => rfl
  | cons a as ih =>
    rw [List.cons_append, runAll, runAll, Option.bind_assoc]
    exact congrArg _ (funext ih)

/-- The states reached from `s₀` by steps that all satisfy `ok`. -/
inductive Run (step : σ → α → Option σ) (ok : σ → α → Prop) (s₀ : σ) : σ → Prop
  | refl : Run step ok s₀ s₀
  | step {s s' : σ} {a : α} : Run step ok s₀ s → ok s a → step s a = some s' → Run step ok s₀ s'

/-- No condition on the steps. -/
def Any (_ : σ) (_ : α) : Prop := True

variable {step : σ → α → Option σ} {ok : σ → α → Prop} {s₀ : σ}

/-- An invariant that holds at the start and is kept by every admitted step
holds after every run. -/
theorem Run.inv (I : σ → Prop) (h0 : I s₀)
    (hs : ∀ s a s', I s → ok s a → step s a = some s' → I s') {s : σ} (h : Run step ok s₀ s) : I s := by
  induction h with
  | refl => exact h0
  | step _ hok hst ih => exact hs _ _ _ ih hok hst

theorem Run.trans {s₁ s₂ : σ} (h : Run step ok s₀ s₁) (h' : Run step ok s₁ s₂) : Run step ok s₀ s₂ := by
  induction h' with
  | refl => exact h
  | step _ hok hst ih => exact .step ih hok hst

theorem Run.mono {ok' : σ → α → Prop} (h : Run step ok s₀ s₁) (hok : ∀ s a, ok s a → ok' s a) : Run step ok' s₀ s₁ := by
  induction h with
  | refl => exact .refl
  | step _ hstep hst ih => exact .step ih (hok _ _ hstep) hst

/-- A list of actions that runs, each of them admitted wherever it is taken. -/
theorem run_of_admitted {as : List α} {s s' : σ} (hok : ∀ a ∈ as, ∀ m, ok m a) (h : runAll step s as = some s') :
    Run step ok s s' := by
  induction as generalizing s with
  | nil => cases h; exact .refl
  | cons a as ih =>
    obtain ⟨s₁, hs, hr⟩ := Option.bind_eq_some_iff.1 h
    exact Run.trans (.step .refl (hok a (by simp) s) hs) (ih (fun b hb => hok b (by simp [hb])) hr)

/-- A list of actions that runs is a run without conditions. -/
theorem run_of_runAll {as : List α} {s s' : σ} (h : runAll step s as = some s') : Run step Any s s' :=
  run_of_admitted (fun _ _ _ => trivial) h

end Umd.Lib

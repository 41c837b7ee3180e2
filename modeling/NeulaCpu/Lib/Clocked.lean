import Mathlib.Tactic

/-!
# Runs of a synchronous machine

A synchronous machine is a step function on its registers and the inputs of one cycle. A run is
driven by a stream of inputs. A ghost is a value that is updated at every clock edge from what the
machine shows in that cycle and that the machine never reads: logs of events, tags that follow an
instruction down a pipeline. Safety properties of a run, with or without a ghost, follow from one
step lemma.
-/

namespace Clocked

variable {σ ι γ : Type*}

/-- The state after `n` clock edges. -/
def run (step : σ → ι → σ) (s₀ : σ) (inp : ℕ → ι) : ℕ → σ
  | 0 => s₀
  | n + 1 => step (run step s₀ inp n) (inp n)

/-- The ghost after `n` clock edges. -/
def ghost (step : σ → ι → σ) (obs : γ → σ → ι → γ) (s₀ : σ) (g₀ : γ) (inp : ℕ → ι) : ℕ → γ
  | 0 => g₀
  | n + 1 => obs (ghost step obs s₀ g₀ inp n) (run step s₀ inp n) (inp n)

section Rules

variable {step : σ → ι → σ} {obs : γ → σ → ι → γ} {s₀ : σ} {g₀ : γ} {inp : ℕ → ι}

@[simp] theorem run_zero : run step s₀ inp 0 = s₀ := rfl

theorem run_succ (n : ℕ) :
    run step s₀ inp (n + 1) = step (run step s₀ inp n) (inp n) := rfl

@[simp] theorem ghost_zero : ghost step obs s₀ g₀ inp 0 = g₀ := rfl

/-- In a run whose first `n` cycles meet `A`, what a step preserves under `A` holds after them. -/
theorem invariant {A : σ → ι → Prop} {P : σ → Prop} (init : P s₀)
    (preserved : ∀ s i, P s → A s i → P (step s i)) (n : ℕ)
    (ok : ∀ k < n, A (run step s₀ inp k) (inp k)) : P (run step s₀ inp n) := by
  induction n with
  | zero => exact init
  | succ n ih => exact preserved _ _ (ih fun k hk => ok k (by omega)) (ok n (by omega))

/-- The same rule for a relation between the registers and a ghost. -/
theorem ghost_invariant {A : γ → σ → ι → Prop} {P : γ → σ → Prop} (init : P g₀ s₀)
    (preserved : ∀ g s i, P g s → A g s i → P (obs g s i) (step s i)) (n : ℕ)
    (ok : ∀ k < n, A (ghost step obs s₀ g₀ inp k) (run step s₀ inp k) (inp k)) :
    P (ghost step obs s₀ g₀ inp n) (run step s₀ inp n) := by
  induction n with
  | zero => exact init
  | succ n ih => exact preserved _ _ _ (ih fun k hk => ok k (by omega)) (ok n (by omega))

end Rules

end Clocked

import Mathlib.Tactic

/-!
# Trees in a memory

Nodes of a type `α` have children by an index of a type `ι`, as a memory holds them: `next a i` is
the child of `a` at `i`. A path is a list of indices. If a node is reached from the roots by one
path only, then changing one child of it changes what is reached by the paths that go on from there,
and nothing else.
-/

namespace Forest

variable {α ι κ : Type*}

/-- The node that a path leads to. -/
def follow (next : α → ι → Option α) : α → List ι → Option α
  | a, [] => some a
  | a, i :: p => (next a i).bind fun b => follow next b p

variable {next next' : α → ι → Option α} {a b n : α} {x : ι} {p q : List ι}

@[simp] theorem follow_nil : follow next a [] = some a := rfl

theorem follow_cons {i : ι} : follow next a (i :: p) = (next a i).bind fun b => follow next b p :=
  rfl

theorem follow_append :
    follow next a (p ++ q) = (follow next a p).bind fun b => follow next b q := by
  induction p generalizing a with
  | nil => rfl
  | cons i p ih => simp only [List.cons_append, follow_cons, ih, Option.bind_assoc]

theorem follow_concat : follow next a (p ++ [x]) = (follow next a p).bind fun b => next b x := by
  rw [follow_append]
  congr 1
  funext b
  rw [follow_cons]
  cases next b x with
  | none => rfl
  | some c => rfl

/-- Two memories that agree on the children of every node on the way lead to the same node. -/
theorem follow_congr
    (h : ∀ q i r b, p = q ++ i :: r → follow next a q = some b → next' b i = next b i) :
    follow next' a p = follow next a p := by
  induction p generalizing a with
  | nil => rfl
  | cons i p ih =>
    rw [follow_cons, follow_cons, h [] i p a rfl rfl]
    cases hb : next a i with
    | none => rfl
    | some b =>
      refine ih fun q j r c hp hc => h (i :: q) j r c (by rw [hp, List.cons_append]) ?_
      rw [follow_cons, hb]
      exact hc

section Update

/-! The child `x` of the node `n` changes. The node is at the path `p` from `a`, and at no other
path of at most `d` steps. -/

variable {d : ℕ} (hnext : ∀ b i, ¬ (b = n ∧ i = x) → next' b i = next b i)

include hnext

/-- A path that does not take the step is as before. -/
theorem follow_of_not_step (h : ∀ r s, q = r ++ x :: s → follow next a r ≠ some n) :
    follow next' a q = follow next a q := by
  refine follow_congr fun r i s b hq hb => hnext b i ?_
  rintro ⟨rfl, rfl⟩
  exact h r s hq hb

section

variable (hp : follow next a p = some n) (huniq : ∀ q, q.length ≤ p.length →
  follow next a q = some n → q = p)

include hp huniq

theorem follow_self : follow next' a p = some n := by
  rw [follow_of_not_step hnext, hp]
  intro r s hps hr
  have hlen : r.length < p.length := by rw [hps, List.length_append, List.length_cons]; omega
  rw [huniq r hlen.le hr] at hlen
  exact lt_irrefl _ hlen

/-- A path that takes the step goes on from the new child. -/
theorem follow_step :
    follow next' a (p ++ x :: q) = (next' n x).bind fun b => follow next' b q := by
  rw [follow_append, follow_self hnext hp huniq]
  rfl

end

end Update

end Forest

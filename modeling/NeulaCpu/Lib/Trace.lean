import Mathlib.Tactic

/-!
# Traces of events

A system that several parties drive is a partial step function on states and events; an event that
cannot happen in a state has no step. A trace is a list of events that happen one after the other.
What every event preserves holds after every trace, and so does a condition that is asked of each
event in the state in which it happens.
-/

namespace Trace

variable {σ ε : Type*}

/-- Carry out the events in order; `none` if one of them cannot happen. -/
def exec (step : σ → ε → Option σ) (s : σ) : List ε → Option σ
  | [] => some s
  | e :: es => (step s e).bind fun t => exec step t es

/-- Every event meets `A` in the state in which it happens. -/
def Meets (step : σ → ε → Option σ) (A : σ → ε → Prop) (s : σ) : List ε → Prop
  | [] => True
  | e :: es => A s e ∧ (step s e).elim True fun t => Meets step A t es

instance Meets.decidable (step : σ → ε → Option σ) (A : σ → ε → Prop) [∀ s e, Decidable (A s e)]
    (s : σ) : (es : List ε) → Decidable (Meets step A s es)
  | [] => .isTrue trivial
  | _ :: es =>
    have (o : Option σ) : Decidable (o.elim True fun t => Meets step A t es) :=
      match o with
      | none => .isTrue trivial
      | some t => decidable step A t es
    inferInstanceAs (Decidable (_ ∧ _))

section Rules

variable {step : σ → ε → Option σ} {A : σ → ε → Prop} {s t : σ} {e : ε} {es fs : List ε}

@[simp] theorem exec_nil : exec step s [] = some s := rfl

theorem exec_cons : exec step s (e :: es) = (step s e).bind fun t => exec step t es := rfl

theorem Meets.of_forall (h : ∀ e ∈ es, ∀ s, A s e) : Meets step A s es := by
  induction es generalizing s with
  | nil => trivial
  | cons e es ih =>
    refine ⟨h e List.mem_cons_self s, ?_⟩
    cases step s e with
    | none => trivial
    | some t => exact ih fun f hf => h f (List.mem_cons_of_mem e hf)

theorem Meets.and {B : σ → ε → Prop} (ha : Meets step A s es) (hb : Meets step B s es) :
    Meets step (fun s e => A s e ∧ B s e) s es := by
  induction es generalizing s with
  | nil => trivial
  | cons e es ih =>
    refine ⟨⟨ha.1, hb.1⟩, ?_⟩
    have ha := ha.2
    have hb := hb.2
    cases h : step s e with
    | none => trivial
    | some t =>
      rw [h] at ha hb
      exact ih ha hb

/-- In a trace whose events meet `A`, what an event preserves under `A` holds at the end. -/
theorem invariant {P : σ → Prop} (preserved : ∀ s e t, P s → A s e → step s e = some t → P t)
    (init : P s) (meets : Meets step A s es) (h : exec step s es = some t) : P t := by
  induction es generalizing s with
  | nil =>
    rw [exec_nil, Option.some.injEq] at h
    exact h ▸ init
  | cons e es ih =>
    obtain ⟨u, hu, ht⟩ := Option.bind_eq_some_iff.mp h
    have hm := meets.2
    rw [hu] at hm
    exact ih (preserved s e u init meets.1 hu) hm ht

/-- What every event preserves holds at the end of every trace. -/
theorem always {P : σ → Prop} (preserved : ∀ s e t, P s → step s e = some t → P t) (init : P s)
    (h : exec step s es = some t) : P t :=
  invariant (A := fun _ _ => True) (fun s e t hs _ => preserved s e t hs) init
    (Meets.of_forall fun _ _ _ => trivial) h

/-- A relation that every event keeps, with a step of the other system on the same event, holds
between the two systems after the same trace. -/
theorem simulation {τ : Type*} {f : τ → ε → Option τ} {R : σ → τ → Prop}
    (sim : ∀ s u e t, R s u → step s e = some t → ∃ v, f u e = some v ∧ R t v) {u : τ}
    (init : R s u) (h : exec step s es = some t) : ∃ v, exec f u es = some v ∧ R t v := by
  induction es generalizing s u with
  | nil =>
    rw [exec_nil, Option.some.injEq] at h
    exact ⟨u, rfl, h ▸ init⟩
  | cons e es ih =>
    obtain ⟨m, hm, ht⟩ := Option.bind_eq_some_iff.mp h
    obtain ⟨v, hv, hrel⟩ := sim s u e m init hm
    rw [exec_cons, hv]
    exact ih hrel ht

end Rules

end Trace

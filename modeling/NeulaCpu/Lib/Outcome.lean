import Mathlib.Tactic

/-!
# Outcomes of commands

A command changes a state and gives a value, or stops with an error. `Ends E c s Q` says how the
command `c` may end that begins in the state `s`: with an error that satisfies `E`, or with a value
and a state that satisfy `Q`. The rules take a command apart; a command on a part of the state is
one on the whole.
-/

namespace Outcome

variable {σ τ ε α β : Type}

def Ends (E : ε → Prop) (c : StateT σ (Except ε) α) (s : σ) (Q : α → σ → Prop) : Prop :=
  match c s with
  | .ok (a, t) => Q a t
  | .error e => E e

/-- Carry out a command on the part of the state that `part` reads and `put` writes. -/
def zoom (part : τ → σ) (put : σ → τ → τ) (c : StateT σ (Except ε) α) : StateT τ (Except ε) α :=
    fun s =>
  match c (part s) with
  | .ok (a, t) => .ok (a, put t s)
  | .error e => .error e

/-- Carry out a command on a part of the state; its errors are errors of the whole. -/
def embed {δ : Type} (part : τ → σ) (put : σ → τ → τ) (err : ε → δ) (c : StateT σ (Except ε) α) :
    StateT τ (Except δ) α := fun s =>
  match c (part s) with
  | .ok (a, t) => .ok (a, put t s)
  | .error e => .error (err e)

variable {E : ε → Prop} {c : StateT σ (Except ε) α} {f : α → StateT σ (Except ε) β} {s t : σ}
  {a : α}
  {Q Q' : α → σ → Prop} {R : β → σ → Prop}

namespace Ends

theorem of_ok (h : Ends E c s Q) (hc : c s = .ok (a, t)) : Q a t := by
  rw [Ends, hc] at h
  exact h

theorem of_eq_ok (hc : c s = .ok (a, t)) (h : Q a t) : Ends E c s Q := by
  rw [Ends, hc]
  exact h

/-- A command that may not fail succeeds. -/
theorem exists_ok (h : Ends (fun _ => False) c s Q) : ∃ a t, c s = .ok (a, t) ∧ Q a t := by
  rw [Ends] at h
  generalize c s = o at h ⊢
  rcases o with e | ⟨a, t⟩
  · exact h.elim
  · exact ⟨a, t, rfl, h⟩

theorem exists_ok_unit {c : StateT σ (Except ε) PUnit} {P : σ → Prop}
    (h : Ends (fun _ => False) c s fun _ t => P t) : ∃ t, c s = .ok (⟨⟩, t) ∧ P t := by
  obtain ⟨_, t, hc, ht⟩ := h.exists_ok
  exact ⟨t, hc, ht⟩

theorem triv : Ends (fun _ => True) c s fun _ _ => True := by
  rw [Ends]
  split <;> trivial

theorem mono (h : Ends E c s Q) (hQ : ∀ a t, Q a t → Q' a t) : Ends E c s Q' := by
  rw [Ends] at h ⊢
  generalize c s = o at h ⊢
  rcases o with e | ⟨a, t⟩
  · exact h
  · exact hQ a t h

theorem mono_error {E' : ε → Prop} (h : Ends E c s Q) (hE : ∀ e, E e → E' e) : Ends E' c s Q := by
  rw [Ends] at h ⊢
  generalize c s = o at h ⊢
  rcases o with e | ⟨a, t⟩
  · exact hE e h
  · exact h

theorem and (h : Ends E c s Q) (h' : Ends E c s Q') : Ends E c s fun a t => Q a t ∧ Q' a t := by
  rw [Ends] at h h' ⊢
  generalize c s = o at h h' ⊢
  rcases o with e | ⟨a, t⟩
  · exact h
  · exact ⟨h, h'⟩

/-- A fact about every result, whatever the errors are. -/
theorem and_right (h : Ends E c s Q) (h' : Ends (fun _ => True) c s Q') :
    Ends E c s fun a t => Q a t ∧ Q' a t := by
  rw [Ends] at h h' ⊢
  generalize c s = o at h h' ⊢
  rcases o with e | ⟨a, t⟩
  · exact h
  · exact ⟨h, h'⟩

theorem bind (h : Ends E c s fun a t => Ends E (f a) t R) : Ends E (c >>= f) s R := by
  rw [Ends] at h ⊢
  show match (c s).bind fun p => f p.1 p.2 with | .ok (a, t) => R a t | .error e => E e
  generalize c s = o at h ⊢
  rcases o with e | ⟨a, t⟩
  · exact h
  · exact h

/-- The first command is followed by the second one. -/
theorem andThen (h : Ends E c s Q) (hf : ∀ a t, Q a t → Ends E (f a) t R) : Ends E (c >>= f) s R :=
  .bind (h.mono hf)

/-- A command whose result is not used. -/
theorem discard {Q : σ → Prop} (h : Ends E c s fun _ t => Q t) :
    Ends E (Functor.discard c) s fun _ t => Q t :=
  h.andThen (f := fun _ => Pure.pure PUnit.unit) fun _ _ ht => ht

theorem pure (h : Q a s) : Ends E (Pure.pure a) s Q := h

theorem get {Q : σ → σ → Prop} (h : Q s s) : Ends E MonadState.get s Q := h

theorem set {Q : PUnit → σ → Prop} (h : Q ⟨⟩ t) : Ends E (MonadStateOf.set t) s Q := h

theorem modify {Q : PUnit → σ → Prop} {g : σ → σ} (h : Q ⟨⟩ (g s)) :
    Ends E (modifyGet fun s => (PUnit.unit, g s)) s Q := h

theorem throw {e : ε} (h : E e) : Ends E (MonadExcept.throw e) s Q := h

theorem zoom {part : τ → σ} {put : σ → τ → τ} {s : τ} {Q : α → τ → Prop}
    (h : Ends E c (part s) fun a t => Q a (put t s)) : Ends E (Outcome.zoom part put c) s Q := by
  rw [Ends] at h ⊢
  rw [Outcome.zoom]
  generalize c (part s) = o at h ⊢
  rcases o with e | ⟨a, t⟩
  · exact h
  · exact h

theorem embed {δ : Type} {part : τ → σ} {put : σ → τ → τ} {err : ε → δ} {E : δ → Prop} {s : τ}
    {Q : α → τ → Prop} (h : Ends (fun e => E (err e)) c (part s) fun a t => Q a (put t s)) :
    Ends E (Outcome.embed part put err c) s Q := by
  rw [Ends] at h ⊢
  rw [Outcome.embed]
  generalize c (part s) = o at h ⊢
  rcases o with e | ⟨a, t⟩
  · exact h
  · exact h

end Ends

/-- Seen through `part`, the command `c` is the command `d`. -/
def Projects (part : τ → σ) (c : StateT τ (Except ε) α) (d : StateT σ (Except ε) α) : Prop :=
  ∀ s, (c s).map (Prod.map id part) = d (part s)

namespace Projects

variable {part : τ → σ} {c : StateT τ (Except ε) α} {d : StateT σ (Except ε) α}
  {f : α → StateT τ (Except ε) β}
  {g : α → StateT σ (Except ε) β}

theorem pure (a : α) : Projects part (Pure.pure a : StateT τ (Except ε) α) (Pure.pure a) :=
  fun _ => rfl

theorem throw (e : ε) : Projects part (MonadExcept.throw e : StateT τ (Except ε) α)
    (MonadExcept.throw e) := fun _ => rfl

theorem bind (h : Projects part c d) (hf : ∀ a, Projects part (f a) (g a)) :
    Projects part (c >>= f) (d >>= g) := by
  intro s
  have hs := h s
  show ((c s).bind fun p => f p.1 p.2).map _ = (d (part s)).bind fun p => g p.1 p.2
  generalize c s = o at hs ⊢
  rw [← hs]
  rcases o with e | ⟨a, t⟩
  · rfl
  · exact hf a t

theorem get_bind {f : τ → StateT τ (Except ε) β} {g : σ → StateT σ (Except ε) β}
    (hf : ∀ s, Projects part (f s) (g (part s))) :
    Projects part (MonadState.get >>= f) (MonadState.get >>= g) :=
  fun s => hf s s

theorem modify {f : τ → τ} {g : σ → σ} (h : ∀ s, part (f s) = g (part s)) :
    Projects part (modifyGet fun s => (PUnit.unit, f s) : StateT τ (Except ε) PUnit)
      (modifyGet fun s => (PUnit.unit, g s)) := fun s => by
  show Except.ok (PUnit.unit, part (f s)) = Except.ok (PUnit.unit, g (part s))
  rw [h]

/-- A command that `part` does not see. -/
theorem silent_bind {c : StateT τ (Except ε) PUnit} {f : PUnit → StateT τ (Except ε) β}
    {d : StateT σ (Except ε) β} (h : Projects part c (Pure.pure ⟨⟩)) (hf : Projects part (f ⟨⟩) d) :
    Projects part (c >>= f) d :=
  h.bind (g := fun _ => d) fun _ => hf

theorem ite {p : Prop} [Decidable p] {c' : StateT τ (Except ε) α} {d' : StateT σ (Except ε) α}
    (h : Projects part c d) (h' : Projects part c' d') :
    Projects part (if p then c else c') (if p then d else d') := by
  split_ifs
  · exact h
  · exact h'

/-- What is known of `d` is known of `c`. -/
theorem ends {E : ε → Prop} {Q : α → σ → Prop} {s : τ} (h : Projects part c d)
    (hd : Ends E d (part s) Q) : Ends E c s fun a t => Q a (part t) := by
  rw [Ends, ← h s] at hd
  rw [Ends]
  generalize c s = o at hd ⊢
  rcases o with e | ⟨a, t⟩
  · exact hd
  · exact hd

end Projects

end Outcome

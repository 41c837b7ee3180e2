import Mathlib.Tactic

/-!
# Recency of use

Things are used at moments in time; `use k a` says that `a` is used at time `k`. Before time `n`, a
thing may have a last use, and of two things that have been used one has the older last use.
-/

namespace Recency

variable {α : Type*} (use : ℕ → α → Prop)

/-- The last use of `a` before `n` is at `k`. -/
structure LastUse (n : ℕ) (a : α) (k : ℕ) : Prop where
  lt : k < n
  used : use k a
  last : ∀ j, k < j → j < n → ¬ use j a

/-- Before `n` both have been used, and the last use of `a` is older than that of `b`. -/
def Older (n : ℕ) (a b : α) : Prop := ∃ j k, j < k ∧ LastUse use n a j ∧ LastUse use n b k

variable {use} {n : ℕ} {a b : α}

theorem LastUse.now (h : use n a) : LastUse use (n + 1) a n :=
  ⟨Nat.lt_succ_self n, h, fun j h1 h2 => absurd h1 (by omega)⟩

theorem LastUse.keep {k : ℕ} (h : LastUse use n a k) (hnot : ¬ use n a) :
    LastUse use (n + 1) a k := by
  refine ⟨h.lt.trans (Nat.lt_succ_self n), h.used, fun j h1 h2 => ?_⟩
  rcases Nat.lt_succ_iff_lt_or_eq.mp h2 with hj | rfl
  · exact h.last j h1 hj
  · exact hnot

theorem exists_lastUse {k : ℕ} (hk : k < n) (h : use k a) : ∃ j, LastUse use n a j := by
  induction n with
  | zero => exact absurd hk (Nat.not_lt_zero k)
  | succ n ih =>
    by_cases hn : use n a
    · exact ⟨n, .now hn⟩
    · have hlt : k < n := by
        rcases Nat.lt_succ_iff_lt_or_eq.mp hk with hlt | rfl
        · exact hlt
        · exact absurd h hn
      obtain ⟨j, hj⟩ := ih hlt
      exact ⟨j, hj.keep hn⟩

theorem Older.keep (h : Older use n a b) (ha : ¬ use n a) (hb : ¬ use n b) :
    Older use (n + 1) a b := by
  obtain ⟨j, k, hlt, hj, hk⟩ := h
  exact ⟨j, k, hlt, hj.keep ha, hk.keep hb⟩

/-- What is used now is the newer of two. -/
theorem Older.now {k : ℕ} (hk : k < n) (ha : use k a) (hnot : ¬ use n a) (hb : use n b) :
    Older use (n + 1) a b := by
  obtain ⟨j, hj⟩ := exists_lastUse hk ha
  exact ⟨j, n, hj.lt, hj.keep hnot, .now hb⟩

end Recency

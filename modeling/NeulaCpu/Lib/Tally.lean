import Mathlib.Tactic

/-!
# Tallies

How many of finitely many places hold a given value. Writing one place moves one unit from the tally
of the old value to the tally of the new one.
-/

variable {α β : Type} [Fintype α] [DecidableEq β]

/-- The number of places at which `g` is `y`. -/
def tally (g : α → β) (y : β) : ℕ := (Finset.univ.filter fun x => g x = y).card

namespace Tally

variable {g : α → β} {a : α} {b y : β}

theorem le_card (g : α → β) (y : β) : tally g y ≤ Fintype.card α := Finset.card_le_univ _

theorem pos_iff : 0 < tally g y ↔ ∃ x, g x = y := by
  simp [tally, Finset.card_pos, Finset.Nonempty]

theorem eq_zero_iff : tally g y = 0 ↔ ∀ x, g x ≠ y := by
  simp [tally, Finset.filter_eq_empty_iff]

/-- The places other than `a`. -/
theorem split [DecidableEq α] (g : α → β) (a : α) (y : β) :
    tally g y = ((Finset.univ.erase a).filter fun x => g x = y).card + if g a = y then 1
      else 0 := by
  rw [tally, ← Finset.insert_erase (Finset.mem_univ a), Finset.filter_insert,
    Finset.erase_insert_eq_erase]
  split_ifs with h
  · rw [Finset.card_insert_of_notMem (by simp)]
    simp
  · simp

theorem update [DecidableEq α] (g : α → β) (a : α) (b y : β) :
    tally (Function.update g a b) y + (if g a = y then 1 else 0) = tally g y + if b = y then 1
      else 0 := by
  rw [split g a, split (Function.update g a b) a, Function.update_self]
  have hsame : ((Finset.univ.erase a).filter fun x => Function.update g a b x = y) =
      (Finset.univ.erase a).filter fun x => g x = y := by
    refine Finset.filter_congr fun x hx => ?_
    rw [Function.update_of_ne (Finset.ne_of_mem_erase hx)]
  rw [hsame]
  omega

/-- One unit at the value that `o` holds. -/
def unit (o : Option β) (y : β) : ℤ := if o = some y then 1 else 0

@[simp] theorem unit_none : (unit none : β → ℤ) = 0 := rfl

theorem unit_some (b y : β) : unit (some b) y = if b = y then 1 else 0 := by simp [unit]

theorem unit_self (b : β) : unit (some b) b = 1 := if_pos rfl

theorem unit_nonneg (o : Option β) (y : β) : 0 ≤ unit o y := by
  rw [unit]
  split_ifs <;> decide

theorem update_some [DecidableEq α] (g : α → Option β) (a : α) (o : Option β) (y : β) :
    (tally (Function.update g a o) (some y) : ℤ) = tally g (some y) + unit o y - unit (g a) y := by
  have h := update g a o (some y)
  rw [unit, unit]
  split_ifs at h ⊢ <;> omega

end Tally

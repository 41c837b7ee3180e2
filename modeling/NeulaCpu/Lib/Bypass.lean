import Mathlib.Tactic

/-!
# Bypass networks

Writes to a register file that have been decided but not carried out. Reading through a bypass
network takes the value of the youngest pending write to the register and falls back to the file;
this is the value the file has after all pending writes were carried out in order.
-/

namespace Bypass

variable {ι α : Type*}

/-- A write, if `en`, of `value` to the register `dest`. -/
structure Write (ι α : Type*) where
  en : Bool
  dest : ι
  value : α

variable [DecidableEq ι]

/-- The register file after a write. -/
def Write.apply (w : Write ι α) (f : ι → α) : ι → α :=
  fun r => if w.en ∧ r = w.dest then w.value else f r

/-- Whether a write is to the register `r`. -/
def Write.hits (w : Write ι α) (r : ι) : Bool := w.en && decide (r = w.dest)

/-- The value of the first write to `r` in a list with the youngest write in front. -/
def youngest : List (Write ι α) → ι → Option α
  | [], _ => none
  | w :: ws, r => if w.hits r then some w.value else youngest ws r

/-- Reading through the network is reading after the pending writes. -/
theorem foldr_apply (ws : List (Write ι α)) (f : ι → α) (r : ι) :
    ws.foldr Write.apply f r = (youngest ws r).getD (f r) := by
  induction ws with
  | nil => rfl
  | cons w ws ih =>
    rw [List.foldr_cons, youngest, Write.apply]
    by_cases h : w.en ∧ r = w.dest
    · rw [if_pos h, if_pos (by simpa [Write.hits] using h), Option.getD_some]
    · rw [if_neg h, if_neg (by simpa [Write.hits] using h), ih]

end Bypass

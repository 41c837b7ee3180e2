import Mathlib.Tactic

/-!
# Bit fields of a fixed-width register

`splice x lo v` is the register `x` with the field that starts at bit `lo` overwritten by `v`: a
part-select assignment `x[lo +: w] <= v`. A read of a field after an overwrite depends only on
whether the two fields are the same or disjoint.
-/

namespace BitField

variable {n w : ℕ}

/-- Overwrite the `w`-bit field of `x` that starts at bit `lo`. -/
def splice (x : BitVec n) (lo : ℕ) (v : BitVec w) : BitVec n :=
  (x &&& ~~~((BitVec.allOnes w).setWidth n <<< lo)) ||| (v.setWidth n <<< lo)

theorem getLsbD_splice (x : BitVec n) (lo : ℕ) (v : BitVec w) (i : ℕ) (hi : i < n) :
    (splice x lo v).getLsbD i =
      if lo ≤ i ∧ i < lo + w then v.getLsbD (i - lo) else x.getLsbD i := by
  simp only [splice, BitVec.getLsbD_or, BitVec.getLsbD_and, BitVec.getLsbD_not,
    BitVec.getLsbD_shiftLeft, BitVec.getLsbD_setWidth, BitVec.getLsbD_allOnes, hi, decide_true,
    Bool.true_and]
  by_cases h1 : lo ≤ i
  · have h1' : ¬ i < lo := by omega
    have h2 : i - lo < n := by omega
    by_cases h3 : i < lo + w
    · have h4 : i - lo < w := by omega
      simp [h1, h1', h2, h3, h4]
    · have h4 : ¬ i - lo < w := by omega
      simp [h1', h2, h3, h4, BitVec.getLsbD_of_ge v (i - lo) (by omega)]
  · have h1' : i < lo := by omega
    simp [h1, h1']

/-- Reading back the field just written. -/
theorem extract_splice_self (x : BitVec n) (lo : ℕ) (v : BitVec w) (h : lo + w ≤ n) :
    (splice x lo v).extractLsb' lo w = v := by
  apply BitVec.eq_of_getLsbD_eq
  intro i hi
  rw [BitVec.getLsbD_extractLsb', getLsbD_splice x lo v (lo + i) (by omega)]
  simp [hi]

/-- Reading a field disjoint from the one written. -/
theorem extract_splice_of_disjoint {k : ℕ} (x : BitVec n) (lo lo' : ℕ) (v : BitVec w)
    (hk : lo' + k ≤ n) (h : lo' + k ≤ lo ∨ lo + w ≤ lo') :
    (splice x lo v).extractLsb' lo' k = x.extractLsb' lo' k := by
  apply BitVec.eq_of_getLsbD_eq
  intro i hi
  rw [BitVec.getLsbD_extractLsb', BitVec.getLsbD_extractLsb',
    getLsbD_splice x lo v (lo' + i) (by omega), if_neg (by omega)]

theorem splice_splice_self (x : BitVec n) (lo : ℕ) (v : BitVec w) :
    splice (splice x lo v) lo v = splice x lo v := by
  apply BitVec.eq_of_getLsbD_eq
  intro i hi
  rw [getLsbD_splice _ lo v i hi, getLsbD_splice x lo v i hi]
  split_ifs <;> rfl

/-- A field of a field. -/
theorem extract_extract (x : BitVec n) (lo lo' : ℕ) {k : ℕ} (h : lo' + k ≤ w) :
    (x.extractLsb' lo w).extractLsb' lo' k = x.extractLsb' (lo + lo') k := by
  apply BitVec.eq_of_getLsbD_eq
  intro i hi
  simp [hi, show lo' + i < w by omega, Nat.add_assoc]

/-! ## Masked writes -/

/-- The bits of `w` where the mask is set, of `x` elsewhere. -/
def blend (x mask w : BitVec n) : BitVec n := (mask &&& w) ||| (~~~mask &&& x)

/-- The mask of the field of `width` bits that starts at bit `lo`. -/
def fieldMask (n lo width : ℕ) : BitVec n := (BitVec.allOnes width).setWidth n <<< lo

theorem getLsbD_blend (x mask w : BitVec n) {i : ℕ} (hi : i < n) :
    (blend x mask w).getLsbD i = if mask.getLsbD i then w.getLsbD i else x.getLsbD i := by
  simp only [blend, BitVec.getLsbD_or, BitVec.getLsbD_and, BitVec.getLsbD_not, hi, decide_true,
    Bool.true_and]
  cases mask.getLsbD i <;> simp

/-- Copying one field is a masked write. -/
theorem splice_extract (x w : BitVec n) (lo width : ℕ) :
    splice x lo (w.extractLsb' lo width) = blend x (fieldMask n lo width) w := by
  apply BitVec.eq_of_getLsbD_eq
  intro i hi
  rw [getLsbD_splice x lo _ i hi, getLsbD_blend x _ w hi, fieldMask, BitVec.getLsbD_shiftLeft,
    BitVec.getLsbD_setWidth, BitVec.getLsbD_allOnes, BitVec.getLsbD_extractLsb']
  by_cases h : lo ≤ i ∧ i < lo + width
  · simp [h, hi, show ¬ i < lo by omega, show i - lo < width by omega, show i - lo < n by omega,
      show lo + (i - lo) = i by omega]
  · rw [if_neg h, if_neg]
    simp only [Bool.and_eq_true, Bool.not_eq_true', decide_eq_true_eq, decide_eq_false_iff_not]
    omega

/-- Two masked writes of the same value are one. -/
theorem blend_blend (x m m' w : BitVec n) : blend (blend x m w) m' w = blend x (m ||| m') w := by
  apply BitVec.eq_of_getLsbD_eq
  intro i hi
  rw [getLsbD_blend _ _ _ hi, getLsbD_blend _ _ _ hi, getLsbD_blend _ _ _ hi, BitVec.getLsbD_or]
  cases m.getLsbD i <;> cases m'.getLsbD i <;> simp

@[simp] theorem blend_allOnes (x w : BitVec n) : blend x (BitVec.allOnes n) w = w := by
  simp [blend]

@[simp] theorem blend_zero (x w : BitVec n) : blend x 0 w = x := by
  simp [blend]

end BitField

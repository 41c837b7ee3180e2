import NeulaCpu.Lib.ByteStore

/-!
# Bytes of words, and ranges cut at page borders

A word of 64 bits has eight byte lanes. A range of addresses is worked through page by page: each
piece goes to the end of the range or to the next page border, whichever comes first. The addresses
of a piece lie in one page.
-/

namespace Paging

open ByteStore (Byte)

/-! ## Byte lanes -/

/-- Byte lane `i` of a word. -/
def lane (w : BitVec 64) (i : ℕ) : Byte := w.extractLsb' (8 * i) 8

/-- The word with `b` in lane `i`. -/
def setLane (w : BitVec 64) (i : ℕ) (b : Byte) : BitVec 64 :=
  (w &&& ~~~(0xff#64 <<< (8 * i))) ||| (b.setWidth 64 <<< (8 * i))

theorem getLsbD_setLane (w : BitVec 64) (i : ℕ) (b : Byte) {n : ℕ} (hn : n < 64) :
    (setLane w i b).getLsbD n = if 8 * i ≤ n ∧ n < 8 * i + 8 then b.getLsbD (n - 8 * i)
      else w.getLsbD n := by
  have hff : ∀ m < 64, (0xff#64).getLsbD m = decide (m < 8) := by decide
  simp only [setLane, BitVec.getLsbD_or, BitVec.getLsbD_and, BitVec.getLsbD_not,
    BitVec.getLsbD_shiftLeft, BitVec.getLsbD_setWidth, hn, decide_true, Bool.true_and]
  by_cases hlow : n < 8 * i
  · rw [if_neg (by omega)]
    simp [hlow]
  · have hmask := hff (n - 8 * i) (by omega)
    by_cases hhigh : n < 8 * i + 8
    · rw [if_pos (by omega)]
      have hlt : n - 8 * i < 64 := by omega
      simp [hlow, hmask, hlt, show n - 8 * i < 8 by omega]
    · rw [if_neg (by omega)]
      have hge : b.getLsbD (n - 8 * i) = false := BitVec.getLsbD_of_ge _ _ (by omega)
      simp [hlow, hmask, hge, show ¬ n - 8 * i < 8 by omega]

theorem lane_setLane (w : BitVec 64) (b : Byte) {i j : ℕ} (hj : j < 8) :
    lane (setLane w i b) j = if j = i then b else lane w j := by
  apply BitVec.eq_of_getLsbD_eq
  intro k hk
  rw [lane, BitVec.getLsbD_extractLsb', decide_eq_true hk, Bool.true_and,
    getLsbD_setLane w i b (by omega)]
  by_cases hji : j = i
  · rw [if_pos (by omega), if_pos hji]
    congr 1
    omega
  · rw [if_neg (by omega), if_neg hji, lane, BitVec.getLsbD_extractLsb', decide_eq_true hk,
      Bool.true_and]

/-! ## Pieces of a range -/

section Pieces

variable {P a len k : ℕ}

/-- How much of the `len` bytes from `a` on lies in the page of `a`. -/
def piece (P a len : ℕ) : ℕ := min (P - a % P) len

theorem piece_le : piece P a len ≤ len := min_le_right _ _

theorem piece_pos (hP : 0 < P) (hlen : 0 < len) : 0 < piece P a len := by
  have hmod := Nat.mod_lt a hP
  exact lt_min (by omega) hlen

/-- The next piece starts at the page border, unless nothing is left. -/
theorem piece_eq_or (hP : 0 < P) : piece P a len = len ∨ a / P * P + P = a + piece P a len := by
  have hmod := Nat.mod_lt a hP
  have hdiv := Nat.div_add_mod' a P
  rcases le_total (P - a % P) len with h | h
  · right
    rw [piece, min_eq_left h]
    omega
  · left
    exact min_eq_right h

theorem add_lt_of_lt_piece (hk : k < piece P a len) : a % P + k < P := by
  have h : k < P - a % P := lt_of_lt_of_le hk (min_le_left _ _)
  omega

theorem div_of_lt_piece (hk : k < piece P a len) : (a + k) / P = a / P := by
  have hlt := add_lt_of_lt_piece hk
  have hdiv := Nat.div_add_mod' a P
  rw [show a + k = a % P + k + a / P * P by omega, Nat.add_mul_div_right _ _ (by omega),
    Nat.div_eq_of_lt hlt]
  omega

theorem mod_of_lt_piece (hk : k < piece P a len) : (a + k) % P = a % P + k := by
  have hlt := add_lt_of_lt_piece hk
  have hdiv := Nat.div_add_mod' a P
  rw [show a + k = a % P + k + a / P * P by omega, Nat.add_mul_mod_self_right, Nat.mod_eq_of_lt hlt]

end Pieces

end Paging

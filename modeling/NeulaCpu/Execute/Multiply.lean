import NeulaCpu.Execute.Occupancy

/-!
# Multiplication

`mul` needs three cycles for the product of the two magnitudes; `mul_div_top` then puts the sign
back, for each half on its own. The rule for the high half of a signed product complements the high
half of the magnitude and leaves a zero high half alone. For a negative product this is right if and
only if neither half of the magnitude is zero, which `mulDivResult_mul_iff` states for a whole stay
in `exe_stage`.
-/

namespace NeulaCpu.Rtl

open Isa (MulOp)

/-! ## The multiplier -/

variable (a b : Word)

/-- The 64-bit product. -/
def Mul.product : BitVec 64 := a.setWidth 64 * b.setWidth 64

/-- The registers of `mul` once it is done. -/
def Mul.done : Mul :=
  ⟨0, (product a b).extractLsb' 32 32, (product a b).extractLsb' 0 32, product a b⟩

theorem Mul.iterate_step (n : ℕ) :
    (fun x : Mul => x.step false a b)^[n + 2] ⟨2, 0, 0, 0⟩ = done a b := by
  induction n with
  | zero => simp [step, done, product]
  | succ n ih =>
    rw [Function.iterate_succ_apply', ih]
    rfl

/-! ## The halves of a product -/

theorem toNat_product : (Mul.product a b).toNat = a.toNat * b.toNat := by
  have h : a.toNat * b.toNat < 2 ^ 64 := by
    calc a.toNat * b.toNat < 2 ^ 32 * 2 ^ 32 := Nat.mul_lt_mul'' a.isLt b.isLt
      _ = 2 ^ 64 := by norm_num
  simp [Mul.product]
  omega

theorem toNat_high (p : BitVec 64) : (p.extractLsb' 32 32).toNat = p.toNat / 2 ^ 32 := by
  simp [Nat.shiftRight_eq_div_pow]
  omega

theorem low_product : (Mul.product a b).extractLsb' 0 32 = a * b := by
  rw [← BitVec.setWidth_eq_extractLsb' (by omega), Mul.product, BitVec.setWidth_mul _ _ (by omega)]
  simp

/-- The complement of the high half is the high half of the negated product if there is a borrow
from the low half and the zero test does not get in the way. -/
theorem high_neg_eq_iff {p : BitVec 64} (hp : p.toNat ≤ 2 ^ 62) :
    (if p.extractLsb' 32 32 ≠ 0 then 1#1 ++ ~~~((p.extractLsb' 32 32).extractLsb' 0 31)
      else p.extractLsb' 32 32) = (-p).extractLsb' 32 32 ↔
    p.toNat = 0 ∨ (2 ^ 32 ≤ p.toNat ∧ ¬ 2 ^ 32 ∣ p.toNat) := by
  have hzero : p.extractLsb' 32 32 = 0 ↔ p.toNat / 2 ^ 32 = 0 := by
    rw [← toNat_high, ← BitVec.toNat_inj]
    rfl
  have hneg : (-p).toNat = if p.toNat = 0 then 0 else 2 ^ 64 - p.toNat := by
    rw [BitVec.toNat_neg]
    split_ifs <;> omega
  rw [← BitVec.toNat_inj, toNat_high (-p), hneg]
  by_cases h : p.toNat / 2 ^ 32 = 0
  · rw [if_neg (not_not.mpr (hzero.mpr h)), toNat_high]
    split_ifs <;> omega
  · have hlow : ((p.extractLsb' 32 32).extractLsb' 0 31).toNat = p.toNat / 2 ^ 32 := by
      rw [BitVec.extractLsb'_toNat, toNat_high]
      omega
    rw [if_pos (fun h' => h (hzero.mp h')), toNat_one_append, BitVec.toNat_not, hlow]
    split_ifs <;> omega

/-! ## Signed products -/

theorem signExtend_eq_abs (a : Word) :
    a.signExtend 64 = if a.msb then -(a.abs.setWidth 64) else a.abs.setWidth 64 := by
  cases h : a.msb with
  | false =>
    rw [BitVec.signExtend_eq_setWidth_of_msb_false h, BitVec.abs, h]
    rfl
  | true =>
    have hge : 2 ^ 31 ≤ a.toNat := BitVec.le_toNat_of_msb_true h
    apply BitVec.eq_of_toNat_eq
    simp [BitVec.toNat_signExtend, h, BitVec.abs]
    omega

theorem signed_product : a.signExtend 64 * b.signExtend 64 =
    if MulDivTop.signFlag a b then -(Mul.product a.abs b.abs) else Mul.product a.abs b.abs := by
  rw [signExtend_eq_abs, signExtend_eq_abs, MulDivTop.signFlag_eq, Mul.product]
  cases a.msb <;> cases b.msb <;> simp

theorem mul_eq_abs :
    a * b = if MulDivTop.signFlag a b then -(a.abs * b.abs) else a.abs * b.abs := by
  rw [MulDivTop.signFlag_eq, BitVec.abs, BitVec.abs]
  cases a.msb <;> cases b.msb <;> simp

theorem toInt_mul_toInt : a.toInt * b.toInt =
    if MulDivTop.signFlag a b then -((Mul.product a.abs b.abs).toNat : ℤ)
    else (Mul.product a.abs b.abs).toNat := by
  rw [toNat_product, toInt_eq_abs a, toInt_eq_abs b, MulDivTop.signFlag_eq, Nat.cast_mul]
  generalize (a.abs.toNat : ℤ) = x
  generalize (b.abs.toNat : ℤ) = y
  cases a.msb <;> cases b.msb <;> simp

/-- The signed product is not negative, or neither half of its magnitude is zero. -/
def HighHalfExact : Prop :=
  0 ≤ a.toInt * b.toInt ∨ (a.toInt * b.toInt ≤ -2 ^ 32 ∧ ¬ (2 ^ 32 : ℤ) ∣ a.toInt * b.toInt)

instance : Decidable (HighHalfExact a b) :=
  inferInstanceAs (Decidable (_ ∨ _))

/-! ## The result -/

/-- What `mul_div_top` shows when the multiplier is done. -/
def shownProduct (op : MulOp) (a b : Word) (y : Div) : Word :=
  (MulDivTop.mk (MulDivTop.lockedWith true (mulOpSign op) a b)
    (Mul.done (MulDivTop.src (mulOpSign op) a) (MulDivTop.src (mulOpSign op) b)) y).mulDivResult
    (mulOpBits op) (mulOpSign op) a b

theorem shownProduct_mulW (y : Div) : shownProduct .mulW a b y = a * b := by
  have hlow := low_product a.abs b.abs
  simp only [shownProduct, mulOpBits, mulOpSign, MulDivTop.mulDivResult, MulDivTop.lockedWith,
    MulDivLock.signFlagLocked, MulDivTop.src_true, Mul.done, hlow, mul_eq_abs a b]
  generalize a.abs * b.abs = p
  cases MulDivTop.signFlag a b with
  | false => simp
  | true =>
    by_cases h : p = 0#32
    · simp [h]
    · simp [h, BitVec.neg_eq_not_add]

theorem shownProduct_mulhWu (y : Div) :
    shownProduct .mulhWu a b y = MulOp.mulhWu.eval a b := by
  simp [shownProduct, mulOpBits, mulOpSign, MulDivTop.mulDivResult, MulDivTop.src, Mul.done,
    MulOp.eval, Mul.product]

theorem shownProduct_mulhW_iff (y : Div) :
    shownProduct .mulhW a b y = MulOp.mulhW.eval a b ↔ HighHalfExact a b := by
  have hbound : (Mul.product a.abs b.abs).toNat ≤ 2 ^ 62 := by
    rw [toNat_product]
    calc a.abs.toNat * b.abs.toNat ≤ 2 ^ 31 * 2 ^ 31 :=
          Nat.mul_le_mul (toNat_abs_le a) (toNat_abs_le b)
      _ = 2 ^ 62 := by norm_num
  simp only [shownProduct, mulOpBits, mulOpSign, MulDivTop.mulDivResult, MulDivTop.lockedWith,
    MulDivLock.signFlagLocked, MulDivTop.src_true, Mul.done, MulOp.eval, signed_product a b,
    HighHalfExact, toInt_mul_toInt a b]
  generalize Mul.product a.abs b.abs = p at hbound ⊢
  cases MulDivTop.signFlag a b with
  | false => simp
  | true =>
    have hcond :
        (true && true && decide (p.extractLsb' 32 32 ≠ 0)) = true ↔ p.extractLsb' 32 32 ≠ 0 := by
      simp
    have h := high_neg_eq_iff hbound
    simp only [Bool.false_eq_true, if_false, if_true] at h ⊢
    rw [if_congr hcond rfl rfl]
    refine h.trans ?_
    omega

theorem shownProduct_eq_iff (op : MulOp) (a b : Word) (y : Div) :
    shownProduct op a b y = op.eval a b ↔ (op = .mulhW → HighHalfExact a b) := by
  cases op with
  | mulW => simp [shownProduct_mulW, MulOp.eval]
  | mulhW => simp [shownProduct_mulhW_iff]
  | mulhWu => simp [shownProduct_mulhWu]

/-! ## A stay in `exe_stage` -/

/-- After three held cycles the multiplier is done, and nothing changes any more. -/
theorem MulDivTop.iterate_heldStep_mul {m : MulDivTop} (hm : m.Idle) (op : MulOp) (a b : Word)
    (n : ℕ) :
    (heldStep (mulOpBits op) (mulOpSign op) a b)^[n + 3] m =
      ⟨lockedWith true (mulOpSign op) a b, .done (src (mulOpSign op) a) (src (mulOpSign op) b),
        m.div⟩ := by
  have hmul : m.mul.step true (src (mulOpSign op) a) (src (mulOpSign op) b) = ⟨2, 0, 0, 0⟩ := by
    simp [Mul.step, hm.mul]
  have hdiv : m.div.step false (src (mulOpSign op) a) (src (mulOpSign op) b) = m.div := by
    simp [Div.step, hm.div]
  have hdivs :
      (fun y : Div => y.step false (src (mulOpSign op) a) (src (mulOpSign op) b))^[n + 2] m.div =
      m.div :=
    Function.iterate_fixed (f := fun y : Div => y.step false _ _) hdiv _
  rw [iterate_heldStep hm (selects_mul op), hmul, Mul.iterate_step, Bool.not_true, hdiv, hdivs]

theorem MulDivTop.stallreq_mul {m : MulDivTop} (hm : m.Idle) (op : MulOp) (a b : Word) (n : ℕ) :
    ((heldStep (mulOpBits op) (mulOpSign op) a b)^[n] m).stallreq (mulOpBits op) =
      decide (n < 3) := by
  match n with
  | 0 => exact stallreq_of_idle hm (selects_mul op)
  | 1 | 2 =>
    rw [iterate_heldStep hm (selects_mul op), stallreq_lockedWith (selects_mul op)]
    simp [Mul.step, hm.mul]
  | n + 3 =>
    rw [iterate_heldStep_mul hm, stallreq_lockedWith (selects_mul op)]
    simp [Mul.done, hm.div]

/-- The multiplication in `exe_stage` delivers its product: `stallreq` drops after three cycles, and
from then on, as long as the instruction stays, `mul_div_result` is the product the instruction asks
for. -/
def Core.Multiplies (s : Core) (op : MulOp) : Prop :=
  ∀ (inp : ℕ → CoreIn) (n : ℕ), s.Held inp n →
    (s.after inp n).stallreqEs = decide (n < 3) ∧
      ((s.after inp n).stallreqEs = false → (s.after inp n).mulDivResult = op.eval s.src1 s.src2)

/-- A memory side that stalls for ever. -/
def CoreIn.stalled : CoreIn := ⟨0, 0, 0, true, false, false⟩

theorem Core.held_stalled (s : Core) (n : ℕ) : s.Held (fun _ => .stalled) n :=
  fun _ _ => rfl

/-- A multiplication that starts with the unit idle delivers its product if and only if it is not
`mulh.w`, or the signed product is not negative, or neither half of the magnitude is zero. -/
theorem Core.mulDivResult_mul_iff (op : MulOp) (rd rj rk : BitVec 5) (s : Core)
    (idle : s.es.mulDiv.Idle) (carries : s.esBus.Carries (op.encode rd rj rk)) :
    s.Multiplies op ↔ (op = .mulhW → HighHalfExact s.src1 s.src2) := by
  have hw := (mulDivWord_encode rd rj rk).1 op
  have hreq (inp : ℕ → CoreIn) (n : ℕ) (h : s.Held inp n) :
      (s.after inp n).stallreqEs = decide (n < 3) := by
    rw [h.stallreqEs hw carries, MulDivTop.stallreq_mul idle]
  have hshown (inp : ℕ → CoreIn) (n : ℕ) (h : s.Held inp (n + 3)) :
      (s.after inp (n + 3)).mulDivResult = shownProduct op s.src1 s.src2 s.es.mulDiv.div := by
    rw [h.mulDivResult hw carries, MulDivTop.iterate_heldStep_mul idle]
    rfl
  rw [← shownProduct_eq_iff op s.src1 s.src2 s.es.mulDiv.div]
  constructor
  · intro h
    have hheld := s.held_stalled 3
    rw [← hshown _ 0 hheld]
    exact (h _ 3 hheld).2 (hreq _ 3 hheld)
  · intro h inp n hheld
    refine ⟨hreq inp n hheld, fun hdrop => ?_⟩
    rw [hreq inp n hheld, decide_eq_false_iff_not, not_lt] at hdrop
    obtain ⟨k, rfl⟩ := Nat.exists_eq_add_of_le' hdrop
    rw [hshown inp k hheld, h]

/-- `addi.w $r4, $r0, x`, `addi.w $r5, $r0, y` and `mulh.w $r6, $r4, $r5`. -/
def mulhRun (x y : BitVec 12) : CoreRun :=
  .ofWords (fun n => if n = 3 then Isa.Inst.encode (.opImm .addiW 4 0 x)
    else if n = 4 then Isa.Inst.encode (.opImm .addiW 5 0 y)
    else if n = 5 then MulOp.mulhW.encode 6 4 5 else 0x02800000) 0 0

/-- The high half of `-1 * 1` comes out as 0. -/
theorem mulhW_neg_one :
    ((mulhRun (-1) 1).core 7).es.mulDiv.Idle ∧
      ((mulhRun (-1) 1).core 7).esBus.Carries (MulOp.mulhW.encode 6 4 5) ∧
      ((mulhRun (-1) 1).core 7).src1 = 0xffffffff ∧
      ((mulhRun (-1) 1).core 7).src2 = 1 ∧ ((mulhRun (-1) 1).core 10).mulDivResult = 0 ∧
      ¬ ((mulhRun (-1) 1).core 7).Multiplies .mulhW := by
  refine ⟨by decide +kernel, ⟨by
    decide +kernel, by decide +kernel, by decide +kernel, by decide +kernel,
    by decide +kernel⟩, by decide +kernel, by decide +kernel, by decide +kernel, fun h => ?_⟩
  have hheld : ((mulhRun (-1) 1).core 7).Held (fun _ => .stalled) 3 := Core.held_stalled _ 3
  exact absurd ((h _ 3 hheld).2 (by decide +kernel)) (by decide +kernel)

/-- The high half of `-1 * -1` is 0, and `mulh.w` delivers it. -/
theorem mulDivResult_mul_neg_one_neg_one :
    ((mulhRun (-1) (-1)).core 7).es.mulDiv.Idle ∧
      ((mulhRun (-1) (-1)).core 7).esBus.Carries (MulOp.mulhW.encode 6 4 5) ∧
      ((mulhRun (-1) (-1)).core 7).Multiplies .mulhW := by
  have hidle : ((mulhRun (-1) (-1)).core 7).es.mulDiv.Idle := by decide +kernel
  have hcarries : ((mulhRun (-1) (-1)).core 7).esBus.Carries (MulOp.mulhW.encode 6 4 5) :=
    ⟨by decide +kernel, by decide +kernel, by decide +kernel, by decide +kernel, by decide +kernel⟩
  exact ⟨hidle, hcarries,
    (Core.mulDivResult_mul_iff .mulhW 6 4 5 _ hidle hcarries).mpr fun _ => by decide +kernel⟩

end NeulaCpu.Rtl

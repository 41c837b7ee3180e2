import NeulaCpu.Execute.Occupancy

/-!
# Division

`div` divides the two magnitudes in 32 steps. Remainder and quotient are one shift register: the
dividend leaves the quotient register at the top, one bit at a time, while the quotient bits come in
at the bottom. Each step is the shift and subtract step of `BitVec.divSubtractShift`, whose
invariant also says that the remainder after `k` steps has at most `k` bits. So the bit that `temp`
drops is zero, for every divisor. `mul_div_top` puts the signs back, and the operand lock lets the
next instruction start afresh.
-/

namespace NeulaCpu.Rtl

open Function

open Isa (MulOp DivOp)
open BitVec (DivModState divSubtractShift)

/-! ## The divider -/

namespace Div

/-- The registers of `div` in the state `qr` of a long division of `a` by `b`. -/
structure Dividing (a b : Word) (qr : DivModState 32) (s : Div) : Prop where
  lawful : qr.Lawful ⟨a, b⟩
  cnt : s.cnt = BitVec.ofNat 6 qr.wn
  remainder : s.remainder = qr.r
  quotient : s.quotient = (a <<< qr.wr) ||| qr.q

variable {a b : Word} {qr : DivModState 32} {s : Div}

theorem dividing_start (a : Word) {b : Word} (hb : b ≠ 0) : Dividing a b (.init 32) ⟨32, a, 0⟩ where
  lawful := DivModState.lawful_init ⟨a, b⟩ (by bv_omega)
  cnt := rfl
  remainder := rfl
  quotient := by simp [DivModState.init]

/-- The quotient bits found so far leave the bits above them to the dividend. -/
theorem Dividing.getLsbD_q (h : Dividing a b qr s) {i : ℕ} (hi : qr.wr ≤ i) :
    qr.q.getLsbD i = false := by
  have hlt : qr.q.toNat < 2 ^ i :=
    h.lawful.hqWidth.trans_le (Nat.pow_le_pow_right (by omega) hi)
  exact Nat.testBit_lt_two_pow hlt

/-- The bit that `temp` takes from the quotient register is the next bit of the dividend. -/
theorem Dividing.temp (h : Dividing a b qr s) (hn : 0 < qr.wn) :
    s.temp = qr.r.shiftConcat (a.getLsbD (qr.wn - 1)) := by
  have hw := h.lawful.hwrn
  apply BitVec.eq_of_getLsbD_eq
  intro i hi
  rw [Div.temp, BitVec.getLsbD_append, BitVec.getLsbD_shiftConcat, h.remainder, h.quotient]
  by_cases h0 : i = 0
  · subst h0
    have hbit : 31 - qr.wr = qr.wn - 1 := by omega
    have hq : qr.q[31] = false := h.getLsbD_q (i := 31) (by omega)
    have hlt : ¬ 31 < qr.wr := by omega
    simp [hbit, hq, hlt, BitVec.getLsbD_eq_getElem (show qr.wn - 1 < 32 by omega)]
  · have hlt : ¬ i < 1 := by omega
    have hlt' : i - 1 < 31 := by omega
    simp [h0, hi, hlt']

/-- The quotient register moves up by one bit and takes in a quotient bit. -/
theorem Dividing.shiftIn (h : Dividing a b qr s) (c : Bool) :
    s.quotient.extractLsb' 0 31 ++ BitVec.ofBool c =
      (a <<< (qr.wr + 1)) ||| qr.q.shiftConcat c := by
  have hw := h.lawful.hwrn
  apply BitVec.eq_of_getLsbD_eq
  intro i hi
  rw [BitVec.getLsbD_append, BitVec.getLsbD_or, BitVec.getLsbD_shiftConcat, h.quotient]
  by_cases h0 : i = 0
  · subst h0
    simp
  · have hlt : ¬ i < 1 := by omega
    have hlt' : i - 1 < 31 := by omega
    have hsub : i - (qr.wr + 1) = i - 1 - qr.wr := by omega
    have hcmp : i < qr.wr + 1 ↔ i - 1 < qr.wr := by omega
    simp [h0, hi, hlt', hsub, hcmp, show i - 1 < 32 by omega]

theorem Dividing.step (h : Dividing a b qr s) (hn : 0 < qr.wn) (a' : Word) :
    Dividing a b (divSubtractShift ⟨a, b⟩ qr) (s.step false a' b) := by
  have hw := h.lawful.hwrn
  have hcnt : s.cnt ≠ 0 := by
    rw [h.cnt]
    intro h0
    have := congrArg BitVec.toNat h0
    simp at this
    omega
  have hpoised : qr.Poised ⟨a, b⟩ := ⟨h.lawful, hn⟩
  have hdec : BitVec.ofNat 6 qr.wn - 1 = BitVec.ofNat 6 (qr.wn - 1) := by
    apply BitVec.eq_of_toNat_eq
    simp
    omega
  have hcarry : s.carry b = !decide (qr.r.shiftConcat (a.getLsbD (qr.wn - 1)) < b) := by
    rw [carry, h.temp hn]
    rfl
  have hlawful := BitVec.lawful_divSubtractShift qr hpoised
  rw [Div.step, if_pos hcnt, h.shiftIn, subResult, hcarry, h.temp hn, h.cnt, hdec]
  unfold divSubtractShift at hlawful ⊢
  by_cases hlt : qr.r.shiftConcat (a.getLsbD (qr.wn - 1)) < b
  · simp only [hlt, if_true, decide_true, Bool.not_true] at hlawful ⊢
    exact ⟨hlawful, rfl, rfl, rfl⟩
  · simp only [hlt, if_false, decide_false, Bool.not_false] at hlawful ⊢
    exact ⟨hlawful, rfl, rfl, rfl⟩

/-- The registers of `div` once it is done. -/
def done (a b : Word) : Div := ⟨0, a / b, a % b⟩

theorem Dividing.done (h : Dividing a b qr s) (hn : qr.wn = 0) : s = done a b := by
  have hwr : qr.wr = 32 := by
    have := h.lawful.hwrn
    omega
  obtain ⟨c, q, r⟩ := s
  obtain ⟨hlawful, hc, hr, hq⟩ := h
  rw [hwr, BitVec.shiftLeft_eq_zero (by omega), BitVec.zero_or] at hq
  rw [hn] at hc
  rw [Div.done, DivModState.udiv_eq_of_lawful hlawful hn,
    DivModState.umod_eq_of_lawful hlawful hn, ← hq, ← hr, Div.mk.injEq]
  exact ⟨hc, rfl, rfl⟩

theorem iterate_wn (k : ℕ) (hk : k ≤ 32) :
    ((divSubtractShift ⟨a, b⟩)^[k] (.init 32)).wn = 32 - k := by
  induction k with
  | zero => rfl
  | succ k ih =>
    rw [iterate_succ_apply', divSubtractShift]
    have := ih (by omega)
    split_ifs <;> simp only [this] <;> omega

theorem dividing_iterate (a : Word) {b : Word} (hb : b ≠ 0) {k : ℕ} (hk : k ≤ 32) :
    Dividing a b ((divSubtractShift ⟨a, b⟩)^[k] (.init 32))
      ((fun y : Div => y.step false a b)^[k] ⟨32, a, 0⟩) := by
  induction k with
  | zero => exact dividing_start a hb
  | succ k ih =>
    rw [iterate_succ_apply', iterate_succ_apply']
    exact (ih (by omega)).step (by rw [iterate_wn k (by omega)]; omega) a

theorem iterate_cnt (a : Word) {b : Word} (hb : b ≠ 0) {k : ℕ} (hk : k < 32) :
    ((fun y : Div => y.step false a b)^[k] ⟨32, a, 0⟩).cnt ≠ 0 := by
  rw [(dividing_iterate a hb hk.le).cnt, iterate_wn k hk.le]
  intro h
  have := congrArg BitVec.toNat h
  simp at this
  omega

theorem iterate_step (a : Word) {b : Word} (hb : b ≠ 0) (n : ℕ) :
    (fun y : Div => y.step false a b)^[n + 32] ⟨32, a, 0⟩ = done a b := by
  induction n with
  | zero => exact (dividing_iterate a hb (le_refl 32)).done (iterate_wn 32 (le_refl 32))
  | succ n ih =>
    rw [Nat.succ_add, iterate_succ_apply', ih]
    rfl

end Div

/-! ## Signed quotients and remainders -/

/-- The sign fix-up negates 31 bits and sets the sign bit; for a magnitude that is not zero this is
the negation, also for `2 ^ 31`. -/
theorem one_append_neg {x : Word} (hx : x ≠ 0) (hle : x.toNat ≤ 2 ^ 31) :
    1#1 ++ (~~~(x.extractLsb' 0 31) + 1) = -x := by
  have hpos : x.toNat ≠ 0 := fun h => hx (BitVec.eq_of_toNat_eq h)
  have hlow : (x.extractLsb' 0 31).toNat = x.toNat % 2 ^ 31 := by
    rw [BitVec.extractLsb'_toNat, Nat.shiftRight_zero]
  apply BitVec.eq_of_toNat_eq
  rw [toNat_one_append, BitVec.toNat_add, BitVec.toNat_not, hlow, BitVec.toNat_neg]
  simp
  omega

/-- The fix-up of a magnitude that stands for a value with sign `neg`. -/
theorem fixUp_eq (neg : Bool) {x : Word} (hle : x.toNat ≤ 2 ^ 31) :
    (if (true && neg && decide (x ≠ 0)) = true then
        BitVec.ofBool neg ++ (~~~(x.extractLsb' 0 31) + 1)
      else x) = BitVec.ofInt 32 (if neg then -(x.toNat : ℤ) else x.toNat) := by
  have hx : BitVec.ofInt 32 (x.toNat : ℤ) = x := by
    rw [BitVec.ofInt_natCast, BitVec.ofNat_toNat, BitVec.setWidth_eq]
  cases neg with
  | false => simp [hx]
  | true =>
    rw [if_pos rfl, BitVec.ofInt_neg, hx]
    by_cases h : x = 0
    · rw [if_neg (by simp [h]), h]
      rfl
    · rw [if_pos (by simpa using h)]
      exact one_append_neg h hle

theorem toInt_tdiv (a b : Word) : a.toInt.tdiv b.toInt =
    if MulDivTop.signFlag a b then -((a.abs / b.abs).toNat : ℤ) else (a.abs / b.abs).toNat := by
  rw [toInt_eq_abs a, toInt_eq_abs b, MulDivTop.signFlag_eq, BitVec.toNat_udiv, Int.ofNat_tdiv]
  generalize (a.abs.toNat : ℤ) = x
  generalize (b.abs.toNat : ℤ) = y
  cases a.msb <;> cases b.msb <;> simp

theorem toInt_tmod (a b : Word) : a.toInt.tmod b.toInt =
    if a.msb then -((a.abs % b.abs).toNat : ℤ) else (a.abs % b.abs).toNat := by
  rw [toInt_eq_abs a, toInt_eq_abs b, BitVec.toNat_umod, Int.ofNat_tmod]
  generalize (a.abs.toNat : ℤ) = x
  generalize (b.abs.toNat : ℤ) = y
  cases a.msb <;> cases b.msb <;> simp

/-! ## The result -/

/-- What `mul_div_top` shows when the divider is done. -/
def shownQuotient (op : DivOp) (a b : Word) (x : Mul) : Word :=
  (MulDivTop.mk (MulDivTop.lockedWith false (divOpSign op) a b) x
    (Div.done (MulDivTop.src (divOpSign op) a) (MulDivTop.src (divOpSign op) b))).mulDivResult
    (divOpBits op) (divOpSign op) a b

theorem shownQuotient_eq (op : DivOp) (a b : Word) (x : Mul) :
    shownQuotient op a b x = op.eval a b := by
  cases op with
  | divW =>
    have hle : (a.abs / b.abs).toNat ≤ 2 ^ 31 := by
      rw [BitVec.toNat_udiv]
      exact (Nat.div_le_self _ _).trans (toNat_abs_le a)
    rw [DivOp.eval, toInt_tdiv, ← fixUp_eq _ hle, ← MulDivTop.src_true, ← MulDivTop.src_true]
    rfl
  | modW =>
    have hle : (a.abs % b.abs).toNat ≤ 2 ^ 31 := by
      rw [BitVec.toNat_umod]
      exact (Nat.mod_le _ _).trans (toNat_abs_le a)
    rw [DivOp.eval, toInt_tmod, ← fixUp_eq _ hle, ← MulDivTop.src_true, ← MulDivTop.src_true,
      BitVec.msb_eq_getLsbD_last]
    rfl
  | divWu => exact BitVec.udiv_def
  | modWu => exact BitVec.umod_def

/-! ## A stay in `exe_stage` -/

theorem MulDivTop.src_ne_zero (sign : Bool) {b : Word} (hb : b ≠ 0) : src sign b ≠ 0 := by
  cases sign with
  | false => simpa [src] using hb
  | true =>
    rw [src_true, abs_eq]
    split_ifs
    · exact fun h => hb (BitVec.neg_eq_zero_iff.mp h)
    · exact hb

section Stay

variable {m : MulDivTop} {b : Word}

theorem MulDivTop.iterate_heldStep_div (hm : m.Idle) (op : DivOp) (a b : Word) (n : ℕ) :
    (heldStep (divOpBits op) (divOpSign op) a b)^[n + 1] m =
      ⟨lockedWith false (divOpSign op) a b, m.mul,
        (fun y : Div => y.step false (src (divOpSign op) a) (src (divOpSign op) b))^[n]
          ⟨32, src (divOpSign op) a, 0⟩⟩ := by
  have hmul : m.mul.step false (src (divOpSign op) a) (src (divOpSign op) b) = m.mul := by
    simp [Mul.step, hm.mul]
  have hmuls :
      (fun x : Mul => x.step false (src (divOpSign op) a) (src (divOpSign op) b))^[n] m.mul =
      m.mul :=
    Function.iterate_fixed (f := fun x : Mul => x.step false _ _) hmul _
  have hdiv : m.div.step true (src (divOpSign op) a) (src (divOpSign op) b) =
      ⟨32, src (divOpSign op) a, 0⟩ := by
    simp [Div.step, hm.div]
  rw [iterate_heldStep hm (selects_div op), hmul, hmuls, Bool.not_false, hdiv]

theorem MulDivTop.stallreq_div (hm : m.Idle) (op : DivOp) (a : Word) (hb : b ≠ 0) (n : ℕ) :
    ((heldStep (divOpBits op) (divOpSign op) a b)^[n] m).stallreq (divOpBits op) =
      decide (n < 33) := by
  cases n with
  | zero => exact stallreq_of_idle hm (selects_div op)
  | succ n =>
    rw [iterate_heldStep_div hm, stallreq_lockedWith (selects_div op)]
    by_cases hn : n < 32
    · have hcnt := Div.iterate_cnt (src (divOpSign op) a) (src_ne_zero (divOpSign op) hb) hn
      rw [beq_eq_false_iff_ne.mpr hcnt, Bool.not_false, Bool.or_true]
      exact (decide_eq_true (by omega)).symm
    · obtain ⟨k, rfl⟩ := Nat.exists_eq_add_of_le' (not_lt.mp hn)
      rw [Div.iterate_step _ (src_ne_zero (divOpSign op) hb)]
      simp [hm.mul, Div.done]

end Stay

/-- The multiplication or division that stands in `exe_stage` is taken up with its own operands: the
unit asks for a stall and locks the magnitudes and signs of the two sources of the instruction. -/
def Core.Starts (s : Core) (mul : Bool) : Prop :=
  s.stallreqEs = true ∧ ∀ i, s.move i = .hold →
    (s.step i).es.mulDiv.lock = MulDivTop.lockedWith mul s.esBus.mulDivSign s.src1 s.src2

theorem Core.starts {s : Core} (idle : s.es.mulDiv.Idle) {w : Word} {op : MulDivOp}
    {sign mul : Bool} (hw : MulDivWord w op sign) (carries : s.esBus.Carries w)
    (hop : MulDivTop.Selects op mul) :
    s.Starts mul := by
  have hop' : s.es.dsToEsBusR.mulDivOp = op := carries.mulDivOp.trans hw.mulDivOp
  constructor
  · rw [stallreqEs, Es.stallreqEs, hop']
    exact MulDivTop.stallreq_of_idle idle hop
  · intro i hi
    have hheld : s.Held (fun _ => i) 1 := by
      intro k hk
      obtain rfl : k = 0 := by omega
      exact hi
    have hstep := hheld.mulDiv hw carries
    rw [Function.iterate_one, MulDivTop.heldStep_of_idle idle hop] at hstep
    rw [carries.mulDivSign, hw.mulDivSign]
    exact congrArg MulDivTop.lock hstep

/-- A division by a divisor other than zero that starts with the unit idle. `stallreq` drops after
33 cycles and from then on, as long as the instruction stays, `mul_div_result` is the quotient or
remainder. When the instruction leaves, the unit is idle again and a multiplication or division that
comes next starts with its own operands. -/
theorem Core.mulDivResult_div (op : DivOp) (rd rj rk : BitVec 5) (s : Core)
    (idle : s.es.mulDiv.Idle) (carries : s.esBus.Carries (op.encode rd rj rk))
    (divisor : s.src2 ≠ 0) (inp : ℕ → CoreIn) (n : ℕ) (held : s.Held inp n) :
    (s.after inp n).stallreqEs = decide (n < 33) ∧
    ((s.after inp n).stallreqEs = false → (s.after inp n).mulDivResult = op.eval s.src1 s.src2) ∧
    ((s.after inp n).move (inp n) ≠ .hold →
      (s.after inp (n + 1)).es.mulDiv.Idle ∧
      (∀ (next : MulOp) (rd' rj' rk' : BitVec 5),
        (s.after inp (n + 1)).esBus.Carries (next.encode rd' rj' rk') →
        (s.after inp (n + 1)).Starts true) ∧
      (∀ (next : DivOp) (rd' rj' rk' : BitVec 5),
        (s.after inp (n + 1)).esBus.Carries (next.encode rd' rj' rk') →
        (s.after inp (n + 1)).Starts false)) := by
  have hw := (mulDivWord_encode rd rj rk).2 op
  have hreq : (s.after inp n).stallreqEs = decide (n < 33) := by
    rw [held.stallreqEs hw carries, MulDivTop.stallreq_div idle op _ divisor]
  refine ⟨hreq, fun hdrop => ?_, fun hleave => ?_⟩
  · rw [hreq, decide_eq_false_iff_not, not_lt] at hdrop
    obtain ⟨k, rfl⟩ := Nat.exists_eq_add_of_le' hdrop
    rw [held.mulDivResult hw carries, MulDivTop.iterate_heldStep_div idle,
      Div.iterate_step _ (MulDivTop.src_ne_zero _ divisor)]
    exact shownQuotient_eq op s.src1 s.src2 s.es.mulDiv.mul
  · have hidle := held.idle hw carries idle (selects_div op) hleave
    refine ⟨hidle, fun next rd' rj' rk' h => ?_, fun next rd' rj' rk' h => ?_⟩
    · exact starts hidle ((mulDivWord_encode rd' rj' rk').1 next) h (selects_mul next)
    · exact starts hidle ((mulDivWord_encode rd' rj' rk').2 next) h (selects_div next)

/-- `addi.w $r4, $r0, -7`, `addi.w $r5, $r0, 2`, `mod.w $r6, $r4, $r5` and `div.w $r7, $r4, $r5`. -/
def divRun : CoreRun :=
  .ofWords (fun n => if n = 3 then Isa.Inst.encode (.opImm .addiW 4 0 (-7))
    else if n = 4 then Isa.Inst.encode (.opImm .addiW 5 0 2)
    else if n = 5 then DivOp.modW.encode 6 4 5
    else if n = 6 then DivOp.divW.encode 7 4 5 else 0x02800000) 0 0

/-- `-7` modulo `2` is `-1`; the division behind it starts when the remainder has been taken. -/
theorem mulDivResult_div_neg_seven :
    (divRun.core 7).es.mulDiv.Idle ∧ (divRun.core 7).esBus.Carries (DivOp.modW.encode 6 4 5) ∧
      (divRun.core 40).mulDivResult = -1 ∧ (divRun.core 41).Starts false := by
  have hidle : (divRun.core 7).es.mulDiv.Idle := by decide +kernel
  have hcarries : (divRun.core 7).esBus.Carries (DivOp.modW.encode 6 4 5) :=
    ⟨by decide +kernel, by decide +kernel, by decide +kernel, by decide +kernel, by decide +kernel⟩
  have hheld : (divRun.core 7).Held (fun k => divRun.inp (7 + k)) 33 := by
    unfold Core.Held
    decide +kernel
  obtain ⟨hreq, hresult, hleave⟩ := Core.mulDivResult_div .modW 6 4 5 (divRun.core 7) hidle hcarries
    (by decide +kernel) (fun k => divRun.inp (7 + k)) 33 hheld
  refine ⟨hidle, hcarries, (hresult hreq).trans (by decide +kernel), ?_⟩
  exact (hleave (by decide +kernel)).2.2 .divW 7 4 5
    ⟨by decide +kernel, by decide +kernel, by decide +kernel, by decide +kernel, by decide +kernel⟩

end NeulaCpu.Rtl

import NeulaCpu.Pipeline.Operands
import NeulaCpu.Isa.Conformance
import NeulaCpu.Isa.MulDiv

/-!
# A multiplication or division in `exe_stage`

`mul_div_top` works on the instruction in `exe_stage` for several cycles, while the pipeline is
held. This module follows one instruction: how long it stays, what the operand lock does in the
meantime, and that the unit is idle again when the instruction is gone. What the multiplier and the
divider compute is left to `NeulaCpu.Execute.Multiply` and `NeulaCpu.Execute.Divide`.
-/

namespace NeulaCpu.Rtl

open Isa (MulOp DivOp format3R)

/-! ## The instruction -/

/-- The bus `r` carries the word `w`, as far as `mul_div_top` and its operands are concerned. -/
structure DsToEsBus.Carries (r : DsToEsBus) (w : Word) : Prop where
  mulDivOp : r.mulDivOp = Decoder.mulDivOp w
  mulDivSign : r.mulDivSign = Decoder.mulDivSign w
  src1IsPc : r.src1IsPc = Decoder.src1IsPc w
  src2IsImm : r.src2IsImm = Decoder.src2IsImm w
  src2Is4 : r.src2Is4 = Decoder.src2Is4 w

/-- What the decoder makes of a multiplication or division. -/
structure MulDivWord (w : Word) (op : MulDivOp) (sign : Bool) : Prop where
  mulDivOp : Decoder.mulDivOp w = op
  mulDivSign : Decoder.mulDivSign w = sign
  src1IsPc : Decoder.src1IsPc w = false
  src2IsImm : Decoder.src2IsImm w = false
  src2Is4 : Decoder.src2Is4 w = false

/-- `mul_div_op` of a multiplication. -/
def mulOpBits : MulOp → MulDivOp
  | .mulW => ⟨true, false, false, false⟩
  | .mulhW | .mulhWu => ⟨false, true, false, false⟩

/-- `mul_div_sign` of a multiplication. -/
def mulOpSign : MulOp → Bool
  | .mulW | .mulhW => true
  | .mulhWu => false

/-- `mul_div_op` of a division. -/
def divOpBits : DivOp → MulDivOp
  | .divW | .divWu => ⟨false, false, true, false⟩
  | .modW | .modWu => ⟨false, false, false, true⟩

/-- `mul_div_sign` of a division. -/
def divOpSign : DivOp → Bool
  | .divW | .modW => true
  | .divWu | .modWu => false

open Decoder in
theorem mulDivWord_encode (rd rj rk : BitVec 5) :
    (∀ op : MulOp, MulDivWord (op.encode rd rj rk) (mulOpBits op) (mulOpSign op)) ∧
      ∀ op : DivOp, MulDivWord (op.encode rd rj rk) (divOpBits op) (divOpSign op) := by
  constructor
  all_goals
    intro op
    cases op
  all_goals constructor
  all_goals
    simp only [MulOp.encode, DivOp.encode, op31_26_format3R, op25_22_format3R, op21_20_format3R,
      op19_15_format3R, op17, op10, op6, instMulW, instMulhW, instMulhWu, instDivW, instModW,
      instDivWu, instModWu, instSlliW, instSrliW, instSraiW, instAddiW, instSlti, instSltui,
      instAndi, instOri, instXori, instLdB, instLdH, instLdW, instLdBu, instLdHu, instStB, instStH,
      instStW, instLlW, instScW, instLu12iW, instPcaddi, instPcaddu12i, instJirl, instBl, mulDivOp,
      mulDivSign, src1IsPc, src2IsImm, src2Is4]
    rfl

/-! ## Signs and magnitudes -/

theorem MulDivTop.signFlag_eq (a b : Word) : MulDivTop.signFlag a b = (a.msb ^^ b.msb) := by
  rw [MulDivTop.signFlag, BitVec.msb_eq_getLsbD_last, BitVec.msb_eq_getLsbD_last]

theorem abs_eq (a : Word) : a.abs = if a.msb then -a else a := rfl

/-- A signed operation works on magnitudes. -/
theorem MulDivTop.src_true (a : Word) : MulDivTop.src true a = a.abs := by
  rw [MulDivTop.src, abs_eq, BitVec.msb_eq_getLsbD_last, Bool.true_and, a.neg_eq_not_add]
  rfl

theorem toNat_abs_le (a : Word) : a.abs.toNat ≤ 2 ^ 31 := by
  have hmsb := a.msb_eq_decide
  rw [abs_eq]
  split_ifs with h
  · rw [h, Bool.true_eq, decide_eq_true_eq] at hmsb
    rw [BitVec.toNat_neg]
    omega
  · rw [Bool.not_eq_true] at h
    rw [h, Bool.false_eq, decide_eq_false_iff_not] at hmsb
    omega

theorem toInt_eq_abs (a : Word) : a.toInt = if a.msb then -(a.abs.toNat : ℤ) else a.abs.toNat := by
  have hmsb := a.msb_eq_decide
  rw [BitVec.toInt_eq_msb_cond, abs_eq]
  split_ifs with h
  · rw [h, Bool.true_eq, decide_eq_true_eq] at hmsb
    rw [BitVec.toNat_neg]
    omega
  · rfl

/-- A sign bit in front of a 31-bit value. -/
theorem toNat_one_append (x : BitVec 31) : (1#1 ++ x : Word).toNat = 2 ^ 31 + x.toNat := by
  rw [BitVec.toNat_append, ← Nat.shiftLeft_add_eq_or_of_lt x.isLt]
  rfl

/-! ## The unit -/

/-- No operation is under way and the lock would take the next one. -/
structure MulDivTop.Idle (m : MulDivTop) : Prop where
  firstEnable : m.lock.firstEnable = true
  mulEnMusk : m.lock.mulEnMusk = true
  divEnMusk : m.lock.divEnMusk = true
  mul : m.mul.cnt = 0
  div : m.div.cnt = 0

namespace MulDivTop

instance (m : MulDivTop) : Decidable m.Idle :=
  decidable_of_iff (m.lock.firstEnable = true ∧ m.lock.mulEnMusk = true ∧ m.lock.divEnMusk = true ∧
      m.mul.cnt = 0 ∧ m.div.cnt = 0)
    ⟨fun ⟨h₁, h₂, h₃, h₄, h₅⟩ => ⟨h₁, h₂, h₃, h₄, h₅⟩, fun ⟨h₁, h₂, h₃, h₄, h₅⟩ =>
      ⟨h₁, h₂, h₃, h₄, h₅⟩⟩

theorem idle_reset : reset.Idle := ⟨rfl, rfl, rfl, rfl, rfl⟩

/-- The lock after it has taken a multiplication (`mul`) or a division with these operands. -/
def lockedWith (mul sign : Bool) (a b : Word) : MulDivLock :=
  ⟨false, !mul, mul, src sign a, src sign b, signFlag a b, a.getLsbD 31⟩

/-- One cycle in which the pipeline is held. -/
def heldStep (op : MulDivOp) (sign : Bool) (a b : Word) (m : MulDivTop) : MulDivTop :=
  m.step 0b111111#6 op sign a b

variable {m : MulDivTop} {op : MulDivOp} {sign : Bool} {a b : Word}

/-- A closed lock stays closed while the pipeline is held. -/
theorem lock_step_held {l : MulDivLock} (h : l.firstEnable = false) (a b : Word)
    (mulEn divEn stallreq f g : Bool) : l.step 0b111111#6 a b mulEn divEn stallreq f g = l := by
  simp [MulDivLock.step, h]

/-- A closed lock opens when its result is taken. -/
theorem lock_step_taken {l : MulDivLock} (h : l.firstEnable = false) {mulEn divEn : Bool}
    (hop : (mulEn || divEn) = true) {v : Move} (hv : v.advances = true) (f g : Bool) :
    l.step v.ctrl.stall a b mulEn divEn false f g = .reset := by
  cases v with
  | hold | flush => cases hv
  | bubble | go => simp [MulDivLock.step, h, hop, Move.ctrl]

/-- The operation goes to the multiplier (`mul`) or to the divider, and not to both. -/
structure Selects (op : MulDivOp) (mul : Bool) : Prop where
  mulEn : mulEn op = mul
  divEn : divEn op = !mul

variable {mul : Bool}

theorem stallreq_of_idle (hm : m.Idle) (hop : Selects op mul) : m.stallreq op = true := by
  simp only [stallreq, Mul.stallreq, Div.stallreq, mulEnLocked, divEnLocked, hop.mulEn, hop.divEn,
    hm.mulEnMusk, hm.divEnMusk]
  cases mul <;> simp

theorem heldStep_of_idle (hm : m.Idle) (hop : Selects op mul) :
    heldStep op sign a b m = ⟨lockedWith mul sign a b, m.mul.step mul (src sign a) (src sign b),
      m.div.step (!mul) (src sign a) (src sign b)⟩ := by
  simp only [heldStep, step, mulEnLocked, divEnLocked, MulDivLock.step, MulDivLock.aLocked,
    MulDivLock.bLocked, hop.mulEn, hop.divEn, hm.firstEnable, hm.mulEnMusk, hm.divEnMusk,
      lockedWith]
  cases mul <;> simp

/-- With the lock closed, neither unit is offered an operation and both see the locked operands. -/
theorem heldStep_lockedWith (hop : Selects op mul) (x : Mul) (y : Div) :
    heldStep op sign a b ⟨lockedWith mul sign a b, x, y⟩ = ⟨lockedWith mul sign a b,
      x.step false (src sign a) (src sign b), y.step false (src sign a) (src sign b)⟩ := by
  have hlock := lock_step_held (l := lockedWith mul sign a b) rfl
  simp only [heldStep, step, hlock, mulEnLocked, divEnLocked, hop.mulEn, hop.divEn]
  cases mul <;> simp [lockedWith, MulDivLock.aLocked, MulDivLock.bLocked]

theorem iterate_heldStep (hm : m.Idle) (hop : Selects op mul) (n : ℕ) :
    (heldStep op sign a b)^[n + 1] m = ⟨lockedWith mul sign a b,
      (fun x => x.step false (src sign a) (src sign b))^[n]
        (m.mul.step mul (src sign a) (src sign b)),
      (fun y => y.step false (src sign a) (src sign b))^[n]
        (m.div.step (!mul) (src sign a) (src sign b))⟩ := by
  induction n with
  | zero => exact heldStep_of_idle hm hop
  | succ n ih =>
    rw [Function.iterate_succ_apply', ih, heldStep_lockedWith hop, Function.iterate_succ_apply' _ n,
      Function.iterate_succ_apply' _ n]

/-- With the lock closed, the unit asks for a stall as long as a counter runs. -/
theorem stallreq_lockedWith (hop : Selects op mul) (x : Mul) (y : Div) :
    (MulDivTop.mk (lockedWith mul sign a b) x y).stallreq op =
      (!(x.cnt == 0) || !(y.cnt == 0)) := by
  simp only [stallreq, Mul.stallreq, Div.stallreq, mulEnLocked, divEnLocked, hop.mulEn, hop.divEn,
    lockedWith]
  cases mul <;> simp

/-- When the result is taken the unit becomes idle. -/
theorem idle_step_lockedWith (hop : Selects op mul) {x : Mul} {y : Div}
    (hs : (MulDivTop.mk (lockedWith mul sign a b) x y).stallreq op = false) {v : Move}
    (hv : v.advances = true) :
    ((MulDivTop.mk (lockedWith mul sign a b) x y).step v.ctrl.stall op sign a b).Idle := by
  obtain ⟨hmul, hdiv⟩ : x.stallreq (mulEnLocked ⟨lockedWith mul sign a b, x, y⟩ op) = false ∧
      y.stallreq (divEnLocked ⟨lockedWith mul sign a b, x, y⟩ op) = false := by
    simpa [stallreq] using hs
  have hcnt : x.cnt = 0 ∧ y.cnt = 0 := by
    rw [stallreq_lockedWith hop] at hs
    simpa using hs
  have hen : (mulEn op || divEn op) = true := by
    rw [hop.mulEn, hop.divEn]
    cases mul <;> rfl
  simp only [step, hs, lock_step_taken (l := lockedWith mul sign a b) rfl hen hv,
    Mul.step_of_not_stallreq hmul, Div.step_of_not_stallreq hdiv]
  exact ⟨rfl, rfl, rfl, hcnt.1, hcnt.2⟩

end MulDivTop

theorem selects_mul (op : MulOp) : MulDivTop.Selects (mulOpBits op) true := by
  cases op <;> exact ⟨rfl, rfl⟩

theorem selects_div (op : DivOp) : MulDivTop.Selects (divOpBits op) false := by
  cases op <;> exact ⟨rfl, rfl⟩

/-! ## While the pipeline is held -/

namespace Core

variable {s : Core} {inp : ℕ → CoreIn} {n : ℕ} {w : Word} {op : MulDivOp} {sign : Bool}

theorem Held.esBus_fwd (h : s.Held inp n) :
    (s.after inp n).esBus = s.esBus ∧ (s.after inp n).fwd = s.fwd := by
  induction n with
  | zero => exact ⟨rfl, rfl⟩
  | succ n ih =>
    obtain ⟨hbus, hfwd⟩ := ih h.mono
    rw [after_succ, step_esBus, step_fwd, h n (by omega)]
    exact ⟨hbus, hfwd⟩

/-- The two sources of an instruction that stays do not change. -/
theorem Held.src (h : s.Held inp n) :
    (s.after inp n).src1 = s.src1 ∧ (s.after inp n).src2 = s.src2 := by
  obtain ⟨hbus, hfwd⟩ := h.esBus_fwd
  have hbus' : (s.after inp n).es.dsToEsBusR = s.es.dsToEsBusR := hbus
  simp only [src1, src2, Es.src1, Es.src2, hbus', hfwd, and_self]

/-- The operands of a multiplication or division are the two sources. -/
theorem aluSrc_eq (hw : MulDivWord w op sign) (hs : s.esBus.Carries w) (x : Word) :
    Exe.aluSrc1 s.esBus x = x ∧ Exe.aluSrc2 s.esBus x = x := by
  simp [Exe.aluSrc1, Exe.aluSrc2, hs.src1IsPc, hs.src2IsImm, hs.src2Is4, hw.src1IsPc, hw.src2IsImm,
    hw.src2Is4]

/-- The unit sees the same operation and the same operands in every cycle of the stay. -/
theorem Held.mulDiv (h : s.Held inp n) (hw : MulDivWord w op sign) (hs : s.esBus.Carries w) :
    (s.after inp n).es.mulDiv = (MulDivTop.heldStep op sign s.src1 s.src2)^[n] s.es.mulDiv := by
  induction n with
  | zero => rfl
  | succ n ih =>
    obtain ⟨hbus, -⟩ := h.mono.esBus_fwd
    obtain ⟨h1, h2⟩ := h.mono.src
    rw [Function.iterate_succ_apply', ← ih h.mono, after_succ, step_mulDiv, h n (by omega), hbus,
      h1, h2, (aluSrc_eq hw hs _).1, (aluSrc_eq hw hs _).2, hs.mulDivOp, hs.mulDivSign, hw.mulDivOp,
      hw.mulDivSign]
    rfl

theorem Held.stallreqEs (h : s.Held inp n) (hw : MulDivWord w op sign) (hs : s.esBus.Carries w) :
    (s.after inp n).stallreqEs =
      ((MulDivTop.heldStep op sign s.src1 s.src2)^[n] s.es.mulDiv).stallreq op := by
  have hbus : (s.after inp n).es.dsToEsBusR = s.esBus := h.esBus_fwd.1
  rw [Core.stallreqEs, Es.stallreqEs, hbus, h.mulDiv hw hs, hs.mulDivOp, hw.mulDivOp]

/-- What `mul_div_top` shows in `exe_stage`. -/
def mulDivResult (s : Core) : Word := s.es.mulDivResult s.fwd

theorem Held.mulDivResult (h : s.Held inp n) (hw : MulDivWord w op sign) (hs : s.esBus.Carries w) :
    (s.after inp n).mulDivResult =
      ((MulDivTop.heldStep op sign s.src1 s.src2)^[n] s.es.mulDiv).mulDivResult
        op sign s.src1 s.src2 := by
  have hbus : (s.after inp n).es.dsToEsBusR = s.esBus := h.esBus_fwd.1
  have h1 : (s.after inp n).es.src1 (s.after inp n).fwd = s.src1 := h.src.1
  have h2 : (s.after inp n).es.src2 (s.after inp n).fwd = s.src2 := h.src.2
  rw [Core.mulDivResult, Es.mulDivResult, hbus, h1, h2, h.mulDiv hw hs, (aluSrc_eq hw hs _).1,
    (aluSrc_eq hw hs _).2, hs.mulDivOp, hs.mulDivSign, hw.mulDivOp, hw.mulDivSign]

/-- Once a multiplication or division has left `exe_stage`, by moving on or by a flush, the unit is
idle. -/
theorem Held.idle (h : s.Held inp n) (hw : MulDivWord w op sign) (hs : s.esBus.Carries w)
    (hm : s.es.mulDiv.Idle) {mul : Bool} (hop : MulDivTop.Selects op mul)
    (hleave : (s.after inp n).move (inp n) ≠ .hold) : (s.after inp (n + 1)).es.mulDiv.Idle := by
  rw [after_succ, step_mulDiv]
  by_cases hv : (s.after inp n).move (inp n) = .flush
  · rw [hv]
    exact MulDivTop.idle_reset
  have hadv : ((s.after inp n).move (inp n)).advances = true := by
    revert hv hleave
    cases (s.after inp n).move (inp n) <;> simp [Move.advances]
  -- Only an instruction whose result is there can move on, so the lock is closed by now.
  have hreq : (s.after inp n).stallreqEs = false := by
    revert hadv
    unfold Core.move
    split_ifs <;> simp_all [Move.advances]
  rw [h.stallreqEs hw hs] at hreq
  obtain ⟨k, rfl⟩ : ∃ k, n = k + 1 := by
    cases n with
    | zero =>
      rw [Function.iterate_zero_apply, MulDivTop.stallreq_of_idle hm hop] at hreq
      cases hreq
    | succ k => exact ⟨k, rfl⟩
  obtain ⟨hbus, -⟩ := h.esBus_fwd
  obtain ⟨h1, h2⟩ := h.src
  rw [MulDivTop.iterate_heldStep hm hop] at hreq
  have hidle := MulDivTop.idle_step_lockedWith hop hreq hadv
  rw [hbus, h1, h2, (aluSrc_eq hw hs _).1, (aluSrc_eq hw hs _).2, hs.mulDivOp, hs.mulDivSign,
    hw.mulDivOp, hw.mulDivSign, h.mulDiv hw hs, MulDivTop.iterate_heldStep hm hop]
  split
  · exact absurd ‹_› hv
  · exact hidle

end Core

end NeulaCpu.Rtl

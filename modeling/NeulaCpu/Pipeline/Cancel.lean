import NeulaCpu.Pipeline.Control

/-!
# The shadow of an exception

Memory accesses and branches act in `exe_stage` and `dt_stage`, before an exception commits in
`mem2_stage`. `csr_cancel` silences the excepting instruction itself and `csr_cancel_reg` everything
behind it until the flush. The invariant here is what the other pipeline results need of that: an
exception between `dt_stage` and `mem2_stage` keeps `csr_cancel_reg` set, and a memory request in
`dt_stage` has no exception at or in front of it.
-/

namespace NeulaCpu.Rtl

/-! ## What a silenced instruction shows -/

namespace Exe

variable {r : DsToEsBus} {cancel : Bool} {src1 src2 : Word}

theorem csrCancel_eq (r : DsToEsBus) (src1 : Word) : csrCancel r src1 = (csrVec r src1).any := by
  unfold csrCancel
  cases h : r.csrVec.excpAdef <;> simp [CsrVec.any, csrVec, h]

/-- A memory request or a redirect leaves `exe_stage` only outside every shadow. -/
theorem not_cancel_of_en (h : (dataSram r cancel src1 src2).en = true) :
    (csrVec r src1).any = false ∧ cancel = false := by
  rw [← csrCancel_eq]
  revert h
  simp only [dataSram]
  cases csrCancel r src1 <;> cases cancel <;> simp

theorem not_cancel_of_brTaken (h : (brBus r cancel src1 src2).brTaken = true) :
    (csrVec r src1).any = false ∧ cancel = false := by
  rw [← csrCancel_eq]
  revert h
  simp only [brBus]
  cases csrCancel r src1 <;> cases cancel <;> simp

end Exe

/-! ## The invariant -/

namespace Core

/-- `csr_cancel_reg` covers every exception past `exe_stage`; a request in `dt_stage` is not in the
shadow of one. -/
structure CancelInv (s : Core) : Prop where
  dt : s.dt.toMs.csrVec.any = true → s.es.csrCancelReg = true
  ms1 : s.ms1.csrVec.any = true → s.es.csrCancelReg = true
  ms2 : s.ms2Bus.csrVec.any = true → s.es.csrCancelReg = true
  en_dt : s.dt.dataSram.en = true → s.dt.toMs.csrVec.any = false
  en_ms1 : s.dt.dataSram.en = true → s.ms1.csrVec.any = false
  en_ms2 : s.dt.dataSram.en = true → s.ms2Bus.csrVec.any = false

theorem esToDtsBus_csrVec (s : Core) : s.esToDtsBus.toMs.csrVec = Exe.csrVec s.esBus s.src1 := rfl

/-- What stands in `exe_stage` does not change while the pipeline is held. -/
theorem csrVec_of_hold {s : Core} {i : CoreIn} (hm : s.move i = .hold) :
    (s.step i).esToDtsBus.toMs.csrVec = s.esToDtsBus.toMs.csrVec := by
  have hb : (s.step i).esBus = s.esBus := by rw [step_esBus, hm]
  have hf : (s.step i).fwd = s.fwd := by rw [step_fwd, hm]
  have hsrc : (s.step i).src1 = s.src1 := by
    show (if (s.step i).fwd.src1IsForward then _ else (s.step i).esBus.rjValue) = _
    rw [hb, hf]
    rfl
  rw [esToDtsBus_csrVec, esToDtsBus_csrVec, hb, hsrc]

theorem csrCancel_eq (s : Core) : s.es.csrCancel s.fwd = s.esToDtsBus.toMs.csrVec.any :=
  Exe.csrCancel_eq _ _

theorem not_cancel_of_en {s : Core} (h : s.esToDtsBus.dataSram.en = true) :
    s.esToDtsBus.toMs.csrVec.any = false ∧ s.es.csrCancelReg = false :=
  Exe.not_cancel_of_en h

theorem not_cancel_of_brTaken {s : Core} (h : s.brBus.brTaken = true) :
    s.esToDtsBus.toMs.csrVec.any = false ∧ s.es.csrCancelReg = false :=
  Exe.not_cancel_of_brTaken h

theorem cancelInv_reset (a b c : Word) : (reset a b c).CancelInv := by
  constructor <;> simp [ms2Bus]

theorem CancelInv.step {s : Core} (h : s.CancelInv) (i : CoreIn) : (s.step i).CancelInv := by
  -- An exception behind the ones already covered sets `csr_cancel_reg` as it leaves `exe_stage`.
  have clear {b : Bool} (hb : b = true → s.es.csrCancelReg = true)
      (hr : s.es.csrCancelReg = false) : b = false := by
    cases b <;> simp_all
  cases hm : s.move i with
  | hold =>
    constructor <;>
      simp only [step_dt, step_ms1, step_ms2Bus, step_csrCancelReg, hm, Bool.or_eq_true]
    · exact fun hx => Or.inr (h.dt hx)
    · exact fun hx => Or.inr (h.ms1 hx)
    · exact fun hx => Or.inr (h.ms2 hx)
    · exact h.en_dt
    · exact h.en_ms1
    · exact h.en_ms2
  | flush =>
    constructor <;> simp [step_dt, step_ms1, step_ms2Bus, hm]
  | bubble | go =>
    constructor <;>
      simp only [step_dt, step_ms1, step_ms2Bus, step_csrCancelReg, hm, Bool.or_eq_true]
    · exact fun hx => Or.inl (by rw [csrCancel_eq, hx])
    · exact fun hx => Or.inr (h.dt hx)
    · exact fun hx => Or.inr (h.ms1 hx)
    · exact fun he => (not_cancel_of_en he).1
    · exact fun he => clear h.dt (not_cancel_of_en he).2
    · exact fun he => clear h.ms1 (not_cancel_of_en he).2

end Core

theorem CoreRun.cancelInv (r : CoreRun) (n : ℕ) : (r.core n).CancelInv :=
  Clocked.invariant (A := fun _ _ => True) (Core.cancelInv_reset _ _ _)
    (fun _ i h _ => h.step i) n (fun _ _ => trivial)

end NeulaCpu.Rtl

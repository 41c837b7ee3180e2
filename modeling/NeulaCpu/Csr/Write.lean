import NeulaCpu.Csr.Cycle
import NeulaCpu.Pipeline.Control

/-!
# CSR writes under stalls

`csrwr` and `csrxchg` do their work in `mem2_stage`. `csr` does not look at the stall vector: while
the memory side stalls nothing is written, but while the multiplier or divider holds the pipeline
the write is repeated in every cycle. Repeating it is harmless, also for `csrxchg`, whose merged
value is the same in every cycle, and the value for `rd` comes from the buffer that the first held
cycle filled.
-/

namespace NeulaCpu.Rtl

open BitField (splice blend getLsbD_blend)

/-! ## Writing twice -/

namespace Csr

/-- The two states agree in all registers and in the timer enable. -/
def AgreeRegs (s t : Csr) : Prop := (∀ n, s.read n = t.read n) ∧ s.timerEn = t.timerEn

variable {s t u : Csr} {n : CsrName} {w mask value : Word}

theorem AgreeRegs.refl (s : Csr) : AgreeRegs s s := ⟨fun _ => rfl, rfl⟩

theorem AgreeRegs.trans (h : AgreeRegs s t) (h' : AgreeRegs t u) : AgreeRegs s u :=
  ⟨fun n => (h.1 n).trans (h'.1 n), h.2.trans h'.2⟩

/-- A write depends on the registers only. -/
theorem AgreeRegs.write (h : AgreeRegs s t) (n : CsrName) (w : Word) :
    AgreeRegs (s.write n w) (t.write n w) := by
  refine ⟨fun n' => ?_, ?_⟩
  · by_cases hn : n' = n
    · subst hn
      rw [read_write_self, read_write_self, h.1]
    · have hestat : s.estat = t.estat := h.1 .estat
      rw [read_write_of_ne _ hn, read_write_of_ne _ hn, hestat, h.1]
  · rw [timerEn_write, timerEn_write, h.2]

theorem blend_idem (x m v : Word) : blend (blend x m v) m v = blend x m v := by
  rw [BitField.blend_blend, BitVec.or_self]

theorem write_write (s : Csr) (n : CsrName) (w : Word) :
    AgreeRegs ((s.write n w).write n w) (s.write n w) := by
  refine ⟨fun n' => ?_, ?_⟩
  · by_cases hn : n' = n
    · subst hn
      rw [read_write_self, read_write_self, blend_idem]
    · rw [read_write_of_ne _ hn, read_write_of_ne _ hn]
      split_ifs with h1 h2
      · rfl
      · obtain ⟨rfl, rfl, hw⟩ := h2
        have hestat : (s.write .ticlr w).estat = splice s.estat 11 0#1 := by simp [Csr.write, hw]
        rw [hestat, BitField.splice_splice_self]
      · rfl
  · rw [timerEn_write, timerEn_write]
    split_ifs <;> rfl

/-- The value that `csrxchg` merges is not changed by the write itself. -/
theorem blend_read_write (s : Csr) (n : CsrName) (mask value : Word) :
    blend ((s.write n (blend (s.read n) mask value)).read n) mask value =
      blend (s.read n) mask value := by
  rw [read_write_self]
  apply BitVec.eq_of_getLsbD_eq
  intro j hj
  rw [getLsbD_blend _ _ _ hj, getLsbD_blend _ _ _ hj, getLsbD_blend _ _ _ hj]
  cases mask.getLsbD j <;> simp

/-! ## What a CSR instruction does -/

/-- `t` is `s` after a CSR instruction that writes the bits of `value` under `mask` to register `n`:
the writable bits under the mask are written, and apart from the side effects of `TCFG` and `TICLR`
nothing else changes. The side effects are those of the whole value that the register is given. -/
structure Written (s t : Csr) (n : CsrName) (mask value : Word) : Prop where
  target : ∀ j < 32, (t.read n).getLsbD j =
    if n.writable.getLsbD j && mask.getLsbD j then value.getLsbD j else (s.read n).getLsbD j
  others : ∀ n' ≠ n, t.read n' =
    if n = .tcfg ∧ n' = .tval then initVal (blend (s.read n) mask value)
    else if n = .ticlr ∧ n' = .estat ∧ (blend (s.read n) mask value).getLsbD 0 = true then
      splice s.estat 11 0#1
    else s.read n'
  timerEn : t.timerEn =
    if n = .tcfg then (blend (s.read n) mask value).getLsbD 0 else s.timerEn

theorem written_of_agreeRegs (h : AgreeRegs t (s.write n (blend (s.read n) mask value))) :
    Written s t n mask value where
  target j hj := by
    rw [h.1, read_write_self, getLsbD_blend _ _ _ hj, getLsbD_blend _ _ _ hj]
    cases n.writable.getLsbD j <;> simp
  others n' hn := by rw [h.1, read_write_of_ne _ hn]
  timerEn := by rw [h.2, timerEn_write]

end Csr

/-! ## The instruction -/

/-- The bus carries a `csrwr` (or a `csrxchg`, if `xchg`) of register `n` that raises no
exception. -/
structure DtToMsBus.WritesCsr (m : DtToMsBus) (n : CsrName) (xchg : Bool) : Prop where
  csrVec : m.csrVec.any = false
  loadOp : m.loadOp.any = false
  csrOp : m.csrBus.csrOp =
    if xchg then { CsrOp.zero with instCsrxchg := true } else { CsrOp.zero with instCsrwr := true }
  csrWe : m.csrBus.csrWe = true
  csrWdataSel : m.csrBus.csrWdataSel = xchg
  csrAddr : m.csrBus.csrAddr = n.addr

/-- The bits that the instruction writes. -/
def DtToMsBus.csrMask (m : DtToMsBus) : Word :=
  if m.csrBus.csrWdataSel then m.src1 else BitVec.allOnes 32

section Instruction

variable {m : DtToMsBus} {n : CsrName} {xchg : Bool}

theorem DtToMsBus.WritesCsr.csrRdata (h : m.WritesCsr n xchg) (s : Csr) :
    s.csrRdata m = s.read n := by
  rw [Csr.csrRdata, h.csrOp, h.csrAddr, CsrName.ofAddr_addr]
  cases xchg <;> rfl

theorem DtToMsBus.WritesCsr.csrWdataTemp (h : m.WritesCsr n xchg) (s : Csr) :
    s.csrWdataTemp m = blend (s.read n) m.csrMask m.csrBus.csrWdata := by
  rw [Csr.csrWdataTemp, csrMask, h.csrRdata s]
  cases m.csrBus.csrWdataSel with
  | true => rfl
  | false => exact (BitField.blend_allOnes _ _).symm

theorem DtToMsBus.WritesCsr.cycle (h : m.WritesCsr n xchg) (stallreqAxi : Bool)
    (extInt : BitVec 8) : (CsrIn.mk m stallreqAxi extInt).cycle = if stallreqAxi then .stalled
      else .write n := by
  have he : Csr.exceptEn m = false := h.csrVec
  cases stallreqAxi <;> simp [CsrIn.cycle, he, h.csrWe, h.csrAddr, CsrName.ofAddr_addr]

/-- A cycle of the instruction is frozen or writes. -/
theorem DtToMsBus.WritesCsr.step (h : m.WritesCsr n xchg) (s : Csr) (stallreqAxi : Bool)
    (extInt : BitVec 8) : Csr.AgreeRegs (s.step m stallreqAxi extInt)
      (if stallreqAxi then s else s.write n (blend (s.read n) m.csrMask m.csrBus.csrWdata)) := by
  have hupdate := s.update_eq ⟨m, stallreqAxi, extInt⟩
  rw [h.cycle] at hupdate
  have hsame : Csr.AgreeRegs (s.step m stallreqAxi extInt) (s.update m stallreqAxi extInt) :=
    ⟨fun n' => by cases n' <;> rfl, rfl⟩
  rw [← h.csrWdataTemp]
  cases stallreqAxi with
  | true => exact hsame
  | false =>
    simp only [Bool.false_eq_true, if_false] at hupdate ⊢
    rw [← hupdate]
    exact hsame

end Instruction

/-! ## The stay in `mem2_stage` -/

namespace Core

/-- The first held cycle saves the value read, and the later ones show what it saved. -/
theorem step_csrResult_of_hold {s : Core} {i : CoreIn} (h : s.move i = .hold) :
    (s.step i).ms2.csrResult = s.ms2.csrResult := by
  have hctrl : s.ctrl i = ⟨false, 0b111111#6⟩ := by rw [ctrl_eq, h]; rfl
  simp only [step, hctrl, Ms2.csrResult, Ms2.step, Ms2.busStep]
  cases hf : s.ms2.stallFlag <;> simp [hf]

variable {n : CsrName} {xchg : Bool}

/-- What holds in every cycle that the CSR instruction of `s` spends in `mem2_stage`. -/
structure WaitsWithCsr (s : Core) (n : CsrName) (t : Core) : Prop where
  bus : t.ms2Bus = s.ms2Bus
  result : t.ms2.csrResult = s.ms2.csr.read n
  regs : Csr.AgreeRegs t.ms2.csr s.ms2.csr ∨
    Csr.AgreeRegs t.ms2.csr
      (s.ms2.csr.write n (blend (s.ms2.csr.read n) s.ms2Bus.csrMask s.ms2Bus.csrBus.csrWdata))

/-- The registers after a cycle in which the instruction writes, be it for the first time or
again. -/
theorem WaitsWithCsr.regs_write {s t : Core} (h : s.WaitsWithCsr n t)
    (inst : s.ms2Bus.WritesCsr n xchg) (extInt : BitVec 8) :
    Csr.AgreeRegs (t.ms2.csr.step t.ms2Bus false extInt)
      (s.ms2.csr.write n (blend (s.ms2.csr.read n) s.ms2Bus.csrMask s.ms2Bus.csrBus.csrWdata)) := by
  rw [h.bus]
  have hstep := inst.step t.ms2.csr false extInt
  rw [if_neg Bool.false_ne_true] at hstep
  refine hstep.trans ?_
  rcases h.regs with hsame | hsame
  · rw [hsame.1]
    exact hsame.write n _
  · rw [hsame.1, Csr.blend_read_write]
    exact (hsame.write n _).trans (Csr.write_write _ n _)

theorem WaitsWithCsr.step {s t : Core} (h : s.WaitsWithCsr n t) (inst : s.ms2Bus.WritesCsr n xchg)
    {i : CoreIn} (hi : t.move i = .hold) : s.WaitsWithCsr n (t.step i) where
  bus := by
    rw [step_ms2Bus, hi]
    exact h.bus
  result := (step_csrResult_of_hold hi).trans h.result
  regs := by
    rw [step_csr]
    cases hstall : i.stallreqCache with
    | false => exact Or.inr (h.regs_write inst i.extInt)
    | true =>
      have hstep := inst.step t.ms2.csr true i.extInt
      rw [← h.bus] at hstep
      exact h.regs.imp hstep.trans hstep.trans

theorem waitsWithCsr_held {s : Core} (inst : s.ms2Bus.WritesCsr n xchg)
    (entered : s.ms2.stallFlag = false) {inp : ℕ → CoreIn} {k : ℕ} (held : s.Held inp k) :
    s.WaitsWithCsr n (s.after inp k) := by
  induction k with
  | zero =>
    refine ⟨rfl, ?_, Or.inl (Csr.AgreeRegs.refl _)⟩
    show s.ms2.csrResult = _
    rw [Ms2.csrResult, entered]
    exact inst.csrRdata s.ms2.csr
  | succ k ih => exact (ih held.mono).step inst (held k (by omega))

/-- `csrwr` or `csrxchg` of register `n`, from the cycle in which it enters `mem2_stage` to the
clock edge at which it leaves, with any number of held cycles in between. What goes to `rd` is the
value of the register from before, and the registers are changed as by a single write. -/
theorem csr_write_under_stalls (s : Core) (n : CsrName) (xchg : Bool)
    (inst : s.ms2Bus.WritesCsr n xchg) (entered : s.ms2.stallFlag = false) (inp : ℕ → CoreIn)
    (k : ℕ) (held : s.Held inp k) (leaves : ((s.after inp k).move (inp k)).advances = true) :
    (s.after inp (k + 1)).ws =
        ⟨s.ms2Bus.regWe, s.ms2Bus.dest, s.ms2.csr.read n, s.ms2Bus.esPc, s.ms2Bus.inst⟩ ∧
      Csr.Written s.ms2.csr (s.after inp (k + 1)).ms2.csr n
        (if xchg then s.ms2Bus.src1 else BitVec.allOnes 32) s.ms2Bus.csrBus.csrWdata := by
  have hwaits := waitsWithCsr_held inst entered held
  have hbus : (s.after inp k).ms2.ms1ToMs2BusR = s.ms2Bus := hwaits.bus
  have hresult : (s.after inp k).ms2.msFinalResult = s.ms2.csr.read n := by
    have hop : s.ms2Bus.csrBus.csrOp.any = true := by
      rw [inst.csrOp]
      cases xchg <;> rfl
    simp only [Ms2.msFinalResult, hbus, inst.loadOp, hop, Bool.false_eq_true, if_false, if_true]
    exact hwaits.result
  constructor
  · have hws : (s.after inp (k + 1)).ws = (s.after inp k).ms2.ms2ToWsBus := by
      rw [after_succ, step_ws]
      revert leaves
      cases (s.after inp k).move (inp k) <;> simp [Move.advances]
    rw [hws, Ms2.ms2ToWsBus, hresult, hbus]
  · have hstall := (of_advances leaves).1
    have hmask : s.ms2Bus.csrMask = if xchg then s.ms2Bus.src1 else BitVec.allOnes 32 := by
      rw [DtToMsBus.csrMask, inst.csrWdataSel]
    have hregs := hwaits.regs_write inst (inp k).extInt
    rw [← hmask]
    apply Csr.written_of_agreeRegs
    rw [after_succ, step_csr, hstall]
    exact hregs

end Core

/-- `addi.w $r4, $r0, 5`, `csrwr $r4, TCFG`, and three instructions later `mul.w $r5, $r6, $r6`,
which holds the pipeline while the write is in `mem2_stage`. -/
def csrThenMul : CoreRun :=
  .ofWords (fun n => if n = 3 then 0x02801404 else if n = 4 then 0x04010424
    else if n = 7 then 0x001c18c5 else 0x02800000) 0 0

/-- Three held cycles and four writes later, `TCFG` is 5 and `$r4` gets the reset value. -/
theorem csr_write_under_stalls_csrThenMul :
    (csrThenMul.core 9).ms2Bus.WritesCsr .tcfg false ∧
    (csrThenMul.core 13).ws.dest = 4 ∧ (csrThenMul.core 13).ws.msFinalResult = 0xfffffffe ∧
    Csr.Written (csrThenMul.core 9).ms2.csr (csrThenMul.core 13).ms2.csr .tcfg
      (BitVec.allOnes 32) 5 := by
  have hinst : (csrThenMul.core 9).ms2Bus.WritesCsr .tcfg false :=
    ⟨by decide +kernel, by decide +kernel, by decide +kernel, by decide +kernel, by decide +kernel,
      by decide +kernel⟩
  have hheld : (csrThenMul.core 9).Held (fun k => csrThenMul.inp (9 + k)) 3 := by
    unfold Core.Held
    decide +kernel
  obtain ⟨hws, hwritten⟩ := Core.csr_write_under_stalls (csrThenMul.core 9) .tcfg false hinst
    (by decide +kernel) (fun k => csrThenMul.inp (9 + k)) 3 hheld (by decide +kernel)
  have hvalue : (csrThenMul.core 9).ms2Bus.csrBus.csrWdata = 5 := by decide +kernel
  rw [hvalue] at hwritten
  rw [csrThenMul.core_add 9 4, hws]
  exact ⟨hinst, by decide +kernel, by decide +kernel, hwritten⟩

end NeulaCpu.Rtl

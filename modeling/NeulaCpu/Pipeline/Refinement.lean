import NeulaCpu.Isa.Machine
import NeulaCpu.Pipeline.ControlFlow

/-!
# The core implements the architecture

The core runs beside the machine, on any schedule of stalls. The machine executes an instruction
when it leaves `exe_stage`; each stage behind belongs to the state that the machine had before the
instruction there. A load has its result only in `mem2_stage`, so the results of the instructions
under way are given in advance by `res`, and the invariant says that `mem2_stage` will come to them:
the word is in the data memory, then on its way or saved in the buffer of `mem2_stage`, then in its
register.
-/

namespace NeulaCpu.Rtl

open Isa (Inst State)

/-! ## The instruction in `exe_stage` -/

/-- With the word `d` from memory, `mem2_stage` makes `w` of the instruction. -/
structure DtToMsBus.Answered (m : DtToMsBus) (d w : Word) : Prop where
  csrOp : m.csrBus.csrOp.any = false
  result : (if m.loadOp.any then msResult m.loadOp m.esResult d else m.esResult) = w

theorem Core.msFinalResult_of_answered {s : Core} {w : Word}
    (h : s.ms2Bus.Answered s.ms2.dataSramRdataR w) : s.ms2.msFinalResult = w := by
  obtain ⟨hcsr, rfl⟩ := h
  simp only [Core.ms2Bus] at hcsr ⊢
  simp only [Ms2.msFinalResult, hcsr, Bool.false_eq_true, if_false]
  rfl

/-- `exe_stage` executes the instruction `i` in the state `σ` of the machine. -/
structure Core.Executes (s : Core) (i : Inst) (σ : State) : Prop where
  decodes : s.esBus.Decodes i
  pc : s.esBus.dsPc = σ.pc
  src1 : s.src1 = σ.reg s.esBus.rj
  src2 : s.src2 = σ.reg s.esBus.rkd

/-- What `mem2_stage` will make of the instruction in `exe_stage`. -/
def Core.expected (s : Core) (i : Inst) (σ : State) : Word :=
  if s.esBus.loadOp.any then i.loaded σ else s.issue.toMs.esResult

/-- What leaves `exe_stage` takes the machine from `σ` to `σ'`, with the result `w` in
`mem2_stage`. -/
structure Core.Leaves (s : Core) (σ σ' : State) (w : Word) : Prop where
  reg : ∀ g, readReg g = σ.reg → readReg ((s.issue.write w g).apply g) = σ'.reg
  mem : ∀ m, bytesOf m = σ.mem → bytesOf (access m s.esToDtsBus.dataSram) = σ'.mem
  answered : ∀ m, bytesOf m = σ.mem →
    s.esToDtsBus.toMs.Answered (m (wordIndex s.esToDtsBus.dataSram.addr)) w
  reads : s.esToDtsBus.toMs.loadOp.any = true →
    s.esToDtsBus.dataSram.en = true ∧ s.esToDtsBus.dataSram.we = 0

section

variable {s : Core} {i : Inst} {σ : State} (hu : s.Unexceptional) (calm : s.es.csrCancelReg = false)

include hu calm

theorem Core.dataSram_of_calm :
    s.esToDtsBus.dataSram =
      ⟨Lsu.dataSramEn s.esBus.loadOp s.esBus.storeOp,
        if Lsu.dataSramEn s.esBus.loadOp s.esBus.storeOp then
      Lsu.dataSramWe s.esBus.storeOp (Lsu.addr s.src1 s.esBus.imm) else 0,
    Lsu.addr s.src1 s.esBus.imm, Lsu.dataSramWdata s.esBus.storeOp s.src2⟩ := by
  have hc : Exe.csrCancel s.esBus s.src1 = false := (Exe.csrCancel_eq _ _).trans hu
  show Exe.dataSram s.esBus s.es.csrCancelReg s.src1 s.src2 = _
  simp only [Exe.dataSram, hc, calm, Bool.or_self, Bool.false_eq_true, if_false]

namespace Core.Executes

variable (h : s.Executes i σ)

include h

omit calm in
theorem aligned : Exe.excpAle s.esBus (σ.reg s.esBus.rj) = false := by
  have hany : (Exe.csrVec s.esBus s.src1).any = false := hu
  rw [h.src1] at hany
  simp only [CsrVec.any, Exe.csrVec, Bool.or_eq_false_iff] at hany
  exact hany.1.1.1.1.1.1.1

omit calm in
theorem nextPc : (Flow.leaving s).nextPc = (i.exec σ).pc := by
  rw [h.decodes.exec_pc (h.aligned hu) h.pc, ← h.src1, ← h.src2]
  rfl

theorem leaves : s.Leaves σ (i.exec σ) (s.expected i σ) where
  reg g hg := h.decodes.exec_reg (h.aligned hu) h.pc (ρ := s.issue) rfl (fun hl => if_pos hl) hg
  mem m hm := by
    rw [Core.dataSram_of_calm hu calm, h.src1, h.src2]
    exact h.decodes.exec_mem (h.aligned hu) hm
  answered m hm := by
    have hcsr : s.esToDtsBus.toMs.csrBus.csrOp = .zero := h.decodes.csrOp
    refine ⟨by rw [hcsr]; rfl, ?_⟩
    show (if s.esBus.loadOp.any then msResult s.esBus.loadOp s.issue.toMs.esResult _
      else s.issue.toMs.esResult) = _
    split_ifs with hl
    · have haddr : s.issue.toMs.esResult = Lsu.addr (σ.reg s.esBus.rj) s.esBus.imm := by
        show Exe.esResult s.esBus s.src1 s.src2 _ = _
        simp only [Exe.esResult, h.decodes.mulDivOp, MulDivOp.any_zero, hl, Bool.true_or,
          Bool.false_eq_true, if_false, if_true, h.src1]
      rw [Core.dataSram_of_calm hu calm, haddr, h.src1, Core.expected, if_pos hl]
      exact h.decodes.loaded_eq (h.aligned hu) hm hl
    · exact (if_neg hl).symm
  reads hl := by
    have hl' : s.esBus.loadOp.any = true := hl
    rw [Core.dataSram_of_calm hu calm, h.decodes.storeOp_of_load hl', Lsu.dataSramEn, hl',
      Bool.or_true]
    exact ⟨rfl, rfl⟩

end Core.Executes

end

/-- A bubble leaves the machine where it is. -/
theorem Core.leaves_of_quiet {s : Core} (h : s.esBus.Quiet) (hcsr : s.esBus.csrOp.any = false)
    (σ : State) : s.Leaves σ σ s.issue.toMs.esResult where
  reg g hg := by
    have hwe : s.issue.bus.regWe = false := h.regWe
    rw [← hg]
    funext a
    simp [readReg, Bypass.Write.apply, Issue.write, hwe]
  mem m hm := by
    rw [access, (Core.esToDtsBus_quiet h).2]
    exact hm
  answered m _ := by
    refine ⟨hcsr, ?_⟩
    show (if s.esBus.loadOp.any then _ else _) = _
    rw [h.loadOp]
    rfl
  reads hl := by
    have hl' : s.esBus.loadOp.any = true := hl
    rw [h.loadOp] at hl'
    cases hl'

/-! ## The pipeline -/

/-- The number of instructions in front of `mem2_stage`, `mem1_stage`, `dt_stage` and `exe_stage`:
the stages are counted from the end. -/
def Flow.inFront (g : Flow) : ℕ → ℕ
  | 0 =>
    g.handed.length - g.tags.dt.isSome.toNat - g.tags.ms1.isSome.toNat - g.tags.ms2.isSome.toNat
  | 1 => g.handed.length - g.tags.dt.isSome.toNat - g.tags.ms1.isSome.toNat
  | 2 => g.handed.length - g.tags.dt.isSome.toNat
  | _ => g.handed.length

section

variable {g : Flow} {s : Core} {i : CoreIn}

theorem Flow.inFront_of_hold (h : s.move i = .hold) : (g.observe s i).inFront = g.inFront := by
  funext j
  rcases j with _ | _ | _ | j <;> simp [inFront, observe, h, Tags.step, Move.advances]

theorem Flow.handed_length_of_advances (h : (s.move i).advances = true) :
    (g.observe s i).handed.length = g.handed.length + g.tags.es.isSome.toNat := by
  simp only [observe, h, if_true, handOver]
  cases g.tags.es <;> simp

theorem Flow.inFront_of_advances (h : (s.move i).advances = true) {j : ℕ} (hj : j < 3) :
    (g.observe s i).inFront j = g.inFront (j + 1) := by
  obtain ⟨hdt, hms1, hms2⟩ := g.tags.step_of_advances (s.tagIn ()) h
  have hlen := Flow.handed_length_of_advances (g := g) h
  interval_cases j
  all_goals
    simp only [inFront, hlen]
    simp only [observe, hdt, hms1, hms2]
    omega

end

theorem Move.eq_of_advances {m : Move} (h : m.advances = true) : m = .bubble ∨ m = .go := by
  cases m with
  | hold | flush => cases h
  | bubble | go => simp

theorem Core.step_of_advances {s : Core} {i : CoreIn} (h : (s.move i).advances = true) :
    (s.step i).dt = s.esToDtsBus ∧ (s.step i).ms1 = s.dt.toMs ∧ (s.step i).ms2Bus = s.ms1 ∧
    (s.step i).ms2.stallFlag = false ∧ (s.step i).ms2.dataSramRdataR =
      if s.ms2.stallFlag then s.ms2.dataSramRdataBuffer else i.dataSramRdata := by
  rw [step_dt, step_ms1, step_ms2Bus, step_ms2_stallFlag, step_ms2_dataSramRdataR]
  rcases Move.eq_of_advances h with hm | hm <;> rw [hm] <;> exact ⟨rfl, rfl, rfl, rfl, rfl⟩

/-- The machine and the core. The state before instruction `k` is `σ k`; `res` is what the
instructions under way will have as their results, `m` the data memory, and `next` the word that it
shows in this cycle. -/
structure Sim (σ : ℕ → State) (res : ℕ → Word) (g : OrderLog) (f : Flow) (m : BitVec 30 → Word)
    (s : Core) (next : Word) : Prop where
  operand : OperandInv res g s
  agrees : Agrees res g.retired
  regs : ∀ j ≤ 3, readReg (regsAfter g.issued res (g.retired.length + j)) = (σ (f.inFront j)).reg
  path : f.handed.map Handed.pc = (List.range f.handed.length).map fun k => (σ k).pc
  pc : nextPc f.handed = (σ f.handed.length).pc
  mem : bytesOf m = (σ (f.inFront 2)).mem
  access : bytesOf (access m s.dt.dataSram) = (σ f.handed.length).mem
  reads : s.dt.toMs.loadOp.any = true → s.dt.dataSram.en = true ∧ s.dt.dataSram.we = 0
  dt : s.dt.toMs.Answered (m (wordIndex s.dt.dataSram.addr)) (res (g.retired.length + 2))
  ms1 : s.ms1.Answered (if s.ms2.stallFlag then s.ms2.dataSramRdataBuffer else next)
    (res (g.retired.length + 1))
  ms2 : s.ms2Bus.Answered s.ms2.dataSramRdataR (res g.retired.length)
  es : f.tags.es.isSome = true → ∃ (d : Id) (plv : BitVec 2) (int : Bool) (gr : BitVec 5 → Word),
    d.pcValid = true ∧ s.esBus = d.dsToEsBus plv int gr
  bubble : f.tags.es = none → s.esBus.csrOp.any = false

theorem encode_ne_zero (i : Inst) : i.encode ≠ 0 := by
  intro h
  have hvec := (decodesTo_encode i).csrVec 0
  rw [h] at hvec
  exact absurd hvec (by decide)

theorem Agrees.append {res : ℕ → Word} {l : List Word} {w : Word} (h : Agrees res l)
    (hw : res l.length = w) : Agrees res (l ++ [w]) := by
  intro j x hj
  rw [List.getElem?_append, List.getElem?_singleton] at hj
  split_ifs at hj with hlt h0
  · exact h j x hj
  · obtain rfl : j = l.length := by omega
    exact hw.trans (Option.some.inj hj)

namespace Sim

variable {σ : ℕ → State} {res : ℕ → Word} {g : OrderLog} {f : Flow} {m : BitVec 30 → Word}
  {s : Core} {i : CoreIn}
  {imem : Word → Word}

theorem step_hold (h : Sim σ res g f m s i.dataSramRdata) (hm : s.move i = .hold) (next : Word) :
    Sim σ res g (f.observe s i) m (s.step i) next := by
  have hfront := Flow.inFront_of_hold (g := f) hm
  have hhanded : (f.observe s i).handed = f.handed := by simp [Flow.observe, hm, Move.advances]
  have htags : (f.observe s i).tags = f.tags := by simp [Flow.observe, hm, Tags.step]
  have hdt : (s.step i).dt = s.dt := by rw [Core.step_dt, hm]
  have hes : (s.step i).esBus = s.esBus := by rw [Core.step_esBus, hm]
  constructor
  case operand => exact h.operand.step_hold hm
  case agrees => exact h.agrees
  case regs => simpa only [hfront] using h.regs
  case path => simpa only [hhanded] using h.path
  case pc => simpa only [hhanded] using h.pc
  case mem => simpa only [hfront] using h.mem
  case access => simpa only [hdt, hhanded] using h.access
  case reads => simpa only [hdt] using h.reads
  case dt => simpa only [hdt] using h.dt
  case ms1 =>
    -- The first held cycle saves the word.
    rw [Core.step_ms1, Core.step_ms2_stallFlag, Core.step_ms2_dataSramRdataBuffer _ _ hm, hm]
    exact h.ms1
  case ms2 =>
    rw [Core.step_ms2Bus, Core.step_ms2_dataSramRdataR, hm]
    exact h.ms2
  case es => simpa only [htags, hes] using h.es
  case bubble => simpa only [htags, hes] using h.bubble

/-- The instruction in `exe_stage` is the one that the machine executes next. -/
theorem executes (h : Sim σ res g f m s i.dataSramRdata) (hf : FlowInv imem f s)
    (hes : f.tags.es.isSome = true) {inst : Inst}
    (hinst : imem (σ f.handed.length).pc = inst.encode) : s.Executes inst (σ f.handed.length) := by
  obtain ⟨d, plv, int, gr, hv, hbus⟩ := h.es hes
  have hpc : s.esBus.dsPc = (σ f.handed.length).pc := (hf.es_pc hes).trans h.pc
  have hword : s.esBus.inst = inst.encode := by rw [hf.es_word hes, hpc, hinst]
  have hne : s.esBus ≠ .zero := by
    intro hz
    rw [hz] at hword
    exact encode_ne_zero inst hword.symm
  have hd : d.inst = inst.encode := by
    rw [← hword, hbus]
    simp [Id.dsToEsBus, hv]
  have hc := h.operand.es hne
  rw [h.operand.length] at hc
  have hregs := h.regs 3 le_rfl
  exact ⟨hbus ▸ decodes_dsToEsBus hv hd plv int gr, hpc, hc.src1.trans (congrFun hregs _),
    hc.src2.trans (congrFun hregs _)⟩

/-- What leaves `exe_stage` goes on to `dt_stage`, and everything in front of it moves by one
stage. -/
theorem step_advance (h : Sim σ res g f m s i.dataSramRdata) (ha : (s.move i).advances = true)
    (hl : s.Leaves (σ f.handed.length) (σ (f.handOver s).length) (res g.issued.length))
    (hpath : (f.handOver s).map Handed.pc =
      (List.range (f.handOver s).length).map fun k => (σ k).pc)
    (hpc : nextPc (f.handOver s) = (σ (f.handOver s).length).pc) {next : Word}
    (hnext : s.dataSram.en = true → s.dataSram.we = 0 → next = m (wordIndex s.dataSram.addr)) :
    Sim σ res (s.logOrder g i) (f.observe s i) (Rtl.access m s.dataSram) (s.step i) next := by
  have hm := Move.eq_of_advances ha
  have hhanded : (f.observe s i).handed = f.handOver s := by simp [Flow.observe, ha]
  have hlog : s.logOrder g i = ⟨g.issued ++ [s.issue], g.retired ++ [s.ms2.msFinalResult]⟩ := by
    rcases hm with hm | hm <;> rw [Core.logOrder, hm]
  have hag : Agrees res (g.retired ++ [s.ms2.msFinalResult]) :=
    h.agrees.append (Core.msFinalResult_of_answered h.ms2).symm
  have hop := h.operand.step (Core.of_advances ha).2 (by rw [hlog]; exact hag)
  have hlen := h.operand.length
  have hretired : (g.retired ++ [s.ms2.msFinalResult]).length = g.retired.length + 1 :=
    List.length_append ..
  have hfront := @Flow.inFront_of_advances f s i ha
  obtain ⟨hdt, hms1, hms2, hflag, hdata⟩ := Core.step_of_advances ha
  rw [hlog] at hop ⊢
  constructor
  case operand => exact hop
  case agrees => exact hag
  case regs =>
    intro j hj
    rw [hretired, Nat.add_right_comm]
    rcases Nat.lt_or_ge j 3 with hlt | hge
    · rw [hfront hlt, regsAfter_append _ _ _ (by omega), Nat.add_assoc]
      exact h.regs (j + 1) hlt
    · obtain rfl : j = 3 := by omega
      rw [← hlen, regsAfter_succ (ρ := s.issue) (by simp), regsAfter_append _ _ _ le_rfl]
      refine (hl.reg _ ?_).trans (congrArg (fun l => (σ (List.length l)).reg) hhanded.symm)
      rw [hlen]
      exact h.regs 3 le_rfl
  case path => rwa [hhanded]
  case pc => rwa [hhanded]
  case mem =>
    rw [hfront (by omega)]
    exact h.access
  case access =>
    rw [hdt, hhanded]
    exact hl.mem _ h.access
  case reads =>
    rw [hdt]
    exact hl.reads
  case dt =>
    rw [hdt, hretired, show g.retired.length + 1 + 2 = g.issued.length by omega]
    exact hl.answered _ h.access
  case ms1 =>
    -- The word that the memory shows next is the one that was asked for.
    rw [hms1, hflag, hretired]
    refine ⟨h.dt.csrOp, ?_⟩
    rw [if_neg Bool.false_ne_true, ← h.dt.result]
    split_ifs with hload
    · rw [hnext (h.reads hload).1 (h.reads hload).2]
      rfl
    · rfl
  case ms2 =>
    rw [hms2, hdata, hretired]
    exact h.ms1
  case es =>
    intro htag
    rcases hm with hm | hm
    · simp [Flow.observe, hm, Tags.step] at htag
    · obtain ⟨hv, hb⟩ : s.id.pcValid = true ∧ s.brTaken = false := by
        simpa [Flow.observe, hm, Tags.step, Core.tagIn, Core.handsOver] using htag
      refine ⟨s.id, s.csrPlv, s.csrHasInt, s.rdata, hv, ?_⟩
      rw [Core.step_esBus, hm, hb]
      rfl
  case bubble =>
    intro htag
    rcases hm with hm | hm <;> rw [Core.step_esBus, hm]
    · rfl
    · cases hb : s.brTaken with
      | true => rfl
      | false =>
        have hv : s.id.pcValid = false := by
          simpa [Flow.observe, hm, Tags.step, Core.tagIn, Core.handsOver, hb] using htag
        have hinst : s.id.inst = 0 := by simp [Id.inst, hv]
        simp only [Core.dsToEsBus, Id.dsToEsBus, hinst]
        rfl

variable (code : Word → Inst)

/-- One clock edge: the machine executes the instruction that leaves `exe_stage`, if one does. -/
theorem step (h : Sim σ res g f m s i.dataSramRdata)
    (hrun : ∀ k, σ (k + 1) = (code (σ k).pc).exec (σ k)) (hf : FlowInv imem f s)
    (hu : s.Unexceptional)
    (hcode : f.handed.length < (f.observe s i).handed.length →
      imem (σ f.handed.length).pc = (code (σ f.handed.length).pc).encode)
    (hres : (s.move i).advances = true →
      res g.issued.length = s.expected (code (σ f.handed.length).pc) (σ f.handed.length))
      {next : Word}
    (hnext : (s.move i).advances = true → s.dataSram.en = true → s.dataSram.we = 0 →
      next = m (wordIndex s.dataSram.addr)) :
    Sim σ res (s.logOrder g i) (f.observe s i)
      (if (s.move i).advances then Rtl.access m s.dataSram else m) (s.step i) next := by
  by_cases ha : (s.move i).advances = true
  · have hres := hres ha
    rw [if_pos ha]
    cases hes : f.tags.es with
    | none =>
      have hhand : f.handOver s = f.handed := by rw [Flow.handOver, hes]; rfl
      have hq := hf.tagInv.es hes
      have hw : res g.issued.length = s.issue.toMs.esResult := by
        rw [hres, Core.expected, hq.loadOp]
        rfl
      refine h.step_advance ha ?_ (hhand ▸ h.path) (hhand ▸ h.pc) (hnext ha)
      rw [hhand, hw]
      exact Core.leaves_of_quiet hq (h.bubble hes) _
    | some x =>
      have htag : f.tags.es.isSome = true := by rw [hes]; rfl
      have hhand : f.handOver s = f.handed ++ [Flow.leaving s] := by rw [Flow.handOver, hes]; rfl
      have hlen : (f.handOver s).length = f.handed.length + 1 := by
        rw [hhand, List.length_append]; rfl
      have hx := h.executes hf htag (hcode (by simp [Flow.observe, ha, hlen]))
      refine h.step_advance ha ?_ ?_ ?_ (hnext ha)
      · rw [hlen, hrun, hres]
        exact hx.leaves hu hf.calm
      · rw [hlen, hhand, List.range_succ, List.map_append, List.map_append, h.path]
        exact congrArg (fun pc => _ ++ [pc]) hx.pc
      · rw [hlen, hrun, hhand, nextPc_append]
        exact hx.nextPc hu
  · have hm : s.move i = .hold := by
      cases hm : s.move i with
      | hold => rfl
      | flush => exact absurd hm hf.not_flush
      | bubble | go => exact absurd (by rw [hm]; rfl) ha
    have hlog : s.logOrder g i = g := by rw [Core.logOrder, hm]
    rw [if_neg ha, hlog]
    exact h.step_hold hm next

end Sim

/-! ## Runs -/

namespace CoreRun

variable (code : Word → Inst) (m₀ : BitVec 30 → Word) (r : CoreRun)

/-- The machine after reset. -/
def boot : State := ⟨resetPc, fun _ => 0, bytesOf m₀⟩

/-- The data memory: it carries out the request in `dt_stage` when the pipeline moves. -/
def dmem : ℕ → BitVec 30 → Word
  | 0 => m₀
  | n + 1 => if (r.move n).advances then access (dmem n) (r.core n).dataSram else dmem n

/-- A read is answered in the next cycle. -/
def Answers (n : ℕ) : Prop :=
  (r.move n).advances = true → (r.core n).dataSram.en = true → (r.core n).dataSram.we = 0 →
    (r.inp (n + 1)).dataSramRdata = r.dmem m₀ n (wordIndex (r.core n).dataSram.addr)

/-- The results of the instructions that have left `exe_stage`, as the machine knows them. -/
def expected : ℕ → List Word
  | 0 => [0, 0, 0]
  | n + 1 =>
    if (r.move n).advances then
      let σ := Isa.run code (boot m₀) (r.flow n).handed.length
      expected n ++ [(r.core n).expected (code σ.pc) σ]
    else expected n

theorem expected_length (n : ℕ) : (r.expected code m₀ n).length = (r.order n).issued.length := by
  induction n with
  | zero => rfl
  | succ n ih =>
    rw [expected, order_succ, Core.logOrder, move]
    cases (r.core n).move (r.inp n) <;> simp [Move.advances, ih]

theorem sim_reset {res : ℕ → Word} (hres : Agrees res [0, 0, 0]) (next : Word) :
    Sim (Isa.run code (boot m₀)) res ⟨[.bubble, .bubble, .bubble], []⟩ .start m₀ r.start next where
  operand := operandInv_reset res _ _ _
  agrees := by intro j w hj; simp at hj
  regs := by
    intro j hj
    have hfront : Flow.start.inFront j = 0 := by rcases j with _ | _ | _ | _ <;> rfl
    have hquiet : ∀ k, regsAfter [.bubble, .bubble, .bubble] res k = fun _ => 0 := by
      intro k
      induction k with
      | zero => rfl
      | succ k ih =>
        simp only [regsAfter, ih]
        split
        · rename_i ρ hρ
          have hρ : ρ ∈ [Issue.bubble, .bubble, .bubble] := List.mem_of_getElem? hρ
          obtain rfl : ρ = .bubble := by simpa using hρ
          rfl
        · rfl
    rw [hfront, hquiet]
    rfl
  path := rfl
  pc := rfl
  mem := rfl
  access := rfl
  reads := by intro h; cases h
  dt := ⟨rfl, (hres 2 0 rfl).symm⟩
  ms1 := ⟨rfl, (hres 1 0 rfl).symm⟩
  ms2 := ⟨rfl, (hres 0 0 rfl).symm⟩
  es := by intro h; cases h
  bubble := fun _ => rfl

/-- What is asked of the first `n` cycles: fetches and reads are answered, no instruction raises an
exception, and the words on the path are instructions of the set. -/
structure Environment (imem : Word → Word) (n : ℕ) : Prop where
  fetch : ∀ k < n, r.Fetches imem k
  answers : ∀ k < n, r.Answers m₀ k
  calm : ∀ k < n, (r.core k).Unexceptional
  coded : ∀ k < (r.flow n).handed.length,
    imem (Isa.run code (boot m₀) k).pc = (code (Isa.run code (boot m₀) k).pc).encode

variable {code m₀ r} {imem : Word → Word} {n : ℕ}

theorem Environment.of_succ (h : r.Environment code m₀ imem (n + 1)) :
    r.Environment code m₀ imem n := by
  have hle : (r.flow n).handed.length ≤ (r.flow (n + 1)).handed.length := by
    rw [show r.flow (n + 1) = (r.flow n).observe (r.core n) (r.inp n) from rfl]
    simp only [Flow.observe, Flow.handOver]
    split_ifs <;> simp
  exact ⟨fun k hk => h.fetch k (by omega), fun k hk => h.answers k (by omega), fun k hk =>
    h.calm k (by omega), fun k hk => h.coded k (by omega)⟩

theorem Environment.sim (h : r.Environment code m₀ imem n) {res : ℕ → Word}
    (hres : Agrees res (r.expected code m₀ n)) :
    Sim (Isa.run code (boot m₀)) res (r.order n) (r.flow n) (r.dmem m₀ n) (r.core n)
      (r.inp n).dataSramRdata := by
  induction n with
  | zero => exact sim_reset code m₀ r hres _
  | succ n ih =>
    have hexpected : Agrees res (r.expected code m₀ n) := by
      rw [expected] at hres
      split_ifs at hres
      · exact hres.of_append
      · exact hres
    refine (ih h.of_succ hexpected).step code (fun _ => rfl)
      (flowInv h.of_succ.fetch h.of_succ.calm)
      (h.calm n (by omega)) (fun hlt => h.coded _ hlt) (fun ha => ?_) (h.answers n (by omega))
    have hm : (r.move n).advances = true := ha
    rw [← r.expected_length code m₀]
    rw [expected, if_pos hm] at hres
    exact hres _ _ (by simp)

/-- The core implements the architecture, whatever the schedule of stalls. The instructions that
leave `exe_stage` are those that the machine executes; the register file holds the registers of the
machine after the instructions that have left `mem2_stage`; the data memory is that of the machine
after those that have left `dt_stage`; and between any two cycles there are at most six moves of the
whole pipeline for each instruction handed over, and five more, so that one of any six moves hands
one over. -/
theorem core_implements_isa (code : Word → Inst) (m₀ : BitVec 30 → Word) (imem : Word → Word)
    (r : CoreRun) (n : ℕ) (env : r.Environment code m₀ imem n) :
    ((r.flow n).handed.map Handed.pc =
      (List.range (r.flow n).handed.length).map fun k => (Isa.run code (boot m₀) k).pc) ∧
    (∀ a, (r.core n).rdata a = (Isa.run code (boot m₀) ((r.flow n).inFront 0)).reg a) ∧
    bytesOf (r.dmem m₀ n) = (Isa.run code (boot m₀) ((r.flow n).inFront 2)).mem ∧
    ∀ a b, a ≤ b → b ≤ n → (r.flow b).moved - (r.flow a).moved ≤
      6 * ((r.flow b).handed.length - (r.flow a).handed.length) + 5 := by
  have h := env.sim (agrees_getD _)
  refine ⟨h.path, fun a => ?_, h.mem, fun a b hab hb => ?_⟩
  · rw [h.operand.regs a]
    exact congrFun (h.regs 0 (by omega)) a
  · have hmoves := moves_le hab (fun k hk => env.fetch k (by omega)) fun k hk =>
      env.calm k (by omega)
    omega

/-- `addi.w $r4, $r0, 5`, `st.w $r4, $r0, 16`, `ld.w $r6, $r0, 16`, `add.w $r7, $r6, $r4`. -/
def storeLoad (pc : Word) : Inst :=
  if pc = 0x1c000000 then .opImm .addiW 4 0 5
  else if pc = 0x1c000004 then .store .stW 4 0 16
  else if pc = 0x1c000008 then .load .ldW 6 0 16
  else if pc = 0x1c00000c then .op3 .addW 7 6 4
  else .opImm .addiW 0 0 0

def storeLoadRun : CoreRun :=
  ofWords (fun n => (storeLoad (0x1c000000 + 4 * BitVec.ofNat 32 (n - 3))).encode) 5 0

instance (m₀ : BitVec 30 → Word) (r : CoreRun) (n : ℕ) : Decidable (r.Answers m₀ n) :=
  inferInstanceAs (Decidable (_ → _ → _ → _))

theorem core_implements_isa_storeLoad :
    storeLoadRun.Environment storeLoad (fun _ => 0) (fun pc => (storeLoad pc).encode) 20 ∧
    (storeLoadRun.core 20).rdata 7 = 10 ∧
    (Isa.run storeLoad (boot fun _ => 0) ((storeLoadRun.flow 20).inFront 0)).reg 7 = 10 := by
  have henv : storeLoadRun.Environment storeLoad (fun _ => 0)
      (fun pc => (storeLoad pc).encode) 20 :=
    ⟨by decide +kernel, by decide +kernel, by decide +kernel, fun _ _ => rfl⟩
  have h := core_implements_isa storeLoad (fun _ => 0) _ storeLoadRun 20 henv
  have h7 : (storeLoadRun.core 20).rdata 7 = 10 := by decide +kernel
  exact ⟨henv, h7, (h.2.1 7).symm.trans h7⟩

end CoreRun

end NeulaCpu.Rtl

import NeulaCpu.Rtl.Core
import NeulaCpu.Lib.Clocked

/-!
# How the pipeline moves

`pip_ctrl` knows four ways to move the pipeline in a cycle. Everything is held (a memory stall, or a
busy multiplier or divider), everything is cleared (an exception commits), the front end is held
while a bubble enters `exe_stage` (a load-use hazard), or everything advances. This module names
them and says, for each stage register, what it holds after each kind of cycle.
-/

namespace NeulaCpu.Rtl

/-! ## The four moves -/

/-- What a cycle does to the pipeline. -/
inductive Move
  | hold | flush | bubble | go
deriving DecidableEq, Repr

/-- The outputs of `pip_ctrl` that stand for a move. -/
def Move.ctrl : Move → Ctrl
  | hold => ⟨false, 0b111111#6⟩
  | flush => ⟨true, 0⟩
  | bubble => ⟨false, 0b000111#6⟩
  | go => ⟨false, 0⟩

/-- A cycle in which the back end moves on. -/
def Move.advances : Move → Bool
  | .go | .bubble => true
  | .hold | .flush => false

/-- The move of a cycle. -/
def Core.move (s : Core) (i : CoreIn) : Move :=
  if i.stallreqCache then .hold
  else if s.exceptEn then .flush
  else if s.stallreqEs then .hold
  else if s.stallreqForward then .bubble
  else .go

theorem Core.ctrl_eq (s : Core) (i : CoreIn) : s.ctrl i = (s.move i).ctrl := by
  unfold Core.ctrl pipCtrl Core.move
  split_ifs <;> rfl

theorem Core.move_eq_flush (s : Core) (i : CoreIn) :
    s.move i = .flush ↔ i.stallreqCache = false ∧ s.exceptEn = true := by
  unfold Core.move
  split_ifs <;> simp_all

theorem Core.move_eq_go (s : Core) (i : CoreIn) :
    s.move i = .go ↔ i.stallreqCache = false ∧ s.exceptEn = false ∧ s.stallreqEs = false ∧
      s.stallreqForward = false := by
  unfold Core.move
  split_ifs <;> simp_all

theorem Core.move_eq_bubble (s : Core) (i : CoreIn) :
    s.move i = .bubble ↔ i.stallreqCache = false ∧ s.exceptEn = false ∧ s.stallreqEs = false ∧
      s.stallreqForward = true := by
  unfold Core.move
  split_ifs <;> simp_all

theorem Core.move_eq_hold (s : Core) (i : CoreIn) :
    s.move i = .hold ↔ i.stallreqCache = true ∨ (s.exceptEn = false ∧ s.stallreqEs = true) := by
  unfold Core.move
  split_ifs <;> simp_all

theorem Move.ne_flush_of_advances {m : Move} (h : m.advances = true) : m ≠ .flush := by
  rintro rfl
  cases h

/-- The back end moves on only if neither the memory side stalls nor an exception commits. -/
theorem Core.of_advances {s : Core} {i : CoreIn} (h : (s.move i).advances = true) :
    i.stallreqCache = false ∧ s.exceptEn = false := by
  cases hm : s.move i with
  | hold | flush => rw [hm] at h; cases h
  | bubble => exact ⟨((s.move_eq_bubble i).mp hm).1, ((s.move_eq_bubble i).mp hm).2.1⟩
  | go => exact ⟨((s.move_eq_go i).mp hm).1, ((s.move_eq_go i).mp hm).2.1⟩

/-! ## The stage registers under each move -/

namespace Core

variable (s : Core) (i : CoreIn)

theorem step_brTakenBuffer : (s.step i).brTakenBuffer =
    match s.move i with
    | .hold | .bubble => s.brTaken
    | .flush | .go => false := by
  simp only [step, ctrl_eq, brBufferStep, brTaken]
  cases s.move i <;> cases s.brTakenBuffer <;> simp [Move.ctrl]

theorem step_brTargetBuffer : (s.step i).brTargetBuffer =
    match s.move i with
    | .hold | .bubble => if s.brTakenBuffer then s.brTargetBuffer else s.brBus.brTarget
    | .flush | .go => 0 := by
  simp only [step, ctrl_eq, brBufferStep]
  cases s.move i <;> cases s.brTakenBuffer <;> simp [Move.ctrl]

theorem step_if1 : (s.step i).if1 =
    match s.move i with
    | .hold | .bubble => s.if1
    | .flush => ⟨true, s.newPc, If1.misaligned s.newPc⟩
    | .go => ⟨true, s.if1.nextPc s.brBusReal, If1.misaligned (s.if1.nextPc s.brBusReal)⟩ := by
  simp only [step, ctrl_eq, If1.step]
  cases s.move i <;> simp [Move.ctrl]

theorem step_if2 : (s.step i).if2 =
    match s.move i with
    | .hold | .bubble => if s.brTaken then .zero else s.if2
    | .flush => .zero
    | .go => if s.brTaken then .zero else s.if1.fs1ToFs2Bus s.brBusReal := by
  simp only [step, ctrl_eq, fsStep]
  cases s.move i <;> simp [Move.ctrl]

theorem step_if3 : (s.step i).if3 =
    match s.move i with
    | .hold | .bubble => if s.brTaken then .zero else s.if3
    | .flush => .zero
    | .go => if s.brTaken then .zero else s.if2 := by
  simp only [step, ctrl_eq, fsStep]
  cases s.move i <;> simp [Move.ctrl]

theorem step_id_bus : (s.step i).id.fs2ToDsBusR =
    match s.move i with
    | .hold | .bubble => s.id.fs2ToDsBusR
    | .flush => .zero
    | .go => if s.brTaken then .zero else s.if3 := by
  simp only [step, ctrl_eq, Id.step]
  cases s.move i <;> cases s.brTaken <;> cases s.id.stallFlag <;> simp [Move.ctrl]

theorem step_id_instSramRdataR : (s.step i).id.instSramRdataR =
    match s.move i with
    | .hold | .bubble => s.id.instSramRdataR
    | .flush => 0
    | .go =>
      if s.brTaken then 0
      else if s.id.stallFlag then s.id.instSramRdataBuffer
      else i.instSramRdata := by
  simp only [step, ctrl_eq, Id.step]
  cases s.move i <;> cases s.brTaken <;> cases s.id.stallFlag <;> simp [Move.ctrl]

theorem step_id_stallFlag : (s.step i).id.stallFlag =
    match s.move i with
    | .hold | .bubble => true
    | .flush | .go => false := by
  simp only [step, ctrl_eq, Id.step]
  cases s.move i <;> cases s.brTaken <;> cases h : s.id.stallFlag <;> simp [Move.ctrl, h]

theorem step_id_buffer (h : s.move i = .hold ∨ s.move i = .bubble) :
    (s.step i).id.instSramRdataBuffer =
      if s.id.stallFlag then s.id.instSramRdataBuffer
      else if s.brTaken then 0 else i.instSramRdata := by
  simp only [step, ctrl_eq, Id.step]
  rcases h with h | h <;> cases s.brTaken <;> cases s.id.stallFlag <;> simp [h, Move.ctrl]

theorem step_rf : (s.step i).rf = Regfile.step s.rf s.ws := rfl

theorem step_fwd : (s.step i).fwd =
    match s.move i with
    | .hold => s.fwd
    | .bubble => .reset
    | .flush | .go =>
      { src1IsForward := Forward.isForward (producer s.esToDtsBus.toMs) (producer s.dt.toMs)
          (producer s.ms1) s.ms2Producer s.dsToEsBus.rj
        src2IsForward := Forward.isForward (producer s.esToDtsBus.toMs) (producer s.dt.toMs)
          (producer s.ms1) s.ms2Producer s.dsToEsBus.rkd
        src1ForwardResult := Forward.forwardResult (producer s.esToDtsBus.toMs)
          (producer s.dt.toMs) (producer s.ms1) s.ms2Producer s.dsToEsBus.rj
        src2ForwardResult := Forward.forwardResult (producer s.esToDtsBus.toMs)
          (producer s.dt.toMs) (producer s.ms1) s.ms2Producer s.dsToEsBus.rkd } := by
  simp only [step, ctrl_eq, Forward.step]
  cases s.move i <;> simp [Move.ctrl]

theorem step_esBus : (s.step i).esBus =
    match s.move i with
    | .hold => s.esBus
    | .flush | .bubble => .zero
    | .go => if s.brTaken then .zero else s.dsToEsBus := by
  simp only [step, ctrl_eq, esBus, Es.step, Es.busStep, Es.brFlush, brTaken, brBus]
  cases s.move i <;> simp [Move.ctrl]

theorem step_csrCancelReg : (s.step i).es.csrCancelReg =
    match s.move i with
    | .flush => false
    | .hold | .bubble | .go => s.es.csrCancel s.fwd || s.es.csrCancelReg := by
  simp only [step, ctrl_eq, Es.step]
  cases s.move i <;> cases s.es.csrCancel s.fwd <;> simp [Move.ctrl]

theorem step_mulDiv : (s.step i).es.mulDiv =
    match s.move i with
    | .flush => .reset
    | m => s.es.mulDiv.step m.ctrl.stall s.esBus.mulDivOp s.esBus.mulDivSign
        (Exe.aluSrc1 s.esBus s.src1) (Exe.aluSrc2 s.esBus s.src2) := by
  simp only [step, ctrl_eq, Es.step, esBus, src1, src2]
  cases s.move i <;> simp [Move.ctrl]

theorem step_dt : (s.step i).dt =
    match s.move i with
    | .hold => s.dt
    | .flush => .zero
    | .bubble | .go => s.esToDtsBus := by
  simp only [step, ctrl_eq, advance]
  cases s.move i <;> simp [Move.ctrl]

theorem step_ms1 : (s.step i).ms1 =
    match s.move i with
    | .hold => s.ms1
    | .flush => .zero
    | .bubble | .go => s.dt.toMs := by
  simp only [step, ctrl_eq, advance]
  cases s.move i <;> simp [Move.ctrl]

theorem step_ms2Bus : (s.step i).ms2Bus =
    match s.move i with
    | .hold => s.ms2Bus
    | .flush => .zero
    | .bubble | .go => s.ms1 := by
  simp only [step, ctrl_eq, ms2Bus, Ms2.step, Ms2.busStep]
  cases s.move i <;> cases s.ms2.stallFlag <;> simp [Move.ctrl]

theorem step_ms2_stallFlag : (s.step i).ms2.stallFlag =
    match s.move i with
    | .hold => true
    | .flush | .bubble | .go => false := by
  simp only [step, ctrl_eq, Ms2.step, Ms2.busStep]
  cases s.move i <;> cases h : s.ms2.stallFlag <;> simp [Move.ctrl, h]

/-- In the cycle in which the pipeline moves, `mem2_stage` takes what a held cycle saved, if there
was one. -/
theorem step_ms2_dataSramRdataR : (s.step i).ms2.dataSramRdataR =
    match s.move i with
    | .hold => s.ms2.dataSramRdataR
    | .flush => 0
    | .bubble | .go =>
      if s.ms2.stallFlag then s.ms2.dataSramRdataBuffer else i.dataSramRdata := by
  simp only [step, ctrl_eq, Ms2.step, Ms2.busStep]
  cases s.move i <;> cases s.ms2.stallFlag <;> simp [Move.ctrl]

/-- The first held cycle fills the buffer and the others leave it. -/
theorem step_ms2_dataSramRdataBuffer (h : s.move i = .hold) :
    (s.step i).ms2.dataSramRdataBuffer =
      if s.ms2.stallFlag then s.ms2.dataSramRdataBuffer else i.dataSramRdata := by
  simp only [step, ctrl_eq, Ms2.step, Ms2.busStep]
  cases s.ms2.stallFlag <;> simp [h, Move.ctrl]

theorem step_csr : (s.step i).ms2.csr = s.ms2.csr.step s.ms2Bus i.stallreqCache i.extInt := rfl

theorem step_ws : (s.step i).ws =
    match s.move i with
    | .hold => s.ws
    | .flush => .zero
    | .bubble | .go => s.ms2.ms2ToWsBus := by
  simp only [step, ctrl_eq, wsStep]
  cases s.move i <;> simp [Move.ctrl]

variable {s i}

/-- The rule for a property that is stated stage by stage, for the stages from `exe_stage` to
`mem2_stage`: in a moving pipeline each stage gets it from the stage before. The property may depend
on the move. -/
theorem stages_step {E : Move → DsToEsBus → Prop} {D : Move → EsToDtBus → Prop}
    {A B : Move → DtToMsBus → Prop}
    (hold : s.move i = .hold → E .hold s.esBus ∧ D .hold s.dt ∧ A .hold s.ms1 ∧ B .hold s.ms2Bus)
    (flush : E .flush .zero ∧ D .flush .zero ∧ A .flush .zero ∧ B .flush .zero)
    (bubble : E .bubble .zero)
    (go : s.move i = .go → E .go (if s.brTaken then .zero else s.dsToEsBus))
    (shift : ∀ m, s.move i = m → m.advances = true →
      D m s.esToDtsBus ∧ A m s.dt.toMs ∧ B m s.ms1) :
    E (s.move i) (s.step i).esBus ∧ D (s.move i) (s.step i).dt ∧ A (s.move i) (s.step i).ms1 ∧
      B (s.move i) (s.step i).ms2Bus := by
  rw [step_esBus, step_dt, step_ms1, step_ms2Bus]
  cases hm : s.move i with
  | hold => exact hold hm
  | flush => exact flush
  | bubble => exact ⟨bubble, shift .bubble hm rfl⟩
  | go => exact ⟨go hm, shift .go hm rfl⟩

end Core

/-! ## While the pipeline is held -/

namespace Core

/-- The core `n` cycles after `s`. -/
def after (s : Core) (inp : ℕ → CoreIn) (n : ℕ) : Core := Clocked.run step s inp n

/-- The pipeline is held in the first `n` cycles after `s`: every instruction stays in its stage. -/
def Held (s : Core) (inp : ℕ → CoreIn) (n : ℕ) : Prop :=
  ∀ k < n, (s.after inp k).move (inp k) = .hold

variable {s : Core} {inp : ℕ → CoreIn} {n : ℕ}

theorem after_succ : s.after inp (n + 1) = (s.after inp n).step (inp n) := rfl

theorem Held.mono (h : s.Held inp (n + 1)) : s.Held inp n := fun k hk => h k (by omega)

end Core

/-! ## Runs -/

/-- A run of the core from reset: the registers without a reset value, and the inputs. -/
structure CoreRun where
  instBuffer : Word
  dataBuffer : Word
  csrLatch : Word
  inp : ℕ → CoreIn

namespace CoreRun

def start (r : CoreRun) : Core := .reset r.instBuffer r.dataBuffer r.csrLatch

/-- The core after `n` clock edges. -/
def core (r : CoreRun) (n : ℕ) : Core := Clocked.run Core.step r.start r.inp n

/-- The move of cycle `n`. -/
def move (r : CoreRun) (n : ℕ) : Move := (r.core n).move (r.inp n)

theorem core_succ (r : CoreRun) (n : ℕ) : r.core (n + 1) = (r.core n).step (r.inp n) := rfl

/-- The rest of a run is a run of its own. -/
theorem core_add (r : CoreRun) (m n : ℕ) :
    r.core (m + n) = (r.core m).after (fun k => r.inp (m + k)) n := by
  induction n with
  | zero => rfl
  | succ n ih => rw [← Nat.add_assoc, core_succ, ih, Core.after_succ]

/-- A run in which the memory side never stalls: the words the icache delivers, the word that every
load returns, and the external interrupt lines. -/
def ofWords (word : ℕ → Word) (data : Word) (extInt : BitVec 8) : CoreRun where
  instBuffer := 0
  dataBuffer := 0
  csrLatch := 0
  inp n := ⟨extInt, word n, data, false, false, false⟩

end CoreRun

end NeulaCpu.Rtl

import NeulaCpu.Pipeline.Control
import NeulaCpu.Lib.Bypass

/-!
# Operands come from program order

The register values an instruction uses in `exe_stage` are put together from five producers: the
results in flight in `exe_stage`, `dt_stage`, `mem1_stage` and `mem2_stage`, forwarded when the
instruction leaves `id_stage`, and the register file with the write of `wb_stage`. This module
compares them with a sequential execution of the instructions in the order in which they leave
`exe_stage`.

The log below has one entry for every clock edge at which the back end moves, bubbles included, so
entry `k` of `retired` is the result that `mem2_stage` produced for entry `k` of `issued`. The
registers of `dt_stage`, `mem1_stage` and `mem2_stage` after reset count as three bubbles.
-/

namespace NeulaCpu.Rtl

/-! ## Sequential execution -/

/-- An instruction as it leaves `exe_stage`, with the operands it used and what `mul_div_top`
shows. -/
structure Issue where
  bus : DsToEsBus
  src1 : Word
  src2 : Word
  mulDivResult : Word
deriving DecidableEq, Repr

/-- The architectural read: register 0 is zero. -/
def readReg (g : BitVec 5 → Word) (r : BitVec 5) : Word := if r = 0 then 0 else g r

namespace Issue

def bubble : Issue := ⟨.zero, 0, 0, 0⟩

/-- What the instruction hands on to `dt_stage` and from there to `mem1_stage` and `mem2_stage`. -/
def toMs (ρ : Issue) : DtToMsBus :=
  (Exe.esToDtsBus ρ.bus false ρ.src1 ρ.src2 ρ.mulDivResult).toMs

/-- Loads and CSR reads get their result in `mem2_stage`. -/
def late (ρ : Issue) : Bool := ρ.bus.loadOp.any || ρ.bus.csrOp.any

/-- The result of the instruction in registers `g`; `x` is the result of a load or CSR read. -/
def value (ρ : Issue) (x : Word) (g : BitVec 5 → Word) : Word :=
  if ρ.late then x
  else Exe.esResult ρ.bus (readReg g ρ.bus.rj) (readReg g ρ.bus.rkd) ρ.mulDivResult

def write (ρ : Issue) (x : Word) (g : BitVec 5 → Word) : Bypass.Write (BitVec 5) Word :=
  ⟨ρ.bus.regWe, ρ.bus.dest, ρ.value x g⟩

/-- The instruction used the values of its source registers in `g`, and the registers are the ones
its word names. -/
structure Correct (ρ : Issue) (g : BitVec 5 → Word) : Prop where
  src1 : ρ.src1 = readReg g ρ.bus.rj
  src2 : ρ.src2 = readReg g ρ.bus.rkd
  rj : ρ.bus.rj = Decoder.rj ρ.bus.inst
  rkd : ρ.bus.rkd =
    if Decoder.srcRegIsRd ρ.bus.inst then Decoder.rd ρ.bus.inst else Decoder.rk ρ.bus.inst

end Issue

/-- The registers after the first `k` instructions, `res j` being the result of instruction `j` if
it is a load or a CSR read. -/
def regsAfter (issued : List Issue) (res : ℕ → Word) : ℕ → BitVec 5 → Word
  | 0 => fun _ => 0
  | k + 1 =>
    match issued[k]? with
    | some ρ => (ρ.write (res k) (regsAfter issued res k)).apply (regsAfter issued res k)
    | none => regsAfter issued res k

theorem regsAfter_succ {issued : List Issue} {k : ℕ} {ρ : Issue}
    (h : issued[k]? = some ρ) (res : ℕ → Word) :
    regsAfter issued res (k + 1) =
      (ρ.write (res k) (regsAfter issued res k)).apply (regsAfter issued res k) := by
  simp only [regsAfter, h]

/-- Instructions that leave later do not matter. -/
theorem regsAfter_append (issued more : List Issue) (res : ℕ → Word) {k : ℕ}
    (h : k ≤ issued.length) : regsAfter (issued ++ more) res k = regsAfter issued res k := by
  induction k with
  | zero => rfl
  | succ k ih =>
    have hk : k < issued.length := by omega
    simp only [regsAfter, List.getElem?_append_left hk, ih (by omega)]

/-! ## The log -/

/-- The instructions that left `exe_stage` and the results that left `mem2_stage`. -/
structure OrderLog where
  issued : List Issue
  retired : List Word

namespace Core

/-- The instruction in `exe_stage` with its operands. -/
def issue (s : Core) : Issue := ⟨s.esBus, s.src1, s.src2, s.es.mulDivResult s.fwd⟩

def logOrder (g : OrderLog) (s : Core) (i : CoreIn) : OrderLog :=
  match s.move i with
  | .hold | .flush => g
  | .bubble | .go => ⟨g.issued ++ [s.issue], g.retired ++ [s.ms2.msFinalResult]⟩

end Core

namespace CoreRun

def order (r : CoreRun) (n : ℕ) : OrderLog :=
  Clocked.ghost Core.step Core.logOrder r.start ⟨[.bubble, .bubble, .bubble], []⟩ r.inp n

end CoreRun

/-! ## Producers -/

namespace Issue

variable {ρ : Issue} {g : BitVec 5 → Word} {r : BitVec 5}

/-- Outside register 0, `forward` sees the architectural write of the instruction. -/
theorem feeds_eq (hr : r ≠ 0) (x : Word) :
    (Core.producer ρ.toMs).feeds r = (ρ.write x g).hits r := by
  have hne : (r != 0) = true := by simpa using hr
  simp only [Producer.feeds, Core.producer, toMs, Exe.esToDtsBus, write, Bypass.Write.hits, hne,
    Bool.and_true]
  rfl

theorem bus_ne_zero_of_regWe (h : ρ.bus.regWe = true) : ρ.bus ≠ .zero := by
  intro hz
  rw [hz] at h
  cases h

/-- The result on the bus is the architectural one if it is not a late one. -/
theorem esResult_eq_value (hc : ρ.bus ≠ .zero → ρ.Correct g) (hwe : ρ.bus.regWe = true)
    (hl : ρ.late = false) (x : Word) : ρ.toMs.esResult = ρ.value x g := by
  have h := hc (bus_ne_zero_of_regWe hwe)
  show Exe.esResult ρ.bus ρ.src1 ρ.src2 ρ.mulDivResult = _
  rw [value, if_neg (by simp [hl]), h.src1, h.src2]

theorem regWe_of_feeds (h : (Core.producer ρ.toMs).feeds r = true) : ρ.bus.regWe = true := by
  simp only [Producer.feeds, Core.producer, Bool.and_eq_true] at h
  exact h.1.1

end Issue

/-- `mem2_stage` delivers the architectural result. -/
theorem Core.msFinalResult_eq_value {s : Core} {ρ : Issue} {g : BitVec 5 → Word}
    (hb : s.ms2Bus = ρ.toMs) (hc : ρ.bus ≠ .zero → ρ.Correct g) (hwe : ρ.bus.regWe = true) :
    s.ms2.msFinalResult = ρ.value s.ms2.msFinalResult g := by
  cases hl : ρ.late with
  | true => rw [Issue.value, if_pos hl]
  | false =>
    rw [← Issue.esResult_eq_value hc hwe hl]
    have hload : ρ.bus.loadOp.any = false ∧ ρ.bus.csrOp.any = false := by
      simpa [Issue.late] using hl
    have h1 : s.ms2.ms1ToMs2BusR.loadOp.any = false := by
      rw [show s.ms2.ms1ToMs2BusR = ρ.toMs from hb]
      exact hload.1
    have h2 : s.ms2.ms1ToMs2BusR.csrBus.csrOp.any = false := by
      rw [show s.ms2.ms1ToMs2BusR = ρ.toMs from hb]
      exact hload.2
    simp only [Ms2.msFinalResult, h1, h2, Bool.false_eq_true, if_false]
    rw [show s.ms2.ms1ToMs2BusR = ρ.toMs from hb]

/-- The selection of `forward` is the read of a bypass network, if the producers that feed the
register carry the values of the writes. -/
theorem Forward.select_eq {r : BitVec 5} {es dt ms1 ms2 : Producer}
    {we wd w1 w2 : Bypass.Write (BitVec 5) Word} (file : Word)
    (he : es.feeds r = we.hits r ∧ (es.feeds r = true → es.result = we.value))
    (hd : dt.feeds r = wd.hits r ∧ (dt.feeds r = true → dt.result = wd.value))
    (h1 : ms1.feeds r = w1.hits r ∧ (ms1.feeds r = true → ms1.result = w1.value))
    (h2 : ms2.feeds r = w2.hits r ∧ (ms2.feeds r = true → ms2.result = w2.value)) :
    (if isForward es dt ms1 ms2 r then forwardResult es dt ms1 ms2 r else file) =
      (Bypass.youngest [we, wd, w1, w2] r).getD file := by
  obtain ⟨he, he'⟩ := he
  obtain ⟨hd, hd'⟩ := hd
  obtain ⟨h1, h1'⟩ := h1
  obtain ⟨h2, h2'⟩ := h2
  rw [Bypass.youngest, Bypass.youngest, Bypass.youngest, Bypass.youngest, Bypass.youngest,
    isForward, forwardResult, he, hd, h1, h2]
  rw [he] at he'
  rw [hd] at hd'
  rw [h1] at h1'
  rw [h2] at h2'
  by_cases hes : we.hits r = true
  · simp [hes, he' hes]
  by_cases hdt : wd.hits r = true
  · simp [hes, hdt, hd' hdt]
  by_cases hm1 : w1.hits r = true
  · simp [hes, hdt, hm1, h1' hm1]
  by_cases hm2 : w2.hits r = true
  · simp [hes, hdt, hm1, hm2, h2' hm2]
  · simp [hes, hdt, hm1, hm2]

/-! ## The invariant -/

/-- The results already delivered by `mem2_stage` are the ones of `res`. -/
def Agrees (res : ℕ → Word) (retired : List Word) : Prop :=
  ∀ (j : ℕ) (w : Word), retired[j]? = some w → res j = w

/-- The in-flight instructions are the last three of the log, the register file with its bypass
holds the registers after the retired ones, and every instruction got the operands of program
order. -/
structure OperandInv (res : ℕ → Word) (g : OrderLog) (s : Core) : Prop where
  length : g.issued.length = g.retired.length + 3
  ms2 : ∃ ρ, g.issued[g.retired.length]? = some ρ ∧ s.ms2Bus = ρ.toMs
  ms1 : ∃ ρ, g.issued[g.retired.length + 1]? = some ρ ∧ s.ms1 = ρ.toMs
  dt : ∃ ρ, g.issued[g.retired.length + 2]? = some ρ ∧ s.dt.toMs = ρ.toMs
  regs : ∀ a, s.rdata a = readReg (regsAfter g.issued res g.retired.length) a
  past : ∀ (k : ℕ) (ρ : Issue), g.issued[k]? = some ρ → ρ.bus ≠ .zero →
    ρ.Correct (regsAfter g.issued res k)
  es : s.esBus ≠ .zero → s.issue.Correct (regsAfter g.issued res g.issued.length)

theorem operandInv_reset (res : ℕ → Word) (a b c : Word) :
    OperandInv res ⟨[.bubble, .bubble, .bubble], []⟩ (Core.reset a b c) := by
  refine ⟨rfl, ⟨.bubble, rfl, rfl⟩, ⟨.bubble, rfl, rfl⟩, ⟨.bubble, rfl, rfl⟩, ?_, ?_, ?_⟩
  · intro r
    simp only [Core.rdata, Regfile.rdata, readReg, regsAfter, List.length_nil]
    split_ifs <;> simp_all
  · intro k ρ hk hne
    have hρ : ρ ∈ [Issue.bubble, .bubble, .bubble] := List.mem_of_getElem? hk
    simp only [List.mem_cons, List.not_mem_nil, or_false, or_self] at hρ
    rw [hρ] at hne
    exact absurd rfl hne
  · intro hne
    exact absurd rfl hne

namespace Core

variable {s : Core} {i : CoreIn}

/-- The register file with the write of `wb_stage` carried out. -/
theorem regfile_step_eq_rdata (s : Core) {a : BitVec 5} (ha : a ≠ 0) :
    Regfile.step s.rf s.ws a = s.rdata a := by
  simp only [Regfile.step, rdata, Regfile.rdata, beq_iff_eq, ha, if_false]
  cases s.ws.regWe <;> simp

theorem rdata_step_of_hold (h : s.move i = .hold) (a : BitVec 5) :
    (s.step i).rdata a = s.rdata a := by
  by_cases ha : a = 0
  · simp [rdata, Regfile.rdata, ha]
  · have hws : (s.step i).ws = s.ws := by rw [step_ws, h]
    rw [rdata, hws, step_rf]
    have hrf := regfile_step_eq_rdata s ha
    simp only [Regfile.rdata, rdata] at hrf ⊢
    rw [hrf]
    split_ifs <;> rfl

theorem rdata_step_of_advance (h : s.move i = .bubble ∨ s.move i = .go) (a : BitVec 5) :
    (s.step i).rdata a =
      if a = 0 then 0
      else if s.ms2Bus.regWe ∧ a = s.ms2Bus.dest then s.ms2.msFinalResult
      else s.rdata a := by
  have hws : (s.step i).ws = s.ms2.ms2ToWsBus := by
    rw [step_ws]
    rcases h with h | h <;> rw [h]
  by_cases ha : a = 0
  · simp [rdata, Regfile.rdata, ha]
  · rw [rdata, hws, step_rf, Regfile.rdata, regfile_step_eq_rdata s ha]
    simp only [beq_iff_eq, ha, if_false, Bool.and_eq_true, Ms2.ms2ToWsBus, ms2Bus]
    exact if_congr and_comm rfl rfl

theorem dsToEsBus_inst (s : Core) : s.dsToEsBus.inst = s.id.inst := by
  simp only [dsToEsBus, Id.dsToEsBus, Id.inst]
  split_ifs <;> rfl

/-- The cancel signals only touch the memory request. -/
theorem esToDtsBus_toMs (s : Core) : s.esToDtsBus.toMs = s.issue.toMs := rfl

theorem src1_eq (s : Core) : s.src1 =
    if s.fwd.src1IsForward then s.fwd.src1ForwardResult else s.esBus.rjValue := rfl

theorem src2_eq (s : Core) : s.src2 =
    if s.fwd.src2IsForward then s.fwd.src2ForwardResult else s.esBus.rkdValue := rfl

end Core

variable {res : ℕ → Word} {g : OrderLog} {s : Core} {i : CoreIn}

theorem OperandInv.step_hold (h : OperandInv res g s) (hm : s.move i = .hold) :
    OperandInv res g (s.step i) := by
  have hes : (s.step i).esBus = s.esBus := by rw [Core.step_esBus, hm]
  have hfwd : (s.step i).fwd = s.fwd := by rw [Core.step_fwd, hm]
  refine ⟨h.length, ?_, ?_, ?_, ?_, h.past, ?_⟩
  · rw [Core.step_ms2Bus, hm]
    exact h.ms2
  · rw [Core.step_ms1, hm]
    exact h.ms1
  · rw [Core.step_dt, hm]
    exact h.dt
  · intro a
    rw [Core.rdata_step_of_hold hm]
    exact h.regs a
  · intro hne
    have hc := h.es (hes ▸ hne)
    refine ⟨?_, ?_, ?_, ?_⟩
    · show (s.step i).src1 = readReg _ (s.step i).esBus.rj
      rw [Core.src1_eq, hes, hfwd]
      exact hc.src1
    · show (s.step i).src2 = readReg _ (s.step i).esBus.rkd
      rw [Core.src2_eq, hes, hfwd]
      exact hc.src2
    · show (s.step i).esBus.rj = Decoder.rj (s.step i).esBus.inst
      rw [hes]
      exact hc.rj
    · show (s.step i).esBus.rkd = _
      rw [Core.issue, hes]
      exact hc.rkd

/-- Reading `r` through `forward` and the register file gives its value after everything that has
left or is leaving `exe_stage`, unless the youngest producer is a late one. -/
theorem OperandInv.forward_read (h : OperandInv res g s)
    (hag : Agrees res (g.retired ++ [s.ms2.msFinalResult])) {r : BitVec 5}
    (hes : (Core.producer s.esToDtsBus.toMs).feeds r = true →
      (Core.producer s.esToDtsBus.toMs).ctrl = false)
    (hdt : (Core.producer s.dt.toMs).feeds r = true → (Core.producer s.dt.toMs).ctrl = false)
    (hms1 : (Core.producer s.ms1).feeds r = true → (Core.producer s.ms1).ctrl = false) :
    (if Forward.isForward (Core.producer s.esToDtsBus.toMs) (Core.producer s.dt.toMs)
        (Core.producer s.ms1) s.ms2Producer r then
      Forward.forwardResult (Core.producer s.esToDtsBus.toMs) (Core.producer s.dt.toMs)
        (Core.producer s.ms1) s.ms2Producer r
      else s.rdata r) =
    readReg (regsAfter (g.issued ++ [s.issue]) res (g.issued.length + 1)) r := by
  obtain ⟨ρ₂, hk2, hb2⟩ := h.ms2
  obtain ⟨ρ₁, hk1, hb1⟩ := h.ms1
  obtain ⟨ρd, hkd, hbd⟩ := h.dt
  have hlen := h.length
  rw [h.regs r, readReg, readReg]
  by_cases hr : r = 0
  · -- Register 0 is never forwarded.
    rw [if_pos hr, if_pos hr, if_neg]
    simp [Forward.isForward, Producer.feeds, hr]
  rw [if_neg hr, if_neg hr]
  -- The registers after everything in flight are the retired ones with four pending writes.
  generalize hk : g.retired.length = k at hk2 hk1 hkd hlen
  have hlast : (g.issued ++ [s.issue])[g.issued.length]? = some s.issue := by simp
  rw [regsAfter_succ hlast, regsAfter_append _ _ _ le_rfl, hlen, regsAfter_succ hkd,
    regsAfter_succ hk1, regsAfter_succ hk2]
  set g₂ := regsAfter g.issued res k with hg2
  set g₁ := (ρ₂.write (res k) g₂).apply g₂ with hg1
  set gd := (ρ₁.write (res (k + 1)) g₁).apply g₁ with hgd
  set ge := (ρd.write (res (k + 2)) gd).apply gd with hge
  have hc2 : ρ₂.bus ≠ .zero → ρ₂.Correct g₂ := h.past k ρ₂ hk2
  have hc1 : ρ₁.bus ≠ .zero → ρ₁.Correct g₁ := by
    rw [hg1, hg2, ← regsAfter_succ hk2]
    exact h.past _ ρ₁ hk1
  have hcd : ρd.bus ≠ .zero → ρd.Correct gd := by
    rw [hgd, hg1, hg2, ← regsAfter_succ hk2, ← regsAfter_succ hk1]
    exact h.past _ ρd hkd
  have hce : s.issue.bus ≠ .zero → s.issue.Correct ge := by
    rw [hge, hgd, hg1, hg2, ← regsAfter_succ hk2, ← regsAfter_succ hk1, ← regsAfter_succ hkd,
      ← hlen]
    exact h.es
  have hres : res k = s.ms2.msFinalResult := by
    apply hag
    rw [← hk]
    simp
  have key := Bypass.foldr_apply [s.issue.write (res (k + 3)) ge, ρd.write (res (k + 2)) gd,
    ρ₁.write (res (k + 1)) g₁, ρ₂.write (res k) g₂] g₂ r
  simp only [List.foldr_cons, List.foldr_nil, ← hg1, ← hgd, ← hge] at key
  rw [key]
  rw [Core.esToDtsBus_toMs] at hes ⊢
  rw [hbd] at hdt ⊢
  rw [hb1] at hms1 ⊢
  apply Forward.select_eq
  · refine ⟨Issue.feeds_eq hr _, fun hf => ?_⟩
    exact Issue.esResult_eq_value hce (Issue.regWe_of_feeds hf) (hes hf) _
  · refine ⟨Issue.feeds_eq hr _, fun hf => ?_⟩
    exact Issue.esResult_eq_value hcd (Issue.regWe_of_feeds hf) (hdt hf) _
  · refine ⟨Issue.feeds_eq hr _, fun hf => ?_⟩
    exact Issue.esResult_eq_value hc1 (Issue.regWe_of_feeds hf) (hms1 hf) _
  · have hfeeds : s.ms2Producer.feeds r = (Core.producer ρ₂.toMs).feeds r := by
      rw [← hb2]
      rfl
    refine ⟨?_, fun hf => ?_⟩
    · rw [hfeeds]
      exact Issue.feeds_eq hr _
    · rw [hfeeds] at hf
      show s.ms2.msFinalResult = ρ₂.value (res k) g₂
      rw [hres]
      exact Core.msFinalResult_eq_value hb2 hc2 (Issue.regWe_of_feeds hf)

theorem getElem?_append_of_some {α : Type*} {l : List α} {k : ℕ} {x : α} (h : l[k]? = some x)
    (more : List α) : (l ++ more)[k]? = some x := by
  obtain ⟨hk, -⟩ := List.getElem?_eq_some_iff.mp h
  rw [List.getElem?_append_left hk, h]

/-- The write of `wb_stage` is carried out and the result of `mem2_stage` takes its place. -/
theorem OperandInv.regs_advance (h : OperandInv res g s) (hm : s.move i = .bubble ∨ s.move i = .go)
    (hag : Agrees res (g.retired ++ [s.ms2.msFinalResult])) (a : BitVec 5) :
    (s.step i).rdata a =
      readReg (regsAfter (g.issued ++ [s.issue]) res (g.retired ++ [s.ms2.msFinalResult]).length)
        a := by
  obtain ⟨ρ₂, hk2, hb2⟩ := h.ms2
  have hlen := h.length
  have hk : g.retired.length < g.issued.length := by omega
  rw [Core.rdata_step_of_advance hm, List.length_append, List.length_singleton,
    regsAfter_succ (getElem?_append_of_some hk2 _), regsAfter_append _ _ _ hk.le, h.regs a,
    readReg, readReg]
  by_cases ha : a = 0
  · rw [if_pos ha, if_pos ha]
  · have hres : res g.retired.length = s.ms2.msFinalResult := hag _ _ (by simp)
    rw [if_neg ha, if_neg ha, if_neg ha, hb2, hres]
    show (if ρ₂.bus.regWe = true ∧ a = ρ₂.bus.dest then s.ms2.msFinalResult else _) =
      if ρ₂.bus.regWe = true ∧ a = ρ₂.bus.dest then ρ₂.value s.ms2.msFinalResult _ else _
    split_ifs with hw
    · exact Core.msFinalResult_eq_value hb2 (h.past _ ρ₂ hk2) hw.1
    · rfl

/-- The instruction that leaves `exe_stage` joins those with the operands of program order. -/
theorem OperandInv.past_advance (h : OperandInv res g s) (k : ℕ) (ρ : Issue)
    (hk : (g.issued ++ [s.issue])[k]? = some ρ) (hne : ρ.bus ≠ .zero) :
    ρ.Correct (regsAfter (g.issued ++ [s.issue]) res k) := by
  by_cases hlt : k < g.issued.length
  · rw [List.getElem?_append_left hlt] at hk
    rw [regsAfter_append _ _ _ hlt.le]
    exact h.past k ρ hk hne
  · have hkl : k < g.issued.length + 1 := by
      obtain ⟨hk', -⟩ := List.getElem?_eq_some_iff.mp hk
      simpa using hk'
    have hk0 : k = g.issued.length := by omega
    rw [hk0, regsAfter_append _ _ _ le_rfl]
    have hρ : ρ = s.issue := by
      rw [hk0] at hk
      simpa using hk.symm
    rw [hρ] at hne ⊢
    exact h.es hne

/-- When the back end moves, everything but the operands of the next instruction follows from the
log. -/
theorem OperandInv.step_advance (h : OperandInv res g s) (hm : s.move i = .bubble ∨ s.move i = .go)
    (hag : Agrees res (g.retired ++ [s.ms2.msFinalResult]))
    (hes : (s.step i).esBus ≠ .zero →
      (s.step i).issue.Correct (regsAfter (g.issued ++ [s.issue]) res (g.issued.length + 1))) :
    OperandInv res ⟨g.issued ++ [s.issue], g.retired ++ [s.ms2.msFinalResult]⟩ (s.step i) := by
  obtain ⟨ρ₁, hk1, hb1⟩ := h.ms1
  obtain ⟨ρd, hkd, hbd⟩ := h.dt
  have hlen := h.length
  refine ⟨by simp [hlen], ⟨ρ₁, ?_, ?_⟩, ⟨ρd, ?_, ?_⟩, ⟨s.issue, ?_, ?_⟩, h.regs_advance hm hag,
    h.past_advance, ?_⟩
  · simpa using getElem?_append_of_some hk1 [s.issue]
  · rw [Core.step_ms2Bus]
    rcases hm with hm | hm <;> rw [hm] <;> exact hb1
  · simpa [Nat.add_assoc] using getElem?_append_of_some hkd [s.issue]
  · rw [Core.step_ms1]
    rcases hm with hm | hm <;> rw [hm] <;> exact hbd
  · have : g.retired.length + 1 + 2 = g.issued.length := by omega
    simp [this]
  · rw [Core.step_dt]
    rcases hm with hm | hm <;> rw [hm] <;> exact Core.esToDtsBus_toMs s
  · simpa using hes

/-- The instruction that enters `exe_stage` gets the operands of program order. -/
theorem OperandInv.entering (h : OperandInv res g s) (hm : s.move i = .go) (hbr : s.brTaken = false)
    (hag : Agrees res (g.retired ++ [s.ms2.msFinalResult])) :
    (s.step i).issue.Correct (regsAfter (g.issued ++ [s.issue]) res (g.issued.length + 1)) := by
  have hbus : (s.step i).esBus = s.dsToEsBus := by
    rw [Core.step_esBus, hm]
    simp [hbr]
  have hissue : (s.step i).issue.bus = s.dsToEsBus := hbus
  obtain ⟨-, -, -, hnf⟩ := (Core.move_eq_go s i).mp hm
  simp only [Core.stallreqForward, Forward.stallreqForward, Bool.or_eq_false_iff,
    Bool.and_eq_false_iff] at hnf
  obtain ⟨⟨hes, hdt⟩, hms1⟩ := hnf
  have clear {c f₁ f₂ f : Bool} (hc : c = false ∨ f₁ = false ∧ f₂ = false) (hf : f = f₁ ∨ f = f₂)
      (h1 : f = true) : c = false := by
    rcases hc with hc | ⟨ha, hb⟩
    · exact hc
    · rcases hf with hf | hf <;> simp_all
  refine ⟨?_, ?_, ?_, ?_⟩
  · show (s.step i).src1 = readReg _ (s.step i).esBus.rj
    rw [Core.src1_eq, hbus, Core.step_fwd, hm]
    exact h.forward_read hag (clear hes (Or.inl rfl)) (clear hdt (Or.inl rfl))
      (clear hms1 (Or.inl rfl))
  · show (s.step i).src2 = readReg _ (s.step i).esBus.rkd
    rw [Core.src2_eq, hbus, Core.step_fwd, hm]
    exact h.forward_read hag (clear hes (Or.inr rfl)) (clear hdt (Or.inr rfl))
      (clear hms1 (Or.inr rfl))
  · rw [hissue, Core.dsToEsBus_inst]
    rfl
  · rw [hissue, Core.dsToEsBus_inst]
    rfl

theorem Agrees.of_append {retired more : List Word} (h : Agrees res (retired ++ more)) :
    Agrees res retired := by
  intro j w hj
  exact h j w (getElem?_append_of_some hj more)

/-- One clock edge outside a flush. -/
theorem OperandInv.step (h : OperandInv res g s) (hne : s.exceptEn = false)
    (hag : Agrees res (s.logOrder g i).retired) : OperandInv res (s.logOrder g i) (s.step i) := by
  cases hm : s.move i with
  | hold =>
    have hlog : s.logOrder g i = g := by rw [Core.logOrder, hm]
    rw [hlog]
    exact h.step_hold hm
  | flush =>
    have := ((Core.move_eq_flush s i).mp hm).2
    simp [hne] at this
  | bubble =>
    have hlog : s.logOrder g i =
        ⟨g.issued ++ [s.issue], g.retired ++ [s.ms2.msFinalResult]⟩ := by rw [Core.logOrder, hm]
    rw [hlog] at hag ⊢
    refine h.step_advance (Or.inl hm) hag fun hz => absurd ?_ hz
    rw [Core.step_esBus, hm]
  | go =>
    have hlog : s.logOrder g i =
        ⟨g.issued ++ [s.issue], g.retired ++ [s.ms2.msFinalResult]⟩ := by rw [Core.logOrder, hm]
    rw [hlog] at hag ⊢
    refine h.step_advance (Or.inr hm) hag fun hz => ?_
    cases hbr : s.brTaken with
    | false => exact h.entering hm hbr hag
    | true =>
      -- The instruction behind a taken branch is dropped.
      exact absurd (by rw [Core.step_esBus, hm, hbr]; rfl) hz

/-! ## The result of a multiplication or division -/

/-- The lock offers an operation to the multiplier and the divider as long as it has not been
taken. -/
def MulDivLock.Inv (l : MulDivLock) : Prop :=
  l.firstEnable = true → l.mulEnMusk = true ∧ l.divEnMusk = true

theorem MulDivLock.Inv.step {l : MulDivLock} (h : l.Inv) (stall : BitVec 6) (a b : Word)
    (mulEn divEn stallreq signFlag remFlag : Bool) :
    (l.step stall a b mulEn divEn stallreq signFlag remFlag).Inv := by
  unfold MulDivLock.step
  split_ifs
  · simp [Inv]
  · simp [Inv]
  · simp [Inv]
  · exact h

/-- Once the unit has its result it keeps it while `exe_stage` is held. -/
theorem MulDivTop.step_of_not_stallreq {m : MulDivTop} {op : MulDivOp} (h : m.lock.Inv)
    (hop : op.any = true) (hs : m.stallreq op = false) (sign : Bool) (a b : Word) :
    m.step 0b111111#6 op sign a b = m := by
  obtain ⟨hmul, hdiv⟩ : m.mul.stallreq (m.mulEnLocked op) = false ∧
      m.div.stallreq (m.divEnLocked op) = false := by
    simpa [MulDivTop.stallreq] using hs
  -- The operation has been taken, or it would still be offered.
  have hfirst : m.lock.firstEnable = false := by
    cases hf : m.lock.firstEnable with
    | false => rfl
    | true =>
      obtain ⟨hm, hd⟩ := h hf
      simp only [Mul.stallreq, mulEnLocked, hm, Bool.and_true, Bool.or_eq_false_iff] at hmul
      simp only [Div.stallreq, divEnLocked, hd, Bool.and_true, Bool.or_eq_false_iff] at hdiv
      have h1 := hmul.1
      have h2 := hdiv.1
      simp only [mulEn, divEn, Bool.or_eq_false_iff] at h1 h2
      simp [MulDivOp.any, h1, h2] at hop
  have hlock : ∀ (a b : Word) (e d q f g : Bool),
      m.lock.step 0b111111#6 a b e d q f g = m.lock := by
    intro a b e d q f g
    simp [MulDivLock.step, hfirst]
  simp only [MulDivTop.step, hlock, Mul.step_of_not_stallreq hmul, Div.step_of_not_stallreq hdiv]

namespace Core

theorem lockInv_step {s : Core} (h : s.es.mulDiv.lock.Inv) (i : CoreIn) :
    (s.step i).es.mulDiv.lock.Inv := by
  rw [step_mulDiv]
  cases s.move i with
  | flush => simp [MulDivLock.Inv]
  | hold => exact h.step _ _ _ _ _ _ _ _
  | bubble => exact h.step _ _ _ _ _ _ _ _
  | go => exact h.step _ _ _ _ _ _ _ _

theorem mulDivResult_step_of_hold {s : Core} {i : CoreIn} (h : s.es.mulDiv.lock.Inv)
    (hm : s.move i = .hold) (hs : s.stallreqEs = false) (hop : s.esBus.mulDivOp.any = true) :
    (s.step i).stallreqEs = false ∧
      (s.step i).es.mulDivResult (s.step i).fwd = s.es.mulDivResult s.fwd := by
  have hbus : (s.step i).es.dsToEsBusR = s.es.dsToEsBusR := by
    have := step_esBus s i
    rwa [hm] at this
  have hfwd : (s.step i).fwd = s.fwd := by rw [step_fwd, hm]
  have hmd : (s.step i).es.mulDiv = s.es.mulDiv := by
    rw [step_mulDiv, hm]
    exact MulDivTop.step_of_not_stallreq h hop hs _ _ _
  constructor
  · simp only [stallreqEs, Es.stallreqEs, hbus, hmd]
    exact hs
  · simp only [Es.mulDivResult, Es.src1, Es.src2, hbus, hfwd, hmd]

end Core

/-! ## Runs -/

namespace CoreRun

theorem lockInv (r : CoreRun) (n : ℕ) : (r.core n).es.mulDiv.lock.Inv :=
  Clocked.invariant (A := fun _ _ => True) (P := fun s : Core => s.es.mulDiv.lock.Inv)
    (by simp [MulDivLock.Inv, start]) (fun _ i h _ => Core.lockInv_step h i) n (fun _ _ => trivial)

theorem order_succ (r : CoreRun) (n : ℕ) :
    r.order (n + 1) = (r.core n).logOrder (r.order n) (r.inp n) := rfl

/-- The log of results only grows. -/
theorem retired_prefix (r : CoreRun) {k n : ℕ} (h : k ≤ n) :
    (r.order k).retired <+: (r.order n).retired := by
  induction n, h using Nat.le_induction with
  | base => exact List.prefix_rfl
  | succ n _ ih =>
    apply ih.trans
    rw [order_succ, Core.logOrder]
    split
    · exact List.prefix_rfl
    · exact List.prefix_rfl
    · exact List.prefix_append _ _
    · exact List.prefix_append _ _

theorem operandInv (r : CoreRun) (n : ℕ) (noExcept : ∀ k < n, (r.core k).exceptEn = false)
    {res : ℕ → Word} (agrees : Agrees res (r.order n).retired) :
    OperandInv res (r.order n) (r.core n) := by
  refine Clocked.ghost_invariant (P := OperandInv res)
    (A := fun g s i => s.exceptEn = false ∧ Agrees res (s.logOrder g i).retired)
    (operandInv_reset res _ _ _) ?_ n ?_
  · intro g s i h hA
    exact h.step hA.1 hA.2
  · intro k hk
    refine ⟨noExcept k hk, ?_⟩
    obtain ⟨more, hmore⟩ := r.retired_prefix (k := k + 1) (n := n) (by omega)
    rw [← hmore] at agrees
    exact agrees.of_append

/-- In every run without an exception, every instruction leaves `exe_stage` with the operands that a
sequential execution gives it, whatever the results of loads and CSR reads still under way turn out
to be; and the result of a multiplication or division does not change while the instruction
waits. -/
theorem operands_in_program_order (r : CoreRun) (n : ℕ)
    (noExcept : ∀ k < n, (r.core k).exceptEn = false) (res : ℕ → Word)
    (agrees : Agrees res (r.order n).retired) :
    (∀ (k : ℕ) (ρ : Issue), (r.order n).issued[k]? = some ρ → ρ.bus ≠ .zero →
      ρ.Correct (regsAfter (r.order n).issued res k)) ∧
    (∀ k, r.move k = .hold → (r.core k).stallreqEs = false →
      (r.core k).esBus.mulDivOp.any = true →
      (r.core (k + 1)).stallreqEs = false ∧
      (r.core (k + 1)).issue.mulDivResult = (r.core k).issue.mulDivResult) :=
  ⟨(r.operandInv n noExcept agrees).past,
    fun k hm hs hop => Core.mulDivResult_step_of_hold (r.lockInv k) hm hs hop⟩

theorem agrees_getD (retired : List Word) : Agrees (fun j => retired.getD j 0) retired := by
  intro j w hj
  simp [List.getD, hj]

/-- `addi.w $r4, $r0, 5`, `add.w $r5, $r4, $r4`, `ld.w $r6, $r0, 16`, `add.w $r7, $r6, $r5`; loads
return
42. -/
def loadUse : CoreRun :=
  ofWords (fun n => if n = 3 then 0x02801404 else if n = 4 then 0x00101085
    else if n = 5 then 0x28804006 else if n = 6 then 0x001014c7 else 0x02800000) 42 0

/-- The last addition waits for the load and gets 42 and 10. -/
theorem operands_in_program_order_loadUse :
    (∀ k < 16, (loadUse.core k).exceptEn = false) ∧
    ((loadUse.order 16).issued.getD 14 .bubble).bus.inst = 0x001014c7 ∧
    ((loadUse.order 16).issued.getD 14 .bubble).src1 = 42 ∧
    ((loadUse.order 16).issued.getD 14 .bubble).src2 = 10 ∧
    ((loadUse.order 16).issued.getD 14 .bubble).Correct (regsAfter (loadUse.order 16).issued
      (fun j => (loadUse.order 16).retired.getD j 0) 14) := by
  have hne : ∀ k < 16, (loadUse.core k).exceptEn = false := by decide +kernel
  refine ⟨hne, by decide +kernel, by decide +kernel, by decide +kernel, ?_⟩
  exact (operands_in_program_order loadUse 16 hne _ (agrees_getD _)).1 14 _
    (by decide +kernel) (by decide +kernel)

end CoreRun

end NeulaCpu.Rtl

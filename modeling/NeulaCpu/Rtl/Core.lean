import NeulaCpu.Rtl.Stages

/-!
# The processor core

`mycpu_core`: the nine stages, the forwarding unit, the pipeline control and the branch buffer,
wired as in the source. A `Core` is the contents of all registers, a `CoreIn` the inputs of one
cycle, and `Core.step` one clock edge. The wires between the stages are functions of the two.
-/

namespace NeulaCpu.Rtl

/-- The inputs of `mycpu_core` in one cycle, clock and reset aside. -/
structure CoreIn where
  extInt : BitVec 8
  instSramRdata : Word
  dataSramRdata : Word
  stallreqDcache : Bool
  stallreqIcache : Bool
  stallreqUncache : Bool
deriving DecidableEq, Repr

/-- `stallreq_cache`. -/
def CoreIn.stallreqCache (i : CoreIn) : Bool :=
  i.stallreqDcache || i.stallreqIcache || i.stallreqUncache

structure Core where
  brTakenBuffer : Bool
  brTargetBuffer : Word
  if1 : If1
  if2 : FsBus
  if3 : FsBus
  id : Id
  rf : BitVec 5 → Word
  fwd : Forward
  es : Es
  dt : EsToDtBus
  ms1 : DtToMsBus
  ms2 : Ms2
  ws : MsToWsBus

namespace Core

/-- The registers after reset; the three words are the registers without a reset value. -/
@[simps] def reset (instBuffer dataBuffer csrLatch : Word) : Core where
  brTakenBuffer := false
  brTargetBuffer := 0
  if1 := .reset
  if2 := .zero
  if3 := .zero
  id := .reset instBuffer
  rf := fun _ => 0
  fwd := .reset
  es := .reset
  dt := .zero
  ms1 := .zero
  ms2 := .reset dataBuffer csrLatch
  ws := .zero

/-! ## Wires -/

variable (s : Core)

/-- The bus that `mem2_stage` and its `csr` work on. -/
def ms2Bus : DtToMsBus := s.ms2.ms1ToMs2BusR

/-- The instruction held in `exe_stage`. -/
def esBus : DsToEsBus := s.es.dsToEsBusR

def exceptEn : Bool := Csr.exceptEn s.ms2Bus

def newPc : Word := s.ms2.csr.newPc s.ms2Bus

def csrPlv : BitVec 2 := s.ms2.csr.plvOut s.ms2Bus

def csrHasInt : Bool := s.ms2.csr.hasIntOut

def rdata (raddr : BitVec 5) : Word := Regfile.rdata s.rf s.ws raddr

def dsToEsBus : DsToEsBus := s.id.dsToEsBus s.csrPlv s.csrHasInt s.rdata

def src1 : Word := s.es.src1 s.fwd

def src2 : Word := s.es.src2 s.fwd

def brBus : BrBus := s.es.brBus s.fwd

def esToDtsBus : EsToDtBus := s.es.esToDtsBus s.fwd

def stallreqEs : Bool := s.es.stallreqEs

/-- `br_taken`, from `exe_stage` or remembered. -/
def brTaken : Bool := s.brBus.brTaken || s.brTakenBuffer

def brTarget : Word :=
  if s.brBus.brTaken then s.brBus.brTarget
  else if s.brTakenBuffer then s.brTargetBuffer
  else 0

/-- `br_bus_real`. -/
def brBusReal : BrBus := ⟨s.brTaken, s.brTarget⟩

/-- A producer as `forward` sees it on `es_to_dts_bus`, `dts_to_ms1_bus` or `ms1_to_ms2_bus`. -/
def producer (m : DtToMsBus) : Producer :=
  ⟨m.regWe, m.dest, m.esResult, m.loadOp.any || m.csrBus.csrOp.any⟩

/-- The producer on `ms2_to_ws_bus`, whose `ctrl` is tied to zero. -/
def ms2Producer : Producer :=
  ⟨s.ms2.ms2ToWsBus.regWe, s.ms2.ms2ToWsBus.dest, s.ms2.ms2ToWsBus.msFinalResult, false⟩

def stallreqForward : Bool :=
  Forward.stallreqForward (producer s.esToDtsBus.toMs) (producer s.dt.toMs) (producer s.ms1)
    s.dsToEsBus.rj s.dsToEsBus.rkd

def ctrl (i : CoreIn) : Ctrl :=
  pipCtrl s.exceptEn s.stallreqForward s.stallreqEs i.stallreqCache

/-! ## Ports -/

/-- `inst_sram_en`. -/
def instSramEn : Bool := if s.brTaken then false else s.if2.pcValid

/-- `inst_sram_addr`. -/
def instSramAddr : Word := s.if2.fsPc

/-- `data_sram_en`, `data_sram_we`, `data_sram_addr` and `data_sram_wdata`. -/
def dataSram : DataSram := s.dt.dataSram

/-! ## The clock edge -/

def brBufferStep (c : Ctrl) : Bool × Word :=
  if !c.stall.getLsbD 0 then (false, 0)
  -- The front end is held: remember the first redirect.
  else if !s.brTakenBuffer then (s.brBus.brTaken, s.brBus.brTarget)
  else (s.brTakenBuffer, s.brTargetBuffer)

def step (i : CoreIn) : Core where
  brTakenBuffer := (s.brBufferStep (s.ctrl i)).1
  brTargetBuffer := (s.brBufferStep (s.ctrl i)).2
  if1 := s.if1.step (s.ctrl i) s.newPc s.brBusReal
  if2 := fsStep s.if2 (s.ctrl i) s.brTaken (s.if1.fs1ToFs2Bus s.brBusReal)
  if3 := fsStep s.if3 (s.ctrl i) s.brTaken s.if2
  id := s.id.step (s.ctrl i) s.brTaken s.if3 i.instSramRdata
  rf := Regfile.step s.rf s.ws
  fwd := s.fwd.step (s.ctrl i) (producer s.esToDtsBus.toMs) (producer s.dt.toMs) (producer s.ms1)
    s.ms2Producer s.dsToEsBus.rj s.dsToEsBus.rkd
  es := s.es.step (s.ctrl i) s.fwd s.brTakenBuffer s.dsToEsBus
  dt := advance .zero s.dt (s.ctrl i) s.esToDtsBus
  ms1 := advance .zero s.ms1 (s.ctrl i) s.dt.toMs
  ms2 := s.ms2.step (s.ctrl i) s.ms1 i.dataSramRdata i.stallreqCache i.extInt
  ws := wsStep s.ws (s.ctrl i) s.ms2.ms2ToWsBus

end Core

end NeulaCpu.Rtl

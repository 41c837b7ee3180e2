import NeulaCpu.Rtl.MulDiv
import NeulaCpu.Rtl.Csr

/-!
# The pipeline stages

One section per source module. A stage's registers are a structure; `reset` is what its reset branch
loads and `step` is the clock edge outside reset, with the branches of the source in the source's
order. Registers that no reset branch assigns (the two skid buffers, the read latch of `csr`) start
from an arbitrary value.
-/

namespace NeulaCpu.Rtl

/-! ## `pip_ctrl` -/

/-- The `flush` and `stall` outputs of `pip_ctrl`. -/
structure Ctrl where
  flush : Bool
  stall : BitVec 6
deriving DecidableEq, Repr

def pipCtrl (exceptEn stallreqDs stallreqEs stallreqAxi : Bool) : Ctrl :=
  -- A memory stall comes first: it holds back an exception that is about to commit.
  if stallreqAxi then ⟨false, 0b111111#6⟩
  else if exceptEn then ⟨true, 0⟩
  else if stallreqEs then ⟨false, 0b111111#6⟩
  else if stallreqDs then ⟨false, 0b000111#6⟩
  else ⟨false, 0⟩

/-! ## `if1_stage`, `if2_stage`, `if3_stage` -/

structure If1 where
  pcValid : Bool
  fsPc : Word
  excpAdef : Bool
deriving DecidableEq, Repr

namespace If1

@[simps] def reset : If1 := ⟨false, 0x1bfffffc, false⟩

/-- `|pc[1:0]`. -/
def misaligned (pc : Word) : Bool := pc.getLsbD 0 || pc.getLsbD 1

def fs1ToFs2Bus (s : If1) (br : BrBus) : FsBus :=
  ⟨if br.brTaken then false else s.pcValid, s.excpAdef, s.fsPc⟩

def nextPc (s : If1) (br : BrBus) : Word := if br.brTaken then br.brTarget else s.fsPc + 4

def step (s : If1) (c : Ctrl) (newPc : Word) (br : BrBus) : If1 :=
  if c.flush then ⟨true, newPc, misaligned newPc⟩
  else if !c.stall.getLsbD 0 then ⟨true, s.nextPc br, misaligned (s.nextPc br)⟩
  else s

end If1

/-- The bus register of `if2_stage` and of `if3_stage`; both are cleared by a taken branch whether
or not the stage is stalled. -/
def fsStep (r : FsBus) (c : Ctrl) (brTaken : Bool) (bus : FsBus) : FsBus :=
  if c.flush || brTaken then .zero
  -- No stall vector of `pip_ctrl` has bit 0 without bit 1.
  else if c.stall.getLsbD 0 && !c.stall.getLsbD 1 then .zero
  else if !c.stall.getLsbD 0 then bus
  else r

/-! ## `regfile` -/

namespace Regfile

/-- `rdata1` and `rdata2`: register 0 reads as zero, the write of this cycle is bypassed. -/
def rdata (rf : BitVec 5 → Word) (ws : MsToWsBus) (raddr : BitVec 5) : Word :=
  if raddr == 0 then 0
  else if raddr == ws.dest && ws.regWe then ws.msFinalResult
  else rf raddr

def step (rf : BitVec 5 → Word) (ws : MsToWsBus) : BitVec 5 → Word :=
  if ws.regWe then fun a => if a == ws.dest then ws.msFinalResult else rf a else rf

end Regfile

/-! ## `id_stage` -/

structure Id where
  fs2ToDsBusR : FsBus
  instSramRdataBuffer : Word
  instSramRdataR : Word
  stallFlag : Bool
deriving DecidableEq, Repr

namespace Id

@[simps] def reset (buffer : Word) : Id := ⟨.zero, buffer, 0, false⟩

def step (s : Id) (c : Ctrl) (brFlush : Bool) (fs3ToDsBus : FsBus) (instSramRdata : Word) : Id :=
  let stall1 := c.stall.getLsbD 1
  let stall2 := c.stall.getLsbD 2
  let clear : Id := { s with fs2ToDsBusR := .zero, instSramRdataR := 0, stallFlag := false }
  if c.flush then clear
  else if !stall1 && !stall2 && brFlush then clear
  else if stall1 && !stall2 then clear
  else if !stall1 && s.stallFlag then
    { s with
      fs2ToDsBusR := fs3ToDsBus
      instSramRdataR := s.instSramRdataBuffer
      stallFlag := false }
  else if !stall1 && !s.stallFlag then
    { s with
      fs2ToDsBusR := fs3ToDsBus
      instSramRdataR := instSramRdata
      stallFlag := false }
  -- From here on `id_stage` is held: the first held cycle saves the word the icache returned.
  else if !s.stallFlag && brFlush then { s with instSramRdataBuffer := 0, stallFlag := true }
  else if !s.stallFlag then { s with instSramRdataBuffer := instSramRdata, stallFlag := true }
  else s

def pcValid (s : Id) : Bool := s.fs2ToDsBusR.pcValid

def inst (s : Id) : Word := if s.pcValid then s.instSramRdataR else 0

def rkd (s : Id) : BitVec 5 :=
  if Decoder.srcRegIsRd s.inst then Decoder.rd s.inst else Decoder.rk s.inst

/-- `ds_to_es_bus`; `rdata` is the read port function of the register file. -/
def dsToEsBus (s : Id) (csrPlv : BitVec 2) (csrHasInt : Bool) (rdata : BitVec 5 → Word) :
    DsToEsBus :=
  let v := s.pcValid
  let i := s.inst
  { csrVec := if v then Decoder.csrVecL i s.fs2ToDsBusR.excpAdef csrPlv csrHasInt else .zero
    csrOp := Decoder.csrOp i
    csrWdataSel := Decoder.csrWdataSel i
    csrAddr := Decoder.csrAddr i
    csrWe := Decoder.csrWe i
    aluOp := Decoder.aluOp i
    mulDivOp := if v then Decoder.mulDivOp i else .zero
    mulDivSign := Decoder.mulDivSign i && v
    branchOp := if v then Decoder.branchOp i else .zero
    storeOp := if v then Decoder.storeOp i else .zero
    loadOp := if v then Decoder.loadOp i else .zero
    regWe := Decoder.regWe i && v
    src1IsPc := Decoder.src1IsPc i
    src2IsImm := Decoder.src2IsImm i
    src2Is4 := Decoder.src2Is4 i
    rj := Decoder.rj i
    rkd := s.rkd
    rjValue := rdata (Decoder.rj i)
    rkdValue := rdata s.rkd
    dest := Decoder.dest i
    imm := Decoder.imm i
    dsPc := s.fs2ToDsBusR.fsPc
    inst := if v then i else 0 }

end Id

/-! ## `forward` -/

/-- What `forward` sees of an in-flight producer: `ctrl` says that its result comes from a load or a
CSR read and is not there yet. -/
structure Producer where
  regWe : Bool
  dest : BitVec 5
  result : Word
  ctrl : Bool
deriving DecidableEq, Repr

/-- `src1_is_es_result` and its seven siblings. -/
def Producer.feeds (p : Producer) (r : BitVec 5) : Bool := p.regWe && r == p.dest && r != 0

structure Forward where
  src1IsForward : Bool
  src2IsForward : Bool
  src1ForwardResult : Word
  src2ForwardResult : Word
deriving DecidableEq, Repr

namespace Forward

@[simps] def reset : Forward := ⟨false, false, 0, 0⟩

/-- `src1_is_forward_w` and `src2_is_forward_w`. -/
def isForward (es dts ms1 ms2 : Producer) (r : BitVec 5) : Bool :=
  es.feeds r || dts.feeds r || ms1.feeds r || ms2.feeds r

/-- `src1_forward_result_w` and `src2_forward_result_w`: the youngest producer wins. -/
def forwardResult (es dts ms1 ms2 : Producer) (r : BitVec 5) : Word :=
  if es.feeds r then es.result
  else if dts.feeds r then dts.result
  else if ms1.feeds r then ms1.result
  else if ms2.feeds r then ms2.result
  else 0

def stallreqForward (es dts ms1 : Producer) (rj rkd : BitVec 5) : Bool :=
  (es.ctrl && (es.feeds rj || es.feeds rkd)) ||
    (dts.ctrl && (dts.feeds rj || dts.feeds rkd)) ||
    (ms1.ctrl && (ms1.feeds rj || ms1.feeds rkd))

def step (s : Forward) (c : Ctrl) (es dts ms1 ms2 : Producer) (rj rkd : BitVec 5) : Forward :=
  if c.stall.getLsbD 2 && !c.stall.getLsbD 3 then reset
  else if !c.stall.getLsbD 2 then
    { src1IsForward := isForward es dts ms1 ms2 rj
      src2IsForward := isForward es dts ms1 ms2 rkd
      src1ForwardResult := forwardResult es dts ms1 ms2 rj
      src2ForwardResult := forwardResult es dts ms1 ms2 rkd }
  else s

end Forward

/-! ## `exe_stage` -/

namespace Exe

variable (r : DsToEsBus)

/-- `alu_src1`. -/
def aluSrc1 (src1 : Word) : Word := if r.src1IsPc then r.dsPc else src1

/-- `alu_src2`. -/
def aluSrc2 (src2 : Word) : Word :=
  if r.src2Is4 then 4 else if r.src2IsImm then r.imm else src2

def excpAle (src1 : Word) : Bool :=
  Lsu.excpAle r.loadOp r.storeOp (Lsu.addr src1 r.imm)

/-- `csr_vec`: the decoder's vector with bit 7 filled in. -/
def csrVec (src1 : Word) : CsrVec := { r.csrVec with excpAle := excpAle r src1 }

def csrCancel (src1 : Word) : Bool := (csrVec r src1).any || r.csrVec.excpAdef

/-- `br_bus`: the branch unit, silenced in the shadow of an exception. -/
def brBus (csrCancelReg : Bool) (src1 src2 : Word) : BrBus where
  brTaken := Bru.brTaken r.branchOp src1 src2 && !(csrCancel r src1 || csrCancelReg)
  brTarget := Bru.brTarget r.branchOp r.dsPc src1 r.imm

/-- The memory request, silenced in the shadow of an exception. -/
def dataSram (csrCancelReg : Bool) (src1 src2 : Word) : DataSram :=
  let en := if csrCancel r src1 || csrCancelReg then false else Lsu.dataSramEn r.loadOp r.storeOp
  { en := en
    we := if en then Lsu.dataSramWe r.storeOp (Lsu.addr src1 r.imm) else 0
    addr := Lsu.addr src1 r.imm
    wdata := Lsu.dataSramWdata r.storeOp src2 }

/-- `es_result`, given what `mul_div_top` delivers. -/
def esResult (src1 src2 mulDivResult : Word) : Word :=
  if r.mulDivOp.any then mulDivResult
  else if r.loadOp.any || r.storeOp.any then Lsu.addr src1 r.imm
  else Alu.aluResult r.aluOp (aluSrc1 r src1) (aluSrc2 r src2)

def csrBus (src2 : Word) : CsrBus :=
  ⟨r.csrWe, r.csrWdataSel, r.csrOp, r.csrAddr, src2⟩

/-- `es_to_dts_bus`. -/
def esToDtsBus (csrCancelReg : Bool) (src1 src2 mulDivResult : Word) :
    EsToDtBus where
  dataSram := dataSram r csrCancelReg src1 src2
  toMs :=
    { csrVec := csrVec r src1
      csrBus := csrBus r src2
      loadOp := r.loadOp
      storeOp := r.storeOp
      regWe := r.regWe
      dest := r.dest
      esResult := esResult r src1 src2 mulDivResult
      src1 := src1
      esPc := r.dsPc
      inst := r.inst }

end Exe

structure Es where
  dsToEsBusR : DsToEsBus
  csrCancelReg : Bool
  mulDiv : MulDivTop
deriving DecidableEq, Repr

namespace Es

@[simps] def reset : Es := ⟨.zero, false, .reset⟩

variable (s : Es)

def src1 (f : Forward) : Word :=
  if f.src1IsForward then f.src1ForwardResult else s.dsToEsBusR.rjValue

def src2 (f : Forward) : Word :=
  if f.src2IsForward then f.src2ForwardResult else s.dsToEsBusR.rkdValue

def stallreqEs : Bool := s.mulDiv.stallreq s.dsToEsBusR.mulDivOp

def mulDivResult (f : Forward) : Word :=
  s.mulDiv.mulDivResult s.dsToEsBusR.mulDivOp s.dsToEsBusR.mulDivSign
    (Exe.aluSrc1 s.dsToEsBusR (s.src1 f)) (Exe.aluSrc2 s.dsToEsBusR (s.src2 f))

def csrCancel (f : Forward) : Bool := Exe.csrCancel s.dsToEsBusR (s.src1 f)

def brBus (f : Forward) : BrBus :=
  Exe.brBus s.dsToEsBusR s.csrCancelReg (s.src1 f) (s.src2 f)

def esToDtsBus (f : Forward) : EsToDtBus :=
  Exe.esToDtsBus s.dsToEsBusR s.csrCancelReg (s.src1 f) (s.src2 f) (s.mulDivResult f)

/-- `br_flush` of `exe_stage`. -/
def brFlush (f : Forward) (brTakenBuffer : Bool) : Bool :=
  (s.brBus f).brTaken || brTakenBuffer

def busStep (c : Ctrl) (f : Forward) (brTakenBuffer : Bool) (bus : DsToEsBus) : DsToEsBus :=
  if c.flush then .zero
  -- `000111`: `id_stage` is held by a load-use stall and a bubble takes its place.
  else if c.stall.getLsbD 2 && !c.stall.getLsbD 3 then .zero
  else if !c.stall.getLsbD 2 && s.brFlush f brTakenBuffer then .zero
  else if !c.stall.getLsbD 2 then bus
  else s.dsToEsBusR

def step (c : Ctrl) (f : Forward) (brTakenBuffer : Bool) (bus : DsToEsBus) : Es where
  dsToEsBusR := s.busStep c f brTakenBuffer bus
  csrCancelReg :=
    -- Once set, only the flush of the commit clears it.
    if c.flush then false else if s.csrCancel f then true else s.csrCancelReg
  mulDiv :=
    if c.flush then .reset
    else s.mulDiv.step c.stall s.dsToEsBusR.mulDivOp s.dsToEsBusR.mulDivSign
      (Exe.aluSrc1 s.dsToEsBusR (s.src1 f)) (Exe.aluSrc2 s.dsToEsBusR (s.src2 f))

end Es

/-! ## `dt_stage`, `mem1_stage` -/

/-- The bus registers of `dt_stage`, `mem1_stage` and `mem2_stage` move together. -/
def advance {α : Type} (zero r : α) (c : Ctrl) (bus : α) : α :=
  if c.flush then zero
  -- No stall vector has bit 3 without bit 4.
  else if c.stall.getLsbD 3 && !c.stall.getLsbD 4 then zero
  else if !c.stall.getLsbD 3 then bus
  else r

/-! ## `mem2_stage` -/

structure Ms2 where
  ms1ToMs2BusR : DtToMsBus
  dataSramRdataR : Word
  dataSramRdataBuffer : Word
  csrRdataBuffer : Word
  stallFlag : Bool
  csr : Csr
deriving DecidableEq, Repr

namespace Ms2

@[simps] def reset (buffer latch : Word) : Ms2 := ⟨.zero, 0, buffer, 0, false, .reset latch⟩

def csrRdata (s : Ms2) : Word := s.csr.csrRdata s.ms1ToMs2BusR

def csrResult (s : Ms2) : Word := if s.stallFlag then s.csrRdataBuffer else s.csrRdata

def msFinalResult (s : Ms2) : Word :=
  let m := s.ms1ToMs2BusR
  if m.loadOp.any then msResult m.loadOp m.esResult s.dataSramRdataR
  else if m.csrBus.csrOp.any then s.csrResult
  else m.esResult

def ms2ToWsBus (s : Ms2) : MsToWsBus where
  regWe := s.ms1ToMs2BusR.regWe
  dest := s.ms1ToMs2BusR.dest
  msFinalResult := s.msFinalResult
  msPc := s.ms1ToMs2BusR.esPc
  inst := s.ms1ToMs2BusR.inst

/-- The part of the clocked block that does not belong to `csr`. -/
def busStep (s : Ms2) (c : Ctrl) (bus : DtToMsBus) (dataSramRdata : Word) : Ms2 :=
  let stall3 := c.stall.getLsbD 3
  let stall4 := c.stall.getLsbD 4
  let clear : Ms2 :=
    { s with ms1ToMs2BusR := .zero, dataSramRdataR := 0, csrRdataBuffer := 0, stallFlag := false }
  if c.flush then clear
  else if stall3 && !stall4 then clear
  else if !stall3 && s.stallFlag then
    { s with
      ms1ToMs2BusR := bus
      dataSramRdataR := s.dataSramRdataBuffer
      csrRdataBuffer := 0
      stallFlag := false }
  else if !stall3 && !s.stallFlag then
    { s with
      ms1ToMs2BusR := bus
      dataSramRdataR := dataSramRdata
      csrRdataBuffer := 0
      stallFlag := false }
  -- The first held cycle saves what the memory and the registers returned.
  else if !s.stallFlag then
    { s with
      dataSramRdataBuffer := dataSramRdata
      csrRdataBuffer := s.csrRdata
      stallFlag := true }
  else s

def step (s : Ms2) (c : Ctrl) (bus : DtToMsBus) (dataSramRdata : Word) (stallreqAxi : Bool)
    (extInt : BitVec 8) : Ms2 :=
  { s.busStep c bus dataSramRdata with csr := s.csr.step s.ms1ToMs2BusR stallreqAxi extInt }

end Ms2

/-! ## `wb_stage` -/

def wsStep (r : MsToWsBus) (c : Ctrl) (bus : MsToWsBus) : MsToWsBus :=
  if c.flush then .zero
  else if c.stall.getLsbD 4 && !c.stall.getLsbD 5 then .zero
  else if !c.stall.getLsbD 4 then bus
  else r

end NeulaCpu.Rtl

import NeulaCpu.Rtl.Bus

/-!
# The instruction decoder

`inst_decoder`, wire by wire. The decoders of `tools.v` are one-hot (`out[i] = (in == i)`), so an
indexed decoder output is a comparison; the three instruction-format classes of the source (a full
17-bit opcode, a 10-bit one, a 6-bit one) are `op17`, `op10` and `op6`.
-/

namespace NeulaCpu.Rtl.Decoder

/-! ## Fields -/

variable (inst : Word)

def op31_26 : BitVec 6 := inst.extractLsb' 26 6

def op25_22 : BitVec 4 := inst.extractLsb' 22 4

def op21_20 : BitVec 2 := inst.extractLsb' 20 2

def op19_15 : BitVec 5 := inst.extractLsb' 15 5

def rd : BitVec 5 := inst.extractLsb' 0 5

def rj : BitVec 5 := inst.extractLsb' 5 5

def rk : BitVec 5 := inst.extractLsb' 10 5

def i12 : BitVec 12 := inst.extractLsb' 10 12

def i14 : BitVec 14 := inst.extractLsb' 10 14

def i20 : BitVec 20 := inst.extractLsb' 5 20

def i16 : BitVec 16 := inst.extractLsb' 10 16

/-- `{inst[9:0], inst[25:10]}`. -/
def i26 : BitVec 26 := inst.extractLsb' 0 10 ++ inst.extractLsb' 10 16

/-- `inst[25]`, which separates the 7-bit opcodes. -/
def inst25 : Bool := inst.getLsbD 25

/-- `inst[24]`, which separates the 8-bit opcodes. -/
def inst24 : Bool := inst.getLsbD 24

/-! ## One-hot instruction wires -/

/-- Match on all four opcode fields. -/
def op17 (a : BitVec 6) (b : BitVec 4) (c : BitVec 2) (d : BitVec 5) : Bool :=
  op31_26 inst == a && op25_22 inst == b && op21_20 inst == c && op19_15 inst == d

/-- Match on the two high opcode fields. -/
def op10 (a : BitVec 6) (b : BitVec 4) : Bool :=
  op31_26 inst == a && op25_22 inst == b

/-- Match on the high opcode field. -/
def op6 (a : BitVec 6) : Bool := op31_26 inst == a

def instAddW : Bool := op17 inst 0x00 0x0 0x1 0x00
def instSubW : Bool := op17 inst 0x00 0x0 0x1 0x02
def instSlt : Bool := op17 inst 0x00 0x0 0x1 0x04
def instSltu : Bool := op17 inst 0x00 0x0 0x1 0x05
def instNor : Bool := op17 inst 0x00 0x0 0x1 0x08
def instAnd : Bool := op17 inst 0x00 0x0 0x1 0x09
def instOr : Bool := op17 inst 0x00 0x0 0x1 0x0a
def instXor : Bool := op17 inst 0x00 0x0 0x1 0x0b
def instSllW : Bool := op17 inst 0x00 0x0 0x1 0x0e
def instSrlW : Bool := op17 inst 0x00 0x0 0x1 0x0f
def instSraW : Bool := op17 inst 0x00 0x0 0x1 0x10
def instMulW : Bool := op17 inst 0x00 0x0 0x1 0x18
def instMulhW : Bool := op17 inst 0x00 0x0 0x1 0x19
def instMulhWu : Bool := op17 inst 0x00 0x0 0x1 0x1a
def instDivW : Bool := op17 inst 0x00 0x0 0x2 0x00
def instModW : Bool := op17 inst 0x00 0x0 0x2 0x01
def instDivWu : Bool := op17 inst 0x00 0x0 0x2 0x02
def instModWu : Bool := op17 inst 0x00 0x0 0x2 0x03
def instBreak : Bool := op17 inst 0x00 0x0 0x2 0x14
def instSyscall : Bool := op17 inst 0x00 0x0 0x2 0x16
def instSlliW : Bool := op17 inst 0x00 0x1 0x0 0x01
def instSrliW : Bool := op17 inst 0x00 0x1 0x0 0x09
def instSraiW : Bool := op17 inst 0x00 0x1 0x0 0x11
def instDbar : Bool := op17 inst 0x0e 0x1 0x3 0x04
def instIbar : Bool := op17 inst 0x0e 0x1 0x3 0x05
def instSlti : Bool := op10 inst 0x00 0x8
def instSltui : Bool := op10 inst 0x00 0x9
def instAddiW : Bool := op10 inst 0x00 0xa
def instAndi : Bool := op10 inst 0x00 0xd
def instOri : Bool := op10 inst 0x00 0xe
def instXori : Bool := op10 inst 0x00 0xf
def instLdB : Bool := op10 inst 0x0a 0x0
def instLdH : Bool := op10 inst 0x0a 0x1
def instLdW : Bool := op10 inst 0x0a 0x2
def instStB : Bool := op10 inst 0x0a 0x4
def instStH : Bool := op10 inst 0x0a 0x5
def instStW : Bool := op10 inst 0x0a 0x6
def instLdBu : Bool := op10 inst 0x0a 0x8
def instLdHu : Bool := op10 inst 0x0a 0x9
def instJirl : Bool := op6 inst 0x13
def instB : Bool := op6 inst 0x14
def instBl : Bool := op6 inst 0x15
def instBeq : Bool := op6 inst 0x16
def instBne : Bool := op6 inst 0x17
def instBlt : Bool := op6 inst 0x18
def instBge : Bool := op6 inst 0x19
def instBltu : Bool := op6 inst 0x1a
def instBgeu : Bool := op6 inst 0x1b
def instLu12iW : Bool := op6 inst 0x05 && !inst25 inst
def instPcaddi : Bool := op6 inst 0x06 && !inst25 inst
def instPcaddu12i : Bool := op6 inst 0x07 && !inst25 inst
def instCsrxchg : Bool :=
  op6 inst 0x01 && !inst25 inst && !inst24 inst && (!(rj inst == 0x00) && !(rj inst == 0x01))
def instLlW : Bool := op6 inst 0x08 && !inst25 inst && !inst24 inst
def instScW : Bool := op6 inst 0x08 && !inst25 inst && inst24 inst
def instCsrrd : Bool :=
  op6 inst 0x01 && !inst25 inst && !inst24 inst && rj inst == 0x00
def instCsrwr : Bool :=
  op6 inst 0x01 && !inst25 inst && !inst24 inst && rj inst == 0x01
def instRdcntidW : Bool :=
  op17 inst 0x00 0x0 0x0 0x00 && rk inst == 0x18 && rd inst == 0x00
def instRdcntvlW : Bool :=
  op17 inst 0x00 0x0 0x0 0x00 && rk inst == 0x18 && rj inst == 0x00 && !(rd inst == 0x00)
def instRdcntvhW : Bool :=
  op17 inst 0x00 0x0 0x0 0x00 && rk inst == 0x19 && rj inst == 0x00
def instErtn : Bool :=
  op17 inst 0x01 0x9 0x0 0x10 && rk inst == 0x0e && rj inst == 0x00 && rd inst == 0x00

/-! ## Operand and result selection -/

def srcRegIsRd : Bool :=
  instBeq inst || instBne inst || instBlt inst || instBltu inst || instBge inst || instBgeu inst ||
    instStB inst || instStH inst || instStW inst || instScW inst || instCsrwr inst ||
    instCsrxchg inst

def src1IsPc : Bool :=
  instJirl inst || instBl inst || instPcaddi inst || instPcaddu12i inst

def src2IsImm : Bool :=
  instSlliW inst || instSrliW inst || instSraiW inst || instAddiW inst || instSlti inst ||
    instSltui inst || instAndi inst || instOri inst || instXori inst || instPcaddi inst ||
    instPcaddu12i inst || instLdB inst || instLdH inst || instLdW inst || instLdBu inst ||
    instLdHu inst || instStB inst || instStH inst || instStW inst || instLlW inst ||
    instScW inst || instLu12iW inst

def src2Is4 : Bool := instJirl inst || instBl inst

def dest : BitVec 5 :=
  if instBl inst then 1
  else if instRdcntidW inst then rj inst
  else rd inst

def aluOp : AluOp where
  opAdd := instAddW inst || instAddiW inst || instJirl inst || instBl inst || instPcaddi inst ||
    instPcaddu12i inst
  opSub := instSubW inst
  opSlt := instSlt inst || instSlti inst
  opSltu := instSltu inst || instSltui inst
  opAnd := instAnd inst || instAndi inst
  opNor := instNor inst
  opOr := instOr inst || instOri inst
  opXor := instXor inst || instXori inst
  opSll := instSllW inst || instSlliW inst
  opSrl := instSrlW inst || instSrliW inst
  opSra := instSraW inst || instSraiW inst
  opLui := instLu12iW inst

/-! ## Immediates -/

def needUi5 : Bool := instSlliW inst || instSrliW inst || instSraiW inst

def needSi12 : Bool :=
  instAddiW inst || instLdB inst || instLdH inst || instLdW inst || instStB inst || instStH inst ||
    instStW inst || instLdBu inst || instLdHu inst || instSlti inst || instSltui inst

def needUi12 : Bool := instAndi inst || instOri inst || instXori inst

def needSi14Pc : Bool := instLlW inst || instScW inst

def needSi16Pc : Bool :=
  instJirl inst || instBeq inst || instBne inst || instBlt inst || instBge inst ||
    instBltu inst || instBgeu inst

def needSi20 : Bool := instLu12iW inst || instPcaddu12i inst

def needSi20Pc : Bool := instPcaddi inst

def needSi26Pc : Bool := instB inst || instBl inst

/-- `{32{b}} & x`. -/
def mask (b : Bool) (x : Word) : Word := if b then x else 0

@[simp] theorem mask_true (x : Word) : mask true x = x := rfl

@[simp] theorem mask_false (x : Word) : mask false x = 0 := rfl

def imm : Word :=
  mask (needUi5 inst) ((rk inst).setWidth 32) |||
    mask (needSi12 inst) ((i12 inst).signExtend 32) |||
    mask (needUi12 inst) ((i12 inst).setWidth 32) |||
    mask (needSi14Pc inst) ((i14 inst ++ 0#2).signExtend 32) |||
    mask (needSi16Pc inst) ((i16 inst ++ 0#2).signExtend 32) |||
    mask (needSi20 inst) (i20 inst ++ 0#12) |||
    mask (needSi20Pc inst) ((i20 inst ++ 0#2).signExtend 32) |||
    mask (needSi26Pc inst) ((i26 inst ++ 0#2).signExtend 32)

/-! ## Unit operations -/

def mulDivOp : MulDivOp where
  mul := instMulW inst
  mulh := instMulhW inst || instMulhWu inst
  div := instDivW inst || instDivWu inst
  mod := instModW inst || instModWu inst

def mulDivSign : Bool :=
  instMulW inst || instMulhW inst || instDivW inst || instModW inst

def branchOp : BranchOp where
  instBeq := instBeq inst
  instBne := instBne inst
  instBlt := instBlt inst
  instBge := instBge inst
  instBltu := instBltu inst
  instBgeu := instBgeu inst
  instJirl := instJirl inst
  instBl := instBl inst
  instB := instB inst

def loadOp : LoadOp where
  instLdB := instLdB inst
  instLdH := instLdH inst
  instLdW := instLdW inst
  instLdBu := instLdBu inst
  instLdHu := instLdHu inst
  instLlW := instLlW inst

def storeOp : StoreOp where
  instStB := instStB inst
  instStH := instStH inst
  instStW := instStW inst

def regWe : Bool :=
  !instStB inst && !instStH inst && !instStW inst && !instBeq inst && !instBne inst &&
    !instBlt inst && !instBge inst && !instBltu inst && !instBgeu inst && !instB inst &&
    !instSyscall inst && !instDbar inst && !instIbar inst

def csrWe : Bool := instCsrwr inst || instCsrxchg inst

def csrOp : CsrOp where
  instCsrrd := instCsrrd inst
  instCsrwr := instCsrwr inst
  instCsrxchg := instCsrxchg inst
  instRdcntidW := instRdcntidW inst
  instRdcntvhW := instRdcntvhW inst
  instRdcntvlW := instRdcntvlW inst
  instScW := instScW inst

def csrAddr : BitVec 14 := inst.extractLsb' 10 14

def csrWdataSel : Bool := instCsrxchg inst

/-! ## Exceptions found while decoding -/

/-- `inst_valid`; `pcaddi` decodes but is not in the list of the source. -/
def instValid : Bool :=
  instAddW inst || instSubW inst || instSlt inst || instSltu inst || instNor inst || instAnd inst ||
    instOr inst || instXor inst || instSllW inst || instSrlW inst || instSraW inst ||
    instMulW inst || instMulhW inst || instMulhWu inst || instDivW inst || instModW inst ||
    instDivWu inst || instModWu inst || instBreak inst || instSyscall inst || instSlliW inst ||
    instSrliW inst || instSraiW inst || instSlti inst || instSltui inst || instAddiW inst ||
    instAndi inst || instOri inst || instXori inst || instLdB inst || instLdH inst ||
    instLdW inst || instStB inst || instStH inst || instStW inst || instLdBu inst ||
    instLdHu inst || instLlW inst || instScW inst || instJirl inst || instB inst || instBl inst ||
    instBeq inst || instBne inst || instBlt inst || instBge inst || instBltu inst ||
    instBgeu inst || instLu12iW inst || instPcaddu12i inst || instCsrrd inst || instCsrwr inst ||
    instCsrxchg inst || instRdcntidW inst || instRdcntvhW inst || instRdcntvlW inst ||
    instErtn inst || instDbar inst || instIbar inst

def excpIne : Bool := !instValid inst

def kernelInst : Bool :=
  instCsrrd inst || instCsrwr inst || instCsrxchg inst || instErtn inst

def excpIpe (csrPlv : BitVec 2) : Bool := kernelInst inst && csrPlv == 0b11#2

/-- `csr_vec_l`, with the bit of the misaligned data access still clear. -/
def csrVecL (excpAdef : Bool) (csrPlv : BitVec 2) (csrHasInt : Bool) : CsrVec where
  excpAle := false
  excpAdef := excpAdef
  excpIpe := excpIpe inst csrPlv
  excpIne := excpIne inst
  instBreak := instBreak inst
  instSyscall := instSyscall inst
  instErtn := instErtn inst
  hasInt := csrHasInt

end NeulaCpu.Rtl.Decoder

import Mathlib.Tactic

/-!
# Control bundles and inter-stage buses

The stages of `mycpu_core` talk over packed buses (`fs1_to_fs2_bus`, `ds_to_es_bus`, ...). Every bus
is packed by one concatenation and unpacked by the mirror concatenation of the next stage, so a bus
is a structure with the fields of that concatenation, in its order. The same holds for the operation
vectors (`alu_op`, `load_op`, `csr_vec`, ...). The all-zero value that a stage register takes on
reset, on a flush or for a bubble is the `zero` of its bus.
-/

namespace NeulaCpu.Rtl

/-- A 32-bit bus. -/
abbrev Word := BitVec 32

/-! ## Operation vectors -/

/-- `alu_op[11:0]`, bit 0 first. -/
structure AluOp where
  opAdd : Bool
  opSub : Bool
  opSlt : Bool
  opSltu : Bool
  opAnd : Bool
  opNor : Bool
  opOr : Bool
  opXor : Bool
  opSll : Bool
  opSrl : Bool
  opSra : Bool
  opLui : Bool
deriving DecidableEq, Repr

/-- `mul_div_op[3:0]`, bit 0 first: `mul.w`, the high products, the quotients, the remainders. -/
structure MulDivOp where
  mul : Bool
  mulh : Bool
  div : Bool
  mod : Bool
deriving DecidableEq, Repr

/-- `branch_op[8:0]`, bit 8 first. -/
structure BranchOp where
  instBeq : Bool
  instBne : Bool
  instBlt : Bool
  instBge : Bool
  instBltu : Bool
  instBgeu : Bool
  instJirl : Bool
  instBl : Bool
  instB : Bool
deriving DecidableEq, Repr

/-- `load_op[5:0]`, bit 5 first. -/
structure LoadOp where
  instLdB : Bool
  instLdH : Bool
  instLdW : Bool
  instLdBu : Bool
  instLdHu : Bool
  instLlW : Bool
deriving DecidableEq, Repr

/-- `store_op[2:0]`, bit 2 first. -/
structure StoreOp where
  instStB : Bool
  instStH : Bool
  instStW : Bool
deriving DecidableEq, Repr

/-- `csr_op[6:0]`, bit 6 first. -/
structure CsrOp where
  instCsrrd : Bool
  instCsrwr : Bool
  instCsrxchg : Bool
  instRdcntidW : Bool
  instRdcntvhW : Bool
  instRdcntvlW : Bool
  instScW : Bool
deriving DecidableEq, Repr

/-- `csr_vec[7:0]`, bit 7 first; bits 63:8 are zero in every producer. -/
structure CsrVec where
  excpAle : Bool
  excpAdef : Bool
  excpIpe : Bool
  excpIne : Bool
  instBreak : Bool
  instSyscall : Bool
  instErtn : Bool
  hasInt : Bool
deriving DecidableEq, Repr

@[simps] def AluOp.zero : AluOp :=
  ⟨false, false, false, false, false, false, false, false, false, false, false, false⟩

@[simps] def MulDivOp.zero : MulDivOp := ⟨false, false, false, false⟩

@[simps] def BranchOp.zero : BranchOp :=
  ⟨false, false, false, false, false, false, false, false, false⟩

@[simps] def LoadOp.zero : LoadOp := ⟨false, false, false, false, false, false⟩

@[simps] def StoreOp.zero : StoreOp := ⟨false, false, false⟩

@[simps] def CsrOp.zero : CsrOp := ⟨false, false, false, false, false, false, false⟩

@[simps] def CsrVec.zero : CsrVec := ⟨false, false, false, false, false, false, false, false⟩

/-- `|mul_div_op`. -/
def MulDivOp.any (o : MulDivOp) : Bool := o.mul || o.mulh || o.div || o.mod

/-- `|load_op`. -/
def LoadOp.any (o : LoadOp) : Bool :=
  o.instLdB || o.instLdH || o.instLdW || o.instLdBu || o.instLdHu || o.instLlW

/-- `|store_op`. -/
def StoreOp.any (o : StoreOp) : Bool := o.instStB || o.instStH || o.instStW

/-- `|csr_op`. -/
def CsrOp.any (o : CsrOp) : Bool :=
  o.instCsrrd || o.instCsrwr || o.instCsrxchg || o.instRdcntidW || o.instRdcntvhW ||
    o.instRdcntvlW || o.instScW

/-- `|csr_vec[7:0]`. -/
def CsrVec.any (v : CsrVec) : Bool :=
  v.excpAle || v.excpAdef || v.excpIpe || v.excpIne || v.instBreak || v.instSyscall ||
    v.instErtn || v.hasInt

@[simp] theorem MulDivOp.any_zero : MulDivOp.zero.any = false := rfl

@[simp] theorem LoadOp.any_zero : LoadOp.zero.any = false := rfl

@[simp] theorem StoreOp.any_zero : StoreOp.zero.any = false := rfl

@[simp] theorem CsrOp.any_zero : CsrOp.zero.any = false := rfl

@[simp] theorem CsrVec.any_zero : CsrVec.zero.any = false := rfl

/-! ## Buses -/

/-- `fs1_to_fs2_bus`, `fs2_to_fs3_bus` and `fs3_to_ds_bus`. -/
structure FsBus where
  pcValid : Bool
  excpAdef : Bool
  fsPc : Word
deriving DecidableEq, Repr

@[simps] def FsBus.zero : FsBus := ⟨false, false, 0⟩

/-- `br_bus`: whether the fetch address is redirected, and where to. -/
structure BrBus where
  brTaken : Bool
  brTarget : Word
deriving DecidableEq, Repr

/-- `ds_to_es_bus`. -/
structure DsToEsBus where
  csrVec : CsrVec
  csrOp : CsrOp
  csrWdataSel : Bool
  csrAddr : BitVec 14
  csrWe : Bool
  aluOp : AluOp
  mulDivOp : MulDivOp
  mulDivSign : Bool
  branchOp : BranchOp
  storeOp : StoreOp
  loadOp : LoadOp
  regWe : Bool
  src1IsPc : Bool
  src2IsImm : Bool
  src2Is4 : Bool
  rj : BitVec 5
  rkd : BitVec 5
  rjValue : Word
  rkdValue : Word
  dest : BitVec 5
  imm : Word
  dsPc : Word
  inst : Word
deriving DecidableEq, Repr

@[simps] def DsToEsBus.zero : DsToEsBus where
  csrVec := .zero
  csrOp := .zero
  csrWdataSel := false
  csrAddr := 0
  csrWe := false
  aluOp := .zero
  mulDivOp := .zero
  mulDivSign := false
  branchOp := .zero
  storeOp := .zero
  loadOp := .zero
  regWe := false
  src1IsPc := false
  src2IsImm := false
  src2Is4 := false
  rj := 0
  rkd := 0
  rjValue := 0
  rkdValue := 0
  dest := 0
  imm := 0
  dsPc := 0
  inst := 0

/-- `csr_bus`: the CSR access of an instruction, carried from `exe_stage` to `mem2_stage`. -/
structure CsrBus where
  csrWe : Bool
  csrWdataSel : Bool
  csrOp : CsrOp
  csrAddr : BitVec 14
  csrWdata : Word
deriving DecidableEq, Repr

@[simps] def CsrBus.zero : CsrBus := ⟨false, false, .zero, 0, 0⟩

/-- `dts_to_ms1_bus` and `ms1_to_ms2_bus`. -/
structure DtToMsBus where
  csrVec : CsrVec
  csrBus : CsrBus
  loadOp : LoadOp
  storeOp : StoreOp
  regWe : Bool
  dest : BitVec 5
  esResult : Word
  src1 : Word
  esPc : Word
  inst : Word
deriving DecidableEq, Repr

@[simps] def DtToMsBus.zero : DtToMsBus where
  csrVec := .zero
  csrBus := .zero
  loadOp := .zero
  storeOp := .zero
  regWe := false
  dest := 0
  esResult := 0
  src1 := 0
  esPc := 0
  inst := 0

/-- The `data_sram_*` request that `exe_stage` computes and `dt_stage` drives. -/
structure DataSram where
  en : Bool
  we : BitVec 4
  addr : Word
  wdata : Word
deriving DecidableEq, Repr

@[simps] def DataSram.zero : DataSram := ⟨false, 0, 0, 0⟩

/-- `es_to_dts_bus`: the memory request in front of the part that goes on to `mem1_stage`. -/
structure EsToDtBus where
  dataSram : DataSram
  toMs : DtToMsBus
deriving DecidableEq, Repr

@[simps] def EsToDtBus.zero : EsToDtBus := ⟨.zero, .zero⟩

/-- The part `[101:0]` of `ms2_to_ws_bus` that `wb_stage` unpacks. -/
structure MsToWsBus where
  regWe : Bool
  dest : BitVec 5
  msFinalResult : Word
  msPc : Word
  inst : Word
deriving DecidableEq, Repr

@[simps] def MsToWsBus.zero : MsToWsBus := ⟨false, 0, 0, 0, 0⟩

end NeulaCpu.Rtl

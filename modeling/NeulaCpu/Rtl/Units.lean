import NeulaCpu.Rtl.Decoder

/-!
# The combinational execution units

`alu`, `bru` and `lsu`, and the byte steering of loads in `mem2_stage`. The multiplier and divider
have state and live in `NeulaCpu.Rtl.MulDiv`.
-/

namespace NeulaCpu.Rtl

open Decoder (mask)

/-! ## `alu` -/

namespace Alu

variable (op : AluOp)

/-- Whether the adder subtracts: `op_sub | op_slt | op_sltu`. -/
def subtracts : Bool := op.opSub || op.opSlt || op.opSltu

def adderB (src2 : Word) : Word := if subtracts op then ~~~src2 else src2

def adderCin : BitVec 33 := if subtracts op then 1 else 0

/-- `{adder_cout, adder_result}`, a 33-bit sum. -/
def adder (src1 src2 : Word) : BitVec 33 :=
  src1.setWidth 33 + (adderB op src2).setWidth 33 + adderCin op

def adderResult (src1 src2 : Word) : Word := (adder op src1 src2).setWidth 32

def adderCout (src1 src2 : Word) : Bool := (adder op src1 src2).getLsbD 32

def sltResult (src1 src2 : Word) : Word :=
  (BitVec.ofBool ((src1.getLsbD 31 && !src2.getLsbD 31) ||
    ((src1.getLsbD 31 == src2.getLsbD 31) && (adderResult op src1 src2).getLsbD 31))).setWidth 32

def sltuResult (src1 src2 : Word) : Word :=
  (BitVec.ofBool (!adderCout op src1 src2)).setWidth 32

def sllResult (src1 src2 : Word) : Word := src1 <<< (src2.extractLsb' 0 5)

/-- `sr64_result[31:0]`: one 64-bit right shift serves `srl` and `sra`. -/
def srResult (src1 src2 : Word) : Word :=
  ((mask (op.opSra && src1.getLsbD 31) (BitVec.allOnes 32) ++ src1) >>>
    (src2.extractLsb' 0 5)).setWidth 32

def aluResult (src1 src2 : Word) : Word :=
  mask (op.opAdd || op.opSub) (adderResult op src1 src2) |||
    mask op.opSlt (sltResult op src1 src2) |||
    mask op.opSltu (sltuResult op src1 src2) |||
    mask op.opAnd (src1 &&& src2) |||
    mask op.opNor (~~~(src1 ||| src2)) |||
    mask op.opOr (src1 ||| src2) |||
    mask op.opXor (src1 ^^^ src2) |||
    mask op.opLui src2 |||
    mask op.opSll (sllResult src1 src2) |||
    mask (op.opSrl || op.opSra) (srResult op src1 src2)

end Alu

/-! ## `bru` -/

namespace Bru

def rjLtuRd (rjValue rkdValue : Word) : Bool := rjValue.ult rkdValue

def rjLtRd (rjValue rkdValue : Word) : Bool :=
  if rjValue.getLsbD 31 && !rkdValue.getLsbD 31 then true
  else if !rjValue.getLsbD 31 && rkdValue.getLsbD 31 then false
  else rjLtuRd rjValue rkdValue

def brTaken (op : BranchOp) (rjValue rkdValue : Word) : Bool :=
  (op.instBeq && rjValue == rkdValue) ||
    (op.instBne && !(rjValue == rkdValue)) ||
    (op.instBlt && rjLtRd rjValue rkdValue) ||
    (op.instBge && !rjLtRd rjValue rkdValue) ||
    (op.instBltu && rjLtuRd rjValue rkdValue) ||
    (op.instBgeu && !rjLtuRd rjValue rkdValue) ||
    op.instJirl || op.instBl || op.instB

def brTarget (op : BranchOp) (pc rjValue imm : Word) : Word :=
  mask (op.instBeq || op.instBne || op.instBl || op.instB || op.instBlt || op.instBge ||
      op.instBltu || op.instBgeu) (pc + imm) |||
    mask op.instJirl (rjValue + imm)

@[simp] theorem brTaken_zero (rjValue rkdValue : Word) :
    brTaken .zero rjValue rkdValue = false := rfl

end Bru

/-! ## `lsu` -/

namespace Lsu

/-- `decoder_2_4`: the one-hot byte select of the two low address bits. -/
def byteSel (x : BitVec 2) : BitVec 4 := 1#4 <<< x

def addr (rjValue imm : Word) : Word := rjValue + imm

def dataSramEn (loadOp : LoadOp) (storeOp : StoreOp) : Bool := storeOp.any || loadOp.any

/-- Misalignment is checked for half and word accesses; `ll.w` is not in the list of the source. -/
def excpAle (loadOp : LoadOp) (storeOp : StoreOp) (addr : Word) : Bool :=
  dataSramEn loadOp storeOp &&
    (((storeOp.instStB || loadOp.instLdB || loadOp.instLdBu) && false) ||
      ((storeOp.instStH || loadOp.instLdH || loadOp.instLdHu) && addr.getLsbD 0) ||
      ((storeOp.instStW || loadOp.instLdW) && (addr.getLsbD 0 || addr.getLsbD 1)))

def dataSramWe (storeOp : StoreOp) (addr : Word) : BitVec 4 :=
  let sel := byteSel (addr.extractLsb' 0 2)
  if storeOp.instStB then sel
  else if storeOp.instStH then
    BitVec.ofBool (sel.getLsbD 2) ++ BitVec.ofBool (sel.getLsbD 2) ++
      BitVec.ofBool (sel.getLsbD 0) ++ BitVec.ofBool (sel.getLsbD 0)
  else if storeOp.instStW then
    BitVec.ofBool (sel.getLsbD 0) ++ BitVec.ofBool (sel.getLsbD 0) ++
      BitVec.ofBool (sel.getLsbD 0) ++ BitVec.ofBool (sel.getLsbD 0)
  else 0

def dataSramWdata (storeOp : StoreOp) (rkdValue : Word) : Word :=
  let b := rkdValue.extractLsb' 0 8
  let h := rkdValue.extractLsb' 0 16
  if storeOp.instStB then b ++ b ++ b ++ b
  else if storeOp.instStH then h ++ h
  else if storeOp.instStW then rkdValue
  else 0

@[simp] theorem excpAle_zero (a : Word) : excpAle .zero .zero a = false := rfl

end Lsu

/-! ## Byte steering of a load -/

/-- `ms_result`: the loaded bytes, picked by the low address bits and extended. -/
def msResult (op : LoadOp) (esResult data : Word) : Word :=
  let sel := Lsu.byteSel (esResult.extractLsb' 0 2)
  if op.instLdB && sel.getLsbD 0 then (data.extractLsb' 0 8).signExtend 32
  else if op.instLdB && sel.getLsbD 1 then (data.extractLsb' 8 8).signExtend 32
  else if op.instLdB && sel.getLsbD 2 then (data.extractLsb' 16 8).signExtend 32
  else if op.instLdB && sel.getLsbD 3 then (data.extractLsb' 24 8).signExtend 32
  else if op.instLdBu && sel.getLsbD 0 then (data.extractLsb' 0 8).setWidth 32
  else if op.instLdBu && sel.getLsbD 1 then (data.extractLsb' 8 8).setWidth 32
  else if op.instLdBu && sel.getLsbD 2 then (data.extractLsb' 16 8).setWidth 32
  else if op.instLdBu && sel.getLsbD 3 then (data.extractLsb' 24 8).setWidth 32
  else if op.instLdH && sel.getLsbD 0 then (data.extractLsb' 0 16).signExtend 32
  else if op.instLdH && sel.getLsbD 2 then (data.extractLsb' 16 16).signExtend 32
  else if op.instLdHu && sel.getLsbD 0 then (data.extractLsb' 0 16).setWidth 32
  else if op.instLdHu && sel.getLsbD 2 then (data.extractLsb' 16 16).setWidth 32
  else if op.instLdW && sel.getLsbD 0 then data
  else 0

end NeulaCpu.Rtl

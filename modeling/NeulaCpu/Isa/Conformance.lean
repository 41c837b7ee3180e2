import NeulaCpu.Pipeline.Cancel
import NeulaCpu.Isa.Datapath

/-!
# One instruction through decoder and execution stage

For every instruction of `NeulaCpu.Isa.La32r`, with arbitrary operand fields, the composition of
`inst_decoder`, the operand multiplexers of `exe_stage`, `alu`, `bru` and `lsu` has the effect that
the architecture gives it. The proof goes through the control word of each instruction: the decoder
produces it (`DecodesTo`), and the datapath under that control word computes the effect.
-/

namespace NeulaCpu.Rtl

open Isa (Inst format3R format2RI12 format1RI20 format2RI16 formatI26)
open BitVec (extractLsb'_append_eq_of_le extractLsb'_append_eq_of_add_le extractLsb'_eq_self)

/-! ## Fields of an encoded word -/

namespace Decoder

section Format3R

variable (o : BitVec 17) (k j d : BitVec 5)

theorem op31_26_format3R : op31_26 (format3R o k j d) = o.extractLsb' 11 6 := by
  simp (disch := omega) only [op31_26, format3R, extractLsb'_append_eq_of_le, Nat.reduceSub]

theorem op25_22_format3R : op25_22 (format3R o k j d) = o.extractLsb' 7 4 := by
  simp (disch := omega) only [op25_22, format3R, extractLsb'_append_eq_of_le, Nat.reduceSub]

theorem op21_20_format3R : op21_20 (format3R o k j d) = o.extractLsb' 5 2 := by
  simp (disch := omega) only [op21_20, format3R, extractLsb'_append_eq_of_le, Nat.reduceSub]

theorem op19_15_format3R : op19_15 (format3R o k j d) = o.extractLsb' 0 5 := by
  simp (disch := omega) only [op19_15, format3R, extractLsb'_append_eq_of_le, Nat.reduceSub]

theorem rk_format3R : rk (format3R o k j d) = k := by
  simp (disch := omega) only [rk, format3R, extractLsb'_append_eq_of_le,
    extractLsb'_append_eq_of_add_le, Nat.reduceSub, extractLsb'_eq_self]

theorem rj_format3R : rj (format3R o k j d) = j := by
  simp (disch := omega) only [rj, format3R, extractLsb'_append_eq_of_le,
    extractLsb'_append_eq_of_add_le, Nat.reduceSub, extractLsb'_eq_self]

theorem rd_format3R : rd (format3R o k j d) = d := by
  simp (disch := omega) only [rd, format3R, extractLsb'_append_eq_of_add_le, extractLsb'_eq_self]

end Format3R

section Format2RI12

variable (o : BitVec 10) (i : BitVec 12) (j d : BitVec 5)

theorem op31_26_format2RI12 : op31_26 (format2RI12 o i j d) = o.extractLsb' 4 6 := by
  simp (disch := omega) only [op31_26, format2RI12, extractLsb'_append_eq_of_le, Nat.reduceSub]

theorem op25_22_format2RI12 : op25_22 (format2RI12 o i j d) = o.extractLsb' 0 4 := by
  simp (disch := omega) only [op25_22, format2RI12, extractLsb'_append_eq_of_le, Nat.reduceSub]

theorem i12_format2RI12 : i12 (format2RI12 o i j d) = i := by
  simp (disch := omega) only [i12, format2RI12, extractLsb'_append_eq_of_le,
    extractLsb'_append_eq_of_add_le, Nat.reduceSub, extractLsb'_eq_self]

theorem rj_format2RI12 : rj (format2RI12 o i j d) = j := by
  simp (disch := omega) only [rj, format2RI12, extractLsb'_append_eq_of_le,
    extractLsb'_append_eq_of_add_le, Nat.reduceSub, extractLsb'_eq_self]

theorem rd_format2RI12 : rd (format2RI12 o i j d) = d := by
  simp (disch := omega) only [rd, format2RI12, extractLsb'_append_eq_of_add_le, extractLsb'_eq_self]

end Format2RI12

section Format1RI20

variable (o : BitVec 7) (i : BitVec 20) (d : BitVec 5)

theorem op31_26_format1RI20 : op31_26 (format1RI20 o i d) = o.extractLsb' 1 6 := by
  simp (disch := omega) only [op31_26, format1RI20, extractLsb'_append_eq_of_le, Nat.reduceSub]

theorem inst25_format1RI20 : inst25 (format1RI20 o i d) = o.getLsbD 0 := by
  simp only [inst25, format1RI20]
  rw [BitVec.getLsbD_append, if_neg (by omega), BitVec.getLsbD_append, if_neg (by omega)]

theorem i20_format1RI20 : i20 (format1RI20 o i d) = i := by
  simp (disch := omega) only [i20, format1RI20, extractLsb'_append_eq_of_le,
    extractLsb'_append_eq_of_add_le, Nat.reduceSub, extractLsb'_eq_self]

theorem rd_format1RI20 : rd (format1RI20 o i d) = d := by
  simp (disch := omega) only [rd, format1RI20, extractLsb'_append_eq_of_add_le, extractLsb'_eq_self]

end Format1RI20

section Format2RI16

variable (o : BitVec 6) (i : BitVec 16) (j d : BitVec 5)

theorem op31_26_format2RI16 : op31_26 (format2RI16 o i j d) = o := by
  simp (disch := omega) only [op31_26, format2RI16, extractLsb'_append_eq_of_le, Nat.reduceSub,
    extractLsb'_eq_self]

theorem i16_format2RI16 : i16 (format2RI16 o i j d) = i := by
  simp (disch := omega) only [i16, format2RI16, extractLsb'_append_eq_of_le,
    extractLsb'_append_eq_of_add_le, Nat.reduceSub, extractLsb'_eq_self]

theorem rj_format2RI16 : rj (format2RI16 o i j d) = j := by
  simp (disch := omega) only [rj, format2RI16, extractLsb'_append_eq_of_le,
    extractLsb'_append_eq_of_add_le, Nat.reduceSub, extractLsb'_eq_self]

theorem rd_format2RI16 : rd (format2RI16 o i j d) = d := by
  simp (disch := omega) only [rd, format2RI16, extractLsb'_append_eq_of_add_le, extractLsb'_eq_self]

end Format2RI16

section FormatI26

variable (o : BitVec 6) (i : BitVec 26)

theorem op31_26_formatI26 : op31_26 (formatI26 o i) = o := by
  simp (disch := omega) only [op31_26, formatI26, extractLsb'_append_eq_of_le, Nat.reduceSub,
    extractLsb'_eq_self]

/-- The two parts of the offset are put back in order. -/
theorem i26_formatI26 : i26 (formatI26 o i) = i := by
  have hlow : (formatI26 o i).extractLsb' 0 10 = i.extractLsb' 16 10 := by
    simp (disch := omega) only [formatI26, extractLsb'_append_eq_of_add_le, extractLsb'_eq_self]
  have hhigh : (formatI26 o i).extractLsb' 10 16 = i.extractLsb' 0 16 := by
    simp (disch := omega) only [formatI26, extractLsb'_append_eq_of_le,
      extractLsb'_append_eq_of_add_le, Nat.reduceSub, extractLsb'_eq_self]
  rw [i26, hlow, hhigh, BitVec.extractLsb'_append_extractLsb'_eq_extractLsb' (by omega)]
  exact extractLsb'_eq_self

end FormatI26

end Decoder

/-! ## Control words -/

/-- The immediate formats of the decoder. -/
inductive ImmKind
  | none | ui5 | si12 | ui12 | si14Pc | si16Pc | si20 | si20Pc | si26Pc
deriving DecidableEq, Repr

/-- The immediate of a word in a given format. -/
def ImmKind.value (w : Word) : ImmKind → Word
  | none => 0
  | ui5 => (Decoder.rk w).setWidth 32
  | si12 => (Decoder.i12 w).signExtend 32
  | ui12 => (Decoder.i12 w).setWidth 32
  | si14Pc => (Decoder.i14 w ++ 0#2).signExtend 32
  | si16Pc => (Decoder.i16 w ++ 0#2).signExtend 32
  | si20 => Decoder.i20 w ++ 0#12
  | si20Pc => (Decoder.i20 w ++ 0#2).signExtend 32
  | si26Pc => (Decoder.i26 w ++ 0#2).signExtend 32

/-- What the decoder tells the execution stage about an instruction of this set. -/
structure Control where
  aluOp : AluOp
  branchOp : BranchOp
  loadOp : LoadOp
  storeOp : StoreOp
  regWe : Bool
  src1IsPc : Bool
  src2IsImm : Bool
  src2Is4 : Bool
  srcRegIsRd : Bool
  imm : ImmKind

def Control.zero : Control := ⟨.zero, .zero, .zero, .zero, false, false, false, false, false, .none⟩

def Alu.ofOp3R : Isa.Op3R → AluOp
  | .addW => { AluOp.zero with opAdd := true }
  | .subW => { AluOp.zero with opSub := true }
  | .slt => { AluOp.zero with opSlt := true }
  | .sltu => { AluOp.zero with opSltu := true }
  | .nor => { AluOp.zero with opNor := true }
  | .and => { AluOp.zero with opAnd := true }
  | .or => { AluOp.zero with opOr := true }
  | .xor => { AluOp.zero with opXor := true }
  | .sllW => { AluOp.zero with opSll := true }
  | .srlW => { AluOp.zero with opSrl := true }
  | .sraW => { AluOp.zero with opSra := true }

def Alu.ofShiftOp : Isa.ShiftOp → AluOp
  | .slliW => { AluOp.zero with opSll := true }
  | .srliW => { AluOp.zero with opSrl := true }
  | .sraiW => { AluOp.zero with opSra := true }

def Alu.ofImmOp : Isa.ImmOp → AluOp
  | .slti => { AluOp.zero with opSlt := true }
  | .sltui => { AluOp.zero with opSltu := true }
  | .addiW => { AluOp.zero with opAdd := true }
  | .andi => { AluOp.zero with opAnd := true }
  | .ori => { AluOp.zero with opOr := true }
  | .xori => { AluOp.zero with opXor := true }

/-- `lu12i.w` passes its second operand through. -/
def Alu.lui : AluOp := { AluOp.zero with opLui := true }

/-- Arithmetic immediates are sign-extended, bitwise ones zero-extended. -/
def ImmKind.ofImmOp : Isa.ImmOp → ImmKind
  | .slti | .sltui | .addiW => si12
  | .andi | .ori | .xori => ui12

def Bru.ofCond : Isa.Cond → BranchOp
  | .beq => { BranchOp.zero with instBeq := true }
  | .bne => { BranchOp.zero with instBne := true }
  | .blt => { BranchOp.zero with instBlt := true }
  | .bge => { BranchOp.zero with instBge := true }
  | .bltu => { BranchOp.zero with instBltu := true }
  | .bgeu => { BranchOp.zero with instBgeu := true }

/-- The control word of each instruction. -/
def Control.ofInst : Inst → Control
  | .op3 op _ _ _ => { zero with aluOp := Alu.ofOp3R op, regWe := true }
  | .shift op _ _ _ =>
    { zero with aluOp := Alu.ofShiftOp op, regWe := true, src2IsImm := true, imm := .ui5 }
  | .opImm op _ _ _ =>
    { zero with aluOp := Alu.ofImmOp op, regWe := true, src2IsImm := true, imm := .ofImmOp op }
  | .lu12iW _ _ =>
    { zero with
      aluOp := Alu.lui
      regWe := true
      src2IsImm := true
      imm := .si20 }
  | .pcaddu12i _ _ =>
    { zero with
      aluOp := Alu.ofOp3R .addW
      regWe := true
      src1IsPc := true
      src2IsImm := true
      imm := .si20 }
  | .jirl _ _ _ =>
    { zero with
      aluOp := Alu.ofOp3R .addW
      branchOp := { BranchOp.zero with instJirl := true }
      regWe := true
      src1IsPc := true
      src2Is4 := true
      imm := .si16Pc }
  | .b _ => { zero with branchOp := { BranchOp.zero with instB := true }, imm := .si26Pc }
  | .bl _ =>
    { zero with
      aluOp := Alu.ofOp3R .addW
      branchOp := { BranchOp.zero with instBl := true }
      regWe := true
      src1IsPc := true
      src2Is4 := true
      imm := .si26Pc }
  | .branch c _ _ _ =>
    { zero with branchOp := Bru.ofCond c, srcRegIsRd := true, imm := .si16Pc }
  | .load op _ _ _ =>
    { zero with loadOp := Lsu.ofLoad op, regWe := true, src2IsImm := true, imm := .si12 }
  | .store op _ _ _ =>
    { zero with storeOp := Lsu.ofStore op, src2IsImm := true, srcRegIsRd := true, imm := .si12 }

/-! ## The decoder -/

/-- The word `w` decodes to the control word `c`: it is a valid instruction that raises no exception
and involves neither the CSRs nor the multiplier. -/
structure DecodesTo (w : Word) (c : Control) : Prop where
  aluOp : Decoder.aluOp w = c.aluOp
  branchOp : Decoder.branchOp w = c.branchOp
  loadOp : Decoder.loadOp w = c.loadOp
  storeOp : Decoder.storeOp w = c.storeOp
  regWe : Decoder.regWe w = c.regWe
  src1IsPc : Decoder.src1IsPc w = c.src1IsPc
  src2IsImm : Decoder.src2IsImm w = c.src2IsImm
  src2Is4 : Decoder.src2Is4 w = c.src2Is4
  srcRegIsRd : Decoder.srcRegIsRd w = c.srcRegIsRd
  mulDivOp : Decoder.mulDivOp w = .zero
  csrOp : Decoder.csrOp w = .zero
  csrVec : ∀ plv, Decoder.csrVecL w false plv false = .zero
  ui5 : Decoder.needUi5 w = decide (c.imm = .ui5)
  si12 : Decoder.needSi12 w = decide (c.imm = .si12)
  ui12 : Decoder.needUi12 w = decide (c.imm = .ui12)
  si14Pc : Decoder.needSi14Pc w = decide (c.imm = .si14Pc)
  si16Pc : Decoder.needSi16Pc w = decide (c.imm = .si16Pc)
  si20 : Decoder.needSi20 w = decide (c.imm = .si20)
  si20Pc : Decoder.needSi20Pc w = decide (c.imm = .si20Pc)
  si26Pc : Decoder.needSi26Pc w = decide (c.imm = .si26Pc)

open Decoder in
theorem decodesTo_encode (i : Inst) : DecodesTo i.encode (Control.ofInst i) := by
  rcases i with ⟨op, rd, rj, rk⟩ | ⟨op, rd, rj, ui5⟩ | ⟨op, rd, rj, i12⟩ | ⟨rd, si20⟩ | ⟨rd, si20⟩ |
    ⟨rd, rj, offs⟩ | ⟨offs⟩ | ⟨offs⟩ | ⟨op, rj, rd, offs⟩ | ⟨op, rd, rj, si12⟩ | ⟨op, rd, rj, si12⟩
  -- One goal per instruction: its opcode fields become constants and every wire evaluates.
  all_goals (try cases op)
  all_goals constructor
  all_goals
    simp only [Inst.encode, op31_26_format3R, op25_22_format3R, op21_20_format3R, op19_15_format3R,
      op31_26_format2RI12, op25_22_format2RI12, op31_26_format1RI20, inst25_format1RI20,
      op31_26_format2RI16, op31_26_formatI26, op17, op10, op6, instAddW, instSubW,
      instSlt, instSltu, instNor, instAnd, instOr, instXor, instSllW, instSrlW, instSraW, instMulW,
      instMulhW, instMulhWu, instDivW, instModW, instDivWu, instModWu, instBreak, instSyscall,
      instSlliW, instSrliW, instSraiW, instDbar, instIbar, instSlti, instSltui, instAddiW, instAndi,
      instOri, instXori, instLdB, instLdH, instLdW, instStB, instStH, instStW, instLdBu, instLdHu,
      instJirl, instB, instBl, instBeq, instBne, instBlt, instBge, instBltu, instBgeu, instLu12iW,
      instPcaddi, instPcaddu12i, instCsrxchg, instLlW, instScW, instCsrrd, instCsrwr, instRdcntidW,
      instRdcntvlW, instRdcntvhW, instErtn, instValid, kernelInst, excpIne, excpIpe, csrVecL, aluOp,
      branchOp, loadOp, storeOp, regWe, src1IsPc, src2IsImm, src2Is4, srcRegIsRd, mulDivOp, csrOp,
      needUi5, needSi12, needUi12, needSi14Pc, needSi16Pc, needSi20, needSi20Pc, needSi26Pc]
    first | rfl | exact fun _ => rfl

namespace DecodesTo

variable {w : Word} {c : Control}

theorem imm_eq (h : DecodesTo w c) : Decoder.imm w = c.imm.value w := by
  unfold Decoder.imm
  rw [h.ui5, h.si12, h.ui12, h.si14Pc, h.si16Pc, h.si20, h.si20Pc, h.si26Pc]
  cases c.imm <;> simp [ImmKind.value]

theorem dest_eq (h : DecodesTo w c) :
    Decoder.dest w = if c.branchOp.instBl then 1 else Decoder.rd w := by
  have hbl : Decoder.instBl w = c.branchOp.instBl := congrArg BranchOp.instBl h.branchOp
  have hid : Decoder.instRdcntidW w = false := congrArg CsrOp.instRdcntidW h.csrOp
  simp [Decoder.dest, hbl, hid]

end DecodesTo

/-! ## The execution stage -/

/-- `ds_to_es_bus` for the word `w` fetched from `pc` without an error and with no interrupt
pending; `gr` is what the register file returns. -/
def decoded (w pc : Word) (gr : BitVec 5 → Word) (plv : BitVec 2) : DsToEsBus :=
  Id.dsToEsBus ⟨⟨true, false, pc⟩, 0, w, false⟩ plv false gr

/-- The effect of the word `w` at `pc`, read off the wires of `exe_stage` and, for the value
written, of `mem2_stage` in any state `m` of its other registers. A register is written unless the
instruction raises an exception. -/
def observed (w pc : Word) (gr : BitVec 5 → Word) (plv : BitVec 2) (mulDivResult : Word) (m : Ms2) :
    Isa.Effect :=
  let r := decoded w pc gr plv
  let bus := Exe.esToDtsBus r false r.rjValue r.rkdValue mulDivResult
  let br := Exe.brBus r false r.rjValue r.rkdValue
  let written := r.regWe && !bus.toMs.csrVec.any
  { dest := if written then some r.dest else none
    value := if written && !r.loadOp.any then
        some { m with ms1ToMs2BusR := bus.toMs }.msFinalResult else none
    target := if br.brTaken then some br.brTarget else none
    mem := if r.loadOp.any || r.storeOp.any then
        some ⟨bus.dataSram.addr, bus.toMs.csrVec.excpAle, bus.dataSram.en, Lsu.lanes bus.dataSram⟩
      else none }

/-- The same effect computed from a control word and the operands it selects. -/
def Control.effect (c : Control) (pc rjValue rkdValue imm : Word) (dest : BitVec 5) : Isa.Effect :=
  let addr := Lsu.addr rjValue imm
  let ale := Lsu.excpAle c.loadOp c.storeOp addr
  let access := c.loadOp.any || c.storeOp.any
  let result := if access then addr else
    Alu.aluResult c.aluOp (if c.src1IsPc then pc else rjValue)
      (if c.src2Is4 then 4 else if c.src2IsImm then imm else rkdValue)
  let d : DataSram :=
    ⟨!ale && access, if !ale && access then Lsu.dataSramWe c.storeOp addr else 0, addr,
      Lsu.dataSramWdata c.storeOp rkdValue⟩
  { dest := if c.regWe && !ale then some dest else none
    value := if c.regWe && !ale && !c.loadOp.any then some result else none
    target := if Bru.brTaken c.branchOp rjValue rkdValue && !ale then
      some (Bru.brTarget c.branchOp pc rjValue imm) else none
    mem := if access then some ⟨addr, ale, d.en, Lsu.lanes d⟩ else none }

theorem observed_eq {w : Word} {c : Control} (h : DecodesTo w c) (pc : Word) (gr : BitVec 5 → Word)
    (plv : BitVec 2) (mulDivResult : Word) (m : Ms2) :
    observed w pc gr plv mulDivResult m =
      c.effect pc (gr (Decoder.rj w)) (gr (if c.srcRegIsRd then Decoder.rd w else Decoder.rk w))
        (c.imm.value w) (if c.branchOp.instBl then 1 else Decoder.rd w) := by
  have hcsr := h.csrVec plv
  simp only [observed, Control.effect, decoded, Id.dsToEsBus, Id.pcValid, Id.inst, Id.rkd, if_true,
    Bool.and_true, h.aluOp, h.branchOp, h.loadOp, h.storeOp, h.regWe, h.src1IsPc, h.src2IsImm,
    h.src2Is4, h.srcRegIsRd, h.mulDivOp, h.csrOp, hcsr, h.imm_eq, h.dest_eq, Exe.esToDtsBus,
    Exe.brBus, Exe.dataSram, Exe.esResult, Exe.csrBus, Exe.csrVec, Exe.excpAle, Exe.aluSrc1,
    Exe.aluSrc2, Exe.csrCancel_eq, Ms2.msFinalResult, CsrVec.any, CsrVec.zero, MulDivOp.any_zero,
    CsrOp.any_zero, Bool.or_false, Bool.false_eq_true, if_false, Lsu.dataSramEn]
  cases Lsu.excpAle c.loadOp c.storeOp _ <;> cases c.loadOp.any <;> cases c.storeOp.any <;> simp

/-! ## The datapath under each control word -/

namespace Alu

theorem aluResult_ofOp3R (op : Isa.Op3R) (a b : Word) :
    aluResult (ofOp3R op) a b = op.eval a b := by
  cases op with
  | addW => simp [aluResult, ofOp3R, Isa.Op3R.eval, adderResult_add, subtracts]
  | subW => simp [aluResult, ofOp3R, Isa.Op3R.eval, adderResult_sub, subtracts]
  | slt => simp [aluResult, ofOp3R, Isa.Op3R.eval, sltResult_eq, subtracts]
  | sltu => simp [aluResult, ofOp3R, Isa.Op3R.eval, sltuResult_eq, subtracts]
  | nor | and | or | xor => simp [aluResult, ofOp3R, Isa.Op3R.eval]
  | sllW => simp [aluResult, ofOp3R, Isa.Op3R.eval, sllResult_eq]
  | srlW => simp [aluResult, ofOp3R, Isa.Op3R.eval, srResult_srl]
  | sraW => simp [aluResult, ofOp3R, Isa.Op3R.eval, srResult_sra]

theorem aluResult_ofShiftOp (op : Isa.ShiftOp) (a : Word) (n : BitVec 5) :
    aluResult (ofShiftOp op) a (n.setWidth 32) = op.eval a n.toNat := by
  have hn : (n.setWidth 32).toNat % 32 = n.toNat := by
    rw [BitVec.toNat_setWidth]
    have := n.isLt
    omega
  cases op with
  | slliW => simp only [aluResult, ofShiftOp, Isa.ShiftOp.eval, sllResult_eq, hn]; simp
  | srliW =>
    simp only [aluResult, ofShiftOp, Isa.ShiftOp.eval, srResult_srl, AluOp.zero_opSra, hn]
    simp
  | sraiW => simp only [aluResult, ofShiftOp, Isa.ShiftOp.eval, srResult_sra, hn]; simp

theorem aluResult_ofImmOp (op : Isa.ImmOp) (a : Word) (w : Word) :
    aluResult (ofImmOp op) a ((ImmKind.ofImmOp op).value w) = op.eval a (Decoder.i12 w) := by
  cases op with
  | slti => simp [aluResult, ofImmOp, Isa.ImmOp.eval, sltResult_eq, subtracts, ImmKind.ofImmOp,
      ImmKind.value]
  | sltui => simp [aluResult, ofImmOp, Isa.ImmOp.eval, sltuResult_eq, subtracts, ImmKind.ofImmOp,
      ImmKind.value]
  | addiW => simp [aluResult, ofImmOp, Isa.ImmOp.eval, adderResult_add, subtracts, ImmKind.ofImmOp,
      ImmKind.value]
  | andi | ori | xori => simp [aluResult, ofImmOp, Isa.ImmOp.eval, ImmKind.ofImmOp, ImmKind.value]

theorem aluResult_lui (a b : Word) : aluResult lui a b = b := by
  simp [aluResult, lui]

end Alu

theorem Bru.brTaken_ofCond (c : Isa.Cond) (a b : Word) : brTaken (ofCond c) a b = c.holds a b := by
  cases c <;> simp [brTaken, ofCond, Isa.Cond.holds, rjLtRd_eq, rjLtuRd, bne]

theorem Bru.brTarget_ofCond (c : Isa.Cond) (pc a imm : Word) :
    brTarget (ofCond c) pc a imm = pc + imm := by
  cases c <;> simp [brTarget, ofCond]

open Decoder in
/-- Under its control word every instruction has the architecture's effect. -/
theorem Control.effect_ofInst (i : Inst) (pc : Word) (gr : BitVec 5 → Word) :
    (ofInst i).effect pc (gr (rj i.encode))
        (gr (if (ofInst i).srcRegIsRd then rd i.encode else rk i.encode))
        ((ofInst i).imm.value i.encode) (if (ofInst i).branchOp.instBl then 1 else rd i.encode) =
      i.effect pc gr := by
  cases i with
  | op3 op rd rj rk =>
    simp [ofInst, zero, effect, Inst.encode, Inst.effect,
      Alu.aluResult_ofOp3R, rj_format3R, rk_format3R, rd_format3R]
  | shift op rd rj ui5 =>
    simp [ofInst, zero, effect, Inst.encode, Inst.effect, ImmKind.value,
      Alu.aluResult_ofShiftOp, rj_format3R, rk_format3R, rd_format3R]
  | opImm op rd rj i12 =>
    simp [ofInst, zero, effect, Inst.encode, Inst.effect,
      Alu.aluResult_ofImmOp, rj_format2RI12, i12_format2RI12, rd_format2RI12]
  | lu12iW rd si20 =>
    simp [ofInst, zero, effect, Inst.encode, Inst.effect, ImmKind.value,
      Alu.aluResult_lui, i20_format1RI20, rd_format1RI20, Isa.upper]
  | pcaddu12i rd si20 =>
    simp [ofInst, zero, effect, Inst.encode, Inst.effect, ImmKind.value,
      Alu.aluResult_ofOp3R, Isa.Op3R.eval, i20_format1RI20, rd_format1RI20, Isa.upper]
  | jirl rd rj offs =>
    simp [ofInst, zero, effect, Inst.encode, Inst.effect, ImmKind.value, Alu.aluResult_ofOp3R,
      Isa.Op3R.eval, Bru.brTaken, Bru.brTarget, i16_format2RI16, rj_format2RI16, rd_format2RI16,
      Isa.branchOffset]
  | b offs =>
    simp [ofInst, zero, effect, Inst.encode, Inst.effect, ImmKind.value,
      Bru.brTaken, Bru.brTarget, i26_formatI26, Isa.branchOffset]
  | bl offs =>
    simp [ofInst, zero, effect, Inst.encode, Inst.effect, ImmKind.value,
      Alu.aluResult_ofOp3R, Isa.Op3R.eval, Bru.brTaken, Bru.brTarget, i26_formatI26,
        Isa.branchOffset]
  | branch c rj rd offs =>
    simp [ofInst, zero, effect, Inst.encode, Inst.effect, ImmKind.value,
      Bru.brTaken_ofCond, Bru.brTarget_ofCond, i16_format2RI16, rj_format2RI16, rd_format2RI16,
      Isa.branchOffset]
  | load op rd rj si12 =>
    have hany : (Lsu.ofLoad op).any = true := by cases op <;> rfl
    simp only [ofInst, zero, effect, Inst.encode, Inst.effect,
      ImmKind.value, Lsu.excpAle_ofLoad, Lsu.addr, Lsu.lanes_load, hany, i12_format2RI12,
      rj_format2RI12, rd_format2RI12, Bool.true_or, Bool.and_true]
    simp
  | store op rd rj si12 =>
    have hany : (Lsu.ofStore op).any = true := by cases op <;> rfl
    simp only [ofInst, zero, effect, Inst.encode, Inst.effect,
      ImmKind.value, Lsu.excpAle_ofStore, Lsu.addr, Lsu.lanes_store, hany, i12_format2RI12,
      rj_format2RI12, rd_format2RI12, Bool.or_true, Bool.and_true, if_true]
    simp

/-- Every instruction of the set, with arbitrary fields, has the architecture's effect, and the
decoder does not flag it. -/
theorem encode_conforms (i : Inst) (pc : Word) (gr : BitVec 5 → Word) (plv : BitVec 2)
    (mulDivResult : Word) (m : Ms2) :
    (decoded i.encode pc gr plv).csrVec.excpIne = false ∧
      observed i.encode pc gr plv mulDivResult m = i.effect pc gr := by
  have h := decodesTo_encode i
  refine ⟨congrArg CsrVec.excpIne (h.csrVec plv), ?_⟩
  rw [observed_eq h]
  exact Control.effect_ofInst i pc gr

end NeulaCpu.Rtl

import NeulaCpu.Isa.Conformance
import NeulaCpu.Memory.Lanes
import NeulaCpu.Pipeline.Operands

/-!
# The architecture as a machine

A program of the instructions of `NeulaCpu.Isa.La32r` runs on a state of a program counter,
registers and a memory of bytes, one instruction at a time. A misaligned access would raise an
exception; what this machine does then does not matter. The second part compares it with what the
bus of `exe_stage` makes of an instruction.
-/

namespace NeulaCpu.Isa

open NeulaCpu.Rtl (Word)

structure State where
  pc : Word
  gr : BitVec 5 → Word
  mem : Word → BitVec 8

/-- Register 0 reads as zero. -/
def State.reg (s : State) (r : BitVec 5) : Word := if r = 0 then 0 else s.gr r

namespace Inst

/-- What a load reads. -/
def loaded (i : Inst) (s : State) : Word :=
  match i with
  | load op _ rj si12 => op.read s.mem (s.reg rj + si12.signExtend 32)
  | _ => 0

/-- The memory after a store. -/
def stored (i : Inst) (s : State) : Word → BitVec 8 :=
  match i with
  | store op rd rj si12 => storeBytes s.mem (s.reg rj + si12.signExtend 32) op.size (s.reg rd)
  | _ => s.mem

def exec (i : Inst) (s : State) : State where
  pc := (i.effect s.pc s.reg).target.getD (s.pc + 4)
  gr :=
    match (i.effect s.pc s.reg).dest with
    | some rd => Function.update s.gr rd ((i.effect s.pc s.reg).value.getD (i.loaded s))
    | none => s.gr
  mem := i.stored s

end Inst

/-- The state after `k` instructions of the program `code`. -/
def run (code : Word → Inst) (s : State) : ℕ → State
  | 0 => s
  | k + 1 => (code (run code s k).pc).exec (run code s k)

end NeulaCpu.Isa

namespace NeulaCpu.Rtl

open Isa (Inst State)

/-! ## One instruction -/

/-- The bus is what `id_stage` makes of the instruction `i`. -/
structure DsToEsBus.Decodes (r : DsToEsBus) (i : Inst) : Prop where
  aluOp : r.aluOp = (Control.ofInst i).aluOp
  branchOp : r.branchOp = (Control.ofInst i).branchOp
  loadOp : r.loadOp = (Control.ofInst i).loadOp
  storeOp : r.storeOp = (Control.ofInst i).storeOp
  mulDivOp : r.mulDivOp = .zero
  csrOp : r.csrOp = .zero
  regWe : r.regWe = (Control.ofInst i).regWe
  src1IsPc : r.src1IsPc = (Control.ofInst i).src1IsPc
  src2IsImm : r.src2IsImm = (Control.ofInst i).src2IsImm
  src2Is4 : r.src2Is4 = (Control.ofInst i).src2Is4
  rj : r.rj = Decoder.rj i.encode
  rkd : r.rkd = if (Control.ofInst i).srcRegIsRd then Decoder.rd i.encode else Decoder.rk i.encode
  imm : r.imm = (Control.ofInst i).imm.value i.encode
  dest : r.dest = if (Control.ofInst i).branchOp.instBl then 1 else Decoder.rd i.encode

theorem decodes_dsToEsBus {s : Id} {i : Inst} (hv : s.pcValid = true) (hw : s.inst = i.encode)
    (plv : BitVec 2) (int : Bool) (gr : BitVec 5 → Word) : (s.dsToEsBus plv int gr).Decodes i := by
  have h := decodesTo_encode i
  constructor <;>
    simp [Id.dsToEsBus, Id.rkd, hv, hw, h.aluOp, h.branchOp, h.loadOp, h.storeOp, h.mulDivOp,
    h.csrOp, h.regWe, h.src1IsPc, h.src2IsImm, h.src2Is4, h.srcRegIsRd, h.imm_eq, h.dest_eq]

/-- The data memory after a request of the core. -/
def access (m : BitVec 30 → Word) (d : DataSram) : BitVec 30 → Word :=
  if d.en then ByteLanes.Store.apply m ⟨wordIndex d.addr, d.we, d.wdata⟩ else m

theorem access_of_we {d : DataSram} (h : d.we = 0) (m : BitVec 30 → Word) : access m d = m := by
  rw [access, ByteLanes.Store.apply, h, ByteLanes.merge_zero, Function.update_eq_self, ite_self]

namespace DsToEsBus.Decodes

variable {r : DsToEsBus} {i : Inst} {σ : State} (h : r.Decodes i)
  (hale : Exe.excpAle r (σ.reg r.rj) = false)

include h hale

section

variable (hpc : r.dsPc = σ.pc)

include hpc

/-- The effect of an instruction that raises no exception, read off the bus. -/
theorem effect_eq (x : Word) : (i.effect σ.pc σ.reg).target =
      (if Bru.brTaken r.branchOp (σ.reg r.rj) (σ.reg r.rkd) then
        some (Bru.brTarget r.branchOp r.dsPc (σ.reg r.rj) r.imm) else none) ∧
    (i.effect σ.pc σ.reg).dest = (if r.regWe then some r.dest else none) ∧
    (i.effect σ.pc σ.reg).value = if r.regWe && !r.loadOp.any then
      some (Exe.esResult r (σ.reg r.rj) (σ.reg r.rkd) x) else none := by
  rw [Exe.excpAle] at hale
  rw [← Control.effect_ofInst, ← h.rj, ← h.rkd, ← h.imm, ← h.dest, ← hpc]
  simp only [Control.effect, ← h.loadOp, ← h.storeOp, ← h.branchOp, ← h.regWe, ← h.aluOp,
    ← h.src1IsPc, ← h.src2Is4, ← h.src2IsImm, hale, Bool.not_false, Bool.and_true, Exe.esResult,
    h.mulDivOp, MulDivOp.any_zero, Bool.false_eq_true, if_false]
  exact ⟨trivial, trivial, rfl⟩

theorem exec_pc : (i.exec σ).pc = if Bru.brTaken r.branchOp (σ.reg r.rj) (σ.reg r.rkd)
    then Bru.brTarget r.branchOp r.dsPc (σ.reg r.rj) r.imm else r.dsPc + 4 := by
  rw [Inst.exec, (h.effect_eq hale hpc 0).1, hpc]
  split_ifs <;> rfl

/-- The registers, when a load gets what the machine reads. -/
theorem exec_reg {ρ : Issue} (hρ : ρ.bus = r) {x : Word} (hx : r.loadOp.any = true → x = i.loaded σ)
    {g : BitVec 5 → Word} (hg : readReg g = σ.reg) :
    readReg ((ρ.write x g).apply g) = (i.exec σ).reg := by
  subst hρ
  funext a
  have hga := congrFun hg a
  obtain ⟨-, hdest, hvalue⟩ := h.effect_eq hale hpc ρ.mulDivResult
  have hlate : ρ.late = ρ.bus.loadOp.any := by
    rw [Issue.late, h.csrOp, CsrOp.any_zero, Bool.or_false]
  simp only [readReg, State.reg] at hga ⊢
  by_cases ha : a = 0
  · rw [if_pos ha, if_pos ha]
  rw [if_neg ha, if_neg ha] at hga ⊢
  rw [Inst.exec, hdest, hvalue, Bypass.Write.apply, Issue.write, Issue.value, hg, hlate]
  cases hwe : ρ.bus.regWe with
  | false => simpa using hga
  | true =>
    by_cases hd : a = ρ.bus.dest
    · subst hd
      cases hl : ρ.bus.loadOp.any with
      | false => simp
      | true => simp [hx hl]
    · simpa [hd] using hga

end

/-- The request of a load or a store, carried out. -/
theorem exec_mem {m : BitVec 30 → Word} (hm : bytesOf m = σ.mem) :
    bytesOf (access m ⟨Lsu.dataSramEn r.loadOp r.storeOp,
      if Lsu.dataSramEn r.loadOp r.storeOp then Lsu.dataSramWe r.storeOp
        (Lsu.addr (σ.reg r.rj) r.imm) else 0,
      Lsu.addr (σ.reg r.rj) r.imm, Lsu.dataSramWdata r.storeOp (σ.reg r.rkd)⟩) =
        (i.exec σ).mem := by
  rw [Exe.excpAle, h.loadOp, h.storeOp, h.rj, h.imm] at hale
  rw [h.loadOp, h.storeOp, h.rj, h.rkd, h.imm]
  cases i with
  | store op rd rj si12 =>
    have hany : (Lsu.ofStore op).any = true := by cases op <;> rfl
    simp only [Control.ofInst, Control.zero, Lsu.excpAle_ofStore, bne_eq_false_iff_eq] at hale
    simp only [Control.ofInst, Control.zero, access, Lsu.dataSramEn, hany, Bool.true_or, if_true]
    refine (bytesOf_storeWord m op _ _ hale).trans ?_
    simp only [hm, ImmKind.value, Isa.Inst.encode, Decoder.i12_format2RI12, Decoder.rj_format2RI12,
      Decoder.rd_format2RI12]
    rfl
  | _ =>
    rw [access_of_we (by simp [Control.ofInst, Control.zero, Lsu.dataSramWe])]
    exact hm

/-- The word that a load gets. -/
theorem loaded_eq {m : BitVec 30 → Word} (hm : bytesOf m = σ.mem) (hl : r.loadOp.any = true) :
    msResult r.loadOp (Lsu.addr (σ.reg r.rj) r.imm) (m (wordIndex (Lsu.addr (σ.reg r.rj) r.imm))) =
      i.loaded σ := by
  rw [Exe.excpAle, h.loadOp, h.storeOp, h.rj, h.imm] at hale
  rw [h.loadOp] at hl
  rw [h.loadOp, h.rj, h.imm]
  cases i with
  | load op rd rj si12 =>
    simp only [Control.ofInst, Control.zero, Lsu.excpAle_ofLoad, bne_eq_false_iff_eq] at hale
    refine (msResult_ofLoad m op _ hale).trans ?_
    simp only [hm, ImmKind.value, Isa.Inst.encode, Decoder.i12_format2RI12, Decoder.rj_format2RI12]
    rfl
  | _ => cases hl

omit hale in
theorem storeOp_of_load (hl : r.loadOp.any = true) : r.storeOp = .zero := by
  rw [h.loadOp] at hl
  rw [h.storeOp]
  cases i with
  | load => rfl
  | _ => cases hl

end DsToEsBus.Decodes

end NeulaCpu.Rtl

import NeulaCpu.Rtl.Csr
import NeulaCpu.Lib.Clocked

/-!
# What a cycle does to the control and status registers

The clocked block of `csr` is one chain of branches. A cycle is frozen by the memory side, commits
an exception, writes a register, takes the write branch with an address that has no register, or is
active: only then do the timer and the external interrupt lines move. A register write is a masked
write of the register it names, with two side effects.
-/

namespace NeulaCpu.Rtl

open BitField (splice blend fieldMask splice_extract blend_blend)

/-- The inputs of `csr` in one cycle. -/
structure CsrIn where
  bus : DtToMsBus
  stallreqAxi : Bool
  extInt : BitVec 8
deriving DecidableEq, Repr

/-- The branch of the clocked block that a cycle takes. -/
inductive CsrCycle
  | stalled | commit | write (n : CsrName) | unmapped | active
deriving DecidableEq, Repr

def CsrIn.cycle (i : CsrIn) : CsrCycle :=
  if i.stallreqAxi then .stalled
  else if Csr.exceptEn i.bus then .commit
  else if i.bus.csrBus.csrWe then
    match CsrName.ofAddr i.bus.csrBus.csrAddr with
    | some n => .write n
    | none => .unmapped
  else .active

namespace Csr

variable (s : Csr) (i : CsrIn)

/-- One clock edge. -/
def clock : Csr := s.step i.bus i.stallreqAxi i.extInt

theorem update_eq : s.update i.bus i.stallreqAxi i.extInt =
    match i.cycle with
    | .stalled | .unmapped => s
    | .commit => s.except i.bus
    | .write n => s.write n (s.csrWdataTemp i.bus)
    | .active => s.tick i.extInt := by
  simp only [update, CsrIn.cycle]
  split_ifs with h1 h2 h3
  · rfl
  · rfl
  · cases CsrName.ofAddr i.bus.csrBus.csrAddr <;> rfl
  · rfl

/-! ## Registers -/

end Csr

/-- The bits of a register that a CSR instruction can change: the fields of `csr.vh` that the write
case assigns. -/
def CsrName.writable : CsrName → Word
  | .crmd => 0x000001ff
  | .prmd => 0x00000007
  | .ecfg => 0x00001bff
  | .estat => 0x00000003
  | .eentry => 0xffffffc0
  | .asid => 0x000003ff
  | .cpuid | .tval | .ticlr => 0
  | .dmw0 | .dmw1 => 0xee000039
  | _ => 0xffffffff

namespace Csr

theorem copyField_eq (x : Word) (lo width : ℕ) (w : Word) :
    copyField x lo width w = blend x (fieldMask 32 lo width) w :=
  splice_extract x w lo width

theorem blend_full (x w : Word) : blend x 0xffffffff w = w := BitField.blend_allOnes x w

theorem read_write_self (s : Csr) (n : CsrName) (w : Word) :
    (s.write n w).read n = blend (s.read n) n.writable w := by
  cases n with
  | cpuid | tval => exact (BitField.blend_zero _ w).symm
  | ticlr =>
    rw [write, CsrName.writable, BitField.blend_zero]
    split_ifs <;> rfl
  | crmd | prmd | ecfg | estat | eentry | asid | tcfg | dmw0 | dmw1 =>
    simp only [write, read, CsrName.writable, copyDmw, copyField_eq, blend_blend]
    rfl
  | _ => exact (blend_full _ w).symm

theorem read_write_of_ne (s : Csr) {n n' : CsrName} (h : n' ≠ n) (w : Word) :
    (s.write n w).read n' =
      if n = .tcfg ∧ n' = .tval then initVal w
      else if n = .ticlr ∧ n' = .estat ∧ w.getLsbD 0 = true then splice s.estat 11 0#1
      else s.read n' := by
  cases n with
  | ticlr =>
    simp only [write]
    split_ifs <;> cases n' <;> simp_all [read]
  | tcfg => cases n' <;> first | rfl | exact absurd rfl h
  | _ => cases n' <;> first | rfl | exact absurd rfl h

theorem timerEn_write (s : Csr) (n : CsrName) (w : Word) :
    (s.write n w).timerEn = if n = .tcfg then w.getLsbD 0 else s.timerEn := by
  cases n with
  | ticlr =>
    simp only [write]
    split_ifs <;> simp_all
  | _ => rfl

end Csr

end NeulaCpu.Rtl

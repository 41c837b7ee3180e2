import NeulaCpu.Rtl.Units

/-!
# The multiplier and divider

`mul_div_top` with its operand lock `mul_div_lock`, the two-register multiplier `mul` and the
restoring divider `div`. Each `step` is the clocked block outside reset; `reset` is the register
contents the reset branch loads. In `exe_stage` the unit is reset by `reset | flush`.
-/

namespace NeulaCpu.Rtl

/-! ## `mul` -/

structure Mul where
  cnt : BitVec 6
  resultH : Word
  resultL : Word
  mulResultR : BitVec 64
deriving DecidableEq, Repr

namespace Mul

@[simps] def reset : Mul := ⟨0, 0, 0, 0⟩

def step (s : Mul) (inValid : Bool) (a b : Word) : Mul :=
  if s.cnt ≠ 0 then
    { cnt := s.cnt - 1
      resultH := s.mulResultR.extractLsb' 32 32
      resultL := s.mulResultR.extractLsb' 0 32
      mulResultR := a.setWidth 64 * b.setWidth 64 }
  else if inValid then ⟨2, 0, 0, 0⟩
  else s

def stallreq (s : Mul) (inValid : Bool) : Bool := inValid || !(s.cnt == 0)

/-- With no operation offered and none running, the multiplier keeps its result. -/
theorem step_of_not_stallreq {s : Mul} {inValid : Bool} (h : s.stallreq inValid = false)
    (a b : Word) : s.step inValid a b = s := by
  simp only [stallreq, Bool.or_eq_false_iff, Bool.not_eq_false', beq_iff_eq] at h
  simp [step, h.1, h.2]

end Mul

/-! ## `div` -/

structure Div where
  cnt : BitVec 6
  quotient : Word
  remainder : Word
deriving DecidableEq, Repr

namespace Div

@[simps] def reset : Div := ⟨0, 0, 0⟩

/-- `{remainder[30:0], quotient[31]}`. -/
def temp (s : Div) : Word := s.remainder.extractLsb' 0 31 ++ s.quotient.extractLsb' 31 1

def carry (s : Div) (b : Word) : Bool := !(s.temp.ult b)

def subResult (s : Div) (b : Word) : Word := if s.carry b then s.temp - b else s.temp

def step (s : Div) (inValid : Bool) (a b : Word) : Div :=
  if s.cnt ≠ 0 then
    { cnt := s.cnt - 1
      quotient := s.quotient.extractLsb' 0 31 ++ BitVec.ofBool (s.carry b)
      remainder := s.subResult b }
  else if inValid then ⟨32, a, 0⟩
  else s

def stallreq (s : Div) (inValid : Bool) : Bool := inValid || !(s.cnt == 0)

/-- With no operation offered and none running, the divider keeps its result. -/
theorem step_of_not_stallreq {s : Div} {inValid : Bool} (h : s.stallreq inValid = false)
    (a b : Word) : s.step inValid a b = s := by
  simp only [stallreq, Bool.or_eq_false_iff, Bool.not_eq_false', beq_iff_eq] at h
  simp [step, h.1, h.2]

end Div

/-! ## `mul_div_lock` -/

/-- The registers of `mul_div_lock`; `mulEnMusk` and `divEnMusk` are the source's spelling. -/
structure MulDivLock where
  firstEnable : Bool
  mulEnMusk : Bool
  divEnMusk : Bool
  aBuffer : Word
  bBuffer : Word
  signFlagBuffer : Bool
  remFlagBuffer : Bool
deriving DecidableEq, Repr

namespace MulDivLock

@[simps] def reset : MulDivLock := ⟨true, true, true, 0, 0, false, false⟩

def aLocked (s : MulDivLock) (a : Word) : Word := if s.firstEnable then a else s.aBuffer

def bLocked (s : MulDivLock) (b : Word) : Word := if s.firstEnable then b else s.bBuffer

def signFlagLocked (s : MulDivLock) (signFlag : Bool) : Bool :=
  if s.firstEnable then signFlag else s.signFlagBuffer

def remFlagLocked (s : MulDivLock) (remFlag : Bool) : Bool :=
  if s.firstEnable then remFlag else s.remFlagBuffer

def step (s : MulDivLock) (stall : BitVec 6) (a b : Word) (mulEn divEn stallreq : Bool)
    (signFlag remFlag : Bool) : MulDivLock :=
  if mulEn && s.firstEnable then ⟨false, false, true, a, b, signFlag, remFlag⟩
  else if divEn && s.firstEnable then ⟨false, true, false, a, b, signFlag, remFlag⟩
  -- The result is taken: the next operation may start.
  else if !stallreq && (mulEn || divEn) && !s.firstEnable &&
      (!stall.getLsbD 2 || (stall.getLsbD 2 && !stall.getLsbD 3)) then
    reset
  else s

end MulDivLock

/-! ## `mul_div_top` -/

structure MulDivTop where
  lock : MulDivLock
  mul : Mul
  div : Div
deriving DecidableEq, Repr

namespace MulDivTop

@[simps] def reset : MulDivTop := ⟨.reset, .reset, .reset⟩

def mulEn (op : MulDivOp) : Bool := op.mul || op.mulh

def divEn (op : MulDivOp) : Bool := op.div || op.mod

def mulEnLocked (s : MulDivTop) (op : MulDivOp) : Bool := mulEn op && s.lock.mulEnMusk

def divEnLocked (s : MulDivTop) (op : MulDivOp) : Bool := divEn op && s.lock.divEnMusk

/-- The magnitude of an operand of a signed operation. -/
def src (sign : Bool) (a : Word) : Word := if sign && a.getLsbD 31 then ~~~a + 1 else a

def signFlag (a b : Word) : Bool := a.getLsbD 31 ^^ b.getLsbD 31

def stallreq (s : MulDivTop) (op : MulDivOp) : Bool :=
  s.mul.stallreq (s.mulEnLocked op) || s.div.stallreq (s.divEnLocked op)

def step (s : MulDivTop) (stall : BitVec 6) (op : MulDivOp) (sign : Bool) (a b : Word) :
    MulDivTop where
  lock := s.lock.step stall (src sign a) (src sign b) (mulEn op) (divEn op) (s.stallreq op)
    (signFlag a b) (a.getLsbD 31)
  mul := s.mul.step (s.mulEnLocked op) (s.lock.aLocked (src sign a)) (s.lock.bLocked (src sign b))
  div := s.div.step (s.divEnLocked op) (s.lock.aLocked (src sign a)) (s.lock.bLocked (src sign b))

def mulDivResult (s : MulDivTop) (op : MulDivOp) (sign : Bool) (a b : Word) : Word :=
  let signLocked := s.lock.signFlagLocked (signFlag a b)
  let remLocked := s.lock.remFlagLocked (a.getLsbD 31)
  if op.mul then
    if sign && signLocked && s.mul.resultL ≠ 0 then ~~~s.mul.resultL + 1 else s.mul.resultL
  else if op.mulh then
    if sign && signLocked && s.mul.resultH ≠ 0 then
      BitVec.ofBool signLocked ++ ~~~(s.mul.resultH.extractLsb' 0 31)
    else s.mul.resultH
  else if op.div then
    if sign && signLocked && s.div.quotient ≠ 0 then
      BitVec.ofBool signLocked ++ (~~~(s.div.quotient.extractLsb' 0 31) + 1)
    else s.div.quotient
  else if op.mod then
    if sign && remLocked && s.div.remainder ≠ 0 then
      BitVec.ofBool remLocked ++ (~~~(s.div.remainder.extractLsb' 0 31) + 1)
    else s.div.remainder
  else 0

end MulDivTop

end NeulaCpu.Rtl

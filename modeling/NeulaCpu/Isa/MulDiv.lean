import NeulaCpu.Isa.La32r

/-!
# LoongArch32R: multiplication and division

The seven multiply and divide instructions as the architecture states them, with their encodings.
Division truncates towards zero and a remainder has the sign of the dividend; the quotient of `-2 ^
31` by `-1` does not fit and wraps around. A division by zero has no specified result, so
`DivOp.eval` is only meant for a divisor other than zero.
-/

namespace NeulaCpu.Isa

open NeulaCpu.Rtl (Word)

inductive MulOp
  | mulW | mulhW | mulhWu
deriving DecidableEq, Repr

inductive DivOp
  | divW | modW | divWu | modWu
deriving DecidableEq, Repr

def MulOp.opcode : MulOp → BitVec 17
  | mulW => 0b00000000000111000#17
  | mulhW => 0b00000000000111001#17
  | mulhWu => 0b00000000000111010#17

def DivOp.opcode : DivOp → BitVec 17
  | divW => 0b00000000001000000#17
  | modW => 0b00000000001000001#17
  | divWu => 0b00000000001000010#17
  | modWu => 0b00000000001000011#17

def MulOp.encode (op : MulOp) (rd rj rk : BitVec 5) : Word := format3R op.opcode rk rj rd

def DivOp.encode (op : DivOp) (rd rj rk : BitVec 5) : Word := format3R op.opcode rk rj rd

/-- The low half of the product, or the high half of the signed or unsigned 64-bit product. -/
def MulOp.eval (a b : Word) : MulOp → Word
  | mulW => a * b
  | mulhW => (a.signExtend 64 * b.signExtend 64).extractLsb' 32 32
  | mulhWu => (a.setWidth 64 * b.setWidth 64).extractLsb' 32 32

def DivOp.eval (a b : Word) : DivOp → Word
  | divW => BitVec.ofInt 32 (a.toInt.tdiv b.toInt)
  | modW => BitVec.ofInt 32 (a.toInt.tmod b.toInt)
  | divWu => BitVec.ofNat 32 (a.toNat / b.toNat)
  | modWu => BitVec.ofNat 32 (a.toNat % b.toNat)

end NeulaCpu.Isa

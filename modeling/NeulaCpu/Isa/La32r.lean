import NeulaCpu.Rtl.Bus

/-!
# LoongArch32R: the integer, branch and memory instructions

The instruction set as the architecture states it: abstract instructions, their 32-bit encodings,
and the effect of one instruction on the program counter, one register and memory. Nothing here
refers to the implementation; `NeulaCpu.Isa.Conformance` compares the two.
-/

namespace NeulaCpu.Isa

open NeulaCpu.Rtl (Word)

/-! ## Instructions -/

/-- The three-register operations. -/
inductive Op3R
  | addW | subW | slt | sltu | nor | and | or | xor | sllW | srlW | sraW
deriving DecidableEq, Repr

/-- The shifts by a constant. -/
inductive ShiftOp
  | slliW | srliW | sraiW
deriving DecidableEq, Repr

/-- The operations on a register and a 12-bit immediate. -/
inductive ImmOp
  | slti | sltui | addiW | andi | ori | xori
deriving DecidableEq, Repr

/-- The conditions of the two-register branches. -/
inductive Cond
  | beq | bne | blt | bge | bltu | bgeu
deriving DecidableEq, Repr

inductive Load
  | ldB | ldH | ldW | ldBu | ldHu
deriving DecidableEq, Repr

inductive Store
  | stB | stH | stW
deriving DecidableEq, Repr

/-- An instruction with its operand fields. -/
inductive Inst
  | op3 (op : Op3R) (rd rj rk : BitVec 5)
  | shift (op : ShiftOp) (rd rj ui5 : BitVec 5)
  | opImm (op : ImmOp) (rd rj : BitVec 5) (i12 : BitVec 12)
  | lu12iW (rd : BitVec 5) (si20 : BitVec 20)
  | pcaddu12i (rd : BitVec 5) (si20 : BitVec 20)
  | jirl (rd rj : BitVec 5) (offs : BitVec 16)
  | b (offs : BitVec 26)
  | bl (offs : BitVec 26)
  | branch (c : Cond) (rj rd : BitVec 5) (offs : BitVec 16)
  | load (op : Load) (rd rj : BitVec 5) (si12 : BitVec 12)
  | store (op : Store) (rd rj : BitVec 5) (si12 : BitVec 12)
deriving DecidableEq, Repr

/-! ## Encoding -/

def Op3R.opcode : Op3R → BitVec 17
  | addW => 0b00000000000100000#17
  | subW => 0b00000000000100010#17
  | slt => 0b00000000000100100#17
  | sltu => 0b00000000000100101#17
  | nor => 0b00000000000101000#17
  | and => 0b00000000000101001#17
  | or => 0b00000000000101010#17
  | xor => 0b00000000000101011#17
  | sllW => 0b00000000000101110#17
  | srlW => 0b00000000000101111#17
  | sraW => 0b00000000000110000#17

def ShiftOp.opcode : ShiftOp → BitVec 17
  | slliW => 0b00000000010000001#17
  | srliW => 0b00000000010001001#17
  | sraiW => 0b00000000010010001#17

def ImmOp.opcode : ImmOp → BitVec 10
  | slti => 0b0000001000#10
  | sltui => 0b0000001001#10
  | addiW => 0b0000001010#10
  | andi => 0b0000001101#10
  | ori => 0b0000001110#10
  | xori => 0b0000001111#10

def Cond.opcode : Cond → BitVec 6
  | beq => 0b010110#6
  | bne => 0b010111#6
  | blt => 0b011000#6
  | bge => 0b011001#6
  | bltu => 0b011010#6
  | bgeu => 0b011011#6

def Load.opcode : Load → BitVec 10
  | ldB => 0b0010100000#10
  | ldH => 0b0010100001#10
  | ldW => 0b0010100010#10
  | ldBu => 0b0010101000#10
  | ldHu => 0b0010101001#10

def Store.opcode : Store → BitVec 10
  | stB => 0b0010100100#10
  | stH => 0b0010100101#10
  | stW => 0b0010100110#10

/-- The format with three register fields. -/
def format3R (opcode : BitVec 17) (rk rj rd : BitVec 5) : Word := opcode ++ rk ++ rj ++ rd

/-- The format with a 12-bit immediate. -/
def format2RI12 (opcode : BitVec 10) (i12 : BitVec 12) (rj rd : BitVec 5) : Word :=
  opcode ++ i12 ++ rj ++ rd

/-- The format with a 20-bit immediate. -/
def format1RI20 (opcode : BitVec 7) (i20 : BitVec 20) (rd : BitVec 5) : Word := opcode ++ i20 ++ rd

/-- The format with a 16-bit immediate. -/
def format2RI16 (opcode : BitVec 6) (i16 : BitVec 16) (rj rd : BitVec 5) : Word :=
  opcode ++ i16 ++ rj ++ rd

/-- The format with a 26-bit immediate, its high part in the low bits of the word. -/
def formatI26 (opcode : BitVec 6) (i26 : BitVec 26) : Word :=
  opcode ++ i26.extractLsb' 0 16 ++ i26.extractLsb' 16 10

def Inst.encode : Inst → Word
  | op3 op rd rj rk => format3R op.opcode rk rj rd
  | shift op rd rj ui5 => format3R op.opcode ui5 rj rd
  | opImm op rd rj i12 => format2RI12 op.opcode i12 rj rd
  | lu12iW rd si20 => format1RI20 0b0001010#7 si20 rd
  | pcaddu12i rd si20 => format1RI20 0b0001110#7 si20 rd
  | jirl rd rj offs => format2RI16 0b010011#6 offs rj rd
  | b offs => formatI26 0b010100#6 offs
  | bl offs => formatI26 0b010101#6 offs
  | branch c rj rd offs => format2RI16 c.opcode offs rj rd
  | load op rd rj si12 => format2RI12 op.opcode si12 rj rd
  | store op rd rj si12 => format2RI12 op.opcode si12 rj rd

/-! ## Effect -/

/-- The access that a load or store makes to the word of memory at its address: `lanes k` is the
byte it puts into byte lane `k`, and `request` says whether memory is accessed at all. -/
structure MemEffect where
  addr : Word
  misaligned : Bool
  request : Bool
  lanes : Fin 4 → Option (BitVec 8)

/-- The effect of one instruction: the register it writes, the value written unless it comes from
memory, the branch target when control is transferred, and the memory access. -/
structure Effect where
  dest : Option (BitVec 5)
  value : Option Word
  target : Option Word
  mem : Option MemEffect

def ofBool (b : Bool) : Word := if b then 1 else 0

def Op3R.eval (a b : Word) : Op3R → Word
  | addW => a + b
  | subW => a - b
  | slt => ofBool (a.slt b)
  | sltu => ofBool (a.ult b)
  | nor => ~~~(a ||| b)
  | and => a &&& b
  | or => a ||| b
  | xor => a ^^^ b
  | sllW => a <<< (b.toNat % 32)
  | srlW => a >>> (b.toNat % 32)
  | sraW => a.sshiftRight (b.toNat % 32)

def ShiftOp.eval (a : Word) (n : ℕ) : ShiftOp → Word
  | slliW => a <<< n
  | srliW => a >>> n
  | sraiW => a.sshiftRight n

/-- Arithmetic and comparisons sign-extend the immediate, the bitwise operations zero-extend it. -/
def ImmOp.eval (a : Word) (i : BitVec 12) : ImmOp → Word
  | slti => ofBool (a.slt (i.signExtend 32))
  | sltui => ofBool (a.ult (i.signExtend 32))
  | addiW => a + i.signExtend 32
  | andi => a &&& i.setWidth 32
  | ori => a ||| i.setWidth 32
  | xori => a ^^^ i.setWidth 32

def Cond.holds (a b : Word) : Cond → Bool
  | beq => a == b
  | bne => a != b
  | blt => a.slt b
  | bge => !a.slt b
  | bltu => a.ult b
  | bgeu => !a.ult b

/-- Access sizes in bytes. -/
def Load.size : Load → ℕ
  | ldB | ldBu => 1
  | ldH | ldHu => 2
  | ldW => 4

def Store.size : Store → ℕ
  | stB => 1
  | stH => 2
  | stW => 4

/-- A branch offset counts words: `SignExtend({offs, 2'b0}, 32)`. -/
def branchOffset {n : ℕ} (offs : BitVec n) : Word := (offs ++ 0#2).signExtend 32

/-- The upper-immediate operand `{si20, 12'b0}`. -/
def upper (si20 : BitVec 20) : Word := si20 ++ 0#12

/-- The effect of `i` at `pc` with register values `gr`. A misaligned access raises an exception and
has no other effect. -/
def Inst.effect (i : Inst) (pc : Word) (gr : BitVec 5 → Word) : Effect :=
  match i with
  | op3 op rd rj rk => ⟨some rd, some (op.eval (gr rj) (gr rk)), none, none⟩
  | shift op rd rj ui5 => ⟨some rd, some (op.eval (gr rj) ui5.toNat), none, none⟩
  | opImm op rd rj i12 => ⟨some rd, some (op.eval (gr rj) i12), none, none⟩
  | lu12iW rd si20 => ⟨some rd, some (upper si20), none, none⟩
  | pcaddu12i rd si20 => ⟨some rd, some (pc + upper si20), none, none⟩
  | jirl rd rj offs => ⟨some rd, some (pc + 4), some (gr rj + branchOffset offs), none⟩
  | b offs => ⟨none, none, some (pc + branchOffset offs), none⟩
  | bl offs => ⟨some 1, some (pc + 4), some (pc + branchOffset offs), none⟩
  | branch c rj rd offs =>
    ⟨none, none, if c.holds (gr rj) (gr rd) then some (pc + branchOffset offs) else none, none⟩
  | load op rd rj si12 =>
    let addr := gr rj + si12.signExtend 32
    let ale : Bool := addr.toNat % op.size != 0
    ⟨if ale then none else some rd, none, none, some ⟨addr, ale, !ale, fun _ => none⟩⟩
  | store op rd rj si12 =>
    let addr := gr rj + si12.signExtend 32
    let off := addr.toNat % 4
    let ale : Bool := addr.toNat % op.size != 0
    ⟨none, none, none, some ⟨addr, ale, !ale, fun k =>
      if !ale && decide (off ≤ k) && decide (k < off + op.size) then
        some ((gr rd).extractLsb' (8 * (k - off)) 8)
      else none⟩⟩

end NeulaCpu.Isa

import NeulaCpu.Rtl.Units
import NeulaCpu.Isa.La32r

/-!
# The execution units compute the architecture's operations

`alu` shares one 33-bit adder between additions, subtractions and comparisons and one 64-bit shifter
between the right shifts; `bru` builds the signed comparison out of the unsigned one; `lsu` turns an
address into a byte mask and replicates the store data over the lanes. Each section proves that its
unit computes what `NeulaCpu.Isa.La32r` asks for.
-/

namespace NeulaCpu.Rtl

open Decoder (mask)

theorem getLsbD_31 (x : Word) : x.getLsbD 31 = decide (2 ^ 31 ≤ x.toNat) := by
  have h : x.getLsbD 31 = x.msb := by rw [BitVec.msb_eq_getLsbD_last]
  rw [h, BitVec.msb_eq_decide]

/-! ## `alu` -/

namespace Alu

variable {op : AluOp}

theorem adderResult_add (h : subtracts op = false) (a b : Word) : adderResult op a b = a + b := by
  apply BitVec.eq_of_toNat_eq
  simp [adderResult, adder, adderB, adderCin, h, BitVec.toNat_add, BitVec.toNat_setWidth]

theorem toNat_adder_sub (h : subtracts op = true) (a b : Word) :
    (adder op a b).toNat = (a.toNat + (2 ^ 32 - b.toNat)) % 2 ^ 33 := by
  have ha := a.isLt
  have hb := b.isLt
  have hone : (1 : BitVec 33).toNat = 1 := rfl
  simp only [adder, adderB, adderCin, h, if_true, BitVec.toNat_add, BitVec.toNat_setWidth,
    BitVec.toNat_not, hone]
  omega

theorem adderResult_sub (h : subtracts op = true) (a b : Word) : adderResult op a b = a - b := by
  have ha := a.isLt
  have hb := b.isLt
  apply BitVec.eq_of_toNat_eq
  rw [adderResult, BitVec.toNat_setWidth, toNat_adder_sub h, BitVec.toNat_sub]
  omega

/-- The carry out of a subtraction is set when there is no borrow. -/
theorem adderCout_sub (h : subtracts op = true) (a b : Word) : adderCout op a b = !a.ult b := by
  have ha := a.isLt
  have hb := b.isLt
  have hm : (adder op a b).getLsbD 32 = (adder op a b).msb := by
    rw [BitVec.msb_eq_getLsbD_last]
  rw [adderCout, hm, BitVec.msb_eq_decide, toNat_adder_sub h, BitVec.ult, ← decide_not,
    decide_eq_decide]
  omega

/-- The signed comparison from the signs and the sign of the difference. -/
theorem slt_eq (a b : Word) : a.slt b =
    ((a.getLsbD 31 && !b.getLsbD 31) ||
      ((a.getLsbD 31 == b.getLsbD 31) && (a - b).getLsbD 31)) := by
  have ha := a.isLt
  have hb := b.isLt
  have hs : (a - b).toNat = (2 ^ 32 - b.toNat + a.toNat) % 2 ^ 32 := BitVec.toNat_sub a b
  rw [getLsbD_31, getLsbD_31, getLsbD_31, hs, BitVec.slt, BitVec.toInt_eq_toNat_cond,
    BitVec.toInt_eq_toNat_cond]
  by_cases h1 : 2 ^ 31 ≤ a.toNat <;> by_cases h2 : 2 ^ 31 ≤ b.toNat
  all_goals
    simp only [h1, h2, decide_true, decide_false, Bool.not_true, Bool.not_false, Bool.and_true,
      Bool.and_false, Bool.true_and, Bool.false_and, Bool.or_false, Bool.false_or,
      beq_self_eq_true, Bool.true_beq, Bool.false_beq, decide_eq_decide, decide_eq_true_eq,
      decide_eq_false_iff_not]
    omega

theorem setWidth_ofBool (b : Bool) : (BitVec.ofBool b).setWidth 32 = Isa.ofBool b := by
  cases b <;> rfl

theorem sltResult_eq (h : subtracts op = true) (a b : Word) :
    sltResult op a b = Isa.ofBool (a.slt b) := by
  rw [sltResult, adderResult_sub h, ← slt_eq, setWidth_ofBool]

theorem sltuResult_eq (h : subtracts op = true) (a b : Word) :
    sltuResult op a b = Isa.ofBool (a.ult b) := by
  rw [sltuResult, adderCout_sub h, Bool.not_not, setWidth_ofBool]

theorem toNat_shamt (b : Word) : (b.extractLsb' 0 5).toNat = b.toNat % 32 := by
  simp [BitVec.extractLsb'_toNat]

theorem sllResult_eq (a b : Word) : sllResult a b = a <<< (b.toNat % 32) := by
  rw [sllResult, BitVec.shiftLeft_eq', toNat_shamt]

theorem srResult_srl (h : op.opSra = false) (a b : Word) :
    srResult op a b = a >>> (b.toNat % 32) := by
  rw [srResult, BitVec.ushiftRight_eq', toNat_shamt, h]
  have hn : b.toNat % 32 < 32 := Nat.mod_lt _ (by omega)
  generalize b.toNat % 32 = n at hn
  apply BitVec.eq_of_getLsbD_eq
  intro i hi
  rw [BitVec.getLsbD_setWidth, BitVec.getLsbD_ushiftRight, BitVec.getLsbD_append,
    BitVec.getLsbD_ushiftRight]
  by_cases hin : n + i < 32
  · simp [hi, hin]
  · simp [hin, BitVec.getLsbD_of_ge a (n + i) (by omega)]

theorem srResult_sra (h : op.opSra = true) (a b : Word) :
    srResult op a b = a.sshiftRight (b.toNat % 32) := by
  rw [srResult, BitVec.ushiftRight_eq', toNat_shamt, h]
  have hn : b.toNat % 32 < 32 := Nat.mod_lt _ (by omega)
  generalize b.toNat % 32 = n at hn
  apply BitVec.eq_of_getLsbD_eq
  intro i hi
  have hmsb : a.getLsbD 31 = a.msb := by rw [BitVec.msb_eq_getLsbD_last]
  rw [BitVec.getLsbD_setWidth, BitVec.getLsbD_ushiftRight, BitVec.getLsbD_append,
    BitVec.getLsbD_sshiftRight, hmsb]
  have hi' : ¬ 32 ≤ i := by omega
  by_cases hin : n + i < 32
  · simp [hi, hin, hi']
  · have hk : n + i - 32 < 32 := by omega
    cases a.msb with
    | false => simp [hin]
    | true =>
      rw [if_neg hin, Bool.and_self, Decoder.mask_true, BitVec.getLsbD_allOnes]
      simp [hi, hi', hin, hk]

end Alu

/-! ## `bru` -/

theorem Bru.rjLtRd_eq (a b : Word) : rjLtRd a b = a.slt b := by
  have ha := a.isLt
  have hb := b.isLt
  rw [rjLtRd, rjLtuRd, getLsbD_31, getLsbD_31, BitVec.ult, BitVec.slt, BitVec.toInt_eq_toNat_cond,
    BitVec.toInt_eq_toNat_cond]
  by_cases h1 : 2 ^ 31 ≤ a.toNat <;> by_cases h2 : 2 ^ 31 ≤ b.toNat
  all_goals
    simp only [h1, h2, decide_true, decide_false, Bool.not_true, Bool.not_false, Bool.and_true,
      Bool.and_false, Bool.and_self, if_true, Bool.false_eq_true, if_false]
    rw [eq_comm]
    simp only [decide_eq_decide, decide_eq_true_eq, decide_eq_false_iff_not]
    omega

/-! ## `lsu` -/

namespace Lsu

/-- The bytes that a request puts on the lanes of the data bus. -/
def lanes (d : DataSram) (k : Fin 4) : Option (BitVec 8) :=
  if d.en && d.we.getLsbD k then some (d.wdata.extractLsb' (8 * k) 8) else none

theorem bitVec2_cases (o : BitVec 2) : o = 0 ∨ o = 1 ∨ o = 2 ∨ o = 3 := by
  revert o
  decide

theorem toNat_offset (a : Word) : (a.extractLsb' 0 2).toNat = a.toNat % 4 := by
  simp [BitVec.extractLsb'_toNat]

theorem getLsbD_zero (a : Word) : a.getLsbD 0 = (a.extractLsb' 0 2).getLsbD 0 := by simp

theorem getLsbD_one (a : Word) : a.getLsbD 1 = (a.extractLsb' 0 2).getLsbD 1 := by simp

/-- The half-word misalignment check. -/
theorem getLsbD_zero_eq (a : Word) : a.getLsbD 0 = (a.toNat % 2 != 0) := by
  rw [BitVec.getLsbD, Nat.testBit_zero]
  rcases Nat.mod_two_eq_zero_or_one a.toNat with h | h <;> simp [h]

/-- The word misalignment check. -/
theorem getLsbD_low_two (a : Word) : (a.getLsbD 0 || a.getLsbD 1) = (a.toNat % 4 != 0) := by
  rw [getLsbD_zero, getLsbD_one, ← toNat_offset]
  rcases bitVec2_cases (a.extractLsb' 0 2) with h | h | h | h <;> rw [h] <;> rfl

theorem extract_replicate_byte (b : BitVec 8) (k : Fin 4) :
    (b ++ b ++ b ++ b : BitVec 32).extractLsb' (8 * k) 8 = b := by
  apply BitVec.eq_of_getLsbD_eq
  intro j hj
  rw [BitVec.getLsbD_extractLsb', BitVec.getLsbD_append, BitVec.getLsbD_append,
    BitVec.getLsbD_append]
  fin_cases k <;> simp [hj] <;> grind

theorem extract_replicate_half (v : Word) (k : Fin 4) :
    (v.extractLsb' 0 16 ++ v.extractLsb' 0 16 : BitVec 32).extractLsb' (8 * k) 8 =
      v.extractLsb' (8 * (k % 2 : ℕ)) 8 := by
  apply BitVec.eq_of_getLsbD_eq
  intro j hj
  rw [BitVec.getLsbD_extractLsb', BitVec.getLsbD_append]
  fin_cases k <;> simp [hj] <;> grind

/-- The one-hot store operation of an instruction. -/
def ofStore : Isa.Store → StoreOp
  | .stB => ⟨true, false, false⟩
  | .stH => ⟨false, true, false⟩
  | .stW => ⟨false, false, true⟩

/-- The one-hot load operation of an instruction. -/
def ofLoad : Isa.Load → LoadOp
  | .ldB => ⟨true, false, false, false, false, false⟩
  | .ldH => ⟨false, true, false, false, false, false⟩
  | .ldW => ⟨false, false, true, false, false, false⟩
  | .ldBu => ⟨false, false, false, true, false, false⟩
  | .ldHu => ⟨false, false, false, false, true, false⟩

theorem excpAle_ofStore (op : Isa.Store) (a : Word) :
    excpAle .zero (ofStore op) a = (a.toNat % op.size != 0) := by
  cases op with
  | stB => simp [excpAle, ofStore, Isa.Store.size, Nat.mod_one]
  | stH =>
    have h := getLsbD_zero_eq a
    simp_all [excpAle, ofStore, Isa.Store.size, dataSramEn, StoreOp.any]
  | stW =>
    have h := getLsbD_low_two a
    simp_all [excpAle, ofStore, Isa.Store.size, dataSramEn, StoreOp.any]

theorem excpAle_ofLoad (op : Isa.Load) (a : Word) :
    excpAle (ofLoad op) .zero a = (a.toNat % op.size != 0) := by
  cases op with
  | ldB | ldBu => simp [excpAle, ofLoad, Isa.Load.size, Nat.mod_one]
  | ldH | ldHu =>
    have h := getLsbD_zero_eq a
    simp_all [excpAle, ofLoad, Isa.Load.size, dataSramEn, LoadOp.any]
  | ldW =>
    have h := getLsbD_low_two a
    simp_all [excpAle, ofLoad, Isa.Load.size, dataSramEn, LoadOp.any]

/-- Byte mask and replicated data of an aligned store: each lane gets its byte of the register. -/
theorem store_lane (op : Isa.Store) (a v : Word) (h : a.toNat % op.size = 0) (k : Fin 4) :
    (if (dataSramWe (ofStore op) a).getLsbD k then
        some ((dataSramWdata (ofStore op) v).extractLsb' (8 * k) 8) else none) =
      if a.toNat % 4 ≤ k ∧ k < a.toNat % 4 + op.size then
        some (v.extractLsb' (8 * (k - a.toNat % 4)) 8) else none := by
  have hmod : a.toNat % 4 % op.size = 0 := by
    cases op <;> simp only [Isa.Store.size] at h ⊢ <;> omega
  rw [← toNat_offset] at hmod ⊢
  unfold dataSramWe
  generalize a.extractLsb' 0 2 = o at hmod ⊢
  cases op with
  | stB =>
    simp only [ofStore, dataSramWdata, if_true, extract_replicate_byte, Isa.Store.size]
    rcases bitVec2_cases o with rfl | rfl | rfl | rfl <;> fin_cases k <;> simp [byteSel]
  | stH =>
    simp only [ofStore, dataSramWdata, if_true, Bool.false_eq_true, if_false,
      extract_replicate_half, Isa.Store.size] at hmod ⊢
    rcases bitVec2_cases o with rfl | rfl | rfl | rfl <;> fin_cases k <;> simp_all [byteSel]
  | stW =>
    simp only [ofStore, dataSramWdata, if_true, Bool.false_eq_true, if_false,
      Isa.Store.size] at hmod ⊢
    rcases bitVec2_cases o with rfl | rfl | rfl | rfl <;> fin_cases k <;> simp_all [byteSel]

theorem lanes_load (en : Bool) (a wdata : Word) :
    lanes ⟨en, if en then dataSramWe .zero a else 0, a, wdata⟩ = fun _ => none := by
  funext k
  cases en <;> simp [lanes, dataSramWe]

theorem lanes_store (op : Isa.Store) (a v : Word) :
    lanes ⟨!(a.toNat % op.size != 0),
        if !(a.toNat % op.size != 0) then dataSramWe (ofStore op) a else 0, a,
        dataSramWdata (ofStore op) v⟩ =
      fun k : Fin 4 => if !(a.toNat % op.size != 0) && decide (a.toNat % 4 ≤ k) &&
          decide (k < a.toNat % 4 + op.size) then
        some (v.extractLsb' (8 * (k - a.toNat % 4)) 8) else none := by
  funext k
  by_cases h : a.toNat % op.size = 0
  · have hl := store_lane op a v h k
    simpa [lanes, h] using hl
  · simp [lanes, h]

end Lsu

end NeulaCpu.Rtl

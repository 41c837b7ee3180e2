import NeulaCpu.Isa.Datapath
import NeulaCpu.Lib.ByteLanes

/-!
# Byte memory over word lanes

The architecture addresses bytes. The data side of the processor moves words: `lsu` turns a store
into a word address, a byte mask and replicated data, and `mem2_stage` picks the bytes of a load out
of a word. Here the two are put together. A memory of words, with the lanes of every word read as
bytes, refines a little-endian byte memory: an aligned store through `lsu` is the byte store, and an
aligned load through `mem2_stage` is the byte load.
-/

namespace NeulaCpu.Isa

open NeulaCpu.Rtl (Word)

/-! ## Byte memory -/

/-- The `size` bytes from `a` on become the low bytes of `v`. -/
def storeBytes (m : Word → BitVec 8) (a : Word) (size : ℕ) (v : Word) : Word → BitVec 8 :=
  fun x => if (x - a).toNat < size then v.extractLsb' (8 * (x - a).toNat) 8 else m x

/-- The little-endian value at `a`, extended to a word. -/
def Load.read (m : Word → BitVec 8) (a : Word) : Load → Word
  | ldB => (m a).signExtend 32
  | ldBu => (m a).setWidth 32
  | ldH => (m (a + 1) ++ m a).signExtend 32
  | ldHu => (m (a + 1) ++ m a).setWidth 32
  | ldW => m (a + 3) ++ m (a + 2) ++ m (a + 1) ++ m a

end NeulaCpu.Isa

namespace NeulaCpu.Rtl

open ByteLanes (byte merge byte_merge)
open Isa (storeBytes)

/-! ## Word memory -/

/-- The number of the word that holds address `a`. -/
def wordIndex (a : Word) : BitVec 30 := a.extractLsb' 2 30

/-- The byte lane of address `a`. -/
def byteLane (a : Word) : Fin 4 := ⟨a.toNat % 4, Nat.mod_lt _ (by omega)⟩

variable (m : BitVec 30 → Word)

/-- A memory of words read as a memory of bytes. -/
def bytesOf (a : Word) : BitVec 8 := byte (m (wordIndex a)) (byteLane a)

/-- The memory after the request that `lsu` makes for a store. -/
def storeWord (op : Isa.Store) (a v : Word) : BitVec 30 → Word :=
  Function.update m (wordIndex a) (merge (m (wordIndex a)) (Lsu.dataSramWe (Lsu.ofStore op) a)
    (Lsu.dataSramWdata (Lsu.ofStore op) v))

theorem toNat_wordIndex (a : Word) : (wordIndex a).toNat = a.toNat / 4 := by
  rw [wordIndex, BitVec.extractLsb'_toNat, Nat.shiftRight_eq_div_pow]
  omega

theorem wordIndex_eq_iff (a b : Word) : wordIndex a = wordIndex b ↔ a.toNat / 4 = b.toNat / 4 := by
  rw [← BitVec.toNat_inj, toNat_wordIndex, toNat_wordIndex]

/-- The mask and the data of an aligned store, lane by lane. -/
theorem byte_merge_store (op : Isa.Store) (a v : Word) (h : a.toNat % op.size = 0) (old : Word)
    (k : Fin 4) : byte (merge old (Lsu.dataSramWe (Lsu.ofStore op) a)
      (Lsu.dataSramWdata (Lsu.ofStore op) v)) k =
        if a.toNat % 4 ≤ k ∧ k < a.toNat % 4 + op.size then v.extractLsb' (8 * (k - a.toNat % 4)) 8
      else byte old k := by
  have hlane := Lsu.store_lane op a v h k
  rw [byte_merge]
  split_ifs at hlane ⊢ with hwe hin hin
  · exact Option.some.inj hlane
  · rfl

theorem storeBytes_of_ne {op : Isa.Store} {a x : Word} (h : a.toNat % op.size = 0)
    (hx : wordIndex x ≠ wordIndex a) : ¬ (x - a).toNat < op.size := by
  rw [ne_eq, wordIndex_eq_iff] at hx
  have hsize : a.toNat % 4 + op.size ≤ 4 := by
    cases op <;> simp only [Isa.Store.size] at h ⊢ <;> omega
  rw [BitVec.toNat_sub]
  omega

/-- An aligned store through `lsu` is the byte store. -/
theorem bytesOf_storeWord (op : Isa.Store) (a v : Word)
    (h : a.toNat % op.size = 0) :
    bytesOf (storeWord m op a v) = storeBytes (bytesOf m) a op.size v := by
  funext x
  rw [bytesOf, storeWord, storeBytes]
  by_cases hx : wordIndex x = wordIndex a
  · rw [hx, Function.update_self, byte_merge_store op a v h, bytesOf, hx]
    rw [wordIndex_eq_iff] at hx
    have hsize : a.toNat % 4 + op.size ≤ 4 := by
      cases op <;> simp only [Isa.Store.size] at h ⊢ <;> omega
    have hin : (a.toNat % 4 ≤ byteLane x ∧ byteLane x < a.toNat % 4 + op.size) ↔
        (x - a).toNat < op.size := by
      simp only [byteLane, BitVec.toNat_sub]
      omega
    by_cases hlt : (x - a).toNat < op.size
    · have hoff : (byteLane x : ℕ) - a.toNat % 4 = (x - a).toNat := by
        rw [BitVec.toNat_sub] at hlt ⊢
        simp only [byteLane]
        omega
      rw [if_pos (hin.mpr hlt), if_pos hlt, hoff]
    · rw [if_neg (fun h' => hlt (hin.mp h')), if_neg hlt]
  · rw [Function.update_of_ne hx, if_neg (storeBytes_of_ne h hx)]
    rfl

/-! ## Loads -/

/-- A byte further on in the same word. -/
theorem bytesOf_add (a : Word) {i : ℕ} (h : a.toNat % 4 + i < 4) :
    bytesOf m (a + BitVec.ofNat 32 i) = byte (m (wordIndex a)) ⟨a.toNat % 4 + i, h⟩ := by
  have hadd : (a + BitVec.ofNat 32 i).toNat = a.toNat + i := by
    rw [BitVec.toNat_add, BitVec.toNat_ofNat]
    omega
  have hindex : wordIndex (a + BitVec.ofNat 32 i) = wordIndex a := by
    rw [wordIndex_eq_iff, hadd]
    omega
  have hlane : byteLane (a + BitVec.ofNat 32 i) = ⟨a.toNat % 4 + i, h⟩ := by
    simp only [byteLane, hadd, Fin.mk.injEq]
    omega
  rw [bytesOf, hindex, hlane]

/-- The four lanes make up the word. -/
theorem append_bytes (d : Word) : byte d 3 ++ byte d 2 ++ byte d 1 ++ byte d 0 = d := by
  apply ByteLanes.ext_byte
  intro i
  rw [ByteLanes.byte_append]
  match i with
  | 0 | 1 | 2 | 3 => rfl

theorem append_low_bytes (d : Word) : byte d 1 ++ byte d 0 = d.extractLsb' 0 16 :=
  BitVec.extractLsb'_append_extractLsb'_eq_extractLsb' rfl

theorem append_high_bytes (d : Word) : byte d 3 ++ byte d 2 = d.extractLsb' 16 16 :=
  BitVec.extractLsb'_append_extractLsb'_eq_extractLsb' rfl

/-- The byte that `mem2_stage` selects. -/
theorem msResult_byte (a d : Word) :
    msResult (Lsu.ofLoad .ldB) a d = (byte d (byteLane a)).signExtend 32 ∧
      msResult (Lsu.ofLoad .ldBu) a d = (byte d (byteLane a)).setWidth 32 := by
  have hlane : byteLane a = ⟨(a.extractLsb' 0 2).toNat, (a.extractLsb' 0 2).isLt⟩ := by
    simp only [byteLane, Lsu.toNat_offset]
  rw [hlane]
  simp only [msResult]
  rcases Lsu.bitVec2_cases (a.extractLsb' 0 2) with h | h | h | h
  all_goals
    rw [h]
    exact ⟨rfl, rfl⟩

/-- The half that `mem2_stage` selects. -/
theorem msResult_half (a d : Word) (h : a.toNat % 2 = 0) {i j : Fin 4} (hj : (j : ℕ) = a.toNat % 4)
    (hi : (i : ℕ) = a.toNat % 4 + 1) :
    msResult (Lsu.ofLoad .ldH) a d = (byte d i ++ byte d j).signExtend 32 ∧
      msResult (Lsu.ofLoad .ldHu) a d = (byte d i ++ byte d j).setWidth 32 := by
  have hoff := Lsu.toNat_offset a
  have heven : ∀ o : BitVec 2, o.toNat % 2 = 0 → o = 0 ∨ o = 2 := by decide
  rcases heven (a.extractLsb' 0 2) (by omega) with ho | ho
  · rw [ho] at hoff
    obtain rfl : j = 0 := Fin.ext (hj.trans hoff.symm)
    obtain rfl : i = 1 := Fin.ext (hi.trans (congrArg (· + 1) hoff.symm))
    simp only [msResult, ho, append_low_bytes]
    exact ⟨rfl, rfl⟩
  · rw [ho] at hoff
    obtain rfl : j = 2 := Fin.ext (hj.trans hoff.symm)
    obtain rfl : i = 3 := Fin.ext (hi.trans (congrArg (· + 1) hoff.symm))
    simp only [msResult, ho, append_high_bytes]
    exact ⟨rfl, rfl⟩

theorem msResult_ofLoad_half (a : Word) (h : a.toNat % 2 = 0) :
    msResult (Lsu.ofLoad .ldH) a (m (wordIndex a)) = Isa.Load.ldH.read (bytesOf m) a ∧
      msResult (Lsu.ofLoad .ldHu) a (m (wordIndex a)) = Isa.Load.ldHu.read (bytesOf m) a := by
  have lt : a.toNat % 4 + 1 < 4 := by omega
  obtain ⟨hs, hu⟩ := msResult_half a (m (wordIndex a)) h (j := byteLane a) (i := ⟨_, lt⟩) rfl rfl
  rw [hs, hu, ← bytesOf_add m a lt]
  exact ⟨rfl, rfl⟩

/-- The word that `mem2_stage` passes on. -/
theorem msResult_word (a d : Word) (h : a.toNat % 4 = 0) : msResult (Lsu.ofLoad .ldW) a d = d := by
  have hzero : a.extractLsb' 0 2 = 0 := BitVec.eq_of_toNat_eq ((Lsu.toNat_offset a).trans h)
  simp only [msResult, hzero]
  rfl

/-- An aligned load through `mem2_stage` is the byte load. -/
theorem msResult_ofLoad (op : Isa.Load) (a : Word) (h : a.toNat % op.size = 0) :
    msResult (Lsu.ofLoad op) a (m (wordIndex a)) = op.read (bytesOf m) a := by
  cases op with
  | ldB => exact (msResult_byte a _).1
  | ldBu => exact (msResult_byte a _).2
  | ldH => exact (msResult_ofLoad_half m a h).1
  | ldHu => exact (msResult_ofLoad_half m a h).2
  | ldW =>
    have hlane (i : Fin 4) : bytesOf m (a + BitVec.ofNat 32 i) = byte (m (wordIndex a)) i := by
      have hzero : a.toNat % 4 = 0 := h
      rw [bytesOf_add m a (i := i) (by omega)]
      congr 1
      exact Fin.ext (by simp [hzero])
    have h0 : bytesOf m a = byte (m (wordIndex a)) 0 := by
      simpa using hlane 0
    rw [msResult_word a _ h, Isa.Load.read, h0]
    have h1 := hlane 1
    have h2 := hlane 2
    have h3 := hlane 3
    calc m (wordIndex a)
        = byte (m (wordIndex a)) 3 ++ byte (m (wordIndex a)) 2 ++ byte (m (wordIndex a)) 1 ++
            byte (m (wordIndex a)) 0 := (append_bytes _).symm
      _ = _ := by rw [← h1, ← h2, ← h3]; rfl

/-- `lsu` and `mem2_stage` implement a little-endian byte memory on words, for every store, register
value, address and old memory. A misaligned access raises `excp_ale` and no aligned one does; an
aligned store changes exactly its bytes; and an aligned load of any size from any address,
afterwards, returns the bytes of that memory. -/
theorem lanes_refine_bytes (m : BitVec 30 → Word) (op : Isa.Store) (rjValue imm rkdValue : Word) :
    (∀ a, Lsu.excpAle .zero (Lsu.ofStore op) a = true ↔ a.toNat % op.size ≠ 0) ∧
    (∀ (ld : Isa.Load) a, Lsu.excpAle (Lsu.ofLoad ld) .zero a = true ↔ a.toNat % ld.size ≠ 0) ∧
    ((Lsu.addr rjValue imm).toNat % op.size = 0 →
      bytesOf (storeWord m op (Lsu.addr rjValue imm) rkdValue) =
        storeBytes (bytesOf m) (Lsu.addr rjValue imm) op.size rkdValue ∧
      ∀ (ld : Isa.Load) (b : Word), b.toNat % ld.size = 0 →
        msResult (Lsu.ofLoad ld) b
            (storeWord m op (Lsu.addr rjValue imm) rkdValue (wordIndex b)) =
          ld.read (storeBytes (bytesOf m) (Lsu.addr rjValue imm) op.size rkdValue) b) := by
  refine ⟨fun a => ?_, fun ld a => ?_, fun h => ?_⟩
  · rw [Lsu.excpAle_ofStore, bne_iff_ne]
  · rw [Lsu.excpAle_ofLoad, bne_iff_ne]
  · have hstore := bytesOf_storeWord m op (Lsu.addr rjValue imm) rkdValue h
    refine ⟨hstore, fun ld b hb => ?_⟩
    rw [msResult_ofLoad _ ld b hb, hstore]

/-- A half word stored at `0x1002` and read back with its sign. -/
theorem lanes_refine_bytes_half :
    (Lsu.addr 0x1000 2).toNat % Isa.Store.stH.size = 0 ∧
      msResult (Lsu.ofLoad .ldH) 0x1002
          (storeWord (fun _ => 0) .stH (Lsu.addr 0x1000 2) 0x12348001 (wordIndex 0x1002)) =
        0xffff8001 := by
  have haligned : (Lsu.addr 0x1000 2).toNat % Isa.Store.stH.size = 0 := by decide
  have hload :=
    ((lanes_refine_bytes (fun _ => 0) .stH 0x1000 2 0x12348001).2.2 haligned).2 .ldH
      0x1002 (by decide)
  exact ⟨haligned, hload.trans (by decide)⟩

end NeulaCpu.Rtl

import NeulaCpu.Xv6.FsDisk

/-!
# The areas of the disk

Boot block, super block, log, inode blocks, bitmap and data blocks follow one another. An inode, a
bit of the bitmap and an entry of an indirect block read back as they were written, and a write
elsewhere does not change them.
-/

namespace NeulaCpu.Xv6

open ByteStore Function

/-- The blocks before the data blocks. -/
def Superblock.nmeta (sb : Superblock) : ℕ := sb.size - sb.nblocks

/-- The areas do not overlap; `b` of `balloc` stays an `int` and an inode number fits a directory
entry. -/
structure Superblock.Wf (sb : Superblock) : Prop where
  boot : 2 ≤ sb.logstart
  log : sb.logstart + sb.nlog ≤ sb.inodestart
  inodes : sb.inodestart + (sb.ninodes + ipb - 1) / ipb ≤ sb.bmapstart
  bitmap : sb.bmapstart + (sb.size + bpb - 1) / bpb ≤ sb.nmeta
  size_le : sb.size + bpb ≤ 2 ^ 31
  root : rootIno < sb.ninodes
  ninodes_le : sb.ninodes ≤ 2 ^ 16

instance (sb : Superblock) : Decidable sb.Wf :=
  decidable_of_iff (2 ≤ sb.logstart ∧ sb.logstart + sb.nlog ≤ sb.inodestart ∧
      sb.inodestart + (sb.ninodes + ipb - 1) / ipb ≤ sb.bmapstart ∧
      sb.bmapstart + (sb.size + bpb - 1) / bpb ≤ sb.nmeta ∧ sb.size + bpb ≤ 2 ^ 31 ∧
      rootIno < sb.ninodes ∧ sb.ninodes ≤ 2 ^ 16)
    ⟨fun ⟨h1, h2, h3, h4, h5, h6, h7⟩ => ⟨h1, h2, h3, h4, h5, h6, h7⟩,
      fun ⟨h1, h2, h3, h4, h5, h6, h7⟩ => ⟨h1, h2, h3, h4, h5, h6, h7⟩⟩

example : Mkfs.sb.Wf := by decide

namespace Superblock.Wf

variable {sb : Superblock} (wf : sb.Wf) {i b : ℕ}

include wf

theorem iBlock_lt (hi : i < sb.ninodes) : iBlock sb i < sb.bmapstart := by
  have h := wf.inodes
  have h2 : i / ipb < (sb.ninodes + ipb - 1) / ipb := by simp only [ipb, bSize]; omega
  rw [iBlock]
  omega

theorem bBlock_lt (hb : b < sb.size) : bBlock sb b < sb.nmeta := by
  have h := wf.bitmap
  have h2 : b / bpb < (sb.size + bpb - 1) / bpb := by simp only [bpb, bSize]; omega
  rw [bBlock]
  omega

theorem nmeta_pos : 0 < sb.nmeta := by
  have h1 := wf.boot
  have h2 := wf.log
  have h3 := le_of_add_le_left wf.inodes
  have h4 := le_of_add_le_left wf.bitmap
  omega

theorem iBlock_lt_nmeta (hi : i < sb.ninodes) : iBlock sb i < sb.nmeta := by
  have h := wf.iBlock_lt hi
  have h2 := le_of_add_le_left wf.bitmap
  omega

theorem iBlock_ne_bBlock (hi : i < sb.ninodes) : iBlock sb i ≠ bBlock sb b := by
  have h := wf.iBlock_lt hi
  have h2 : sb.bmapstart ≤ bBlock sb b := Nat.le_add_left ..
  omega

theorem size_lt : sb.size < 2 ^ 32 := by
  have h := wf.size_le
  omega

theorem lt_two_pow (hb : b < sb.size) : b < 2 ^ 32 := hb.trans wf.size_lt

end Superblock.Wf

namespace Dinode

variable {ip : Dinode} {k j b : ℕ}

theorem addr_setAddr (hk : k < nDirect + 1) (hb : b < 2 ^ 32) :
    (ip.setAddr k b).addr j = if j = k then b else ip.addr j := by
  by_cases hj : j < nDirect + 1
  · simp only [addr, hj, dif_pos, setAddr]
    split_ifs
    · exact Nat.mod_eq_of_lt hb
    · rfl
  · rw [addr, dif_neg hj, addr, dif_neg hj, if_neg (by omega)]

@[simp] theorem type_setAddr : (ip.setAddr k b).type = ip.type := rfl

@[simp] theorem nlink_setAddr : (ip.setAddr k b).nlink = ip.nlink := rfl

@[simp] theorem size_setAddr : (ip.setAddr k b).size = ip.size := rfl

theorem addr_zero : zero.addr k = 0 := by simp [addr, zero]

theorem length_bytes : ip.bytes.length = 64 := by
  simp only [bytes, List.length_append, length_le16, length_le32, List.length_flatMap,
    List.map_const', List.sum_replicate, List.length_ofFn]
  rfl

end Dinode

section Inodes

variable {sb : Superblock} {d : Disk} {i j b : ℕ} {ip : Dinode} {data : Block}

theorem dinodeAt_congr {d' : Disk} (h : d' (iBlock sb i) = d (iBlock sb i)) :
    dinodeAt sb d' i = dinodeAt sb d i := by
  rw [dinodeAt, h, dinodeAt]

theorem dinodeAt_update (h : iBlock sb i ≠ b) :
    dinodeAt sb (update d b data) i = dinodeAt sb d i :=
  dinodeAt_congr (update_of_ne h ..)

/-- The bytes of an inode read back. -/
theorem dinodeAt_setDinode_self : dinodeAt sb (setDinode sb d i ip) i = ip := by
  simp only [dinodeAt, setDinode, update_self, Dinode.bytes, put_append, List.length_append,
    length_le16, length_le32]
  generalize i % ipb * 64 = a
  ext : 1
  iterate 5
    · simp (disch := first | omega | (rw [length_le16]; omega) | (rw [length_le32]; omega))
        only [word16_put_of_disjoint, word16_put_self, word32_put_of_disjoint, word32_put_self]
  · funext k
    have hk : k.val < (List.ofFn ip.addrs).length := by
      rw [List.length_ofFn]
      exact k.isLt
    exact (word32_put_words hk).trans (List.getElem_ofFn ..)

theorem dinodeAt_setDinode_of_ne (h : j ≠ i) :
    dinodeAt sb (setDinode sb d i ip) j = dinodeAt sb d j := by
  by_cases hb : iBlock sb j = iBlock sb i
  · -- two inodes of one block are 64 bytes apart
    have hslot : i % ipb * 64 + 64 ≤ j % ipb * 64 ∨ j % ipb * 64 + 64 ≤ i % ipb * 64 := by
      simp only [iBlock, ipb, bSize] at hb ⊢
      omega
    have hkeep (k : ℕ) (h1 : j % ipb * 64 ≤ k) (h2 : k < j % ipb * 64 + 64) :
        put (d (iBlock sb i)) (i % ipb * 64) ip.bytes k = d (iBlock sb i) k :=
      put_apply_of_disjoint (by rw [Dinode.length_bytes]; omega)
    simp only [dinodeAt, setDinode, hb, update_self]
    ext : 1
    · exact word16_congr fun k h1 h2 => hkeep k (by omega) (by omega)
    · exact word16_congr fun k h1 h2 => hkeep k (by omega) (by omega)
    · exact word16_congr fun k h1 h2 => hkeep k (by omega) (by omega)
    · exact word16_congr fun k h1 h2 => hkeep k (by omega) (by omega)
    · exact word32_congr fun k h1 h2 => hkeep k (by omega) (by omega)
    · funext a
      have ha := a.isLt
      simp only [nDirect] at ha
      exact word32_congr fun k h1 h2 => hkeep k (by omega) (by omega)
  · exact dinodeAt_update hb

theorem dinodeAt_setDinode : dinodeAt sb (setDinode sb d i ip) = update (dinodeAt sb d) i ip := by
  funext j
  by_cases h : j = i
  · subst h
    rw [dinodeAt_setDinode_self, update_self]
  · rw [dinodeAt_setDinode_of_ne h, update_of_ne h]

theorem setDinode_apply_of_ne (h : b ≠ iBlock sb i) : setDinode sb d i ip b = d b :=
  update_of_ne h ..

theorem setDinode_data (wf : sb.Wf) (hi : i < sb.ninodes) (hb : sb.nmeta ≤ b) :
    setDinode sb d i ip b = d b :=
  setDinode_apply_of_ne ((wf.iBlock_lt_nmeta hi).trans_le hb).ne'

end Inodes

section Bits

variable {sb : Superblock} {d : Disk} {b c : ℕ} {v : Bool} {data : Block}

theorem bitAt_congr {d' : Disk} (h : d' (bBlock sb b) = d (bBlock sb b)) :
    bitAt sb d' b = bitAt sb d b := by
  rw [bitAt, h, bitAt]

theorem bitAt_update (h : bBlock sb b ≠ c) : bitAt sb (update d c data) b = bitAt sb d b :=
  bitAt_congr (update_of_ne h ..)

theorem setBitAt_apply_of_ne (h : c ≠ bBlock sb b) : setBitAt sb d b v c = d c := update_of_ne h ..

/-- The mask `m` selects one bit of the byte. -/
theorem getLsbD_mask (x : Byte) {k j : ℕ} (hk : k < 8) (hj : j < 8) :
    (if v then x ||| 1#8 <<< k else x &&& ~~~(1#8 <<< k)).getLsbD j = if j = k then v
      else x.getLsbD j := by
  have hbit : (1#8 <<< k).getLsbD j = decide (j = k) := by
    rw [BitVec.getLsbD_shiftLeft, BitVec.getLsbD_one]
    rcases lt_trichotomy j k with h | rfl | h
    · simp [h, h.ne]
    · simp [hk]
    · simp [h.ne', Nat.sub_ne_zero_of_lt h]
  cases v with
  | true =>
    rw [if_pos rfl, BitVec.getLsbD_or, hbit]
    split_ifs with h <;> simp [h]
  | false =>
    rw [if_neg Bool.false_ne_true, BitVec.getLsbD_and, BitVec.getLsbD_not, hbit]
    split_ifs with h <;> simp [h, hj]

theorem bitAt_setBitAt : bitAt sb (setBitAt sb d b v) c = if c = b then v else bitAt sb d c := by
  by_cases hblk : bBlock sb c = bBlock sb b
  · simp only [bitAt, setBitAt, hblk, update_self]
    by_cases hbyte : c % bpb / 8 = b % bpb / 8
    · rw [hbyte, update_self, getLsbD_mask _
        (Nat.mod_lt _ (by norm_num)) (Nat.mod_lt _ (by norm_num))]
      -- one block, one byte and one bit make one number
      have hiff : c % bpb % 8 = b % bpb % 8 ↔ c = b := by
        simp only [bBlock, bpb, bSize] at hblk hbyte ⊢
        omega
      simp only [hiff]
    · rw [update_of_ne hbyte, if_neg]
      rintro rfl
      exact hbyte rfl
  · rw [if_neg (by rintro rfl; exact hblk rfl)]
    exact bitAt_congr (setBitAt_apply_of_ne hblk)

theorem bitAt_setDinode (wf : sb.Wf) {i : ℕ} {ip : Dinode} (hi : i < sb.ninodes) :
    bitAt sb (setDinode sb d i ip) b = bitAt sb d b :=
  bitAt_update (wf.iBlock_ne_bBlock hi).symm

theorem dinodeAt_setBitAt (wf : sb.Wf) {i : ℕ} (hi : i < sb.ninodes) :
    dinodeAt sb (setBitAt sb d b v) i = dinodeAt sb d i :=
  dinodeAt_update (wf.iBlock_ne_bBlock hi)

end Bits

section Entries

variable {data : Block} {j k b : ℕ}

theorem entryAt_setEntryAt (hb : b < 2 ^ 32) :
    entryAt (setEntryAt data j b) k = if k = j then b else entryAt data k := by
  split_ifs with h
  · rw [h, entryAt, setEntryAt, word32_put_self]
    exact Nat.mod_eq_of_lt hb
  · rw [entryAt, setEntryAt, word32_put_of_disjoint (by rw [length_le32]; omega), entryAt]

theorem entryAt_zero : entryAt (fun _ => 0) j = 0 := by simp [entryAt, word32]

end Entries

end NeulaCpu.Xv6

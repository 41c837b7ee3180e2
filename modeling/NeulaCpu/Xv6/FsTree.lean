import NeulaCpu.Xv6.FileOps
import NeulaCpu.Xv6.Fs

/-!
# The file system as a tree

What the inode table and the directories are about, read off the disk: every allocated inode is a
node with its type, its link count and, if it is a directory, the list of its entries. The functions
on inodes act on nodes and on the references that the inode table counts; the blocks stay
consistent, and the copies of inodes in memory agree with the disk.
-/

namespace NeulaCpu.Xv6

open ByteStore Outcome Function

/-- An allocated inode as the directories see it. -/
@[ext] structure Node where
  type : BitVec 16
  nlink : BitVec 16
  ents : List Dirent

/-- An inode that is free. -/
def Node.free : Node := ⟨0, 0, []⟩

/-- The entry `k` of a directory. -/
def Dinode.ent (ip : Dinode) (d : Disk) (k : ℕ) : Dirent :=
  .ofBytes (get (ip.byte d) (k * direntSize) direntSize)

/-- The entries of a directory. -/
def Dinode.ents (ip : Dinode) (d : Disk) : List Dirent :=
  if ip.type = tDir then (List.range (ip.size.toNat / direntSize)).map (ip.ent d) else []

def Dinode.node (ip : Dinode) (d : Disk) : Node :=
  if ip.type = 0 then .free else ⟨ip.type, ip.nlink, ip.ents d⟩

/-- The nodes of the file system. -/
def tree (sb : Superblock) (d : Disk) (i : ℕ) : Node :=
  if i < sb.ninodes then (dinodeAt sb d i).node d else .free

section Node

variable {sb : Superblock} {ip ip' : Dinode} {d d' : Disk} {T : ℕ → Prop} {k : ℕ}

theorem Dinode.length_ents (h : ip.type = tDir) :
    (ip.ents d).length = ip.size.toNat / direntSize := by
  rw [ents, if_pos h, List.length_map, List.length_range]

theorem Dinode.getElem_ents (h : ip.type = tDir) (hk : k < (ip.ents d).length) :
    (ip.ents d)[k] = ip.ent d k := by
  simp only [ents, if_pos h, List.getElem_map, List.getElem_range]

theorem Dinode.ents_of_empty (h : ip.size = 0) : ip.ents d = [] := by
  rw [ents, h]
  simp

/-- The offsets of the entries below the size. -/
theorem offset_lt {size x : ℕ} (hk : k < size / direntSize) (hx : x < k * direntSize + direntSize) :
    x < size := by
  have h := (Nat.le_div_iff_mul_le (by norm_num [direntSize])).mp hk
  rw [Nat.succ_mul] at h
  omega

theorem FileKept.ent_eq (h : FileKept T ip d ip' d') (hfull : ip.Full d)
    (hk : k < ip.size.toNat / direntSize)
    (hT : ∀ x, k * direntSize ≤ x → x < k * direntSize + direntSize → ¬ T x) :
    ip'.ent d' k = ip.ent d k := by
  refine congrArg Dirent.ofBytes (get_congr fun x h1 h2 => h.byte_eq (hfull _ ?_) (hT x h1 h2))
  have hx := offset_lt hk h2
  have := Nat.div_mul_le_self x bSize
  omega

theorem FileKept.ents_eq (h : FileKept T ip d ip' d') (hfull : ip.Full d)
    (htype : ip'.type = ip.type) (hsize : ip'.size = ip.size) (hT : ∀ x < ip.size.toNat, ¬ T x) :
    ip'.ents d' = ip.ents d := by
  rw [Dinode.ents, Dinode.ents, htype, hsize]
  split_ifs with hdir
  · refine List.map_congr_left fun k hk => h.ent_eq hfull (List.mem_range.mp hk) fun x h1 h2 =>
      hT x ?_
    exact offset_lt (List.mem_range.mp hk) h2
  · rfl

theorem FileKept.node_eq (h : FileKept (fun _ => False) ip d ip' d')
    (hfull : ip.type ≠ 0 → ip.Full d) (htype : ip'.type = ip.type) (hnlink : ip'.nlink = ip.nlink)
    (hsize : ip'.size = ip.size) :
    ip'.node d' = ip.node d := by
  rw [Dinode.node, Dinode.node, htype, hnlink]
  split_ifs with h0
  · rfl
  · rw [h.ents_eq (hfull h0) htype hsize fun _ _ => not_false]

theorem tree_apply (h : k < sb.ninodes) : tree sb d k = (dinodeAt sb d k).node d := if_pos h

/-- A change of the file `i` that keeps the others. -/
theorem tree_update {i : ℕ} (con : Consistent sb d) (hi : i < sb.ninodes)
    (hinodes : ∀ j < sb.ninodes, dinodeAt sb d' j = update (dinodeAt sb d) i ip j)
    (hothers : OthersKept sb i (dinodeAt sb d) d d') :
    tree sb d' = update (tree sb d) i (ip.node d') := by
  funext j
  by_cases hji : j = i
  · subst hji
    rw [update_self, tree_apply hi, hinodes j hi, update_self]
  · rw [update_of_ne hji]
    by_cases hj : j < sb.ninodes
    · rw [tree_apply hj, tree_apply hj, hinodes j hj, update_of_ne hji]
      by_cases h0 : (dinodeAt sb d j).type = 0
      · rw [Dinode.node, Dinode.node, if_pos h0, if_pos h0]
      · exact (hothers j hji ⟨hj, h0⟩).node_eq (fun _ => con.full j ⟨hj, h0⟩) rfl rfl rfl
    · rw [tree, tree, if_neg hj, if_neg hj]

theorem tree_type (h : k < sb.ninodes) : (tree sb d k).type = (dinodeAt sb d k).type := by
  rw [tree_apply h, Dinode.node]
  split_ifs with h0
  · exact h0.symm
  · rfl

theorem tree_of_allocated (h : Allocated sb (dinodeAt sb d) k) :
    tree sb d k = ⟨(dinodeAt sb d k).type, (dinodeAt sb d k).nlink, (dinodeAt sb d k).ents d⟩ := by
  rw [tree_apply h.1, Dinode.node, if_neg h.2]

theorem allocated_iff_tree : Allocated sb (dinodeAt sb d) k ↔ (tree sb d k).type ≠ 0 := by
  by_cases h : k < sb.ninodes
  · rw [tree_type h]
    exact and_iff_right h
  · rw [tree, if_neg h]
    simp [Allocated, h, Node.free]

end Node

/-! ## Entries that are written -/

section Dirents

theorem Dirent.length_bytes {de : Dirent} (h : de.name.length = dirSiz) :
    de.bytes.length = direntSize := by
  rw [bytes, List.length_append, length_le16, h]
  rfl

/-- An entry reads back. -/
theorem Dirent.ofBytes_bytes {de : Dirent} (h : de.inum < 2 ^ 16) :
    Dirent.ofBytes de.bytes = de := by
  have hw : word16 (fun k => de.bytes.getD k 0) 0 = BitVec.ofNat 16 de.inum := by
    have hput := word16_put_self (m := fun _ => 0) (a := 0) (BitVec.ofNat 16 de.inum)
    rw [← hput]
    exact word16_congr fun k _ hk => by
      rcases k with _ | _ | k
      · rfl
      · rfl
      · omega
  rw [ofBytes, hw, BitVec.toNat_ofNat, Nat.mod_eq_of_lt h]
  rfl

theorem length_strncpy : ∀ (n : ℕ) (t : List Byte), (strncpy n t).length = n
  | 0, _ => rfl
  | n + 1, t => by
    rw [strncpy, List.length_cons]
    split_ifs
    · rw [List.length_replicate]
    · rw [length_strncpy n]

/-- Past the end of a string `strncpy` stores what `strncmp` reads there. -/
theorem strncmp_strncpy : ∀ (n : ℕ) (s t : List Byte), strncmp n s (strncpy n t) = strncmp n s t
  | 0, _, _ => rfl
  | n + 1, s, t => by
    rw [strncmp, strncmp, strncpy, List.headD_cons, List.tail_cons]
    by_cases h : s.headD 0 ≠ 0 ∧ s.headD 0 = t.headD 0
    · rw [if_pos h, if_pos h, if_neg (h.2 ▸ h.1), strncmp_strncpy n]
    · rw [if_neg h, if_neg h]

/-- Two strings are equal for `strncmp` if `strncpy` stores the same for them. -/
theorem strncmp_eq_zero_iff : ∀ (n : ℕ) (s t : List Byte), strncmp n s t = 0 ↔
    strncpy n s = strncpy n t
  | 0, _, _ => iff_of_true rfl rfl
  | n + 1, s, t => by
    rw [strncmp, strncpy, strncpy, List.cons.injEq]
    by_cases heq : s.headD 0 = t.headD 0
    · by_cases h0 : s.headD 0 = 0
      · rw [if_neg fun h => h.1 h0, if_pos h0, if_pos (heq ▸ h0), heq, sub_self]
        simp only [and_self]
      · rw [if_pos ⟨h0, heq⟩, if_neg h0, if_neg (heq ▸ h0), strncmp_eq_zero_iff n,
          and_iff_right heq]
    · rw [if_neg fun h => heq h.2, sub_eq_zero]
      refine iff_of_false (fun h => heq (BitVec.eq_of_toNat_eq (Int.ofNat_inj.mp h))) fun h =>
        heq h.1

theorem namecmp_strncpy (s t : List Byte) : namecmp s (strncpy dirSiz t) = namecmp s t :=
  strncmp_strncpy ..

end Dirents

namespace Wrote

variable {ip ip' : Dinode} {d d' : Disk} {l : List Byte} {k j : ℕ}

section

variable (hw : Wrote (.ofBytes l) (k * direntSize) direntSize direntSize ip d ip' d')

include hw

/-- The entry that was written. -/
theorem ent_self (hl : l.length = direntSize) : ip'.ent d' k = .ofBytes l := by
  refine congrArg Dirent.ofBytes (List.ext_getElem (by rw [length_get, hl]) fun x hx _ => ?_)
  rw [length_get] at hx
  have h := hw.bytes (k * direntSize + x) (by omega) (by omega)
  rw [Source.ofBytes, Nat.add_sub_cancel_left, List.getElem?_eq_getElem (by omega)] at h
  simp only [ByteStore.get, List.getElem_map, List.getElem_range]
  exact (Option.some.inj h).symm

/-- The other entries. -/
theorem ent_of_ne (hfull : ip.Full d)
    (hj : j < ip.size.toNat / direntSize) (hne : j ≠ k) : ip'.ent d' j = ip.ent d j := by
  refine hw.kept.ent_eq hfull hj ?_
  rintro x h1 h2 ⟨h3, h4, _⟩
  simp only [direntSize] at h1 h2 h3 h4
  omega

theorem ents_set (hl : l.length = direntSize) (hfull : ip.Full d) (hdir : ip.type = tDir)
    (htype : ip'.type = ip.type) (hk : k < ip.size.toNat / direntSize) :
    ip'.ents d' = (ip.ents d).set k (.ofBytes l) := by
  have hsize : ip'.size.toNat = ip.size.toNat := by
    have h := offset_lt (x := k * direntSize + (direntSize - 1)) hk
      (by simp only [direntSize]; omega)
    rw [hw.size]
    simp only [direntSize] at h ⊢
    omega
  have hdir' : ip'.type = tDir := htype.trans hdir
  refine List.ext_getElem ?_ fun j hj _ => ?_
  · rw [List.length_set, Dinode.length_ents hdir', Dinode.length_ents hdir, hsize]
  · rw [Dinode.getElem_ents hdir', List.getElem_set]
    rw [Dinode.length_ents hdir', hsize] at hj
    split_ifs with h
    · rw [← h, hw.ent_self hl]
    · rw [hw.ent_of_ne hfull hj (Ne.symm h), Dinode.getElem_ents hdir]

theorem ents_append (hl : l.length = direntSize) (hfull : ip.Full d) (hdir : ip.type = tDir)
    (htype : ip'.type = ip.type) (hk : ip.size.toNat = k * direntSize) :
    ip'.ents d' = ip.ents d ++ [.ofBytes l] := by
  have hsize : ip'.size.toNat = (k + 1) * direntSize := by
    rw [hw.size, hk, Nat.succ_mul]
    omega
  have hpos : 0 < direntSize := by norm_num [direntSize]
  have hdir' : ip'.type = tDir := htype.trans hdir
  have hlen : ip.size.toNat / direntSize = k := by rw [hk, Nat.mul_div_cancel _ hpos]
  have hlen' : ip'.size.toNat / direntSize = k + 1 := by rw [hsize, Nat.mul_div_cancel _ hpos]
  refine List.ext_getElem ?_ fun j hj _ => ?_
  · rw [List.length_append, List.length_singleton, Dinode.length_ents hdir',
      Dinode.length_ents hdir, hlen, hlen']
  · rw [Dinode.getElem_ents hdir', List.getElem_append]
    rw [Dinode.length_ents hdir', hlen'] at hj
    split_ifs with h
    · rw [Dinode.length_ents hdir, hlen] at h
      rw [hw.ent_of_ne hfull (by omega) h.ne, Dinode.getElem_ents hdir]
    · rw [Dinode.length_ents hdir, hlen] at h
      have hjk : j = k := by omega
      rw [List.getElem_singleton, hjk, hw.ent_self hl]

end

/-- A write from the kernel that stopped before its first byte has not changed the entries. -/
theorem ents_eq {off n : ℕ} (hw : Wrote (.ofBytes l) off n 0 ip d ip' d') (hl : n ≤ l.length)
    (hfull : ip.Full d) (htype : ip'.type = ip.type) : ip'.ents d' = ip.ents d := by
  have hsize : ip'.size = ip.size := by
    have h1 := hw.size
    have h2 := hw.off_le
    exact BitVec.eq_of_toNat_eq (by omega)
  refine hw.kept.ents_eq hfull htype hsize ?_
  rintro x _ ⟨h1, _, h2⟩
  obtain ⟨k, hk, hnone⟩ := h2 (by omega)
  rw [Source.ofBytes, List.getElem?_eq_getElem (by omega)] at hnone
  exact absurd hnone (by simp)

end Wrote

end NeulaCpu.Xv6

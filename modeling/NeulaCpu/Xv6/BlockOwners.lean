import NeulaCpu.Lib.Ownership
import NeulaCpu.Xv6.FsAreas

/-!
# Who owns a block

Every allocated inode has a slot for each block that its file can have, and one for its indirect
block. The bitmap marks a data block exactly if a slot holds it, and no two slots hold the same
block. `bmap` fills an empty slot with a free block, a write changes a block that a slot holds, and
`itrunc` empties the slots of a file; what the other files hold stays as it is.

The inodes are given by a function `din`, which is the inode area of the disk except for the inode
that is being changed in memory.
-/

namespace NeulaCpu.Xv6

open ByteStore Outcome

namespace Dinode

variable (ip : Dinode) (d : Disk)

/-- The address of the block `bn` of the file, 0 if it is missing. -/
def block (bn : ℕ) : ℕ :=
  if bn < nDirect then ip.addr bn
  else if bn < maxFile ∧ ip.addr nDirect ≠ 0 then entryAt (d (ip.addr nDirect)) (bn - nDirect)
  else 0

/-- What a slot holds: slot `maxFile` is the indirect block, those below are the blocks of the
file. -/
def slot (n : ℕ) : ℕ := if n = maxFile then ip.addr nDirect else ip.block d n

/-- The byte at an offset of the file. -/
def byte (x : ℕ) : Byte := d (ip.block d (x / bSize)) (x % bSize)

/-- No block below the size is missing. -/
def Full : Prop := ∀ bn, bn * bSize < ip.size.toNat → ip.block d bn ≠ 0

end Dinode

/-- The file keeps its blocks, and the bytes in them at offsets outside `T`. -/
def FileKept (T : ℕ → Prop) (ip : Dinode) (d : Disk) (ip' : Dinode) (d' : Disk) : Prop :=
  ∀ bn, ip.block d bn ≠ 0 → ip'.block d' bn = ip.block d bn ∧
    ∀ k < bSize, ¬ T (bn * bSize + k) → d' (ip.block d bn) k = d (ip.block d bn) k

section Defs

variable (sb : Superblock) (din : ℕ → Dinode) (d : Disk)

/-- The inode `i` is allocated. -/
def Allocated (i : ℕ) : Prop := i < sb.ninodes ∧ (din i).type ≠ 0

/-- The bitmap marks the data block `b`. -/
def InUse (b : ℕ) : Prop := sb.nmeta ≤ b ∧ b < sb.size ∧ bitAt sb d b = true

/-- A data block that is free. -/
def Fresh (b : ℕ) : Prop := sb.nmeta ≤ b ∧ b < sb.size ∧ bitAt sb d b = false

/-- The slot `x.2` of the inode `x.1` holds the block `b`. -/
def SlotOwns (x : ℕ × ℕ) (b : ℕ) : Prop := Allocated sb din x.1 ∧ (din x.1).slot d x.2 = b ∧ b ≠ 0

/-- The bitmap and the slots agree. -/
structure BlocksOk : Prop where
  exact : Ownership.Exact (InUse sb d) (SlotOwns sb din d)
  metaUsed : ∀ b < sb.nmeta, bitAt sb d b = true

/-- The disk after `balloc` has given out the block `b`. -/
def afterAlloc (b : ℕ) : Disk := Function.update (setBitAt sb d b true) b fun _ => 0

end Defs

section Slots

variable {ip ip' : Dinode} {d d' : Disk} {n bn : ℕ}

theorem Dinode.slot_maxFile : ip.slot d maxFile = ip.addr nDirect := if_pos rfl

theorem Dinode.slot_of_ne (h : n ≠ maxFile) : ip.slot d n = ip.block d n := if_neg h

theorem Dinode.block_of_ge (h : maxFile ≤ bn) : ip.block d bn = 0 := by
  rw [block, if_neg (by simp only [maxFile, nIndirect, nDirect, bSize] at h ⊢; omega),
    if_neg (by omega)]

theorem Dinode.lt_of_block_ne (h : ip.block d bn ≠ 0) : bn < maxFile := by
  by_contra hge
  exact h (block_of_ge (by omega))

theorem Dinode.slot_of_block (h : ip.block d bn ≠ 0) : ip.slot d bn = ip.block d bn :=
  slot_of_ne (lt_of_block_ne h).ne

section

variable (haddr : ∀ k, ip'.addr k = ip.addr k) (hind : ip.addr nDirect ≠ 0 → d' (ip.addr nDirect) =
  d (ip.addr nDirect))

include haddr hind

theorem Dinode.block_congr : ip'.block d' bn = ip.block d bn := by
  rw [block, block, haddr, haddr]
  by_cases h : ip.addr nDirect = 0
  · simp [h]
  · rw [hind h]

theorem Dinode.slot_congr : ip'.slot d' n = ip.slot d n := by
  rw [slot, slot, haddr, block_congr haddr hind]

end

/-- The slots from `nDirect` on are the entries of the indirect block. -/
theorem Dinode.slot_entry (h0 : ip.addr nDirect ≠ 0) {j : ℕ} (hj : j < nIndirect) :
    ip.slot d (nDirect + j) = entryAt (d (ip.addr nDirect)) j := by
  have hm : nDirect + j < maxFile := by rw [maxFile]; omega
  rw [slot, if_neg hm.ne, block, if_neg (by omega), if_pos ⟨hm, h0⟩, Nat.add_sub_cancel_left]

theorem Dinode.slot_zero {k : ℕ} (h : ∀ k, ip.addr k = 0) : ip.slot d k = 0 := by
  simp [slot, block, h]

end Slots

namespace FileKept

variable {T T' : ℕ → Prop} {ip ip' ip'' : Dinode} {d d' d'' : Disk} {x : ℕ}

theorem refl : FileKept T ip d ip d := fun _ _ => ⟨rfl, fun _ _ _ => rfl⟩

theorem trans (h : FileKept T ip d ip' d') (h' : FileKept T ip' d' ip'' d'') :
    FileKept T ip d ip'' d'' := by
  intro bn hbn
  obtain ⟨hb, hdata⟩ := h bn hbn
  obtain ⟨hb', hdata'⟩ := h' bn (hb ▸ hbn)
  rw [hb] at hb' hdata'
  exact ⟨hb', fun k hk hT => (hdata' k hk hT).trans (hdata k hk hT)⟩

theorem mono (h : FileKept T ip d ip' d') (hT : ∀ x, T x → T' x) : FileKept T' ip d ip' d' :=
    fun bn hbn =>
  ⟨(h bn hbn).1, fun k hk hk' => (h bn hbn).2 k hk fun ht => hk' (hT _ ht)⟩

theorem block_ne (h : FileKept T ip d ip' d') {bn : ℕ} (hbn : ip.block d bn ≠ 0) :
    ip'.block d' bn ≠ 0 := by
  rw [(h bn hbn).1]
  exact hbn

theorem byte_eq (h : FileKept T ip d ip' d') (hx : ip.block d (x / bSize) ≠ 0) (hT : ¬ T x) :
    ip'.byte d' x = ip.byte d x := by
  obtain ⟨hb, hdata⟩ := h _ hx
  rw [Dinode.byte, hb, Dinode.byte]
  refine hdata _ (Nat.mod_lt _ (by norm_num [bSize])) ?_
  rwa [Nat.div_add_mod']

end FileKept

section AfterAlloc

variable {sb : Superblock} {d : Disk} {b c : ℕ}

theorem afterAlloc_self : afterAlloc sb d b b = fun _ => 0 := Function.update_self ..

theorem afterAlloc_of_ne (wf : sb.Wf) (hb : b < sb.size) (hc : sb.nmeta ≤ c) (hne : c ≠ b) :
    afterAlloc sb d b c = d c := by
  have h := wf.bBlock_lt hb
  rw [afterAlloc, Function.update_of_ne hne, setBitAt_apply_of_ne (by omega)]

theorem bitAt_afterAlloc (wf : sb.Wf) (hb : sb.nmeta ≤ b) (hc : c < sb.size) :
    bitAt sb (afterAlloc sb d b) c = if c = b then true else bitAt sb d c := by
  have h := wf.bBlock_lt hc
  rw [afterAlloc, bitAt_update (by omega), bitAt_setBitAt]

theorem dinodeAt_afterAlloc (wf : sb.Wf) (hb : sb.nmeta ≤ b) {i : ℕ} (hi : i < sb.ninodes) :
    dinodeAt sb (afterAlloc sb d b) i = dinodeAt sb d i := by
  have h := wf.iBlock_lt_nmeta hi
  rw [afterAlloc, dinodeAt_update (by omega), dinodeAt_setBitAt wf hi]

end AfterAlloc

theorem Fresh.not_inUse {sb : Superblock} {d : Disk} {b : ℕ} (h : Fresh sb d b) : ¬ InUse sb d b :=
    fun hu =>
  Bool.false_ne_true (h.2.2.symm.trans hu.2.2)

namespace BlocksOk

variable {sb : Superblock} {din din' : ℕ → Dinode} {d d' : Disk} {i j n m b : ℕ}

section

variable (ok : BlocksOk sb din d)

include ok

theorem inUse (hj : Allocated sb din j) (h : (din j).slot d n ≠ 0) :
    InUse sb d ((din j).slot d n) :=
  ok.exact.used_of_owns (k := (j, n)) ⟨hj, rfl, h⟩

theorem inUse_addr (hj : Allocated sb din j) (h : (din j).addr nDirect ≠ 0) :
    InUse sb d ((din j).addr nDirect) := by
  rw [← Dinode.slot_maxFile (d := d)] at h ⊢
  exact ok.inUse hj h

theorem inUse_block (hj : Allocated sb din j) (h : (din j).block d n ≠ 0) :
    InUse sb d ((din j).block d n) := by
  have hslot := Dinode.slot_of_block h
  rw [← hslot] at h ⊢
  exact ok.inUse hj h

/-- A free block is in no slot. -/
theorem slot_ne_fresh (wf : sb.Wf) (hj : Allocated sb din j) (hb : Fresh sb d b) :
    (din j).slot d n ≠ b := by
  rintro rfl
  have hpos := wf.nmeta_pos
  have hne : (din j).slot d n ≠ 0 := by
    have := hb.1
    omega
  exact hb.not_inUse (ok.inUse hj hne)

/-- Two slots that hold the same block are one. -/
theorem slot_inj (hi : Allocated sb din i) (hj : Allocated sb din j)
    (hne : (din i).slot d n ≠ 0) (h : (din j).slot d m = (din i).slot d n) : j = i ∧ m = n := by
  have heq := ok.exact.unique _ (j, m) (i, n) ⟨hj, rfl, h ▸ hne⟩ ⟨hi, h.symm, h ▸ hne⟩
  exact Prod.mk.inj heq

/-- The indirect block of a file is not a block of a file. -/
theorem addr_ne_block (hi : Allocated sb din i) (hj : Allocated sb din j)
    (hne : (din i).block d n ≠ 0) : (din j).addr nDirect ≠ (din i).block d n := by
  intro h
  have hslot := Dinode.slot_of_block hne
  have hm := (ok.slot_inj hi hj (hslot ▸ hne) (Dinode.slot_maxFile.trans (h.trans hslot.symm))).2
  exact (Dinode.lt_of_block_ne hne).ne hm.symm

/-- Two files have different indirect blocks. -/
theorem addr_inj (hi : Allocated sb din i) (hj : Allocated sb din j)
    (hne : (din i).addr nDirect ≠ 0) (h : (din j).addr nDirect = (din i).addr nDirect) : j = i := by
  have hind (k : ℕ) : (din k).slot d maxFile = (din k).addr nDirect := Dinode.slot_maxFile
  exact (ok.slot_inj (n := maxFile) (m := maxFile) hi hj (by rwa [hind]) (by rw [hind, hind, h])).1

theorem congr_owns (hbit : ∀ b < sb.size, bitAt sb d' b = bitAt sb d b)
    (howns : ∀ x b, SlotOwns sb din' d' x b ↔ SlotOwns sb din d x b) : BlocksOk sb din' d' where
  exact := ok.exact.congr
    (fun _ => and_congr_right fun _ => and_congr_right fun hb => by rw [hbit _ hb]) howns
  metaUsed b hb := by
    have hsize : sb.nmeta ≤ sb.size := Nat.sub_le ..
    rw [hbit b (by omega)]
    exact ok.metaUsed b hb

theorem congr (hbit : ∀ b < sb.size, bitAt sb d' b = bitAt sb d b)
    (halloc : ∀ j, Allocated sb din' j ↔ Allocated sb din j)
    (hslot : ∀ j, Allocated sb din j → ∀ n, (din' j).slot d' n = (din j).slot d n) :
    BlocksOk sb din' d' :=
  ok.congr_owns hbit fun x b => by
    rw [SlotOwns, SlotOwns, halloc]
    exact and_congr_right fun hx => by rw [hslot _ hx]

/-- A free block goes into an empty slot. -/
theorem acquire (wf : sb.Wf) (hb : Fresh sb d b) (hi : Allocated sb din i)
    (hempty : (din i).slot d n = 0)
    (hbit : ∀ c < sb.size, bitAt sb d' c = if c = b then true else bitAt sb d c)
    (halloc : ∀ j, Allocated sb din' j ↔ Allocated sb din j)
    (hself : (din' i).slot d' n = b)
    (hslot : ∀ j, Allocated sb din j → ∀ m, (j, m) ≠ (i, n) → (din' j).slot d' m =
    (din j).slot d m) :
    BlocksOk sb din' d' where
  exact := by
    have hpos := wf.nmeta_pos
    refine ok.exact.acquire (k := (i, n)) (S := fun c => c = b) ?_ (fun c => ?_) fun x c => ?_
    · rintro c rfl
      exact hb.not_inUse
    · by_cases hc : c = b
      · subst hc
        simp only [InUse, hbit c hb.2.1, if_pos, or_true, iff_true]
        exact ⟨hb.1, hb.2.1, trivial⟩
      · simp only [hc, or_false]
        exact and_congr_right fun _ => and_congr_right fun hlt => by rw [hbit c hlt, if_neg hc]
    · rw [SlotOwns, SlotOwns, halloc]
      by_cases hx : x = (i, n)
      · subst hx
        simp only [hself, hempty, true_and]
        constructor
        · rintro ⟨_, rfl, _⟩
          exact Or.inr rfl
        · rintro (⟨_, rfl, h⟩ | rfl)
          · exact absurd rfl h
          · exact ⟨hi, rfl, by have := hb.1; omega⟩
      · simp only [hx, false_and, or_false]
        exact and_congr_right fun hal => by rw [hslot x.1 hal x.2 hx]
  metaUsed c hc := by
    have hsize : sb.nmeta ≤ sb.size := Nat.sub_le ..
    rw [hbit c (by omega), if_neg (by have := hb.1; omega)]
    exact ok.metaUsed c hc

end

end BlocksOk

end NeulaCpu.Xv6

import NeulaCpu.Xv6.BlockOwners

/-!
# Free blocks

Each allocation takes one free block and fills one empty slot. So a file gets the blocks that it
needs exactly if there are as many free blocks as it has empty slots for them.
-/

namespace NeulaCpu.Xv6

open Function

/-- How many blocks the bitmap has as free. -/
def freeBlocks (sb : Superblock) (d : Disk) : ℕ :=
  ((Finset.range sb.size).filter fun b => bitAt sb d b = false).card

/-- How many of the slots `S` are empty. -/
def Dinode.missing (ip : Dinode) (d : Disk) (S : Finset ℕ) : ℕ :=
  (S.filter fun k => ip.slot d k = 0).card

theorem Dinode.missing_mono {ip : Dinode} {d : Disk} {S S' : Finset ℕ} (h : S ⊆ S') :
    ip.missing d S ≤ ip.missing d S' :=
  Finset.card_le_card (Finset.filter_subset_filter _ h)

/-- The slots that the blocks `bns` of a file need: their own, and that of the indirect block. -/
def neededSlots (bns : Finset ℕ) : Finset ℕ :=
  if ∃ bn ∈ bns, nDirect ≤ bn then insert maxFile bns else bns

theorem mem_neededSlots {bns : Finset ℕ} {k : ℕ} :
    k ∈ neededSlots bns ↔ k ∈ bns ∨ k = maxFile ∧ ∃ bn ∈ bns, nDirect ≤ bn := by
  rw [neededSlots]
  split_ifs with h
  · rw [Finset.mem_insert, or_comm, and_iff_left h]
  · rw [or_iff_left fun hk => h hk.2]

theorem subset_neededSlots (bns : Finset ℕ) : bns ⊆ neededSlots bns :=
  fun _ hk => mem_neededSlots.mpr (.inl hk)

theorem neededSlots_mono {A B : Finset ℕ} (h : A ⊆ B) : neededSlots A ⊆ neededSlots B := by
  intro k hk
  rw [mem_neededSlots] at hk ⊢
  exact hk.imp (fun hk => h hk) fun ⟨he, bn, hbn, hge⟩ => ⟨he, bn, h hbn, hge⟩

/-- A file that has a block has the indirect block that leads to it. -/
theorem Dinode.slot_ne_of_needed {ip : Dinode} {d : Disk} {bns : Finset ℕ}
    (hne : ∀ bn ∈ bns, ip.block d bn ≠ 0) {k : ℕ} (hk : k ∈ neededSlots bns) : ip.slot d k ≠ 0 := by
  rcases mem_neededSlots.mp hk with hk | ⟨rfl, bn, hbn, hge⟩
  · rw [slot_of_block (hne k hk)]
    exact hne k hk
  · intro hzero
    rw [slot_maxFile] at hzero
    refine hne bn hbn ?_
    rw [block, if_neg (by omega), if_neg fun h => h.2 hzero]

/-- The empty slots `F` have been filled with free blocks. -/
structure Filled (sb : Superblock) (F : Finset ℕ) (ip : Dinode) (d : Disk) (ip' : Dinode)
    (d' : Disk) : Prop where
  slot : ∀ k ∉ F, ip'.slot d' k = ip.slot d k
  empty : ∀ k ∈ F, ip.slot d k = 0
  full : ∀ k ∈ F, ip'.slot d' k ≠ 0
  free : freeBlocks sb d' + F.card = freeBlocks sb d

namespace Filled

variable {sb : Superblock} {F F' S : Finset ℕ} {ip ip' ip'' : Dinode} {d d' d'' : Disk}

/-- Neither a slot nor the bitmap has changed. -/
theorem of_same (hslot : ∀ k, ip'.slot d' k = ip.slot d k)
    (hbit : ∀ b < sb.size, bitAt sb d' b = bitAt sb d b) : Filled sb ∅ ip d ip' d' where
  slot k _ := hslot k
  empty k hk := absurd hk (Finset.notMem_empty k)
  full k hk := absurd hk (Finset.notMem_empty k)
  free := by
    rw [Finset.card_empty, Nat.add_zero, freeBlocks, freeBlocks]
    refine congrArg Finset.card (Finset.filter_congr fun b hb => ?_)
    rw [hbit b (Finset.mem_range.mp hb)]

theorem refl : Filled sb ∅ ip d ip d := of_same (fun _ => rfl) fun _ _ => rfl

theorem trans (h : Filled sb F ip d ip' d') (h' : Filled sb F' ip' d' ip'' d'') :
    Filled sb (F ∪ F') ip d ip'' d'' := by
  have hdisj : Disjoint F F' :=
    Finset.disjoint_left.mpr fun k hk hk' => h.full k hk (h'.empty k hk')
  refine ⟨fun k hk => ?_, fun k hk => ?_, fun k hk => ?_, ?_⟩
  · rw [Finset.mem_union, not_or] at hk
    rw [h'.slot k hk.2, h.slot k hk.1]
  · rcases Finset.mem_union.mp hk with hk | hk
    · exact h.empty k hk
    · have hnot : k ∉ F := fun hk' => Finset.disjoint_left.mp hdisj hk' hk
      rw [← h.slot k hnot]
      exact h'.empty k hk
  · by_cases hk' : k ∈ F'
    · exact h'.full k hk'
    · rw [h'.slot k hk']
      exact h.full k ((Finset.mem_union.mp hk).resolve_right hk')
  · have h1 := h.free
    have h2 := h'.free
    rw [Finset.card_union_of_disjoint hdisj]
    omega

/-- An allocation has failed: not all empty slots could be filled. -/
theorem lt_missing (h : Filled sb F ip d ip' d') (hF : F ⊆ S) {k : ℕ} (hk : k ∈ S)
    (hempty : ip'.slot d' k = 0) (hfree : freeBlocks sb d' = 0) :
    freeBlocks sb d < ip.missing d S := by
  have hnot : k ∉ F := fun hk' => h.full k hk' hempty
  have hold : ip.slot d k = 0 := by rw [← h.slot k hnot, hempty]
  have hsub : insert k F ⊆ S.filter fun k => ip.slot d k = 0 := by
    intro m hm
    rcases Finset.mem_insert.mp hm with rfl | hm
    · exact Finset.mem_filter.mpr ⟨hk, hold⟩
    · exact Finset.mem_filter.mpr ⟨hF hm, h.empty m hm⟩
  have hcard := Finset.card_le_card hsub
  rw [Finset.card_insert_of_notMem hnot] at hcard
  have hsum := h.free
  rw [Dinode.missing]
  omega

/-- All slots are filled, so there were enough free blocks. -/
theorem missing_le (h : Filled sb F ip d ip' d') (hfull : ∀ k ∈ S, ip'.slot d' k ≠ 0) :
    ip.missing d S ≤ freeBlocks sb d := by
  have hsub : (S.filter fun k => ip.slot d k = 0) ⊆ F := by
    intro k hk
    obtain ⟨hkS, hempty⟩ := Finset.mem_filter.mp hk
    by_contra hnot
    exact hfull k hkS (by rw [h.slot k hnot, hempty])
  have hcard := Finset.card_le_card hsub
  have hsum := h.free
  rw [Dinode.missing]
  omega

end Filled

section Alloc

variable {sb : Superblock} {d d' : Disk} {b : ℕ}

theorem freeBlocks_of_alloc (hb : Fresh sb d b)
    (hbit : ∀ c < sb.size, bitAt sb d' c = if c = b then true else bitAt sb d c) :
    freeBlocks sb d' + 1 = freeBlocks sb d := by
  have hmem : b ∈ (Finset.range sb.size).filter fun b => bitAt sb d b = false :=
    Finset.mem_filter.mpr ⟨Finset.mem_range.mpr hb.2.1, hb.2.2⟩
  have herase : ((Finset.range sb.size).filter fun b => bitAt sb d' b = false) =
      ((Finset.range sb.size).filter fun b => bitAt sb d b = false).erase b := by
    ext c
    simp only [Finset.mem_filter, Finset.mem_range, Finset.mem_erase]
    constructor
    · rintro ⟨hlt, hc⟩
      rw [hbit c hlt] at hc
      split_ifs at hc with he
      exact ⟨he, hlt, hc⟩
    · rintro ⟨he, hlt, hc⟩
      exact ⟨hlt, by rw [hbit c hlt, if_neg he, hc]⟩
  rw [freeBlocks, freeBlocks, herase]
  exact Finset.card_erase_add_one hmem

theorem Fresh.ne_zero (wf : sb.Wf) (hb : Fresh sb d b) : b ≠ 0 := by
  have hpos := wf.nmeta_pos
  have hmeta := hb.1
  omega

/-- A free block goes into the slot `k`. -/
theorem Filled.alloc {ip ip' : Dinode} {k : ℕ} (hb : Fresh sb d b) (h0 : b ≠ 0)
    (hempty : ip.slot d k = 0)
    (hbit : ∀ c < sb.size, bitAt sb d' c = if c = b then true else bitAt sb d c)
    (hslot : ∀ m, ip'.slot d' m = if m = k then b else ip.slot d m) :
    Filled sb {k} ip d ip' d' where
  slot m hm := by rw [hslot, if_neg (Finset.notMem_singleton.mp hm)]
  empty m hm := by rwa [Finset.mem_singleton.mp hm]
  full m hm := by rwa [Finset.mem_singleton.mp hm, hslot, if_pos rfl]
  free := by rw [Finset.card_singleton, freeBlocks_of_alloc hb hbit]

end Alloc

/-! ## Blocks for a part of a file -/

/-- The blocks of the file that the `m` bytes from `off` on lie in. -/
def blocksOf (off m : ℕ) : Finset ℕ := (Finset.range m).image fun k => (off + k) / bSize

theorem mem_blocksOf {off m x : ℕ} (h1 : off ≤ x) (h2 : x < off + m) : x / bSize ∈ blocksOf off m :=
  Finset.mem_image.mpr ⟨x - off, Finset.mem_range.mpr (by omega), by rw [Nat.add_sub_cancel' h1]⟩

theorem blocksOf_subset {off m off' m' : ℕ} (h1 : off ≤ off') (h2 : off' + m' ≤ off + m) :
    blocksOf off' m' ⊆ blocksOf off m := by
  intro bn hbn
  obtain ⟨k, hk, rfl⟩ := Finset.mem_image.mp hbn
  have hlt := Finset.mem_range.mp hk
  exact mem_blocksOf (by omega) (by omega)

end NeulaCpu.Xv6

import NeulaCpu.Xv6.FreeBlocks

/-!
# What the functions on files do to the blocks

`bmap` keeps the ownership of blocks and gives the block of the file, as long as a block is free;
with a free block or without one, every file keeps what it has. From that follow the loops of
`readi` and `writei`.
-/

namespace NeulaCpu.Xv6

open ByteStore Outcome Function

/-- The file `i` may have got more blocks and other bytes at the offsets `T`; nothing else has
changed. -/
structure Grown (sb : Superblock) (i : ℕ) (T : ℕ → Prop) (din : ℕ → Dinode) (d : Disk)
    (din' : ℕ → Dinode) (d' : Disk) : Prop where
  ok : BlocksOk sb din' d'
  same : ∀ j, j ≠ i → din' j = din j
  self : din' i = { din i with addrs := (din' i).addrs }
  inodes : ∀ j < sb.ninodes, dinodeAt sb d' j = dinodeAt sb d j
  others : ∀ j, j ≠ i → Allocated sb din j → FileKept (fun _ => False) (din j) d (din j) d'
  file : FileKept T (din i) d (din' i) d'

section Grown

variable {sb : Superblock} {i j : ℕ} {T T' : ℕ → Prop} {din din' din'' : ℕ → Dinode}
  {d d' d'' : Disk}

namespace Grown

theorem refl (ok : BlocksOk sb din d) : Grown sb i T din d din d :=
  ⟨ok, fun _ _ => rfl, rfl, fun _ _ => rfl, fun _ _ _ => .refl, .refl⟩

section

variable (h : Grown sb i T din d din' d')

include h

theorem type_eq (j : ℕ) : (din' j).type = (din j).type := by
  by_cases hj : j = i
  · subst hj
    rw [h.self]
  · rw [h.same j hj]

theorem size_eq : (din' i).size = (din i).size := by rw [h.self]

theorem allocated_iff : Allocated sb din' j ↔ Allocated sb din j := by
  rw [Allocated, h.type_eq, Allocated]

theorem trans (h' : Grown sb i T din' d' din'' d'') : Grown sb i T din d din'' d'' where
  ok := h'.ok
  same j hj := (h'.same j hj).trans (h.same j hj)
  self := by
    rw [h'.self, h.self]
  inodes j hj := (h'.inodes j hj).trans (h.inodes j hj)
  others j hj hal := by
    have hk := h'.others j hj (h.allocated_iff.mpr hal)
    rw [h.same j hj] at hk
    exact (h.others j hj hal).trans hk
  file := h.file.trans h'.file

theorem mono (hT : ∀ x, T x → T' x) : Grown sb i T' din d din' d' :=
  { h with file := h.file.mono hT }

end

end Grown

end Grown

section Balloc

variable {sb : Superblock} {din : ℕ → Dinode} {d : Disk} {E : FsPanic → Prop}

/-- `balloc` gives a free data block; if no block is free, it gives 0 and changes nothing. -/
theorem balloc_spec (ok : BlocksOk sb din d) (wf : sb.Wf) :
    Ends E (balloc sb) d fun b d' =>
      b = 0 ∧ d' = d ∧ freeBlocks sb d = 0 ∨ b ≠ 0 ∧ Fresh sb d b ∧ d' = afterAlloc sb d b := by
  refine .bind (.get ?_)
  cases hfind : (List.range sb.size).find? fun b => !bitAt sb d b with
  | none =>
    refine .pure (.inl ⟨rfl, rfl, ?_⟩)
    rw [freeBlocks, Finset.card_eq_zero, Finset.filter_eq_empty_iff]
    intro b hb
    have hnone := List.find?_eq_none.mp hfind b (List.mem_range.mpr (Finset.mem_range.mp hb))
    simpa using hnone
  | some b =>
    have hbit : bitAt sb d b = false := by simpa using List.find?_some hfind
    have hmeta : sb.nmeta ≤ b := by
      by_contra hlt
      exact Bool.false_ne_true (hbit.symm.trans (ok.metaUsed b (by omega)))
    have hpos := wf.nmeta_pos
    have hlt := List.mem_range.mp (List.mem_of_find?_eq_some hfind)
    exact .inr ⟨by omega, ⟨hmeta, hlt, hbit⟩, rfl⟩

end Balloc

section Bmap

variable {sb : Superblock} {din : ℕ → Dinode} {d : Disk} {i b : ℕ} {E : FsPanic → Prop}

/-- A change of the disk that keeps the indirect block of a file and its blocks keeps the file. -/
theorem FileKept.of_blocks {ip : Dinode} {d' : Disk} {T : ℕ → Prop}
    (hind : ip.addr nDirect ≠ 0 → d' (ip.addr nDirect) = d (ip.addr nDirect))
    (hdata : ∀ bn, ip.block d bn ≠ 0 → d' (ip.block d bn) = d (ip.block d bn)) :
    FileKept T ip d ip d' :=
  fun bn hbn => ⟨Dinode.block_congr (fun _ => rfl) hind, fun k _ _ => congrFun (hdata bn hbn) k⟩

section

variable (ok : BlocksOk sb din d) (wf : sb.Wf) (hb : Fresh sb d b) (hj : Allocated sb din j)

include ok wf hb hj

/-- Giving out a block changes no file. -/
theorem BlocksOk.afterAlloc_slot {n : ℕ} (hne : (din j).slot d n ≠ 0) :
    afterAlloc sb d b ((din j).slot d n) = d ((din j).slot d n) :=
  afterAlloc_of_ne wf hb.2.1 (ok.inUse hj hne).1 (ok.slot_ne_fresh wf hj hb)

theorem BlocksOk.afterAlloc_addr (hne : (din j).addr nDirect ≠ 0) :
    afterAlloc sb d b ((din j).addr nDirect) = d ((din j).addr nDirect) := by
  have h := ok.afterAlloc_slot wf hb (n := maxFile) hj (by rwa [Dinode.slot_maxFile])
  rwa [Dinode.slot_maxFile] at h

theorem BlocksOk.afterAlloc_block {n : ℕ} (hne : (din j).block d n ≠ 0) :
    afterAlloc sb d b ((din j).block d n) = d ((din j).block d n) := by
  have hslot := Dinode.slot_of_block hne
  have h := ok.afterAlloc_slot wf hb (n := n) hj (by rwa [hslot])
  rwa [hslot] at h

theorem BlocksOk.afterAlloc_kept {T : ℕ → Prop} :
    FileKept T (din j) d (din j) (afterAlloc sb d b) :=
  .of_blocks (ok.afterAlloc_addr wf hb hj) fun _ => ok.afterAlloc_block wf hb hj

end

/-- What a slot holds after `ip->addrs[k] = b`, for a free block `b` that is zero. -/
theorem Dinode.slot_setAddr {ip : Dinode} {d' : Disk} {k n : ℕ} (hk : k < nDirect + 1)
    (hlt : b < 2 ^ 32) (hempty : ip.addr k = 0) (hzero : d' b = fun _ => 0)
    (hind : ip.addr nDirect ≠ 0 → d' (ip.addr nDirect) = d (ip.addr nDirect)) :
    (ip.setAddr k b).slot d' n = if n = (if k = nDirect then maxFile else k) then b
      else ip.slot d n := by
  have haddr (j : ℕ) : (ip.setAddr k b).addr j = if j = k then b else ip.addr j :=
    addr_setAddr hk hlt
  by_cases hkd : k = nDirect
  · subst hkd
    simp only [slot, block, haddr, if_true, hempty]
    by_cases hn : n = maxFile
    · simp [hn]
    · simp only [hn, if_false]
      by_cases hdir : n < nDirect
      · simp [hdir, hdir.ne]
      · simp only [hdir, if_false, ne_eq, not_true_eq_false, and_false]
        split_ifs
        · rw [hzero, entryAt_zero]
        · rfl
  · have hkm : k ≠ maxFile := by simp only [maxFile, nIndirect, bSize, nDirect] at hk ⊢; omega
    simp only [slot, block, haddr, hkd, if_false, Ne.symm hkd]
    by_cases hn : n = k
    · subst hn
      simp only [if_true, hkm, if_false]
      rw [if_pos (by omega)]
    · simp only [hn, if_false]
      by_cases h0 : ip.addr nDirect = 0
      · simp [h0]
      · rw [hind h0]

/-- A free block becomes a direct block or the indirect block of the file `i`. -/
theorem BlocksOk.setAddr (ok : BlocksOk sb din d) (wf : sb.Wf) (hi : Allocated sb din i)
    (hb : Fresh sb d b) {k : ℕ} (hk : k < nDirect + 1) (hempty : (din i).addr k = 0) :
    Grown sb i (fun _ => False) din d (update din i ((din i).setAddr k b)) (afterAlloc sb d b) ∧
      Filled sb {if k = nDirect then maxFile else k} (din i) d ((din i).setAddr k b)
        (afterAlloc sb d b) := by
  have hslot (n : ℕ) : ((din i).setAddr k b).slot (afterAlloc sb d b) n =
      if n = (if k = nDirect then maxFile else k) then b else (din i).slot d n :=
    Dinode.slot_setAddr hk (wf.lt_two_pow hb.2.1) hempty afterAlloc_self
      (ok.afterAlloc_addr wf hb hi)
  have hzero : (din i).slot d (if k = nDirect then maxFile else k) = 0 := by
    split_ifs with h
    · rw [Dinode.slot, if_pos rfl, ← h, hempty]
    · have hlt : k < nDirect := by omega
      rw [Dinode.slot, if_neg (by simp only [maxFile, nIndirect, bSize, nDirect] at hlt ⊢; omega),
        Dinode.block, if_pos hlt, hempty]
  have hbit (c : ℕ) (hc : c < sb.size) := bitAt_afterAlloc (d := d) wf hb.1 hc
  refine ⟨⟨ok.acquire (n := if k = nDirect then maxFile else k) wf hb hi hzero hbit (fun j =>
    ?_) ?_ ?_, fun j hj => update_of_ne hj .., by rw [update_self]; rfl,
    fun j hj => dinodeAt_afterAlloc wf hb.1 hj, fun j _ hj => ok.afterAlloc_kept wf hb hj, ?_⟩,
    .alloc hb (hb.ne_zero wf) hzero hbit hslot⟩
  · by_cases hj : j = i
    · subst hj
      simp only [Allocated, update_self, Dinode.type_setAddr]
    · simp only [Allocated, update_of_ne hj]
  · rw [update_self, hslot, if_pos rfl]
  · intro j hj m hne
    by_cases hji : j = i
    · subst hji
      rw [update_self, hslot, if_neg fun h => hne (by rw [h])]
    · rw [update_of_ne hji]
      exact Dinode.slot_congr (fun _ => rfl) (ok.afterAlloc_addr wf hb hj)
  · intro bn hbn
    have hbs := Dinode.slot_of_block hbn
    rw [update_self]
    refine ⟨?_, fun k _ _ => congrFun (ok.afterAlloc_block wf hb hi hbn) k⟩
    rw [← Dinode.slot_of_ne (Dinode.lt_of_block_ne hbn).ne, hslot, if_neg, hbs]
    intro h
    rw [← h, hbs] at hzero
    exact hbn hzero

/-- What a slot holds after `a[j] = b` in the indirect block. -/
theorem Dinode.slot_setEntry {ip : Dinode} {d' : Disk} {j n : ℕ} (hlt : b < 2 ^ 32)
    (hj : j < nIndirect) (hind : ip.addr nDirect ≠ 0)
    (hself : d' (ip.addr nDirect) = setEntryAt (d (ip.addr nDirect)) j b) :
    ip.slot d' n = if n = nDirect + j then b else ip.slot d n := by
  simp only [slot, block, hself, entryAt_setEntryAt hlt]
  have hm : nDirect + j < maxFile := by rw [maxFile]; omega
  by_cases hn : n = nDirect + j
  · subst hn
    rw [if_neg hm.ne, if_neg (by omega), if_pos ⟨hm, hind⟩, if_pos (by omega), if_pos rfl]
  · rw [if_neg hn]
    split_ifs <;> first | rfl | omega

section

variable (ok : BlocksOk sb din d) (wf : sb.Wf) (hi : Allocated sb din i)

include ok wf hi

/-- A free block becomes an entry of the indirect block of the file `i`. -/
theorem BlocksOk.setEntry (hb : Fresh sb d b) {j : ℕ}
    (hj : j < nIndirect) (hind : (din i).addr nDirect ≠ 0)
    (hempty : entryAt (d ((din i).addr nDirect)) j = 0) :
    ∀ d', d' = update (afterAlloc sb d b) ((din i).addr nDirect)
        (setEntryAt (afterAlloc sb d b ((din i).addr nDirect)) j b) →
      Grown sb i (fun _ => False) din d din d' ∧ Filled sb {nDirect + j} (din i) d (din i) d' := by
  rw [ok.afterAlloc_addr wf hb hi hind]
  intro d' hd'
  have hlt := wf.lt_two_pow hb.2.1
  have hmeta : sb.nmeta ≤ (din i).addr nDirect := (ok.inUse_addr hi hind).1
  have hself : d' ((din i).addr nDirect) = setEntryAt (d ((din i).addr nDirect)) j b := by
    rw [hd', update_self]
  have hother (c : ℕ) (hc : c ≠ (din i).addr nDirect) : d' c = afterAlloc sb d b c := by
    rw [hd', update_of_ne hc]
  have hslot (n : ℕ) := Dinode.slot_setEntry (n := n) hlt hj hind hself
  have hzero : (din i).slot d (nDirect + j) = 0 := by
    have hm : nDirect + j < maxFile := by rw [maxFile]; omega
    rw [Dinode.slot, if_neg hm.ne, Dinode.block, if_neg (by omega), if_pos ⟨hm, hind⟩,
      Nat.add_sub_cancel_left, hempty]
  have haddr (k : ℕ) (hk : Allocated sb din k) (hki : k ≠ i) (h0 : (din k).addr nDirect ≠ 0) :
      d' ((din k).addr nDirect) = d ((din k).addr nDirect) := by
    rw [hother _ fun h => hki (ok.addr_inj hi hk hind h), ok.afterAlloc_addr wf hb hk h0]
  have hblock (k bn : ℕ) (hk : Allocated sb din k) (hbn : (din k).block d bn ≠ 0) :
      d' ((din k).block d bn) = d ((din k).block d bn) := by
    rw [hother _ (ok.addr_ne_block hk hi hbn).symm, ok.afterAlloc_block wf hb hk hbn]
  have hbit (c : ℕ) (hc : c < sb.size) : bitAt sb d' c = if c = b then true else bitAt sb d c := by
    have hbb := wf.bBlock_lt hc
    rw [hd', bitAt_update (by omega), bitAt_afterAlloc wf hb.1 hc]
  refine ⟨⟨ok.acquire (n := nDirect + j) wf hb hi hzero hbit (fun _ => Iff.rfl) ?_ ?_, fun _ _ =>
    rfl, rfl, fun k hk => ?_, fun k hki hk => .of_blocks (haddr k hk hki) (hblock k · hk), ?_⟩,
    .alloc hb (hb.ne_zero wf) hzero hbit hslot⟩
  · rw [hslot, if_pos rfl]
  · intro k hk m hne
    by_cases hki : k = i
    · subst hki
      rw [hslot, if_neg fun h => hne (by rw [h])]
    · exact Dinode.slot_congr (fun _ => rfl) (haddr k hk hki)
  · have hib := wf.iBlock_lt_nmeta hk
    rw [hd', dinodeAt_update (by omega), dinodeAt_afterAlloc wf hb.1 hk]
  · intro bn hbn
    have hbs := Dinode.slot_of_block hbn
    refine ⟨?_, fun k _ _ => congrFun (hblock i bn hi hbn) k⟩
    rw [← Dinode.slot_of_ne (Dinode.lt_of_block_ne hbn).ne, hslot, if_neg, hbs]
    intro h
    rw [← h, hbs] at hzero
    exact hbn hzero

omit ok wf hi

/-- What `bmap` has done for the block `bn` of the file `i`: the file has it now, for which `bmap`
has filled slots that the block needs; or the result is 0, and no block is free. -/
structure Bmapped (sb : Superblock) (i bn : ℕ) (din : ℕ → Dinode) (d : Disk) (r : ℕ × Dinode)
    (d' : Disk) : Prop where
  grown : Grown sb i (fun _ => False) din d (update din i r.2) d'
  addr : r.1 = r.2.block d' bn
  filled : ∃ F ⊆ neededSlots {bn}, Filled sb F (din i) d r.2 d'
  fails : r.1 = 0 → freeBlocks sb d' = 0

theorem Bmapped.refl (ok : BlocksOk sb din d) {a bn : ℕ} (haddr : a = (din i).block d bn)
    (hfails : a = 0 → freeBlocks sb d = 0) : Bmapped sb i bn din d (a, din i) d where
  grown := by
    rw [update_eq_self]
    exact .refl ok
  addr := haddr
  filled := ⟨∅, Finset.empty_subset _, .refl⟩
  fails := hfails

include ok wf hi

theorem bmapEntry_spec {j : ℕ} (hj : j < nIndirect) (hind : (din i).addr nDirect ≠ 0) :
    Ends E (bmapEntry sb ((din i).addr nDirect) j) d fun a d' =>
      Bmapped sb i (nDirect + j) din d (a, din i) d' := by
  have hblock (d : Disk) : (din i).block d (nDirect + j) =
      entryAt (d ((din i).addr nDirect)) j := by
    rw [Dinode.block, if_neg (by omega), if_pos ⟨by rw [maxFile]; omega, hind⟩,
      Nat.add_sub_cancel_left]
  refine .bind (.get ?_)
  split_ifs with h0
  · refine (balloc_spec ok wf).andThen ?_
    rintro a _ (⟨rfl, rfl, hfree⟩ | ⟨hne, hb, rfl⟩)
    · rw [if_pos rfl]
      exact .pure (.refl ok (by rw [hblock, h0]) fun _ => hfree)
    · rw [if_neg hne]
      obtain ⟨hg, hfilled⟩ := ok.setEntry wf hi hb hj hind h0 _ rfl
      refine .bind (.modify (.pure ⟨?_, ?_, ⟨_, ?_, hfilled⟩, fun h => absurd h hne⟩))
      · rwa [update_eq_self]
      · rw [hblock, update_self, entryAt_setEntryAt (wf.lt_two_pow hb.2.1), if_pos rfl]
      · exact subset_neededSlots _
  · exact .pure (.refl ok (hblock d).symm fun h => absurd h h0)

/-- `bmap` gives the block `bn` of the file, which has got it now if it did not have it before. -/
theorem bmap_spec {bn : ℕ} (hbn : bn < maxFile) :
    Ends E (bmap sb (din i) bn) d (Bmapped sb i bn din d) := by
  unfold bmap
  split_ifs with hdir h0 hlt hind
  · refine (balloc_spec ok wf).andThen ?_
    rintro a _ (⟨rfl, rfl, hfree⟩ | ⟨hne, hb, rfl⟩)
    · rw [if_pos rfl]
      exact .pure (.refl ok (by rw [Dinode.block, if_pos hdir, h0]) fun _ => hfree)
    · rw [if_neg hne]
      obtain ⟨hg, hfilled⟩ := ok.setAddr wf hi hb (by omega) h0
      rw [if_neg hdir.ne] at hfilled
      refine .pure ⟨hg, ?_, ⟨_, subset_neededSlots _, hfilled⟩, fun h => absurd h hne⟩
      rw [Dinode.block, if_pos hdir, Dinode.addr_setAddr (by omega) (wf.lt_two_pow hb.2.1),
        if_pos rfl]
  · exact .pure (.refl ok (by rw [Dinode.block, if_pos hdir]) fun h => absurd h h0)
  · refine (balloc_spec ok wf).andThen ?_
    rintro a _ (⟨rfl, rfl, hfree⟩ | ⟨hne, hb, rfl⟩)
    · rw [if_pos rfl]
      refine .pure (.refl ok ?_ fun _ => hfree)
      rw [Dinode.block, if_neg hdir, if_neg fun h => h.2 hind]
    · rw [if_neg hne]
      -- the new indirect block is empty, so an entry is allocated in it
      obtain ⟨hg, hfirst⟩ := ok.setAddr wf hi hb (k := nDirect) (by omega) hind
      rw [if_pos rfl] at hfirst
      have hind' : (update din i ((din i).setAddr nDirect a) i).addr nDirect = a := by
        rw [update_self, Dinode.addr_setAddr (by omega) (wf.lt_two_pow hb.2.1), if_pos rfl]
      have hent := bmapEntry_spec (E := E) hg.ok wf (hg.allocated_iff.mpr hi) hlt (by rwa [hind'])
      rw [hind', update_self, Nat.add_sub_of_le (Nat.le_of_not_lt hdir)] at hent
      refine .bind (hent.mono fun e d' h => .pure ?_)
      have hg' := h.grown
      obtain ⟨F, hF, hfilled⟩ := h.filled
      rw [update_idem] at hg'
      rw [update_self] at hfilled
      refine ⟨hg.trans hg', h.addr, ⟨_, Finset.union_subset ?_ hF, hfirst.trans hfilled⟩, h.fails⟩
      refine Finset.singleton_subset_iff.mpr
        (mem_neededSlots.mpr (.inr ⟨rfl, bn, ?_, Nat.le_of_not_lt hdir⟩))
      exact Finset.mem_singleton_self bn
  · refine (bmapEntry_spec ok wf hi hlt hind).andThen fun e d' h => .pure ?_
    rwa [Nat.add_sub_of_le (Nat.le_of_not_lt hdir)] at h
  · rw [maxFile] at hbn
    omega

end

/-- For a block that the file has, `bmap` changes nothing. -/
theorem bmap_of_ne {ip : Dinode} {bn : ℕ} (h : ip.block d bn ≠ 0) :
    bmap sb ip bn d = .ok ((ip.block d bn, ip), d) := by
  have hlt := Dinode.lt_of_block_ne h
  unfold bmap
  split_ifs with hdir h0 hent hind
  · rw [Dinode.block, if_pos hdir] at h
    exact absurd h0 h
  · rw [Dinode.block, if_pos hdir]
    rfl
  · rw [Dinode.block, if_neg hdir, if_neg fun h => h.2 hind] at h
    exact absurd rfl h
  · have hb : ip.block d bn = entryAt (d (ip.addr nDirect)) (bn - nDirect) := by
      rw [Dinode.block, if_neg hdir, if_pos ⟨hlt, hind⟩]
    rw [hb] at h ⊢
    show (bmapEntry sb (ip.addr nDirect) (bn - nDirect) d).bind _ = _
    have he : bmapEntry sb (ip.addr nDirect) (bn - nDirect) d =
        .ok (entryAt (d (ip.addr nDirect)) (bn - nDirect), d) := by
      show (if entryAt (d (ip.addr nDirect)) (bn - nDirect) = 0 then _ else _ : DiskM ℕ) d = _
      rw [if_neg h]
      rfl
    rw [he]
    rfl
  · rw [maxFile] at hlt
    omega

end Bmap

section CopyIn

variable {src : Source} {tot m : ℕ}

theorem length_copyIn_le : (copyIn src tot m).1.length ≤ m := by
  refine (List.length_filterMap_le ..).trans (((List.takeWhile_sublist _).length_le).trans ?_)
  rw [List.length_map, List.length_range]

/-- A copy stops at the first bad address. -/
theorem copyIn_spec {p : ℕ} (hp : p ≤ m) (hgood : ∀ j < p, src (tot + j) ≠ none)
    (hstop : p < m → src (tot + p) = none) :
    (copyIn src tot m).2 = decide (p = m) ∧ (copyIn src tot m).1.length = p ∧
      ∀ j < p, src (tot + j) = (copyIn src tot m).1[j]? := by
  obtain ⟨q, rfl⟩ := Nat.exists_eq_add_of_le hp
  have hlist : (List.range (p + q)).map (fun k => src (tot + k)) =
      (List.range p).map (fun k => src (tot + k)) ++
        (List.range q).map fun k => src (tot + (p + k)) := by
    rw [List.range_add, List.map_append, List.map_map]
    rfl
  have hall : ∀ o ∈ (List.range p).map fun k => src (tot + k), o.isSome = true := by
    intro o ho
    obtain ⟨j, hj, rfl⟩ := List.mem_map.mp ho
    exact Option.isSome_iff_ne_none.mpr (hgood j (List.mem_range.mp hj))
  obtain ⟨htake, hrest⟩ :
      ((List.range q).map fun k => src (tot + (p + k))).takeWhile Option.isSome = [] ∧
      ((List.range q).map fun k => src (tot + (p + k))).all Option.isSome = decide (p = p + q) := by
    cases q with
    | zero => exact ⟨rfl, (decide_eq_true rfl).symm⟩
    | succ q =>
      rw [List.range_succ_eq_map, List.map_cons, Nat.add_zero, hstop (by omega)]
      exact ⟨rfl, (decide_eq_false (by omega)).symm⟩
  have hmap : (copyIn src tot (p + q)).1.map some = (List.range p).map fun k => src (tot + k) := by
    simp only [copyIn, hlist]
    rw [List.takeWhile_append_of_pos hall, htake, List.append_nil,
      List.map_filterMap_some_eq_filter_map_isSome, List.map_id, List.filter_eq_self.mpr hall]
  have hlen := congrArg List.length hmap
  rw [List.length_map, List.length_map, List.length_range] at hlen
  refine ⟨?_, hlen, fun j hj => ?_⟩
  · simp only [copyIn, hlist, List.all_append, List.all_eq_true.mpr hall, hrest, Bool.true_and]
  · have hget := congrArg (fun l => l[j]?) hmap
    simp only [List.getElem?_map, List.getElem?_range hj, Option.map_some] at hget
    rw [List.getElem?_eq_getElem (by omega)] at hget ⊢
    exact (Option.some.inj hget).symm

theorem copyIn_of_ok (h : (copyIn src tot m).2 = true) :
    (copyIn src tot m).1.length = m ∧ ∀ k < m, src (tot + k) = (copyIn src tot m).1[k]? := by
  refine (copyIn_spec le_rfl (fun j hj => Option.isSome_iff_ne_none.mp ?_)
    fun hlt => absurd hlt (Nat.lt_irrefl m)).2
  exact List.all_eq_true.mp h _ (List.mem_map_of_mem (List.mem_range.mpr hj))

theorem copyIn_of_not_ok (h : (copyIn src tot m).2 = false) :
    ∃ k, tot ≤ k ∧ k < tot + m ∧ src k = none := by
  have hex := List.all_eq_false.mp h
  obtain ⟨o, ho, hnone⟩ := hex
  obtain ⟨k, hk, rfl⟩ := List.mem_map.mp ho
  refine ⟨tot + k, by omega, ?_, by simpa using hnone⟩
  have := List.mem_range.mp hk
  omega

end CopyIn

section Write

variable {sb : Superblock} {din : ℕ → Dinode} {d : Disk} {i n : ℕ} {src : Source}
  {E : FsPanic → Prop}

/-- A write to a block of the file `i` at the offsets `T`. -/
theorem BlocksOk.write (ok : BlocksOk sb din d) (wf : sb.Wf) (hi : Allocated sb din i)
    {T : ℕ → Prop} {bn : ℕ} (hbn : (din i).block d bn ≠ 0) {data : Block}
    (hdata : ∀ k < bSize, ¬ T (bn * bSize + k) → data k = d ((din i).block d bn) k) :
    Grown sb i T din d din (update d ((din i).block d bn) data) := by
  have hslot := Dinode.slot_of_block hbn
  have hmeta : sb.nmeta ≤ (din i).block d bn := (ok.inUse_block hi hbn).1
  have haddr (j : ℕ) (hj : Allocated sb din j) (_ : (din j).addr nDirect ≠ 0) :
      update d ((din i).block d bn) data ((din j).addr nDirect) = d ((din j).addr nDirect) :=
    update_of_ne (ok.addr_ne_block hi hj hbn) ..
  have hblock (j : ℕ) (hj : Allocated sb din j)
      (bm : ℕ) (hbm : (din j).block d bm ≠ 0) (hne : (j, bm) ≠ (i, bn)) :
      update d ((din i).block d bn) data ((din j).block d bm) = d ((din j).block d bm) := by
    refine update_of_ne (fun h => hne ?_) ..
    have hs := Dinode.slot_of_block hbm
    have hinj := ok.slot_inj hi hj (by rwa [hslot]) (hs.trans (h.trans hslot.symm))
    rw [hinj.1, hinj.2]
  refine ⟨ok.congr (fun b hb => ?_) (fun _ => Iff.rfl) ?_, fun _ _ => rfl, rfl, fun j hj => ?_, ?_,
    ?_⟩
  · have h := wf.bBlock_lt hb
    exact bitAt_update (by omega)
  · exact fun j hj n => Dinode.slot_congr (fun _ => rfl) (haddr j hj)
  · have h := wf.iBlock_lt_nmeta hj
    exact dinodeAt_update (by omega)
  · exact fun j hji hj => .of_blocks (haddr j hj) fun bm hbm =>
      hblock j hj bm hbm fun h => hji (Prod.mk.inj h).1
  · intro bm hbm
    refine ⟨Dinode.block_congr (fun _ => rfl) (haddr i hi), fun k hk hT => ?_⟩
    by_cases hb : bm = bn
    · subst hb
      rw [update_self]
      exact hdata k hk hT
    · rw [hblock i hi bm hbm fun h => hb (Prod.mk.inj h).2]

/-- A write to a block of the file leaves the slots and the bitmap. -/
theorem BlocksOk.filled_write (ok : BlocksOk sb din d) (wf : sb.Wf) (hi : Allocated sb din i)
    {bn : ℕ} (hbn : (din i).block d bn ≠ 0) (data : Block) :
    Filled sb ∅ (din i) d (din i) (update d ((din i).block d bn) data) := by
  have hmeta := (ok.inUse_block hi hbn).1
  refine .of_same (fun k => ?_) fun b hb => ?_
  · exact Dinode.slot_congr (fun _ => rfl) fun _ => update_of_ne (ok.addr_ne_block hi hi hbn) ..
  · have hbb := wf.bBlock_lt hb
    exact bitAt_update (by omega)

/-- What the loop of `writei` has done, from offset `off` with `tot` bytes written on: the bytes
from `off` to `r.1` are there. Past them a byte may have changed only if the source has a bad
address. -/
structure Written (sb : Superblock) (i : ℕ) (src : Source) (n : ℕ) (din : ℕ → Dinode) (d : Disk)
    (off tot : ℕ) (r : ℕ × ℕ × Dinode) (d' : Disk) : Prop where
  grown : Grown sb i (fun x => off ≤ x ∧ x < off + (n - tot) ∧ (r.1 ≤ x → ∃ k < n, src k = none))
    din d (update din i r.2.2) d'
  le : tot ≤ r.2.1
  le_n : r.2.1 ≤ n
  off_eq : r.1 + tot = off + r.2.1
  bytes : ∀ x, off ≤ x → x < r.1 →
    r.2.2.block d' (x / bSize) ≠ 0 ∧ src (tot + (x - off)) = some (r.2.2.byte d' x)
  one : off % bSize + (n - tot) ≤ bSize → r.2.1 = tot ∨ r.2.1 = n

/-- The loop has stopped where it was. -/
theorem Written.stop {off tot : ℕ} {ip : Dinode} {d' : Disk} {T : ℕ → Prop} (h : tot ≤ n)
    (hg : Grown sb i T din d (update din i ip) d')
    (hT : ∀ x, T x → off ≤ x ∧ x < off + (n - tot) ∧ ∃ k < n, src k = none) :
    Written sb i src n din d off tot (off, tot, ip) d' where
  grown := hg.mono fun x hx => ⟨(hT x hx).1, (hT x hx).2.1, fun _ => (hT x hx).2.2⟩
  le := le_rfl
  le_n := h
  off_eq := rfl
  bytes x h1 h2 := absurd h2 (by omega)
  one _ := Or.inl rfl

/-- The bytes of a block that were written together. -/
theorem byte_of_write {ip : Dinode} {addr off x : ℕ} {l : List Byte} {T : ℕ → Prop}
    (haddr : addr = ip.block d (off / bSize)) (h0 : addr ≠ 0) (hl : off % bSize + l.length ≤ bSize)
    (hfile : FileKept T ip d ip (update d addr (put (d addr) (off % bSize) l))) (h1 : off ≤ x)
    (h2 : x < off + l.length) :
    ip.block (update d addr (put (d addr) (off % bSize) l)) (x / bSize) ≠ 0 ∧
      l[x - off]? = some (ip.byte (update d addr (put (d addr) (off % bSize) l)) x) := by
  have hmod : off / bSize * bSize + off % bSize = off := Nat.div_add_mod' ..
  have hdiv : x / bSize = off / bSize := by
    rw [Nat.div_eq_iff (by norm_num [bSize])]
    simp only [bSize] at *
    omega
  have hx : x % bSize = off % bSize + (x - off) := by
    have hxd : x / bSize * bSize + x % bSize = x := Nat.div_add_mod' ..
    rw [hdiv] at hxd
    omega
  have hb := (hfile (off / bSize) (by rwa [← haddr])).1
  refine ⟨by rwa [hdiv, hb, ← haddr], ?_⟩
  rw [Dinode.byte, hdiv, hb, ← haddr, update_self, hx, put_apply_add (by omega),
    List.getElem?_eq_getElem]

/-- One round of the loop, and the rounds after it. -/
theorem Written.cons {off tot m : ℕ} {ip : Dinode} {d₁ d' : Disk} {r : ℕ × ℕ × Dinode}
    (hm : m ≤ n - tot) (hone : off % bSize + (n - tot) ≤ bSize → m = n - tot)
    (hg : Grown sb i (fun x => off ≤ x ∧ x < off + m) din d (update din i ip) d₁)
    (hbytes : ∀ x, off ≤ x → x < off + m →
      ip.block d₁ (x / bSize) ≠ 0 ∧ src (tot + (x - off)) = some (ip.byte d₁ x))
    (hw : Written sb i src n (update din i ip) d₁ (off + m) (tot + m) r d') :
    Written sb i src n din d off tot r d' := by
  have hoff := hw.off_eq
  have hle := hw.le
  have hle_n := hw.le_n
  have hgr := hw.grown
  rw [update_idem] at hgr
  refine ⟨(hg.mono ?_).trans (hgr.mono ?_), by omega, hle_n, by omega, fun x h1 h2 => ?_,
    fun h => Or.inr ?_⟩
  · rintro x ⟨h1, h2⟩
    exact ⟨h1, by omega, fun h => absurd h (by omega)⟩
  · rintro x ⟨h1, h2, h3⟩
    exact ⟨by omega, by omega, h3⟩
  · by_cases hx : x < off + m
    · -- the later rounds do not touch the bytes of this one
      have hkept := hgr.file
      rw [update_self, update_self] at hkept
      obtain ⟨hne, hsrc⟩ := hbytes x h1 hx
      exact ⟨hkept.block_ne hne, by rw [hkept.byte_eq hne fun h => absurd h.1 (by omega), hsrc]⟩
    · have hrest := hw.bytes x (by omega) h2
      have hk : tot + m + (x - (off + m)) = tot + (x - off) := by omega
      rwa [hk] at hrest
  · have hm := hone h
    omega

/-- What the loop of `writei` has filled; without a bad address it stops only where no block is
free. -/
structure WriteFills (sb : Superblock) (src : Source) (n off tot : ℕ) (ip : Dinode) (d : Disk)
    (r : ℕ × ℕ × Dinode) (d' : Disk) (F : Finset ℕ) : Prop where
  filled : Filled sb F ip d r.2.2 d'
  needed : F ⊆ neededSlots (blocksOf off (n - tot))
  stop : (∀ k < n, src k ≠ none) → r.2.1 < n →
    off ≤ r.1 ∧ r.1 < off + (n - tot) ∧ r.2.2.slot d' (r.1 / bSize) = 0 ∧ freeBlocks sb d' = 0

/-- What the loop of `writei` has written and filled. -/
theorem writeLoop_spec (wf : sb.Wf) {fuel : ℕ} :
    ∀ {din : ℕ → Dinode} {d : Disk} {off tot : ℕ}, BlocksOk sb din d →
      Allocated sb din i → n - tot ≤ fuel → tot ≤ n → off + (n - tot) ≤ maxFile * bSize →
      Ends E (writeLoop sb src fuel (din i) off tot n) d fun r d' =>
        Written sb i src n din d off tot r d' ∧
        ∃ F, WriteFills sb src n off tot (din i) d r d' F := by
  -- the loop has nothing to do
  have hend {din : ℕ → Dinode} {d : Disk} {off tot : ℕ} (ok : BlocksOk sb din d) (hle : tot ≤ n)
      (htot : ¬ tot < n) : Written sb i src n din d off tot (off, tot, din i) d ∧
        ∃ F, WriteFills sb src n off tot (din i) d (off, tot, din i) d F := by
    refine ⟨.stop hle (T := fun _ => False) ?_ fun _ => False.elim,
      ∅, .refl, Finset.empty_subset _, fun _ hlt => absurd hlt htot⟩
    rw [update_eq_self]
    exact .refl ok
  induction fuel with
  | zero => exact fun ok _ hfuel hle _ => .pure (hend ok hle (by omega))
  | succ fuel ih =>
    intro din d off tot ok hi hfuel hle hmax
    unfold writeLoop
    by_cases htot : tot < n
    · rw [if_pos htot]
      have hbn : off / bSize < maxFile := by
        rw [Nat.div_lt_iff_lt_mul (by norm_num [bSize])]
        omega
      refine (bmap_spec ok wf hi hbn).andThen ?_
      rintro ⟨addr, ip⟩ d₁ ⟨hg, haddr, ⟨F, hF, hfilled⟩, hfails⟩
      simp only at hg haddr hfilled hfails ⊢
      have hneeded : F ⊆ neededSlots (blocksOf off (n - tot)) :=
        hF.trans (neededSlots_mono
          (Finset.singleton_subset_iff.mpr (mem_blocksOf le_rfl (by omega))))
      by_cases h0 : addr = 0
      · rw [if_pos h0]
        refine .pure ⟨.stop hle hg fun _ => False.elim, F, hfilled, hneeded, fun _ _ =>
          ⟨le_rfl, ?_, ?_, hfails h0⟩⟩
        · simp only
          omega
        · rw [Dinode.slot_of_ne hbn.ne, ← haddr, h0]
      · rw [if_neg h0]
        have hmod : off % bSize < bSize := Nat.mod_lt _ (by norm_num [bSize])
        have hdm : off / bSize * bSize + off % bSize = off := Nat.div_add_mod' ..
        generalize hm : min (n - tot) (bSize - off % bSize) = m
        have hlen : (copyIn src tot m).1.length ≤ m := length_copyIn_le
        have hip : update din i ip i = ip := update_self ..
        have hi₁ : Allocated sb (update din i ip) i := hg.allocated_iff.mpr hi
        have hne : (update din i ip i).block d₁ (off / bSize) ≠ 0 := by rwa [hip, ← haddr]
        -- the bytes of the buffer that the copy has not reached are as before
        have hput (k : ℕ) (hk : k < bSize)
            (hT : ¬ (off ≤ off / bSize * bSize + k ∧ off / bSize * bSize + k < off + m)) :
            put (d₁ addr) (off % bSize) (copyIn src tot m).1 k =
              d₁ ((update din i ip i).block d₁ (off / bSize)) k := by
          rw [hip, ← haddr]
          exact put_apply_of_disjoint (by omega)
        have hw := hg.ok.write wf hi₁ (T := fun x => off ≤ x ∧ x < off + m) hne hput
        have hfw := hg.ok.filled_write wf hi₁ hne (put (d₁ addr) (off % bSize) (copyIn src tot m).1)
        rw [hip, ← haddr] at hw hfw
        have hgw := (hg.mono fun _ => False.elim).trans hw
        have hfirst := hfilled.trans hfw
        rw [Finset.union_empty] at hfirst
        refine .bind (.modify ?_)
        by_cases hok : (copyIn src tot m).2 = true
        · rw [if_pos hok]
          obtain ⟨hcopied, hbytes⟩ := copyIn_of_ok hok
          have hrec := @ih _ _ (off + m) (tot + m) hgw.ok hi₁ (by omega) (by omega) (by omega)
          have hfile := hw.file
          rw [hip] at hrec hfile
          refine hrec.mono ?_
          rintro r d' ⟨hwr, F', hF'⟩
          refine ⟨hwr.cons (by omega) (by omega) hgw fun x h1 h2 => ?_,
            F ∪ F', hfirst.trans hF'.filled, Finset.union_subset hneeded ?_, fun hsrc hlt => ?_⟩
          · have hbyte := byte_of_write haddr h0 (by omega) hfile h1 (by omega)
            rwa [hbytes (x - off) (by omega)]
          · exact hF'.needed.trans (neededSlots_mono (blocksOf_subset (by omega) (by omega)))
          · obtain ⟨h1, h2, h3⟩ := hF'.stop hsrc hlt
            exact ⟨by omega, by omega, h3⟩
        · rw [if_neg hok]
          obtain ⟨k, hk1, hk2, hk3⟩ := copyIn_of_not_ok (Bool.eq_false_iff.mpr hok)
          refine .pure ⟨.stop hle hgw ?_, F, hfirst, hneeded, fun hsrc _ =>
            absurd hk3 (hsrc k (by omega))⟩
          rintro x ⟨h1, h2⟩
          exact ⟨h1, by omega, k, by omega, hk3⟩
    · rw [if_neg htot]
      exact .pure (hend ok hle htot)

/-- With enough free blocks and no bad address, the loop of `writei` writes everything. -/
theorem WriteFills.eq_of_free {off tot : ℕ} {ip : Dinode} {d' : Disk} {r : ℕ × ℕ × Dinode}
    {F : Finset ℕ} (h : WriteFills sb src n off tot ip d r d' F) (hsrc : ∀ k < n, src k ≠ none)
    (hle : r.2.1 ≤ n)
    (hfree : ip.missing d (neededSlots (blocksOf off (n - tot))) ≤ freeBlocks sb d) :
    r.2.1 = n := by
  by_contra hne
  obtain ⟨h1, h2, hempty, hzero⟩ := h.stop hsrc (by omega)
  have hlt := h.filled.lt_missing h.needed (subset_neededSlots _ (mem_blocksOf h1 h2)) hempty hzero
  omega

end Write

end NeulaCpu.Xv6

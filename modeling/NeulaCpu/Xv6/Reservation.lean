import NeulaCpu.Xv6.BlockConsistency
import NeulaCpu.Xv6.TxnBlocks

/-!
# A transaction of `filewrite` fits its reservation

The blocks that `writei` logs are counted in three parts: at most one for each block of the file
that is touched, one block of the bitmap for each allocation, and the indirect block; then there is
the block of the inode. Nothing is assumed of the disk, and only of the addresses that the inode in
memory holds: the block in which an unaligned write begins is there, and if it is an indirect one,
so is the indirect block.
-/

namespace NeulaCpu.Xv6

open ByteStore Outcome

/-- The inode in memory has all its direct blocks below its size, and the indirect block if its size
needs it. -/
structure Dinode.NoHoles (ip : Dinode) : Prop where
  direct : ∀ k < nDirect, k * bSize < ip.size.toNat → ip.addr k ≠ 0
  indirect : nDirect * bSize < ip.size.toNat → ip.addr nDirect ≠ 0

theorem Dinode.Full.noHoles {ip : Dinode} {d : Disk} (h : ip.Full d) : ip.NoHoles where
  direct k hk hlt := by
    have hne := h k hlt
    rwa [block, if_pos hk] at hne
  indirect hlt hzero := by
    refine h nDirect hlt ?_
    rw [block, if_neg (Nat.lt_irrefl _), if_neg fun hh => hh.2 hzero]

namespace Txn

variable {sb : Superblock} {s : Txn} {ip : Dinode} {bn : ℕ} {E : FsPanic → Prop}

/-! ## The calls of `writei` -/

/-- How many blocks of a file `m` bytes from `off` on touch. -/
def blockCount (off m : ℕ) : ℕ := if m = 0 then 0 else (off + m - 1) / bSize - off / bSize + 1

theorem blockCount_step {off m k : ℕ} (hm : m ≠ 0) (hk : k = min m (bSize - off % bSize)) :
    blockCount off m = blockCount (off + k) (m - k) + 1 := by
  rw [blockCount, blockCount, if_neg hm]
  simp only [bSize] at hk ⊢
  split_ifs <;> omega

/-- The loop of `writei` logs blocks `D` of the file, blocks `M` of the bitmap, and the indirect
block. -/
structure LoopCalls (s : Txn) (ip : Dinode) (off : ℕ) (r : ℕ × ℕ × Dinode) (t : Txn)
    (D M : Finset ℕ) : Prop where
  ext : Extends ip r.2.2
  slot : ∀ x, off ≤ x → x < r.1 → r.2.2.addr (slotOf (x / bSize)) ≠ 0
  calls : ∀ c ∈ t.calls, c ∈ s.calls ∨ c ∈ D ∨ c ∈ M ∨ c = r.2.2.addr nDirect ∧ c ≠ 0

/-- The loop has stopped where it was, and has logged nothing more. -/
theorem LoopCalls.stop {t : Txn} {off tot : ℕ} (h : t.calls = s.calls) :
    LoopCalls s ip off (off, tot, ip) t ∅ ∅ :=
  ⟨.refl, fun _ h1 h2 => absurd h2 (Nat.not_lt_of_le h1), fun _ hc => .inl (h ▸ hc)⟩

theorem mapCost_le (ip : Dinode) (bn : ℕ) : mapCost ip bn ≤ 1 := by
  rw [mapCost]
  split_ifs <;> omega

/-- What `bmap` logs for a round of the loop. -/
theorem MapCalls.loop {t : Txn} {r : ℕ × Dinode} {M : Finset ℕ} {u : Txn}
    (h : MapCalls sb s ip bn r t M) (off tot : ℕ) (hu : u.calls = t.calls) :
    LoopCalls s ip off (off, tot, r.2) u {r.1} M := by
  refine ⟨h.ext, fun _ h1 h2 => absurd h2 (Nat.not_lt_of_le h1), fun c hc => ?_⟩
  rcases h.block.touched.only c (hu ▸ hc) with hc | hc | hc | hc
  · exact .inl hc
  · exact .inr (.inl (Finset.mem_singleton.mpr hc.1))
  · exact .inr (.inr (.inl hc.1))
  · exact .inr (.inr (.inr hc))

/-- A round of the loop costs two blocks, one less if its block is a direct one that is there. -/
theorem writeLoop_calls (hsb : sb.size < 2 ^ 32) {src : Source} {n fuel : ℕ} :
    ∀ {s : Txn} {ip : Dinode} {off tot : ℕ}, off + (n - tot) ≤ maxFile * bSize →
      Ends E (writeLoop sb src fuel ip off tot n) s fun r t => ∃ D M, LoopCalls s ip off r t D M ∧
        D.card + M.card + (if tot < n ∧ mapCost ip (off / bSize) = 0 then 1 else 0) ≤
          2 * blockCount off (n - tot) + indCost ip := by
  have hpos {off m : ℕ} (hm : m ≠ 0) : 1 ≤ blockCount off m := by
    rw [blockCount, if_neg hm]
    exact Nat.le_add_left ..
  induction fuel with
  | zero =>
    intro s ip off tot _
    refine .pure ⟨∅, ∅, .stop rfl, ?_⟩
    rw [Finset.card_empty]
    split_ifs with h
    · have := @hpos off (n - tot) (by omega)
      omega
    · omega
  | succ fuel ih =>
    intro s ip off tot hmax
    unfold writeLoop
    by_cases htot : tot < n
    · have hbn : off / bSize < maxFile := by
        rw [Nat.div_lt_iff_lt_mul (by norm_num [bSize])]
        omega
      have hone := mapCost_le ip (off / bSize)
      have hcount := @hpos off (n - tot) (by omega)
      have hsave : (if tot < n ∧ mapCost ip (off / bSize) = 0 then 1 else 0) =
          1 - mapCost ip (off / bSize) := by
        simp only [htot, true_and]
        split_ifs <;> omega
      rw [if_pos htot, hsave]
      refine (bmap_calls hsb hbn).andThen ?_
      rintro ⟨addr, ip₁⟩ t ⟨M, hmap⟩
      have hcost := hmap.cost
      simp only at hcost ⊢
      -- the loop may end after this call
      have hstop : ({addr} : Finset ℕ).card + M.card + (1 - mapCost ip (off / bSize)) ≤
          2 * blockCount off (n - tot) + indCost ip := by
        rw [Finset.card_singleton]
        omega
      by_cases h0 : addr = 0
      · rw [if_pos h0]
        exact .pure ⟨_, M, hmap.loop _ _ rfl, hstop⟩
      rw [if_neg h0]
      generalize hm : min (n - tot) (bSize - off % bSize) = m
      refine .bind (.modify ?_)
      by_cases hok : (copyIn src tot m).2 = true
      · rw [if_pos hok]
        refine .bind (.modify ((@ih _ ip₁ (off + m) (tot + m) (by omega)).mono ?_))
        rintro r u ⟨D, M', hloop, hbound⟩
        have hext := hloop.ext
        have hstep := @blockCount_step off _ _ (show n - tot ≠ 0 by omega) hm.symm
        rw [Nat.sub_sub] at hstep
        refine ⟨insert addr D, M ∪ M', ⟨hmap.ext.trans hext, fun x h1 h2 => ?_, fun c hc => ?_⟩, ?_⟩
        · by_cases hx : x < off + m
          · have hdiv : x / bSize = off / bSize := by
              simp only [bSize] at hm ⊢
              omega
            have hslot := hmap.slot h0
            rw [hdiv, hext.addr _ hslot]
            exact hslot
          · exact hloop.slot x (by omega) h2
        · rw [Finset.mem_insert, Finset.mem_union]
          rcases hloop.calls c hc with hc | hc | hc | hc
          · rcases List.mem_append.mp hc with hc | hc
            · rcases (hmap.loop off tot rfl).calls c hc with h | h | h | ⟨h, hne⟩
              · exact .inl h
              · exact .inr (.inl (.inl (Finset.mem_singleton.mp h)))
              · exact .inr (.inr (.inl (.inl h)))
              · have heq : c = ip₁.addr nDirect := h
                refine .inr (.inr (.inr ⟨?_, hne⟩))
                rw [hext.addr nDirect (by rwa [← heq]), heq]
            · exact .inr (.inl (.inl (List.mem_singleton.mp hc)))
          · exact .inr (.inl (.inr hc))
          · exact .inr (.inr (.inl (.inr hc)))
          · exact .inr (.inr (.inr hc))
        · have h1 := Finset.card_insert_le addr D
          have h2 := Finset.card_union_le M M'
          omega
      · rw [if_neg hok]
        exact .pure ⟨_, M, hmap.loop _ _ rfl, hstop⟩
    · rw [if_neg htot]
      refine .pure ⟨∅, ∅, .stop rfl, ?_⟩
      rw [if_neg fun h => htot h.1, Finset.card_empty]
      exact Nat.zero_le _

/-- The size grows over blocks that are there. -/
theorem noHoles_of_loop {off : ℕ} {r : ℕ × ℕ × Dinode} {t : Txn} {D M : Finset ℕ} {ip' : Dinode}
    (h : ip.NoHoles) (hloop : LoopCalls s ip off r t D M) (hoff : off ≤ ip.size.toNat)
    (haddr : ∀ k, ip'.addr k = r.2.2.addr k)
    (hsize : ip'.size.toNat ≤ max ip.size.toNat r.1) : ip'.NoHoles := by
  constructor
  · intro k hk hlt
    rw [haddr]
    by_cases hold : k * bSize < ip.size.toNat
    · have hne := h.direct k hk hold
      rwa [hloop.ext.addr k hne]
    · have hslot := hloop.slot (k * bSize) (by omega) (by omega)
      rwa [Nat.mul_div_cancel k (by norm_num [bSize]), slotOf, if_pos hk] at hslot
  · intro hlt
    rw [haddr]
    by_cases hold : nDirect * bSize < ip.size.toNat
    · have hne := h.indirect hold
      rwa [hloop.ext.addr nDirect hne]
    · have hslot := hloop.slot (nDirect * bSize) (by omega) (by omega)
      rwa [Nat.mul_div_cancel nDirect (by norm_num [bSize]), slotOf,
        if_neg (Nat.lt_irrefl _)] at hslot

/-- A write of at most `maxChunk` bytes fits the reservation of an operation. -/
theorem writei_calls (hsb : sb.size < 2 ^ 32) {inum off n : ℕ} {src : Source} {d : Disk}
    (h : ip.NoHoles) (hn : n ≤ maxChunk) :
    Ends E (writei sb inum ip src off n) ⟨d, []⟩ fun r t =>
      t.calls.toFinset.card ≤ maxOpBlocks ∧ r.2.NoHoles := by
  unfold writei
  split_ifs with hoff hmax
  · exact .pure ⟨Nat.zero_le _, h⟩
  · exact .pure ⟨Nat.zero_le _, h⟩
  rw [maxChunk, maxOpBlocks] at hn
  have hnowrap : (off + n) % 2 ^ 32 = off + n := by
    have hlt := ip.size.isLt
    have h1 : ip.size.toNat < 2 ^ 32 := hlt
    simp only [bSize] at hn
    by_contra hne
    omega
  rw [hnowrap] at hoff hmax
  have hle : off ≤ ip.size.toNat := by omega
  refine (writeLoop_calls hsb (by omega)).andThen ?_
  rintro ⟨off', tot, ip₁⟩ t ⟨D, M, hloop, hbound⟩
  refine .bind (.bind (.modify (.modify (.pure ⟨?_, ?_⟩))))
  · show (t.calls ++ [iBlock sb inum]).toFinset.card ≤ maxOpBlocks
    have hsub : (t.calls ++ [iBlock sb inum]).toFinset ⊆ D ∪ M ∪
        {ip₁.addr nDirect, iBlock sb inum} := by
      intro c hc
      rw [List.mem_toFinset] at hc
      simp only [Finset.mem_union, Finset.mem_insert, Finset.mem_singleton]
      rcases List.mem_append.mp hc with hc | hc
      · rcases (hloop.calls c hc).resolve_left List.not_mem_nil with h | h | h
        · exact .inl (.inl h)
        · exact .inl (.inr h)
        · exact .inr (.inl h.1)
      · exact .inr (.inr (List.mem_singleton.mp hc))
    have h1 := Finset.card_le_card hsub
    have h2 := Finset.card_union_le (D ∪ M) {ip₁.addr nDirect, iBlock sb inum}
    have h3 := Finset.card_union_le D M
    have h4 : ({ip₁.addr nDirect, iBlock sb inum} : Finset ℕ).card ≤ 2 := Finset.card_le_two
    have hcost : D.card + M.card ≤ 8 := by
      rw [Nat.sub_zero] at hbound
      by_cases hzero : n = 0
      · rw [blockCount, if_pos hzero, indCost] at hbound
        split_ifs at hbound <;> omega
      have hblocks : blockCount off n ≤ 4 ∧ (off % bSize = 0 → blockCount off n ≤ 3) := by
        rw [blockCount, if_neg hzero]
        simp only [bSize] at hn ⊢
        omega
      have hind : indCost ip ≤ 1 := by
        rw [indCost]
        split_ifs <;> omega
      by_cases hal : off % bSize = 0
      · have := hblocks.2 hal
        omega
      -- the block in which the write begins has bytes below the size
      have hbegin : off / bSize * bSize < ip.size.toNat := by
        have := Nat.div_add_mod' off bSize
        omega
      by_cases hdir : off / bSize < nDirect
      · have hfree : mapCost ip (off / bSize) = 0 := if_pos ⟨hdir, h.direct _ hdir hbegin⟩
        rw [if_pos ⟨by omega, hfree⟩] at hbound
        omega
      · have hfree : indCost ip = 0 :=
          if_neg (h.indirect (lt_of_le_of_lt (Nat.mul_le_mul_right _ (by omega)) hbegin))
        omega
    rw [maxOpBlocks]
    omega
  · refine noHoles_of_loop h hloop hle (fun k => ?_) ?_
    · show Dinode.addr (if _ then _ else _) k = _
      split_ifs <;> rfl
    · show (Dinode.size (if ip₁.size.toNat < off' then _ else _)).toNat ≤ _
      have hsize : ip₁.size = ip.size := hloop.ext.size
      split_ifs with hgrow
      · exact (BitVec.toNat_ofNat off' 32 ▸ Nat.mod_le ..).trans (Nat.le_max_right ..)
      · rw [hsize]
        exact Nat.le_max_left ..

/-! ## `filewrite` -/

/-- Other processes leave the file without holes. -/
def Others.Keep (others : Others) : Prop :=
  ∀ k d ip, Dinode.NoHoles ip → (others k (d, ip)).2.NoHoles

/-- Each transaction of `filewrite` stays within its reservation. -/
theorem filewriteLoop_fits (hsb : sb.size < 2 ^ 32) {others : Others} (hothers : others.Keep)
    {inum n fuel : ℕ} {src : Source} : ∀ {d : Disk} {k i : ℕ} {f : FileWrite}, f.ip.NoHoles →
    (∀ calls ∈ f.txns, calls.toFinset.card ≤ maxOpBlocks) →
    Ends E (filewriteLoop sb others inum src n fuel k i f) d fun r _ =>
      ∀ calls ∈ r.2.txns, calls.toFinset.card ≤ maxOpBlocks := by
  induction fuel with
  | zero =>
    intro d k i f _ hf
    exact .pure hf
  | succ fuel ih =>
    intro d k i f hip hf
    unfold filewriteLoop
    split_ifs
    · refine .bind (.get ?_)
      have hip' := hothers k d f.ip hip
      simp only
      generalize others k (d, f.ip) = w at hip' ⊢
      have hw : Ends (fun _ => False)
        (writei sb inum w.2 (fun j => src (i + j)) f.off (min (n - i) maxChunk)) ⟨w.1, []⟩
          fun r t => t.calls.toFinset.card ≤ maxOpBlocks ∧ r.2.NoHoles :=
        writei_calls hsb hip' (Nat.min_le_right ..)
      obtain ⟨⟨r, ip'⟩, t, hrun, hcalls, hnew⟩ := hw.exists_ok
      rw [hrun]
      have hall : ∀ calls ∈ f.txns ++ [t.calls], calls.toFinset.card ≤ maxOpBlocks := by
        intro calls hmem
        rcases List.mem_append.mp hmem with hmem | hmem
        · exact hf calls hmem
        · rw [List.mem_singleton.mp hmem]
          exact hcalls
      refine .bind (.set ?_)
      by_cases hr : r ≠ (min (n - i) maxChunk : ℕ)
      · rw [if_pos hr]
        exact .pure hall
      · rw [if_neg hr]
        exact ih hnew hall
    · exact .pure hf

/-- Each transaction of `filewrite` logs at most `MAXOPBLOCKS` distinct blocks. -/
theorem filewrite_fits_reservation (sb : Superblock) (hsb : sb.size < 2 ^ 32) (d : Disk)
    (ip : Dinode) (hfull : ip.Full d) (others : Others) (hothers : others.Keep) (inum : ℕ)
    (src : Source) (writable : Bool) (off : ℕ) (n : ℤ) :
    ∃ ret f d', filewrite sb others inum ip src writable off n d = .ok ((ret, f), d') ∧
      ∀ calls ∈ f.txns, calls.toFinset.card ≤ maxOpBlocks := by
  have hends : Ends (fun _ => False) (filewrite sb others inum ip src writable off n) d fun r _ =>
      ∀ calls ∈ r.2.txns, calls.toFinset.card ≤ maxOpBlocks := by
    unfold filewrite
    have hnil : ∀ calls ∈ ([] : List (List ℕ)), calls.toFinset.card ≤ maxOpBlocks :=
      fun _ h => absurd h List.not_mem_nil
    split_ifs
    · exact .pure hnil
    · exact (filewriteLoop_fits hsb hothers hfull.noHoles hnil).andThen fun r _ h => .pure h
  obtain ⟨⟨ret, f⟩, d', hrun, hcalls⟩ := hends.exists_ok
  exact ⟨ret, f, d', hrun, hcalls⟩

/-- The file of the sample disk gets 5000 bytes at its end, in the middle of a block. -/
theorem filewrite_fits_reservation_sample :
    ∃ ret f d',
      filewrite Mkfs.sb (fun _ w => w) 2 (dinodeAt Mkfs.sb (sampleDisk 2) 2)
          (fun _ => some 7) true 64 5000 (sampleDisk 2) = .ok ((ret, f), d') ∧
      ∀ calls ∈ f.txns, calls.toFinset.card ≤ maxOpBlocks := by
  have hal : Allocated Mkfs.sb (dinodeAt Mkfs.sb (sampleDisk 2)) 2 := by
    refine ⟨by decide, ?_⟩
    rw [dinodeAt_sample, Function.update_self]
    decide
  exact filewrite_fits_reservation Mkfs.sb (by decide) (sampleDisk 2) _
    (consistent_sample.full 2 hal) _ (fun _ _ _ h => h) 2
    (fun _ => some 7) true 64 5000

end Txn

end NeulaCpu.Xv6

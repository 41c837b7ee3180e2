import NeulaCpu.Xv6.BlockOwners
import NeulaCpu.Xv6.Txn

/-!
# What an allocation logs

`balloc` and `bmap` log every block that they change: a block of the bitmap for each allocation, the
blocks that they give out, and the indirect block. Of the disk only its size is assumed.
-/

namespace NeulaCpu.Xv6

open Outcome Function

namespace Txn

/-- Every block that has changed has been logged, and only blocks in `A` have been. -/
structure Touched (A : ℕ → Prop) (s t : Txn) : Prop where
  keeps : ∀ c ∈ s.calls, c ∈ t.calls
  logged : ∀ b, t.disk b ≠ s.disk b → b ∈ t.calls
  only : ∀ c ∈ t.calls, c ∈ s.calls ∨ A c

namespace Touched

variable {A B : ℕ → Prop} {s t u : Txn} {b : ℕ}

theorem refl : Touched A s s := ⟨fun _ h => h, fun _ h => absurd rfl h, fun _ => .inl⟩

theorem trans (h : Touched A s t) (h' : Touched A t u) : Touched A s u := by
  refine ⟨fun c hc => h'.keeps c (h.keeps c hc), fun b hb => ?_, fun c hc => ?_⟩
  · by_cases hu : u.disk b = t.disk b
    · exact h'.keeps b (h.logged b (by rwa [← hu]))
    · exact h'.logged b hu
  · rcases h'.only c hc with hc | hc
    · exact h.only c hc
    · exact .inr hc

theorem mono (h : Touched A s t) (hAB : ∀ c, A c → B c) : Touched B s t :=
  ⟨h.keeps, h.logged, fun c hc => (h.only c hc).imp_right (hAB c)⟩

/-- A block is changed and logged. -/
theorem write {d : Disk} (hd : ∀ c, c ≠ b → d c = s.disk c) (hb : A b) :
    Touched A s ⟨d, s.calls ++ [b]⟩ := by
  refine ⟨fun c hc => List.mem_append_left _ hc, fun c hc => ?_, fun c hc => ?_⟩
  · have hcb : c = b := by
      by_contra hne
      exact hc (hd c hne)
    exact List.mem_append_right _ (List.mem_singleton.mpr hcb)
  · rcases List.mem_append.mp hc with hc | hc
    · exact .inl hc
    · rw [List.mem_singleton.mp hc]
      exact .inr hb

end Touched

section Extends

variable {ip : Dinode}

/-- The address of the block `bn`, or of the indirect block that leads to it, in the inode. -/
def slotOf (bn : ℕ) : ℕ := if bn < nDirect then bn else nDirect

/-- Addresses that are set stay as they are. -/
structure Extends (ip ip' : Dinode) : Prop where
  size : ip'.size = ip.size
  addr : ∀ k, ip.addr k ≠ 0 → ip'.addr k = ip.addr k

theorem Extends.refl : Extends ip ip := ⟨rfl, fun _ _ => rfl⟩

theorem Extends.trans {ip' ip'' : Dinode} (h : Extends ip ip') (h' : Extends ip' ip'') :
    Extends ip ip'' := by
  refine ⟨h'.size.trans h.size, fun k hk => ?_⟩
  have heq := h.addr k hk
  rw [h'.addr k (by rwa [heq]), heq]

theorem Extends.setAddr {k b : ℕ} (hk : k < nDirect + 1) (hb : b < 2 ^ 32)
    (hempty : ip.addr k = 0) : Extends ip (ip.setAddr k b) := by
  refine ⟨rfl, fun j hj => ?_⟩
  rw [Dinode.addr_setAddr hk hb, if_neg]
  rintro rfl
  exact hj hempty

/-- How many blocks of the bitmap are enough: none for a direct block that is there; the others may
be allocated, and so may the indirect block. -/
def mapCost (ip : Dinode) (bn : ℕ) : ℕ := if bn < nDirect ∧ ip.addr bn ≠ 0 then 0 else 1

def indCost (ip : Dinode) : ℕ := if ip.addr nDirect = 0 then 1 else 0

theorem Extends.indCost_le {ip' : Dinode} (h : Extends ip ip') : indCost ip' ≤ indCost ip := by
  rw [indCost, indCost]
  by_cases h0 : ip.addr nDirect = 0
  · rw [if_pos h0]
    split_ifs <;> omega
  · rw [if_neg h0, if_neg (by rwa [h.addr nDirect h0])]

end Extends

/-! ## `balloc` and `bmap` -/

/-- The block `c` is one of the blocks `M` of the bitmap. -/
def InBitmap (sb : Superblock) (M : Finset ℕ) (c : ℕ) : Prop :=
  c ∈ M ∧ ∃ b < sb.size, c = bBlock sb b

theorem InBitmap.lt {sb : Superblock} {M : Finset ℕ} {c : ℕ} (h : InBitmap sb M c) (wf : sb.Wf) :
    c < sb.nmeta := by
  obtain ⟨-, b, hb, rfl⟩ := h
  exact wf.bBlock_lt hb

section Blocks

variable {sb : Superblock} {s : Txn} {ip : Dinode} {bn : ℕ} {E : FsPanic → Prop}

/-- `balloc` logs a block of the bitmap and the block that it gives out. -/
theorem balloc_touched :
    Ends E (balloc sb) s fun a t => Touched (fun c => c = a ∨ InBitmap sb {bBlock sb a} c) s t ∧
      (a = 0 ∨ a < sb.size ∧ a ∈ t.calls ∧ t.disk a = fun _ => 0) := by
  refine .bind (.get ?_)
  cases hfind : (List.range sb.size).find? fun b => !bitAt sb s.disk b with
  | none => exact .pure ⟨.refl, .inl rfl⟩
  | some b =>
    have hlt := List.mem_range.mp (List.mem_of_find?_eq_some hfind)
    have hbit : Touched (fun c => c = b ∨ InBitmap sb {bBlock sb b} c) s
        ⟨setBitAt sb s.disk b true, s.calls ++ [bBlock sb b]⟩ :=
      .write (fun c hc => setBitAt_apply_of_ne hc) (.inr ⟨Finset.mem_singleton_self _, b, hlt, rfl⟩)
    refine .bind (.modify (.bind (.modify (.bind (.bind (.modify (.modify
      (.pure ⟨hbit.trans (.write ?_ (.inl rfl)), .inr ⟨hlt, ?_, ?_⟩⟩))))))))
    · exact fun c hc => update_of_ne hc ..
    · exact List.mem_append_right _ (List.mem_singleton_self b)
    · exact update_self ..

/-- What is logged for a block `a` of a file: the block if it was `missing`, blocks `M` of the
bitmap, and the indirect block `ind`. -/
structure BlockTouched (sb : Superblock) (s : Txn) (missing : Prop) (ind a : ℕ) (t : Txn)
    (M : Finset ℕ) : Prop where
  touched : Touched (fun c => c = a ∧ missing ∨ InBitmap sb M c ∨ c = ind ∧ c ≠ 0) s t
  fresh : missing → a = 0 ∨ a ∈ t.calls

theorem bmapEntry_touched {ind j : ℕ} (hind : ind ≠ 0) :
    Ends E (bmapEntry sb ind j) s fun a t =>
      BlockTouched sb s (entryAt (s.disk ind) j = 0) ind a t {bBlock sb a} := by
  refine .bind (.get ?_)
  by_cases hentry : entryAt (s.disk ind) j = 0
  · rw [if_pos hentry]
    refine balloc_touched.andThen ?_
    rintro a t ⟨ht, ha⟩
    have ht' : Touched (fun c => c = a ∧ entryAt (s.disk ind) j = 0 ∨
        InBitmap sb {bBlock sb a} c ∨ c = ind ∧ c ≠ 0) s t :=
      ht.mono fun c hc => hc.imp (fun h => ⟨h, hentry⟩) .inl
    by_cases h0 : a = 0
    · rw [if_pos h0]
      rw [h0] at ht'
      exact .pure ⟨ht', fun _ => .inl rfl⟩
    · rw [if_neg h0]
      refine .bind (.modify (.bind (.modify (.pure
        ⟨ht'.trans (.write ?_ (.inr (.inr ⟨rfl, hind⟩))), fun _ => .inr ?_⟩))))
      · exact fun c hc => update_of_ne hc ..
      · exact List.mem_append_left _ (ha.resolve_left h0).2.1
  · rw [if_neg hentry]
    exact .pure ⟨.refl, fun h => absurd h hentry⟩

/-- What `bmap` does to the inode and to the log, with `M` the blocks of the bitmap that it logs. -/
structure MapCalls (sb : Superblock) (s : Txn) (ip : Dinode) (bn : ℕ) (r : ℕ × Dinode) (t : Txn)
    (M : Finset ℕ) : Prop where
  block : BlockTouched sb s (ip.block s.disk bn = 0) (r.2.addr nDirect) r.1 t M
  ext : Extends ip r.2
  slot : r.1 ≠ 0 → r.2.addr (slotOf bn) ≠ 0
  cost : M.card + indCost r.2 ≤ mapCost ip bn + indCost ip

/-- The first or only allocation of `bmap` has failed. -/
theorem MapCalls.fail {t : Txn} {a : ℕ}
    (ht : Touched (fun c => c = a ∨ InBitmap sb {bBlock sb a} c) s t)
    (h0 : a = 0) (hblock : ip.block s.disk bn = 0) (hcost : mapCost ip bn = 1) :
    MapCalls sb s ip bn (0, ip) t {bBlock sb a} where
  block := ⟨ht.mono fun c hc => hc.imp (fun h => ⟨h.trans h0, hblock⟩) .inl, fun _ => .inl rfl⟩
  ext := .refl
  slot h := absurd rfl h
  cost := by rw [Finset.card_singleton, hcost]

/-- What `bmap` logs, and what it spends. -/
theorem bmap_calls (hsb : sb.size < 2 ^ 32) (hbn : bn < maxFile) :
    Ends E (bmap sb ip bn) s fun r t => ∃ M, MapCalls sb s ip bn r t M := by
  have hlt {a : ℕ} {t : Txn} (ha : a = 0 ∨ a < sb.size ∧ a ∈ t.calls ∧ t.disk a = fun _ => 0) :
      a < 2 ^ 32 := by
    rcases ha with rfl | ha
    · norm_num
    · omega
  unfold bmap
  by_cases hdir : bn < nDirect
  · have hslot : slotOf bn = bn := if_pos hdir
    have hblock : ip.block s.disk bn = ip.addr bn := if_pos hdir
    rw [if_pos hdir]
    by_cases h0 : ip.addr bn = 0
    · have hcost : mapCost ip bn = 1 := if_neg fun h => h.2 h0
      rw [if_pos h0]
      refine balloc_touched.andThen ?_
      rintro a t ⟨ht, ha⟩
      by_cases hzero : a = 0
      · rw [if_pos hzero]
        exact .pure ⟨_, .fail ht hzero (hblock.trans h0) hcost⟩
      rw [if_neg hzero]
      have hext : Extends ip (ip.setAddr bn a) := .setAddr (by omega) (hlt ha) h0
      refine .pure ⟨{bBlock sb a}, ⟨ht.mono fun c hc => ?_, fun _ => ?_⟩, hext, fun _ => ?_, ?_⟩
      · exact hc.imp (fun h => ⟨h, hblock.trans h0⟩) .inl
      · exact ha.imp_right fun h => h.2.1
      · rwa [hslot, Dinode.addr_setAddr (by omega) (hlt ha), if_pos rfl]
      · rw [Finset.card_singleton, hcost]
        exact Nat.add_le_add_left hext.indCost_le 1
    · rw [if_neg h0]
      refine .pure ⟨∅, ⟨.refl, fun h => absurd (hblock.symm.trans h) h0⟩, .refl, fun _ => ?_, ?_⟩
      · rwa [hslot]
      · rw [Finset.card_empty]
        exact Nat.add_le_add_right (Nat.zero_le _) _
  · have hslot : slotOf bn = nDirect := if_neg hdir
    have hcost : mapCost ip bn = 1 := if_neg fun h => hdir h.1
    rw [if_neg hdir, if_pos (by simp only [maxFile] at hbn; omega)]
    by_cases h0 : ip.addr nDirect = 0
    · have hblock : ip.block s.disk bn = 0 := by
        rw [Dinode.block, if_neg hdir, if_neg fun h => h.2 h0]
      rw [if_pos h0]
      refine balloc_touched.andThen ?_
      rintro a t ⟨ht, ha⟩
      by_cases hzero : a = 0
      · rw [if_pos hzero]
        exact .pure ⟨_, .fail ht hzero hblock hcost⟩
      rw [if_neg hzero]
      have hext : Extends ip (ip.setAddr nDirect a) := .setAddr (by omega) (hlt ha) h0
      have haddr : (ip.setAddr nDirect a).addr nDirect = a := by
        rw [Dinode.addr_setAddr (by omega) (hlt ha), if_pos rfl]
      have hentry : entryAt (t.disk a) (bn - nDirect) = 0 := by
        rw [(ha.resolve_left hzero).2.2, entryAt_zero]
      refine (bmapEntry_touched hzero).andThen fun b u hu =>
        .pure ⟨{bBlock sb a, bBlock sb b}, ⟨?_, fun _ => hu.fresh hentry⟩, hext, fun _ => ?_, ?_⟩
      · rw [haddr]
        refine (ht.mono fun c hc => ?_).trans (hu.touched.mono fun c hc => ?_)
        · rcases hc with rfl | hc
          · exact .inr (.inr ⟨rfl, hzero⟩)
          · exact .inr (.inl ⟨Finset.mem_insert.mpr (.inl (Finset.mem_singleton.mp hc.1)), hc.2⟩)
        · exact hc.imp (fun h => ⟨h.1, hblock⟩) fun h =>
            h.imp_left fun h => ⟨Finset.mem_insert_of_mem h.1, h.2⟩
      · rwa [hslot, haddr]
      · have hno : indCost (ip.setAddr nDirect a) = 0 := if_neg (by rwa [haddr])
        have hind : indCost ip = 1 := if_pos h0
        rw [hno, hcost, hind]
        exact Finset.card_le_two
    · have hblock : ip.block s.disk bn = entryAt (s.disk (ip.addr nDirect)) (bn - nDirect) := by
        rw [Dinode.block, if_neg hdir, if_pos ⟨hbn, h0⟩]
      rw [if_neg h0]
      refine (bmapEntry_touched h0).andThen fun a t ht =>
        .pure ⟨{bBlock sb a}, by rwa [hblock], .refl, fun _ => by rwa [hslot], ?_⟩
      rw [Finset.card_singleton, hcost]

end Blocks

end Txn

end NeulaCpu.Xv6

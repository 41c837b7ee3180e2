import NeulaCpu.Xv6.FileBlocks

/-!
# Files

A disk is consistent if the bitmap agrees with the slots of the inodes on it and no file misses a
block below its size. `readi` gives the bytes of the file and changes nothing; `writei`, `itrunc`,
`iupdate` and the allocation of an inode keep the disk consistent and the other files as they are.
-/

namespace NeulaCpu.Xv6

open ByteStore Outcome Function

/-- The blocks of the inodes `din` agree with the bitmap, and no file misses a block below its
size. -/
structure FilesOk (sb : Superblock) (din : ℕ → Dinode) (d : Disk) : Prop where
  blocks : BlocksOk sb din d
  full : ∀ i, Allocated sb din i → (din i).Full d

/-- The bitmap marks exactly the metadata blocks and the blocks that one slot of one allocated inode
holds, and no block below the size of a file is missing. -/
def Consistent (sb : Superblock) (d : Disk) : Prop := FilesOk sb (dinodeAt sb d) d

/-- The other files are as they were. -/
def OthersKept (sb : Superblock) (i : ℕ) (din : ℕ → Dinode) (d d' : Disk) : Prop :=
  ∀ j, j ≠ i → Allocated sb din j → FileKept (fun _ => False) (din j) d (din j) d'

section Read

variable {sb : Superblock} {d : Disk} {ip : Dinode} {dst : Dest} {E : FsPanic → Prop} {n : ℕ}

/-- The bytes of one block of a file. -/
theorem get_block {off m : ℕ} (hm : off % bSize + m ≤ bSize) :
    get (d (ip.block d (off / bSize))) (off % bSize) m = get (ip.byte d) off m := by
  refine List.map_congr_left fun k hk => ?_
  have hk := List.mem_range.mp hk
  have hdm : off / bSize * bSize + off % bSize = off := Nat.div_add_mod' ..
  have hdiv : (off + k) / bSize = off / bSize := by
    rw [Nat.div_eq_iff (by norm_num [bSize])]
    simp only [bSize] at *
    omega
  have hmod : (off + k) % bSize = off % bSize + k := by
    have h : (off + k) / bSize * bSize + (off + k) % bSize = off + k := Nat.div_add_mod' ..
    rw [hdiv] at h
    omega
  rw [Dinode.byte, hdiv, hmod]

/-- The loop of `readi` over blocks that the file has. -/
theorem readLoop_spec {fuel : ℕ} :
    ∀ {off tot : ℕ} {got : List Byte}, n - tot ≤ fuel →
      tot ≤ n → (∀ x, off ≤ x → x < off + (n - tot) → ip.block d (x / bSize) ≠ 0) →
      Ends E (readLoop sb dst fuel ip off tot n got) d fun r d' => d' = d ∧ r.2.2 = ip ∧
        ((∀ k < n, dst k = true) → r.1 = n ∧ r.2.1 = got ++ get (ip.byte d) off (n - tot)) := by
  induction fuel with
  | zero =>
    intro off tot got hfuel hle _
    have heq : tot = n := by omega
    subst heq
    refine .pure ⟨rfl, rfl, fun _ => ⟨rfl, ?_⟩⟩
    rw [Nat.sub_self, get_zero, List.append_nil]
  | succ fuel ih =>
    intro off tot got hfuel hle hblocks
    unfold readLoop
    by_cases htot : tot < n
    · rw [if_pos htot]
      have hne := hblocks off le_rfl (by omega)
      refine .bind (.of_eq_ok (bmap_of_ne hne) ?_)
      simp only
      rw [if_neg hne]
      refine .bind (.get ?_)
      have hmod : off % bSize < bSize := Nat.mod_lt _ (by norm_num [bSize])
      generalize hm : min (n - tot) (bSize - off % bSize) = m
      rw [get_block (by omega)]
      by_cases hall : ((List.range m).all fun k => dst (tot + k)) = true
      · rw [if_pos hall]
        have hrec := @ih (off + m) (tot + m) (got ++ get (ip.byte d) off m) (by omega)
          (by omega) fun x h1 h2 => hblocks x (by omega) (by omega)
        refine hrec.mono fun r d' h => ⟨h.1, h.2.1, fun hdst => ?_⟩
        obtain ⟨h1, h2⟩ := h.2.2 hdst
        refine ⟨h1, h2.trans ?_⟩
        rw [List.append_assoc, ← get_add]
        congr 2
        omega
      · rw [if_neg hall]
        refine .pure ⟨rfl, rfl, fun hdst => absurd ?_ hall⟩
        refine List.all_eq_true.mpr fun k hk => hdst _ ?_
        have := List.mem_range.mp hk
        omega
    · rw [if_neg htot]
      have heq : tot = n := by omega
      subst heq
      refine .pure ⟨rfl, rfl, fun _ => ⟨rfl, ?_⟩⟩
      rw [Nat.sub_self, get_zero, List.append_nil]

/-- `readi` of a file that misses no block changes nothing. -/
theorem readi_spec (hfull : ip.Full d) {off : ℕ} (hn : n < 2 ^ 32) :
    Ends E (readi sb ip dst off n) d fun r d' => d' = d ∧ r.2.2 = ip ∧
      ((∀ k, dst k = true) → off ≤ ip.size.toNat → off + n < 2 ^ 32 →
        r.1 = (min n (ip.size.toNat - off) : ℕ) ∧
          r.2.1 = ByteStore.get (ip.byte d) off (min n (ip.size.toNat - off))) := by
  unfold readi
  by_cases hoff : ip.size.toNat < off ∨ (off + n) % 2 ^ 32 < off
  · rw [if_pos hoff]
    refine .pure ⟨rfl, rfl, fun _ h1 h2 => ?_⟩
    rw [Nat.mod_eq_of_lt h2] at hoff
    omega
  · rw [if_neg hoff]
    simp only
    -- the guard has seen a sum that wraps around
    have hsum : (off + n) % 2 ^ 32 = off + n := by
      have := ip.size.isLt
      omega
    generalize hn' : (if ip.size.toNat < (off + n) % 2 ^ 32 then ip.size.toNat - off else n) = n'
    have hmin : n' = min n (ip.size.toNat - off) := by
      rw [hsum] at hn'
      split_ifs at hn' <;> omega
    refine (readLoop_spec (by omega) (Nat.zero_le _) fun x h1 h2 => hfull _ ?_).mono fun r d' h =>
      ⟨h.1, h.2.1, fun hdst h1 h2 => ?_⟩
    · have := Nat.div_mul_le_self x bSize
      omega
    · obtain ⟨hr, hb⟩ := h.2.2 fun k _ => hdst k
      rw [← hmin]
      exact ⟨hr, by simpa using hb⟩

end Read

/-- The bitmap no longer marks the data blocks `S`; nothing else has changed. -/
structure Released (sb : Superblock) (S : ℕ → Prop) (d d' : Disk) : Prop where
  bits : ∀ b < sb.size, bitAt sb d' b = true ↔ bitAt sb d b = true ∧ ¬ S b
  data : ∀ b, sb.nmeta ≤ b → d' b = d b
  inodes : ∀ j < sb.ninodes, dinodeAt sb d' j = dinodeAt sb d j

section Truncate

variable {sb : Superblock} {din : ℕ → Dinode} {d d' d'' : Disk} {ip : Dinode} {E : FsPanic → Prop}
  {b : ℕ} {S S' : ℕ → Prop}

theorem Released.none : Released sb (fun _ => False) d d :=
  ⟨by simp, fun _ _ => rfl, fun _ _ => rfl⟩

theorem Released.trans (h : Released sb S d d') (h' : Released sb S' d' d'') :
    Released sb (fun b => S b ∨ S' b) d d'' where
  bits b hb := by rw [h'.bits b hb, h.bits b hb, and_assoc, not_or]
  data b hb := (h'.data b hb).trans (h.data b hb)
  inodes j hj := (h'.inodes j hj).trans (h.inodes j hj)

theorem Released.congr (h : Released sb S d d') (hS : ∀ b, S' b ↔ S b) : Released sb S' d d' :=
  ⟨fun b hb => by rw [h.bits b hb, hS], h.data, h.inodes⟩

theorem Released.inUse (h : Released sb S d d') (hb : InUse sb d b) (hS : ¬ S b) : InUse sb d' b :=
  ⟨hb.1, hb.2.1, (h.bits b hb.2.1).mpr ⟨hb.2.2, hS⟩⟩

/-- At the places `P` the table `f` names blocks in use, each at one place; 0 names none. -/
structure Held (sb : Superblock) (d : Disk) (f : ℕ → ℕ) (P : ℕ → Prop) : Prop where
  inUse : ∀ k, P k → f k ≠ 0 → InUse sb d (f k)
  inj : ∀ k l, P k → P l → f k ≠ 0 → f l = f k → l = k

section Places

variable {f g : ℕ → ℕ} {P Q : ℕ → Prop} {k : ℕ} {ks : List ℕ}

/-- The places of another table. -/
theorem Held.comp (h : Held sb d f P) {e : ℕ → ℕ} (he : e.Injective)
    (hg : ∀ k, Q k → P (e k) ∧ g k = f (e k)) : Held sb d g Q where
  inUse k hk := by
    rw [(hg k hk).2]
    exact h.inUse _ (hg k hk).1
  inj k l hk hl := by
    rw [(hg k hk).2, (hg l hl).2]
    exact fun hne heq => he (h.inj _ _ (hg k hk).1 (hg l hl).1 hne heq)

theorem Held.release (h : Held sb d f P) (hrel : Released sb S d d') (hQ : ∀ k, Q k → P k)
    (hS : ∀ k, Q k → f k ≠ 0 → ¬ S (f k)) : Held sb d' f Q where
  inUse k hk hne := hrel.inUse (h.inUse k (hQ k hk) hne) (hS k hk hne)
  inj k l hk hl := h.inj k l (hQ k hk) (hQ l hl)

/-- The block of the first place of a list is given back. -/
theorem Held.tail (h : Held sb d f (· ∈ k :: ks)) (hk : k ∉ ks) (h0 : f k ≠ 0)
    (hrel : Released sb (fun b => b = f k) d d') (hg : ∀ l ∈ ks, g l = f l) :
    Held sb d' g (· ∈ ks) := by
  refine (h.release hrel (fun l => .tail k) fun l hl _ he => ?_).comp Function.injective_id
    fun l hl => ⟨hl, hg l hl⟩
  exact hk (h.inj k l List.mem_cons_self (.tail k hl) h0 he ▸ hl)

/-- The first place names no block. -/
theorem Released.skip (h : Released sb (fun b => b ≠ 0 ∧ ∃ l ∈ ks, f l = b) d d') (h0 : f k = 0) :
    Released sb (fun b => b ≠ 0 ∧ ∃ l ∈ k :: ks, f l = b) d d' :=
  h.congr fun b => and_congr_right fun hb => by
    simp only [List.exists_mem_cons_iff, h0, hb.symm, false_or]

theorem Released.cons (h : Released sb (fun b => b = f k) d d')
    (h' : Released sb (fun b => b ≠ 0 ∧ ∃ l ∈ ks, g l = b) d' d'') (h0 : f k ≠ 0)
    (hg : ∀ l ∈ ks, g l = f l) :
    Released sb (fun b => b ≠ 0 ∧ ∃ l ∈ k :: ks, f l = b) d d'' := by
  refine (h.trans h').congr fun b => ?_
  constructor
  · rintro ⟨hb, l, hl, rfl⟩
    rcases List.mem_cons.mp hl with rfl | hl
    · exact Or.inl rfl
    · exact Or.inr ⟨hb, l, hl, hg l hl⟩
  · rintro (rfl | ⟨hb, l, hl, rfl⟩)
    · exact ⟨h0, k, List.mem_cons_self, rfl⟩
    · exact ⟨hb, l, .tail _ hl, (hg l hl).symm⟩

end Places

/-- `bfree` of a block that is in use does not panic. -/
theorem bfree_spec (wf : sb.Wf) (hb : InUse sb d b) :
    Ends E (bfree sb b) d fun _ d' => Released sb (fun c => c = b) d d' := by
  refine .bind (.get ?_)
  rw [if_pos hb.2.2]
  refine .set ⟨fun c _ => ?_, fun c hc => ?_, fun j hj => dinodeAt_setBitAt wf hj⟩
  · rw [bitAt_setBitAt]
    by_cases h : c = b <;> simp [h]
  · have h := wf.bBlock_lt hb.2.1
    exact setBitAt_apply_of_ne (by omega)

/-- The loop over the direct blocks. -/
theorem itruncDirect_spec (wf : sb.Wf) {is : List ℕ} (hnd : is.Nodup)
    (hlt : ∀ k ∈ is, k < nDirect + 1) (held : Held sb d ip.addr (· ∈ is)) :
    Ends E (itruncDirect sb is ip) d fun ip' d' =>
      Released sb (fun b => b ≠ 0 ∧ ∃ k ∈ is, ip.addr k = b) d d' ∧
      (∀ k, ip'.addr k = if k ∈ is then 0 else ip.addr k) ∧
        ip' = { ip with addrs := ip'.addrs } := by
  induction is generalizing ip d with
  | nil => exact .pure ⟨Released.none.congr (by simp), by simp, rfl⟩
  | cons k is ih =>
    obtain ⟨hk, hnd⟩ := List.nodup_cons.mp hnd
    have hlt' (l : ℕ) (hl : l ∈ is) := hlt l (.tail k hl)
    unfold itruncDirect
    by_cases h0 : ip.addr k = 0
    · rw [if_pos h0]
      have hrest := held.comp Function.injective_id fun l hl => ⟨.tail k hl, rfl⟩
      refine (ih hnd hlt' hrest).mono fun ip' d' h => ⟨h.1.skip h0, fun l => ?_, h.2.2⟩
      rw [h.2.1]
      by_cases hl : l = k
      · simp [hl, h0]
      · simp [hl]
    · rw [if_neg h0]
      refine (bfree_spec wf (held.inUse k List.mem_cons_self h0)).andThen fun _ d₁ h₁ => ?_
      have haddr (l : ℕ) : (ip.setAddr k 0).addr l = if l = k then 0 else ip.addr l :=
        Dinode.addr_setAddr (hlt k List.mem_cons_self) (by norm_num)
      have hrest (l : ℕ) (hl : l ∈ is) : (ip.setAddr k 0).addr l = ip.addr l := by
        rw [haddr, if_neg]
        rintro rfl
        exact hk hl
      refine (ih hnd hlt' (held.tail hk h0 h₁ hrest)).mono fun ip' d' h =>
        ⟨h₁.cons h.1 h0 hrest, fun l => ?_, ?_⟩
      · rw [h.2.1, haddr]
        by_cases hl : l = k
        · simp [hl]
        · simp [hl]
      · rw [h.2.2]
        rfl

/-- The loop over the entries of the indirect block. -/
theorem itruncEntries_spec (wf : sb.Wf) {ind : ℕ} (hind : sb.nmeta ≤ ind) {js : List ℕ}
    (hnd : js.Nodup) (held : Held sb d (entryAt (d ind)) (· ∈ js)) :
    Ends E (itruncEntries sb ind js) d fun _ d' =>
      Released sb (fun b => b ≠ 0 ∧ ∃ j ∈ js, entryAt (d ind) j = b) d d' := by
  induction js generalizing d with
  | nil => exact .pure (Released.none.congr (by simp))
  | cons j js ih =>
    obtain ⟨hj, hnd⟩ := List.nodup_cons.mp hnd
    refine .bind (.get ?_)
    by_cases h0 : entryAt (d ind) j = 0
    · rw [if_pos h0]
      have hrest := held.comp Function.injective_id fun l hl => ⟨.tail j hl, rfl⟩
      exact (ih hnd hrest).mono fun _ d' h => h.skip h0
    · rw [if_neg h0]
      refine (bfree_spec wf (held.inUse j List.mem_cons_self h0)).andThen fun _ d₁ h₁ => ?_
      have hrest (l : ℕ) (_ : l ∈ js) : entryAt (d₁ ind) l = entryAt (d ind) l := by
        rw [h₁.data ind hind]
      exact (ih hnd (held.tail hj h0 h₁ hrest)).mono fun _ d' h => h₁.cons h h0 hrest

/-- The indirect block is given back, with the blocks it lists. -/
theorem itruncIndirect_spec (wf : sb.Wf) (held : Held sb d (ip.slot d) (nDirect ≤ ·)) :
    Ends E (itruncIndirect sb ip) d fun ip' d' =>
      Released sb (fun b => b ≠ 0 ∧ ∃ n, nDirect ≤ n ∧ ip.slot d n = b) d d' ∧
      (∀ k, ip'.addr k = if k = nDirect then 0 else ip.addr k) ∧
        ip' = { ip with addrs := ip'.addrs } := by
  have hmax : nDirect ≤ maxFile := Nat.le_add_right ..
  have hind : ip.slot d maxFile = ip.addr nDirect := Dinode.slot_maxFile
  unfold itruncIndirect
  by_cases h0 : ip.addr nDirect = 0
  · rw [if_pos h0]
    refine .pure ⟨Released.none.congr fun b => ?_, fun k => ?_, rfl⟩
    · simp only [iff_false]
      rintro ⟨hb, n, hn, rfl⟩
      refine hb ?_
      rw [Dinode.slot, Dinode.block]
      split_ifs with h1 h2 h3
      · exact h0
      · omega
      · exact absurd h0 h3.2
      · rfl
    · split_ifs with hk
      · rw [hk, h0]
      · rfl
  · rw [if_neg h0]
    have hent (j : ℕ) (hj : j ∈ List.range nIndirect) :=
      Dinode.slot_entry (d := d) h0 (List.mem_range.mp hj)
    have huse := held.inUse maxFile hmax (by rwa [hind])
    rw [hind] at huse
    refine (itruncEntries_spec wf huse.1 List.nodup_range (held.comp (add_right_injective nDirect)
      fun j hj => ⟨Nat.le_add_right .., (hent j hj).symm⟩)).andThen fun _ d₁ h₁ => ?_
    -- the indirect block is not one of its entries
    have hnot : ¬ (ip.addr nDirect ≠ 0 ∧
        ∃ j ∈ List.range nIndirect, entryAt (d (ip.addr nDirect)) j = ip.addr nDirect) := by
      rintro ⟨_, j, hj, he⟩
      have hm := held.inj maxFile (nDirect + j) hmax (Nat.le_add_right ..) (by rwa [hind])
        (by rw [hent j hj, hind, he])
      have hlt := List.mem_range.mp hj
      rw [maxFile] at hm
      omega
    refine (bfree_spec wf (h₁.inUse huse hnot)).andThen fun _ d₂ h₂ =>
      .pure ⟨?_, fun k => ?_, rfl⟩
    · refine (h₁.trans h₂).congr fun b => ?_
      constructor
      · rintro ⟨hb, n, hn, rfl⟩
        by_cases hnm : n = maxFile
        · rw [hnm, hind]
          exact Or.inr rfl
        · have hlt : n < maxFile := by
            by_contra hge
            exact hb (by rw [Dinode.slot_of_ne hnm, Dinode.block_of_ge (by omega)])
          rw [maxFile] at hlt
          have hj : n - nDirect ∈ List.range nIndirect := List.mem_range.mpr (by omega)
          refine Or.inl ⟨hb, n - nDirect, hj, ?_⟩
          rw [← hent _ hj, Nat.add_sub_of_le hn]
      · rintro (⟨hb, j, hj, rfl⟩ | rfl)
        · exact ⟨hb, nDirect + j, by omega, hent j hj⟩
        · exact ⟨h0, maxFile, hmax, hind⟩
    · rw [Dinode.addr_setAddr (by omega) (by norm_num)]

/-- Changing an inode on the disk does not change the bitmap or a file. -/
theorem BlocksOk.setDinode {i : ℕ} (ok : BlocksOk sb din d) (wf : sb.Wf) (hi : i < sb.ninodes) :
    BlocksOk sb din (setDinode sb d i ip) := by
  refine ok.congr (fun b _ => bitAt_setDinode wf hi) (fun _ => Iff.rfl) fun j hj n => ?_
  exact Dinode.slot_congr (fun _ => rfl) fun h0 =>
    setDinode_data wf hi (ok.inUse_addr hj h0).1

/-- A change below the data blocks keeps the files. -/
theorem BlocksOk.kept_of_data (ok : BlocksOk sb din d) (hdata : ∀ b, sb.nmeta ≤ b → d' b = d b)
    {j : ℕ} (hj : Allocated sb din j) {T : ℕ → Prop} : FileKept T (din j) d (din j) d' :=
  .of_blocks (fun h0 => hdata _ (ok.inUse_addr hj h0).1) fun _ hbn =>
    hdata _ (ok.inUse_block hj hbn).1

theorem BlocksOk.kept_setDinode (ok : BlocksOk sb din d) (wf : sb.Wf) {i j : ℕ} (ip : Dinode)
    (hi : i < sb.ninodes) (hj : Allocated sb din j) {T : ℕ → Prop} :
    FileKept T (din j) d (din j) (Xv6.setDinode sb d i ip) :=
  ok.kept_of_data (fun _ => setDinode_data wf hi) hj

/-- The file `i` has given back all its blocks. -/
theorem BlocksOk.release (ok : BlocksOk sb din d) {i : ℕ} (hi : Allocated sb din i)
    (h : Released sb (fun b => b ≠ 0 ∧ ∃ n, (din i).slot d n = b) d d')
    (hzero : ∀ k, ip.addr k = 0) :
    BlocksOk sb (update din i ip) d' where
  exact := by
    refine ok.exact.retire (K := fun x => x.1 = i) (fun b => ?_) fun x b => ?_
    · rw [InUse, InUse]
      constructor
      · rintro ⟨h1, h2, h3⟩
        obtain ⟨h3, h4⟩ := (h.bits b h2).mp h3
        refine ⟨⟨h1, h2, h3⟩, ?_⟩
        rintro ⟨x, rfl, _, hx, hb⟩
        exact h4 ⟨hb, x.2, hx⟩
      · rintro ⟨⟨h1, h2, h3⟩, h4⟩
        refine ⟨h1, h2, (h.bits b h2).mpr ⟨h3, ?_⟩⟩
        rintro ⟨hb, n, hn⟩
        exact h4 ⟨(i, n), rfl, hi, hn, hb⟩
    · rw [SlotOwns, SlotOwns]
      by_cases hx : x.1 = i
      · simp only [hx, update_self, Dinode.slot_zero hzero, not_true_eq_false, and_false, iff_false]
        rintro ⟨_, rfl, hb⟩
        exact hb rfl
      · simp only [Allocated, update_of_ne hx, hx, not_false_eq_true, and_true]
        refine and_congr_right fun hal => ?_
        have hslot : (din x.1).slot d' x.2 = (din x.1).slot d x.2 := by
          exact Dinode.slot_congr (fun _ => rfl) fun h0 => h.data _ (ok.inUse_addr hal h0).1
        rw [hslot]
  metaUsed b hb := by
    have hsize : sb.nmeta ≤ sb.size := Nat.sub_le ..
    refine (h.bits b (by omega)).mpr ⟨ok.metaUsed b hb, ?_⟩
    rintro ⟨hne, n, hn⟩
    have hu := (ok.inUse (n := n) hi (by rwa [hn])).1
    rw [hn] at hu
    omega

/-- The two loops of `itrunc` give back the blocks of the file and do not panic. -/
theorem itruncBlocks_spec (wf : sb.Wf) {i : ℕ} (ok : BlocksOk sb din d) (hi : Allocated sb din i) :
    Ends E (itruncDirect sb (List.range nDirect) (din i) >>= itruncIndirect sb) d fun ip' d' =>
      ip' = { din i with addrs := fun _ => 0 } ∧
        Released sb (fun b => b ≠ 0 ∧ ∃ n, (din i).slot d n = b) d d' := by
  have held : Held sb d ((din i).slot d) fun _ => True :=
    ⟨fun _ _ => ok.inUse hi, fun _ _ _ _ hne he => (ok.slot_inj hi hi hne he).2⟩
  have hdir (k : ℕ) (hk : k ∈ List.range nDirect) : (din i).slot d k = (din i).addr k := by
    have hlt := List.mem_range.mp hk
    rw [Dinode.slot, if_neg (by simp only [maxFile, nIndirect, bSize, nDirect] at hlt ⊢; omega),
      Dinode.block, if_pos hlt]
  refine (itruncDirect_spec wf List.nodup_range
    (fun k hk => (List.mem_range.mp hk).trans (Nat.lt_succ_self _))
    (held.comp Function.injective_id fun k hk => ⟨trivial, (hdir k hk).symm⟩)).andThen ?_
  rintro ip₁ d₁ ⟨h₁, haddr₁, hself₁⟩
  -- the slots from the indirect block on are as before
  have hslot (n : ℕ) (hn : nDirect ≤ n) : ip₁.slot d₁ n = (din i).slot d n := by
    have ha : ip₁.addr nDirect = (din i).addr nDirect := by
      rw [haddr₁, if_neg (by simp)]
    rw [Dinode.slot, Dinode.slot, Dinode.block, Dinode.block, ha, if_neg (Nat.not_lt.mpr hn),
      if_neg (Nat.not_lt.mpr hn)]
    by_cases h0 : (din i).addr nDirect = 0
    · simp [h0]
    · rw [h₁.data _ (ok.inUse_addr hi h0).1]
  have hrest : Held sb d₁ ((din i).slot d) (nDirect ≤ ·) := by
    refine held.release h₁ (fun _ _ => trivial) ?_
    rintro n hn hne ⟨_, k, hk, he⟩
    have hkn := held.inj n k trivial trivial hne ((hdir k hk).trans he)
    have hlt := List.mem_range.mp hk
    omega
  refine (itruncIndirect_spec wf (hrest.comp Function.injective_id fun n hn =>
    ⟨hn, hslot n hn⟩)).mono ?_
  rintro ip₂ d₂ ⟨h₂, haddr₂, hself₂⟩
  have hzero (k : ℕ) : ip₂.addr k = 0 := by
    rw [haddr₂, haddr₁]
    by_cases hk : k < nDirect + 1
    · split_ifs with h1 h2
      · rfl
      · rfl
      · exact absurd (List.mem_range.mpr (by omega)) h2
    · rw [Dinode.addr, dif_neg hk]
      simp
  have haddrs : ip₂.addrs = fun _ => 0 := by
    funext k
    have h := hzero k
    rw [Dinode.addr, dif_pos k.isLt] at h
    exact BitVec.eq_of_toNat_eq h
  refine ⟨by rw [hself₂, hself₁, haddrs], (h₁.trans h₂).congr fun b => ?_⟩
  rw [← and_or_left]
  refine and_congr_right fun _ => ⟨?_, ?_⟩
  · rintro ⟨n, hn⟩
    by_cases hlt : n < nDirect
    · have hmem := List.mem_range.mpr hlt
      exact Or.inl ⟨n, hmem, by rw [← hdir n hmem, hn]⟩
    · exact Or.inr ⟨n, by omega, by rw [hslot n (by omega), hn]⟩
  · rintro (⟨k, hk, rfl⟩ | ⟨n, hn, rfl⟩)
    · exact ⟨k, hdir k hk⟩
    · exact ⟨n, (hslot n hn).symm⟩

theorem itrunc_eq (i : ℕ) (ip : Dinode) :
    itrunc sb i ip = (itruncDirect sb (List.range nDirect) ip >>= itruncIndirect sb) >>= fun ip =>
      iupdate sb i { ip with size := 0 } >>= fun _ => pure { ip with size := 0 } :=
  (bind_assoc ..).symm

/-- `itrunc` gives back the blocks of the file and does not panic. -/
theorem itrunc_spec (wf : sb.Wf) {i : ℕ} (ok : BlocksOk sb din d) (hi : Allocated sb din i) :
    Ends E (itrunc sb i (din i)) d fun ip' d' =>
      ip' = { din i with size := 0, addrs := fun _ => 0 } ∧ BlocksOk sb (update din i ip') d' ∧
        OthersKept sb i din d d' ∧
      ∀ j < sb.ninodes, dinodeAt sb d' j = update (dinodeAt sb d) i ip' j := by
  rw [itrunc_eq]
  refine (itruncBlocks_spec wf ok hi).andThen ?_
  rintro _ d₁ ⟨rfl, hrel⟩
  have hzero (k : ℕ) : ({ din i with size := 0, addrs := fun _ => 0 } : Dinode).addr k = 0 := by
    simp [Dinode.addr]
  refine .bind (.modify (.pure ⟨rfl, ?_, ?_, ?_⟩))
  · exact (ok.release hi hrel hzero).setDinode wf hi.1
  · intro j hji hj
    refine ok.kept_of_data (fun b hb => ?_) hj
    rw [setDinode_data wf hi.1 hb, hrel.data b hb]
  · intro j hj
    rw [dinodeAt_setDinode]
    by_cases hji : j = i
    · rw [hji, update_self, update_self]
    · rw [update_of_ne hji, update_of_ne hji, hrel.inodes j hj]

/-- The blocks of the file are free after `itrunc`. -/
theorem itrunc_frees (wf : sb.Wf) {i : ℕ} (ok : BlocksOk sb din d) (hi : Allocated sb din i) :
    Ends E (itrunc sb i (din i)) d fun _ d' =>
      ∀ n, (din i).slot d n ≠ 0 → bitAt sb d' ((din i).slot d n) = false := by
  rw [itrunc_eq]
  refine (itruncBlocks_spec wf ok hi).andThen ?_
  rintro _ d₁ ⟨rfl, hrel⟩
  refine .bind (.modify (.pure fun n hn => ?_))
  rw [bitAt_setDinode wf hi.1, ← Bool.not_eq_true, hrel.bits _ (ok.inUse hi hn).2.1]
  exact fun h => h.2 ⟨hn, n, rfl⟩

/-- The operation changes no block before the bitmap, whatever the addresses are. -/
def Below (sb : Superblock) {α : Type} (x : DiskM α) : Prop :=
  ∀ d, Ends (fun _ => True) x d fun _ d' => ∀ c < sb.bmapstart, d' c = d c

theorem Below.bind {α β : Type} {x : DiskM α} {y : α → DiskM β} (hx : Below sb x)
    (hy : ∀ a, Below sb (y a)) : Below sb (x >>= y) := fun d =>
  .bind ((hx d).mono fun a d₁ h => (hy a d₁).mono fun _ _ h' c hc => (h' c hc).trans (h c hc))

theorem Below.pure {α : Type} {a : α} : Below sb (pure a) := fun _ => .pure fun _ _ => rfl

theorem bfree_below (b : ℕ) : Below sb (bfree sb b) := by
  intro d
  have hge : sb.bmapstart ≤ bBlock sb b := Nat.le_add_left ..
  refine .bind (.get ?_)
  split_ifs
  · exact .set fun c hc => setBitAt_apply_of_ne (by omega)
  · exact .throw trivial

theorem itruncDirect_below (is : List ℕ) (ip : Dinode) : Below sb (itruncDirect sb is ip) := by
  induction is generalizing ip with
  | nil => exact .pure
  | cons k is ih =>
    unfold itruncDirect
    split_ifs
    · exact ih ip
    · exact (bfree_below _).bind fun _ => ih _

theorem itruncEntries_below (ind : ℕ) (js : List ℕ) : Below sb (itruncEntries sb ind js) := by
  induction js with
  | nil => exact .pure
  | cons j js ih =>
    refine fun d => .bind (.get ?_)
    split_ifs
    · exact ih d
    · exact (bfree_below _).bind (fun _ => ih) d

theorem itruncIndirect_below (ip : Dinode) : Below sb (itruncIndirect sb ip) := by
  unfold itruncIndirect
  split_ifs
  · exact .pure
  · exact (itruncEntries_below _ _).bind fun _ => (bfree_below _).bind fun _ => .pure

/-- `itrunc` changes no other inode. -/
theorem itrunc_inodes (wf : sb.Wf) (i : ℕ) (ip : Dinode) :
    Ends (fun _ => True) (itrunc sb i ip) d fun _ d' =>
    ∀ j < sb.ninodes, j ≠ i → dinodeAt sb d' j = dinodeAt sb d j := by
  rw [itrunc_eq]
  have hloops := (@itruncDirect_below sb (List.range nDirect) ip).bind itruncIndirect_below
  refine .bind ((hloops d).mono fun _ d₁ h => .bind (.modify (.pure fun j hj hji => ?_)))
  rw [dinodeAt_setDinode_of_ne hji]
  exact dinodeAt_congr (h _ (wf.iBlock_lt hj))

end Truncate

section Inodes

variable {sb : Superblock} {din din' : ℕ → Dinode} {d d' : Disk} {ip : Dinode} {i : ℕ}

theorem Allocated.congr (h : ∀ j < sb.ninodes, din' j = din j) {j : ℕ} :
    Allocated sb din' j ↔ Allocated sb din j :=
  and_congr_right fun hj => by rw [h j hj]

/-- Only the inodes that there are matter. -/
theorem FilesOk.congr (ok : FilesOk sb din d) (h : ∀ j < sb.ninodes, din' j = din j) :
    FilesOk sb din' d where
  blocks := ok.blocks.congr (fun _ _ => rfl) (fun _ => Allocated.congr h) fun j hj n => by
    rw [h j hj.1]
  full j hj := by
    rw [h j hj.1]
    exact ok.full j ((Allocated.congr h).mp hj)

/-- A change of an inode that leaves its type and its addresses. -/
theorem BlocksOk.update (ok : BlocksOk sb din d) (htype : ip.type = (din i).type)
    (haddrs : ip.addrs = (din i).addrs) : BlocksOk sb (update din i ip) d := by
  have haddr (k : ℕ) : ip.addr k = (din i).addr k := by rw [Dinode.addr, Dinode.addr, haddrs]
  refine ok.congr (fun _ _ => rfl) (fun j => ?_) fun j _ n => ?_
  · by_cases hj : j = i
    · subst hj
      rw [Allocated, Allocated, update_self, htype]
    · rw [Allocated, Allocated, update_of_ne hj]
  · by_cases hj : j = i
    · subst hj
      rw [update_self]
      exact Dinode.slot_congr haddr fun _ => rfl
    · rw [update_of_ne hj]

/-- An inode without blocks is allocated or freed. -/
theorem BlocksOk.update_empty (ok : BlocksOk sb din d) (hzero : ∀ k, ip.addr k = 0)
    (hold : Allocated sb din i → ∀ k, (din i).addr k = 0) :
    BlocksOk sb (Function.update din i ip) d := by
  refine ok.congr_owns (fun _ _ => rfl) fun x b => ?_
  by_cases hx : x.1 = i
  · rw [SlotOwns, SlotOwns, hx, update_self, Dinode.slot_zero hzero]
    constructor
    · rintro ⟨_, rfl, hb⟩
      exact absurd rfl hb
    · rintro ⟨hal, rfl, hb⟩
      exact absurd (Dinode.slot_zero (hold hal)) hb
  · rw [SlotOwns, SlotOwns, Allocated, Allocated, update_of_ne hx]

/-- `iupdate` of the inode `i` as it was changed in memory. -/
theorem FilesOk.iupdate (ok : FilesOk sb (update (dinodeAt sb d) i ip) d) (wf : sb.Wf)
    (hi : i < sb.ninodes) : Consistent sb (setDinode sb d i ip) := by
  rw [Consistent, dinodeAt_setDinode]
  refine ⟨ok.blocks.setDinode wf hi, fun j hj bn hbn => ?_⟩
  have hkept := ok.blocks.kept_setDinode wf ip hi hj (T := fun _ => False)
  exact hkept.block_ne (ok.full j hj bn hbn)

theorem Consistent.iupdate (con : Consistent sb d) (wf : sb.Wf) (hi : i < sb.ninodes)
    (blocks : BlocksOk sb (update (dinodeAt sb d) i ip) d) (hfull : ip.type ≠ 0 → ip.Full d) :
    Consistent sb (setDinode sb d i ip) := by
  refine FilesOk.iupdate ⟨blocks, fun j hj => ?_⟩ wf hi
  by_cases hji : j = i
  · rw [Allocated, hji, update_self] at hj
    rw [hji, update_self]
    exact hfull hj.2
  · rw [Allocated, update_of_ne hji] at hj
    rw [update_of_ne hji]
    exact con.full j hj

end Inodes

/-- `tot` of the `n` bytes of `src` are in the file from `off` on. -/
structure Wrote (src : Source) (off n tot : ℕ) (ip : Dinode) (d : Disk) (ip' : Dinode) (d' : Disk) :
    Prop where
  le : tot ≤ n
  off_le : off ≤ ip.size.toNat
  size : ip'.size.toNat = max ip.size.toNat (off + tot)
  kept : FileKept (fun x => off ≤ x ∧ x < off + n ∧ (off + tot ≤ x → ∃ k < n, src k = none)) ip d
    ip' d'
  bytes : ∀ x, off ≤ x → x < off + tot → src (x - off) = some (ip'.byte d' x)
  one : off % bSize + n ≤ bSize → tot = 0 ∨ tot = n

/-- What `writei` to the file `i` leaves. -/
structure WriteiDone (sb : Superblock) (i : ℕ) (src : Source) (off n : ℕ) (d : Disk)
    (r : ℤ × Dinode) (d' : Disk) : Prop where
  consistent : Consistent sb d'
  inodes : ∀ j < sb.ninodes, dinodeAt sb d' j = update (dinodeAt sb d) i r.2 j
  self : r.2 = { dinodeAt sb d i with size := r.2.size, addrs := r.2.addrs }
  others : OthersKept sb i (dinodeAt sb d) d d'
  result : r = (-1, dinodeAt sb d i) ∧ d' = d ∨
    ∃ tot : ℕ, r.1 = tot ∧ Wrote src off n tot (dinodeAt sb d i) d r.2 d'

section Writei

variable {sb : Superblock} {d : Disk} {i off n : ℕ} {src : Source} {E : FsPanic → Prop}

theorem WriteiDone.fail (con : Consistent sb d) :
    WriteiDone sb i src off n d (-1, dinodeAt sb d i) d :=
  ⟨con, fun _ _ => by rw [update_eq_self], rfl, fun _ _ _ => .refl, Or.inl ⟨rfl, rfl⟩⟩

/-- `writei` to an inode in use; it does not panic. -/
theorem writei_spec (wf : sb.Wf) (con : Consistent sb d)
    (hi : Allocated sb (dinodeAt sb d) i) (hn : n < 2 ^ 32) :
    Ends E (writei sb i (dinodeAt sb d i) src off n) d (WriteiDone sb i src off n d) := by
  unfold writei
  by_cases hoff : (dinodeAt sb d i).size.toNat < off ∨ (off + n) % 2 ^ 32 < off
  · rw [if_pos hoff]
    exact .pure (.fail con)
  rw [if_neg hoff]
  have hsum : (off + n) % 2 ^ 32 = off + n := by
    have := (dinodeAt sb d i).size.isLt
    omega
  by_cases hmax : maxFile * bSize < (off + n) % 2 ^ 32
  · rw [if_pos hmax]
    exact .pure (.fail con)
  rw [if_neg hmax]
  rw [hsum] at hmax
  refine (writeLoop_spec wf con.blocks hi (by omega) (Nat.zero_le _) (by omega)).andThen ?_
  rintro ⟨off', tot, ip₁⟩ d₁ ⟨hw, -⟩
  have htot : off' = off + tot := hw.off_eq
  have hle : tot ≤ n := hw.le_n
  have hg := hw.grown
  have hfile := hg.file
  simp only [update_self] at hfile
  have hself : ip₁ = { dinodeAt sb d i with addrs := ip₁.addrs } := by
    have h := hg.self
    rwa [update_self] at h
  have hsize : ip₁.size = (dinodeAt sb d i).size := by rw [hself]
  simp only
  generalize hip : (if ip₁.size.toNat < off' then
    { ip₁ with size := BitVec.ofNat 32 off' } else ip₁ : Dinode) = ip₂
  have haddrs : ip₂.addrs = ip₁.addrs := by
    rw [← hip]
    split_ifs <;> rfl
  have hsize₂ : ip₂.size.toNat = max (dinodeAt sb d i).size.toNat (off + tot) := by
    rw [← hip]
    split_ifs with h
    · rw [hsize] at h
      show off' % 2 ^ 32 = _
      rw [Nat.mod_eq_of_lt (by simp only [maxFile, nIndirect, nDirect, bSize] at hmax; omega)]
      omega
    · rw [hsize] at h ⊢
      omega
  have hself₂ : ip₂ = { dinodeAt sb d i with size := ip₂.size, addrs := ip₂.addrs } := by
    rw [← hip]
    split_ifs <;> rw [hself]
  have hblock (d : Disk) (bn : ℕ) : ip₂.block d bn = ip₁.block d bn :=
    Dinode.block_congr (fun k => by rw [Dinode.addr, Dinode.addr, haddrs]) fun _ => rfl
  -- the inodes on the disk are those of before
  have hdin : ∀ j < sb.ninodes, update (dinodeAt sb d₁) i ip₂ j =
      update (dinodeAt sb d) i ip₂ j := by
    intro j hj
    by_cases hji : j = i
    · rw [hji, update_self, update_self]
    · rw [update_of_ne hji, update_of_ne hji, hg.inodes j hj]
  have hok : FilesOk sb (update (dinodeAt sb d₁) i ip₂) d₁ := by
    refine FilesOk.congr ⟨?_, fun j hj bn hbn => ?_⟩ hdin
    · have htype : ip₂.type = (update (dinodeAt sb d) i ip₁ i).type := by
        rw [update_self, hself₂, hself]
      have h := hg.ok.update htype (by rw [update_self, haddrs])
      rwa [update_idem] at h
    · by_cases hji : j = i
      · subst hji
        rw [update_self] at hbn ⊢
        rw [hblock]
        rw [hsize₂] at hbn
        by_cases hold : bn * bSize < (dinodeAt sb d j).size.toNat
        · exact hfile.block_ne (con.full j hi bn hold)
        · have hoff' : off ≤ (dinodeAt sb d j).size.toNat := by omega
          have hb := (hw.bytes (bn * bSize) (by omega) (by show _ < off'; omega)).1
          rwa [Nat.mul_div_cancel _ (by norm_num [bSize])] at hb
      · rw [update_of_ne hji] at hbn ⊢
        have hal : Allocated sb (dinodeAt sb d) j := by
          have h := hj
          rwa [Allocated, update_of_ne hji] at h
        exact (hg.others j hji hal).block_ne (con.full j hal bn hbn)
  have hal : Allocated sb (update (dinodeAt sb d₁) i ip₂) i := by
    refine ⟨hi.1, ?_⟩
    rw [update_self, hself₂]
    exact hi.2
  have hk {T : ℕ → Prop} : FileKept T ip₂ d₁ ip₂ (setDinode sb d₁ i ip₂) := by
    have h := hok.blocks.kept_setDinode wf ip₂ hi.1 hal (T := T)
    rwa [update_self] at h
  refine .bind (.modify (.pure ⟨hok.iupdate wf hi.1, fun j hj => ?_, hself₂, fun j hji hj => ?_,
    Or.inr ⟨tot, rfl, hle, by omega, hsize₂, ?_, fun x h1 h2 => ?_, hw.one⟩⟩))
  · rw [dinodeAt_setDinode, hdin j hj]
  · have hkept := hg.ok.kept_setDinode wf ip₂ hi.1 (hg.allocated_iff.mpr hj) (T := fun _ => False)
    rw [update_of_ne hji] at hkept
    exact (hg.others j hji hj).trans hkept
  · rw [htot] at hfile
    refine FileKept.trans (fun bn hbn => ?_) hk
    rw [hblock]
    exact hfile bn hbn
  · obtain ⟨hne, hsrc⟩ := hw.bytes x h1 (by show x < off'; omega)
    rw [hk.byte_eq (T := fun _ => False) (by rwa [hblock]) not_false, Dinode.byte, hblock]
    rwa [Nat.zero_add] at hsrc

end Writei

end NeulaCpu.Xv6

import NeulaCpu.Xv6.FileOps
import NeulaCpu.Xv6.Mkfs

/-!
# What `iappend` writes

While `mkfs` runs there is no bitmap on the image: the counter `freeblock` stands for the one that
`balloc` will write. Read with that bitmap, the image is a disk of the kernel all along, and
`freeblock++` is what the `balloc` of the kernel does to it. So the ownership of blocks and the
bytes of files are kept by the lemmas about the kernel.
-/

namespace NeulaCpu.Xv6.Mkfs

open ByteStore Outcome Function

/-- The super block for all the inodes that the inode blocks have room for; `mkfs` does not look at
`ninodes`. -/
def room : Superblock := { sb with ninodes := ninodeblocks * ipb }

theorem room_wf : room.Wf := by decide

/-- The image with the bitmap that `balloc` will write. -/
def Image.view (s : Image) : Disk := update s.disk sb.bmapstart (bitmapOf s.freeblock)

/-- The image after `wsect` of a sector that it has. -/
def Image.write (s : Image) (sec : ℕ) (buf : Block) : Image :=
  { s with disk := update s.disk sec buf }

section Bitmap

variable {used b : ℕ}

theorem bitmapOf_succ : bitmapOf (used + 1) =
    update (bitmapOf used) (used / 8) (bitmapOf used (used / 8) ||| 1#8 <<< (used % 8)) := by
  rw [bitmapOf, List.range_succ, List.foldl_append]
  rfl

/-- The bitmap marks the blocks below `used`. -/
theorem getLsbD_bitmapOf : (bitmapOf used (b / 8)).getLsbD (b % 8) = decide (b < used) := by
  induction used with
  | zero => simp [bitmapOf]
  | succ used ih =>
    rw [bitmapOf_succ]
    by_cases hbyte : b / 8 = used / 8
    · have hmask := getLsbD_mask (v := true) (bitmapOf used (used / 8)) (k := used % 8) (j := b % 8)
        (Nat.mod_lt _ (by norm_num)) (Nat.mod_lt _ (by norm_num))
      rw [if_pos rfl, ← hbyte] at hmask
      rw [← hbyte, update_self, hmask, ih]
      split_ifs with hbit
      · exact (decide_eq_true (by omega)).symm
      · exact decide_eq_decide.mpr (by omega)
    · rw [update_of_ne hbyte, ih]
      exact decide_eq_decide.mpr (by omega)

end Bitmap

namespace Image

variable {s : Image} {b i : ℕ}

theorem view_of_ne (h : b ≠ sb.bmapstart) : s.view b = s.disk b := update_of_ne h ..

theorem view_of_ge (h : nmeta ≤ b) : s.view b = s.disk b := by
  refine view_of_ne ?_
  rintro rfl
  exact absurd h (by decide)

theorem dinodeAt_view (hi : i < room.ninodes) : dinodeAt room s.view i = dinodeAt sb s.disk i := by
  have h := room_wf.iBlock_lt hi
  have hv : s.view (iBlock room i) = s.disk (iBlock room i) := view_of_ne h.ne
  have heq : dinodeAt room s.view i = dinodeAt room s.disk i := dinodeAt_congr hv
  exact heq

theorem bitAt_view (hb : b < bpb) : bitAt room s.view b = decide (b < s.freeblock) := by
  have hblk : bBlock room b = sb.bmapstart := by
    rw [bBlock, Nat.div_eq_of_lt hb]
    exact Nat.zero_add _
  rw [bitAt, hblk, view, update_self, Nat.mod_eq_of_lt hb, getLsbD_bitmapOf]

/-- A sector outside the bitmap is written. -/
theorem view_write {data : Block} (h : b ≠ sb.bmapstart) :
    (s.write b data).view = update s.view b data := by
  rw [view, write, view, update_comm h]

variable (hlo : nmeta ≤ s.freeblock) (hhi : s.freeblock < fsSize)

include hlo hhi

theorem fresh_view : Fresh room s.view s.freeblock := by
  refine ⟨hlo, hhi, ?_⟩
  rw [bitAt_view (hhi.trans (by decide))]
  exact decide_eq_false (lt_irrefl _)

/-- `freeblock++` is `balloc` of the kernel on a free block that is zero. -/
theorem afterAlloc_view (hzero : s.disk s.freeblock = fun _ => 0) :
    afterAlloc room s.view s.freeblock = view { s with freeblock := s.freeblock + 1 } := by
  have hlt : s.freeblock < bpb := hhi.trans (by decide)
  have hblk : bBlock room s.freeblock = sb.bmapstart := by
    rw [bBlock, Nat.div_eq_of_lt hlt]
    exact Nat.zero_add _
  have hset : setBitAt room s.view s.freeblock true =
      view { s with freeblock := s.freeblock + 1 } := by
    simp only [setBitAt, hblk, view, update_self, update_idem, Nat.mod_eq_of_lt hlt, if_true,
      bitmapOf_succ]
  rw [afterAlloc, hset]
  refine update_eq_iff.mpr ⟨?_, fun _ _ => rfl⟩
  rw [view_of_ge hlo]
  exact hzero.symm

end Image

/-- The blocks that a file of `n` bytes has, with its indirect block. -/
def blocksFor (n : ℕ) : ℕ := (n + bSize - 1) / bSize + if nDirect * bSize < n then 1 else 0

theorem blocksFor_eq (n : ℕ) : blocksFor n = (n + 1023) / 1024 + if 12288 < n then 1 else 0 := by
  have h : nDirect * bSize = 12288 := rfl
  rw [blocksFor, h]
  simp only [bSize]
  rfl

/-- The slots that a file of `n` bytes fills. -/
def Reaches (n k : ℕ) : Prop := if k = maxFile then nDirect * bSize < n else k * bSize < n

/-- The file has exactly the blocks for `n` bytes. -/
def Mapped (ip : Dinode) (d : Disk) (n : ℕ) : Prop := ∀ k, ip.slot d k ≠ 0 ↔ Reaches n k

/-- The inode `i` is `ip` in memory, and the image is ready to give it blocks; `din` are the other
inodes. -/
structure Ready (din : ℕ → Dinode) (i : ℕ) (ip : Dinode) (s : Image) : Prop where
  blocks : BlocksOk room (update din i ip) s.view
  lt : i < room.ninodes
  type : ip.type ≠ 0
  le : nmeta ≤ s.freeblock
  sectors : s.sectors = fsSize
  zero : ∀ b, s.freeblock ≤ b → s.disk b = fun _ => 0

/-- The file `i` has got blocks from `freeblock` on and other bytes at the offsets `T`; sectors that
it did not have are as they were. -/
structure Appends (din : ℕ → Dinode) (i : ℕ) (T : ℕ → Prop) (ip : Dinode) (s : Image) (ip' : Dinode)
    (s' : Image) : Prop where
  ready : Ready din i ip' s'
  grown : Grown room i T (update din i ip) s.view (update din i ip') s'.view
  le : s.freeblock ≤ s'.freeblock
  slots : ∀ n, ip'.slot s'.view n = ip.slot s.view n ∨ s.freeblock ≤ ip'.slot s'.view n
  elsewhere : ∀ b < s.freeblock, (∀ n, ip.slot s.view n = b → b = 0) → s'.disk b = s.disk b
  freeinode : s'.freeinode = s.freeinode

section Append

variable {din : ℕ → Dinode} {i : ℕ} {T T' : ℕ → Prop} {ip ip' ip'' : Dinode} {s s' s'' : Image}
  {E : Failure → Prop}

theorem Ready.allocated (h : Ready din i ip s) : Allocated room (update din i ip) i :=
  ⟨h.lt, by rw [update_self]; exact h.type⟩

/-- A slot that is filled holds a sector of the image. -/
theorem Ready.slot_inUse (h : Ready din i ip s) {n : ℕ} (hn : ip.slot s.view n ≠ 0) :
    InUse room s.view (ip.slot s.view n) := by
  have hu := h.blocks.inUse (n := n) h.allocated
  rw [update_self] at hu
  exact hu hn

theorem Ready.slot_lt_freeblock (h : Ready din i ip s) {n : ℕ} (hn : ip.slot s.view n ≠ 0) :
    ip.slot s.view n < s.freeblock := by
  obtain ⟨_, hlt, hbit⟩ := h.slot_inUse hn
  rw [Image.bitAt_view (hlt.trans (by decide))] at hbit
  exact of_decide_eq_true hbit

theorem Ready.slot_lt (h : Ready din i ip s) {n : ℕ} (hn : ip.slot s.view n ≠ 0) :
    ip.slot s.view n < s.sectors := by
  rw [h.sectors]
  exact (h.slot_inUse hn).2.1

namespace Appends

theorem refl (h : Ready din i ip s) : Appends din i T ip s ip s :=
  ⟨h, .refl h.blocks, le_rfl, fun _ => Or.inl rfl, fun _ _ _ => rfl, rfl⟩

theorem trans (h : Appends din i T ip s ip' s') (h' : Appends din i T ip' s' ip'' s'') :
    Appends din i T ip s ip'' s'' where
  ready := h'.ready
  grown := h.grown.trans h'.grown
  le := h.le.trans h'.le
  slots n := by
    rcases h'.slots n with heq | hge
    · rw [heq]
      exact h.slots n
    · exact Or.inr (h.le.trans hge)
  elsewhere b hb hslot := by
    rw [h'.elsewhere b (hb.trans_le h.le), h.elsewhere b hb hslot]
    intro n hn
    rcases h.slots n with heq | hge
    · exact hslot n (heq ▸ hn)
    · omega
  freeinode := h'.freeinode.trans h.freeinode

theorem mono (h : Appends din i T ip s ip' s') (hT : ∀ x, T x → T' x) :
    Appends din i T' ip s ip' s' :=
  { h with grown := h.grown.mono hT }

theorem file (h : Appends din i T ip s ip' s') : FileKept T ip s.view ip' s'.view := by
  have hf := h.grown.file
  rwa [update_self, update_self] at hf

end Appends

/-- The slot `n` of the file has got a block if it was empty. -/
structure Fills (din : ℕ → Dinode) (i n : ℕ) (ip : Dinode) (s : Image) (ip' : Dinode) (s' : Image) :
    Prop where
  appends : Appends din i (fun _ => False) ip s ip' s'
  slots : ∀ k, ip'.slot s'.view k ≠ 0 ↔ ip.slot s.view k ≠ 0 ∨ k = n
  freeblock : s'.freeblock = s.freeblock + if ip.slot s.view n = 0 then 1 else 0

theorem Fills.of_ne {n : ℕ} (h : Ready din i ip s) (hn : ip.slot s.view n ≠ 0) :
    Fills din i n ip s ip s where
  appends := .refl h
  slots k := by
    refine ⟨Or.inl, ?_⟩
    rintro (hk | rfl)
    · exact hk
    · exact hn
  freeblock := by rw [if_neg hn, Nat.add_zero]

/-- A free block goes into the empty slot `n`. -/
theorem Fills.of_slots {n : ℕ} (h : Ready din i ip s) (h0 : ip.slot s.view n = 0)
    (h' : Ready din i ip' s')
    (hg : Grown room i (fun _ => False) (update din i ip) s.view (update din i ip') s'.view)
    (hslot : ∀ k, ip'.slot s'.view k = if k = n then s.freeblock else ip.slot s.view k)
    (hdisk : ∀ b < s.freeblock, (∀ n, ip.slot s.view n = b → b = 0) → s'.disk b = s.disk b)
    (hfree : s'.freeblock = s.freeblock + 1) (hinode : s'.freeinode = s.freeinode) :
    Fills din i n ip s ip' s' where
  appends := by
    refine ⟨h', hg, by omega, fun k => ?_, hdisk, hinode⟩
    rw [hslot]
    split_ifs
    · exact Or.inr le_rfl
    · exact Or.inl rfl
  slots k := by
    have hpos : s.freeblock ≠ 0 := by
      have h1 := h.le
      have h2 : 0 < nmeta := by decide
      omega
    rw [hslot]
    split_ifs with hk
    · exact iff_of_true hpos (Or.inr hk)
    · simp only [hk, or_false]
  freeblock := by rw [hfree, if_pos h0]

/-- The slot of `addrs[k]`. -/
def addrSlot (k : ℕ) : ℕ := if k = nDirect then maxFile else k

theorem slot_addrSlot {k : ℕ} {d : Disk} (hk : k < nDirect + 1) :
    ip.slot d (addrSlot k) = ip.addr k := by
  rw [addrSlot]
  split_ifs with h
  · rw [Dinode.slot, if_pos rfl, h]
  · have hlt : k < nDirect := by omega
    rw [Dinode.slot_of_ne (by simp only [maxFile, nIndirect, bSize, nDirect] at hlt ⊢; omega),
      Dinode.block, if_pos hlt]

theorem fillAddr_spec (h : Ready din i ip s) {k : ℕ} (hk : k < nDirect + 1)
    (hroom : ip.slot s.view (addrSlot k) = 0 → s.freeblock < fsSize) :
    Ends E (fillAddr ip k) s fun ip' s' => Fills din i (addrSlot k) ip s ip' s' ∧ s'.disk = s.disk ∧
      ip' = { ip with addrs := ip'.addrs } := by
  unfold fillAddr
  by_cases h0 : ip.addr k = 0
  · rw [if_pos h0]
    have hempty : ip.slot s.view (addrSlot k) = 0 := (slot_addrSlot hk).trans h0
    have hlt := hroom hempty
    have hfresh := Image.fresh_view h.le hlt
    have hview := Image.afterAlloc_view h.le hlt (h.zero _ le_rfl)
    obtain ⟨hg, -⟩ := h.blocks.setAddr room_wf h.allocated hfresh hk (by rwa [update_self])
    rw [update_self, update_idem, hview] at hg
    have hslot (n : ℕ) : (ip.setAddr k s.freeblock).slot (afterAlloc room s.view s.freeblock) n =
        if n = addrSlot k then s.freeblock else ip.slot s.view n := by
      refine Dinode.slot_setAddr hk (room_wf.lt_two_pow hfresh.2.1) h0 afterAlloc_self fun hne => ?_
      have hadd := h.blocks.afterAlloc_addr room_wf hfresh h.allocated
      rw [update_self] at hadd
      exact hadd hne
    rw [hview] at hslot
    refine .bind
      (.of_eq_ok rfl (.pure ⟨.of_slots h hempty ?_ hg hslot (fun _ _ _ => rfl) rfl rfl, rfl, rfl⟩))
    exact ⟨hg.ok, h.lt, h.type, h.le.trans (Nat.le_succ _), h.sectors, fun b hb =>
      h.zero b (Nat.le_of_succ_le hb)⟩
  · rw [if_neg h0]
    exact .pure ⟨.of_ne h (by rwa [slot_addrSlot hk]), rfl, rfl⟩

theorem rsect_of_lt {sec : ℕ} (h : sec < s.sectors) : rsect sec s = .ok (s.disk sec, s) := by
  show (if sec < s.sectors then _ else _ : MkfsM Block) s = _
  rw [if_pos h]
  rfl

theorem wsect_of_lt {sec : ℕ} {buf : Block} (h : sec < s.sectors) :
    wsect sec buf s = .ok ((), s.write sec buf) := by
  have hmax : max s.sectors (sec + 1) = s.sectors := max_eq_left h
  show Except.ok ((), ({ s with disk := _, sectors := max s.sectors (sec + 1) } : Image)) = _
  rw [hmax, Image.write]

/-- An empty indirect entry gets the next free block. -/
theorem fillEntry_spec (h : Ready din i ip s) (hind : ip.addr nDirect ≠ 0) {j : ℕ}
    (hj : j < nIndirect) (hroom : ip.slot s.view (nDirect + j) = 0 → s.freeblock < fsSize) :
    Ends E (fillEntry (ip.addr nDirect) j) s fun x s' =>
        Fills din i (nDirect + j) ip s ip s' ∧ x = ip.slot s'.view (nDirect + j) := by
  have hslot : ip.slot s.view maxFile = ip.addr nDirect := if_pos rfl
  have huse := h.slot_inUse (n := maxFile) (by rwa [hslot])
  have hsect := h.slot_lt (n := maxFile) (by rwa [hslot])
  rw [hslot] at huse hsect
  have hview : s.view (ip.addr nDirect) = s.disk (ip.addr nDirect) := Image.view_of_ge huse.1
  have hent := Dinode.slot_entry hind hj (d := s.view)
  refine .bind (.of_eq_ok (rsect_of_lt hsect) ?_)
  rw [← hview, ← hent]
  by_cases h0 : ip.slot s.view (nDirect + j) = 0
  · rw [if_pos h0]
    have hlt := hroom h0
    have hfresh := Image.fresh_view h.le hlt
    obtain ⟨hg, -⟩ := h.blocks.setEntry room_wf h.allocated hfresh hj (by rwa [update_self])
      (by rwa [update_self, ← hent]) _ rfl
    have hadd := h.blocks.afterAlloc_addr room_wf hfresh h.allocated
    rw [update_self] at hg hadd
    rw [hadd hind, Image.afterAlloc_view h.le hlt (h.zero _ le_rfl)] at hg
    have hmap : ip.addr nDirect ≠ sb.bmapstart := by
      intro heq
      exact absurd (heq ▸ huse.1) (by decide)
    refine .bind (.of_eq_ok rfl (.bind (.of_eq_ok (wsect_of_lt hsect) (.pure ?_))))
    rw [← Image.view_write (s := { s with freeblock := s.freeblock + 1 }) hmap] at hg
    generalize ht : Image.write { s with freeblock := s.freeblock + 1 } (ip.addr nDirect)
      (setEntryAt (s.view (ip.addr nDirect)) j s.freeblock) = t at hg ⊢
    have hself : t.view (ip.addr nDirect) =
        setEntryAt (s.view (ip.addr nDirect)) j s.freeblock := by
      rw [← ht, Image.view_write hmap, update_self]
    have hslots (n : ℕ) := Dinode.slot_setEntry (n := n) (room_wf.lt_two_pow hlt) hj hind hself
    subst ht
    refine ⟨.of_slots h h0 ⟨hg.ok, h.lt, h.type, h.le.trans (Nat.le_succ _), h.sectors, fun b hb =>
      ?_⟩ hg hslots (fun b _ hb => ?_) rfl rfl, ?_⟩
    · have hlow := h.slot_lt_freeblock (n := maxFile) (by rwa [hslot])
      rw [hslot] at hlow
      refine (update_of_ne (by simp only [Image.write] at hb; omega) ..).trans
        (h.zero b (Nat.le_of_succ_le hb))
    · refine update_of_ne ?_ ..
      rintro rfl
      exact hind (hb maxFile hslot)
    · rw [hslots, if_pos rfl, entryAt_setEntryAt (room_wf.lt_two_pow hlt), if_pos rfl]
  · rw [if_neg h0]
    exact .pure ⟨.of_ne h h0, rfl⟩

/-- The file has exactly the blocks for `n` bytes, and `base` blocks are taken without them. -/
structure Extent (base : ℕ) (ip : Dinode) (s : Image) (n : ℕ) : Prop where
  mapped : Mapped ip s.view n
  freeblock : s.freeblock = base + blocksFor n

section Extent

variable {base off n : ℕ}

theorem blocksFor_mono (h : off ≤ n) : blocksFor off ≤ blocksFor n := by
  rw [blocksFor_eq, blocksFor_eq]
  split_ifs <;> omega

/-- Offsets of one block need the same blocks. -/
theorem reaches_same_block {k : ℕ} (h1 : off < n) (h2 : n ≤ (off / bSize + 1) * bSize) :
    Reaches n k ↔ Reaches (off + 1) k := by
  rw [Reaches, Reaches]
  simp only [bSize, nDirect] at *
  by_cases hk : k = maxFile
  · rw [if_pos hk, if_pos hk]
    omega
  · rw [if_neg hk, if_neg hk]
    omega

theorem blocksFor_same_block (h1 : off < n) (h2 : n ≤ (off / bSize + 1) * bSize) :
    blocksFor n = blocksFor (off + 1) := by
  simp only [bSize] at h2
  rw [blocksFor_eq, blocksFor_eq]
  split_ifs <;> omega

/-- The next byte needs its block, and the indirect block if it is not direct. -/
theorem reaches_succ {k : ℕ} (hoff : off / bSize < maxFile) :
    Reaches (off + 1) k ↔
      Reaches off k ∨ k = off / bSize ∨ nDirect ≤ off / bSize ∧ k = maxFile := by
  rw [Reaches, Reaches]
  simp only [bSize, nDirect] at *
  by_cases hk : k = maxFile
  · rw [if_pos hk, if_pos hk]
    omega
  · rw [if_neg hk, if_neg hk]
    omega

theorem blocksFor_succ (ip : Dinode) (d : Disk) (h : Mapped ip d off)
    (hoff : off / bSize < maxFile) : blocksFor (off + 1) = blocksFor off +
      (if nDirect ≤ off / bSize ∧ ip.slot d maxFile = 0 then 1 else 0) +
        if ip.slot d (off / bSize) = 0 then 1 else 0 := by
  have hb : off / bSize = off / 1024 := rfl
  have h12 : nDirect = 12 := rfl
  have hind : ip.slot d maxFile ≠ 0 ↔ nDirect * bSize < off := by
    simpa only [Reaches, if_pos] using h maxFile
  have hblk : ip.slot d (off / bSize) ≠ 0 ↔ off / bSize * bSize < off := by
    simpa only [Reaches, if_neg hoff.ne] using h (off / bSize)
  change _ ↔ 12288 < off at hind
  change _ ↔ off / 1024 * 1024 < off at hblk
  rw [blocksFor_eq, blocksFor_eq]
  generalize off / bSize = q at *
  split_ifs <;> omega

end Extent

/-- The block of the file is found, or allocated. -/
theorem fileBlock_spec {base off : ℕ} (h : Ready din i ip s) (hext : Extent base ip s off)
    (hoff : off / bSize < maxFile) (hroom : base + blocksFor (off + 1) ≤ fsSize) :
    Ends E (fileBlock ip (off / bSize)) s fun r s' => Appends din i (fun _ => False) ip s r.2 s' ∧
      Extent base r.2 s' (off + 1) ∧ r.1 = r.2.block s'.view (off / bSize) := by
  have hcount := blocksFor_succ ip s.view hext.mapped hoff
  have hfree := hext.freeblock
  unfold fileBlock
  by_cases hdir : off / bSize < nDirect
  · rw [if_pos hdir]
    rw [if_neg (by omega)] at hcount
    have hslot : addrSlot (off / bSize) = off / bSize := if_neg hdir.ne
    refine (fillAddr_spec h (by omega) fun h0 => ?_).andThen ?_
    · rw [hslot] at h0
      rw [if_pos h0] at hcount
      omega
    · rintro ip' s' ⟨hf, -, -⟩
      rw [hslot] at hf
      refine .pure ⟨hf.appends, ⟨fun k => ?_, ?_⟩, ?_⟩
      · rw [hf.slots, hext.mapped, reaches_succ hoff]
        simp only [Nat.not_le.mpr hdir, false_and, or_false]
      · rw [hf.freeblock]
        omega
      · rw [Dinode.block, if_pos hdir]
  · rw [if_neg hdir]
    have hge : nDirect ≤ off / bSize := Nat.le_of_not_lt hdir
    have hslot : addrSlot nDirect = maxFile := if_pos rfl
    simp only [hge, true_and] at hcount
    refine (fillAddr_spec h (k := nDirect) (by omega) fun h0 => ?_).andThen ?_
    · rw [hslot] at h0
      rw [if_pos h0] at hcount
      omega
    · rintro ip' s' ⟨hf, -, -⟩
      rw [hslot] at hf
      have hready := hf.appends.ready
      have hind : ip'.addr nDirect ≠ 0 := by
        rw [← slot_addrSlot (d := s'.view) (by omega), hslot]
        exact (hf.slots maxFile).mpr (Or.inr rfl)
      have hfbn : nDirect + (off / bSize - nDirect) = off / bSize := by omega
      -- filling the indirect block does not fill the entry
      have hempty : ip'.slot s'.view (off / bSize) = 0 ↔ ip.slot s.view (off / bSize) = 0 := by
        have hk := hf.slots (off / bSize)
        simp only [hoff.ne, or_false] at hk
        exact not_iff_not.mp hk
      have hent := fillEntry_spec (E := E) (j := off / bSize - nDirect) hready hind
        (by rw [maxFile] at hoff; omega)
      rw [hfbn, hempty] at hent
      refine (hent fun h0 => ?_).andThen ?_
      · rw [if_pos h0] at hcount
        rw [hf.freeblock]
        omega
      · rintro x s'' ⟨hf', rfl⟩
        refine .pure ⟨hf.appends.trans hf'.appends, ⟨fun k => ?_, ?_⟩, Dinode.slot_of_ne hoff.ne⟩
        · rw [hf'.slots, hf.slots, hext.mapped, reaches_succ hoff]
          simp only [hge, true_and]
          tauto
        · rw [hf'.freeblock, hf.freeblock]
          simp only [hempty]
          omega

/-- A block of the file is changed in memory and written back. -/
theorem Appends.write {bn : ℕ} {data : Block} (h : Ready din i ip s) (hbn : ip.block s.view bn ≠ 0)
    (hdata : ∀ k < bSize, ¬ T (bn * bSize + k) → data k = s.view (ip.block s.view bn) k) :
    Appends din i T ip s ip (s.write (ip.block s.view bn) data) ∧
      (∀ n, ip.slot (s.write (ip.block s.view bn) data).view n = ip.slot s.view n) ∧
      (s.write (ip.block s.view bn) data).view = update s.view (ip.block s.view bn) data := by
  have hslot := Dinode.slot_of_block hbn
  have huse := h.slot_inUse (n := bn) (by rwa [hslot])
  have hlow := h.slot_lt_freeblock (n := bn) (by rwa [hslot])
  rw [hslot] at huse hlow
  have hmap : ip.block s.view bn ≠ sb.bmapstart := by
    intro heq
    exact absurd (heq ▸ huse.1) (by decide)
  have hview : (s.write (ip.block s.view bn) data).view = update s.view (ip.block s.view bn) data :=
    Image.view_write hmap
  have hip : update din i ip i = ip := update_self ..
  have hdata' : ∀ k < bSize, ¬ T (bn * bSize + k) →
      data k = s.view ((update din i ip i).block s.view bn) k := by
    rwa [hip]
  have hg := h.blocks.write room_wf h.allocated (by rwa [hip]) hdata'
  rw [hip, ← hview] at hg
  have hslots (n : ℕ) : ip.slot (s.write (ip.block s.view bn) data).view n = ip.slot s.view n := by
    refine Dinode.slot_congr (fun _ => rfl) fun _ => ?_
    have hne := h.blocks.addr_ne_block (n := bn) h.allocated h.allocated
    rw [update_self] at hne
    rw [hview, update_of_ne (hne hbn)]
  refine ⟨⟨⟨hg.ok, h.lt, h.type, h.le, h.sectors, fun b hb => ?_⟩, hg, le_rfl,
    fun n => Or.inl (hslots n), fun b _ hb => ?_, rfl⟩, hslots, hview⟩
  · exact (update_of_ne (by simp only [Image.write] at hb; omega) ..).trans (h.zero b hb)
  · refine update_of_ne ?_ ..
    rintro rfl
    exact hbn (hb bn hslot)

/-- A round of `iappend` writes a nonempty first part of the data. -/
theorem iappendRound_spec {base off : ℕ} {p : List Byte} (h : Ready din i ip s)
    (hext : Extent base ip s off) (hp : 0 < p.length) (hmax : off + p.length ≤ maxFile * bSize)
    (hroom : base + blocksFor (off + p.length) ≤ fsSize) :
    Ends E (iappendRound ip off p) s fun r s' =>
      0 < r.2 ∧ r.2 ≤ p.length ∧ Appends din i (fun x => off ≤ x ∧ x < off + r.2) ip s r.1 s' ∧
      Extent base r.1 s' (off + r.2) ∧
      (∀ x, off ≤ x → x < off + r.2 →
        r.1.block s'.view (x / bSize) ≠ 0 ∧ p[x - off]? = some (r.1.byte s'.view x)) := by
  have hoff : off / bSize < maxFile := by
    rw [Nat.div_lt_iff_lt_mul (by norm_num [bSize])]
    omega
  have hmod : off % bSize < bSize := Nat.mod_lt _ (by norm_num [bSize])
  have hdm : off / bSize * bSize + off % bSize = off := Nat.div_add_mod' ..
  have hone : base + blocksFor (off + 1) ≤ fsSize :=
    le_trans (Nat.add_le_add_left (blocksFor_mono (by omega)) _) hroom
  unfold iappendRound
  rw [if_pos hoff]
  refine (fileBlock_spec h hext hoff hone).andThen ?_
  rintro ⟨x, ip₁⟩ s₁ ⟨ha, hext₁, hx⟩
  simp only at ha hext₁ hx ⊢
  subst hx
  generalize hm : min p.length ((off / bSize + 1) * bSize - off) = m
  rw [Nat.add_mul, Nat.one_mul] at hm
  have hstart : off - off / bSize * bSize = off % bSize := by omega
  have hlen : (p.take m).length = m := by
    rw [List.length_take]
    omega
  have h0 : ip₁.block s₁.view (off / bSize) ≠ 0 := by
    rw [← Dinode.slot_of_ne hoff.ne, hext₁.mapped, Reaches, if_neg hoff.ne]
    omega
  have huse := ha.ready.slot_inUse (n := off / bSize) (by rwa [Dinode.slot_of_block h0])
  have hsect := ha.ready.slot_lt (n := off / bSize) (by rwa [Dinode.slot_of_block h0])
  rw [Dinode.slot_of_block h0] at huse hsect
  have hput (k : ℕ) (hk : k < bSize)
      (hT : ¬ (off ≤ off / bSize * bSize + k ∧ off / bSize * bSize + k < off + m)) :
      put (s₁.view (ip₁.block s₁.view (off / bSize))) (off % bSize) (p.take m) k =
      s₁.view (ip₁.block s₁.view (off / bSize)) k :=
    put_apply_of_disjoint (by rw [hlen]; omega)
  obtain ⟨hw, hslots, hview⟩ := Appends.write (T := fun x => off ≤ x ∧ x < off + m) ha.ready h0 hput
  refine .bind (.of_eq_ok (rsect_of_lt hsect) (.bind (.of_eq_ok (wsect_of_lt hsect) (.pure ?_))))
  rw [hstart, ← Image.view_of_ge huse.1]
  refine ⟨by omega, by omega, (ha.mono fun _ => False.elim).trans hw, ?_, fun x h1 h2 => ?_⟩
  · have hblock : off + m ≤ (off / bSize + 1) * bSize := by
      rw [Nat.add_mul]
      omega
    refine ⟨fun k => ?_, hext₁.freeblock.trans (by rw [blocksFor_same_block (by omega) hblock])⟩
    rw [hslots, hext₁.mapped, reaches_same_block (by omega) hblock]
  · have hfile := hw.file
    rw [hview] at hfile ⊢
    have hbyte := byte_of_write (x := x) rfl h0 (by omega) hfile h1 (by omega)
    rwa [List.getElem?_take, if_pos (by omega)] at hbyte

/-- The loop of `iappend` writes the bytes after those that the file has. -/
theorem iappendLoop_spec {base fuel : ℕ} :
    ∀ {ip : Dinode} {s : Image} {off : ℕ} {p : List Byte}, Ready din i ip s →
      Extent base ip s off → p.length ≤ fuel →
      off + p.length ≤ maxFile * bSize → base + blocksFor (off + p.length) ≤ fsSize →
      Ends E (iappendLoop fuel ip off p) s fun r s' =>
        r.2 = off + p.length ∧ Appends din i (fun x => off ≤ x ∧ x < off + p.length) ip s r.1 s' ∧
        Extent base r.1 s' (off + p.length) ∧
        (∀ x, off ≤ x → x < off + p.length → p[x - off]? = some (r.1.byte s'.view x)) := by
  induction fuel with
  | zero =>
    intro ip s off p h hext hfuel _ _
    obtain rfl : p = [] := List.length_eq_zero_iff.mp (by omega)
    exact .pure ⟨rfl, .refl h, hext, fun x h1 h2 => absurd h2 (by rw [List.length_nil]; omega)⟩
  | succ fuel ih =>
    intro ip s off p h hext hfuel hmax hroom
    unfold iappendLoop
    by_cases hp : 0 < p.length
    · rw [if_pos hp]
      refine (iappendRound_spec h hext hp hmax hroom).andThen ?_
      rintro ⟨ip₁, m⟩ s₁ ⟨hpos, hle, ha, hext₁, hbytes₁⟩
      simp only at hpos hle ha hext₁ hbytes₁ ⊢
      have hrest : off + m + (p.drop m).length = off + p.length := by
        rw [List.length_drop]
        omega
      have hrec := ih ha.ready hext₁ (p := p.drop m)
        (by rw [List.length_drop]; omega) (by omega) (by rwa [hrest])
      rw [hrest] at hrec
      refine hrec.mono ?_
      rintro ⟨ip', off'⟩ s' ⟨hoff', ha', hext', hbytes⟩
      refine ⟨hoff', (ha.mono ?_).trans (ha'.mono ?_), hext', fun x h1 h2 => ?_⟩
      · rintro x ⟨h1, h2⟩
        exact ⟨h1, by omega⟩
      · rintro x ⟨h1, h2⟩
        exact ⟨by omega, h2⟩
      · by_cases hx : x < off + m
        · -- the later rounds do not touch the bytes of this one
          obtain ⟨hne, hbyte⟩ := hbytes₁ x h1 hx
          rw [hbyte, ha'.file.byte_eq hne fun hT => absurd hT.1 (by omega)]
        · have hbyte := hbytes x (by omega) h2
          rwa [List.getElem?_drop, show m + (x - (off + m)) = x - off by omega] at hbyte
    · obtain rfl : p = [] := List.length_eq_zero_iff.mp (by omega)
      rw [if_neg hp]
      exact .pure ⟨rfl, .refl h, hext, fun x h1 h2 => absurd h2 (by rw [List.length_nil]; omega)⟩

end Append

end NeulaCpu.Xv6.Mkfs

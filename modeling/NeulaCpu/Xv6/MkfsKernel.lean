import NeulaCpu.Xv6.Directories
import NeulaCpu.Xv6.MkfsImage

/-!
# The kernel on an image of `mkfs`

What the kernel relies on: the super block, inodes without missing blocks, blocks that belong to one
file each, and a bitmap that marks what is used; and that a lookup in the root directory and a read
find the files. `mkfs` rounds the size of the root directory up to the next multiple of a block,
also if it is one already; then the last block is missing.
-/

namespace NeulaCpu.Xv6.Mkfs

open ByteStore Outcome Fs Function

/-- The blocks that are used at the end, which is the final `freeblock`. -/
def usedBlocks (files : List HostFile) : ℕ := total (contents files)

/-- The files fit on an image, and their names differ in the bytes that a directory keeps. -/
structure Fits (files : List HostFile) : Prop where
  names : (files.map fun f => strncpy dirSiz f.name).Nodup
  count : files.length < nInodes
  sizes : ∀ f ∈ files, f.bytes.length ≤ maxFile * bSize
  blocks : usedBlocks files ≤ fsSize

/-- An inode that is allocated on the image. -/
def OnImage (img : Disk) (i : ℕ) : Prop := i < ninodeblocks * ipb ∧ (dinodeAt sb img i).type ≠ 0

/-- A state of the kernel on the image, with the root directory locked and a free entry in the inode
table. -/
structure Mounted (img : Disk) (s : Fs) : Prop where
  disk : s.disk = img
  copies : ∀ i, s.Loaded i → (s.inode i).copy = dinodeAt sb img i
  root : s.Loaded rootIno
  room : s.used < nInode

/-- The file under the name is inode `i`, and its whole size reads as `bytes`. -/
def Reads (s : Fs) (name : List Byte) (i : ℕ) (bytes : List Byte) : Prop :=
  ∃ off t u, Fs.dirlookup sb rootIno name s = .ok (some (i, off), t) ∧
    Fs.ilock sb i t = .ok ((), u) ∧
    Fs.readi sb i .kernel 0 (dinodeAt sb s.disk i).size.toNat u = .ok ((bytes.length, bytes), u)

/-- The image is what the kernel expects. -/
structure ImageOk (files : List HostFile) (img : Disk) (freeblock : ℕ) : Prop where
  super : readsb img = sb
  full : ∀ i, OnImage img i → ∀ bn, bn * bSize < (dinodeAt sb img i).size.toNat →
    (dinodeAt sb img i).block img bn ≠ 0
  inRange : ∀ i, OnImage img i → ∀ n, (dinodeAt sb img i).slot img n ≠ 0 →
    nmeta ≤ (dinodeAt sb img i).slot img n ∧ (dinodeAt sb img i).slot img n < freeblock
  distinct : ∀ i j, OnImage img i → OnImage img j → ∀ n m, (dinodeAt sb img i).slot img n ≠ 0 →
    (dinodeAt sb img j).slot img m = (dinodeAt sb img i).slot img n → j = i ∧ m = n
  bitmap : ∀ b < bpb, bitAt sb img b = decide (b < freeblock)
  reads :
    ∀ s, Mounted img s → ∀ k (hk : k < files.length), Reads s files[k].name (k + 2) files[k].bytes

theorem Fits.lt_ninodes {files : List HostFile} (fits : Fits files) :
    files.length + 1 < room.ninodes :=
  Nat.lt_of_le_of_lt (Nat.succ_le_of_lt fits.count) (by decide)

section Image

variable {files : List HostFile} {s t : Image} {k : ℕ}

/-- The disk of the kernel. -/
def final (s : Image) : Disk := setDinode room s.view rootIno (fixedRoot s.view)

theorem final_of_ge {b : ℕ} (hb : nmeta ≤ b) : final s b = s.view b :=
  setDinode_data room_wf (by decide) hb

theorem dinodeAt_final :
    dinodeAt room (final s) = Function.update (dinodeAt room s.view) rootIno (fixedRoot s.view) :=
  dinodeAt_setDinode

theorem dinodeAt_final_root : dinodeAt sb (final s) rootIno = fixedRoot s.view := by
  have heq : dinodeAt sb (final s) rootIno = dinodeAt room (final s) rootIno := rfl
  rw [heq, dinodeAt_final, update_self]

theorem blocks_final (h : Stored (contents files) s) :
    BlocksOk room (dinodeAt room (final s)) (final s) := by
  rw [dinodeAt_final]
  have hup : BlocksOk room
      (Function.update (dinodeAt room s.view) rootIno (fixedRoot s.view)) s.view :=
    (Built.blocks h).update rfl rfl
  exact hup.setDinode room_wf (by decide)

theorem bitAt_final {b : ℕ} (hb : b < bpb) : bitAt room (final s) b = decide (b < s.freeblock) := by
  rw [← Image.bitAt_view hb]
  exact bitAt_setDinode room_wf (by decide)

/-- The inodes other than the root directory. -/
theorem holds_final (h : Stored (contents files) s) (hk : k < files.length) :
    Holds ⟨tFile, files[k].bytes⟩ (dinodeAt room (final s) (k + 2)) (final s) := by
  have hlen : k + 1 < (contents files).length := by
    rw [length_contents]
    omega
  have hhold := Built.holds h (k + 1) hlen
  have hget : (contents files)[k + 1] = ⟨tFile, files[k].bytes⟩ := by
    simp only [contents, List.getElem_cons_succ, List.getElem_map]
  rw [hget] at hhold
  rw [dinodeAt_final, update_of_ne (by simp only [rootIno]; omega)]
  exact hhold.of_data fun n hn => final_of_ge (Built.slot_bounds h hlen hn).1

/-- The root directory before its size is rounded up. -/
theorem holds_root (h : Stored (contents files) s) :
    Holds ⟨tDir, (dirents files).flatMap Dirent.bytes⟩ (dinodeAt room s.view rootIno)
      (final s) := by
  have hlen : 0 < (contents files).length := by
    rw [length_contents]
    omega
  exact (Built.holds h 0 hlen).of_data fun n hn => final_of_ge (Built.slot_bounds h hlen hn).1

theorem block_fixedRoot {d : Disk} {n : ℕ} :
    (fixedRoot s.view).block d n = (dinodeAt room s.view rootIno).block d n :=
  Dinode.block_congr (fun _ => rfl) fun _ => rfl

section

variable (h : Stored (contents files) s)

include h

theorem size_fixedRoot (hcount : files.length + 1 < room.ninodes) :
    (fixedRoot s.view).size.toNat = ((files.length + 2) * direntSize / bSize + 1) * bSize := by
  have hsize := (holds_root h).size
  rw [length_rootBytes] at hsize
  have hlt : ((files.length + 2) * direntSize / bSize + 1) * bSize < 2 ^ 32 := by
    have hn : room.ninodes = 208 := rfl
    simp only [direntSize, bSize]
    omega
  show (BitVec.ofNat 32 _).toNat = _
  rw [hsize]
  exact Nat.mod_eq_of_lt hlt

/-- The blocks that the root directory has. -/
theorem block_fixedRoot_ne_iff {bn : ℕ} (hbn : bn < maxFile) :
    (fixedRoot s.view).block (final s) bn ≠ 0 ↔ bn * bSize < (files.length + 2) * direntSize := by
  have hmapped := (holds_root h).mapped
  rw [length_rootBytes] at hmapped
  rw [block_fixedRoot, ← Dinode.slot_of_ne hbn.ne, hmapped, Reaches, if_neg hbn.ne]

/-- The rounded size reaches past the blocks of the directory exactly if it was a multiple of a
block. -/
theorem full_fixedRoot_iff (hcount : files.length + 1 < room.ninodes) :
    (fixedRoot s.view).Full (final s) ↔ (files.length + 2) % 64 ≠ 0 := by
  have hblock (bn : ℕ) (hbn : bn < maxFile) := block_fixedRoot_ne_iff h hbn
  have hn : room.ninodes = 208 := rfl
  have hm : maxFile = 268 := rfl
  rw [Dinode.Full, size_fixedRoot h hcount]
  simp only [direntSize, bSize] at hblock ⊢
  constructor
  · intro hfull h64
    have h0 := hfull ((files.length + 2) * 16 / 1024) (by omega)
    rw [hblock _ (by omega)] at h0
    omega
  · intro h64 bn hbn
    rw [hblock bn (by omega)]
    omega

theorem readsb_final : readsb (final s) = sb := by
  have hone : final s 1 = put (fun _ => 0) 0 (sb.words.flatMap le32) := by
    rw [final, setDinode_apply_of_ne (by decide), Image.view_of_ne (by decide), Built.super h]
  rw [readsb, hone]
  decide

end

/-- Chunks of one length, one after the other. -/
theorem getElem?_flatMap_of_length {α β : Type} {g : α → List β} {n : ℕ} {l : List α}
    (h : ∀ a ∈ l, (g a).length = n) {j : ℕ} (hk : k < l.length) (hj : j < n) :
    (l.flatMap g)[k * n + j]? = (g l[k])[j]? := by
  induction l generalizing k with
  | nil => exact absurd hk (Nat.not_lt_zero k)
  | cons a l ih =>
    have ha := h a List.mem_cons_self
    rw [List.flatMap_cons]
    cases k with
    | zero => rw [List.getElem?_append_left (by omega), Nat.zero_mul, Nat.zero_add,
      List.getElem_cons_zero]
    | succ k =>
      have hidx : (k + 1) * n + j - (g a).length = k * n + j := by
        rw [ha, Nat.succ_mul]
        omega
      rw [List.getElem?_append_right (by rw [ha, Nat.succ_mul]; omega), hidx,
        ih (fun b hb => h b (.tail _ hb)) (Nat.lt_of_succ_lt_succ hk), List.getElem_cons_succ]

theorem inum_lt {de : Dirent} (hcount : files.length + 1 < room.ninodes) (h : de ∈ dirents files) :
    de.inum ≠ 0 ∧ de.inum < 2 ^ 16 := by
  have hn : room.ninodes = 208 := rfl
  rcases List.mem_cons.mp h with rfl | h
  · decide
  rcases List.mem_cons.mp h with rfl | h
  · decide
  obtain ⟨k, hk, rfl⟩ := List.mem_mapIdx.mp h
  exact ⟨Nat.succ_ne_zero _, by simp only; omega⟩

/-- The entries of the root directory on the image. -/
theorem ent_fixedRoot (h : Stored (contents files) s) (hcount : files.length + 1 < room.ninodes)
    (hk : k < (dirents files).length) :
    (fixedRoot s.view).ent (final s) k = (dirents files)[k] := by
  have hmem := List.getElem_mem hk
  have hlen := length_bytes_of_mem hmem
  have hbytes := (holds_root h).bytes
  have hcard : (dirents files).length = files.length + 2 := length_dirents
  rw [length_rootBytes, ← hcard] at hbytes
  have hget : ByteStore.get ((fixedRoot s.view).byte (final s)) (k * direntSize) direntSize =
      (dirents files)[k].bytes := by
    rw [← hlen]
    refine get_eq_of_getElem? fun j hj => ?_
    rw [hlen] at hj ⊢
    have hx := hbytes (k * direntSize + j) (by simp only [direntSize] at hj ⊢; omega)
    rwa [getElem?_flatMap_of_length (fun de hde => length_bytes_of_mem hde) hk hj] at hx
  rw [Dinode.ent, hget, Dirent.ofBytes_bytes (inum_lt hcount hmem).2]

theorem Holds.full {c : Content} {ip : Dinode} {d : Disk} (h : Holds c ip d) : ip.Full d := by
  intro bn hbn
  rw [h.size] at hbn
  have hne := h.block_ne hbn
  rwa [Nat.mul_div_cancel _ (by norm_num [bSize])] at hne

end Image

section Kernel

variable {files : List HostFile} {s : Image} {f : Fs} {i k : ℕ} {E : FsPanic → Prop}
  {name : List Byte}

theorem iget_of_room (hroom : f.used < nInode) :
    Ends E (Fs.iget i) f fun _ t => t.disk = f.disk ∧ 0 < (t.inode i).ref ∧
      ((t.inode i).valid = true → f.Loaded i ∧ (t.inode i).copy = (f.inode i).copy) := by
  refine .bind (.get ?_)
  by_cases href : 0 < (f.inode i).ref
  · rw [if_pos href]
    refine .set ⟨rfl, ?_, ?_⟩
    · simp only [Fs.setInode, update_self]
      exact Nat.succ_pos _
    · simp only [Fs.setInode, update_self]
      exact fun hv => ⟨⟨href, hv⟩, trivial⟩
  · rw [if_neg href, if_pos hroom]
    refine .set ⟨rfl, ?_, ?_⟩
    · simp only [Fs.setInode, update_self, Nat.one_pos]
    · simp only [Fs.setInode, update_self, Bool.false_eq_true, false_imp_iff]

theorem ilock_of_copy (href : 0 < (f.inode i).ref)
    (hcopy : (f.inode i).valid = true → (f.inode i).copy = dinodeAt sb f.disk i)
    (htype : (dinodeAt sb f.disk i).type ≠ 0) :
    Ends E (Fs.ilock sb i) f fun _ u =>
      u.disk = f.disk ∧ (u.inode i).copy = dinodeAt sb f.disk i := by
  refine .bind (.get ?_)
  rw [if_neg (Nat.not_lt.mpr href)]
  by_cases hv : (f.inode i).valid = true
  · rw [if_pos hv]
    exact .pure ⟨rfl, hcopy hv⟩
  · rw [if_neg hv]
    refine .bind (.set ?_)
    rw [if_neg htype]
    refine .pure ⟨rfl, ?_⟩
    simp only [Fs.setInode, update_self]

/-- The entries of the root directory that have a name. -/
theorem names_iff (hcount : files.length + 1 < room.ninodes) {de : Dirent}
    (h : de ∈ dirents files) : de.Names name ↔ strncpy dirSiz name = de.name := by
  have hstr : ∃ q, de.name = strncpy dirSiz q := by
    rcases List.mem_cons.mp h with rfl | h
    · exact ⟨_, rfl⟩
    rcases List.mem_cons.mp h with rfl | h
    · exact ⟨_, rfl⟩
    obtain ⟨k, hk, rfl⟩ := List.mem_mapIdx.mp h
    exact ⟨_, rfl⟩
  obtain ⟨q, hq⟩ := hstr
  rw [Dirent.Names, and_iff_right (inum_lt hcount h).1, hq, namecmp_strncpy, namecmp,
    strncmp_eq_zero_iff]

theorem copy_root (hm : Mounted (final s) f) : (f.inode rootIno).copy = fixedRoot s.view := by
  rw [hm.copies _ hm.root, dinodeAt_final_root]

section

variable (h : Stored (contents files) s) (hcount : files.length + 1 < room.ninodes)
  (h64 : (files.length + 2) % 64 ≠ 0) (hm : Mounted (final s) f)

include h hcount h64 hm

/-- `dirlookup` in the root directory stops at the first entry with the name. -/
theorem dirlookup_final (hk : k < (dirents files).length) (hname : (dirents files)[k].Names name)
    (hfirst : ∀ j (hj : j < (dirents files).length), j < k → ¬ (dirents files)[j].Names name) :
    Ends E (Fs.dirlookup sb rootIno name) f fun r t =>
      r = some ((dirents files)[k].inum, k * direntSize) ∧ t.disk = f.disk ∧
        0 < (t.inode (dirents files)[k].inum).ref ∧
      ((t.inode (dirents files)[k].inum).valid = true → f.Loaded (dirents files)[k].inum ∧
        (t.inode (dirents files)[k].inum).copy = (f.inode (dirents files)[k].inum).copy) := by
  have hcopy := copy_root hm
  have hsize := size_fixedRoot h hcount
  have hfull : (f.inode rootIno).copy.Full f.disk := by
    rw [hcopy, hm.disk]
    exact (full_fixedRoot_iff h hcount).mpr h64
  have hlen : (dirents files).length = files.length + 2 := length_dirents
  have hdir : (f.inode rootIno).copy.type = tDir := by
    rw [hcopy]
    exact (holds_root h).type
  have hread : f.Readable rootIno := ⟨hfull, hdir⟩
  have hcount' := hread.length_entries
  rw [hcopy, hsize] at hcount'
  have hent {j : ℕ} (hj : j < (dirents files).length) :
      (f.entries rootIno)[j]? = some (dirents files)[j] := by
    have hj' : j < (f.entries rootIno).length := by
      simp only [direntSize, bSize] at hcount'
      omega
    rw [List.getElem?_eq_getElem hj', Option.some.injEq]
    refine (Dinode.getElem_ents hdir hj').trans ?_
    rw [hcopy, hm.disk]
    exact ent_fixedRoot h hcount hj
  refine Fs.dirlookup_wp hread (fun hcut => ?_) (fun hnone _ => ?_) fun j de hde hname' hbefore =>
    ?_
  · rw [hcopy, hsize] at hcut
    simp only [direntSize, bSize] at hcut
    omega
  · exact absurd hname (hnone _ (List.mem_of_getElem? (hent hk)))
  · -- the entry that was found is the entry `k`
    obtain hjk | rfl | hkj := lt_trichotomy j k
    · obtain rfl := Option.some.inj ((hent (hjk.trans hk)).symm.trans hde)
      exact absurd hname' (hfirst j (hjk.trans hk) hjk)
    · obtain rfl := Option.some.inj ((hent hk).symm.trans hde)
      exact (iget_of_room hm.room).mono fun _ t ht => ⟨rfl, ht⟩
    · exact absurd hname (hbefore k hkj _ (hent hk))

/-- A file that no earlier entry hides is read back. -/
theorem reads_final (hk : k < files.length)
    (hfirst : ∀ j (hj : j < (dirents files).length), j < k + 2 →
    ¬ (dirents files)[j].Names files[k].name) :
    Reads f files[k].name (k + 2) files[k].bytes := by
  have hk2 : k + 2 < (dirents files).length := by
    rw [length_dirents]
    omega
  have hget : (dirents files)[k + 2] = ⟨k + 2, strncpy dirSiz files[k].name⟩ := by
    simp only [dirents, List.getElem_cons_succ, List.getElem_mapIdx]
  have hname : (dirents files)[k + 2].Names files[k].name := by
    rw [names_iff hcount (List.getElem_mem hk2), hget]
  have hlook := dirlookup_final (E := fun _ => False) h hcount h64 hm hk2 hname hfirst
  rw [hget] at hlook
  obtain ⟨_, t, hlook, rfl, hdisk, href, hvalid⟩ := hlook.exists_ok
  have hhold : Holds ⟨tFile, files[k].bytes⟩ (dinodeAt sb f.disk (k + 2)) f.disk := by
    rw [hm.disk]
    exact holds_final h hk
  have hcopy (hv : (t.inode (k + 2)).valid = true) :
      (t.inode (k + 2)).copy = dinodeAt sb t.disk (k + 2) := by
    obtain ⟨hload, hc⟩ := hvalid hv
    rw [hc, hm.copies _ hload, hdisk, hm.disk]
  have htype : (dinodeAt sb t.disk (k + 2)).type ≠ 0 := by
    rw [hdisk, hhold.type]
    simp [tFile]
  obtain ⟨_, u, hlock, hdisk', hcopy'⟩ :=
    (ilock_of_copy (E := fun _ => False) href hcopy htype).exists_ok
  rw [hdisk] at hdisk' hcopy'
  have hfull : (u.inode (k + 2)).copy.Full u.disk := by
    rw [hcopy', hdisk']
    exact hhold.full
  have hle := hhold.le
  have hsize := hhold.size
  simp only [maxFile, nIndirect, nDirect, bSize] at hle hsize
  have hlt : (dinodeAt sb f.disk (k + 2)).size.toNat < 2 ^ 32 := by omega
  obtain ⟨⟨r, bytes⟩, v, hread, rfl, hr⟩ :=
    (@Fs.readi_of_full sb u (k + 2) (fun _ => False) hfull .kernel 0 _ hlt).exists_ok
  obtain ⟨hr, hbytes⟩ := hr (fun _ => rfl) (Nat.zero_le _) (by omega)
  simp only [hcopy', hdisk', Nat.sub_zero, min_self, hsize] at hr hbytes
  refine ⟨_, t, v, hlook, hlock, ?_⟩
  rw [hread, hr, hbytes,
    get_eq_of_getElem? fun j hj => by rw [Nat.zero_add]; exact hhold.bytes j hj]

end

/-- The first entries with the name of a file are its own, unless it is called `.` or `..`. -/
theorem first_name (fits : Fits files) (hk : k < files.length)
    (hdot : namecmp files[k].name dot ≠ 0) (hdotdot : namecmp files[k].name dotdot ≠ 0) {j : ℕ}
    (hj : j < (dirents files).length) (hjk : j < k + 2) :
    ¬ (dirents files)[j].Names files[k].name := by
  rw [names_iff fits.lt_ninodes (List.getElem_mem hj)]
  rw [namecmp, ne_eq, strncmp_eq_zero_iff] at hdot hdotdot
  rcases j with _ | _ | j
  · exact hdot
  · exact hdotdot
  · intro heq
    have hjlt : j < files.length := by omega
    have hget : (dirents files)[j + 2].name = strncpy dirSiz files[j].name := by
      simp only [dirents, List.getElem_cons_succ, List.getElem_mapIdx]
    have hinj := List.inj_on_of_nodup_map fits.names (List.getElem_mem hjlt) (List.getElem_mem hk)
      (hget.symm.trans heq.symm)
    have hjk' := (List.Nodup.getElem_inj_iff (List.Nodup.of_map _ fits.names)).mp hinj
    omega

theorem onImage_cases (h : Stored (contents files) s) (hi : OnImage (final s) i) :
    i = rootIno ∨ ∃ k, k < files.length ∧ i = k + 2 := by
  by_cases hroot : i = rootIno
  · exact Or.inl hroot
  have htype : (dinodeAt room (final s) i).type ≠ 0 := hi.2
  rw [dinodeAt_final, update_of_ne hroot] at htype
  have hfree := Built.free h i hi.1
  rw [length_contents] at hfree
  have hrange : ¬ (i = 0 ∨ files.length + 1 < i) := fun hout => htype (hfree hout)
  have h1 : rootIno = 1 := rfl
  exact Or.inr ⟨i - 2, by omega, by omega⟩

theorem imageOk_final (h : Stored (contents files) s) (fits : Fits files)
    (hnames : ∀ f ∈ files, namecmp f.name dot ≠ 0 ∧ namecmp f.name dotdot ≠ 0)
    (h64 : (files.length + 2) % 64 ≠ 0) :
    ImageOk files (final s) s.freeblock where
  super := readsb_final h
  full i hi := by
    rcases onImage_cases h hi with rfl | ⟨k, hk, rfl⟩
    · rw [dinodeAt_final_root]
      exact (full_fixedRoot_iff h fits.lt_ninodes).mpr h64
    · exact (holds_final h hk).full
  inRange i hi n hn := by
    obtain ⟨hge, hlt, hbit⟩ := (blocks_final h).inUse hi hn
    rw [bitAt_final (hlt.trans (by decide))] at hbit
    exact ⟨hge, of_decide_eq_true hbit⟩
  distinct i j hi hj n m hn heq := (blocks_final h).slot_inj hi hj hn heq
  bitmap b hb := bitAt_final hb
  reads f hm k hk := by
    obtain ⟨hdot, hdotdot⟩ := hnames _ (List.getElem_mem hk)
    exact reads_final h fits.lt_ninodes h64 hm hk fun j hj => first_name fits hk hdot hdotdot hj

/-- The kernel after `iget` and `ilock` of the root directory. -/
def rootLocked (img : Disk) : Fs :=
  ⟨img, Function.update (fun _ => ⟨0, false, Dinode.zero⟩) rootIno ⟨1, true,
    dinodeAt sb img rootIno⟩, 1⟩

theorem mounted_rootLocked {img : Disk} : Mounted img (rootLocked img) where
  disk := rfl
  copies i hi := by
    by_cases hroot : i = rootIno
    · subst hroot
      simp only [rootLocked, update_self]
    · have href := hi.1
      simp only [Fs.refs, rootLocked, update_of_ne hroot] at href
      exact absurd href (Nat.lt_irrefl 0)
  root := by
    refine ⟨?_, ?_⟩
    · simp only [Fs.refs, rootLocked, update_self, Nat.one_pos]
    · simp only [rootLocked, update_self]
  room := Nat.lt_of_lt_of_le (Nat.one_lt_two) (by decide)

/-- A file that is called `.` or `..` is not found. -/
theorem names_of_imageOk (h : Stored (contents files) s) (fits : Fits files)
    (h64 : (files.length + 2) % 64 ≠ 0) {b : ℕ} (ok : ImageOk files (final s) b)
    (hk : k < files.length) :
    namecmp files[k].name dot ≠ 0 ∧ namecmp files[k].name dotdot ≠ 0 := by
  have hcount := fits.lt_ninodes
  have hlen : (dirents files).length = files.length + 2 := length_dirents
  obtain ⟨off, t, _, hlook, _⟩ := ok.reads _ mounted_rootLocked k hk
  -- an entry of the root directory for itself would be found first
  have hself {m : ℕ} (hm : m < (dirents files).length)
      (hname : (dirents files)[m].Names files[k].name)
      (hfirst : ∀ j (hj : j < (dirents files).length), j < m →
          ¬ (dirents files)[j].Names files[k].name)
      (hroot : (dirents files)[m].inum = rootIno) : False := by
    have hend :=
      dirlookup_final (E := fun _ => True) h hcount h64 mounted_rootLocked hm hname hfirst
    have heq := (hend.of_ok hlook).1
    rw [hroot, Option.some.injEq, Prod.mk.injEq] at heq
    exact absurd heq.1 (by simp only [rootIno]; omega)
  have h0 : 0 < (dirents files).length := by omega
  have h1 : 1 < (dirents files).length := by omega
  have hdot : namecmp files[k].name dot ≠ 0 := by
    intro heq
    rw [namecmp, strncmp_eq_zero_iff] at heq
    exact hself h0 ((names_iff hcount (List.getElem_mem h0)).mpr heq) (fun j _ hj =>
      absurd hj (Nat.not_lt_zero j)) rfl
  refine ⟨hdot, fun heq => ?_⟩
  rw [namecmp, strncmp_eq_zero_iff] at heq
  refine hself h1 ((names_iff hcount (List.getElem_mem h1)).mpr heq) (fun j hj hj1 => ?_) rfl
  obtain rfl : j = 0 := by omega
  rw [names_iff hcount (List.getElem_mem h0)]
  intro heq'
  exact hdot ((strncmp_eq_zero_iff ..).mpr heq')

end Kernel

section Main

variable {files : List HostFile} {s : Image}

/-- `mkfs` stops at a name with a slash. -/
theorem addFiles_noSlash {i : ℕ} :
    Ends (fun _ => True) (addFiles i files) s fun _ _ => ∀ f ∈ files, slash ∉ f.shortname := by
  induction files generalizing s with
  | nil => exact .pure fun _ h => nomatch h
  | cons f files ih =>
    by_cases hslash : slash ∈ f.shortname
    · refine .bind ?_
      rw [addFile, if_pos hslash]
      exact .throw trivial
    · refine .bind (Ends.triv.mono fun _ t _ => ih.mono fun _ u h g hg => ?_)
      rcases List.mem_cons.mp hg with rfl | hg
      · exact hslash
      · exact h g hg

theorem main_noSlash :
    Ends (fun _ => True) (main files) s fun _ _ => ∀ f ∈ files, slash ∉ f.shortname := by
  unfold main
  generalize List.range fsSize = sectors
  refine .bind (Ends.triv.mono fun _ _ _ =>
    .bind (Ends.triv.mono fun _ _ _ => .bind (Ends.triv.mono fun i _ _ => ?_)))
  split_ifs
  · refine .bind (Ends.triv.mono fun _ _ _ =>
      .bind (Ends.triv.mono fun _ _ _ => .bind (addFiles_noSlash.mono ?_)))
    exact fun _ _ h => Ends.triv.mono fun _ _ _ => h
  · exact .throw trivial

/-- The image of files that fit. -/
theorem mkfs_finished (fits : Fits files) (hslash : ∀ f ∈ files, slash ∉ f.shortname) :
    ∃ t s, mkfs files = .ok t ∧ Stored (contents files) s ∧ t.disk = final s ∧
      t.freeblock = usedBlocks files ∧ s.freeblock = usedBlocks files := by
  have hf (f : HostFile) (hmem : f ∈ files) :
      slash ∉ f.shortname ∧ f.bytes.length ≤ maxFile * bSize :=
    ⟨hslash f hmem, fits.sizes f hmem⟩
  have hblocks := fits.blocks
  rw [usedBlocks] at hblocks
  obtain ⟨t, hok, s, h, hdisk, hfree⟩ := main_spec hf fits.lt_ninodes hblocks
  refine ⟨t, s, ?_, h, hdisk, hfree, Built.freeblock h⟩
  rw [mkfs, hok]
  rfl

/-- The image is what the kernel expects exactly if `mkfs` accepts the names, none of them is `.` or
`..`, and the entries of the root directory do not fill its last block. -/
theorem mkfs_image_ok_iff (files : List HostFile) (fits : Fits files) :
    (∃ t, mkfs files = .ok t ∧ t.freeblock = usedBlocks files ∧ ImageOk files t.disk t.freeblock) ↔
      (∀ f ∈ files, slash ∉ f.shortname ∧ namecmp f.name dot ≠ 0 ∧ namecmp f.name dotdot ≠ 0) ∧
        (files.length + 2) % 64 ≠ 0 := by
  constructor
  · rintro ⟨t, hok, _, himg⟩
    have hslash : ∀ f ∈ files, slash ∉ f.shortname := by
      rw [mkfs] at hok
      cases hmain : main files ⟨fun _ _ => 0, 0, 1, nmeta⟩ with
      | error e =>
        rw [hmain] at hok
        exact nomatch hok
      | ok r => exact main_noSlash.of_ok hmain
    obtain ⟨t', s, hok', h, hdisk, _⟩ := mkfs_finished fits hslash
    rw [hok'] at hok
    obtain rfl : t' = t := Except.ok.inj hok
    rw [hdisk] at himg
    have h64 : (files.length + 2) % 64 ≠ 0 := by
      rw [← full_fixedRoot_iff h fits.lt_ninodes]
      have hfull := himg.full rootIno ⟨by decide, ?_⟩
      · rwa [dinodeAt_final_root] at hfull
      · rw [dinodeAt_final_root]
        have htype : (fixedRoot s.view).type = tDir := (holds_root h).type
        rw [htype]
        decide
    refine ⟨fun f hf => ⟨hslash f hf, ?_⟩, h64⟩
    obtain ⟨k, hk, rfl⟩ := List.getElem_of_mem hf
    exact names_of_imageOk h fits h64 himg hk
  · rintro ⟨hf, h64⟩
    obtain ⟨t, s, hok, h, hdisk, hfree, hfree'⟩ := mkfs_finished fits fun f hmem => (hf f hmem).1
    refine ⟨t, hok, hfree, ?_⟩
    rw [hdisk, hfree, ← hfree']
    exact imageOk_final h fits (fun f hmem => (hf f hmem).2) h64

/-- A file with one read of two bytes. -/
def readme : HostFile := ⟨[82, 69, 65, 68, 77, 69], [[104, 105]], by decide, by decide⟩

theorem fits_readme : Fits [readme] := ⟨by decide, by decide, by decide, by decide⟩

theorem mkfs_image_ok_readme :
    Fits [readme] ∧ ∃ t, mkfs [readme] = .ok t ∧ t.freeblock = usedBlocks [readme] ∧
        ImageOk [readme] t.disk t.freeblock :=
  ⟨fits_readme, (mkfs_image_ok_iff [readme] fits_readme).mpr ⟨by decide, by decide⟩⟩

/-- Empty files with names of two letters. -/
def emptyFile (i : Fin 62) : HostFile :=
  ⟨[97, BitVec.ofNat 8 (48 + i)], [], by revert i; decide, by simp⟩

def emptyFiles : List HostFile := (List.finRange 62).map emptyFile

theorem fits_emptyFiles : Fits emptyFiles :=
  ⟨by decide +kernel, by decide, by decide +kernel, by decide +kernel⟩

/-- With 62 files the entries of the root directory fill one block, and its size is rounded up to
two. -/
theorem mkfs_root_lacks_block :
    Fits emptyFiles ∧
      ∃ t, mkfs emptyFiles = .ok t ∧ (dinodeAt sb t.disk rootIno).size.toNat = 2 * bSize ∧
        (dinodeAt sb t.disk rootIno).block t.disk 1 = 0 := by
  have hslash : ∀ f ∈ emptyFiles, slash ∉ f.shortname := by decide +kernel
  have hlen : emptyFiles.length = 62 := by decide
  obtain ⟨t, s, hok, h, hdisk, _⟩ := mkfs_finished fits_emptyFiles hslash
  refine ⟨fits_emptyFiles, t, hok, ?_, ?_⟩
  · rw [hdisk, dinodeAt_final_root, size_fixedRoot h fits_emptyFiles.lt_ninodes, hlen]
    rfl
  · rw [hdisk, dinodeAt_final_root]
    have hblock := (block_fixedRoot_ne_iff h (show 1 < maxFile by decide)).not
    rw [hlen, not_not] at hblock
    exact hblock.mpr (by decide)

end Main

end NeulaCpu.Xv6.Mkfs

import NeulaCpu.Lib.SlotTable
import NeulaCpu.Lib.Trace
import NeulaCpu.Xv6.Directories
import NeulaCpu.Xv6.FileArray
import NeulaCpu.Xv6.InodeRefs

/-!
# Directories as finite maps

A directory is a table of slots. The key of an entry in use is its name as far as `namecmp` looks at
it. `dirlookup` gives the slot with a name, `dirlink` uses the first free slot or makes the
directory longer, and `sys_unlink` frees the slot that `dirlookup` has found.

Nothing is assumed about the inodes that the entries name: an inode that `iget` has given here is
not freed when it is put.
-/

namespace NeulaCpu.Xv6

open ByteStore Outcome SlotTable Function

/-- What `namecmp` compares: the name up to its end, filled with zeros to `DIRSIZ` bytes. -/
def nameKey (name : List Byte) : List Byte := strncpy dirSiz name

/-- The name of an entry that is in use. -/
def Dirent.key (de : Dirent) : Option (List Byte) :=
  if de.inum = 0 then none else some (nameKey de.name)

theorem Dirent.names_iff {de : Dirent} {name : List Byte} :
    de.Names name ↔ de.key = some (nameKey name) := by
  rw [Names, key, namecmp, strncmp_eq_zero_iff]
  by_cases h : de.inum = 0
  · simp [h]
  · rw [if_neg h, Option.some.injEq, and_iff_right h]
    exact eq_comm

theorem Dirent.key_eq_none {de : Dirent} : de.key = none ↔ de.inum = 0 := by
  rw [key]
  split_ifs with h
  · simp [h]
  · simp [h]

namespace Fs

variable (sb : Superblock)

/-- The part of `sys_unlink` that finds an entry and removes it. -/
def removeEnt (dp : ℕ) (name : List Byte) : FsM Bool := do
  match ← dirlookup sb dp name with
  | none => pure false
  | some (ip, off) =>
    let r ← writei sb dp (.ofBytes (List.replicate direntSize 0)) off direntSize
    if r ≠ direntSize then throw .unlinkWritei
    else
      iput sb ip
      pure true

/-- The directory `dp` is locked, its copy in memory is the one on the disk, and the blocks of the
disk are in order. -/
structure DirOk (s : Fs) (dp : ℕ) : Prop where
  consistent : Consistent sb s.disk
  ref : 0 < s.refs dp
  copy : (s.inode dp).copy = dinodeAt sb s.disk dp
  lt : dp < sb.ninodes
  dir : (dinodeAt sb s.disk dp).type = tDir

/-- A panic while a directory is looked at: the inode table is full, or the last entry is cut
off. -/
def DirPanic (s : Fs) (dp : ℕ) (e : FsPanic) : Prop :=
  e = .igetNoInodes ∧ nInode ≤ s.used ∨
    (s.inode dp).copy.size.toNat % direntSize ≠ 0 ∧ (e = .dirlookupRead ∨ e = .dirlinkRead)

/-- A reference to `i` that is not the last one to a loaded inode. -/
def Spare (t : Fs) (dp i : ℕ) : Prop := 1 < t.refs i ∨ i ≠ dp ∧ (t.inode i).valid = false

variable {sb} {s t : Fs} {dp : ℕ} {name : List Byte} {E : FsPanic → Prop}

namespace DirOk

section

variable (h : s.DirOk sb dp)

include h

theorem allocated : Allocated sb (dinodeAt sb s.disk) dp := ⟨h.lt, by rw [h.dir]; decide⟩

/-- A directory in order can be read. -/
theorem readable : s.Readable dp := by
  refine ⟨?_, ?_⟩
  · rw [h.copy]
    exact h.consistent.full dp h.allocated
  · rw [h.copy, h.dir]

/-- The directory as it was, in a state with the same disk. -/
theorem of_same (hdisk : t.disk = s.disk) (hcopy : (t.inode dp).copy = (s.inode dp).copy)
    (href : 0 < t.refs dp) : t.DirOk sb dp ∧ t.entries dp = s.entries dp := by
  refine ⟨⟨hdisk ▸ h.consistent, href, ?_, h.lt, hdisk ▸ h.dir⟩, ?_⟩
  · rw [hcopy, hdisk]
    exact h.copy
  · rw [entries, entries, hcopy, hdisk]

end

end DirOk

/-! ## References -/

/-- `iget` leaves a directory in order as it is, and its reference is a spare one. -/
theorem iget_dir (h : s.DirOk sb dp) (hE : nInode ≤ s.used → E .igetNoInodes) (i : ℕ) :
    Ends E (iget i) s fun _ t =>
      t.disk = s.disk ∧ (t.inode dp).copy = (s.inode dp).copy ∧ 0 < t.refs dp ∧ t.Spare dp i := by
  have href := h.ref
  refine .bind (.get ?_)
  by_cases hpos : 0 < (s.inode i).ref
  · rw [if_pos hpos]
    refine .set ⟨rfl, ?_, ?_, .inl ?_⟩
    · by_cases hi : dp = i
      · subst hi
        simp [setInode]
      · simp [setInode, hi]
    · rw [refs_setInode]
      by_cases hi : dp = i
      · rw [hi, update_self]
        exact Nat.succ_pos _
      · rwa [update_of_ne hi]
    · rw [refs_setInode, update_self]
      exact Nat.succ_lt_succ hpos
  · have hne : dp ≠ i := by
      rintro rfl
      exact hpos href
    rw [if_neg hpos]
    by_cases hused : s.used < nInode
    · rw [if_pos hused]
      refine .set ⟨rfl, ?_, ?_, .inr ⟨hne.symm, ?_⟩⟩
      · simp [setInode, hne]
      · show 0 < (s.setInode i _).refs dp
        rwa [refs_setInode, update_of_ne hne]
      · simp [setInode]
    · rw [if_neg hused]
      exact .throw (hE (Nat.le_of_not_lt hused))

/-- `iput` of a spare reference frees nothing. -/
theorem iput_spare (h : s.DirOk sb dp) {i : ℕ} (hspare : s.Spare dp i) :
    Ends E (iput sb i) s fun _ t => t.disk = s.disk ∧ (t.inode dp).copy = (s.inode dp).copy ∧
      0 < t.refs dp := by
  have href := h.ref
  refine .bind (.get ?_)
  rw [if_neg]
  · refine .modify ⟨rfl, ?_, ?_⟩
    · by_cases hi : dp = i
      · subst hi
        simp [setInode]
      · simp [setInode, hi]
    · show 0 < (s.setInode i _).refs dp
      rw [refs_setInode]
      by_cases hi : dp = i
      · subst hi
        rw [update_self]
        rcases hspare with hgt | ⟨hne, _⟩
        · exact Nat.sub_pos_of_lt hgt
        · exact absurd rfl hne
      · rwa [update_of_ne hi]
  · rintro ⟨hone, hvalid, _⟩
    rcases hspare with hgt | ⟨_, hinvalid⟩
    · rw [refs, hone] at hgt
      exact absurd hgt (Nat.lt_irrefl 1)
    · rw [hinvalid] at hvalid
      exact Bool.false_ne_true hvalid

/-! ## Writing -/

/-- Entry `k` has a block, or there is room for it. -/
def Fits (sb : Superblock) (s : Fs) (dp k : ℕ) : Prop :=
  k * direntSize + direntSize ≤ maxFile * bSize ∧
    (s.inode dp).copy.missing s.disk (neededSlots (blocksOf (k * direntSize) direntSize)) ≤
      freeBlocks sb s.disk

/-- An entry of the directory fits. -/
theorem DirOk.fits (h : s.DirOk sb dp) {k : ℕ} (hk : k < (s.entries dp).length) :
    s.Fits sb dp k := by
  have hlen := h.readable.length_entries
  have hmax := h.readable.full.size_le
  have hle : k * direntSize + direntSize ≤ (s.inode dp).copy.size.toNat := by
    simp only [direntSize] at hlen ⊢
    omega
  refine ⟨hle.trans hmax, ?_⟩
  rw [h.readable.full.missing_eq_zero hle]
  exact Nat.zero_le _

/-- Writing the entry `k` of the directory. -/
theorem writeEnt_dir (wf : sb.Wf) (h : s.DirOk sb dp) {l : List Byte} (hl : l.length = direntSize)
    {k : ℕ} (hk : s.Slot dp k) :
    Ends E (writei sb dp (.ofBytes l) (k * direntSize) direntSize) s fun r t =>
      t.DirOk sb dp ∧ (∀ i, t.refs i = s.refs i ∧ (t.inode i).valid = (s.inode i).valid) ∧
      (r = direntSize ↔ s.Fits sb dp k) ∧
      t.entries dp = if r = direntSize then place (s.entries dp) k (.ofBytes l)
        else s.entries dp := by
  have hal := h.allocated
  have hmax := h.readable.full.size_le
  have hlen := h.readable.length_entries
  have hsome : ∀ j < direntSize, Source.ofBytes l j ≠ none := by
    intro j hj
    rw [Source.ofBytes, List.getElem?_eq_getElem (by omega)]
    exact Option.some_ne_none _
  have hoff : k * direntSize ≤ (s.inode dp).copy.size.toNat := by
    simp only [Slot, direntSize] at hlen hk ⊢
    omega
  rw [Slot, entries] at hk
  rw [Fits, entries]
  rw [h.copy] at hk hoff hmax ⊢
  simp only [maxFile, nDirect, nIndirect, bSize] at hmax
  refine .bind (copy_spec ?_)
  rw [h.copy]
  refine .bind (.zoom ?_)
  have hlt : direntSize < 2 ^ 32 := by norm_num [direntSize]
  refine ((Xv6.writei_spec wf h.consistent hal hlt).and
    (writei_all_iff wf h.consistent hal hoff
      (by simp only [direntSize] at hoff ⊢; omega) hsome)).mono ?_
  rintro ⟨r, c⟩ d' ⟨hw, hroom⟩
  have hself : c = { dinodeAt sb s.disk dp with size := c.size, addrs := c.addrs } := hw.self
  have hat : dinodeAt sb d' dp = c := by rw [hw.inodes dp h.lt, update_self]
  refine .bind (.modify (.pure ⟨⟨hw.consistent, ?_, ?_, h.lt, ?_⟩, fun i => ?_, hroom, ?_⟩))
  · rw [refs_setInode, update_self]
    exact h.ref
  · simp [setInode, hat]
  · show (dinodeAt sb d' dp).type = tDir
    rw [hat, hself]
    exact h.dir
  · rw [refs_setInode]
    by_cases hi : i = dp
    · subst hi
      simp [setInode, refs]
    · simp [setInode, refs, hi]
  · simp only [entries, setInode, update_self]
    exact ents_writei hw hl (h.consistent.full dp hal) h.dir hk

/-! ## The map -/

theorem nameKey_nameKey (name : List Byte) : nameKey (nameKey name) = nameKey name := by
  refine ((strncmp_eq_zero_iff dirSiz name (nameKey name)).mp ?_).symm
  rw [nameKey, strncmp_strncpy, strncmp_eq_zero_iff]

theorem key_mk {inum : ℕ} (h : inum ≠ 0) (name : List Byte) :
    Dirent.key ⟨inum, nameKey name⟩ = some (nameKey name) := by
  rw [Dirent.key, if_neg h, nameKey_nameKey]

theorem key_zero : Dirent.key (.ofBytes (List.replicate direntSize 0)) = none := by decide

/-- The entry in slot `k` is in use under this name. -/
def Live (ents : List Dirent) (name : List Byte) (k : ℕ) (de : Dirent) : Prop :=
  Binds Dirent.key ents (nameKey name) k de

theorem live_iff {ents : List Dirent} {k : ℕ} {de : Dirent} :
    Live ents name k de ↔ ents[k]? = some de ∧ de.Names name := by
  rw [Live, Binds, Dirent.names_iff]

theorem absent_of_names {ents : List Dirent} (h : ∀ de ∈ ents, ¬ de.Names name) (k : ℕ)
    (de : Dirent) : ¬ Live ents name k de := by
  rw [live_iff]
  rintro ⟨hde, hname⟩
  exact h de (List.mem_of_getElem? hde) hname

/-- `dirlookup` gives the entry in use that has the name. -/
def LookedUp (sb : Superblock) (s : Fs) (dp : ℕ) (name : List Byte) (r : Option (ℕ × ℕ)) (t : Fs) :
    Prop :=
  (t.DirOk sb dp ∧ t.entries dp = s.entries dp) ∧
    ((∃ k de, Live (s.entries dp) name k de ∧ r = some (de.inum, k * direntSize)) ∨
      (∀ k de, ¬ Live (s.entries dp) name k de) ∧ r = none)

theorem dirlookup_dir (h : s.DirOk sb dp) :
    Ends (DirPanic s dp) (dirlookup sb dp name) s (LookedUp sb s dp name) := by
  refine dirlookup_wp h.readable (fun hne => .inr ⟨hne, .inl rfl⟩) (fun hnone _ => ?_)
    fun k de hde hname _ => ?_
  · exact ⟨⟨h, rfl⟩, .inr ⟨absent_of_names hnone, rfl⟩⟩
  · refine (iget_dir h (fun hfull => .inl ⟨rfl, hfull⟩) de.inum).mono ?_
    rintro _ t ⟨hdisk, hcopy, href, _⟩
    exact ⟨h.of_same hdisk hcopy href, .inl ⟨k, de, live_iff.mpr ⟨hde, hname⟩, rfl⟩⟩

/-- `dirlink` binds a name that is not there, in the first free slot or at the end. -/
def Linked (sb : Superblock) (s : Fs) (dp : ℕ) (name : List Byte) (inum : ℕ) (ok : Bool) (t : Fs) :
    Prop :=
  t.DirOk sb dp ∧
    (ok = true ↔ (∀ k de, ¬ Live (s.entries dp) name k de) ∧
      s.Fits sb dp (firstFree (s.entries dp))) ∧
    t.entries dp = if ok then place (s.entries dp) (firstFree (s.entries dp)) ⟨inum, nameKey name⟩
      else s.entries dp

theorem dirlink_dir (wf : sb.Wf) (h : s.DirOk sb dp) {inum : ℕ} (hinum : inum ≤ 65535) :
    Ends (DirPanic s dp) (dirlink sb dp name inum) s (Linked sb s dp name inum) := by
  refine dirlink_wp h.readable (fun hne => .inr ⟨hne, .inl rfl⟩) (fun hnone hsize => ?_)
    fun k de hde hname => ?_
  · have hback : Dirent.ofBytes (Dirent.bytes ⟨inum, strncpy dirSiz name⟩) = ⟨inum, nameKey name⟩ :=
      Dirent.ofBytes_bytes (show inum < 2 ^ 16 by omega)
    refine (writeEnt_dir wf h (Dirent.length_bytes (length_strncpy ..)) (slot_firstFree hsize)).mono
      ?_
    rintro r u ⟨hu, _, hfits, hents⟩
    rw [hback] at hents
    refine ⟨hu, ?_, ?_⟩
    · rw [decide_eq_true_iff, hfits]
      exact ⟨fun hf => ⟨absent_of_names hnone, hf⟩, fun hf => hf.2⟩
    · rw [hents]
      simp only [decide_eq_true_iff]
  · refine (iget_dir h (fun hfull => .inl ⟨rfl, hfull⟩) de.inum).mono ?_
    rintro _ t ⟨hdisk, hcopy, href, hspare⟩
    obtain ⟨ht, hents⟩ := h.of_same hdisk hcopy href
    refine (iput_spare ht hspare).mono ?_
    rintro _ u ⟨hdisk', hcopy', href'⟩
    obtain ⟨hu, hents'⟩ := ht.of_same hdisk' hcopy' href'
    refine ⟨hu, ⟨fun hf => absurd hf Bool.false_ne_true, fun hf => ?_⟩, hents'.trans hents⟩
    exact absurd (live_iff.mpr ⟨hde, hname⟩) (hf.1 k de)

/-- The removal of a name frees the slot of its entry. -/
def Removed (sb : Superblock) (s : Fs) (dp : ℕ) (name : List Byte) (ok : Bool) (t : Fs) : Prop :=
  t.DirOk sb dp ∧
    ((∃ k de, Live (s.entries dp) name k de ∧ ok = true ∧
        t.entries dp = place (s.entries dp) k (.ofBytes (List.replicate direntSize 0))) ∨
      (∀ k de, ¬ Live (s.entries dp) name k de) ∧ ok = false ∧ t.entries dp = s.entries dp)

theorem removeEnt_dir (wf : sb.Wf) (h : s.DirOk sb dp) :
    Ends (DirPanic s dp) (removeEnt sb dp name) s (Removed sb s dp name) := by
  refine .bind (dirlookup_wp h.readable (fun hne => .inr ⟨hne, .inl rfl⟩) (fun hnone _ => ?_)
    fun k de hde hname _ => ?_)
  · exact .pure ⟨h, .inr ⟨absent_of_names hnone, rfl, rfl⟩⟩
  · refine (iget_dir h (fun hfull => .inl ⟨rfl, hfull⟩) de.inum).mono ?_
    rintro _ t ⟨hdisk, hcopy, href, hspare⟩
    obtain ⟨ht, hents⟩ := h.of_same hdisk hcopy href
    have hlt : k < (t.entries dp).length := by
      rw [hents]
      exact (List.getElem?_eq_some_iff.mp hde).1
    refine (writeEnt_dir wf ht List.length_replicate (.inl hlt)).andThen ?_
    rintro r u ⟨hu, hkept, hfits, hents'⟩
    have hr := hfits.mpr (ht.fits hlt)
    rw [if_pos hr] at hents'
    rw [if_neg (not_not.mpr hr)]
    have hspare' : u.Spare dp de.inum := by
      rw [Spare, (hkept de.inum).1, (hkept de.inum).2]
      exact hspare
    refine (iput_spare hu hspare').andThen ?_
    rintro _ v ⟨hdisk', hcopy', href'⟩
    obtain ⟨hv, hents''⟩ := hu.of_same hdisk' hcopy' href'
    exact .pure ⟨hv, .inl ⟨k, de, live_iff.mpr ⟨hde, hname⟩, rfl, by rw [hents'', hents', hents]⟩⟩

/-- A change of a directory. -/
inductive DirOp
  | link (name : List Byte) (inum : ℕ)
  | remove (name : List Byte)
deriving DecidableEq, Repr

/-- A call of `dirlink` with an inode number that fits an entry, or the removal of an entry; `none`
in a panic. -/
def dirStep (sb : Superblock) (dp : ℕ) (s : Fs) : DirOp → Option Fs
  | .link name inum =>
    if 1 ≤ inum ∧ inum ≤ 65535 then ((dirlink sb dp name inum s).toOption).map Prod.snd else none
  | .remove name => ((removeEnt sb dp name s).toOption).map Prod.snd

namespace Linked

variable {inum : ℕ} {ok : Bool}

theorem live_iff (h : Linked sb s dp name inum ok t) (hinum : inum ≠ 0) {other : List Byte} {k : ℕ}
    {de : Dirent} : Live (t.entries dp) other k de ↔ Live (s.entries dp) other k de ∨
      ok = true ∧ nameKey other = nameKey name ∧ k = firstFree (s.entries dp) ∧
        de = ⟨inum, nameKey name⟩ := by
  rw [h.2.2]
  cases ok with
  | false => simp
  | true =>
    rw [if_pos rfl, Live, binds_place (firstFree_le _) fun _ hc =>
      Dirent.key_eq_none.mpr (firstFree_free hc),
      key_mk hinum, Option.some.injEq, Live, eq_comm (a := nameKey name)]
    tauto

theorem distinct (h : Linked sb s dp name inum ok t) (hinum : inum ≠ 0)
    (hd : Distinct Dirent.key (s.entries dp)) : Distinct Dirent.key (t.entries dp) := by
  rw [h.2.2]
  cases ok with
  | false => exact hd
  | true =>
    refine hd.place (firstFree_le _) (fun _ hc => Dirent.key_eq_none.mpr (firstFree_free hc))
      fun x hx => ?_
    rw [key_mk hinum, Option.some.injEq] at hx
    rw [← hx]
    exact (h.2.1.mp rfl).1

end Linked

namespace Removed

variable {ok : Bool}

theorem live_iff (h : Removed sb s dp name ok t) (hd : Distinct Dirent.key (s.entries dp))
    {other : List Byte} {k : ℕ} {de : Dirent} : Live (t.entries dp) other k de ↔ Live
      (s.entries dp) other k de ∧ nameKey other ≠ nameKey name := by
  rcases h.2 with ⟨j, de', hlive, _, hents⟩ | ⟨habsent, _, hents⟩
  · rw [hents, Live, binds_clear (List.getElem?_eq_some_iff.mp hlive.1).1 key_zero]
    refine and_congr_right fun hother => not_congr ⟨?_, fun hname => ?_⟩
    · rintro rfl
      obtain rfl := Option.some.inj (hother.1.symm.trans hlive.1)
      exact Option.some.inj (hother.2.symm.trans hlive.2)
    · rw [hname] at hother
      exact (hd.unique hother hlive).1
  · rw [hents]
    refine ⟨fun hother => ⟨hother, fun hname => ?_⟩, And.left⟩
    rw [Live, hname] at hother
    exact habsent k de hother

theorem distinct (h : Removed sb s dp name ok t) (hd : Distinct Dirent.key (s.entries dp)) :
    Distinct Dirent.key (t.entries dp) := by
  rcases h.2 with ⟨j, de', hlive, _, hents⟩ | ⟨_, _, hents⟩
  · rw [hents]
    exact hd.clear (List.getElem?_eq_some_iff.mp hlive.1).1 key_zero
  · rwa [hents]

end Removed

/-- A directory in order whose names are distinct. -/
def MapOk (sb : Superblock) (dp : ℕ) (s : Fs) : Prop :=
  s.DirOk sb dp ∧ Distinct Dirent.key (s.entries dp)

theorem ok_of_toOption {α : Type} {c : FsM α} (h : (c s).toOption.map Prod.snd = some t) :
    ∃ a, c s = .ok (a, t) := by
  cases hc : c s with
  | error e =>
    rw [hc] at h
    exact absurd h (by simp [Except.toOption])
  | ok r =>
    rw [hc] at h
    obtain rfl : r.2 = t := Option.some.inj h
    exact ⟨r.1, rfl⟩

theorem MapOk.dirStep (wf : sb.Wf) (h : MapOk sb dp s) {op : DirOp}
    (hstep : dirStep sb dp s op = some t) : MapOk sb dp t := by
  cases op with
  | link name inum =>
    rw [Fs.dirStep] at hstep
    split_ifs at hstep with hinum
    obtain ⟨ok, hrun⟩ := ok_of_toOption hstep
    have hlink := (dirlink_dir wf h.1 hinum.2).of_ok hrun
    exact ⟨hlink.1, hlink.distinct (by omega) h.2⟩
  | remove name =>
    obtain ⟨ok, hrun⟩ := ok_of_toOption hstep
    have hremove := (removeEnt_dir wf h.1).of_ok hrun
    exact ⟨hremove.1, hremove.distinct h.2⟩

/-- A directory is a finite map, after any sequence of links and removals. -/
theorem directory_is_map (sb : Superblock) (wf : sb.Wf) (s : Fs) (dp : ℕ) (h : s.DirOk sb dp)
    (hd : Distinct Dirent.key (s.entries dp)) (ops : List DirOp) (t : Fs)
    (run : Trace.exec (dirStep sb dp) s ops = some t) :
    -- the names are distinct
    (∀ name j k de de', Live (t.entries dp) name j de → Live (t.entries dp) name k de' →
      j = k ∧ de = de') ∧
    (∀ name, Ends (DirPanic t dp) (dirlookup sb dp name) t fun r u => u.entries dp = t.entries dp ∧
      (∀ k de, Live (t.entries dp) name k de → r = some (de.inum, k * direntSize)) ∧
      ((∀ k de, ¬ Live (t.entries dp) name k de) → r = none)) ∧
    (∀ name inum, 1 ≤ inum → inum ≤ 65535 → Ends (DirPanic t dp) (dirlink sb dp name inum) t
      fun ok u =>
      (ok = true ↔ (∀ k de, ¬ Live (t.entries dp) name k de) ∧
        (firstFree (t.entries dp) < (t.entries dp).length ∨
          t.Fits sb dp (firstFree (t.entries dp)))) ∧
      ∀ other k de, Live (u.entries dp) other k de ↔ Live (t.entries dp) other k de ∨
        ok = true ∧ nameKey other = nameKey name ∧ k = firstFree (t.entries dp) ∧
          de = ⟨inum, nameKey name⟩) ∧
    ∀ name, Ends (DirPanic t dp) (removeEnt sb dp name) t fun ok u =>
      (ok = true ↔ ∃ k de, Live (t.entries dp) name k de) ∧
      ∀ other k de, Live (u.entries dp) other k de ↔
          Live (t.entries dp) other k de ∧ nameKey other ≠ nameKey name := by
  obtain ⟨ht, hdt⟩ : MapOk sb dp t :=
    Trace.always (fun _ _ _ h => h.dirStep wf) ⟨h, hd⟩ run
  refine ⟨fun name j k de de' hj hk => hdt.unique hj hk, fun name => ?_, fun name inum hpos hle =>
    ?_, fun name => ?_⟩
  · refine (dirlookup_dir ht).mono ?_
    rintro r u ⟨⟨_, hents⟩, ⟨k, de, hlive, rfl⟩ | ⟨habsent, rfl⟩⟩
    · refine ⟨hents, fun j de' hlive' => ?_, fun habsent => absurd hlive (habsent k de)⟩
      obtain ⟨rfl, rfl⟩ := hdt.unique hlive hlive'
      rfl
    · exact ⟨hents, fun k de hlive => absurd hlive (habsent k de), fun _ => rfl⟩
  · refine (dirlink_dir wf ht hle).mono fun ok u hlink =>
      ⟨?_, fun other k de => hlink.live_iff (by omega)⟩
    rw [hlink.2.1, or_iff_right_of_imp ht.fits]
  · refine (removeEnt_dir wf ht).mono fun ok u hremove =>
      ⟨?_, fun other k de => hremove.live_iff hdt⟩
    rcases hremove.2 with ⟨k, de, hlive, rfl, _⟩ | ⟨habsent, rfl, _⟩
    · exact ⟨fun _ => ⟨k, de, hlive⟩, fun _ => rfl⟩
    · refine ⟨fun hf => absurd hf Bool.false_ne_true, ?_⟩
      rintro ⟨k, de, hlive⟩
      exact absurd hlive (habsent k de)

section Sample

/-- The root directory of the sample disk, locked. -/
def sampleRoot : Fs :=
  { sampleFs 2 with
    inode := fun i => if i = rootIno then ⟨1, true, dinodeAt Mkfs.sb (sampleDisk 2) rootIno⟩
      else ⟨0, false, .zero⟩ }

theorem dirOk_sampleRoot : sampleRoot.DirOk Mkfs.sb rootIno where
  consistent := consistent_sample
  ref := by decide
  copy := rfl
  lt := by decide
  dir := by decide +kernel

theorem distinct_sampleRoot : Distinct Dirent.key (sampleRoot.entries rootIno) := by
  have hlen : (sampleRoot.entries rootIno).length = 3 := by decide +kernel
  have hkeys : ∀ j < 3, ∀ k < 3, ((sampleRoot.entries rootIno)[j]?.bind Dirent.key).isSome →
      (sampleRoot.entries rootIno)[j]?.bind Dirent.key =
          (sampleRoot.entries rootIno)[k]?.bind Dirent.key → j = k := by
    decide +kernel
  rintro x j k de de' ⟨hj, hx⟩ ⟨hk, hx'⟩
  refine hkeys j ?_ k ?_ ?_ ?_
  · rw [← hlen]
    exact (List.getElem?_eq_some_iff.mp hj).1
  · rw [← hlen]
    exact (List.getElem?_eq_some_iff.mp hk).1
  · rw [hj, Option.bind_some, hx]
    rfl
  · rw [hj, hk, Option.bind_some, Option.bind_some, hx, hx']

/-- Entries are added and removed; one name is too long for an entry and one is there already. -/
def sampleDirOps : List DirOp :=
  [.link [97] 5, .remove [120], .link (List.replicate 20 98) 65535, .link (List.replicate 14 98) 6,
    .remove [97]]

theorem directory_is_map_sample :
    ∃ t, Trace.exec (dirStep Mkfs.sb rootIno) sampleRoot sampleDirOps = some t ∧
      ∀ name, Ends (DirPanic t rootIno) (dirlookup Mkfs.sb rootIno name) t fun r u =>
        u.entries rootIno = t.entries rootIno ∧
        (∀ k de, Live (t.entries rootIno) name k de → r = some (de.inum, k * direntSize)) ∧
        ((∀ k de, ¬ Live (t.entries rootIno) name k de) → r = none) := by
  have hsome : (Trace.exec (dirStep Mkfs.sb rootIno) sampleRoot sampleDirOps).isSome = true := by
    decide +kernel
  obtain ⟨t, run⟩ := Option.isSome_iff_exists.mp hsome
  exact ⟨t, run, (directory_is_map Mkfs.sb (by decide) sampleRoot rootIno dirOk_sampleRoot
    distinct_sampleRoot sampleDirOps t run).2.1⟩

end Sample

end Fs

end NeulaCpu.Xv6

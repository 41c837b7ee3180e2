import NeulaCpu.Lib.SlotTable
import NeulaCpu.Xv6.FsInodes

/-!
# Directories

`dirlookup`, `dirlink` and `isdirempty` on the list of entries of a directory. Their loops read one
entry after the other and stop at the first one that they look for: one rule says what such a loop
does, and the rules for the three functions follow from it. A panic because the last entry is cut
off is left to the caller of a rule.
-/

namespace NeulaCpu.Xv6

open ByteStore Outcome SlotTable Function

/-- The entry is in use and has the name. -/
def Dirent.Names (de : Dirent) (name : List Byte) : Prop := de.inum ≠ 0 ∧ namecmp name de.name = 0

/-- Every entry of a directory names an inode that there is. -/
def InRange (sb : Superblock) (nodes : ℕ → Node) : Prop :=
  ∀ i, ∀ de ∈ (nodes i).ents, de.inum < sb.ninodes

/-- A directory whose entries are in range may be put in the place of another one. -/
theorem InRange.update {sb : Superblock} {nodes : ℕ → Node} {i : ℕ} {n : Node}
    (h : InRange sb nodes) (hn : ∀ de ∈ n.ents, de.inum < sb.ninodes) :
    InRange sb (Function.update nodes i n) := by
  intro j
  by_cases hji : j = i
  · rw [hji, update_self]
    exact hn
  · rw [update_of_ne hji]
    exact h j

/-- A file that has all its blocks is no longer than a file can be. -/
theorem Dinode.Full.size_le {ip : Dinode} {d : Disk} (h : ip.Full d) :
    ip.size.toNat ≤ maxFile * bSize := by
  by_contra hlt
  exact h maxFile (by omega) (Dinode.block_of_ge le_rfl)

namespace Fs

/-- The entries of a directory that is locked. -/
def entries (s : Fs) (dp : ℕ) : List Dirent := (s.inode dp).copy.ents s.disk

/-- The first entry that is free, or the end. -/
def firstFree (ents : List Dirent) : ℕ := ents.findIdx fun de => de.inum = 0

/-- The copy of `dp` in memory is a directory that has all its blocks. -/
structure Readable (s : Fs) (dp : ℕ) : Prop where
  full : (s.inode dp).copy.Full s.disk
  dir : (s.inode dp).copy.type = tDir

/-- Entry `k` of the directory, or its end. -/
def Slot (s : Fs) (dp k : ℕ) : Prop :=
  k < (s.entries dp).length ∨ k = (s.entries dp).length ∧ (s.inode dp).copy.size.toNat =
    k * direntSize

variable {sb : Superblock} {s : Fs} {dp : ℕ} {panic : FsPanic} {name : List Byte}
  {E : FsPanic → Prop}

/-- There is a free entry, or the end is taken for one. -/
theorem firstFree_le (ents : List Dirent) : firstFree ents ≤ ents.length := List.findIdx_le_length

/-- The first free entry is free. -/
theorem firstFree_free {ents : List Dirent} {de : Dirent} (h : ents[firstFree ents]? = some de) :
    de.inum = 0 := by
  obtain ⟨hlt, rfl⟩ := List.getElem?_eq_some_iff.mp h
  exact of_decide_eq_true (List.findIdx_getElem (w := hlt))

/-- The first free entry can be written. -/
theorem slot_firstFree (h : (s.inode dp).copy.size.toNat = (s.entries dp).length * direntSize) :
    s.Slot dp (firstFree (s.entries dp)) := by
  rcases (firstFree_le (s.entries dp)).lt_or_eq with hlt | heq
  · exact .inl hlt
  · exact .inr ⟨heq, by rw [heq, h]⟩

section Readable

variable (h : s.Readable dp)

include h

/-- The number of entries, from the size. -/
theorem Readable.length_entries :
    (s.entries dp).length = (s.inode dp).copy.size.toNat / direntSize :=
  Dinode.length_ents h.dir

/-- The entry `k` is read, unless the directory ends within it. -/
theorem readDirent_wp {k : ℕ} (hk : k * direntSize < (s.inode dp).copy.size.toNat)
    (hcut : (s.inode dp).copy.size.toNat % direntSize ≠ 0 → E panic) :
    Ends E (readDirent sb panic dp (k * direntSize)) s fun de t =>
      t = s ∧ (s.entries dp)[k]? = some de := by
  have hsize := h.full.size_le
  have hlen := h.length_entries
  simp only [maxFile, nIndirect, nDirect, bSize] at hsize
  refine (readi_of_full h.full (by norm_num [direntSize])).andThen ?_
  rintro ⟨r, bytes⟩ t ⟨rfl, hr⟩
  obtain ⟨hr, hbytes⟩ := hr (fun _ => rfl) hk.le (by simp only [direntSize] at hk ⊢; omega)
  simp only at hr hbytes ⊢
  by_cases h16 : r = direntSize
  · rw [if_pos h16]
    rw [hr] at h16
    have hmin : min direntSize ((t.inode dp).copy.size.toNat - k * direntSize) = direntSize := by
      exact_mod_cast h16
    have hlt : k < (t.entries dp).length := by
      simp only [direntSize] at hmin hk hlen
      omega
    refine .pure ⟨rfl, ?_⟩
    rw [List.getElem?_eq_getElem hlt, hbytes, hmin]
    exact congrArg some (Dinode.getElem_ents h.dir hlt)
  · rw [if_neg h16]
    refine .throw (hcut fun hmod => h16 ?_)
    rw [hr, Nat.cast_inj]
    simp only [direntSize] at hmod hk ⊢
    omega

/-- A loop over entries that stops at the first one with `p`, for the entries from `n` to `n +
m`. -/
theorem scan_wp {α : Type} (loop : List ℕ → FsM α) (p : Dirent → Prop) [DecidablePred p]
    (stop : ℕ → Dirent → FsM α) {a : α} {Q : α → Fs → Prop} (hnil : loop [] = pure a)
    (hcons : ∀ off offs, loop (off :: offs) = do
      let de ← readDirent sb panic dp off
      if p de then stop off de else loop offs)
    (hcut : (s.inode dp).copy.size.toNat % direntSize ≠ 0 → E panic) (m : ℕ) :
    ∀ n, (∀ k, n ≤ k → k < n + m → k * direntSize < (s.inode dp).copy.size.toNat) →
    ((∀ k, n ≤ k → k < n + m → ∃ de, (s.entries dp)[k]? = some de ∧ ¬ p de) → Q a s) →
    (∀ k de, (s.entries dp)[k]? = some de → p de →
      (∀ j, n ≤ j → j < k → ∃ de, (s.entries dp)[j]? = some de ∧ ¬ p de) → Ends E
        (stop (k * direntSize) de) s Q) →
    Ends E (loop ((List.range' n m).map (· * direntSize))) s Q := by
  induction m with
  | zero =>
    intro n _ hnone _
    rw [List.range'_zero, List.map_nil, hnil]
    exact .pure (hnone fun k h1 h2 => absurd h1 (Nat.not_le.mpr h2))
  | succ m ih =>
    intro n hlt hnone hsome
    rw [List.range'_succ, List.map_cons, hcons]
    refine (readDirent_wp h (hlt n le_rfl (by omega)) hcut).andThen ?_
    rintro de t ⟨rfl, hde⟩
    split_ifs with hp
    · exact hsome n de hde hp fun j h1 h2 => absurd h1 (Nat.not_le.mpr h2)
    -- the entry `n` is one more that does not have `p`
    have hmore {l : ℕ} (hj : ∀ j, n + 1 ≤ j → j < l → ∃ de, (t.entries dp)[j]? = some de ∧ ¬ p de)
        (j : ℕ) (h1 : n ≤ j) (h2 : j < l) :
        ∃ de, (t.entries dp)[j]? = some de ∧ ¬ p de := by
      rcases h1.eq_or_lt with rfl | h1
      · exact ⟨de, hde, hp⟩
      · exact hj j h1 h2
    refine ih (n + 1) (fun k h1 h2 => hlt k (by omega) (by omega)) (fun hall =>
      hnone (hmore fun j h1 h2 => ?_))
      fun k de hk hpk hbefore => hsome k de hk hpk (hmore hbefore)
    exact hall j h1 (by omega)

end Readable

/-! ## Rules for the functions -/

/-- The offsets from the entry `n` on. -/
theorem drop_direntOffsets (size n : ℕ) :
    (direntOffsets size).drop n =
      (List.range' n ((size + direntSize - 1) / direntSize - n)).map (· * direntSize) := by
  rw [direntOffsets, List.range_eq_range', ← List.map_drop, List.drop_range', Nat.zero_add,
    Nat.mul_one]

/-- The loops over a directory stay below its size. -/
theorem mul_lt_of_lt {size k : ℕ} (hk : k < (size + direntSize - 1) / direntSize) :
    k * direntSize < size := by
  simp only [direntSize] at hk ⊢
  omega

theorem dirlookup_notDir {Q : Option (ℕ × ℕ) → Fs → Prop} (hdir : (s.inode dp).copy.type ≠ tDir)
    (hE : E .dirlookupNotDir) : Ends E (dirlookup sb dp name) s Q := by
  refine .bind (copy_spec ?_)
  rw [if_pos hdir]
  exact .throw hE

/-- `dirlookup` takes a reference to the inode of the first entry that has the name. -/
theorem dirlookup_wp {Q : Option (ℕ × ℕ) → Fs → Prop} (h : s.Readable dp)
    (hcut : (s.inode dp).copy.size.toNat % direntSize ≠ 0 → E .dirlookupRead)
    (hnone : (∀ de ∈ s.entries dp, ¬ de.Names name) →
      (s.inode dp).copy.size.toNat = (s.entries dp).length * direntSize → Q none s)
    (hsome : ∀ k de, (s.entries dp)[k]? = some de → de.Names name →
      (∀ j < k, ∀ de, (s.entries dp)[j]? = some de → ¬ de.Names name) →
      Ends E (iget de.inum) s fun _ t => Q (some (de.inum, k * direntSize)) t) :
    Ends E (dirlookup sb dp name) s Q := by
  have hlen := h.length_entries
  refine .bind (copy_spec ?_)
  rw [if_neg (not_not.mpr h.dir), ← List.drop_zero (l := direntOffsets _), drop_direntOffsets]
  refine scan_wp h (lookupLoop sb dp name)
      (fun de => de.inum ≠ 0 ∧ namecmp name de.name = 0) _ rfl (fun _ _ => rfl) hcut _ 0
      (fun k _ hk => mul_lt_of_lt (by omega)) (fun hall => ?_) fun k de hde hname hbefore =>
      ?_
  · -- the loop would have stopped at an entry that is cut off
    have hwhole : (s.inode dp).copy.size.toNat = (s.entries dp).length * direntSize := by
      by_contra hne
      obtain ⟨de, hde, _⟩ :=
        hall (s.entries dp).length (Nat.zero_le _) (by simp only [direntSize] at hne hlen ⊢; omega)
      exact absurd (List.getElem?_eq_some_iff.mp hde).1 (Nat.lt_irrefl _)
    refine hnone (fun de hde => ?_) hwhole
    obtain ⟨k, hk, rfl⟩ := List.getElem_of_mem hde
    obtain ⟨_, hde', hnot⟩ := hall k (Nat.zero_le _) (by simp only [direntSize] at hlen ⊢; omega)
    obtain rfl := Option.some.inj ((List.getElem?_eq_getElem hk).symm.trans hde')
    exact hnot
  · refine (hsome k de hde hname fun j hj _ hde' => ?_).andThen fun _ _ ht => .pure ht
    obtain ⟨_, hde'', hnot⟩ := hbefore j (Nat.zero_le _) hj
    obtain rfl := Option.some.inj (hde'.symm.trans hde'')
    exact hnot

/-- `dirlink` writes the first free entry if no entry has the name. -/
theorem dirlink_wp {Q : Bool → Fs → Prop} {inum : ℕ} (h : s.Readable dp)
    (hcut : (s.inode dp).copy.size.toNat % direntSize ≠ 0 → E .dirlookupRead)
    (hnone : (∀ de ∈ s.entries dp, ¬ de.Names name) →
      (s.inode dp).copy.size.toNat = (s.entries dp).length * direntSize →
      Ends E (writei sb dp (.ofBytes (Dirent.bytes ⟨inum, strncpy dirSiz name⟩))
        (firstFree (s.entries dp) * direntSize) direntSize) s fun r t => Q (r = direntSize) t)
    (hsome : ∀ (k : ℕ) (de : Dirent), (s.entries dp)[k]? = some de → de.Names name →
      Ends E (iget de.inum) s fun _ t => Ends E (iput sb de.inum) t fun _ u => Q false u) :
    Ends E (dirlink sb dp name inum) s Q := by
  refine .bind (dirlookup_wp h hcut (fun hno hsize => ?_) fun k de hde hname _ => ?_)
  · have hlen : (direntOffsets (s.inode dp).copy.size.toNat).length = (s.entries dp).length := by
      rw [direntOffsets, List.length_map, List.length_range, hsize]
      simp only [direntSize]
      omega
    refine .bind (copy_spec (.bind ?_))
    rw [hlen, ← List.drop_zero (l := direntOffsets _), drop_direntOffsets]
    have hcut' : (s.inode dp).copy.size.toNat % direntSize ≠ 0 → E .dirlinkRead := by
      rw [hsize, Nat.mul_mod_left]
      exact absurd rfl
    refine scan_wp h (emptyLoop sb dp _) (fun de => de.inum = 0)
      (fun off _ => pure off) rfl (fun _ _ => rfl) hcut' _ 0 (fun k _ hk => mul_lt_of_lt (by omega))
      (fun hall => ?_) fun k de hde hfree hbefore => ?_
    · have hfirst : firstFree (s.entries dp) = (s.entries dp).length := by
        refine List.findIdx_eq_length.mpr fun de hde => ?_
        obtain ⟨k, hk, rfl⟩ := List.getElem_of_mem hde
        obtain ⟨_, hde', hused⟩ :=
          hall k (Nat.zero_le _) (by rw [hsize]; simp only [direntSize]; omega)
        obtain rfl := Option.some.inj ((List.getElem?_eq_getElem hk).symm.trans hde')
        simpa using hused
      rw [← hfirst]
      exact (hnone hno hsize).andThen fun _ _ ht => .pure ht
    · obtain ⟨hk, rfl⟩ := List.getElem?_eq_some_iff.mp hde
      have hfirst : firstFree (s.entries dp) = k := by
        refine (List.findIdx_eq hk).mpr ⟨decide_eq_true hfree, fun j hj => ?_⟩
        obtain ⟨_, hde', hused⟩ := hbefore j (Nat.zero_le _) hj
        obtain ⟨_, rfl⟩ := List.getElem?_eq_some_iff.mp hde'
        exact decide_eq_false hused
      rw [← hfirst]
      exact .pure ((hnone hno hsize).andThen fun _ _ ht => .pure ht)
  · exact (hsome k de hde hname).mono fun _ _ ht => ht.andThen fun _ _ hu => .pure hu

/-- A directory that `isdirempty` accepts has nothing after its first two entries. -/
theorem isdirempty_wp (h : s.Readable dp)
    (hcut : (s.inode dp).copy.size.toNat % direntSize ≠ 0 → E .isdiremptyReadi) :
    Ends E (isdirempty sb dp) s fun r t => t = s ∧
      (r = true → ∀ k, 2 ≤ k → ∀ de, (s.entries dp)[k]? = some de → de.inum = 0) := by
  have hlen := h.length_entries
  refine .bind (copy_spec ?_)
  rw [drop_direntOffsets]
  refine scan_wp h (emptyDirLoop sb dp) (fun de => de.inum ≠ 0) (fun _ _ => pure false) rfl
    (fun off offs => by simp only [emptyDirLoop, ite_not]; rfl) hcut _ 2 (fun k hk _ =>
      mul_lt_of_lt (by omega)) (fun hall => ?_)
    fun k de _ _ _ => .pure ⟨rfl, fun hr => absurd hr Bool.false_ne_true⟩
  refine ⟨rfl, fun _ k hk de hde => ?_⟩
  have hlt := (List.getElem?_eq_some_iff.mp hde).1
  obtain ⟨_, hde', hzero⟩ := hall k hk (by simp only [direntSize] at hlen ⊢; omega)
  obtain rfl := Option.some.inj (hde.symm.trans hde')
  exact not_not.mp hzero

/-! ## Writing an entry -/

/-- What `writei` of one entry does to the entries. -/
theorem ents_writei {d d' : Disk} {l : List Byte} {k : ℕ} {r : ℤ} {c : Dinode}
    (hw : WriteiDone sb dp (.ofBytes l) (k * direntSize) direntSize d (r, c) d')
    (hl : l.length = direntSize)
    (hfull : (dinodeAt sb d dp).Full d) (hdir : (dinodeAt sb d dp).type = tDir)
    (hk : k < ((dinodeAt sb d dp).ents d).length ∨ k = ((dinodeAt sb d dp).ents d).length ∧
      (dinodeAt sb d dp).size.toNat = k * direntSize) :
    c.ents d' = if r = direntSize then place ((dinodeAt sb d dp).ents d) k (.ofBytes l)
      else (dinodeAt sb d dp).ents d := by
  have hself : c = { dinodeAt sb d dp with size := c.size, addrs := c.addrs } := hw.self
  have htype : c.type = (dinodeAt sb d dp).type := by rw [hself]
  rcases hw.result with ⟨hr, hd⟩ | ⟨tot, hr, hwrote⟩
  · obtain ⟨rfl, rfl⟩ := Prod.mk.inj hr
    rw [if_neg (by decide), hd]
  · have htot : r = tot := hr
    rcases hwrote.one (by simp only [bSize, direntSize]; omega) with rfl | rfl
    · rw [if_neg (by rw [htot]; decide)]
      exact hwrote.ents_eq hl.ge hfull htype
    · rw [if_pos htot, place]
      rcases hk with hlt | ⟨heq, hsize⟩
      · rw [if_pos hlt]
        exact hwrote.ents_set hl hfull hdir htype (by rwa [Dinode.length_ents hdir] at hlt)
      · rw [if_neg (by omega)]
        exact hwrote.ents_append hl hfull hdir htype hsize

/-- A locked directory of a disk in order can be read. -/
theorem Ok.readable (ok : s.Ok sb) (h : s.Loaded dp) (hdir : (s.inode dp).copy.type = tDir) :
    s.Readable dp := by
  refine ⟨?_, hdir⟩
  rw [(ok.loaded dp h).1]
  exact ok.consistent.full dp (ok.allocated h)

/-- The node of a locked directory has the entries that the copy in memory gives. -/
theorem Ok.entries (ok : s.Ok sb) (h : s.Loaded dp) : (tree sb s.disk dp).ents = s.entries dp := by
  rw [ok.node h]
  rfl

/-- Writing the entry `k` of a directory. -/
theorem writeEnt_spec (wf : sb.Wf) (ok : s.Ok sb) (h : s.Loaded dp)
    (hdir : (s.inode dp).copy.type = tDir) {l : List Byte} (hl : l.length = direntSize) {k : ℕ}
    (hk : s.Slot dp k) :
    Ends NotFreeing (writei sb dp (.ofBytes l) (k * direntSize) direntSize) s fun r t =>
      After sb s s.refs
        (Function.update (tree sb s.disk) dp { tree sb s.disk dp with
          ents := if r = direntSize then place (s.entries dp) k (.ofBytes l) else s.entries dp })
        t := by
  have hal := ok.allocated h
  have hcopy := (ok.loaded dp h).1
  rw [Slot, Fs.entries, hcopy] at hk
  rw [hcopy] at hdir
  refine (writei_spec wf ok h (by norm_num [direntSize])).mono ?_
  rintro r t ⟨c, hw, hat⟩
  have hself : c = { dinodeAt sb s.disk dp with size := c.size, addrs := c.addrs } := hw.self
  have hents := ents_writei hw hl (ok.consistent.full dp hal) hdir hk
  have htype : c.type = (dinodeAt sb s.disk dp).type := by rw [hself]
  have hnlink : c.nlink = (dinodeAt sb s.disk dp).nlink := by rw [hself]
  rw [ok.node h]
  rwa [Dinode.node, htype, if_neg hal.2, hents, hnlink, ← hcopy] at hat

/-- `iput` of an inode that `iget` has just given. -/
theorem iput_of_iget (wf : sb.Wf) {t : Fs} {i : ℕ}
    (h : After sb s (Function.update s.refs i (s.refs i + 1)) (tree sb s.disk) t)
    (hnew : s.refs i = 0 → ¬ t.Loaded i) :
    Ends NotFreeing (iput sb i) t fun _ u => After sb s s.refs (tree sb s.disk) u := by
  refine (iput_spec wf h.ok).mono ?_
  rintro _ u ⟨nodes, hput, hu⟩
  have hrefs : Function.update t.refs i (t.refs i - 1) = s.refs := by
    rw [h.refs_eq, update_idem, update_self, Nat.add_sub_cancel, update_eq_self]
  rcases hput with ⟨⟨hone, hl, _⟩, _⟩ | ⟨_, rfl⟩
  · rw [h.refs_eq, update_self] at hone
    exact absurd hl (hnew (by omega))
  · rw [hrefs, h.nodes_eq] at hu
    refine h.trans hu fun j hj hr => ?_
    by_cases hji : j = i
    · rw [hji, update_self]
      omega
    · rwa [update_of_ne hji]

end Fs

end NeulaCpu.Xv6

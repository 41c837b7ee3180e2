import NeulaCpu.Lib.Trace
import NeulaCpu.Xv6.Directories

/-!
# The blocks stay consistent

Every sequence of operations on the file system, with all their failures, keeps the blocks
consistent, and `bfree` never meets a free block, provided that the entries of directories name
inodes that there are. `dirlookup` does not check the inode number of an entry: a number past the
inode area makes the kernel take a data block for an inode.
-/

namespace NeulaCpu.Xv6

open ByteStore Outcome Function

namespace Fs

/-- A file system whose directories name only inodes that there are. -/
structure Sound (sb : Superblock) (s : Fs) : Prop where
  ok : s.Ok sb
  inRange : InRange sb (tree sb s.disk)

/-- An operation that leaves the references as they were. -/
def Quiet (sb : Superblock) (s t : Fs) : Prop :=
  ∃ nodes, InRange sb nodes ∧ After sb s s.refs nodes t

variable {sb : Superblock} {s t u : Fs} {i : ℕ} {r : ℕ → ℕ} {nodes : ℕ → Node}

theorem After.sound (h : After sb s r nodes t) (hin : InRange sb nodes) : t.Sound sb :=
  ⟨h.ok, h.nodes_eq ▸ hin⟩

theorem Quiet.sound (h : Quiet sb s t) : t.Sound sb := by
  obtain ⟨nodes, hin, hat⟩ := h
  exact hat.sound hin

theorem Quiet.loaded (h : Quiet sb s t) (hl : s.Loaded i) : t.Loaded i := by
  obtain ⟨nodes, _, hat⟩ := h
  exact hat.loaded i hl hl.1

theorem Quiet.trans (h : Quiet sb s t) (h' : Quiet sb t u) : Quiet sb s u := by
  obtain ⟨nodes, _, hat⟩ := h
  obtain ⟨nodes', hin, hat'⟩ := h'
  refine ⟨nodes', hin, ?_⟩
  rw [hat.refs_eq] at hat'
  exact hat.trans hat' fun j hj _ => hj.1

section Steps

theorem iput_sound (wf : sb.Wf) (h : s.Sound sb) :
    Ends NotFreeing (iput sb i) s fun _ t => t.Sound sb ∧ ∀ j, j ≠ i → s.Loaded j → t.Loaded j := by
  refine (iput_spec wf h.ok).mono ?_
  rintro _ t ⟨nodes, hput, hat⟩
  refine ⟨hat.sound ?_, fun j hji hj => hat.loaded j hj ?_⟩
  · rcases hput with ⟨_, rfl⟩ | ⟨_, rfl⟩
    · exact h.inRange.update fun _ hde => nomatch hde
    · exact h.inRange
  · rw [update_of_ne hji]
    exact hj.1

theorem ilock_quiet (h : s.Sound sb) :
    Ends NotFreeing (ilock sb i) s fun _ t => Quiet sb s t ∧ t.Loaded i :=
  (ilock_spec h.ok).mono fun _ _ ht => ⟨⟨_, h.inRange, ht.1⟩, ht.2⟩

theorem update_quiet (wf : sb.Wf) (h : s.Sound sb) (hl : s.Loaded i) {f : Dinode → Dinode}
    (hf : ∀ c, (f c).type = c.type ∧ (f c).size = c.size ∧ (f c).addrs = c.addrs) :
    Ends NotFreeing (update sb i f) s fun _ t => Quiet sb s t :=
  (update_spec wf h.ok hl hf).mono fun _ _ ht => ⟨_, by exact h.inRange.update (h.inRange i), ht⟩

theorem dirlookup_sound {name : List Byte} (h : s.Sound sb) (hl : s.Loaded i) :
    Ends NotFreeing (dirlookup sb i name) s fun r t => t.Sound sb ∧ (∀ j, s.Loaded j → t.Loaded j) ∧
      ∀ p, r = some p → (tree sb t.disk i).type = tDir ∧
        ∃ k de, (tree sb t.disk i).ents[k]? = some de ∧ p.2 = k * direntSize := by
  by_cases hdir : (s.inode i).copy.type ≠ tDir
  · exact dirlookup_notDir hdir (by simp [NotFreeing])
  rw [not_not] at hdir
  refine dirlookup_wp (h.ok.readable hl hdir) (fun _ => by simp [NotFreeing]) (fun _ _ => ?_)
    fun k de hde _ _ => ?_
  · exact ⟨h, fun _ hj => hj, fun _ h => absurd h.symm (Option.some_ne_none _)⟩
  rw [← h.ok.entries hl] at hde
  refine (iget_spec h.ok (h.inRange i de (List.mem_of_getElem? hde))).mono ?_
  rintro _ t ⟨hat, _⟩
  refine ⟨hat.sound h.inRange, fun m hm => hat.loaded m hm ?_, ?_⟩
  · by_cases hmj : m = de.inum
    · rw [hmj, update_self]
      omega
    · rw [update_of_ne hmj]
      exact hm.1
  · rintro p hp
    rw [← Option.some.inj hp, hat.nodes_eq]
    exact ⟨by rw [h.ok.node hl, hdir], k, de, hde, rfl⟩

/-- An entry is written that names an inode that there is. -/
theorem writeEnt_quiet (wf : sb.Wf) (h : s.Sound sb) (hl : s.Loaded i)
    (hdir : (s.inode i).copy.type = tDir) {l : List ByteStore.Byte} (hlen : l.length = direntSize)
    (hinum : (Dirent.ofBytes l).inum < sb.ninodes) {k : ℕ} (hk : s.Slot i k) :
    Ends NotFreeing (writei sb i (.ofBytes l) (k * direntSize) direntSize) s fun _ t =>
      Quiet sb s t := by
  refine (writeEnt_spec wf h.ok hl hdir hlen hk).mono fun r t hat =>
    ⟨_, h.inRange.update fun de hde => ?_, hat⟩
  have hold (hde : de ∈ s.entries i) : de.inum < sb.ninodes :=
    h.inRange i de (by rwa [h.ok.entries hl])
  split_ifs at hde
  · rcases SlotTable.mem_place hde with rfl | hde
    · exact hinum
    · exact hold hde
  · exact hold hde

theorem dirlink_quiet (wf : sb.Wf) {name : List Byte} {inum : ℕ} (h : s.Sound sb) (hl : s.Loaded i)
    (hinum : inum < sb.ninodes) :
    Ends NotFreeing (dirlink sb i name inum) s fun _ t => Quiet sb s t := by
  by_cases hdir : (s.inode i).copy.type ≠ tDir
  · exact .bind (dirlookup_notDir hdir (by simp [NotFreeing]))
  rw [not_not] at hdir
  refine dirlink_wp (h.ok.readable hl hdir) (fun _ => by simp [NotFreeing]) (fun _ hsize => ?_)
    fun k de hde _ => ?_
  · have hback : Dirent.ofBytes (Dirent.bytes ⟨inum, strncpy dirSiz name⟩) =
        ⟨inum, strncpy dirSiz name⟩ :=
      Dirent.ofBytes_bytes (hinum.trans_le wf.ninodes_le)
    refine (writeEnt_quiet wf h hl hdir (Dirent.length_bytes (length_strncpy ..)) ?_
      (slot_firstFree hsize))
    rwa [hback]
  · rw [← h.ok.entries hl] at hde
    refine (iget_spec h.ok (h.inRange i de (List.mem_of_getElem? hde))).mono ?_
    rintro _ t ⟨hat, hnew⟩
    exact (iput_of_iget wf hat hnew).mono fun _ _ hu => ⟨_, h.inRange, hu⟩

theorem namexLoop_sound (wf : sb.Wf) {par : Bool} {names : List (List Byte)} :
    ∀ {s : Fs} {i : ℕ}, s.Sound sb →
      Ends NotFreeing (namexLoop sb par i names) s fun _ t => t.Sound sb := by
  induction names with
  | nil =>
    intro s i h
    unfold namexLoop
    split_ifs
    · exact (iput_sound wf h).andThen fun _ _ ht => .pure ht.1
    · exact .pure h
  | cons name names ih =>
    intro s i h
    refine (ilock_quiet h).andThen fun _ t ⟨ht, hl⟩ => .bind (copy_spec ?_)
    split_ifs
    · exact (iput_sound wf ht.sound).andThen fun _ _ hu => .pure hu.1
    · exact .pure ht.sound
    · refine (dirlookup_sound ht.sound hl).andThen ?_
      rintro (_ | ⟨next, off⟩) u ⟨hu, _, _⟩
      · exact (iput_sound wf hu).andThen fun _ _ hv => .pure hv.1
      · exact (iput_sound wf hu).andThen fun _ _ hv => ih hv.1

theorem namex_sound (wf : sb.Wf) {cwd : ℕ} {par : Bool} {path : List Byte} (h : s.Sound sb)
    (hcwd : 0 < s.refs cwd) : Ends NotFreeing (namex sb cwd par path) s fun _ t => t.Sound sb := by
  unfold namex
  split_ifs
  · exact (iget_spec h.ok wf.root).andThen fun _ _ ht => namexLoop_sound wf (ht.1.sound h.inRange)
  · exact (idup_spec h.ok hcwd).andThen fun _ _ ht => namexLoop_sound wf (ht.sound h.inRange)

end Steps

section Calls

theorem createEntries_quiet (wf : sb.Wf) {dp ip : ℕ} {name : List Byte} {type : BitVec 16}
    (h : s.Sound sb) (hdp : s.Loaded dp) (hip : s.Loaded ip) :
    Ends NotFreeing (createEntries sb dp ip name type) s fun _ t => Quiet sb s t := by
  have hdp' := h.ok.inRange dp hdp.1
  have hip' := h.ok.inRange ip hip.1
  unfold createEntries
  split_ifs
  · refine (dirlink_quiet wf h hip hip').andThen fun r t ht => ?_
    split_ifs
    · refine (dirlink_quiet wf ht.sound (ht.loaded hip) hdp').andThen fun r u hu => ?_
      split_ifs
      · exact (dirlink_quiet wf hu.sound (hu.loaded (ht.loaded hdp)) hip').mono fun _ _ hv =>
          (ht.trans hu).trans hv
      · exact .pure (ht.trans hu)
    · exact .pure ht
  · exact dirlink_quiet wf h hdp hip'

/-- `create` keeps the disk sound. -/
theorem createIn_sound (wf : sb.Wf) {dp : ℕ} {name : List Byte} {type major minor : BitVec 16}
    (h : s.Sound sb) (hdp : s.Loaded dp) :
    Ends NotFreeing (createIn sb dp name type major minor) s fun _ t => t.Sound sb := by
  refine (dirlookup_sound h hdp).andThen ?_
  rintro (_ | ⟨ip, off⟩) t ⟨ht, hload, _⟩
  · refine (ialloc_spec wf ht.ok).andThen ?_
    rintro r u (⟨rfl, hu⟩ | ⟨ip, rfl, hip, _, hfree, hu⟩)
    · exact (iput_sound wf (hu.sound ht.inRange)).andThen fun _ _ hv => .pure hv.1
    · have hnew : InRange sb (Function.update (tree sb t.disk) ip (Node.new type)) := by
        refine ht.inRange.update fun de hde => ?_
        rw [Node.new] at hde
        split_ifs at hde <;> cases hde
      have hne : dp ≠ ip := by
        rintro rfl
        have hal := allocated_iff_tree.mp (ht.ok.allocated (hload dp hdp))
        rw [hfree] at hal
        exact hal rfl
      have hdpu : u.Loaded dp := hu.loaded dp (hload dp hdp) (by
        rw [update_of_ne hne]
        exact (hload dp hdp).1)
      refine (ilock_quiet (hu.sound hnew)).andThen ?_
      rintro _ v ⟨hv, hipv⟩
      refine (update_quiet wf hv.sound hipv (by simp)).andThen fun _ w hw => ?_
      have hdpw := hw.loaded (hv.loaded hdpu)
      have hipw := hw.loaded hipv
      refine (createEntries_quiet wf hw.sound hdpw hipw).andThen fun r x hx => ?_
      split_ifs
      · refine (update_quiet wf hx.sound (hx.loaded hdpw) (by simp)).andThen fun _ y hy => ?_
        exact (iput_sound wf hy.sound).andThen fun _ _ hz => .pure hz.1
      · exact (iput_sound wf hx.sound).andThen fun _ _ hz => .pure hz.1
      · refine (update_quiet wf hx.sound (hx.loaded hipw) (by simp)).andThen fun _ y hy => ?_
        refine (iput_sound wf hy.sound).andThen fun _ z hz => ?_
        exact (iput_sound wf hz.1).andThen fun _ _ hz => .pure hz.1
  · refine (iput_sound wf ht).andThen fun _ u hu => (ilock_quiet hu.1).andThen fun _ v hv => ?_
    refine .bind (copy_spec ?_)
    split_ifs
    · exact .pure hv.1.sound
    · exact (iput_sound wf hv.1.sound).andThen fun _ _ hw => .pure hw.1

theorem create_sound (wf : sb.Wf) {cwd : ℕ} {path : List Byte} {type major minor : BitVec 16}
    (h : s.Sound sb) (hcwd : 0 < s.refs cwd) :
    Ends NotFreeing (create sb cwd path type major minor) s fun _ t => t.Sound sb := by
  refine (namex_sound wf h hcwd).andThen ?_
  rintro (_ | ⟨dp, name⟩) t ht
  · exact .pure ht
  · exact (ilock_quiet ht).andThen fun _ u hu => createIn_sound wf hu.1.sound hu.2

theorem unlinkEntry_sound (wf : sb.Wf) {dp ip k : ℕ} {de : Dirent} (h : s.Sound sb)
    (hdp : s.Loaded dp) (hip : s.Loaded ip) (hne : ip ≠ dp) (hdir : (tree sb s.disk dp).type = tDir)
    (hk : (tree sb s.disk dp).ents[k]? = some de) :
    Ends NotFreeing (unlinkEntry sb dp ip (k * direntSize)) s fun _ t => t.Sound sb := by
  rw [h.ok.node hdp] at hdir hk
  have hzero : (Dirent.ofBytes (List.replicate direntSize 0)).inum < sb.ninodes :=
    Nat.lt_of_le_of_lt (Nat.zero_le _) wf.root
  refine (writeEnt_quiet wf h hdp hdir List.length_replicate hzero
    (.inl (List.getElem?_eq_some_iff.mp hk).1)).andThen fun r t hq => ?_
  split_ifs
  · exact .throw (by simp [NotFreeing])
  have hdpt := hq.loaded hdp
  have hipt := hq.loaded hip
  refine .bind (copy_spec ?_)
  split_ifs
  · refine (update_quiet wf hq.sound hdpt (by simp)).andThen fun _ u hu => ?_
    refine (iput_sound wf hu.sound).andThen fun _ v hv => ?_
    refine (update_quiet wf hv.1 (hv.2 ip hne (hu.loaded hipt)) (by simp)).andThen fun _ w hw => ?_
    exact (iput_sound wf hw.sound).andThen fun _ _ hx => .pure hx.1
  · refine (iput_sound wf hq.sound).andThen fun _ v hv => ?_
    refine (update_quiet wf hv.1 (hv.2 ip hne hipt) (by simp)).andThen fun _ w hw => ?_
    exact (iput_sound wf hw.sound).andThen fun _ _ hx => .pure hx.1

theorem isFullDir_spec {ip : ℕ} (h : s.Sound sb) (hip : s.Loaded ip) :
    Ends NotFreeing (isFullDir sb ip) s fun r t => t = s ∧
      (r = false → (tree sb s.disk ip).type = tDir →
        ∀ k, 2 ≤ k → ∀ de, (tree sb s.disk ip).ents[k]? = some de → de.inum = 0) := by
  refine .bind (copy_spec ?_)
  rw [(h.ok.loaded ip hip).1, ← tree_type (h.ok.inRange ip hip.1)]
  by_cases hdir : (tree sb s.disk ip).type = tDir
  · rw [if_pos hdir]
    rw [h.ok.entries hip]
    rw [h.ok.node hip] at hdir
    refine (isdirempty_wp (h.ok.readable hip hdir) fun _ => by simp [NotFreeing]).andThen
      fun r t ⟨ht, hall⟩ => .pure ⟨ht, fun hr _ => hall ?_⟩
    simpa using hr
  · rw [if_neg hdir]
    exact .pure ⟨rfl, fun _ h => absurd h hdir⟩

theorem unlinkIn_sound (wf : sb.Wf) {dp : ℕ} {name : List Byte} (h : s.Sound sb)
    (hdp : s.Loaded dp) : Ends NotFreeing (unlinkIn sb dp name) s fun _ t => t.Sound sb := by
  unfold unlinkIn
  split_ifs
  · exact (iput_sound wf h).andThen fun _ _ ht => .pure ht.1
  refine (dirlookup_sound h hdp).andThen ?_
  rintro (_ | ⟨ip, off⟩) t ⟨ht, hload, hent⟩
  · exact (iput_sound wf ht).andThen fun _ _ hu => .pure hu.1
  obtain ⟨hdir, k, de, hk, hoff⟩ := hent (ip, off) rfl
  simp only at hoff ⊢
  subst hoff
  by_cases hne : ip = dp
  · rw [if_pos hne]
    exact .throw (by simp [NotFreeing])
  rw [if_neg hne]
  refine (ilock_spec ht.ok).andThen ?_
  rintro _ u ⟨hu, hip⟩
  refine .bind (copy_spec ?_)
  have hus := hu.sound ht.inRange
  have hdpu := hu.loaded dp (hload dp hdp) (hload dp hdp).1
  split_ifs
  · exact .throw (by simp [NotFreeing])
  refine (isFullDir_spec hus hip).andThen ?_
  rintro r _ ⟨rfl, _⟩
  split_ifs
  · refine (iput_sound wf hus).andThen fun _ v hv => ?_
    exact (iput_sound wf hv.1).andThen fun _ _ hw => .pure hw.1
  · exact unlinkEntry_sound wf hus hdpu hip hne (by rwa [hu.nodes_eq]) (by rwa [hu.nodes_eq])

theorem unlink_sound (wf : sb.Wf) {cwd : ℕ} {path : List Byte} (h : s.Sound sb)
    (hcwd : 0 < s.refs cwd) : Ends NotFreeing (unlink sb cwd path) s fun _ t => t.Sound sb := by
  refine (namex_sound wf h hcwd).andThen ?_
  rintro (_ | ⟨dp, name⟩) t ht
  · exact .pure ht
  · exact (ilock_quiet ht).andThen fun _ u hu => unlinkIn_sound wf hu.1.sound hu.2

end Calls

end Fs

/-- An operation on the file system. A file is named by a reference to its inode, a path is looked
up from the current directory `cwd` of the caller. -/
inductive FsOp
  | writei (ip : ℕ) (src : Source) (off n : BitVec 32)
  | readi (ip : ℕ) (dst : Dest) (off n : BitVec 32)
  | itrunc (ip : ℕ)
  | ialloc (type : BitVec 16)
  | iput (ip : ℕ)
  | namei (cwd : ℕ) (path : List Byte)
  | create (cwd : ℕ) (path : List Byte) (type major minor : BitVec 16)
  | unlink (cwd : ℕ) (path : List Byte)

namespace FsOp

/-- The code that is run. A caller locks an inode before it reads, writes or truncates it. -/
def command (sb : Superblock) : FsOp → FsM Unit
  | writei ip src off n => do
    Fs.ilock sb ip
    discard (Fs.writei sb ip src off.toNat n.toNat)
  | readi ip dst off n => do
    Fs.ilock sb ip
    discard (Fs.readi sb ip dst off.toNat n.toNat)
  | itrunc ip => do
    Fs.ilock sb ip
    Fs.itrunc sb ip
  | ialloc type => discard (Fs.ialloc sb type)
  | iput ip => Fs.iput sb ip
  | namei cwd path => discard (Fs.namei sb cwd path)
  | create cwd path type major minor => discard (Fs.create sb cwd path type major minor)
  | unlink cwd path => discard (Fs.unlink sb cwd path)

/-- The caller has the references that it uses without looking. -/
def Held (s : Fs) : FsOp → Prop
  | iput ip => 0 < s.refs ip
  | namei cwd _ => 0 < s.refs cwd
  | create cwd _ _ _ _ => 0 < s.refs cwd
  | unlink cwd _ => 0 < s.refs cwd
  | _ => True

instance (s : Fs) : DecidablePred (Held s)
  | iput _ => inferInstanceAs (Decidable (0 < _))
  | namei .. => inferInstanceAs (Decidable (0 < _))
  | create .. => inferInstanceAs (Decidable (0 < _))
  | unlink .. => inferInstanceAs (Decidable (0 < _))
  | writei .. => .isTrue trivial
  | readi .. => .isTrue trivial
  | itrunc _ => .isTrue trivial
  | ialloc _ => .isTrue trivial

/-- The state after an operation; none after a panic. -/
def step (sb : Superblock) (s : Fs) (op : FsOp) : Option Fs :=
  if op.Held s then
    match op.command sb s with
    | .ok (_, t) => some t
    | .error _ => none
  else none

/-- The panic in which an operation ends, if any. -/
def panicOf (sb : Superblock) (s : Fs) (op : FsOp) : Option FsPanic :=
  match op.command sb s with
  | .ok _ => none
  | .error e => some e

/-- A write goes to a file that is not a directory: `sys_open` opens a directory for reading
only. -/
def WritesFile (sb : Superblock) (s : Fs) : FsOp → Prop
  | writei ip _ _ _ => (dinodeAt sb s.disk ip).type ≠ tDir
  | _ => True

instance (sb : Superblock) (s : Fs) : DecidablePred (WritesFile sb s)
  | writei .. => inferInstanceAs (Decidable (_ ≠ _))
  | readi .. => .isTrue trivial
  | itrunc _ => .isTrue trivial
  | ialloc _ => .isTrue trivial
  | iput _ => .isTrue trivial
  | namei .. => .isTrue trivial
  | create .. => .isTrue trivial
  | unlink .. => .isTrue trivial

variable {sb : Superblock} {s t : Fs} {op : FsOp}

theorem writei_sound (wf : sb.Wf) {ip off n : ℕ} {src : Source} (h : s.Sound sb) (hl : s.Loaded ip)
    (hn : n < 2 ^ 32) (hfile : (dinodeAt sb s.disk ip).type ≠ tDir) :
    Ends NotFreeing (Fs.writei sb ip src off n) s fun _ t => t.Sound sb := by
  refine (Fs.writei_spec wf h.ok hl hn).mono ?_
  rintro r t ⟨c, hw, hat⟩
  refine hat.sound (h.inRange.update fun de hde => ?_)
  have hself : c = { dinodeAt sb s.disk ip with size := c.size, addrs := c.addrs } := hw.self
  have htype : c.type ≠ tDir := by
    rw [hself]
    exact hfile
  rw [Dinode.node, Dinode.ents, if_neg htype] at hde
  split_ifs at hde <;> cases hde

/-- One operation. -/
theorem command_sound (wf : sb.Wf) (h : s.Sound sb) (hheld : op.Held s)
    (hfile : op.WritesFile sb s) : Ends NotFreeing (op.command sb) s fun _ t => t.Sound sb := by
  cases op with
  | writei ip src off n =>
    refine (Fs.ilock_spec h.ok).andThen ?_
    rintro _ t ⟨ht, hl⟩
    apply Ends.discard
    refine writei_sound wf (ht.sound h.inRange) hl n.isLt ?_
    rwa [← tree_type (ht.ok.inRange ip hl.1), ht.nodes_eq, tree_type (ht.ok.inRange ip hl.1)]
  | readi ip dst off n =>
    refine (Fs.ilock_spec h.ok).andThen ?_
    rintro _ t ⟨ht, hl⟩
    apply Ends.discard
    refine (Fs.readi_spec ht.ok hl n.isLt).mono ?_
    rintro _ _ ⟨rfl, _⟩
    exact ht.sound h.inRange
  | itrunc ip =>
    refine (Fs.ilock_spec h.ok).andThen ?_
    rintro _ t ⟨ht, hl⟩
    have hs := ht.sound h.inRange
    exact (Fs.itrunc_spec wf hs.ok hl).mono fun _ u hu =>
      hu.1.sound (hs.inRange.update fun _ hde => absurd hde List.not_mem_nil)
  | ialloc type =>
    refine Ends.discard ((Fs.ialloc_spec wf h.ok).mono ?_)
    rintro _ t (⟨_, ht⟩ | ⟨j, _, _, _, _, ht⟩)
    · exact ht.sound h.inRange
    · refine ht.sound (h.inRange.update fun de hde => ?_)
      rw [Fs.Node.new] at hde
      split_ifs at hde <;> cases hde
  | iput ip => exact (Fs.iput_sound wf h).mono fun _ _ ht => ht.1
  | namei cwd path => exact Ends.discard ((Fs.namex_sound wf h hheld).andThen fun _ _ ht =>
    .pure ht)
  | create cwd path type major minor => exact Ends.discard (Fs.create_sound wf h hheld)
  | unlink cwd path => exact Ends.discard (Fs.unlink_sound wf h hheld)

theorem sound_step (wf : sb.Wf) (h : s.Sound sb) (hfile : op.WritesFile sb s)
    (ht : step sb s op = some t) : t.Sound sb := by
  rw [step] at ht
  split_ifs at ht with hheld
  have hend := command_sound wf h hheld hfile
  rw [Ends] at hend
  split at ht
  · rename_i heq
    rw [heq, Option.some.inj ht] at hend
    exact hend
  · cases ht

end FsOp

/-- **Block ownership.** From a file system with consistent blocks, whose directories name only
inodes that there are, every sequence of operations that writes only to files other than directories
leaves the blocks consistent and the inodes in memory in agreement with the disk, and the next
operation does not panic with "freeing free block". -/
theorem blocks_stay_consistent {sb : Superblock} (wf : sb.Wf) {s t : Fs} {ops : List FsOp}
    (h : s.Sound sb) (hfile : Trace.Meets (FsOp.step sb) (FsOp.WritesFile sb) s ops)
    (run : Trace.exec (FsOp.step sb) s ops = some t) :
    Consistent sb t.disk ∧ (∀ i, t.Loaded i → (t.inode i).copy = dinodeAt sb t.disk i) ∧
      ∀ op : FsOp, op.Held t → op.WritesFile sb t → op.panicOf sb t ≠ some .freeingFreeBlock := by
  have hs := Trace.invariant (fun s op t hs hA ht => FsOp.sound_step wf hs hA ht) h hfile run
  refine ⟨hs.ok.consistent, fun i hi => (hs.ok.loaded i hi).1, fun op hheld hw hpanic => ?_⟩
  have hend := FsOp.command_sound wf hs hheld hw
  rw [FsOp.panicOf] at hpanic
  rw [Ends] at hend
  split at hpanic
  · cases hpanic
  · rename_i e heq
    rw [heq, Option.some.inj hpanic] at hend
    exact hend rfl

/-! ## A disk with one file -/

section Sample

/-- An inode with one block. -/
def oneBlock (type : BitVec 16) (size b : ℕ) : Dinode :=
  ⟨type, 0, 0, 1, BitVec.ofNat 32 size, fun k => if k.val = 0 then BitVec.ofNat 32 b else 0⟩

/-- The bitmap, a directory in which `x` names the inode `inum`, and a block that looks like an
inode whose first block is free. -/
def sampleBlocks (inum : ℕ) : Disk := fun b =>
  if b = 45 then fun k => if k < 6 then 255 else 0
  else if b = 46 then put (fun _ => 0) 0 (Dirent.bytes ⟨1, strncpy dirSiz dot⟩ ++
    Dirent.bytes ⟨1, strncpy dirSiz dotdot⟩ ++ Dirent.bytes ⟨inum, strncpy dirSiz [120]⟩)
  else if b = 47 then put (fun _ => 0) 0 (oneBlock tFile 0 48).bytes
  else fun _ => 0

/-- The directory is the root, and the other block belongs to the file with the inode 2. -/
def sampleDisk (inum : ℕ) : Disk :=
  setDinode Mkfs.sb (setDinode Mkfs.sb (sampleBlocks inum) 1 (oneBlock tDir 48 46)) 2
    (oneBlock tFile 64 47)

/-- The root directory is in use. -/
def sampleFs (inum : ℕ) : Fs :=
  ⟨sampleDisk inum, fun i => if i = rootIno then ⟨1, false, .zero⟩ else ⟨0, false, .zero⟩, 1⟩

variable {inum : ℕ}

theorem oneBlock_slot {type : BitVec 16} {size b n : ℕ} {d : Disk} (hb : b < 2 ^ 32) :
    (oneBlock type size b).slot d n = if n = 0 then b else 0 := by
  have haddr (k : ℕ) : (oneBlock type size b).addr k = if k = 0 then b else 0 := by
    simp only [Dinode.addr, oneBlock]
    split_ifs <;> first | rfl | exact Nat.mod_eq_of_lt hb | omega
  have hind : (oneBlock type size b).addr nDirect = 0 := by rw [haddr, if_neg (by decide)]
  rw [Dinode.slot, Dinode.block, hind]
  by_cases hn : n = 0
  · rw [hn, if_neg (by decide), if_pos (by decide), haddr]
  · rw [if_neg hn]
    split_ifs with h1 h2 h3
    · rfl
    · rw [haddr, if_neg hn]
    · exact absurd rfl h3.2
    · rfl

theorem dinodeAt_sample : dinodeAt Mkfs.sb (sampleDisk inum) =
    Function.update (Function.update (dinodeAt Mkfs.sb (sampleBlocks inum)) 1 (oneBlock tDir 48 46))
      2 (oneBlock tFile 64 47) := by
  rw [sampleDisk, dinodeAt_setDinode, dinodeAt_setDinode]

theorem sample_free {i : ℕ} (hi : i < Mkfs.sb.ninodes) (h1 : i ≠ 1) (h2 : i ≠ 2) :
    (dinodeAt Mkfs.sb (sampleDisk inum) i).type = 0 := by
  have hblk : iBlock Mkfs.sb i < 45 := Superblock.Wf.iBlock_lt (by decide) hi
  have hzero : sampleBlocks inum (iBlock Mkfs.sb i) = fun _ => 0 := by
    rw [sampleBlocks, if_neg (by omega), if_neg (by omega), if_neg (by omega)]
  rw [dinodeAt_sample, update_of_ne h2, update_of_ne h1, dinodeAt, hzero]
  simp [word16]

theorem sample_bit {b : ℕ} (hb : b < Mkfs.sb.size) :
    bitAt Mkfs.sb (sampleDisk inum) b = decide (b < 48) := by
  rw [sampleDisk, bitAt_setDinode (by decide) (by decide), bitAt_setDinode (by decide) (by decide)]
  have hblk : bBlock Mkfs.sb b = 45 := by
    simp only [Mkfs.sb, fsSize, bBlock, bpb, bSize] at hb ⊢
    have h : Mkfs.nlog = 30 := rfl
    have h' : Mkfs.ninodeblocks = 13 := rfl
    omega
  rw [bitAt, hblk, sampleBlocks, if_pos rfl]
  have hlt : b % bpb % 8 < 8 := Nat.mod_lt _ (by norm_num)
  by_cases h : b < 48
  · rw [if_pos (by simp only [bpb, bSize]; omega), decide_eq_true h]
    have hones : (255 : Byte) = BitVec.allOnes 8 := rfl
    rw [hones, BitVec.getLsbD_allOnes]
    simpa using hlt
  · have hb' : b < 2000 := hb
    rw [if_neg (by simp only [bpb, bSize]; omega), decide_eq_false h]
    exact BitVec.getLsbD_zero

/-- The blocks are consistent, whatever inode `x` names. -/
theorem consistent_sample : Consistent Mkfs.sb (sampleDisk inum) := by
  have hroot : dinodeAt Mkfs.sb (sampleDisk inum) 1 = oneBlock tDir 48 46 := by
    rw [dinodeAt_sample, update_of_ne (by decide), update_self]
  have hfile : dinodeAt Mkfs.sb (sampleDisk inum) 2 = oneBlock tFile 64 47 := by
    rw [dinodeAt_sample, update_self]
  have hal {i : ℕ} (h : Allocated Mkfs.sb (dinodeAt Mkfs.sb (sampleDisk inum)) i) :
      i = 1 ∨ i = 2 := by
    by_contra hne
    rw [not_or] at hne
    exact h.2 (sample_free h.1 hne.1 hne.2)
  have howns (x : ℕ × ℕ) (b : ℕ) :
    SlotOwns Mkfs.sb (dinodeAt Mkfs.sb (sampleDisk inum)) (sampleDisk inum) x b ↔
      x = (1, 0) ∧ b = 46 ∨ x = (2, 0) ∧ b = 47 := by
    obtain ⟨i, n⟩ := x
    constructor
    · rintro ⟨h, rfl, hb⟩
      rcases hal h with rfl | rfl
      · simp only [hroot, oneBlock_slot (by norm_num : 46 < 2 ^ 32)] at hb ⊢
        split_ifs at hb ⊢ with hn
        · exact Or.inl ⟨by rw [hn], rfl⟩
        · exact absurd rfl hb
      · simp only [hfile, oneBlock_slot (by norm_num : 47 < 2 ^ 32)] at hb ⊢
        split_ifs at hb ⊢ with hn
        · exact Or.inr ⟨by rw [hn], rfl⟩
        · exact absurd rfl hb
    · rintro (⟨h, rfl⟩ | ⟨h, rfl⟩)
      · obtain ⟨rfl, rfl⟩ := Prod.mk.inj h
        refine ⟨⟨by decide, ?_⟩, ?_, by decide⟩
        · simp only [hroot]
          decide
        · simp only [hroot, oneBlock_slot (by norm_num : 46 < 2 ^ 32), if_pos]
      · obtain ⟨rfl, rfl⟩ := Prod.mk.inj h
        refine ⟨⟨by decide, ?_⟩, ?_, by decide⟩
        · simp only [hfile]
          decide
        · simp only [hfile, oneBlock_slot (by norm_num : 47 < 2 ^ 32), if_pos]
  have hmeta : Mkfs.sb.nmeta = 46 := by decide
  refine ⟨⟨⟨fun b => ?_, fun b x y hx hy => ?_⟩, fun b hb => ?_⟩, fun i hi bn hbn => ?_⟩
  · rw [InUse, hmeta]
    constructor
    · rintro ⟨h1, h2, h3⟩
      rw [sample_bit h2, decide_eq_true_eq] at h3
      rcases Nat.lt_or_eq_of_le h1 with h | rfl
      · exact ⟨(2, 0), (howns _ _).mpr (Or.inr ⟨rfl, by omega⟩)⟩
      · exact ⟨(1, 0), (howns _ _).mpr (Or.inl ⟨rfl, rfl⟩)⟩
    · rintro ⟨x, hx⟩
      have hb : b = 46 ∨ b = 47 := by
        rcases (howns x b).mp hx with ⟨_, rfl⟩ | ⟨_, rfl⟩
        · exact Or.inl rfl
        · exact Or.inr rfl
      have hlt : b < Mkfs.sb.size := by
        show b < 2000
        omega
      refine ⟨by omega, hlt, ?_⟩
      rw [sample_bit hlt, decide_eq_true_eq]
      omega
  · rcases (howns x b).mp hx with ⟨rfl, rfl⟩ | ⟨rfl, rfl⟩
    · rcases (howns y 46).mp hy with ⟨rfl, _⟩ | ⟨_, h⟩
      · rfl
      · exact absurd h (by decide)
    · rcases (howns y 47).mp hy with ⟨_, h⟩ | ⟨rfl, _⟩
      · exact absurd h (by decide)
      · rfl
  · rw [hmeta] at hb
    have hlt : b < Mkfs.sb.size := by
      show b < 2000
      omega
    rw [sample_bit hlt, decide_eq_true_eq]
    omega
  · rcases hal hi with rfl | rfl
    · rw [hroot] at hbn ⊢
      have h0 : bn = 0 := by
        have h : bn * 1024 < 48 := hbn
        omega
      rw [h0, ← Dinode.slot_of_ne (by decide), oneBlock_slot (by norm_num)]
      decide
    · rw [hfile] at hbn ⊢
      have h0 : bn = 0 := by
        have h : bn * 1024 < 64 := hbn
        omega
      rw [h0, ← Dinode.slot_of_ne (by decide), oneBlock_slot (by norm_num)]
      decide

theorem ok_sample : (sampleFs inum).Ok Mkfs.sb where
  consistent := consistent_sample
  inRange i hi := by
    have hroot : i = rootIno := by
      by_contra hne
      simp [Fs.refs, sampleFs, hne] at hi
    rw [hroot]
    decide
  loaded i hi := by
    have hv := hi.2
    simp only [sampleFs] at hv
    split_ifs at hv

theorem sound_sample : (sampleFs 2).Sound Mkfs.sb where
  ok := ok_sample
  inRange i de hde := by
    by_cases h1 : i = 1
    · subst h1
      have hall : ∀ de ∈ (tree Mkfs.sb (sampleDisk 2) 1).ents, de.inum < Mkfs.sb.ninodes := by
        decide +kernel
      exact hall de hde
    · -- no other inode is a directory
      have hne : (tree Mkfs.sb (sampleDisk 2) i).ents = [] := by
        rw [tree]
        split_ifs with hi
        · by_cases h2 : i = 2
          · subst h2
            rw [dinodeAt_sample, update_self]
            rfl
          · rw [Dinode.node, if_pos (sample_free hi h1 h2)]
            rfl
        · rfl
      rw [show tree Mkfs.sb (sampleFs 2).disk i = tree Mkfs.sb (sampleDisk 2) i from rfl,
        hne] at hde
      cases hde

/-- An entry that names an inode past the inode area: its inode is a block of the other file, and
removing the entry frees a block that is free. -/
theorem unlink_frees_free_block :
    Consistent Mkfs.sb (sampleFs 240).disk ∧ (sampleFs 240).Ok Mkfs.sb ∧
      FsOp.panicOf Mkfs.sb (sampleFs 240) (.unlink rootIno [slash, 120]) = some .freeingFreeBlock :=
  ⟨consistent_sample, ok_sample, by decide +kernel⟩

/-- A file is created, a write to it stops at a bad address in its second block, and both files are
removed. -/
def sampleOps : List FsOp :=
  [.create rootIno [slash, 97] tFile 0 0,
    .writei 3 (fun k => if k < 1500 then some 7 else none) 0 3000,
    .unlink rootIno [slash, 120], .unlink rootIno [slash, 97], .iput 3]

theorem blocks_stay_consistent_sample :
    ∃ t, Trace.exec (FsOp.step Mkfs.sb) (sampleFs 2) sampleOps = some t ∧
      Consistent Mkfs.sb t.disk ∧ (∀ i, t.Loaded i → (t.inode i).copy = dinodeAt Mkfs.sb t.disk i) ∧
      ∀ op : FsOp, op.Held t → op.WritesFile Mkfs.sb t →
        op.panicOf Mkfs.sb t ≠ some .freeingFreeBlock := by
  have hsome : (Trace.exec (FsOp.step Mkfs.sb) (sampleFs 2) sampleOps).isSome = true := by
    decide +kernel
  have hfile : Trace.Meets (FsOp.step Mkfs.sb) (FsOp.WritesFile Mkfs.sb)
      (sampleFs 2) sampleOps := by
    decide +kernel
  obtain ⟨t, ht⟩ := Option.isSome_iff_exists.mp hsome
  exact ⟨t, ht, blocks_stay_consistent (by decide) sound_sample hfile ht⟩

end Sample

end NeulaCpu.Xv6

import NeulaCpu.Xv6.FsTree

/-!
# The functions on inodes

Every function on inodes keeps the blocks consistent and the inode table in agreement with the disk.
It is described by what it does to the nodes and to the counts of references, and it keeps loaded
the inodes that are still referenced.
-/

namespace NeulaCpu.Xv6

open ByteStore Outcome Function

/-- Not the panic of `bfree`. -/
def NotFreeing (e : FsPanic) : Prop := e ≠ .freeingFreeBlock

namespace Fs

variable (sb : Superblock) (s : Fs)

def refs (i : ℕ) : ℕ := (s.inode i).ref

/-- The inode is in the table and was read from the disk. -/
def Loaded (i : ℕ) : Prop := 0 < s.refs i ∧ (s.inode i).valid = true

/-- The blocks are consistent, and the table holds inodes of the disk as they are there. -/
structure Ok : Prop where
  consistent : Consistent sb s.disk
  inRange : ∀ i, 0 < s.refs i → i < sb.ninodes
  loaded :
    ∀ i, s.Loaded i → (s.inode i).copy = dinodeAt sb s.disk i ∧ (dinodeAt sb s.disk i).type ≠ 0

/-- The state after a function that was begun in `s`: the references are `r` and the nodes are
`nodes`. -/
structure After (r : ℕ → ℕ) (nodes : ℕ → Node) (t : Fs) : Prop where
  ok : t.Ok sb
  refs_eq : t.refs = r
  nodes_eq : tree sb t.disk = nodes
  loaded : ∀ j, s.Loaded j → 0 < r j → t.Loaded j

end Fs

namespace Fs

section Table

variable {sb : Superblock} {s t u : Fs} {i j : ℕ} {r r' : ℕ → ℕ} {nodes nodes' : ℕ → Node}

theorem Ok.allocated (ok : s.Ok sb) (h : s.Loaded i) : Allocated sb (dinodeAt sb s.disk) i :=
  ⟨ok.inRange i h.1, (ok.loaded i h).2⟩

theorem Ok.node (ok : s.Ok sb) (h : s.Loaded i) : tree sb s.disk i =
    ⟨(s.inode i).copy.type, (s.inode i).copy.nlink, (s.inode i).copy.ents s.disk⟩ := by
  rw [tree_of_allocated (ok.allocated h), (ok.loaded i h).1]

theorem After.refl (ok : s.Ok sb) : After sb s s.refs (tree sb s.disk) s :=
  ⟨ok, rfl, rfl, fun _ h _ => h⟩

/-- Two functions, one after the other; the first keeps the references that the second leaves. -/
theorem After.trans (h : After sb s r nodes t) (h' : After sb t r' nodes' u)
    (hr : ∀ j, s.Loaded j → 0 < r' j → 0 < r j) : After sb s r' nodes' u :=
  ⟨h'.ok, h'.refs_eq, h'.nodes_eq, fun j hj hr' => h'.loaded j (h.loaded j hj (hr j hj hr')) hr'⟩

/-- A change of one entry of the table that keeps what it holds, and its disk. -/
theorem After.setInode {e : Inode} {n : ℕ} (ok : s.Ok sb) (hi : 0 < e.ref → i < sb.ninodes)
    (hload : 0 < e.ref → e.valid = true → e.copy = dinodeAt sb s.disk i ∧
    (dinodeAt sb s.disk i).type ≠ 0)
    (hvalid : s.Loaded i → 0 < e.ref → e.valid = true) :
    After sb s (Function.update s.refs i e.ref) (tree sb s.disk)
      { s.setInode i e with used := n } := by
  refine ⟨⟨ok.consistent, fun j hj => ?_, fun j hj => ?_⟩, funext fun j => ?_, rfl, fun j hj hr =>
    ?_⟩
  all_goals by_cases hji : j = i
  · subst hji
    exact hi (by simpa [refs, Fs.setInode] using hj)
  · exact ok.inRange j (by simpa [refs, Fs.setInode, update_of_ne hji] using hj)
  · subst hji
    simp only [Loaded, refs, Fs.setInode, update_self] at hj ⊢
    exact hload hj.1 hj.2
  · simp only [Loaded, refs, Fs.setInode, update_of_ne hji] at hj ⊢
    exact ok.loaded j hj
  · subst hji
    simp [refs, Fs.setInode]
  · simp [refs, Fs.setInode, update_of_ne hji]
  · subst hji
    rw [update_self] at hr
    simp only [Loaded, refs, Fs.setInode, update_self]
    exact ⟨hr, hvalid hj hr⟩
  · simp only [Loaded, refs, Fs.setInode, update_of_ne hji]
    exact hj

end Table

section Primitives

variable {sb : Superblock} {s : Fs} {i : ℕ} {E : FsPanic → Prop}

/-- `iget`; an inode that was not in the table is not loaded. It panics if the table is full. -/
theorem iget_wp (ok : s.Ok sb) (hi : i < sb.ninodes)
    (hE : s.refs i = 0 → nInode ≤ s.used → E .igetNoInodes) : Ends E (iget i) s fun _ t =>
      (After sb s (Function.update s.refs i (s.refs i + 1)) (tree sb s.disk) t ∧
        (s.refs i = 0 → ¬ t.Loaded i)) ∧
      t.disk = s.disk ∧ t.used = s.used + if s.refs i = 0 then 1 else 0 := by
  refine .bind (.get ?_)
  by_cases href : 0 < (s.inode i).ref
  · rw [if_pos href]
    have hne : s.refs i ≠ 0 := href.ne'
    refine .set
      ⟨⟨After.setInode (e := { s.inode i with ref := s.refs i + 1 })
          (n := s.used) ok (fun _ => hi) (fun _ hv => ok.loaded i ⟨href, hv⟩) fun h _ => h.2,
        fun h => absurd h hne⟩, rfl, ?_⟩
    rw [if_neg hne]
    rfl
  · rw [if_neg href]
    have h0 : s.refs i = 0 := Nat.eq_zero_of_not_pos href
    by_cases hused : s.used < nInode
    · rw [if_pos hused, h0]
      refine .set ⟨⟨After.setInode (e := { s.inode i with ref := 1, valid := false }) ok (fun _ =>
        hi)
        (fun _ hv => absurd hv Bool.false_ne_true) fun h _ => absurd h.1 href, fun _ h => ?_⟩, rfl,
          rfl⟩
      simp [Loaded, Fs.setInode] at h
    · rw [if_neg hused]
      exact .throw (hE h0 (Nat.le_of_not_lt hused))

theorem iget_spec (ok : s.Ok sb) (hi : i < sb.ninodes) :
    Ends NotFreeing (iget i) s fun _ t =>
      After sb s (Function.update s.refs i (s.refs i + 1)) (tree sb s.disk) t ∧
        (s.refs i = 0 → ¬ t.Loaded i) :=
  (iget_wp ok hi fun _ _ => by simp [NotFreeing]).mono fun _ _ h => h.1

theorem idup_spec (ok : s.Ok sb) (href : 0 < s.refs i) :
    Ends E (idup i) s fun _ t =>
      After sb s (Function.update s.refs i (s.refs i + 1)) (tree sb s.disk) t :=
  .modify (After.setInode (e := { s.inode i with ref := s.refs i + 1 }) (n := s.used) ok
    (fun _ => ok.inRange i href) (fun _ hv => ok.loaded i ⟨href, hv⟩) fun h _ => h.2)

theorem drop_spec (ok : s.Ok sb) :
    Ends E (drop i) s fun _ t =>
      After sb s (Function.update s.refs i (s.refs i - 1)) (tree sb s.disk) t := by
  have hpos (h : 0 < s.refs i - 1) : 0 < s.refs i := by omega
  exact .modify (After.setInode (e := { s.inode i with ref := s.refs i - 1 }) ok
    (fun h => ok.inRange i (hpos h)) (fun h hv => ok.loaded i ⟨hpos h, hv⟩) fun h _ => h.2)

/-- `ilock` of an inode with a reference; it panics if the inode is free. -/
theorem ilock_wp (ok : s.Ok sb) (href : 0 < s.refs i)
    (hE : (dinodeAt sb s.disk i).type = 0 → E .ilockNoType) :
    Ends E (ilock sb i) s fun _ t =>
      (After sb s s.refs (tree sb s.disk) t ∧ t.Loaded i) ∧ t.disk = s.disk ∧ t.used = s.used := by
  refine .bind (.get ?_)
  have hpos : ¬ (s.inode i).ref < 1 := Nat.not_lt_of_le href
  rw [if_neg hpos]
  by_cases hvalid : (s.inode i).valid = true
  · rw [if_pos hvalid]
    exact .pure ⟨⟨.refl ok, href, hvalid⟩, rfl, rfl⟩
  · rw [if_neg hvalid]
    refine .bind (.set ?_)
    by_cases htype : (dinodeAt sb s.disk i).type = 0
    · rw [if_pos htype]
      exact .throw (hE htype)
    · rw [if_neg htype]
      have h := After.setInode (i := i) (n := s.used)
        (e := { s.inode i with valid := true, copy := dinodeAt sb s.disk i }) ok
        (fun _ => ok.inRange i href) (fun _ _ => ⟨rfl, htype⟩) fun _ _ => rfl
      have hsame : Function.update s.refs i (s.inode i).ref = s.refs := update_eq_self ..
      rw [hsame] at h
      refine .pure ⟨⟨h, ?_⟩, rfl, rfl⟩
      simp only [Loaded, refs, Fs.setInode, update_self]
      exact ⟨href, trivial⟩

theorem ilock_spec (ok : s.Ok sb) :
    Ends NotFreeing (ilock sb i) s fun _ t => After sb s s.refs (tree sb s.disk) t ∧
      t.Loaded i := by
  by_cases href : 0 < s.refs i
  · exact (ilock_wp ok href fun _ => by simp [NotFreeing]).mono fun _ _ h => h.1
  · refine .bind (.get ?_)
    have hzero : (s.inode i).ref < 1 := Nat.lt_of_not_le href
    rw [if_pos hzero]
    exact .throw (by simp [NotFreeing])

theorem copy_spec {Q : Dinode → Fs → Prop} (h : Q (s.inode i).copy s) : Ends E (copy i) s Q :=
  .bind (.get h)

end Primitives

section Files

variable {sb : Superblock} {s : Fs} {i : ℕ} {c : Dinode} {d' : Disk} {E : FsPanic → Prop}

/-- A function that changes the file of one inode and its entry of the table. -/
theorem After.change {e : Inode} {n : ℕ} (ok : s.Ok sb) (hi : i < sb.ninodes)
    (con : Consistent sb d')
    (hinodes : ∀ j < sb.ninodes, dinodeAt sb d' j = Function.update (dinodeAt sb s.disk) i c j)
    (hothers : OthersKept sb i (dinodeAt sb s.disk) s.disk d')
    (hload : 0 < e.ref → e.valid = true → e.copy = c ∧ c.type ≠ 0)
    (hvalid : s.Loaded i → 0 < e.ref → e.valid = true) :
    After sb s (Function.update s.refs i e.ref) (Function.update (tree sb s.disk) i (c.node d'))
      ⟨d', Function.update s.inode i e, n⟩ := by
  have hself : dinodeAt sb d' i = c := by rw [hinodes i hi, update_self]
  refine ⟨⟨con, fun j hj => ?_, fun j hj => ?_⟩, funext fun j => ?_,
    tree_update ok.consistent hi hinodes hothers, fun j hj hr => ?_⟩
  all_goals by_cases hji : j = i
  · rwa [hji]
  · exact ok.inRange j (by simpa [refs, update_of_ne hji] using hj)
  · subst hji
    simp only [Loaded, refs, update_self] at hj ⊢
    rw [hself]
    exact hload hj.1 hj.2
  · simp only [Loaded, refs, update_of_ne hji] at hj ⊢
    rw [hinodes j (ok.inRange j hj.1), update_of_ne hji]
    exact ok.loaded j hj
  · subst hji
    simp [refs]
  · simp [refs, update_of_ne hji]
  · subst hji
    rw [update_self] at hr
    simp only [Loaded, refs, update_self]
    exact ⟨hr, hvalid hj hr⟩
  · simp only [Loaded, refs, update_of_ne hji]
    exact hj

/-- A function on a loaded inode that leaves it loaded. -/
theorem After.onFile (ok : s.Ok sb) (h : s.Loaded i) (con : Consistent sb d')
    (hinodes : ∀ j < sb.ninodes, dinodeAt sb d' j = Function.update (dinodeAt sb s.disk) i c j)
    (hothers : OthersKept sb i (dinodeAt sb s.disk) s.disk d') (htype : c.type ≠ 0) :
    After sb s s.refs (Function.update (tree sb s.disk) i (c.node d'))
      (Fs.setInode { s with disk := d' } i { s.inode i with copy := c }) := by
  have hsame : Function.update s.refs i (s.inode i).ref = s.refs := update_eq_self ..
  have hchange :=
    After.change (e := { s.inode i with copy := c }) (n := s.used) ok (ok.inRange i h.1) con hinodes
      hothers (fun _ _ => ⟨rfl, htype⟩) fun hl _ => hl.2
  rwa [hsame] at hchange

/-- A change of the link count or the device numbers of a loaded inode. -/
theorem update_spec (wf : sb.Wf) (ok : s.Ok sb) (h : s.Loaded i) {f : Dinode → Dinode}
    (hf : ∀ c, (f c).type = c.type ∧ (f c).size = c.size ∧ (f c).addrs = c.addrs) :
    Ends E (update sb i f) s fun _ t => After sb s s.refs (Function.update (tree sb s.disk) i
      { tree sb s.disk i with nlink := (f (dinodeAt sb s.disk i)).nlink }) t := by
  have hal := ok.allocated h
  obtain ⟨htype, hsize, haddrs⟩ := hf (dinodeAt sb s.disk i)
  refine .of_eq_ok rfl ?_
  show After sb s s.refs _ (Fs.setInode
    { s with disk := setDinode sb s.disk i (f (s.inode i).copy) } i
    { s.inode i with copy := f (s.inode i).copy })
  rw [(ok.loaded i h).1]
  have haddr (k : ℕ) : (f (dinodeAt sb s.disk i)).addr k = (dinodeAt sb s.disk i).addr k := by
    rw [Dinode.addr, Dinode.addr, haddrs]
  have hblocks := ok.consistent.blocks.update htype haddrs
  have hcon : Consistent sb (setDinode sb s.disk i (f (dinodeAt sb s.disk i))) := by
    refine ok.consistent.iupdate wf hal.1 hblocks fun _ bn hbn => ?_
    rw [Dinode.block_congr haddr fun _ => rfl]
    exact ok.consistent.full i hal bn (by rwa [← hsize])
  have hnode : (f (dinodeAt sb s.disk i)).node (setDinode sb s.disk i (f (dinodeAt sb s.disk i))) =
      { tree sb s.disk i with nlink := (f (dinodeAt sb s.disk i)).nlink } := by
    have hkept : FileKept (fun _ => False) (dinodeAt sb s.disk i) s.disk (f (dinodeAt sb s.disk i))
        (setDinode sb s.disk i (f (dinodeAt sb s.disk i))) := fun bn hbn => by
      have hk := ok.consistent.blocks.kept_setDinode wf (f (dinodeAt sb s.disk i)) hal.1 hal
        (T := fun _ => False) bn hbn
      rwa [Dinode.block_congr haddr fun _ => rfl]
    rw [tree_of_allocated hal, Dinode.node, htype, if_neg hal.2,
      hkept.ents_eq (ok.consistent.full i hal) htype hsize fun _ _ => not_false]
  rw [← hnode]
  exact .onFile ok h hcon (fun j _ => by rw [dinodeAt_setDinode])
    (fun j _ hj => ok.consistent.blocks.kept_setDinode wf _ hal.1 hj) (htype ▸ hal.2)

theorem itrunc_spec (wf : sb.Wf) (ok : s.Ok sb) (h : s.Loaded i) :
    Ends E (itrunc sb i) s fun _ t => After sb s s.refs (Function.update (tree sb s.disk) i
      { tree sb s.disk i with ents := [] }) t ∧ ∀ k, (t.inode i).copy.addr k = 0 := by
  have hal := ok.allocated h
  refine .bind (copy_spec ?_)
  rw [(ok.loaded i h).1]
  refine .bind (.zoom ((Xv6.itrunc_spec wf ok.consistent.blocks hal).mono ?_))
  rintro c d' ⟨hc, hblocks, hothers, hinodes⟩
  have hzero (k : ℕ) : c.addr k = 0 := by
    rw [hc, Dinode.addr]
    split_ifs <;> rfl
  have hnode : c.node d' = { tree sb s.disk i with ents := [] } := by
    rw [tree_of_allocated hal, Dinode.node, Dinode.ents_of_empty (by rw [hc]), hc, if_neg hal.2]
  have hcon : Consistent sb d' := by
    refine FilesOk.congr ⟨hblocks, fun j hj bn hbn => ?_⟩ hinodes
    by_cases hji : j = i
    · rw [hji, update_self, hc] at hbn
      exact absurd hbn (Nat.not_lt_zero _)
    · rw [Allocated, update_of_ne hji] at hj
      rw [update_of_ne hji] at hbn ⊢
      exact (hothers j hji hj).block_ne (ok.consistent.full j hj bn hbn)
  refine .modify ⟨?_, fun k => ?_⟩
  · rw [← hnode]
    refine .onFile ok h hcon hinodes hothers ?_
    rw [hc]
    exact hal.2
  · simp only [Fs.setInode, update_self]
    exact hzero k

theorem writei_spec (wf : sb.Wf) (ok : s.Ok sb) (h : s.Loaded i) {src : Source}
    {off n : ℕ} (hn : n < 2 ^ 32) :
    Ends E (writei sb i src off n) s fun r t =>
      ∃ c, WriteiDone sb i src off n s.disk (r, c) t.disk ∧
      After sb s s.refs (Function.update (tree sb s.disk) i (c.node t.disk)) t := by
  have hal := ok.allocated h
  refine .bind (copy_spec ?_)
  rw [(ok.loaded i h).1]
  refine .bind (.zoom ((Xv6.writei_spec wf ok.consistent hal hn).mono ?_))
  rintro ⟨r, c⟩ d' hw
  refine .bind (.modify (.pure ⟨c, hw, ?_⟩))
  refine .onFile ok h hw.consistent hw.inodes hw.others ?_
  have hself := hw.self
  simp only at hself
  rw [hself]
  exact hal.2

/-- `readi` of an inode whose copy in memory has all its blocks. -/
theorem readi_of_full (hfull : (s.inode i).copy.Full s.disk) {dst : Dest}
    {off n : ℕ} (hn : n < 2 ^ 32) :
    Ends E (readi sb i dst off n) s fun r t => t = s ∧
      ((∀ k, dst k = true) → off ≤ (s.inode i).copy.size.toNat → off + n < 2 ^ 32 →
        r.1 = (min n ((s.inode i).copy.size.toNat - off) : ℕ) ∧ r.2 = ByteStore.get
            ((s.inode i).copy.byte s.disk) off (min n ((s.inode i).copy.size.toNat - off))) := by
  refine .bind (copy_spec (.bind (.zoom ((Xv6.readi_spec hfull hn).mono ?_))))
  rintro ⟨r, bytes, c⟩ _ ⟨rfl, rfl, hr⟩
  refine .bind (.modify (.pure ⟨?_, hr⟩))
  simp only [Fs.setInode, update_eq_self]

/-- `readi` of a loaded inode changes nothing. -/
theorem readi_spec (ok : s.Ok sb) (h : s.Loaded i) {dst : Dest} {off n : ℕ} (hn : n < 2 ^ 32) :
    Ends E (readi sb i dst off n) s fun r t => t = s ∧
      ((∀ k, dst k = true) → off ≤ (dinodeAt sb s.disk i).size.toNat → off + n < 2 ^ 32 →
        r.1 = (min n ((dinodeAt sb s.disk i).size.toNat - off) : ℕ) ∧
          r.2 = ByteStore.get ((dinodeAt sb s.disk i).byte s.disk) off
            (min n ((dinodeAt sb s.disk i).size.toNat - off))) := by
  have hfull := ok.consistent.full i (ok.allocated h)
  rw [← (ok.loaded i h).1] at hfull ⊢
  exact readi_of_full hfull hn

end Files

section Free

variable {sb : Superblock} {s : Fs} {i : ℕ} {E : FsPanic → Prop}

/-- The inode that `iput` frees. -/
def Freeable (sb : Superblock) (s : Fs) (i : ℕ) : Prop :=
  s.refs i = 1 ∧ s.Loaded i ∧ (tree sb s.disk i).nlink = 0

/-- The nodes after `iput`. -/
def PutNodes (sb : Superblock) (s : Fs) (i : ℕ) (nodes : ℕ → Node) : Prop :=
  Freeable sb s i ∧ nodes = Function.update (tree sb s.disk) i .free ∨
    ¬ Freeable sb s i ∧ nodes = tree sb s.disk

theorem freeable_iff (ok : s.Ok sb) : Freeable sb s i ↔
    (s.inode i).ref = 1 ∧ (s.inode i).valid = true ∧ (s.inode i).copy.nlink = 0 := by
  constructor
  · rintro ⟨h1, h2, h3⟩
    rw [ok.node h2] at h3
    exact ⟨h1, h2.2, h3⟩
  · rintro ⟨h1, h2, h3⟩
    have hl : s.Loaded i := ⟨by rw [refs, h1]; exact Nat.one_pos, h2⟩
    refine ⟨h1, hl, ?_⟩
    rw [ok.node hl]
    exact h3

/-- `iput` gives up a reference, and frees an inode without links. -/
theorem iput_spec (wf : sb.Wf) (ok : s.Ok sb) :
    Ends E (iput sb i) s fun _ t => ∃ nodes, PutNodes sb s i nodes ∧
      After sb s (Function.update s.refs i (s.refs i - 1)) nodes t := by
  refine .bind (.get ?_)
  by_cases hf : Freeable sb s i
  · rw [if_pos ((freeable_iff ok).mp hf)]
    refine (itrunc_spec wf ok hf.2.1).andThen ?_
    rintro _ t ⟨hat, hzero⟩
    have href : t.refs i = 1 := by rw [hat.refs_eq, hf.1]
    have hl : t.Loaded i := hat.loaded i hf.2.1 hf.2.1.1
    have hal := hat.ok.allocated hl
    -- the type becomes 0 on the disk and the entry leaves the table
    refine .bind (.of_eq_ok rfl (.bind (.modify (.modify ⟨_, Or.inl ⟨hf, rfl⟩, ?_⟩))))
    simp only [Fs.setInode, update_self, update_idem]
    rw [(hat.ok.loaded i hl).1] at hzero ⊢
    generalize hc : ({ dinodeAt sb t.disk i with type := 0 } : Dinode) = c
    have hzero' (k : ℕ) : c.addr k = 0 := by
      rw [← hc]
      exact hzero k
    have hblocks := hat.ok.consistent.blocks.update_empty hzero' fun _ => hzero
    have hcon : Consistent sb (setDinode sb t.disk i c) :=
      hat.ok.consistent.iupdate wf hal.1 hblocks fun htype => absurd (by rw [← hc]) htype
    have hchange := After.change (e := ⟨(t.inode i).ref - 1, false, c⟩)
      (n := if (t.inode i).ref = 1 then t.used - 1 else t.used) hat.ok hal.1 hcon
      (fun j _ => by rw [dinodeAt_setDinode])
      (fun j _ hj => hat.ok.consistent.blocks.kept_setDinode wf c hal.1 hj)
      (fun _ hv => Bool.noConfusion hv)
      fun _ hpos => absurd hpos (by show ¬ 0 < t.refs i - 1; omega)
    have hrefs : Function.update t.refs i ((t.inode i).ref - 1) =
        Function.update s.refs i (s.refs i - 1) := by
      rw [hat.refs_eq]
      exact congrArg (fun r => Function.update s.refs i (r - 1)) (congrFun hat.refs_eq i)
    have hnode : c.node (setDinode sb t.disk i c) = .free := by
      rw [Dinode.node, if_pos (by rw [← hc])]
    rw [hnode, hat.nodes_eq, update_idem, hrefs] at hchange
    refine hat.trans hchange fun j hj hr => ?_
    by_cases hji : j = i
    · subst hji
      exact hj.1
    · rwa [update_of_ne hji] at hr
  · rw [if_neg fun h => hf ((freeable_iff ok).mpr h)]
    exact (drop_spec ok).mono fun _ t h => ⟨_, Or.inr ⟨hf, rfl⟩, h⟩

/-- The node of an inode that was just allocated. -/
def Node.new (type : BitVec 16) : Node := if type = 0 then .free else ⟨type, 0, []⟩

/-- `ialloc` takes a free inode, or finds none. -/
theorem ialloc_spec (wf : sb.Wf) (ok : s.Ok sb) {type : BitVec 16} :
    Ends NotFreeing (ialloc sb type) s fun r t =>
      r = none ∧ After sb s s.refs (tree sb s.disk) t ∨
      ∃ j, r = some j ∧ j < sb.ninodes ∧ j ≠ 0 ∧ tree sb s.disk j = .free ∧
        After sb s (Function.update s.refs j (s.refs j + 1))
          (Function.update (tree sb s.disk) j (Node.new type)) t := by
  refine .bind (.zoom (.bind (.get ?_)))
  cases hfind : (List.range' 1 (sb.ninodes - 1)).find? fun i =>
    (dinodeAt sb s.disk i).type == 0 with
  | none => exact .pure (.pure (Or.inl ⟨rfl, .refl ok⟩))
  | some j =>
    have h0 : (dinodeAt sb s.disk j).type = 0 := by simpa using List.find?_some hfind
    have hmem := List.mem_range'_1.mp (List.mem_of_find?_eq_some hfind)
    have hj : j < sb.ninodes := by omega
    have hnl : ¬ s.Loaded j := fun h => (ok.loaded j h).2 h0
    refine .bind (.set (.pure ?_))
    generalize hc : ({ Dinode.zero with type := type } : Dinode) = c
    have hzero (k : ℕ) : c.addr k = 0 := by
      rw [← hc]
      exact Dinode.addr_zero
    have hsize : c.size = 0 := by rw [← hc]; rfl
    have hblocks := ok.consistent.blocks.update_empty hzero fun hal => absurd h0 hal.2
    have hcon : Consistent sb (setDinode sb s.disk j c) := by
      refine ok.consistent.iupdate wf hj hblocks fun _ bn hbn => ?_
      rw [hsize] at hbn
      exact absurd hbn (Nat.not_lt_zero _)
    have hnode : c.node (setDinode sb s.disk j c) = Node.new type := by
      have ht : c.type = type := by rw [← hc]
      have hn : c.nlink = 0 := by rw [← hc]; rfl
      rw [Dinode.node, Node.new, Dinode.ents_of_empty hsize, ht, hn]
    have hchange :=
      After.change (e := s.inode j) (n := s.used) ok hj hcon (fun k _ => by rw [dinodeAt_setDinode])
        (fun k _ hk => ok.consistent.blocks.kept_setDinode wf c hj hk)
        (fun hr hv => absurd ⟨hr, hv⟩ hnl) fun h _ => absurd h hnl
    have hsame : Function.update s.refs j (s.inode j).ref = s.refs := update_eq_self ..
    rw [hnode, hsame, update_eq_self] at hchange
    refine (iget_spec hchange.ok hj).andThen ?_
    rintro _ t ⟨ht, _⟩
    refine .pure (Or.inr ⟨j, rfl, hj, by omega, ?_, ?_⟩)
    · rw [tree_apply hj, Dinode.node, if_pos h0]
    · rw [hchange.refs_eq, hchange.nodes_eq] at ht
      refine hchange.trans ht fun k hk _ => hk.1

end Free

end Fs

end NeulaCpu.Xv6

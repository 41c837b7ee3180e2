import NeulaCpu.Xv6.FsInodes

/-!
# The references that the file system takes

What the functions of the file system do to the counts of references, whatever is on the disk: a
function that returns an inode has taken one reference to it, and every other reference that it took
it has given back. A panic leaves nothing to say.
-/

namespace NeulaCpu.Xv6

open ByteStore Outcome

namespace Fs

/-- The reference to an inode that a function returned. -/
def taken : Option ℕ → ℕ → ℕ
  | none => 0
  | some i => Pi.single i 1

/-- The command leaves the references as they are. -/
def KeepsRefs {α : Type} (c : FsM α) : Prop :=
  ∀ s, Ends (fun _ => True) c s fun _ t => t.refs = s.refs

namespace KeepsRefs

variable {α β : Type} {c : FsM α} {f : α → FsM β}

theorem bind (h : KeepsRefs c) (hf : ∀ a, KeepsRefs (f a)) : KeepsRefs (c >>= f) := fun s =>
  (h s).andThen fun a t ht => (hf a t).mono fun _ _ hu => hu.trans ht

/-- A command that keeps the references, before one that is described from them. -/
theorem andThen {s : Fs} {r : ℕ → ℕ} {Q : β → Fs → Prop} (h : KeepsRefs c) (hr : s.refs = r)
    (hf : ∀ a t, t.refs = r → Ends (fun _ => True) (f a) t Q) :
    Ends (fun _ => True) (c >>= f) s Q :=
  (h s).andThen fun a t ht => hf a t (ht.trans hr)

theorem pure (a : α) : KeepsRefs (Pure.pure a : FsM α) := fun _ => .pure rfl

theorem throw (e : FsPanic) : KeepsRefs (MonadExcept.throw e : FsM α) := fun _ => .throw trivial

theorem ite {p : Prop} [Decidable p] {c c' : FsM α} (h : KeepsRefs c) (h' : KeepsRefs c') :
    KeepsRefs (if p then c else c') := by
  split_ifs
  · exact h
  · exact h'

theorem onDisk (c : DiskM α) : KeepsRefs (Fs.onDisk c) := fun s => by
  rw [Ends, Fs.onDisk, zoom]
  cases c s.disk with
  | ok r => rfl
  | error e => trivial

theorem get : KeepsRefs (MonadState.get : FsM Fs) := fun _ => .get rfl

end KeepsRefs

section Refs

variable (sb : Superblock) {s : Fs} {i : ℕ} {r : ℕ → ℕ}

theorem refs_setInode (s : Fs) (i : ℕ) (e : Inode) :
    (s.setInode i e).refs = Function.update s.refs i e.ref := by
  funext j
  by_cases hj : j = i
  · subst hj
    simp [refs, setInode]
  · simp [refs, setInode, Function.update_of_ne hj]

/-- A change of an entry of the table other than its count. -/
theorem refs_setInode_of_eq {e : Inode} (he : e.ref = s.refs i) :
    (s.setInode i e).refs = s.refs := by
  rw [refs_setInode, he, Function.update_eq_self]

theorem keepsRefs_copy (i : ℕ) : KeepsRefs (copy i) := .bind .get fun _ => .pure _

theorem keepsRefs_setCopy (i : ℕ) (c : Dinode) : KeepsRefs (setCopy i c) := fun _ =>
  .modify (refs_setInode_of_eq rfl)

theorem keepsRefs_ilock (i : ℕ) : KeepsRefs (ilock sb i) := fun s => by
  refine .bind (.get ?_)
  split_ifs
  · exact .throw trivial
  · exact .pure rfl
  · exact .bind (.set (.throw trivial))
  · exact .bind (.set (.pure (refs_setInode_of_eq rfl)))

theorem keepsRefs_update (i : ℕ) (f : Dinode → Dinode) : KeepsRefs (update sb i f) :=
  (keepsRefs_copy i).bind fun _ => (KeepsRefs.onDisk _).bind fun _ => keepsRefs_setCopy i _

theorem keepsRefs_itrunc (i : ℕ) : KeepsRefs (itrunc sb i) :=
  (keepsRefs_copy i).bind fun _ => (KeepsRefs.onDisk _).bind fun c => keepsRefs_setCopy i c

theorem keepsRefs_readi (i : ℕ) (dst : Dest) (off n : ℕ) : KeepsRefs (readi sb i dst off n) :=
  (keepsRefs_copy i).bind fun _ => (KeepsRefs.onDisk _).bind fun (_, _, c) =>
    (keepsRefs_setCopy i c).bind fun _ => .pure _

theorem keepsRefs_writei (i : ℕ) (src : Source) (off n : ℕ) : KeepsRefs (writei sb i src off n) :=
  (keepsRefs_copy i).bind fun _ => (KeepsRefs.onDisk _).bind fun (_, c) =>
    (keepsRefs_setCopy i c).bind fun _ => .pure _

/-- A change of an entry of the table that counts one reference more. -/
theorem refs_setInode_succ {e : Inode} (he : e.ref = s.refs i + 1) :
    (s.setInode i e).refs = s.refs + Pi.single i 1 := by
  rw [refs_setInode, he]
  funext j
  by_cases hj : j = i
  · subst hj
    simp
  · simp [hj]

theorem iget_refs (i : ℕ) :
    Ends (fun _ => True) (iget i) s fun _ t => t.refs = s.refs + Pi.single i 1 := by
  refine .bind (.get ?_)
  split_ifs with h
  · exact .set (refs_setInode_succ rfl)
  · refine .set (refs_setInode_succ ?_)
    have : ¬ 0 < s.refs i := h
    show 1 = s.refs i + 1
    omega
  · exact .throw trivial

theorem idup_refs (i : ℕ) :
    Ends (fun _ => True) (idup i) s fun _ t => t.refs = s.refs + Pi.single i 1 :=
  .modify (refs_setInode_succ rfl)

theorem drop_refs (h : s.refs = r + Pi.single i 1) :
    Ends (fun _ => True) (drop i) s fun _ t => t.refs = r := by
  refine .modify ?_
  show (s.setInode i _).refs = r
  have hi : s.refs i = r i + 1 := by rw [h, Pi.add_apply, Pi.single_eq_same]
  rw [refs_setInode]
  funext j
  by_cases hj : j = i
  · subst hj
    rw [Function.update_self]
    exact Nat.sub_eq_of_eq_add hi
  · rw [Function.update_of_ne hj, h, Pi.add_apply, Pi.single_eq_of_ne hj, add_zero]

theorem iput_refs (h : s.refs = r + Pi.single i 1) :
    Ends (fun _ => True) (iput sb i) s fun _ t => t.refs = r := by
  refine .bind (.get ?_)
  split_ifs
  · refine (keepsRefs_itrunc sb i s).andThen fun _ t ht => ?_
    refine (keepsRefs_update sb i _ t).andThen fun _ u hu => .bind (.modify (drop_refs ?_))
    exact (refs_setInode_of_eq (e := { u.inode i with valid := false }) rfl).trans
      (hu.trans (ht.trans h))
  · exact drop_refs h

theorem ialloc_refs (type : BitVec 16) :
    Ends (fun _ => True) (ialloc sb type) s fun o t => t.refs = s.refs + taken o := by
  refine (KeepsRefs.onDisk _ s).andThen fun o t ht => ?_
  rw [← ht]
  cases o with
  | none => exact .pure (add_zero _).symm
  | some j => exact (iget_refs j).andThen fun _ _ hu => .pure hu

/-! ## Directories -/

theorem keepsRefs_readDirent (panic : FsPanic) (dp off : ℕ) :
    KeepsRefs (readDirent sb panic dp off) :=
  (keepsRefs_readi sb dp .kernel off direntSize).bind fun (_, _) => .ite (.pure _) (.throw _)

theorem lookupLoop_refs (dp : ℕ) (name : List Byte) (offs : List ℕ) :
    ∀ {s : Fs}, Ends (fun _ => True) (lookupLoop sb dp name offs) s fun o t =>
      t.refs = s.refs + taken (o.map Prod.fst) := by
  induction offs with
  | nil => exact .pure (add_zero _).symm
  | cons off offs ih =>
    intro s
    refine (keepsRefs_readDirent sb _ dp off s).andThen fun de t ht => ?_
    rw [← ht]
    split_ifs
    · exact (iget_refs de.inum).andThen fun _ _ hu => .pure hu
    · exact ih

theorem dirlookup_refs (dp : ℕ) (name : List Byte) :
    Ends (fun _ => True) (dirlookup sb dp name) s fun o t =>
      t.refs = s.refs + taken (o.map Prod.fst) := by
  refine (keepsRefs_copy dp s).andThen fun c t ht => ?_
  rw [← ht]
  split_ifs
  · exact .throw trivial
  · exact lookupLoop_refs sb dp name _

theorem keepsRefs_emptyLoop (dp size : ℕ) (offs : List ℕ) :
    KeepsRefs (emptyLoop sb dp size offs) := by
  induction offs with
  | nil => exact .pure _
  | cons off offs ih => exact (keepsRefs_readDirent sb _ dp off).bind fun _ => .ite (.pure _) ih

theorem keepsRefs_dirlink (dp : ℕ) (name : List Byte) (inum : ℕ) :
    KeepsRefs (dirlink sb dp name inum) := fun s => by
  refine (dirlookup_refs sb dp name).andThen fun o t ht => ?_
  rcases o with _ | ⟨ip, off⟩
  · replace ht : t.refs = s.refs := ht.trans (add_zero _)
    rw [← ht]
    exact ((keepsRefs_copy dp).bind fun _ => (keepsRefs_emptyLoop sb dp _ _).bind fun _ =>
      (keepsRefs_writei sb dp _ _ _).bind fun _ => .pure _) t
  · exact (iput_refs sb ht).andThen fun _ _ hu => .pure hu

theorem keepsRefs_emptyDirLoop (dp : ℕ) (offs : List ℕ) : KeepsRefs (emptyDirLoop sb dp offs) := by
  induction offs with
  | nil => exact .pure _
  | cons off offs ih => exact (keepsRefs_readDirent sb _ dp off).bind fun _ => .ite ih (.pure _)

theorem keepsRefs_isFullDir (ip : ℕ) : KeepsRefs (isFullDir sb ip) :=
  (keepsRefs_copy ip).bind fun _ =>
    .ite (((keepsRefs_copy ip).bind fun _ => keepsRefs_emptyDirLoop sb ip _).bind fun _ => .pure _)
      (.pure _)

/-! ## Paths -/

/-- The loop gives up its reference to the directory for one to what it returns. -/
theorem namexLoop_refs (par : Bool) (names : List (List Byte)) :
    ∀ {s : Fs} {i : ℕ}, s.refs = r + Pi.single i 1 → Ends (fun _ => True)
      (namexLoop sb par i names) s fun o t => t.refs = r + taken (o.map Prod.fst) := by
  induction names with
  | nil =>
    intro s i h
    unfold namexLoop
    split_ifs
    · exact (iput_refs sb h).andThen fun _ _ ht => .pure (ht.trans (add_zero r).symm)
    · exact .pure h
  | cons name names ih =>
    intro s i h
    refine (keepsRefs_ilock sb i).andThen h fun _ t ht =>
      (keepsRefs_copy i).andThen ht fun c u hu => ?_
    split_ifs
    · exact (iput_refs sb hu).andThen fun _ _ hv => .pure (hv.trans (add_zero r).symm)
    · exact .pure hu
    · refine (dirlookup_refs sb i name).andThen fun o v hv => ?_
      rw [hu, add_right_comm] at hv
      rcases o with _ | ⟨next, off⟩
      · replace hv : v.refs = r + Pi.single i 1 := hv.trans (congrArg (· + _) (add_zero r))
        exact (iput_refs sb hv).andThen fun _ _ hw => .pure (hw.trans (add_zero r).symm)
      · exact (iput_refs sb hv).andThen fun _ _ hw => ih hw

theorem namex_refs (cwd : ℕ) (par : Bool) (path : List Byte) :
    Ends (fun _ => True) (namex sb cwd par path) s fun o t =>
      t.refs = s.refs + taken (o.map Prod.fst) := by
  unfold namex
  split_ifs
  · exact (iget_refs rootIno).andThen fun _ _ ht => namexLoop_refs sb par _ ht
  · exact (idup_refs cwd).andThen fun _ _ ht => namexLoop_refs sb par _ ht

theorem namei_refs (cwd : ℕ) (path : List Byte) :
    Ends (fun _ => True) (namei sb cwd path) s fun o t => t.refs = s.refs + taken o :=
  (namex_refs sb cwd false path).andThen fun _ _ ht => .pure ht

/-! ## Calls -/

theorem keepsRefs_createEntries (dp ip : ℕ) (name : List Byte) (type : BitVec 16) :
    KeepsRefs (createEntries sb dp ip name type) :=
  .ite ((keepsRefs_dirlink sb ip dot ip).bind fun _ =>
    .ite ((keepsRefs_dirlink sb ip dotdot dp).bind fun _ =>
    .ite (keepsRefs_dirlink sb dp name ip) (.pure _)) (.pure _)) (keepsRefs_dirlink sb dp name ip)

theorem createIn_refs {dp : ℕ} (name : List Byte) (type major minor : BitVec 16)
    (h : s.refs = r + Pi.single dp 1) :
    Ends (fun _ => True) (createIn sb dp name type major minor) s fun o t =>
      t.refs = r + taken o := by
  refine (dirlookup_refs sb dp name).andThen fun o t ht => ?_
  rw [h, add_right_comm] at ht
  rcases o with _ | ⟨ip, off⟩
  · replace ht : t.refs = r + Pi.single dp 1 := ht.trans (congrArg (· + _) (add_zero r))
    refine (ialloc_refs sb type).andThen fun o u hu => ?_
    rw [ht, add_right_comm] at hu
    rcases o with _ | ip
    · exact (iput_refs sb hu).andThen fun _ _ hv => .pure hv
    · refine (keepsRefs_ilock sb ip).andThen hu fun _ v hv => (keepsRefs_update sb ip _).andThen hv
        fun _ w hw => ?_
      refine (keepsRefs_createEntries sb dp ip name type).andThen hw fun ok x hx => ?_
      split_ifs
      · exact (keepsRefs_update sb dp _).andThen hx fun _ y hy =>
          (iput_refs sb hy).andThen fun _ _ hz => .pure hz
      · exact (iput_refs sb hx).andThen fun _ _ hz => .pure hz
      · rw [add_right_comm] at hx
        refine (keepsRefs_update sb ip _).andThen hx fun _ y hy =>
          (iput_refs sb hy).andThen fun _ z hz => ?_
        exact (iput_refs sb hz).andThen fun _ _ hz => .pure (hz.trans (add_zero r).symm)
  · refine (iput_refs sb ht).andThen fun _ u hu => (keepsRefs_ilock sb ip).andThen hu fun _ v hv =>
      ?_
    refine (keepsRefs_copy ip).andThen hv fun c w hw => ?_
    split_ifs
    · exact .pure hw
    · exact (iput_refs sb hw).andThen fun _ _ hx => .pure (hx.trans (add_zero r).symm)

theorem create_refs (cwd : ℕ) (path : List Byte) (type major minor : BitVec 16) :
    Ends (fun _ => True) (create sb cwd path type major minor) s fun o t =>
      t.refs = s.refs + taken o := by
  refine (namex_refs sb cwd true path).andThen fun o t ht => ?_
  rcases o with _ | ⟨dp, name⟩
  · exact .pure ht
  · exact (keepsRefs_ilock sb dp).andThen ht fun _ u hu => createIn_refs sb name type major minor hu

theorem unlinkEntry_refs {dp ip : ℕ} (off : ℕ) (h : s.refs = r + Pi.single dp 1 + Pi.single ip 1) :
    Ends (fun _ => True) (unlinkEntry sb dp ip off) s fun _ t => t.refs = r := by
  rw [add_right_comm] at h
  refine (keepsRefs_writei sb dp _ off _).andThen h fun n t ht => ?_
  split_ifs
  · exact .throw trivial
  refine (keepsRefs_copy ip).andThen ht fun c u hu => ?_
  split_ifs
  · refine (keepsRefs_update sb dp _).andThen hu fun _ v hv =>
      (iput_refs sb hv).andThen fun _ w hw => ?_
    exact (keepsRefs_update sb ip _).andThen hw fun _ x hx =>
      (iput_refs sb hx).andThen fun _ _ hy => .pure hy
  · refine (iput_refs sb hu).andThen fun _ w hw => ?_
    exact (keepsRefs_update sb ip _).andThen hw fun _ x hx =>
      (iput_refs sb hx).andThen fun _ _ hy => .pure hy

theorem unlinkIn_refs {dp : ℕ} (name : List Byte) (h : s.refs = r + Pi.single dp 1) :
    Ends (fun _ => True) (unlinkIn sb dp name) s fun _ t => t.refs = r := by
  unfold unlinkIn
  split_ifs
  · exact (iput_refs sb h).andThen fun _ _ ht => .pure ht
  refine (dirlookup_refs sb dp name).andThen fun o t ht => ?_
  rw [h] at ht
  rcases o with _ | ⟨ip, off⟩
  · exact (iput_refs sb (ht.trans (add_zero _))).andThen fun _ _ hu => .pure hu
  simp only
  split_ifs
  · exact .throw trivial
  refine (keepsRefs_ilock sb ip).andThen ht fun _ u hu => (keepsRefs_copy ip).andThen hu
    fun c v hv => ?_
  split_ifs
  · exact .throw trivial
  refine (keepsRefs_isFullDir sb ip).andThen hv fun full w hw => ?_
  split_ifs
  · refine (iput_refs sb hw).andThen fun _ x hx => ?_
    exact (iput_refs sb hx).andThen fun _ _ hy => .pure hy
  · exact unlinkEntry_refs sb off hw

theorem unlink_refs (cwd : ℕ) (path : List Byte) :
    Ends (fun _ => True) (unlink sb cwd path) s fun _ t => t.refs = s.refs := by
  refine (namex_refs sb cwd true path).andThen fun o t ht => ?_
  rcases o with _ | ⟨dp, name⟩
  · exact .pure (ht.trans (add_zero _))
  · exact (keepsRefs_ilock sb dp).andThen ht fun _ u hu => unlinkIn_refs sb name hu

theorem linkBad_refs {ip : ℕ} (h : s.refs = r + Pi.single ip 1) :
    Ends (fun _ => True) (linkBad sb ip) s fun _ t => t.refs = r :=
  (keepsRefs_ilock sb ip).andThen h fun _ _ ht =>
      (keepsRefs_update sb ip _).andThen ht fun _ _ hu =>
    (iput_refs sb hu).andThen fun _ _ hv => .pure hv

theorem link_refs (cwd : ℕ) (old new : List Byte) :
    Ends (fun _ => True) (link sb cwd old new) s fun _ t => t.refs = s.refs := by
  refine (namei_refs sb cwd old).andThen fun o t ht => ?_
  rcases o with _ | ip
  · exact .pure (ht.trans (add_zero _))
  refine (keepsRefs_ilock sb ip).andThen ht fun _ u hu => (keepsRefs_copy ip).andThen hu
    fun c v hv => ?_
  split_ifs
  · exact (iput_refs sb hv).andThen fun _ _ hw => .pure hw
  refine (keepsRefs_update sb ip _).andThen hv fun _ w hw => ?_
  refine (namex_refs sb cwd true new).andThen fun o x hx => ?_
  rw [hw] at hx
  rcases o with _ | ⟨dp, name⟩
  · exact linkBad_refs sb (hx.trans (add_zero _))
  refine (keepsRefs_ilock sb dp).andThen hx fun _ y hy => ?_
  refine (keepsRefs_dirlink sb dp name ip).andThen hy fun ok z hz => ?_
  split_ifs
  · refine (iput_refs sb hz).andThen fun _ _ h1 => ?_
    exact (iput_refs sb h1).andThen fun _ _ h2 => .pure h2
  · exact (iput_refs sb hz).andThen fun _ _ h1 => linkBad_refs sb h1

end Refs

end Fs

end NeulaCpu.Xv6

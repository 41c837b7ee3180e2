import NeulaCpu.Xv6.InodeTable
import NeulaCpu.Xv6.BlockConsistency

/-!
# When an inode is freed

Between its first region under `itable.lock` and its last one `iput` still has its reference. As
long as no other process gets a reference to the same inode in this time, the inode is freed exactly
if it is valid, has no links and loses its last reference. If the inode is allocated again in this
time, it may stay allocated with no link and no reference.
-/

namespace NeulaCpu.Xv6

open Outcome Function

/-- The process that takes the step. -/
def ItableEvent.proc {P : Type} : ItableEvent P → Option P
  | .iget p .. | .idup p _ | .ilock p _ | .iunlock p _ | .change p .. | .iupdate p _ | .iput p
    _ | .iputFree p | .iputEnd p
  | .ialloc p .. | .iallocGet p | .pass p .. => some p
  | .write .. => none

namespace Itable

variable {P : Type} [DecidableEq P] {sb : Superblock} {s t : Itable P} {p q : P} {e f : Fin nInode}
  {dev inum : ℕ}
  {ev : ItableEvent P}

/-- The inode that a step gets a reference to by its number. -/
def target (s : Itable P) : ItableEvent P → Option (ℕ × ℕ)
  | .iget _ dev inum => some (dev, inum)
  | .iallocGet p =>
    match s.task p with
    | .allocated dev inum => some (dev, inum)
    | _ => none
  | _ => none

/-- The process `p` is about to drop its reference to `e`, which was the last one. -/
def Window (s : Itable P) (p : P) (e : Fin nInode) : Prop :=
  s.task p = .freeing e ∨ s.task p = .freed e

/-- The step does not get a reference to an inode in the middle of an `iput` that frees it. -/
def Undisturbed (s : Itable P) (ev : ItableEvent P) : Prop :=
  ∀ k ∈ s.target ev, ∀ q e, s.Window q e → s.key e ≠ k

instance [Fintype P] (s : Itable P) (ev : ItableEvent P) : Decidable (s.Undisturbed ev) :=
  inferInstanceAs (Decidable
    (∀ k ∈ s.target ev, ∀ q e, (s.task q = .freeing e ∨ s.task q = .freed e) → s.key e ≠ k))

section Got

omit [DecidableEq P]

theorem Got.entry (inv : Inv sb s) (h : s.Got p dev inum t) (f : Fin nInode) :
    (t.inode f = s.inode f ∧ t.count f = s.count f) ∨ s.key f = (dev, inum) ∨ s.count f = 0 := by
  cases h with
  | found e h =>
    by_cases hf : f = e
    · exact .inr (.inl (hf ▸ (lookup_some h).2))
    · have hsame : Same sb s (s.idup p e) f := same_addRef hf
      exact .inl ⟨hsame.inode, hsame.count⟩
  | recycled e hnone h =>
    by_cases hf : f = e
    · exact .inr (.inr (hf ▸ ((inv.entry e).ref_eq_iff (by norm_num)).mp (empty_some h)))
    · have hsame : Same sb s (s.recycle p e dev inum) f := same_addRef hf
      exact .inl ⟨hsame.inode, hsame.count⟩

theorem Got.task (h : s.Got p dev inum t) : t.task = s.task := by
  cases h with
  | found e h => rfl
  | recycled e hnone h => rfl

theorem Got.disk (h : s.Got p dev inum t) : t.disk = s.disk := by
  cases h with
  | found e h => rfl
  | recycled e hnone h => rfl

theorem Got.count_le (h : s.Got p dev inum t) : s.count e ≤ t.count e := by
  cases h with
  | found f h =>
    rw [idup, count_addRef]
    exact Nat.le_add_right ..
  | recycled f hnone h =>
    rw [recycle, count_addRef]
    exact Nat.le_add_right ..

theorem key_setInode {i : MemInode} (hdev : i.dev = (s.inode e).dev)
    (hinum : i.inum = (s.inode e).inum) : (s.setInode e i).key f = s.key f := by
  rw [key, setInode, key]
  by_cases hf : f = e
  · rw [hf]
    simp only [update_self, hdev, hinum]
  · simp only [update_of_ne hf]

theorem Got.key (h : s.Got p dev inum t) : t.key e = s.key e ∨ (s.inode e).ref = 0 := by
  cases h with
  | found f h => exact .inl (key_setInode rfl rfl)
  | recycled f hnone h =>
    by_cases hf : e = f
    · exact .inr (hf ▸ empty_some h)
    · refine .inl ?_
      rw [Itable.key, recycle, addRef, setInode, Itable.key]
      simp only [update_of_ne hf]

end Got

/-! ## What a step does to an entry -/

theorem unref_of_ne (hmem : (p, e) ∈ s.refs) (hf : f ≠ e) :
    (s.unref p e).inode f = s.inode f ∧ (s.unref p e).count f = s.count f := by
  refine ⟨update_of_ne hf .., ?_⟩
  have hcount := count_dropRef (f := f) hmem
  rw [if_neg hf] at hcount
  exact hcount.symm

/-- An entry is recycled only if its `ref` is 0. -/
theorem step_key (h : s.step sb ev = some t) (e : Fin nInode) :
    t.key e = s.key e ∨ (s.inode e).ref = 0 := by
  cases Change.of_step h with
  | iget p dev inum t hidle hinum hgot => exact hgot.key
  | idup p f hidle hmem => exact .inl (key_setInode rfl rfl)
  | lock p f hidle hmem hfree hvalid => exact .inl rfl
  | load p f hidle hmem hfree htype => exact .inl (key_setInode rfl rfl)
  | unlock p f hidle hown => exact .inl rfl
  | change p f c hidle hown htype => exact .inl (key_setInode rfl rfl)
  | iupdate p f hidle hown => exact .inl rfl
  | begin p f hmem hfree hlast => exact .inl rfl
  | drop p f hidle hmem hlock hlast => exact .inl (key_setInode rfl rfl)
  | free p f ip d htask hrun => exact .inl (key_setInode rfl rfl)
  | finish p f htask => exact .inl (key_setInode rfl rfl)
  | ialloc p dev inum type hinum hfree => exact .inl rfl
  | iallocGet p dev inum u htask hgot => exact hgot.key
  | pass p q f hidle hmem hlock => exact .inl rfl
  | write dev b data hb => exact .inl rfl

/-- What a step can do to an entry: nothing, unless the process has a reference to it or gets one by
its number. -/
theorem step_entry (inv : Inv sb s) (h : s.step sb ev = some t) (f : Fin nInode) :
    (t.inode f = s.inode f ∧ t.count f = s.count f) ∨ (∃ p, ev.proc = some p ∧ (p, f) ∈ s.refs) ∨
      ∃ k ∈ s.target ev, s.key f = k ∨ s.count f = 0 := by
  -- a step that sets one entry, to which the process has a reference
  have hat {p : P} {e : Fin nInode} {i : MemInode} (hp : ev.proc = some p) (hmem : (p, e) ∈ s.refs)
      (hinode : t.inode = update s.inode e i) (hcount : f ≠ e → t.count f = s.count f) :
      (t.inode f = s.inode f ∧ t.count f = s.count f) ∨ (∃ p, ev.proc = some p ∧ (p, f) ∈ s.refs) ∨
        ∃ k ∈ s.target ev, s.key f = k ∨ s.count f = 0 := by
    by_cases hf : f = e
    · exact .inr (.inl ⟨p, hp, hf ▸ hmem⟩)
    · exact .inl ⟨by rw [hinode, update_of_ne hf], hcount hf⟩
  cases Change.of_step h with
  | iget p dev inum t hidle hinum hgot =>
    exact (hgot.entry inv f).imp_right fun h => .inr ⟨_, rfl, h⟩
  | idup p e hidle hmem =>
    refine hat rfl hmem rfl fun hf => ?_
    have hsame : Same sb s (s.idup p e) f := same_addRef hf
    exact hsame.count
  | lock p e hidle hmem hfree hvalid => exact .inl ⟨rfl, rfl⟩
  | load p e hidle hmem hfree htype => exact hat rfl hmem rfl fun _ => rfl
  | unlock p e hidle hown => exact .inl ⟨rfl, rfl⟩
  | change p e c hidle hown htype => exact hat rfl ((inv.entry e).locked p hown) rfl fun _ => rfl
  | iupdate p e hidle hown => exact .inl ⟨rfl, rfl⟩
  | begin p e hmem hfree hlast => exact .inl ⟨rfl, rfl⟩
  | drop p e hidle hmem hlock hlast => exact hat rfl hmem rfl fun hf => (unref_of_ne hmem hf).2
  | free p e ip d htask hrun => exact hat rfl (inv.freeing htask).1 rfl fun _ => rfl
  | finish p e htask => exact hat rfl (inv.freed htask).1 rfl fun hf =>
    (unref_of_ne (inv.freed htask).1 hf).2
  | ialloc p dev inum type hinum hfree => exact .inl ⟨rfl, rfl⟩
  | iallocGet p dev inum u htask hgot =>
    refine (hgot.entry inv f).imp_right fun h => .inr ⟨(dev, inum), ?_, h⟩
    rw [target, htask]
    rfl
  | pass p q e hidle hmem hlock => exact .inl ⟨rfl, by rw [count_addRef, ← count_dropRef hmem]⟩
  | write dev b data hb => exact .inl ⟨rfl, rfl⟩

/-- A step drops a reference in `iput` only. -/
theorem step_drops (inv : Inv sb s) (h : s.step sb ev = some t) (hlt : t.count e < s.count e) :
    (∃ p, ev = .iput p e ∧
      ¬ ((s.inode e).ref = 1 ∧ (s.inode e).valid = true ∧ (s.inode e).copy.nlink = 0)) ∨
        ∃ p, ev = .iputEnd p ∧ s.task p = .freed e := by
  have hnot (hle : s.count e ≤ t.count e) : False := Nat.not_lt.mpr hle hlt
  cases Change.of_step h with
  | iget p dev inum t hidle hinum hgot => exact (hnot hgot.count_le).elim
  | idup p f hidle hmem => exact (hnot
    (by rw [Itable.idup, count_addRef]; exact Nat.le_add_right ..)).elim
  | lock p f hidle hmem hfree hvalid => exact (hnot le_rfl).elim
  | load p f hidle hmem hfree htype => exact (hnot le_rfl).elim
  | unlock p f hidle hown => exact (hnot le_rfl).elim
  | change p f c hidle hown htype => exact (hnot le_rfl).elim
  | iupdate p f hidle hown => exact (hnot le_rfl).elim
  | begin p f hmem hfree hlast => exact (hnot le_rfl).elim
  | drop p f hidle hmem hlock hlast =>
    by_cases hf : e = f
    · exact .inl ⟨p, by rw [hf], hf ▸ hlast⟩
    · exact (hnot (unref_of_ne hmem hf).2.ge).elim
  | free p f ip d htask hrun => exact (hnot le_rfl).elim
  | finish p f htask =>
    by_cases hf : e = f
    · exact .inr ⟨p, rfl, hf ▸ htask⟩
    · exact (hnot (unref_of_ne (inv.freed htask).1 hf).2.ge).elim
  | ialloc p dev inum type hinum hfree => exact (hnot le_rfl).elim
  | iallocGet p dev inum u htask hgot => exact (hnot hgot.count_le).elim
  | pass p q f hidle hmem hlock => exact (hnot (by rw [count_addRef, ← count_dropRef hmem])).elim
  | write dev b data hb => exact (hnot le_rfl).elim

/-- A step frees an inode on the disk in `iput` only. -/
theorem step_frees (inv : Inv sb s) (wf : sb.Wf) (h : s.step sb ev = some t) {k : ℕ × ℕ}
    (hk : k.2 < sb.ninodes) (hold : (s.dinode sb k).type ≠ 0) (hnew : (t.dinode sb k).type = 0) :
    ∃ p e, ev = .iputFree p ∧ s.task p = .freeing e ∧ s.key e = k := by
  have hnot (heq : t.dinode sb k = s.dinode sb k) : False := hold (heq ▸ hnew)
  cases Change.of_step h with
  | iget p dev inum t hidle hinum hgot => exact (hnot (by rw [dinode, hgot.disk, dinode])).elim
  | idup p e hidle hmem => exact (hnot rfl).elim
  | lock p e hidle hmem hfree hvalid => exact (hnot rfl).elim
  | load p e hidle hmem hfree htype => exact (hnot rfl).elim
  | unlock p e hidle hown => exact (hnot rfl).elim
  | change p e c hidle hown htype => exact (hnot rfl).elim
  | iupdate p e hidle hown =>
    have ok := inv.entry e
    have hpos := count_pos_of_mem (ok.locked p hown)
    rw [dinode_iupdate] at hnew
    split_ifs at hnew
    · exact absurd hnew (ok.type hpos (ok.held p hown)).1
    · exact absurd hnew hold
  | begin p e hmem hfree hlast => exact (hnot rfl).elim
  | drop p e hidle hmem hlock hlast => exact (hnot rfl).elim
  | free p e ip d htask hrun =>
    rw [dinode_free wf hrun hk] at hnew
    split_ifs at hnew with hkey
    · exact ⟨p, e, rfl, htask, hkey.symm⟩
    · exact absurd hnew hold
  | finish p e htask => exact (hnot rfl).elim
  | ialloc p dev inum type hinum hfree =>
    refine (hnot ((dinode_setDisk fun _ _ => rfl).trans (if_neg ?_))).elim
    rintro rfl
    exact hold hfree
  | iallocGet p dev inum u htask hgot =>
    refine (hnot ?_).elim
    show dinodeAt sb (u.disk k.1) k.2 = dinodeAt sb (s.disk k.1) k.2
    rw [hgot.disk]
  | pass p q e hidle hmem hlock => exact (hnot rfl).elim
  | write dev b data hb => exact (hnot (dinode_write wf hb hk)).elim

/-! ## What a step does to the processes -/

/-- Where the process is after its step. -/
inductive Moves (s : Itable P) (p : P) (t : Itable P) : ItableEvent P → Prop
  | idle (ev : ItableEvent P) (h : t.task p = .idle) : Moves s p t ev
  | allocated (ev : ItableEvent P) (dev inum : ℕ) (h : t.task p = .allocated dev inum) :
    Moves s p t ev
  | freeing (e : Fin nInode) (h : t.task p = .freeing e) (hinode : t.inode = s.inode)
      (hrefs : t.refs = s.refs)
        (hlast : (s.inode e).ref = 1 ∧ (s.inode e).valid = true ∧ (s.inode e).copy.nlink = 0) :
          Moves s p t (.iput p e)
  | freed (e : Fin nInode) (h : t.task p = .freed e) (hold : s.task p = .freeing e)
      (hrefs : t.refs = s.refs) (hvalid : (t.inode e).valid = false) : Moves s p t (.iputFree p)

omit [DecidableEq P] in
theorem moves_stay (hproc : ev.proc = some p) (htask : t.task = s.task) (hidle : s.task p = .idle) :
    (∀ r, ev.proc = some r → Moves s r t ev) ∧ ∀ q, ev.proc ≠ some q → t.task q = s.task q := by
  refine ⟨fun r hr => .idle _ ?_, fun q _ => congrFun htask q⟩
  rw [htask, ← Option.some.inj (hproc.symm.trans hr), hidle]

theorem moves_to {k : InodeTask} (hproc : ev.proc = some p) (htask : t.task = update s.task p k)
    (hm : Moves s p t ev) :
    (∀ r, ev.proc = some r → Moves s r t ev) ∧ ∀ q, ev.proc ≠ some q → t.task q = s.task q := by
  refine ⟨fun r hr => Option.some.inj (hproc.symm.trans hr) ▸ hm, fun q hq => ?_⟩
  rw [htask, update_of_ne]
  rintro rfl
  exact hq hproc

/-- A step moves the process that takes it, and no other one. -/
theorem step_moves (h : s.step sb ev = some t) :
    (∀ p, ev.proc = some p → Moves s p t ev) ∧ ∀ q, ev.proc ≠ some q → t.task q = s.task q := by
  cases Change.of_step h with
  | iget p dev inum t hidle hinum hgot => exact moves_stay rfl hgot.task hidle
  | idup p e hidle hmem => exact moves_stay rfl rfl hidle
  | lock p e hidle hmem hfree hvalid => exact moves_stay rfl rfl hidle
  | load p e hidle hmem hfree htype => exact moves_stay rfl rfl hidle
  | unlock p e hidle hown => exact moves_stay rfl rfl hidle
  | change p e c hidle hown htype => exact moves_stay rfl rfl hidle
  | iupdate p e hidle hown => exact moves_stay rfl rfl hidle
  | begin p e hmem hfree hlast => exact moves_to rfl rfl (.freeing e (update_self ..) rfl rfl hlast)
  | drop p e hidle hmem hlock hlast => exact moves_stay rfl rfl hidle
  | free p e ip d htask hrun =>
    refine moves_to rfl rfl (.freed e (update_self ..) htask rfl ?_)
    show (update s.inode e _ e).valid = false
    rw [update_self]
  | finish p e htask => exact moves_to rfl rfl (.idle _ (update_self ..))
  | ialloc p dev inum type hinum hfree =>
    exact moves_to rfl rfl (.allocated _ dev inum (update_self ..))
  | iallocGet p dev inum u htask hgot =>
    refine moves_to (k := .idle) rfl ?_ (.idle _ (update_self ..))
    rw [setTask, hgot.task]
  | pass p q e hidle hmem hlock => exact moves_stay rfl rfl hidle
  | write dev b data hb => exact ⟨fun p hp => absurd hp (Option.some_ne_none p).symm, fun q _ =>
    rfl⟩

/-- A process in the middle of an `iput` that frees has the only reference. -/
structure Alone (s : Itable P) : Prop where
  count : ∀ p e, s.Window p e → s.count e = 1
  invalid : ∀ p e, s.task p = .freed e → (s.inode e).valid = false

omit [DecidableEq P] in
theorem Alone.init (disk : ℕ → Disk) : Alone (init disk : Itable P) := by
  refine ⟨fun p e h => ?_, fun p e h => absurd h InodeTask.noConfusion⟩
  rcases h with h | h
  · exact absurd h InodeTask.noConfusion
  · exact absurd h InodeTask.noConfusion

/-- After an undisturbed step it is still the only one. -/
theorem Alone.step (alone : Alone s) (inv : Inv sb s) (hev : s.Undisturbed ev)
    (h : s.step sb ev = some t) : Alone t := by
  obtain ⟨hown, hrest⟩ := step_moves h
  -- an entry in the middle of an `iput` of another process
  have hother (q : P) (e : Fin nInode) (hq : ev.proc ≠ some q) (hw : s.Window q e) :
      t.inode e = s.inode e ∧ t.count e = 1 := by
    have hone := alone.count q e hw
    rcases step_entry inv h e with hsame | ⟨p, hp, hmem⟩ | ⟨k, hk, hkey | hzero⟩
    · exact ⟨hsame.1, hsame.2.trans hone⟩
    · have heq := eq_of_count_eq_one hone hmem (inv.mem_of_window hw)
      exact absurd (heq ▸ hp) hq
    · exact absurd hkey (hev k hk q e hw)
    · omega
  -- an entry in the middle of an `iput` of the process that takes the step
  have hself (q : P) (e : Fin nInode) (hq : ev.proc = some q) (hw : t.Window q e) :
      t.count e = 1 ∧ (t.task q = .freed e → (t.inode e).valid = false) := by
    rw [Window] at hw
    cases hown q hq with
    | idle _ htask =>
      rw [htask] at hw
      exact absurd hw (by simp)
    | allocated _ dev inum htask =>
      rw [htask] at hw
      exact absurd hw (by simp)
    | freeing f htask hinode hrefs hlast =>
      rw [htask, InodeTask.freeing.injEq, or_iff_left InodeTask.noConfusion] at hw
      subst hw
      have hone := ((inv.entry f).ref_eq_iff (n := 1) (by norm_num)).mp hlast.1
      refine ⟨?_, fun hw => ?_⟩
      · rwa [Itable.count, hrefs]
      · rw [htask] at hw
        exact absurd hw InodeTask.noConfusion
    | freed f htask hold hrefs hvalid =>
      rw [htask, InodeTask.freed.injEq, or_iff_right InodeTask.noConfusion] at hw
      subst hw
      refine ⟨?_, fun _ => hvalid⟩
      rw [Itable.count, hrefs]
      exact alone.count q f (.inl hold)
  constructor
  · intro q e hw
    by_cases hq : ev.proc = some q
    · exact (hself q e hq hw).1
    · refine (hother q e hq ?_).2
      rwa [Window, hrest q hq] at hw
  · intro q e hw
    by_cases hq : ev.proc = some q
    · exact (hself q e hq (.inr hw)).2 hw
    · rw [hrest q hq] at hw
      rw [(hother q e hq (.inr hw)).1]
      exact alone.invalid q e hw

/-! ## What `iput` does -/

/-- The blocks of an inode are marked in the bitmap of its device, and no other inode has them. -/
def InOrder (sb : Superblock) (d : Disk) (i : ℕ) (ip : Dinode) : Prop :=
  ∃ din, BlocksOk sb din d ∧ din i = ip

/-- `iput` frees an inode exactly if it drops the last reference to it, and it is valid and has no
links. -/
structure PutOk (sb : Superblock) (s : Itable P) (ev : ItableEvent P) (t : Itable P) : Prop where
  /-- `iput` begins to free. -/
  begins : ∀ p e, ev = .iput p e →
    (t.task p = .freeing e ↔ s.count e = 1 ∧ (s.inode e).valid = true ∧ (s.inode e).copy.nlink = 0)
  /-- Nothing else frees an inode, and it is freed only then. -/
  frees : ∀ k, k.2 < sb.ninodes → (s.dinode sb k).type ≠ 0 → (t.dinode sb k).type = 0 →
    ∃ p e, ev = .iputFree p ∧ s.task p = .freeing e ∧ s.key e = k ∧ s.count e = 1 ∧
      (s.inode e).valid = true ∧ (s.inode e).copy.nlink = 0
  /-- A freed inode has type 0, and its blocks are free. -/
  freed : ∀ p e, ev = .iputFree p → s.task p = .freeing e → (t.dinode sb (s.key e)).type = 0 ∧
    (InOrder sb (s.disk (s.inode e).dev) (s.inode e).inum (s.inode e).copy →
      ∀ n, (s.inode e).copy.slot (s.disk (s.inode e).dev) n ≠ 0 →
        bitAt sb (t.disk (s.inode e).dev) ((s.inode e).copy.slot (s.disk (s.inode e).dev) n) =
          false)
  /-- The last reference to a valid inode without links is not dropped in another way. -/
  dropped : ∀ e, t.count e < s.count e → t.count e = 0 →
    ¬ ((s.inode e).valid = true ∧ (s.inode e).copy.nlink = 0)

omit [DecidableEq P] in
theorem freeing_inOrder (inv : Inv sb s) (htask : s.task p = .freeing e)
    (ok : InOrder sb (s.disk (s.inode e).dev) (s.inode e).inum (s.inode e).copy) :
    ∃ din, BlocksOk sb din (s.disk (s.inode e).dev) ∧ din (s.inode e).inum = (s.inode e).copy ∧
      Allocated sb din (s.inode e).inum := by
  obtain ⟨hmem, _, hvalid, _⟩ := inv.freeing htask
  have entry := inv.entry e
  have hpos := count_pos_of_mem hmem
  obtain ⟨din, hblocks, hcopy⟩ := ok
  refine ⟨din, hblocks, hcopy, entry.range hpos, ?_⟩
  rw [hcopy]
  exact (entry.type hpos hvalid).1

/-- The code under the sleep-lock of `iput` does not panic. -/
theorem iputFree_exists (inv : Inv sb s) (wf : sb.Wf) (htask : s.task p = .freeing e)
    (ok : InOrder sb (s.disk (s.inode e).dev) (s.inode e).inum (s.inode e).copy) :
    ∃ t, s.step sb (.iputFree p) = some t := by
  obtain ⟨din, hblocks, hcopy, hal⟩ := freeing_inOrder inv htask ok
  obtain ⟨ip, d, hrun, _⟩ := (itrunc_frees wf hblocks hal).exists_ok
  rw [hcopy] at hrun
  refine ⟨s.free sb p e ip d, ?_⟩
  simp only [step, htask, iputFree, hrun]

/-- `iput` does not wait for the sleep-lock while it holds `itable.lock`. -/
theorem iput_exists (inv : Inv sb s) (hidle : s.task p = .idle) (hmem : (p, e) ∈ s.refs)
    (hlock : s.lock e ≠ some p) : ∃ t, s.step sb (.iput p e) = some t := by
  have ok := inv.entry e
  rw [show s.step sb (.iput p e) = s.iput p e from if_pos ⟨hidle, hmem, hlock⟩, iput]
  by_cases hlast : (s.inode e).ref = 1 ∧ (s.inode e).valid = true ∧ (s.inode e).copy.nlink = 0
  · have hone := (ok.ref_eq_iff (n := 1) (by norm_num)).mp hlast.1
    have hfree : s.lock e = none := by
      refine Option.eq_none_iff_forall_ne_some.mpr fun q hq => hlock ?_
      rw [hq, eq_of_count_eq_one hone (ok.locked q hq) hmem]
    rw [if_pos hlast, if_pos hfree]
    exact ⟨_, rfl⟩
  · rw [if_neg hlast]
    exact ⟨_, rfl⟩

theorem iput_begins (inv : Inv sb s) (h : s.step sb (.iput p e) = some t) :
    t.task p = .freeing e ↔
      s.count e = 1 ∧ (s.inode e).valid = true ∧ (s.inode e).copy.nlink = 0 := by
  rw [← (inv.entry e).ref_eq_iff (n := 1) (by norm_num)]
  cases Change.of_step h with
  | begin _ _ hmem hfree hlast => exact iff_of_true (update_self ..) hlast
  | drop _ _ hidle hmem hlock hlast =>
    refine iff_of_false (fun htask => ?_) hlast
    rw [show (s.unref p e).task p = s.task p from rfl, hidle] at htask
    exact InodeTask.noConfusion htask

theorem iputFree_frees (inv : Inv sb s) (wf : sb.Wf) (htask : s.task p = .freeing e)
    (h : s.step sb (.iputFree p) = some t) :
    (t.dinode sb (s.key e)).type = 0 ∧
      (InOrder sb (s.disk (s.inode e).dev) (s.inode e).inum (s.inode e).copy →
        ∀ n, (s.inode e).copy.slot (s.disk (s.inode e).dev) n ≠ 0 →
        bitAt sb (t.disk (s.inode e).dev) ((s.inode e).copy.slot (s.disk (s.inode e).dev) n) =
          false) := by
  have hrange := (inv.entry e).range (count_pos_of_mem (inv.freeing htask).1)
  cases Change.of_step h with
  | free _ f ip d hf hrun =>
    obtain rfl : e = f := InodeTask.freeing.inj (htask.symm.trans hf)
    refine ⟨?_, fun ok n hn => ?_⟩
    · rw [dinode_free wf hrun hrange, if_pos rfl]
    · obtain ⟨din, hblocks, hcopy, hal⟩ := freeing_inOrder inv htask ok
      rw [← hcopy] at hrun hn ⊢
      show bitAt sb (update s.disk (s.inode e).dev _ (s.inode e).dev) _ = false
      rw [update_self, bitAt_setDinode wf hrange]
      exact (itrunc_frees (E := fun _ => False) wf hblocks hal).of_ok hrun n hn

theorem putOk (inv : Inv sb s) (alone : Alone s) (wf : sb.Wf) (h : s.step sb ev = some t) :
    PutOk sb s ev t where
  begins p e hev := by
    subst hev
    exact iput_begins inv h
  frees k hk hold hnew := by
    obtain ⟨p, e, hev, htask, hkey⟩ := step_frees inv wf h hk hold hnew
    obtain ⟨_, _, hvalid, hlinks⟩ := inv.freeing htask
    exact ⟨p, e, hev, htask, hkey, alone.count p e (.inl htask), hvalid, hlinks⟩
  freed p e hev htask := by
    subst hev
    exact iputFree_frees inv wf htask h
  dropped e hlt hzero hlast := by
    rcases step_drops inv h hlt with ⟨p, hev, hnot⟩ | ⟨p, hev, htask⟩
    · subst hev
      cases Change.of_step h with
      | begin _ _ hmem hfree hl => exact hnot hl
      | drop _ _ hidle hmem hlock hl =>
        have hcount := count_dropRef (f := e) hmem
        rw [if_pos rfl, show (s.dropRef p e).count e = 0 from hzero] at hcount
        exact hnot ⟨((inv.entry e).ref_eq_iff (n := 1) (by norm_num)).mpr hcount, hlast⟩
    · rw [alone.invalid p e htask] at hlast
      exact Bool.false_ne_true hlast.1

/-! ## Runs -/

/-- What holds of the table in every state. -/
structure Discipline (sb : Superblock) (s : Itable P) : Prop where
  /-- Two entries in use hold different inodes. -/
  unique : ∀ e f, 0 < (s.inode e).ref.toInt → 0 < (s.inode f).ref.toInt → s.key e = s.key f → e = f
  /-- `ref` is the number of outstanding references. -/
  ref : ∀ e, (s.inode e).ref.toInt = s.count e
  /-- A valid entry agrees with the disk when `iupdate` has been called. -/
  copy : ∀ e, 0 < (s.inode e).ref.toInt → (s.inode e).valid = true → s.synced e = true →
    (s.inode e).copy = s.dinode sb (s.key e)

omit [DecidableEq P] in
theorem Inv.discipline (inv : Inv sb s) : Discipline sb s where
  unique e f he hf := inv.unique e f ((inv.entry e).pos_iff.mp he) ((inv.entry f).pos_iff.mp hf)
  ref e := (inv.entry e).toInt_ref
  copy e hpos := (inv.entry e).copy ((inv.entry e).pos_iff.mp hpos)

/-- In every run in which no entry gets `2 ^ 31` references, the table keeps its discipline, an
entry is recycled only if its `ref` is 0, and `iput` goes through; and if besides no inode is got
again in the middle of an `iput` that frees it, then an inode is freed exactly if the last reference
to it is dropped and it is valid and has no links. -/
theorem inode_table_discipline {P : Type}
    [DecidableEq P] (sb : Superblock) (wf : sb.Wf) (disk : ℕ → Disk) (events : List (ItableEvent P))
    (s : Itable P) (run : Trace.exec (step sb) (init disk) events = some s)
    (fits : Trace.Meets (step sb) (fun s _ => s.Fits) (init disk) events) :
    Discipline sb s ∧
      (∀ ev t, s.step sb ev = some t → ∀ e, t.key e ≠ s.key e → (s.inode e).ref = 0) ∧
      (∀ p e, s.task p = .idle →
        (p, e) ∈ s.refs → s.lock e ≠ some p → ∃ t, s.step sb (.iput p e) = some t) ∧
      (∀ p e, s.task p = .freeing e →
        InOrder sb (s.disk (s.inode e).dev) (s.inode e).inum (s.inode e).copy →
        ∃ t, s.step sb (.iputFree p) = some t) ∧
      (Trace.Meets (step sb) Undisturbed (init disk) events →
        ∀ ev t, s.step sb ev = some t → PutOk sb s ev t) := by
  have inv : Inv sb s :=
    Trace.invariant (fun _ _ _ inv hfits h => inv.step wf hfits h) (Inv.init disk) fits run
  refine ⟨inv.discipline, fun ev t h e hne => (step_key h e).resolve_left hne, fun p e =>
    iput_exists inv, fun p e => iputFree_exists inv wf, fun quiet ev t h => ?_⟩
  have alone : Inv sb s ∧ Alone s :=
    Trace.invariant (P := fun s => Inv sb s ∧ Alone s)
      (fun _ _ _ h hev hstep => ⟨h.1.step wf hev.1 hstep, h.2.step h.1 hev.2 hstep⟩)
      ⟨Inv.init disk, Alone.init disk⟩ (fits.and quiet) run
  exact putOk inv alone.2 wf h

section Sample

/-- The entry that `iget` uses first. -/
def firstEntry : Fin nInode := ⟨0, by decide⟩

/-- A file is opened and loses its last link. -/
def sampleUnlinked : List (ItableEvent Bool) :=
  [.iget false 1 2, .ilock false firstEntry,
    .change false firstEntry { oneBlock tFile 64 47 with nlink := 0 }, .iupdate false firstEntry,
    .iunlock false firstEntry, .iput false firstEntry, .iputFree false]

/-- The other process allocates the inode again, looks at it and puts it. -/
def sampleReallocated : List (ItableEvent Bool) :=
  [.ialloc true 1 2 tFile, .iallocGet true, .ilock true firstEntry, .iunlock true firstEntry,
    .iput true firstEntry]

/-- The first process drops the last reference to a valid inode without links, and the inode stays
allocated. -/
theorem reallocated_inode_leaks :
    ∃ s t,
      Trace.exec (step Mkfs.sb) (init fun _ => sampleDisk 2) (sampleUnlinked ++ sampleReallocated) =
        some s ∧ s.step Mkfs.sb (.iputEnd false) = some t ∧ s.count firstEntry = 1 ∧
      (s.inode firstEntry).valid = true ∧ (s.inode firstEntry).copy.nlink = 0 ∧
      t.count firstEntry = 0 ∧ (t.dinode Mkfs.sb (1, 2)).type = tFile := by
  have h : ((Trace.exec (step Mkfs.sb) (init fun _ => sampleDisk 2)
      (sampleUnlinked ++ sampleReallocated)).bind fun s =>
      (s.step Mkfs.sb (.iputEnd false)).map fun t =>
        (s.count firstEntry, (s.inode firstEntry).valid, (s.inode firstEntry).copy.nlink,
          t.count firstEntry,
        (t.dinode Mkfs.sb (1, 2)).type)) = some (1, true, 0, 0, tFile) := by decide +kernel
  obtain ⟨s, run, h⟩ := Option.bind_eq_some_iff.mp h
  obtain ⟨t, hstep, h⟩ := Option.map_eq_some_iff.mp h
  simp only [Prod.mk.injEq] at h
  exact ⟨s, t, run, hstep, h⟩

/-- Without the other process the last reference is the one of a freed inode. -/
theorem inode_table_discipline_sample :
    ∃ s t, Trace.exec (step Mkfs.sb) (init fun _ => sampleDisk 2) sampleUnlinked = some s ∧
      s.step Mkfs.sb (.iputEnd false) = some t ∧ t.count firstEntry < s.count firstEntry ∧
        PutOk Mkfs.sb s (.iputEnd false) t := by
  have h : ((Trace.exec (step Mkfs.sb) (init fun _ => sampleDisk 2) sampleUnlinked).bind fun s =>
      (s.step Mkfs.sb (.iputEnd false)).map fun t =>
        decide (t.count firstEntry < s.count firstEntry)) = some true := by decide +kernel
  obtain ⟨s, run, h⟩ := Option.bind_eq_some_iff.mp h
  obtain ⟨t, hstep, h⟩ := Option.map_eq_some_iff.mp h
  refine ⟨s, t, run, hstep, of_decide_eq_true h, ?_⟩
  exact (inode_table_discipline Mkfs.sb (by decide) (fun _ => sampleDisk 2) sampleUnlinked s run
    (by decide +kernel)).2.2.2.2
    (by decide +kernel) _ _ hstep

end Sample

end Itable

end NeulaCpu.Xv6

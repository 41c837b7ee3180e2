import NeulaCpu.Lib.Trace
import NeulaCpu.Xv6.FileOps
import NeulaCpu.Xv6.Itable

/-!
# Discipline of the inode table

For every interleaving: two entries in use hold different inodes, `ref` counts the outstanding
references, an entry is recycled only if there are none, and a valid entry that has been written
back agrees with the disk. `iput` begins to free an inode exactly if it drops the last reference to
a valid inode without links.

`ref` is an `int` and nothing looks at its bound; the results are about runs in which no entry has
more than `2 ^ 31 - 1` references at a time. That freed inodes and last references go together needs
more: `iput` drops its reference only after it has given up both locks, and the inode may be
allocated again in between. The process that allocated it then does not drop the last reference, and
`iput` does not look at the inode again when it does.
-/

namespace NeulaCpu.Xv6

open Outcome Function

namespace Itable

variable {P : Type} {sb : Superblock} {s t : Itable P} {p q : P} {e f : Fin nInode} {dev inum : ℕ}

/-! ## References -/

theorem count_pos_of_mem (h : (p, e) ∈ s.refs) : 0 < s.count e :=
  List.count_pos_iff.mpr (List.mem_map.mpr ⟨(p, e), h, rfl⟩)

theorem count_addRef : (s.addRef p e).count f = s.count f + if f = e then 1 else 0 := by
  rw [count, addRef, List.map_cons, List.count_cons, count]
  simp only [beq_iff_eq, eq_comm (a := f)]

theorem count_dropRef [DecidableEq P] (h : (p, e) ∈ s.refs) :
    s.count f = (s.dropRef p e).count f + if f = e then 1 else 0 := by
  have hperm := (List.perm_cons_erase h).map Prod.snd
  rw [count, hperm.count_eq, List.map_cons, List.count_cons, count, dropRef]
  simp only [beq_iff_eq, eq_comm (a := f)]

theorem mem_dropRef [DecidableEq P] (hne : (q, f) ≠ (p, e)) :
    (q, f) ∈ (s.dropRef p e).refs ↔ (q, f) ∈ s.refs := List.mem_erase_of_ne hne

/-- Two processes with references to an entry make two references. -/
theorem eq_of_count_eq_one [DecidableEq P] (h : s.count e = 1) (hp : (p, e) ∈ s.refs)
    (hq : (q, e) ∈ s.refs) : p = q := by
  by_contra hne
  have hq' : (q, e) ∈ (s.dropRef p e).refs :=
    (mem_dropRef fun heq => hne (Prod.mk.inj heq).1.symm).mpr hq
  have hpos := count_pos_of_mem hq'
  have hcount := count_dropRef (f := e) hp
  rw [if_pos rfl] at hcount
  omega

theorem lookup_some (h : s.lookup dev inum = some e) :
    0 < (s.inode e).ref.toInt ∧ s.key e = (dev, inum) := by
  have hfound := List.find?_some h
  simp only [Bool.and_eq_true, decide_eq_true_eq, beq_iff_eq] at hfound
  exact ⟨hfound.1.1, Prod.ext hfound.1.2 hfound.2⟩

theorem lookup_none (h : s.lookup dev inum = none) (hpos : 0 < (s.inode e).ref.toInt) :
    s.key e ≠ (dev, inum) := by
  intro hkey
  have hnot := List.find?_eq_none.mp h e (List.mem_finRange e)
  simp only [Bool.and_eq_true, decide_eq_true_eq, beq_iff_eq] at hnot
  exact hnot ⟨⟨hpos, congrArg Prod.fst hkey⟩, congrArg Prod.snd hkey⟩

theorem empty_some (h : s.empty = some e) : (s.inode e).ref = 0 := by
  simpa using List.find?_some h

/-! ## The invariant -/

/-- What holds of an entry. -/
structure EntryOk (sb : Superblock) (s : Itable P) (e : Fin nInode) : Prop where
  ref : (s.inode e).ref = BitVec.ofNat 32 (s.count e)
  bound : s.count e < 2 ^ 31
  range : 0 < s.count e → (s.inode e).inum < sb.ninodes
  locked : ∀ p, s.lock e = some p → (p, e) ∈ s.refs
  held : ∀ p, s.lock e = some p → (s.inode e).valid = true
  type : 0 < s.count e → (s.inode e).valid = true →
    (s.inode e).copy.type ≠ 0 ∧ (s.dinode sb (s.key e)).type = (s.inode e).copy.type
  copy : 0 < s.count e → (s.inode e).valid = true → s.synced e = true →
    (s.inode e).copy = s.dinode sb (s.key e)

/-- What holds of a process in the middle of `iput` or `ialloc`. -/
def TaskOk (sb : Superblock) (s : Itable P) (p : P) : InodeTask → Prop
  | .idle => True
  | .freeing e => (p, e) ∈ s.refs ∧ s.lock e = some p ∧ (s.inode e).valid = true ∧ (s.inode
    e).copy.nlink = 0
  | .freed e => (p, e) ∈ s.refs ∧ s.lock e ≠ some p
  | .allocated _ inum => inum < sb.ninodes

structure Inv (sb : Superblock) (s : Itable P) : Prop where
  entry : ∀ e, EntryOk sb s e
  unique : ∀ e f, 0 < s.count e → 0 < s.count f → s.key e = s.key f → e = f
  task : ∀ p, TaskOk sb s p (s.task p)

namespace EntryOk

theorem toInt_ref (h : EntryOk sb s e) : (s.inode e).ref.toInt = s.count e := by
  have hb := h.bound
  have hnat : (BitVec.ofNat 32 (s.count e)).toNat = s.count e := by
    rw [BitVec.toNat_ofNat, Nat.mod_eq_of_lt (by omega)]
  rw [h.ref, BitVec.toInt_eq_toNat_of_lt (by omega), hnat]

theorem pos_iff (h : EntryOk sb s e) : 0 < (s.inode e).ref.toInt ↔ 0 < s.count e := by
  rw [h.toInt_ref]
  exact Int.natCast_pos

theorem ref_eq_iff (h : EntryOk sb s e) {n : ℕ} (hn : n < 2 ^ 32) :
    (s.inode e).ref = BitVec.ofNat 32 n ↔ s.count e = n := by
  have hb := h.bound
  rw [h.ref, ← BitVec.toNat_inj, BitVec.toNat_ofNat, BitVec.toNat_ofNat, Nat.mod_eq_of_lt hn,
    Nat.mod_eq_of_lt (by omega)]

end EntryOk

/-- Nothing that concerns the entry has changed. -/
structure Same (sb : Superblock) (s t : Itable P) (e : Fin nInode) : Prop where
  inode : t.inode e = s.inode e
  lock : t.lock e = s.lock e
  synced : t.synced e = s.synced e
  refs : ∀ p, (p, e) ∈ t.refs ↔ (p, e) ∈ s.refs
  count : t.count e = s.count e
  dinode : 0 < s.count e → (s.inode e).valid = true → t.dinode sb (s.key e) = s.dinode sb (s.key e)

namespace Same

theorem key (h : Same sb s t e) : t.key e = s.key e := by rw [Itable.key, h.inode, Itable.key]

theorem entry (h : Same sb s t e) (ok : EntryOk sb s e) : EntryOk sb t e where
  ref := by rw [h.inode, h.count, ok.ref]
  bound := by rw [h.count]; exact ok.bound
  range := by rw [h.count, h.inode]; exact ok.range
  locked p hp := (h.refs p).mpr (ok.locked p (by rwa [← h.lock]))
  held p hp := by
    rw [h.inode]
    exact ok.held p (by rwa [← h.lock])
  type hpos hvalid := by
    rw [h.count] at hpos
    rw [h.inode] at hvalid ⊢
    rw [h.key, h.dinode hpos hvalid]
    exact ok.type hpos hvalid
  copy hpos hvalid hsynced := by
    rw [h.count] at hpos
    rw [h.inode] at hvalid ⊢
    rw [h.synced] at hsynced
    rw [h.key, h.dinode hpos hvalid]
    exact ok.copy hpos hvalid hsynced

theorem task (h : Same sb s t e) (ok : TaskOk sb s p (s.task p))
    (he : s.task p = .freeing e ∨ s.task p = .freed e) : TaskOk sb t p (s.task p) := by
  rcases he with he | he
  · rw [he] at ok ⊢
    obtain ⟨h1, h2, h3, h4⟩ := ok
    exact ⟨(h.refs p).mpr h1, h.lock.trans h2, by rwa [h.inode], by rwa [h.inode]⟩
  · rw [he] at ok ⊢
    exact ⟨(h.refs p).mpr ok.1, by rw [h.lock]; exact ok.2⟩

end Same

/-- A step that concerns the entry `e` and the process `p` only. -/
theorem Inv.local (inv : Inv sb s) (hsame : ∀ f, f ≠ e → Same sb s t f) (hentry : EntryOk sb t e)
    (hunique : ∀ f, f ≠ e → 0 < t.count e → 0 < t.count f → t.key e ≠ t.key f)
    (htask : ∀ q, q ≠ p → t.task q = s.task q) (hp : TaskOk sb t p (t.task p))
    (hother : ∀ q, q ≠ p → (s.task q = .freeing e ∨ s.task q = .freed e) →
    TaskOk sb t q (s.task q)) : Inv sb t where
  entry f := by
    by_cases hf : f = e
    · rwa [hf]
    · exact (hsame f hf).entry (inv.entry f)
  unique f g hf hg hkey := by
    by_contra hne
    by_cases hfe : f = e
    · subst hfe
      exact hunique g (Ne.symm hne) hf hg hkey
    · by_cases hge : g = e
      · subst hge
        exact hunique f hfe hg hf hkey.symm
      · have h1 := hsame f hfe
        have h2 := hsame g hge
        rw [h1.count] at hf
        rw [h2.count] at hg
        rw [h1.key, h2.key] at hkey
        exact hne (inv.unique f g hf hg hkey)
  task q := by
    by_cases hq : q = p
    · rwa [hq]
    · rw [htask q hq]
      have ok := inv.task q
      cases hqt : s.task q with
      | idle => trivial
      | allocated dev inum =>
        rw [hqt] at ok
        exact ok
      | freeing f =>
        rw [← hqt]
        by_cases hf : f = e
        · exact hother q hq (.inl (by rw [hqt, hf]))
        · exact (hsame f hf).task ok (.inl hqt)
      | freed f =>
        rw [← hqt]
        by_cases hf : f = e
        · exact hother q hq (.inr (by rw [hqt, hf]))
        · exact (hsame f hf).task ok (.inr hqt)

/-- A step that concerns an entry in use, which keeps its inode. -/
theorem Inv.keyed (inv : Inv sb s) (hsame : ∀ f, f ≠ e → Same sb s t f)
    (hentry : EntryOk sb t e) (hpos : 0 < s.count e) (hkey : t.key e = s.key e)
    (htask : ∀ q, q ≠ p → t.task q = s.task q) (hp : TaskOk sb t p (t.task p))
    (hother : ∀ q, q ≠ p → (s.task q = .freeing e ∨ s.task q = .freed e) →
      TaskOk sb t q (s.task q)) :
    Inv sb t := by
  refine inv.local hsame hentry (fun f hf _ hfpos heq => hf ?_) htask hp hother
  have h := hsame f hf
  rw [hkey, h.key] at heq
  rw [h.count] at hfpos
  exact (inv.unique e f hpos hfpos heq).symm

/-- A step that concerns no entry. -/
theorem Inv.same (inv : Inv sb s) (hsame : ∀ f, Same sb s t f)
    (htask : ∀ q, q ≠ p → t.task q = s.task q) (hp : TaskOk sb t p (t.task p)) : Inv sb t := by
  refine inv.local (e := ⟨0, by decide⟩) (fun f _ => hsame f) ((hsame _).entry (inv.entry _))
    (fun f hf hpos hfpos heq => hf ?_) htask hp fun q hq hwin => (hsame _).task (inv.task q) hwin
  have h := hsame f
  have h0 := hsame ⟨0, by decide⟩
  rw [h0.key, h.key] at heq
  rw [h0.count] at hpos
  rw [h.count] at hfpos
  exact (inv.unique _ f hpos hfpos heq).symm

/-- The holder of the lock of an entry in the middle of `iput`. -/
theorem Inv.freeing (inv : Inv sb s) (h : s.task q = .freeing e) :
    (q, e) ∈ s.refs ∧ s.lock e = some q ∧ (s.inode e).valid = true ∧
      (s.inode e).copy.nlink = 0 := by
  have ok := inv.task q
  rwa [h] at ok

theorem Inv.freed (inv : Inv sb s) (h : s.task q = .freed e) :
    (q, e) ∈ s.refs ∧ s.lock e ≠ some q := by
  have ok := inv.task q
  rwa [h] at ok

theorem Inv.mem_of_window (inv : Inv sb s) (h : s.task q = .freeing e ∨ s.task q = .freed e) :
    (q, e) ∈ s.refs := by
  rcases h with h | h
  · exact (inv.freeing h).1
  · exact (inv.freed h).1

/-- A process keeps its place in `iput` if its reference and its lock stay, and the entries stay as
they are. -/
theorem TaskOk.mono {k : InodeTask} (ok : TaskOk sb s q k)
    (hrefs : ∀ e, (q, e) ∈ s.refs → (q, e) ∈ t.refs)
    (hlock : ∀ e, t.lock e = some q ↔ s.lock e = some q)
    (hinode : ∀ e, (t.inode e).valid = (s.inode e).valid ∧ (t.inode e).copy = (s.inode e).copy) :
    TaskOk sb t q k := by
  cases k with
  | idle => trivial
  | allocated dev inum => exact ok
  | freeing e =>
    obtain ⟨h1, h2, h3, h4⟩ := ok
    exact ⟨hrefs e h1, (hlock e).mpr h2, by rwa [(hinode e).1], by rwa [(hinode e).2]⟩
  | freed e => exact ⟨hrefs e ok.1, fun h => ok.2 ((hlock e).mp h)⟩

/-! ## Each function keeps the invariant -/

theorem Inv.init (disk : ℕ → Disk) : Inv sb (init disk : Itable P) where
  entry e := by
    have hzero : (Itable.init disk : Itable P).count e = 0 := rfl
    refine ⟨rfl, by rw [hzero]; norm_num, ?_, fun p hp => absurd hp (Option.some_ne_none p).symm,
      fun p hp => absurd hp (Option.some_ne_none p).symm, ?_, ?_⟩
    all_goals
      intro hpos
      rw [hzero] at hpos
      exact absurd hpos (Nat.lt_irrefl 0)
  unique e f he := absurd he (Nat.lt_irrefl 0)
  task p := trivial

/-- The other entries when a reference is added. -/
theorem same_addRef {i : MemInode} (hf : f ≠ e) : Same sb s ((s.setInode e i).addRef p e) f where
  inode := update_of_ne hf ..
  lock := rfl
  synced := rfl
  refs q := by
    rw [addRef, List.mem_cons, or_iff_right fun h => hf (Prod.mk.inj h).2]
    rfl
  count := by
    rw [count_addRef, if_neg hf]
    rfl
  dinode _ _ := rfl

/-- One more reference to an entry in use: `idup`, or `iget` that has found the inode. -/
theorem Inv.idup (inv : Inv sb s) (hpos : 0 < s.count e) (hbound : s.count e + 1 < 2 ^ 31) (p : P) :
    Inv sb (s.idup p e) := by
  have ok := inv.entry e
  have hinode : (s.idup p e).inode e =
      { s.inode e with ref := (s.inode e).ref + 1 } := update_self ..
  have hcount : (s.idup p e).count e = s.count e + 1 := by
    rw [Itable.idup, count_addRef, if_pos rfl]
    rfl
  have hkey : (s.idup p e).key e = s.key e := by rw [key, hinode, key]
  have hsame (f : Fin nInode) (hf : f ≠ e) : Same sb s (s.idup p e) f := same_addRef hf
  have hmem (q : P) (f : Fin nInode) (hq : (q, f) ∈ s.refs) : (q, f) ∈ (s.idup p e).refs :=
    List.mem_cons_of_mem _ hq
  have hcopy (f : Fin nInode) : ((s.idup p e).inode f).valid = (s.inode f).valid ∧
      ((s.idup p e).inode f).copy = (s.inode f).copy := by
    by_cases hf : f = e
    · rw [hf, hinode]
      exact ⟨rfl, rfl⟩
    · rw [(hsame f hf).inode]
      exact ⟨rfl, rfl⟩
  have htask (q : P) := (inv.task q).mono (hmem q) (fun _ => Iff.rfl) hcopy
  refine inv.keyed (p := p) hsame
    ⟨?_, by omega, ?_, fun q hq => hmem q e (ok.locked q hq),
    fun q hq => (hcopy e).1.trans (ok.held q hq), ?_, ?_⟩
    hpos hkey (fun _ _ => rfl) (htask p) fun q _ _ => htask q
  · rw [hinode, hcount, BitVec.ofNat_add, ← ok.ref]
    rfl
  · rw [hinode]
    exact fun _ => ok.range hpos
  · rw [hinode, hkey]
    exact fun _ => ok.type hpos
  · rw [hinode, hkey]
    exact fun _ => ok.copy hpos

/-- `iget` recycles an entry without references. -/
theorem Inv.recycle (inv : Inv sb s) (hlookup : s.lookup dev inum = none)
    (hempty : s.empty = some e) (hinum : inum < sb.ninodes) (p : P) :
    Inv sb (s.recycle p e dev inum) := by
  have ok := inv.entry e
  have hzero : s.count e = 0 := (ok.ref_eq_iff (by norm_num)).mp (empty_some hempty)
  have hnone (q : P) (hq : (q, e) ∈ s.refs) : False := by
    have := count_pos_of_mem hq
    omega
  generalize ht : s.recycle p e dev inum = t
  have hsame (f : Fin nInode) (hf : f ≠ e) : Same sb s t f := ht ▸ same_addRef hf
  have hinode : t.inode e = ⟨dev, inum, 1, false, (s.inode e).copy⟩ := by
    rw [← ht]
    exact update_self ..
  have hcount : t.count e = 1 := by
    rw [← ht, Itable.recycle, count_addRef, if_pos rfl]
    exact congrArg (· + 1) hzero
  have hlock : t.lock = s.lock := ht ▸ rfl
  have htask (q : P) : t.task q = s.task q := ht ▸ rfl
  have hother (q : P) : TaskOk sb t q (s.task q) := by
    have okq := inv.task q
    cases hq : s.task q with
    | idle => trivial
    | allocated dev inum =>
      rw [hq] at okq
      exact okq
    | freeing f =>
      have hf : f ≠ e := fun hf => hnone q (hf ▸ (inv.freeing hq).1)
      rw [← hq]
      exact (hsame f hf).task okq (.inl hq)
    | freed f =>
      have hf : f ≠ e := fun hf => hnone q (hf ▸ (inv.freed hq).1)
      rw [← hq]
      exact (hsame f hf).task okq (.inr hq)
  have hfree (q : P) (hq : t.lock e = some q) : False := hnone q (ok.locked q (by rwa [← hlock]))
  refine inv.local (p := p) hsame
    ⟨?_, by omega, ?_, fun q hq => (hfree q hq).elim, fun q hq => (hfree q hq).elim, ?_, ?_⟩
    (fun f hf _ hpos heq => ?_) (fun q _ => htask q)
    (htask p ▸ hother p) fun q _ _ => hother q
  · rw [hinode, hcount]
    rfl
  · rw [hinode]
    exact fun _ => hinum
  · rw [hinode]
    exact fun _ h => absurd h Bool.false_ne_true
  · rw [hinode]
    exact fun _ h => absurd h Bool.false_ne_true
  · have h := hsame f hf
    rw [h.count] at hpos
    rw [h.key, key, hinode] at heq
    exact lookup_none hlookup ((inv.entry f).pos_iff.mpr hpos) heq.symm

/-- The process `p`, which may take the lock of the entry `e` or holds it, changes the entry and the
inode on the disk. -/
structure Works (sb : Superblock) (s : Itable P) (p : P) (e : Fin nInode) (i : MemInode)
    (o : Option P) (t : Itable P) : Prop where
  inode : t.inode = update s.inode e i
  lock : t.lock = update s.lock e o
  synced : ∀ f, f ≠ e → t.synced f = s.synced f
  refs : t.refs = s.refs
  dinode : ∀ f, f ≠ e → 0 < s.count f → (s.inode f).valid = true →
    t.dinode sb (s.key f) = s.dinode sb (s.key f)
  task : ∀ q, q ≠ p → t.task q = s.task q
  key : (i.dev, i.inum) = s.key e
  ref : i.ref = (s.inode e).ref
  owner : ∀ q, o = some q → q = p
  held : o ≠ none → i.valid = true

theorem Inv.works {i : MemInode} {o : Option P} (inv : Inv sb s) (h : Works sb s p e i o t)
    (hmem : (p, e) ∈ s.refs) (hown : s.lock e = none ∨ s.lock e = some p)
    (htype : i.valid = true → i.copy.type ≠ 0 ∧ (t.dinode sb (s.key e)).type = i.copy.type)
    (hcopy : i.valid = true → t.synced e = true → i.copy = t.dinode sb (s.key e))
    (hp : TaskOk sb t p (t.task p)) : Inv sb t := by
  have ok := inv.entry e
  have hcount (f : Fin nInode) : t.count f = s.count f := by rw [Itable.count, h.refs, Itable.count]
  have hinode : t.inode e = i := by rw [h.inode, update_self]
  have hlock : t.lock e = o := by rw [h.lock, update_self]
  have hkey : t.key e = s.key e := by rw [Itable.key, hinode, h.key]
  refine inv.keyed (p := p) (e := e) (fun f hf => ?_)
    ⟨?_, ?_, fun hpos => ?_, fun q hq => ?_, fun q hq => ?_, fun _ => ?_, fun _ => ?_⟩
    (count_pos_of_mem hmem) hkey h.task hp fun q hq hwin => ?_
  · refine ⟨?_, ?_, h.synced f hf, fun q => by rw [h.refs], hcount f, h.dinode f hf⟩
    · rw [h.inode, update_of_ne hf]
    · rw [h.lock, update_of_ne hf]
  · rw [hinode, hcount, h.ref, ok.ref]
  · rw [hcount]
    exact ok.bound
  · rw [hcount] at hpos
    rw [hinode, show i.inum = (s.inode e).inum from congrArg Prod.snd h.key]
    exact ok.range hpos
  · rw [hlock] at hq
    rw [h.refs, h.owner q hq]
    exact hmem
  · rw [hinode]
    exact h.held fun hnone => Option.some_ne_none q (hq.symm.trans (hlock.trans hnone))
  · rw [hinode, hkey]
    exact htype
  · rw [hinode, hkey]
    exact hcopy
  · -- the process `q` does not hold the lock, so it is past the free
    rcases hwin with hwin | hwin
    · have hheld := (inv.freeing hwin).2.1
      rcases hown with hnone | hsome
      · exact absurd (hnone.symm.trans hheld) (Option.some_ne_none q).symm
      · exact absurd (Option.some.inj (hsome.symm.trans hheld)).symm hq
    · rw [hwin]
      refine ⟨by rw [h.refs]; exact (inv.freed hwin).1, fun heq => ?_⟩
      rw [hlock] at heq
      exact hq (h.owner q heq)

theorem taskOk_idle (h : t.task p = .idle) : TaskOk sb t p (t.task p) := by
  rw [h]
  trivial

section

variable (inv : Inv sb s) (hidle : s.task p = .idle)

include inv hidle

theorem Inv.lock (hmem : (p, e) ∈ s.refs) (hfree : s.lock e = none)
    (hvalid : (s.inode e).valid = true) : Inv sb (s.setLock e (some p)) := by
  have ok := inv.entry e
  have hpos := count_pos_of_mem hmem
  refine inv.works (i := s.inode e) (o := some p)
    ⟨?_, rfl, fun _ _ => rfl, rfl, fun _ _ _ _ => rfl, fun _ _ => rfl, rfl, rfl,
      fun q hq => (Option.some.inj hq).symm, fun _ => hvalid⟩
    hmem (.inl hfree) (ok.type hpos) (ok.copy hpos) (taskOk_idle hidle)
  exact (update_eq_self ..).symm

theorem Inv.load (hmem : (p, e) ∈ s.refs) (hfree : s.lock e = none)
    (htype : (s.dinode sb (s.key e)).type ≠ 0) : Inv sb ((s.load sb e).setLock e (some p)) :=
  inv.works (i := { s.inode e with valid := true, copy := s.dinode sb (s.key e) }) (o := some p)
    ⟨rfl, rfl, fun _ hf => update_of_ne hf .., rfl, fun _ _ _ _ => rfl, fun _ _ => rfl, rfl, rfl,
      fun _ hq => (Option.some.inj hq).symm, fun _ => rfl⟩
    hmem (.inl hfree) (fun _ => ⟨htype, rfl⟩) (fun _ _ => rfl) (taskOk_idle hidle)

theorem Inv.unlock (hown : s.lock e = some p) : Inv sb (s.setLock e none) := by
  have ok := inv.entry e
  have hmem := ok.locked p hown
  have hpos := count_pos_of_mem hmem
  refine inv.works (i := s.inode e) (o := none)
    ⟨?_, rfl, fun _ _ => rfl, rfl, fun _ _ _ _ => rfl, fun _ _ => rfl, rfl, rfl,
      fun q hq => absurd hq (Option.some_ne_none q).symm, fun h => absurd rfl h⟩
    hmem (.inr hown) (ok.type hpos) (ok.copy hpos) (taskOk_idle hidle)
  exact (update_eq_self ..).symm

theorem Inv.change {c : Dinode} (hown : s.lock e = some p)
    (htype : c.type = (s.inode e).copy.type) : Inv sb (s.change e c) := by
  have ok := inv.entry e
  have hmem := ok.locked p hown
  have hpos := count_pos_of_mem hmem
  refine inv.works (i := { s.inode e with copy := c }) (o := some p)
    ⟨rfl, ?_, fun f hf => update_of_ne hf .., rfl, fun _ _ _ _ => rfl, fun _ _ => rfl, rfl, rfl,
      fun q hq => (Option.some.inj hq).symm, fun _ => ok.held p hown⟩
    hmem (.inr hown) (fun hvalid => ?_) (fun _ hsynced => ?_) (taskOk_idle hidle)
  · rw [← hown]
    exact (update_eq_self ..).symm
  · rw [htype]
    exact ok.type hpos hvalid
  · have hfalse : false = true := (update_self ..).symm.trans hsynced
    exact absurd hfalse Bool.false_ne_true

end

/-- The inodes on the disk after one of them has been written. -/
theorem dinode_setDisk {d : Disk} {c : Dinode} {k : ℕ × ℕ}
    (hd : k.1 = dev → k.2 ≠ inum → dinodeAt sb d k.2 = dinodeAt sb (s.disk dev) k.2) :
    (s.setDisk dev (setDinode sb d inum c)).dinode sb k = if k = (dev, inum) then c
      else s.dinode sb k := by
  obtain ⟨a, b⟩ := k
  rw [dinode, setDisk, dinode]
  by_cases ha : a = dev
  · subst ha
    simp only [update_self, Prod.mk.injEq, true_and]
    by_cases hb : b = inum
    · rw [if_pos hb, hb, dinodeAt_setDinode_self]
    · rw [if_neg hb, dinodeAt_setDinode_of_ne hb]
      exact hd rfl hb
  · rw [if_neg fun h => ha (Prod.mk.inj h).1]
    simp only [update_of_ne ha]

theorem dinode_iupdate {k : ℕ × ℕ} :
    (s.iupdate sb e).dinode sb k = if k = s.key e then (s.inode e).copy else s.dinode sb k :=
  dinode_setDisk fun _ _ => rfl

theorem Inv.iupdate (inv : Inv sb s) (hidle : s.task p = .idle) (hown : s.lock e = some p) :
    Inv sb (s.iupdate sb e) := by
  have ok := inv.entry e
  have hmem := ok.locked p hown
  have hpos := count_pos_of_mem hmem
  refine inv.works (i := s.inode e) (o := some p)
    ⟨?_, ?_, fun f hf => update_of_ne hf .., rfl, fun f hf hfpos _ => ?_, fun _ _ => rfl, rfl, rfl,
      fun q hq => (Option.some.inj hq).symm, fun _ => ok.held p hown⟩
    hmem (.inr hown) (fun hvalid => ?_) (fun _ _ => ?_) (taskOk_idle hidle)
  · exact (update_eq_self ..).symm
  · rw [← hown]
    exact (update_eq_self ..).symm
  · rw [dinode_iupdate, if_neg fun h => hf (inv.unique f e hfpos hpos h)]
  · rw [dinode_iupdate, if_pos rfl]
    exact ⟨(ok.type hpos hvalid).1, rfl⟩
  · rw [dinode_iupdate, if_pos rfl]

/-- `ip->ref--` by a process that does not hold the lock. -/
theorem Inv.unref [DecidableEq P] (inv : Inv sb s) (hmem : (p, e) ∈ s.refs)
    (hlock : s.lock e ≠ some p) : Inv sb ((s.unref p e).setTask p .idle) := by
  have ok := inv.entry e
  have hpos := count_pos_of_mem hmem
  generalize ht : (s.unref p e).setTask p .idle = t
  have hinode : t.inode e = { s.inode e with ref := (s.inode e).ref - 1 } := by
    rw [← ht]
    exact update_self ..
  have hcount (f : Fin nInode) : s.count f = t.count f + if f = e then 1 else 0 := by
    rw [← ht]
    exact count_dropRef hmem
  have hrefs (q : P) (f : Fin nInode) (hne : (q, f) ≠ (p, e)) :
      (q, f) ∈ t.refs ↔ (q, f) ∈ s.refs := by
    rw [← ht]
    exact mem_dropRef hne
  have hother (q : P) (hq : q ≠ p) : (q, e) ∈ t.refs ↔ (q, e) ∈ s.refs :=
    hrefs q e fun h => hq (Prod.mk.inj h).1
  have hlocks : t.lock = s.lock := ht ▸ rfl
  have hkey : t.key e = s.key e := by rw [key, hinode, key]
  have hdinode (k : ℕ × ℕ) : t.dinode sb k = s.dinode sb k := ht ▸ rfl
  have hone := hcount e
  rw [if_pos rfl] at hone
  have htask (q : P) (hq : q ≠ p) : t.task q = s.task q := by
    rw [← ht]
    exact update_of_ne hq ..
  have hidle : t.task p = .idle := by
    rw [← ht]
    exact update_self ..
  refine inv.keyed (p := p) (e := e) (fun f hf => ?_)
    ⟨?_, ?_, ?_, fun q hq => ?_, fun q hq => ?_, fun _ => ?_, fun _ => ?_⟩ hpos hkey htask
    (taskOk_idle hidle) fun q hq hwin => ?_
  · refine ⟨?_, by rw [hlocks], ht ▸ rfl, fun q => hrefs q f fun h => hf (Prod.mk.inj h).2, ?_,
      fun _ _ => hdinode _⟩
    · rw [← ht]
      exact update_of_ne hf ..
    · have h := hcount f
      rw [if_neg hf] at h
      omega
  · rw [hinode, ok.ref, hone, BitVec.ofNat_add]
    exact BitVec.add_sub_cancel ..
  · have h := ok.bound
    omega
  · rw [hinode]
    exact fun _ => ok.range hpos
  · rw [hlocks] at hq
    refine (hother q ?_).mpr (ok.locked q hq)
    rintro rfl
    exact hlock hq
  · rw [hinode]
    exact ok.held q (by rwa [← hlocks])
  · rw [hinode, hkey, hdinode]
    exact ok.type hpos
  · rw [hinode, hkey, hdinode, show t.synced e = s.synced e from ht ▸ rfl]
    exact ok.copy hpos
  · rcases hwin with hwin | hwin
    · obtain ⟨h1, h2, h3, h4⟩ := inv.freeing hwin
      rw [hwin]
      refine ⟨(hother q hq).mpr h1, by rwa [hlocks], ?_, ?_⟩
      · rw [hinode]
        exact h3
      · rw [hinode]
        exact h4
    · rw [hwin]
      exact ⟨(hother q hq).mpr (inv.freed hwin).1, by rw [hlocks]; exact (inv.freed hwin).2⟩

theorem setTask_self [DecidableEq P] {k : InodeTask} (h : s.task p = k) : s.setTask p k = s := by
  rw [setTask, ← h, update_eq_self]

/-- `iput` takes the sleep-lock to free the inode. -/
theorem Inv.freeing_begin [DecidableEq P] (inv : Inv sb s) (hmem : (p, e) ∈ s.refs)
    (hfree : s.lock e = none) (hvalid : (s.inode e).valid = true)
    (hlinks : (s.inode e).copy.nlink = 0) :
    Inv sb ((s.setLock e (some p)).setTask p (.freeing e)) := by
  have ok := inv.entry e
  have hpos := count_pos_of_mem hmem
  have hset : (s.setLock e (some p)).lock e = some p := update_self ..
  refine inv.works (i := s.inode e) (o := some p) ⟨?_, rfl, fun _ _ => rfl, rfl, fun _ _ _ _ => rfl,
    fun q hq => update_of_ne hq .., rfl, rfl, fun q hq => (Option.some.inj hq).symm, fun _ =>
      hvalid⟩ hmem
    (.inl hfree) (ok.type hpos) (ok.copy hpos) ?_
  · exact (update_eq_self ..).symm
  · rw [show ((s.setLock e (some p)).setTask p (.freeing e)).task p =
      .freeing e from update_self ..]
    exact ⟨hmem, hset, hvalid, hlinks⟩

/-- The inodes on the disk after one has been freed. -/
theorem dinode_free [DecidableEq P] (wf : sb.Wf) {ip : Dinode} {d : Disk}
    (hrun : itrunc sb (s.inode e).inum (s.inode e).copy (s.disk (s.inode e).dev) = .ok (ip, d))
    {k : ℕ × ℕ}
    (hk : k.2 < sb.ninodes) : (s.free sb p e ip d).dinode sb k =
      if k = s.key e then { ip with type := 0 } else s.dinode sb k :=
  dinode_setDisk fun _ hj => (itrunc_inodes wf (s.inode e).inum (s.inode e).copy).of_ok hrun _ hk hj

theorem Inv.free [DecidableEq P] (inv : Inv sb s) (wf : sb.Wf) (htask : s.task p = .freeing e)
    {ip : Dinode} {d : Disk}
    (hrun : itrunc sb (s.inode e).inum (s.inode e).copy (s.disk (s.inode e).dev) = .ok (ip, d)) :
    Inv sb (s.free sb p e ip d) := by
  obtain ⟨hmem, hown, _, _⟩ := inv.freeing htask
  have hpos := count_pos_of_mem hmem
  refine inv.works (o := none) ⟨rfl, rfl, fun _ _ => rfl, rfl, fun f hf hfpos _ => ?_, fun q hq =>
    update_of_ne hq ..,
    rfl, rfl, fun q hq => absurd hq (Option.some_ne_none q).symm, fun h => absurd rfl h⟩ hmem
      (.inr hown)
    (fun hvalid => absurd hvalid Bool.false_ne_true) (fun hvalid =>
      absurd hvalid Bool.false_ne_true) ?_
  · rw [dinode_free wf hrun ((inv.entry f).range hfpos), if_neg fun heq =>
      hf (inv.unique f e hfpos hpos heq)]
  · rw [show (s.free sb p e ip d).task p = .freed e from update_self ..]
    refine ⟨hmem, fun heq => ?_⟩
    change update s.lock e none e = some p at heq
    rw [update_self] at heq
    exact absurd heq (Option.some_ne_none p).symm

theorem Inv.ialloc [DecidableEq P] {c : Dinode} (inv : Inv sb s) (hinum : inum < sb.ninodes)
    (hfree : (s.dinode sb (dev, inum)).type = 0) :
    Inv sb ((s.setDisk dev (setDinode sb (s.disk dev) inum c)).setTask p
      (.allocated dev inum)) := by
  refine inv.same (p := p) (fun f => ⟨rfl, rfl, rfl, fun _ => Iff.rfl, rfl, fun hpos hvalid => ?_⟩)
    (fun q hq => update_of_ne hq ..) ?_
  · -- a valid inode is not free
    obtain ⟨hne, htype⟩ := (inv.entry f).type hpos hvalid
    have hdisk : (s.setDisk dev (setDinode sb (s.disk dev) inum c)).dinode sb (s.key f) = _ :=
      dinode_setDisk fun _ _ => rfl
    refine hdisk.trans (if_neg fun heq => ?_)
    rw [heq, hfree] at htype
    exact hne htype.symm
  · rw [show (Itable.setTask _ p (.allocated dev inum)).task p =
      .allocated dev inum from update_self ..]
    exact hinum

/-- A reference passes from one process to another. -/
theorem Inv.pass [DecidableEq P] (inv : Inv sb s) (hidle : s.task p = .idle)
    (hmem : (p, e) ∈ s.refs) (hlock : s.lock e ≠ some p) (q : P) :
    Inv sb ((s.dropRef p e).addRef q e) := by
  have ok := inv.entry e
  have hcount (f : Fin nInode) : ((s.dropRef p e).addRef q e).count f = s.count f := by
    rw [count_addRef, ← count_dropRef hmem]
  have hrefs (r : P) (f : Fin nInode) (hne : (r, f) ≠ (p, e)) (hr : (r, f) ∈ s.refs) :
      (r, f) ∈ ((s.dropRef p e).addRef q e).refs :=
        List.mem_cons_of_mem _ ((mem_dropRef hne).mpr hr)
  refine inv.keyed (p := p) (e := e) (fun f hf => ?_) ⟨?_, ?_, ?_, fun r hr => ?_, ok.held, ?_, ?_⟩
    (count_pos_of_mem hmem) rfl (fun _ _ => rfl) (taskOk_idle hidle) fun r hr hwin => ?_
  · refine ⟨rfl, rfl, rfl, fun r => ?_, hcount f, fun _ _ => rfl⟩
    rw [addRef, List.mem_cons, or_iff_right fun h => hf (Prod.mk.inj h).2]
    exact mem_dropRef fun h => hf (Prod.mk.inj h).2
  · rw [hcount]
    exact ok.ref
  · rw [hcount]
    exact ok.bound
  · rw [hcount]
    exact ok.range
  · have hown : s.lock e = some r := hr
    refine hrefs r e (fun h => hlock ?_) (ok.locked r hown)
    rw [hown, (Prod.mk.inj h).1]
  · rw [hcount]
    exact ok.type
  · rw [hcount]
    exact ok.copy
  · have hne : (r, e) ≠ (p, e) := fun h => hr (Prod.mk.inj h).1
    rcases hwin with hwin | hwin
    · obtain ⟨h1, h2⟩ := inv.freeing hwin
      rw [hwin]
      exact ⟨hrefs r e hne h1, h2⟩
    · obtain ⟨h1, h2⟩ := inv.freed hwin
      rw [hwin]
      exact ⟨hrefs r e hne h1, h2⟩

theorem dinode_write (wf : sb.Wf) {b : ℕ} (hb : b < sb.inodestart ∨ sb.bmapstart ≤ b) {data : Block}
    {k : ℕ × ℕ} (hk : k.2 < sb.ninodes) :
    (s.setDisk dev (update (s.disk dev) b data)).dinode sb k = s.dinode sb k := by
  have hlt := wf.iBlock_lt hk
  have hge : sb.inodestart ≤ iBlock sb k.2 := Nat.le_add_left ..
  show dinodeAt sb (update s.disk dev _ k.1) _ = dinodeAt sb (s.disk k.1) _
  by_cases hdev : k.1 = dev
  · rw [hdev, update_self]
    exact dinodeAt_update (by omega)
  · rw [update_of_ne hdev]

theorem Inv.write (inv : Inv sb s) (wf : sb.Wf) {b : ℕ} (hb : b < sb.inodestart ∨ sb.bmapstart ≤ b)
    (data : Block) (dev : ℕ) : Inv sb (s.setDisk dev (update (s.disk dev) b data)) :=
  ⟨fun f => Same.entry (s := s) ⟨rfl, rfl, rfl, fun _ => Iff.rfl, rfl, fun hpos _ =>
    dinode_write wf hb ((inv.entry f).range hpos)⟩ (inv.entry f), inv.unique, inv.task⟩

theorem Inv.setTask_idle [DecidableEq P] (inv : Inv sb s) (p : P) : Inv sb (s.setTask p .idle) :=
  inv.same (p := p) (fun _ => ⟨rfl, rfl, rfl, fun _ => Iff.rfl, rfl, fun _ _ => rfl⟩)
    (fun _ hq => update_of_ne hq ..) (taskOk_idle (update_self ..))

/-! ## Steps -/

/-- What `iget` can do. -/
inductive Got (s : Itable P) (p : P) (dev inum : ℕ) : Itable P → Prop
  | found (e : Fin nInode) (h : s.lookup dev inum = some e) : Got s p dev inum (s.idup p e)
  | recycled (e : Fin nInode) (hnone : s.lookup dev inum = none) (h : s.empty = some e) :
    Got s p dev inum (s.recycle p e dev inum)

theorem Got.of_iget (h : s.iget p dev inum = some t) : s.Got p dev inum t := by
  rw [Itable.iget] at h
  cases hlookup : s.lookup dev inum with
  | some e =>
    rw [hlookup] at h
    obtain rfl := Option.some.inj h
    exact .found e hlookup
  | none =>
    rw [hlookup] at h
    obtain ⟨e, hempty, rfl⟩ := Option.map_eq_some_iff.mp h
    exact .recycled e hlookup hempty

/-- Everything that a step can do. -/
inductive Change [DecidableEq P] (sb : Superblock) (s : Itable P) : ItableEvent P → Itable P → Prop
  | iget (p : P) (dev inum : ℕ) (t : Itable P) (hidle : s.task p = .idle)
      (hinum : inum < sb.ninodes) (h : s.Got p dev inum t) : Change sb s (.iget p dev inum) t
  | idup (p : P) (e : Fin nInode) (hidle : s.task p = .idle) (hmem : (p, e) ∈ s.refs) :
    Change sb s (.idup p e) (s.idup p e)
  | lock (p : P) (e : Fin nInode) (hidle : s.task p = .idle) (hmem : (p, e) ∈ s.refs)
      (hfree : s.lock e = none) (hvalid : (s.inode e).valid = true) :
    Change sb s (.ilock p e) (s.setLock e (some p))
  | load (p : P) (e : Fin nInode) (hidle : s.task p = .idle) (hmem : (p, e) ∈ s.refs)
      (hfree : s.lock e = none) (htype : (s.dinode sb (s.key e)).type ≠ 0) :
    Change sb s (.ilock p e) ((s.load sb e).setLock e (some p))
  | unlock (p : P) (e : Fin nInode) (hidle : s.task p = .idle) (hown : s.lock e = some p) :
    Change sb s (.iunlock p e) (s.setLock e none)
  | change (p : P) (e : Fin nInode) (c : Dinode) (hidle : s.task p = .idle)
      (hown : s.lock e = some p) (htype : c.type = (s.inode e).copy.type) :
    Change sb s (.change p e c) (s.change e c)
  | iupdate (p : P) (e : Fin nInode) (hidle : s.task p = .idle) (hown : s.lock e = some p) :
    Change sb s (.iupdate p e) (s.iupdate sb e)
  | begin (p : P) (e : Fin nInode) (hmem : (p, e) ∈ s.refs) (hfree : s.lock e = none)
      (hlast : (s.inode e).ref = 1 ∧ (s.inode e).valid = true ∧ (s.inode e).copy.nlink = 0) :
    Change sb s (.iput p e) ((s.setLock e (some p)).setTask p (.freeing e))
  | drop (p : P) (e : Fin nInode) (hidle : s.task p = .idle) (hmem : (p, e) ∈ s.refs)
      (hlock : s.lock e ≠ some p)
      (hlast : ¬ ((s.inode e).ref = 1 ∧ (s.inode e).valid = true ∧ (s.inode e).copy.nlink = 0)) :
    Change sb s (.iput p e) (s.unref p e)
  | free (p : P) (e : Fin nInode) (ip : Dinode) (d : Disk) (htask : s.task p = .freeing e)
      (hrun : itrunc sb (s.inode e).inum (s.inode e).copy (s.disk (s.inode e).dev) = .ok (ip, d)) :
    Change sb s (.iputFree p) (s.free sb p e ip d)
  | finish (p : P) (e : Fin nInode) (htask : s.task p = .freed e) :
    Change sb s (.iputEnd p) ((s.unref p e).setTask p .idle)
  | ialloc (p : P) (dev inum : ℕ) (type : BitVec 16) (hinum : inum < sb.ninodes)
      (hfree : (s.dinode sb (dev, inum)).type = 0) :
    Change sb s (.ialloc p dev inum type)
      ((s.setDisk dev (setDinode sb (s.disk dev) inum { Dinode.zero with type := type })).setTask p
        (.allocated dev inum))
  | iallocGet (p : P) (dev inum : ℕ) (u : Itable P) (htask : s.task p = .allocated dev inum)
      (h : s.Got p dev inum u) :
    Change sb s (.iallocGet p) (u.setTask p .idle)
  | pass (p q : P) (e : Fin nInode) (hidle : s.task p = .idle) (hmem : (p, e) ∈ s.refs)
      (hlock : s.lock e ≠ some p) :
    Change sb s (.pass p q e) ((s.dropRef p e).addRef q e)
  | write (dev b : ℕ) (data : Block) (hb : b < sb.inodestart ∨ sb.bmapstart ≤ b) :
    Change sb s (.write dev b data) (s.setDisk dev (update (s.disk dev) b data))

/-- A step does nothing else. -/
theorem Change.of_step [DecidableEq P] {ev : ItableEvent P} (h : s.step sb ev = some t) :
    s.Change sb ev t := by
  cases ev with
  | iget p dev inum =>
    obtain ⟨hc, h⟩ := Option.ite_none_right_eq_some.mp h
    exact .iget p dev inum t hc.1 hc.2 (.of_iget h)
  | idup p e =>
    obtain ⟨hc, h⟩ := Option.ite_none_right_eq_some.mp h
    obtain rfl := Option.some.inj h
    exact .idup p e hc.1 hc.2
  | ilock p e =>
    obtain ⟨hc, h⟩ := Option.ite_none_right_eq_some.mp h
    unfold Itable.ilock at h
    split_ifs at h with _ hbusy hvalid htype
    all_goals obtain rfl := Option.some.inj h
    · exact .lock p e hc.1 hc.2 (not_not.mp hbusy) hvalid
    · exact .load p e hc.1 hc.2 (not_not.mp hbusy) htype
  | iunlock p e =>
    obtain ⟨hc, h⟩ := Option.ite_none_right_eq_some.mp h
    unfold Itable.iunlock at h
    split_ifs at h with hbad
    obtain rfl := Option.some.inj h
    exact .unlock p e hc (not_not.mp fun hne => hbad (.inl hne))
  | change p e c =>
    obtain ⟨hc, h⟩ := Option.ite_none_right_eq_some.mp h
    obtain rfl := Option.some.inj h
    exact .change p e c hc.1 hc.2.1 hc.2.2
  | iupdate p e =>
    obtain ⟨hc, h⟩ := Option.ite_none_right_eq_some.mp h
    obtain rfl := Option.some.inj h
    exact .iupdate p e hc.1 hc.2
  | iput p e =>
    obtain ⟨hc, h⟩ := Option.ite_none_right_eq_some.mp h
    unfold Itable.iput at h
    split_ifs at h with hlast hfree
    all_goals obtain rfl := Option.some.inj h
    · exact .begin p e hc.2.1 hfree hlast
    · exact .drop p e hc.1 hc.2.1 hc.2.2 hlast
  | iputFree p =>
    simp only [Itable.step] at h
    split at h
    · rename_i e htask
      unfold Itable.iputFree at h
      split at h
      · exact absurd h (Option.some_ne_none t).symm
      · rename_i ip d hrun
        obtain rfl := Option.some.inj h
        exact .free p e ip d htask hrun
    · exact absurd h (Option.some_ne_none t).symm
  | iputEnd p =>
    simp only [Itable.step] at h
    split at h
    · rename_i e htask
      obtain rfl := Option.some.inj h
      exact .finish p e htask
    · exact absurd h (Option.some_ne_none t).symm
  | ialloc p dev inum type =>
    obtain ⟨hc, h⟩ := Option.ite_none_right_eq_some.mp h
    obtain rfl := Option.some.inj h
    exact .ialloc p dev inum type hc.2.2.1 hc.2.2.2
  | iallocGet p =>
    simp only [Itable.step] at h
    split at h
    · rename_i dev inum htask
      obtain ⟨u, hu, rfl⟩ := Option.map_eq_some_iff.mp h
      exact .iallocGet p dev inum u htask (.of_iget hu)
    · exact absurd h (Option.some_ne_none t).symm
  | pass p q e =>
    obtain ⟨hc, h⟩ := Option.ite_none_right_eq_some.mp h
    obtain rfl := Option.some.inj h
    exact .pass p q e hc.1 hc.2.1 hc.2.2
  | write dev b data =>
    obtain ⟨hc, h⟩ := Option.ite_none_right_eq_some.mp h
    obtain rfl := Option.some.inj h
    exact .write dev b data hc

/-- There is room for one more reference to every entry. -/
def Fits (s : Itable P) : Prop := ∀ e, s.count e + 1 < 2 ^ 31

instance (s : Itable P) : Decidable s.Fits := inferInstanceAs (Decidable (∀ _, _))

theorem Inv.got (inv : Inv sb s) (hfits : s.Fits) (hinum : inum < sb.ninodes)
    (h : s.Got p dev inum t) : Inv sb t := by
  cases h with
  | found e h => exact inv.idup ((inv.entry e).pos_iff.mp (lookup_some h).1) (hfits e) p
  | recycled e hnone h => exact inv.recycle hnone h hinum p

theorem Inv.step [DecidableEq P] {ev : ItableEvent P} (inv : Inv sb s) (wf : sb.Wf) (hfits : s.Fits)
    (h : s.step sb ev = some t) : Inv sb t := by
  cases Change.of_step h with
  | iget p dev inum t hidle hinum hgot => exact inv.got hfits hinum hgot
  | idup p e hidle hmem => exact inv.idup (count_pos_of_mem hmem) (hfits e) p
  | lock p e hidle hmem hfree hvalid => exact inv.lock hidle hmem hfree hvalid
  | load p e hidle hmem hfree htype => exact inv.load hidle hmem hfree htype
  | unlock p e hidle hown => exact inv.unlock hidle hown
  | change p e c hidle hown htype => exact inv.change hidle hown htype
  | iupdate p e hidle hown => exact inv.iupdate hidle hown
  | begin p e hmem hfree hlast => exact inv.freeing_begin hmem hfree hlast.2.1 hlast.2.2
  | drop p e hidle hmem hlock hlast =>
    have hun := inv.unref hmem hlock
    rwa [setTask_self (s := s.unref p e) hidle] at hun
  | free p e ip d htask hrun => exact inv.free wf htask hrun
  | finish p e htask => exact inv.unref (inv.freed htask).1 (inv.freed htask).2
  | ialloc p dev inum type hinum hfree => exact inv.ialloc hinum hfree
  | iallocGet p dev inum u htask hgot =>
    have hinum := inv.task p
    rw [htask] at hinum
    exact (inv.got hfits hinum hgot).setTask_idle p
  | pass p q e hidle hmem hlock => exact inv.pass hidle hmem hlock q
  | write dev b data hb => exact inv.write wf hb data dev

end Itable

end NeulaCpu.Xv6

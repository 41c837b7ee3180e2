import NeulaCpu.Lib.Tally
import NeulaCpu.Xv6.FsInodes
import NeulaCpu.Xv6.InodeTable

/-!
# The table of entries and the table of inodes

The inode table is modelled twice. `Itable` has the entries of the array, the locks and the
processes; `Fs` has the inodes of one device by number, as the functions above the table see them. A
state of `Fs` shows a table if every entry in use stands for its inode. A call of `iget`, `idup`,
`ilock`, `iput` or `ialloc` that no other process interrupts does the same to both: it panics in
both, or the states after it show each other again.
-/

namespace NeulaCpu.Xv6

open Outcome Function

namespace Itable

variable {P : Type}

/-- The inode `y` is what the entry `x` holds, with `c` references; an entry that is not valid has
no copy. -/
structure Agrees (c : ℕ) (x : MemInode) (y : Inode) : Prop where
  ref : y.ref = c
  valid : y.valid = x.valid
  copy : y.valid = true → y.copy = x.copy

/-- The state `t` shows the inodes of the device `dev`. -/
structure Shows (s : Itable P) (dev : ℕ) (t : Fs) : Prop where
  disk : t.disk = s.disk dev
  entry : ∀ e i, 0 < s.count e → s.key e = (dev, i) → Agrees (s.count e) (s.inode e) (t.inode i)
  absent : ∀ i, (∀ e, 0 < s.count e → s.key e ≠ (dev, i)) → (t.inode i).ref = 0
  used : t.used + tally s.count 0 = nInode

variable {sb : Superblock} {s s' : Itable P} {t t' : Fs} {p : P} {e : Fin nInode} {dev i : ℕ}

namespace Shows

/-- The locks and the tasks do not show. -/
theorem congr (h : Shows s dev t) (hinode : s'.inode = s.inode) (hrefs : s'.refs = s.refs)
    (hdisk : t'.disk = s'.disk dev) (hfs : t'.inode = t.inode) (hused : t'.used = t.used) :
    Shows s' dev t' := by
  have hcount : s'.count = s.count := by
    funext e
    rw [count, hrefs, count]
  have hkey (e : Fin nInode) : s'.key e = s.key e := by rw [key, hinode, key]
  refine ⟨hdisk, fun e i hpos he => ?_, fun i hi => ?_, by rw [hused, hcount]; exact h.used⟩
  · rw [hcount] at hpos ⊢
    rw [hkey] at he
    rw [hinode, hfs]
    exact h.entry e i hpos he
  · rw [hfs]
    exact h.absent i fun e hpos => by rw [← hkey]; exact hi e (by rwa [hcount])

/-- There are free entries as long as not all are in use. -/
theorem used_lt_iff (h : Shows s dev t) : t.used < nInode ↔ ∃ e, s.count e = 0 := by
  rw [← Tally.pos_iff (g := s.count)]
  have := h.used
  omega

/-- An entry in use is one of those that are counted. -/
theorem used_pos (h : Shows s dev t) (hpos : 0 < s.count e) : 0 < t.used := by
  have hle := Tally.le_card (update s.count e 0) 0
  have hup := Tally.update s.count e 0 0
  rw [if_neg hpos.ne', if_pos rfl] at hup
  rw [Fintype.card_fin] at hle
  have := h.used
  omega

variable {c : ℕ} {x : MemInode} {y : Inode}

/-- The entry `e` and the inode `i` change together; the entry is free before or holds the inode. -/
theorem change (h : Shows s dev t) (hold : 0 < s.count e → s.key e = (dev, i))
    (hother : ∀ f, f ≠ e → 0 < s.count f → s.key f ≠ (dev, i))
    (hinode : s'.inode = update s.inode e x)
    (hkey : (x.dev, x.inum) = (dev, i)) (hcount : s'.count = update s.count e c)
    (hdisk : t'.disk = s'.disk dev) (hfs : t'.inode = update t.inode i y)
    (hi : Agrees c x y ∨ c = 0 ∧ y.ref = 0)
    (hused : t'.used + (if c = 0 then 1 else 0) = t.used + if s.count e = 0 then 1 else 0) :
    Shows s' dev t' := by
  have hkey' (f : Fin nInode) (hf : f ≠ e) : s'.key f = s.key f := by
    rw [key, hinode, update_of_ne hf, key]
  have hself : s'.key e = (dev, i) := by rw [key, hinode, update_self, hkey]
  refine ⟨hdisk, fun f j hpos hf => ?_, fun j hj => ?_, ?_⟩
  · rw [hcount] at hpos ⊢
    rw [hinode, hfs]
    by_cases hfe : f = e
    · subst hfe
      obtain rfl : i = j := (Prod.mk.inj (hself.symm.trans hf)).2
      rw [update_self] at hpos
      simp only [update_self]
      exact hi.resolve_right fun h0 => by omega
    · rw [update_of_ne hfe] at hpos
      rw [hkey' f hfe] at hf
      have hne : j ≠ i := fun hji => hother f hfe hpos (hji ▸ hf)
      rw [update_of_ne hfe, update_of_ne hfe, update_of_ne hne]
      exact h.entry f j hpos hf
  · rw [hfs]
    by_cases hji : j = i
    · subst hji
      have hzero : c = 0 := by
        by_contra hne
        exact hj e (by rw [hcount, update_self]; omega) hself
      rw [update_self]
      exact hi.elim (fun hi => hi.ref.trans hzero) And.right
    · rw [update_of_ne hji]
      refine h.absent j fun f hpos hf => ?_
      by_cases hfe : f = e
      · subst hfe
        exact hji (Prod.mk.inj (hf.symm.trans (hold hpos))).2
      · exact hj f (by rwa [hcount, update_of_ne hfe]) (by rwa [hkey' f hfe])
  · have htally := Tally.update s.count e c 0
    rw [← hcount] at htally
    have := h.used
    omega

/-- A change of an entry in use that keeps its inode. -/
theorem changeUsed (h : Shows s dev t) (inv : Inv sb s) (hpos : 0 < s.count e)
    (hkey : s.key e = (dev, i)) (hinode : s'.inode = update s.inode e x)
    (hkey' : (x.dev, x.inum) = (dev, i))
    (hcount : s'.count = update s.count e c) (hdisk : t'.disk = s'.disk dev)
    (hfs : t'.inode = update t.inode i y) (hi : Agrees c x y ∨ c = 0 ∧ y.ref = 0)
    (hused : t'.used + (if c = 0 then 1 else 0) = t.used) : Shows s' dev t' := by
  refine h.change (fun _ => hkey) (fun f hf hfpos hfkey => hf ?_) hinode hkey' hcount hdisk hfs hi
    ?_
  · exact inv.unique f e hfpos hpos (hfkey.trans hkey.symm)
  · rw [hused, if_neg hpos.ne', Nat.add_zero]

end Shows

/-- The counts when a reference is added. -/
theorem count_addRef_eq : (s.addRef p e).count = update s.count e (s.count e + 1) := by
  funext f
  rw [count_addRef]
  by_cases hf : f = e
  · rw [hf, if_pos rfl, update_self]
  · rw [if_neg hf, update_of_ne hf]
    rfl

/-- The counts when a reference is dropped. -/
theorem count_dropRef_eq [DecidableEq P] (h : (p, e) ∈ s.refs) :
    (s.dropRef p e).count = update s.count e (s.count e - 1) := by
  funext f
  have hf := count_dropRef (f := f) h
  by_cases hfe : f = e
  · subst hfe
    rw [update_self, hf, if_pos rfl]
    rfl
  · rw [update_of_ne hfe, hf, if_neg hfe]
    rfl

section Calls

variable (inv : Inv sb s) (h : Shows s dev t)

include inv h

/-! ## References -/

/-- `idup` of an entry in use. -/
theorem idup_shows (hpos : 0 < s.count e) (hkey : s.key e = (dev, i)) :
    Ends (fun _ => False) (Fs.idup i) t fun _ t' => Shows (s.idup p e) dev t' := by
  obtain ⟨href, hvalid, hcopy⟩ := h.entry e i hpos hkey
  exact .modify (h.changeUsed inv hpos hkey rfl hkey count_addRef_eq h.disk rfl
    (.inl ⟨congrArg (· + 1) href, hvalid, hcopy⟩) rfl)

/-- `iget` has no next state exactly if it panics. -/
theorem iget_shows :
    Ends (fun x => x = .igetNoInodes ∧ s.iget p dev i = none) (Fs.iget i) t fun _ t' =>
      ∃ s', s.iget p dev i = some s' ∧ Shows s' dev t' := by
  refine .bind (.get ?_)
  cases hfound : s.lookup dev i with
  | some e =>
    have hpos := (inv.entry e).pos_iff.mp (lookup_some hfound).1
    have hkey := (lookup_some hfound).2
    have href := (h.entry e i hpos hkey).ref
    rw [if_pos (by omega)]
    refine .set ⟨s.idup p e, by rw [Itable.iget, hfound], ?_⟩
    exact idup_shows inv h hpos hkey
  | none =>
    have hnone (f : Fin nInode) (hpos : 0 < s.count f) : s.key f ≠ (dev, i) :=
      lookup_none hfound ((inv.entry f).pos_iff.mpr hpos)
    have hzero := h.absent i hnone
    have hiff (f : Fin nInode) : (s.inode f).ref = 0 ↔ s.count f = 0 :=
      (inv.entry f).ref_eq_iff (by norm_num)
    rw [if_neg (by omega), Itable.iget, hfound]
    cases hempty : s.empty with
    | none =>
      have hfull : ¬ t.used < nInode := by
        rw [h.used_lt_iff]
        rintro ⟨f, hf⟩
        simpa [(hiff f).mpr hf] using List.find?_eq_none.mp hempty f (List.mem_finRange f)
      rw [if_neg hfull]
      exact .throw ⟨rfl, rfl⟩
    | some e =>
      have hfree : s.count e = 0 := (hiff e).mp (empty_some hempty)
      rw [if_pos (h.used_lt_iff.mpr ⟨e, hfree⟩)]
      have hcount : (s.recycle p e dev i).count = update s.count e 1 := by
        refine count_addRef_eq.trans ?_
        show update s.count e (s.count e + 1) = _
        rw [hfree]
      refine .set ⟨_, rfl, h.change (fun hpos => by omega) (fun f _ => hnone f) rfl rfl hcount
        h.disk rfl (.inl ⟨rfl, rfl, fun hv => absurd hv Bool.false_ne_true⟩) ?_⟩
      rw [if_neg (by omega), hfree]
      rfl

/-! ## Locks -/

/-- `ilock` of an entry whose lock is free. -/
theorem ilock_shows (hpos : 0 < s.count e) (hkey : s.key e = (dev, i)) (hfree : s.lock e = none) :
    Ends (fun x => x = .ilockNoType ∧ s.ilock sb p e = none) (Fs.ilock sb i) t fun _ t' =>
      ∃ s', s.ilock sb p e = some s' ∧ Shows s' dev t' := by
  obtain ⟨href, hvalid, hcopy⟩ := h.entry e i hpos hkey
  have hdinode : s.dinode sb (s.key e) = dinodeAt sb t.disk i := by rw [hkey, dinode, h.disk]
  have hint := (inv.entry e).toInt_ref
  refine .bind (.get ?_)
  rw [if_neg (by omega), Itable.ilock, if_neg (by omega), if_neg (not_not.mpr hfree), hdinode,
    hvalid]
  by_cases hv : (s.inode e).valid = true
  · rw [if_pos hv, if_pos hv]
    exact .pure ⟨_, rfl, h.congr rfl rfl h.disk rfl rfl⟩
  rw [if_neg hv, if_neg hv]
  by_cases htype : (dinodeAt sb t.disk i).type = 0
  · rw [if_pos htype]
    exact .bind (.set (by rw [if_pos htype]; exact .throw ⟨rfl, rfl⟩))
  rw [if_neg htype]
  refine .bind (.set ?_)
  rw [if_neg htype]
  refine .pure ⟨_, rfl, h.changeUsed inv hpos hkey rfl hkey (update_eq_self e s.count).symm h.disk
    rfl (.inl ⟨href, rfl, fun _ => hdinode.symm⟩) ?_⟩
  rw [if_neg hpos.ne']
  rfl

variable [DecidableEq P]

/-- A reference is dropped. -/
theorem unref_shows (hmem : (p, e) ∈ s.refs) (hkey : s.key e = (dev, i)) :
    Ends (fun _ => False) (Fs.drop i) t fun _ t' => Shows (s.unref p e) dev t' := by
  have hpos := count_pos_of_mem hmem
  obtain ⟨href, hvalid, hcopy⟩ := h.entry e i hpos hkey
  have hcount : (s.unref p e).count = update s.count e (s.count e - 1) :=
    count_dropRef_eq (s := s.setInode e { s.inode e with ref := (s.inode e).ref - 1 }) hmem
  refine .modify (h.changeUsed inv hpos hkey rfl hkey hcount h.disk rfl
    (.inl ⟨congrArg (· - 1) href, hvalid, hcopy⟩) ?_)
  have hused := h.used_pos hpos
  show (if (t.inode i).ref = 1 then t.used - 1 else t.used) + _ = _
  rw [href]
  split_ifs <;> omega

end Calls

/-! ## `iput` and `ialloc` -/

section Whole

variable [DecidableEq P] (hidle : s.task p = .idle) (inv : Inv sb s) (h : Shows s dev t)

/-- The three steps of an `iput` that frees the inode. -/
def iputEvents (p : P) (e : Fin nInode) : List (ItableEvent P) :=
  [.iput p e, .iputFree p, .iputEnd p]

/-- The table after them; `itrunc` has given the inode `ip` and the blocks `d`. -/
def freed (sb : Superblock) (s : Itable P) (p : P) (e : Fin nInode) (ip : Dinode) (d : Disk) :
    Itable P :=
  ((((s.setLock e (some p)).setTask p (.freeing e)).free sb p e ip d).unref p e).setTask p .idle

include hidle

theorem exec_iputEvents (sb : Superblock) (hmem : (p, e) ∈ s.refs) (hfree : s.lock e = none)
    (hlast : (s.inode e).ref = 1 ∧ (s.inode e).valid = true ∧ (s.inode e).copy.nlink = 0) :
    Trace.exec (step sb) s (iputEvents p e) =
      match itrunc sb (s.inode e).inum (s.inode e).copy (s.disk (s.inode e).dev) with
      | .error _ => none
      | .ok (ip, d) => some (s.freed sb p e ip d) := by
  have hguard : s.task p = .idle ∧ (p, e) ∈ s.refs ∧ s.lock e ≠ some p :=
    ⟨hidle, hmem, by rw [hfree]; exact (Option.some_ne_none p).symm⟩
  have hstep : s.step sb (.iput p e) = some ((s.setLock e (some p)).setTask p (.freeing e)) := by
    rw [step, if_pos hguard, Itable.iput, if_pos hlast, if_pos hfree]
  have htask : ((s.setLock e (some p)).setTask p (.freeing e)).task p = .freeing e := update_self ..
  rw [iputEvents, Trace.exec_cons, hstep, Option.bind_some, Trace.exec_cons, step, htask]
  show (Itable.iputFree sb _ p e).bind _ = _
  rw [Itable.iputFree]
  simp only [setTask, setLock]
  cases itrunc sb (s.inode e).inum (s.inode e).copy (s.disk (s.inode e).dev) with
  | error x => rfl
  | ok r =>
    have htask' : (((s.setLock e (some p)).setTask p (.freeing e)).free sb p e r.1 r.2).task p =
        .freed e :=
      update_self ..
    show Trace.exec (step sb) (((s.setLock e (some p)).setTask p (.freeing e)).free sb p e r.1 r.2)
      [.iputEnd p] = _
    rw [Trace.exec_cons, step, htask']
    rfl

omit hidle

include inv h

/-- The states after an `iput` that has freed the inode show each other. -/
theorem freed_shows (hmem : (p, e) ∈ s.refs) (hkey : s.key e = (dev, i)) (hone : s.count e = 1)
    {ip : Dinode} {d : Disk} (hdisk : t'.disk = setDinode sb d i { ip with type := 0 })
    (hfs : ∀ j, j ≠ i → t'.inode j = t.inode j) (href : (t'.inode i).ref = 0)
      (hused : t'.used = t.used - 1) :
    Shows (s.freed sb p e ip d) dev t' := by
  have hpos := count_pos_of_mem hmem
  have hupos := h.used_pos hpos
  obtain ⟨hdev, hinum⟩ := Prod.mk.inj hkey
  have hinode : (s.freed sb p e ip d).inode =
      update s.inode e ⟨dev, i, (s.inode e).ref - 1, false, { ip with type := 0 }⟩ := by
    simp only [freed, unref, free, setInode, setTask, setLock, setDisk, dropRef, update_self,
      update_idem, hdev, hinum]
  refine h.changeUsed (c := 0) inv hpos hkey hinode rfl ?_ ?_ (eq_update_iff.mpr ⟨rfl, hfs⟩)
    (.inr ⟨rfl, href⟩) ?_
  · rw [show (0 : ℕ) = s.count e - 1 by omega]
    exact count_dropRef_eq (s := s) hmem
  · rw [hdisk]
    simp only [freed, unref, free, setInode, setTask, setLock, setDisk, dropRef, hdev, hinum,
      update_self]
  · rw [if_pos rfl, hused]
    omega

include hidle

/-- `iput` by a process without the lock, when the lock is free: one step, or the three steps that
free the inode. -/
theorem iput_shows (hmem : (p, e) ∈ s.refs) (hkey : s.key e = (dev, i)) (hfree : s.lock e = none) :
    Ends (fun _ => Trace.exec (step sb) s (iputEvents p e) = none) (Fs.iput sb i) t fun _ t' =>
      ∃ s' es, (es = [.iput p e] ∨ es = iputEvents p e) ∧
        Trace.exec (step sb) s es = some s' ∧ s'.task p = .idle ∧ Shows s' dev t' := by
  have hpos := count_pos_of_mem hmem
  obtain ⟨href, hvalid, hcopy⟩ := h.entry e i hpos hkey
  obtain ⟨hdev, hinum⟩ := Prod.mk.inj hkey
  have hone : (s.inode e).ref = 1 ↔ s.count e = 1 := (inv.entry e).ref_eq_iff (by norm_num)
  have hiff : ((t.inode i).ref = 1 ∧ (t.inode i).valid = true ∧ (t.inode i).copy.nlink = 0) ↔
      (s.inode e).ref = 1 ∧ (s.inode e).valid = true ∧ (s.inode e).copy.nlink = 0 := by
    rw [hone, href, ← hvalid]
    refine and_congr_right fun _ => and_congr_right fun hv => ?_
    rw [hcopy hv]
  refine .bind (.get ?_)
  by_cases hlast : (s.inode e).ref = 1 ∧ (s.inode e).valid = true ∧ (s.inode e).copy.nlink = 0
  · have hexec := exec_iputEvents hidle sb hmem hfree hlast
    rw [hinum, hdev] at hexec
    rw [if_pos (hiff.mpr hlast)]
    refine .bind (.bind (Fs.copy_spec (.bind (.zoom ?_))))
    rw [hcopy (hvalid.trans hlast.2.1), h.disk]
    cases htrunc : itrunc sb i (s.inode e).copy (s.disk dev) with
    | error x =>
      rw [htrunc] at hexec
      rw [Ends, htrunc]
      exact hexec
    | ok r =>
      rw [htrunc] at hexec
      rw [Ends, htrunc]
      show Ends _ (Fs.setCopy i r.1) _ _
      refine .modify (.bind
        (.of_eq_ok rfl (.bind (.modify (.modify ⟨_, _, .inr rfl, hexec, update_self .., ?_⟩)))))
      have hcount := hone.mp hlast.1
      refine freed_shows inv h hmem hkey hcount ?_ (fun j hj => ?_) ?_ ?_
      · simp only [Fs.setInode, update_self]
      · simp only [Fs.setInode, update_of_ne hj]
      · simp only [Fs.setInode, update_self]
        omega
      · simp only [Fs.setInode, update_self]
        rw [if_pos (href.trans hcount)]
  · rw [if_neg fun hx => hlast (hiff.mp hx)]
    refine (unref_shows (p := p) inv h hmem hkey).mono_error (fun _ hx => hx.elim) |>.mono
      fun _ t' ht => ?_
    refine ⟨s.unref p e, _, .inl rfl, ?_, hidle, ht⟩
    have hguard : s.task p = .idle ∧ (p, e) ∈ s.refs ∧ s.lock e ≠ some p :=
      ⟨hidle, hmem, by rw [hfree]; exact (Option.some_ne_none p).symm⟩
    rw [Trace.exec, step, if_pos hguard, Itable.iput, if_neg hlast]
    rfl

/-- `ialloc`: it marks a free inode and gets it; it fails if there is none. -/
theorem ialloc_shows (type : BitVec 16) :
    Ends (fun x => x = .igetNoInodes ∧
        ∃ inum s₁, s.step sb (.ialloc p dev inum type) = some s₁ ∧ s₁.step sb (.iallocGet p) = none)
      (Fs.ialloc sb type) t fun r t' =>
      match r with
      | none => t' = t ∧ ∀ inum, s.step sb (.ialloc p dev inum type) = none
      | some inum => ∃ s', Trace.exec (step sb) s [.ialloc p dev inum type,
          .iallocGet p] = some s' ∧ s'.task p = .idle ∧ Shows s' dev t' := by
  refine .bind (.zoom (.bind (.get ?_)))
  have hdinode (j : ℕ) : s.dinode sb (dev, j) = dinodeAt sb t.disk j := by rw [dinode, h.disk]
  cases hfind : (List.range' 1 (sb.ninodes - 1)).find? fun j =>
    (dinodeAt sb t.disk j).type == 0 with
  | none =>
    refine .pure (.pure ⟨rfl, fun inum => ?_⟩)
    rw [step, if_neg]
    rintro ⟨_, h1, h2, h0⟩
    have hne := List.find?_eq_none.mp hfind inum (List.mem_range'_1.mpr ⟨h1, by omega⟩)
    rw [← hdinode, h0] at hne
    exact hne rfl
  | some inum =>
    have h0 : (dinodeAt sb t.disk inum).type = 0 := by simpa using List.find?_some hfind
    have hmem := List.mem_range'_1.mp (List.mem_of_find?_eq_some hfind)
    refine .bind (.set (.pure ?_))
    generalize hs₁ : (s.setDisk dev (setDinode sb (s.disk dev) inum
      { Dinode.zero with type := type })).setTask p (.allocated dev inum) = s₁
    have hstep : s.step sb (.ialloc p dev inum type) = some s₁ := by
      rw [step, if_pos ⟨hidle, hmem.1, by omega, by rw [hdinode, h0]⟩, hs₁]
    have inv₁ : Inv sb s₁ := hs₁ ▸
      inv.ialloc (p := p) (c := { Dinode.zero with type := type }) (show inum < sb.ninodes by omega)
        (show (s.dinode sb (dev, inum)).type = 0 by rw [hdinode, h0])
    have hshow : Shows s₁ dev
        { t with disk := setDinode sb t.disk inum { Dinode.zero with type := type } } := by
      refine h.congr (by rw [← hs₁]; rfl) (by rw [← hs₁]; rfl) ?_ rfl rfl
      simp only [← hs₁, setTask, setDisk, update_self, h.disk]
    have hget {s₂ : Option (Itable P)} (h2 : s₁.iget p dev inum = s₂) :
        s₁.step sb (.iallocGet p) = s₂.map fun s' => s'.setTask p .idle := by
      have htask : s₁.task p = .allocated dev inum := by
        rw [← hs₁]
        exact update_self ..
      rw [step, htask, ← h2]
    refine ((iget_shows (p := p) (i := inum) inv₁ hshow).mono_error ?_).andThen ?_
    · rintro x ⟨rfl, hnone⟩
      exact ⟨rfl, inum, s₁, hstep, hget hnone⟩
    · rintro _ t' ⟨s₂, hs₂, ht⟩
      refine .pure ⟨s₂.setTask p .idle, ?_, update_self .., ?_⟩
      · rw [Trace.exec_cons, hstep, Option.bind_some, Trace.exec_cons, hget hs₂]
        rfl
      · exact ht.congr rfl rfl ht.disk rfl rfl

end Whole

end Itable

end NeulaCpu.Xv6

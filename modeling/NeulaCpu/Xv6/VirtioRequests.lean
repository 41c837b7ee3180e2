import NeulaCpu.Lib.Ownership
import NeulaCpu.Lib.Ring
import NeulaCpu.Xv6.VirtioDisk

/-!
# Virtio requests

What the driver's bookkeeping comes to in any run of calls, interrupts and the device: a descriptor
is not free exactly if it belongs to the chain of a call that waits, no two calls share one, and a
call returns after the device has completed the request that it submitted. A request goes from the
`avail` ring to the device, from there to the `used` ring and from there to its caller, and on the
way its head is in one of the three places once.
-/

namespace NeulaCpu.Xv6

open Function

namespace Chain

/-- The descriptor `i` belongs to the chain. -/
def Has (ch : Chain) (i : ℕ) : Prop := i = ch.i0 ∨ i = ch.i1 ∨ i = ch.i2

structure Wf (ch : Chain) : Prop where
  lt : ∀ i, ch.Has i → i < numDesc
  ne01 : ch.i0 ≠ ch.i1
  ne02 : ch.i0 ≠ ch.i2
  ne12 : ch.i1 ≠ ch.i2

variable (ch : Chain)

theorem has_i0 : ch.Has ch.i0 := Or.inl rfl

theorem has_i1 : ch.Has ch.i1 := Or.inr (Or.inl rfl)

theorem has_i2 : ch.Has ch.i2 := Or.inr (Or.inr rfl)

variable {ch}

theorem ne_of_not_has {i : ℕ} (h : ¬ ch.Has i) : i ≠ ch.i0 ∧ i ≠ ch.i1 ∧ i ≠ ch.i2 := by
  simpa [Has, not_or] using h

end Chain

/-- What the device is to do for a call. -/
def RwReq.service (r : RwReq) : VirtioDisk.Service := ⟨⟨r.write, VirtioDisk.sector r.blockno⟩, r.b⟩

/-! ## What the driver's functions do -/

namespace VirtioDisk

variable {d e : VirtioDisk} {i : ℕ} {ch : Chain} {r : RwReq}

/-- `alloc_desc` takes a descriptor that was free. -/
theorem allocDesc_eq_some (h : d.allocDesc = some (i, e)) :
    i < numDesc ∧ d.free i = true ∧ e = { d with free := update d.free i false } := by
  simp only [allocDesc, Option.map_eq_some_iff, Prod.mk.injEq] at h
  obtain ⟨j, hfind, rfl, rfl⟩ := h
  exact ⟨List.mem_range.mp (List.mem_of_find?_eq_some hfind), List.find?_some hfind, rfl⟩

/-- The driver with descriptor `i` free. -/
@[simps] def freed (d : VirtioDisk) (i : ℕ) : VirtioDisk :=
  { d with
    desc := update d.desc i descZero
    free := update d.free i true }

/-- `free_desc` does not panic on a descriptor that is in use. -/
theorem freeDesc_eq_ok (hi : i < numDesc) (hfree : d.free i = false) :
    d.freeDesc i = .ok (d.freed i) := by
  rw [freeDesc, if_neg (by omega), if_neg (by simp [hfree])]
  rfl

theorem freeChainFrom_next {fuel : ℕ} (hi : i < numDesc) (hfree : d.free i = false)
    (hflag : (d.desc i).flagNext = true) :
    freeChainFrom (fuel + 1) i d = freeChainFrom fuel (d.desc i).next (d.freed i) := by
  simp [freeChainFrom, freeDesc_eq_ok hi hfree, hflag, bind, Except.bind]

theorem freeChainFrom_last {fuel : ℕ} (hi : i < numDesc) (hfree : d.free i = false)
    (hflag : (d.desc i).flagNext = false) : freeChainFrom (fuel + 1) i d = .ok (d.freed i) := by
  simp [freeChainFrom, freeDesc_eq_ok hi hfree, hflag, bind, Except.bind, pure, Except.pure]

/-- Nothing changed but descriptors that are free. -/
structure SameInUse (d e : VirtioDisk) : Prop where
  eq : e = { d with desc := e.desc }
  desc : ∀ i, d.free i = false → e.desc i = d.desc i

/-- The driver with the descriptors of the chain not free. -/
def taken (d : VirtioDisk) (ch : Chain) : VirtioDisk :=
  { d with free := fun i => if i = ch.i0 ∨ i = ch.i1 ∨ i = ch.i2 then false else d.free i }

/-- The chain is three descriptors that are free. -/
structure Available (d : VirtioDisk) (ch : Chain) : Prop where
  wf : ch.Wf
  free : ∀ i, ch.Has i → d.free i = true

/-- Such a descriptor is in no chain of a request. -/
theorem Available.apart (ha : d.Available ch) (hi : d.free i = false) : ¬ ch.Has i := fun hhas => by
  simp [ha.free i hhas] at hi

theorem taken_free_eq_false (d : VirtioDisk) (ch : Chain) (i : ℕ) :
    (d.taken ch).free i = false ↔ d.free i = false ∨ ch.Has i := by
  simp only [taken]
  split_ifs with hi
  · exact ⟨fun _ => Or.inr hi, fun _ => rfl⟩
  · exact ⟨Or.inl, fun h => h.resolve_right hi⟩

theorem freed_free_eq_false (ch : Chain) (i : ℕ) :
    (((e.freed ch.i0).freed ch.i1).freed ch.i2).free i = false ↔ e.free i = false ∧ ¬ ch.Has i := by
  simp only [freed_free, update_apply, Chain.Has]
  split_ifs with h2 h1 h0
  · simp [h2]
  · simp [h1]
  · simp [h0]
  · simp [h0, h1, h2]

/-- `alloc3_desc` does not panic; if it fails the free descriptors are what they were. -/
theorem alloc3Desc_spec (d : VirtioDisk) :
    (∃ e, d.alloc3Desc = .ok (e, none) ∧ SameInUse d e) ∨
      ∃ ch, d.alloc3Desc = .ok (d.taken ch, some ch) ∧ d.Available ch := by
  unfold alloc3Desc
  rcases h0 : d.allocDesc with _ | ⟨i0, d0⟩
  · exact Or.inl ⟨d, rfl, rfl, fun _ _ => rfl⟩
  obtain ⟨hlt0, hfree0, rfl⟩ := allocDesc_eq_some h0
  simp only
  rcases h1 : allocDesc _ with _ | ⟨i1, d1⟩
  · left
    simp only
    rw [freeDesc_eq_ok hlt0 (update_self ..)]
    refine ⟨_, rfl, ?_, fun i hi => ?_⟩
    · simp [freed, ← hfree0]
    · have hne : i ≠ i0 := fun he => by simp [he, hfree0] at hi
      simp only [freed, update_of_ne hne]
  obtain ⟨hlt1, hfree1, rfl⟩ := allocDesc_eq_some h1
  have hne10 : i1 ≠ i0 := fun he => by simp [he] at hfree1
  replace hfree1 : d.free i1 = true := by simpa [update_of_ne hne10] using hfree1
  simp only
  rcases h2 : allocDesc _ with _ | ⟨i2, d2⟩
  · left
    simp only
    rw [freeDesc_eq_ok hlt0 (by simp [update_of_ne hne10.symm])]
    simp only [bind, Except.bind]
    rw [freeDesc_eq_ok hlt1 (by simp [update_of_ne hne10])]
    refine ⟨_, rfl, ?_, fun i hi => ?_⟩
    · simp only [freed]
      congr 1
      funext i
      simp only [update_apply]
      split_ifs with hi1 hi0
      · rw [hi1, hfree1]
      · rw [hi0, hfree0]
      · rfl
    · have hi0 : i ≠ i0 := fun he => by simp [he, hfree0] at hi
      have hi1 : i ≠ i1 := fun he => by simp [he, hfree1] at hi
      simp only [freed, update_of_ne hi0, update_of_ne hi1]
  obtain ⟨hlt2, hfree2, rfl⟩ := allocDesc_eq_some h2
  have hne21 : i2 ≠ i1 := fun he => by simp [he] at hfree2
  have hne20 : i2 ≠ i0 := fun he => by simp [he, update_of_ne hne10.symm] at hfree2
  replace hfree2 : d.free i2 = true := by
    simpa [update_of_ne hne21, update_of_ne hne20] using hfree2
  right
  refine ⟨⟨i0, i1, i2⟩, ?_, ⟨?_, hne10.symm, hne20.symm, hne21.symm⟩, ?_⟩
  · simp only [taken]
    congr 3
    funext i
    simp only [update_apply]
    grind
  · rintro i (rfl | rfl | rfl)
    · exact hlt0
    · exact hlt1
    · exact hlt2
  · rintro i (rfl | rfl | rfl)
    · exact hfree0
    · exact hfree1
    · exact hfree2

/-- The chain is the request `r`, as `virtio_disk_rw` wrote it. -/
structure Formatted (d : VirtioDisk) (ch : Chain) (r : RwReq) : Prop where
  first : d.desc ch.i0 = ⟨.op ch.i0, 16, true, false, ch.i1⟩
  second : d.desc ch.i1 = ⟨.data r.b, bSize, true, !r.write, ch.i2⟩
  third : d.desc ch.i2 = ⟨.status ch.i0, 1, false, true, 0⟩
  op : d.ops ch.i0 = ⟨r.write, sector r.blockno⟩
  buf : (d.info ch.i0).b = some r.b

/-- `virtio_disk_rw` writes the three descriptors of its request. -/
theorem submit_formatted (hch : ch.Wf) : (d.submit ch r.b r.write r.blockno).Formatted ch r where
  first := by simp only [submit, update_of_ne hch.ne02, update_of_ne hch.ne01, update_self]
  second := by simp only [submit, update_of_ne hch.ne12, update_self]
  third := by simp only [submit, update_self]
  op := by simp only [submit, update_self]
  buf := by simp only [submit, update_self]

namespace Formatted

/-- The parts that the chain is made of did not change. -/
theorem congr (h : d.Formatted ch r) (hdesc : ∀ i, ch.Has i → e.desc i = d.desc i)
    (hops : e.ops ch.i0 = d.ops ch.i0) (hbuf : (e.info ch.i0).b = (d.info ch.i0).b) :
    e.Formatted ch r where
  first := (hdesc _ ch.has_i0).trans h.first
  second := (hdesc _ ch.has_i1).trans h.second
  third := (hdesc _ ch.has_i2).trans h.third
  op := hops.trans h.op
  buf := hbuf.trans h.buf

/-- A new request does not touch the chains of others. -/
theorem submit {ch' : Chain} {r' : RwReq} (h : d.Formatted ch' r')
    (hapart : ∀ i, ch'.Has i → ¬ ch.Has i) :
    ((d.taken ch).submit ch r.b r.write r.blockno).Formatted ch' r' := by
  have hne : ch'.i0 ≠ ch.i0 := fun he => hapart _ ch'.has_i0 (Or.inl he)
  refine h.congr (fun i hi => ?_) (update_of_ne hne ..) ?_
  · obtain ⟨hi0, hi1, hi2⟩ := Chain.ne_of_not_has (hapart i hi)
    simp only [VirtioDisk.submit, taken, update_of_ne hi0, update_of_ne hi1, update_of_ne hi2]
  · simp only [VirtioDisk.submit, taken, update_of_ne hne]

/-- The end of a request does not touch the chains of others. -/
theorem freed {ch' : Chain} (h : d.Formatted ch' r) (hdesc : e.desc = d.desc) (hops : e.ops = d.ops)
    (hbuf : (e.info ch'.i0).b = (d.info ch'.i0).b) (hapart : ∀ i, ch'.Has i → ¬ ch.Has i) :
    (((e.freed ch.i0).freed ch.i1).freed ch.i2).Formatted ch' r := by
  refine h.congr (fun i hi => ?_) (by simp only [freed_ops, hops]) hbuf
  obtain ⟨hi0, hi1, hi2⟩ := Chain.ne_of_not_has (hapart i hi)
  simp only [freed_desc, update_of_ne hi0, update_of_ne hi1, update_of_ne hi2, hdesc]

/-- The device reads the request of the call. -/
theorem service (h : d.Formatted ch r) : d.service ch.i0 = some r.service := by
  simp [VirtioDisk.service, VirtioDisk.second, h.first, h.second, h.op, RwReq.service]

/-- The device writes the status of the chain's own head. -/
theorem writeStatus (h : d.Formatted ch r) : d.writeStatus ch.i0 =
      { d with info := update d.info ch.i0 { d.info ch.i0 with status := 0 } } := by
  simp [VirtioDisk.writeStatus, VirtioDisk.third, VirtioDisk.second, h.first, h.second, h.third]

/-- `free_chain` frees the three descriptors of the chain without a panic. -/
theorem freeChain (h : d.Formatted ch r) (hch : ch.Wf) (hfree : ∀ i, ch.Has i → e.free i = false)
    (hdesc : e.desc = d.desc) :
    e.freeChain ch.i0 = .ok (((e.freed ch.i0).freed ch.i1).freed ch.i2) := by
  have h0 : e.desc ch.i0 = _ := hdesc ▸ h.first
  have h1 : (e.freed ch.i0).desc ch.i1 = _ :=
    (update_of_ne hch.ne01.symm ..).trans (hdesc ▸ h.second)
  have h2 : ((e.freed ch.i0).freed ch.i1).desc ch.i2 = _ :=
    (update_of_ne hch.ne12.symm ..).trans
      ((update_of_ne hch.ne02.symm ..).trans (hdesc ▸ h.third))
  rw [VirtioDisk.freeChain, numDesc,
    freeChainFrom_next (hch.lt _ ch.has_i0) (hfree _ ch.has_i0) (by simp only [h0])]
  simp only [h0]
  rw [freeChainFrom_next (hch.lt _ ch.has_i1)
    (by simp only [freed_free, update_of_ne hch.ne01.symm, hfree _ ch.has_i1]) (by simp only [h1])]
  simp only [h1]
  rw [freeChainFrom_last (hch.lt _ ch.has_i2) (by simp only [freed_free, update_of_ne hch.ne12.symm,
    update_of_ne hch.ne02.symm, hfree _ ch.has_i2]) (by simp only [h2])]

end Formatted

end VirtioDisk

/-! ## The state of a run -/

namespace VirtioSys

open VirtioDisk Ownership

variable {s t : VirtioSys} {c k h i : ℕ} {r : RwReq} {ch : Chain}

/-- The call `c` waits for a chain that has the descriptor `i`. -/
def Owns (s : VirtioSys) (c i : ℕ) : Prop :=
  ∃ r k ch, s.calls c = some (.waiting r k ch) ∧ ch.Has i

/-- The descriptor `i` is marked not free. -/
def InUse (s : VirtioSys) (i : ℕ) : Prop := i < numDesc ∧ s.disk.free i = false

/-- A call waits for request `k`, which is `r` and has its chain at `h`, and the disk is not done
with the buffer. -/
def Flying (s : VirtioSys) (k h : ℕ) (r : RwReq) : Prop :=
  ∃ c ch, s.calls c = some (.waiting r k ch) ∧ ch.i0 = h ∧ s.bufDisk r.b = true

/-- The heads of the chains on their way: in the `avail` ring, with the device, in the `used`
ring. -/
def heads (s : VirtioSys) : List ℕ :=
  Ring.entries s.fetched s.submitted ++ s.pending.map Prod.snd ++
    Ring.entries s.processed s.completed

/-- What holds for a call that waits. -/
structure Waits (s : VirtioSys) (c : ℕ) (r : RwReq) (k : ℕ) (ch : Chain) : Prop where
  wf : ch.Wf
  formatted : s.disk.Formatted ch r
  locked : s.bufLock r.b = some c
  done : s.bufDisk r.b = false → (k, some r.service) ∈ s.log

structure VirtioInv (s : VirtioSys) : Prop where
  exact : Exact s.InUse s.Owns
  starting : ∀ c r, s.calls c = some (.starting r) → s.bufLock r.b = some c
  waiting : ∀ c r k ch, s.calls c = some (.waiting r k ch) → s.Waits c r k ch
  returned : ∀ c r k, s.calls c = some (.returned r k) → (k, some r.service) ∈ s.log
  avail : Ring.Holds numDesc s.disk.availRing s.devIdx s.disk.availIdx s.fetched s.submitted
  used : Ring.Holds numDesc s.disk.usedRing s.disk.seen s.disk.usedIdx s.processed s.completed
  nodup : s.heads.Nodup
  queued : ∀ k h, s.fetched.length ≤ k → s.submitted[k]? = some h → ∃ r, s.Flying k h r
  working : ∀ k h, (k, h) ∈ s.pending → ∃ r, s.Flying k h r
  completed : ∀ h ∈ Ring.entries s.processed s.completed, ∃ k r, s.Flying k h r ∧
    (k, some r.service) ∈ s.log ∧ (s.disk.info h).status = 0
  running : s.panicked = none

theorem numDesc_dvd : numDesc ∣ 2 ^ 16 := by decide

theorem numDesc_lt : numDesc < 2 ^ 16 := by decide

theorem calls_update {x y : RwCall} {c' : ℕ} (hx : update s.calls c (some x) c' = some y) :
    c' = c ∧ y = x ∨ c' ≠ c ∧ s.calls c' = some y := by
  rw [update_apply] at hx
  split_ifs at hx with he
  · exact Or.inl ⟨he, (Option.some.inj hx).symm⟩
  · exact Or.inr ⟨he, hx⟩

theorem calls_of_ne {x y : RwCall} {c' : ℕ} (hx : update s.calls c (some x) c' = some y)
    (hne : y ≠ x) : c' ≠ c ∧ s.calls c' = some y :=
  (calls_update hx).resolve_left fun he => hne he.2

/-- A state that differs in the driver, the calls and the locks of the buffers. -/
def onDriver (s : VirtioSys) (disk : VirtioDisk) (calls : ℕ → Option RwCall)
    (bufLock : ℕ → Option ℕ) : VirtioSys :=
  { s with
    disk := disk
    calls := calls
    bufLock := bufLock }

namespace VirtioInv

theorem init : VirtioInv init where
  exact := ⟨fun i => by simp [InUse, Owns, VirtioSys.init, VirtioDisk.init],
    by simp [Owns, VirtioSys.init]⟩
  starting := by simp [VirtioSys.init]
  waiting := by simp [VirtioSys.init]
  returned := by simp [VirtioSys.init]
  avail := Ring.holds_nil numDesc _
  used := Ring.holds_nil numDesc _
  nodup := List.nodup_nil
  queued := by simp [VirtioSys.init]
  working := by simp [VirtioSys.init]
  completed := by simp [VirtioSys.init, Ring.entries]
  running := rfl

section

variable (inv : VirtioInv s)

include inv

/-- Every chain on its way is the chain of a call that waits. -/
theorem flying_of_mem (hh : h ∈ s.heads) : ∃ k r, s.Flying k h r := by
  rw [heads, List.mem_append, List.mem_append] at hh
  rcases hh with (hh | hh) | hh
  · obtain ⟨j, hj⟩ := List.mem_iff_getElem?.mp hh
    rw [Ring.entries, List.getElem?_drop] at hj
    exact ⟨_, inv.queued _ h (Nat.le_add_right _ _) hj⟩
  · obtain ⟨⟨k, _⟩, hp, rfl⟩ := List.mem_map.mp hh
    exact ⟨k, inv.working _ _ hp⟩
  · obtain ⟨k, r, hfly, _⟩ := inv.completed h hh
    exact ⟨k, r, hfly⟩

/-- The head of a chain on its way is not free. -/
theorem inUse_of_mem (hh : h ∈ s.heads) : s.InUse h := by
  obtain ⟨k, r, c, ch, hc, rfl, _⟩ := inv.flying_of_mem hh
  exact inv.exact.used_of_owns (k := c) ⟨r, k, ch, hc, ch.has_i0⟩

theorem heads_subset : s.heads ⊆ List.range numDesc :=
  fun _ hh => List.mem_range.mpr (inv.inUse_of_mem hh).1

/-- There are never more chains on their way than descriptors. -/
theorem length_heads_le : s.heads.length ≤ numDesc := by
  simpa using (inv.nodup.subperm inv.heads_subset).length_le

/-- A free descriptor leaves room for one more chain. -/
theorem length_heads_lt (hi : i < numDesc) (hfree : s.disk.free i = true) :
    s.heads.length < numDesc := by
  have hnot : i ∉ s.heads := fun hmem => by simp [(inv.inUse_of_mem hmem).2] at hfree
  have hsub := List.cons_subset.mpr ⟨List.mem_range.mpr hi, inv.heads_subset⟩
  simpa using ((List.nodup_cons.mpr ⟨hnot, inv.nodup⟩).subperm hsub).length_le

/-- Two calls that wait for one head are one call. -/
theorem call_unique {c' k' : ℕ} {r' : RwReq} {ch' : Chain}
    (hc : s.calls c = some (.waiting r k ch)) (hc' : s.calls c' = some (.waiting r' k' ch'))
    (hi : ch.Has i) (hi' : ch'.Has i) : c = c' :=
  inv.exact.unique i c c' ⟨r, k, ch, hc, hi⟩ ⟨r', k', ch', hc', hi'⟩

theorem free_eq_false (hc : s.calls c = some (.waiting r k ch)) (hi : ch.Has i) :
    s.disk.free i = false :=
  (inv.exact.used_of_owns (k := c) ⟨r, k, ch, hc, hi⟩).2

/-- A step that leaves the rings and the device alone. -/
theorem frame {d : VirtioDisk} {calls : ℕ → Option RwCall} {lock : ℕ → Option ℕ}
    (hd : d = { s.disk with desc := d.desc, free := d.free, info := d.info, ops := d.ops })
    (hstatus : ∀ h, (d.info h).status = (s.disk.info h).status)
    (hcalls : ∀ c r k ch, s.calls c = some (.waiting r k ch) → s.bufDisk r.b = true →
      calls c = some (.waiting r k ch))
    (hexact : Exact (s.onDriver d calls lock).InUse (s.onDriver d calls lock).Owns)
    (hstart : ∀ c r, calls c = some (.starting r) → lock r.b = some c)
    (hwait : ∀ c r k ch, calls c = some (.waiting r k ch) →
      (s.onDriver d calls lock).Waits c r k ch)
    (hret : ∀ c r k, calls c = some (.returned r k) → (k, some r.service) ∈ s.log) :
    VirtioInv (s.onDriver d calls lock) := by
  have hfly {k h : ℕ} {r : RwReq} : s.Flying k h r → (s.onDriver d calls lock).Flying k h r := by
    rintro ⟨c, ch, hc, hh, hb⟩
    exact ⟨c, ch, hcalls c r k ch hc hb, hh, hb⟩
  refine { inv with
    exact := hexact
    starting := hstart
    waiting := hwait
    returned := hret
    avail := ?_
    used := ?_
    queued := fun k h hk hs => (inv.queued k h hk hs).imp fun _ => hfly
    working := fun k h hp => (inv.working k h hp).imp fun _ => hfly
    completed := fun h hh => ?_ }
  · rw [hd]
    exact inv.avail
  · rw [hd]
    exact inv.used
  · obtain ⟨k, r, hr, hlog, hst⟩ := inv.completed h hh
    exact ⟨k, r, hfly hr, hlog, (hstatus h).trans hst⟩

/-! ### A call is made -/

theorem called (hcall : s.calls c = none) (hlock : s.bufLock r.b = none) :
    VirtioInv (s.onDriver s.disk (update s.calls c (some (.starting r)))
      (update s.bufLock r.b (some c))) := by
  have hother {c' : ℕ} {x : RwCall} (hx : s.calls c' = some x) :
      update s.calls c (some (.starting r)) c' = some x := by
    have hne : c' ≠ c := fun he => by simp [he, hcall] at hx
    rw [update_of_ne hne, hx]
  have hwaiting (c' k' : ℕ) (r' : RwReq) (ch' : Chain) :
      update s.calls c (some (.starting r)) c' = some (.waiting r' k' ch') ↔
        s.calls c' = some (.waiting r' k' ch') :=
    ⟨fun hx => (calls_of_ne hx (by simp)).2, hother⟩
  have hheld {b c' : ℕ} (hb : s.bufLock b = some c') :
      update s.bufLock r.b (some c) b = some c' := by
    have hne : b ≠ r.b := fun he => by simp [he, hlock] at hb
    rw [update_of_ne hne, hb]
  refine inv.frame rfl (fun _ => rfl) (fun _ _ _ _ hc _ => hother hc) ?_ (fun c' r' hc' => ?_)
    (fun c' r' k ch hc' => ?_) fun c' r' k hc' => ?_
  · exact inv.exact.congr (fun _ => Iff.rfl) fun c' i => by simp only [Owns, onDriver, hwaiting]
  · rcases calls_update hc' with ⟨rfl, he⟩ | ⟨_, hc'⟩
    · rw [RwCall.starting.inj he, update_self]
    · exact hheld (inv.starting c' r' hc')
  · have hw := inv.waiting c' r' k ch ((hwaiting ..).mp hc')
    exact ⟨hw.wf, hw.formatted, hheld hw.locked, hw.done⟩
  · exact inv.returned c' r' k (calls_of_ne hc' (by simp)).2

/-! ### A call looks for descriptors -/

/-- `alloc3_desc` fails. -/
theorem startTurn_none {e : VirtioDisk} (he : SameInUse s.disk e) :
    VirtioInv (s.onDriver e s.calls s.bufLock) := by
  have hfree : e.free = s.disk.free := by rw [he.eq]
  have hinfo : e.info = s.disk.info := by rw [he.eq]
  have hops : e.ops = s.disk.ops := by rw [he.eq]
  refine inv.frame (by rw [he.eq]) (fun h => by rw [hinfo]) (fun _ _ _ _ hc _ => hc) ?_ inv.starting
    (fun c r k ch hc => ?_) inv.returned
  · exact inv.exact.congr (fun i => by simp only [InUse, onDriver, hfree]) fun _ _ => Iff.rfl
  · have hw := inv.waiting c r k ch hc
    exact ⟨hw.wf, hw.formatted.congr (fun i hi => he.desc i (inv.free_eq_false hc hi))
      (by rw [onDriver, hops]) (by rw [onDriver, hinfo]), hw.locked, hw.done⟩

end

end VirtioInv

/-! ### A request is submitted -/

/-- The call `c` has submitted its request on the chain `ch`. -/
def submitting (s : VirtioSys) (c : ℕ) (r : RwReq) (ch : Chain) : VirtioSys :=
  { s with
    disk := (s.disk.taken ch).submit ch r.b r.write r.blockno
    bufDisk := update s.bufDisk r.b true
    submitted := s.submitted ++ [ch.i0]
    calls := update s.calls c (some (.waiting r s.submitted.length ch)) }

section Submitting

variable {c' k' : ℕ} {r' : RwReq} {ch' : Chain} (hcall : s.calls c = some (.starting r))
  (ha : s.disk.Available ch)

include hcall

theorem waiting_submitting (hc' : s.calls c' = some (.waiting r' k' ch')) :
    (s.submitting c r ch).calls c' = some (.waiting r' k' ch') := by
  have hne : c' ≠ c := fun he => by simp [he, hcall] at hc'
  simp only [submitting, update_of_ne hne, hc']

theorem flying_submitting (hf : s.Flying k h r') : (s.submitting c r ch).Flying k h r' := by
  obtain ⟨c', ch', hc', hh, hb⟩ := hf
  refine ⟨c', ch', waiting_submitting hcall hc', hh, ?_⟩
  simp only [submitting, update_apply, hb, ite_self]

theorem owns_submitting : (s.submitting c r ch).Owns c' i ↔ s.Owns c' i ∨ c' = c ∧ ch.Has i := by
  constructor
  · rintro ⟨r', k', ch', hx, hi⟩
    rcases calls_update hx with ⟨rfl, he⟩ | ⟨_, hx⟩
    · obtain ⟨_, _, rfl⟩ := RwCall.waiting.inj he
      exact Or.inr ⟨rfl, hi⟩
    · exact Or.inl ⟨r', k', ch', hx, hi⟩
  · rintro (⟨r', k', ch', hx, hi⟩ | ⟨rfl, hi⟩)
    · exact ⟨r', k', ch', waiting_submitting hcall hx, hi⟩
    · exact ⟨_, _, _, update_self .., hi⟩

include ha

theorem waits_submitting (inv : VirtioInv s)
    (hc' : (s.submitting c r ch).calls c' = some (.waiting r' k' ch')) :
    (s.submitting c r ch).Waits c' r' k' ch' := by
  rcases calls_update hc' with ⟨rfl, he⟩ | ⟨_, hc'⟩
  · obtain ⟨rfl, rfl, rfl⟩ := RwCall.waiting.inj he
    refine ⟨ha.wf, submit_formatted ha.wf, inv.starting _ _ hcall, fun hb => ?_⟩
    simp only [submitting, update_self, Bool.true_eq_false] at hb
  · have hw := inv.waiting c' r' k' ch' hc'
    refine ⟨hw.wf, hw.formatted.submit fun i hi => ha.apart (inv.free_eq_false hc' hi), hw.locked,
      fun hb => ?_⟩
    simp only [submitting, update_apply] at hb
    split_ifs at hb
    exact hw.done hb

theorem exact_submitting (inv : VirtioInv s) :
    Exact (s.submitting c r ch).InUse (s.submitting c r ch).Owns := by
  refine inv.exact.acquire (k := c) (S := ch.Has) (fun i hi hu => ha.apart hu.2 hi) (fun i => ?_)
    fun c' i => owns_submitting hcall
  have hfree : (s.submitting c r ch).disk.free i = false ↔ s.disk.free i = false ∨ ch.Has i :=
    taken_free_eq_false s.disk ch i
  have hlt := ha.wf.lt i
  simp only [InUse, hfree]
  tauto

/-- A request is submitted. -/
theorem inv_submitting (inv : VirtioInv s) : VirtioInv (s.submitting c r ch) := by
  have hnot : ch.i0 ∉ s.heads := fun hmem => ha.apart (inv.inUse_of_mem hmem).2 ch.has_i0
  have hroom : s.submitted.length < s.fetched.length + numDesc := by
    have hlt := inv.length_heads_lt (ha.wf.lt _ ch.has_i0) (ha.free _ ch.has_i0)
    simp only [heads, List.length_append, Ring.entries, List.length_drop] at hlt
    omega
  have hperm : (s.submitting c r ch).heads.Perm (ch.i0 :: s.heads) := by
    have hheads : (s.submitting c r ch).heads = (Ring.entries s.fetched s.submitted ++ [ch.i0]) ++
        s.pending.map Prod.snd ++ Ring.entries s.processed s.completed := by
      rw [← inv.avail.entries_push]
      rfl
    rw [hheads, heads, List.append_assoc, List.append_assoc, List.append_assoc]
    exact List.perm_middle
  exact { inv with
    exact := exact_submitting hcall ha inv
    starting := fun c' r' hc' =>
      inv.starting c' r' (calls_of_ne hc' (by simp)).2
    waiting := fun _ _ _ _ => waits_submitting hcall ha inv
    returned := fun c' r' k' hc' =>
      inv.returned c' r' k' (calls_of_ne hc' (by simp)).2
    avail := inv.avail.push numDesc_dvd hroom ch.i0
    nodup := hperm.nodup_iff.mpr (List.nodup_cons.mpr ⟨hnot, inv.nodup⟩)
    queued := fun k h hk hget => by
      change (s.submitted ++ [ch.i0])[k]? = some h at hget
      rcases lt_or_ge k s.submitted.length with hlt | hge
      · rw [List.getElem?_append_left hlt] at hget
        exact (inv.queued k h hk hget).imp fun _ => flying_submitting hcall
      · rw [List.getElem?_append_right hge, List.getElem?_singleton] at hget
        split_ifs at hget with hz
        obtain rfl : k = s.submitted.length := by omega
        exact ⟨r, c, ch, update_self .., Option.some.inj hget, update_self ..⟩
    working := fun k h hp => (inv.working k h hp).imp fun _ => flying_submitting hcall
    completed := fun h hh => by
      obtain ⟨k, r', hf, hlog, hst⟩ := inv.completed h hh
      have hne : h ≠ ch.i0 := fun he => hnot (he ▸ List.mem_append_right _ hh)
      exact ⟨k, r', flying_submitting hcall hf, hlog,
        (congrArg _ (update_of_ne hne ..)).trans hst⟩ }

end Submitting

/-! ### A call returns -/

/-- The disk is done with the buffer, and the call `c` frees its chain and returns. -/
theorem VirtioInv.returning (inv : VirtioInv s) (hcall : s.calls c = some (.waiting r k ch))
    (hdone : s.bufDisk r.b = false) : VirtioInv (s.onDriver ((((({ s.disk with
        info := update s.disk.info ch.i0 { s.disk.info ch.i0 with b := none } } : VirtioDisk).freed
      ch.i0).freed ch.i1).freed ch.i2)) (update s.calls c (some (.returned r k)))
      (update s.bufLock r.b none)) := by
  -- the other calls hold the locks of other buffers
  have hheld {b c' : ℕ} (hne : c' ≠ c) (hb : s.bufLock b = some c') :
      update s.bufLock r.b none b = some c' := by
    rw [update_of_ne, hb]
    rintro rfl
    rw [(inv.waiting c r k ch hcall).locked, Option.some.injEq] at hb
    exact hne hb.symm
  refine inv.frame rfl (fun h => ?_) (fun c' r' k' ch' hc' hb => ?_) ?_ (fun c' r' hc' => ?_)
    (fun c' r' k' ch' hc' => ?_) fun c' r' k' hc' => ?_
  · simp only [freed_info, update_apply]
    split_ifs with he
    · rw [he]
    · rfl
  · rw [update_of_ne, hc']
    rintro rfl
    rw [hcall] at hc'
    obtain ⟨rfl, _, _⟩ := RwCall.waiting.inj (Option.some.inj hc')
    rw [hdone] at hb
    cases hb
  · refine inv.exact.release (k := c) (S := ch.Has) (fun i hi => ⟨r, k, ch, hcall, hi⟩) (fun i =>
      ?_) fun c' i => ?_
    · simp only [InUse, onDriver, freed_free_eq_false, and_assoc]
    · constructor
      · rintro ⟨r', k', ch', hx, hi⟩
        obtain ⟨hne, hx⟩ := calls_of_ne hx (by simp)
        exact ⟨⟨r', k', ch', hx, hi⟩, fun h => hne h.1⟩
      · rintro ⟨⟨r', k', ch', hx, hi⟩, hnot⟩
        refine ⟨r', k', ch', (update_of_ne ?_ ..).trans hx, hi⟩
        rintro rfl
        rw [hcall] at hx
        obtain ⟨_, _, rfl⟩ := RwCall.waiting.inj (Option.some.inj hx)
        exact hnot ⟨rfl, hi⟩
  · obtain ⟨hne, hc'⟩ := calls_of_ne hc' (by simp)
    exact hheld hne (inv.starting c' r' hc')
  · obtain ⟨hne, hc'⟩ := calls_of_ne hc' (by simp)
    have hw := inv.waiting c' r' k' ch' hc'
    have hapart (i : ℕ) (hi : ch'.Has i) : ¬ ch.Has i :=
      fun hhas => hne (inv.call_unique hc' hcall hi hhas)
    have hhead : ch'.i0 ≠ ch.i0 := fun he => hapart _ ch'.has_i0 (Or.inl he)
    exact ⟨hw.wf, hw.formatted.freed rfl rfl (by simp only [update_of_ne hhead]) hapart,
      hheld hne hw.locked, hw.done⟩
  · rcases calls_update hc' with ⟨rfl, he⟩ | ⟨_, hc'⟩
    · obtain ⟨rfl, rfl⟩ := RwCall.returned.inj he
      exact (inv.waiting _ _ _ _ hcall).done hdone
    · exact inv.returned c' r' k' hc'

/-! ### The interrupt handler -/

/-- The head that is read next from the `used` ring. -/
def nextUsed (s : VirtioSys) : ℕ := s.disk.usedRing (s.disk.seen.toNat % numDesc)

/-- In a round of `virtio_disk_intr`, the disk is done with the buffer `b`. -/
def handled (s : VirtioSys) (b : ℕ) : VirtioSys :=
  { s with
    disk := { s.disk with seen := s.disk.seen + 1 }
    bufDisk := update s.bufDisk b false
    processed := s.processed ++ [s.nextUsed] }

section Handled

variable (inv : VirtioInv s) (hcall : s.calls c = some (.waiting r k ch))

include inv hcall

/-- The buffer of another call is another buffer. -/
theorem bufDisk_handled {c' k' : ℕ} {r' : RwReq} {ch' : Chain}
    (hc' : s.calls c' = some (.waiting r' k' ch')) (hne : c' ≠ c) :
    (s.handled r.b).bufDisk r'.b = s.bufDisk r'.b := by
  refine update_of_ne (fun hb => hne ?_) ..
  have hlock := (inv.waiting c' r' k' ch' hc').locked
  rw [hb, (inv.waiting c r k ch hcall).locked, Option.some.injEq] at hlock
  exact hlock.symm

theorem flying_handled {k' : ℕ} {r' : RwReq} (hh : h ≠ ch.i0) (hf : s.Flying k' h r') :
    (s.handled r.b).Flying k' h r' := by
  obtain ⟨c', ch', hc', hi0, hb⟩ := hf
  refine ⟨c', ch', hc', hi0, ?_⟩
  rw [bufDisk_handled inv hcall hc', hb]
  rintro rfl
  rw [hcall] at hc'
  obtain ⟨_, _, rfl⟩ := RwCall.waiting.inj (Option.some.inj hc')
  exact hh hi0.symm

theorem inv_handled (hlen : s.processed.length ≠ s.completed.length) (hi0 : ch.i0 = s.nextUsed)
    (hlog : (k, some r.service) ∈ s.log) : VirtioInv (s.handled r.b) := by
  have hentry := inv.used.entries_pop numDesc_dvd hlen
  have hperm : s.heads.Perm (s.nextUsed :: (s.handled r.b).heads) := by
    rw [heads, hentry]
    exact List.perm_middle
  obtain ⟨hnot, hnodup⟩ := List.nodup_cons.mp (hperm.nodup_iff.mp inv.nodup)
  have hfly {k' h : ℕ} {r' : RwReq} (hh : h ∈ (s.handled r.b).heads) :
      s.Flying k' h r' → (s.handled r.b).Flying k' h r' :=
    flying_handled inv hcall fun he => hnot (hi0 ▸ he ▸ hh)
  exact { inv with
    waiting := fun c' r' k' ch' hc' => by
      have hw := inv.waiting c' r' k' ch' hc'
      refine ⟨hw.wf, hw.formatted.congr (fun _ _ => rfl) rfl rfl, hw.locked, fun hb => ?_⟩
      rcases eq_or_ne c' c with rfl | hne
      · obtain ⟨rfl, rfl, _⟩ := RwCall.waiting.inj (Option.some.inj (hcall.symm.trans hc'))
        exact hlog
      · exact hw.done ((bufDisk_handled inv hcall hc' hne).symm.trans hb)
    used := inv.used.pop numDesc_dvd hlen
    nodup := hnodup
    queued := fun k' h hk hget => by
      refine (inv.queued k' h hk hget).imp fun _ =>
        hfly (List.mem_append_left _ (List.mem_append_left _ ?_))
      refine List.mem_iff_getElem?.mpr ⟨k' - s.fetched.length, ?_⟩
      rw [Ring.entries, List.getElem?_drop]
      exact (congrArg _ (Nat.add_sub_cancel' hk)).trans hget
    working := fun k' h hp => (inv.working k' h hp).imp fun _ =>
      hfly (List.mem_append_left _ (List.mem_append_right _ (List.mem_map.mpr ⟨(k', h), hp, rfl⟩)))
    completed := fun h hh => by
      obtain ⟨k', r', hf, hlog', hst⟩ := inv.completed h (hentry ▸ List.mem_cons_of_mem _ hh)
      exact ⟨k', r', hfly (List.mem_append_right _ hh) hf, hlog', hst⟩ }

end Handled

/-- A round of `virtio_disk_intr` on a used ring that is not empty does not panic. -/
theorem VirtioInv.intrTurn_some (inv : VirtioInv s) (hne : s.disk.seen ≠ s.disk.usedIdx) :
    VirtioInv s.intrTurn := by
  have hlen : s.processed.length ≠ s.completed.length :=
    fun he => hne ((inv.used.empty_iff numDesc_lt).mpr he)
  have hentry := inv.used.entries_pop numDesc_dvd hlen
  obtain ⟨k, r, ⟨c, ch, hc, hi0, hb⟩, hlog, hst⟩ := inv.completed _ (hentry ▸ List.mem_cons_self)
  have hbuf := (inv.waiting c r k ch hc).formatted.buf
  rw [hi0] at hbuf
  have hround : s.disk.intrRound = .ok ({ s.disk with seen := s.disk.seen + 1 }, r.b) := by
    simp only [intrRound, hst, hbuf, ne_eq, not_true_eq_false, if_false]
  rw [intrTurn, if_neg hne, hround]
  exact inv_handled inv hc hlen hi0 hlog

/-! ### The device -/

namespace VirtioInv

section

variable (inv : VirtioInv s)

include inv

/-- The device takes the next chain. -/
theorem fetchNext (hne : s.devIdx ≠ s.disk.availIdx) : VirtioInv s.fetchNext := by
  have hlen : s.fetched.length ≠ s.submitted.length := fun he =>
    hne ((inv.avail.empty_iff numDesc_lt).mpr he)
  have hentry := inv.avail.entries_pop numDesc_dvd hlen
  exact { inv with
    waiting := fun c r k ch hc =>
      have hw := inv.waiting c r k ch hc
      ⟨hw.wf, hw.formatted, hw.locked, hw.done⟩
    avail := inv.avail.pop numDesc_dvd hlen
    nodup := by
      have hnodup := inv.nodup
      rw [heads, hentry, List.append_assoc, List.cons_append, ← List.append_assoc] at hnodup
      show ((Ring.entries _ s.submitted ++ _ :: s.pending.map Prod.snd) ++
        Ring.entries s.processed s.completed).Nodup
      rw [List.append_assoc, List.cons_append, List.perm_middle.nodup_iff, ← List.append_assoc]
      exact hnodup
    queued := fun k h hk hget => by
      refine inv.queued k h ?_ hget
      have hlen' : (s.fetched ++ [s.disk.availRing (s.devIdx.toNat % numDesc)]).length ≤ k := hk
      rw [List.length_append] at hlen'
      omega
    working := fun k h hp => by
      rcases List.mem_cons.mp hp with he | hp
      · obtain ⟨rfl, rfl⟩ := Prod.mk.inj he
        exact inv.queued _ _ le_rfl (inv.avail.next numDesc_dvd hlen)
      · exact inv.working k h hp }

/-- The device completes a chain. -/
theorem completeOne (hp : (k, h) ∈ s.pending) : VirtioInv (s.completeOne k h) := by
  obtain ⟨r, c, ch, hc, rfl, hb⟩ := inv.working k h hp
  have hformat := (inv.waiting c r k ch hc).formatted
  have hdisk : (s.completeOne k ch.i0).disk =
      { s.disk with
        info := update s.disk.info ch.i0 { s.disk.info ch.i0 with status := 0 }
        usedRing := update s.disk.usedRing (s.disk.usedIdx.toNat % numDesc) ch.i0
        usedIdx := s.disk.usedIdx + 1 } := by
    simp only [VirtioSys.completeOne, hformat.writeStatus, pushUsed]
  have hlog : (s.completeOne k ch.i0).log = s.log ++ [(k, some r.service)] := by
    simp only [VirtioSys.completeOne, hformat.service]
  have hbuf (i : ℕ) : ((s.completeOne k ch.i0).disk.info i).b = (s.disk.info i).b := by
    rw [hdisk]
    simp only [update_apply]
    split_ifs with he
    · rw [he]
    · rfl
  have hroom : s.completed.length < s.processed.length + numDesc := by
    have hle := inv.length_heads_le
    have hpos := List.length_pos_of_mem hp
    simp only [heads, List.length_append, List.length_map, Ring.entries, List.length_drop] at hle
    omega
  have hperm : (s.completeOne k ch.i0).heads.Perm s.heads := by
    have hpend : (s.pending.map Prod.snd).Perm
        (ch.i0 :: (s.pending.erase (k, ch.i0)).map Prod.snd) :=
      (List.perm_cons_erase hp).map Prod.snd
    have hheads : (s.completeOne k ch.i0).heads =
        Ring.entries s.fetched s.submitted ++ (s.pending.erase (k, ch.i0)).map Prod.snd ++
          (Ring.entries s.processed s.completed ++ [ch.i0]) := by
      rw [← inv.used.entries_push]
      rfl
    rw [hheads, heads]
    refine List.Perm.trans ?_ ((hpend.append_left _).append_right _).symm
    rw [List.append_assoc, List.append_assoc]
    refine List.Perm.append_left _ ?_
    rw [← List.append_assoc, List.cons_append]
    exact List.perm_append_singleton _ _
  exact { inv with
    exact := inv.exact.congr (fun i => by simp only [InUse, hdisk]) fun _ _ => Iff.rfl
    waiting := fun c' r' k' ch' hc' => by
      have hw := inv.waiting c' r' k' ch' hc'
      refine ⟨hw.wf, hw.formatted.congr (fun _ _ => by rw [hdisk]) (by rw [hdisk]) (hbuf _),
        hw.locked, fun hd => ?_⟩
      rw [hlog]
      exact List.mem_append_left _ (hw.done hd)
    returned := fun c' r' k' hc' => by
      rw [hlog]
      exact List.mem_append_left _ (inv.returned c' r' k' hc')
    avail := by
      rw [hdisk]
      exact inv.avail
    used := by
      rw [hdisk]
      exact inv.used.push numDesc_dvd hroom ch.i0
    nodup := hperm.nodup_iff.mpr inv.nodup
    working := fun k' h' hp' => inv.working k' h' (List.mem_of_mem_erase hp')
    completed := fun h' hh' => by
      have hent : Ring.entries s.processed (s.completed ++ [ch.i0]) = _ :=
        inv.used.entries_push ch.i0
      rw [hlog]
      have hh'' : h' ∈ Ring.entries s.processed (s.completed ++ [ch.i0]) := hh'
      rw [hent, List.mem_append, List.mem_singleton] at hh''
      rcases hh'' with hold | rfl
      · obtain ⟨k', r', hf, hl, hst⟩ := inv.completed h' hold
        refine ⟨k', r', hf, List.mem_append_left _ hl, ?_⟩
        rw [hdisk]
        simp only [update_apply]
        split_ifs
        · rfl
        · exact hst
      · refine ⟨k, r, ⟨c, ch, hc, rfl, hb⟩, List.mem_append_right _ (List.mem_singleton_self _), ?_⟩
        rw [hdisk]
        simp only [update_self] }

/-! ### Runs -/

theorem startTurn (hc : s.calls c = some (.starting r)) : VirtioInv (s.startTurn c r) := by
  rcases alloc3Desc_spec s.disk with ⟨e, he, hsame⟩ | ⟨ch, he, ha⟩
  · rw [VirtioSys.startTurn, he]
    exact inv.startTurn_none hsame
  · rw [VirtioSys.startTurn, he]
    exact inv_submitting hc ha inv

theorem waitTurn (hc : s.calls c = some (.waiting r k ch)) : VirtioInv (s.waitTurn c r k ch) := by
  rw [VirtioSys.waitTurn]
  split_ifs with hb
  · exact inv
  · have hw := inv.waiting c r k ch hc
    have hfin : s.disk.finish ch = _ :=
      hw.formatted.freeChain hw.wf (fun i hi => inv.free_eq_false hc hi) rfl
    rw [hfin]
    exact inv.returning hc (Bool.eq_false_iff.mpr hb)

/-- Whether the handler is running does not matter. -/
theorem setIntr (b : Bool) : VirtioInv { s with intr := b } :=
  { inv with waiting := fun c r k ch hc =>
      have hw := inv.waiting c r k ch hc
      ⟨hw.wf, hw.formatted, hw.locked, hw.done⟩ }

theorem intrTurn : VirtioInv s.intrTurn := by
  by_cases hne : s.disk.seen = s.disk.usedIdx
  · rw [VirtioSys.intrTurn, if_pos hne]
    exact inv.setIntr false
  · exact inv.intrTurn_some hne

end

end VirtioInv

/-- Everything that a step can do. -/
inductive Change (s : VirtioSys) : VirtioSys → Prop
  | called (c : ℕ) (r : RwReq) (hc : s.calls c = none) (hb : s.bufLock r.b = none) :
    Change s (s.onDriver s.disk (update s.calls c (some (.starting r)))
      (update s.bufLock r.b (some c)))
  | start (c : ℕ) (r : RwReq) (hc : s.calls c = some (.starting r)) : Change s (s.startTurn c r)
  | wait (c : ℕ) (r : RwReq) (k : ℕ) (ch : Chain) (hc : s.calls c = some (.waiting r k ch)) :
    Change s (s.waitTurn c r k ch)
  | intr : Change s { s with intr := true }
  | intrTurn : Change s s.intrTurn
  | fetch (hne : s.devIdx ≠ s.disk.availIdx) : Change s s.fetchNext
  | complete (k h : ℕ) (hp : (k, h) ∈ s.pending) : Change s (s.completeOne k h)

theorem Change.of_step {e : VirtioEvent} (hstep : s.step e = some t) : s.Change t := by
  cases e with
  | rw c r =>
    simp only [VirtioSys.step, Option.ite_none_left_eq_some, Option.some.injEq, Bool.or_eq_true,
      not_or, Option.not_isSome_iff_eq_none] at hstep
    obtain ⟨⟨⟨_, hc⟩, hb⟩, rfl⟩ := hstep
    exact .called c r hc hb
  | turn c =>
    simp only [VirtioSys.step, Option.ite_none_left_eq_some] at hstep
    obtain ⟨_, hstep⟩ := hstep
    split at hstep
    · next hc => exact Option.some.inj hstep ▸ .start c _ hc
    · next hc => exact Option.some.inj hstep ▸ .wait c _ _ _ hc
    · cases hstep
  | intr =>
    simp only [VirtioSys.step, Option.ite_none_left_eq_some, Option.some.injEq] at hstep
    exact hstep.2 ▸ .intr
  | intrRound =>
    simp only [VirtioSys.step, Option.ite_none_right_eq_some, Option.some.injEq] at hstep
    exact hstep.2 ▸ .intrTurn
  | fetch =>
    simp only [VirtioSys.step, Option.ite_none_left_eq_some, Option.some.injEq] at hstep
    exact hstep.2 ▸ .fetch hstep.1
  | complete k head =>
    simp only [VirtioSys.step, Option.ite_none_right_eq_some, Option.some.injEq] at hstep
    exact hstep.2 ▸ .complete k head hstep.1

theorem VirtioInv.step (inv : VirtioInv s) {e : VirtioEvent} (hstep : s.step e = some t) :
    VirtioInv t := by
  cases Change.of_step hstep with
  | called c r hc hb => exact inv.called hc hb
  | start c r hc => exact inv.startTurn hc
  | wait c r k ch hc => exact inv.waitTurn hc
  | intr => exact inv.setIntr true
  | intrTurn => exact inv.intrTurn
  | fetch hne => exact inv.fetchNext hne
  | complete k h hp => exact inv.completeOne hp

/-! ### The numbers of the requests -/

/-- The number of the request that call `c` has submitted. -/
def number (s : VirtioSys) (c : ℕ) : Option ℕ :=
  match s.calls c with
  | some (.waiting _ k _) => some k
  | some (.returned _ k) => some k
  | _ => none

/-- No two calls have the same request. -/
structure Numbered (s : VirtioSys) : Prop where
  lt : ∀ c k, s.number c = some k → k < s.submitted.length
  inj : ∀ c c' k, s.number c = some k → s.number c' = some k → c = c'

namespace Numbered

theorem init : Numbered init := ⟨by simp [number, VirtioSys.init], by simp [number, VirtioSys.init]⟩

section

variable (hnum : Numbered s)

include hnum

theorem congr (hn : ∀ c, t.number c = s.number c) (hl : t.submitted = s.submitted) :
    Numbered t where
  lt c k hk := hl ▸ hnum.lt c k (hn c ▸ hk)
  inj c c' k hk hk' := hnum.inj c c' k (hn c ▸ hk) (hn c' ▸ hk')

/-- A call takes the next number. -/
theorem submit (hself : t.number c = some s.submitted.length)
    (hother : ∀ c', c' ≠ c → t.number c' = s.number c')
    (hl : t.submitted.length = s.submitted.length + 1) :
    Numbered t where
  lt c' k hk := by
    rcases eq_or_ne c' c with rfl | hne
    · rw [hself, Option.some.injEq] at hk
      omega
    · have hlt := hnum.lt c' k (hother c' hne ▸ hk)
      omega
  inj c₁ c₂ k hk₁ hk₂ := by
    by_cases h₁ : c₁ = c <;> by_cases h₂ : c₂ = c
    · rw [h₁, h₂]
    · have hlt := hnum.lt c₂ k (hother c₂ h₂ ▸ hk₂)
      rw [h₁, hself, Option.some.injEq] at hk₁
      omega
    · have hlt := hnum.lt c₁ k (hother c₁ h₁ ▸ hk₁)
      rw [h₂, hself, Option.some.injEq] at hk₂
      omega
    · exact hnum.inj c₁ c₂ k (hother c₁ h₁ ▸ hk₁) (hother c₂ h₂ ▸ hk₂)

theorem startTurn : Numbered (s.startTurn c r) := by
  unfold VirtioSys.startTurn
  split
  · exact hnum.congr (fun _ => rfl) rfl
  · exact hnum.congr (fun _ => rfl) rfl
  · refine hnum.submit (c := c) ?_ (fun c' hne => ?_) (by simp)
    · simp only [number, update_self]
    · simp only [number, update_of_ne hne]

theorem waitTurn (hc : s.calls c = some (.waiting r k ch)) : Numbered (s.waitTurn c r k ch) := by
  unfold VirtioSys.waitTurn
  split_ifs
  · exact hnum
  · split
    · exact hnum.congr (fun _ => rfl) rfl
    · refine hnum.congr (fun c' => ?_) rfl
      rcases eq_or_ne c' c with rfl | hne
      · simp only [number, update_self, hc]
      · simp only [number, update_of_ne hne]

theorem intrTurn : Numbered s.intrTurn := by
  unfold VirtioSys.intrTurn
  split_ifs
  · exact hnum.congr (fun _ => rfl) rfl
  · split
    · exact hnum.congr (fun _ => rfl) rfl
    · exact hnum.congr (fun _ => rfl) rfl

theorem step {e : VirtioEvent} (hstep : s.step e = some t) : Numbered t := by
  cases Change.of_step hstep with
  | called c r hc hb =>
    refine hnum.congr (fun c' => ?_) rfl
    rcases eq_or_ne c' c with rfl | hne
    · simp only [number, onDriver, update_self, hc]
    · simp only [number, onDriver, update_of_ne hne]
  | start c r hc => exact hnum.startTurn
  | wait c r k ch hc => exact hnum.waitTurn hc
  | intr => exact hnum.congr (fun _ => rfl) rfl
  | intrTurn => exact hnum.intrTurn
  | fetch hne => exact hnum.congr (fun _ => rfl) rfl
  | complete k h hp => exact hnum.congr (fun _ => rfl) rfl

end

end Numbered

/-- In every run of calls on locked buffers, interrupts and the device: there is no panic; the
descriptors that are not free are exactly those of the chains of the calls that wait, three for each
and none for two; a failed `alloc3_desc` leaves the free descriptors as they were; no two calls have
the same request, and when a call has returned the device has completed its request, and has read it
as the call has it. -/
theorem requests_exact (es : List VirtioEvent) (s : VirtioSys)
    (run : Trace.exec step init es = some s) :
    s.panicked = none ∧ (∀ i, i < numDesc →
        (s.disk.free i = false ↔ ∃ c r k ch, s.calls c = some (.waiting r k ch) ∧ ch.Has i)) ∧
      (∀ c r k ch, s.calls c = some (.waiting r k ch) → ch.Wf) ∧
      (∀ c c' r r' k k' ch ch', s.calls c = some (.waiting r k ch) →
        s.calls c' = some (.waiting r' k' ch') → c ≠ c' → ∀ i, ch.Has i → ¬ ch'.Has i) ∧
      (∀ e, s.disk.alloc3Desc = .ok (e, none) → e.free = s.disk.free) ∧
      (∀ c c' k, s.number c = some k → s.number c' = some k → c = c') ∧
      ∀ c r k, s.calls c = some (.returned r k) → (k, some r.service) ∈ s.log := by
  have hnum : Numbered s := Trace.always (fun _ _ _ h => h.step) Numbered.init run
  have inv : VirtioInv s := Trace.always (fun _ _ _ h => h.step) VirtioInv.init run
  refine ⟨inv.running, fun i hi => ?_, fun c r k ch hc => (inv.waiting c r k ch hc).wf,
    fun c c' r r' k k' ch ch' hc hc' hne i hi hi' => hne (inv.call_unique hc hc' hi hi'),
    fun e he => ?_, hnum.inj, inv.returned⟩
  · have hex := inv.exact.used_iff i
    simp only [InUse, hi, true_and] at hex
    exact hex
  · rcases alloc3Desc_spec s.disk with ⟨e', he', hsame⟩ | ⟨_, he', _⟩
    · rw [he, Except.ok.injEq, Prod.mk.injEq] at he'
      rw [he'.1, hsame.eq]
    · rw [he, Except.ok.injEq, Prod.mk.injEq] at he'
      exact absurd he'.2 (by simp)

/-- Three calls; the third finds too few descriptors and sleeps, the device completes the second
request first, and the calls return. -/
def outOfOrder : List VirtioEvent :=
  [.rw 0 ⟨10, true, 40⟩, .rw 1 ⟨11, false, 41⟩, .rw 2 ⟨12, false, 42⟩, .turn 0, .turn 1, .turn 2,
    .fetch, .fetch, .complete 1 3, .intr, .intrRound, .complete 0 0, .intrRound, .intrRound,
    .turn 1, .turn 0, .turn 2, .fetch, .complete 2 0, .intr, .intrRound, .intrRound, .turn 2]

theorem requests_exact_out_of_order :
    ∃ s, Trace.exec step init outOfOrder = some s ∧ s.panicked = none ∧
      s.calls 1 = some (.returned ⟨11, false, 41⟩ 1) ∧ (1, some ⟨⟨false, 82⟩, 11⟩) ∈ s.log := by
  have hsome : ((Trace.exec step init outOfOrder).any fun u =>
      decide (u.calls 1 = some (.returned ⟨11, false, 41⟩ 1))) = true := by decide +kernel
  obtain ⟨s, hs, hd⟩ := (Option.any_eq_true _ _).mp hsome
  have hret := of_decide_eq_true hd
  obtain ⟨hpanic, _, _, _, _, _, hlog⟩ := requests_exact outOfOrder s hs
  exact ⟨s, hs, hpanic, hret, hlog 1 _ 1 hret⟩

end VirtioSys

end NeulaCpu.Xv6

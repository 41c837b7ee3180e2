import NeulaCpu.Lib.Trace
import NeulaCpu.Xv6.PageTables

/-!
# Page conservation

Any sequence of operations on user page tables by callers that remember the size of each table, as
the kernel's do. `kalloc` may fail at any call. Pages that a caller got from `kalloc`, such as a
trapframe, are in the caller's hands; a table of a process maps its trapframe, and a process has two
tables with the same trapframe while `exec` builds the new one.
-/

namespace NeulaCpu.Xv6

open Forest Ownership VmState Function

/-- A table as its caller knows it: the root, the size, and whether `proc_pagetable` made it. -/
structure UserTable where
  root : ℕ
  sz : ℕ
  proc : Bool
deriving DecidableEq, Repr

/-- The tables by number and the pages in the hands of callers. `failed` is set by an operation that
returns an error, `panicked` by a panic. -/
structure VmSys where
  vm : VmState
  tables : ℕ → Option UserTable
  held : List ℕ
  failed : Bool
  panicked : Option VmPanic

inductive VmEvent
  | kalloc
  | kfree (p : ℕ)
  /-- A caller writes a page it has. -/
  | write (p : ℕ) (content : Fin 512 → Pte)
  /-- A user program writes one of its pages. -/
  | userWrite (t v : ℕ) (content : Fin 512 → Pte)
  | uvmcreate (t : ℕ)
  | procPagetable (t trapframe : ℕ)
  | uvmalloc (t newsz : ℕ) (xperm : BitVec 10)
  | uvmdealloc (t newsz : ℕ)
  | uvmcopy (u t : ℕ)
  | uvmfree (t : ℕ)
  | procFreepagetable (t : ℕ)

/-- The table that the event destroys. -/
def VmEvent.destroys : VmEvent → Option ℕ
  | .uvmfree t => some t
  | .procFreepagetable t => some t
  | _ => none

namespace VmSys

/-- After `kinit`: `freerange` has freed all pages from the end of the kernel to the end of
memory. -/
def boot (kend trampoline : ℕ) (deny : ℕ → Bool) (mem : ℕ → Fin 512 → Pte) : VmSys where
  vm := ⟨mem, (List.range' (npages kend) (physStop / pgSize - npages kend)).reverse, kend,
    trampoline, deny, 0⟩
  tables _ := none
  held := []
  failed := false
  panicked := none

variable (s : VmSys)

/-- The state after an operation that may panic. -/
def afterOp (r : Except VmPanic VmSys) : VmSys :=
  match r with
  | .ok s' => s'
  | .error p => { s with panicked := some p }

def setTable (t : ℕ) (u : Option UserTable) : VmSys := { s with tables := update s.tables t u }

/-- An operation is called with the size of its table. `uvmcopy` copies to a table without user
pages. -/
def op : VmEvent → Option (Except VmPanic VmSys)
  | .kalloc =>
    match s.vm.kalloc with
    | (none, vm) => some (.ok { s with vm := vm, failed := true })
    | (some p, vm) => some (.ok { s with vm := vm, held := p :: s.held, failed := false })
  | .kfree p =>
    if p ∈ s.held then
      some ((s.vm.kfree p).map fun vm =>
        { s with vm := vm, held := s.held.erase p, failed := false })
    else none
  | .write p content =>
    if p ∈ s.held then some (.ok { s with vm := s.vm.setPage p content, failed := false }) else none
  | .userWrite t v content =>
    match s.tables t with
    | none => none
    | some u =>
      match leafPte s.vm.mem u.root v with
      | none => none
      | some e =>
        if v < trapframeVpn then some (.ok
          { s with vm := s.vm.setPage e.ppn content, failed := false }) else none
  | .uvmcreate t =>
    if (s.tables t).isSome then none
    else
      match s.vm.uvmcreate with
      | (none, vm) => some (.ok { s with vm := vm, failed := true })
      | (some pt, vm) => some (.ok
        { s.setTable t (some ⟨pt, 0, false⟩) with vm := vm, failed := false })
  | .procPagetable t trapframe =>
    if (s.tables t).isSome then none
    else some ((s.vm.procPagetable trapframe).map fun
      | (none, vm) => { s with vm := vm, failed := true }
      | (some pt, vm) => { s.setTable t (some ⟨pt, 0, true⟩) with vm := vm, failed := false })
  | .uvmalloc t newsz xperm =>
    (s.tables t).map fun u => (s.vm.uvmalloc u.root u.sz newsz xperm).map fun
      | (0, vm) => { s with vm := vm, failed := true }
      | (r, vm) => { s.setTable t (some { u with sz := r }) with vm := vm, failed := false }
  | .uvmdealloc t newsz =>
    (s.tables t).map fun u => (s.vm.uvmdealloc u.root u.sz newsz).map fun (r, vm) =>
      { s.setTable t (some { u with sz := r }) with vm := vm, failed := false }
  | .uvmcopy u t =>
    match s.tables u, s.tables t with
    | some old, some new =>
      if u = t ∨ new.sz ≠ 0 then none
      else some ((s.vm.uvmcopy old.root new.root old.sz).map fun
        | (false, vm) => { s with vm := vm, failed := true }
        | (true, vm) =>
          { s.setTable t (some { new with sz := old.sz }) with vm := vm, failed := false })
    | _, _ => none
  | .uvmfree t =>
    match s.tables t with
    | none => none
    | some u =>
      if u.proc then none
      else some ((s.vm.uvmfree u.root u.sz).map fun vm =>
        { s.setTable t none with vm := vm, failed := false })
  | .procFreepagetable t =>
    match s.tables t with
    | none => none
    | some u =>
      if u.proc then
        some ((s.vm.procFreepagetable u.root u.sz).map fun vm =>
          { s.setTable t none with vm := vm, failed := false })
      else none

def step (e : VmEvent) : Option VmSys := if s.panicked.isSome then none else (s.op e).map s.afterOp

/-- The page `p` is in the place. A user mapping is a leaf below `TRAPFRAME`. -/
def Holds : Place → ℕ → Prop
  | .free, p => p ∈ s.vm.freelist
  | .held, p => p ∈ s.held
  | .node t path, p =>
    path.length ≤ 2 ∧ ∃ u, s.tables t = some u ∧ follow (child s.vm.mem) u.root path = some p
  | .page t v,
    p => v < trapframeVpn ∧ ∃ u e, s.tables t = some u ∧ leafPte s.vm.mem u.root v = some e ∧
      e.ppn = p

/-! ## What the caller knows of a table -/

/-- The map of a table: the user pages are those below its size, and a table of a process has the
two pages at `TRAPFRAME` and above mapped. -/
structure Fits (u : UserTable) (T : PageMap) : Prop where
  root : T.root = u.root
  upto : PageInv.Upto T (npages u.sz)
  lent : ∀ v, trapframeVpn ≤ v → v < 2 ^ 26 → (T.leaf v).isSome = u.proc

/-- The tables of the callers are the tables in memory. -/
structure Matches (tables : ℕ → Option UserTable) (tabs : PageMaps) : Prop where
  none : ∀ t, tables t = none → tabs t = none
  some : ∀ t u, tables t = some u → ∃ T, tabs t = some T ∧ Fits u T

namespace Matches

variable {tables : ℕ → Option UserTable} {tabs : PageMaps} {t : ℕ} {u : UserTable} {T : PageMap}

theorem update_some (h : Matches tables tabs) (hfits : Fits u T) :
    Matches (update tables t (.some u)) (update tabs t (.some T)) where
  none t' ht' := by
    by_cases he : t' = t
    · rw [he, update_self] at ht'
      cases ht'
    · rw [update_of_ne he] at ht' ⊢
      exact h.none t' ht'
  some t' u' ht' := by
    by_cases he : t' = t
    · rw [he, update_self] at ht' ⊢
      obtain rfl := Option.some.inj ht'
      exact ⟨T, rfl, hfits⟩
    · rw [update_of_ne he] at ht' ⊢
      exact h.some t' u' ht'

theorem update_none (h : Matches tables tabs) :
    Matches (update tables t .none) (update tabs t .none) where
  none t' ht' := by
    by_cases he : t' = t
    · rw [he, update_self]
    · rw [update_of_ne he] at ht' ⊢
      exact h.none t' ht'
  some t' u' ht' := by
    by_cases he : t' = t
    · rw [he, update_self] at ht'
      cases ht'
    · rw [update_of_ne he] at ht' ⊢
      exact h.some t' u' ht'

end Matches

/-- Where the size of a table changes. -/
theorem Fits.grown {u : UserTable} {T Tb : PageMap} (h : Fits u T) {n : ℕ}
    (hg : PageInv.Grown T (npages u.sz) (npages n) Tb) (hn : npages n ≤ trapframeVpn) :
    Fits { u with sz := n } Tb where
  root := hg.root.trans h.root
  upto := hg.upto h.upto hn
  lent v hv hv' := by
    rw [hg.outside v (by omega)]
    exact h.lent v hv hv'

theorem Fits.shrunk {u : UserTable} {T : PageMap} (h : Fits u T) {n : ℕ}
    (hn : npages n ≤ npages u.sz) :
    Fits { u with sz := n } (T.cut (npages n) (npages u.sz - npages n)) := by
  have hle := h.upto.le
  have hupto : PageInv.Upto (T.cut (npages n) (npages u.sz - npages n)) (npages n) := by
    refine ⟨by omega, fun v hv => ?_, fun v hv hlt => ?_⟩
    · rw [PageMap.cut]
      simp only
      rw [if_neg (by omega)]
      exact h.upto.mapped v (by omega)
    · rw [PageMap.cut]
      simp only
      split_ifs with hin
      · rfl
      · exact h.upto.unmapped v (by omega) hlt
  refine ⟨h.root, hupto, fun v hv hv' => ?_⟩
  rw [PageMap.cut]
  simp only
  rw [if_neg (by omega)]
  exact h.lent v hv hv'

/-! ## The operations -/

/-- What an operation comes to: the memory holds the new tables; if the operation fails the tables,
their maps and the pages of the callers are the old ones; and the pages of a table that is destroyed
are free. -/
structure OpOk (K : ℕ) (s : VmSys) (tabs : PageMaps) (e : VmEvent) (s' : VmSys) (tabs' : PageMaps) :
    Prop where
  inv : PageInv K s'.vm tabs' s'.held
  fits : Matches s'.tables tabs'
  running : s'.panicked = s.panicked
  failed : s'.failed = true → s'.tables = s.tables ∧ s'.held = s.held ∧ tabs' = tabs
  destroyed : ∀ t, e.destroys = some t →
    s'.tables t = none ∧ ∃ T, tabs t = some T ∧ PageInv.AllFreed s.vm T s'.vm

/-- The operation does not panic. -/
def Completes (K : ℕ) (s : VmSys) (tabs : PageMaps) (e : VmEvent) (r : Except VmPanic VmSys) :
    Prop :=
  ∃ s' tabs', r = .ok s' ∧ OpOk K s tabs e s' tabs'

namespace OpOk

variable {K : ℕ} {s s' : VmSys} {tabs tabs' : PageMaps} {e : VmEvent} {t : ℕ} {u : UserTable}

/-- An operation that destroys no table succeeds. -/
theorem succeeded (inv' : PageInv K s'.vm tabs' s'.held) (hm' : Matches s'.tables tabs')
    (hrun : s'.panicked = s.panicked) (hok : s'.failed = false) (he : e.destroys = none) :
    OpOk K s tabs e s' tabs' where
  inv := inv'
  fits := hm'
  running := hrun
  failed hfail := by
    rw [hok] at hfail
    cases hfail
  destroyed t ht := by
    rw [he] at ht
    cases ht

/-- It fails. -/
theorem unchanged {vm : VmState} (inv' : PageInv K vm tabs s.held) (hm : Matches s.tables tabs)
    (he : e.destroys = none) : OpOk K s tabs e { s with vm := vm, failed := true } tabs where
  inv := inv'
  fits := hm
  running := rfl
  failed _ := ⟨rfl, rfl, rfl⟩
  destroyed t ht := by
    rw [he] at ht
    cases ht

/-- A table has been destroyed. -/
theorem destroys {vm : VmState} {T : PageMap} (inv' : PageInv K vm (update tabs t none) s.held)
    (hm : Matches s.tables tabs) (he : e.destroys = some t) (hT : tabs t = some T)
    (hfreed : PageInv.AllFreed s.vm T vm) :
    OpOk K s tabs e { s.setTable t none with vm := vm, failed := false } (update tabs t none) where
  inv := inv'
  fits := hm.update_none
  running := rfl
  failed hfail := by cases hfail
  destroyed t' ht' := by
    rw [he, Option.some.injEq] at ht'
    subst ht'
    exact ⟨update_self .., T, hT, hfreed⟩

section Ops

variable (inv : PageInv K s.vm tabs s.held) (hm : Matches s.tables tabs) {r : Except VmPanic VmSys}

include inv hm

theorem kalloc (hr : s.op .kalloc = some r) : Completes K s tabs .kalloc r := by
  rcases inv.kalloc_spec with ⟨vm, hvm, inv', _⟩ | ⟨p, vm, hvm, inv', _⟩
  · simp only [op, hvm, Option.some.injEq] at hr
    exact ⟨_, tabs, hr.symm, unchanged inv' hm rfl⟩
  · simp only [op, hvm, Option.some.injEq] at hr
    exact ⟨_, tabs, hr.symm, succeeded inv' hm rfl rfl rfl⟩

theorem kfree {p : ℕ} (hr : s.op (.kfree p) = some r) :
    Completes K s tabs (.kfree p) r := by
  simp only [op, Option.ite_none_right_eq_some, Option.some.injEq] at hr
  obtain ⟨vm, hvm, inv'⟩ := inv.kfree hr.1
  rw [hvm] at hr
  exact ⟨_, tabs, hr.2.symm, succeeded inv' hm rfl rfl rfl⟩

theorem write {p : ℕ} {content : Fin 512 → Pte} (hr : s.op (.write p content) = some r) :
    Completes K s tabs (.write p content) r := by
  simp only [op, Option.ite_none_right_eq_some, Option.some.injEq] at hr
  exact ⟨_, tabs, hr.2.symm, succeeded (inv.setPage_held content hr.1) hm rfl rfl rfl⟩

theorem userWrite {v : ℕ} {content : Fin 512 → Pte}
    (hr : s.op (.userWrite t v content) = some r) :
    Completes K s tabs (.userWrite t v content) r := by
  simp only [op] at hr
  split at hr
  · cases hr
  · next u hu =>
    split at hr
    · cases hr
    · next e he =>
      simp only [Option.ite_none_right_eq_some, Option.some.injEq] at hr
      obtain ⟨hv, rfl⟩ := hr
      obtain ⟨T, hT, hfits⟩ := hm.some t u hu
      have hv' : v < 2 ^ 27 := by rw [trapframeVpn] at hv; omega
      rw [← hfits.root, inv.leaf t T v hT hv'] at he
      have hpage : Owns s.vm tabs s.held (.page t v) e.ppn := ⟨hv, T, e, hT, he, rfl⟩
      refine ⟨_, tabs, rfl, succeeded (inv.setPage fun t' T' path hT' hlen => ?_) hm rfl rfl rfl⟩
      exact inv.not_node hpage (fun _ _ => Place.noConfusion) hT' hlen

theorem uvmcreate (hr : s.op (.uvmcreate t) = some r) :
    Completes K s tabs (.uvmcreate t) r := by
  simp only [op, Option.ite_none_left_eq_some, Option.not_isSome_iff_eq_none] at hr
  obtain ⟨ht, hr⟩ := hr
  rcases inv.uvmcreate_spec (hm.none t ht) with ⟨vm, hvm, inv'⟩ | ⟨pt, vm, hvm, inv'⟩
  · rw [hvm, Option.some.injEq] at hr
    exact ⟨_, tabs, hr.symm, unchanged inv' hm rfl⟩
  · rw [hvm, Option.some.injEq] at hr
    have hfits : Fits ⟨pt, 0, false⟩ ⟨pt, fun _ => none⟩ :=
      ⟨rfl, PageInv.upto_of_none fun _ _ => rfl, fun _ _ _ => rfl⟩
    exact ⟨_, _, hr.symm, succeeded inv' (hm.update_some hfits) rfl rfl rfl⟩

theorem procPagetable {trapframe : ℕ} (hr : s.op (.procPagetable t trapframe) = some r) :
    Completes K s tabs (.procPagetable t trapframe) r := by
  simp only [op, Option.ite_none_left_eq_some, Option.not_isSome_iff_eq_none,
    Option.some.injEq] at hr
  obtain ⟨ht, hr⟩ := hr
  rcases inv.procPagetable_spec (hm.none t ht) trapframe
    with ⟨vm, hvm, inv'⟩ | ⟨pt, vm, leaf, hvm, inv', hnone, hlent⟩
  · rw [hvm] at hr
    exact ⟨_, tabs, hr.symm, unchanged inv' hm rfl⟩
  · rw [hvm] at hr
    have hfits : Fits ⟨pt, 0, true⟩ ⟨pt, leaf⟩ := ⟨rfl, PageInv.upto_of_none hnone, hlent⟩
    exact ⟨_, _, hr.symm, succeeded inv' (hm.update_some hfits) rfl rfl rfl⟩

theorem uvmalloc {newsz : ℕ} {xperm : BitVec 10}
    (hr : s.op (.uvmalloc t newsz xperm) = some r) :
    Completes K s tabs (.uvmalloc t newsz xperm) r := by
  simp only [op, Option.map_eq_some_iff] at hr
  obtain ⟨u, hu, rfl⟩ := hr
  obtain ⟨T, hT, hfits⟩ := hm.some t u hu
  obtain ⟨n, vm, hvm, hcases⟩ := inv.uvmalloc_spec hT hfits.upto newsz xperm
  rw [hfits.root] at hvm
  rw [hvm]
  rcases hcases with ⟨rfl, inv'⟩ | ⟨hn, hle, Tb, hg, inv'⟩
  · exact ⟨_, tabs, rfl, unchanged inv' hm rfl⟩
  · cases n with
    | zero =>
      -- from no size to no size: nothing was mapped
      have hzero : u.sz = 0 := by omega
      have hsame : Tb = T := by
        have hleaf : Tb.leaf = T.leaf := funext fun v => hg.outside v (by rw [hzero]; omega)
        cases Tb
        cases T
        simp only [PageMap.mk.injEq]
        exact ⟨hg.root, hleaf⟩
      rw [hsame, ← hT, update_eq_self] at inv'
      exact ⟨_, tabs, rfl, unchanged inv' hm rfl⟩
    | succ n => exact ⟨_, _, rfl, succeeded inv' (hm.update_some (hfits.grown hg hle)) rfl rfl rfl⟩

theorem uvmdealloc {newsz : ℕ} (hr : s.op (.uvmdealloc t newsz) = some r) :
    Completes K s tabs (.uvmdealloc t newsz) r := by
  simp only [op, Option.map_eq_some_iff] at hr
  obtain ⟨u, hu, rfl⟩ := hr
  obtain ⟨T, hT, hfits⟩ := hm.some t u hu
  obtain ⟨vm, hvm, inv'⟩ := inv.uvmdealloc_clear hT u.sz newsz hfits.upto.le fun w _ h2 =>
    hfits.upto.mapped w h2
  rw [hfits.root] at hvm
  rw [hvm]
  have hclear : tabs.clear t (npages newsz) (npages u.sz - npages newsz) =
      update tabs t (some
        (T.cut (npages (min u.sz newsz)) (npages u.sz - npages (min u.sz newsz)))) := by
    rw [PageMaps.clear, hT, Option.map_some]
    rcases le_total u.sz newsz with h | h
    · have hle := npages_mono h
      rw [min_eq_left h, Nat.sub_eq_zero_of_le hle, Nat.sub_self]
      congr 2
      simp only [PageMap.cut, PageMap.mk.injEq, true_and]
      funext w
      rw [if_neg (by omega), if_neg (by omega)]
    · rw [min_eq_right h]
  rw [hclear] at inv'
  exact ⟨_, _, rfl,
    succeeded inv' (hm.update_some (hfits.shrunk (npages_mono (min_le_left _ _)))) rfl rfl rfl⟩

theorem uvmcopy {v : ℕ} (hr : s.op (.uvmcopy v t) = some r) :
    Completes K s tabs (.uvmcopy v t) r := by
  simp only [op] at hr
  split at hr
  · next old new hold hnew =>
    simp only [Option.ite_none_left_eq_some, Option.some.injEq, not_or, ne_eq, not_not] at hr
    obtain ⟨⟨hne, hsz⟩, rfl⟩ := hr
    obtain ⟨U, hU, hfitsU⟩ := hm.some v old hold
    obtain ⟨T, hT, hfits⟩ := hm.some t new hnew
    have hzero : npages new.sz = 0 := by rw [hsz, npages, pgSize]
    have hupto : PageInv.Upto T 0 := by
      have h := hfits.upto
      rwa [hzero] at h
    obtain ⟨ok, vm, hvm, hg⟩ := PageInv.uvmcopy_spec hU hne hT hupto inv hfitsU.upto
    rw [hfitsU.root, hfits.root] at hvm
    rw [hvm]
    cases ok with
    | false => exact ⟨_, tabs, rfl, unchanged hg hm rfl⟩
    | true =>
      obtain ⟨hle, Tb, hgrown, inv'⟩ := hg
      rw [← hzero] at hgrown
      exact ⟨_, _, rfl, succeeded inv' (hm.update_some (hfits.grown hgrown hle)) rfl rfl rfl⟩
  · cases hr

theorem uvmfree (hr : s.op (.uvmfree t) = some r) :
    Completes K s tabs (.uvmfree t) r := by
  simp only [op] at hr
  split at hr
  · cases hr
  · next u hu =>
    simp only [Option.ite_none_left_eq_some, Option.some.injEq] at hr
    obtain ⟨hproc, rfl⟩ := hr
    obtain ⟨T, hT, hfits⟩ := hm.some t u hu
    have hlent (v : ℕ) (hv : trapframeVpn ≤ v) : T.leaf v = none := by
      by_contra hsome
      obtain ⟨e, he⟩ := Option.ne_none_iff_exists'.mp hsome
      have h := hfits.lent v hv (inv.bound t T v e hT he)
      rw [he] at h
      exact hproc h.symm
    obtain ⟨vm, hvm, inv', hfreed⟩ := inv.uvmfree_spec hT hfits.upto hlent
    rw [hfits.root] at hvm
    rw [hvm]
    exact ⟨_, _, rfl, destroys inv' hm rfl hT hfreed⟩

theorem procFreepagetable (hr : s.op (.procFreepagetable t) = some r) :
    Completes K s tabs (.procFreepagetable t) r := by
  simp only [op] at hr
  split at hr
  · cases hr
  · next u hu =>
    simp only [Option.ite_none_right_eq_some, Option.some.injEq] at hr
    obtain ⟨hproc, rfl⟩ := hr
    obtain ⟨T, hT, hfits⟩ := hm.some t u hu
    obtain ⟨vm, hvm, inv', hfreed⟩ := inv.procFreepagetable_spec hT hfits.upto fun v hv hv' =>
      (hfits.lent v hv hv').trans hproc
    rw [hfits.root] at hvm
    rw [hvm]
    exact ⟨_, _, rfl, destroys inv' hm rfl hT hfreed⟩

theorem op (hr : s.op e = some r) : Completes K s tabs e r := by
  cases e with
  | kalloc => exact kalloc inv hm hr
  | kfree p => exact kfree inv hm hr
  | write p content => exact write inv hm hr
  | userWrite t v content => exact userWrite inv hm hr
  | uvmcreate t => exact uvmcreate inv hm hr
  | procPagetable t trapframe => exact procPagetable inv hm hr
  | uvmalloc t newsz xperm => exact uvmalloc inv hm hr
  | uvmdealloc t newsz => exact uvmdealloc inv hm hr
  | uvmcopy u t => exact uvmcopy inv hm hr
  | uvmfree t => exact uvmfree inv hm hr
  | procFreepagetable t => exact procFreepagetable inv hm hr

end Ops

end OpOk

/-! ## Runs -/

/-- The memory holds the tables of the callers, and there was no panic. -/
def SysInv (K : ℕ) (s : VmSys) : Prop :=
  s.panicked = none ∧ ∃ tabs, PageInv K s.vm tabs s.held ∧ Matches s.tables tabs

variable {K : ℕ} {s s' : VmSys}

theorem sysInv_boot (kend trampoline : ℕ) (deny : ℕ → Bool) (mem : ℕ → Fin 512 → Pte) :
    SysInv kend (boot kend trampoline deny mem) := by
  refine ⟨rfl, fun _ => none, ⟨?_, ?_, List.nodup_nil, ?_, ?_, ?_, ?_, rfl⟩, fun _ _ => rfl, ?_⟩
  case' refine_3 | refine_4 | refine_5 | refine_6 | refine_7 => intros; contradiction
  · have hfree (p : ℕ) : p ∈ (boot kend trampoline deny mem).vm.freelist ↔
        (boot kend trampoline deny mem).vm.InRange p := by
      simp only [boot, List.mem_reverse, List.mem_range'_1, VmState.InRange, npages, pgSize,
        physStop]
      omega
    constructor
    · intro p
      rw [← hfree]
      constructor
      · intro hp
        exact ⟨.free, hp⟩
      · rintro ⟨k, hk⟩
        cases k with
        | free => exact hk
        | held => cases hk
        | node t path => obtain ⟨_, _, hT, _⟩ := hk; cases hT
        | page t v => obtain ⟨_, _, _, hT, _⟩ := hk; cases hT
    · intro p k l hk hl
      have honly (k : Place) (hk : Owns (boot kend trampoline deny mem).vm (fun _ => none) [] k p) :
          k = .free := by
        cases k with
        | free => rfl
        | held => cases hk
        | node t path => obtain ⟨_, _, hT, _⟩ := hk; cases hT
        | page t v => obtain ⟨_, _, _, hT, _⟩ := hk; cases hT
      rw [honly k hk, honly l hl]
  · exact List.nodup_reverse.mpr (List.nodup_range' ..)

/-- An event finds the invariant and leaves it. -/
theorem step_ok {tabs : PageMaps} (hp : s.panicked = none) (inv : PageInv K s.vm tabs s.held)
    (hm : Matches s.tables tabs) {e : VmEvent} (hstep : s.step e = some s') :
    ∃ tabs', OpOk K s tabs e s' tabs' := by
  simp only [step, hp, Option.isSome_none, Bool.false_eq_true, if_false,
    Option.map_eq_some_iff] at hstep
  obtain ⟨r, hr, rfl⟩ := hstep
  obtain ⟨s'', tabs', rfl, hok⟩ := OpOk.op inv hm hr
  exact ⟨tabs', hok⟩

theorem SysInv.step (h : SysInv K s) {e : VmEvent} (hstep : s.step e = some s') : SysInv K s' := by
  obtain ⟨hp, tabs, inv, hm⟩ := h
  obtain ⟨tabs', hok⟩ := step_ok hp inv hm hstep
  exact ⟨hok.running.trans hp, tabs', hok.inv, hok.fits⟩

/-- The places as the callers know the tables are the places of the invariant. -/
theorem holds_iff {tabs : PageMaps} (inv : PageInv K s.vm tabs s.held) (hm : Matches s.tables tabs)
    (k : Place) (p : ℕ) : s.Holds k p ↔ Owns s.vm tabs s.held k p := by
  have hto (t : ℕ) (u : UserTable) (hu : s.tables t = some u) :
      ∃ T, tabs t = some T ∧ T.root = u.root := by
    obtain ⟨T, hT, hfits⟩ := hm.some t u hu
    exact ⟨T, hT, hfits.root⟩
  have hof (t : ℕ) (T : PageMap) (hT : tabs t = some T) :
      ∃ u, s.tables t = some u ∧ T.root = u.root := by
    cases hu : s.tables t with
    | none => exact nomatch (hm.none t hu).symm.trans hT
    | some u =>
      obtain ⟨T', hT', hroot⟩ := hto t u hu
      obtain rfl := Option.some.inj (hT.symm.trans hT')
      exact ⟨u, rfl, hroot⟩
  cases k with
  | free => exact Iff.rfl
  | held => exact Iff.rfl
  | node t path =>
    refine and_congr_right fun _ => ⟨?_, ?_⟩
    · rintro ⟨u, hu, hp⟩
      obtain ⟨T, hT, hroot⟩ := hto t u hu
      exact ⟨T, hT, hroot ▸ hp⟩
    · rintro ⟨T, hT, hp⟩
      obtain ⟨u, hu, hroot⟩ := hof t T hT
      exact ⟨u, hu, hroot ▸ hp⟩
  | page t v =>
    refine and_congr_right fun hv => ?_
    have hv' : v < 2 ^ 27 := by rw [trapframeVpn] at hv; omega
    constructor
    · rintro ⟨u, e, hu, he, hp⟩
      obtain ⟨T, hT, hroot⟩ := hto t u hu
      exact ⟨T, e, hT, by rw [← inv.leaf t T v hT hv', hroot, he], hp⟩
    · rintro ⟨T, e, hT, he, hp⟩
      obtain ⟨u, hu, hroot⟩ := hof t T hT
      exact ⟨u, e, hu, by rw [← hroot, inv.leaf t T v hT hv', he], hp⟩

/-- In every run from boot: there is no panic; every page between the end of the kernel and the end
of memory is in exactly one place, which is the free list, where it is once, the hands of a caller,
one node of one table, or one mapping of one table below `TRAPFRAME`; an operation that fails leaves
the tables, their sizes, all their mappings and the pages of the callers as they were; and an
operation that destroys a table puts all its nodes and user pages on the free list. -/
theorem pages_conserved (kend trampoline : ℕ) (deny : ℕ → Bool) (mem : ℕ → Fin 512 → Pte)
    (es : List VmEvent) (s : VmSys)
    (run : Trace.exec step (boot kend trampoline deny mem) es = some s) :
    s.panicked = none ∧ s.vm.freelist.Nodup ∧
      (∀ p, kend ≤ p * pgSize → p * pgSize < physStop → ∃! k, s.Holds k p) ∧
      (∀ k p, s.Holds k p → kend ≤ p * pgSize ∧ p * pgSize < physStop) ∧
      ∀ e s', s.step e = some s' →
        s'.panicked = none ∧
        (s'.failed = true → s'.tables = s.tables ∧ s'.held = s.held ∧
          ∀ t u v, s.tables t = some u → v < 2 ^ 27 →
            leafPte s'.vm.mem u.root v = leafPte s.vm.mem u.root v) ∧
        ∀ t, e.destroys = some t → s'.tables t = none ∧
          ∀ p, ((∃ path, s.Holds (.node t path) p) ∨ ∃ v, s.Holds (.page t v) p) →
            p ∈ s'.vm.freelist := by
  have hinv : SysInv kend s :=
    Trace.always (fun _ _ _ h => h.step) (sysInv_boot kend trampoline deny mem) run
  obtain ⟨hp, tabs, inv, hm⟩ := hinv
  have hrange (p : ℕ) : s.vm.InRange p ↔ kend ≤ p * pgSize ∧ p * pgSize < physStop := by
    rw [VmState.InRange, inv.kend, not_or, not_lt, not_le]
  have hholds := holds_iff inv hm
  refine ⟨hp, inv.free_nodup, fun p h1 h2 => ?_, fun k p hk => ?_, fun e s' hstep => ?_⟩
  · obtain ⟨k, hk⟩ := (inv.exact.used_iff p).mp ((hrange p).mpr ⟨h1, h2⟩)
    exact ⟨k, (hholds k p).mpr hk, fun l hl => inv.exact.unique p l k ((hholds l p).mp hl) hk⟩
  · exact (hrange p).mp (inv.inRange ((hholds k p).mp hk))
  obtain ⟨tabs', hok⟩ := step_ok hp inv hm hstep
  refine ⟨hok.running.trans hp, fun hfail => ?_, fun t ht => ?_⟩
  · obtain ⟨htab, hheld, rfl⟩ := hok.failed hfail
    refine ⟨htab, hheld, fun t u v hu hv => ?_⟩
    obtain ⟨T, hT, hfits⟩ := hm.some t u hu
    rw [← hfits.root, hok.inv.leaf t T v hT hv, inv.leaf t T v hT hv]
  · obtain ⟨hgone, T, hT, hpages, hnodes⟩ := hok.destroyed t ht
    refine ⟨hgone, fun p hp => ?_⟩
    simp only [hholds] at hp
    rcases hp with ⟨path, hlen, T', hT', hpath⟩ | ⟨v, hv, T', e', hT', he', rfl⟩
    · obtain rfl := Option.some.inj (hT.symm.trans hT')
      exact hnodes path p hlen hpath
    · obtain rfl := Option.some.inj (hT.symm.trans hT')
      exact hpages v hv e' he'

/-- A small machine: eleven pages, and no call of `kalloc` fails while there are any. -/
def small : VmSys := boot (physStop - 11 * pgSize) 0x80006 (fun _ => false) fun _ _ => .zero

/-- A process grows to two pages, and a second growth runs out of pages. -/
def growTwice : List VmEvent :=
  [.kalloc, .procPagetable 0 0x87fff, .uvmalloc 0 5000 Pte.flagW, .uvmalloc 0 40000 Pte.flagW]

theorem pages_conserved_growTwice :
    ∃ s, Trace.exec step small growTwice = some s ∧ s.failed = true ∧
      s.tables 0 = some ⟨0x87ffe, 5000, true⟩ ∧ s.panicked = none ∧ ∃! k, s.Holds k 0x87ff5 := by
  have hsome : ((Trace.exec step small growTwice).any fun u =>
      decide (u.failed = true ∧ u.tables 0 = some ⟨0x87ffe, 5000, true⟩)) = true := by
    decide +kernel
  obtain ⟨s, hs, hd⟩ := (Option.any_eq_true _ _).mp hsome
  obtain ⟨hfailed, htable⟩ := of_decide_eq_true hd
  obtain ⟨hp, _, hplace, _⟩ := pages_conserved _ _ _ _ growTwice s hs
  exact ⟨s, hs, hfailed, htable, hp, hplace 0x87ff5 (by decide) (by decide)⟩

/-- A process makes its page table, and a second one with the same trapframe. -/
def execTables : List VmEvent := [.kalloc, .procPagetable 0 0x87fff, .procPagetable 1 0x87fff]

/-- While `exec` builds the new page table of a process, both tables map its trapframe, which is
also in the hands of the process. -/
theorem trapframe_mapped_twice :
    ∃ s, Trace.exec step small execTables = some s ∧ 0x87fff ∈ s.held ∧
      s.tables 0 = some ⟨0x87ffe, 0, true⟩ ∧ s.tables 1 = some ⟨0x87ffb, 0, true⟩ ∧
      leafPte s.vm.mem 0x87ffe trapframeVpn =
        some ⟨0x87fff, Pte.flagR ||| Pte.flagW ||| Pte.flagV⟩ ∧
      leafPte s.vm.mem 0x87ffb trapframeVpn =
        some ⟨0x87fff, Pte.flagR ||| Pte.flagW ||| Pte.flagV⟩ := by
  have hsome : ((Trace.exec step small execTables).any fun u =>
      decide (0x87fff ∈ u.held ∧ u.tables 0 = some ⟨0x87ffe, 0, true⟩ ∧
        u.tables 1 = some ⟨0x87ffb, 0, true⟩ ∧
        leafPte u.vm.mem 0x87ffe trapframeVpn =
          some ⟨0x87fff, Pte.flagR ||| Pte.flagW ||| Pte.flagV⟩ ∧
        leafPte u.vm.mem 0x87ffb trapframeVpn =
          some ⟨0x87fff, Pte.flagR ||| Pte.flagW ||| Pte.flagV⟩)) = true := by
    decide +kernel
  obtain ⟨s, hs, hd⟩ := (Option.any_eq_true _ _).mp hsome
  exact ⟨s, hs, of_decide_eq_true hd⟩

end VmSys

end NeulaCpu.Xv6

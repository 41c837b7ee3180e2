import NeulaCpu.Xv6.PageConservation
import NeulaCpu.Xv6.UserBytes

/-!
# The memory of a forked process

`uvmcopy` gives the child a copy of every page of the parent, in frames that nobody else has. Two
tables with this property are two private memories: whatever is stored through the tables, in any
order, what is seen through one of them is what was stored through it.

* `PageInv.store`, `PageInv.peek_store`: one store.
* `stores_private`: any sequence of stores.
* `uvmcopy_isolates`: what `uvmcopy` does.
-/

namespace NeulaCpu.Xv6

open ByteStore (Byte)
open Forest Ownership VmState Function

/-! ## Private memories -/

/-- The bytes at the addresses that are mapped. -/
abbrev UserMemory := ℕ → Option Byte

/-- A store; at an address that is not mapped it has no effect. -/
def UserMemory.write (m : UserMemory) (va : ℕ) (b : Byte) : UserMemory :=
  fun a => if a = va then (m a).map fun _ => b else m a

/-- A store through one of two tables. -/
structure UserStore where
  child : Bool
  va : ℕ
  value : Byte

/-- The memory after the stores that are made through its own table. -/
def UserMemory.writes (m : UserMemory) (child : Bool) (ws : List UserStore) : UserMemory :=
  (ws.filter fun w => w.child = child).foldl (fun m w => m.write w.va w.value) m

/-! ## Stores through a page table -/

namespace VmState

variable (s : VmState) (pt va : ℕ)

/-- The physical address of a mapped address below `TRAPFRAME`. -/
def userAddr : Option ℕ :=
  if va / pgSize < trapframeVpn then (s.entry pt va).map fun e => e.ppn * pgSize + va % pgSize
    else none

/-- The byte there. -/
def peek : Option Byte := (s.userAddr pt va).map s.byte

def store (b : Byte) : VmState :=
  match s.userAddr pt va with
  | some pa => s.setByte pa b
  | none => s

/-- Stores through the tables of a parent and a child. -/
def stores (parent child : ℕ) (ws : List UserStore) : VmState :=
  ws.foldl (fun s w => s.store (if w.child then child else parent) w.va w.value) s

end VmState

namespace PageInv

variable {K t t' va va' pa : ℕ} {s : VmState} {tabs : PageMaps} {held : List ℕ} {T T' : PageMap}
  {b : Byte}

section

variable (inv : PageInv K s tabs held) (hT : tabs t = some T)

include inv hT

theorem entry_eq : s.entry T.root va = T.leaf (va / pgSize) := by
  unfold VmState.entry
  split
  next hlt =>
    refine inv.leaf t T _ hT ?_
    rw [maxVa] at hlt
    rw [pgSize]
    omega
  next hge =>
    cases hleaf : T.leaf (va / pgSize) with
    | none => rfl
    | some e =>
      have hbound := inv.bound t T _ e hT hleaf
      rw [maxVa] at hge
      rw [pgSize] at hbound
      omega

theorem owns_userAddr (h : s.userAddr T.root va = some pa) :
    Owns s tabs held (.page t (va / pgSize)) (pa / pgSize) ∧ pa % pgSize = va % pgSize := by
  unfold VmState.userAddr at h
  split_ifs at h with hlt
  rw [inv.entry_eq hT, Option.map_eq_some_iff] at h
  obtain ⟨e, he, rfl⟩ := h
  have hoff := Nat.mod_lt va pgSize_pos
  refine ⟨⟨hlt, T, e, hT, he, ?_⟩, ?_⟩
  · rw [Nat.mul_comm, Nat.mul_add_div pgSize_pos, Nat.div_eq_of_lt hoff, Nat.add_zero]
  · rw [Nat.mul_add_mod_self_right, Nat.mod_mod]

/-- A physical address has one table and one virtual address. -/
theorem userAddr_inj (hT' : tabs t' = some T')
    (h : s.userAddr T.root va = some pa) (h' : s.userAddr T'.root va' = some pa) :
    t' = t ∧ va' = va := by
  obtain ⟨hown, hoff⟩ := inv.owns_userAddr hT h
  obtain ⟨hown', hoff'⟩ := inv.owns_userAddr hT' h'
  have hplace := Place.page.inj (inv.exact.unique _ _ _ hown' hown)
  exact ⟨hplace.1, eq_of_div_mod hplace.2 (hoff'.symm.trans hoff)⟩

/-- A store does not change the tables. -/
theorem store (va : ℕ) (b : Byte) : PageInv K (s.store T.root va b) tabs held := by
  unfold VmState.store
  cases h : s.userAddr T.root va with
  | none => exact inv
  | some pa =>
    obtain ⟨hown, -⟩ := inv.owns_userAddr hT h
    exact inv.setPage fun _ _ _ hT' hlen =>
      inv.not_node hown (fun _ _ => Place.noConfusion) hT' hlen

theorem userAddr_store (hT' : tabs t' = some T') :
    (s.store T.root va b).userAddr T'.root va' = s.userAddr T'.root va' := by
  rw [VmState.userAddr, VmState.userAddr, (inv.store hT va b).entry_eq hT', inv.entry_eq hT']

/-- A store changes the byte at its address in its table and no other. -/
theorem peek_store (hT' : tabs t' = some T') : (s.store T.root va b).peek T'.root va' =
      if t' = t ∧ va' = va then (s.peek T'.root va').map fun _ => b else s.peek T'.root va' := by
  rw [peek, inv.userAddr_store hT hT', peek]
  cases h' : s.userAddr T'.root va' with
  | none =>
    split_ifs
    · rfl
    · rfl
  | some pa' =>
    rw [Option.map_some, VmState.store]
    split_ifs with hsame
    · obtain ⟨rfl, rfl⟩ := hsame
      obtain rfl := Option.some.inj (hT.symm.trans hT')
      rw [h', Option.map_some, Option.map_some]
      dsimp only
      rw [byte_setByte, if_pos rfl]
    · cases h : s.userAddr T.root va with
      | none => rfl
      | some pa =>
        have hne : pa' ≠ pa := by
          rintro rfl
          exact hsame (inv.userAddr_inj hT hT' h h')
        dsimp only
        rw [byte_setByte, if_neg hne, Option.map_some]

end

variable {u : ℕ} {U : PageMap}

/-- Two tables are two private memories. -/
theorem stores_private (inv : PageInv K s tabs held) (hU : tabs u = some U) (hT : tabs t = some T)
    (hne : u ≠ t) (ws : List UserStore) :
    (s.stores U.root T.root ws).peek U.root = UserMemory.writes (s.peek U.root) false ws ∧
      (s.stores U.root T.root ws).peek T.root = UserMemory.writes (s.peek T.root) true ws := by
  induction ws generalizing s with
  | nil => exact ⟨rfl, rfl⟩
  | cons w ws ih =>
    obtain ⟨side, va, b⟩ := w
    cases side with
    | false =>
      have hparent : (s.store U.root va b).peek U.root = UserMemory.write (s.peek U.root) va b := by
        funext a
        rw [inv.peek_store hU hU, UserMemory.write]
        simp only [true_and]
      have hchild : (s.store U.root va b).peek T.root = s.peek T.root := by
        funext a
        rw [inv.peek_store hU hT, if_neg fun h => hne h.1.symm]
      have hrest := ih (inv.store hU va b)
      rw [hparent, hchild] at hrest
      exact hrest
    | true =>
      have hparent : (s.store T.root va b).peek U.root = s.peek U.root := by
        funext a
        rw [inv.peek_store hT hU, if_neg fun h => hne h.1]
      have hchild : (s.store T.root va b).peek T.root = UserMemory.write (s.peek T.root) va b := by
        funext a
        rw [inv.peek_store hT hT, UserMemory.write]
        simp only [true_and]
      have hrest := ih (inv.store hT va b)
      rw [hparent, hchild] at hrest
      exact hrest

/-! ## uvmcopy -/

/-- All pages are mapped, so they are in memory, and there are fewer of them than virtual pages. -/
theorem npages_le_of_mapped (inv : PageInv K s tabs held) (hU : tabs u = some U) {sz : ℕ}
    (hmapped : ∀ v < npages sz, (U.leaf v).isSome = true) : npages sz ≤ trapframeVpn := by
  by_contra hgt
  have hle := inv.user_le hU le_rfl fun v hv => hmapped v (by omega)
  rw [physStop, pgSize, trapframeVpn] at hle
  omega

end PageInv

open PageInv in
/-- `uvmcopy` of the table `u` to a table `t` without user pages. It does not panic. The parent's
table and memory are unchanged. If it returns 0, every page below `PGROUNDUP(sz)` is mapped in the
child with the flags and the contents of the parent's, in a frame that was free and has now no other
place; and after any stores through the two tables what is seen through each is what was stored
through it. If it returns -1, no user page of the child is mapped. -/
theorem uvmcopy_isolates {K u t sz : ℕ} {s : VmState} {tabs : PageMaps} {held : List ℕ}
    {U T : PageMap} (inv : PageInv K s tabs held) (hU : tabs u = some U) (hT : tabs t = some T)
    (hne : u ≠ t)
    (hfresh : ∀ v < trapframeVpn, T.leaf v = none)
    (hmapped : ∀ va < sz, (s.entry U.root va).isSome = true) :
    ∃ ok s', s.uvmcopy U.root T.root sz = .ok (ok, s') ∧
      (∀ va, s'.entry U.root va = s.entry U.root va) ∧
      (∀ p, ((∃ path, Owns s tabs held (.node u path) p) ∨ ∃ v, Owns s tabs held (.page u v) p) →
        s'.mem p = s.mem p) ∧
      (ok = true →
        (∃ T', T'.root = T.root ∧ PageInv K s' (update tabs t (some T')) held ∧
          ∀ va < pgRoundUp sz, ∃ e f, s.entry U.root va = some e ∧ s'.entry T.root va = some f ∧
            f.flags = e.flags ∧ s'.mem f.ppn = s.mem e.ppn ∧ f.ppn ∈ s.freelist ∧
            ∀ k, Owns s' (update tabs t (some T')) held k f.ppn → k = .page t (va / pgSize)) ∧
        ∀ ws, (s'.stores U.root T.root ws).peek U.root =
            UserMemory.writes (s.peek U.root) false ws ∧
          (s'.stores U.root T.root ws).peek T.root =
            UserMemory.writes (s'.peek T.root) true ws) ∧
      (ok = false → PageInv K s' tabs held ∧
        ∀ va, va / pgSize < trapframeVpn → s'.entry T.root va = none) := by
  have hleaf (v : ℕ) (hv : v < npages sz) : (U.leaf v).isSome = true := by
    have hlt : v * pgSize < sz := by
      rw [npages, pgSize] at hv
      rw [pgSize]
      omega
    have hsome := hmapped (v * pgSize) hlt
    rwa [inv.entry_eq hU, Nat.mul_div_cancel _ pgSize_pos] at hsome
  have hle := inv.npages_le_of_mapped hU hleaf
  have hupto : Upto T 0 := ⟨Nat.zero_le _, fun v hv => absurd hv (Nat.not_lt_zero v), fun v _ hv =>
    hfresh v hv⟩
  -- what the two ends have in common
  have hparent (s' : VmState) (hkept : Kept tabs held t s s') (p : ℕ)
      (hp : (∃ path, Owns s tabs held (.node u path) p) ∨ ∃ v, Owns s tabs held (.page u v) p) :
          s'.mem p = s.mem p := by
    rcases hp with ⟨path, hown⟩ | ⟨v, hown⟩
    · exact hkept.mem p (.inr ⟨.node u path, hne, hown⟩)
    · exact hkept.mem p (.inr ⟨.page u v, hne, hown⟩)
  rcases uvmcopy_fills hU hne hT hupto inv hle hleaf
    with ⟨s', hs', inv', hkept⟩ | ⟨s', Tb, hs', hfill⟩
  · refine ⟨false, s', hs', fun va => ?_, hparent s' hkept, fun h => Bool.noConfusion h,
      fun _ => ⟨inv', fun va hva => ?_⟩⟩
    · rw [inv'.entry_eq hU, inv.entry_eq hU]
    · rw [inv'.entry_eq hT, hfresh _ hva]
  · have hkept := hfill.fixed.toKept
    have hU' : update tabs t (some Tb) u = some U := by rw [update_of_ne hne, hU]
    have hT' : update tabs t (some Tb) t = some Tb := update_self ..
    have hentry (va : ℕ) : s'.entry U.root va = s.entry U.root va := by
      rw [hfill.inv.entry_eq hU', inv.entry_eq hU]
    have hpeek : s'.peek U.root = s.peek U.root := by
      funext va
      have haddr : s'.userAddr U.root va = s.userAddr U.root va := by
        rw [VmState.userAddr, VmState.userAddr, hentry]
      rw [peek, peek, haddr]
      cases h : s.userAddr U.root va with
      | none => rfl
      | some pa =>
        have hown := (inv.owns_userAddr hU h).1
        rw [Option.map_some, Option.map_some, byte, byte, hparent s' hkept _ (.inr ⟨_, hown⟩)]
    refine ⟨true, s', hs', hentry, hparent s' hkept,
      fun _ => ⟨⟨Tb, hfill.grown.root, hfill.inv, fun va hva => ?_⟩, fun ws => ?_⟩,
      fun h => Bool.noConfusion h⟩
    · rw [pgRoundUp_eq hle, ← Nat.div_lt_iff_lt_mul pgSize_pos] at hva
      obtain ⟨e, he⟩ := Option.isSome_iff_exists.mp (hleaf _ hva)
      obtain ⟨p, hp, hpage, hmem⟩ := hfill.pages _ (Nat.zero_le _) hva
      have hflags : U.flags (va / pgSize) = e.flags := by
        rw [PageMap.flags, he]
        rfl
      have hframe : U.frame (va / pgSize) = e.ppn := by
        rw [PageMap.frame, he]
        rfl
      refine ⟨e, ⟨p, U.flags (va / pgSize)⟩, ?_, ?_, hflags, ?_, hp, fun k hk => ?_⟩
      · rw [inv.entry_eq hU, he]
      · rw [← hfill.grown.root, hfill.inv.entry_eq hT', hpage]
      · rw [hmem, hframe]
      · exact hfill.inv.exact.unique p k _ hk ⟨by omega, Tb, _, hT', hpage, rfl⟩
    · have hprivate := hfill.inv.stores_private hU' hT' hne ws
      rw [hfill.grown.root, hpeek] at hprivate
      exact hprivate

/-- A parent with two pages, the second one in part, and a child that has just been made. -/
def forkTables : List VmEvent :=
  [.kalloc, .procPagetable 0 0x87fff, .uvmalloc 0 5000 Pte.flagW, .kalloc, .procPagetable 1 0x87ff7]

theorem uvmcopy_isolates_forkTables :
    ∃ s s', Trace.exec VmSys.step
        (.boot (physStop - 16 * pgSize) 0x80006 (fun _ => false) fun _ _ => .zero) forkTables =
          some s ∧
      s.vm.uvmcopy 0x87ffe 0x87ff6 5000 = .ok (true, s') ∧
      ∃ e f, s.vm.entry 0x87ffe 4999 = some e ∧ s'.entry 0x87ff6 4999 = some f ∧
        s'.mem f.ppn = s.vm.mem e.ppn := by
  obtain ⟨s, run, hs⟩ : ∃ s, Trace.exec VmSys.step
        (.boot (physStop - 16 * pgSize) 0x80006 (fun _ => false) fun _ _ => .zero) forkTables =
          some s ∧
      (s.tables 0 = some ⟨0x87ffe, 5000, true⟩ ∧ s.tables 1 = some ⟨0x87ff6, 0, true⟩ ∧
        ((s.vm.uvmcopy 0x87ffe 0x87ff6 5000).toOption.any (·.1)) = true : Bool) = true :=
    (Option.any_eq_true ..).mp (by decide +kernel)
  rw [decide_eq_true_eq] at hs
  obtain ⟨hparent, hchild, hok⟩ := hs
  obtain ⟨-, tabs, inv, hm⟩ : VmSys.SysInv (physStop - 16 * pgSize) s :=
    Trace.always (fun _ _ _ h => h.step) (VmSys.sysInv_boot ..) run
  obtain ⟨U, hU, hfitsU⟩ := hm.some 0 _ hparent
  obtain ⟨T, hT, hfitsT⟩ := hm.some 1 _ hchild
  have hmapped (va : ℕ) (hva : va < 5000) : (s.vm.entry U.root va).isSome = true := by
    rw [inv.entry_eq hU]
    refine hfitsU.upto.mapped _ ?_
    show va / pgSize < npages 5000
    rw [npages, pgSize]
    omega
  obtain ⟨ok, s', hs', -, -, hcopied, -⟩ := uvmcopy_isolates inv hU hT (by decide)
    (fun v hv => hfitsT.upto.unmapped v (Nat.zero_le v) hv) hmapped
  rw [hfitsU.root, hfitsT.root] at hs' hcopied
  rw [hs'] at hok
  obtain ⟨⟨T', -, -, hpages⟩, -⟩ := hcopied hok
  obtain ⟨e, f, he, hf, -, hmem, -⟩ := hpages 4999 (by decide)
  obtain rfl : ok = true := hok
  exact ⟨s, s', run, hs', e, f, he, hf, hmem⟩

end NeulaCpu.Xv6

import NeulaCpu.Xv6.Freewalk

/-!
# What the page table functions do to the maps

For each function of `vm.c` and for `proc_pagetable` and `proc_freepagetable`: on a memory that
holds page tables it does not panic, the memory then holds the tables with the change the function
is for, or the same tables if the function fails, and the pages are accounted for.
-/

namespace NeulaCpu.Xv6

open Forest Ownership VmState Function

namespace Pte

/-- A user page can be read. -/
theorem rwx_user (f : BitVec 10) (p : ℕ) :
    (⟨p, flagR ||| flagU ||| f ||| flagV⟩ : Pte).rwx = true := by
  simp only [rwx, flagV, flagR, flagU, flagW, flagX, bne_iff_ne, ne_eq]
  intro h
  have hbit := congrArg (fun b : BitVec 10 => b.getLsbD 1) h
  simp at hbit

/-- The flags of a leaf, copied. -/
theorem rwx_copy {e : Pte} (he : e.rwx = true) (p : ℕ) :
    (⟨p, e.flags ||| flagV⟩ : Pte).rwx = true := by
  simp only [rwx, bne_iff_ne, ne_eq] at he ⊢
  intro h
  refine he (BitVec.eq_of_getLsbD_eq fun i _ => ?_)
  have hzero : (0 : BitVec 10).getLsbD i = false := by simp
  have hbit := congrArg (fun b : BitVec 10 => b.getLsbD i) h
  simp only [BitVec.getLsbD_and, BitVec.getLsbD_or] at hbit ⊢
  rw [hzero, Bool.and_eq_false_iff, Bool.or_eq_false_iff] at hbit
  rw [hzero, Bool.and_eq_false_iff]
  exact hbit.imp_left And.left

/-- A valid entry has the valid flag already. -/
theorem or_flagV {e : Pte} (he : e.valid = true) : e.flags ||| flagV = e.flags := by
  rw [valid, bne_iff_ne] at he
  generalize e.flags = f at he ⊢
  revert f
  decide +kernel

end Pte

/-! ## Addresses -/

theorem px_zero (v : ℕ) : px 0 (v * pgSize) = vpnIdx v := by
  simp only [px, vpnIdx, pgSize, Fin.ext_iff, Fin.val_ofNat]
  norm_num

theorem px_one (v : ℕ) : px 1 (v * pgSize) = Fin.ofNat 512 (v / 2 ^ 9) := by
  simp only [px, pgSize, Fin.ext_iff, Fin.val_ofNat]
  omega

theorem px_two (v : ℕ) : px 2 (v * pgSize) = Fin.ofNat 512 (v / 2 ^ 18) := by
  simp only [px, pgSize, Fin.ext_iff, Fin.val_ofNat]
  omega

theorem lt_maxVa {v : ℕ} (hv : v < 2 ^ 26) : ¬ maxVa ≤ v * pgSize := by
  rw [maxVa, pgSize]
  omega

/-- The indices that `walk` takes on the way to the last level. -/
def walkDir (va : ℕ) : ℕ → List (Fin 512)
  | 0 => []
  | level + 1 => px (level + 1) va :: walkDir va level

theorem walkDir_two (v : ℕ) : walkDir (v * pgSize) 2 = vpnDir v := by
  rw [walkDir, walkDir, walkDir, px_one, px_two, vpnDir]

/-- The number of pages for a size. -/
def npages (sz : ℕ) : ℕ := (sz + pgSize - 1) / pgSize

theorem npages_mul (n : ℕ) : npages (n * pgSize) = n := by
  rw [npages, pgSize]
  omega

theorem npages_mono {sz sz' : ℕ} (h : sz ≤ sz') : npages sz ≤ npages sz' :=
  Nat.div_le_div_right (by omega)

/-- No overflow for the sizes that a table can have. -/
theorem pgRoundUp_eq {sz : ℕ} (h : npages sz ≤ trapframeVpn) :
    pgRoundUp sz = npages sz * pgSize := by
  rw [npages, pgSize, trapframeVpn] at h
  have hlt : sz + 4096 - 1 < 2 ^ 64 := by omega
  rw [pgRoundUp, npages, pgSize, Nat.mod_eq_of_lt hlt]

/-- The flags and the frame of a page that is mapped. -/
def PageMap.flags (T : PageMap) (v : ℕ) : BitVec 10 := (T.leaf v).elim 0 Pte.flags

def PageMap.frame (T : PageMap) (v : ℕ) : ℕ := (T.leaf v).elim 0 Pte.ppn

/-- The map without the `n` pages from `v` on. -/
def PageMap.cut (T : PageMap) (v n : ℕ) : PageMap :=
  { T with leaf := fun w => if v ≤ w ∧ w < v + n then none else T.leaf w }

namespace PageMaps

/-- Table `t` without the `n` pages from `v` on. -/
def clear (tabs : PageMaps) (t v n : ℕ) : PageMaps :=
  update tabs t ((tabs t).map fun T => T.cut v n)

variable {tabs : PageMaps} {t v n : ℕ} {T : PageMap}

theorem clear_zero : tabs.clear t v 0 = tabs := by
  have hsame : ((tabs t).map fun T => T.cut v 0) = tabs t := by
    cases tabs t with
    | none => rfl
    | some T =>
      have hleaf : (fun w => if v ≤ w ∧ w < v + 0 then none else T.leaf w) = T.leaf := by
        funext w
        rw [if_neg (by omega)]
      rw [Option.map_some, PageMap.cut, hleaf]
  rw [clear, hsame, update_eq_self]

theorem clear_succ : tabs.clear t v (n + 1) = (tabs.set t v none).clear t (v + 1) n := by
  unfold clear set
  rw [update_idem, update_self, Option.map_map]
  congr 2
  funext T
  simp only [Function.comp_apply, PageMap.cut, PageMap.mk.injEq, true_and]
  funext w
  simp only [update_apply]
  by_cases hw : w = v
  · rw [if_pos (by omega), if_pos hw, ite_self]
  · rw [if_neg hw]
    congr 1
    exact propext (by omega)

theorem set_update {o : Option Pte} :
    set (update tabs t (some T)) t v o =
      update tabs t (some { T with leaf := update T.leaf v o }) := by
  unfold set
  rw [update_idem, update_self]
  rfl

theorem clear_update : clear (update tabs t (some T)) t v n = update tabs t (some (T.cut v n)) := by
  unfold clear
  rw [update_idem, update_self]
  rfl

end PageMaps

namespace PageInv

variable {K : ℕ} {s : VmState} {tabs : PageMaps} {held : List ℕ} {t v n p : ℕ} {T : PageMap}
  {e : Pte}

/-! ## walk -/

theorem walkFrom_find (va level pt : ℕ) :
    walkFrom false va level pt s =
      ((follow (child s.mem) pt (walkDir va level)).map fun n => (n, px 0 va), s) := by
  induction level generalizing pt with
  | zero => rfl
  | succ level ih =>
    rw [walkFrom, walkDir, follow_cons, child]
    by_cases hvalid : (s.mem pt (px (level + 1) va)).valid = true
    · simp only [hvalid, if_true, ih, Option.bind_some]
    · simp only [hvalid, if_false, Bool.not_false, if_true, Option.bind_none, Option.map_none,
        Bool.false_eq_true]

/-- `walk` without allocation looks the entry up. -/
theorem walk_find (root : ℕ) (hv : v < 2 ^ 26) :
    s.walk root (v * pgSize) false =
      .ok ((follow (child s.mem) root (vpnDir v)).map fun n => (n, vpnIdx v), s) := by
  rw [walk, if_neg (lt_maxVa hv), walkFrom_find, walkDir_two, px_zero]

/-- Nodes may have been added to the table. -/
structure Paved (tabs : PageMaps) (held : List ℕ) (t : ℕ) (T : PageMap) (s s' : VmState) : Prop
    extends Fixed tabs held t T s s' where
  free : s'.freelist ⊆ s.freelist

theorem Paved.refl (tabs : PageMaps) (held : List ℕ) (t : ℕ) (T : PageMap) (s : VmState) :
    Paved tabs held t T s s :=
  ⟨.refl .., List.Subset.refl _⟩

theorem Paved.trans {s' s'' : VmState} (h : Paved tabs held t T s s')
    (h' : Paved tabs held t T s' s'') : Paved tabs held t T s s'' :=
  ⟨h.toFixed.trans h'.toFixed, List.Subset.trans h'.free h.free⟩

section NewNode

/-! A page `p` of the free list becomes the child `x` of the node `pt` at `path`, as `walk` does
it. -/

variable {pt : ℕ} {path : List (Fin 512)} {x : Fin 512} {s₁ : VmState} {content : Fin 512 → Pte}
  (inv : PageInv K s tabs held) (hT : tabs t = some T) (hlen : path.length ≤ 1)
  (hpt : follow (child s.mem) T.root path = some pt) (hx : child s.mem pt x = none)
  (hl : s.freelist = p :: s₁.freelist) (inv₁ : PageInv K s₁ tabs (p :: held))
  (hmem : s₁.mem = (s.setPage p content).mem)

include inv hT hlen hpt hl inv₁ hmem

theorem newNode_paved :
    Paved tabs held t T s ((s₁.setPage p fun _ => .zero).setPte pt x ⟨p, Pte.flagV⟩) := by
  refine ⟨.of_writes inv hT (fun q => q = p ∨ q = pt) (fun q hq => ?_) (fun q hq => ?_)
    (inv₁.kend.trans inv.kend.symm), ?_⟩
  · rcases hq with rfl | rfl
    · exact .inl (hl ▸ List.mem_cons_self)
    · exact .inr ⟨path, by omega, hpt⟩
  · rw [not_or] at hq
    rw [mem_setPte, if_neg hq.2, mem_setPage, update_of_ne hq.1, hmem, mem_setPage,
      update_of_ne hq.1]
  · rw [hl]
    exact List.subset_cons_self ..

include hx

theorem newNode : PageInv K ((s₁.setPage p fun _ => .zero).setPte pt x ⟨p, Pte.flagV⟩) tabs held ∧
    follow (child ((s₁.setPage p fun _ => .zero).setPte pt x ⟨p, Pte.flagV⟩).mem) T.root
      (path ++ [x]) = some p := by
  have hp : p ∈ s.freelist := hl ▸ List.mem_cons_self
  have inv₂ := inv₁.setPage_held (fun _ => .zero) List.mem_cons_self
  have hsame : (s₁.setPage p fun _ => .zero).mem = (s.setPage p fun _ => .zero).mem := by
    rw [VmState.setPage, hmem]
    simp only [VmState.setPage, update_idem]
  have hnode {q : List (Fin 512)} (hq : q.length ≤ 2) : follow (child s.mem) T.root q ≠ some p :=
    inv.not_node (k := .free) hp (fun _ _ h => Place.noConfusion h) hT hq
  have hne : pt ≠ p := by
    rintro rfl
    exact hnode (by omega) hpt
  have hpt₂ : follow (child (s₁.setPage p fun _ => .zero).mem) T.root path = some pt := by
    rw [hsame, follow_setPage fun r hr => hnode (by omega), hpt]
  have hx₂ : child (s₁.setPage p fun _ => .zero).mem pt x = none := by
    rw [child, hsame, mem_setPage, update_of_ne hne]
    exact hx
  have hzero (i : Fin 512) : (s₁.setPage p fun _ => .zero).mem p i = .zero := by
    simp only [VmState.setPage, update_self]
  have inv₃ := inv₂.linkNode hT hlen hpt₂ hx₂ List.mem_cons_self hzero
  rw [List.erase_cons_head] at inv₃
  refine ⟨inv₃, ?_⟩
  rw [inv₂.follow_link hT hlen hpt₂ hx₂ List.mem_cons_self hzero hT (by simp; omega),
    if_pos ⟨rfl, rfl⟩]

end NewNode

/-- The loop of `walk`, from the node at `path` on. -/
theorem walkFrom_alloc (inv : PageInv K s tabs held) (hT : tabs t = some T) (va level : ℕ) {pt : ℕ}
    (path : List (Fin 512)) (hlen : path.length + level = 2)
    (hpt : follow (child s.mem) T.root path = some pt) :
    ∃ o s', walkFrom true va level pt s = (o.map fun n => (n, px 0 va), s') ∧
      PageInv K s' tabs held ∧ Paved tabs held t T s s' ∧
        ∀ n, o = some n → follow (child s'.mem) T.root (path ++ walkDir va level) = some n := by
  induction level generalizing s pt path with
  | zero =>
    refine ⟨some pt, s, rfl, inv, .refl .., fun n hn => ?_⟩
    rw [walkDir, List.append_nil, ← hn]
    exact hpt
  | succ level ih =>
    have hpath (x : Fin 512) : (path ++ [x]).length + level = 2 := by
      rw [List.length_append, List.length_singleton]
      omega
    have happend (x : Fin 512) : path ++ x :: walkDir va level =
        path ++ [x] ++ walkDir va level := by simp
    rw [walkFrom, walkDir, happend]
    by_cases hvalid : (s.mem pt (px (level + 1) va)).valid = true
    · simp only [hvalid, if_true]
      refine ih inv _ (hpath _) ?_
      rw [follow_concat, hpt, Option.bind_some, child, if_pos hvalid]
    · have hx : child s.mem pt (px (level + 1) va) = none := by rw [child, if_neg hvalid]
      simp only [hvalid, if_false, Bool.not_true, Bool.false_eq_true]
      rcases inv.kalloc_spec with ⟨s₁, hs₁, inv₁, hmem₁, hl₁⟩ | ⟨p, s₁, hs₁, inv₁, hl, c, hmem⟩
      · refine ⟨none, s₁, by rw [hs₁]; rfl, inv₁, ⟨?_, hl₁ ▸ List.Subset.refl _⟩,
          fun n hn => by cases hn⟩
        exact (Fixed.refl tabs held t T s).of_mem hmem₁ (inv₁.kend.trans inv.kend.symm)
      · -- a new node: its page is zeroed, then linked
        obtain ⟨inv₃, hself⟩ := newNode inv hT (by omega) hpt hx hl inv₁ hmem
        have hpaved := newNode_paved (x := px (level + 1) va) inv hT (by omega) hpt hl inv₁ hmem
        obtain ⟨o, s', hs', inv', hpaved', ho⟩ := ih inv₃ _ (hpath _) hself
        rw [hs₁]
        exact ⟨o, s', hs', inv', hpaved.trans hpaved', ho⟩

/-- `walk` with allocation may add nodes to the table, and the maps stay as they are. -/
theorem walk_alloc (inv : PageInv K s tabs held) (hT : tabs t = some T) (hv : v < 2 ^ 26) :
    ∃ o s', s.walk T.root (v * pgSize) true = .ok (o.map fun n => (n, vpnIdx v), s') ∧
      PageInv K s' tabs held ∧ Paved tabs held t T s s' ∧
        ∀ n, o = some n → follow (child s'.mem) T.root (vpnDir v) = some n := by
  obtain ⟨o, s', hs', h⟩ := inv.walkFrom_alloc hT (v * pgSize) 2 [] rfl rfl
  rw [List.nil_append, walkDir_two] at h
  refine ⟨o, s', ?_, h⟩
  rw [walk, if_neg (lt_maxVa hv), hs', px_zero]

/-! ## mappages -/

theorem pgRoundDown_mul (v : ℕ) : pgRoundDown (v * pgSize) = v * pgSize := by
  rw [pgRoundDown, pgSize]
  omega

section

variable (inv : PageInv K s tabs held) (hT : tabs t = some T)

include inv hT

/-- `mappages` of one page whose address is not mapped: out of memory for a node, or the entry is
written. -/
theorem mappages_one (hv : v < 2 ^ 26) (hnone : T.leaf v = none) (perm : BitVec 10) :
    (∃ s', s.mappages T.root (v * pgSize) pgSize p perm = .ok (false, s') ∧ PageInv K s' tabs held ∧
      Paved tabs held t T s s') ∨
    ∃ s' n, s.mappages T.root (v * pgSize) pgSize p perm =
        .ok (true, s'.setPte n (vpnIdx v) ⟨p, perm ||| Pte.flagV⟩) ∧
      PageInv K s' tabs held ∧ follow (child s'.mem) T.root (vpnDir v) = some n ∧
      Paved tabs held t T s (s'.setPte n (vpnIdx v) ⟨p, perm ||| Pte.flagV⟩) := by
  have hcount :
      (pgRoundDown (v * pgSize + pgSize - 1) - pgRoundDown (v * pgSize)) / pgSize = 0 := by
    rw [pgRoundDown, pgRoundDown, pgSize]
    omega
  have hsize : pgSize ≠ 0 := by decide
  rw [mappages, if_neg hsize, hcount, pgRoundDown_mul, mapLoop]
  obtain ⟨o, s', hwalk, inv', hpaved, ho⟩ := inv.walk_alloc hT hv
  rw [hwalk]
  cases o with
  | none => exact .inl ⟨s', rfl, inv', hpaved⟩
  | some n =>
    have hn := ho n rfl
    have hfree : (s'.mem n (vpnIdx v)).valid = false := by
      have hleaf := inv'.leaf t T v hT (by omega)
      rw [hnone, leafPte, hn, Option.bind_some] at hleaf
      split_ifs at hleaf with hvalid
      exact Bool.eq_false_iff.mpr hvalid
    refine .inr ⟨s', n, ?_, inv', hn, hpaved.trans ⟨?_, List.Subset.refl _⟩⟩
    · simp only [bind, Except.bind, Option.map_some, hfree, Bool.false_eq_true, if_false]
      rfl
    · refine .of_writes inv' hT (· = n) (fun q hq => ?_) (fun q hq => ?_) rfl
      · exact .inr ⟨vpnDir v, (length_vpnDir v).le, hq ▸ hn⟩
      · rw [mem_setPte, if_neg hq]

/-- `mappages` of a page of the caller at a user address. -/
theorem mappages_user (hv : v < trapframeVpn)
    (hnone : T.leaf v = none) (hp : p ∈ held) {perm : BitVec 10}
    (hrwx : (⟨p, perm ||| Pte.flagV⟩ : Pte).rwx = true) :
    ∃ ok s', s.mappages T.root (v * pgSize) pgSize p perm = .ok (ok, s') ∧
      Paved tabs held t T s s' ∧
      if ok then PageInv K s' (tabs.set t v (some ⟨p, perm ||| Pte.flagV⟩)) (held.erase p)
        else PageInv K s' tabs held := by
  have hv' : v < 2 ^ 26 := by rw [trapframeVpn] at hv; omega
  rcases inv.mappages_one hT hv' hnone perm (p := p) with
    ⟨s', hs', inv', hpaved⟩ | ⟨s', n, hs', inv', hn, hpaved⟩
  · exact ⟨false, s', hs', hpaved, inv'⟩
  · exact ⟨true, _, hs', hpaved, inv'.mapUser hT hn hv hnone hp (Pte.valid_or_flagV p perm) hrwx⟩

/-- `mappages` of a page at `TRAPFRAME` or above. -/
theorem mappages_lent (hv : trapframeVpn ≤ v) (hv' : v < 2 ^ 26)
    (hnone : T.leaf v = none) {perm : BitVec 10}
    (hrwx : (⟨p, perm ||| Pte.flagV⟩ : Pte).rwx = true) :
    ∃ ok s', s.mappages T.root (v * pgSize) pgSize p perm = .ok (ok, s') ∧
      if ok then PageInv K s' (tabs.set t v (some ⟨p, perm ||| Pte.flagV⟩)) held
        else PageInv K s' tabs held := by
  rcases inv.mappages_one hT hv' hnone perm (p := p) with
    ⟨s', hs', inv', _⟩ | ⟨s', n, hs', inv', hn, _⟩
  · exact ⟨false, s', hs', inv'⟩
  · exact ⟨true, _, hs', inv'.mapLent hT hn hv hv' (Pte.valid_or_flagV p perm) hrwx⟩

end

/-- A page of the free list is filled with `content` and mapped at `v`, where nothing was mapped. -/
structure Added (K : ℕ) (tabs : PageMaps) (held : List ℕ) (t : ℕ) (T : PageMap) (v : ℕ) (e : Pte)
    (content : Fin 512 → Pte) (s s' : VmState) : Prop extends Paved tabs held t T s s' where
  inv : PageInv K s' (tabs.set t v (some e)) held
  page : e.ppn ∈ s.freelist
  content : s'.mem e.ppn = content

/-- A round of `uvmalloc` or `uvmcopy`: no page, or no node and the page is freed, or the page is
mapped. -/
theorem addPage (inv : PageInv K s tabs held) (hT : tabs t = some T) (hv : v < trapframeVpn)
    (hnone : T.leaf v = none) {perm : BitVec 10}
    (hrwx : ∀ p, (⟨p, perm ||| Pte.flagV⟩ : Pte).rwx = true) (content : VmState → Fin 512 → Pte) :
    (∃ s', PageInv K s' tabs held ∧ Fixed tabs held t T s s' ∧
      (s.kalloc = (none, s') ∨ ∃ p s₁ s₂, s.kalloc = (some p, s₁) ∧
        (s₁.setPage p (content s₁)).mappages T.root (v * pgSize) pgSize p perm = .ok (false, s₂) ∧
        s₂.kfree p = .ok s')) ∨
    ∃ p s₁ s', s.kalloc = (some p, s₁) ∧
      (s₁.setPage p (content s₁)).mappages T.root (v * pgSize) pgSize p perm = .ok (true, s') ∧
      Added K tabs held t T v ⟨p, perm ||| Pte.flagV⟩ (content s₁) s s' ∧
        ∀ q ≠ p, s₁.mem q = s.mem q := by
  rcases inv.kalloc_spec with ⟨s₁, hs₁, inv₁, hmem₁, _⟩ | ⟨p, s₁, hs₁, inv₁, hl, c, hmem⟩
  · refine .inl ⟨s₁, inv₁, ?_, .inl hs₁⟩
    exact (Fixed.refl tabs held t T s).of_mem hmem₁ (inv₁.kend.trans inv.kend.symm)
  have hp : p ∈ s.freelist := hl ▸ List.mem_cons_self
  have hsame (q : ℕ) (hq : q ≠ p) : s₁.mem q = s.mem q := by
    rw [hmem]
    exact update_of_ne hq ..
  have inv₂ := inv₁.setPage_held (content s₁) List.mem_cons_self
  have hcontent : (s₁.setPage p (content s₁)).mem p = content s₁ := update_self ..
  have hpaved : Paved tabs held t T s (s₁.setPage p (content s₁)) := by
    refine ⟨.of_writes inv hT (· = p) (fun q hq => .inl (hq ▸ hp)) (fun q hq => ?_)
      (inv₂.kend.trans inv.kend.symm), ?_⟩
    · exact (update_of_ne hq ..).trans (hsame q hq)
    · rw [hl]
      exact List.subset_cons_self ..
  obtain ⟨ok, s₃, hs₃, hpaved₃, hok⟩ := inv₂.mappages_user hT hv hnone List.mem_cons_self (hrwx p)
  have hfixed₃ := hpaved₃.toFixed.mono fun q hq => List.mem_cons_of_mem p hq
  cases ok with
  | false =>
    have inv₃ : PageInv K s₃ tabs (p :: held) := hok
    obtain ⟨s₄, hs₄, inv₄⟩ := inv₃.kfree List.mem_cons_self
    rw [List.erase_cons_head] at inv₄
    refine .inl ⟨s₄, inv₄, (hpaved.toFixed.trans hfixed₃).trans ?_, .inr ⟨p, s₁, s₃, hs₁, hs₃, hs₄⟩⟩
    exact .of_held inv₃ hT (fun q hq => kfree_mem hs₄ hq) (kfree_kend hs₄)
  | true =>
    have inv₃ : PageInv K s₃ (tabs.set t v (some ⟨p, perm ||| Pte.flagV⟩)) ((p :: held).erase p) :=
      hok
    rw [List.erase_cons_head] at inv₃
    refine .inr ⟨p, s₁, s₃, hs₁, hs₃, ⟨hpaved.trans ⟨hfixed₃, hpaved₃.free⟩, inv₃, hp, ?_⟩, hsame⟩
    -- the page was the caller's
    have hheld : Foreign (s₁.setPage p (content s₁)) tabs (p :: held) t p :=
      .inr ⟨.held, trivial, List.mem_cons_self⟩
    exact (hpaved₃.mem p hheld).trans hcontent

/-! ## uvmunmap -/

theorem rwx_ne_flagV (he : e.rwx = true) : e.flags ≠ Pte.flagV := by
  intro h
  have hr := Pte.rwx_flagV e.ppn
  rw [← h] at hr
  exact Bool.noConfusion (he.symm.trans hr)

/-- `kfree` of the page and clearing of the entry of another page can be done in either order. -/
theorem kfree_setPte {k : Fin 512} (hne : n ≠ p) :
    (s.kfree p).map (fun s' => s'.setPte n k e) = (s.setPte n k e).kfree p := by
  unfold VmState.kfree
  have hkend : (s.setPte n k e).kend = s.kend := rfl
  rw [hkend]
  split_ifs
  · rfl
  · simp only [Except.map, setPte, VmState.setPage, update_of_ne hne, update_comm hne]

/-- The nodes of the tables are where they were. -/
def SameTrees (tabs : PageMaps) (s s' : VmState) : Prop :=
  ∀ t T path, tabs t = some T → path.length ≤ 2 →
    follow (child s'.mem) T.root path = follow (child s.mem) T.root path

theorem SameTrees.of_set {s' : VmState} {o : Option Pte} (h : SameTrees (tabs.set t v o) s s') :
    SameTrees tabs s s' := fun t' T' path hT' hlen => by
  obtain ⟨T'', hT'', hroot, _⟩ := PageMaps.to_set (o := o) (t := t) (v := v) hT'
  rw [← hroot]
  exact h t' T'' path hT'' hlen

theorem SameTrees.trans {s' s'' : VmState} (h : SameTrees tabs s s') (h' : SameTrees tabs s' s'') :
    SameTrees tabs s s'' := fun t T path hT hlen => (h' t T path hT hlen).trans (h t T path hT hlen)

/-- `kfree` of a page of the caller. -/
theorem kfree_sameTrees (inv : PageInv K s tabs held) (hp : p ∈ held) {s' : VmState}
    (hs' : s.kfree p = .ok s') : SameTrees tabs s s' ∧ s'.freelist = p :: s.freelist := by
  unfold VmState.kfree at hs'
  split_ifs at hs'
  rw [← Except.ok.inj hs']
  refine ⟨fun t T path hT hlen => follow_setPage fun q hq => ?_, rfl⟩
  exact inv.not_node (k := .held) hp (fun _ _ h => Place.noConfusion h) hT (by omega)

section

variable (inv : PageInv K s tabs held) (hT : tabs t = some T)

include inv hT

/-- A round of `uvmunmap` on a user page: the page is free and the address not mapped. -/
theorem unmapLoop_user (hv : v < trapframeVpn) (he : T.leaf v = some e) (left : ℕ) :
    ∃ s', unmapLoop T.root true (left + 1) (v * pgSize) s =
        unmapLoop T.root true left ((v + 1) * pgSize) s' ∧
      PageInv K s' (tabs.set t v none) held ∧ s'.freelist = e.ppn :: s.freelist ∧
      SameTrees tabs s s' ∧ Kept tabs held t s s' := by
  have hv' : v < 2 ^ 26 := by rw [trapframeVpn] at hv; omega
  obtain ⟨n, hn, hentry, hvalid⟩ := inv.exists_entry hT he
  have hne : n ≠ e.ppn := fun h =>
    inv.not_node (k := .page t v) ⟨hv, T, e, hT, he, rfl⟩ (fun _ _ h => Place.noConfusion h) hT
      (length_vpnDir v).le (h ▸ hn)
  have inv₁ := inv.unmapUser hT hn hv he
  obtain ⟨s', hs', inv'⟩ := inv₁.kfree List.mem_cons_self
  rw [List.erase_cons_head] at inv'
  have hcomm := kfree_setPte (s := s) (e := .zero) (k := vpnIdx v) hne
  rw [hs'] at hcomm
  obtain ⟨s₁, hs₁, heq⟩ : ∃ s₁, s.kfree e.ppn = .ok s₁ ∧ s₁.setPte n (vpnIdx v) .zero = s' := by
    cases hk : s.kfree e.ppn with
    | error x => rw [hk] at hcomm; cases hcomm
    | ok s₁ => rw [hk] at hcomm; exact ⟨s₁, rfl, Except.ok.inj hcomm⟩
  obtain ⟨htrees, hfree⟩ := inv₁.kfree_sameTrees List.mem_cons_self hs'
  refine ⟨s', ?_, inv', hfree, ?_, ?_⟩
  · rw [unmapLoop, walk_find T.root hv', hn]
    simp only [bind, Except.bind, Option.map_some, hentry, hvalid, Bool.not_true,
      Bool.false_eq_true, if_false, rwx_ne_flagV (inv.perm t T v e hT he), if_true, hs₁, heq,
      Nat.succ_mul]
  · exact SameTrees.trans (fun t' T' path hT' hlen => inv.follow_entry hT hn hT' hlen) htrees.of_set
  · refine .of_writes (fun q => q = n ∨ q = e.ppn) (fun q hq => ?_) (fun q hq => ?_)
      (inv'.kend.trans inv.kend.symm)
    · rcases hq with rfl | rfl
      · exact inv.not_foreign (k := .node t (vpnDir v)) ⟨(length_vpnDir v).le, T, hT, hn⟩ fun hne =>
          hne rfl
      · exact inv.not_foreign (k := .page t v) ⟨hv, T, e, hT, he, rfl⟩ fun hne => hne rfl
    · rw [not_or] at hq
      rw [kfree_mem hs' hq.2, mem_setPte, if_neg hq.1]

/-- `uvmunmap` of user pages that are all mapped. -/
theorem unmapLoop_clear (left : ℕ) (hlt : v + left ≤ trapframeVpn)
    (hmapped : ∀ w, v ≤ w → w < v + left → (T.leaf w).isSome = true) :
    ∃ s', unmapLoop T.root true left (v * pgSize) s = .ok s' ∧
      PageInv K s' (tabs.clear t v left) held ∧ s.freelist <:+ s'.freelist ∧
      SameTrees tabs s s' ∧ Kept tabs held t s s' ∧
      ∀ w e, v ≤ w → w < v + left → T.leaf w = some e → e.ppn ∈ s'.freelist := by
  induction left generalizing s tabs T v with
  | zero =>
    refine ⟨s, rfl, ?_, List.suffix_rfl, fun _ _ _ _ _ => rfl, .refl .., fun w e h1 h2 => by omega⟩
    rw [PageMaps.clear_zero]
    exact inv
  | succ left ih =>
    obtain ⟨e, he⟩ := Option.isSome_iff_exists.mp (hmapped v le_rfl (by omega))
    obtain ⟨s₁, hs₁, inv₁, hfree₁, htrees₁, hkept₁⟩ := inv.unmapLoop_user hT (by omega) he left
    have hleaf (w : ℕ) (hw : v < w) : update T.leaf v none w = T.leaf w :=
      update_of_ne (by omega) ..
    obtain ⟨s', hs', inv', hsuffix, htrees, hkept, hpages⟩ :=
      ih inv₁ (PageMaps.set_self hT) (v := v + 1) (by omega) fun w h1 h2 => by
        show (update T.leaf v none w).isSome = true
        rw [hleaf w (by omega)]
        exact hmapped w (by omega) (by omega)
    refine ⟨s', by rw [hs₁, hs'], ?_, ?_, htrees₁.trans htrees.of_set, hkept₁.trans hkept.of_set,
      fun w e' h1 h2 he' => ?_⟩
    · rw [PageMaps.clear_succ]
      exact inv'
    · rw [hfree₁] at hsuffix
      exact (List.suffix_cons e.ppn s.freelist).trans hsuffix
    · rcases Nat.eq_or_lt_of_le h1 with rfl | hlt'
      · rw [he] at he'
        rw [← Option.some.inj he']
        exact hsuffix.subset (by rw [hfree₁]; exact List.mem_cons_self)
      · exact hpages w e' hlt' (by omega) ((hleaf w hlt').trans he')

theorem uvmunmap_clear (hlt : v + n ≤ trapframeVpn)
    (hmapped : ∀ w, v ≤ w → w < v + n → (T.leaf w).isSome = true) :
    ∃ s', s.uvmunmap T.root (v * pgSize) n true = .ok s' ∧ PageInv K s' (tabs.clear t v n) held ∧
      s.freelist <:+ s'.freelist ∧ SameTrees tabs s s' ∧ Kept tabs held t s s' ∧
      ∀ w e, v ≤ w → w < v + n → T.leaf w = some e → e.ppn ∈ s'.freelist := by
  obtain ⟨s', hs', h⟩ := inv.unmapLoop_clear hT n hlt hmapped
  exact ⟨s', by rw [uvmunmap, if_neg (by simp), hs'], h⟩

/-- `uvmunmap` of one page at `TRAPFRAME` or above. -/
theorem uvmunmap_lent (hv : trapframeVpn ≤ v) (hv' : v < 2 ^ 26) (he : T.leaf v = some e) :
    ∃ s', s.uvmunmap T.root (v * pgSize) 1 false = .ok s' ∧ PageInv K s' (tabs.set t v none) held ∧
      SameTrees tabs s s' := by
  obtain ⟨n, hn, hentry, hvalid⟩ := inv.exists_entry hT he
  refine ⟨s.setPte n (vpnIdx v) .zero, ?_, inv.unmapLent hT hn hv hv',
    fun t' T' path hT' hlen => inv.follow_entry hT hn hT' hlen⟩
  rw [uvmunmap, if_neg (by simp), unmapLoop, walk_find T.root hv', hn]
  simp only [bind, Except.bind, Option.map_some, hentry, hvalid, Bool.not_true, Bool.false_eq_true,
    if_false, rwx_ne_flagV (inv.perm t T v e hT he), pure, Except.pure]
  rfl

/-! ## The number of user pages -/

/-- There are at most as many user pages as physical pages. -/
theorem user_le (hn : n ≤ trapframeVpn) (hmapped : ∀ v < n, (T.leaf v).isSome = true) :
    n ≤ physStop / pgSize := by
  have hpage (v : ℕ) (hv : v < n) : Owns s tabs held (.page t v) ((T.leaf v).elim 0 Pte.ppn) := by
    obtain ⟨e, he⟩ := Option.isSome_iff_exists.mp (hmapped v hv)
    exact ⟨by omega, T, e, hT, he, by rw [he]; rfl⟩
  have hlt (v : ℕ) (hv : v < n) : (T.leaf v).elim 0 Pte.ppn < physStop / pgSize := by
    have hrange := inv.inRange (hpage v hv)
    rw [VmState.InRange, not_or, not_le] at hrange
    rw [pgSize, physStop] at hrange ⊢
    omega
  have hcard := Finset.card_le_card_of_injOn (s := Finset.range n)
    (t := Finset.range (physStop / pgSize)) (fun v => (T.leaf v).elim 0 Pte.ppn)
    (fun v hv => Finset.mem_coe.mpr (Finset.mem_range.mpr (hlt v (Finset.mem_range.mp hv))))
    fun v hv w hw hvw => by
      have hw' := hpage w (Finset.mem_range.mp hw)
      simp only at hvw
      rw [← hvw] at hw'
      exact (Place.page.inj (inv.exact.unique _ _ _ (hpage v (Finset.mem_range.mp hv)) hw')).2
  rwa [Finset.card_range, Finset.card_range] at hcard

/-! ## uvmdealloc and uvmalloc -/

/-- `uvmdealloc` takes the pages between the two sizes away. -/
theorem uvmdealloc_clear (oldsz newsz : ℕ) (hle : npages oldsz ≤ trapframeVpn)
    (hmapped : ∀ w, npages newsz ≤ w → w < npages oldsz → (T.leaf w).isSome = true) :
    ∃ s', s.uvmdealloc T.root oldsz newsz = .ok (min oldsz newsz, s') ∧
      PageInv K s' (tabs.clear t (npages newsz) (npages oldsz - npages newsz)) held := by
  unfold uvmdealloc
  split_ifs with hsz hround
  · have hn := npages_mono hsz
    refine ⟨s, by rw [min_eq_left hsz], ?_⟩
    rw [Nat.sub_eq_zero_of_le hn, PageMaps.clear_zero]
    exact inv
  · have hnew : npages newsz ≤ npages oldsz := npages_mono (by omega)
    have hcount : (pgRoundUp oldsz - pgRoundUp newsz) / pgSize = npages oldsz - npages newsz := by
      rw [pgRoundUp_eq hle, pgRoundUp_eq (hnew.trans hle), ← Nat.sub_mul,
        Nat.mul_div_cancel _ (by decide)]
    obtain ⟨s', hs', inv', _⟩ := inv.uvmunmap_clear hT (v := npages newsz)
      (n := npages oldsz - npages newsz) (by omega) fun w h1 h2 => hmapped w h1 (by omega)
    refine ⟨s', ?_, inv'⟩
    rw [hcount, pgRoundUp_eq (hnew.trans hle), hs', min_eq_right (by omega)]
    rfl
  · have hnew : npages newsz ≤ npages oldsz := npages_mono (by omega)
    rw [pgRoundUp_eq hle, pgRoundUp_eq (hnew.trans hle), pgSize] at hround
    refine ⟨s, by rw [min_eq_right (by omega)]; rfl, ?_⟩
    rw [Nat.sub_eq_zero_of_le (by omega), PageMaps.clear_zero]
    exact inv

end

/-- The map `Ta` is `T` with the user pages from `m` to `n` mapped as well. -/
structure Grown (T : PageMap) (m n : ℕ) (Ta : PageMap) : Prop where
  root : Ta.root = T.root
  le : m ≤ n
  inside : ∀ v, m ≤ v → v < n → (Ta.leaf v).isSome = true
  outside : ∀ v, ¬ (m ≤ v ∧ v < n) → Ta.leaf v = T.leaf v

/-- The user pages of the map are exactly those below `n`. -/
structure Upto (T : PageMap) (n : ℕ) : Prop where
  le : n ≤ trapframeVpn
  mapped : ∀ v < n, (T.leaf v).isSome = true
  unmapped : ∀ v, n ≤ v → v < trapframeVpn → T.leaf v = none

theorem Grown.refl (T : PageMap) (m : ℕ) : Grown T m m T :=
  ⟨rfl, le_rfl, fun _ h1 h2 => by omega, fun _ _ => rfl⟩

variable {Ta : PageMap} {m : ℕ}

/-- One more page. -/
theorem Grown.succ (h : Grown T m n Ta) (e : Pte) :
    Grown T m (n + 1) { Ta with leaf := update Ta.leaf n (some e) } where
  root := h.root
  le := by have := h.le; omega
  inside v h1 h2 := by
    simp only [update_apply]
    split_ifs with hv
    · rfl
    · exact h.inside v h1 (by omega)
  outside v hv := by
    have hne : v ≠ n := by have := h.le; omega
    simp only [update_of_ne hne]
    exact h.outside v (by omega)

/-- Taking the new pages away again. -/
theorem Grown.clear (h : Grown T m n Ta) (hT : tabs t = some T)
    (hnone : ∀ v, m ≤ v → v < n → T.leaf v = none) :
    PageMaps.clear (update tabs t (some Ta)) t m (n - m) = tabs := by
  have hle := h.le
  have hleaf : (fun w => if m ≤ w ∧ w < m + (n - m) then none else Ta.leaf w) = T.leaf := by
    funext w
    split_ifs with hw
    · exact (hnone w hw.1 (by omega)).symm
    · exact h.outside w (by omega)
  rw [PageMaps.clear_update, PageMap.cut, hleaf, h.root, ← hT, update_eq_self]

theorem Grown.upto (h : Grown T m n Ta) (hT : Upto T m) (hn : n ≤ trapframeVpn) : Upto Ta n where
  le := hn
  mapped v hv := by
    by_cases hvm : m ≤ v
    · exact h.inside v hvm hv
    · rw [h.outside v (by omega)]
      exact hT.mapped v (by omega)
  unmapped v hv hlt := by
    have hle := h.le
    rw [h.outside v (by omega)]
    exact hT.unmapped v (by omega) hlt

/-- In a table that has grown there is room for one more page below `TRAPFRAME`. -/
theorem Grown.lt (h : Grown T m n Ta) (inv : PageInv K s (update tabs t (some Ta)) held)
    (hT : Upto T m) (hn : n ≤ trapframeVpn) : n < trapframeVpn := by
  have hle := inv.user_le (update_self ..) hn (h.upto hT hn).mapped
  rw [physStop, pgSize] at hle
  rw [trapframeVpn]
  omega

theorem Grown.dealloc (h : Grown T m n Ta) (inv : PageInv K s (update tabs t (some Ta)) held)
    (hT : tabs t = some T) (hupto : Upto T m) (hn : n ≤ trapframeVpn) :
    ∃ r s', s.uvmdealloc T.root (n * pgSize) (m * pgSize) = .ok (r, s') ∧
      PageInv K s' tabs held := by
  obtain ⟨s', hs', inv'⟩ := inv.uvmdealloc_clear (update_self ..) (n * pgSize)
    (m * pgSize) (by rwa [npages_mul]) fun w h1 h2 => by
      rw [npages_mul] at h1 h2
      exact h.inside w h1 h2
  rw [npages_mul, npages_mul, h.clear hT fun v h1 h2 => hupto.unmapped v h1 (by omega)] at inv'
  rw [h.root] at hs'
  exact ⟨_, s', hs', inv'⟩

/-- What the loops of `uvmalloc` and `uvmcopy` come to: the table has grown to `n` pages, or the
tables are as they were. -/
def GrownOr (K : ℕ) (tabs : PageMaps) (held : List ℕ) (t : ℕ) (T : PageMap) (m n : ℕ) (ok : Bool)
    (s : VmState) : Prop :=
  if ok then n ≤ trapframeVpn ∧ ∃ Tb, Grown T m n Tb ∧ PageInv K s (update tabs t (some Tb)) held
  else PageInv K s tabs held

/-- The table has grown from `Ta` by pages of the free list at `n`, …, `m - 1`, with the given flags
and contents. The pages of `Ta` and the foreign pages are as they were. -/
structure Filled (K : ℕ) (tabs : PageMaps) (held : List ℕ) (t : ℕ) (Ta : PageMap) (n m : ℕ)
    (flags : ℕ → BitVec 10) (content : ℕ → Fin 512 → Pte) (s s' : VmState) (Tb : PageMap) :
    Prop where
  grown : Grown Ta n m Tb
  inv : PageInv K s' (update tabs t (some Tb)) held
  fixed : Fixed tabs held t Ta s s'
  pages : ∀ v, n ≤ v → v < m → ∃ p ∈ s.freelist, Tb.leaf v = some ⟨p, flags v⟩ ∧
    s'.mem p = content v

section Filled

variable {flags : ℕ → BitVec 10} {content : ℕ → Fin 512 → Pte} {s' s₁ : VmState} {Tb : PageMap}

theorem Filled.refl (inv : PageInv K s (update tabs t (some Ta)) held) :
    Filled K tabs held t Ta n n flags content s s Ta :=
  ⟨.refl Ta n, inv, .refl .., fun v h1 h2 => by omega⟩

/-- One page and then the others. -/
theorem Filled.cons
    (hadd : Added K (update tabs t (some Ta)) held t Ta n ⟨p, flags n⟩ (content n) s s₁)
    (hnone : Ta.leaf n = none) (hlt : n < trapframeVpn)
    (h : Filled K tabs held t { Ta with leaf := update Ta.leaf n (some ⟨p, flags n⟩) }
      (n + 1) m flags content s₁ s' Tb) : Filled K tabs held t Ta n m flags content s s' Tb := by
  have hsub (v : ℕ) (_ : v < trapframeVpn) (e : Pte) (he : Ta.leaf v = some e) :
      update Ta.leaf n (some ⟨p, flags n⟩) v = some e := by
    have hne : v ≠ n := by
      rintro rfl
      rw [hnone] at he
      cases he
    rw [update_of_ne hne, he]
  have hself : Tb.leaf n = some ⟨p, flags n⟩ := by
    rw [h.grown.outside n (by omega)]
    exact update_self ..
  refine ⟨⟨h.grown.root, by have := h.grown.le; omega, fun v h1 h2 => ?_, fun v hv => ?_⟩, h.inv,
    ?_, fun v h1 h2 => ?_⟩
  · rcases Nat.eq_or_lt_of_le h1 with rfl | hlt'
    · rw [hself]
      rfl
    · exact h.grown.inside v hlt' h2
  · have hle := h.grown.le
    rw [h.grown.outside v (by omega)]
    exact update_of_ne (by omega) ..
  · have hfirst : Fixed tabs held t Ta s s₁ :=
      hadd.toFixed.congr (fun t' ht' => (update_of_ne ht' ..).symm) fun _ _ _ => id
    exact hfirst.trans (h.fixed.congr (fun _ _ => rfl) hsub)
  · rcases Nat.eq_or_lt_of_le h1 with rfl | hlt'
    · refine ⟨p, hadd.page, hself, ?_⟩
      rw [h.fixed.own n hlt ⟨p, flags n⟩ (update_self ..)]
      exact hadd.content
    · obtain ⟨q, hq, hleaf, hmem⟩ := h.pages v hlt' h2
      exact ⟨q, hadd.free hq, hleaf, hmem⟩

end Filled

/-- The loop of `uvmalloc`. -/
theorem growLoop_spec (hT : tabs t = some T) (hupto : Upto T m) {perm : BitVec 10}
    (hrwx : ∀ p, (⟨p, perm ||| Pte.flagV⟩ : Pte).rwx = true) (left : ℕ) (h : Grown T m n Ta)
    (hn : n ≤ trapframeVpn) (inv : PageInv K s (update tabs t (some Ta)) held) :
    ∃ ok s', growLoop T.root (m * pgSize) perm left (n * pgSize) s = .ok (ok, s') ∧
      GrownOr K tabs held t T m (n + left) ok s' := by
  induction left generalizing s n Ta with
  | zero => exact ⟨true, s, rfl, hn, Ta, h, inv⟩
  | succ left ih =>
    have hlt := h.lt inv hupto hn
    have hround := inv.addPage (update_self ..) hlt ((h.upto hupto hn).unmapped n le_rfl hlt) hrwx
      fun _ _ => .zero
    rw [h.root] at hround
    rw [growLoop]
    rcases hround with ⟨s₁, inv₁, _, hfail⟩ | ⟨p, s₁, s₂, hs₁, hs₂, hadd, _⟩
    · -- no page or no node: the pages mapped so far are taken away
      obtain ⟨r, s', hs', inv'⟩ := h.dealloc inv₁ hT hupto hn
      refine ⟨false, s', ?_, inv'⟩
      rcases hfail with hs₁ | ⟨p, s₂, s₃, hs₂, hs₃, hs₁⟩
      · rw [hs₁]
        simp only [hs']
        rfl
      · rw [hs₂]
        simp only [hs₃, bind, Except.bind, hs₁, hs']
        rfl
    · have inv₂ := hadd.inv
      rw [PageMaps.set_update] at inv₂
      rw [hs₁]
      simp only [hs₂, bind, Except.bind, if_true]
      rw [← Nat.succ_mul, show n + (left + 1) = n + 1 + left by omega]
      exact ih (h.succ ⟨p, perm ||| Pte.flagV⟩) hlt inv₂

/-- `uvmalloc` on a table of size `oldsz`. -/
theorem uvmalloc_spec (inv : PageInv K s tabs held) (hT : tabs t = some T) {oldsz : ℕ}
    (hupto : Upto T (npages oldsz)) (newsz : ℕ) (xperm : BitVec 10) :
    ∃ r s', s.uvmalloc T.root oldsz newsz xperm = .ok (r, s') ∧
      (r = 0 ∧ PageInv K s' tabs held ∨ r = max oldsz newsz ∧ npages r ≤ trapframeVpn ∧
        ∃ Tb, Grown T (npages oldsz) (npages r) Tb ∧
          PageInv K s' (update tabs t (some Tb)) held) := by
  have inv₁ : PageInv K s (update tabs t (some T)) held := by rwa [← hT, update_eq_self]
  unfold uvmalloc
  split_ifs with hsz
  · exact ⟨oldsz, s, rfl, Or.inr ⟨(max_eq_left hsz.le).symm, hupto.le, T, .refl T _, inv₁⟩⟩
  · have hcount : npages oldsz + (newsz - pgRoundUp oldsz + pgSize - 1) / pgSize =
        npages newsz := by
      rw [pgRoundUp_eq hupto.le]
      have hle := npages_mono (show oldsz ≤ newsz by omega)
      rw [npages, npages, pgSize] at *
      omega
    have hloop := growLoop_spec hT hupto (Pte.rwx_user xperm)
      ((newsz - pgRoundUp oldsz + pgSize - 1) / pgSize) (Grown.refl T _) hupto.le inv₁
    rw [hcount, ← pgRoundUp_eq hupto.le] at hloop
    obtain ⟨ok, s', hs', hok⟩ := hloop
    rw [hs']
    cases ok with
    | false => exact ⟨0, s', rfl, Or.inl ⟨rfl, hok⟩⟩
    | true => exact ⟨newsz, s', rfl, Or.inr ⟨(max_eq_right (by omega)).symm, hok⟩⟩

/-! ## uvmcopy -/

/-- Taking away all user pages of a table that had none. -/
theorem Grown.unmap (h : Grown T 0 n Ta) (inv : PageInv K s (update tabs t (some Ta)) held)
    (hT : tabs t = some T) (hupto : Upto T 0) (hn : n ≤ trapframeVpn) :
    ∃ s', s.uvmunmap T.root 0 (n * pgSize / pgSize) true = .ok s' ∧ PageInv K s' tabs held ∧
      Kept tabs held t s s' := by
  obtain ⟨s', hs', inv', _, _, hkept, _⟩ :=
    inv.uvmunmap_clear (update_self ..) (v := 0) (n := n) (by omega)
      fun w h1 h2 => h.inside w h1 (by omega)
  have hclear := h.clear hT fun v h1 h2 => hupto.unmapped v h1 (by omega)
  rw [Nat.sub_zero] at hclear
  rw [hclear] at inv'
  rw [h.root, Nat.zero_mul] at hs'
  rw [Nat.mul_div_cancel n (by decide)]
  exact ⟨s', hs', inv', hkept.of_update⟩

section Copy

/-! The table `t` gets copies of the pages of the table `u`. -/

variable {u : ℕ} {U : PageMap} (hU : tabs u = some U) (hne : u ≠ t) (hT : tabs t = some T)
  (hupto : Upto T 0)

include hU hne hT hupto

/-- The loop of `uvmcopy`. -/
theorem copyLoop_fills (left : ℕ) (h : Grown T 0 n Ta) (hn : n + left ≤ trapframeVpn)
    (hmapped : ∀ v < n + left, (U.leaf v).isSome = true)
    (inv : PageInv K s (update tabs t (some Ta)) held) :
    (∃ s', copyLoop U.root T.root left (n * pgSize) s = .ok (false, s') ∧ PageInv K s' tabs held ∧
      Kept tabs held t s s') ∨
    ∃ s' Tb, copyLoop U.root T.root left (n * pgSize) s = .ok (true, s') ∧
      Filled K tabs held t Ta n (n + left) (fun v => U.flags v)
        (fun v => s.mem (U.frame v)) s s' Tb := by
  induction left generalizing s n Ta with
  | zero => exact .inr ⟨s, Ta, rfl, .refl inv⟩
  | succ left ih =>
    have hlt : n < trapframeVpn := by omega
    have hlt' : n < 2 ^ 26 := by rw [trapframeVpn] at hlt; omega
    have hfree : Ta.leaf n = none := (h.upto hupto (by omega)).unmapped n le_rfl hlt
    have hU' : update tabs t (some Ta) u = some U := by rw [update_of_ne hne, hU]
    obtain ⟨e, he⟩ := Option.isSome_iff_exists.mp (hmapped n (by omega))
    obtain ⟨k, hk, hentry, hvalid⟩ := inv.exists_entry hU' he
    have hround := inv.addPage (update_self ..) hlt hfree (Pte.rwx_copy (inv.perm u U n e hU' he))
      fun s => s.mem e.ppn
    rw [h.root] at hround
    rw [copyLoop, walk_find U.root hlt', hk]
    simp only [bind, Except.bind, Option.map_some, hentry, hvalid, Bool.not_true,
      Bool.false_eq_true, if_false]
    rcases hround with ⟨s₁, inv₁, hfixed, hfail⟩ | ⟨p, s₁, s₂, hs₁, hs₂, hadd, hsame⟩
    · obtain ⟨s', hs', inv', hkept⟩ := h.unmap inv₁ hT hupto (by omega)
      refine .inl ⟨s', ?_, inv', hfixed.toKept.of_update.trans hkept⟩
      rcases hfail with hs₁ | ⟨p, s₂, s₃, hs₂, hs₃, hs₁⟩
      · rw [hs₁]
        simp only [hs']
        rfl
      · rw [hs₂]
        simp only [hs₃, hs₁, hs']
        rfl
    · -- the pages of the other table are foreign
      have hpage (v : ℕ) (hv : v < trapframeVpn) (hsome : (U.leaf v).isSome = true) :
          Foreign s (update tabs t (some Ta)) held t (U.frame v) := by
        obtain ⟨e', he'⟩ := Option.isSome_iff_exists.mp hsome
        exact .inr ⟨.page u v, hne, hv, U, e', hU', he', by rw [PageMap.frame, he']; rfl⟩
      have hcopy : Added K (update tabs t (some Ta)) held t Ta n ⟨p, U.flags n⟩ (s.mem (U.frame n))
          s s₂ := by
        have hflags : U.flags n = e.flags ||| Pte.flagV := by
          rw [PageMap.flags, he]
          exact (Pte.or_flagV hvalid).symm
        have hne' : e.ppn ≠ p := by
          rintro rfl
          have hown : Owns s (update tabs t (some Ta)) held (.page u n) e.ppn :=
            ⟨hlt, U, e, hU', he, rfl⟩
          exact Place.noConfusion (inv.exact.unique e.ppn (.page u n) .free hown hadd.page)
        have hframe : U.frame n = e.ppn := by
          rw [PageMap.frame, he]
          rfl
        rw [hflags, hframe, ← hsame e.ppn hne']
        exact hadd
      have inv₂ := hcopy.inv
      rw [PageMaps.set_update] at inv₂
      rw [hs₁]
      simp only [hs₂, if_true]
      rw [← Nat.succ_mul, show n + (left + 1) = n + 1 + left by omega]
      rcases ih (h.succ ⟨p, U.flags n⟩) (by omega) (fun v hv => hmapped v (by omega)) inv₂ with
        ⟨s', hs', inv', hkept⟩ | ⟨s', Tb, hs', hfill⟩
      · exact .inl ⟨s', hs', inv', hadd.toKept.of_update.trans hkept⟩
      · refine .inr ⟨s', Tb, hs', .cons hcopy hfree hlt { hfill with pages := fun v h1 h2 => ?_ }⟩
        obtain ⟨q, hq, hleaf, hmem⟩ := hfill.pages v h1 h2
        refine ⟨q, hq, hleaf, hmem.trans ?_⟩
        exact hadd.mem _ (hpage v (by omega) (hmapped v (by omega)))

/-- `uvmcopy` of the first pages of a table, which are all mapped, to a table without user pages. -/
theorem uvmcopy_fills (inv : PageInv K s tabs held) {sz : ℕ} (hle : npages sz ≤ trapframeVpn)
    (hmapped : ∀ v < npages sz, (U.leaf v).isSome = true) :
    (∃ s', s.uvmcopy U.root T.root sz = .ok (false, s') ∧ PageInv K s' tabs held ∧
      Kept tabs held t s s') ∨
    ∃ s' Tb, s.uvmcopy U.root T.root sz = .ok (true, s') ∧
      Filled K tabs held t T 0 (npages sz) (fun v => U.flags v)
        (fun v => s.mem (U.frame v)) s s' Tb := by
  have hself : update tabs t (some T) = tabs := by rw [← hT, update_eq_self]
  have hloop := copyLoop_fills hU hne hT hupto (npages sz) (Grown.refl T 0) (n := 0)
    (by rw [Nat.zero_add]; exact hle) (fun v hv => hmapped v (by omega)) (by rw [hself]; exact inv)
  rw [Nat.zero_add, Nat.zero_mul] at hloop
  exact hloop

/-- `uvmcopy` of a table of size `sz` to a table without user pages. -/
theorem uvmcopy_spec (inv : PageInv K s tabs held) {sz : ℕ} (hold : Upto U (npages sz)) :
    ∃ ok s', s.uvmcopy U.root T.root sz = .ok (ok, s') ∧
      GrownOr K tabs held t T 0 (npages sz) ok s' := by
  rcases uvmcopy_fills hU hne hT hupto inv hold.le hold.mapped with
    ⟨s', hs', inv', _⟩ | ⟨s', Tb, hs', hfill⟩
  · exact ⟨false, s', hs', inv'⟩
  · exact ⟨true, s', hs', hold.le, Tb, hfill.grown, hfill.inv⟩

end Copy

/-! ## Creating and destroying tables -/

/-- `uvmcreate` makes a table without mappings, or fails. -/
theorem uvmcreate_spec (inv : PageInv K s tabs held) (ht : tabs t = none) :
    (∃ s', s.uvmcreate = (none, s') ∧ PageInv K s' tabs held) ∨
      ∃ pt s', s.uvmcreate = (some pt, s') ∧
        PageInv K s' (update tabs t (some ⟨pt, fun _ => none⟩)) held := by
  unfold uvmcreate
  rcases inv.kalloc_spec with ⟨s₁, hs₁, inv₁, _⟩ | ⟨p, s₁, hs₁, inv₁, _⟩
  · exact Or.inl ⟨s₁, by rw [hs₁], inv₁⟩
  · have inv₂ := inv₁.setPage_held (fun _ => .zero) List.mem_cons_self
    have hzero (i : Fin 512) : (s₁.setPage p fun _ => .zero).mem p i = .zero := by
      simp only [VmState.setPage, update_self]
    have inv₃ := inv₂.create ht List.mem_cons_self hzero
    rw [List.erase_cons_head] at inv₃
    exact Or.inr ⟨p, _, by rw [hs₁], inv₃⟩

/-- The user pages of the map and the nodes of the tree that it had in memory `s` are free. -/
def AllFreed (s : VmState) (T : PageMap) (s' : VmState) : Prop :=
  (∀ v < trapframeVpn, ∀ e, T.leaf v = some e → e.ppn ∈ s'.freelist) ∧
    ∀ path n, path.length ≤ 2 → follow (child s.mem) T.root path = some n → n ∈ s'.freelist

/-- `uvmfree` of a table of size `sz` with nothing but user pages. -/
theorem uvmfree_spec (inv : PageInv K s tabs held) (hT : tabs t = some T) {sz : ℕ}
    (hupto : Upto T (npages sz)) (hlent : ∀ v, trapframeVpn ≤ v → T.leaf v = none) :
    ∃ s', s.uvmfree T.root sz = .ok s' ∧ PageInv K s' (update tabs t none) held ∧
      AllFreed s T s' := by
  obtain ⟨s₁, hs₁, inv₁, _, htrees, _, hpages⟩ := inv.uvmunmap_clear hT (v := 0) (n := npages sz)
    (by rw [Nat.zero_add]; exact hupto.le) fun w _ h2 => hupto.mapped w (by omega)
  have hunmap : (if 0 < sz then s.uvmunmap T.root 0 (pgRoundUp sz / pgSize) true else pure s) =
      .ok s₁ := by
    rw [Nat.zero_mul] at hs₁
    split_ifs with hpos
    · rw [pgRoundUp_eq hupto.le, Nat.mul_div_cancel _ (by decide), hs₁]
    · have hzero : npages sz = 0 := by rw [npages, pgSize]; omega
      rw [hzero] at hs₁
      exact hs₁
  have hT₁ : PageMaps.clear tabs t 0 (npages sz) t = some (T.cut 0 (npages sz)) := by
    rw [PageMaps.clear, update_self, hT]
    rfl
  have hempty (v : ℕ) : (T.cut 0 (npages sz)).leaf v = none := by
    simp only [PageMap.cut]
    split_ifs with hv
    · rfl
    · rcases lt_or_ge v trapframeVpn with hlt | hge
      · exact hupto.unmapped v (by omega) hlt
      · exact hlent v hge
  obtain ⟨s', hs', inv', ⟨l, hl⟩, hnodes⟩ := inv₁.destroy hT₁ hempty
  rw [PageMaps.clear, update_idem] at inv'
  refine ⟨s', ?_, inv', fun v hv e he => ?_, fun path n hlen hn => ?_⟩
  · simp only [PageMap.cut] at hs'
    unfold uvmfree
    split_ifs at hunmap ⊢
    · simp only [hunmap, bind, Except.bind, hs']
    · simp only [hunmap, bind, Except.bind, hs']
  · have hlt : v < npages sz := by
      by_contra hge
      rw [hupto.unmapped v (by omega) hv] at he
      cases he
    rw [hl, List.mem_append]
    exact Or.inr (hpages v e (Nat.zero_le v) (by omega) he)
  · exact hnodes path n hlen ((htrees t T path hT hlen).trans hn)

/-! ## The page table of a process -/

def trampolineVpn : ℕ := 2 ^ 26 - 1

theorem trampolineVa_eq : trampolineVa = trampolineVpn * pgSize := by decide

theorem trapframeVa_eq : trapframeVa = trapframeVpn * pgSize := by decide

theorem ne_trampoline (hv : v < trapframeVpn) : v ≠ trampolineVpn := by
  rw [trapframeVpn] at hv
  rw [trampolineVpn]
  omega

/-- There are two pages from `TRAPFRAME` on. -/
theorem eq_trampoline (hv : trapframeVpn ≤ v) (hv' : v < 2 ^ 26) (hne : v ≠ trapframeVpn) :
    v = trampolineVpn := by
  rw [trapframeVpn] at hv hne
  rw [trampolineVpn]
  omega

theorem upto_of_none (hnone : ∀ v < trapframeVpn, T.leaf v = none) : Upto T (npages 0) :=
  ⟨by decide, fun v hv => absurd hv (by rw [npages, pgSize]; omega), fun v _ hv => hnone v hv⟩

/-- `proc_pagetable` makes a table with the two mappings of a process, or leaves nothing behind. -/
theorem procPagetable_spec (inv : PageInv K s tabs held) (ht : tabs t = none) (trapframe : ℕ) :
    (∃ s', s.procPagetable trapframe = .ok (none, s') ∧ PageInv K s' tabs held) ∨
      ∃ pt s' leaf, s.procPagetable trapframe = .ok (some pt, s') ∧
        PageInv K s' (update tabs t (some ⟨pt, leaf⟩)) held ∧ (∀ v < trapframeVpn, leaf v = none) ∧
        ∀ v, trapframeVpn ≤ v → v < 2 ^ 26 → (leaf v).isSome = true := by
  have hne : trapframeVpn ≠ trampolineVpn := by decide
  have hrx (p : ℕ) : (⟨p, Pte.flagR ||| Pte.flagX ||| Pte.flagV⟩ : Pte).rwx = true := by
    simp [Pte.rwx]; decide
  have hrw (p : ℕ) : (⟨p, Pte.flagR ||| Pte.flagW ||| Pte.flagV⟩ : Pte).rwx = true := by
    simp [Pte.rwx]; decide
  have hdestroy {pt : ℕ} {s₁ : VmState}
      (inv₁ : PageInv K s₁ (update tabs t (some ⟨pt, fun _ => none⟩)) held) :
      ∃ s', s₁.uvmfree pt 0 = .ok s' ∧ PageInv K s' tabs held := by
    obtain ⟨s', hs', inv', _⟩ :=
      inv₁.uvmfree_spec (update_self ..) (upto_of_none fun _ _ => rfl) fun _ _ => rfl
    rw [update_idem, ← ht, update_eq_self] at inv'
    exact ⟨s', hs', inv'⟩
  unfold procPagetable
  rcases inv.uvmcreate_spec ht with ⟨s₁, hs₁, inv₁⟩ | ⟨pt, s₁, hs₁, inv₁⟩
  · exact Or.inl ⟨s₁, by rw [hs₁], inv₁⟩
  obtain ⟨ok₂, s₂, hs₂, inv₂⟩ :=
    inv₁.mappages_lent (update_self ..) (v := trampolineVpn) (p := s₁.trampoline)
    (by decide) (by decide) rfl (hrx _)
  rw [hs₁]
  cases ok₂ with
  | false =>
    -- the trampoline could not be mapped
    obtain ⟨s', hs', inv'⟩ := hdestroy inv₂
    refine Or.inl ⟨s', ?_, inv'⟩
    simp only [trampolineVa_eq, hs₂, bind, Except.bind, Bool.not_false, if_true, hs']
    rfl
  | true =>
    rw [if_pos rfl, PageMaps.set_update] at inv₂
    obtain ⟨ok₃, s₃, hs₃, inv₃⟩ :=
      inv₂.mappages_lent (update_self ..) (v := trapframeVpn) (p := trapframe) le_rfl
      (by decide) (by simp only [update_of_ne hne]) (hrw _)
    cases ok₃ with
    | false =>
      -- the trapframe could not be mapped
      obtain ⟨s₄, hs₄, inv₄, _⟩ := PageInv.uvmunmap_lent inv₃ (update_self ..) (v := trampolineVpn)
        (e := ⟨s₁.trampoline, Pte.flagR ||| Pte.flagX ||| Pte.flagV⟩) (by decide) (by decide)
        (by simp only [update_self])
      have hnone : update (update (fun _ => none) trampolineVpn
          (some ⟨s₁.trampoline, Pte.flagR ||| Pte.flagX ||| Pte.flagV⟩)) trampolineVpn none =
          (fun _ => none : ℕ → Option Pte) := by
        rw [update_idem]
        exact update_eq_self trampolineVpn _
      rw [PageMaps.set_update, hnone] at inv₄
      obtain ⟨s', hs', inv'⟩ := hdestroy inv₄
      refine Or.inl ⟨s', ?_, inv'⟩
      simp only [trampolineVa_eq, trapframeVa_eq, hs₂, hs₃, bind, Except.bind, Bool.not_false,
        Bool.not_true, Bool.false_eq_true, if_true, if_false, hs₄, hs']
      rfl
    | true =>
      rw [if_pos rfl, PageMaps.set_update] at inv₃
      refine Or.inr ⟨pt, s₃, _, ?_, inv₃, fun v hv => ?_, fun v hv hv' => ?_⟩
      · simp only [trampolineVa_eq, trapframeVa_eq, hs₂, hs₃, bind, Except.bind, Bool.not_true,
          Bool.false_eq_true, if_false]
        rfl
      · simp only [update_of_ne hv.ne, update_of_ne (ne_trampoline hv)]
      · simp only [update_apply]
        split_ifs with h₁ h₂
        · rfl
        · rfl
        · exact absurd (eq_trampoline hv hv' h₁) h₂

/-- `proc_freepagetable` of a table of size `sz`. -/
theorem procFreepagetable_spec (inv : PageInv K s tabs held) (hT : tabs t = some T) {sz : ℕ}
    (hupto : Upto T (npages sz))
    (hlent : ∀ v, trapframeVpn ≤ v → v < 2 ^ 26 → (T.leaf v).isSome = true) :
    ∃ s', s.procFreepagetable T.root sz = .ok s' ∧ PageInv K s' (update tabs t none) held ∧
      AllFreed s T s' := by
  have hne : trampolineVpn ≠ trapframeVpn := by decide
  obtain ⟨e₁, he₁⟩ := Option.isSome_iff_exists.mp (hlent trampolineVpn (by decide) (by decide))
  obtain ⟨e₂, he₂⟩ := Option.isSome_iff_exists.mp (hlent trapframeVpn le_rfl (by decide))
  obtain ⟨s₁, hs₁, inv₁, htrees₁⟩ := inv.uvmunmap_lent hT (by decide) (by decide) he₁
  obtain ⟨s₂, hs₂, inv₂, htrees₂⟩ :=
    inv₁.uvmunmap_lent (PageMaps.set_self hT) (v := trapframeVpn) (e := e₂) le_rfl
    (by decide) (by simp only [update_of_ne hne.symm, he₂])
  have hT₂ := PageMaps.set_self (v := trapframeVpn) (o := none)
    (PageMaps.set_self (v := trampolineVpn) (o := none) hT)
  -- what is left are the user pages
  have hleaf (v : ℕ) (hv : v < trapframeVpn) :
      update (update T.leaf trampolineVpn none) trapframeVpn none v = T.leaf v := by
    rw [update_of_ne hv.ne, update_of_ne (ne_trampoline hv)]
  have hupto₂ : Upto ⟨T.root, update (update T.leaf trampolineVpn none) trapframeVpn none⟩
      (npages sz) := by
    refine ⟨hupto.le, fun v hv => ?_, fun v hv hlt => (hleaf v hlt).trans (hupto.unmapped v hv hlt)⟩
    have hle := hupto.le
    simp only [hleaf v (by omega)]
    exact hupto.mapped v hv
  have hrest (v : ℕ) (hv : trapframeVpn ≤ v) :
      update (update T.leaf trampolineVpn none) trapframeVpn none v = none := by
    simp only [update_apply]
    split_ifs with h₁ h₂
    · rfl
    · rfl
    · by_contra hsome
      obtain ⟨e, he⟩ := Option.ne_none_iff_exists'.mp hsome
      exact h₂ (eq_trampoline hv (inv.bound t T v e hT he) h₁)
  obtain ⟨s', hs', inv', hpages, hnodes⟩ := inv₂.uvmfree_spec hT₂ hupto₂ hrest
  have hgone : update ((tabs.set t trampolineVpn none).set t trapframeVpn none) t none =
      update tabs t none := by
    unfold PageMaps.set
    rw [update_idem, update_idem]
  rw [hgone] at inv'
  refine ⟨s', ?_, inv', fun v hv e he => hpages v hv e ((hleaf v hv).trans he),
    fun path n hlen hn => ?_⟩
  · simp only at hs₂ hs'
    simp only [procFreepagetable, trampolineVa_eq, trapframeVa_eq, hs₁, hs₂, bind, Except.bind, hs']
  · refine hnodes path n hlen ?_
    have h₁ := htrees₁ t T path hT hlen
    have h₂ := htrees₂ t _ path (PageMaps.set_self hT) hlen
    exact h₂.trans (h₁.trans hn)

end PageInv

end NeulaCpu.Xv6

import NeulaCpu.Lib.Forest
import NeulaCpu.Lib.Ownership
import NeulaCpu.Xv6.Vm

/-!
# Who has a page

A user page table is, for its users, a map from virtual page numbers to entries. In memory it is a
tree of three levels of pages. `PageInv` says that the memory holds the given maps, and that every
page of the allocator has one place: the free list, a node of one tree, the target of one user
mapping, or the hands of a caller. The pages that are mapped at `TRAPFRAME` and above are the
caller's or the kernel's, and the mapping does not own them. What the code does to pages comes down
to a few moves from one place to another.
-/

namespace NeulaCpu.Xv6

open Forest Ownership Function

/-- The virtual page of `TRAPFRAME`; user pages are below. -/
def trapframeVpn : ℕ := 2 ^ 26 - 2

/-- The path to the node that has the entry of a virtual page, and the index of the entry. -/
def vpnDir (v : ℕ) : List (Fin 512) := [Fin.ofNat 512 (v / 2 ^ 18), Fin.ofNat 512 (v / 2 ^ 9)]

def vpnIdx (v : ℕ) : Fin 512 := Fin.ofNat 512 v

theorem length_vpnDir (v : ℕ) : (vpnDir v).length = 2 := rfl

theorem vpn_inj {v w : ℕ} (hv : v < 2 ^ 27) (hw : w < 2 ^ 27) (hdir : vpnDir v = vpnDir w)
    (hidx : vpnIdx v = vpnIdx w) : v = w := by
  simp only [vpnDir, vpnIdx, List.cons.injEq, Fin.ext_iff, Fin.val_ofNat, and_true] at hdir hidx
  omega

/-- Every place of the tree has a virtual page number. -/
theorem exists_vpn (i j k : Fin 512) : ∃ v < 2 ^ 27, vpnDir v = [i, j] ∧ vpnIdx v = k := by
  refine ⟨i * 2 ^ 18 + j * 2 ^ 9 + k, by omega, ?_, ?_⟩
  · simp only [vpnDir, List.cons.injEq, Fin.ext_iff, Fin.val_ofNat, and_true]
    omega
  · simp only [vpnIdx, Fin.ext_iff, Fin.val_ofNat]
    omega

namespace Pte

@[simp] theorem valid_zero : zero.valid = false := by decide

@[simp] theorem valid_flagV (p : ℕ) : (⟨p, flagV⟩ : Pte).valid = true := by simp [valid, flagV]

@[simp] theorem rwx_flagV (p : ℕ) :
    (⟨p, flagV⟩ : Pte).rwx = false := by simp [rwx, flagV, flagR, flagW, flagX]

@[simp] theorem valid_or_flagV (p : ℕ) (f : BitVec 10) : (⟨p, f ||| flagV⟩ : Pte).valid = true := by
  simp only [valid, flagV, bne_iff_ne, ne_eq]
  intro h
  have hbit := congrArg (fun b : BitVec 10 => b.getLsbD 0) h
  simp at hbit

end Pte

namespace VmState

/-- The page that an entry points to. -/
def child (mem : ℕ → Fin 512 → Pte) (n : ℕ) (i : Fin 512) : Option ℕ :=
  if (mem n i).valid then some (mem n i).ppn else none

/-- The entry for a virtual page, if it is mapped. -/
def leafPte (mem : ℕ → Fin 512 → Pte) (root v : ℕ) : Option Pte :=
  (follow (child mem) root (vpnDir v)).bind fun n =>
    if (mem n (vpnIdx v)).valid then some (mem n (vpnIdx v)) else none

/-- `kfree` takes the page. -/
def InRange (s : VmState) (p : ℕ) : Prop := ¬ (p * pgSize < s.kend ∨ physStop ≤ p * pgSize)

end VmState

open VmState

/-- A page table as a map. -/
structure PageMap where
  root : ℕ
  leaf : ℕ → Option Pte

/-- Where a page can be: on the free list, in the hands of a caller, the node at a path of a table,
or the target of a user mapping. -/
inductive Place
  | free
  | held
  | node (t : ℕ) (path : List (Fin 512))
  | page (t v : ℕ)

abbrev PageMaps := ℕ → Option PageMap

namespace PageMaps

/-- Table `t` with `o` as the entry of the virtual page `v`. -/
def set (tabs : PageMaps) (t v : ℕ) (o : Option Pte) : PageMaps :=
  update tabs t ((tabs t).map fun T => { T with leaf := update T.leaf v o })

variable {tabs : PageMaps} {t v : ℕ} {o : Option Pte} {T T' : PageMap}

theorem set_of_ne {t' : ℕ} (hne : t' ≠ t) : tabs.set t v o t' = tabs t' := update_of_ne hne ..

theorem set_self (hT : tabs t = some T) :
    tabs.set t v o t = some { T with leaf := update T.leaf v o } := by
  rw [set, update_self, hT]
  rfl

/-- What a table was before. -/
theorem of_set {t' : ℕ} (hT' : tabs.set t v o t' = some T') :
    ∃ T, tabs t' = some T ∧ T'.root = T.root ∧ ∀ w, T'.leaf w = if t' = t ∧ w = v then o
      else T.leaf w := by
  by_cases he : t' = t
  · subst he
    rw [set, update_self, Option.map_eq_some_iff] at hT'
    obtain ⟨T, hT, rfl⟩ := hT'
    refine ⟨T, hT, rfl, fun w => ?_⟩
    simp only [update_apply, true_and]
  · rw [set_of_ne he] at hT'
    exact ⟨T', hT', rfl, fun w => by rw [if_neg fun h => he h.1]⟩

theorem to_set {t' : ℕ} (hT : tabs t' = some T) :
    ∃ T', tabs.set t v o t' = some T' ∧ T'.root = T.root ∧ ∀ w, T'.leaf w = if t' = t ∧ w = v then o
      else T.leaf w := by
  by_cases he : t' = t
  · subst he
    refine ⟨_, set_self hT, rfl, fun w => ?_⟩
    simp only [update_apply, true_and]
  · exact ⟨T, by rw [set_of_ne he, hT], rfl, fun w => by rw [if_neg fun h => he h.1]⟩

end PageMaps

/-- The page `p` is in the place. -/
def Owns (s : VmState) (tabs : PageMaps) (held : List ℕ) : Place → ℕ → Prop
  | .free, p => p ∈ s.freelist
  | .held, p => p ∈ held
  | .node t path, p =>
    path.length ≤ 2 ∧ ∃ T, tabs t = some T ∧ follow (child s.mem) T.root path = some p
  | .page t v, p => v < trapframeVpn ∧ ∃ T e, tabs t = some T ∧ T.leaf v = some e ∧ e.ppn = p

/-- The memory holds the page tables `tabs`, and every page from the end `K` of the kernel on has
one place. -/
structure PageInv (K : ℕ) (s : VmState) (tabs : PageMaps) (held : List ℕ) : Prop where
  exact : Exact s.InRange (Owns s tabs held)
  free_nodup : s.freelist.Nodup
  held_nodup : held.Nodup
  inner : ∀ t T path n i, tabs t = some T → path.length ≤ 1 →
    follow (child s.mem) T.root path = some n → (s.mem n i).valid = true → (s.mem n i).rwx = false
  leaf : ∀ t T v, tabs t = some T → v < 2 ^ 27 → leafPte s.mem T.root v = T.leaf v
  bound : ∀ t T v e, tabs t = some T → T.leaf v = some e → v < 2 ^ 26
  perm : ∀ t T v e, tabs t = some T → T.leaf v = some e → e.rwx = true
  kend : s.kend = K

namespace PageInv

variable {K : ℕ} {s : VmState} {tabs : PageMaps} {held : List ℕ} {t v n p : ℕ} {T : PageMap}
  {path : List (Fin 512)}
  {e : Pte}

theorem node_unique (inv : PageInv K s tabs held) {t' : ℕ} {T' : PageMap} {path' : List (Fin 512)}
    (hT : tabs t = some T) (hT' : tabs t' = some T') (hlen : path.length ≤ 2)
    (hlen' : path'.length ≤ 2) (hn : follow (child s.mem) T.root path = some n)
    (hn' : follow (child s.mem) T'.root path' = some n) : t = t' ∧ path = path' := by
  have h :=
    inv.exact.unique n (.node t path) (.node t' path') ⟨hlen, T, hT, hn⟩ ⟨hlen', T', hT', hn'⟩
  exact ⟨(Place.node.inj h).1, (Place.node.inj h).2⟩

/-- A page that is on the free list, held or a user page is no node. -/
theorem not_node (inv : PageInv K s tabs held) {k : Place} (hk : Owns s tabs held k p)
    (hnode : ∀ t path, k ≠ .node t path) (hT : tabs t = some T) (hlen : path.length ≤ 2) :
    follow (child s.mem) T.root path ≠ some p := fun hp =>
  hnode t path (inv.exact.unique p k (.node t path) hk ⟨hlen, T, hT, hp⟩)

theorem inRange (inv : PageInv K s tabs held) {k : Place} (hk : Owns s tabs held k p) :
    s.InRange p :=
  inv.exact.used_of_owns hk

/-- The entry of a mapped page. -/
theorem exists_entry (inv : PageInv K s tabs held) (hT : tabs t = some T) (hv : T.leaf v = some e) :
    ∃ n, follow (child s.mem) T.root (vpnDir v) = some n ∧ s.mem n (vpnIdx v) = e ∧
      e.valid = true := by
  have hlt := inv.bound t T v e hT hv
  rw [← inv.leaf t T v hT (by omega), leafPte] at hv
  obtain ⟨n, hn, he⟩ := Option.bind_eq_some_iff.mp hv
  split_ifs at he with hvalid
  rw [Option.some.injEq] at he
  exact ⟨n, hn, he, he ▸ hvalid⟩

/-! ## A page that is no node changes -/

section SetPage

variable {content : Fin 512 → Pte}

theorem follow_setPage (hp : ∀ q, q.length < path.length → follow (child s.mem) n q ≠ some p) :
    follow (child (s.setPage p content).mem) n path = follow (child s.mem) n path := by
  refine follow_congr fun q i r b hpath hb => ?_
  have hlen : q.length < path.length := by
    rw [hpath, List.length_append, List.length_cons]
    omega
  have hne : b ≠ p := fun he => hp q hlen (he ▸ hb)
  simp only [child, setPage, update_of_ne hne]

/-- The contents of a page that is no node do not matter. -/
theorem setPage (inv : PageInv K s tabs held) (hp : ∀ t T path, tabs t = some T → path.length ≤ 2 →
    follow (child s.mem) T.root path ≠ some p) : PageInv K (s.setPage p content) tabs held := by
  have hfollow (t : ℕ) (T : PageMap) (path : List (Fin 512))
      (hT : tabs t = some T) (hlen : path.length ≤ 2) :
      follow (child (s.setPage p content).mem) T.root path = follow (child s.mem) T.root path :=
    follow_setPage fun q hq => hp t T q hT (by omega)
  have hmem (t : ℕ) (T : PageMap) (path : List (Fin 512)) (n : ℕ) (hT : tabs t = some T)
      (hlen : path.length ≤ 2) (hn : follow (child s.mem) T.root path = some n) :
      (s.setPage p content).mem n = s.mem n := by
    have hne : n ≠ p := fun he => hp t T path hT hlen (he ▸ hn)
    exact update_of_ne hne ..
  refine ⟨inv.exact.congr (fun _ => Iff.rfl) fun k q => ?_, inv.free_nodup, inv.held_nodup, ?_, ?_,
    inv.bound, inv.perm, inv.kend⟩
  · cases k with
    | free => exact Iff.rfl
    | held => exact Iff.rfl
    | node t path =>
      refine and_congr_right fun hlen => exists_congr fun T => and_congr_right fun hT => ?_
      rw [hfollow t T path hT hlen]
    | page t v => exact Iff.rfl
  · intro t T path n i hT hlen hn
    rw [hfollow t T path hT (by omega)] at hn
    rw [hmem t T path n hT (by omega) hn]
    exact inv.inner t T path n i hT hlen hn
  · intro t T v hT hv
    rw [← inv.leaf t T v hT hv, leafPte, leafPte, hfollow t T _ hT (length_vpnDir v).le]
    cases hn : follow (child s.mem) T.root (vpnDir v) with
    | none => rfl
    | some n => simp only [Option.bind_some, hmem t T _ n hT (length_vpnDir v).le hn]

end SetPage

/-! ## The allocator -/

section

variable (inv : PageInv K s tabs held)

include inv

/-- A page in the hands of a caller may be written. -/
theorem setPage_held (content : Fin 512 → Pte) (hp : p ∈ held) :
    PageInv K (s.setPage p content) tabs held :=
  inv.setPage fun _ _ _ hT hlen => inv.not_node (k := .held) hp (fun _ _ => nofun) hT hlen

/-- The counter of calls does not matter. -/
theorem setCalls (c : ℕ) : PageInv K { s with calls := c } tabs held :=
  ⟨inv.exact, inv.free_nodup, inv.held_nodup, inv.inner, inv.leaf, inv.bound, inv.perm, inv.kend⟩

/-- The first page of the free list goes to the caller. -/
theorem takeFree {l : List ℕ} (hl : s.freelist = p :: l) :
    PageInv K { s with freelist := l } tabs (p :: held) := by
  have hnodup := inv.free_nodup
  rw [hl, List.nodup_cons] at hnodup
  have hfree : Owns s tabs held .free p := by
    show p ∈ s.freelist
    rw [hl]
    exact List.mem_cons_self
  have hheld : p ∉ held := fun hp => nomatch inv.exact.unique p .free .held hfree hp
  refine ⟨inv.exact.transfer (k := .free) (l := .held) hfree nofun (fun q => ?_) (fun q => ?_)
      fun k hk hl q => ?_, hnodup.2, List.nodup_cons.mpr ⟨hheld, inv.held_nodup⟩, inv.inner,
    inv.leaf, inv.bound, inv.perm, inv.kend⟩
  · show q ∈ l ↔ q ∈ s.freelist ∧ q ≠ p
    rw [hl, List.mem_cons]
    constructor
    · intro hq
      exact ⟨Or.inr hq, fun he => hnodup.1 (he ▸ hq)⟩
    · rintro ⟨rfl | hq, hne⟩
      · exact absurd rfl hne
      · exact hq
  · show q ∈ p :: held ↔ q ∈ held ∨ q = p
    rw [List.mem_cons, or_comm]
  · cases k with
    | free => exact absurd rfl hk
    | held => exact absurd rfl hl
    | node t path => exact Iff.rfl
    | page t v => exact Iff.rfl

/-- A page of the caller goes to the free list. -/
theorem giveFree (hp : p ∈ held) : PageInv K { s with freelist := p :: s.freelist } tabs
    (held.erase p) := by
  have hfree : p ∉ s.freelist := fun hf => nomatch inv.exact.unique p .free .held hf hp
  refine ⟨inv.exact.transfer (k := .held) (l := .free) hp nofun (fun q => ?_) (fun q => ?_)
    fun k hk hl q => ?_,
    List.nodup_cons.mpr ⟨hfree, inv.free_nodup⟩, inv.held_nodup.erase p, inv.inner, inv.leaf,
      inv.bound, inv.perm, inv.kend⟩
  · show q ∈ held.erase p ↔ q ∈ held ∧ q ≠ p
    rw [inv.held_nodup.mem_erase_iff, and_comm]
  · show q ∈ p :: s.freelist ↔ q ∈ s.freelist ∨ q = p
    rw [List.mem_cons, or_comm]
  · cases k with
    | free => exact absurd rfl hl
    | held => exact absurd rfl hk
    | node t path => exact Iff.rfl
    | page t v => exact Iff.rfl

/-- `kfree` of a page of the caller. -/
theorem kfree (hp : p ∈ held) : ∃ s', s.kfree p = .ok s' ∧ PageInv K s' tabs (held.erase p) := by
  refine ⟨_, if_neg (inv.inRange (k := .held) hp), ?_⟩
  exact (inv.setPage_held _ hp).giveFree hp

end

/-! ## A node gets a child -/

theorem mem_setPte {x : Fin 512} (m : ℕ) :
    (s.setPte n x e).mem m = if m = n then update (s.mem n) x e else s.mem m := by
  simp only [setPte, VmState.setPage, update_apply]

theorem child_setPte {x : Fin 512} {m : ℕ} {i : Fin 512} :
    child (s.setPte n x e).mem m i = if m = n ∧ i = x then (if e.valid then some e.ppn else none)
      else child s.mem m i := by
  simp only [child, setPte, VmState.setPage, update_apply]
  grind

section LinkNode

/-! A page `p` of zeros in the hands of the caller becomes the child `x` of the node `n` at `path`,
on one of the upper two levels. -/

variable {x : Fin 512} (inv : PageInv K s tabs held) (hT : tabs t = some T) (hlen : path.length ≤ 1)
  (hn : follow (child s.mem) T.root path = some n) (hx : child s.mem n x = none) (hp : p ∈ held)
  (hzero : ∀ i, s.mem p i = .zero)

include inv hT hlen hn hx hp hzero

/-- Only the path to the new node leads elsewhere. -/
theorem follow_link {t' : ℕ} {T' : PageMap} {path' : List (Fin 512)} (hT' : tabs t' = some T')
    (hlen' : path'.length ≤ 2) :
    follow (child (s.setPte n x ⟨p, Pte.flagV⟩).mem) T'.root path' =
      if t' = t ∧ path' = path ++ [x] then some p else follow (child s.mem) T'.root path' := by
  have hnext (b : ℕ) (i : Fin 512) (hbi : ¬ (b = n ∧ i = x)) :
      child (s.setPte n x ⟨p, Pte.flagV⟩).mem b i = child s.mem b i := by
        rw [child_setPte, if_neg hbi]
  have hpn : p ≠ n :=
    fun he => inv.not_node (k := .held) hp (fun _ _ => nofun) hT (by omega) (he ▸ hn)
  have huniq (q : List (Fin 512))
    (hq : q.length ≤ path.length) (hqn : follow (child s.mem) T.root q = some n) :
    q = path := (inv.node_unique hT hT (by omega) (by omega) hqn hn).2
  by_cases hstep : t' = t ∧ ∃ r, path' = path ++ x :: r
  · obtain ⟨rfl, r, rfl⟩ := hstep
    obtain rfl : T = T' := Option.some.inj (hT.symm.trans hT')
    have hnew : child (s.setPte n x ⟨p, Pte.flagV⟩).mem n x = some p := by
      rw [child_setPte, if_pos ⟨rfl, rfl⟩, if_pos (Pte.valid_flagV p)]
    rw [follow_step hnext hn huniq, hnew, Option.bind_some]
    cases r with
    | nil => rw [if_pos ⟨rfl, rfl⟩, follow_nil]
    | cons i r =>
      -- the new page has no children, and the old entry had none
      have hempty : child (s.setPte n x ⟨p, Pte.flagV⟩).mem p i = none := by
        rw [hnext p i fun h => hpn h.1, child, hzero]
        rfl
      rw [if_neg (by simp), follow_cons, hempty, follow_append, hn, Option.bind_some, follow_cons,
        hx]
      rfl
  · rw [if_neg fun h => hstep ⟨h.1, [], h.2⟩]
    refine follow_of_not_step hnext fun r q hpath hr => hstep ?_
    have hrlen : r.length ≤ 2 := by
      have := congrArg List.length hpath
      rw [List.length_append, List.length_cons] at this
      omega
    obtain ⟨rfl, rfl⟩ := inv.node_unique hT' hT hrlen (by omega) hr hn
    exact ⟨rfl, q, hpath⟩

theorem leafPte_link {t' v : ℕ} {T' : PageMap} (hT' : tabs t' = some T') :
    leafPte (s.setPte n x ⟨p, Pte.flagV⟩).mem T'.root v = leafPte s.mem T'.root v := by
  have hpn : p ≠ n :=
    fun he => inv.not_node (k := .held) hp (fun _ _ => nofun) hT (by omega) (he ▸ hn)
  rw [leafPte, leafPte, follow_link inv hT hlen hn hx hp hzero hT' (length_vpnDir v).le]
  split_ifs with hnew
  · obtain ⟨rfl, hdir⟩ := hnew
    obtain rfl : T = T' := Option.some.inj (hT.symm.trans hT')
    rw [hdir, follow_concat, hn, Option.bind_some, mem_setPte, if_neg hpn, hzero, Option.bind_some,
      hx]
    rfl
  · cases hm : follow (child s.mem) T'.root (vpnDir v) with
    | none => rfl
    | some m =>
      -- the node of the entry is on the third level, so it is not `n`
      have hmn : m ≠ n := by
        rintro rfl
        have hsame := (inv.node_unique hT' hT (length_vpnDir v).le (by omega) hm hn).2
        have := congrArg List.length hsame
        rw [length_vpnDir] at this
        omega
      simp only [Option.bind_some, mem_setPte, if_neg hmn]

/-- The page `p` becomes a node of the table. -/
theorem linkNode : PageInv K (s.setPte n x ⟨p, Pte.flagV⟩) tabs (held.erase p) := by
  have hpath : (path ++ [x]).length ≤ 2 := by
    rw [List.length_append, List.length_singleton]
    omega
  have hfollow {t' : ℕ} {T' : PageMap} {path' : List (Fin 512)} (hT' : tabs t' = some T')
      (hlen' : path'.length ≤ 2) := follow_link inv hT hlen hn hx hp hzero hT' hlen'
  refine ⟨?_, inv.free_nodup, inv.held_nodup.erase p, ?_, fun t' T' v hT' hv => ?_, inv.bound,
    inv.perm, inv.kend⟩
  · refine inv.exact.transfer (k := .held) (l := .node t (path ++ [x])) hp nofun (fun q => ?_)
      (fun q => ?_) fun k hk hl q => ?_
    · show q ∈ held.erase p ↔ q ∈ held ∧ q ≠ p
      rw [inv.held_nodup.mem_erase_iff, and_comm]
    · have hnone : ¬ Owns s tabs held (.node t (path ++ [x])) q := by
        rintro ⟨_, T', hT', hq⟩
        obtain rfl : T = T' := Option.some.inj (hT.symm.trans hT')
        rw [follow_concat, hn, Option.bind_some, hx] at hq
        exact nomatch hq
      simp only [hnone, false_or]
      constructor
      · rintro ⟨_, T', hT', hq⟩
        rw [hfollow hT' hpath, if_pos ⟨rfl, rfl⟩] at hq
        exact (Option.some.inj hq).symm
      · rintro rfl
        exact ⟨hpath, T, hT, by rw [hfollow hT hpath, if_pos ⟨rfl, rfl⟩]⟩
    · cases k with
      | free => exact Iff.rfl
      | held => exact absurd rfl hk
      | node t' path' =>
        refine and_congr_right fun hlen' => exists_congr fun T' => and_congr_right fun hT' => ?_
        rw [hfollow hT' hlen', if_neg]
        rintro ⟨rfl, rfl⟩
        exact hl rfl
      | page t' v => exact Iff.rfl
  · intro t' T' path' m i hT' hlen' hm
    rw [hfollow hT' (by omega)] at hm
    rw [mem_setPte]
    split_ifs at hm with hnew
    · obtain rfl : p = m := Option.some.inj hm
      have hpn : p ≠ n :=
        fun he => inv.not_node (k := .held) hp (fun _ _ => nofun) hT (by omega) (he ▸ hn)
      rw [if_neg hpn, hzero]
      exact fun hv => nomatch hv
    · split_ifs with hmn
      · subst hmn
        rw [update_apply]
        split_ifs
        · exact fun _ => Pte.rwx_flagV p
        · exact inv.inner t' T' path' m i hT' hlen' hm
      · exact inv.inner t' T' path' m i hT' hlen' hm
  · rw [leafPte_link inv hT hlen hn hx hp hzero hT', inv.leaf t' T' v hT' hv]

end LinkNode

/-! ## An entry of the last level -/

section Entry

/-! The entry of the virtual page `v` of table `t` becomes `e`. -/

variable (inv : PageInv K s tabs held) (hT : tabs t = some T) (hv : v < 2 ^ 27)
  (hn : follow (child s.mem) T.root (vpnDir v) = some n)

include inv hT hn

theorem follow_entry {t' : ℕ} {T' : PageMap} (hT' : tabs t' = some T') (hlen : path.length ≤ 2) :
    follow (child (s.setPte n (vpnIdx v) e).mem) T'.root path =
      follow (child s.mem) T'.root path := by
  refine follow_of_not_step (n := n) (x := vpnIdx v)
    (fun b i hbi => by rw [child_setPte, if_neg hbi])
    fun r q hpath hr => ?_
  -- the node is on the last level, and the path would have to go on from there
  have hl := congrArg List.length hpath
  rw [List.length_append, List.length_cons] at hl
  have hsame := (inv.node_unique hT' hT (by omega) (length_vpnDir v).le hr hn).2
  rw [hsame, length_vpnDir] at hl
  omega

include hv

theorem leafPte_entry {t' w : ℕ} {T' : PageMap} (hT' : tabs t' = some T') (hw : w < 2 ^ 27) :
    leafPte (s.setPte n (vpnIdx v) e).mem T'.root w =
      if t' = t ∧ w = v then (if e.valid then some e else none) else leafPte s.mem T'.root w := by
  rw [leafPte, leafPte, inv.follow_entry hT hn hT' (length_vpnDir w).le]
  split_ifs with hself hvalid
  · obtain ⟨rfl, rfl⟩ := hself
    obtain rfl : T = T' := Option.some.inj (hT.symm.trans hT')
    simp only [hn, Option.bind_some, mem_setPte, if_true, update_self, hvalid]
  · obtain ⟨rfl, rfl⟩ := hself
    obtain rfl : T = T' := Option.some.inj (hT.symm.trans hT')
    simp only [hn, Option.bind_some, mem_setPte, if_true, update_self, hvalid]
    rfl
  · cases hm : follow (child s.mem) T'.root (vpnDir w) with
    | none => rfl
    | some m =>
      have hmem : (s.setPte n (vpnIdx v) e).mem m (vpnIdx w) = s.mem m (vpnIdx w) := by
        rw [mem_setPte]
        split_ifs with hmn
        · subst hmn
          obtain ⟨rfl, hdir⟩ :=
            inv.node_unique hT' hT (length_vpnDir w).le (length_vpnDir v).le hm hn
          have hidx : vpnIdx w ≠ vpnIdx v := fun hi => hself ⟨rfl, vpn_inj hw hv hdir hi⟩
          exact update_of_ne hidx ..
        · rfl
      simp only [Option.bind_some, hmem]

/-- The memory holds the changed table; the places of the pages are a matter of the particular
change. -/
theorem setEntry {held' : List ℕ} {o : Option Pte} (ho : (if e.valid then some e else none) = o)
    (hexact : Exact s.InRange (Owns (s.setPte n (vpnIdx v) e) (tabs.set t v o) held'))
    (hheld : held'.Nodup)
    (hb : o.isSome = true → v < 2 ^ 26) (hperm : o.isSome = true → e.rwx = true) :
    PageInv K (s.setPte n (vpnIdx v) e) (tabs.set t v o) held' := by
  refine ⟨hexact, inv.free_nodup, hheld, ?_, ?_, ?_, ?_, inv.kend⟩
  · intro t' T' path m i hT' hlen hm
    obtain ⟨T₀, hT₀, hroot, _⟩ := PageMaps.of_set hT'
    rw [hroot, inv.follow_entry hT hn hT₀ (by omega)] at hm
    have hmn : m ≠ n := by
      rintro rfl
      have hsame := (inv.node_unique hT₀ hT (by omega) (length_vpnDir v).le hm hn).2
      rw [hsame, length_vpnDir] at hlen
      omega
    rw [mem_setPte, if_neg hmn]
    exact inv.inner t' T₀ path m i hT₀ hlen hm
  · intro t' T' w hT' hw
    obtain ⟨T₀, hT₀, hroot, hleaf⟩ := PageMaps.of_set hT'
    rw [hroot, inv.leafPte_entry hT hv hn hT₀ hw, hleaf, ho, inv.leaf t' T₀ w hT₀ hw]
  · intro t' T' w e' hT' he'
    obtain ⟨T₀, hT₀, _, hleaf⟩ := PageMaps.of_set hT'
    rw [hleaf] at he'
    split_ifs at he' with hself
    · exact hself.2 ▸ hb (by rw [he']; rfl)
    · exact inv.bound t' T₀ w e' hT₀ he'
  · intro t' T' w e' hT' he'
    obtain ⟨T₀, hT₀, _, hleaf⟩ := PageMaps.of_set hT'
    rw [hleaf] at he'
    split_ifs at he' with hself
    · have hsome : o.isSome = true := by rw [he']; rfl
      rw [he'] at ho
      split_ifs at ho
      exact Option.some.inj ho ▸ hperm hsome
    · exact inv.perm t' T₀ w e' hT₀ he'

omit hv

/-- A node stays where it is. -/
theorem owns_node_entry {held' : List ℕ} {o : Option Pte} {t' q : ℕ} :
    Owns (s.setPte n (vpnIdx v) e) (tabs.set t v o) held' (.node t' path) q ↔
      Owns s tabs held (.node t' path) q := by
  refine and_congr_right fun hlen => ?_
  constructor
  · rintro ⟨T', hT', hq⟩
    obtain ⟨T₀, hT₀, hroot, _⟩ := PageMaps.of_set hT'
    rw [hroot, inv.follow_entry hT hn hT₀ hlen] at hq
    exact ⟨T₀, hT₀, hq⟩
  · rintro ⟨T₀, hT₀, hq⟩
    obtain ⟨T', hT', hroot, _⟩ := PageMaps.to_set (o := o) (t := t) (v := v) hT₀
    exact ⟨T', hT', by rw [hroot, inv.follow_entry hT hn hT₀ hlen, hq]⟩

omit inv hT hn

/-- A user page at another place stays there. -/
theorem owns_page_set {s' : VmState} {held' : List ℕ} {o : Option Pte} {t' w q : ℕ}
    (hne : ¬ (t' = t ∧ w = v)) :
    Owns s' (tabs.set t v o) held' (.page t' w) q ↔ Owns s tabs held (.page t' w) q := by
  refine and_congr_right fun _ => ?_
  constructor
  · rintro ⟨T', e', hT', he', hq⟩
    obtain ⟨T₀, hT₀, _, hleaf⟩ := PageMaps.of_set hT'
    rw [hleaf, if_neg hne] at he'
    exact ⟨T₀, e', hT₀, he', hq⟩
  · rintro ⟨T₀, e', hT₀, he', hq⟩
    obtain ⟨T', hT', _, hleaf⟩ := PageMaps.to_set (o := o) (t := t) (v := v) hT₀
    exact ⟨T', e', hT', by rw [hleaf, if_neg hne, he'], hq⟩

include inv hT hn

/-- A page of the caller is mapped at a user address. -/
theorem mapUser (hv : v < trapframeVpn) (hnone : T.leaf v = none) (hp : e.ppn ∈ held)
    (hvalid : e.valid = true) (hrwx : e.rwx = true) :
    PageInv K (s.setPte n (vpnIdx v) e) (tabs.set t v (some e)) (held.erase e.ppn) := by
  have hv' : v < 2 ^ 26 := by rw [trapframeVpn] at hv; omega
  refine inv.setEntry hT (by omega) hn (by rw [if_pos hvalid]) ?_ (inv.held_nodup.erase _)
    (fun _ => hv') fun _ => hrwx
  refine inv.exact.transfer (k := .held) (l := .page t v) hp nofun (fun q => ?_) (fun q => ?_)
    fun k hk hl q => ?_
  · show q ∈ held.erase e.ppn ↔ q ∈ held ∧ q ≠ e.ppn
    rw [inv.held_nodup.mem_erase_iff, and_comm]
  · have hbefore : ¬ Owns s tabs held (.page t v) q := by
      rintro ⟨_, T', e', hT', he', _⟩
      obtain rfl : T = T' := Option.some.inj (hT.symm.trans hT')
      exact nomatch hnone.symm.trans he'
    simp only [hbefore, false_or]
    constructor
    · rintro ⟨_, T', e', hT', he', rfl⟩
      obtain ⟨_, _, _, hleaf⟩ := PageMaps.of_set hT'
      rw [hleaf, if_pos ⟨rfl, rfl⟩] at he'
      rw [Option.some.inj he']
    · rintro rfl
      obtain ⟨T', hT', _, hleaf⟩ := PageMaps.to_set (o := some e) (t := t) (v := v) hT
      exact ⟨hv, T', e, hT', by rw [hleaf, if_pos ⟨rfl, rfl⟩], rfl⟩
  · cases k with
    | free => exact Iff.rfl
    | held => exact absurd rfl hk
    | node t' path => exact inv.owns_node_entry hT hn
    | page t' w => exact owns_page_set fun h => hl (by rw [h.1, h.2])

/-- An entry at `TRAPFRAME` or above gives no page to anyone and takes none away. -/
theorem exact_lent (hv : trapframeVpn ≤ v) {o : Option Pte} :
    Exact s.InRange (Owns (s.setPte n (vpnIdx v) e) (tabs.set t v o) held) := by
  refine inv.exact.congr (fun _ => Iff.rfl) fun k q => ?_
  cases k with
  | free => exact Iff.rfl
  | held => exact Iff.rfl
  | node t' path => exact inv.owns_node_entry hT hn
  | page t' w =>
    by_cases hw : w < trapframeVpn
    · exact owns_page_set fun h => by omega
    · exact ⟨fun h => absurd h.1 hw, fun h => absurd h.1 hw⟩

/-- A page is mapped at `TRAPFRAME` or above. -/
theorem mapLent (hv : trapframeVpn ≤ v) (hv' : v < 2 ^ 26) (hvalid : e.valid = true)
    (hrwx : e.rwx = true) : PageInv K (s.setPte n (vpnIdx v) e) (tabs.set t v (some e)) held :=
  inv.setEntry hT (by omega) hn (by rw [if_pos hvalid]) (inv.exact_lent hT hn hv) inv.held_nodup
    (fun _ => hv') fun _ => hrwx

/-- A user page goes back to the caller. -/
theorem unmapUser (hv : v < trapframeVpn) (he : T.leaf v = some e) :
    PageInv K (s.setPte n (vpnIdx v) .zero) (tabs.set t v none) (e.ppn :: held) := by
  have hv' : v < 2 ^ 27 := by rw [trapframeVpn] at hv; omega
  have hpage : Owns s tabs held (.page t v) e.ppn := ⟨hv, T, e, hT, he, rfl⟩
  have hheld : e.ppn ∉ held := fun hp => nomatch inv.exact.unique e.ppn (.page t v) .held hpage hp
  refine inv.setEntry hT hv' hn (by rfl) ?_ (List.nodup_cons.mpr ⟨hheld, inv.held_nodup⟩) nofun
    nofun
  refine inv.exact.transfer (k := .page t v) (l := .held) hpage nofun (fun q => ?_) (fun q => ?_)
    fun k hk hl q => ?_
  · have hafter : ¬ Owns (s.setPte n (vpnIdx v) .zero) (tabs.set t v none) (e.ppn :: held)
        (.page t v) q := by
      rintro ⟨_, T', e', hT', he', _⟩
      obtain ⟨_, _, _, hleaf⟩ := PageMaps.of_set hT'
      rw [hleaf, if_pos ⟨rfl, rfl⟩] at he'
      exact nomatch he'
    simp only [hafter, false_iff, not_and, not_not]
    rintro ⟨_, T', e', hT', he', rfl⟩
    obtain rfl : T = T' := Option.some.inj (hT.symm.trans hT')
    rw [Option.some.inj (he.symm.trans he')]
  · show q ∈ e.ppn :: held ↔ q ∈ held ∨ q = e.ppn
    rw [List.mem_cons, or_comm]
  · cases k with
    | free => exact Iff.rfl
    | held => exact absurd rfl hl
    | node t' path => exact inv.owns_node_entry hT hn
    | page t' w => exact owns_page_set fun h => hk (by rw [h.1, h.2])

/-- A mapping at `TRAPFRAME` or above goes away. -/
theorem unmapLent (hv : trapframeVpn ≤ v) (hv' : v < 2 ^ 26) :
    PageInv K (s.setPte n (vpnIdx v) .zero) (tabs.set t v none) held :=
  inv.setEntry hT (by omega) hn (by rfl) (inv.exact_lent hT hn hv) inv.held_nodup nofun nofun

end Entry

/-! ## A table is created -/

theorem follow_zero (hzero : ∀ i, s.mem p i = .zero) :
    follow (child s.mem) p path = if path = [] then some p else none := by
  cases path with
  | nil => rw [if_pos rfl, follow_nil]
  | cons i path =>
    rw [if_neg (by simp), follow_cons, child, hzero]
    rfl

/-- A page of zeros becomes the root of a new table. -/
theorem create (inv : PageInv K s tabs held) (ht : tabs t = none) (hp : p ∈ held)
    (hzero : ∀ i, s.mem p i = .zero) :
    PageInv K s (update tabs t (some ⟨p, fun _ => none⟩)) (held.erase p) := by
  have hnew (T' : PageMap) (hT' : update tabs t (some ⟨p, fun _ => none⟩) t = some T') :
      T' = ⟨p, fun _ => none⟩ := by
    rw [update_self] at hT'
    exact (Option.some.inj hT').symm
  refine ⟨?_, inv.free_nodup, inv.held_nodup.erase p, ?_, ?_, ?_, ?_, inv.kend⟩
  · refine inv.exact.transfer (k := .held) (l := .node t []) hp nofun (fun q => ?_) (fun q => ?_)
      fun k hk hl q => ?_
    · show q ∈ held.erase p ↔ q ∈ held ∧ q ≠ p
      rw [inv.held_nodup.mem_erase_iff, and_comm]
    · have hbefore : ¬ Owns s tabs held (.node t []) q := by
        rintro ⟨_, T', hT', _⟩
        exact nomatch ht.symm.trans hT'
      simp only [hbefore, false_or]
      constructor
      · rintro ⟨_, T', hT', hq⟩
        rw [hnew T' hT', follow_nil] at hq
        exact (Option.some.inj hq).symm
      · rintro rfl
        exact ⟨by simp, ⟨q, fun _ => none⟩, update_self .., rfl⟩
    · cases k with
      | free => exact Iff.rfl
      | held => exact absurd rfl hk
      | node t' path =>
        refine and_congr_right fun hlen => ?_
        by_cases he : t' = t
        · subst he
          have hpath : path ≠ [] := fun h => hl (by rw [h])
          constructor
          · rintro ⟨T', hT', hq⟩
            rw [hnew T' hT', follow_zero hzero, if_neg hpath] at hq
            exact nomatch hq
          · rintro ⟨T', hT', _⟩
            exact nomatch ht.symm.trans hT'
        · rw [update_of_ne he]
      | page t' v =>
        refine and_congr_right fun _ => ?_
        by_cases he : t' = t
        · subst he
          constructor
          · rintro ⟨T', e', hT', he', _⟩
            rw [hnew T' hT'] at he'
            exact nomatch he'
          · rintro ⟨T', e', hT', _⟩
            exact nomatch ht.symm.trans hT'
        · rw [update_of_ne he]
  · intro t' T' path n i hT' hlen hn
    by_cases he : t' = t
    · subst he
      rw [hnew T' hT', follow_zero hzero] at hn
      split_ifs at hn
      rw [← Option.some.inj hn, hzero, Pte.valid_zero]
      exact fun h => nomatch h
    · rw [update_of_ne he] at hT'
      exact inv.inner t' T' path n i hT' hlen hn
  · intro t' T' v hT' hv
    by_cases he : t' = t
    · subst he
      rw [hnew T' hT', leafPte, follow_zero hzero, if_neg (by simp [vpnDir])]
      rfl
    · rw [update_of_ne he] at hT'
      exact inv.leaf t' T' v hT' hv
  · intro t' T' v e hT' he'
    by_cases he : t' = t
    · subst he
      rw [hnew T' hT'] at he'
      exact nomatch he'
    · rw [update_of_ne he] at hT'
      exact inv.bound t' T' v e hT' he'
  · intro t' T' v e hT' he'
    by_cases he : t' = t
    · subst he
      rw [hnew T' hT'] at he'
      exact nomatch he'
    · rw [update_of_ne he] at hT'
      exact inv.perm t' T' v e hT' he'

end PageInv

end NeulaCpu.Xv6

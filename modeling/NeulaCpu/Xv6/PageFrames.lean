import NeulaCpu.Xv6.PageOwners

/-!
# What a page table function leaves alone

A function that works on one table writes pages of that table and pages from the free list. All
other pages are foreign to it and keep their contents.
-/

namespace NeulaCpu.Xv6

open Forest Ownership VmState

/-! ## `kalloc` and `kfree` -/

namespace VmState

theorem mem_setPage (s : VmState) (p : ℕ) (content : Fin 512 → Pte) :
    (s.setPage p content).mem = Function.update s.mem p content := rfl

variable {s t : VmState}

theorem kfree_eq {p : ℕ} (h : s.kfree p = .ok t) :
    t = { s.setPage p (fun _ => ⟨0x404040404040, 0x101⟩) with freelist := p :: s.freelist } := by
  unfold kfree at h
  split_ifs at h
  exact (Except.ok.inj h).symm

theorem kfree_mem {p q : ℕ} (h : s.kfree p = .ok t) (hq : q ≠ p) : t.mem q = s.mem q := by
  rw [kfree_eq h]
  exact Function.update_of_ne hq ..

theorem kfree_kend {p : ℕ} (h : s.kfree p = .ok t) : t.kend = s.kend := by
  rw [kfree_eq h]
  rfl

/-- `kalloc` fails and changes nothing, or takes the first page of the free list. -/
theorem kalloc_cases (s : VmState) : s.kalloc = (none, { s with calls := s.calls + 1 }) ∨
    ∃ p l, s.freelist = p :: l ∧
      s.kalloc = (some p, { s.setPage p (fun _ => ⟨0x1414141414141, 0x105⟩) with
      freelist := l, calls := s.calls + 1 }) := by
  rw [kalloc]
  cases hdeny : s.deny s.calls with
  | true => exact .inl (if_pos rfl)
  | false =>
    rw [if_neg Bool.false_ne_true]
    cases hl : s.freelist with
    | nil => exact .inl rfl
    | cons p l => exact .inr ⟨p, l, rfl, rfl⟩

end VmState

/-! ## Foreign pages -/

/-- The place belongs neither to table `t` nor to the free list. -/
def Place.Foreign (t : ℕ) : Place → Prop
  | .free => False
  | .held => True
  | .node t' _ => t' ≠ t
  | .page t' _ => t' ≠ t

/-- The page is none of the allocator's, or its place is foreign. -/
def Foreign (s : VmState) (tabs : PageMaps) (held : List ℕ) (t p : ℕ) : Prop :=
  ¬ s.InRange p ∨ ∃ k : Place, k.Foreign t ∧ Owns s tabs held k p

/-- The foreign pages have the contents that they had. -/
structure Kept (tabs : PageMaps) (held : List ℕ) (t : ℕ) (s s' : VmState) : Prop where
  kend : s'.kend = s.kend
  mem : ∀ p, Foreign s tabs held t p → s'.mem p = s.mem p

section Kept

variable {K t p : ℕ} {s s' s'' : VmState} {tabs tabs' : PageMaps} {held held' : List ℕ}

theorem PageInv.not_foreign (inv : PageInv K s tabs held) {k : Place} (hk : Owns s tabs held k p)
    (hf : ¬ k.Foreign t) : ¬ Foreign s tabs held t p := by
  rintro (hout | ⟨l, hl, hown⟩)
  · exact hout (inv.inRange hk)
  · exact hf (inv.exact.unique p l k hown hk ▸ hl)

/-- A page of the caller that is not among `held`. -/
theorem PageInv.not_foreign_held (inv : PageInv K s tabs held') (hp : p ∈ held') (hnot : p ∉ held) :
    ¬ Foreign s tabs held t p := by
  rintro (hout | ⟨k, hk, hown⟩)
  · exact hout (inv.inRange (k := .held) hp)
  · cases k with
    | free => exact hk
    | held => exact hnot hown
    | node t' path => exact Place.noConfusion (inv.exact.unique p (.node t' path) .held hown hp)
    | page t' v => exact Place.noConfusion (inv.exact.unique p (.page t' v) .held hown hp)

/-- The nodes of the other tables. -/
theorem Kept.node (h : Kept tabs held t s s') {t' n : ℕ} {T : PageMap} {path : List (Fin 512)}
    (hne : t' ≠ t) (hT : tabs t' = some T) (hlen : path.length ≤ 2)
    (hn : Forest.follow (child s.mem) T.root path = some n) :
    s'.mem n = s.mem n :=
  h.mem n (.inr ⟨.node t' path, hne, hlen, T, hT, hn⟩)

theorem Kept.follow (h : Kept tabs held t s s') {t' : ℕ} {T : PageMap} {path : List (Fin 512)}
    (hne : t' ≠ t) (hT : tabs t' = some T) (hlen : path.length ≤ 2) :
    Forest.follow (child s'.mem) T.root path = Forest.follow (child s.mem) T.root path := by
  refine follow_congr fun q i r b hpath hb => ?_
  have hq : q.length ≤ 2 := by
    rw [hpath, List.length_append] at hlen
    omega
  rw [child, child, h.node hne hT hq hb]

/-- Foreign pages stay foreign as long as they keep their contents. -/
theorem Kept.foreign (h : Kept tabs held t s s') (htabs : ∀ t' ≠ t, tabs' t' = tabs t')
    (hp : Foreign s tabs held t p) : Foreign s' tabs' held t p := by
  rcases hp with hout | ⟨k, hk, hown⟩
  · refine .inl fun hin => hout ?_
    rwa [VmState.InRange, h.kend] at hin
  · refine .inr ⟨k, hk, ?_⟩
    cases k with
    | free => exact hk.elim
    | held => exact hown
    | page t' v =>
      obtain ⟨hv, T, e, hT, he, hpp⟩ := hown
      exact ⟨hv, T, e, (htabs t' hk).trans hT, he, hpp⟩
    | node t' path =>
      obtain ⟨hlen, T, hT, hn⟩ := hown
      exact ⟨hlen, T, (htabs t' hk).trans hT, (h.follow hk hT hlen).trans hn⟩

theorem Kept.refl (tabs : PageMaps) (held : List ℕ) (t : ℕ) (s : VmState) : Kept tabs held t s s :=
  ⟨rfl, fun _ _ => rfl⟩

theorem Kept.trans (h : Kept tabs held t s s') (h' : Kept tabs held t s' s'') :
    Kept tabs held t s s'' where
  kend := h'.kend.trans h.kend
  mem p hp := (h'.mem p (h.foreign (fun _ _ => rfl) hp)).trans (h.mem p hp)

/-- Only the other tables matter. -/
theorem Kept.congr (h : Kept tabs held t s s') (htabs : ∀ t' ≠ t, tabs' t' = tabs t') :
    Kept tabs' held t s s' where
  kend := h.kend
  mem p hp := h.mem p ((Kept.refl tabs' held t s).foreign (fun t' ht' => (htabs t' ht').symm) hp)

theorem Kept.of_update {o : Option PageMap} (h : Kept (Function.update tabs t o) held t s s') :
    Kept tabs held t s s' :=
  h.congr fun _ ht' => (Function.update_of_ne ht' ..).symm

theorem Kept.of_set {v : ℕ} {o : Option Pte} (h : Kept (tabs.set t v o) held t s s') :
    Kept tabs held t s s' := h.of_update

theorem Kept.mono (h : Kept tabs held' t s s') (hsub : ∀ q ∈ held, q ∈ held') :
    Kept tabs held t s s' where
  kend := h.kend
  mem p hp := by
    refine h.mem p (hp.imp_right ?_)
    rintro ⟨k, hk, hown⟩
    refine ⟨k, hk, ?_⟩
    cases k with
    | free => exact hk.elim
    | held => exact hsub p hown
    | node t' path => exact hown
    | page t' v => exact hown

/-- Only pages that are not foreign are written. -/
theorem Kept.of_writes (S : ℕ → Prop) (hS : ∀ p, S p → ¬ Foreign s tabs held t p)
    (hmem : ∀ q, ¬ S q → s'.mem q = s.mem q) (hkend : s'.kend = s.kend) : Kept tabs held t s s' :=
  ⟨hkend, fun p hp => hmem p fun hs => hS p hs hp⟩

/-- The free list and the counter of calls do not matter. -/
theorem Kept.of_mem (h : Kept tabs held t s s') (hmem : s''.mem = s'.mem)
    (hkend : s''.kend = s'.kend) : Kept tabs held t s s'' :=
  ⟨hkend.trans h.kend, fun p hp => by rw [hmem, h.mem p hp]⟩

end Kept

/-- The user pages of the table have the contents that they had, too. -/
structure Fixed (tabs : PageMaps) (held : List ℕ) (t : ℕ) (T : PageMap) (s s' : VmState) : Prop
    extends Kept tabs held t s s' where
  own : ∀ v < trapframeVpn, ∀ e, T.leaf v = some e → s'.mem e.ppn = s.mem e.ppn

section Fixed

variable {K t p : ℕ} {s s' s'' : VmState} {tabs tabs' : PageMaps} {held held' : List ℕ}
  {T : PageMap}

theorem Fixed.refl (tabs : PageMaps) (held : List ℕ) (t : ℕ) (T : PageMap) (s : VmState) :
    Fixed tabs held t T s s :=
  ⟨.refl .., fun _ _ _ _ => rfl⟩

theorem Fixed.trans (h : Fixed tabs held t T s s') (h' : Fixed tabs held t T s' s'') :
    Fixed tabs held t T s s'' :=
  ⟨h.toKept.trans h'.toKept, fun v hv e he => (h'.own v hv e he).trans (h.own v hv e he)⟩

/-- Only pages that are free or nodes of the table are written. -/
theorem Fixed.of_writes (inv : PageInv K s tabs held) (hT : tabs t = some T) (S : ℕ → Prop)
    (hS : ∀ p, S p →
      p ∈ s.freelist ∨ ∃ path, path.length ≤ 2 ∧ follow (child s.mem) T.root path = some p)
    (hmem : ∀ q, ¬ S q → s'.mem q = s.mem q) (hkend : s'.kend = s.kend) :
    Fixed tabs held t T s s' := by
  have hplace (p : ℕ) (hp : S p) : ∃ k : Place, (k = .free ∨ ∃ path, k = .node t path) ∧
      Owns s tabs held k p := by
    rcases hS p hp with hp | ⟨path, hlen, hn⟩
    · exact ⟨.free, .inl rfl, hp⟩
    · exact ⟨.node t path, .inr ⟨path, rfl⟩, hlen, T, hT, hn⟩
  refine ⟨.of_writes S (fun p hp => ?_) hmem hkend, fun v hv e he => hmem _ fun hp => ?_⟩
  · obtain ⟨k, hk, hown⟩ := hplace p hp
    refine inv.not_foreign hown ?_
    rcases hk with rfl | ⟨path, rfl⟩
    · exact id
    · exact fun hne => hne rfl
  · obtain ⟨k, hk, hown⟩ := hplace _ hp
    have hsame := inv.exact.unique e.ppn (.page t v) k ⟨hv, T, e, hT, he, rfl⟩ hown
    rcases hk with rfl | ⟨path, rfl⟩
    · exact Place.noConfusion hsame
    · exact Place.noConfusion hsame

/-- Only a page that the caller has beside `held` is written. -/
theorem Fixed.of_held (inv : PageInv K s tabs (p :: held)) (hT : tabs t = some T)
    (hmem : ∀ q ≠ p, s'.mem q = s.mem q) (hkend : s'.kend = s.kend) : Fixed tabs held t T s s' where
  toKept := by
    refine .of_writes (· = p) (fun q hq => ?_) hmem hkend
    rw [hq]
    exact inv.not_foreign_held List.mem_cons_self (List.nodup_cons.mp inv.held_nodup).1
  own v hv e he := by
    refine hmem e.ppn fun hep => ?_
    have hpage : Owns s tabs (p :: held) (.page t v) p := ⟨hv, T, e, hT, he, hep⟩
    exact Place.noConfusion (inv.exact.unique p (.page t v) .held hpage List.mem_cons_self)

theorem Fixed.mono (h : Fixed tabs held' t T s s') (hsub : ∀ q ∈ held, q ∈ held') :
    Fixed tabs held t T s s' :=
  ⟨h.toKept.mono hsub, h.own⟩

/-- The pages of a smaller map, and the other tables, are all that matters. -/
theorem Fixed.congr {T' : PageMap} (h : Fixed tabs held t T s s')
    (htabs : ∀ t' ≠ t, tabs' t' = tabs t')
    (hleaf : ∀ v < trapframeVpn, ∀ e, T'.leaf v = some e → T.leaf v = some e) :
    Fixed tabs' held t T' s s' :=
  ⟨h.toKept.congr htabs, fun v hv e he => h.own v hv e (hleaf v hv e he)⟩

theorem Fixed.of_mem (h : Fixed tabs held t T s s') (hmem : s''.mem = s'.mem)
    (hkend : s''.kend = s'.kend) : Fixed tabs held t T s s'' :=
  ⟨h.toKept.of_mem hmem hkend, fun v hv e he => by rw [hmem, h.own v hv e he]⟩

/-- `kalloc` fails, or hands the caller a page. -/
theorem PageInv.kalloc_spec (inv : PageInv K s tabs held) :
    (∃ s', s.kalloc = (none, s') ∧
        PageInv K s' tabs held ∧ s'.mem = s.mem ∧ s'.freelist = s.freelist) ∨
      ∃ p s', s.kalloc = (some p, s') ∧ PageInv K s' tabs (p :: held) ∧
        s.freelist = p :: s'.freelist ∧ ∃ content, s'.mem = (s.setPage p content).mem := by
  rcases s.kalloc_cases with hs | ⟨p, l, hl, hs⟩
  · exact .inl ⟨_, hs, inv.setCalls _, rfl, rfl⟩
  · exact .inr ⟨p, _, hs, ((inv.takeFree hl).setPage_held _ List.mem_cons_self).setCalls _, hl, _,
      rfl⟩

end Fixed

end NeulaCpu.Xv6

import NeulaCpu.Xv6.PageFrames

/-!
# Freeing a page table

`freewalk` puts a page on the free list, filled with ones, while its parent still points to it. So
the memory holds no page table while it runs, and it is described by what it does to the pages of
the tree: all of them are freed once and no other page changes. This works because no page is in the
tree twice.
-/

namespace NeulaCpu.Xv6

open Forest Ownership VmState Function

namespace VmState

variable {s s₁ s₂ : VmState} {a c d n : ℕ} {i : Fin 512}

/-- A tree of `d` levels below its root `a` without a mapped page. -/
structure Bare (s : VmState) (a d : ℕ) : Prop where
  distinct : ∀ p q n, p.length ≤ d → q.length ≤ d → follow (child s.mem) a p = some n →
    follow (child s.mem) a q = some n → p = q
  inner : ∀ p n i, p.length < d → follow (child s.mem) a p = some n → (s.mem n i).valid = true →
    (s.mem n i).rwx = false
  last : ∀ p n i, p.length = d → follow (child s.mem) a p = some n → (s.mem n i).valid = false
  range : ∀ p n, p.length ≤ d → follow (child s.mem) a p = some n → s.InRange n

/-- The pages of the tree. -/
def Sub (s : VmState) (a d q : ℕ) : Prop := ∃ p, p.length ≤ d ∧ follow (child s.mem) a p = some q

/-- The pages of the tree below the child `i` of the root. -/
def Under (s : VmState) (a d : ℕ) (i : Fin 512) (q : ℕ) : Prop :=
  ∃ p, p.length < d ∧ follow (child s.mem) a (i :: p) = some q

/-- The pages `S` are put on the free list, once each, and nothing else changes. -/
structure Freed (s t : VmState) (S : ℕ → Prop) : Prop where
  list : ∃ l, t.freelist = l ++ s.freelist ∧ l.Nodup ∧ ∀ q, q ∈ l ↔ S q
  mem : ∀ q, ¬ S q → t.mem q = s.mem q
  eq : t = { s with mem := t.mem, freelist := t.freelist }

theorem child_eq_some :
    child s.mem a i = some c ↔ (s.mem a i).valid = true ∧ (s.mem a i).ppn = c := by
  unfold child
  split_ifs with h
  · simp [h]
  · simp [h]

theorem Under.sub (h : Under s a d i n) : Sub s a d n := by
  obtain ⟨p, hp, hn⟩ := h
  exact ⟨i :: p, by rw [List.length_cons]; omega, hn⟩

/-- The root and its child trees have no page in common. -/
theorem Bare.not_under (hb : Bare s a d) : ¬ Under s a d i a := by
  rintro ⟨p, hp, hn⟩
  exact List.cons_ne_nil i p
    (hb.distinct (i :: p) [] a (by rw [List.length_cons]; omega) (by simp) hn rfl)

theorem Bare.under_unique (hb : Bare s a d) {j : Fin 512} (hi : Under s a d i n)
    (hj : Under s a d j n) : i = j := by
  obtain ⟨p, hp, hpn⟩ := hi
  obtain ⟨q, hq, hqn⟩ := hj
  have hpq :=
    hb.distinct (i :: p) (j :: q) n (by rw [List.length_cons]; omega)
      (by rw [List.length_cons]; omega) hpn hqn
  exact (List.cons.inj hpq).1

/-- The tree below a child, in a memory in which its pages are as before. -/
theorem follow_under (hc : child s.mem a i = some c)
    (hmem : ∀ q, Under s a (d + 1) i q → s₁.mem q = s.mem q) {p : List (Fin 512)}
    (hp : p.length ≤ d) : follow (child s₁.mem) c p = follow (child s.mem) c p := by
  refine follow_congr fun q j r b hpath hb => ?_
  have hlen : q.length ≤ d := by
    rw [hpath, List.length_append, List.length_cons] at hp
    omega
  have hunder : Under s a (d + 1) i b := ⟨q, by omega, by rw [follow_cons, hc]; exact hb⟩
  rw [child, child, hmem b hunder]

theorem under_iff_sub (hc : child s.mem a i = some c)
    (hmem : ∀ q, Under s a (d + 1) i q → s₁.mem q = s.mem q) :
    Sub s₁ c d n ↔ Under s a (d + 1) i n := by
  constructor
  · rintro ⟨p, hp, hn⟩
    rw [follow_under hc hmem hp] at hn
    exact ⟨p, by omega, by rw [follow_cons, hc]; exact hn⟩
  · rintro ⟨p, hp, hn⟩
    rw [follow_cons, hc, Option.bind_some] at hn
    exact ⟨p, by omega, by rw [follow_under hc hmem (by omega), hn]⟩

theorem Bare.child (hb : Bare s a (d + 1)) (hc : child s.mem a i = some c)
    (hmem : ∀ q, Under s a (d + 1) i q → s₁.mem q = s.mem q) (hrange : s₁.InRange = s.InRange) :
    Bare s₁ c d := by
  have hfollow {p : List (Fin 512)}
      (hp : p.length ≤ d) {n : ℕ} (hn : follow (VmState.child s₁.mem) c p = some n) :
      follow (VmState.child s.mem) a (i :: p) = some n := by
    rw [follow_under hc hmem hp] at hn
    rw [follow_cons, hc]
    exact hn
  have hsame {p : List (Fin 512)}
    (hp : p.length ≤ d) {n : ℕ} (hn : follow (VmState.child s₁.mem) c p = some n) :
    s₁.mem n = s.mem n := hmem n ⟨p, by omega, hfollow hp hn⟩
  refine ⟨fun p q n hp hq hpn hqn => ?_, fun p n j hp hn => ?_, fun p n j hp hn => ?_,
    fun p n hp hn => ?_⟩
  · have hpq :=
      hb.distinct (i :: p) (i :: q) n (by rw [List.length_cons]; omega)
        (by rw [List.length_cons]; omega) (hfollow hp hpn) (hfollow hq hqn)
    exact (List.cons.inj hpq).2
  · rw [hsame hp.le hn]
    exact hb.inner (i :: p) n j (by rw [List.length_cons]; omega) (hfollow hp.le hn)
  · rw [hsame hp.le hn]
    exact hb.last (i :: p) n j (by rw [List.length_cons]; omega) (hfollow hp.le hn)
  · rw [hrange]
    exact hb.range (i :: p) n (by rw [List.length_cons]; omega) (hfollow hp hn)

/-! ## The loop over the entries -/

/-- The children at the indices `done` have been freed. -/
structure Looped (s : VmState) (a d : ℕ) (done : List (Fin 512)) (s₁ : VmState) : Prop where
  list : ∃ l, s₁.freelist = l ++ s.freelist ∧ l.Nodup ∧ ∀ q, q ∈ l ↔ ∃ i ∈ done, Under s a d i q
  mem : ∀ q, q ≠ a → (∀ i ∈ done, ¬ Under s a d i q) → s₁.mem q = s.mem q
  todo : ∀ i, i ∉ done → s₁.mem a i = s.mem a i
  eq : s₁ = { s with mem := s₁.mem, freelist := s₁.freelist }

/-- The body of the loop. -/
def freeEntry (d a : ℕ) (s : VmState) (i : Fin 512) : Except VmPanic VmState :=
  if (s.mem a i).valid && !(s.mem a i).rwx then do
    let s' ← freewalk d (s.mem a i).ppn s
    pure (s'.setPte a i .zero)
  else if (s.mem a i).valid then throw .freewalkLeaf
  else pure s

theorem freewalk_succ (d a : ℕ) (s : VmState) :
    freewalk (d + 1) a s = ((List.finRange 512).foldlM (freeEntry d a) s >>= fun s => s.kfree a) :=
  rfl

section Loop

variable {done : List (Fin 512)} (hb : Bare s a d)
  (hrec : ∀ i c s₁, child s.mem a i = some c → (∀ q, Under s a d i q → s₁.mem q = s.mem q) →
    s₁.InRange = s.InRange → ∃ s₂, freewalk d c s₁ = .ok s₂ ∧ Freed s₁ s₂ (Under s a d i))

include hb hrec

/-- The next entry is freed. -/
theorem freeEntry_looped (hl : Looped s a d done s₁) (hi : i ∉ done) :
    ∃ s₂, freeEntry d a s₁ i = .ok s₂ ∧ Looped s a d (i :: done) s₂ := by
  have hentry := hl.todo i hi
  by_cases hvalid : (s.mem a i).valid = true
  · have hd : 0 < d := by
      by_contra h0
      have := hb.last [] a i (by simp; omega) rfl
      simp [this] at hvalid
    have hrwx := hb.inner [] a i (by simpa using hd) rfl hvalid
    have hc : child s.mem a i = some (s.mem a i).ppn := child_eq_some.mpr ⟨hvalid, rfl⟩
    -- the pages below this child are not touched yet
    have hkeep (q : ℕ) (hq : Under s a d i q) : s₁.mem q = s.mem q := by
      refine hl.mem q (fun he => hb.not_under (he ▸ hq)) fun j hj hqj => ?_
      exact hi (hb.under_unique hq hqj ▸ hj)
    have hrange : s₁.InRange = s.InRange := by rw [hl.eq]; rfl
    obtain ⟨s₂, hs₂, hf⟩ := hrec i _ s₁ hc hkeep hrange
    refine ⟨s₂.setPte a i .zero, ?_, ?_, fun q hqa hq => ?_, fun j hj => ?_, ?_⟩
    · simp only [freeEntry, hentry, hvalid, hrwx, Bool.not_false, Bool.and_self, if_true, hs₂]
      rfl
    · obtain ⟨l₁, hl₁, hn₁, hm₁⟩ := hl.list
      obtain ⟨l₂, hl₂, hn₂, hm₂⟩ := hf.list
      refine ⟨l₂ ++ l₁, ?_, List.nodup_append.mpr ⟨hn₂, hn₁, fun x hx y hy hxy => ?_⟩, fun q => ?_⟩
      · show s₂.freelist = l₂ ++ l₁ ++ s.freelist
        rw [hl₂, hl₁, List.append_assoc]
      · obtain ⟨j, hj, hy⟩ := (hm₁ y).mp hy
        exact hi (hb.under_unique ((hm₂ x).mp hx) (hxy ▸ hy) ▸ hj)
      · rw [List.mem_append, hm₁, hm₂]
        simp only [List.mem_cons, exists_eq_or_imp]
    · have hqi : ¬ Under s a d i q := hq i List.mem_cons_self
      have hqd : ∀ j ∈ done, ¬ Under s a d j q := fun j hj => hq j (List.mem_cons_of_mem i hj)
      rw [PageInv.mem_setPte, if_neg hqa, hf.mem q hqi, hl.mem q hqa hqd]
    · have hji : j ≠ i := fun he => hj (he ▸ List.mem_cons_self)
      have hjd : j ∉ done := fun hjd => hj (List.mem_cons_of_mem i hjd)
      rw [PageInv.mem_setPte, if_pos rfl, update_of_ne hji, hf.mem a hb.not_under, hl.todo j hjd]
    · rw [setPte, setPage, hf.eq, hl.eq]
  · refine ⟨s₁, ?_, ?_, fun q hqa hq => ?_, fun j hj => ?_, hl.eq⟩
    · simp only [freeEntry, hentry, hvalid, Bool.false_and, if_false, Bool.false_eq_true]
      rfl
    · have hnone (q : ℕ) : ¬ Under s a d i q := by
        rintro ⟨p, _, hq⟩
        rw [follow_cons, child, if_neg hvalid] at hq
        cases hq
      obtain ⟨l, hl₁, hn, hm⟩ := hl.list
      refine ⟨l, hl₁, hn, fun q => ?_⟩
      rw [hm]
      simp only [List.mem_cons, exists_eq_or_imp, hnone, false_or]
    · exact hl.mem q hqa fun j hj => hq j (List.mem_cons_of_mem i hj)
    · exact hl.todo j fun hjd => hj (List.mem_cons_of_mem i hjd)

theorem foldlM_looped (is : List (Fin 512)) (hl : Looped s a d done s₁) (hnodup : is.Nodup)
    (hapart : ∀ i ∈ is, i ∉ done) :
    ∃ s₂ done', is.foldlM (freeEntry d a) s₁ = .ok s₂ ∧ Looped s a d done' s₂ ∧
      ∀ i, i ∈ done' ↔ i ∈ is ∨ i ∈ done := by
  induction is generalizing s₁ done with
  | nil => exact ⟨s₁, done, rfl, hl, fun i => by simp⟩
  | cons i is ih =>
    rw [List.nodup_cons] at hnodup
    obtain ⟨s₂, hs₂, hl₂⟩ := freeEntry_looped hb hrec hl (hapart i List.mem_cons_self)
    have hapart₂ (j : Fin 512) (hj : j ∈ is) : j ∉ i :: done := by
      rw [List.mem_cons, not_or]
      exact ⟨fun he => hnodup.1 (he ▸ hj), hapart j (List.mem_cons_of_mem i hj)⟩
    obtain ⟨s₃, done', hs₃, hl₃, hmem⟩ := ih hl₂ hnodup.2 hapart₂
    refine ⟨s₃, done', ?_, hl₃, fun j => ?_⟩
    · rw [List.foldlM_cons, hs₂]
      exact hs₃
    · rw [hmem, List.mem_cons, List.mem_cons]
      tauto

/-- `freewalk` of a node, given that of its children. -/
theorem freewalk_of_rec : ∃ t, freewalk (d + 1) a s = .ok t ∧ Freed s t (Sub s a d) := by
  have hstart : Looped s a d [] s :=
    ⟨⟨[], rfl, List.nodup_nil, by simp⟩, fun _ _ _ => rfl, fun _ _ => rfl, rfl⟩
  obtain ⟨s₁, done, hs₁, hl, hmem⟩ :=
    foldlM_looped hb hrec (List.finRange 512) hstart (List.nodup_finRange 512)
    (by simp)
  have hall (i : Fin 512) : i ∈ done := (hmem i).mpr (Or.inl (List.mem_finRange i))
  have hsub (q : ℕ) : Sub s a d q ↔ q = a ∨ ∃ i ∈ done, Under s a d i q := by
    constructor
    · rintro ⟨p, hp, hq⟩
      cases p with
      | nil => exact Or.inl (Option.some.inj hq).symm
      | cons i p => exact Or.inr ⟨i, hall i, p, by rw [List.length_cons] at hp; omega, hq⟩
    · rintro (rfl | ⟨i, _, hq⟩)
      · exact ⟨[], by simp, rfl⟩
      · exact hq.sub
  have hrange : s₁.InRange a := by
    rw [hl.eq]
    exact hb.range [] a (by simp) rfl
  obtain ⟨l, hlist, hnodup, hml⟩ := hl.list
  have hal : a ∉ l := fun ha => by
    obtain ⟨i, _, hi⟩ := (hml a).mp ha
    exact hb.not_under hi
  refine ⟨_, by rw [freewalk_succ, hs₁]; exact if_neg hrange,
    ⟨a :: l, ?_, List.nodup_cons.mpr ⟨hal, hnodup⟩, fun q => ?_⟩, fun q hq => ?_, ?_⟩
  · show a :: s₁.freelist = a :: l ++ s.freelist
    rw [hlist, List.cons_append]
  · rw [hsub, List.mem_cons, hml]
  · rw [hsub, not_or, not_exists] at hq
    show update s₁.mem a _ q = s.mem q
    rw [update_of_ne hq.1]
    exact hl.mem q hq.1 fun i hi hqi => hq.2 i ⟨hi, hqi⟩
  · rw [setPage, hl.eq]

end Loop

/-- `freewalk` frees the pages of a tree without leaves. -/
theorem freewalk_bare (hb : Bare s a d) :
    ∃ t, freewalk (d + 1) a s = .ok t ∧ Freed s t (Sub s a d) := by
  induction d generalizing s a with
  | zero =>
    refine freewalk_of_rec hb fun i c s₁ hc _ _ => ?_
    rw [child_eq_some, hb.last [] a i rfl rfl] at hc
    cases hc.1
  | succ d ih =>
    refine freewalk_of_rec hb fun i c s₁ hc hmem hrange => ?_
    obtain ⟨s₂, hs₂, hf⟩ := ih (hb.child hc hmem hrange)
    obtain ⟨l, hl, hn, hm⟩ := hf.list
    refine ⟨s₂, hs₂, ⟨l, hl, hn, fun q => ?_⟩, fun q hq => hf.mem q ?_, hf.eq⟩
    · rw [hm, under_iff_sub hc hmem]
    · rwa [under_iff_sub hc hmem]

end VmState

namespace PageInv

variable {K : ℕ} {s : VmState} {tabs : PageMaps} {held : List ℕ} {t : ℕ} {T : PageMap}

/-- A table without a mapped page is a bare tree. -/
theorem bare (inv : PageInv K s tabs held) (hT : tabs t = some T) (hempty : ∀ v, T.leaf v = none) :
    Bare s T.root 2 where
  distinct p q n hp hq hpn hqn := (inv.node_unique hT hT hp hq hpn hqn).2
  inner p n i hp hn := inv.inner t T p n i hT (by omega) hn
  last p n i hp hn := by
    obtain ⟨i₁, i₂, rfl⟩ := List.length_eq_two.mp hp
    obtain ⟨v, hv, hdir, hidx⟩ := exists_vpn i₁ i₂ i
    have hleaf := inv.leaf t T v hT hv
    rw [hempty, leafPte, hdir, hn, Option.bind_some, hidx] at hleaf
    split_ifs at hleaf with hvalid
    exact Bool.eq_false_iff.mpr hvalid
  range p n hp hn := inv.inRange (k := .node t p) ⟨hp, T, hT, hn⟩

/-- Destroying an empty table puts all its nodes on the free list. -/
theorem destroy (inv : PageInv K s tabs held) (hT : tabs t = some T)
    (hempty : ∀ v, T.leaf v = none) :
    ∃ s', s.freewalk 3 T.root = .ok s' ∧
      PageInv K s' (update tabs t none) held ∧ (∃ l, s'.freelist = l ++ s.freelist) ∧
      (∀ path n, path.length ≤ 2 → follow (child s.mem) T.root path = some n →
        n ∈ s'.freelist) := by
  obtain ⟨s', hs', hf⟩ := freewalk_bare (inv.bare hT hempty)
  obtain ⟨l, hl, hnodup, hm⟩ := hf.list
  -- whoever has a page of the tree is a node of it
  have hplace {k : Place} {q : ℕ} (hk : Owns s tabs held k q) (hq : Sub s T.root 2 q) :
      ∃ path, k = .node t path := by
    obtain ⟨path, hlen, hq⟩ := hq
    exact ⟨path, inv.exact.unique q k (.node t path) hk ⟨hlen, T, hT, hq⟩⟩
  have hkept : Kept tabs held t s s' := by
    refine .of_writes (Sub s T.root 2) (fun q hq => ?_) hf.mem (by rw [hf.eq])
    obtain ⟨path, hlen, hq⟩ := hq
    exact inv.not_foreign (k := .node t path) ⟨hlen, T, hT, hq⟩ fun hne => hne rfl
  have hother {t' : ℕ} {T' : PageMap} (hT' : update tabs t none t' = some T') :
      t' ≠ t ∧ tabs t' = some T' := by
    by_cases he : t' = t
    · rw [he, update_self] at hT'
      cases hT'
    · rw [update_of_ne he] at hT'
      exact ⟨he, hT'⟩
  have hrange : s'.InRange = s.InRange := by rw [hf.eq]; rfl
  refine ⟨s', hs', ⟨?_, ?_, inv.held_nodup, ?_, ?_, ?_, ?_, ?_⟩, ⟨l, hl⟩, fun path n hlen hn => ?_⟩
  · rw [hrange]
    refine inv.exact.move (k := .free) (S := Sub s T.root 2) (fun q hq => ?_) fun k q => ?_
    · obtain ⟨path, hlen, hq⟩ := hq
      exact inv.inRange (k := .node t path) ⟨hlen, T, hT, hq⟩
    · cases k with
      | free =>
        show q ∈ s'.freelist ↔ q ∈ s.freelist ∧ _ ∨ _
        rw [hl, List.mem_append, hm]
        constructor
        · rintro (hq | hq)
          · exact Or.inr ⟨rfl, hq⟩
          · refine Or.inl ⟨hq, fun hs => ?_⟩
            obtain ⟨_, he⟩ := hplace (k := .free) hq hs
            exact Place.noConfusion he
        · rintro (⟨hq, _⟩ | ⟨_, hq⟩)
          · exact Or.inr hq
          · exact Or.inl hq
      | held =>
        refine ⟨fun hq => Or.inl ⟨hq, fun hs => ?_⟩, fun hq => hq.elim And.left fun h =>
          Place.noConfusion h.1⟩
        obtain ⟨_, he⟩ := hplace (k := .held) hq hs
        exact Place.noConfusion he
      | node t' path =>
        constructor
        · rintro ⟨hlen, T', hT', hq⟩
          obtain ⟨hne, hT'⟩ := hother hT'
          rw [hkept.follow hne hT' hlen] at hq
          refine Or.inl ⟨⟨hlen, T', hT', hq⟩, fun hs => ?_⟩
          obtain ⟨_, he⟩ := hplace (k := .node t' path) ⟨hlen, T', hT', hq⟩ hs
          exact hne (Place.node.inj he).1
        · rintro (⟨⟨hlen, T', hT', hq⟩, hns⟩ | ⟨he, _⟩)
          · have hne : t' ≠ t := by
              rintro rfl
              obtain rfl : T = T' := Option.some.inj (hT.symm.trans hT')
              exact hns ⟨path, hlen, hq⟩
            exact ⟨hlen, T', by rw [update_of_ne hne, hT'], by rw [hkept.follow hne hT' hlen, hq]⟩
          · exact Place.noConfusion he
      | page t' v =>
        constructor
        · rintro ⟨hv, T', e, hT', he, hq⟩
          obtain ⟨hne, hT'⟩ := hother hT'
          refine Or.inl ⟨⟨hv, T', e, hT', he, hq⟩, fun hs => ?_⟩
          obtain ⟨_, heq⟩ := hplace (k := .page t' v) ⟨hv, T', e, hT', he, hq⟩ hs
          exact Place.noConfusion heq
        · rintro (⟨⟨hv, T', e, hT', he, hq⟩, _⟩ | ⟨he, _⟩)
          · have hne : t' ≠ t := by
              rintro rfl
              obtain rfl : T = T' := Option.some.inj (hT.symm.trans hT')
              rw [hempty v] at he
              cases he
            exact ⟨hv, T', e, by rw [update_of_ne hne, hT'], he, hq⟩
          · exact Place.noConfusion he
  · rw [hl]
    refine List.nodup_append.mpr ⟨hnodup, inv.free_nodup, fun x hx y hy hxy => ?_⟩
    obtain ⟨_, he⟩ := hplace (k := .free) hy (hxy ▸ (hm x).mp hx)
    exact Place.noConfusion he
  · intro t' T' path n i hT' hlen hn
    obtain ⟨hne, hT'⟩ := hother hT'
    rw [hkept.follow hne hT' (by omega)] at hn
    rw [hkept.node hne hT' (by omega) hn]
    exact inv.inner t' T' path n i hT' hlen hn
  · intro t' T' v hT' hv
    obtain ⟨hne, hT'⟩ := hother hT'
    rw [← inv.leaf t' T' v hT' hv, leafPte, leafPte, hkept.follow hne hT' (length_vpnDir v).le]
    cases hn : follow (child s.mem) T'.root (vpnDir v) with
    | none => rfl
    | some n => simp only [Option.bind_some, hkept.node hne hT' (length_vpnDir v).le hn]
  · intro t' T' v e hT'
    exact inv.bound t' T' v e (hother hT').2
  · intro t' T' v e hT'
    exact inv.perm t' T' v e (hother hT').2
  · rw [hf.eq]
    exact inv.kend
  · rw [hl, List.mem_append]
    exact Or.inl ((hm n).mpr ⟨path, hlen, hn⟩)

end PageInv

end NeulaCpu.Xv6

import NeulaCpu.Xv6.Bio

/-!
# Invariants of the buffer cache

For every interleaving of the calls: the list through the head holds every buffer once and is in
order of recency, no two buffers hold the same block, `refcnt` counts the references and the pins, a
buffer in use keeps its block, and the disk is read into a buffer once for each time that the buffer
is taken for a block.

`refcnt` is a `uint` and `bpin` does not look at it. The results are about runs in which no buffer
has more than `2 ^ 32 - 1` references and pins at a time; `refcnt_wraps` is what happens beyond
that.
-/

namespace NeulaCpu.Xv6

open Function

namespace Bcache

variable {α : Type} {c : Bcache α} {l : List (Fin nBuf)} {b : Fin nBuf} {dev blockno : BitVec 32}

/-- The list through the head has every buffer once. -/
structure Lists (c : Bcache α) (l : List (Fin nBuf)) : Prop where
  ring : c.links.Ring l
  mem : ∀ b, b ∈ l

section

variable (h : c.Lists l)

include h

theorem Lists.perm : l.Perm (List.finRange nBuf) :=
  (List.perm_ext_iff_of_nodup h.ring.nodup (List.nodup_finRange nBuf)).mpr fun b =>
    ⟨fun _ => List.mem_finRange b, fun _ => h.mem b⟩

theorem Lists.length : l.length = nBuf := by
  rw [h.perm.length_eq, List.length_finRange]

theorem Lists.lookup_eq (dev blockno : BitVec 32) :
    c.lookup dev blockno = l.find? fun b => (c.buf b).dev == dev && (c.buf b).blockno == blockno :=
  h.ring.search_head _ h.length.le

theorem Lists.unused_eq : c.unused = l.reverse.find? fun b => (c.buf b).refcnt == 0 :=
  h.ring.flip.search_head _ (List.length_reverse.trans h.length).le

theorem Lists.lookup_some (hb : c.lookup dev blockno = some b) :
    (c.buf b).dev = dev ∧ (c.buf b).blockno = blockno := by
  rw [h.lookup_eq] at hb
  simpa using List.find?_some hb

theorem Lists.lookup_none (hn : c.lookup dev blockno = none) (b : Fin nBuf) :
    ¬ ((c.buf b).dev = dev ∧ (c.buf b).blockno = blockno) := by
  rw [h.lookup_eq, List.find?_eq_none] at hn
  simpa using hn b (h.mem b)

/-- The buffer that the second loop takes is unused, and every other unused buffer stands before
it. -/
theorem Lists.unused_some {R : Fin nBuf → Fin nBuf → Prop} (hb : c.unused = some b)
    (hl : l.Pairwise R) : (c.buf b).refcnt = 0 ∧ ∀ b', b' ≠ b → (c.buf b').refcnt = 0 → R b' b := by
  rw [h.unused_eq, List.find?_eq_some_iff_append] at hb
  obtain ⟨hz, u, v, huv, hu⟩ := hb
  have hl' : l = v.reverse ++ b :: u.reverse := by
    rw [← List.reverse_reverse l, huv]
    simp
  refine ⟨by simpa using hz, fun b' hne hz' => ?_⟩
  have hmem := h.mem b'
  rw [hl', List.mem_append, List.mem_cons] at hmem
  rcases hmem with hv | rfl | hu'
  · rw [hl', List.pairwise_append] at hl
    exact hl.2.2 b' hv b List.mem_cons_self
  · exact absurd rfl hne
  · have := hu b' (List.mem_reverse.mp hu')
    simp [hz'] at this

end

/-- `brelse` moves the buffer if the caller's reference was the last one. -/
theorem brelse_eq (c : Bcache α) (b : Fin nBuf) : c.brelse b =
    { c.set b { c.buf b with refcnt := (c.buf b).refcnt - 1 } with
      links := if (c.buf b).refcnt - 1 = 0 then (c.links.unlink b).pushFront b else c.links } := by
  simp only [brelse, set_buf, update_self, set_links]
  split <;> rfl

/-- `binit` lists the buffers backwards. -/
theorem binit_lists (zero : α) : (binit zero).Lists (List.finRange nBuf).reverse where
  ring := by
    have hnodup : (List.finRange nBuf ++ []).Nodup := by
      rw [List.append_nil]
      exact List.nodup_finRange nBuf
    have hring := Links.Ring.nil.foldl_pushFront hnodup
    rwa [List.append_nil] at hring
  mem b := List.mem_reverse.mpr (List.mem_finRange b)

end Bcache

namespace Bio

variable {α : Type} {s t : Bio α} {e : BioEvent α}

/-! ## What an event does -/

/-- A call at `r.stage` works on its buffer: where the call is afterwards, the buffer, and the
number of disk reads since the buffer was taken. -/
inductive Work (s : Bio α) (r : BufRef) : RefStage → Bcache.Buf α → ℕ → Prop
  | acquiresleep (hr : r.stage = .waiting) (hl : (s.buf r.b).locked = false) :
    Work s r .testing { s.buf r.b with locked := true } (s.reads r.b)
  | testHeld (hr : r.stage = .testing) (hv : (s.buf r.b).valid = true) :
    Work s r .held (s.buf r.b) (s.reads r.b)
  | testReading (hr : r.stage = .testing) (hv : (s.buf r.b).valid = false) :
    Work s r .reading (s.buf r.b) (s.reads r.b)
  | read (hr : r.stage = .reading) (data : α) :
    Work s r .held { s.buf r.b with valid := true, data := data } (s.reads r.b + 1)
  | use (hr : r.stage = .held) (data : α) :
    Work s r .held { s.buf r.b with data := data } (s.reads r.b)
  | releasesleep (hr : r.stage = .held) :
    Work s r .releasing { s.buf r.b with locked := false } (s.reads r.b)

/-- Everything that an event can do. -/
inductive Change (s : Bio α) : BioEvent α → Bio α → Prop
  | hit (dev blockno : BitVec 32) (b : Fin nBuf) (hl : s.cache.lookup dev blockno = some b) :
    Change s (.bget dev blockno)
      { s with
        cache := s.cache.set b { s.buf b with refcnt := (s.buf b).refcnt + 1 }
        refs := ⟨b, dev, blockno, .waiting⟩ ::ₘ s.refs }
  | miss (dev blockno : BitVec 32) (b : Fin nBuf) (hl : s.cache.lookup dev blockno = none)
      (hu : s.cache.unused = some b) :
    Change s (.bget dev blockno)
      { s with
        cache := s.cache.set b
          { s.buf b with dev := dev, blockno := blockno, valid := false, refcnt := 1 }
        refs := ⟨b, dev, blockno, .waiting⟩ ::ₘ s.refs
        reads := update s.reads b 0 }
  | work (e : BioEvent α) (r : BufRef) (rest : Multiset BufRef) (stage : RefStage)
      (x : Bcache.Buf α) (n : ℕ) (disk : BitVec 32 → α) (hr : s.refs = r ::ₘ rest)
      (hw : s.Work r stage x n) :
    Change s e
      { s with
        cache := s.cache.set r.b x
        disk := disk
        refs := { r with stage := stage } ::ₘ rest
        reads := update s.reads r.b n }
  | brelse (r : BufRef) (rest : Multiset BufRef) (moves : ℕ) (moved : Fin nBuf → ℕ)
      (links : Links (Fin nBuf)) (hr : s.refs = r ::ₘ rest) (hst : r.stage = .releasing)
      (hm : links = s.cache.links ∧ moves = s.moves ∧ moved = s.moved ∨
        links = (s.cache.links.unlink r.b).pushFront r.b ∧ moves = s.moves + 1 ∧
          moved = update s.moved r.b (s.moves + 1)) :
    Change s (.brelse r)
      { s with
        cache := { s.cache.set r.b { s.buf r.b with refcnt := (s.buf r.b).refcnt - 1 } with
          links := links }
        refs := rest
        moves := moves
        moved := moved }
  | bpin (b : Fin nBuf) :
    Change s (.bpin b)
      { s with
        cache := s.cache.set b { s.buf b with refcnt := (s.buf b).refcnt + 1 }
        pins := update s.pins b (s.pins b + 1) }
  | bunpin (b : Fin nBuf) (hp : 0 < s.pins b) :
    Change s (.bunpin b)
      { s with
        cache := s.cache.set b { s.buf b with refcnt := (s.buf b).refcnt - 1 }
        pins := update s.pins b (s.pins b - 1) }

theorem advance_eq_some {r : BufRef} {stage stage' : RefStage} {x : Bcache.Buf α}
    (h : s.advance r stage stage' x = some t) :
    r.stage = stage ∧ ∃ rest, s.refs = r ::ₘ rest ∧
        t = { s with cache := s.cache.set r.b x, refs := { r with stage := stage' } ::ₘ rest } := by
  rw [advance, Option.ite_none_right_eq_some] at h
  obtain ⟨⟨hmem, hst⟩, ht⟩ := h
  obtain ⟨rest, hrest⟩ := Multiset.exists_cons_of_mem hmem
  rw [hrest, Multiset.erase_cons_head] at ht
  exact ⟨hst, rest, hrest, (Option.some.inj ht).symm⟩

/-- A step of a call that does not read the disk. -/
theorem Change.of_advance {r : BufRef} {stage stage' : RefStage} {x : Bcache.Buf α}
    (h : s.advance r stage stage' x = some t)
    (hw : r.stage = stage → s.Work r stage' x (s.reads r.b)) (e : BioEvent α) : s.Change e t := by
  obtain ⟨hst, rest, hrest, rfl⟩ := advance_eq_some h
  have := Change.work e r rest stage' x (s.reads r.b) s.disk hrest (hw hst)
  rwa [update_eq_self] at this

/-- `bget` finds the block, or takes an unused buffer for it. -/
theorem bget_cases {dev blockno : BitVec 32} (h : s.step (.bget dev blockno) = some t) :
    (∃ b, s.cache.lookup dev blockno = some b ∧ t =
      { s with
        cache := s.cache.set b { s.buf b with refcnt := (s.buf b).refcnt + 1 }
        refs := ⟨b, dev, blockno, .waiting⟩ ::ₘ s.refs }) ∨
    ∃ b, s.cache.lookup dev blockno = none ∧ s.cache.unused = some b ∧ t =
      { s with
        cache := s.cache.set b
          { s.buf b with dev := dev, blockno := blockno, valid := false, refcnt := 1 }
        refs := ⟨b, dev, blockno, .waiting⟩ ::ₘ s.refs
        reads := update s.reads b 0 } := by
  obtain ⟨⟨b, c⟩, hb, rfl⟩ := Option.map_eq_some_iff.mp h
  unfold Bcache.bget at hb
  cases hl : s.cache.lookup dev blockno with
  | some b' =>
    rw [hl] at hb
    obtain ⟨rfl, rfl⟩ := Prod.mk.inj (Option.some.inj hb)
    exact Or.inl ⟨b', rfl, rfl⟩
  | none =>
    rw [hl] at hb
    obtain ⟨b', hu, hb'⟩ := Option.map_eq_some_iff.mp hb
    obtain ⟨rfl, rfl⟩ := Prod.mk.inj hb'
    exact Or.inr ⟨b', rfl, hu, rfl⟩

/-- An event does nothing else. -/
theorem Change.of_step (h : s.step e = some t) : s.Change e t := by
  cases e with
  | bget dev blockno =>
    rcases bget_cases h with ⟨b, hl, rfl⟩ | ⟨b, hl, hu, rfl⟩
    · exact Change.hit dev blockno b hl
    · exact Change.miss dev blockno b hl hu
  | acquiresleep r =>
    obtain ⟨hl, h⟩ := Option.ite_none_left_eq_some.mp h
    exact Change.of_advance h (fun hr => .acquiresleep hr (by simpa using hl)) _
  | test r =>
    cases hv : (s.buf r.b).valid with
    | true =>
      simp only [step, hv, if_true] at h
      exact Change.of_advance h (fun hr => .testHeld hr hv) _
    | false =>
      simp only [step, hv, if_neg (by simp : ¬ false = true)] at h
      exact Change.of_advance h (fun hr => .testReading hr hv) _
  | read r =>
    obtain ⟨u, hu, rfl⟩ := Option.map_eq_some_iff.mp h
    obtain ⟨hst, rest, hrest, rfl⟩ := advance_eq_some hu
    exact Change.work _ r rest .held _ _ s.disk hrest (.read hst _)
  | modify r data => exact Change.of_advance h (fun hr => .use hr data) _
  | bwrite r =>
    obtain ⟨u, hu, rfl⟩ := Option.map_eq_some_iff.mp h
    obtain ⟨hst, rest, hrest, rfl⟩ := advance_eq_some hu
    have := Change.work (BioEvent.bwrite r) r rest .held _ _
      (update s.disk (s.buf r.b).blockno (s.buf r.b).data) hrest (.use hst (s.buf r.b).data)
    rwa [update_eq_self] at this
  | releasesleep r => exact Change.of_advance h .releasesleep _
  | brelse r =>
    obtain ⟨⟨hmem, hst⟩, h⟩ := Option.ite_none_right_eq_some.mp h
    obtain ⟨rest, hrest⟩ := Multiset.exists_cons_of_mem hmem
    simp only [buf, Bcache.brelse_eq, Bcache.set_buf, update_self, hrest,
      Multiset.erase_cons_head] at h
    by_cases hz : (s.cache.buf r.b).refcnt - 1 = 0
    · rw [if_pos hz, if_pos hz] at h
      obtain rfl := Option.some.inj h
      exact Change.brelse r rest _ _ _ hrest hst (Or.inr ⟨rfl, rfl, rfl⟩)
    · rw [if_neg hz, if_neg hz] at h
      obtain rfl := Option.some.inj h
      exact Change.brelse r rest _ _ _ hrest hst (Or.inl ⟨rfl, rfl, rfl⟩)
  | bpin b =>
    obtain rfl := Option.some.inj h
    exact Change.bpin b
  | bunpin b =>
    obtain ⟨hp, h⟩ := Option.ite_none_right_eq_some.mp h
    obtain rfl := Option.some.inj h
    exact Change.bunpin b hp

/-! ## The list -/

/-- The list is in order of recency: the later in the list, the older. -/
structure RingInv (s : Bio α) : Prop where
  lists : ∃ l, s.cache.Lists l ∧ l.Pairwise fun a b => s.Older b a
  moved_le : ∀ b, s.moved b ≤ s.moves

theorem RingInv.of_eq (h : s.RingInv) (hl : t.cache.links = s.cache.links) (hm : t.moved = s.moved)
    (hn : t.moves = s.moves) : t.RingInv := by
  obtain ⟨l, hlists, hsorted⟩ := h.lists
  refine ⟨⟨l, ⟨hl ▸ hlists.ring, hlists.mem⟩, ?_⟩, ?_⟩
  · simpa only [Older, hm] using hsorted
  · simpa only [hm, hn] using h.moved_le

theorem ringInv_init (zero : α) (disk : BitVec 32 → α) : (init zero disk).RingInv where
  lists := by
    refine ⟨_, Bcache.binit_lists zero, ?_⟩
    rw [List.pairwise_reverse]
    exact (List.pairwise_lt_finRange nBuf).imp fun hlt => Or.inr ⟨rfl, rfl, hlt⟩
  moved_le _ := le_rfl

/-- A buffer that is moved to the front becomes the newest one. -/
theorem RingInv.move (h : s.RingInv) (b : Fin nBuf)
    (hl : t.cache.links = (s.cache.links.unlink b).pushFront b) (hn : t.moves = s.moves + 1)
    (hm : t.moved = update s.moved b (s.moves + 1)) : t.RingInv := by
  obtain ⟨l, hlists, hsorted⟩ := h.lists
  have hmem : ∀ x ∈ l.erase b, x ≠ b := fun x hx => ((hlists.ring.nodup.mem_erase_iff).mp hx).1
  refine ⟨⟨b :: l.erase b, ⟨hl ▸ hlists.ring.moveFront (hlists.mem b), fun x => ?_⟩, ?_⟩,
    fun x => ?_⟩
  · by_cases hx : x = b
    · exact List.mem_cons.mpr (Or.inl hx)
    · exact List.mem_cons_of_mem b ((hlists.ring.nodup.mem_erase_iff).mpr ⟨hx, hlists.mem x⟩)
  · refine List.pairwise_cons.mpr ⟨fun x hx => Or.inl ?_, ?_⟩
    · rw [hm, update_self, update_of_ne (hmem x hx)]
      exact Nat.lt_succ_of_le (h.moved_le x)
    · refine (hsorted.sublist List.erase_sublist).imp_of_mem fun {x y} hx hy hxy => ?_
      simpa only [Older, hm, update_of_ne (hmem x hx), update_of_ne (hmem y hy)] using hxy
  · rw [hm, hn]
    by_cases hx : x = b
    · rw [hx, update_self]
    · rw [update_of_ne hx]
      exact (h.moved_le x).trans (Nat.le_succ _)

theorem RingInv.step (h : s.RingInv) (hc : s.Change e t) : t.RingInv := by
  cases hc with
  | hit | miss | work | bpin | bunpin => exact h.of_eq rfl rfl rfl
  | brelse r rest moves moved links hr hst hm =>
    rcases hm with ⟨rfl, rfl, rfl⟩ | ⟨rfl, rfl, rfl⟩
    · exact h.of_eq rfl rfl rfl
    · exact h.move r.b rfl rfl rfl

/-! ## Reference counts -/

theorem buf_set (c : Bcache α) (b : Fin nBuf) (x : Bcache.Buf α) (b' : Fin nBuf) :
    (c.set b x).buf b' = if b' = b then x else c.buf b' := by
  rw [Bcache.set_buf, update_apply]

/-- What an update of a buffer leaves alone. -/
theorem buf_set_eq {β : Type} (f : Bcache.Buf α → β) {c : Bcache α} {b : Fin nBuf}
    {x : Bcache.Buf α} (hx : f x = f (c.buf b)) (b' : Fin nBuf) :
    f ((c.set b x).buf b') = f (c.buf b') := by
  rw [buf_set]
  split
  · rename_i hb
    rw [hx, hb]
  · rfl

theorem Work.same {r : BufRef} {stage : RefStage} {x : Bcache.Buf α} {n : ℕ}
    (h : s.Work r stage x n) :
    x.dev = (s.buf r.b).dev ∧ x.blockno = (s.buf r.b).blockno ∧ x.refcnt = (s.buf r.b).refcnt := by
  cases h <;> exact ⟨rfl, rfl, rfl⟩

/-- The reference count of a buffer counts its references and pins. -/
def CountInv (s : Bio α) : Prop := ∀ b, (s.buf b).refcnt.toNat = s.refsOf b + s.pins b

/-- Before a count goes up it is below the largest `uint`. -/
def Bounded (s : Bio α) : BioEvent α → Prop
  | .bget dev blockno => ∀ b, s.block b = (dev, blockno) → s.refsOf b + s.pins b < 2 ^ 32 - 1
  | .bpin b => s.refsOf b + s.pins b < 2 ^ 32 - 1
  | _ => True

instance (s : Bio α) (e : BioEvent α) : Decidable (s.Bounded e) :=
  match e with
  | .bget _ _ => inferInstanceAs (Decidable (∀ _, _ → _))
  | .bpin _ => inferInstanceAs (Decidable (_ < _))
  | .acquiresleep _ | .test _ | .read _ | .modify _ _ | .bwrite _ | .releasesleep _ | .brelse
      _ | .bunpin _ =>
    .isTrue trivial

theorem toNat_incr {x : BitVec 32} (h : x.toNat < 2 ^ 32 - 1) : (x + 1).toNat = x.toNat + 1 := by
  bv_omega

theorem toNat_decr {x : BitVec 32} (h : 0 < x.toNat) : (x - 1).toNat = x.toNat - 1 := by
  bv_omega

/-- Every change keeps the counts. -/
theorem CountInv.step (h : s.CountInv) (hr : s.RingInv) (hb : s.Bounded e) (hc : s.Change e t) :
    t.CountInv := by
  intro b'
  have hb' := h b'
  simp only [buf, refsOf] at hb' ⊢
  cases hc with
  | hit dev blockno b hl =>
    simp only [buf_set, Multiset.countP_cons, eq_comm (a := b)]
    by_cases hbb : b' = b
    · subst hbb
      obtain ⟨l, hlists, -⟩ := hr.lists
      have hlt := hb b' (Prod.ext_iff.mpr (hlists.lookup_some hl))
      rw [refsOf, ← hb'] at hlt
      simp only [if_true, buf, toNat_incr hlt]
      omega
    · simpa only [if_neg hbb, Nat.add_zero] using hb'
  | miss dev blockno b hl hu =>
    obtain ⟨l, hlists, hsorted⟩ := hr.lists
    have hz := (hlists.unused_some hu hsorted).1
    simp only [buf_set, Multiset.countP_cons, eq_comm (a := b)]
    by_cases hbb : b' = b
    · subst hbb
      rw [hz] at hb'
      simp only [if_true]
      simp at hb' ⊢
      omega
    · simpa only [if_neg hbb, Nat.add_zero] using hb'
  | work e r rest stage x n disk hrefs hw =>
    simp only [hrefs, buf_set, Multiset.countP_cons] at hb' ⊢
    by_cases hbb : b' = r.b
    · subst hbb
      simpa only [if_true, hw.same.2.2, buf] using hb'
    · simpa only [if_neg hbb] using hb'
  | brelse r rest moves moved links hrefs hst hm =>
    simp only [hrefs, buf_set, Multiset.countP_cons, eq_comm (a := r.b)] at hb' ⊢
    by_cases hbb : b' = r.b
    · subst hbb
      simp only [if_true] at hb' ⊢
      rw [buf, toNat_decr (by omega)]
      omega
    · simpa only [if_neg hbb, Nat.add_zero] using hb'
  | bpin b =>
    simp only [buf_set, update_apply]
    by_cases hbb : b' = b
    · subst hbb
      have hlt : s.refsOf b' + s.pins b' < 2 ^ 32 - 1 := hb
      rw [refsOf, ← hb'] at hlt
      simp only [if_true, buf, toNat_incr hlt]
      omega
    · simpa only [if_neg hbb] using hb'
  | bunpin b hp =>
    simp only [buf_set, update_apply]
    by_cases hbb : b' = b
    · subst hbb
      simp only [if_true]
      rw [buf, toNat_decr (by omega)]
      omega
    · simpa only [if_neg hbb] using hb'

/-- A buffer with references has a positive count. -/
theorem CountInv.refcnt_ne_zero (h : s.CountInv) {r : BufRef} (hr : r ∈ s.refs) :
    (s.buf r.b).refcnt ≠ 0 := by
  intro hz
  have hcount := h r.b
  have hpos : 0 < s.refsOf r.b := Multiset.countP_pos.mpr ⟨r, hr, rfl⟩
  rw [hz] at hcount
  simp at hcount
  omega

/-! ## Blocks -/

/-- `bget` recycles `b` for a block: no buffer holds the block, and `b` is what the second loop
finds. -/
structure Recycles (s : Bio α) (e : BioEvent α) (dev blockno : BitVec 32) (b : Fin nBuf) :
    Prop where
  event : e = .bget dev blockno
  lookup : s.cache.lookup dev blockno = none
  unused : s.cache.unused = some b

theorem block_eq_of_set {b : Fin nBuf} {x : Bcache.Buf α}
    (hbuf : t.cache.buf = (s.cache.set b x).buf) (hx : (x.dev, x.blockno) = s.block b) :
    t.block = s.block := by
  funext b'
  show ((t.cache.buf b').dev, (t.cache.buf b').blockno) = s.block b'
  rw [hbuf]
  exact buf_set_eq (fun x => (x.dev, x.blockno)) hx b'

/-- Which blocks the buffers hold after an event. -/
theorem Change.block (hc : s.Change e t) : t.block = s.block ∨
    ∃ dev blockno b, s.Recycles e dev blockno b ∧ t.block = update s.block b (dev, blockno) := by
  cases hc with
  | hit | brelse | bpin | bunpin => exact Or.inl (block_eq_of_set rfl rfl)
  | work e r rest stage x n disk hrefs hw =>
    exact Or.inl (block_eq_of_set rfl (Prod.ext hw.same.1 hw.same.2.1))
  | miss dev blockno b hl hu =>
    refine Or.inr ⟨dev, blockno, b, ⟨rfl, hl, hu⟩, ?_⟩
    funext b'
    simp only [Bio.block, Bio.buf, buf_set, update_apply]
    split <;> rfl

theorem RingInv.recycles {dev blockno : BitVec 32} {b : Fin nBuf} (h : s.RingInv)
    (hr : s.Recycles e dev blockno b) :
    (∀ b', s.block b' ≠ (dev, blockno)) ∧ (s.buf b).refcnt = 0 ∧
      ∀ b', b' ≠ b → (s.buf b').refcnt = 0 → s.Older b b' := by
  obtain ⟨l, hlists, hsorted⟩ := h.lists
  refine ⟨fun b' hb' => hlists.lookup_none hr.lookup b' (Prod.mk.inj hb'), ?_⟩
  exact hlists.unused_some hr.unused hsorted

/-- No two buffers hold the same block of a device other than 0, and every reference is to a buffer
that holds its block. -/
structure BlockInv (s : Bio α) : Prop where
  unique : ∀ b b', s.block b = s.block b' → (s.block b).1 ≠ 0 → b = b'
  ref : ∀ r ∈ s.refs, s.block r.b = (r.dev, r.blockno)

/-- The references after an event are the ones before it, up to their stage, and that of a
`bget`. -/
theorem Change.ref (hc : s.Change e t) (h : s.RingInv) {r : BufRef} (hr : r ∈ t.refs) :
    (∃ r' ∈ s.refs, r'.b = r.b ∧ r'.dev = r.dev ∧ r'.blockno = r.blockno) ∨
      t.block r.b = (r.dev, r.blockno) := by
  cases hc with
  | hit dev blockno b hl =>
    obtain ⟨l, hlists, -⟩ := h.lists
    obtain ⟨hdev, hno⟩ := hlists.lookup_some hl
    rcases Multiset.mem_cons.mp hr with rfl | hr
    · right
      simp only [Bio.block, Bio.buf, buf_set, if_true, hdev, hno]
    · exact Or.inl ⟨r, hr, rfl, rfl, rfl⟩
  | miss dev blockno b hl hu =>
    rcases Multiset.mem_cons.mp hr with rfl | hr
    · right
      simp only [Bio.block, Bio.buf, buf_set, if_true]
    · exact Or.inl ⟨r, hr, rfl, rfl, rfl⟩
  | work e r' rest stage x n disk hrefs hw =>
    rcases Multiset.mem_cons.mp hr with rfl | hr
    · exact Or.inl ⟨r', hrefs ▸ Multiset.mem_cons_self r' rest, rfl, rfl, rfl⟩
    · exact Or.inl ⟨r, hrefs ▸ Multiset.mem_cons_of_mem hr, rfl, rfl, rfl⟩
  | brelse r' rest moves moved links hrefs hst hm =>
    exact Or.inl ⟨r, hrefs ▸ Multiset.mem_cons_of_mem hr, rfl, rfl, rfl⟩
  | bpin b => exact Or.inl ⟨r, hr, rfl, rfl, rfl⟩
  | bunpin b hp => exact Or.inl ⟨r, hr, rfl, rfl, rfl⟩

/-- A buffer that is in use keeps its block. -/
theorem Change.block_eq (hc : s.Change e t) (h : s.RingInv) {b : Fin nBuf}
    (hb : (s.buf b).refcnt ≠ 0) : t.block b = s.block b := by
  rcases hc.block with heq | ⟨dev, blockno, b', hrec, heq⟩
  · rw [heq]
  · have hne : b ≠ b' := by
      rintro rfl
      exact hb (h.recycles hrec).2.1
    rw [heq, update_of_ne hne]

theorem BlockInv.step (h : s.BlockInv) (hring : s.RingInv) (hcount : s.CountInv)
    (hc : s.Change e t) : t.BlockInv where
  unique := by
    rcases hc.block with heq | ⟨dev, blockno, b₀, hrec, heq⟩
    · rw [heq]
      exact h.unique
    · have hfree := (hring.recycles hrec).1
      rw [heq]
      intro b b' hbb hdev
      -- The block that is new in the cache is in no other buffer.
      by_cases hb : b = b₀ <;> by_cases hb' : b' = b₀
      · rw [hb, hb']
      · rw [hb, update_self, update_of_ne hb'] at hbb
        exact absurd hbb.symm (hfree b')
      · rw [hb', update_self, update_of_ne hb] at hbb
        exact absurd hbb (hfree b)
      · rw [update_of_ne hb, update_of_ne hb'] at hbb
        rw [update_of_ne hb] at hdev
        exact h.unique b b' hbb hdev
  ref := by
    intro r hr
    rcases hc.ref hring hr with ⟨r', hr', hb, hdev, hno⟩ | hnew
    · rw [← hb, hc.block_eq hring (hcount.refcnt_ne_zero hr'), h.ref r' hr', hdev, hno]
    · exact hnew

/-! ## Disk reads -/

/-- The calls that have the sleep lock of a buffer. -/
def owners (s : Bio α) (b : Fin nBuf) : ℕ := s.refs.countP fun r => r.b = b ∧ r.stage.owns = true

/-- The sleep lock of a buffer has at most one owner. -/
def LockInv (s : Bio α) : Prop := ∀ b, s.owners b = (s.buf b).locked.toNat

theorem LockInv.of_eq (h : s.LockInv) (ho : ∀ b, t.owners b = s.owners b)
    (hl : ∀ b, (t.buf b).locked = (s.buf b).locked) : t.LockInv := by
  intro b
  rw [ho, hl]
  exact h b

theorem LockInv.step (h : s.LockInv) (hc : s.Change e t) : t.LockInv := by
  cases hc with
  | hit dev blockno b hl | miss dev blockno b hl hu =>
    refine h.of_eq (fun b' => ?_) (buf_set_eq Bcache.Buf.locked rfl)
    exact Multiset.countP_cons_of_neg _ (by simp)
  | brelse r rest moves moved links hrefs hst hm =>
    refine h.of_eq (fun b' => ?_) (buf_set_eq Bcache.Buf.locked rfl)
    rw [owners, owners, hrefs, Multiset.countP_cons_of_neg _ (by simp [hst])]
  | bpin b | bunpin b => exact h.of_eq (fun _ => rfl) (buf_set_eq Bcache.Buf.locked rfl)
  | work e r rest stage x n disk hrefs hw =>
    intro b'
    have hb' := h b'
    simp only [owners, buf, hrefs, buf_set, Multiset.countP_cons] at hb' ⊢
    by_cases hbb : b' = r.b
    · -- The lock changes hands only in `acquiresleep` and `releasesleep`.
      subst hbb
      have hle := Bool.toNat_le (s.cache.buf r.b).locked
      cases hw <;> simp_all [buf]
      omega
    · rw [if_neg hbb, ← hb']
      simp [Ne.symm hbb]

/-- A call that has the lock is the only one. -/
theorem LockInv.eq_of_owns (h : s.LockInv) {r r' : BufRef} {rest : Multiset BufRef}
    (hrefs : s.refs = r ::ₘ rest) (hr : r.stage.owns = true) (hr' : r' ∈ rest) (hb : r'.b = r.b) :
    r'.stage.owns = false := by
  by_contra howns
  have hpos : 0 < rest.countP fun x => x.b = r.b ∧ x.stage.owns = true :=
    Multiset.countP_pos.mpr ⟨r', hr', hb, by simpa using howns⟩
  have hcount := h r.b
  have hle := Bool.toNat_le (s.buf r.b).locked
  rw [owners, hrefs, Multiset.countP_cons, if_pos ⟨rfl, hr⟩] at hcount
  omega

/-- What a call has seen of `b->valid`. -/
structure Fits (r : BufRef) (valid : Bool) : Prop where
  reading : r.stage = .reading → valid = false
  held : r.stage = .held → valid = true

theorem Fits.of_not_owns {r : BufRef} (h : r.stage.owns = false) (valid : Bool) : Fits r valid where
  reading hst := by simp [hst] at h
  held hst := by simp [hst] at h

/-- The disk has been read into a buffer once if the buffer is valid and not at all otherwise. -/
structure ReadInv (s : Bio α) : Prop where
  reads : ∀ b, s.reads b = (s.buf b).valid.toNat
  ref : ∀ r ∈ s.refs, Fits r (s.buf r.b).valid

theorem ReadInv.of_eq (h : s.ReadInv) (hn : t.reads = s.reads)
    (hv : ∀ b, (t.buf b).valid = (s.buf b).valid)
    (hr : ∀ r ∈ t.refs, r ∈ s.refs ∨ Fits r (s.buf r.b).valid) : t.ReadInv where
  reads b := by
    rw [hn, hv]
    exact h.reads b
  ref r hrt := by
    rw [hv]
    exact (hr r hrt).elim (h.ref r) id

/-- The disk read of a call: it has the sleep lock, so no other call looks at the buffer. -/
theorem ReadInv.read (h : s.ReadInv) (hlock : s.LockInv) {r : BufRef} {rest : Multiset BufRef}
    (hrefs : s.refs = r ::ₘ rest) (hst : r.stage = .reading) (data : α) (disk : BitVec 32 → α) :
    ReadInv { s with
      cache := s.cache.set r.b { s.buf r.b with valid := true, data := data }
      disk := disk
      refs := { r with stage := .held } ::ₘ rest
      reads := update s.reads r.b (s.reads r.b + 1) } where
  reads b := by
    simp only [buf, buf_set, update_apply]
    split
    · have hr : r ∈ s.refs := hrefs ▸ Multiset.mem_cons_self r rest
      rw [h.reads, (h.ref r hr).reading hst]
      rfl
    · exact h.reads b
  ref r' hr' := by
    simp only [buf, buf_set]
    rcases Multiset.mem_cons.mp hr' with rfl | hr'
    · rw [if_pos rfl]
      exact ⟨nofun, fun _ => rfl⟩
    · split
      · rename_i hb
        exact .of_not_owns (hlock.eq_of_owns hrefs (by simp [hst]) hr' hb) _
      · exact h.ref r' (hrefs ▸ Multiset.mem_cons_of_mem hr')

/-- Every change keeps the invariant. -/
theorem ReadInv.step (h : s.ReadInv) (hring : s.RingInv) (hcount : s.CountInv) (hlock : s.LockInv)
    (hc : s.Change e t) : t.ReadInv := by
  cases hc with
  | hit dev blockno b hl =>
    refine h.of_eq rfl (buf_set_eq Bcache.Buf.valid rfl) fun r hr => ?_
    rcases Multiset.mem_cons.mp hr with rfl | hr
    · exact Or.inr (.of_not_owns rfl _)
    · exact Or.inl hr
  | brelse r rest moves moved links hrefs hst hm =>
    exact h.of_eq rfl (buf_set_eq Bcache.Buf.valid rfl)
      fun r' hr' => Or.inl (hrefs ▸ Multiset.mem_cons_of_mem hr')
  | bpin b | bunpin b => exact h.of_eq rfl (buf_set_eq Bcache.Buf.valid rfl) fun _ hr => Or.inl hr
  | miss dev blockno b hl hu =>
    refine ⟨fun b' => ?_, fun r hr => ?_⟩
    · simp only [buf, buf_set, update_apply]
      split
      · rfl
      · exact h.reads b'
    · rcases Multiset.mem_cons.mp hr with rfl | hrs
      · exact .of_not_owns rfl _
      · -- No call refers to the buffer that is taken.
        have hne : r.b ≠ b := by
          intro hb
          exact hcount.refcnt_ne_zero hrs (hb ▸ (hring.recycles ⟨rfl, hl, hu⟩).2.1)
        simp only [buf, buf_set, if_neg hne]
        exact h.ref r hrs
  | work e r rest stage x n disk hrefs hw =>
    have same (hn : n = s.reads r.b) (hx : x.valid = (s.buf r.b).valid)
        (hfit : Fits { r with stage := stage } (s.buf r.b).valid) : ReadInv
          { s with
            cache := s.cache.set r.b x
            disk := disk
            refs := { r with stage := stage } ::ₘ rest
            reads := update s.reads r.b n } := by
      refine h.of_eq (hn ▸ update_eq_self ..) (buf_set_eq Bcache.Buf.valid hx) fun r' hr' => ?_
      rcases Multiset.mem_cons.mp hr' with rfl | hr'
      · exact Or.inr hfit
      · exact Or.inl (hrefs ▸ Multiset.mem_cons_of_mem hr')
    have hr : r ∈ s.refs := hrefs ▸ Multiset.mem_cons_self r rest
    cases hw with
    | acquiresleep hst hl => exact same rfl rfl ⟨nofun, nofun⟩
    | testHeld hst hv => exact same rfl rfl ⟨nofun, fun _ => hv⟩
    | testReading hst hv => exact same rfl rfl ⟨fun _ => hv, nofun⟩
    | read hst data => exact h.read hlock hrefs hst data disk
    | use hst data => exact same rfl rfl ⟨nofun, fun _ => (h.ref r hr).held hst⟩
    | releasesleep hst => exact same rfl rfl ⟨nofun, nofun⟩

/-! ## Every run -/

/-- All invariants of the cache. -/
structure Inv (s : Bio α) : Prop where
  ring : s.RingInv
  count : s.CountInv
  block : s.BlockInv
  lock : s.LockInv
  read : s.ReadInv

theorem inv_init (zero : α) (disk : BitVec 32 → α) : (init zero disk).Inv where
  ring := ringInv_init zero disk
  count _ := rfl
  block := ⟨fun _ _ _ h => absurd rfl h, fun _ h => absurd h (Multiset.notMem_zero _)⟩
  lock _ := rfl
  read := ⟨fun _ => rfl, fun _ h => absurd h (Multiset.notMem_zero _)⟩

theorem Inv.step (h : s.Inv) (hb : s.Bounded e) (ht : s.step e = some t) : t.Inv where
  ring := h.ring.step (.of_step ht)
  count := h.count.step h.ring hb (.of_step ht)
  block := h.block.step h.ring h.count (.of_step ht)
  lock := h.lock.step (.of_step ht)
  read := h.read.step h.ring h.count h.lock (.of_step ht)

/-- What holds of the cache in a state: the list, the blocks, the counts, and what `bread` has
returned. -/
structure Consistent (s : Bio α) : Prop where
  ring : ∃ l, s.cache.links.Ring l ∧ l.Perm (List.finRange nBuf)
  unique : ∀ b b', s.block b = s.block b' → (s.block b).1 ≠ 0 → b = b'
  refcnt : ∀ b, (s.buf b).refcnt.toNat = s.refsOf b + s.pins b
  /-- The buffer of a `bread` that has returned holds its block and was read from the disk once. -/
  returned : ∀ r ∈ s.refs, r.stage = .held → s.block r.b = (r.dev, r.blockno) ∧ s.reads r.b = 1

/-- What an event may do to the buffers. -/
structure Respects (s : Bio α) (e : BioEvent α) (t : Bio α) : Prop where
  keeps : ∀ b, (s.buf b).refcnt ≠ 0 → t.block b = s.block b
  /-- `bget` of a block that is in the cache. -/
  finds : ∀ dev blockno b, e = .bget dev blockno → s.block b = (dev, blockno) → dev ≠ 0 →
    t.refs = ⟨b, dev, blockno, .waiting⟩ ::ₘ s.refs ∧ t.block = s.block ∧ t.reads = s.reads
  /-- `bget` of another block: the oldest unused buffer is taken and counts as not read. -/
  recycles : ∀ dev blockno, e = .bget dev blockno → (∀ b, s.block b ≠ (dev, blockno)) →
    ∃ b, t.refs = ⟨b, dev, blockno, .waiting⟩ ::ₘ s.refs ∧ t.block b = (dev, blockno) ∧
      t.reads b = 0 ∧ (s.buf b).refcnt = 0 ∧ ∀ b', b' ≠ b → (s.buf b').refcnt = 0 → s.Older b b'
  /-- The disk is read only into a buffer that was not read since it was taken. -/
  reads : ∀ r, e = .read r → s.reads r.b = 0

theorem Inv.consistent (h : s.Inv) : s.Consistent where
  ring := by
    obtain ⟨l, hlists, -⟩ := h.ring.lists
    exact ⟨l, hlists.ring, hlists.perm⟩
  unique := h.block.unique
  refcnt := h.count
  returned r hr hst := by
    refine ⟨h.block.ref r hr, ?_⟩
    rw [h.read.reads, (h.read.ref r hr).held hst]
    rfl

theorem Inv.respects (h : s.Inv) (ht : s.step e = some t) : s.Respects e t where
  keeps b hb := (Change.of_step ht).block_eq h.ring hb
  finds := by
    rintro dev blockno b rfl hb hdev
    obtain ⟨l, hlists, -⟩ := h.ring.lists
    rcases bget_cases ht with ⟨b', hl, rfl⟩ | ⟨b', hl, -, rfl⟩
    · have hb' : s.block b' = (dev, blockno) := Prod.ext_iff.mpr (hlists.lookup_some hl)
      obtain rfl : b = b' := h.block.unique b b' (hb.trans hb'.symm) (by rw [hb]; exact hdev)
      exact ⟨rfl, block_eq_of_set rfl rfl, rfl⟩
    · exact absurd (Prod.mk.inj hb) (hlists.lookup_none hl b)
  recycles := by
    rintro dev blockno rfl hfree
    obtain ⟨l, hlists, -⟩ := h.ring.lists
    rcases bget_cases ht with ⟨b, hl, rfl⟩ | ⟨b, hl, hu, rfl⟩
    · exact absurd (Prod.ext_iff.mpr (hlists.lookup_some hl)) (hfree b)
    · refine ⟨b, rfl, ?_, update_self .., (h.ring.recycles ⟨rfl, hl, hu⟩).2⟩
      simp only [Bio.block, buf, buf_set, if_true]
  reads := by
    rintro r rfl
    obtain ⟨u, hu, -⟩ := Option.map_eq_some_iff.mp ht
    obtain ⟨hst, rest, hrefs, -⟩ := advance_eq_some hu
    rw [h.read.reads, (h.read.ref r (hrefs ▸ Multiset.mem_cons_self r rest)).reading hst]
    rfl

/-- In every interleaving in which no count reaches the largest `uint`, the cache is consistent in
every state and every event respects it. -/
theorem buffer_cache (zero : α) (disk : BitVec 32 → α) (es : List (BioEvent α))
    (bounded : Trace.Meets Bio.step Bounded (init zero disk) es)
    (run : Trace.exec Bio.step (init zero disk) es = some s) :
    s.Consistent ∧ ∀ e t, s.step e = some t → s.Respects e t := by
  have hinv : s.Inv :=
    Trace.invariant (fun _ _ _ h hb ht => h.step hb ht) (inv_init zero disk) bounded run
  exact ⟨hinv.consistent, fun e t ht => hinv.respects ht⟩

/-- A block of device 1 is read and pinned, and released while it is pinned. -/
def pinnedRun : List (BioEvent Unit) :=
  [.bget 1 5, .acquiresleep ⟨0, 1, 5, .waiting⟩, .test ⟨0, 1, 5, .testing⟩,
    .read ⟨0, 1, 5, .reading⟩, .bpin 0,
    .releasesleep ⟨0, 1, 5, .held⟩, .brelse ⟨0, 1, 5, .releasing⟩]

theorem buffer_cache_pinnedRun :
    ∃ s, Trace.Meets Bio.step Bounded (init () fun _ => ()) pinnedRun ∧
      Trace.exec Bio.step (init () fun _ => ()) pinnedRun = some s ∧ s.Consistent ∧
      ∀ e t, s.step e = some t → s.Respects e t := by
  have hsome : (Trace.exec Bio.step (init () fun _ => ()) pinnedRun).isSome = true := by
    decide +kernel
  have hmeets : Trace.Meets Bio.step Bounded (init () fun _ => ()) pinnedRun := by decide +kernel
  obtain ⟨s, hs⟩ := Option.isSome_iff_exists.mp hsome
  exact ⟨s, hmeets, hs, buffer_cache () (fun _ => ()) pinnedRun hmeets hs⟩

/-- Pins that nobody takes back add up in `refcnt` modulo `2 ^ 32`. -/
theorem exec_bpin (n : ℕ) (b : Fin nBuf) (s : Bio α) :
    ∃ t, Trace.exec Bio.step s (List.replicate n (.bpin b)) = some t ∧ t.refs = s.refs ∧
      t.pins b = s.pins b + n ∧ (t.buf b).refcnt = (s.buf b).refcnt + BitVec.ofNat 32 n := by
  induction n generalizing s with
  | zero => exact ⟨s, rfl, rfl, rfl, by simp⟩
  | succ n ih =>
    obtain ⟨u, hu⟩ : ∃ u, s.step (.bpin b) = some u := ⟨_, rfl⟩
    obtain ⟨t, ht, hrefs, hpins, hcnt⟩ := ih u
    refine ⟨t, ?_, ?_, ?_, ?_⟩
    · rw [List.replicate_succ, Trace.exec_cons, hu]
      exact ht
    all_goals obtain rfl := Option.some.inj hu
    · exact hrefs
    · rw [hpins]
      simp only [update_self]
      omega
    · rw [hcnt]
      simp only [buf, Bcache.bpin, buf_set, if_true]
      rw [BitVec.add_assoc, Nat.add_comm n 1, BitVec.ofNat_add]
      rfl

/-- A block that is read once and pinned `n` times. -/
theorem exec_bget_bpin (n : ℕ) :
    ∃ s,
      Trace.exec Bio.step (init () fun _ => ()) (.bget 1 5 :: List.replicate n (.bpin 0)) = some s ∧
      s.refsOf 0 = 1 ∧ s.pins 0 = n ∧ (s.buf 0).refcnt = 1 + BitVec.ofNat 32 n := by
  have hsome : (((init () fun _ => ()).step (.bget 1 5)).any fun u =>
      decide (u.refsOf 0 = 1 ∧ u.pins 0 = 0 ∧ (u.buf 0).refcnt = 1)) = true := by
    decide +kernel
  obtain ⟨u, hu, hd⟩ := (Option.any_eq_true _ _).mp hsome
  obtain ⟨hrefs, hpins, hcnt⟩ := of_decide_eq_true hd
  obtain ⟨t, ht, htrefs, htpins, htcnt⟩ := exec_bpin n 0 u
  refine ⟨t, ?_, ?_, ?_, ?_⟩
  · rw [Trace.exec_cons, hu]
    exact ht
  · rw [refsOf, htrefs, ← hrefs, refsOf]
  · rw [htpins, hpins, Nat.zero_add]
  · rw [htcnt, hcnt]

/-- After `2 ^ 32 - 1` pins a buffer that is in use has the count 0. -/
theorem refcnt_wraps : ∃ s,
    Trace.exec Bio.step (init () fun _ => ()) (.bget 1 5 :: List.replicate (2 ^ 32 - 1) (.bpin 0)) =
      some s ∧ s.refsOf 0 = 1 ∧ s.pins 0 = 2 ^ 32 - 1 ∧ (s.buf 0).refcnt = 0 ∧ ¬ s.Consistent := by
  obtain ⟨s, hs, hrefs, hpins, hcnt⟩ := exec_bget_bpin (2 ^ 32 - 1)
  have hzero : (s.buf 0).refcnt = 0 := by
    rw [hcnt]
    decide
  refine ⟨s, hs, hrefs, hpins, hzero, fun hcons => ?_⟩
  have hcount := hcons.refcnt 0
  rw [hrefs, hpins, hzero] at hcount
  simp at hcount

end Bio

end NeulaCpu.Xv6

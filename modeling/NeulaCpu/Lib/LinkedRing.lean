import Mathlib.Tactic

/-!
# Circular doubly linked lists

Nodes are linked in both directions through a head that is not a node itself; the head is `none`.
`Links.Ring d l` says that `next` leads from the head through the nodes of `l` in order and back,
and `prev` the other way round. It is stated cut by cut: wherever `l` is cut in two, the last
element on the left and the first element on the right are linked to each other, and an empty side
stands for the head.
-/

open Function

structure Links (ι : Type*) where
  next : Option ι → Option ι
  prev : Option ι → Option ι

namespace Links

variable {ι : Type*}

/-- The same links read backwards. -/
@[simps] def flip (d : Links ι) : Links ι := ⟨d.prev, d.next⟩

/-- The links of a head that points to itself. -/
@[simps] def nil : Links ι := ⟨fun _ => none, fun _ => none⟩

/-- `next` and `prev` list the nodes `l`, from the head and back to it. -/
structure Ring (d : Links ι) (l : List ι) : Prop where
  nodup : l.Nodup
  next : ∀ u v, l = u ++ v → d.next u.getLast? = v.head?
  prev : ∀ u v, l = u ++ v → d.prev v.head? = u.getLast?

/-! ## Cuts of a list -/

section Cuts

variable {l u v u' v' : List ι}

/-- The last element on the left tells the cuts of a list without repetitions apart. -/
theorem cut_eq_of_getLast? (hl : l.Nodup) (h : l = u ++ v) (h' : l = u' ++ v')
    (hlast : u.getLast? = u'.getLast?) : u = u' := by
  rcases List.eq_nil_or_concat u with rfl | ⟨w, x, rfl⟩
  · simp only [List.getLast?_nil, eq_comm, List.getLast?_eq_none_iff] at hlast
    exact hlast.symm
  · rcases List.eq_nil_or_concat u' with rfl | ⟨w', x', rfl⟩
    · simp at hlast
    · simp only [List.concat_eq_append, List.getLast?_append, List.getLast?_singleton,
        Option.some_or, Option.some.injEq] at hlast
      subst hlast
      rw [h] at hl h'
      simp only [List.concat_eq_append, List.append_assoc, List.singleton_append] at hl h'
      have hx := List.nodup_middle.mp hl |>.notMem
      rw [List.mem_append, not_or] at hx
      obtain ⟨rfl, -⟩ := (List.append_cons_inj_of_notMem hx.1 hx.2).mp h'
      rfl

theorem cut_eq_of_head? (hl : l.Nodup) (h : l = u ++ v) (h' : l = u' ++ v')
    (hhead : v.head? = v'.head?) : v = v' := by
  have hrev : l.reverse = v.reverse ++ u.reverse := by rw [h, List.reverse_append]
  have hrev' : l.reverse = v'.reverse ++ u'.reverse := by rw [h', List.reverse_append]
  exact List.reverse_injective
    (cut_eq_of_getLast? (List.nodup_reverse.mpr hl) hrev hrev' (by simpa using hhead))

theorem head?_ne {b : ι} (hb : b ∉ l) : l.head? ≠ some b := fun h => hb (List.mem_of_mem_head? h)

/-- A cut of `u ++ v` elsewhere than between `u` and `v` is a cut of `u ++ b :: v` between the same
elements. -/
theorem exists_cut (b : ι) (h : u ++ v = u' ++ v') (hne : u' ≠ u) :
    ∃ w w', u ++ b :: v = w ++ w' ∧ w.getLast? = u'.getLast? ∧ w'.head? = v'.head? := by
  rcases List.append_eq_append_iff.mp h with ⟨a, rfl, rfl⟩ | ⟨c, rfl, rfl⟩
  · have ha : a ≠ [] := by
      rintro rfl
      simp at hne
    exact ⟨u ++ b :: a, v', by
      simp, by simp [List.getLast?_cons, List.getLast?_eq_some_getLast ha], rfl⟩
  · have hc : c ≠ [] := by
      rintro rfl
      simp at hne
    exact ⟨u', c ++ b :: v, by simp, rfl, by simp [List.head?_eq_some_head hc]⟩

end Cuts

/-! ## Reading -/

namespace Ring

variable {d : Links ι} {l u v : List ι} {b : ι}

theorem nil : (nil : Links ι).Ring [] where
  nodup := List.nodup_nil
  next := by
    intro u v h
    obtain ⟨rfl, rfl⟩ := List.append_eq_nil_iff.mp h.symm
    rfl
  prev := by
    intro u v h
    obtain ⟨rfl, rfl⟩ := List.append_eq_nil_iff.mp h.symm
    rfl

theorem flip (h : d.Ring l) : d.flip.Ring l.reverse where
  nodup := List.nodup_reverse.mpr h.nodup
  next := by
    intro u v huv
    have := h.prev v.reverse u.reverse (by rw [← List.reverse_append, ← huv, List.reverse_reverse])
    simpa using this
  prev := by
    intro u v huv
    have := h.next v.reverse u.reverse (by rw [← List.reverse_append, ← huv, List.reverse_reverse])
    simpa using this

theorem next_head (h : d.Ring l) : d.next none = l.head? := h.next [] l rfl

theorem next_node (h : d.Ring (u ++ b :: v)) : d.next (some b) = v.head? := by
  have := h.next (u ++ [b]) v (by simp)
  simpa using this

theorem prev_node (h : d.Ring (u ++ b :: v)) : d.prev (some b) = u.getLast? :=
  h.prev u (b :: v) rfl

end Ring

/-- Walk along `next` until a node satisfies `p` or the head is reached, for `fuel` nodes at
most. -/
def search (d : Links ι) (p : ι → Bool) : ℕ → Option ι → Option ι
  | _, none => none
  | 0, some _ => none
  | fuel + 1, some b => if p b then some b else search d p fuel (d.next (some b))

/-- With enough fuel the walk finds the first node that satisfies `p`. -/
theorem Ring.search_eq {d : Links ι} {u v : List ι} (h : d.Ring (u ++ v)) (p : ι → Bool) {fuel : ℕ}
    (hf : v.length ≤ fuel) : d.search p fuel v.head? = v.find? p := by
  induction v generalizing u fuel with
  | nil => cases fuel <;> rfl
  | cons b v ih =>
    obtain _ | fuel := fuel
    · cases hf
    · rw [List.head?_cons, search, h.next_node, List.find?_cons]
      cases hb : p b with
      | true => rfl
      | false =>
        rw [if_neg (by simp)]
        exact ih (u := u ++ [b]) (by simpa using h) (Nat.le_of_succ_le_succ hf)

/-- The walk from the head. -/
theorem Ring.search_head {d : Links ι} {l : List ι} (h : d.Ring l) (p : ι → Bool) {fuel : ℕ}
    (hf : l.length ≤ fuel) : d.search p fuel (d.next none) = l.find? p := by
  rw [h.next_head]
  exact h.search_eq (u := []) p hf

/-! ## Relinking -/

variable [DecidableEq ι]

/-- `p->next = x`. -/
@[simps] def setNext (d : Links ι) (p x : Option ι) : Links ι :=
  { d with next := update d.next p x }

/-- `p->prev = x`. -/
@[simps] def setPrev (d : Links ι) (p x : Option ι) : Links ι :=
  { d with prev := update d.prev p x }

/-- Take a node out: its neighbours are linked to each other. -/
def unlink (d : Links ι) (b : ι) : Links ι :=
  let d := d.setPrev (d.next (some b)) (d.prev (some b))
  d.setNext (d.prev (some b)) (d.next (some b))

/-- Put a node behind the head. -/
def pushFront (d : Links ι) (b : ι) : Links ι :=
  let d := d.setNext (some b) (d.next none)
  let d := d.setPrev (some b) none
  let d := d.setPrev (d.next none) (some b)
  d.setNext none (some b)

namespace Ring

variable {d : Links ι} {l u v : List ι} {b : ι}

theorem unlink_eq (h : d.Ring (u ++ b :: v)) :
    d.unlink b = ⟨update d.next u.getLast? v.head?, update d.prev v.head? u.getLast?⟩ := by
  have hb := (List.nodup_middle.mp h.nodup).notMem
  have hne : some b ≠ v.head? := (head?_ne fun hv => hb (List.mem_append_right u hv)).symm
  simp only [Links.unlink, setNext, setPrev, h.next_node, h.prev_node, update_of_ne hne]

/-- After a node is taken out, the cut where it was has changed and no other. -/
theorem unlink (h : d.Ring (u ++ b :: v)) : (d.unlink b).Ring (u ++ v) := by
  have hnodup := (List.nodup_cons.mp (List.nodup_middle.mp h.nodup)).2
  rw [h.unlink_eq]
  refine ⟨hnodup, fun u' v' h' => ?_, fun u' v' h' => ?_⟩ <;> dsimp only
  · by_cases hu : u' = u
    · subst hu
      rw [update_self, List.append_cancel_left h']
    · obtain ⟨w, w', hw, hlast, hhead⟩ := exists_cut b h' hu
      rw [update_of_ne fun he => hu (cut_eq_of_getLast? hnodup h' rfl he), ← hlast, h.next w w' hw,
        hhead]
  · by_cases hu : u' = u
    · subst hu
      rw [List.append_cancel_left h', update_self]
    · obtain ⟨w, w', hw, hlast, hhead⟩ := exists_cut b h' hu
      have hne : v'.head? ≠ v.head? := by
        intro he
        have hv := cut_eq_of_head? hnodup h' rfl he
        rw [hv] at h'
        exact hu (List.append_cancel_right h').symm
      rw [update_of_ne hne, ← hhead, h.prev w w' hw, hlast]

theorem pushFront_eq (h : d.Ring l) :
    d.pushFront b = ⟨update (update d.next (some b) l.head?) none (some b),
        update (update d.prev (some b) none) l.head? (some b)⟩ := by
  simp [Links.pushFront, setNext, setPrev, h.next_head]

/-- The new first node changes the cut in front of it and the one behind it. -/
theorem pushFront (h : d.Ring l) (hb : b ∉ l) : (d.pushFront b).Ring (b :: l) := by
  have links : ∀ u v, b :: l = u ++ v →
      (d.pushFront b).next u.getLast? = v.head? ∧ (d.pushFront b).prev v.head? = u.getLast? := by
    intro u v huv
    rw [h.pushFront_eq]
    dsimp only
    rcases u with _ | ⟨x, u⟩
    · obtain rfl : b :: l = v := huv
      refine ⟨update_self .., ?_⟩
      rw [List.head?_cons, update_of_ne (head?_ne hb).symm, update_self, List.getLast?_nil]
    · obtain ⟨rfl, hl⟩ : b = x ∧ l = u ++ v := List.cons_eq_cons.mp huv
      rcases List.eq_nil_or_concat' u with rfl | ⟨w, y, rfl⟩
      · obtain rfl : l = v := hl
        simp
      · have hy : some y ≠ some b := fun he => hb (by simp [hl, Option.some.inj he])
        have hbv : v.head? ≠ some b := head?_ne fun hm => hb (hl ▸ List.mem_append_right _ hm)
        have hv : v.head? ≠ l.head? := by
          intro he
          have hlen := congrArg List.length (cut_eq_of_head? h.nodup hl (List.nil_append l).symm he)
          simp only [hl, List.length_append, List.length_singleton] at hlen
          omega
        have hnext := h.next (w ++ [y]) v hl
        have hprev := h.prev (w ++ [y]) v hl
        rw [List.getLast?_concat] at hnext hprev
        rw [← List.cons_append, List.getLast?_concat, update_of_ne (by simp),
          update_of_ne hy, update_of_ne hv, update_of_ne hbv]
        exact ⟨hnext, hprev⟩
  exact ⟨List.nodup_cons.mpr ⟨hb, h.nodup⟩, fun u v huv => (links u v huv).1,
    fun u v huv => (links u v huv).2⟩

/-- A node that is taken out and put behind the head is the first one; the others keep their
order. -/
theorem moveFront (h : d.Ring l) (hb : b ∈ l) :
    ((d.unlink b).pushFront b).Ring (b :: l.erase b) := by
  obtain ⟨u, v, rfl⟩ := List.append_of_mem hb
  have hnot := (List.nodup_middle.mp h.nodup).notMem
  have herase : (u ++ b :: v).erase b = u ++ v := by
    rw [List.erase_append_right _ fun hu => hnot (List.mem_append_left v hu), List.erase_cons_head]
  rw [herase]
  exact h.unlink.pushFront hnot

/-- Nodes that are put behind the head one after the other are listed backwards. -/
theorem foldl_pushFront {bs : List ι} (h : d.Ring l) (hbs : (bs ++ l).Nodup) :
    (bs.foldl Links.pushFront d).Ring (bs.reverse ++ l) := by
  induction bs generalizing d l with
  | nil => exact h
  | cons b bs ih =>
    have hmid := List.nodup_middle.mpr hbs
    rw [List.cons_append, List.nodup_cons, List.mem_append, not_or] at hbs
    rw [List.foldl_cons, List.reverse_cons, List.append_assoc]
    exact ih (h.pushFront hbs.1.2) hmid

end Ring

end Links

import Mathlib.Tactic

/-!
# Tables of slots

A table is a list of slots; a slot has a key or is free. A table with at most one slot for each key
is a finite map. A new key goes into a free slot or to the end, and a key is removed by freeing its
slot; the other keys stay in their slots.
-/

namespace SlotTable

variable {σ κ : Type*} (key : σ → Option κ)

/-- Slot `k` is `a` and has the key `x`. -/
def Binds (l : List σ) (x : κ) (k : ℕ) (a : σ) : Prop := l[k]? = some a ∧ key a = some x

/-- No key is in two slots. -/
def Distinct (l : List σ) : Prop := ∀ x k j a b, Binds key l x k a → Binds key l x j b → k = j

/-- The table with `a` in slot `k`, which may be the end. -/
def place (l : List σ) (k : ℕ) (a : σ) : List σ := if k < l.length then l.set k a else l ++ [a]

variable {key} {l : List σ} {x : κ} {k j : ℕ} {a b : σ}

theorem Distinct.unique (h : Distinct key l) (ha : Binds key l x k a) (hb : Binds key l x j b) :
    k = j ∧ a = b := by
  obtain rfl := h x k j a b ha hb
  exact ⟨rfl, Option.some.inj (ha.1.symm.trans hb.1)⟩

theorem getElem?_place (hk : k ≤ l.length) :
    (place l k b)[j]? = if j = k then some b else l[j]? := by
  rw [place]
  by_cases hlt : k < l.length
  · rw [if_pos hlt, List.getElem?_set]
    by_cases hj : j = k
    · rw [if_pos hj.symm, if_pos hlt, if_pos hj]
    · rw [if_neg (Ne.symm hj), if_neg hj]
  · obtain rfl : k = l.length := by omega
    rw [if_neg hlt]
    by_cases hj : j = l.length
    · rw [if_pos hj, hj, List.getElem?_append_right le_rfl, Nat.sub_self]
      rfl
    · rw [if_neg hj]
      rcases Nat.lt_or_gt_of_ne hj with h | h
      · rw [List.getElem?_append_left h]
      · rw [List.getElem?_append_right h.le,
          List.getElem?_eq_none (by simp; omega), List.getElem?_eq_none h.le]

/-- What is in the table is new or was there. -/
theorem mem_place (h : a ∈ place l k b) : a = b ∨ a ∈ l := by
  rw [place] at h
  split_ifs at h
  · exact (List.mem_or_eq_of_mem_set h).symm
  · rcases List.mem_append.mp h with h | h
    · exact .inr h
    · exact .inl (List.mem_singleton.mp h)

/-- A free slot, or the end, gets a key. -/
theorem binds_place (hk : k ≤ l.length) (hfree : ∀ c, l[k]? = some c → key c = none) :
    Binds key (place l k b) x j a ↔ Binds key l x j a ∨ j = k ∧ a = b ∧ key b = some x := by
  rw [Binds, Binds, getElem?_place hk]
  by_cases hj : j = k
  · subst hj
    rw [if_pos rfl]
    constructor
    · rintro ⟨h, hkey⟩
      obtain rfl := Option.some.inj h
      exact .inr ⟨rfl, rfl, hkey⟩
    · rintro (⟨h, hkey⟩ | ⟨_, rfl, hkey⟩)
      · rw [hfree a h] at hkey
        exact absurd hkey.symm (Option.some_ne_none x)
      · exact ⟨rfl, hkey⟩
  · rw [if_neg hj]
    simp only [hj, false_and, or_false]

theorem Distinct.place (h : Distinct key l) (hk : k ≤ l.length)
    (hfree : ∀ c, l[k]? = some c → key c = none)
    (hnew : ∀ x, key b = some x → ∀ j a, ¬ Binds key l x j a) : Distinct key (place l k b) := by
  intro x j m c c' hj hm
  rw [binds_place hk hfree] at hj hm
  rcases hj with hj | ⟨rfl, rfl, hx⟩
  · rcases hm with hm | ⟨rfl, rfl, hx⟩
    · exact h x j m c c' hj hm
    · exact absurd hj (hnew x hx j c)
  · rcases hm with hm | ⟨rfl, _⟩
    · exact absurd hm (hnew x hx m c')
    · rfl

/-- A slot is freed. -/
theorem binds_clear (hk : k < l.length) (hb : key b = none) :
    Binds key (place l k b) x j a ↔ Binds key l x j a ∧ j ≠ k := by
  rw [Binds, Binds, getElem?_place hk.le]
  by_cases hj : j = k
  · rw [if_pos hj]
    constructor
    · rintro ⟨h, hkey⟩
      obtain rfl := Option.some.inj h
      rw [hb] at hkey
      exact absurd hkey.symm (Option.some_ne_none x)
    · rintro ⟨_, hne⟩
      exact absurd hj hne
  · rw [if_neg hj]
    simp only [ne_eq, hj, not_false_eq_true, and_true]

theorem Distinct.clear (h : Distinct key l) (hk : k < l.length) (hb : key b = none) :
    Distinct key (SlotTable.place l k b) := by
  intro x j m c c' hj hm
  exact h x j m c c' ((binds_clear hk hb).mp hj).1 ((binds_clear hk hb).mp hm).1

end SlotTable

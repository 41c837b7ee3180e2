import Mathlib.Tactic
import Mathlib.Data.List.ReduceOption

/-!
# Numbered items on a conveyor

Items enter a row of slots at one end and leave it at the other, all slots moving together. Each
item gets the next number as it enters, so the numbers on the belt are in order of age, and a number
below all of them never comes back.
-/

namespace Conveyor

/-- The slots, the one that is left next first, and the number of the next item to enter. -/
structure Belt where
  slots : List (Option ℕ)
  next : ℕ
deriving DecidableEq, Repr

/-- What happens to the belt in a cycle; an advance may bring a new item. -/
inductive Motion
  | hold | clear | advance (enters : Bool)
deriving DecidableEq, Repr

namespace Belt

def step (b : Belt) : Motion → Belt
  | .hold => b
  | .clear => ⟨b.slots.map fun _ => none, b.next⟩
  | .advance enters =>
    ⟨b.slots.tail ++ [if enters then some b.next else none],
      if enters then b.next + 1 else b.next⟩

/-- The numbers increase from the oldest item to the one that enters next. -/
def Sorted (b : Belt) : Prop := (b.slots.reduceOption ++ [b.next]).Pairwise (· < ·)

/-- No item on the belt and no item to come has a number below `m`. -/
structure AtLeast (m : ℕ) (b : Belt) : Prop where
  slot : ∀ x, some x ∈ b.slots → m ≤ x
  next : m ≤ b.next

variable {b : Belt} {m x n : ℕ} {a : Option ℕ} {rest : List (Option ℕ)}

/-! ## Order -/

theorem Sorted.lt_next (h : b.Sorted) (hx : some x ∈ b.slots) : x < b.next := by
  have hmem : x ∈ b.slots.reduceOption := List.reduceOption_mem_iff.mpr hx
  exact (List.pairwise_append.mp h).2.2 x hmem b.next (List.mem_singleton_self _)

theorem Sorted.tail (h : Sorted ⟨a :: rest, n⟩) : Sorted ⟨rest, n⟩ := by
  unfold Sorted at h ⊢
  cases a with
  | none => exact h
  | some x =>
    rw [List.reduceOption_cons_of_some, List.cons_append] at h
    exact h.of_cons

/-- What is behind an item has a larger number. -/
theorem Sorted.atLeast_tail (h : Sorted ⟨some x :: rest, n⟩) : AtLeast (x + 1) ⟨rest, n⟩ := by
  unfold Sorted at h
  rw [List.reduceOption_cons_of_some, List.cons_append] at h
  have hlt := (List.pairwise_cons.mp h).1
  refine ⟨fun y hy => hlt y ?_, hlt n ?_⟩
  · exact List.mem_append_left _ (List.reduceOption_mem_iff.mpr hy)
  · exact List.mem_append_right _ (List.mem_singleton_self n)

theorem Sorted.atLeast_head (h : Sorted ⟨some x :: rest, n⟩) : AtLeast x ⟨some x :: rest, n⟩ := by
  have ht := h.atLeast_tail
  refine ⟨?_, le_trans (Nat.le_succ x) ht.next⟩
  intro y hy
  rcases List.mem_cons.mp hy with hxy | hy
  · rw [Option.some.inj hxy]
  · exact le_trans (Nat.le_succ x) (ht.slot y hy)

theorem sorted_empty (l : List (Option ℕ)) : Sorted ⟨l.map fun _ => none, n⟩ := by
  unfold Sorted
  have hnil : (l.map fun _ => (none : Option ℕ)).reduceOption = [] := by
    induction l with
    | nil => rfl
    | cons c cs ih => exact ih
  rw [hnil]
  exact List.pairwise_singleton _ _

/-- A move keeps the belt sorted. -/
theorem Sorted.step (h : b.Sorted) (move : Motion) : (b.step move).Sorted := by
  cases move with
  | hold => exact h
  | clear => exact sorted_empty _
  | advance enters =>
    have htail : Sorted ⟨b.slots.tail, b.next⟩ := by
      obtain ⟨slots, next⟩ := b
      cases slots with
      | nil => exact h
      | cons a rest => exact h.tail
    cases enters with
    | false =>
      unfold Sorted at htail ⊢
      simpa [Belt.step, List.reduceOption_append] using htail
    | true =>
      -- The number that is given out becomes the last one on the belt.
      have hlast : ∀ y ∈ b.slots.tail.reduceOption ++ [b.next], y < b.next + 1 := by
        intro y hy
        rcases List.mem_append.mp hy with hy | hy
        · exact Nat.lt_succ_of_lt (htail.lt_next (List.reduceOption_mem_iff.mp hy))
        · rw [List.mem_singleton.mp hy]
          exact Nat.lt_succ_self _
      have hslots : (b.slots.tail ++ [some b.next]).reduceOption =
          b.slots.tail.reduceOption ++ [b.next] := by
        rw [List.reduceOption_append]
        rfl
      unfold Sorted at htail ⊢
      simp only [Belt.step, if_true, hslots]
      refine List.pairwise_append.mpr ⟨htail, List.pairwise_singleton _ _, ?_⟩
      intro y hy z hz
      rw [List.mem_singleton.mp hz]
      exact hlast y hy

/-! ## Numbers that do not come back -/

theorem AtLeast.step (h : b.AtLeast m) (move : Motion) : (b.step move).AtLeast m := by
  cases move with
  | hold => exact h
  | clear =>
    refine ⟨fun x hx => ?_, h.next⟩
    obtain ⟨_, -, hnone⟩ := List.mem_map.mp hx
    cases hnone
  | advance enters =>
    refine ⟨fun x hx => ?_, ?_⟩
    · rcases List.mem_append.mp hx with hx | hx
      · exact h.slot x (List.mem_of_mem_tail hx)
      · have hx' := List.mem_singleton.mp hx
        cases enters with
        | false => cases hx'
        | true =>
          rw [Option.some.inj hx']
          exact h.next
    · cases enters with
      | false => exact h.next
      | true => exact le_trans h.next (Nat.le_succ _)

theorem atLeast_clear (b : Belt) : (b.step .clear).AtLeast b.next := by
  refine ⟨fun x hx => ?_, le_rfl⟩
  obtain ⟨_, -, hnone⟩ := List.mem_map.mp hx
  cases hnone

/-- The item that leaves has a smaller number than everything that stays. -/
theorem Sorted.atLeast_advance (h : Sorted ⟨some x :: rest, n⟩) (enters : Bool) :
    ((⟨some x :: rest, n⟩ : Belt).step (.advance enters)).AtLeast (x + 1) := by
  have ht := h.atLeast_tail
  refine ⟨fun y hy => ?_, ?_⟩
  · rcases List.mem_append.mp hy with hy | hy
    · exact ht.slot y hy
    · have hy' := List.mem_singleton.mp hy
      cases enters with
      | false => cases hy'
      | true =>
        rw [Option.some.inj hy']
        exact ht.next
  · cases enters with
    | false => exact ht.next
    | true => exact le_trans ht.next (Nat.le_succ _)

/-! ## Where an item goes -/

/-- An item stays on the belt unless the belt is cleared or the item leaves it. -/
theorem mem_step (hx : some x ∈ b.slots) (move : Motion) :
    some x ∈ (b.step move).slots ∨ move = .clear ∨
      ∃ enters, move = .advance enters ∧ b.slots.head? = some (some x) := by
  cases move with
  | hold => exact Or.inl hx
  | clear => exact Or.inr (Or.inl rfl)
  | advance enters =>
    obtain ⟨slots, next⟩ := b
    cases slots with
    | nil => cases hx
    | cons a rest =>
      rcases List.mem_cons.mp hx with hxa | hx
      · exact Or.inr (Or.inr ⟨enters, rfl, by rw [hxa]; rfl⟩)
      · exact Or.inl (List.mem_append_left _ hx)

/-- A number that is given out in a cycle is the one of the item that enters. -/
theorem lt_next_step {move : Motion} (hx : x < (b.step move).next) :
    x < b.next ∨ some x ∈ (b.step move).slots := by
  cases move with
  | hold => exact Or.inl hx
  | clear => exact Or.inl hx
  | advance enters =>
    cases enters with
    | false => exact Or.inl hx
    | true =>
      rcases Nat.lt_succ_iff_lt_or_eq.mp hx with hlt | heq
      · exact Or.inl hlt
      · right
        rw [heq]
        exact List.mem_append_right _ (List.mem_singleton_self _)

end Belt

end Conveyor

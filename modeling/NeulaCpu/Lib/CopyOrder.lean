import Mathlib.Tactic

/-!
# Copying element by element

A memory is copied within itself, one element after the other: the element with index `i` goes from
the address `src i` to the address `dst i`. The order matters if the two ranges overlap. If no
element is overwritten before it is read, and none is written twice, then every element arrives with
the value that it had at the start.
-/

namespace CopyOrder

variable {ι α β : Type*} [DecidableEq α]

/-- The elements with the indices of the list, in its order. -/
def copyEach (dst src : ι → α) : List ι → (α → β) → α → β
  | [], m => m
  | i :: is, m => copyEach dst src is (Function.update m (dst i) (m (src i)))

/-- The order in which no element is overwritten before it is read, and none is written twice. -/
def Safe (dst src : ι → α) (is : List ι) : Prop :=
  is.Pairwise fun i j => dst i ≠ src j ∧ dst i ≠ dst j

variable {dst src : ι → α} {is : List ι} {m : α → β}

theorem copyEach_of_notMem {a : α} (ha : ∀ i ∈ is, dst i ≠ a) : copyEach dst src is m a = m a := by
  induction is generalizing m with
  | nil => rfl
  | cons i is ih =>
    rw [copyEach, ih fun j hj => ha j (List.mem_cons_of_mem i hj)]
    exact Function.update_of_ne (ha i List.mem_cons_self).symm ..

theorem copyEach_of_mem (h : Safe dst src is) {i : ι} (hi : i ∈ is) :
    copyEach dst src is m (dst i) = m (src i) := by
  induction is generalizing m with
  | nil => exact absurd hi List.not_mem_nil
  | cons j is ih =>
    obtain ⟨hfirst, hrest⟩ := List.pairwise_cons.mp h
    rw [copyEach]
    rcases List.mem_cons.mp hi with rfl | hi
    · rw [copyEach_of_notMem fun k hk => (hfirst k hk).2.symm, Function.update_self]
    · rw [ih hrest hi, Function.update_of_ne (hfirst i hi).1.symm]

end CopyOrder

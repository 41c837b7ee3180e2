import Mathlib.Tactic

/-!
# Exact ownership

Resources of a type `ι` are in use or not, and owners of a type `κ` hold some of them. The
bookkeeping is exact if a resource is in use exactly if somebody holds it, and nobody holds what
another does. Handing a resource that is not in use to an owner, and taking back what an owner
holds, keep it exact.
-/

namespace Ownership

variable {ι κ : Type*}

structure Exact (used : ι → Prop) (owns : κ → ι → Prop) : Prop where
  used_iff : ∀ i, used i ↔ ∃ k, owns k i
  unique : ∀ i k l, owns k i → owns l i → k = l

namespace Exact

variable {used used' : ι → Prop} {owns owns' : κ → ι → Prop} {k : κ} {S : ι → Prop}

section

variable (h : Exact used owns)

include h

theorem used_of_owns {i : ι} (hk : owns k i) : used i := (h.used_iff i).mpr ⟨k, hk⟩

theorem congr (hused : ∀ i, used' i ↔ used i) (howns : ∀ l i, owns' l i ↔ owns l i) :
    Exact used' owns' where
  used_iff i := by
    rw [hused, h.used_iff]
    exact exists_congr fun l => (howns l i).symm
  unique i l m hl hm := h.unique i l m ((howns l i).mp hl) ((howns m i).mp hm)

/-- The owner `k` gets the resources `S`, none of which was in use. -/
theorem acquire (hfresh : ∀ i, S i → ¬ used i)
    (hused : ∀ i, used' i ↔ used i ∨ S i) (howns : ∀ l i, owns' l i ↔ owns l i ∨ l = k ∧ S i) :
    Exact used' owns' where
  used_iff i := by
    simp only [hused, howns, h.used_iff, exists_or, exists_eq_left]
  unique i l m hl hm := by
    rcases (howns l i).mp hl with hl | ⟨rfl, hS⟩
    · rcases (howns m i).mp hm with hm | ⟨rfl, hS⟩
      · exact h.unique i l m hl hm
      · exact absurd (h.used_of_owns hl) (hfresh i hS)
    · rcases (howns m i).mp hm with hm | ⟨rfl, _⟩
      · exact absurd (h.used_of_owns hm) (hfresh i hS)
      · rfl

/-- The owner `k` gives back the resources `S`, all of which it had. -/
theorem release (hheld : ∀ i, S i → owns k i)
    (hused : ∀ i, used' i ↔ used i ∧ ¬ S i)
    (howns : ∀ l i, owns' l i ↔ owns l i ∧ ¬ (l = k ∧ S i)) :
    Exact used' owns' where
  used_iff i := by
    rw [hused, h.used_iff]
    constructor
    · rintro ⟨⟨l, hl⟩, hS⟩
      exact ⟨l, (howns l i).mpr ⟨hl, fun hkS => hS hkS.2⟩⟩
    · rintro ⟨l, hl⟩
      obtain ⟨hl, hnot⟩ := (howns l i).mp hl
      exact ⟨⟨l, hl⟩, fun hS => hnot ⟨h.unique i l k hl (hheld i hS), hS⟩⟩
  unique i l m hl hm := h.unique i l m ((howns l i).mp hl).1 ((howns m i).mp hm).1

/-- The owners in `K` give back all that they had. -/
theorem retire {K : κ → Prop} (hused : ∀ i, used' i ↔ used i ∧ ¬ ∃ k, K k ∧ owns k i)
    (howns : ∀ l i, owns' l i ↔ owns l i ∧ ¬ K l) : Exact used' owns' where
  used_iff i := by
    rw [hused, h.used_iff]
    constructor
    · rintro ⟨⟨l, hl⟩, hnot⟩
      exact ⟨l, (howns l i).mpr ⟨hl, fun hK => hnot ⟨l, hK, hl⟩⟩⟩
    · rintro ⟨l, hl⟩
      obtain ⟨hl, hK⟩ := (howns l i).mp hl
      refine ⟨⟨l, hl⟩, ?_⟩
      rintro ⟨k, hk, hki⟩
      exact hK (h.unique i l k hl hki ▸ hk)
  unique i l m hl hm := h.unique i l m ((howns l i).mp hl).1 ((howns m i).mp hm).1

/-- The resources `S` go to the owner `k`, whoever had them. -/
theorem move (hS : ∀ i, S i → used i) (howns : ∀ l i, owns' l i ↔ owns l i ∧ ¬ S i ∨ l = k ∧ S i) :
    Exact used owns' where
  used_iff i := by
    constructor
    · intro hi
      by_cases hSi : S i
      · exact ⟨k, (howns k i).mpr (Or.inr ⟨rfl, hSi⟩)⟩
      · obtain ⟨l, hl⟩ := (h.used_iff i).mp hi
        exact ⟨l, (howns l i).mpr (Or.inl ⟨hl, hSi⟩)⟩
    · rintro ⟨l, hl⟩
      rcases (howns l i).mp hl with ⟨hl, _⟩ | ⟨_, hSi⟩
      · exact h.used_of_owns hl
      · exact hS i hSi
  unique i l m hl hm := by
    rcases (howns l i).mp hl with ⟨hl, hnl⟩ | ⟨rfl, hSl⟩
    · rcases (howns m i).mp hm with ⟨hm, _⟩ | ⟨_, hSm⟩
      · exact h.unique i l m hl hm
      · exact absurd hSm hnl
    · rcases (howns m i).mp hm with ⟨_, hnm⟩ | ⟨rfl, _⟩
      · exact absurd hSl hnm
      · rfl

/-- One resource goes from the owner `k` to the owner `l`. -/
theorem transfer {l : κ} {r : ι} (hr : owns k r) (hne : k ≠ l)
    (hk : ∀ i, owns' k i ↔ owns k i ∧ i ≠ r) (hl : ∀ i, owns' l i ↔ owns l i ∨ i = r)
    (hother : ∀ m, m ≠ k → m ≠ l → ∀ i, owns' m i ↔ owns m i) : Exact used owns' := by
  -- nobody but `k` has `r`
  have honly (m : κ) (i : ι) (hm : m ≠ k) (hi : owns m i) : i ≠ r := fun he =>
    hm (h.unique r m k (he ▸ hi) hr)
  refine h.move (k := l) (S := fun i => i = r) (fun i hi => hi ▸ h.used_of_owns hr) fun m i => ?_
  by_cases hmk : m = k
  · subst hmk
    rw [hk]
    simp only [hne, false_and, or_false, ne_eq]
  · by_cases hml : m = l
    · subst hml
      rw [hl]
      simp only [true_and]
      constructor
      · rintro (hi | hi)
        · exact Or.inl ⟨hi, honly m i hmk hi⟩
        · exact Or.inr hi
      · rintro (⟨hi, _⟩ | hi)
        · exact Or.inl hi
        · exact Or.inr hi
    · rw [hother m hmk hml]
      simp only [hml, false_and, or_false]
      exact ⟨fun hi => ⟨hi, honly m i hmk hi⟩, And.left⟩

end

end Exact

end Ownership

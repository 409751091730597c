/-
# Tallies over a table

A tally is a sum of natural numbers over the entries of a finite table.  When a
step of a system changes one entry, the tally changes by the difference of the
two values (`sum_change`, `sum_update`); the counting form is `card_change`.  A tally can also be
kept over a list of records, of which one is taken out (`countP_erase_add`).
-/
import Mathlib.Algebra.BigOperators.Group.Finset.Piecewise
import Mathlib.Data.Fintype.Basic
import Mathlib.Data.List.Count

namespace Tally

variable {ι : Type*} [DecidableEq ι] {s : Finset ι} {k : ι}

/-- **One entry changes**: the rest of the sum stays. -/
theorem sum_change {f g : ι → ℕ} (hk : k ∈ s) (h : ∀ i, i ≠ k → g i = f i) :
    (∑ i ∈ s, g i) + f k = (∑ i ∈ s, f i) + g k := by
  have hrest : ∑ i ∈ s.erase k, g i = ∑ i ∈ s.erase k, f i :=
    Finset.sum_congr rfl fun i hi => h i (Finset.ne_of_mem_erase hi)
  rw [← Finset.add_sum_erase s g hk, ← Finset.add_sum_erase s f hk, hrest]
  omega

/-- The same for a table that is updated, with a tally of its values. -/
theorem sum_update {α : Type*} [Fintype ι] (φ : α → ℕ) (t : ι → α) (k : ι) (v : α) :
    (∑ i, φ (Function.update t k v i)) + φ (t k) = (∑ i, φ (t i)) + φ v := by
  have h := sum_change (f := fun i => φ (t i)) (g := fun i => φ (Function.update t k v i))
    (Finset.mem_univ k) fun i hi => by rw [Function.update_of_ne hi]
  rw [h, Function.update_self]

/-- The counting form of `sum_change`. -/
theorem card_change {P Q : ι → Prop} [DecidablePred P] [DecidablePred Q] (hk : k ∈ s)
    (h : ∀ i, i ≠ k → (Q i ↔ P i)) :
    (s.filter Q).card + (if P k then 1 else 0) = (s.filter P).card + if Q k then 1 else 0 := by
  rw [Finset.card_filter, Finset.card_filter]
  refine sum_change (f := fun i => if P i then 1 else 0) (g := fun i => if Q i then 1 else 0) hk
    fun i hi => ?_
  simp only [h i hi]

/-- Taking out one record. -/
theorem countP_erase_add {α : Type*} [BEq α] [LawfulBEq α] (f : α → Bool) {l : List α} {a : α}
    (ha : a ∈ l) : (l.erase a).countP f + (if f a then 1 else 0) = l.countP f := by
  rw [List.countP_erase]
  by_cases hf : f a = true
  · have hpos : 0 < l.countP f := List.countP_pos_iff.mpr ⟨a, ha, hf⟩
    rw [if_pos ⟨ha, hf⟩, if_pos hf]
    omega
  · rw [if_neg (fun h => hf h.2), if_neg hf]
    omega

end Tally

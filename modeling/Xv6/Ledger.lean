/-
# References and a free map

Places refer to blocks, and a map has one bit for each block.  A place that refers to
nothing has the number 0.  `Exact` says that places and map are in step: what is referred
to lies in the area `[lo, hi)`, no two places refer to one block, and the bit of a block
is set exactly when the block lies below the area or is referred to.  One reference is
added or dropped together with its bit.
-/
import Mathlib.Data.Nat.Basic
import Mathlib.Logic.Function.Basic

namespace Ledger

open Function

variable {ι : Type} {lo hi b : ℕ} {ref : ι → ℕ} {bits : ℕ → Bool} {x : ι}

/-- The places refer to blocks of the area, each block at most once, and the bits say
which blocks are taken. -/
structure Exact (lo hi : ℕ) (ref : ι → ℕ) (bits : ℕ → Bool) : Prop where
  pos : 0 < lo
  area : ∀ x, ref x ≠ 0 → lo ≤ ref x ∧ ref x < hi
  once : ∀ x y, ref x ≠ 0 → ref x = ref y → x = y
  bit : ∀ b, b < hi → (bits b = true ↔ b < lo ∨ ∃ x, ref x = b)

/-- A block that is referred to has its bit set. -/
theorem Exact.bit_of_ref (h : Exact lo hi ref bits) (hx : ref x ≠ 0) : bits (ref x) = true :=
  (h.bit _ (h.area x hx).2).mpr (Or.inr ⟨x, rfl⟩)

/-- A block whose bit is not set lies in the area. -/
theorem Exact.lo_le (h : Exact lo hi ref bits) (hhi : b < hi) (hb : bits b = false) : lo ≤ b := by
  by_contra hlt
  have hset := (h.bit b hhi).mpr (Or.inl (not_le.mp hlt))
  rw [hb] at hset
  cases hset

/-- Nothing refers to a block whose bit is not set. -/
theorem Exact.not_ref (h : Exact lo hi ref bits) (hhi : b < hi) (hb : bits b = false) (x : ι) :
    ref x ≠ b := by
  intro hx
  have hset := (h.bit b hhi).mpr (Or.inr ⟨x, hx⟩)
  rw [hb] at hset
  cases hset

/-- When no block is free, places that keep what they refer to get nothing new. -/
theorem Exact.no_more {ref' : ι → ℕ} {bits' : ℕ → Bool} (h : Exact lo hi ref bits)
    (h' : Exact lo hi ref' bits') (hkept : ∀ x, ref x ≠ 0 → ref' x = ref x)
    (hfull : ∀ b, b < hi → bits b = true) (hx : ref' x ≠ 0) : ref x = ref' x := by
  obtain ⟨hlo, hhi⟩ := h'.area x hx
  rcases (h.bit _ hhi).mp (hfull _ hhi) with hlt | ⟨y, hy⟩
  · omega
  · have hxy := h'.once x y hx (by rw [hkept y (by omega), hy])
    rw [hxy, hkept y (by omega)]

variable [DecidableEq ι]

/-- **A new reference to a free block.** -/
theorem Exact.add (h : Exact lo hi ref bits) (hx : ref x = 0) (hhi : b < hi) (hb : bits b = false) :
    Exact lo hi (update ref x b) (update bits b true) := by
  refine ⟨h.pos, ?_, ?_, ?_⟩
  · intro y hy
    by_cases hyx : y = x
    · rw [hyx, update_self]
      exact ⟨h.lo_le hhi hb, hhi⟩
    · rw [update_of_ne hyx] at hy ⊢
      exact h.area y hy
  · intro y z hy hyz
    by_cases hyx : y = x <;> by_cases hzx : z = x
    · rw [hyx, hzx]
    · rw [hyx, update_self, update_of_ne hzx] at hyz
      exact absurd hyz.symm (h.not_ref hhi hb z)
    · rw [hzx, update_self, update_of_ne hyx] at hyz
      exact absurd hyz (h.not_ref hhi hb y)
    · rw [update_of_ne hyx] at hy hyz
      rw [update_of_ne hzx] at hyz
      exact h.once y z hy hyz
  · intro c hc
    by_cases hcb : c = b
    · simp only [hcb, update_self, true_iff]
      exact Or.inr ⟨x, update_self x b ref⟩
    · rw [update_of_ne hcb, h.bit c hc]
      constructor
      · rintro (hlo | ⟨y, rfl⟩)
        · exact Or.inl hlo
        · by_cases hyx : y = x
          · rw [hyx, hx]
            exact Or.inl h.pos
          · exact Or.inr ⟨y, update_of_ne hyx b ref⟩
      · rintro (hlo | ⟨y, hy⟩)
        · exact Or.inl hlo
        · by_cases hyx : y = x
          · rw [hyx, update_self] at hy
            exact absurd hy.symm hcb
          · rw [update_of_ne hyx] at hy
            exact Or.inr ⟨y, hy⟩

/-- **A reference is dropped and its block freed.** -/
theorem Exact.drop (h : Exact lo hi ref bits) (hx : ref x ≠ 0) :
    Exact lo hi (update ref x 0) (update bits (ref x) false) := by
  have hne : ∀ y, update ref x 0 y ≠ 0 → y ≠ x := by
    rintro y hy rfl
    rw [update_self] at hy
    exact hy rfl
  refine ⟨h.pos, ?_, ?_, ?_⟩
  · intro y hy
    have hyx := hne y hy
    rw [update_of_ne hyx] at hy ⊢
    exact h.area y hy
  · intro y z hy hyz
    have hyx := hne y hy
    have hzx := hne z (hyz ▸ hy)
    rw [update_of_ne hyx] at hy hyz
    rw [update_of_ne hzx] at hyz
    exact h.once y z hy hyz
  · intro c hc
    have hlo := (h.area x hx).1
    have hpos := h.pos
    by_cases hcx : c = ref x
    · simp only [hcx, update_self, Bool.false_eq_true, false_iff, not_or, not_lt,
        not_exists]
      refine ⟨hlo, fun y hy => ?_⟩
      have hyx := hne y (by omega)
      rw [update_of_ne hyx] at hy
      exact hyx (h.once x y hx hy.symm).symm
    · rw [update_of_ne hcx, h.bit c hc]
      constructor
      · rintro (hlt | ⟨y, rfl⟩)
        · exact Or.inl hlt
        · refine Or.inr ⟨y, update_of_ne ?_ 0 ref⟩
          rintro rfl
          exact hcx rfl
      · rintro (hlt | ⟨y, hy⟩)
        · exact Or.inl hlt
        · by_cases hyx : y = x
          · rw [hyx, update_self] at hy
            exact Or.inl (by omega)
          · rw [update_of_ne hyx] at hy
            exact Or.inr ⟨y, hy⟩

end Ledger

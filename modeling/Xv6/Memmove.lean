/-
# Moving overlapping ranges: the two memmoves

`memmove` exists twice, in `kernel/string.c` with an unsigned length and in
`user/ulib.c` with a signed one, and the two choose the direction of the copy by
different tests.  Memory is a function on 64-bit addresses and pointer arithmetic is
modulo `2 ^ 64`, so the end of a range may be the address 0.

The two loops read from the memory they write to.  Their results are compared with
`moved`, the memory in which all bytes are taken from the memory before the call:

* `forward_eq_moved` : the upward loop is right unless `dst` lies inside `src[1..n)`;
* `backward_eq_moved` : the downward loop is right unless `src` lies inside `dst[1..n)`.
-/
import Mathlib.Logic.Function.Basic
import Mathlib.Algebra.Ring.Nat

namespace Memmove

open Function

/-- A pointer. -/
abbrev Addr := BitVec 64

abbrev Mem := Addr → UInt8

/-- `while(n-- > 0) *d++ = *s++;` with `n` rounds to go. -/
def forward : ℕ → Addr → Addr → Mem → Mem
  | 0, _, _, m => m
  | n + 1, d, s, m => forward n (d + 1) (s + 1) (update m d (m s))

/-- `while(n-- > 0) *--d = *--s;` with `n` rounds to go. -/
def backward : ℕ → Addr → Addr → Mem → Mem
  | 0, _, _, m => m
  | n + 1, d, s, m => backward n (d - 1) (s - 1) (update m (d - 1) (m (s - 1)))

/-- `memmove` of the kernel: the returned pointer and the memory afterwards. -/
def kernelMemmove (m : Mem) (dst src : Addr) (n : BitVec 32) : Addr × Mem :=
  if n = 0 then
    (dst, m)
  else if src < dst ∧ dst < src + n.setWidth 64 then
    (dst, backward n.toNat (dst + n.setWidth 64) (src + n.setWidth 64) m)
  else
    (dst, forward n.toNat dst src m)

/-- `memmove` of the user library; `n` is an `int`, and a negative one is no round. -/
def userMemmove (m : Mem) (vdst vsrc : Addr) (n : BitVec 32) : Addr × Mem :=
  if vdst < vsrc then
    (vdst, forward n.toInt.toNat vdst vsrc m)
  else
    (vdst, backward n.toInt.toNat (vdst + n.signExtend 64) (vsrc + n.signExtend 64) m)

/-- The memory in which `dst[0..n)` holds what `src[0..n)` held in `m`. -/
def moved (m : Mem) (dst src : Addr) (n : ℕ) : Mem := fun a =>
  if (a - dst).toNat < n then m (src + (a - dst)) else m a

variable {m : Mem} {dst src : Addr} {n : ℕ}

theorem moved_inside {i : ℕ} (hi : i < n) :
    moved m dst src n (dst + BitVec.ofNat 64 i) = m (src + BitVec.ofNat 64 i) := by
  have hsub : dst + BitVec.ofNat 64 i - dst = BitVec.ofNat 64 i := by bv_omega
  have hlt : (BitVec.ofNat 64 i).toNat < n := by
    rw [BitVec.toNat_ofNat]
    exact lt_of_le_of_lt (Nat.mod_le _ _) hi
  unfold moved
  rw [hsub, if_pos hlt]

theorem moved_outside {a : Addr} (ha : ∀ i < n, a ≠ dst + BitVec.ofNat 64 i) :
    moved m dst src n a = m a := by
  unfold moved
  refine if_neg fun hlt => ha _ hlt ?_
  rw [BitVec.ofNat_toNat, BitVec.setWidth_eq]
  bv_omega

/-! ## The loops -/

/-- The first round of the upward loop, seen from the memory before it. -/
theorem moved_succ_forward (hsafe : (dst - src).toNat = 0 ∨ n + 1 ≤ (dst - src).toNat)
    (hn : n < 2 ^ 32) :
    moved (update m dst (m src)) (dst + 1) (src + 1) n = moved m dst src (n + 1) := by
  funext a
  unfold moved
  by_cases ha : a = dst
  · subst ha
    have hnot : ¬ (a - (a + 1)).toNat < n := by bv_omega
    have hlt : (a - a).toNat < n + 1 := by simp
    rw [if_neg hnot, if_pos hlt, update_self]
    congr 1
    bv_omega
  · have hidx : (a - (dst + 1)).toNat = (a - dst).toNat - 1 := by bv_omega
    have hpos : 0 < (a - dst).toNat := by bv_omega
    have hsrc : src + 1 + (a - (dst + 1)) = src + (a - dst) := by bv_omega
    by_cases hlt : (a - dst).toNat < n + 1
    · -- the byte read for `a` is not the one just written
      have hread : src + (a - dst) ≠ dst := by bv_omega
      rw [if_pos (by omega), if_pos hlt, hsrc, update_of_ne hread]
    · rw [if_neg (by omega), if_neg hlt, update_of_ne ha]

/-- The upward loop is right unless it reads what it has written. -/
theorem forward_eq_moved (hn : n < 2 ^ 32) (hsafe : (dst - src).toNat = 0 ∨ n ≤ (dst - src).toNat) :
    forward n dst src m = moved m dst src n := by
  induction n generalizing m dst src with
  | zero => funext a; simp [forward, moved]
  | succ n ih =>
    have hdiff : dst + 1 - (src + 1) = dst - src := by bv_omega
    rw [forward, ih (by omega) (by rw [hdiff]; omega),
      moved_succ_forward hsafe (by omega)]

/-- The first round of the downward loop writes the last byte. -/
theorem moved_succ_backward (hsafe : (src - dst).toNat = 0 ∨ n + 1 ≤ (src - dst).toNat)
    (hn : n < 2 ^ 32) :
    moved (update m (dst + BitVec.ofNat 64 n) (m (src + BitVec.ofNat 64 n))) dst src n =
      moved m dst src (n + 1) := by
  funext a
  unfold moved
  by_cases ha : (a - dst).toNat < n
  · have hread : src + (a - dst) ≠ dst + BitVec.ofNat 64 n := by bv_omega
    rw [if_pos ha, if_pos (by omega), update_of_ne hread]
  · rw [if_neg ha]
    by_cases hlast : a = dst + BitVec.ofNat 64 n
    · have hidx : a - dst = BitVec.ofNat 64 n := by bv_omega
      have hlt : (a - dst).toNat < n + 1 := by bv_omega
      rw [if_pos hlt, hidx, hlast, update_self]
    · have hlt : ¬ (a - dst).toNat < n + 1 := by bv_omega
      rw [if_neg hlt, update_of_ne hlast]

/-- The downward loop is right unless it reads what it has written. -/
theorem backward_eq_moved (hn : n < 2 ^ 32)
    (hsafe : (src - dst).toNat = 0 ∨ n ≤ (src - dst).toNat) :
    backward n (dst + BitVec.ofNat 64 n) (src + BitVec.ofNat 64 n) m = moved m dst src n := by
  induction n generalizing m with
  | zero => funext a; simp [backward, moved]
  | succ n ih =>
    have hd : dst + BitVec.ofNat 64 (n + 1) - 1 = dst + BitVec.ofNat 64 n := by bv_omega
    have hs : src + BitVec.ofNat 64 (n + 1) - 1 = src + BitVec.ofNat 64 n := by bv_omega
    rw [backward, hd, hs, ih (by omega) (by omega), moved_succ_backward hsafe (by omega)]

/-! ## The two functions -/

section Calls

variable {n : BitVec 32} (hsrc : src.toNat + n.toNat ≤ 2 ^ 64)
  (hdst : dst.toNat + n.toNat ≤ 2 ^ 64)
include hsrc hdst

theorem kernelMemmove_eq : kernelMemmove m dst src n = (dst, moved m dst src n.toNat) := by
  have hn := n.isLt
  have hw : n.setWidth 64 = BitVec.ofNat 64 n.toNat := (BitVec.ofNat_toNat 64 n).symm
  unfold kernelMemmove
  by_cases h0 : n = 0
  · rw [if_pos h0, h0]
    rfl
  · rw [if_neg h0]
    by_cases hover : src < dst ∧ dst < src + n.setWidth 64
    · rw [if_pos hover, hw, backward_eq_moved hn (by bv_omega)]
    · rw [if_neg hover, forward_eq_moved hn]
      -- a wrapped end of `src` would have an overlapping `dst` wrap as well
      rw [hw] at hover
      bv_omega

theorem userMemmove_eq (h0 : 0 ≤ n.toInt) :
    userMemmove m dst src n = (dst, moved m dst src n.toNat) := by
  have hn := n.isLt
  have hmsb : n.msb = false := by
    rw [BitVec.msb_eq_toInt]
    simpa using h0
  have hk : n.toInt.toNat = n.toNat := by
    rw [BitVec.toInt_eq_toNat_of_msb hmsb, Int.toNat_natCast]
  have hw : n.signExtend 64 = BitVec.ofNat 64 n.toNat := by
    rw [BitVec.signExtend_eq_setWidth_of_msb_false hmsb, BitVec.ofNat_toNat]
  unfold userMemmove
  rw [hk, hw]
  by_cases hlt : dst < src
  · rw [if_pos hlt, forward_eq_moved hn (by bv_omega)]
  · rw [if_neg hlt, backward_eq_moved hn (by bv_omega)]

end Calls

/-- `t` is `m` after `src[0..n)` was moved to `dst[0..n)`. -/
def Moved (m t : Mem) (dst src : Addr) (n : ℕ) : Prop :=
  (∀ i < n, t (dst + BitVec.ofNat 64 i) = m (src + BitVec.ofNat 64 i)) ∧
    ∀ a, (∀ i < n, a ≠ dst + BitVec.ofNat 64 i) → t a = m a

/-- **Both memmoves move overlapping ranges**, change no other byte, and agree. -/
theorem memmove_overlapping (m : Mem) (dst src : Addr) (n : BitVec 32)
    (hsrc : src.toNat + n.toNat ≤ 2 ^ 64) (hdst : dst.toNat + n.toNat ≤ 2 ^ 64) :
    Moved m (kernelMemmove m dst src n).2 dst src n.toNat ∧
      (0 ≤ n.toInt → Moved m (userMemmove m dst src n).2 dst src n.toNat ∧
        userMemmove m dst src n = kernelMemmove m dst src n) := by
  have hmoved : Moved m (moved m dst src n.toNat) dst src n.toNat :=
    ⟨fun i hi => moved_inside hi, fun a ha => moved_outside ha⟩
  rw [kernelMemmove_eq hsrc hdst]
  refine ⟨hmoved, fun h0 => ?_⟩
  rw [userMemmove_eq hsrc hdst h0]
  exact ⟨hmoved, rfl⟩

theorem memmove_overlapping_up : (0 : ℤ) ≤ (3 : BitVec 32).toInt ∧
    Moved (fun a => UInt8.ofNat a.toNat)
      (userMemmove (fun a => UInt8.ofNat a.toNat) 11 10 3).2 11 10 3 :=
  have h0 : (0 : ℤ) ≤ (3 : BitVec 32).toInt := by decide
  ⟨h0, ((memmove_overlapping _ 11 10 3 (by decide) (by decide)).2 h0).1⟩

end Memmove

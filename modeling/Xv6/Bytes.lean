/-
# Little-endian words in byte arrays

A region of memory is a function from offsets to bytes.  `getLE f o w` reads
the `w`-byte little-endian number at offset `o` and `setLE f o w v` stores one;
the three facts the rest of the development uses are that a stored number is
read back, that disjoint accesses do not interfere, and that a read depends on
its own bytes only.
-/
import Mathlib.Data.Nat.Basic
import Mathlib.Tactic.Ring

namespace Bytes

/-- The `w`-byte little-endian number at offset `o`. -/
def getLE (f : ℕ → UInt8) (o : ℕ) : ℕ → ℕ
  | 0 => 0
  | w + 1 => (f o).toNat + 256 * getLE f (o + 1) w

/-- Store the low `w` bytes of `v` at offset `o`. -/
def setLE (f : ℕ → UInt8) (o w v : ℕ) : ℕ → UInt8 := fun i =>
  if o ≤ i ∧ i < o + w then UInt8.ofNat (v / 256 ^ (i - o)) else f i

theorem setLE_outside (f : ℕ → UInt8) (o w v : ℕ) {i : ℕ} (hi : i < o ∨ o + w ≤ i) :
    setLE f o w v i = f i :=
  if_neg (by omega)

theorem setLE_inside (f : ℕ → UInt8) (o w v : ℕ) {i : ℕ} (hi : o ≤ i ∧ i < o + w) :
    setLE f o w v i = UInt8.ofNat (v / 256 ^ (i - o)) :=
  if_pos hi

/-- A read depends on its own bytes only. -/
theorem getLE_congr {f g : ℕ → UInt8} (w : ℕ) :
    ∀ o, (∀ i, o ≤ i → i < o + w → f i = g i) → getLE f o w = getLE g o w := by
  induction w with
  | zero => intro o _; rfl
  | succ w ih =>
    intro o h
    rw [getLE, getLE, h o le_rfl (by omega),
      ih (o + 1) (fun i h1 h2 => h i (by omega) (by omega))]

theorem getLE_lt (f : ℕ → UInt8) (w : ℕ) : ∀ o, getLE f o w < 256 ^ w := by
  induction w with
  | zero => intro o; simp [getLE]
  | succ w ih =>
    intro o
    have hb := (f o).toNat_lt
    have := ih (o + 1)
    rw [getLE, pow_succ]
    omega

/-- Reading a function that holds the digits of `v` gives `v` up to width. -/
theorem getLE_digits (g : ℕ → UInt8) (w : ℕ) :
    ∀ o v, (∀ i, o ≤ i → i < o + w → g i = UInt8.ofNat (v / 256 ^ (i - o))) →
      getLE g o w = v % 256 ^ w := by
  induction w with
  | zero => intro o v _; simp [getLE, Nat.mod_one]
  | succ w ih =>
    intro o v h
    have hhead : g o = UInt8.ofNat v := by
      rw [h o le_rfl (by omega), Nat.sub_self, pow_zero, Nat.div_one]
    have htail : getLE g (o + 1) w = v / 256 % 256 ^ w := by
      apply ih
      intro i h1 h2
      rw [h i (by omega) (by omega), Nat.div_div_eq_div_mul, ← pow_succ',
        show i - (o + 1) + 1 = i - o from by omega]
    rw [getLE, hhead, htail, pow_succ', Nat.mod_mul, UInt8.toNat_ofNat']

/-- **A stored number is read back.** -/
theorem getLE_setLE_same (f : ℕ → UInt8) (o w v : ℕ) : getLE (setLE f o w v) o w = v % 256 ^ w :=
  getLE_digits _ w o v fun _ h1 h2 => setLE_inside f o w v ⟨h1, h2⟩

/-- **Disjoint accesses do not interfere.** -/
theorem getLE_setLE_other (f : ℕ → UInt8) (o w v o' w' : ℕ) (h : o' + w' ≤ o ∨ o + w ≤ o') :
    getLE (setLE f o w v) o' w' = getLE f o' w' :=
  getLE_congr w' o' fun i h1 h2 => setLE_outside f o w v (by omega)

end Bytes

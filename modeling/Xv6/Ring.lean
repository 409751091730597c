/-
# Ring buffers with wrapping counters

A ring of `d` slots is filled at a counter `b` and emptied at a counter `a`, both taken
modulo `d` to find the slot.  The counters themselves are stored modulo `w`.  As long as
`a ≤ b ≤ a + d`, filling appends to the contents and emptying takes their head; when `d`
divides `w` and `d < w`, the stored counters tell the slot, an empty ring and a full one.
-/
import Mathlib.Data.List.Range
import Mathlib.Data.Nat.ModEq

namespace Ring

variable {α : Type*} {d w a b : ℕ} {data : ℕ → α}

/-- What is in the ring from `a` to `b`, oldest first. -/
def contents (d : ℕ) (data : ℕ → α) (a b : ℕ) : List α :=
  (List.range (b - a)).map fun k => data ((a + k) % d)

@[simp] theorem contents_self (d : ℕ) (data : ℕ → α) (a : ℕ) : contents d data a a = [] := by
  rw [contents, Nat.sub_self]
  rfl

theorem length_contents (d : ℕ) (data : ℕ → α) (a b : ℕ) :
    (contents d data a b).length = b - a := by
  rw [contents, List.length_map, List.length_range]

/-- Two counters less than `d` apart have different slots. -/
theorem mod_ne_of_lt {k : ℕ} (hb : a + k < b) (hbd : b < a + d) : (a + k) % d ≠ b % d := by
  intro heq
  have hmod : a + k ≡ b [MOD d] := heq
  have hdvd := (Nat.modEq_iff_dvd' hb.le).mp hmod
  exact absurd (Nat.le_of_dvd (by omega) hdvd) (by omega)

/-- **Filling a slot** of a ring that is not full. -/
theorem contents_push (x : α) (hab : a ≤ b) (hbd : b < a + d) :
    contents d (Function.update data (b % d) x) a (b + 1) = contents d data a b ++ [x] := by
  rw [contents, contents, show b + 1 - a = b - a + 1 by omega, List.range_succ, List.map_append,
    List.map_singleton, show a + (b - a) = b by omega, Function.update_self]
  congr 1
  refine List.map_congr_left fun k hk => ?_
  rw [List.mem_range] at hk
  exact Function.update_of_ne (mod_ne_of_lt (by omega) hbd) _ _

/-- **Emptying a slot** of a ring that is not empty. -/
theorem contents_pop (hab : a < b) :
    contents d data a b = data (a % d) :: contents d data (a + 1) b := by
  rw [contents, contents, show b - a = (b - (a + 1)) + 1 by omega, List.range_succ_eq_map,
    List.map_cons, List.map_map, Nat.add_zero]
  congr 1
  refine List.map_congr_left fun k _ => ?_
  show data ((a + (k + 1)) % d) = data ((a + 1 + k) % d)
  rw [show a + (k + 1) = a + 1 + k by omega]

/-- The slot before `b` holds the newest entry. -/
theorem contents_succ (hab : a ≤ b) :
    contents d data a (b + 1) = contents d data a b ++ [data (b % d)] := by
  rw [contents, contents, show b + 1 - a = b - a + 1 by omega, List.range_succ, List.map_append,
    List.map_singleton, show a + (b - a) = b by omega]

/-- The contents up to `c` are those up to `b` and those from `b` on. -/
theorem contents_append {c : ℕ} (hab : a ≤ b) (hbc : b ≤ c) :
    contents d data a b ++ contents d data b c = contents d data a c := by
  induction c, hbc using Nat.le_induction with
  | base => rw [contents_self, List.append_nil]
  | succ c hbc ih =>
    rw [contents_succ hbc, contents_succ (hab.trans hbc), ← ih, List.append_assoc]

/-- Filling a slot that is not among the contents. -/
theorem contents_update {c : ℕ} (x : α) (hbc : b ≤ c) (hcd : c < a + d) :
    contents d (Function.update data (c % d) x) a b = contents d data a b := by
  refine List.map_congr_left fun k hk => ?_
  rw [List.mem_range] at hk
  exact Function.update_of_ne (mod_ne_of_lt (by omega) hcd) _ _

/-! ## Stored counters -/

/-- The slot of a stored counter. -/
theorem mod_mod_slot (hd : d ∣ w) (n : ℕ) : n % w % d = n % d := Nat.mod_mod_of_dvd n hd

/-- The stored counters are equal when the ring is empty. -/
theorem empty_iff (hdw : d < w) (hab : a ≤ b) (hbd : b ≤ a + d) : a % w = b % w ↔ a = b := by
  constructor
  · intro heq
    by_contra hne
    have hdvd := (Nat.modEq_iff_dvd' hab).mp heq
    exact absurd (Nat.le_of_dvd (by omega) hdvd) (by omega)
  · rintro rfl
    rfl

/-- The stored counters are `d` apart when the ring is full. -/
theorem full_iff (hdw : d < w) (hab : a ≤ b) (hbd : b ≤ a + d) :
    b % w = (a % w + d) % w ↔ b = a + d := by
  rw [Nat.mod_add_mod]
  constructor
  · intro heq
    by_contra hne
    have hdvd := (Nat.modEq_iff_dvd' hbd).mp heq
    exact absurd (Nat.le_of_dvd (by omega) hdvd) (by omega)
  · rintro rfl
    rfl

/-- The difference of the stored counters is the number of full slots. -/
theorem stored_sub (hdw : d < w) (hab : a ≤ b) (hbd : b ≤ a + d) :
    (b % w + w - a % w) % w = b - a := by
  have hw : 0 < w := by omega
  obtain ⟨k, rfl⟩ := Nat.exists_eq_add_of_le hab
  have hlt := Nat.mod_lt a hw
  rcases Nat.lt_or_ge (a % w + k) w with h | h
  · rw [Nat.add_mod a k, Nat.mod_eq_of_lt (show k < w by omega), Nat.mod_eq_of_lt h,
      show a % w + k + w - a % w = k + w by omega, Nat.add_mod_right,
      Nat.mod_eq_of_lt (by omega)]
    omega
  · have hwrap : (a + k) % w = a % w + k - w := by
      rw [Nat.add_mod a k, Nat.mod_eq_of_lt (show k < w by omega), Nat.mod_eq_sub_mod h,
        Nat.mod_eq_of_lt (by omega)]
    rw [hwrap, show a % w + k - w + w - a % w = k by omega, Nat.mod_eq_of_lt (by omega)]
    omega

end Ring

/-
# Text in memory

A region of memory is a function from offsets to bytes.  `Reads f p l` says that the bytes of
`l` stand at offset `p`, `slice` takes bytes out and `blit` puts them in.  A C string is the
bytes before a NUL: `cstr` reads one and `strchr` searches one, with a bound on the number of
bytes they look at; the facts about them hold for every bound beyond the NUL.
-/
import Mathlib.Data.Nat.Basic
import Mathlib.Tactic.Common

namespace CString

variable {f g : ℕ → UInt8} {p q : ℕ} {c : UInt8} {k l : List UInt8}

/-! ## Bytes at an offset -/

/-- The bytes of `l` stand at `p`. -/
def Reads (f : ℕ → UInt8) (p : ℕ) : List UInt8 → Prop
  | [] => True
  | a :: l => f p = a ∧ Reads f (p + 1) l

@[simp]
theorem reads_nil : Reads f p [] := trivial

@[simp]
theorem reads_cons {a : UInt8} : Reads f p (a :: l) ↔ f p = a ∧ Reads f (p + 1) l := Iff.rfl

theorem reads_append : Reads f p (k ++ l) ↔ Reads f p k ∧ Reads f (p + k.length) l := by
  induction k generalizing p with
  | nil => simp
  | cons a k ih =>
    rw [List.cons_append, reads_cons, reads_cons, ih, List.length_cons, and_assoc,
      show p + (k.length + 1) = p + 1 + k.length by omega]

/-- Text depends on its own bytes only. -/
theorem Reads.congr (h : Reads f p l) (hfg : ∀ i, p ≤ i → i < p + l.length → g i = f i) :
    Reads g p l := by
  induction l generalizing p with
  | nil => trivial
  | cons a l ih =>
    have hlen : (a :: l).length = l.length + 1 := rfl
    exact ⟨(hfg p le_rfl (by omega)).trans h.1,
      ih h.2 fun i h1 h2 => hfg i (by omega) (by omega)⟩

/-- The `n` bytes at `p`. -/
def slice (f : ℕ → UInt8) (p : ℕ) : ℕ → List UInt8
  | 0 => []
  | n + 1 => f p :: slice f (p + 1) n

theorem Reads.slice_eq (h : Reads f p l) : slice f p l.length = l := by
  induction l generalizing p with
  | nil => rfl
  | cons a l ih => rw [List.length_cons, slice, h.1, ih h.2]

/-- The bytes of `l` put at `p`. -/
def blit (f : ℕ → UInt8) (p : ℕ) : List UInt8 → ℕ → UInt8
  | [] => f
  | a :: l => Function.update (blit f (p + 1) l) p a

theorem blit_outside {i : ℕ} (hi : i < p ∨ p + l.length ≤ i) : blit f p l i = f i := by
  induction l generalizing p with
  | nil => rfl
  | cons a l ih =>
    rw [List.length_cons] at hi
    rw [blit, Function.update_of_ne (by omega), ih (by omega)]

theorem reads_blit (f : ℕ → UInt8) (p : ℕ) (l : List UInt8) : Reads (blit f p l) p l := by
  induction l generalizing p with
  | nil => trivial
  | cons a l ih =>
    refine ⟨Function.update_self .., (ih (p + 1)).congr fun i h1 _ => ?_⟩
    exact Function.update_of_ne (by omega) ..

/-- Text outside of what is put in stays. -/
theorem Reads.blit (h : Reads f p l) (hout : p + l.length ≤ q ∨ q + k.length ≤ p) :
    Reads (blit f q k) p l :=
  h.congr fun _ _ _ => blit_outside (by omega)

/-- Text stays when a byte outside of it is written. -/
theorem Reads.update (h : Reads f p l) (hout : q < p ∨ p + l.length ≤ q) :
    Reads (Function.update f q c) p l :=
  h.congr fun _ _ _ => Function.update_of_ne (by omega) ..

/-! ## C strings -/

/-- The C string at `p`: the bytes before the NUL. -/
def cstr (f : ℕ → UInt8) : ℕ → ℕ → List UInt8
  | 0, _ => []
  | fuel + 1, p => if f p = 0 then [] else f p :: cstr f fuel (p + 1)

theorem Reads.cstr_eq (h : Reads f p (l ++ [0])) (h0 : 0 ∉ l) {fuel : ℕ}
    (hfuel : l.length < fuel) : cstr f fuel p = l := by
  induction l generalizing p fuel with
  | nil =>
    obtain ⟨fuel, rfl⟩ : ∃ m, fuel = m + 1 := ⟨fuel - 1, by simp at hfuel; omega⟩
    exact if_pos h.1
  | cons a l ih =>
    obtain ⟨fuel, rfl⟩ : ∃ m, fuel = m + 1 := ⟨fuel - 1, by omega⟩
    have ha : f p = a := h.1
    have hne : a ≠ 0 := fun h => h0 (by simp [h])
    rw [cstr, ha, if_neg hne, ih h.2 (fun h => h0 (by simp [h])) (by simpa using hfuel)]

/-- `strchr`: the position of the first `c` of the C string at `p`. -/
def strchr (f : ℕ → UInt8) (c : UInt8) : ℕ → ℕ → Option ℕ
  | 0, _ => none
  | fuel + 1, p => if f p = 0 then none else if f p = c then some p else strchr f c fuel (p + 1)

theorem Reads.strchr_eq_some (h : Reads f p (l ++ [c])) (hc0 : c ≠ 0) (h0 : 0 ∉ l) (hc : c ∉ l)
    {fuel : ℕ} (hfuel : l.length < fuel) : strchr f c fuel p = some (p + l.length) := by
  induction l generalizing p fuel with
  | nil =>
    obtain ⟨fuel, rfl⟩ : ∃ m, fuel = m + 1 := ⟨fuel - 1, by simp at hfuel; omega⟩
    have hp : f p = c := h.1
    rw [strchr, hp, if_neg hc0, if_pos rfl]
    rfl
  | cons a l ih =>
    obtain ⟨fuel, rfl⟩ : ∃ m, fuel = m + 1 := ⟨fuel - 1, by omega⟩
    have ha : f p = a := h.1
    have hne0 : a ≠ 0 := fun h => h0 (by simp [h])
    have hnec : a ≠ c := fun h => hc (by simp [h])
    rw [strchr, ha, if_neg hne0, if_neg hnec,
      ih h.2 (fun h => h0 (by simp [h])) (fun h => hc (by simp [h])) (by simpa using hfuel),
      List.length_cons, show p + 1 + l.length = p + (l.length + 1) by omega]

theorem Reads.strchr_eq_none (h : Reads f p (l ++ [0])) (h0 : 0 ∉ l) (hc : c ∉ l) {fuel : ℕ} :
    strchr f c fuel p = none := by
  induction l generalizing p fuel with
  | nil =>
    cases fuel with
    | zero => rfl
    | succ fuel => exact if_pos h.1
  | cons a l ih =>
    cases fuel with
    | zero => rfl
    | succ fuel =>
      have ha : f p = a := h.1
      have hne0 : a ≠ 0 := fun h => h0 (by simp [h])
      have hnec : a ≠ c := fun h => hc (by simp [h])
      rw [strchr, ha, if_neg hne0, if_neg hnec,
        ih h.2 (fun h => h0 (by simp [h])) (fun h => hc (by simp [h]))]

end CString

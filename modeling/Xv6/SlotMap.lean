/-
# Maps in slots

A map kept in an array of slots: a slot is empty, or it holds a key and a value that is not
0.  A key is looked for from the first slot on.  As long as no two slots in use have the same
key (`Distinct`), filling an empty slot with a new key binds that key alone
(`Changed.fill`), and emptying the slot of a key unbinds that key alone (`Changed.clear`),
whichever slots were used before.
-/
import Mathlib.Data.List.Find
import Mathlib.Data.List.Range

namespace SlotMap

variable {κ : Type}

/-- Slots below `size`, with a key and a value each.  The value 0 marks an empty slot. -/
structure Table (κ : Type) where
  size : ℕ
  val : ℕ → ℕ
  key : ℕ → κ

variable {T T' : Table κ} {x : κ} {j k v : ℕ}

/-- No two slots in use have the same key. -/
def Distinct (T : Table κ) : Prop :=
  ∀ j k, j < T.size → k < T.size → T.val j ≠ 0 → T.val k ≠ 0 → T.key j = T.key k → j = k

theorem Distinct.congr (h : Distinct T) (hsize : T'.size = T.size)
    (hval : ∀ k, k < T.size → T'.val k = T.val k) (hkey : ∀ k, k < T.size → T'.key k = T.key k) :
    Distinct T' := by
  intro j k hj hk hvj hvk heq
  rw [hsize] at hj hk
  rw [hval j hj] at hvj
  rw [hval k hk] at hvk
  rw [hkey j hj, hkey k hk] at heq
  exact h j k hj hk hvj hvk heq

/-- `T'` is `T` with another slot `k`, which may be the one after the last. -/
structure Changed (T T' : Table κ) (k : ℕ) : Prop where
  le : k ≤ T.size
  size : T'.size = max T.size (k + 1)
  val : ∀ j, j < T.size → j ≠ k → T'.val j = T.val j
  key : ∀ j, j < T.size → j ≠ k → T'.key j = T.key j

/-- The other slots are the same. -/
theorem Changed.lt_iff (h : Changed T T' k) (hj : j ≠ k) : j < T'.size ↔ j < T.size := by
  have := h.le
  rw [h.size]
  omega

theorem Changed.lt (h : Changed T T' k) : k < T'.size := by
  rw [h.size]
  omega

/-- No other slot has the key of the changed one, so the keys stay distinct. -/
theorem Changed.distinct (h : Changed T T' k) (hd : Distinct T)
    (hnew : T'.val k ≠ 0 → ∀ j, j < T.size → j ≠ k → T.val j ≠ 0 → T.key j ≠ T'.key k) :
    Distinct T' := by
  intro i j hi hj hvi hvj hkey
  by_cases hik : i = k <;> by_cases hjk : j = k
  · rw [hik, hjk]
  · subst hik
    rw [h.lt_iff hjk] at hj
    rw [h.val j hj hjk] at hvj
    rw [h.key j hj hjk] at hkey
    exact absurd hkey.symm (hnew hvi j hj hjk hvj)
  · subst hjk
    rw [h.lt_iff hik] at hi
    rw [h.val i hi hik] at hvi
    rw [h.key i hi hik] at hkey
    exact absurd hkey (hnew hvj i hi hik hvi)
  · rw [h.lt_iff hik] at hi
    rw [h.lt_iff hjk] at hj
    rw [h.val i hi hik] at hvi
    rw [h.val j hj hjk] at hvj
    rw [h.key i hi hik, h.key j hj hjk] at hkey
    exact hd i j hi hj hvi hvj hkey

/-! ## Looking up a key -/

variable [DecidableEq κ]

/-- The first slot in use with the key. -/
def find (T : Table κ) (x : κ) : Option ℕ :=
  (List.range T.size).find? fun k => decide (T.val k ≠ 0 ∧ T.key k = x)

/-- The value of a key. -/
def get (T : Table κ) (x : κ) : Option ℕ := (find T x).map T.val

theorem find_some (h : find T x = some k) : k < T.size ∧ T.val k ≠ 0 ∧ T.key k = x := by
  unfold find at h
  have hk := List.find?_some h
  exact ⟨List.mem_range.mp (List.mem_of_find?_eq_some h), of_decide_eq_true hk⟩

theorem find_none (h : find T x = none) (hk : k < T.size) (hne : T.val k ≠ 0) : T.key k ≠ x :=
  fun hkey => by simpa [hne, hkey] using List.find?_eq_none.mp h k (List.mem_range.mpr hk)

/-- **The value of a key** is in the only slot that has the key. -/
theorem get_eq_some_iff (h : Distinct T) :
    get T x = some v ↔ v ≠ 0 ∧ ∃ k, k < T.size ∧ T.key k = x ∧ T.val k = v := by
  unfold get
  constructor
  · intro hget
    obtain ⟨k, hfind, rfl⟩ := Option.map_eq_some_iff.mp hget
    obtain ⟨hlt, hne, hkey⟩ := find_some hfind
    exact ⟨hne, k, hlt, hkey, rfl⟩
  · rintro ⟨hne, k, hlt, hkey, rfl⟩
    cases hfind : find T x with
    | none => exact absurd hkey (find_none hfind hlt hne)
    | some j =>
      obtain ⟨hlt', hne', hkey'⟩ := find_some hfind
      rw [h j k hlt' hlt hne' hne (hkey'.trans hkey.symm)]
      rfl

theorem get_eq_none_iff : get T x = none ↔ ∀ k, k < T.size → T.val k ≠ 0 → T.key k ≠ x := by
  unfold get
  constructor
  · intro hget k hlt hne
    exact find_none (Option.map_eq_none_iff.mp hget) hlt hne
  · intro h
    rw [Option.map_eq_none_iff]
    cases hfind : find T x with
    | none => rfl
    | some k =>
      obtain ⟨hlt, hne, hkey⟩ := find_some hfind
      exact absurd hkey (h k hlt hne)

theorem get_congr (hsize : T'.size = T.size) (hval : ∀ k, k < T.size → T'.val k = T.val k)
    (hkey : ∀ k, k < T.size → T'.key k = T.key k) : get T' = get T := by
  funext x
  have hfind : find T' x = find T x := by
    unfold find
    rw [hsize]
    apply List.find?_congr
    intro k hk
    rw [hval k (List.mem_range.mp hk), hkey k (List.mem_range.mp hk)]
  unfold get
  rw [hfind]
  cases hk : find T x with
  | none => rfl
  | some k => exact congrArg some (hval k (find_some hk).1)

/-! ## Binding and unbinding a key -/

/-- **An empty slot is filled** with a key that was not bound. -/
theorem Changed.fill (h : Changed T T' k) (hd : Distinct T) (hvac : k < T.size → T.val k = 0)
    (hnew : get T (T'.key k) = none) : Distinct T' ∧ get T' = fun x =>
      if x = T'.key k ∧ T'.val k ≠ 0 then some (T'.val k) else get T x := by
  have hother := get_eq_none_iff.mp hnew
  have hd' : Distinct T' := h.distinct hd fun _ j hj _ hv => hother j hj hv
  refine ⟨hd', funext fun x => ?_⟩
  split_ifs with hx
  · exact (get_eq_some_iff hd').mpr ⟨hx.2, k, h.lt, hx.1.symm, rfl⟩
  · ext v
    rw [get_eq_some_iff hd', get_eq_some_iff hd]
    constructor
    · rintro ⟨hne, j, hlt, hkey, rfl⟩
      have hjk : j ≠ k := by
        rintro rfl
        exact hx ⟨hkey.symm, hne⟩
      rw [h.lt_iff hjk] at hlt
      exact ⟨hne, j, hlt, (h.key j hlt hjk).symm.trans hkey, (h.val j hlt hjk).symm⟩
    · rintro ⟨hne, j, hlt, hkey, rfl⟩
      have hjk : j ≠ k := by
        rintro rfl
        exact hne (hvac hlt)
      exact ⟨hne, j, (h.lt_iff hjk).mpr hlt, (h.key j hlt hjk).trans hkey, h.val j hlt hjk⟩

/-- **The slot of a key is emptied.** -/
theorem Changed.clear (h : Changed T T' k) (hd : Distinct T) (hk : k < T.size)
    (hne : T.val k ≠ 0) (hzero : T'.val k = 0) :
    Distinct T' ∧ get T' = fun x => if x = T.key k then none else get T x := by
  have hd' : Distinct T' := h.distinct hd fun hv => absurd hzero hv
  refine ⟨hd', funext fun x => ?_⟩
  split_ifs with hx
  · rw [get_eq_none_iff]
    rintro j hlt hv hkey
    have hjk : j ≠ k := by
      rintro rfl
      exact hv hzero
    rw [h.lt_iff hjk] at hlt
    rw [h.val j hlt hjk] at hv
    rw [h.key j hlt hjk, hx] at hkey
    exact hjk (hd j k hlt hk hv hne hkey)
  · ext v
    rw [get_eq_some_iff hd', get_eq_some_iff hd]
    constructor
    · rintro ⟨hv, j, hlt, hkey, rfl⟩
      have hjk : j ≠ k := by
        rintro rfl
        exact hv hzero
      rw [h.lt_iff hjk] at hlt
      exact ⟨hv, j, hlt, (h.key j hlt hjk).symm.trans hkey, (h.val j hlt hjk).symm⟩
    · rintro ⟨hv, j, hlt, hkey, rfl⟩
      have hjk : j ≠ k := by
        rintro rfl
        exact hx hkey.symm
      exact ⟨hv, j, (h.lt_iff hjk).mpr hlt, (h.key j hlt hjk).trans hkey, h.val j hlt hjk⟩

end SlotMap

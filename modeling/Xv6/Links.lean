/-
# Directory trees with link counts

A name space is a table of nodes: files, and directories that name their parent and
further nodes, their kids.  A node counts the names it has in directories that are
themselves linked; a directory that has lost its last link keeps its names, but they no
longer count.

`Ok` is the invariant of such a space: the counts are exact, linked directories form a
tree of parents under a root, and what they name is there.  The operations add a file or
a directory to a linked directory, remove one, and take away a node without links; each
keeps `Ok`.
-/
import Mathlib.Algebra.BigOperators.Intervals
import Mathlib.Algebra.Order.BigOperators.Group.Finset
import Mathlib.Data.Multiset.Count
import Xv6.Tally

open Function

namespace Links

/-- A node; a directory has the number of its parent and those of its kids. -/
inductive Node where
  | file (nlink : ℤ)
  | dir (nlink : ℤ) (up : ℕ) (kids : Multiset ℕ)

def Node.nlink : Node → ℤ
  | .file n => n
  | .dir n _ _ => n

abbrev Space := ℕ → Option Node

/-- The names that a node gives to node `i`. -/
def names (i : ℕ) : Option Node → ℕ
  | some (.dir n up kids) => if 0 < n then (if up = i then 1 else 0) + kids.count i else 0
  | _ => 0

/-- The names of node `i` in the nodes below `N`. -/
def count (N : ℕ) (T : Space) (i : ℕ) : ℕ := ∑ d ∈ Finset.range N, names i (T d)

/-- A directory with a link. -/
def Linked (T : Space) (d : ℕ) (n : ℤ) (up : ℕ) (kids : Multiset ℕ) : Prop :=
  T d = some (.dir n up kids) ∧ 0 < n

/-- **The invariant of a name space.** -/
structure Ok (N root : ℕ) (T : Space) : Prop where
  bound : ∀ i, (T i).isSome → 0 < i ∧ i < N
  exact : ∀ i x, T i = some x → x.nlink = count N T i
  kids : ∀ d n up kids, Linked T d n up kids → ∀ c ∈ kids, (T c).isSome
  tree : ∀ d n up kids, Linked T d n up kids → ∀ c ∈ kids, ∀ m u k,
    T c = some (.dir m u k) → u = d
  parent : ∀ d n up kids, Linked T d n up kids → d ≠ root →
    ∃ m u k, Linked T up m u k ∧ k.count d = 1
  top : ∃ n kids, Linked T root n root kids
  below : ∀ d n up kids, Linked T d n up kids → root ∉ kids

variable {N root : ℕ} {T T' : Space} {d i j up : ℕ} {n m : ℤ} {kids : Multiset ℕ}

/-! ## Counting -/

theorem names_le_count (hd : d < N) : names i (T d) ≤ count N T i :=
  Finset.single_le_sum (f := fun d => names i (T d)) (fun _ _ => Nat.zero_le _)
    (Finset.mem_range.mpr hd)

variable {e u : ℕ} {n' : ℤ} {k kids' : Multiset ℕ} {x : Node} {y : Option Node}

/-- Two nodes that name `i`. -/
theorem names_add_le_count (hd : d < N) (he : e < N) (hne : d ≠ e) :
    names i (T d) + names i (T e) ≤ count N T i := by
  have hsub : ({d, e} : Finset ℕ) ⊆ Finset.range N := by
    intro x hx
    rcases Finset.mem_insert.mp hx with rfl | hx
    · exact Finset.mem_range.mpr hd
    · rw [Finset.mem_singleton.mp hx]
      exact Finset.mem_range.mpr he
  have := Finset.sum_le_sum_of_subset (f := fun d => names i (T d)) hsub
  rw [Finset.sum_pair hne] at this
  exact this

/-- One node changes. -/
theorem count_update (hd : d < N) (x : Option Node) :
    count N (update T d x) i + names i (T d) = count N T i + names i x := by
  have := Tally.sum_change (s := Finset.range N) (k := d) (f := fun d => names i (T d))
    (g := fun e => names i (update T d x e)) (Finset.mem_range.mpr hd)
    fun e he => by rw [update_of_ne he]
  rwa [update_self] at this

theorem names_linked (h : Linked T d n up kids) :
    names i (T d) = (if up = i then 1 else 0) + kids.count i := by
  rw [h.1]
  exact if_pos h.2

theorem Linked.ne_none (h : Linked T d n up kids) : T d ≠ none := by
  rw [h.1]
  exact Option.some_ne_none _

theorem Linked.unique (h : Linked T d n up kids)
    (h' : Linked T d n' u k) : n' = n ∧ u = up ∧ k = kids := by
  have heq := h'.1
  rw [h.1] at heq
  cases heq
  exact ⟨rfl, rfl, rfl⟩

namespace Ok

theorem lt (h : Ok N root T) (hi : T i = some x) : i < N :=
  (h.bound i (by rw [hi]; rfl)).2

theorem linked_lt (h : Ok N root T) (hd : Linked T d n up kids) : d < N := h.lt hd.1

/-- A node that is not there is not named. -/
theorem count_eq_zero (h : Ok N root T) (hi : T i = none) : count N T i = 0 := by
  apply Finset.sum_eq_zero
  intro d _
  cases hx : T d with
  | none => rfl
  | some x =>
    cases x with
    | file n => rfl
    | dir n up kids =>
      by_cases hn : 0 < n
      · have hl : Linked T d n up kids := ⟨hx, hn⟩
        have hkid : kids.count i = 0 := by
          rw [Multiset.count_eq_zero]
          intro hmem
          have := h.kids d n up kids hl i hmem
          rw [hi] at this
          cases this
        have hup : up ≠ i := by
          rintro rfl
          by_cases hroot : d = root
          · subst hroot
            obtain ⟨n', kids', htop, -⟩ := h.top
            rw [hx] at htop
            injection htop with heq
            injection heq with _ hup _
            rw [hup, hx] at hi
            cases hi
          · obtain ⟨m, u, k, hp, -⟩ := h.parent d n up kids hl hroot
            rw [hp.1] at hi
            cases hi
        simp [names, hn, hkid, hup]
      · exact if_neg hn

/-- **What a linked directory names has a link.** -/
theorem linked_names (h : Ok N root T) (hd : Linked T d n up kids) (hi : i = up ∨ i ∈ kids) :
    ∃ x, T i = some x ∧ 0 < x.nlink := by
  have hpos : 0 < names i (T d) := by
    rw [names_linked hd]
    rcases hi with rfl | hi
    · simp
    · have := Multiset.count_pos.mpr hi
      omega
  have hle := names_le_count (i := i) (T := T) (h.linked_lt hd)
  cases hx : T i with
  | none =>
    have := h.count_eq_zero hx
    omega
  | some x =>
    refine ⟨x, rfl, ?_⟩
    rw [h.exact i x hx]
    omega

/-- A node without links is not named. -/
theorem not_named (h : Ok N root T) (hi : T i = some x) (hx : x.nlink = 0)
    (hd : Linked T d n up kids) : up ≠ i ∧ i ∉ kids := by
  have hno : ¬ (i = up ∨ i ∈ kids) := by
    intro hnamed
    obtain ⟨y, hy, hpos⟩ := h.linked_names hd hnamed
    rw [hi] at hy
    cases hy
    omega
  exact ⟨fun heq => hno (Or.inl heq.symm), fun hmem => hno (Or.inr hmem)⟩

/-- A linked directory other than the root is a kid of its parent. -/
theorem kid_of_linked (h : Ok N root T) (hi : Linked T i n up kids) (hroot : i ≠ root) :
    ∃ m u k, Linked T up m u k ∧ i ∈ k := by
  obtain ⟨m, u, k, hl, hone⟩ := h.parent i n up kids hi hroot
  exact ⟨m, u, k, hl, Multiset.count_pos.mp (by omega)⟩

/-- **A node with links is the root or a kid** of a linked directory. -/
theorem named (h : Ok N root T) (hi : T i = some x) (hx : 0 < x.nlink)
    (hroot : i ≠ root) : ∃ d n up kids, Linked T d n up kids ∧ i ∈ kids := by
  have hcount : count N T i ≠ 0 := by
    have := h.exact i x hi
    omega
  obtain ⟨d, -, hd⟩ := Finset.exists_ne_zero_of_sum_ne_zero hcount
  obtain ⟨n, up, kids, hl, hname⟩ : ∃ n up kids, Linked T d n up kids ∧ (up = i ∨ i ∈ kids) := by
    rcases hT : T d with _ | (m | ⟨n, up, kids⟩)
    · simp [hT, names] at hd
    · simp [hT, names] at hd
    · by_cases hn : 0 < n
      · refine ⟨n, up, kids, ⟨hT, hn⟩, ?_⟩
        by_contra hno
        simp only [not_or] at hno
        simp [hT, names, hno.1, hno.2] at hd
      · simp [hT, names, hn] at hd
  rcases hname with rfl | hmem
  · -- the name is the `..` of a directory, so the node is a linked directory itself
    by_cases hd0 : d = root
    · subst hd0
      obtain ⟨m, k, htop⟩ := h.top
      exact absurd (hl.unique htop).2.1.symm hroot
    · obtain ⟨m, u, k, hup, -⟩ := h.kid_of_linked hl hd0
      obtain ⟨m', u', k', hl', hmem⟩ := h.kid_of_linked hup hroot
      exact ⟨u, m', u', k', hl', hmem⟩
  · exact ⟨d, n, up, kids, hl, hmem⟩

end Ok

/-! ## Changes at one node -/

/-- Nodes that differ in their count and in their names of `i` only, and are linked or not
alike. -/
def Like (i : ℕ) : Option Node → Option Node → Prop
  | none, none => True
  | some (.file _), some (.file _) => True
  | some (.dir n u k), some (.dir n' u' k') =>
    u = u' ∧ (0 < n ↔ 0 < n') ∧ ∀ c, c ≠ i → k.count c = k'.count c
  | _, _ => False

theorem Like.refl (i : ℕ) (x : Option Node) : Like i x x := by
  rcases x with _ | (_ | _)
  · exact trivial
  · exact trivial
  · exact ⟨rfl, Iff.rfl, fun _ _ => rfl⟩

theorem Like.isSome {x : Option Node} (h : Like i x y) : x.isSome = y.isSome := by
  rcases x with _ | (_ | _) <;> rcases y with _ | (_ | _) <;> first | rfl | cases h

theorem Like.dir {x : Option Node} (h : Like i x (some (.dir n u kids))) :
    ∃ n₀ k₀, x = some (.dir n₀ u k₀) ∧ (0 < n₀ ↔ 0 < n) ∧
      ∀ c, c ≠ i → k₀.count c = kids.count c := by
  rcases x with _ | (_ | ⟨n₀, u₀, k₀⟩)
  · cases h
  · cases h
  · obtain ⟨rfl, h⟩ := h
    exact ⟨n₀, k₀, rfl, h⟩

theorem Like.symm {x : Option Node} (h : Like i x y) : Like i y x := by
  rcases x with _ | (_ | _) <;> rcases y with _ | (_ | _) <;>
    first
    | exact ⟨h.1.symm, h.2.1.symm, fun c hc => (h.2.2 c hc).symm⟩
    | exact trivial
    | cases h

/-- The spaces are alike but for node `i` and the names of it. -/
def Apart (i : ℕ) (T T' : Space) : Prop := ∀ e, e ≠ i → Like i (T e) (T' e)

theorem Apart.linked (h : Apart i T T') (he : e ≠ i) (hl : Linked T' e n up kids) :
    ∃ n₀ k₀, Linked T e n₀ up k₀ ∧ ∀ c, c ≠ i → k₀.count c = kids.count c := by
  have hlike := h e he
  rw [hl.1] at hlike
  obtain ⟨n₀, k₀, hx, hn, hk⟩ := hlike.dir
  exact ⟨n₀, k₀, ⟨hx, hn.mpr hl.2⟩, hk⟩

theorem Apart.symm (h : Apart i T T') : Apart i T' T := fun e he => (h e he).symm

/-- **What is left to show when the space changes at one node**: the counts, and what
concerns the node itself. -/
theorem Ok.transfer (h : Ok N root T) (hT : Apart i T T') (hroot : root ≠ i)
    (hbound : (T' i).isSome → 0 < i ∧ i < N)
    (hexact : ∀ j x, T' j = some x → x.nlink = count N T' j)
    (hleaf : ∀ n u k, Linked T i n u k → k = 0) (hkid : ∀ e n u k, Linked T' e n u k → i ∈ k →
      (T' i).isSome ∧ ∀ m u' k', T' i = some (.dir m u' k') → u' = e)
    (hself : ∀ n u k, Linked T' i n u k → k = 0 ∧
      ∃ m u' k', Linked T' u m u' k' ∧ k'.count i = 1) : Ok N root T' := by
  -- the names of other nodes are those of the old space
  have hmem : ∀ {k k₀ : Multiset ℕ} {c : ℕ}, (∀ c, c ≠ i → k₀.count c = k.count c) → c ≠ i →
      c ∈ k → c ∈ k₀ := by
    intro k k₀ c hk hc hin
    rw [← Multiset.count_pos] at hin ⊢
    rwa [hk c hc]
  constructor
  · intro j hj
    by_cases hji : j = i
    · rw [hji] at hj ⊢
      exact hbound hj
    · rw [← (hT j hji).isSome] at hj
      exact h.bound j hj
  · exact hexact
  · intro e n u k he c hc
    by_cases hci : c = i
    · rw [hci] at hc ⊢
      exact (hkid e n u k he hc).1
    · by_cases hei : e = i
      · rw [hei] at he
        rw [(hself n u k he).1] at hc
        exact absurd hc (Multiset.notMem_zero c)
      · obtain ⟨n₀, k₀, he₀, hk⟩ := hT.linked hei he
        rw [← (hT c hci).isSome]
        exact h.kids e n₀ u k₀ he₀ c (hmem hk hci hc)
  · intro e n u k he c hc m u' k' hk'
    by_cases hci : c = i
    · rw [hci] at hc hk'
      exact (hkid e n u k he hc).2 m u' k' hk'
    · by_cases hei : e = i
      · rw [hei] at he
        rw [(hself n u k he).1] at hc
        exact absurd hc (Multiset.notMem_zero c)
      · obtain ⟨n₀, k₀, he₀, hk⟩ := hT.linked hei he
        have hlike := hT c hci
        rw [hk'] at hlike
        obtain ⟨m₀, k₁, hc₀, -⟩ := hlike.dir
        exact h.tree e n₀ u k₀ he₀ c (hmem hk hci hc) m₀ u' k₁ hc₀
  · intro e n u k he her
    by_cases hei : e = i
    · rw [hei] at he ⊢
      exact (hself n u k he).2
    · obtain ⟨n₀, k₀, he₀, -⟩ := hT.linked hei he
      obtain ⟨m, u', k', hp, hk'⟩ := h.parent e n₀ u k₀ he₀ her
      have hui : u ≠ i := by
        rintro rfl
        rw [hleaf m u' k' hp, Multiset.count_zero] at hk'
        cases hk'
      obtain ⟨m', k'', hp', hk''⟩ := hT.symm.linked hui hp
      exact ⟨m', u', k'', hp', by rw [hk'' e hei, hk']⟩
  · obtain ⟨n, k, htop⟩ := h.top
    obtain ⟨n', k', htop', -⟩ := hT.symm.linked hroot htop
    exact ⟨n', k', htop'⟩
  · intro e n u k he hin
    by_cases hei : e = i
    · rw [hei] at he
      rw [(hself n u k he).1] at hin
      exact absurd hin (Multiset.notMem_zero root)
    · obtain ⟨n₀, k₀, he₀, hk⟩ := hT.linked hei he
      exact h.below e n₀ u k₀ he₀ (hmem hk hroot hin)

/-- The count of a node that changes together with the names of it in one directory. -/
theorem apart_update (hd : Linked T d n up kids) (hn' : 0 < n') (x : Option Node)
    (hother : ∀ c, c ≠ i → kids'.count c = kids.count c) :
    Apart i T (update (update T i x) d (some (.dir n' up kids'))) := by
  intro e he
  by_cases hed : e = d
  · rw [hed, update_self, hd.1]
    exact ⟨rfl, ⟨fun _ => hn', fun _ => hd.2⟩, fun c hc => (hother c hc).symm⟩
  · rw [update_of_ne hed, update_of_ne he]
    exact Like.refl i _

namespace Ok

/-! ## The operations -/

/-- **A node without links is taken away.** -/
theorem free (h : Ok N root T) (hi : T i = some x) (hx : x.nlink = 0) :
    Ok N root (update T i none) := by
  have hdead : ∀ n u k, ¬ Linked T i n u k := by
    rintro n u k ⟨hl, hn⟩
    rw [hi] at hl
    cases hl
    have : n = 0 := hx
    omega
  have hcount : ∀ j, count N (update T i none) j = count N T j := by
    intro j
    have hnone : names j (T i) = 0 := by
      rw [hi]
      cases x with
      | file n => rfl
      | dir n up kids =>
        have hn : n = 0 := hx
        simp [names, hn]
    have := count_update (T := T) (i := j) (h.lt hi) none
    rwa [hnone] at this
  obtain ⟨rn, rk, htop⟩ := h.top
  have happart : Apart i T (update T i none) := by
    intro e he
    rw [update_of_ne he]
    exact Like.refl i _
  apply h.transfer happart
  · rintro rfl
    exact hdead _ _ _ htop
  · intro hs
    rw [update_self] at hs
    cases hs
  · intro j y hj
    have hji : j ≠ i := by
      rintro rfl
      rw [update_self] at hj
      cases hj
    rw [update_of_ne hji] at hj
    rw [hcount]
    exact h.exact j y hj
  · exact fun n u k hl => absurd hl (hdead n u k)
  · intro e n u k he hin
    have hei : e ≠ i := by
      rintro rfl
      have := he.1
      rw [update_self] at this
      cases this
    obtain ⟨hl, hn⟩ := he
    rw [update_of_ne hei] at hl
    exact absurd hin (h.not_named hi hx ⟨hl, hn⟩).2
  · rintro n u k ⟨hl, -⟩
    rw [update_self] at hl
    cases hl

/-- **A linked directory gains or loses names of a file**, which may be a new one. -/
theorem setFile (h : Ok N root T) (hd : Linked T d n up kids)
    (hi : T i = some (.file m) ∨ T i = none ∧ m = 0 ∧ 0 < i ∧ i < N) {m' : ℤ}
    (hother : ∀ c, c ≠ i → kids'.count c = kids.count c)
    (hm : m' - m = kids'.count i - kids.count i) :
    Ok N root (update (update T i (some (.file m'))) d (some (.dir n up kids'))) := by
  have hnodir : ∀ n u k, T i ≠ some (.dir n u k) := by
    intro n u k heq
    rcases hi with hi | ⟨hi, -⟩ <;> rw [hi] at heq <;> cases heq
  have hdi : d ≠ i := by
    rintro rfl
    exact hnodir _ _ _ hd.1
  have hbound : 0 < i ∧ i < N := by
    rcases hi with hi | ⟨-, -, hi⟩
    · exact h.bound i (by rw [hi]; rfl)
    · exact hi
  have hTi : update (update T i (some (.file m'))) d (some (.dir n up kids')) i =
      some (.file m') := by
    rw [update_of_ne hdi.symm, update_self]
  have hcount : ∀ j, count N (update (update T i (some (.file m'))) d
      (some (.dir n up kids'))) j + kids.count j = count N T j + kids'.count j := by
    intro j
    have h1 := count_update (T := T) (i := j) hbound.2 (some (.file m'))
    have h2 := count_update (T := update T i (some (.file m'))) (i := j) (h.linked_lt hd)
      (some (.dir n up kids'))
    have hold : names j (T i) = 0 := by
      rcases hi with hi | ⟨hi, -⟩ <;> rw [hi] <;> rfl
    have hnew : names j (some (.dir n up kids')) = (if up = j then 1 else 0) + kids'.count j :=
      if_pos hd.2
    have hfile : names j (some (.file m')) = 0 := rfl
    rw [update_of_ne hdi, names_linked hd, hnew] at h2
    omega
  obtain ⟨rn, rk, htop⟩ := h.top
  apply h.transfer (apart_update hd hd.2 _ hother)
  · rintro rfl
    exact hnodir _ _ _ htop.1
  · exact fun _ => hbound
  · intro j x hj
    have hc := hcount j
    by_cases hji : j = i
    · have hcm : (count N T i : ℤ) = m := by
        rcases hi with hi | ⟨hi, rfl, -⟩
        · exact (h.exact i _ hi).symm
        · rw [h.count_eq_zero hi]
          rfl
      subst hji
      rw [hTi] at hj
      cases hj
      show m' = _
      omega
    · rw [hother j hji] at hc
      have hold : ∃ y, T j = some y ∧ y.nlink = x.nlink := by
        by_cases hjd : j = d
        · rw [hjd, update_self] at hj
          cases hj
          exact ⟨.dir n up kids, hjd ▸ hd.1, rfl⟩
        · rw [update_of_ne hjd, update_of_ne hji] at hj
          exact ⟨x, hj, rfl⟩
      obtain ⟨y, hy, hyx⟩ := hold
      rw [← hyx, h.exact j y hy]
      omega
  · exact fun n u k hl => absurd hl.1 (hnodir n u k)
  · intro e n' u k _ _
    rw [hTi]
    exact ⟨rfl, fun m u' k' heq => by cases heq⟩
  · rintro n' u k ⟨hl, -⟩
    rw [hTi] at hl
    cases hl

/-- Counts after a change of two nodes. -/
theorem count_update₂ (hdi : d ≠ i) (hi : i < N) (hd : d < N) (x y : Option Node) (j : ℕ) :
    count N (update (update T i x) d y) j + names j (T i) + names j (T d) =
      count N T j + names j x + names j y := by
  have h1 := count_update (T := T) (i := j) hi x
  have h2 := count_update (T := update T i x) (i := j) hd y
  rw [update_of_ne hdi] at h2
  omega

/-- **A linked directory gains a new directory**, which names it as its parent. -/
theorem addDir (h : Ok N root T) (hd : Linked T d n up kids) (hi : T i = none) (hpos : 0 < i)
    (hlt : i < N) : Ok N root (update (update T i (some (.dir 1 d 0))) d
      (some (.dir (n + 1) up (i ::ₘ kids)))) := by
  have hdi : d ≠ i := by
    rintro rfl
    exact hd.ne_none hi
  have hn : 0 < n + 1 := by
    have := hd.2
    omega
  have hother : ∀ c, c ≠ i → (i ::ₘ kids).count c = kids.count c := fun c hc =>
    Multiset.count_cons_of_ne hc kids
  have hTi : update (update T i (some (.dir 1 d 0))) d
      (some (.dir (n + 1) up (i ::ₘ kids))) i = some (.dir 1 d 0) := by
    rw [update_of_ne hdi.symm, update_self]
  have hTd : Linked (update (update T i (some (.dir 1 d 0))) d
      (some (.dir (n + 1) up (i ::ₘ kids)))) d (n + 1) up (i ::ₘ kids) :=
    ⟨update_self _ _ _, hn⟩
  -- nothing has named the new node before
  have hnew : ∀ {e n u k}, Linked T e n u k → i ∉ k := by
    intro e n u k hl hin
    have := h.kids e n u k hl i hin
    rw [hi] at this
    cases this
  have hkids : kids.count i = 0 := Multiset.count_eq_zero.mpr (hnew hd)
  have hapart := apart_update hd hn (some (.dir 1 d 0)) hother
  have hcount : ∀ j, count N (update (update T i (some (.dir 1 d 0))) d
      (some (.dir (n + 1) up (i ::ₘ kids)))) j =
      count N T j + (if d = j then 1 else 0) + if j = i then 1 else 0 := by
    intro j
    have hc := count_update₂ (T := T) hdi hlt (h.linked_lt hd) (some (.dir 1 d 0))
      (some (.dir (n + 1) up (i ::ₘ kids))) j
    rw [names_linked hd, hi] at hc
    simp only [names, if_pos hn, Multiset.count_cons, Multiset.count_zero] at hc
    simp only [zero_lt_one, if_true] at hc
    omega
  obtain ⟨rn, rk, htop⟩ := h.top
  apply h.transfer hapart
  · rintro rfl
    exact htop.ne_none hi
  · exact fun _ => ⟨hpos, hlt⟩
  · intro j x hj
    rw [hcount j]
    by_cases hji : j = i
    · subst hji
      rw [hTi] at hj
      cases hj
      rw [h.count_eq_zero hi, if_neg hdi, if_pos rfl]
      rfl
    · by_cases hjd : j = d
      · subst hjd
        rw [hTd.1] at hj
        cases hj
        have hold : n = count N T j := h.exact j _ hd.1
        rw [if_pos rfl, if_neg hji]
        show n + 1 = _
        push_cast
        omega
      · rw [update_of_ne hjd, update_of_ne hji] at hj
        rw [if_neg (Ne.symm hjd), if_neg hji, h.exact j x hj]
        rfl
  · rintro n u k ⟨hl, -⟩
    rw [hi] at hl
    cases hl
  · intro e n' u k he hin
    rw [hTi]
    refine ⟨rfl, fun m u' k' heq => ?_⟩
    cases heq
    by_contra hed
    have hei : e ≠ i := by
      rintro rfl
      have := he.1
      rw [hTi] at this
      cases this
      exact absurd hin (Multiset.notMem_zero e)
    have := he.1
    rw [update_of_ne (Ne.symm hed), update_of_ne hei] at this
    exact hnew ⟨this, he.2⟩ hin
  · rintro n' u k ⟨hl, -⟩
    rw [hTi] at hl
    cases hl
    exact ⟨rfl, n + 1, up, i ::ₘ kids, hTd, by rw [Multiset.count_cons_self, hkids]⟩

/-- No linked directory has a directory without kids as its parent, but for the root. -/
theorem not_parent_empty (h : Ok N root T) (hi : T i = some (.dir m j 0)) (hroot : i ≠ root)
    (he : Linked T e n u k) : u ≠ i := by
  rintro rfl
  by_cases her : e = root
  · subst her
    obtain ⟨rn, rk, htop⟩ := h.top
    exact hroot (htop.unique he).2.1
  · obtain ⟨m', u', k', hp, hk'⟩ := h.parent e n u k he her
    have := hp.1
    rw [hi] at this
    cases this
    rw [Multiset.count_zero] at hk'
    cases hk'

/-- **An empty directory that is named has one link.** -/
theorem nlink_empty (h : Ok N root T) (hd : Linked T d n up kids) (hin : i ∈ kids)
    (hi : T i = some (.dir m j 0)) : j = d ∧ i ≠ root ∧ kids.count i = 1 ∧ m = 1 := by
  have hj : j = d := h.tree d n up kids hd i hin m j 0 hi
  have hroot : i ≠ root := by
    rintro rfl
    exact h.below d n up kids hd hin
  have hl : Linked T i m j 0 := by
    obtain ⟨x, hx, hpos⟩ := h.linked_names hd (Or.inr hin)
    rw [hi] at hx
    cases hx
    exact ⟨hi, hpos⟩
  have hone : kids.count i = 1 := by
    obtain ⟨m', u, k, hp, hk⟩ := h.parent i m j 0 hl hroot
    rw [hj] at hp
    rwa [(hd.unique hp).2.2] at hk
  refine ⟨hj, hroot, hone, ?_⟩
  have hcount : count N T i = 1 := by
    have hsingle : count N T i = names i (T d) := by
      apply Finset.sum_eq_single d
      · intro e _ hed
        rcases hx : T e with _ | (n' | ⟨n', u, k⟩)
        · rfl
        · rfl
        · by_cases hn' : 0 < n'
          · have hle : Linked T e n' u k := ⟨hx, hn'⟩
            have hk : k.count i = 0 := by
              rw [Multiset.count_eq_zero]
              intro hik
              exact hed (((h.tree e n' u k hle i hik m j 0 hi).symm).trans hj)
            simp [names, hn', hk, h.not_parent_empty hi hroot hle]
          · exact if_neg hn'
      · exact fun hno => absurd (Finset.mem_range.mpr (h.linked_lt hd)) hno
    rw [hsingle, names_linked hd, hone, if_neg (h.not_parent_empty hi hroot hd)]
  have := h.exact i _ hi
  rw [hcount] at this
  exact this

/-- A directory with a directory in it has more than one link. -/
theorem one_lt_nlink (h : Ok N root T) (hd : Linked T d n up kids) (hi : Linked T i m d k)
    (hid : i ≠ d) (hki : k.count d = 0) (hroot : i ≠ root) : 1 < n := by
  have hexact : n = count N T d := h.exact d _ hd.1
  have hnames : 0 < names d (T i) := by
    rw [names_linked hi, if_pos rfl]
    omega
  -- the second name is the one in the parent, or the root's own
  have hsecond : ∃ e, e < N ∧ e ≠ i ∧ 0 < names d (T e) := by
    by_cases hdr : d = root
    · subst hdr
      obtain ⟨rn, rk, htop⟩ := h.top
      refine ⟨d, h.linked_lt hd, hid.symm, ?_⟩
      rw [names_linked htop, if_pos rfl]
      omega
    · obtain ⟨m', u, k', hp, hk'⟩ := h.parent d n up kids hd hdr
      refine ⟨up, h.linked_lt hp, ?_, ?_⟩
      · rintro rfl
        rw [(hi.unique hp).2.2, hki] at hk'
        cases hk'
      · rw [names_linked hp]
        omega
  obtain ⟨e, he, hei, hpos⟩ := hsecond
  have := names_add_le_count (i := d) (T := T) he (h.linked_lt hi) hei
  omega

/-- **A linked directory loses an empty directory.** -/
theorem removeDir (h : Ok N root T) (hd : Linked T d n up kids) (hin : i ∈ kids)
    (hi : T i = some (.dir m j 0)) : Ok N root (update (update T i (some (.dir (m - 1) j 0))) d
      (some (.dir (n - 1) up (kids.erase i)))) := by
  obtain ⟨rfl, hroot, hone, rfl⟩ := h.nlink_empty hd hin hi
  have hl : Linked T i 1 j 0 := ⟨hi, by decide⟩
  have hdi : j ≠ i := by
    rintro rfl
    rw [← (hd.unique hl).2.2] at hone
    cases hone
  have hn : 0 < n - 1 := by
    have := h.one_lt_nlink hd hl hdi.symm (Multiset.count_zero _) hroot
    omega
  have hother : ∀ c, c ≠ i → (kids.erase i).count c = kids.count c := fun c hc =>
    Multiset.count_erase_of_ne hc kids
  have hgone : (kids.erase i).count i = 0 := by
    rw [Multiset.count_erase_self, hone]
  have hTi : update (update T i (some (.dir (1 - 1) j 0))) j
      (some (.dir (n - 1) up (kids.erase i))) i = some (.dir (1 - 1) j 0) := by
    rw [update_of_ne hdi.symm, update_self]
  have hcount : ∀ c, count N (update (update T i (some (.dir (1 - 1) j 0))) j
      (some (.dir (n - 1) up (kids.erase i)))) c + (if j = c then 1 else 0) + kids.count c =
      count N T c + (kids.erase i).count c := by
    intro c
    have hc := count_update₂ (T := T) hdi (h.lt hi) (h.linked_lt hd) (some (.dir (1 - 1) j 0))
      (some (.dir (n - 1) up (kids.erase i))) c
    have hdead : names c (some (.dir (1 - 1) j 0)) = 0 := by simp [names]
    have hnew : names c (some (.dir (n - 1) up (kids.erase i))) =
        (if up = c then 1 else 0) + (kids.erase i).count c := if_pos hn
    rw [names_linked hd, names_linked hl, hdead, hnew, Multiset.count_zero] at hc
    omega
  apply h.transfer (apart_update hd hn _ hother) hroot.symm
  · exact fun _ => h.bound i (by rw [hi]; rfl)
  · intro c x hc
    have hcc := hcount c
    by_cases hci : c = i
    · subst hci
      rw [hTi] at hc
      cases hc
      have hold : (1 : ℤ) = count N T c := h.exact c _ hi
      rw [if_neg hdi, hgone, hone] at hcc
      show (1 - 1 : ℤ) = _
      omega
    · rw [hother c hci] at hcc
      by_cases hcj : c = j
      · subst hcj
        rw [update_self] at hc
        cases hc
        have hold : n = count N T c := h.exact c _ hd.1
        rw [if_pos rfl] at hcc
        show n - 1 = _
        omega
      · rw [update_of_ne hcj, update_of_ne hci] at hc
        rw [if_neg (Ne.symm hcj)] at hcc
        rw [h.exact c x hc]
        omega
  · intro n' u k hl'
    exact (hl.unique hl').2.2
  · intro e n' u k he hik
    exfalso
    have hei : e ≠ i := by
      rintro rfl
      have h1 := he.1
      have h2 := he.2
      rw [hTi] at h1
      cases h1
      exact absurd h2 (by decide)
    by_cases hej : e = j
    · subst hej
      have h1 := he.1
      rw [update_self] at h1
      cases h1
      exact absurd hik (Multiset.count_eq_zero.mp hgone)
    · have h1 := he.1
      rw [update_of_ne hej, update_of_ne hei] at h1
      exact hej (h.tree e n' u k ⟨h1, he.2⟩ i hik 1 j 0 hi).symm
  · rintro n' u k ⟨hl', hn'⟩
    rw [hTi] at hl'
    cases hl'
    exact absurd hn' (by decide)

end Ok

end Links

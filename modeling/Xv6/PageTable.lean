/-
# Page tables are finite maps

A page table is read as a tree of pages: `nodes m l pt` are the pages of the tree of
level `l` under `pt` in memory `m`, `find` is the place of the entry for a page number,
and `view` is the map from page numbers to entries that the tree stands for.  `Tree`
says that the tree is well formed.

`walk` either finds a place or grows the tree without changing the map; writing to the
place changes the map at one page number (`set_leaf`); `freewalk` gives back exactly
the pages of the tree.
-/
import Mathlib.Algebra.BigOperators.Intervals
import Mathlib.Data.Nat.Bitwise
import Xv6.Vm

open Function

namespace Vm

open Hoare

variable {L : Layout} {m m' : ℕ → Page} {l pt i : ℕ} {rest : Multiset ℕ}

/-! ## Page-table entries -/

variable {page : Page} {w j pa flags vpn p va : ℕ} {f : ℕ → Multiset ℕ} {held : Multiset ℕ}
    {s : Phys}

theorem pteAt_setPte_same (hw : w < 2 ^ 64) : pteAt (setPte page i w) i = w := by
  rw [pteAt, setPte, Bytes.getLE_setLE_same]
  exact Nat.mod_eq_of_lt (lt_of_lt_of_eq hw (by norm_num))

theorem pteAt_setPte_of_ne (hj : j ≠ i) : pteAt (setPte page i w) j = pteAt page j :=
  Bytes.getLE_setLE_other _ _ _ _ _ _ (by omega)

theorem pteAt_zero (i : ℕ) : pteAt (fun _ => 0) i = 0 := by
  simp [pteAt, Bytes.getLE]

theorem PX_eq (level va : ℕ) : PX level va = va / PGSIZE / 512 ^ level % 512 := by
  rw [PX, show (0x1FF : ℕ) = 2 ^ 9 - 1 from rfl, Nat.and_two_pow_sub_one_eq_mod,
    Nat.shiftRight_eq_div_pow, pow_add, pow_mul, Nat.div_div_eq_div_mul]
  rfl

theorem PX_lt (level va : ℕ) : PX level va < 512 := by
  rw [PX_eq]
  exact Nat.mod_lt _ (Nat.succ_pos 511)

/-- The entry is valid. -/
def Valid (w : ℕ) : Prop := w &&& PTE_V ≠ 0

instance (w : ℕ) : Decidable (Valid w) := inferInstanceAs (Decidable (_ ≠ _))

theorem not_valid_zero : ¬ Valid 0 := by decide

/-- An entry with address and flags, as `mappages` and `walk` write it. -/
theorem mk_eq (flags : ℕ) :
    PA2PTE pa ||| flags ||| PTE_V = (pa >>> 12) <<< 10 ||| (flags ||| 1) := by
  rw [PA2PTE, Nat.or_assoc]
  rfl

theorem flags_lt (hf : flags < 2 ^ 10) : flags ||| 1 < 2 ^ 10 :=
  Nat.or_lt_two_pow hf (by norm_num)

theorem PTE2PA_mk (hpa : pa % PGSIZE = 0) (hf : flags < 2 ^ 10) :
    PTE2PA (PA2PTE pa ||| flags ||| PTE_V) = pa := by
  have hzero : (flags ||| 1) >>> 10 = 0 := by
    rw [Nat.shiftRight_eq_div_pow]
    exact Nat.div_eq_of_lt (flags_lt hf)
  rw [mk_eq, PTE2PA, Nat.shiftRight_or_distrib, Nat.shiftLeft_shiftRight, hzero, Nat.or_zero,
    Nat.shiftRight_eq_div_pow, Nat.shiftLeft_eq]
  rw [PGSIZE_eq] at hpa
  omega

theorem PTE_FLAGS_mk (hf : flags < 2 ^ 10) :
    PTE_FLAGS (PA2PTE pa ||| flags ||| PTE_V) = flags ||| 1 := by
  rw [mk_eq, PTE_FLAGS, show (0x3FF : ℕ) = 2 ^ 10 - 1 from rfl, Nat.and_two_pow_sub_one_eq_mod,
    Nat.or_mod_two_pow, Nat.mod_eq_of_lt (flags_lt hf), Nat.shiftLeft_eq, Nat.mul_mod_left,
    Nat.zero_or]

/-- Flag bits of an entry are bits of its flags. -/
theorem and_flag {b : ℕ} (hb : b < 2 ^ 10) : w &&& b = PTE_FLAGS w &&& b := by
  rw [PTE_FLAGS, Nat.and_assoc]
  congr 1
  rw [show (0x3FF : ℕ) = 2 ^ 10 - 1 from rfl, Nat.and_comm, Nat.and_two_pow_sub_one_eq_mod,
    Nat.mod_eq_of_lt hb]

theorem mk_lt (hpa : pa < 2 ^ 56) (hf : flags < 2 ^ 10) :
    PA2PTE pa ||| flags ||| PTE_V < 2 ^ 64 := by
  rw [mk_eq]
  refine Nat.or_lt_two_pow ?_ (lt_trans (flags_lt hf) (by decide))
  rw [Nat.shiftRight_eq_div_pow, Nat.shiftLeft_eq]
  omega

theorem valid_mk (hf : flags < 2 ^ 10) : Valid (PA2PTE pa ||| flags ||| PTE_V) := by
  rw [Valid, and_flag (by decide), PTE_FLAGS_mk hf, PTE_V, Nat.shiftLeft_zero,
    Nat.and_one_is_mod, Nat.or_mod_two_eq_one.mpr (Or.inr rfl)]
  exact Nat.one_ne_zero

/-- A leaf entry: valid, with at least one permission. -/
def Leaf (w : ℕ) : Prop := Valid w ∧ w &&& (PTE_R ||| PTE_W ||| PTE_X) ≠ 0

theorem leaf_mk {perm : ℕ} (hperm : perm < 2 ^ 10)
    (hrwx : perm &&& (PTE_R ||| PTE_W ||| PTE_X) ≠ 0) : Leaf (PA2PTE pa ||| perm ||| PTE_V) := by
  refine ⟨valid_mk hperm, ?_⟩
  rw [and_flag (by decide), PTE_FLAGS_mk hperm, Nat.and_or_distrib_right]
  intro hzero
  refine hrwx ?_
  rw [← hzero]
  exact (Nat.or_zero _).symm

/-! ## The tree under a page -/

/-- The subtree of level `l` that an entry points to. -/
def below (f : ℕ → Multiset ℕ) (w : ℕ) : Multiset ℕ := if Valid w then f (PTE2PA w) else 0

/-- The indices of the entries of a page. -/
@[irreducible] def entries : Finset ℕ := Finset.range 512

theorem mem_entries {i : ℕ} : i ∈ entries ↔ i < 512 := by
  rw [entries, Finset.mem_range]

/-- The page-table pages of the tree under `pt`. -/
def nodes (m : ℕ → Page) : ℕ → ℕ → Multiset ℕ
  | 0, pt => {pt}
  | l + 1, pt => {pt} + ∑ i ∈ entries, below (nodes m l) (pteAt (m pt) i)

/-- The index of a page number in a page of level `l`. -/
def index (l vpn : ℕ) : ℕ := vpn / 512 ^ l % 512

/-- The place of the entry for a page number. -/
def find (m : ℕ → Page) (vpn : ℕ) : ℕ → ℕ → Option (ℕ × ℕ)
  | 0, pt => some (pt, index 0 vpn)
  | l + 1, pt =>
    if Valid (pteAt (m pt) (index (l + 1) vpn)) then
      find m vpn l (PTE2PA (pteAt (m pt) (index (l + 1) vpn)))
    else none

/-- The entry for a page number, 0 if there is no place for it. -/
def view (m : ℕ → Page) (l pt vpn : ℕ) : ℕ :=
  match find m vpn l pt with
  | none => 0
  | some (p, i) => pteAt (m p) i

/-- An entry of a page above level 0: zero or a pointer to a subtree. -/
def Entry (T : ℕ → Prop) (w : ℕ) : Prop :=
  w = 0 ∨ ∃ c, c % PGSIZE = 0 ∧ c < 2 ^ 56 ∧ w = PA2PTE c ||| 0 ||| PTE_V ∧ T c

/-- The tree is well formed. -/
def Tree (m : ℕ → Page) : ℕ → ℕ → Prop
  | 0, pt => ∀ i < 512, pteAt (m pt) i = 0 ∨ Leaf (pteAt (m pt) i)
  | l + 1, pt => ∀ i < 512, Entry (Tree m l) (pteAt (m pt) i)

theorem index_lt (l vpn : ℕ) : index l vpn < 512 := Nat.mod_lt _ (Nat.succ_pos 511)

theorem self_mem_nodes (m : ℕ → Page) (l pt : ℕ) : pt ∈ nodes m l pt := by
  cases l with
  | zero => exact Multiset.mem_singleton_self pt
  | succ l => exact Multiset.mem_add.mpr (Or.inl (Multiset.mem_singleton_self pt))

theorem below_of_valid (hw : Valid w) : below f w = f (PTE2PA w) :=
  if_pos hw

theorem below_of_not_valid (hw : ¬ Valid w) : below f w = 0 :=
  if_neg hw

/-- The pages of the tree without the subtree at index `i`. -/
def others (m : ℕ → Page) (l pt i : ℕ) : Multiset ℕ :=
  {pt} + ∑ j ∈ entries.erase i, below (nodes m l) (pteAt (m pt) j)

theorem nodes_split (hi : i < 512) :
    nodes m (l + 1) pt = below (nodes m l) (pteAt (m pt) i) + others m l pt i := by
  rw [nodes, others, ← Finset.add_sum_erase _ _ (mem_entries.mpr hi), add_left_comm]

theorem self_mem_others : pt ∈ others m l pt i :=
  Multiset.mem_add.mpr (Or.inl (Multiset.mem_singleton_self pt))

theorem mem_others (hj : j < 512) (hne : j ≠ i)
    (hpa : pa ∈ below (nodes m l) (pteAt (m pt) j)) : pa ∈ others m l pt i := by
  refine Multiset.mem_add.mpr (Or.inr (Multiset.mem_sum.mpr ⟨j, ?_, hpa⟩))
  exact Finset.mem_erase.mpr ⟨hne, mem_entries.mpr hj⟩

theorem mem_nodes_of_below (hi : i < 512)
    (hpa : pa ∈ below (nodes m l) (pteAt (m pt) i)) : pa ∈ nodes m (l + 1) pt := by
  rw [nodes_split hi]
  exact Multiset.mem_add.mpr (Or.inl hpa)

/-! ## Trees depend on their own pages only -/

theorem tree_congr (l : ℕ) : ∀ pt, (∀ pa ∈ nodes m l pt, m' pa = m pa) →
    nodes m' l pt = nodes m l pt ∧ (Tree m l pt → Tree m' l pt) ∧
      ∀ vpn, find m' vpn l pt = find m vpn l pt := by
  induction l with
  | zero =>
    intro pt h
    have hpt := h pt (self_mem_nodes m 0 pt)
    refine ⟨rfl, fun ht i hi => ?_, fun vpn => rfl⟩
    rw [hpt]
    exact ht i hi
  | succ l ih =>
    intro pt h
    have hpt := h pt (self_mem_nodes m (l + 1) pt)
    have hsub : ∀ i < 512, Valid (pteAt (m pt) i) → ∀ pa ∈ nodes m l (PTE2PA (pteAt (m pt) i)),
        m' pa = m pa := by
      intro i hi hv pa hpa
      exact h pa (mem_nodes_of_below hi (by rw [below_of_valid hv]; exact hpa))
    refine ⟨?_, fun ht i hi => ?_, fun vpn => ?_⟩
    · rw [nodes, nodes, hpt]
      refine congrArg (fun x : Multiset ℕ => {pt} + x) (Finset.sum_congr rfl fun i hi => ?_)
      by_cases hv : Valid (pteAt (m pt) i)
      · rw [below_of_valid hv, below_of_valid hv]
        exact (ih _ (hsub i (mem_entries.mp hi) hv)).1
      · rw [below_of_not_valid hv, below_of_not_valid hv]
    · rw [hpt]
      refine (ht i hi).imp_right ?_
      rintro ⟨c, hal, hlt, hw, hc⟩
      have hv : Valid (pteAt (m pt) i) := hw ▸ valid_mk (by decide)
      have hsub' := hsub i hi hv
      rw [hw, PTE2PA_mk hal (by decide)] at hsub'
      exact ⟨c, hal, hlt, hw, (ih c hsub').2.1 hc⟩
    · rw [find, find, hpt]
      split_ifs with hv
      · exact (ih _ (hsub _ (index_lt _ _) hv)).2.2 vpn
      · rfl

theorem find_mem_nodes (l : ℕ) : ∀ pt, find m vpn l pt = some (p, i) →
    p ∈ nodes m l pt ∧ i < 512 := by
  induction l with
  | zero =>
    intro pt h
    cases h
    exact ⟨self_mem_nodes m 0 p, index_lt 0 vpn⟩
  | succ l ih =>
    intro pt h
    rw [find] at h
    split_ifs at h with hv
    obtain ⟨hp, hi⟩ := ih _ h
    refine ⟨mem_nodes_of_below (index_lt (l + 1) vpn) ?_, hi⟩
    rw [below_of_valid hv]
    exact hp

theorem view_congr (h : ∀ pa ∈ nodes m l pt, m' pa = m pa) (vpn : ℕ) :
    view m' l pt vpn = view m l pt vpn := by
  have hfind := (tree_congr l pt h).2.2 vpn
  rw [view, view, hfind]
  cases hf : find m vpn l pt with
  | none => rfl
  | some place =>
    obtain ⟨p, i⟩ := place
    show pteAt (m' p) i = pteAt (m p) i
    rw [h p (find_mem_nodes l pt hf).1]

/-! ## One entry changes -/

/-- The memories agree on the tree under `pt` except for entry `i` and what is below
it. -/
structure SameBut (m m' : ℕ → Page) (l pt i : ℕ) : Prop where
  entry : ∀ j < 512, j ≠ i → pteAt (m' pt) j = pteAt (m pt) j
  page : ∀ j < 512, j ≠ i → ∀ pa ∈ below (nodes m l) (pteAt (m pt) j), m' pa = m pa

theorem SameBut.of_others (h : ∀ pa ∈ others m l pt i, m' pa = m pa) : SameBut m m' l pt i where
  entry j _ _ := by rw [h pt self_mem_others]
  page _ hj hne pa hpa := h pa (mem_others hj hne hpa)

namespace SameBut

theorem others_eq (h : SameBut m m' l pt i) : others m' l pt i = others m l pt i := by
  rw [others, others]
  refine congrArg (fun x : Multiset ℕ => {pt} + x) (Finset.sum_congr rfl fun j hj => ?_)
  obtain ⟨hne, hlt⟩ := Finset.mem_erase.mp hj
  rw [mem_entries] at hlt
  rw [h.entry j hlt hne]
  by_cases hv : Valid (pteAt (m pt) j)
  · rw [below_of_valid hv, below_of_valid hv]
    refine (tree_congr l _ fun pa hpa => h.page j hlt hne pa ?_).1
    rw [below_of_valid hv]
    exact hpa
  · rw [below_of_not_valid hv, below_of_not_valid hv]

theorem tree (h : SameBut m m' l pt i) (ht : Tree m (l + 1) pt)
    (hi : Entry (Tree m' l) (pteAt (m' pt) i)) : Tree m' (l + 1) pt := by
  intro j hj
  by_cases hne : j = i
  · rw [hne]
    exact hi
  · rw [h.entry j hj hne]
    refine (ht j hj).imp_right ?_
    rintro ⟨c, hal, hlt, hw, hc⟩
    refine ⟨c, hal, hlt, hw, (tree_congr l c fun pa hpa => h.page j hj hne pa ?_).2.1 hc⟩
    have hv : Valid (pteAt (m pt) j) := hw ▸ valid_mk (by decide)
    rw [below_of_valid hv, hw, PTE2PA_mk hal (by decide)]
    exact hpa

theorem view_eq (h : SameBut m m' l pt i) (hne : index (l + 1) vpn ≠ i) :
    view m' (l + 1) pt vpn = view m (l + 1) pt vpn := by
  have hentry := h.entry _ (index_lt (l + 1) vpn) hne
  by_cases hv : Valid (pteAt (m pt) (index (l + 1) vpn))
  · have hsub : view m' l (PTE2PA (pteAt (m pt) (index (l + 1) vpn))) vpn
        = view m l (PTE2PA (pteAt (m pt) (index (l + 1) vpn))) vpn :=
      view_congr (fun pa hpa => h.page _ (index_lt (l + 1) vpn) hne pa
        (by rw [below_of_valid hv]; exact hpa)) vpn
    rw [view, view, find, find, hentry, if_pos hv, if_pos hv]
    exact hsub
  · rw [view, view, find, find, hentry, if_neg hv, if_neg hv]

end SameBut

theorem view_of_valid (hv : Valid (pteAt (m pt) (index (l + 1) vpn))) :
    view m (l + 1) pt vpn = view m l (PTE2PA (pteAt (m pt) (index (l + 1) vpn))) vpn := by
  rw [view, find, if_pos hv, view]

theorem view_of_not_valid (hv : ¬ Valid (pteAt (m pt) (index (l + 1) vpn))) :
    view m (l + 1) pt vpn = 0 := by
  rw [view, find, if_neg hv]

/-- Only the subtree at index `i` changes. -/
theorem child_step (hi : i < 512) (hv : Valid (pteAt (m pt) i)) (ht : Tree m (l + 1) pt)
    (hkeep : ∀ pa ∈ others m l pt i, m' pa = m pa) (hc : Tree m' l (PTE2PA (pteAt (m pt) i))) :
    Tree m' (l + 1) pt ∧ pteAt (m' pt) i = pteAt (m pt) i ∧
      nodes m' (l + 1) pt = nodes m' l (PTE2PA (pteAt (m pt) i)) + others m l pt i ∧
      ∀ vpn, view m' (l + 1) pt vpn = if index (l + 1) vpn = i
        then view m' l (PTE2PA (pteAt (m pt) i)) vpn else view m (l + 1) pt vpn := by
  have hpt : m' pt = m pt := hkeep pt self_mem_others
  have hsame : SameBut m m' l pt i := SameBut.of_others hkeep
  refine ⟨hsame.tree ht ?_, by rw [hpt], ?_, fun vpn => ?_⟩
  · rw [hpt]
    rcases ht i hi with hz | ⟨c, hal, hlt, hw, -⟩
    · rw [hz] at hv
      exact absurd hv not_valid_zero
    · refine Or.inr ⟨c, hal, hlt, hw, ?_⟩
      rwa [hw, PTE2PA_mk hal (by decide)] at hc
  · rw [nodes_split hi, hpt, below_of_valid hv, hsame.others_eq]
  · split_ifs with hidx
    · rw [view_of_valid (by rw [hpt, hidx]; exact hv), hpt, hidx]
    · exact hsame.view_eq hidx

/-- The subtree a valid entry points to. -/
theorem Tree.child (ht : Tree m (l + 1) pt) (hi : i < 512) (hv : Valid (pteAt (m pt) i)) :
    Tree m l (PTE2PA (pteAt (m pt) i)) := by
  rcases ht i hi with hz | ⟨c, hal, -, hw, hc⟩
  · rw [hz] at hv
    exact absurd hv not_valid_zero
  · rwa [hw, PTE2PA_mk hal (by decide)]

/-- A page of zeros is an empty tree. -/
theorem empty_tree (hz : m pt = fun _ => 0) :
    nodes m l pt = {pt} ∧ Tree m l pt ∧ ∀ vpn, view m l pt vpn = 0 := by
  cases l with
  | zero =>
    refine ⟨rfl, fun i _ => Or.inl ?_, fun vpn => ?_⟩
    · rw [hz, pteAt_zero]
    · show pteAt (m pt) _ = 0
      rw [hz, pteAt_zero]
  | succ l =>
    refine ⟨?_, fun i _ => Or.inl ?_, fun vpn => view_of_not_valid ?_⟩
    · rw [nodes, hz, Finset.sum_eq_zero, add_zero]
      intro i _
      rw [pteAt_zero, below_of_not_valid not_valid_zero]
    · rw [hz, pteAt_zero]
    · rw [hz, pteAt_zero]
      exact not_valid_zero

/-! ## walk -/

theorem readPte_spec : Triple (At L m held) (readPte p i) fun w s =>
    w = pteAt (m p) i ∧ At L m held s := by
  rintro s ⟨rfl, h⟩
  exact ⟨_, s, rfl, rfl, rfl, h⟩

theorem writePte_spec : Triple (At L m held) (writePte p i w)
    fun _ s => At L (update m p (setPte (m p) i w)) held s := by
  rintro s ⟨rfl, h⟩
  exact ⟨(), _, rfl, rfl, ⟨h.pages, h.once⟩⟩

theorem index_eq_PX (l va : ℕ) : PX l va = index l (va / PGSIZE) := PX_eq l va

/-- The loop of `walk` without allocation looks up the place and changes nothing. -/
theorem walkLevel_run (l : ℕ) : ∀ pt,
    walkLevel va false l pt s = .ok (find s.mem (va / PGSIZE) l pt, s) := by
  induction l with
  | zero =>
    intro pt
    rw [find, ← index_eq_PX]
    rfl
  | succ l ih =>
    intro pt
    rw [find, ← index_eq_PX]
    show (if Valid (pteAt (s.mem pt) (PX (l + 1) va)) then _ else _ : Kernel _) s = _
    by_cases hv : Valid (pteAt (s.mem pt) (PX (l + 1) va))
    · rw [if_pos hv, if_pos hv]
      exact ih _
    · rw [if_neg hv, if_neg hv]
      rfl

theorem walk_run (hva : va < MAXVA) :
    walk pt va false s = .ok (find s.mem (va / PGSIZE) 2 pt, s) := by
  rw [walk, if_neg (by omega)]
  exact walkLevel_run 2 pt

theorem walk_find (hva : va < MAXVA) : Triple (At L m held) (walk pt va false) fun o s =>
      o = find m (va / PGSIZE) 2 pt ∧ At L m held s := by
  rintro s ⟨rfl, h⟩
  exact ⟨_, s, walk_run hva, rfl, rfl, h⟩

/-- The tree may have got more pages; it stands for the same map, and `rest` is left
alone. -/
structure Grown (m m' : ℕ → Page) (l pt : ℕ) (rest : Multiset ℕ) : Prop where
  tree : Tree m' l pt
  keep : ∀ pa ∈ rest, m' pa = m pa
  view : ∀ vpn, view m' l pt vpn = view m l pt vpn

theorem Grown.trans {m'' : ℕ → Page} (h : Grown m m' l pt rest) (h' : Grown m' m'' l pt rest) :
    Grown m m'' l pt rest where
  tree := h'.tree
  keep pa hpa := (h'.keep pa hpa).trans (h.keep pa hpa)
  view vpn := (h'.view vpn).trans (h.view vpn)

/-- A subtree that grows makes the tree grow. -/
theorem Grown.child (hi : i < 512) (hv : Valid (pteAt (m pt) i)) (ht : Tree m (l + 1) pt)
    (h : Grown m m' l (PTE2PA (pteAt (m pt) i)) (others m l pt i + rest)) :
    Grown m m' (l + 1) pt rest ∧ pteAt (m' pt) i = pteAt (m pt) i ∧
      nodes m' (l + 1) pt = nodes m' l (PTE2PA (pteAt (m pt) i)) + others m l pt i := by
  obtain ⟨htree, hentry, hnodes, hview⟩ := child_step hi hv ht
    (fun pa hpa => h.keep pa (Multiset.mem_add.mpr (Or.inl hpa))) h.tree
  refine ⟨⟨htree, fun pa hpa => h.keep pa (Multiset.mem_add.mpr (Or.inr hpa)), fun vpn => ?_⟩,
    hentry, hnodes⟩
  rw [hview vpn]
  split_ifs with hidx
  · rw [view_of_valid (by rw [hidx]; exact hv), hidx]
    exact h.view vpn
  · rfl

/-- The page-table page that `walk` adds. -/
theorem Grown.add {page : ℕ} (hi : i < 512) (hv : ¬ Valid (pteAt (m pt) i))
    (ht : Tree m (l + 1) pt) (hnd : (nodes m (l + 1) pt + rest).Nodup)
    (hfresh : page ∉ nodes m (l + 1) pt + rest) (hal : page % PGSIZE = 0) (hlt : page < 2 ^ 56)
    (hpage : m' page = fun _ => 0) (hpt : m' pt = setPte (m pt) i (PA2PTE page ||| 0 ||| PTE_V))
    (hother : ∀ pa, pa ≠ page → pa ≠ pt → m' pa = m pa) :
    Grown m m' (l + 1) pt rest ∧ pteAt (m' pt) i = PA2PTE page ||| 0 ||| PTE_V ∧
      nodes m' (l + 1) pt = page ::ₘ nodes m (l + 1) pt := by
  have hentry : pteAt (m' pt) i = PA2PTE page ||| 0 ||| PTE_V := by
    rw [hpt, pteAt_setPte_same (mk_lt hlt (by decide))]
  have hv' : Valid (pteAt (m' pt) i) := hentry ▸ valid_mk (by decide)
  have hchild : PTE2PA (pteAt (m' pt) i) = page := by
    rw [hentry, PTE2PA_mk hal (by decide)]
  obtain ⟨hnodes, htree, hview⟩ := empty_tree (l := l) hpage
  have hsplit : nodes m (l + 1) pt = others m l pt i := by
    rw [nodes_split hi, below_of_not_valid hv, zero_add]
  rw [hsplit] at hnd hfresh
  have hnew : ∀ pa ∈ others m l pt i + rest, pa ≠ page := fun pa hpa heq => hfresh (heq ▸ hpa)
  have hnpt : pt ∉ (∑ j ∈ entries.erase i, below (nodes m l) (pteAt (m pt) j)) + rest := by
    rw [others, add_assoc] at hnd
    exact (Multiset.nodup_cons.mp hnd).1
  have hsame : SameBut m m' l pt i := by
    refine ⟨fun j hj hne => ?_, fun j hj hne pa hpa => hother pa ?_ ?_⟩
    · rw [hpt, pteAt_setPte_of_ne hne]
    · exact hnew pa (Multiset.mem_add.mpr (Or.inl (mem_others hj hne hpa)))
    · rintro rfl
      refine hnpt (Multiset.mem_add.mpr (Or.inl (Multiset.mem_sum.mpr ⟨j, ?_, hpa⟩)))
      exact Finset.mem_erase.mpr ⟨hne, mem_entries.mpr hj⟩
  refine ⟨⟨hsame.tree ht (Or.inr ⟨page, hal, hlt, hentry, htree⟩), fun pa hpa => ?_,
    fun vpn => ?_⟩, hentry, ?_⟩
  · refine hother pa (hnew pa (Multiset.mem_add.mpr (Or.inr hpa))) ?_
    rintro rfl
    exact hnpt (Multiset.mem_add.mpr (Or.inr hpa))
  · by_cases hne : index (l + 1) vpn = i
    · rw [view_of_valid (by rw [hne]; exact hv'), view_of_not_valid (by rw [hne]; exact hv), hne,
        hchild]
      exact hview vpn
    · exact hsame.view_eq hne
  · rw [nodes_split hi, below_of_valid hv', hchild, hnodes, hsame.others_eq, hsplit]
    rfl

theorem At.nodup (h : At L m held s) : held.Nodup := h.2.nodup_held

theorem frames_lt (hpa : pa ∈ frames L) : pa % PGSIZE = 0 ∧ pa < 2 ^ 56 := by
  obtain ⟨hal, -, hlt⟩ := frames_bounds hpa
  have := PHYSTOP_eq
  omega

/-- What `walk` with allocation leaves behind. -/
def Walked (L : Layout) (m : ℕ → Page) (l pt : ℕ) (rest : Multiset ℕ) (vpn : ℕ)
    (o : Option (ℕ × ℕ)) (s : Phys) : Prop :=
  ∃ m', At L m' (nodes m' l pt + rest) s ∧ Grown m m' l pt rest ∧
    ∀ place, o = some place → find m' vpn l pt = some place

/-- `walk` goes on in the subtree at index `i`. -/
theorem Walked.child (hi : i = index (l + 1) vpn) (hv : Valid (pteAt (m pt) i))
    (ht : Tree m (l + 1) pt) {o : Option (ℕ × ℕ)}
    (h : Walked L m l (PTE2PA (pteAt (m pt) i)) (others m l pt i + rest) vpn o s) :
    Walked L m (l + 1) pt rest vpn o s := by
  obtain ⟨m', hat, hgrown, hfind⟩ := h
  obtain ⟨hg, hentry, hnodes⟩ := hgrown.child (hi ▸ index_lt (l + 1) vpn) hv ht
  refine ⟨m', ?_, hg, fun place ho => ?_⟩
  · rw [hnodes, add_assoc]
    exact hat
  · rw [find, ← hi, hentry, if_pos hv]
    exact hfind place ho

/-- **`walk` with allocation** finds the place, or memory has run out; the tree stands
for the same map. -/
theorem walkLevel_alloc (l : ℕ) : ∀ pt m rest, Tree m l pt →
    Triple (At L m (nodes m l pt + rest)) (walkLevel va true l pt)
      (Walked L m l pt rest (va / PGSIZE)) := by
  induction l with
  | zero =>
    intro pt m rest ht
    refine Triple.ret fun s hs => ⟨m, hs, ⟨ht, fun _ _ => rfl, fun _ => rfl⟩, fun place ho => ?_⟩
    rw [find, ← ho, index_eq_PX]
  | succ l ih =>
    intro pt m rest ht
    refine Triple.bind readPte_spec fun w => ?_
    refine Triple.of_and fun hw => ?_
    refine Triple.of_fact (fun hnd => ?_) fun s hs => hs.nodup
    have hi := PX_lt (l + 1) va
    refine Triple.ite (fun hv => ?_) fun hv => ?_
    · -- the subtree is there
      rw [hw] at hv ⊢
      refine (ih _ m (others m l pt (PX (l + 1) va) + rest) (ht.child hi hv)).conseq
        (fun s hs => ?_) fun o s h => h.child (index_eq_PX _ _) hv ht
      rw [nodes_split hi, below_of_valid hv, add_assoc] at hs
      exact hs
    · -- a new page is made
      rw [hw] at hv
      refine Triple.bind kalloc_spec fun o => ?_
      cases o with
      | none =>
        exact Triple.ret fun s hs =>
          ⟨m, hs, ⟨ht, fun _ _ => rfl, fun _ => rfl⟩, fun _ ho => by cases ho⟩
      | some page =>
        refine Triple.of_and fun hfresh => ?_
        refine Triple.of_fact (fun hmem => ?_) fun s (hs : At _ _ _ s) =>
          hs.2.mem_frames (Multiset.mem_cons_self page _)
        obtain ⟨hal, hlt⟩ := frames_lt hmem
        refine Triple.bind memsetPage_spec fun _ => ?_
        refine Triple.bind writePte_spec fun _ => ?_
        have hne : pt ≠ page := by
          rintro rfl
          exact hfresh (Multiset.mem_add.mpr (Or.inl (self_mem_nodes m (l + 1) pt)))
        rw [update_idem, update_of_ne hne]
        set m' := update (update m page fun _ => 0) pt
          (setPte (m pt) (PX (l + 1) va) (PA2PTE page ||| PTE_V)) with hm'
        have hpt : m' pt = setPte (m pt) (PX (l + 1) va) (PA2PTE page ||| 0 ||| PTE_V) := by
          rw [hm', update_self, Nat.or_zero]
        have hpage : m' page = fun _ => 0 := by
          rw [hm', update_of_ne hne.symm, update_self]
        obtain ⟨hg, hentry, hnodes⟩ := Grown.add hi hv ht hnd hfresh hal hlt hpage hpt
          fun pa h₁ h₂ => by rw [hm', update_of_ne h₂, update_of_ne h₁]
        have hv' : Valid (pteAt (m' pt) (PX (l + 1) va)) := hentry ▸ valid_mk (by decide)
        have hchild : PTE2PA (pteAt (m' pt) (PX (l + 1) va)) = page := by
          rw [hentry, PTE2PA_mk hal (by decide)]
        refine (ih page m' (others m' l pt (PX (l + 1) va) + rest)
          (empty_tree hpage).2.1).conseq (fun s hs => ?_) fun o s h => ?_
        · rw [← Multiset.cons_add, ← hnodes, nodes_split hi, below_of_valid hv', hchild,
            add_assoc] at hs
          exact hs
        · rw [← hchild] at h
          obtain ⟨m'', hat, hgrown, hfind⟩ := h.child (index_eq_PX _ _) hv' hg.tree
          exact ⟨m'', hat, hg.trans hgrown, hfind⟩

theorem walk_alloc (hva : va < MAXVA) (ht : Tree m 2 pt) :
    Triple (At L m (nodes m 2 pt + rest)) (walk pt va true)
      (Walked L m 2 pt rest (va / PGSIZE)) := by
  rw [walk, if_neg (by omega)]
  exact walkLevel_alloc 2 pt m rest ht

/-! ## Writing an entry -/

/-- Page numbers agree on a tree of level `l + 1` when they have the same index there
and agree below. -/
theorem mod_eq_iff (l v vpn : ℕ) : v % 512 ^ (l + 2) = vpn % 512 ^ (l + 2) ↔
    index (l + 1) v = index (l + 1) vpn ∧ v % 512 ^ (l + 1) = vpn % 512 ^ (l + 1) := by
  rw [pow_succ, Nat.mod_mul, Nat.mod_mul, index, index]
  have hpos : 0 < 512 ^ (l + 1) := Nat.pow_pos (Nat.succ_pos 511)
  constructor
  · intro h
    have hlow := congrArg (· % 512 ^ (l + 1)) h
    simp only [Nat.add_mul_mod_self_left, Nat.mod_mod] at hlow
    rw [hlow] at h
    exact ⟨Nat.eq_of_mul_eq_mul_left hpos (Nat.add_left_cancel h), hlow⟩
  · rintro ⟨h₁, h₂⟩
    rw [h₁, h₂]

/-- **Writing to the place of a page number** changes the map there and nowhere else. -/
theorem set_leaf (hw : w < 2 ^ 64) (hleaf : w = 0 ∨ Leaf w) (l : ℕ) :
    ∀ pt, Tree m l pt → (nodes m l pt).Nodup → find m vpn l pt = some (p, i) →
      Tree (update m p (setPte (m p) i w)) l pt ∧
      nodes (update m p (setPte (m p) i w)) l pt = nodes m l pt ∧
      ∀ v, view (update m p (setPte (m p) i w)) l pt v
        = if v % 512 ^ (l + 1) = vpn % 512 ^ (l + 1) then w else view m l pt v := by
  induction l with
  | zero =>
    intro pt ht _ hfind
    cases hfind
    refine ⟨fun j hj => ?_, rfl, fun v => ?_⟩
    · rw [update_self]
      by_cases hji : j = index 0 vpn
      · rw [hji, pteAt_setPte_same hw]
        exact hleaf
      · rw [pteAt_setPte_of_ne hji]
        exact ht j hj
    · show pteAt (update m p _ p) (index 0 v) = _
      rw [update_self, zero_add, pow_one]
      have hindex : ∀ u, index 0 u = u % 512 := fun u => by rw [index, pow_zero, Nat.div_one]
      rw [hindex, hindex]
      split_ifs with h
      · rw [h, pteAt_setPte_same hw]
      · rw [pteAt_setPte_of_ne h]
        show _ = pteAt (m p) (index 0 v)
        rw [hindex]
  | succ l ih =>
    intro pt ht hnd hfind
    rw [find] at hfind
    split_ifs at hfind with hv
    have hi := index_lt (l + 1) vpn
    rw [nodes_split hi, below_of_valid hv] at hnd
    obtain ⟨hndc, -, hdisj⟩ := Multiset.nodup_add.mp hnd
    obtain ⟨htc, hnc, hvc⟩ := ih _ (ht.child hi hv) hndc hfind
    have hkeep : ∀ pa ∈ others m l pt (index (l + 1) vpn),
        update m p (setPte (m p) i w) pa = m pa := by
      intro pa hpa
      refine update_of_ne ?_ _ _
      rintro rfl
      exact Multiset.disjoint_left.mp hdisj (find_mem_nodes l _ hfind).1 hpa
    obtain ⟨htree, -, hnodes, hview⟩ := child_step hi hv ht hkeep htc
    refine ⟨htree, ?_, fun v => ?_⟩
    · rw [hnodes, hnc, nodes_split hi, below_of_valid hv]
    · rw [hview v]
      by_cases hidx : index (l + 1) v = index (l + 1) vpn
      · rw [if_pos hidx, hvc v, view_of_valid (by rw [hidx]; exact hv), hidx]
        simp only [mod_eq_iff, hidx, true_and]
      · rw [if_neg hidx, if_neg fun h => hidx ((mod_eq_iff l v vpn).mp h).1]

/-! ## freewalk -/

/-- A tree of level `l` depends on the low `9 * (l + 1)` bits of a page number. -/
theorem find_mod {v : ℕ} (l : ℕ) : ∀ pt, v % 512 ^ (l + 1) = vpn % 512 ^ (l + 1) →
    find m v l pt = find m vpn l pt := by
  induction l with
  | zero =>
    intro pt h
    rw [zero_add, pow_one] at h
    rw [find, find, index, index, pow_zero, Nat.div_one, Nat.div_one, h]
  | succ l ih =>
    intro pt h
    obtain ⟨h₁, h₂⟩ := (mod_eq_iff l v vpn).mp h
    rw [find, find, h₁, ih _ h₂]

/-- The tree stands for the empty map. -/
def Blank (m : ℕ → Page) (l pt : ℕ) : Prop := ∀ vpn, view m l pt vpn = 0

theorem Blank.entry (h : Blank m 0 pt) (hi : i < 512) : pteAt (m pt) i = 0 := by
  have := h i
  rwa [view, find, index, pow_zero, Nat.div_one, Nat.mod_eq_of_lt hi] at this

theorem Blank.child (h : Blank m (l + 1) pt) (hi : i < 512) (hv : Valid (pteAt (m pt) i)) :
    Blank m l (PTE2PA (pteAt (m pt) i)) := by
  intro vpn
  have hpos : 0 < 512 ^ (l + 1) := Nat.pow_pos (Nat.succ_pos 511)
  have hidx : index (l + 1) (vpn % 512 ^ (l + 1) + 512 ^ (l + 1) * i) = i := by
    rw [index, Nat.add_mul_div_left _ _ hpos, Nat.div_eq_of_lt (Nat.mod_lt _ hpos), zero_add,
      Nat.mod_eq_of_lt hi]
  have hfind : find m (vpn % 512 ^ (l + 1) + 512 ^ (l + 1) * i) l (PTE2PA (pteAt (m pt) i))
      = find m vpn l (PTE2PA (pteAt (m pt) i)) :=
    find_mod l _ (by rw [Nat.add_mul_mod_self_left, Nat.mod_mod])
  have hzero := h (vpn % 512 ^ (l + 1) + 512 ^ (l + 1) * i)
  rw [view_of_valid (by rw [hidx]; exact hv), hidx, view, hfind] at hzero
  rw [view]
  exact hzero

/-- The pages below the last `k` entries. -/
def tailNodes (m : ℕ → Page) (l pt k : ℕ) : Multiset ℕ :=
  ∑ j ∈ Finset.Ico (512 - k) 512, below (nodes m l) (pteAt (m pt) j)

theorem tailNodes_succ {k : ℕ} (hk : k + 1 ≤ 512) : tailNodes m l pt (k + 1)
    = below (nodes m l) (pteAt (m pt) (512 - (k + 1))) + tailNodes m l pt k := by
  rw [tailNodes, Finset.sum_eq_sum_Ico_succ_bot (by omega), tailNodes,
    show 512 - (k + 1) + 1 = 512 - k by omega]

theorem nodes_eq_tailNodes : nodes m (l + 1) pt = {pt} + tailNodes m l pt 512 := by
  rw [nodes, tailNodes, entries, Nat.sub_self, Finset.range_eq_Ico]

/-- The state of the loop of `freewalk` before the last `k` entries: their subtrees are
still there. -/
def Freeing (L : Layout) (m : ℕ → Page) (l pt : ℕ) (rest : Multiset ℕ) (k : ℕ) (s : Phys) : Prop :=
  ∃ m', At L m' ({pt} + (tailNodes m l pt k + rest)) s ∧
    (∀ j < 512, 512 - k ≤ j → pteAt (m' pt) j = pteAt (m pt) j) ∧
    ∀ pa ∈ tailNodes m l pt k + rest, m' pa = m pa

theorem freewalkEntries_spec {child : ℕ → Kernel Unit} (rest : Multiset ℕ) (ht : Tree m (l + 1) pt)
    (hb : Blank m (l + 1) pt)
    (hchild : ∀ c m rest, Tree m l c → Blank m l c → Triple (At L m (nodes m l c + rest)) (child c)
      fun _ s => ∃ m', At L m' rest s ∧ ∀ pa ∈ rest, m' pa = m pa) :
    ∀ k ≤ 512, Triple (Freeing L m l pt rest k) (freewalkEntries child pt k) fun _ s =>
      Freeing L m l pt rest 0 s := by
  intro k
  induction k with
  | zero => exact fun _ => Triple.ret fun s hs => hs
  | succ k ih =>
    intro hk
    have hi : 512 - (k + 1) < 512 := by omega
    refine Triple.of_exists_and fun m₁ ⟨hentry, hkeep⟩ => ?_
    refine Triple.of_fact (fun hnd => ?_) fun s hs => hs.nodup
    rw [tailNodes_succ hk] at hnd hkeep ⊢
    refine Triple.bind (Triple.bind readPte_spec fun w => ?_) fun _ => ih (by omega)
    refine Triple.of_and fun hw => ?_
    rw [hentry _ hi le_rfl] at hw
    have hnpt : pt ∉ tailNodes m l pt k + rest := by
      intro hmem
      refine (Multiset.nodup_cons.mp hnd).1 ?_
      rw [add_assoc]
      exact Multiset.mem_add.mpr (Or.inr hmem)
    rcases ht _ hi with hz | ⟨c, hal, hlt, hc, htc⟩
    · -- no subtree
      rw [hw, hz, if_neg (fun h => not_valid_zero h.1),
        if_neg (show ¬ (0 &&& PTE_V ≠ 0) from not_valid_zero)]
      rw [hz, below_of_not_valid not_valid_zero, zero_add] at hkeep
      rw [below_of_not_valid not_valid_zero, zero_add]
      exact Triple.ret fun s hs => ⟨m₁, hs, fun j hj hjk => hentry j hj (by omega), hkeep⟩
    · have hv : Valid (pteAt (m pt) (512 - (k + 1))) := hc ▸ valid_mk (by decide)
      have hpa : PTE2PA (pteAt (m pt) (512 - (k + 1))) = c := by
        rw [hc, PTE2PA_mk hal (by decide)]
      have hrwx : pteAt (m pt) (512 - (k + 1)) &&& (PTE_R ||| PTE_W ||| PTE_X) = 0 := by
        rw [and_flag (by decide), hc, PTE_FLAGS_mk (by decide)]
        rfl
      have hbc := hb.child hi hv
      rw [below_of_valid hv] at hkeep ⊢
      rw [hpa] at hkeep hbc ⊢
      obtain ⟨hnodes, htree, hfind⟩ := tree_congr l c fun pa h =>
        hkeep pa (Multiset.mem_add.mpr (Or.inl (Multiset.mem_add.mpr (Or.inl h))))
      have hblank : Blank m₁ l c := fun vpn => by
        rw [view_congr fun pa h =>
          hkeep pa (Multiset.mem_add.mpr (Or.inl (Multiset.mem_add.mpr (Or.inl h))))]
        exact hbc vpn
      rw [hw, if_pos ⟨hv, hrwx⟩, hpa]
      refine Triple.bind ((hchild c m₁ ({pt} + (tailNodes m l pt k + rest)) (htree htc)
        hblank).pre fun s hs => ?_) fun _ => ?_
      · rw [hnodes]
        rw [add_assoc, add_left_comm] at hs
        exact hs
      · refine Triple.of_exists_and fun m₂ hkeep₂ => ?_
        refine writePte_spec.post fun _ s hs => ⟨_, hs, fun j hj hjk => ?_, fun pa hpa => ?_⟩
        · rw [update_self, pteAt_setPte_of_ne (by omega),
            hkeep₂ pt (Multiset.mem_add.mpr (Or.inl (Multiset.mem_singleton_self pt)))]
          exact hentry j hj (by omega)
        · have hne : pa ≠ pt := by
            rintro rfl
            exact hnpt hpa
          rw [update_of_ne hne, hkeep₂ pa (Multiset.mem_add.mpr (Or.inr hpa))]
          refine hkeep pa ?_
          rw [add_assoc]
          exact Multiset.mem_add.mpr (Or.inr hpa)

/-- The loop of `freewalk` over a page without entries does nothing. -/
theorem freewalkEntries_blank {child : ℕ → Kernel Unit}
    (hz : ∀ i < 512, pteAt (m pt) i = 0) : ∀ k ≤ 512,
      Triple (At L m held) (freewalkEntries child pt k) fun _ s => At L m held s := by
  intro k
  induction k with
  | zero => exact fun _ => Triple.ret fun s hs => hs
  | succ k ih =>
    intro hk
    refine Triple.bind (Triple.bind readPte_spec fun w => ?_) fun _ => ih (by omega)
    refine Triple.of_fact (fun hw => ?_) fun s hs => hs.1
    rw [hw, hz _ (by omega), if_neg (fun h => not_valid_zero h.1),
      if_neg (show ¬ (0 &&& PTE_V ≠ 0) from not_valid_zero)]
    exact Triple.ret fun s hs => hs.2

/-- **`freewalk` of an empty table** gives back its pages and touches nothing else. -/
theorem freewalk_spec (l : ℕ) : ∀ pt m rest, Tree m l pt → Blank m l pt →
    Triple (At L m (nodes m l pt + rest)) (freewalk L (l + 1) pt) fun _ s =>
      ∃ m', At L m' rest s ∧ ∀ pa ∈ rest, m' pa = m pa := by
  induction l with
  | zero =>
    intro pt m rest ht hb
    refine Triple.of_fact (fun hnd => ?_) fun s hs => hs.nodup
    refine Triple.bind (freewalkEntries_blank (fun i hi => hb.entry hi) 512 le_rfl) fun _ => ?_
    refine kfree_spec.post fun _ s hs => ⟨_, hs, fun pa hpa => update_of_ne ?_ _ _⟩
    rintro rfl
    exact (Multiset.nodup_cons.mp hnd).1 hpa
  | succ l ih =>
    intro pt m rest ht hb
    refine Triple.of_fact (fun hnd => ?_) fun s hs => hs.nodup
    have hnpt : pt ∉ rest := by
      rw [nodes, add_assoc] at hnd
      exact fun h => (Multiset.nodup_cons.mp hnd).1 (Multiset.mem_add.mpr (Or.inr h))
    refine Triple.bind ((freewalkEntries_spec rest ht hb ih 512 le_rfl).pre fun s hs => ?_)
      fun _ => ?_
    · refine ⟨m, ?_, fun _ _ _ => rfl, fun _ _ => rfl⟩
      rw [nodes_eq_tailNodes, add_assoc] at hs
      exact hs
    · refine Triple.of_exists_and fun m₁ hpure => ?_
      have htail : tailNodes m l pt 0 = 0 := by
        rw [tailNodes, Nat.sub_zero, Finset.Ico_self, Finset.sum_empty]
      rw [htail, zero_add] at hpure ⊢
      refine kfree_spec.post fun _ s hs => ⟨_, hs, fun pa hpa => ?_⟩
      rw [update_of_ne ?_, hpure.2 pa hpa]
      rintro rfl
      exact hnpt hpa

end Vm

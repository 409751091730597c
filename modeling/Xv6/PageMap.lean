/-
# The operations of a page table on the map it stands for

`Table L pt f rest m` says that the page table at `pt` stands for the map `f` from page
numbers to entries, that its pages and the pages of `rest` are all the pages in use,
and that the pages of `rest` have the contents `m`.  Every function of `kernel/vm.c`
is described by what it does to `f` and `rest`.
-/
import Xv6.PageTable

namespace Vm

open Function Hoare

/-- The page table at `pt` stands for `f`; the other pages in use are those of `rest`. -/
def Table (L : Layout) (pt : ℕ) (f : ℕ → ℕ) (rest : Multiset ℕ) (m₀ : ℕ → Page) (s : Phys) : Prop :=
  ∃ m, At L m (nodes m 2 pt + rest) s ∧ Tree m 2 pt ∧ (∀ pa ∈ rest, m pa = m₀ pa) ∧
    ∀ v < 2 ^ 27, view m 2 pt v = f v

variable {L : Layout} {m₀ : ℕ → Page} {pt va pa : ℕ} {f : ℕ → ℕ} {rest : Multiset ℕ}

theorem MAXVA_eq : MAXVA = 2 ^ 38 := rfl

theorem vpn_lt (hva : va < MAXVA) : va / PGSIZE < 2 ^ 26 := by
  rw [MAXVA_eq] at hva
  rw [PGSIZE_eq]
  omega

variable {m : ℕ → Page} {vpn p i w l a b : ℕ} {doFree : Bool}

/-- Writing an entry at the place that `walk` has found. -/
theorem writePte_table (hvpn : vpn < 2 ^ 27) (hw : w < 2 ^ 64) (hleaf : w = 0 ∨ Leaf w)
    (ht : Tree m 2 pt) (hkeep : ∀ pa ∈ rest, m pa = m₀ pa)
    (hview : ∀ v < 2 ^ 27, view m 2 pt v = f v) (hfind : find m vpn 2 pt = some (p, i)) :
    Triple (At L m (nodes m 2 pt + rest)) (writePte p i w) fun _ s =>
      Table L pt (update f vpn w) rest m₀ s := by
  refine Triple.of_fact (fun hnd => ?_) fun s hs => hs.nodup
  obtain ⟨hndt, -, hdisj⟩ := Multiset.nodup_add.mp hnd
  obtain ⟨htree, hnodes, hview'⟩ := set_leaf hw hleaf 2 pt ht hndt hfind
  refine writePte_spec.post fun _ s hs => ⟨_, ?_, htree, fun pa hpa => ?_, fun v hv => ?_⟩
  · rw [hnodes]
    exact hs
  · rw [update_of_ne ?_, hkeep pa hpa]
    rintro rfl
    exact Multiset.disjoint_left.mp hdisj (find_mem_nodes 2 pt hfind).1 hpa
  · have hpow : (512 : ℕ) ^ (2 + 1) = 2 ^ 27 := by norm_num
    rw [hview' v, hpow, Nat.mod_eq_of_lt hv, Nat.mod_eq_of_lt hvpn]
    by_cases hne : v = vpn
    · rw [if_pos hne, hne, update_self]
    · rw [if_neg hne, update_of_ne hne, hview v hv]

theorem view_of_find (h : find m vpn l pt = some (p, i)) : view m l pt vpn = pteAt (m p) i := by
  rw [view, h]

theorem view_of_not_find (h : find m vpn l pt = none) : view m l pt vpn = 0 := by
  rw [view, h]

/-- **`mappages` of one page** adds one entry to the map, or memory runs out and the
map is as before. -/
theorem mappages_spec {perm : ℕ} (hal : va % PGSIZE = 0) (hva : va < MAXVA)
    (hpa : pa % PGSIZE = 0 ∧ pa < 2 ^ 56) (hperm : perm < 2 ^ 10)
    (hrwx : perm &&& (PTE_R ||| PTE_W ||| PTE_X) ≠ 0) (hfree : f (va / PGSIZE) = 0) :
    Triple (Table L pt f rest m₀) (mappages pt va PGSIZE pa perm) fun r s =>
      r = 0 ∧ Table L pt (update f (va / PGSIZE) (PA2PTE pa ||| perm ||| PTE_V)) rest m₀ s ∨
      r = -1 ∧ Table L pt f rest m₀ s := by
  have hvpn : va / PGSIZE < 2 ^ 27 := lt_trans (vpn_lt hva) (by decide)
  rw [mappages, if_neg (not_not.mpr hal), if_neg (not_not.mpr (Nat.mod_self PGSIZE)),
    if_neg (by decide), Nat.div_self (by decide), mappagesLoop, mappage]
  refine Triple.of_exists_and fun m ⟨ht, hkeep, hview⟩ => ?_
  refine Triple.bind (walk_alloc hva ht) fun o => ?_
  refine Triple.of_exists_and fun m₁ ⟨hgrown, hfind⟩ => ?_
  have hkeep₁ : ∀ pa ∈ rest, m₁ pa = m₀ pa := fun pa hpa =>
    (hgrown.keep pa hpa).trans (hkeep pa hpa)
  have hview₁ : ∀ v < 2 ^ 27, view m₁ 2 pt v = f v := fun v hv =>
    (hgrown.view v).trans (hview v hv)
  cases o with
  | none => exact Triple.ret fun s hs => Or.inr ⟨rfl, m₁, hs, hgrown.tree, hkeep₁, hview₁⟩
  | some place =>
    obtain ⟨p, i⟩ := place
    have hplace := hfind (p, i) rfl
    refine Triple.bind readPte_spec fun w => ?_
    refine Triple.of_fact (fun hw => ?_) fun s hs => hs.1
    rw [← view_of_find hplace, hview₁ _ hvpn, hfree] at hw
    rw [hw, if_neg (show ¬ (0 &&& PTE_V ≠ 0) from not_valid_zero)]
    refine Triple.bind ((writePte_table hvpn (mk_lt hpa.2 hperm) (Or.inr (leaf_mk hperm hrwx))
      hgrown.tree hkeep₁ hview₁ hplace).pre fun s hs => hs.2) fun _ => ?_
    exact Triple.ret fun s hs => Or.inl ⟨rfl, hs⟩

/-! ## Removing mappings -/

/-- The pages that the entries for the page numbers from `a` to `b` refer to. -/
def leaves (f : ℕ → ℕ) (a b : ℕ) : Multiset ℕ := ∑ v ∈ Finset.Ico a b, {PTE2PA (f v)}

/-- The map without the page numbers from `a` to `b`. -/
def clear (f : ℕ → ℕ) (a b : ℕ) : ℕ → ℕ := fun v => if a ≤ v ∧ v < b then 0 else f v

theorem leaves_head (h : a < b) : leaves f a b = {PTE2PA (f a)} + leaves f (a + 1) b :=
  Finset.sum_eq_sum_Ico_succ_bot h _

theorem leaves_one (f : ℕ → ℕ) (a : ℕ) : leaves f a (a + 1) = {PTE2PA (f a)} := by
  rw [leaves, Nat.Ico_succ_singleton, Finset.sum_singleton]

theorem leaves_congr {g : ℕ → ℕ} (h : ∀ v, a ≤ v → v < b → g v = f v) :
    leaves g a b = leaves f a b :=
  Finset.sum_congr rfl fun v hv => by
    rw [Finset.mem_Ico] at hv
    rw [h v hv.1 hv.2]

theorem clear_update (h : a < b) : clear (update f a 0) (a + 1) b = clear f a b := by
  funext v
  unfold clear
  by_cases hva : v = a
  · rw [hva, if_neg (by omega), update_self, if_pos (by omega)]
  · rw [update_of_ne hva]
    by_cases hv : a + 1 ≤ v ∧ v < b
    · rw [if_pos hv, if_pos (by omega)]
    · rw [if_neg hv, if_neg (by omega)]

theorem Leaf.flags_ne (h : Leaf w) : PTE_FLAGS w ≠ PTE_V := by
  intro hf
  have := h.2
  rw [and_flag (by decide), hf] at this
  exact this (by decide)

/-- The pages that `uvmunmap` frees. -/
def freed (doFree : Bool) (f : ℕ → ℕ) (a b : ℕ) : Multiset ℕ :=
  if doFree then leaves f a b else 0

/-- The body of the loop of `uvmunmap` after the checks. -/
theorem unmap_entry (hvpn : vpn < 2 ^ 27) (ht : Tree m 2 pt) (hkeep : ∀ pa ∈ rest, m pa = m₀ pa)
    (hview : ∀ v < 2 ^ 27, view m 2 pt v = f v) (hfind : find m vpn 2 pt = some (p, i)) :
    Triple (At L m (nodes m 2 pt + (freed doFree f vpn (vpn + 1) + rest)))
      (do ifThen doFree (kfree L (PTE2PA (f vpn))); writePte p i 0) fun _ s =>
        Table L pt (update f vpn 0) rest m₀ s := by
  cases doFree with
  | false =>
    refine Triple.bind (Q := fun _ s => At L m (nodes m 2 pt + rest) s) ?_ fun _ => ?_
    · refine Triple.ret fun s hs => ?_
      rw [freed, if_neg (by simp), zero_add] at hs
      exact hs
    · exact writePte_table hvpn (by decide) (Or.inl rfl) ht hkeep hview hfind
  | true =>
    rw [freed, if_pos rfl, leaves_one, add_left_comm, Multiset.singleton_add, ifThen, if_pos rfl]
    refine Triple.of_fact (fun hnd => ?_) fun s hs => hs.nodup
    have hnot := (Multiset.nodup_cons.mp hnd).1
    have hsame : ∀ pa ∈ nodes m 2 pt + rest,
        update m (PTE2PA (f vpn)) (fun _ => 1) pa = m pa := by
      intro pa hpa
      refine update_of_ne ?_ _ _
      rintro rfl
      exact hnot hpa
    have hsamet : ∀ pa ∈ nodes m 2 pt,
        update m (PTE2PA (f vpn)) (fun _ => 1) pa = m pa := fun pa hpa =>
      hsame pa (Multiset.mem_add.mpr (Or.inl hpa))
    obtain ⟨hnodes, htree, hfind'⟩ := tree_congr 2 pt hsamet
    refine Triple.bind kfree_spec fun _ => ?_
    rw [← hnodes]
    refine writePte_table hvpn (by decide) (Or.inl rfl) (htree ht) (fun pa hpa => ?_)
      (fun v hv => ?_) ?_
    · rw [hsame pa (Multiset.mem_add.mpr (Or.inr hpa)), hkeep pa hpa]
    · rw [view_congr hsamet, hview v hv]
    · rw [hfind', hfind]

/-- **`uvmunmap`** of mapped pages: it does not panic, the pages leave the map, and with
`doFree` they go back to the free list. -/
theorem uvmunmapLoop_spec (n : ℕ) : ∀ vpn f, vpn + n ≤ 2 ^ 26 →
    (∀ v, vpn ≤ v → v < vpn + n → Leaf (f v)) →
    Triple (Table L pt f (freed doFree f vpn (vpn + n) + rest) m₀)
      (uvmunmapLoop L pt doFree n (vpn * PGSIZE)) fun _ s =>
        Table L pt (clear f vpn (vpn + n)) rest m₀ s := by
  induction n with
  | zero =>
    intro vpn f _ _
    refine Triple.ret fun s hs => ?_
    have hclear : clear f vpn (vpn + 0) = f := by
      funext v
      rw [clear, if_neg (by omega)]
    have hfreed : freed doFree f vpn (vpn + 0) = 0 := by
      rw [freed, leaves, Nat.add_zero, Finset.Ico_self, Finset.sum_empty, ite_self]
    rw [hfreed, zero_add] at hs
    rw [hclear]
    exact hs
  | succ n ih =>
    intro vpn f hlt hleaf
    have hva : vpn * PGSIZE < MAXVA := by
      rw [MAXVA_eq, PGSIZE_eq]
      omega
    have hdiv : vpn * PGSIZE / PGSIZE = vpn := Nat.mul_div_cancel _ (by decide)
    have hvpn : vpn < 2 ^ 27 := by omega
    have hsplit : freed doFree f vpn (vpn + (n + 1)) + rest
        = freed doFree f vpn (vpn + 1) + (freed doFree f (vpn + 1) (vpn + 1 + n) + rest) := by
      rw [show vpn + (n + 1) = vpn + 1 + n by omega, ← add_assoc]
      unfold freed
      split_ifs
      · rw [leaves_head (by omega), leaves_one]
      · rw [add_zero]
    refine Triple.of_exists_and fun m ⟨ht, hkeep, hview⟩ => ?_
    rw [hsplit] at hkeep ⊢
    refine Triple.bind (walk_find hva) fun o => ?_
    refine Triple.of_fact (fun ho => ?_) fun s hs => hs.1
    rw [hdiv] at ho
    have hl := hleaf vpn le_rfl (by omega)
    rw [← hview vpn hvpn] at hl
    cases o with
    | none =>
      rw [view_of_not_find ho.symm] at hl
      exact absurd hl.1 not_valid_zero
    | some place =>
      obtain ⟨p, i⟩ := place
      refine Triple.bind (readPte_spec.pre fun s hs => hs.2) fun w => ?_
      refine Triple.of_fact (fun hw => ?_) fun s hs => hs.1
      rw [← view_of_find ho.symm] at hw
      rw [hw, if_neg hl.1, if_neg hl.flags_ne, hview vpn hvpn]
      rw [← bind_assoc]
      refine Triple.bind ((unmap_entry hvpn ht
        (fun pa hpa => hkeep pa (Multiset.mem_add.mpr (Or.inr hpa))) hview ho.symm).pre
          fun s hs => hs.2) fun _ => ?_
      have hfreed : freed doFree (update f vpn 0) (vpn + 1) (vpn + 1 + n)
          = freed doFree f (vpn + 1) (vpn + 1 + n) := by
        unfold freed
        rw [leaves_congr fun v hv _ => update_of_ne (by omega) _ _]
      have hrec := ih (vpn + 1) (update f vpn 0) (by omega) fun v h₁ h₂ => by
        rw [update_of_ne (by omega)]
        exact hleaf v (by omega) (by omega)
      rw [hfreed, clear_update (by omega), show vpn + 1 + n = vpn + (n + 1) by omega,
        Nat.add_mul, Nat.one_mul] at hrec
      rw [show vpn + 1 + n = vpn + (n + 1) by omega]
      exact hrec

theorem uvmunmap_spec {n : ℕ} (hlt : vpn + n ≤ 2 ^ 26)
    (hleaf : ∀ v, vpn ≤ v → v < vpn + n → Leaf (f v)) :
    Triple (Table L pt f (freed doFree f vpn (vpn + n) + rest) m₀)
      (uvmunmap L pt (vpn * PGSIZE) n doFree) fun _ s =>
        Table L pt (clear f vpn (vpn + n)) rest m₀ s := by
  rw [uvmunmap, if_neg (not_not.mpr (Nat.mul_mod_left vpn PGSIZE))]
  exact uvmunmapLoop_spec n vpn f hlt hleaf

/-! ## Making and freeing tables -/

/-- The pages of `held` are in use, with contents `m₀`. -/
def Held (L : Layout) (held : Multiset ℕ) (m₀ : ℕ → Page) (s : Phys) : Prop :=
  ∃ m, At L m held s ∧ ∀ pa ∈ held, m pa = m₀ pa

theorem uvmcreate_spec : Triple (Held L rest m₀) uvmcreate fun o s =>
    match o with
    | none => Held L rest m₀ s
    | some pt => Table L pt (fun _ => 0) rest m₀ s := by
  refine Triple.of_exists_and fun m hkeep => ?_
  refine Triple.bind kalloc_spec fun o => ?_
  cases o with
  | none => exact Triple.ret fun s hs => ⟨m, hs, hkeep⟩
  | some pt =>
    refine Triple.of_and fun hfresh => ?_
    refine Triple.bind memsetPage_spec fun _ => ?_
    rw [update_idem]
    obtain ⟨hnodes, htree, hview⟩ :=
      empty_tree (l := 2) (update_self pt (fun _ => (0 : UInt8)) m)
    refine Triple.ret fun s hs => ⟨_, ?_, htree, fun pa hpa => ?_, fun v _ => hview v⟩
    · rw [hnodes]
      exact hs
    · rw [update_of_ne ?_, hkeep pa hpa]
      rintro rfl
      exact hfresh hpa

/-- **`freewalk`** of a table without entries gives back its pages. -/
theorem freewalk_table (hf : ∀ v < 2 ^ 27, f v = 0) :
    Triple (Table L pt f rest m₀) (freewalk L 3 pt) fun _ s => Held L rest m₀ s := by
  refine Triple.of_exists_and fun m ⟨ht, hkeep, hview⟩ => ?_
  have hblank : Blank m 2 pt := by
    intro vpn
    have hlt : vpn % 2 ^ 27 < 2 ^ 27 := Nat.mod_lt _ (by decide)
    have hfind : find m (vpn % 2 ^ 27) 2 pt = find m vpn 2 pt :=
      find_mod 2 pt (Nat.mod_mod vpn (2 ^ 27))
    have hzero := (hview _ hlt).trans (hf _ hlt)
    rwa [view, hfind] at hzero
  refine (freewalk_spec 2 pt m rest ht hblank).post fun _ s hs => ?_
  obtain ⟨m', hat, hsame⟩ := hs
  exact ⟨m', hat, fun pa hpa => (hsame pa hpa).trans (hkeep pa hpa)⟩

/-! ## uvmclear -/

/-- The entry without `PTE_U`. -/
def noUser (w : ℕ) : ℕ := w &&& (0xFFFFFFFFFFFFFFFF ^^^ PTE_U)

theorem noUser_and (hb : (0xFFFFFFFFFFFFFFFF ^^^ PTE_U) &&& b = b) : noUser w &&& b = w &&& b := by
  rw [noUser, Nat.and_assoc, hb]

theorem Leaf.noUser (h : Leaf w) : Leaf (noUser w) := by
  constructor
  · rw [Valid, noUser_and (by decide)]
    exact h.1
  · rw [noUser_and (by decide)]
    exact h.2

theorem PTE2PA_noUser (hw : w < 2 ^ 64) : PTE2PA (noUser w) = PTE2PA w := by
  rw [PTE2PA, PTE2PA, noUser, Nat.shiftRight_and_distrib,
    show (0xFFFFFFFFFFFFFFFF ^^^ PTE_U) >>> 10 = 2 ^ 54 - 1 by decide,
    Nat.and_two_pow_sub_one_eq_mod, Nat.mod_eq_of_lt]
  rw [Nat.shiftRight_eq_div_pow]
  omega

theorem noUser_lt (w : ℕ) : noUser w < 2 ^ 64 :=
  lt_of_le_of_lt Nat.and_le_right (by decide)

theorem uvmclear_spec (hva : va < MAXVA) (hleaf : Leaf (f (va / PGSIZE))) :
    Triple (Table L pt f rest m₀) (uvmclear pt va) fun _ s =>
      Table L pt (update f (va / PGSIZE) (noUser (f (va / PGSIZE)))) rest m₀ s := by
  have hvpn : va / PGSIZE < 2 ^ 27 := lt_trans (vpn_lt hva) (by decide)
  refine Triple.of_exists_and fun m ⟨ht, hkeep, hview⟩ => ?_
  refine Triple.bind (walk_find hva) fun o => ?_
  refine Triple.of_and fun ho => ?_
  cases o with
  | none =>
    rw [← hview _ hvpn, view_of_not_find ho.symm] at hleaf
    exact absurd hleaf.1 not_valid_zero
  | some place =>
    obtain ⟨p, i⟩ := place
    refine Triple.bind readPte_spec fun w => ?_
    refine Triple.of_fact (fun hw => ?_) fun s hs => hs.1
    rw [← view_of_find ho.symm, hview _ hvpn] at hw
    rw [hw]
    exact (writePte_table hvpn (noUser_lt _) (Or.inr hleaf.noUser) ht hkeep hview ho.symm).pre
      fun s hs => hs.2

end Vm

/-
# Page tables implement a finite map

The abstract side is a partial map from page numbers to physical addresses and flags.
The concrete side is a page table made by `uvmcreate` and changed by `mappages`,
`uvmunmap` and `uvmclear`, in any order and with `kalloc` failing at any call; the rest
of the kernel takes pages from the same allocator and writes to its own pages.  In every
state of every run `walk` and `walkaddr` give what the map says
(`pagetable_refines_map`).
-/
import Xv6.PageMap
import Xv6.Transition

namespace Vm

open Function Hoare Transition

/-! ## The abstract map -/

/-- Physical address and flags of the pages that are mapped. -/
abbrev Mapping := ℕ → Option (ℕ × ℕ)

/-- The flags without `PTE_U`. -/
def flagsNoUser (flags : ℕ) : ℕ := flags &&& (0x3FF ^^^ PTE_U)

def Mapping.insert (M : Mapping) (v pa flags : ℕ) : Mapping :=
  update M v (some (pa, flags))

/-- Remove `n` pages from `v` on. -/
def Mapping.remove (M : Mapping) (v n : ℕ) : Mapping :=
  fun w => if v ≤ w ∧ w < v + n then none else M w

def Mapping.clearUser (M : Mapping) (v : ℕ) : Mapping :=
  update M v ((M v).map fun e => (e.1, flagsNoUser e.2))

/-! ## The machine -/

/-- A page table with the map it should implement; `held` are the pages of the rest of
the kernel. -/
structure TableState where
  phys : Phys
  pagetable : Option ℕ
  held : Multiset ℕ
  map : Mapping
  panicked : Bool

inductive TableAct where
  | create (deny : List Bool)
  | map (va pa perm : ℕ) (deny : List Bool)
  | unmap (va npages : ℕ) (doFree : Bool)
  | clear (va : ℕ)
  | take (deny : List Bool)
  | store (pa : ℕ) (page : Page)

/-- The pages that `unmap` would free. -/
def Mapping.targets (M : Mapping) (v n : ℕ) : Multiset ℕ :=
  ∑ w ∈ Finset.Ico v (v + n), {((M w).getD (0, 0)).1}

/-- What the callers of `mappages` guarantee: a page that is not mapped yet, an aligned
physical address, and at least one permission. -/
def MapOk (M : Mapping) (va pa perm : ℕ) : Prop :=
  va % PGSIZE = 0 ∧ va < MAXVA ∧ M (va / PGSIZE) = none ∧ pa % PGSIZE = 0 ∧ pa < 2 ^ 56 ∧
    perm < 2 ^ 10 ∧ perm &&& (PTE_R ||| PTE_W ||| PTE_X) ≠ 0

/-- What the callers of `uvmunmap` guarantee: mapped pages, and with `doFree` pages that
are theirs to free. -/
def UnmapOk (M : Mapping) (held : Multiset ℕ) (va npages : ℕ) (doFree : Bool) : Prop :=
  va % PGSIZE = 0 ∧ va / PGSIZE + npages ≤ MAXVA / PGSIZE ∧
    (∀ v ∈ Finset.Ico (va / PGSIZE) (va / PGSIZE + npages), (M v).isSome) ∧
    (doFree = true → M.targets (va / PGSIZE) npages ≤ held)

instance (M : Mapping) (va pa perm : ℕ) : Decidable (MapOk M va pa perm) :=
  inferInstanceAs (Decidable (_ ∧ _ ∧ _ ∧ _ ∧ _ ∧ _ ∧ _))

instance (M : Mapping) (held : Multiset ℕ) (va npages : ℕ) (doFree : Bool) :
    Decidable (UnmapOk M held va npages doFree) :=
  inferInstanceAs (Decidable (_ ∧ _ ∧ _ ∧ _))

def tableStep (L : Layout) (s : TableState) : TableAct → Option TableState
  | .create deny =>
    if s.panicked ∨ s.pagetable.isSome then none
    else match uvmcreate { s.phys with deny } with
      | .ok (pagetable, phys) => some { s with phys, pagetable, map := fun _ => none }
      | .error _ => some { s with panicked := true }
  | .map va pa perm deny =>
    match s.pagetable with
    | none => none
    | some pt =>
      if s.panicked ∨ ¬ MapOk s.map va pa perm then none
      else match mappages pt va PGSIZE pa perm { s.phys with deny } with
        | .ok (r, phys) =>
          if r = 0 then some { s with phys, map := s.map.insert (va / PGSIZE) pa (perm ||| PTE_V) }
          else some { s with phys }
        | .error _ => some { s with panicked := true }
  | .unmap va npages doFree =>
    match s.pagetable with
    | none => none
    | some pt =>
      if s.panicked ∨ ¬ UnmapOk s.map s.held va npages doFree then none
      else match uvmunmap L pt va npages doFree s.phys with
        | .ok (_, phys) => some { s with
            phys, map := s.map.remove (va / PGSIZE) npages
            held := if doFree then s.held - s.map.targets (va / PGSIZE) npages else s.held }
        | .error _ => some { s with panicked := true }
  | .clear va =>
    match s.pagetable with
    | none => none
    | some pt =>
      if s.panicked ∨ MAXVA ≤ va then none
      else match uvmclear pt va s.phys with
        | .ok (_, phys) => some { s with phys, map := s.map.clearUser (va / PGSIZE) }
        | .error _ => some { s with panicked := true }
  | .take deny =>
    if s.panicked then none
    else match kalloc { s.phys with deny } with
      | .ok (some pa, phys) => some { s with phys, held := pa ::ₘ s.held }
      | .ok (none, phys) => some { s with phys }
      | .error _ => some { s with panicked := true }
  | .store pa page =>
    if s.panicked ∨ pa ∉ s.held then none
    else some { s with phys := { s.phys with mem := update s.phys.mem pa page } }

/-- All pages are free, in the order in which `kinit` leaves them, with any contents. -/
def tableStart (L : Layout) (mem : ℕ → Page) : TableState where
  phys := ⟨mem, ((List.range ((PHYSTOP - PGROUNDUP L.end_) / PGSIZE)).map
    fun i => PGROUNDUP L.end_ + i * PGSIZE).reverse, [], false⟩
  pagetable := none
  held := 0
  map := fun _ => none
  panicked := false

/-! ## The abstraction relation -/

/-- The entry stands for what the map says. -/
def Encodes (w : ℕ) : Option (ℕ × ℕ) → Prop
  | none => w = 0
  | some (pa, flags) => Leaf w ∧ w < 2 ^ 64 ∧ PTE2PA w = pa ∧ PTE_FLAGS w = flags

/-- The entries of a table stand for the map. -/
def Agrees (f : ℕ → ℕ) (M : Mapping) : Prop := ∀ v < 2 ^ 26, Encodes (f v) (M v)

variable {L : Layout} {m₀ : ℕ → Page} {pt va pa : ℕ} {f : ℕ → ℕ} {rest : Multiset ℕ}
variable {M : Mapping}

variable {v perm : ℕ} {o : Option (ℕ × ℕ)} {m : ℕ → Page} {a : TableAct}

theorem Agrees.insert (h : Agrees f M) (hal : pa % PGSIZE = 0) (hpa : pa < 2 ^ 56)
    (hperm : perm < 2 ^ 10) (hrwx : perm &&& (PTE_R ||| PTE_W ||| PTE_X) ≠ 0) :
    Agrees (update f v (PA2PTE pa ||| perm ||| PTE_V)) (M.insert v pa (perm ||| PTE_V)) := by
  intro w hw
  rw [Mapping.insert]
  by_cases hwv : w = v
  · rw [hwv, update_self, update_self]
    exact ⟨leaf_mk hperm hrwx, mk_lt hpa hperm, PTE2PA_mk hal hperm, PTE_FLAGS_mk hperm⟩
  · rw [update_of_ne hwv, update_of_ne hwv]
    exact h w hw

theorem Agrees.remove (h : Agrees f M) (v n : ℕ) : Agrees (clear f v (v + n)) (M.remove v n) := by
  intro w hw
  rw [clear, Mapping.remove]
  split
  · rfl
  · exact h w hw

theorem PTE_FLAGS_noUser (w : ℕ) : PTE_FLAGS (noUser w) = flagsNoUser (PTE_FLAGS w) := by
  rw [PTE_FLAGS, PTE_FLAGS, flagsNoUser, noUser, Nat.and_assoc, Nat.and_assoc]
  rfl

theorem Encodes.noUser {w : ℕ} (h : Encodes w o) :
    Encodes (noUser w) (o.map fun e => (e.1, flagsNoUser e.2)) := by
  cases o with
  | none =>
    rw [show w = 0 from h]
    rfl
  | some e =>
    obtain ⟨hleaf, hlt, hpa, hflags⟩ := h
    exact ⟨hleaf.noUser, noUser_lt w, (PTE2PA_noUser hlt).trans hpa,
      (PTE_FLAGS_noUser w).trans (congrArg flagsNoUser hflags)⟩

theorem Agrees.clearUser (h : Agrees f M) (hv : v < 2 ^ 26) :
    Agrees (update f v (noUser (f v))) (M.clearUser v) := by
  intro w hw
  rw [Mapping.clearUser]
  by_cases hwv : w = v
  · rw [hwv, update_self, update_self]
    exact (h v hv).noUser
  · rw [update_of_ne hwv, update_of_ne hwv]
    exact h w hw

/-! ## One step -/

theorem Table.deny {s : Phys} (h : Table L pt f rest m₀ s) (deny : List Bool) :
    Table L pt f rest m₀ { s with deny } := by
  obtain ⟨m, hat, htree⟩ := h
  exact ⟨m, hat.deny deny, htree⟩

/-- The other pages may change in any way. -/
theorem Table.of_others {m' : ℕ → Page} {rest' : Multiset ℕ} {s : Phys} (ht : Tree m 2 pt)
    (hview : ∀ v < 2 ^ 27, view m 2 pt v = f v) (hm : ∀ pa ∈ nodes m 2 pt, m' pa = m pa)
    (hat : At L m' (nodes m 2 pt + rest') s) : Table L pt f rest' m' s := by
  obtain ⟨hnodes, htree, -⟩ := tree_congr 2 pt hm
  refine ⟨m', ?_, htree ht, fun pa _ => rfl, fun v hv => ?_⟩
  · rwa [hnodes]
  · rw [view_congr hm, hview v hv]

/-- The rest of the kernel gets a page. -/
theorem kalloc_table : Triple (Table L pt f rest m₀) kalloc fun o s =>
    match o with
    | none => Table L pt f rest m₀ s
    | some pa => ∃ m₁, Table L pt f (pa ::ₘ rest) m₁ s := by
  refine Triple.of_exists_and fun m ⟨ht, hkeep, hview⟩ => ?_
  refine kalloc_spec.post fun o s hs => ?_
  cases o with
  | none => exact ⟨m, hs, ht, hkeep, hview⟩
  | some pa =>
    obtain ⟨hnew, hat⟩ := hs
    rw [← Multiset.add_cons] at hat
    refine ⟨_, Table.of_others ht hview (fun q hq => update_of_ne ?_ _ _) hat⟩
    rintro rfl
    exact hnew (Multiset.mem_add.mpr (Or.inl hq))

/-- The rest of the kernel writes to a page of its own. -/
theorem store_table {s : Phys} {page : Page} (h : Table L pt f rest m₀ s) (hpa : pa ∈ rest) :
    ∃ m₁, Table L pt f rest m₁ { s with mem := update s.mem pa page } := by
  obtain ⟨m, ⟨rfl, hown⟩, ht, -, hview⟩ := h
  refine ⟨_, Table.of_others ht hview (fun q hq => update_of_ne ?_ _ _)
    ⟨rfl, hown.pages, hown.once⟩⟩
  rintro rfl
  have hdisj := (Multiset.nodup_add.mp hown.nodup_held).2.2
  exact Multiset.disjoint_left.mp hdisj hq hpa

/-- `uvmclear` of a page that is not mapped changes nothing, if it returns. -/
theorem uvmclear_unmapped (hva : va < MAXVA) (hzero : f (va / PGSIZE) = 0) :
    Partial (Table L pt f rest m₀) (uvmclear pt va) fun _ s => Table L pt f rest m₀ s := by
  have hvpn : va / PGSIZE < 2 ^ 27 := lt_trans (vpn_lt hva) (by decide)
  rintro s a u ⟨m, ⟨rfl, hown⟩, ht, hkeep, hview⟩ hrun
  have hrun' : (walk pt va false s).bind (fun x => _) = Except.ok (a, u) := hrun
  rw [walk_run hva] at hrun'
  cases hfind : find s.mem (va / PGSIZE) 2 pt with
  | none =>
    rw [hfind] at hrun'
    cases hrun'
  | some place =>
    obtain ⟨p, i⟩ := place
    rw [hfind] at hrun'
    have hw : pteAt (s.mem p) i = 0 := by
      rw [← view_of_find hfind, hview _ hvpn, hzero]
    have hwrite := (writePte_table hvpn (by decide) (Or.inl rfl) ht hkeep hview hfind).weaken s a u
      ⟨rfl, hown⟩ (by
        rw [← hrun']
        show writePte p i 0 s = writePte p i (noUser (pteAt (s.mem p) i)) s
        rw [hw]
        rfl)
    rwa [show update f (va / PGSIZE) 0 = f by rw [← hzero, update_eq_self]]
      at hwrite

/-- The pages whose entry an action may change. -/
def TableAct.touches : TableAct → ℕ → Prop
  | .map va _ _ _, v => v = va / PGSIZE
  | .unmap va npages _, v => va / PGSIZE ≤ v ∧ v < va / PGSIZE + npages
  | .clear va, v => v = va / PGSIZE
  | _, _ => False

/-- The table stands for the map, and its entries are `f`. -/
def Implements (L : Layout) (s : TableState) (pt : ℕ) (f : ℕ → ℕ) : Prop :=
  s.pagetable = some pt ∧ (∃ m₀, Table L pt f s.held m₀ s.phys) ∧ Agrees f s.map

def TableInv (L : Layout) (s : TableState) : Prop :=
  s.pagetable = none ∧ (∃ m, At L m s.held s.phys) ∨ ∃ pt f, Implements L s pt f

/-- What a step does to a table: the entries of the other pages stay, and it panics only
when `uvmclear` is called for a page that is not mapped. -/
def Kept (L : Layout) (s : TableState) (a : TableAct) (pt : ℕ) (f : ℕ → ℕ) (u : TableState) : Prop :=
  (∃ g, Implements L u pt g ∧ ∀ v < 2 ^ 26, ¬ a.touches v → g v = f v) ∧
    (u.panicked = true → s.panicked = true ∨ ∃ va, a = .clear va ∧ s.map (va / PGSIZE) = none)

variable {s u : TableState}

theorem map_step {deny : List Bool} (h : Implements L s pt f)
    (hstep : tableStep L s (.map va pa perm deny) = some u) :
    Kept L s (.map va pa perm deny) pt f u := by
  obtain ⟨hpt, ⟨m₀, htable⟩, hagree⟩ := h
  simp only [tableStep, hpt] at hstep
  split_ifs at hstep with hc
  rw [not_or, not_not] at hc
  obtain ⟨hal, hva, hnone, hpal, hpa, hperm, hrwx⟩ := hc.2
  have hzero : f (va / PGSIZE) = 0 := by
    have := hagree _ (vpn_lt hva)
    rwa [hnone] at this
  obtain ⟨r, phys, hrun, hpost⟩ :=
    mappages_spec hal hva ⟨hpal, hpa⟩ hperm hrwx hzero _ (htable.deny deny)
  rw [hrun] at hstep
  rcases hpost with ⟨rfl, hnew⟩ | ⟨rfl, hold⟩
  · cases hstep
    refine ⟨⟨_, ⟨rfl, ⟨m₀, hnew⟩, hagree.insert hpal hpa hperm hrwx⟩, fun v _ hv => ?_⟩, Or.inl⟩
    exact update_of_ne hv _ _
  · cases hstep
    exact ⟨⟨f, ⟨rfl, ⟨m₀, hold⟩, hagree⟩, fun v _ _ => rfl⟩, Or.inl⟩

theorem targets_eq {n : ℕ} (h : Agrees f M) (hlt : v + n ≤ 2 ^ 26)
    (hsome : ∀ w ∈ Finset.Ico v (v + n), (M w).isSome) : M.targets v n = leaves f v (v + n) := by
  refine Finset.sum_congr rfl fun w hw => ?_
  obtain ⟨e, he⟩ := Option.isSome_iff_exists.mp (hsome w hw)
  have henc := h w (by rw [Finset.mem_Ico] at hw; omega)
  rw [he] at henc ⊢
  rw [henc.2.2.1]
  rfl

theorem unmap_step {npages : ℕ} {doFree : Bool} (h : Implements L s pt f)
    (hstep : tableStep L s (.unmap va npages doFree) = some u) :
    Kept L s (.unmap va npages doFree) pt f u := by
  obtain ⟨hpt, ⟨m₀, htable⟩, hagree⟩ := h
  simp only [tableStep, hpt] at hstep
  by_cases hc : s.panicked = true ∨ ¬ UnmapOk s.map s.held va npages doFree
  · rw [if_pos hc] at hstep
    cases hstep
  rw [if_neg hc] at hstep
  rw [not_or, not_not] at hc
  obtain ⟨hal, hle, hsome, hheld⟩ := hc.2
  have hle' : va / PGSIZE + npages ≤ 2 ^ 26 := hle
  have hva : va = va / PGSIZE * PGSIZE := (Nat.div_mul_cancel (Nat.dvd_of_mod_eq_zero hal)).symm
  have hleaf : ∀ v, va / PGSIZE ≤ v → v < va / PGSIZE + npages → Leaf (f v) := by
    intro v hlo hhi
    obtain ⟨e, he⟩ := Option.isSome_iff_exists.mp (hsome v (Finset.mem_Ico.mpr ⟨hlo, hhi⟩))
    have henc := hagree v (by omega)
    rw [he] at henc
    exact henc.1
  -- the pages to be freed are apart from those that stay with the caller
  have hsplit : s.held = freed doFree f (va / PGSIZE) (va / PGSIZE + npages) +
      (if doFree then s.held - s.map.targets (va / PGSIZE) npages else s.held) := by
    cases doFree with
    | false => exact (zero_add _).symm
    | true =>
      rw [freed, if_pos rfl, if_pos rfl, ← targets_eq hagree hle' hsome]
      exact (add_tsub_cancel_of_le (hheld rfl)).symm
  rw [hsplit] at htable
  obtain ⟨r, phys, hrun, hpost⟩ := uvmunmap_spec hle' hleaf _ htable
  rw [← hva] at hrun
  rw [hrun] at hstep
  cases hstep
  refine ⟨⟨_, ⟨rfl, ⟨m₀, hpost⟩, hagree.remove _ _⟩, fun v _ hv => ?_⟩, Or.inl⟩
  exact if_neg hv

theorem clear_step (h : Implements L s pt f) (hstep : tableStep L s (.clear va) = some u) :
    Kept L s (.clear va) pt f u := by
  obtain ⟨hpt, ⟨m₀, htable⟩, hagree⟩ := h
  simp only [tableStep, hpt] at hstep
  split_ifs at hstep with hc
  have hva : va < MAXVA := by omega
  have henc := hagree _ (vpn_lt hva)
  have hclear := hagree.clearUser (vpn_lt hva)
  have hkeep : ∀ v < 2 ^ 26, ¬ (TableAct.clear va).touches v →
      update f (va / PGSIZE) (noUser (f (va / PGSIZE))) v = f v :=
    fun v _ hv => update_of_ne hv _ _
  cases hmap : s.map (va / PGSIZE) with
  | some e =>
    rw [hmap] at henc
    obtain ⟨r, phys, hrun, hpost⟩ := uvmclear_spec hva henc.1 _ htable
    rw [hrun] at hstep
    cases hstep
    exact ⟨⟨_, ⟨rfl, ⟨m₀, hpost⟩, hclear⟩, hkeep⟩, Or.inl⟩
  | none =>
    rw [hmap] at henc
    cases hrun : uvmclear pt va s.phys with
    | error e =>
      rw [hrun] at hstep
      cases hstep
      exact ⟨⟨f, ⟨rfl, ⟨m₀, htable⟩, hagree⟩, fun v _ _ => rfl⟩, fun _ => Or.inr ⟨va, rfl, hmap⟩⟩
    | ok x =>
      rw [hrun] at hstep
      cases hstep
      have hpost := uvmclear_unmapped hva henc _ _ _ htable hrun
      refine ⟨⟨_, ⟨rfl, ⟨m₀, ?_⟩, hclear⟩, hkeep⟩, Or.inl⟩
      rw [show noUser (f (va / PGSIZE)) = f (va / PGSIZE) by rw [show f _ = 0 from henc]; rfl,
        update_eq_self]
      exact hpost

theorem take_step {deny : List Bool} (h : Implements L s pt f)
    (hstep : tableStep L s (.take deny) = some u) : Kept L s (.take deny) pt f u := by
  obtain ⟨hpt, ⟨m₀, htable⟩, hagree⟩ := h
  obtain ⟨o, phys, hrun, hpost⟩ := kalloc_table _ (htable.deny deny)
  simp only [tableStep, hrun] at hstep
  split_ifs at hstep with hc
  cases o with
  | none =>
    cases hstep
    exact ⟨⟨f, ⟨hpt, ⟨m₀, hpost⟩, hagree⟩, fun v _ _ => rfl⟩, Or.inl⟩
  | some pa =>
    cases hstep
    exact ⟨⟨f, ⟨hpt, hpost, hagree⟩, fun v _ _ => rfl⟩, Or.inl⟩

/-- **One step** keeps the table and the map together. -/
theorem implements_step (h : Implements L s pt f)
    (hstep : tableStep L s a = some u) : Kept L s a pt f u := by
  cases a with
  | map va pa perm deny => exact map_step h hstep
  | unmap va npages doFree => exact unmap_step h hstep
  | clear va => exact clear_step h hstep
  | take deny => exact take_step h hstep
  | create deny =>
    -- there is a table already
    rw [tableStep, if_pos (Or.inr (by rw [h.1]; rfl))] at hstep
    cases hstep
  | store pa page =>
    obtain ⟨hpt, ⟨m₀, htable⟩, hagree⟩ := h
    rw [tableStep] at hstep
    split_ifs at hstep with hc
    cases hstep
    rw [not_or, not_not] at hc
    exact ⟨⟨f, ⟨hpt, store_table htable hc.2, hagree⟩, fun v _ _ => rfl⟩, Or.inl⟩

/-- A step before the table is made. -/
theorem tableInv_create (hpt : s.pagetable = none) (hat : At L m s.held s.phys)
    (hstep : tableStep L s a = some u) :
    TableInv L u ∧ (u.panicked = true → s.panicked = true) := by
  cases a with
  | create deny =>
    obtain ⟨o, phys, hrun, hpost⟩ := uvmcreate_spec _ ⟨m, hat.deny deny, fun _ _ => rfl⟩
    simp only [tableStep, hrun] at hstep
    split_ifs at hstep with hc
    cases hstep
    refine ⟨?_, id⟩
    cases o with
    | none =>
      obtain ⟨m', hat', -⟩ := hpost
      exact Or.inl ⟨rfl, m', hat'⟩
    | some pt => exact Or.inr ⟨pt, _, rfl, ⟨m, hpost⟩, fun v _ => rfl⟩
  | take deny =>
    obtain ⟨o, phys, hrun, hpost⟩ := kalloc_spec _ (hat.deny deny)
    simp only [tableStep, hrun] at hstep
    split_ifs at hstep with hc
    cases o with
    | none =>
      cases hstep
      exact ⟨Or.inl ⟨hpt, m, hpost⟩, id⟩
    | some pa =>
      cases hstep
      exact ⟨Or.inl ⟨hpt, _, hpost.2⟩, id⟩
  | store pa page =>
    rw [tableStep] at hstep
    split_ifs at hstep with hc
    cases hstep
    exact ⟨Or.inl ⟨hpt, _, rfl, hat.2.pages, hat.2.once⟩, id⟩
  | map va pa perm deny =>
    simp only [tableStep, hpt] at hstep
    cases hstep
  | unmap va npages doFree =>
    simp only [tableStep, hpt] at hstep
    cases hstep
  | clear va =>
    simp only [tableStep, hpt] at hstep
    cases hstep

theorem tableInv_step (a : TableAct) (h : TableInv L s) (hstep : tableStep L s a = some u) :
    TableInv L u := by
  rcases h with ⟨hpt, m, hat⟩ | ⟨pt, f, himp⟩
  · exact (tableInv_create hpt hat hstep).1
  · obtain ⟨⟨g, hg, -⟩, -⟩ := implements_step himp hstep
    exact Or.inr ⟨pt, g, hg⟩

theorem tableInv_start (L : Layout) (mem : ℕ → Page) : TableInv L (tableStart L mem) := by
  refine Or.inl ⟨rfl, mem, rfl, ?_, rfl⟩
  rw [tableStart, add_zero, Multiset.coe_reverse, ← Multiset.map_coe]
  rfl

/-! ## The refinement -/

/-- The entry that `walk` finds, 0 if there is no place for one. -/
def entry (pagetable va : ℕ) (s : Phys) : ℕ :=
  match walk pagetable va false s with
  | .ok (some (pt, i), t) => pteAt (t.mem pt) i
  | _ => 0

/-- What `walkaddr` should give. -/
def address : Option (ℕ × ℕ) → ℕ
  | none => 0
  | some (pa, flags) => if flags &&& PTE_U = 0 then 0 else pa

theorem entry_eq {s : Phys} (hva : va < MAXVA) : entry pt va s = view s.mem 2 pt (va / PGSIZE) := by
  rw [entry, walk_run hva, view]
  cases find s.mem (va / PGSIZE) 2 pt <;> rfl

theorem walkaddr_run {s : Phys} (hva : va < MAXVA)
    (h : Encodes (view s.mem 2 pt (va / PGSIZE)) o) : walkaddr pt va s = .ok (address o, s) := by
  rw [walkaddr, if_neg (by omega)]
  show (walk pt va false s).bind (fun x => _) = _
  rw [walk_run hva]
  cases hfind : find s.mem (va / PGSIZE) 2 pt with
  | none =>
    rw [view_of_not_find hfind] at h
    cases o with
    | none => rfl
    | some e => exact absurd h.1.1 not_valid_zero
  | some place =>
    obtain ⟨p, i⟩ := place
    rw [view_of_find hfind] at h
    show (if pteAt (s.mem p) i &&& PTE_V = 0 then _ else _ : Kernel ℕ) s = _
    cases o with
    | none =>
      rw [show pteAt (s.mem p) i = 0 from h]
      rfl
    | some e =>
      obtain ⟨hleaf, -, hpa, hflags⟩ := h
      rw [if_neg hleaf.1, and_flag (show PTE_U < 2 ^ 10 by decide), hflags, hpa, address]
      split_ifs <;> rfl

/-- The page table of the state implements its map. -/
structure Refines (L : Layout) (s : TableState) (pt : ℕ) : Prop where
  walk : ∀ va < MAXVA, ∃ o, Vm.walk pt va false s.phys = .ok (o, s.phys)
  entry : ∀ va < MAXVA, Encodes (entry pt va s.phys) (s.map (va / PGSIZE))
  walkaddr : ∀ va < MAXVA, walkaddr pt va s.phys = .ok (address (s.map (va / PGSIZE)), s.phys)
  others : ∀ a u, tableStep L s a = some u → u.pagetable = some pt ∧
    ∀ va < MAXVA, ¬ a.touches (va / PGSIZE) → Vm.entry pt va u.phys = Vm.entry pt va s.phys
  panics : ∀ a u, tableStep L s a = some u → u.panicked = true → s.panicked = true ∨
    ∃ va, a = .clear va ∧ s.map (va / PGSIZE) = none

theorem Implements.view (h : Implements L s pt f) (hva : va < MAXVA) :
    view s.phys.mem 2 pt (va / PGSIZE) = f (va / PGSIZE) := by
  obtain ⟨-, ⟨m₀, m, ⟨rfl, -⟩, -, -, hview⟩, -⟩ := h
  exact hview _ (lt_trans (vpn_lt hva) (by decide))

theorem Implements.refines (h : Implements L s pt f) : Refines L s pt where
  walk va hva := ⟨_, walk_run hva⟩
  entry va hva := by
    rw [entry_eq hva, h.view hva]
    exact h.2.2 _ (vpn_lt hva)
  walkaddr va hva := by
    refine walkaddr_run hva ?_
    rw [h.view hva]
    exact h.2.2 _ (vpn_lt hva)
  others a u hstep := by
    obtain ⟨⟨g, hg, hkeep⟩, -⟩ := implements_step h hstep
    refine ⟨hg.1, fun va hva hv => ?_⟩
    rw [entry_eq hva, entry_eq hva, hg.view hva, h.view hva]
    exact hkeep _ (vpn_lt hva) hv
  panics a u hstep := (implements_step h hstep).2

/-- **Page tables implement a finite map.**  In every state of every run `walk` and
`walkaddr` at every address give the physical address and the flags of the map, and
change nothing; every operation leaves the entries of the other pages as they are. -/
theorem pagetable_refines_map (L : Layout) (mem : ℕ → Page) (acts : List TableAct) :
    Always (tableStep L) (fun s => ∀ pt, s.pagetable = some pt → Refines L s pt)
      (tableStart L mem) acts := by
  refine always_of_step (fun s a u hs => tableInv_step a hs) (fun s hs pt hpt => ?_) acts _
    (tableInv_start L mem)
  rcases hs with ⟨hnone, -⟩ | ⟨pt', f, himp⟩
  · rw [hnone] at hpt
    cases hpt
  · have : pt' = pt := Option.some.inj (himp.1.symm.trans hpt)
    exact this ▸ himp.refines

/-- Two pages are mapped, the first loses `PTE_U` and the second is unmapped. -/
example : ((run (tableStep smallLayout) (tableStart smallLayout fun _ _ => 0)
    [.create [], .map 0x3000 0x7000 (PTE_R ||| PTE_U) [], .map 0x4000 0x9000 PTE_R [],
      .clear 0x3000, .unmap 0x4000 1 false]).map fun s =>
    (s.panicked, [0x3000, 0x3fff, 0x4000].map fun va => entry (s.pagetable.getD 0) va s.phys))
    = some (false, [0x1c03, 0x1c03, 0]) := by
  decide +kernel

end Vm

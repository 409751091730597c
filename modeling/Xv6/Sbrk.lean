/-
# What sbrk reports

`growproc` adds a signed 32-bit number to an unsigned 64-bit size.  As long as the sum is
not negative the call does what it reports: the new size is the sum, the pages that come
in are zeros, those that stay are as they were, and a call that fails leaves the process
as it was, whenever `kalloc` fails (`growproc_exact`).  If the sum is negative it wraps
around to a number above the old size, `uvmdealloc` refuses to grow, and the call reports
success with the size unchanged: `sbrk_reported_iff` says that this is the only case.
-/
import Xv6.Isolation

namespace Calls

open Vm Hoare Transition
open Proc (NPROC CInt)

variable {L : Layout} {t : Tab} {p : Fin NPROC} {A B : AS} {m : ℕ → Page} {s : Phys}
variable {rest : Multiset ℕ} {im : Image} {n : ℤ} {r v : ℕ}

/-! ## What a page table maps -/

/-- What a page number is mapped to: its entry and the contents of the page. -/
def mapping (mem : ℕ → Page) (pagetable v : ℕ) : Option (ℕ × Page) :=
  if Valid (view mem 2 pagetable v) then
    some (view mem 2 pagetable v, mem (PTE2PA (view mem 2 pagetable v)))
  else none

/-- The user part of a page table maps the pages of its address space. -/
theorem mapping_eq (h : Rep m r A) (hv : v < trapframeVpn) :
    mapping m r v = if v < A.n then some (A.pte v, A.page v) else none := by
  have hview := h.view v (lt_trans hv (by decide))
  rw [mapping, hview]
  split_ifs with hvalid hlt hlt
  · rw [h.data v hlt]
  · rw [h.wf.high v (by omega) hv] at hvalid
    exact absurd hvalid not_valid_zero
  · exact absurd (h.wf.low v hlt).1 hvalid
  · rfl

/-- The memory of a process of size `sz + n` that had size `sz`. -/
structure Resized (mem mem' : ℕ → Page) (im im' : Image) (n : ℤ) : Prop where
  sz : (im'.sz : ℤ) = im.sz + n
  mapped : ∀ va < PGROUNDUP im'.sz, (mapping mem' im'.pagetable (va / PGSIZE)).isSome
  zero : ∀ va, PGROUNDUP im.sz ≤ va → va < PGROUNDUP im'.sz →
    userByte mem' im'.pagetable va = some 0
  kept : ∀ va, va < PGROUNDUP im.sz → va < PGROUNDUP im'.sz →
    mapping mem' im'.pagetable (va / PGSIZE) = mapping mem im.pagetable (va / PGSIZE)

/-- The memory of a process is as it was. -/
structure Intact (mem mem' : ℕ → Page) (im im' : Image) : Prop where
  image : im' = im
  pages : ∀ v < TRAPFRAME / PGSIZE, mapping mem' im'.pagetable v = mapping mem im.pagetable v

/-- The result `ret` of `growproc` tells what has happened to the memory. -/
def Reported (mem mem' : ℕ → Page) (im im' : Image) (n ret : ℤ) : Prop :=
  ret = 0 ∧ Resized mem mem' im im' n ∨ ret = -1 ∧ Intact mem mem' im im'

/-! ## growproc on address spaces -/

/-- `B` has the pages of `A` as far as both go, and pages of zeros beyond. -/
structure Resizes (A B : AS) : Prop where
  kept : ∀ v < A.n, v < B.n → B.pte v = A.pte v ∧ B.page v = A.page v
  fresh : ∀ v, A.n ≤ v → v < B.n →
    PTE_FLAGS (B.pte v) = (PTE_R ||| PTE_U ||| PTE_W) ||| 1 ∧ B.page v = fun _ => 0

theorem Resizes.refl (A : AS) : Resizes A A where
  kept _ _ _ := ⟨rfl, rfl⟩
  fresh v h₁ h₂ := by omega

theorem resizes_of_grows (h : Grows A B (PTE_R ||| PTE_U ||| PTE_W)) : Resizes A B where
  kept v hv _ := ⟨h.pte v (Or.inl hv), h.page v hv⟩
  fresh v h₁ h₂ := ⟨h.flags v h₁ h₂, h.zero v h₁ h₂⟩

theorem resizes_trunc (A : AS) {k : ℕ} (hk : k ≤ A.n) : Resizes A (A.trunc k) where
  kept v _ hlt := by
    have hvk : v < k := hlt
    exact ⟨if_neg (by omega), rfl⟩
  fresh v h₁ h₂ := by
    have hvk : v < k := h₂
    omega

variable {sz va : ℕ} {s' : Phys}

theorem addInt_eq (hsz : sz < 2 ^ 27) (hn : n < 2 ^ 31) (h : 0 ≤ (sz : ℤ) + n) :
    (addInt sz n : ℤ) = sz + n := by
  unfold addInt
  omega

/-- The sizes of processes are far from the end of the 64-bit numbers. -/
theorem sz_lt_of_space (h : Space L r A rest m s) (hsz : Sized A sz) : sz < 2 ^ 27 := by
  have hn := h.n_lt
  rw [Sized, PGSIZE_eq] at hsz
  omega

/-- **`growproc` does what it reports** if the new size is not negative. -/
theorem growproc_exact (hsz : Sized A im.sz) (hint : n < 2 ^ 31) (hpos : 0 ≤ (im.sz : ℤ) + n) :
    Triple (Space L im.pagetable A rest m) (growproc L im n) fun res s =>
      (res.2 = 0 ∧ res.1.pagetable = im.pagetable ∧ (res.1.sz : ℤ) = im.sz + n ∧
        ∃ B, Sized B res.1.sz ∧ Resizes A B ∧ Space L im.pagetable B rest m s) ∨
      (res.2 = -1 ∧ res.1 = im ∧ Space L im.pagetable A rest m s) := by
  refine Triple.of_fact (fun hlt => ?_) fun s hs => sz_lt_of_space hs hsz
  have hsum := addInt_eq hlt hint hpos
  refine Triple.ite (fun hgrow => ?_) fun hle => Triple.ite (fun hshrink => ?_) fun hge => ?_
  · refine Triple.bind (uvmalloc_spec hsz (by decide)) fun sz => ?_
    refine Triple.ite (fun hzero => Triple.ret fun s hs => ?_) fun hne => Triple.ret fun s hs => ?_
    · rcases hs with ⟨hback, -, -⟩ | ⟨-, hret, -⟩ | ⟨-, hs⟩
      · omega
      · omega
      · exact Or.inr ⟨rfl, rfl, hs⟩
    · rcases hs with ⟨hback, -, -⟩ | ⟨-, hret, C, hC, hgrows, hs⟩ | ⟨hret, -⟩
      · omega
      · rw [hret]
        exact Or.inl ⟨rfl, rfl, hsum, C, hC, resizes_of_grows hgrows, hs⟩
      · exact absurd hret hne
  · refine Triple.bind (uvmdealloc_spec hsz (by omega)) fun sz => Triple.ret fun s hs => ?_
    obtain ⟨rfl, hs⟩ := hs
    refine Or.inl ⟨rfl, rfl, hsum, A.trunc ((addInt im.sz n + (PGSIZE - 1)) / PGSIZE), rfl,
      resizes_trunc A ?_, hs⟩
    rw [hsz]
    exact Nat.div_le_div_right (by omega)
  · have hzero : n = 0 := by omega
    refine Triple.ret fun s hs => Or.inl ⟨rfl, rfl, ?_, A, hsz, Resizes.refl A, hs⟩
    show (im.sz : ℤ) = im.sz + n
    omega

/-- **A negative sum is reported as success**, and nothing happens. -/
theorem growproc_negative (hlt : im.sz < 2 ^ 27) (hint : -2 ^ 31 ≤ n)
    (hneg : (im.sz : ℤ) + n < 0) (s : Phys) : growproc L im n s = .ok ((im, 0), s) := by
  have hwrap : im.sz ≤ addInt im.sz n := by
    unfold addInt
    omega
  rw [growproc, if_neg (by omega), if_pos (by omega), uvmdealloc, if_pos hwrap]
  rfl

/-! ## What the process sees -/

theorem PGROUNDUP_of_space (h : Space L r A rest m s) (hsz : Sized A sz) :
    PGROUNDUP sz = A.n * PGSIZE :=
  PGROUNDUP_eq hsz (by have := h.n_lt; omega)

/-- The pages below the rounded size are the user pages. -/
theorem page_lt_iff (h : Space L r A rest m s) (hsz : Sized A sz) :
    va < PGROUNDUP sz ↔ va / PGSIZE < A.n := by
  rw [PGROUNDUP_of_space h hsz, PGSIZE_eq, Nat.div_lt_iff_lt_mul (by decide)]

theorem n_lt_trapframe (h : Space L r A rest m s) : A.n < trapframeVpn :=
  lt_trans (lt_of_le_of_lt (Nat.le_add_right _ _) h.n_lt) (by decide)

/-- The byte at an address of a user page with the flags of new memory. -/
theorem userByte_fresh (h : Rep m r A) (hva : va / PGSIZE < A.n)
    (hflags : PTE_FLAGS (A.pte (va / PGSIZE)) = (PTE_R ||| PTE_U ||| PTE_W) ||| 1)
    (hpage : A.page (va / PGSIZE) = fun _ => 0) : userByte m r va = some 0 := by
  have hlt : va / PGSIZE < 2 ^ 27 :=
    lt_of_lt_of_le hva (le_trans h.wf.n_le (by decide))
  have huser : A.pte (va / PGSIZE) &&& PTE_U ≠ 0 := by
    rw [and_flag (by decide), hflags]
    decide
  rw [userByte, h.view _ hlt, h.data _ hva, hpage, if_pos ⟨(h.wf.low _ hva).1, huser⟩]

theorem reported_resized {im' : Image} {s : Phys} (h : Space L im.pagetable A rest m s)
    (h' : Space L im.pagetable B rest m s') (hsz : Sized A im.sz) (hsz' : Sized B im'.sz)
    (hpt : im'.pagetable = im.pagetable) (hsum : (im'.sz : ℤ) = im.sz + n) (hAB : Resizes A B) :
    Resized s.mem s'.mem im im' n := by
  have hn := n_lt_trapframe h'
  have hiff : ∀ va, va < PGROUNDUP im.sz ↔ va / PGSIZE < A.n := fun va => page_lt_iff h hsz
  have hiff' : ∀ va, va < PGROUNDUP im'.sz ↔ va / PGSIZE < B.n := fun va => page_lt_iff h' hsz'
  obtain ⟨_, ⟨rfl, -⟩, hrep, -⟩ := h
  obtain ⟨_, ⟨rfl, -⟩, hrep', -⟩ := h'
  refine ⟨hsum, fun va hva => ?_, fun va hle hva => ?_, fun va hva hva' => ?_⟩
  · rw [hiff'] at hva
    rw [hpt, mapping_eq hrep' (lt_trans hva hn), if_pos hva, Option.isSome_some]
  · rw [hiff'] at hva
    rw [← not_lt, hiff, not_lt] at hle
    obtain ⟨hflags, hpage⟩ := hAB.fresh _ hle hva
    rw [hpt]
    exact userByte_fresh hrep' hva hflags hpage
  · rw [hiff] at hva
    rw [hiff'] at hva'
    obtain ⟨hpte, hpage⟩ := hAB.kept _ hva hva'
    rw [hpt, mapping_eq hrep' (lt_trans hva' hn), mapping_eq hrep (lt_trans hva' hn), if_pos hva,
      if_pos hva', hpte, hpage]

theorem intact_of_space {s : Phys} (h : Space L im.pagetable A rest m s)
    (h' : Space L im.pagetable A rest m s') : Intact s.mem s'.mem im im := by
  refine ⟨rfl, fun v hv => ?_⟩
  rw [TRAPFRAME_eq, Nat.mul_div_cancel _ (by decide)] at hv
  obtain ⟨_, ⟨rfl, -⟩, hrep, -⟩ := h
  obtain ⟨_, ⟨rfl, -⟩, hrep', -⟩ := h'
  rw [mapping_eq hrep' hv, mapping_eq hrep hv]

/-! ## The result -/

/-- **`sbrk` does what it reports unless the new size is negative.**  For every process,
every `int` and whenever `kalloc` fails, `growproc` returns; what it returns tells what has
happened to the size and the memory of the process exactly if the sum of the old size and
the argument is not negative. -/
theorem sbrk_reported_iff (h : Owned L t noExtra s) (hp : (t.proc p).state = .runnable)
    (n : CInt) : ∃ im' ret s', growproc L (t.proc p).image n.toInt s = .ok ((im', ret), s') ∧
      (Reported s.mem s'.mem (t.proc p).image im' n.toInt ret ↔
        0 ≤ ((t.proc p).image.sz : ℤ) + n.toInt) := by
  obtain ⟨As, m, hs⟩ := h
  have hused : (t.proc p).state ≠ .unused := by
    rw [hp]
    decide
  have hspace := hs.good.space hused hs.pages
  have hsz := ((hs.good.slots p).alive hused).sized
  by_cases hsum : 0 ≤ ((t.proc p).image.sz : ℤ) + n.toInt
  · obtain ⟨⟨im', ret⟩, s', hrun, hres⟩ := growproc_exact hsz n.toInt_lt hsum s hspace
    refine ⟨im', ret, s', hrun, iff_of_true ?_ hsum⟩
    rcases hres with ⟨hret, hpt, hsz', B, hB, hAB, hspace'⟩ | ⟨hret, him, hspace'⟩
    · exact Or.inl ⟨hret, reported_resized hspace hspace' hsz hB hpt hsz' hAB⟩
    · obtain rfl : im' = (t.proc p).image := him
      exact Or.inr ⟨hret, intact_of_space hspace hspace'⟩
  · refine ⟨_, 0, s, growproc_negative (sz_lt_of_space hspace hsz) n.le_toInt (by omega) s,
      iff_of_false ?_ hsum⟩
    rintro (⟨-, hres⟩ | ⟨hret, -⟩)
    · have := hres.sz
      omega
    · cases hret

theorem NPROC_pos : 0 < NPROC := by decide

/-- The slot of the first process. -/
def firstSlot : Fin NPROC := ⟨0, NPROC_pos⟩

/-- The first process of a small machine, just started. -/
theorem small_boot : ∃ s, run (step smallLayout) (start fun _ _ => 0) [.boot 0] = some s ∧
    (s.tab.proc firstSlot).state = .runnable ∧ (s.tab.proc firstSlot).image.sz = 4096 ∧
    Owned smallLayout s.tab noExtra s.phys := by
  have hrun : (run (step smallLayout) (start fun _ _ => 0) [.boot 0]).map
      (fun s => (s.booted, (s.tab.proc firstSlot).state, (s.tab.proc firstSlot).image.sz))
      = some (true, .runnable, 4096) := by decide +kernel
  obtain ⟨s, hs, heq⟩ := Option.map_eq_some_iff.mp hrun
  obtain ⟨hbooted, heq⟩ := Prod.mk.inj heq
  obtain ⟨hstate, hsz⟩ := Prod.mk.inj heq
  refine ⟨s, hs, hstate, hsz, ?_⟩
  have hinv : Inv smallLayout s :=
    run_invariant (fun _ _ _ h hstep => inv_step h hstep) _ _ _ (inv_start smallLayout _) hs
  rcases hinv with ⟨hnot, -⟩ | ⟨-, howned, -⟩
  · rw [hbooted] at hnot
    cases hnot
  · exact howned

/-- The first process gives back its page. -/
theorem sbrk_reported_iff_first : ∃ s im' ret s',
    run (step smallLayout) (start fun _ _ => 0) [.boot 0] = some s ∧
    growproc smallLayout (s.tab.proc firstSlot).image (-4096) s.phys = .ok ((im', ret), s') ∧
    Reported s.phys.mem s'.mem (s.tab.proc firstSlot).image im' (-4096) ret := by
  obtain ⟨s, hs, hstate, hsz, howned⟩ := small_boot
  obtain ⟨im', ret, s', hgrow, hiff⟩ := sbrk_reported_iff howned hstate (-4096)
  refine ⟨s, im', ret, s', hs, hgrow, hiff.mpr ?_⟩
  rw [hsz]
  decide

/-- **A count below the size.**  The first process, of 4096 bytes, asks for 4097 bytes less.
The call returns 0, and the size is still 4096. -/
theorem sbrk_below_zero : ∃ s, run (step smallLayout) (start fun _ _ => 0) [.boot 0] = some s ∧
    (s.tab.proc firstSlot).image.sz = 4096 ∧
    growproc smallLayout (s.tab.proc firstSlot).image (-4097) s.phys
      = .ok (((s.tab.proc firstSlot).image, 0), s.phys) ∧
    ¬ Reported s.phys.mem s.phys.mem (s.tab.proc firstSlot).image (s.tab.proc firstSlot).image (-4097) 0 := by
  obtain ⟨s, hs, -, hsz, -⟩ := small_boot
  refine ⟨s, hs, hsz, growproc_negative (by rw [hsz]; decide) (by decide) (by rw [hsz]; decide) _,
    ?_⟩
  rintro (⟨-, hres⟩ | ⟨hret, -⟩)
  · have := hres.sz
    omega
  · cases hret

end Calls

/-
# fork copies memory exactly or not at all

`uvmcopy` gives the child a page of its own for every page of the parent, with the same
flags and bytes, or leaves it without user pages (`uvmcopy_exact`).  `fork` either ends
with such a child or gives back everything that it took: the frames, the slot, and what
the parent has are as before the call, wherever `kalloc` fails
(`fork_copies_or_undoes`).

That the frames of the child are mapped nowhere else comes from the account of the pages:
a user page is mapped once (`mapped_once`).
-/
import Xv6.Sbrk

namespace Calls

open Vm Hoare Transition
open Proc (NPROC)

variable {L : Layout} {t t' : Tab} {p q np : Fin NPROC} {A : AS} {m m' : ℕ → Page}
variable {As As' : Fin NPROC → AS} {s s' : Phys} {extra : Fin NFILE → ℕ} {v : ℕ}

/-! ## User pages are mapped once -/

/-- The page table of the process `q` maps the page number `v` to the frame `pa`. -/
structure MapsTo (t : Tab) (mem : ℕ → Page) (q : Fin NPROC) (v pa : ℕ) : Prop where
  used : (t.proc q).state ≠ .unused
  lt : v < 2 ^ 27
  valid : Valid (view mem 2 (t.proc q).image.pagetable v)
  frame : PTE2PA (view mem 2 (t.proc q).image.pagetable v) = pa

/-- **A user page is mapped once.** -/
theorem mapped_once {pa : ℕ} (h : OwnedAt L t extra As m s) (hp : (t.proc p).state ≠ .unused)
    (hv : v < (As p).n) (hpa : PTE2PA ((As p).pte v) = pa) {v' : ℕ} (hq : MapsTo t m q v' pa) :
    q = p ∧ v' = v := by
  obtain ⟨hused, hlt, hvalid, hframe⟩ := hq
  obtain ⟨hrep, -, htop⟩ := (h.good.slots q).alive hused
  have hcases := hrep.mapped_cases hlt hvalid
  rw [hrep.view v' hlt] at hframe
  have hleaf : pa ∈ leaves (As p).pte 0 (As p).n := hpa ▸ mem_leaves ⟨Nat.zero_le v, hv⟩
  have hslot : pa ∈ slotPages m (t.proc p) (As p) := by
    rw [slotPages_used hp]
    exact Multiset.mem_cons_of_mem (Multiset.mem_add.mpr (Or.inr hleaf))
  have hnd := h.pages.nodup
  rw [total_eq _ _ _ p] at hnd
  obtain ⟨hnd₁, -, hdis⟩ := Multiset.nodup_add.mp hnd
  rw [slotPages_used hp] at hnd₁
  obtain ⟨htf, hnd₂⟩ := Multiset.nodup_cons.mp hnd₁
  -- a page of another slot is not a page of this one
  have hother : pa ∈ slotPages m (t.proc q) (As q) → q = p := fun hin => by
    by_contra hqp
    exact Multiset.disjoint_left.mp hdis hslot (mem_elsewhere_slot hqp hin)
  rw [slotPages_used hused] at hother
  rcases hcases with hlow | rfl | rfl
  · obtain rfl : q = p := hother (Multiset.mem_cons_of_mem (Multiset.mem_add.mpr
      (Or.inr (hframe ▸ mem_leaves ⟨Nat.zero_le v', hlow⟩))))
    have hnd₃ := (Multiset.nodup_add.mp hnd₂).2.1
    exact ⟨rfl, leaves_inj hnd₃ hlow hv (hframe.trans hpa.symm)⟩
  · have hframes : (t.proc q).trapframe ∈ frames L := h.pages.2.mem_frames (by
      rw [total_eq _ _ _ q, slotPages_used hused]
      exact Multiset.mem_add.mpr (Or.inl (Multiset.mem_cons_self _ _)))
    rw [htop.trapframe, PTE2PA_mk (frames_lt hframes).1 (by decide)] at hframe
    rw [← hframe] at hother
    obtain rfl := hother (Multiset.mem_cons_self _ _)
    exact absurd (Multiset.mem_add.mpr (Or.inr (hframe ▸ hleaf))) htf
  · rw [htop.trampoline, PTE2PA_mk (trampoline_bounds L).1 (by decide)] at hframe
    have hin : pa ∈ frames L := h.pages.2.mem_frames (by
      rw [total_eq _ _ _ p]
      exact Multiset.mem_add.mpr (Or.inl hslot))
    have hend := (frames_bounds hin).2.1
    have := L.trampoline_lt
    rw [PGSIZE_eq] at this
    omega

/-! ## uvmcopy -/

/-- The page of the parent at `va` is there in the child too: in a frame that is mapped
nowhere else, with the same flags and bytes. -/
def Backed (t : Tab) (mem mem' : ℕ → Page) (p np : Fin NPROC) (va : ℕ) : Prop :=
  ∃ w w' page, mapping mem (t.proc p).image.pagetable (va / PGSIZE) = some (w, page) ∧
    mapping mem' (t.proc np).image.pagetable (va / PGSIZE) = some (w', page) ∧
    PTE_FLAGS w' = PTE_FLAGS w ∧
    ∀ q v, MapsTo t mem' q v (PTE2PA w') → q = np ∧ v = va / PGSIZE

/-- A twin of the parent's address space backs all pages of the parent. -/
theorem backed_of_twin {va : ℕ} (hold : Rep m (t.proc p).image.pagetable A)
    (hsz : va / PGSIZE < A.n) (hn : A.n < trapframeVpn) (h : OwnedAt L t' extra As' m' s)
    (hnp : (t'.proc np).state ≠ .unused) (htwin : Twin (As' np) A)
    (hsame : ∀ q, ((t'.proc q).state = .unused ↔ (t.proc q).state = .unused) ∧
      (t'.proc q).image.pagetable = (t.proc q).image.pagetable) : Backed t m m' p np va := by
  have hlt : va / PGSIZE < (As' np).n := by
    rw [htwin.n]
    exact hsz
  have hnew := ((h.good.slots np).alive hnp).rep
  rw [(hsame np).2] at hnew
  refine ⟨A.pte (va / PGSIZE), (As' np).pte (va / PGSIZE), A.page (va / PGSIZE), ?_, ?_,
    htwin.flags _ hsz, fun q v hq => mapped_once h hnp hlt rfl ?_⟩
  · rw [mapping_eq hold (lt_trans hsz hn), if_pos hsz]
  · rw [mapping_eq hnew (lt_trans hsz hn), if_pos hlt, htwin.page _ hsz]
  · obtain ⟨hused, hv, hvalid, hframe⟩ := hq
    rw [← (hsame q).2] at hvalid hframe
    exact ⟨fun hun => hused ((hsame q).1.mp hun), hv, hvalid, hframe⟩

/-- **`uvmcopy`** for a child without memory. -/
theorem uvmcopy_exact (h : Owned L t extra s) (hp : (t.proc p).state ≠ .unused)
    (hnp : (t.proc np).state ≠ .unused) (hne : p ≠ np) (hsz : (t.proc np).image.sz = 0) :
    ∃ ret s', uvmcopy L (t.proc p).image.pagetable (t.proc np).image.pagetable
        (t.proc p).image.sz s = .ok (ret, s') ∧
      (ret = 0 ∧ (∀ va < PGROUNDUP (t.proc p).image.sz, Backed t s.mem s'.mem p np va) ∨
       ret = -1 ∧ ∀ v < TRAPFRAME / PGSIZE,
         mapping s'.mem (t.proc np).image.pagetable v = none) := by
  obtain ⟨As, m, hs⟩ := h
  have hspace := hs.good.space hp hs.pages
  have hparent := (hs.good.slots p).alive hp
  obtain ⟨ret, s', hrun, hres⟩ := uvmcopy_owned hs.good hp hnp hne hsz s hs.pages
  refine ⟨ret, s', hrun, ?_⟩
  rcases hres with ⟨hret, C, ⟨hcopied, hn⟩, hC, hchild⟩ | ⟨hret, hchild⟩
  · refine Or.inl ⟨hret, fun va hva => ?_⟩
    obtain ⟨m', howned, -⟩ := OwnedAt.of_space hs.good (p := np) (x := copied t p np) hnp
      hC.1 hC.2 (hs.files.set_same rfl id) (fun _ _ => rfl) hchild
    rw [page_lt_iff hspace hparent.sized] at hva
    obtain ⟨rfl, -⟩ := hs.pages
    obtain ⟨rfl, -⟩ := howned.pages
    refine backed_of_twin hparent.rep hva (n_lt_trapframe hspace) howned ?_ ?_ fun q => ?_
    · rw [Tab.set_self]
      exact hnp
    · rw [Function.update_self]
      exact twin_of_copied hcopied hn
    · by_cases hq : q = np
      · rw [hq, Tab.set_self]
        exact ⟨Iff.rfl, rfl⟩
      · rw [Tab.set_of_ne _ _ hq]
        exact ⟨Iff.rfl, rfl⟩
  · refine Or.inr ⟨hret, fun v hv => ?_⟩
    rw [TRAPFRAME_eq, Nat.mul_div_cancel _ (by decide)] at hv
    have hzero : (As np).n = 0 := by
      have hsized := ((hs.good.slots np).alive hnp).sized
      rw [hsz] at hsized
      exact hsized
    obtain ⟨_, ⟨rfl, -⟩, hrep, -⟩ := hchild
    rw [mapping_eq hrep hv, if_neg (by omega)]

/-! ## fork -/

/-- Nothing is left of a `fork` by `p` that has failed. -/
structure Undone (t t' : Tab) (s s' : Phys) (p : Fin NPROC) : Prop where
  free : s'.freelist.Perm s.freelist
  slots : ∀ q, (t'.proc q).state = (t.proc q).state
  parent : t'.proc p = t.proc p
  memory : Intact s.mem s'.mem (t.proc p).image (t'.proc p).image
  untouched : Untouched s.mem s'.mem (t.proc p) (t'.proc p)
  files : t'.ftable = t.ftable

/-- The frames that are in use are the same if the slots in use have kept their memory. -/
theorem total_same (hsame : SameTab t t') (hK : Kept (inUse t As m) t' As' m') :
    total t' As' m' = total t As m := by
  have hslot : ∀ q, slotPages m' (t'.proc q) (As' q) = slotPages m (t.proc q) (As q) := by
    intro q
    by_cases hq : (t.proc q).state = .unused
    · rw [slotPages_unused hq, slotPages_unused (hsame.unused q hq)]
    · exact (hK q hq).pages
  rw [total, total, hsame.ftable, hsame.kernel, Finset.sum_congr rfl fun q _ => hslot q]

theorem freelist_perm {held : Multiset ℕ} (h : At L m held s) (h' : At L m' held s') :
    s'.freelist.Perm s.freelist := by
  rw [← Multiset.coe_eq_coe]
  exact add_right_cancel (h'.2.pages.trans h.2.pages.symm)

theorem undone_of_unforked (h : OwnedAt L t noExtra As m s) (hp : (t.proc p).state ≠ .unused)
    (hun : Unforked L t t' noExtra As m s') : Undone t t' s s' p := by
  obtain ⟨hsame, As', m', h', hK⟩ := hun
  have hproc := hsame.proc p hp
  have hkept := hK p hp
  have hp' : (t'.proc p).state ≠ .unused := by
    rw [hproc]
    exact hp
  have hpages := h'.pages
  rw [total_same hsame hK] at hpages
  have halive := (h.good.slots p).alive hp
  have halive' := (h'.good.slots p).alive hp'
  have hmem : s.mem = m := h.pages.1
  have hmem' : s'.mem = m' := h'.pages.1
  refine ⟨freelist_perm h.pages hpages, fun q => ?_, hproc, ⟨by rw [hproc], fun v hv => ?_⟩, ?_,
    hsame.ftable⟩
  · by_cases hq : (t.proc q).state = .unused
    · rw [hq, hsame.unused q hq]
    · rw [hsame.proc q hq]
  · rw [TRAPFRAME_eq, Nat.mul_div_cancel _ (by decide)] at hv
    rw [hmem, hmem', mapping_eq halive'.rep hv, mapping_eq halive.rep hv, hkept.space]
    rfl
  · rw [hmem, hmem']
    exact untouched_of_kept hkept halive halive' hp

/-- A child of `p` in the slot `np`, with a copy of the memory of `p`. -/
structure Child (t t' : Tab) (s s' : Phys) (p np : Fin NPROC) : Prop where
  free : (t.proc np).state = .unused
  runnable : (t'.proc np).state = .runnable
  parent : (t'.proc np).parent = some p
  sz : (t'.proc np).image.sz = (t.proc p).image.sz
  memory : ∀ va < PGROUNDUP (t.proc p).image.sz, Backed t' s.mem s'.mem p np va

theorem child_of_forked (h : OwnedAt L t noExtra As m s) (hp : (t.proc p).state ≠ .unused)
    (hf : Forked L t t' noExtra As m p np s') : Child t t' s s' p np := by
  obtain ⟨hfree, hrun, hpar, hsz, -, hproc, As', m', h', -, htwin⟩ := hf
  have hne : p ≠ np := by
    rintro rfl
    exact hp hfree
  have halive := (h.good.slots p).alive hp
  have hspace := h.good.space hp h.pages
  refine ⟨hfree, hrun, hpar, hsz, fun va hva => ?_⟩
  rw [page_lt_iff hspace halive.sized] at hva
  obtain ⟨rfl, -⟩ := h.pages
  obtain ⟨rfl, -⟩ := h'.pages
  refine backed_of_twin ?_ hva (n_lt_trapframe hspace) h' ?_ htwin fun q => ⟨Iff.rfl, rfl⟩
  · rw [hproc p hne]
    exact halive.rep
  · rw [hrun]
    decide

/-- **`fork` copies memory exactly or not at all.**  In every state that satisfies the
invariant of the pages and address spaces, and whenever `kalloc` fails: `uvmcopy` into the
empty address space of a child returns 0 with every page of the parent in a frame of the
child's own, or -1 with no user page in the child; and `fork` makes a child with such a
copy, or returns -1 with the free list, the slots, and the parent's page table, memory,
trapframe and files as they were. -/
theorem fork_copies_or_undoes (h : Owned L t noExtra s) :
    (∀ p np, (t.proc p).state ≠ .unused → (t.proc np).state ≠ .unused → p ≠ np →
      (t.proc np).image.sz = 0 →
      ∃ ret s', uvmcopy L (t.proc p).image.pagetable (t.proc np).image.pagetable
          (t.proc p).image.sz s = .ok (ret, s') ∧
        (ret = 0 ∧ (∀ va < PGROUNDUP (t.proc p).image.sz, Backed t s.mem s'.mem p np va) ∨
         ret = -1 ∧ ∀ v < TRAPFRAME / PGSIZE,
           mapping s'.mem (t.proc np).image.pagetable v = none)) ∧
    ∀ p, (t.proc p).state = .runnable → ∃ t' ret s', fork L t p s = .ok ((t', ret), s') ∧
        ((∃ np, Child t t' s s' p np) ∨ ret = -1 ∧ Undone t t' s s' p) := by
  constructor
  · intro p np hp hnp hne hsz
    exact uvmcopy_exact h hp hnp hne hsz
  · intro p hp
    have hused : (t.proc p).state ≠ .unused := by
      rw [hp]
      decide
    obtain ⟨As, m, hs⟩ := h
    obtain ⟨⟨t', ret⟩, s', hrun, hres⟩ := fork_spec hp s hs
    refine ⟨t', ret, s', hrun, ?_⟩
    rcases hres with ⟨np, hf⟩ | ⟨hret, hun⟩
    · exact Or.inl ⟨np, child_of_forked hs hused hf⟩
    · exact Or.inr ⟨hret, undone_of_unforked hs hused hun⟩

/-- The first process forks on a small machine. -/
theorem fork_copies_or_undoes_first : ∃ s t' ret s',
    run (step smallLayout) (start fun _ _ => 0) [.boot 0] = some s ∧
    fork smallLayout s.tab firstSlot s.phys = .ok ((t', ret), s') ∧
    ((∃ np, Child s.tab t' s.phys s' firstSlot np) ∨
      ret = -1 ∧ Undone s.tab t' s.phys s' firstSlot) := by
  obtain ⟨s, hs, hstate, -, howned⟩ := small_boot
  obtain ⟨t', ret, s', hrun, hres⟩ := (fork_copies_or_undoes howned).2 firstSlot hstate
  exact ⟨s, t', ret, s', hs, hrun, hres⟩

end Calls

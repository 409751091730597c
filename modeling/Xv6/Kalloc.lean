/-
# Physical memory and its allocator (kernel/kalloc.c)

Memory is given page by page: `mem pa` are the bytes of the page at address `pa`.  The
free list is the list of the addresses of its pages, in its order; that its links are
stored in the free pages themselves is left out.

`kalloc` fails when the list is empty.  It may fail as well when the next answer of
`deny` says so: this stands for the calls on other processors that have taken the last
pages at that moment.  `twice` records whether a page has ever been freed that was
free already.

`Own L held s` accounts for the pages: those on the free list and those in `held`
together are the pages between the end of the kernel and `PHYSTOP`, each exactly once.
-/
import Mathlib.Algebra.Order.Group.Multiset
import Mathlib.Data.Multiset.Range
import Xv6.Hoare

open Function

namespace Vm

open Hoare

/-! ## kernel/riscv.h, kernel/memlayout.h -/

/-- Bytes per page. -/
def PGSIZE : ℕ := 4096

/-- Round up to a page boundary, in 64-bit arithmetic. -/
def PGROUNDUP (sz : ℕ) : ℕ := (sz + (PGSIZE - 1)) % 2 ^ 64 / PGSIZE * PGSIZE

/-- Round down to a page boundary. -/
def PGROUNDDOWN (a : ℕ) : ℕ := a / PGSIZE * PGSIZE

def KERNBASE : ℕ := 0x80000000

def PHYSTOP : ℕ := KERNBASE + 128 * 1024 * 1024

/-- What the linker decides: the first address after the kernel, and the trampoline
page in its text. -/
structure Layout where
  end_ : ℕ
  trampoline : ℕ
  kernbase_le : KERNBASE ≤ trampoline
  trampoline_lt : trampoline + PGSIZE ≤ end_
  end_le : end_ ≤ PHYSTOP
  aligned : trampoline % PGSIZE = 0

/-- A machine with 16 pages. -/
def smallLayout : Layout where
  end_ := PHYSTOP - 16 * PGSIZE
  trampoline := KERNBASE
  kernbase_le := by decide
  trampoline_lt := by decide
  end_le := by decide
  aligned := by decide

/-- The bytes of a page, by offset. -/
abbrev Page := ℕ → UInt8

structure Phys where
  mem : ℕ → Page
  freelist : List ℕ
  deny : List Bool
  twice : Bool

/-- Kernel code on physical memory; an error is a panic. -/
abbrev Kernel := StateT Phys (Except String)

def panic {α : Type} (msg : String) : Kernel α := fun _ => .error msg

/-! ## kernel/kalloc.c -/

/-- Free the page at `pa`. -/
def kfree (L : Layout) (pa : ℕ) : Kernel Unit := fun s =>
  if pa % PGSIZE ≠ 0 ∨ pa < L.end_ ∨ PHYSTOP ≤ pa then
    .error "kfree"
  else
    -- the page is filled with junk
    .ok ((), { s with
      mem := update s.mem pa fun _ => 1
      freelist := pa :: s.freelist
      twice := s.twice || decide (pa ∈ s.freelist) })

/-- Allocate a page; `none` stands for the null pointer. -/
def kalloc : Kernel (Option ℕ) := fun s =>
  match s.freelist with
  | [] => .ok (none, s)
  | r :: next =>
    if s.deny.headD false then
      .ok (none, { s with deny := s.deny.tail })
    else
      .ok (some r, { s with
        mem := update s.mem r fun _ => 5
        freelist := next
        deny := s.deny.tail })

/-- The loop of `freerange`, for `n` pages from `p` on. -/
def freerangeLoop (L : Layout) : ℕ → ℕ → Kernel Unit
  | 0, _ => pure ()
  | n + 1, p => do
    kfree L p
    freerangeLoop L n (p + PGSIZE)

/-- `kinit`: free the pages from the end of the kernel to `PHYSTOP`. -/
def kinit (L : Layout) : Kernel Unit :=
  freerangeLoop L ((PHYSTOP - PGROUNDUP L.end_) / PGSIZE) (PGROUNDUP L.end_)

/-- `memset` of a whole page. -/
def memsetPage (pa : ℕ) (c : UInt8) : Kernel Unit := fun s =>
  .ok ((), { s with mem := update s.mem pa fun _ => c })

/-- `memmove` of a whole page. -/
def memmovePage (dst src : ℕ) : Kernel Unit := fun s =>
  .ok ((), { s with mem := update s.mem dst (s.mem src) })

/-! ## The account of the pages -/

/-- The pages that `kalloc` hands out. -/
def frames (L : Layout) : Multiset ℕ :=
  (Multiset.range ((PHYSTOP - PGROUNDUP L.end_) / PGSIZE)).map
    fun i => PGROUNDUP L.end_ + i * PGSIZE

/-- Every page is on the free list or in `held`, once, and no page has been freed
twice. -/
structure Own (L : Layout) (held : Multiset ℕ) (s : Phys) : Prop where
  pages : (s.freelist : Multiset ℕ) + held = frames L
  once : s.twice = false

variable {L : Layout} {held : Multiset ℕ} {m : ℕ → Page} {pa : ℕ}

theorem PGSIZE_eq : PGSIZE = 4096 := rfl

theorem KERNBASE_eq : KERNBASE = 2147483648 := rfl

theorem PHYSTOP_eq : PHYSTOP = 2281701376 := rfl

theorem PGROUNDUP_end (L : Layout) : L.end_ ≤ PGROUNDUP L.end_ ∧ PGROUNDUP L.end_ ≤ PHYSTOP ∧
    PGROUNDUP L.end_ % PGSIZE = 0 := by
  have h₁ := L.end_le
  have h₂ := PHYSTOP_eq
  rw [PGROUNDUP, PGSIZE_eq]
  omega

theorem nodup_frames (L : Layout) : (frames L).Nodup := by
  refine (Multiset.nodup_range _).map ?_
  intro i j hij
  simp only [PGSIZE] at hij
  omega

/-- The pages are within the bounds that `kfree` checks. -/
theorem frames_bounds (hpa : pa ∈ frames L) : pa % PGSIZE = 0 ∧ L.end_ ≤ pa ∧ pa < PHYSTOP := by
  obtain ⟨i, hi, rfl⟩ := Multiset.mem_map.mp hpa
  rw [Multiset.mem_range] at hi
  obtain ⟨h₁, h₂, h₃⟩ := PGROUNDUP_end L
  rw [PGSIZE_eq] at *
  omega

/-- **There are few pages**: `PHYSTOP` is 128 MB above `KERNBASE`. -/
theorem card_frames (L : Layout) : (frames L).card < 2 ^ 15 := by
  have h₁ := L.kernbase_le
  have h₂ := L.trampoline_lt
  obtain ⟨h₃, h₄, -⟩ := PGROUNDUP_end L
  rw [frames, Multiset.card_map, Multiset.card_range]
  rw [PGSIZE_eq] at *
  rw [KERNBASE_eq] at h₁
  rw [PHYSTOP_eq] at *
  omega

namespace Own

variable {s : Phys}

theorem nodup (h : Own L held s) : ((s.freelist : Multiset ℕ) + held).Nodup := by
  rw [h.pages]
  exact nodup_frames L

theorem nodup_held (h : Own L held s) : held.Nodup :=
  Multiset.nodup_of_le (Multiset.le_add_left _ _) h.nodup

theorem mem_frames (h : Own L held s) (hpa : pa ∈ held) : pa ∈ frames L := by
  rw [← h.pages]
  exact Multiset.mem_add.mpr (Or.inr hpa)

theorem card_lt (h : Own L held s) : held.card < 2 ^ 15 := by
  refine lt_of_le_of_lt ?_ (card_frames L)
  rw [← h.pages]
  exact Multiset.card_le_card (Multiset.le_add_left _ _)

/-- A page that is held is not free. -/
theorem not_free (h : Own L held s) (hpa : pa ∈ held) : pa ∉ s.freelist := fun hfree =>
  Multiset.disjoint_left.mp (Multiset.nodup_add.mp h.nodup).2.2 (Multiset.mem_coe.mpr hfree) hpa

end Own

/-- The pages of `held` are in use, with contents `m`. -/
def At (L : Layout) (m : ℕ → Page) (held : Multiset ℕ) (s : Phys) : Prop :=
  s.mem = m ∧ Own L held s

theorem At.deny {s : Phys} (h : At L m held s) (deny : List Bool) : At L m held { s with deny } :=
  ⟨h.1, h.2.pages, h.2.once⟩

theorem kalloc_spec : Triple (At L m held) kalloc fun o s =>
    match o with
    | none => At L m held s
    | some pa => pa ∉ held ∧ At L (update m pa fun _ => 5) (pa ::ₘ held) s := by
  rintro s ⟨rfl, h⟩
  unfold kalloc
  cases hfree : s.freelist with
  | nil => exact ⟨none, s, rfl, rfl, h⟩
  | cons r next =>
    show ∃ a t, (if s.deny.headD false then _ else _) = Except.ok (a, t) ∧ _
    split_ifs
    · refine ⟨none, _, rfl, rfl, ⟨?_, h.once⟩⟩
      rw [← h.pages, hfree]
    · refine ⟨some r, _, rfl, fun hr => h.not_free hr ?_, rfl, ⟨?_, h.once⟩⟩
      · rw [hfree]
        exact List.mem_cons_self
      · have hpages := h.pages
        rw [hfree, ← Multiset.cons_coe, Multiset.cons_add] at hpages
        show (next : Multiset ℕ) + r ::ₘ held = frames L
        rw [Multiset.add_cons, hpages]

/-- **`kfree` of a page that is held**: it does not panic, and the page is free once. -/
theorem kfree_spec : Triple (At L m (pa ::ₘ held)) (kfree L pa) fun _ s =>
    At L (update m pa fun _ => 1) held s := by
  rintro s ⟨rfl, h⟩
  obtain ⟨halign, hend, hstop⟩ := frames_bounds (h.mem_frames (Multiset.mem_cons_self pa held))
  have hnot := h.not_free (Multiset.mem_cons_self pa held)
  unfold kfree
  rw [if_neg (by omega)]
  refine ⟨(), _, rfl, rfl, ⟨?_, ?_⟩⟩
  · have hpages := h.pages
    show (↑(pa :: s.freelist) : Multiset ℕ) + held = frames L
    rw [← hpages, ← Multiset.cons_coe, Multiset.cons_add, Multiset.add_cons]
  · show (s.twice || decide (pa ∈ s.freelist)) = false
    rw [h.once, decide_eq_false hnot]
    rfl

theorem memsetPage_spec {c : UInt8} : Triple (At L m held) (memsetPage pa c) fun _ s =>
    At L (update m pa fun _ => c) held s := by
  rintro s ⟨rfl, h⟩
  exact ⟨(), _, rfl, rfl, ⟨h.pages, h.once⟩⟩

theorem memmovePage_spec {src : ℕ} : Triple (At L m held) (memmovePage pa src) fun _ s =>
    At L (update m pa (m src)) held s := by
  rintro s ⟨rfl, h⟩
  exact ⟨(), _, rfl, rfl, ⟨h.pages, h.once⟩⟩

end Vm

/-
# Processes do not reach each other's memory

A process changes memory by storing to its own pages and by its system calls.  The specs
of `CallsSpec.lean` say that a call keeps the memory of every slot that it has nothing to
do with (`OwnedIn` for the slots `bystanders`), and the account of the pages says that
the pages of one process belong to nobody else.  Together: no step of one process changes
what another one reads, its trapframe or its page table, and nothing that the kernel uses
for itself is mapped for a user (`process_isolation`).
-/
import Xv6.PageOwnership

namespace Calls

open Vm Hoare Transition
open Proc (NPROC)

variable {L : Layout} {t' : Tab} {p q : Fin NPROC}
variable {As As' : Fin NPROC → AS} {m m' : ℕ → Page} {s : Phys}

/-! ## What a process sees -/

/-- The entry lets the user at the page. -/
def ForUser (w : ℕ) : Prop := Valid w ∧ w &&& PTE_U ≠ 0

instance (w : ℕ) : Decidable (ForUser w) := inferInstanceAs (Decidable (_ ∧ _))

/-- The byte that a process reads at `va`, if its page table lets it. -/
def userByte (mem : ℕ → Page) (pagetable va : ℕ) : Option UInt8 :=
  if ForUser (view mem 2 pagetable (va / PGSIZE)) then
    some (mem (PTE2PA (view mem 2 pagetable (va / PGSIZE))) (va % PGSIZE))
  else none

/-- Between two states the memory of the process `x`, now `y`, has stayed as it was. -/
structure Untouched (mem mem' : ℕ → Page) (x y : Process) : Prop where
  image : y.image = x.image
  trapframe : y.trapframe = x.trapframe
  bytes : ∀ va < x.image.sz,
    userByte mem' y.image.pagetable va = userByte mem x.image.pagetable va
  frame : mem' x.trapframe = mem x.trapframe
  table : ∀ pa ∈ nodes mem 2 x.image.pagetable, mem' pa = mem pa

/-- The page belongs to no page table, is no trapframe, no pipe and not free. -/
structure UserOnly (s : Machine) (pa : ℕ) : Prop where
  table : ∀ q, (s.tab.proc q).state ≠ .unused →
    pa ∉ nodes s.phys.mem 2 (s.tab.proc q).image.pagetable
  trapframe : ∀ q, (s.tab.proc q).state ≠ .unused → pa ≠ (s.tab.proc q).trapframe
  pipe : pa ∉ pipePages s.tab.ftable
  free : pa ∉ s.phys.freelist

/-! ## One step -/

/-- The bytes of the user pages are those of the address space. -/
theorem userByte_eq {x : Process} {A : AS} (h : Alive L m x A) {va : ℕ} (hva : va < x.image.sz) :
    userByte m x.image.pagetable va
      = if ForUser (A.pte (va / PGSIZE)) then some (A.page (va / PGSIZE) (va % PGSIZE)) else none := by
  have hlt : va / PGSIZE < A.n := by
    have := h.sized
    rw [Sized, PGSIZE_eq] at this
    rw [PGSIZE_eq]
    omega
  have hvpn : va / PGSIZE < 2 ^ 27 := by
    have hle := h.rep.wf.n_le
    have htop : trapframeVpn < 2 ^ 27 := by decide
    omega
  rw [userByte, h.rep.view _ hvpn, h.rep.data _ hlt]

/-- A slot that was kept is untouched. -/
theorem untouched_of_kept {H : Snapshot} (hK : KeptAt H t' As' m' q)
    (hold : Alive L H.mem (H.tab.proc q) (H.spaces q)) (hnew : Alive L m' (t'.proc q) (As' q))
    (hused : (H.tab.proc q).state ≠ .unused) : Untouched H.mem m' (H.tab.proc q) (t'.proc q) := by
  have hdata := hK.data
  rw [slotPages_used hused] at hdata
  constructor
  · exact hK.same.image
  · exact hK.same.trapframe
  · intro va hva
    have hva' : va < (t'.proc q).image.sz := by
      rw [hK.same.image]
      exact hva
    rw [userByte_eq hnew hva', userByte_eq hold hva, hK.space]
  · exact hdata _ (Multiset.mem_cons_self _ _)
  · exact fun pa hpa => hdata pa (Multiset.mem_cons_of_mem (Multiset.mem_add.mpr (Or.inl hpa)))

/-- **No call of one process touches another.** -/
theorem call_untouched {s u : Machine} {c : Call} {deny : List Bool}
    (h : Owned L s.tab noExtra s.phys) (hstep : step L s (.call p c deny) = some u) (hqp : q ≠ p)
    (hq : (s.tab.proc q).state ≠ .unused) (hz : (s.tab.proc q).state ≠ .zombie) :
    Untouched s.phys.mem u.phys.mem (s.tab.proc q) (u.tab.proc q) := by
  have hsame : Untouched s.phys.mem s.phys.mem (s.tab.proc q) (s.tab.proc q) :=
    ⟨rfl, rfl, fun _ _ => rfl, rfl, fun _ _ => rfl⟩
  rw [step] at hstep
  split_ifs at hstep with hcond
  have hrun := not_not.mp (not_or.mp hcond).2
  by_cases hc : ∃ status, c = .exit status ∧ s.tab.initproc = some p
  · -- the machine stops, and nothing has changed
    obtain ⟨status, rfl, hinit⟩ := hc
    rw [syscall_exit_init hinit] at hstep
    cases hstep
    exact hsame
  · obtain ⟨As, m, hs⟩ := h.deny deny
    obtain ⟨o, phys, hok, ho⟩ := syscall_bystanders hrun
      (fun status hstatus hinit => hc ⟨status, hstatus, hinit⟩) hs
    rw [hok] at hstep
    cases o with
    | none => cases hstep
    | some res =>
      cases hstep
      obtain ⟨As', m', hu, hK⟩ := ho res rfl
      have hkept := hK q ⟨hqp, hq, hz⟩
      have hq' : (res.1.proc q).state ≠ .unused := fun hun => hq (hkept.same.unused.mp hun)
      obtain ⟨rfl, -⟩ := hs.pages
      obtain ⟨rfl, -⟩ := hu.pages
      exact untouched_of_kept hkept ((hs.good.slots q).alive hq) ((hu.good.slots q).alive hq') hq

/-! ## What is mapped for users -/

/-- **The pages of users are nobody else's.** -/
theorem userOnly_of_owned {s : Machine} {v : ℕ} (h : Owned L s.tab noExtra s.phys)
    (hp : (s.tab.proc p).state ≠ .unused) (hv : v < 2 ^ 27)
    (huser : ForUser (view s.phys.mem 2 (s.tab.proc p).image.pagetable v)) :
    UserOnly s (PTE2PA (view s.phys.mem 2 (s.tab.proc p).image.pagetable v)) := by
  obtain ⟨As, m, hs⟩ := h
  have hnd := hs.pages.nodup
  obtain ⟨rfl, hown⟩ := hs.pages
  obtain ⟨hrep, -, htop⟩ := (hs.good.slots p).alive hp
  rw [hrep.view v hv] at huser ⊢
  have hvn := hrep.wf.user_lt htop.shielded hv huser.2
  have hleaf : PTE2PA ((As p).pte v) ∈ leaves (As p).pte 0 (As p).n := mem_leaves ⟨Nat.zero_le v, hvn⟩
  have hslot : PTE2PA ((As p).pte v) ∈ slotPages s.phys.mem (s.tab.proc p) (As p) := by
    rw [slotPages_used hp]
    exact Multiset.mem_cons_of_mem (Multiset.mem_add.mpr (Or.inr hleaf))
  have htotal : PTE2PA ((As p).pte v) ∈ total s.tab As s.phys.mem := by
    rw [total_eq _ _ _ p]
    exact Multiset.mem_add.mpr (Or.inl hslot)
  rw [total_eq _ _ _ p] at hnd
  obtain ⟨hnd₁, -, hdis⟩ := Multiset.nodup_add.mp hnd
  rw [slotPages_used hp] at hnd₁
  obtain ⟨htf, hnd₂⟩ := Multiset.nodup_cons.mp hnd₁
  have hothers : PTE2PA ((As p).pte v) ∉ elsewhere s.tab As s.phys.mem p :=
    Multiset.disjoint_left.mp hdis hslot
  constructor
  · intro q hq hin
    by_cases hqp : q = p
    · rw [hqp] at hin
      exact Multiset.disjoint_left.mp (Multiset.nodup_add.mp hnd₂).2.2 hin hleaf
    · refine hothers (mem_elsewhere_slot hqp ?_)
      rw [slotPages_used hq]
      exact Multiset.mem_cons_of_mem (Multiset.mem_add.mpr (Or.inl hin))
  · intro q hq heq
    by_cases hqp : q = p
    · rw [hqp] at heq
      exact htf (heq ▸ Multiset.mem_add.mpr (Or.inr hleaf))
    · refine hothers (mem_elsewhere_slot hqp ?_)
      rw [slotPages_used hq, heq]
      exact Multiset.mem_cons_self _ _
  · exact fun hin => hothers (mem_elsewhere_pipe hin)
  · intro hin
    have hall := nodup_frames L
    rw [← hown.pages] at hall
    exact Multiset.disjoint_left.mp (Multiset.nodup_add.mp hall).2.2 (Multiset.mem_coe.mpr hin) htotal

/-! ## The result -/

/-- **Process memory isolation.**  In every state of every run no step of a process,
whether it stores to its memory or makes a system call, and whenever `kalloc` fails,
touches the memory of another process that exists and is not a zombie; and every page
that is mapped for the user belongs to no page table, is no trapframe, no pipe and not
free. -/
theorem process_isolation (L : Layout) (mem : ℕ → Page) (acts : List Act) :
    Always (step L) (fun s => (∀ p c deny u, step L s (.call p c deny) = some u → ∀ q, q ≠ p →
        (s.tab.proc q).state ≠ .unused → (s.tab.proc q).state ≠ .zombie →
          Untouched s.phys.mem u.phys.mem (s.tab.proc q) (u.tab.proc q)) ∧
      ∀ p, (s.tab.proc p).state ≠ .unused → ∀ v < 2 ^ 27,
        ForUser (view s.phys.mem 2 (s.tab.proc p).image.pagetable v) →
          UserOnly s (PTE2PA (view s.phys.mem 2 (s.tab.proc p).image.pagetable v)))
      (start mem) acts := by
  refine always_of_step (fun s a u hs hstep => inv_step hs hstep) (fun s hs => ?_) acts
    (start mem) (inv_start L mem)
  rcases hs with ⟨-, htab, -, -⟩ | ⟨-, howned, -⟩
  · -- no process is there yet
    constructor
    · intro p c deny u _ q _ hq
      rw [htab] at hq
      exact absurd rfl hq
    · intro p hp
      rw [htab] at hp
      exact absurd rfl hp
  · constructor
    · intro p c deny u hstep q hqp hq hz
      exact call_untouched howned hstep hqp hq hz
    · intro p hp v hv huser
      exact userOnly_of_owned howned hp hv huser

end Calls

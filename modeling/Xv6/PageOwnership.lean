/-
# Every page has one owner, and every address space its shape

The start of the system establishes the invariant of `CallsInv.lean` and every call keeps
it, so it holds in every state of every run.  Two readings of it are the results.  The
pages between the end of the kernel and `PHYSTOP` are each once on the free list or with
one owner, and what a process owned is free after `wait` (`page_ownership`).  The page
table of a process maps exactly the pages of its size and the two pages at the top, and
no panic of the memory code is reached (`address_space_shape`).
-/
import Xv6.CallsSpec

namespace Calls

open Function Vm Hoare Transition
open Proc (NPROC CInt)

variable {L : Layout} {t : Tab} {p q : Fin NPROC} {x : Process} {A B : AS}
variable {As : Fin NPROC → AS} {m : ℕ → Page} {s : Phys} {rest : Multiset ℕ} {r : ℕ}

/-- Between calls no call holds a reference. -/
def noExtra : Fin NFILE → ℕ := fun _ => 0

/-! ## Starting the system -/

theorem freerangeLoop_spec (n : ℕ) : ∀ p,
    Triple (fun s => ∃ m, At L m ((Multiset.range n).map fun i => p + i * PGSIZE) s)
      (freerangeLoop L n p) fun _ s => ∃ m, At L m 0 s := by
  induction n with
  | zero => exact fun p => Triple.ret fun s hs => hs
  | succ n ih =>
    intro p
    have hhead : (Multiset.range (n + 1)).map (fun i => p + i * PGSIZE)
        = p ::ₘ (Multiset.range n).map fun i => (p + PGSIZE) + i * PGSIZE := by
      have hlist : (List.range (n + 1)).map (fun i => p + i * PGSIZE)
          = p :: (List.range n).map fun i => (p + PGSIZE) + i * PGSIZE := by
        rw [List.range_succ_eq_map, List.map_cons, List.map_map, Nat.zero_mul, Nat.add_zero]
        congr 2
        funext i
        show p + (i + 1) * PGSIZE = p + PGSIZE + i * PGSIZE
        ring
      exact congrArg (fun l : List ℕ => (l : Multiset ℕ)) hlist
    rw [hhead]
    refine Triple.of_exists fun m => ?_
    exact Triple.bind kfree_spec fun _ => (ih (p + PGSIZE)).pre fun s hs => ⟨_, hs⟩

theorem kinit_spec : Triple (At L m (frames L)) (kinit L) fun _ s => ∃ m, At L m 0 s :=
  (freerangeLoop_spec _ _).pre fun _ hs => ⟨m, hs⟩

theorem kernelPages_spec (n : ℕ) : ∀ kernel : List ℕ,
    Partial (fun s => ∃ m, At L m (kernel : Multiset ℕ) s) (kernelPages n kernel) fun k s =>
      ∃ m, At L m (k : Multiset ℕ) s := by
  induction n with
  | zero => exact fun kernel => Partial.ret fun s hs => hs
  | succ n ih =>
    intro kernel
    have halloc : Triple (fun s => ∃ m, At L m (kernel : Multiset ℕ) s) kalloc fun o s =>
        ∀ pa, o = some pa → ∃ m, At L m ((pa :: kernel : List ℕ) : Multiset ℕ) s := by
      refine Triple.of_exists fun m => kalloc_spec.post fun o s hs pa ho => ?_
      rw [ho] at hs
      exact ⟨_, hs.2⟩
    refine Partial.bind halloc.weaken fun o => ?_
    cases o with
    | none =>
      intro s a u _ hrun
      cases hrun
    | some pa => exact (ih (pa :: kernel)).pre fun s hs => hs pa rfl

/-- The tables before the first process. -/
theorem empty_owned {kernel : List ℕ} (h : At L m (kernel : Multiset ℕ) s) :
    Owned L { Tab.empty with kernel } noExtra s := by
  have hpipes : pipePages Tab.empty.ftable = ∅ := by
    rw [pipePages, Finset.image_eq_empty, Finset.filter_eq_empty_iff]
    intro f _ hf
    cases hf
  refine ⟨fun _ => AS.empty, m, ⟨fun p => ⟨fun _ => ⟨rfl, rfl, rfl⟩, fun h => absurd rfl h⟩, ?_⟩,
    ⟨fun f => ?_, fun f _ => rfl, fun p _ fd => rfl, fun p fd f h => ?_⟩, ?_⟩
  · constructor
    · intro f g pi w hf
      cases hf.1
    · intro pi hpi
      rw [show pipePages _ = ∅ from hpipes] at hpi
      cases hpi
  · have hrefs : refs Process.empty f = 0 := by
      rw [refs, Finset.card_eq_zero, Finset.filter_eq_empty_iff]
      intro fd _ hfd
      cases hfd
    show 0 = (∑ p : Fin NPROC, refs Process.empty f) + 0
    rw [hrefs, Finset.sum_const_zero]
  · cases h
  · have htotal : total { Tab.empty with kernel } (fun _ => AS.empty) m = (kernel : Multiset ℕ) := by
      have hslots : ∑ q : Fin NPROC, slotPages m (Tab.empty.proc q) AS.empty = 0 :=
        Finset.sum_eq_zero fun q _ => slotPages_unused rfl
      show (kernel : Multiset ℕ) + ∑ q : Fin NPROC, slotPages m (Tab.empty.proc q) AS.empty +
        (pipePages Tab.empty.ftable).val = (kernel : Multiset ℕ)
      rw [hslots, hpipes, Finset.empty_val, add_zero, add_zero]
    rw [htotal]
    exact h

/-- The first page of the first process, if `mappages` finds the pages it needs. -/
theorem uvmfirst_spec {src : List UInt8} (hA : A.n = 0) :
    Partial (Space L r A rest m) (uvmfirst r src) fun ret s => ret = 0 →
      ∃ B, B.n = 1 ∧ (∀ v, trapframeVpn ≤ v → B.pte v = A.pte v) ∧ Space L r B rest m s := by
  unfold uvmfirst
  by_cases hlen : PGSIZE ≤ src.length
  · rw [if_pos hlen]
    intro s a u _ hrun
    cases hrun
  · rw [if_neg hlen]
    refine Partial.bind kalloc_space.weaken fun o => ?_
    cases o with
    | none =>
      intro s a u _ hrun
      cases hrun
    | some mem =>
      refine Triple.weaken ?_
      refine Triple.of_fact (fun hmem => ?_) fun s hs => hs.1
      refine Triple.of_fact (fun hframe => ?_) fun s hs => hs.2.1
      refine Triple.pre ?_ fun s hs => hs.2.2
      refine Triple.bind (memsetPage_space (Multiset.mem_cons_self _ _)) fun _ => ?_
      rw [update_idem]
      generalize hm₁ : update m mem (fun _ => (0 : UInt8)) = m₁
      have hkeep : ∀ pa ∈ rest, m₁ pa = m pa := by
        intro pa hpa
        rw [← hm₁]
        refine update_of_ne ?_ _ _
        rintro rfl
        exact hmem hpa
      have hpush : Triple (Space L r A (mem ::ₘ rest) m₁) (mappages r (A.n * PGSIZE) PGSIZE mem
          (PTE_W ||| PTE_R ||| PTE_X ||| PTE_U)) _ := mappages_push (by decide) (by decide)
      rw [hA, Nat.zero_mul] at hpush
      refine Triple.bind hpush fun ret => ?_
      by_cases hret : ret = 0
      · -- the page is now the first user page
        refine Triple.pre ?_ fun s hs => (hs.resolve_right fun h => by omega).2
        generalize hC : A.push (PA2PTE mem ||| (PTE_W ||| PTE_R ||| PTE_X ||| PTE_U) ||| PTE_V)
          (m₁ mem) = C
        have hn : C.n = 1 := by
          rw [← hC, AS.push, hA]
        have hpte : C.pte = update A.pte 0
            (PA2PTE mem ||| (PTE_W ||| PTE_R ||| PTE_X ||| PTE_U) ||| PTE_V) := by
          rw [← hC, AS.push, hA]
        have hwrite : Triple (Space L r C rest m₁) (writeBytes (PTE2PA (C.pte 0)) 0 src) _ :=
          writeBytes_user (by omega)
        rw [hpte, update_self, PTE2PA_mk (frames_lt hframe).1 (by decide)] at hwrite
        refine Triple.bind hwrite fun _ => Triple.ret fun s hs _ => ?_
        obtain ⟨B, hspace, hB⟩ := hs
        refine ⟨B, hB.1.trans hn, fun v hv => ?_, hspace.keep hkeep⟩
        have hpos : 0 < trapframeVpn := by decide
        rw [hB.2, hpte, update_of_ne (by omega)]
      · have hdone : ∀ P : Phys → Prop, Triple P (writeBytes mem 0 src) fun _ _ => True :=
          fun P s _ => ⟨(), _, rfl, trivial⟩
        exact Triple.bind (hdone _) fun _ => Triple.ret fun s _ h => absurd h hret

/-- The registers of the first process. -/
theorem userinit_regs {np : Fin NPROC} {ret : ℤ} {t' : Tab} (hG : Good L t As m)
    (hF : FilesOk t noExtra) (htop : HasTop L (As np) (t.proc np).trapframe)
    (ht' : t' = { t.set np (t.proc np).first with initproc := some np }) :
    Triple (fun s => ret = 0 → ∃ B, B.n = 1 ∧ (∀ v, trapframeVpn ≤ v → B.pte v = (As np).pte v) ∧
        Space L (t.proc np).image.pagetable B ((t.proc np).trapframe ::ₘ elsewhere t As m np) m s)
      (do
        writeWord (t.proc np).trapframe 24 0
        writeWord (t.proc np).trapframe 48 PGSIZE
        pure (t', ret)) fun res s => res.2 = 0 → Owned L res.1 noExtra s := by
  by_cases hret : ret = 0
  · refine Triple.pre (P := fun s => ∃ B, (B.n = 1 ∧ ∀ v, trapframeVpn ≤ v →
      B.pte v = (As np).pte v) ∧ Space L (t.proc np).image.pagetable B
        ((t.proc np).trapframe ::ₘ elsewhere t As m np) m s) ?_ fun s hs => ?_
    · refine Triple.of_exists fun B => ?_
      refine Triple.of_and fun hB => ?_
      refine Triple.of_fact (fun hnd => ?_) fun s hs => hs.nodup_rest
      refine Triple.bind (writeWord_space (Multiset.mem_cons_self _ _))
        fun _ => ?_
      refine Triple.bind (writeWord_space (Multiset.mem_cons_self _ _)) fun _ => ?_
      rw [update_idem]
      refine Triple.ret fun s hs _ => ?_
      have hused : (t.proc np).first.state ≠ .unused := fun h => by cases h
      have hsized : Sized B (t.proc np).first.image.sz := by
        show B.n = (PGSIZE + (PGSIZE - 1)) / PGSIZE
        rw [hB.1]
        rfl
      have hfiles : FilesOk (t.set np (t.proc np).first) noExtra :=
        hF.set (fun f => rfl) (fun h => absurd rfl h) (hF.named np)
      obtain ⟨m', howned, -⟩ := OwnedAt.of_space hG hused hsized (htop.congr hB.2) hfiles
        (fun pa hpa => update_of_ne (by
          rintro rfl
          exact (Multiset.nodup_cons.mp hnd).1 hpa) _ _) hs
      have howned' : OwnedIn .empty L (t.set np (t.proc np).first) noExtra s :=
        Owned.ownedIn ⟨_, m', howned⟩
      have hfinal : OwnedIn .empty L t' noExtra s := by
        rw [ht']
        exact howned'.relabel (fun q => ⟨Iff.rfl, rfl, rfl⟩) rfl rfl fun hF =>
          ⟨hF.ref, hF.kind, hF.closed, hF.named⟩
      exact hfinal.owned
    · obtain ⟨B, h₁, h₂, hspace⟩ := hs hret
      exact ⟨B, ⟨h₁, h₂⟩, hspace⟩
  · intro s _
    exact ⟨(t', ret), _, rfl, fun h => absurd h hret⟩

/-- **The first process** has its memory like any other. -/
theorem userinit_spec : Partial (Owned L t noExtra) (userinit L t) fun res s =>
    res.2 = 0 → Owned L res.1 noExtra s := by
  refine Partial.pre ?_ fun s hs => Owned.ownedIn hs
  refine Partial.bind (allocproc_spec fun _ _ h => h).weaken fun res => ?_
  obtain ⟨t₁, o⟩ := res
  cases o with
  | none =>
    intro s a u _ hrun
    cases hrun
  | some p =>
    refine Partial.pre (P := fun s => ((t.proc p).state = .unused ∧ (t₁.proc p).state = .used ∧
      (t₁.proc p).image.sz = 0) ∧ ∃ As m, OwnedAt L t₁ noExtra As m s) ?_ fun s hs => ?_
    · rintro s res u ⟨⟨hfree, hused, hsz⟩, As, m, hs⟩ hrun
      have hp : (t₁.proc p).state ≠ .unused := by
        rw [hused]
        decide
      have halive := (hs.good.slots p).alive hp
      have hzero : (As p).n = 0 := by
        have h := halive.sized
        rw [hsz] at h
        exact h
      have hspace := hs.good.space hp hs.pages
      exact Partial.bind (uvmfirst_spec hzero) (fun ret =>
        (userinit_regs hs.good hs.files halive.top rfl).weaken) s res u hspace hrun
    · have halloc := hs.1.1 p rfl
      exact ⟨⟨halloc.free, halloc.used, halloc.sz⟩, hs.2.owned⟩

theorem main_spec (n : ℕ) : Partial (At L m (frames L)) (main L n) fun res s =>
    res.2 = 0 → Owned L res.1 noExtra s := by
  refine Partial.bind kinit_spec.weaken fun _ => ?_
  refine Partial.bind ((kernelPages_spec n []).pre fun s hs => hs) fun kernel => ?_
  refine userinit_spec.pre fun s hs => ?_
  obtain ⟨m, hat⟩ := hs
  exact empty_owned hat

/-! ## The invariant of the machine -/

/-- Before the start nothing is on the free list; from then on every page is free or has
one owner, and only the exit of the first process stops the machine. -/
def Inv (L : Layout) (s : Machine) : Prop :=
  (s.booted = false ∧ s.tab = .empty ∧ s.panicked = none ∧ At L s.phys.mem (frames L) s.phys) ∨
  (s.booted = true ∧ Owned L s.tab noExtra s.phys ∧
    (s.panicked = none ∨ s.panicked = some "init exiting"))

theorem inv_start (L : Layout) (mem : ℕ → Page) : Inv L (start mem) := by
  refine Or.inl ⟨rfl, rfl, rfl, rfl, ⟨?_, rfl⟩⟩
  show ((([] : List ℕ) : Multiset ℕ)) + frames L = frames L
  rw [Multiset.coe_nil, zero_add]

/-- **Every call** keeps the account of the pages and the memory of the slots that are in
use by others, except that the first process may not exit. -/
theorem syscall_owned {c : Call} {H : Snapshot} (hp : (t.proc p).state = .runnable)
    (hc : ∀ status, c = .exit status → t.initproc ≠ some p) (hpH : ¬ H.frozen p)
    (hH : ∀ q, (t.proc q).state = .unused ∨ (t.proc q).state = .zombie → ¬ H.frozen q) :
    Triple (OwnedIn H L t noExtra) (syscall L t p c) fun o s =>
      ∀ res, o = some res → OwnedIn H L res.1 noExtra s := by
  have hused : (t.proc p).state ≠ .unused := by
    rw [hp]
    decide
  have hsome : ∀ {c : Kernel (Tab × ℤ)},
      (Triple (OwnedIn H L t noExtra) c fun res s => OwnedIn H L res.1 noExtra s) →
      Triple (OwnedIn H L t noExtra) (some <$> c) fun o s =>
        ∀ res, o = some res → OwnedIn H L res.1 noExtra s := fun h =>
    Triple.map (h.post fun res s hs res' heq => Option.some.inj heq ▸ hs)
  have hret : ∀ (t' : Tab) (k : ℤ) (s : Phys), OwnedIn H L t' noExtra s →
      ∀ res, some (t', k) = some res → OwnedIn H L res.1 noExtra s := fun t' k s hs res heq =>
    Option.some.inj heq ▸ hs
  cases c with
  | fork => exact hsome (fork_owned hp fun q hq => hH q (Or.inl hq))
  | exec namei upath uargv =>
    exact Triple.bind (sysExec_owned hused hpH) fun res => Triple.ret fun s hs => hret _ _ s hs
  | exit status => exact hsome (exit_owned hp (hc status rfl))
  | wait addr =>
    rintro s ⟨As, m, hs, hK⟩
    obtain ⟨o, u, hrun, hu⟩ := wait_owned hp hpH (fun q hq => hH q (Or.inr hq)) hK s hs
    exact ⟨o, u, hrun, fun res hres => (hu res hres).2⟩
  | sbrk n =>
    exact Triple.bind (growproc_owned hused hpH) fun res => Triple.ret fun s hs => hret _ _ s hs
  | pipe fdarray => exact hsome (sysPipe_owned hp hpH)
  | close fd => exact hsome (sysClose_owned hp)
  | dup fd => exact hsome (sysDup_owned hp)
  | «open» device readable writable => exact hsome (sysOpen_owned hp)
  | read fd addr n killed data =>
    refine Triple.bind (sysRead_owned hused hpH) fun r => Triple.ret fun s hs => ?_
    cases r with
    | none => exact fun res heq => by cases heq
    | some k => exact hret t k s hs
  | write fd addr n killed ret =>
    exact Triple.bind sysWrite_owned fun r => Triple.ret fun s hs => hret _ _ s hs
  | fstat fd addr st =>
    exact Triple.bind (sysFstat_owned hused hpH) fun r => Triple.ret fun s hs => hret _ _ s hs
  | store va bytes =>
    exact Triple.bind (store_owned hused hpH) fun r => Triple.ret fun s hs => hret _ _ s hs
  | trap regs =>
    exact Triple.bind (trap_owned hused hpH) fun r => Triple.ret fun s hs => hret _ _ s hs

/-- The memory of the processes that are there besides `p`. -/
def bystanders (t : Tab) (p : Fin NPROC) (As : Fin NPROC → AS) (m : ℕ → Page) : Snapshot where
  frozen q := q ≠ p ∧ (t.proc q).state ≠ .unused ∧ (t.proc q).state ≠ .zombie
  tab := t
  spaces := As
  mem := m

theorem syscall_bystanders {c : Call} (hp : (t.proc p).state = .runnable)
    (hc : ∀ status, c = .exit status → t.initproc ≠ some p) (hs : OwnedAt L t noExtra As m s) :
    ∃ o u, syscall L t p c s = .ok (o, u) ∧
      ∀ res, o = some res → OwnedIn (bystanders t p As m) L res.1 noExtra u := by
  refine syscall_owned (H := bystanders t p As m) hp hc (fun h => h.1 rfl) (fun q hq h => ?_) s
    ⟨As, m, hs, Kept.refl _ t As m⟩
  rcases hq with hq | hq
  · exact h.2.1 hq
  · exact h.2.2 hq

theorem Owned.deny {extra : Fin NFILE → ℕ} (h : Owned L t extra s) (deny : List Bool) :
    Owned L t extra { s with deny } := by
  obtain ⟨As, m, hs⟩ := h
  exact ⟨As, m, hs.good, hs.files, hs.pages.1, ⟨hs.pages.2.pages, hs.pages.2.once⟩⟩

/-- The first process may not exit. -/
theorem syscall_exit_init {status : CInt} (hinit : t.initproc = some p) :
    syscall L t p (.exit status) s = .error "init exiting" := by
  show (some <$> exit L t p status : Kernel (Option (Tab × ℤ))) s = _
  rw [exit, if_pos hinit]
  rfl

/-- **One step** keeps the invariant. -/
theorem inv_step {s u : Machine} {a : Act} (h : Inv L s) (hstep : step L s a = some u) :
    Inv L u := by
  cases a with
  | boot n =>
    rw [step] at hstep
    split_ifs at hstep with hbooted
    rcases h with ⟨-, -, -, hat⟩ | ⟨hb, -⟩
    · split at hstep
      · rename_i tab r phys heq
        split_ifs at hstep with hr
        cases hstep
        exact Or.inr ⟨rfl, main_spec n s.phys (tab, r) phys hat heq hr, Or.inl rfl⟩
      · cases hstep
    · exact absurd hb hbooted
  | call p c deny =>
    rw [step] at hstep
    split_ifs at hstep with hcond
    obtain ⟨hpanic, hrun⟩ := not_or.mp hcond
    rw [not_not] at hrun
    rcases h with ⟨-, htab, -, -⟩ | ⟨hb, howned, -⟩
    · rw [htab] at hrun
      cases hrun
    · have hnone : s.panicked = none := Option.not_isSome_iff_eq_none.mp hpanic
      by_cases hc : ∃ status, c = .exit status ∧ s.tab.initproc = some p
      · -- the first process exits
        obtain ⟨status, rfl, hinit⟩ := hc
        rw [syscall_exit_init hinit] at hstep
        cases hstep
        exact Or.inr ⟨hb, howned, Or.inr rfl⟩
      · obtain ⟨As, m, hs⟩ := howned.deny deny
        obtain ⟨o, phys, hok, ho⟩ := syscall_bystanders hrun
          (fun status hstatus hinit => hc ⟨status, hstatus, hinit⟩) hs
        rw [hok] at hstep
        cases o with
        | none => cases hstep
        | some res =>
          cases hstep
          exact Or.inr ⟨hb, (ho res rfl).owned, Or.inl hnone⟩

/-! ## The owners of the pages -/

instance (w : ℕ) : Decidable (Leaf w) := inferInstanceAs (Decidable (_ ∧ _))

/-- The pages of the user mappings of a page table. -/
def userPages (mem : ℕ → Page) (pagetable : ℕ) : Multiset ℕ :=
  ∑ v ∈ (Finset.range trapframeVpn).filter fun v => Leaf (view mem 2 pagetable v),
    {PTE2PA (view mem 2 pagetable v)}

/-- What a process owns: its trapframe, the pages of its page table, and the pages that
are mapped for the user. -/
def processPages (mem : ℕ → Page) (x : Process) : Multiset ℕ :=
  if x.state = .unused then 0
  else x.trapframe ::ₘ (nodes mem 2 x.image.pagetable + userPages mem x.image.pagetable)

/-- What the kernel, the processes and the pipes own. -/
def owners (s : Machine) : Multiset ℕ :=
  (s.tab.kernel : Multiset ℕ) + ∑ p, processPages s.phys.mem (s.tab.proc p) +
    (pipePages s.tab.ftable).val

/-- A page that the allocator hands out. -/
def IsFrame (L : Layout) (pa : ℕ) : Prop :=
  pa % PGSIZE = 0 ∧ PGROUNDUP L.end_ ≤ pa ∧ pa < PHYSTOP

instance (L : Layout) (pa : ℕ) : Decidable (IsFrame L pa) :=
  inferInstanceAs (Decidable (_ ∧ _ ∧ _))

theorem mem_frames_iff {pa : ℕ} : pa ∈ frames L ↔ IsFrame L pa := by
  obtain ⟨h₁, h₂, h₃⟩ := PGROUNDUP_end L
  constructor
  · intro h
    obtain ⟨hal, -, hlt⟩ := frames_bounds h
    obtain ⟨i, -, rfl⟩ := Multiset.mem_map.mp h
    exact ⟨hal, Nat.le_add_right _ _, hlt⟩
  · rintro ⟨hal, hle, hlt⟩
    have hstop : PHYSTOP % PGSIZE = 0 := by decide
    refine Multiset.mem_map.mpr ⟨(pa - PGROUNDUP L.end_) / PGSIZE, Multiset.mem_range.mpr ?_, ?_⟩
    · rw [PGSIZE_eq] at *
      omega
    · rw [PGSIZE_eq] at *
      omega

/-- The user mappings of an address space. -/
theorem userPages_eq {pagetable : ℕ} (h : Rep m pagetable A) :
    userPages m pagetable = leaves A.pte 0 A.n := by
  have hle := h.wf.n_le
  have hlt := trapframeVpn_lt
  have hview : ∀ v, v < trapframeVpn → view m 2 pagetable v = A.pte v := fun v hv =>
    h.view v (lt_trans hv (lt_trans hlt (by decide)))
  have hset : (Finset.range trapframeVpn).filter (fun v => Leaf (view m 2 pagetable v))
      = Finset.Ico 0 A.n := by
    ext v
    rw [Finset.mem_filter, Finset.mem_range, Finset.mem_Ico]
    constructor
    · rintro ⟨hv, hleaf⟩
      rw [hview v hv] at hleaf
      refine ⟨Nat.zero_le v, ?_⟩
      by_contra hge
      rw [h.wf.high v (by omega) hv] at hleaf
      exact not_valid_zero hleaf.1
    · rintro ⟨-, hv⟩
      refine ⟨by omega, ?_⟩
      rw [hview v (by omega)]
      exact h.wf.low v hv
  rw [userPages, hset, leaves]
  refine Finset.sum_congr rfl fun v hv => ?_
  rw [Finset.mem_Ico] at hv
  rw [hview v (by omega)]

theorem processPages_eq (h : SlotOk L m x A) : processPages m x = slotPages m x A := by
  by_cases hx : x.state = .unused
  · rw [processPages, if_pos hx, slotPages_unused hx]
  · rw [processPages, if_neg hx, slotPages_used hx, userPages_eq (h.alive hx).rep, pages]

/-- **The account**: a page is on the free list once or with one owner. -/
theorem count_page {s : Machine} (h : Owned L s.tab noExtra s.phys) (pa : ℕ) :
    s.phys.freelist.count pa + (owners s).count pa = if IsFrame L pa then 1 else 0 := by
  obtain ⟨As, m, hs⟩ := h
  obtain ⟨rfl, hown⟩ := hs.pages
  have howners : owners s = total s.tab As s.phys.mem := by
    rw [owners, total, Finset.sum_congr rfl fun p _ => processPages_eq (hs.good.slots p)]
  have hcount := congrArg (Multiset.count pa) hown.pages
  rw [Multiset.count_add, Multiset.coe_count] at hcount
  rw [howners, hcount]
  by_cases hpa : IsFrame L pa
  · rw [if_pos hpa]
    exact Multiset.count_eq_one_of_mem (nodup_frames L) (mem_frames_iff.mpr hpa)
  · rw [if_neg hpa]
    exact Multiset.count_eq_zero_of_notMem fun hin => hpa (mem_frames_iff.mp hin)

theorem reaped_free {s u : Machine} {addr : ℕ} {deny : List Bool}
    (h : Owned L s.tab noExtra s.phys) (hstep : step L s (.call p (.wait addr) deny) = some u)
    (hq : (s.tab.proc q).state = .zombie) (hu : (u.tab.proc q).state = .unused) :
    ∀ pa ∈ processPages s.phys.mem (s.tab.proc q), pa ∈ u.phys.freelist := by
  rw [step] at hstep
  split_ifs at hstep with hcond
  have hrun := not_not.mp (not_or.mp hcond).2
  obtain ⟨As, m, hs⟩ := h.deny deny
  obtain ⟨hm, -⟩ := hs.pages
  obtain ⟨o, phys, hok, ho⟩ := wait_owned (H := bystanders s.tab p As m) hrun (fun h => h.1 rfl)
    (fun q hq h => h.2.2 hq) (Kept.refl _ s.tab As m) _ hs
  rw [show syscall L s.tab p (.wait addr) = wait L s.tab p addr from rfl, hok] at hstep
  cases o with
  | none => cases hstep
  | some res =>
    cases hstep
    intro pa hpa
    refine (ho res rfl).1 q hq hu pa ?_
    rw [← processPages_eq (hs.good.slots q), ← hm]
    exact hpa

/-- The mappings of the page table of a process: the pages of its size, the trapframe and
the trampoline, the last two not for the user, and nothing else. -/
structure Shape (L : Layout) (mem : ℕ → Page) (x : Process) : Prop where
  tree : Tree mem 2 x.image.pagetable
  leaf : ∀ v < 2 ^ 27, Leaf (view mem 2 x.image.pagetable v) ↔
    v < PGROUNDUP x.image.sz / PGSIZE ∨ v = TRAPFRAME / PGSIZE ∨ v = TRAMPOLINE / PGSIZE
  valid : ∀ v < 2 ^ 27, Valid (view mem 2 x.image.pagetable v) →
    Leaf (view mem 2 x.image.pagetable v)
  trapframe : view mem 2 x.image.pagetable (TRAPFRAME / PGSIZE) &&& PTE_U = 0
  trampoline : view mem 2 x.image.pagetable (TRAMPOLINE / PGSIZE) &&& PTE_U = 0

theorem shape_of_owned (h : Owned L t noExtra s) (hp : (t.proc p).state ≠ .unused) :
    Shape L s.mem (t.proc p) := by
  obtain ⟨As, m, hs⟩ := h
  have hn := (hs.good.space hp hs.pages).n_lt
  obtain ⟨rfl, -⟩ := hs.pages
  obtain ⟨hrep, hsz, htop⟩ := (hs.good.slots p).alive hp
  have hup : PGROUNDUP (t.proc p).image.sz / PGSIZE = (As p).n := by
    rw [PGROUNDUP_eq hsz (by omega), Nat.mul_div_cancel _ (by decide)]
  have htf : TRAPFRAME / PGSIZE = trapframeVpn := by
    rw [TRAPFRAME_eq, Nat.mul_div_cancel _ (by decide)]
  have htr : TRAMPOLINE / PGSIZE = trampolineVpn := by
    rw [TRAMPOLINE_eq, Nat.mul_div_cancel _ (by decide)]
  have hleaf : ∀ v < 2 ^ 27, v < (As p).n ∨ v = trapframeVpn ∨ v = trampolineVpn →
      Leaf (view s.mem 2 (t.proc p).image.pagetable v) := by
    intro v hv
    rw [hrep.view v hv]
    rintro (hlow | rfl | rfl)
    · exact hrep.wf.low v hlow
    · exact htop.leaf.2
    · exact htop.leaf.1
  refine ⟨hrep.tree, fun v hv => ?_, fun v hv hval => ?_, ?_, ?_⟩
  · rw [hup, htf, htr]
    exact ⟨fun hl => hrep.mapped_cases hv hl.1, hleaf v hv⟩
  · exact hleaf v hv (hrep.mapped_cases hv hval)
  · rw [htf, hrep.view _ (by decide)]
    exact htop.shielded _ isTop_trapframe
  · rw [htr, hrep.view _ (by decide)]
    exact htop.shielded _ isTop_trampoline

/-! ## The results -/

/-- **Physical page ownership.**  In every state of every run, whatever calls the
processes make and whenever `kalloc` fails, every page between the end of the kernel and
`PHYSTOP` is on the free list once or has one owner, and not both; no page has been freed
twice; and all pages of a process that `wait` reaps are on the free list afterwards. -/
theorem page_ownership (L : Layout) (mem : ℕ → Page) (acts : List Act) :
    Always (step L) (fun s => s.booted = true →
      (∀ pa, s.phys.freelist.count pa + (owners s).count pa = if IsFrame L pa then 1 else 0) ∧
      s.phys.twice = false ∧ ∀ p addr deny u, step L s (.call p (.wait addr) deny) = some u →
        ∀ q, (s.tab.proc q).state = .zombie → (u.tab.proc q).state = .unused →
          ∀ pa ∈ processPages s.phys.mem (s.tab.proc q), pa ∈ u.phys.freelist)
      (start mem) acts := by
  refine always_of_step (fun s a u hs hstep => inv_step hs hstep) (fun s hs hbooted => ?_) acts
    (start mem) (inv_start L mem)
  rcases hs with ⟨hb, -⟩ | ⟨-, howned, -⟩
  · rw [hb] at hbooted
    cases hbooted
  · refine ⟨count_page howned, ?_, fun p addr deny u hstep q hq hu => reaped_free howned hstep hq hu⟩
    obtain ⟨As, m, hs⟩ := howned
    exact hs.pages.2.once

/-- A machine with 16 pages is large enough to start the first process. -/
example : (step smallLayout (start fun _ _ => 0) (.boot 0)).isSome = true := by decide +kernel

/-- **Address-space shape.**  In every state of every run the page table of every process
has the shape that its size determines, and none of the panics of the memory code has
been reached: the machine only ever stops because the first process exits. -/
theorem address_space_shape (L : Layout) (mem : ℕ → Page) (acts : List Act) :
    Always (step L) (fun s =>
      (∀ p, (s.tab.proc p).state ≠ .unused → Shape L s.phys.mem (s.tab.proc p)) ∧
      (s.panicked = none ∨ s.panicked = some "init exiting")) (start mem) acts := by
  refine always_of_step (fun s a u hs hstep => inv_step hs hstep) (fun s hs => ?_) acts
    (start mem) (inv_start L mem)
  rcases hs with ⟨-, htab, hpanic, -⟩ | ⟨-, howned, hpanic⟩
  · refine ⟨fun p hp => ?_, Or.inl hpanic⟩
    rw [htab] at hp
    exact absurd rfl hp
  · exact ⟨fun p hp => shape_of_owned howned hp, hpanic⟩

end Calls

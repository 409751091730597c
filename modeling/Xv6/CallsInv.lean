/-
# The owners of the pages

`OwnedAt` is the invariant between system calls.  Every slot of the process table that
is in use has an address space with its trapframe, every pipe has its page, and these
pages together with those of the kernel itself are exactly the pages that are not on the
free list.  A call changes the pages of one slot, or those of the pipes, and leaves the
pages of all others (`elsewhere`) alone.

`extra` counts the references to files that are held by a call in progress.
-/
import Mathlib.Algebra.BigOperators.Fin
import Mathlib.Algebra.Order.BigOperators.Group.Finset
import Xv6.Calls
import Xv6.Tally

namespace Calls

open Function Vm Hoare
open Proc (NPROC)

variable {L : Layout} {t : Tab} {p q : Fin NPROC} {x : Process} {A : AS}
variable {As : Fin NPROC → AS} {m m' μ : ℕ → Page} {s : Phys}

/-! ## Slots -/

/-- A process and its address space. -/
structure Alive (L : Layout) (m : ℕ → Page) (x : Process) (A : AS) : Prop where
  rep : Rep m x.image.pagetable A
  sized : Sized A x.image.sz
  top : HasTop L A x.trapframe

structure SlotOk (L : Layout) (m : ℕ → Page) (x : Process) (A : AS) : Prop where
  null : x.state = .unused → x.trapframe = 0 ∧ x.image.pagetable = 0 ∧ x.image.sz = 0
  alive : x.state ≠ .unused → Alive L m x A

/-- The pages of a process: its trapframe and its address space. -/
def slotPages (m : ℕ → Page) (x : Process) (A : AS) : Multiset ℕ :=
  if x.state = .unused then 0 else x.trapframe ::ₘ pages m x.image.pagetable A

theorem slotPages_unused (h : x.state = .unused) : slotPages m x A = 0 := if_pos h

theorem slotPages_used (h : x.state ≠ .unused) :
    slotPages m x A = x.trapframe ::ₘ pages m x.image.pagetable A := if_neg h

/-- A slot depends on its own pages only. -/
theorem SlotOk.congr (h : SlotOk L m x A) (hsame : ∀ pa ∈ slotPages m x A, m' pa = m pa) :
    SlotOk L m' x A ∧ slotPages m' x A = slotPages m x A := by
  by_cases hx : x.state = .unused
  · refine ⟨⟨h.null, fun hne => absurd hx hne⟩, ?_⟩
    rw [slotPages_unused hx, slotPages_unused hx]
  · have ha := h.alive hx
    rw [slotPages_used hx] at hsame
    obtain ⟨hrep, hpages⟩ := ha.rep.congr fun pa hpa => hsame pa (Multiset.mem_cons_of_mem hpa)
    refine ⟨⟨h.null, fun _ => ⟨hrep, ha.sized, ha.top⟩⟩, ?_⟩
    rw [slotPages_used hx, slotPages_used hx, hpages]

/-- Two records of a process with the same memory. -/
structure SameMem (x y : Process) : Prop where
  unused : x.state = .unused ↔ y.state = .unused
  trapframe : x.trapframe = y.trapframe
  image : x.image = y.image

theorem SameMem.slot {y : Process} (h : SameMem y x) (hx : SlotOk L m x A) :
    SlotOk L m y A ∧ slotPages m y A = slotPages m x A := by
  refine ⟨⟨fun hy => ?_, fun hy => ?_⟩, ?_⟩
  · rw [h.trapframe, h.image]
    exact hx.null (h.unused.mp hy)
  · obtain ⟨hrep, hsz, htop⟩ := hx.alive fun hu => hy (h.unused.mpr hu)
    constructor
    · rw [h.image]
      exact hrep
    · rw [h.image]
      exact hsz
    · rw [h.trapframe]
      exact htop
  · simp only [slotPages, h.unused, h.trapframe, h.image]

/-! ## Pipes -/

/-- The flag in a pipe for one of its ends. -/
def openEnd (page : Page) (writable : Bool) : Prop :=
  Bytes.getLE page (if writable then writeopenOff else readopenOff) 4 ≠ 0

/-- The file is an end of the pipe. -/
def IsEnd (ft : Ftable) (f : Fin NFILE) (pi : ℕ) (writable : Bool) : Prop :=
  (ft f).type = .pipe ∧ (ft f).pipe = pi ∧ (ft f).writable = writable

/-- The pages of the pipes. -/
def pipePages (ft : Ftable) : Finset ℕ :=
  (Finset.univ.filter fun f => (ft f).type = .pipe).image fun f => (ft f).pipe

variable {ft ft' : Ftable} {f g : Fin NFILE} {pi : ℕ} {w : Bool}

theorem mem_pipePages : pi ∈ pipePages ft ↔ ∃ f w, IsEnd ft f pi w := by
  rw [pipePages, Finset.mem_image]
  constructor
  · rintro ⟨f, hf, rfl⟩
    exact ⟨f, (ft f).writable, (Finset.mem_filter.mp hf).2, rfl, rfl⟩
  · rintro ⟨f, w, hty, rfl, -⟩
    exact ⟨f, Finset.mem_filter.mpr ⟨Finset.mem_univ f, hty⟩, rfl⟩

/-- The flags in the pipes tell which ends have a file, and an end has one file only. -/
structure PipesOk (ft : Ftable) (m : ℕ → Page) : Prop where
  unique : ∀ f g pi w, IsEnd ft f pi w → IsEnd ft g pi w → f = g
  flag : ∀ pi ∈ pipePages ft, ∀ w, openEnd (m pi) w ↔ ∃ f, IsEnd ft f pi w

/-- The same ends. -/
theorem pipePages_congr (h : ∀ f pi w, IsEnd ft' f pi w ↔ IsEnd ft f pi w) :
    pipePages ft' = pipePages ft := by
  ext pi
  rw [mem_pipePages, mem_pipePages]
  simp only [h]

theorem PipesOk.congr (hp : PipesOk ft m) (h : ∀ f pi w, IsEnd ft' f pi w ↔ IsEnd ft f pi w)
    (hsame : ∀ pi ∈ pipePages ft, m' pi = m pi) : PipesOk ft' m' := by
  constructor
  · intro f g pi w hf hg
    exact hp.unique f g pi w ((h f pi w).mp hf) ((h g pi w).mp hg)
  · intro pi hpi w
    rw [pipePages_congr h] at hpi
    rw [hsame pi hpi, hp.flag pi hpi w]
    simp only [h]

/-! ## Files -/

/-- How many descriptors of the process refer to the file. -/
def refs (x : Process) (f : Fin NFILE) : ℕ :=
  (Finset.univ.filter fun fd => x.ofile fd = some f).card

/-- The reference counts are right, only running processes have files, and an open file
has a type. -/
structure FilesOk (t : Tab) (extra : Fin NFILE → ℕ) : Prop where
  ref : ∀ f, (t.ftable f).ref = (∑ p, refs (t.proc p) f) + extra f
  kind : ∀ f, (t.ftable f).ref = 0 → (t.ftable f).type = .none
  closed : ∀ p, (t.proc p).state ≠ .runnable → ∀ fd, (t.proc p).ofile fd = none
  named : ∀ p fd f, (t.proc p).ofile fd = some f → (t.ftable f).type ≠ .none

variable {extra extra' : Fin NFILE → ℕ}

@[simp] theorem Tab.set_self (t : Tab) (p : Fin NPROC) (x : Process) : (t.set p x).proc p = x := by
  simp only [Tab.set, update_self]

theorem Tab.set_of_ne (t : Tab) (x : Process) (h : q ≠ p) : (t.set p x).proc q = t.proc q := by
  simp only [Tab.set, update_of_ne h]

theorem Tab.set_proc (t : Tab) (p : Fin NPROC) : t.set p (t.proc p) = t := by
  rw [Tab.set, update_eq_self]

theorem Tab.set_set (t : Tab) (p : Fin NPROC) (x y : Process) : (t.set p x).set p y = t.set p y := by
  simp only [Tab.set, update_idem]

/-- A file with a descriptor has a reference besides those that calls hold. -/
theorem FilesOk.ref_pos {fd : Fin NOFILE} {f : Fin NFILE} (h : FilesOk t extra)
    (hfd : (t.proc p).ofile fd = some f) : extra f + 1 ≤ (t.ftable f).ref := by
  have hrefs : 1 ≤ refs (t.proc p) f :=
    Finset.card_pos.mpr ⟨fd, Finset.mem_filter.mpr ⟨Finset.mem_univ fd, hfd⟩⟩
  have hle : refs (t.proc p) f ≤ ∑ q, refs (t.proc q) f :=
    Finset.single_le_sum (f := fun q => refs (t.proc q) f) (fun _ _ => Nat.zero_le _)
      (Finset.mem_univ p)
  have := h.ref f
  omega

/-- **One process changes its descriptors**; what it drops the call holds. -/
theorem FilesOk.set (h : FilesOk t extra)
    (hrefs : ∀ f, refs x f + extra' f = refs (t.proc p) f + extra f)
    (hclosed : x.state ≠ .runnable → ∀ fd, x.ofile fd = none)
    (hnamed : ∀ fd f, x.ofile fd = some f → (t.ftable f).type ≠ .none) :
    FilesOk (t.set p x) extra' := by
  refine ⟨fun f => ?_, h.kind, fun q hq => ?_, fun q fd f hq => ?_⟩
  · have hsum := Tally.sum_change (s := Finset.univ) (f := fun q => refs (t.proc q) f)
      (g := fun q => refs ((t.set p x).proc q) f) (Finset.mem_univ p)
      fun q hq => by rw [Tab.set_of_ne t x hq]
    simp only [Tab.set_self] at hsum
    have hf := h.ref f
    have hr := hrefs f
    show (t.ftable f).ref = _
    omega
  · by_cases hqp : q = p
    · rw [hqp, Tab.set_self] at hq ⊢
      exact hclosed hq
    · rw [Tab.set_of_ne t x hqp] at hq ⊢
      exact h.closed q hq
  · by_cases hqp : q = p
    · rw [hqp, Tab.set_self] at hq
      exact hnamed fd f hq
    · rw [Tab.set_of_ne t x hqp] at hq
      exact h.named q fd f hq

/-- A change that is not about files. -/
theorem FilesOk.set_same (h : FilesOk t extra) (hfile : x.ofile = (t.proc p).ofile)
    (hstate : x.state ≠ .runnable → (t.proc p).state ≠ .runnable) : FilesOk (t.set p x) extra := by
  refine h.set (fun f => ?_) (fun hx fd => ?_) fun fd f hfd => ?_
  · rw [refs, refs, hfile]
  · rw [hfile]
    exact h.closed p (hstate hx) fd
  · rw [hfile] at hfd
    exact h.named p fd f hfd

/-! ## The invariant -/

/-- The pages of everything but the slot `p`. -/
def elsewhere (t : Tab) (As : Fin NPROC → AS) (m : ℕ → Page) (p : Fin NPROC) : Multiset ℕ :=
  (t.kernel : Multiset ℕ) + ∑ q ∈ Finset.univ.erase p, slotPages m (t.proc q) (As q) +
    (pipePages t.ftable).val

/-- The pages that have an owner. -/
def total (t : Tab) (As : Fin NPROC → AS) (m : ℕ → Page) : Multiset ℕ :=
  (t.kernel : Multiset ℕ) + ∑ q, slotPages m (t.proc q) (As q) + (pipePages t.ftable).val

theorem total_eq (t : Tab) (As : Fin NPROC → AS) (m : ℕ → Page) (p : Fin NPROC) :
    total t As m = slotPages m (t.proc p) (As p) + elsewhere t As m p := by
  rw [total, elsewhere, ← Finset.add_sum_erase Finset.univ _ (Finset.mem_univ p),
    add_left_comm, add_assoc]

theorem mem_elsewhere_slot {pa : ℕ} (hne : q ≠ p) (h : pa ∈ slotPages m (t.proc q) (As q)) :
    pa ∈ elsewhere t As m p := by
  refine Multiset.mem_add.mpr (Or.inl (Multiset.mem_add.mpr (Or.inr ?_)))
  exact Multiset.mem_sum.mpr ⟨q, Finset.mem_erase.mpr ⟨hne, Finset.mem_univ q⟩, h⟩

theorem mem_elsewhere_pipe {pa : ℕ} (h : pa ∈ pipePages t.ftable) : pa ∈ elsewhere t As m p :=
  Multiset.mem_add.mpr (Or.inr h)

/-- What the invariant says about the contents of memory. -/
structure Good (L : Layout) (t : Tab) (As : Fin NPROC → AS) (m : ℕ → Page) : Prop where
  slots : ∀ p, SlotOk L m (t.proc p) (As p)
  pipes : PipesOk t.ftable m

/-- The invariant, with the address spaces and the contents of memory. -/
structure OwnedAt (L : Layout) (t : Tab) (extra : Fin NFILE → ℕ) (As : Fin NPROC → AS)
    (m : ℕ → Page) (s : Phys) : Prop where
  good : Good L t As m
  files : FilesOk t extra
  pages : At L m (total t As m) s

/-- **The invariant**: every page is free or has one owner. -/
def Owned (L : Layout) (t : Tab) (extra : Fin NFILE → ℕ) (s : Phys) : Prop :=
  ∃ As m, OwnedAt L t extra As m s

/-- **One slot changes**, the pages of all others stay as they are. -/
theorem OwnedAt.replace (hG : Good L t As m) (hkeep : ∀ pa ∈ elsewhere t As m p, m' pa = m pa)
    (hx : SlotOk L m' x A) (hF : FilesOk (t.set p x) extra)
    (hat : At L m' (slotPages m' x A + elsewhere t As m p) s) :
    OwnedAt L (t.set p x) extra (update As p A) m' s := by
  have hother : ∀ q, q ≠ p → SlotOk L m' (t.proc q) (As q) ∧
      slotPages m' (t.proc q) (As q) = slotPages m (t.proc q) (As q) := fun q hq =>
    (hG.slots q).congr fun pa hpa => hkeep pa (mem_elsewhere_slot hq hpa)
  refine ⟨⟨fun q => ?_, ?_⟩, hF, ?_⟩
  · by_cases hq : q = p
    · rw [hq, Tab.set_self, update_self]
      exact hx
    · rw [Tab.set_of_ne t x hq, update_of_ne hq]
      exact (hother q hq).1
  · exact hG.pipes.congr (fun _ _ _ => Iff.rfl) fun pi hpi => hkeep pi (mem_elsewhere_pipe hpi)
  · have hrest : elsewhere (t.set p x) (update As p A) m' p = elsewhere t As m p := by
      have hsum : ∑ q ∈ Finset.univ.erase p,
          slotPages m' ((t.set p x).proc q) (update As p A q)
          = ∑ q ∈ Finset.univ.erase p, slotPages m (t.proc q) (As q) := by
        refine Finset.sum_congr rfl fun q hq => ?_
        have hne := Finset.ne_of_mem_erase hq
        rw [Tab.set_of_ne t x hne, update_of_ne hne, (hother q hne).2]
      rw [elsewhere, elsewhere, hsum]
      rfl
    rw [total_eq _ _ _ p, Tab.set_self, update_self, hrest]
    exact hat

/-- The slot of a process as an address space beside all other pages. -/
theorem Good.space (hG : Good L t As m) (hp : (t.proc p).state ≠ .unused)
    (hat : At L m (total t As m) s) : Space L (t.proc p).image.pagetable (As p)
      ((t.proc p).trapframe ::ₘ elsewhere t As m p) m s := by
  refine ⟨m, ?_, ((hG.slots p).alive hp).rep, fun _ _ => rfl⟩
  rw [total_eq t As m p, slotPages_used hp, Multiset.cons_add] at hat
  rw [Multiset.add_cons]
  exact hat

/-- The way back. -/
theorem OwnedAt.of_space (hG : Good L t As m) (hx : x.state ≠ .unused) (hsz : Sized A x.image.sz)
    (htop : HasTop L A x.trapframe) (hF : FilesOk (t.set p x) extra)
    (hμ : ∀ pa ∈ elsewhere t As m p, μ pa = m pa)
    (h : Space L x.image.pagetable A (x.trapframe ::ₘ elsewhere t As m p) μ s) :
    ∃ m', OwnedAt L (t.set p x) extra (update As p A) m' s ∧
      ∀ pa ∈ elsewhere t As m p, m' pa = m pa := by
  obtain ⟨m', hat, hrep, hkeep⟩ := h
  have hsame : ∀ pa ∈ elsewhere t As m p, m' pa = m pa := fun pa hpa =>
    (hkeep pa (Multiset.mem_cons_of_mem hpa)).trans (hμ pa hpa)
  refine ⟨m', OwnedAt.replace hG hsame ⟨fun h => absurd h hx, fun _ => ⟨hrep, hsz, htop⟩⟩ hF ?_,
    hsame⟩
  rw [slotPages_used hx, Multiset.cons_add, ← Multiset.add_cons]
  exact hat

/-! ## What a call leaves alone -/

/-- The memory of some slots at an earlier time. -/
structure Snapshot where
  frozen : Fin NPROC → Prop
  tab : Tab
  spaces : Fin NPROC → AS
  mem : ℕ → Page

/-- The slot has the memory that it had then. -/
structure KeptAt (H : Snapshot) (t : Tab) (As : Fin NPROC → AS) (m : ℕ → Page) (q : Fin NPROC) :
    Prop where
  same : SameMem (t.proc q) (H.tab.proc q)
  space : As q = H.spaces q
  pages : slotPages m (t.proc q) (As q) = slotPages H.mem (H.tab.proc q) (H.spaces q)
  data : ∀ pa ∈ slotPages H.mem (H.tab.proc q) (H.spaces q), m pa = H.mem pa

/-- The frozen slots have the memory that they had then. -/
def Kept (H : Snapshot) (t : Tab) (As : Fin NPROC → AS) (m : ℕ → Page) : Prop :=
  ∀ q, H.frozen q → KeptAt H t As m q

variable {H : Snapshot}

theorem Kept.refl (frozen : Fin NPROC → Prop) (t : Tab) (As : Fin NPROC → AS) (m : ℕ → Page) :
    Kept ⟨frozen, t, As, m⟩ t As m :=
  fun _ _ => ⟨⟨Iff.rfl, rfl, rfl⟩, rfl, rfl, fun _ _ => rfl⟩

/-- The pages of a frozen slot are as they are now. -/
theorem KeptAt.mono (h : KeptAt H t As m q) (hslot : SlotOk L m (t.proc q) (As q))
    (hsame : ∀ pa ∈ slotPages m (t.proc q) (As q), m' pa = m pa) : KeptAt H t As m' q where
  same := h.same
  space := h.space
  pages := (hslot.congr hsame).2.trans h.pages
  data pa hpa := (hsame pa (h.pages ▸ hpa)).trans (h.data pa hpa)

/-- The files do not matter. -/
theorem Kept.of_proc {t' : Tab} (h : Kept H t As m) (hproc : t'.proc = t.proc) :
    Kept H t' As m := by
  intro q hq
  obtain ⟨hsame, hspace, hpages, hdata⟩ := h q hq
  constructor
  · rw [hproc]
    exact hsame
  · exact hspace
  · rw [hproc]
    exact hpages
  · exact hdata

/-- One slot that is not frozen changes. -/
theorem Kept.replace (h : Kept H t As m) (hG : Good L t As m) (hp : ¬ H.frozen p)
    (hkeep : ∀ pa ∈ elsewhere t As m p, m' pa = m pa) : Kept H (t.set p x) (update As p A) m' := by
  intro q hq
  have hqp : q ≠ p := by
    rintro rfl
    exact hp hq
  obtain ⟨hsame, hspace, hpages, hdata⟩ := (h q hq).mono (hG.slots q) fun pa hpa =>
    hkeep pa (mem_elsewhere_slot hqp hpa)
  constructor
  · rw [Tab.set_of_ne t x hqp]
    exact hsame
  · rw [update_of_ne hqp]
    exact hspace
  · rw [Tab.set_of_ne t x hqp, update_of_ne hqp]
    exact hpages
  · exact hdata

theorem SameMem.trans {y z : Process} (h : SameMem x y) (h' : SameMem y z) : SameMem x z where
  unused := h.unused.trans h'.unused
  trapframe := h.trapframe.trans h'.trapframe
  image := h.image.trans h'.image

/-- The tables change, but not the memory of any process. -/
theorem Kept.relabel {t' : Tab} (h : Kept H t As m)
    (hsame : ∀ q, SameMem (t'.proc q) (t.proc q)) (hslots : ∀ q, SlotOk L m (t.proc q) (As q)) :
    Kept H t' As m := by
  intro q hq
  obtain ⟨hs, hspace, hpages, hdata⟩ := h q hq
  refine ⟨(hsame q).trans hs, hspace, ?_, hdata⟩
  rw [((hsame q).slot (hslots q)).2]
  exact hpages

/-- What has been kept since a later time has been kept since an earlier one. -/
theorem Kept.trans {frozen : Fin NPROC → Prop} {t' : Tab} {As' : Fin NPROC → AS}
    (h : Kept H t As m) (h' : Kept ⟨frozen, t, As, m⟩ t' As' m')
    (hfrozen : ∀ q, H.frozen q → frozen q) : Kept H t' As' m' := by
  intro q hq
  obtain ⟨hsame, hspace, hpages, hdata⟩ := h q hq
  obtain ⟨hsame', hspace', hpages', hdata'⟩ := h' q (hfrozen q hq)
  refine ⟨hsame'.trans hsame, hspace'.trans hspace, hpages'.trans hpages, fun pa hpa => ?_⟩
  exact (hdata' pa (hpages ▸ hpa)).trans (hdata pa hpa)

/-- The invariant, with the memory of the frozen slots as it was. -/
def OwnedIn (H : Snapshot) (L : Layout) (t : Tab) (extra : Fin NFILE → ℕ) (s : Phys) : Prop :=
  ∃ As m, OwnedAt L t extra As m s ∧ Kept H t As m

/-- No slot at all. -/
def Snapshot.empty : Snapshot := ⟨fun _ => False, .empty, fun _ => AS.empty, fun _ _ => 0⟩

theorem Owned.ownedIn (h : Owned L t extra s) : OwnedIn .empty L t extra s := by
  obtain ⟨As, m, hs⟩ := h
  exact ⟨As, m, hs, fun _ hq => hq.elim⟩

theorem OwnedIn.owned (h : OwnedIn H L t extra s) : Owned L t extra s := by
  obtain ⟨As, m, hs, -⟩ := h
  exact ⟨As, m, hs⟩

theorem Triple.of_ownedIn {α : Type} {c : Kernel α} {Q : α → Phys → Prop}
    (h : ∀ As m, Good L t As m → FilesOk t extra → Kept H t As m →
      Triple (At L m (total t As m)) c Q) : Triple (OwnedIn H L t extra) c Q := by
  rintro s ⟨As, m, hs, hkept⟩
  exact h As m hs.good hs.files hkept s hs.pages

end Calls

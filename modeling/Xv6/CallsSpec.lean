/-
# Every call keeps the account of the pages

One triple for each call: from the invariant it returns with the invariant, on all of
its paths.  `image_spec` is the rule for the calls that change the memory of the process
itself; `fork` and `wait` change another slot.
-/
import Xv6.CallsFiles

namespace Calls

open Function Vm Hoare
open Proc (NPROC CInt)

variable {L : Layout} {t : Tab} {p q : Fin NPROC} {x : Process} {A : AS}
variable {As : Fin NPROC → AS} {m m' : ℕ → Page} {s : Phys} {rest : Multiset ℕ} {r tf : ℕ}
variable {ft ft' : Ftable} {f g : Fin NFILE} {extra extra' : Fin NFILE → ℕ}
variable {H : Snapshot}

/-! ## The memory of a process -/

variable {α : Type} {c : Kernel α} {im : α → Image} {va pa off pi k addr : ℕ} {bytes : List UInt8}
    {n : ℤ} {t' : Tab} {fd : CInt} {i : Fin NOFILE} {killed : Bool} {np : Fin NPROC} {C : AS}

/-- **A process changes its own memory.**  `c` is known to turn one program of the process
into another beside any other pages. -/
theorem image_spec (hp : (t.proc p).state ≠ .unused)
    (hc : ∀ A rest m, Sized A (t.proc p).image.sz → HasTop L A (t.proc p).trapframe →
      Triple (Space L (t.proc p).image.pagetable A ((t.proc p).trapframe ::ₘ rest) m) c fun a s =>
        ∃ y, Program L (im a).pagetable (im a).sz (t.proc p).trapframe
          ((t.proc p).trapframe ::ₘ rest) (update m (t.proc p).trapframe y) s) :
    Triple (OwnedAt L t extra As m) c fun a s =>
      ∃ A' m', OwnedAt L (t.setImage p (im a)) extra (update As p A') m' s ∧
        ∀ pa ∈ elsewhere t As m p, m' pa = m pa := by
  intro s hs
  have hspace := hs.good.space hp hs.pages
  have halive := (hs.good.slots p).alive hp
  have hnot : (t.proc p).trapframe ∉ elsewhere t As m p :=
    (Multiset.nodup_cons.mp hspace.nodup_rest).1
  obtain ⟨a, u, hrun, y, A', hspace', hsz, htop⟩ := hc _ _ _ halive.sized halive.top s hspace
  refine ⟨a, u, hrun, A', ?_⟩
  refine OwnedAt.of_space hs.good (x := { t.proc p with image := im a }) hp hsz htop
    (hs.files.set_same rfl id) (fun pa hpa => ?_) hspace'
  refine update_of_ne ?_ _ _
  rintro rfl
  exact hnot hpa

/-- The same for the invariant alone. -/
theorem image_owned (hp : (t.proc p).state ≠ .unused) (hpH : ¬ H.frozen p)
    (hc : ∀ A rest m, Sized A (t.proc p).image.sz → HasTop L A (t.proc p).trapframe →
      Triple (Space L (t.proc p).image.pagetable A ((t.proc p).trapframe ::ₘ rest) m) c fun a s =>
        ∃ y, Program L (im a).pagetable (im a).sz (t.proc p).trapframe
          ((t.proc p).trapframe ::ₘ rest) (update m (t.proc p).trapframe y) s) :
    Triple (OwnedIn H L t extra) c fun a s => OwnedIn H L (t.setImage p (im a)) extra s := by
  rintro s ⟨As, m, hs, hK⟩
  obtain ⟨a, u, hrun, A', m', hu, hkeep⟩ := image_spec hp hc s hs
  exact ⟨a, u, hrun, _, m', hu, hK.replace hs.good hpH hkeep⟩

theorem Tab.setImage_self (t : Tab) (p : Fin NPROC) : t.setImage p (t.proc p).image = t :=
  Tab.set_proc t p

theorem copyout_owned (hp : (t.proc p).state ≠ .unused) :
    Triple (OwnedAt L t extra As m) (copyout (t.proc p).image.pagetable va bytes) fun _ s =>
      ∃ A' m', OwnedAt L t extra (update As p A') m' s ∧
        ∀ pa ∈ elsewhere t As m p, m' pa = m pa := by
  have h : Triple (OwnedAt L t extra As m) (copyout (t.proc p).image.pagetable va bytes)
      fun _ s => ∃ A' m', OwnedAt L (t.setImage p (t.proc p).image) extra (update As p A')
        m' s ∧ ∀ pa ∈ elsewhere t As m p, m' pa = m pa :=
    image_spec hp fun A rest m hsz htop => (copyout_program.pre fun s hs =>
      ⟨A, hs, hsz, htop⟩).post fun _ s hs => Program.same hs
  rw [Tab.setImage_self] at h
  exact h

/-- `exec` as a change of the process's memory. -/
theorem sysExec_owned {namei : List UInt8 → Option File} {upath uargv : ℕ}
    (hp : (t.proc p).state ≠ .unused) (hpH : ¬ H.frozen p) : Triple (OwnedIn H L t extra)
      (sysExec L (t.proc p).trapframe (t.proc p).image namei upath uargv) fun res s =>
        OwnedIn H L (t.setImage p res.2) extra s := by
  refine image_owned hp hpH fun A rest m hsz htop => ?_
  refine Triple.of_exists_and fun m₁ ⟨hrep, hkeep⟩ => ?_
  have hexec : Triple _ (sysExec L (t.proc p).trapframe (t.proc p).image namei upath uargv) _ :=
    sysExec_spec hrep hsz htop (Multiset.mem_cons_self _ rest)
  refine hexec.post fun res s hs => ?_
  rcases hs with ⟨rfl, hs⟩ | ⟨-, y, A', hs, hA'⟩
  · exact Program.same ⟨A, (Space.of_held hs hrep).keep hkeep, hsz, htop⟩
  · refine ⟨y, A', hs.keep fun pa hpa => ?_, hA'⟩
    by_cases heq : pa = (t.proc p).trapframe
    · rw [heq, update_self, update_self]
    · rw [update_of_ne heq, update_of_ne heq, hkeep pa hpa]

/-- **`growproc`** for any argument, also when the sum wraps around. -/
theorem growproc_spec {im : Image} (hsz : Sized A im.sz) (htop : HasTop L A tf) :
    Triple (Space L im.pagetable A rest m) (growproc L im n) fun res s =>
      Program L res.1.pagetable res.1.sz tf rest m s := by
  have hstay : ∀ s, Space L im.pagetable A rest m s →
      Program L im.pagetable im.sz tf rest m s := fun s hs => ⟨A, hs, hsz, htop⟩
  refine Triple.ite (fun _ => ?_) fun _ => Triple.ite (fun _ => ?_) fun _ => Triple.ret hstay
  · refine Triple.bind (uvmalloc_spec hsz (by decide)) fun sz => ?_
    refine Triple.ite (fun hzero => Triple.ret fun s hs => ?_) fun hne => Triple.ret fun s hs => ?_
    · rcases hs with ⟨-, -, hs⟩ | ⟨hle, hret, C, hC, hgrow, hs⟩ | ⟨-, hs⟩
      · exact hstay s hs
      · -- the sum wrapped around to 0, and so the size was 0
        refine ⟨C, hs, ?_, hgrow.hasTop hs.wf htop⟩
        rw [show im.sz = addInt im.sz n by omega]
        exact hC
      · exact hstay s hs
    · rcases hs with ⟨-, hret, hs⟩ | ⟨-, hret, C, hC, hgrow, hs⟩ | ⟨hret, -⟩
      · rw [hret]
        exact hstay s hs
      · rw [hret]
        exact ⟨C, hs, hC, hgrow.hasTop hs.wf htop⟩
      · exact absurd hret hne
  · by_cases hlt : addInt im.sz n < im.sz
    · refine Triple.of_fact (fun hwf => ?_) fun s hs => hs.wf
      refine Triple.bind (uvmdealloc_spec hsz hlt) fun sz => Triple.ret fun s hs => ?_
      obtain ⟨rfl, hs⟩ := hs
      exact ⟨_, hs, rfl, htop.trunc hwf _⟩
    · rw [uvmdealloc, if_pos (by omega)]
      exact Triple.ret hstay

/-- The program leaves the tables alone and keeps the invariant. -/
abbrev Steady (H : Snapshot) (L : Layout) (t : Tab) (extra : Fin NFILE → ℕ) (c : Kernel α) : Prop :=
  Triple (OwnedIn H L t extra) c fun _ => OwnedIn H L t extra

theorem Steady.ret {a : α} : Steady H L t extra (pure a) := Triple.ret fun _ hs => hs

section

variable (hp : (t.proc p).state ≠ .unused) (hpH : ¬ H.frozen p)
include hp hpH

theorem growproc_owned : Triple (OwnedIn H L t extra) (growproc L (t.proc p).image n) fun res s =>
      OwnedIn H L (t.setImage p res.1) extra s :=
  image_owned hp hpH fun _ _ _ hsz htop => (growproc_spec hsz htop).post fun _ _ hs => Program.same hs

theorem store_owned : Steady H L t extra (copyout (t.proc p).image.pagetable va bytes) := by
  rintro s ⟨As, m, hs, hK⟩
  obtain ⟨a, u, hrun, A', m', hu, hkeep⟩ := copyout_owned hp s hs
  have hK' := hK.replace (x := t.proc p) (A := A') hs.good hpH hkeep
  rw [Tab.set_proc] at hK'
  exact ⟨a, u, hrun, _, m', hu, hK'⟩

theorem trap_owned : Steady H L t extra (writeBytes (t.proc p).trapframe 0 bytes) := by
  have h : Triple (OwnedIn H L t extra) (writeBytes (t.proc p).trapframe 0 bytes) fun _ s =>
      OwnedIn H L (t.setImage p (t.proc p).image) extra s := by
    refine image_owned hp hpH fun A rest m hsz htop => ?_
    refine (Space.write (fun m' held hkeep => ?_) (Multiset.mem_cons_self _ _)).post
      fun _ s hs => ⟨setBytes (m (t.proc p).trapframe) 0 bytes, A, hs, hsz, htop⟩
    rw [← hkeep _ (Multiset.mem_cons_self _ _)]
    exact writeBytes_spec
  rw [Tab.setImage_self] at h
  exact h

end

/-! ## Descriptors -/

/-- **The tables change, but not the memory of any process.** -/
theorem OwnedIn.relabel (h : OwnedIn H L t extra s) (hsame : ∀ q, SameMem (t'.proc q) (t.proc q))
    (hft : t'.ftable = t.ftable) (hk : t'.kernel = t.kernel)
    (hF : FilesOk t extra → FilesOk t' extra') : OwnedIn H L t' extra' s := by
  obtain ⟨As, m, hs, hK⟩ := h
  have hslot := fun q => (hsame q).slot (hs.good.slots q)
  refine ⟨As, m, ⟨⟨fun q => (hslot q).1, ?_⟩, hF hs.files, ?_⟩, hK.relabel hsame hs.good.slots⟩
  · rw [hft]
    exact hs.good.pipes
  · rw [total, hft, hk, Finset.sum_congr rfl fun q _ => (hslot q).2]
    exact hs.pages

/-- One process changes, but not its memory. -/
theorem OwnedIn.relabel_one (h : OwnedIn H L t extra s) (hsame : SameMem x (t.proc p))
    (hF : FilesOk t extra → FilesOk (t.set p x) extra') : OwnedIn H L (t.set p x) extra' s := by
  refine h.relabel (fun q => ?_) rfl rfl hF
  by_cases hq : q = p
  · rw [hq, Tab.set_self]
    exact hsame
  · rw [Tab.set_of_ne t x hq]
    exact ⟨Iff.rfl, rfl, rfl⟩

theorem setFile_self (x : Process) (fd : Fin NOFILE) (o : Option (Fin NFILE)) :
    (x.setFile fd o).ofile fd = o :=
  update_self fd _ _

theorem setFile_of_ne {fd : Fin NOFILE} (x : Process) (o : Option (Fin NFILE)) (h : i ≠ fd) :
    (x.setFile fd o).ofile i = x.ofile i :=
  update_of_ne h _ _

theorem refs_setFile (x : Process) (fd : Fin NOFILE) (o : Option (Fin NFILE)) (f : Fin NFILE) :
    refs (x.setFile fd o) f + (if x.ofile fd = some f then 1 else 0)
      = refs x f + if o = some f then 1 else 0 := by
  have h := Tally.card_change (s := Finset.univ) (P := fun i => x.ofile i = some f)
    (Q := fun i => (x.setFile fd o).ofile i = some f) (Finset.mem_univ fd) fun i hi => by
      rw [setFile_of_ne x o hi]
  simp only [setFile_self] at h
  exact h

/-- A descriptor is closed; the call holds the reference. -/
theorem OwnedIn.drop {fd : Fin NOFILE} (h : OwnedIn H L t extra s) (hp : (t.proc p).state = .runnable)
    (hfd : (t.proc p).ofile fd = some f) :
    OwnedIn H L (t.set p ((t.proc p).setFile fd none)) (bump extra f) s := by
  refine h.relabel_one ⟨Iff.rfl, rfl, rfl⟩ fun hF => hF.set (fun g => ?_)
    (fun hx => absurd hp hx) fun i g hi => ?_
  · have hr := refs_setFile (t.proc p) fd none g
    rw [hfd, if_neg (show ¬ none = some g from fun h => by cases h)] at hr
    by_cases hgf : g = f
    · rw [hgf] at hr ⊢
      rw [if_pos rfl] at hr
      rw [bump_self]
      omega
    · rw [if_neg fun h => hgf (Option.some.inj h).symm] at hr
      rw [bump_of_ne extra hgf]
      omega
  · by_cases hif : i = fd
    · rw [hif, setFile_self] at hi
      cases hi
    · rw [setFile_of_ne _ _ hif] at hi
      exact hF.named p i g hi

/-- A free descriptor takes the reference of the call. -/
theorem OwnedIn.take {fd : Fin NOFILE} (h : OwnedIn H L t (bump extra f) s)
    (hp : (t.proc p).state = .runnable) (hfd : fdalloc (t.proc p) f = some (x, fd))
    (htype : (t.ftable f).type ≠ .none) :
    OwnedIn H L (t.set p x) extra s ∧ SameMem x (t.proc p) ∧ x.state = .runnable := by
  obtain ⟨fd, hnone, heq⟩ := Option.map_eq_some_iff.mp hfd
  obtain ⟨rfl, rfl⟩ := Prod.mk.inj heq
  have hfree : (t.proc p).ofile fd = none := Option.isNone_iff_eq_none.mp (first_some hnone)
  refine ⟨h.relabel_one ⟨Iff.rfl, rfl, rfl⟩ fun hF => hF.set (fun g => ?_)
    (fun hx => absurd hp hx) fun i g hi => ?_, ⟨Iff.rfl, rfl, rfl⟩, hp⟩
  · have hr := refs_setFile (t.proc p) fd (some f) g
    rw [hfree, if_neg (show ¬ none = some g from fun h => by cases h)] at hr
    by_cases hgf : g = f
    · rw [hgf] at hr ⊢
      rw [if_pos rfl] at hr
      rw [bump_self]
      omega
    · rw [if_neg fun h => hgf (Option.some.inj h).symm] at hr
      rw [bump_of_ne extra hgf]
      omega
  · by_cases hif : i = fd
    · rw [hif, setFile_self] at hi
      exact Option.some.inj hi ▸ htype
    · rw [setFile_of_ne _ _ hif] at hi
      exact hF.named p i g hi

theorem argfd_some (h : argfd x fd = some (i, f)) : x.ofile i = some f := by
  unfold argfd at h
  split_ifs at h
  obtain ⟨g, hg, heq⟩ := Option.map_eq_some_iff.mp h
  obtain ⟨rfl, rfl⟩ := Prod.mk.inj heq
  exact hg

theorem sysDup_owned (hp : (t.proc p).state = .runnable) :
    Triple (OwnedIn H L t extra) (sysDup t p fd) fun res s => OwnedIn H L res.1 extra s := by
  unfold sysDup
  cases hfd : argfd (t.proc p) fd with
  | none => exact Triple.ret fun s hs => hs
  | some res =>
    obtain ⟨i, f⟩ := res
    dsimp only
    cases hnew : fdalloc (t.proc p) f with
    | none => exact Triple.ret fun s hs => hs
    | some res =>
      obtain ⟨x, fd'⟩ := res
      refine Triple.of_fact (fun hfacts => ?_) fun s hs =>
        show 1 ≤ (t.ftable f).ref ∧ (t.ftable f).type ≠ .none by
          obtain ⟨As, m, hs, -⟩ := hs
          exact ⟨by have := hs.files.ref_pos (argfd_some hfd); omega,
            hs.files.named p i f (argfd_some hfd)⟩
      refine Triple.bind (filedup_spec hfacts.1) fun ft => Triple.ret fun s hs => ?_
      refine (hs.2.take (t := t.setFiles ft) hp hnew ?_).1
      exact (hs.1 f).2.symm ▸ hfacts.2

theorem sysClose_owned (hp : (t.proc p).state = .runnable) :
    Triple (OwnedIn H L t extra) (sysClose L t p fd) fun res s => OwnedIn H L res.1 extra s := by
  unfold sysClose
  cases hfd : argfd (t.proc p) fd with
  | none => exact Triple.ret fun s hs => hs
  | some res =>
    obtain ⟨i, f⟩ := res
    have hclose := fileclose_spec (L := L) (f := f) (H := H)
      (t.set p ((t.proc p).setFile i none)) extra
    refine Triple.bind (hclose.pre fun s hs => hs.drop hp (argfd_some hfd)) fun ft => ?_
    exact Triple.ret fun s hs => hs

theorem sysOpen_owned {device readable writable : Bool} (hp : (t.proc p).state = .runnable) :
    Triple (OwnedIn H L t extra) (sysOpen L t p device readable writable) fun res s =>
      OwnedIn H L res.1 extra s := by
  unfold sysOpen
  cases hf : filealloc t.ftable with
  | none => exact Triple.ret fun s hs => hs
  | some res =>
    obtain ⟨ft, f⟩ := res
    refine Triple.of_fact (fun hfacts => ?_) fun s hs => (filealloc_owned hf hs).2
    refine Triple.pre ?_ fun s hs => (filealloc_owned hf hs).1
    obtain ⟨hone, htype⟩ := hfacts
    dsimp only
    cases hnew : fdalloc (t.proc p) f with
    | none =>
      exact Triple.bind (fileclose_spec (t.setFiles ft) extra) fun ft' => Triple.ret fun s hs => hs
    | some res =>
      obtain ⟨x, fd⟩ := res
      refine Triple.ret fun s hs => ?_
      have hkind : (if device then FileType.device else FileType.inode) ≠ .none := by
        cases device <;> decide
      have hfile : OwnedIn H L (t.setFiles (update ft f { ft f with
          type := if device then .device else .inode, readable, writable })) (bump extra f) s := by
        refine hs.setFtable (isEnd_update_none ?_ ?_) fun hF => hF.retype rfl ?_ hkind
        · show (ft f).type ≠ .pipe
          rw [htype]
          decide
        · show (if device then FileType.device else FileType.inode) ≠ .pipe
          cases device <;> decide
        · show (ft f).ref ≠ 0
          rw [hone]
          decide
      refine (hfile.take (p := p) hp hnew ?_).1
      dsimp only [Tab.setFiles]
      rw [update_self]
      exact hkind

theorem dropPipe_owned {rf wf : Fin NFILE} :
    Triple (OwnedIn H L (t.setFiles ft) (bump (bump extra rf) wf)) (dropPipe L t ft rf wf) fun res s =>
      OwnedIn H L res.1 extra s := by
  rw [bump_comm]
  refine Triple.bind (fileclose_spec (t.setFiles ft) (bump extra wf)) fun ft₁ => ?_
  refine Triple.bind (fileclose_spec (t.setFiles ft₁) extra) fun ft₂ => ?_
  exact Triple.ret fun s hs => hs

/-- **`sys_pipe`** with all the places where it can fail. -/
theorem sysPipe_owned {fdarray : ℕ} (hp : (t.proc p).state = .runnable) (hpH : ¬ H.frozen p) :
    Triple (OwnedIn H L t extra) (sysPipe L t p fdarray) fun res s => OwnedIn H L res.1 extra s := by
  have hused : (t.proc p).state ≠ .unused := by
    rw [hp]
    decide
  refine Triple.bind pipealloc_spec fun res => ?_
  obtain ⟨ft, o⟩ := res
  cases o with
  | none => exact Triple.ret fun s hs => hs
  | some ends =>
    obtain ⟨rf, wf⟩ := ends
    refine Triple.of_and fun htypes => ?_
    dsimp only
    cases h0 : fdalloc (t.proc p) rf with
    | none => exact dropPipe_owned
    | some res =>
      obtain ⟨x₀, fd0⟩ := res
      dsimp only
      cases h1 : fdalloc x₀ wf with
      | none => exact dropPipe_owned
      | some res =>
        obtain ⟨x₁, fd1⟩ := res
        have htake : ∀ s, OwnedIn H L (t.setFiles ft) (bump (bump extra rf) wf) s →
            x₁.image = (t.proc p).image ∧ OwnedIn H L ((t.set p x₁).setFiles ft) extra s := by
          intro s hs
          rw [bump_comm] at hs
          obtain ⟨hs₀, hsame₀, hrun₀⟩ := hs.take (t := t.setFiles ft) hp h0 htypes.1
          have hproc : ((t.setFiles ft).set p x₀).proc p = x₀ := Tab.set_self _ p x₀
          obtain ⟨hs₁, hsame₁, -⟩ := hs₀.take (p := p) (by rw [hproc]; exact hrun₀)
            (by rw [hproc]; exact h1) htypes.2
          rw [hproc] at hsame₁
          rw [Tab.set_set] at hs₁
          exact ⟨hsame₁.image.trans hsame₀.image, hs₁⟩
        refine Triple.of_fact (fun himage => ?_) fun s hs => (htake s hs).1
        have hcopy : ∀ va bytes, Triple (OwnedIn H L (t.setFiles ft) (bump (bump extra rf) wf))
            (copyout x₁.image.pagetable va bytes) fun _ s =>
              OwnedIn H L (t.setFiles ft) (bump (bump extra rf) wf) s := by
          intro va bytes
          rw [himage]
          exact store_owned (t := t.setFiles ft) hused hpH
        refine Triple.bind (hcopy _ _) fun ret₀ => ?_
        refine Triple.ite (fun _ => dropPipe_owned) fun _ => ?_
        refine Triple.bind (hcopy _ _) fun ret₁ => ?_
        refine Triple.ite (fun _ => dropPipe_owned) fun _ => ?_
        exact Triple.ret fun s hs => (htake s hs).2

/-! ## read, write and fstat -/

theorem reads_owned (hc : Reads L c) : Steady H L t extra c :=
  Triple.of_ownedIn fun As m hG hF hK => (hc m _).post fun _ _ hs => ⟨As, m, ⟨hG, hF, hs⟩, hK⟩

theorem readInt_owned : Steady H L t extra (readInt pa off) :=
  reads_owned fun _ _ => readInt_spec.post fun _ _ hs => hs.2

/-- The counters of a pipe may change. -/
theorem writeInt_owned (hpi : pi ∈ pipePages t.ftable) (hoff : off + 4 ≤ readopenOff) :
    Steady H L t extra (writeInt pi off k) :=
  pipe_write_owned hpi (k := fun page => Bytes.setLE page off 4 k)
    (fun page => openEnd_before fun i hi => Bytes.setLE_outside page off 4 k (by omega))
    fun _ _ => writeInt_spec

/-- And so may its data. -/
theorem writeData_owned {ch : List UInt8} (hpi : pi ∈ pipePages t.ftable) (hch : ch.length ≤ 1) :
    Steady H L t extra (writeBytes pi (dataOff + k % PIPESIZE) ch) := by
  refine pipe_write_owned hpi (k := fun page => setBytes page (dataOff + k % PIPESIZE) ch)
    (fun page => openEnd_before fun i hi => if_neg ?_) fun _ _ => writeBytes_spec
  have hk : k % PIPESIZE < PIPESIZE := Nat.mod_lt k (by decide)
  have hoff : dataOff + PIPESIZE ≤ readopenOff := by decide
  omega

theorem pipewriteLoop_owned {pagetable : ℕ} (hpi : pi ∈ pipePages t.ftable) (k : ℕ) : ∀ i,
    Steady H L t extra (pipewriteLoop pagetable pi addr killed k i) := by
  induction k with
  | zero => exact fun i => Steady.ret
  | succ k ih =>
    intro i
    refine Triple.bind readInt_owned fun readopen => ?_
    refine Triple.ite (fun _ => Steady.ret) fun _ => ?_
    refine Triple.bind readInt_owned fun nwrite => ?_
    refine Triple.bind readInt_owned fun nread => ?_
    refine Triple.ite (fun _ => Steady.ret) fun _ => ?_
    refine Triple.bind (reads_owned (Reads.copyin pagetable _ 1)) fun res => ?_
    obtain ⟨r, ch⟩ := res
    refine Triple.ite (fun _ => Steady.ret) fun _ => ?_
    refine Triple.bind (writeData_owned hpi (List.length_take_le 1 ch)) fun _ => ?_
    exact Triple.bind (writeInt_owned hpi (by decide)) fun _ => ih (i + 1)

/-- The file of a descriptor. -/
theorem OwnedIn.named (h : OwnedIn H L t extra s)
    (hfd : argfd (t.proc p) fd = some (i, f)) : (t.ftable f).type ≠ .none := by
  obtain ⟨As, m, hs, -⟩ := h
  exact hs.files.named p i f (argfd_some hfd)

theorem sysWrite_owned {ret : ℤ} : Steady H L t extra (sysWrite t p fd addr n killed ret) := by
  unfold sysWrite
  cases hfd : argfd (t.proc p) fd with
  | none => exact Steady.ret
  | some res =>
    obtain ⟨i, f⟩ := res
    refine Triple.of_fact (fun hnamed => ?_) fun s hs => hs.named hfd
    refine Triple.ite (fun _ => Steady.ret) fun _ => ?_
    cases htype : (t.ftable f).type with
    | none => exact absurd htype hnamed
    | pipe => exact pipewriteLoop_owned (mem_pipePages.mpr ⟨f, _, htype, rfl, rfl⟩) n.toNat 0
    | inode => exact Steady.ret
    | device => exact Steady.ret

section

variable (hp : (t.proc p).state ≠ .unused) (hpH : ¬ H.frozen p)
include hp hpH

theorem pipereadLoop_owned (hpi : pi ∈ pipePages t.ftable) (k : ℕ) : ∀ i,
    Steady H L t extra (pipereadLoop (t.proc p).image.pagetable pi addr k i) := by
  induction k with
  | zero => exact fun i => Steady.ret
  | succ k ih =>
    intro i
    refine Triple.bind readInt_owned fun nread => ?_
    refine Triple.bind readInt_owned fun nwrite => ?_
    refine Triple.ite (fun _ => Steady.ret) fun _ => ?_
    refine Triple.bind (reads_owned (Reads.readBytes pi _ 1)) fun ch => ?_
    refine Triple.bind (writeInt_owned hpi (by decide)) fun _ => ?_
    refine Triple.bind (store_owned hp hpH) fun r => ?_
    exact Triple.ite (fun _ => Steady.ret) fun _ => ih (i + 1)

theorem piperead_owned (hpi : pi ∈ pipePages t.ftable) :
    Steady H L t extra (piperead (t.proc p).image.pagetable pi addr n killed) := by
  refine Triple.bind readInt_owned fun nread => ?_
  refine Triple.bind readInt_owned fun nwrite => ?_
  refine Triple.bind readInt_owned fun writeopen => ?_
  refine Triple.ite (fun _ => Steady.ret) fun _ => ?_
  exact Triple.map (pipereadLoop_owned hp hpH hpi n.toNat 0)

theorem copyoutPieces_owned {onError : ℤ → ℤ} (pieces : List (List UInt8)) : ∀ dst tot,
    Steady H L t extra (copyoutPieces (t.proc p).image.pagetable onError dst tot pieces) := by
  induction pieces with
  | nil => exact fun dst tot => Steady.ret
  | cons piece pieces ih =>
    intro dst tot
    refine Triple.bind (store_owned hp hpH) fun r => ?_
    exact Triple.ite (fun _ => Steady.ret) fun _ => ih _ _

/-- **`sys_read`** from a pipe, a file or a device. -/
theorem sysRead_owned {data : Option (List (List UInt8))} :
    Steady H L t extra (sysRead t p fd addr n killed data) := by
  unfold sysRead
  cases hfd : argfd (t.proc p) fd with
  | none => exact Steady.ret
  | some res =>
    obtain ⟨i, f⟩ := res
    refine Triple.of_fact (fun hnamed => ?_) fun s hs => hs.named hfd
    refine Triple.ite (fun _ => Steady.ret) fun _ => ?_
    cases htype : (t.ftable f).type with
    | none => exact absurd htype hnamed
    | pipe => exact piperead_owned hp hpH (mem_pipePages.mpr ⟨f, _, htype, rfl, rfl⟩)
    | inode => exact Triple.map (copyoutPieces_owned hp hpH _ addr 0)
    | device =>
      cases data with
      | none => exact Steady.ret
      | some pieces => exact Triple.map (copyoutPieces_owned hp hpH pieces addr 0)

theorem sysFstat_owned {st : List UInt8} : Steady H L t extra (sysFstat t p fd addr st) := by
  unfold sysFstat
  cases argfd (t.proc p) fd with
  | none => exact Steady.ret
  | some res =>
    refine Triple.ite (fun _ => ?_) fun _ => Steady.ret
    refine Triple.bind (store_owned hp hpH) fun r => ?_
    exact Triple.ite (fun _ => Steady.ret) fun _ => Steady.ret

end

/-! ## exit -/

theorem closeFiles_spec (fds : List (Fin NOFILE)) : ∀ x ft, x.state = .runnable →
    Triple (OwnedIn H L ((t.set p x).setFiles ft) extra) (closeFiles L fds x ft) fun res s =>
      (SameMem res.1 x ∧ ∀ fd, fd ∈ fds ∨ x.ofile fd = none → res.1.ofile fd = none) ∧
        OwnedIn H L ((t.set p res.1).setFiles res.2) extra s := by
  induction fds with
  | nil =>
    intro x ft _
    refine Triple.ret fun s hs => ⟨⟨⟨Iff.rfl, rfl, rfl⟩, ?_⟩, hs⟩
    rintro fd (hfd | hfd)
    · cases hfd
    · exact hfd
  | cons fd fds ih =>
    intro x ft hx
    unfold closeFiles
    cases hfd : x.ofile fd with
    | none =>
      refine (ih x ft hx).post fun res s hs => ?_
      obtain ⟨⟨hsame, hclosed⟩, hs⟩ := hs
      refine ⟨⟨hsame, ?_⟩, hs⟩
      rintro i (hi | hi)
      · rcases List.mem_cons.mp hi with rfl | hi
        · exact hclosed i (Or.inr hfd)
        · exact hclosed i (Or.inl hi)
      · exact hclosed i (Or.inr hi)
    | some f =>
      have hproc : ((t.set p x).setFiles ft).proc p = x := Tab.set_self t p x
      have hdrop : ∀ s, OwnedIn H L ((t.set p x).setFiles ft) extra s →
          OwnedIn H L ((t.set p (x.setFile fd none)).setFiles ft) (bump extra f) s := by
        intro s hs
        have h := hs.drop (p := p) (by rw [hproc]; exact hx) (by rw [hproc]; exact hfd)
        rw [hproc] at h
        have hset : ((t.set p x).setFiles ft).set p (x.setFile fd none)
            = (t.set p (x.setFile fd none)).setFiles ft :=
          congrArg (fun u : Tab => u.setFiles ft) (Tab.set_set t p x (x.setFile fd none))
        rw [hset] at h
        exact h
      have hclose := fileclose_spec (L := L) (f := f) (H := H)
        ((t.set p (x.setFile fd none)).setFiles ft) extra
      refine Triple.bind (hclose.pre hdrop) fun ft' => ?_
      refine (ih (x.setFile fd none) ft' hx).post fun res s hs => ?_
      obtain ⟨⟨hsame, hclosed⟩, hs⟩ := hs
      refine ⟨⟨⟨hsame.unused, hsame.trapframe, hsame.image⟩, ?_⟩, hs⟩
      have hnone : ∀ i, i = fd ∨ x.ofile i = none → (x.setFile fd none).ofile i = none := by
        intro i hi
        by_cases hif : i = fd
        · rw [hif, setFile_self]
        · rw [setFile_of_ne x none hif]
          exact hi.resolve_left hif
      rintro i (hi | hi)
      · rcases List.mem_cons.mp hi with rfl | hi
        · exact hclosed i (Or.inr (hnone i (Or.inl rfl)))
        · exact hclosed i (Or.inl hi)
      · exact hclosed i (Or.inr (hnone i (Or.inr hi)))

theorem FilesOk.relabel (h : FilesOk t extra) (hofile : ∀ q, (t'.proc q).ofile = (t.proc q).ofile)
    (hft : t'.ftable = t.ftable)
    (hclosed : ∀ q, (t'.proc q).state ≠ .runnable → ∀ fd, (t'.proc q).ofile fd = none) :
    FilesOk t' extra := by
  refine ⟨fun f => ?_, fun f => ?_, hclosed, fun q fd f hq => ?_⟩
  · rw [hft, h.ref f]
    simp only [refs, hofile]
  · rw [hft]
    exact h.kind f
  · rw [hofile q] at hq
    rw [hft]
    exact h.named q fd f hq

theorem reparent_same (t : Tab) (p q : Fin NPROC) :
    ((reparent t p).proc q).state = (t.proc q).state ∧
      ((reparent t p).proc q).ofile = (t.proc q).ofile ∧
      SameMem ((reparent t p).proc q) (t.proc q) := by
  by_cases h : (t.proc q).parent = some p
  · have heq : (reparent t p).proc q = { t.proc q with parent := t.initproc } := if_pos h
    rw [heq]
    exact ⟨rfl, rfl, Iff.rfl, rfl, rfl⟩
  · have heq : (reparent t p).proc q = t.proc q := if_neg h
    rw [heq]
    exact ⟨rfl, rfl, Iff.rfl, rfl, rfl⟩

theorem reparent_owned (h : OwnedIn H L t extra s) (p : Fin NPROC) :
    OwnedIn H L (reparent t p) extra s := by
  refine h.relabel (fun q => (reparent_same t p q).2.2) rfl rfl fun hF => ?_
  refine hF.relabel (fun q => (reparent_same t p q).2.1) rfl fun q hq fd => ?_
  rw [(reparent_same t p q).1] at hq
  rw [(reparent_same t p q).2.1]
  exact hF.closed q hq fd

/-- **`exit`** closes the files and leaves the memory of the process as it is. -/
theorem exit_owned {status : CInt} (hp : (t.proc p).state = .runnable)
    (hinit : t.initproc ≠ some p) :
    Triple (OwnedIn H L t extra) (exit L t p status) fun res s => OwnedIn H L res.1 extra s := by
  rw [exit, if_neg hinit]
  have hclose : Triple (OwnedIn H L ((t.set p (t.proc p)).setFiles t.ftable) extra)
      (closeFiles L (List.finRange NOFILE) (t.proc p) t.ftable) _ :=
    closeFiles_spec (List.finRange NOFILE) (t.proc p) t.ftable hp
  refine Triple.bind (hclose.pre fun s hs => ?_) fun res => ?_
  · rw [Tab.set_proc]
    exact hs
  · obtain ⟨x, ft⟩ := res
    refine Triple.of_fact (fun hfacts => ?_) fun s hs => hs.1
    obtain ⟨hsame, hnone⟩ := hfacts
    have hx : ∀ fd, x.ofile fd = none := fun fd => hnone fd (Or.inl (List.mem_finRange fd))
    have hused : x.state ≠ .unused := fun h => by
      have := hsame.unused.mp h
      rw [hp] at this
      cases this
    refine Triple.ret fun s hs => ?_
    obtain ⟨hstate, hofile, -⟩ := reparent_same ((t.set p x).setFiles ft) p p
    have hproc : ((t.set p x).setFiles ft).proc p = x := Tab.set_self t p x
    rw [hproc] at hstate hofile
    refine (reparent_owned hs.2 p).relabel_one ⟨?_, rfl, rfl⟩ fun hF => ?_
    · rw [hstate]
      constructor
      · intro h
        cases h
      · exact fun h => absurd h hused
    · have hclosed : ∀ fd, ((reparent ((t.set p x).setFiles ft) p).proc p).ofile fd = none := by
        intro fd
        rw [hofile]
        exact hx fd
      exact hF.set (fun f => rfl) (fun _ => hclosed) (hF.named p)

/-! ## freeproc and allocproc -/

/-- The slot after `freeproc`. -/
def freed (x : Process) : Process :=
  { x with
    state := .unused, xstate := 0, pid := 0, parent := none
    trapframe := 0, image := ⟨0, 0, []⟩ }

theorem frame_ne_zero (h : pa ∈ frames L) : pa ≠ 0 := by
  obtain ⟨-, hend, -⟩ := frames_bounds h
  have h₁ := L.kernbase_le
  have h₂ := L.trampoline_lt
  rw [KERNBASE_eq] at h₁
  omega

theorem freed_owned (hG : Good L t As m) (hF : FilesOk t extra) (hK : Kept H t As m)
    (hpH : ¬ H.frozen p) (hp : (t.proc p).state ≠ .runnable)
    (hofile : x.ofile = (t.proc p).ofile) (h : Held L (elsewhere t As m p) m s) :
    OwnedIn H L (t.set p (freed x)) extra s := by
  obtain ⟨m', hat, hkeep⟩ := h
  refine ⟨_, m', OwnedAt.replace (A := As p) hG hkeep ⟨fun _ => ⟨rfl, rfl, rfl⟩, fun h => ?_⟩ ?_ ?_,
    hK.replace hG hpH hkeep⟩
  · exact absurd rfl h
  · exact hF.set_same hofile fun _ => hp
  · rw [slotPages_unused rfl, zero_add]
    exact hat

/-- **`freeproc`** gives back every page of the process. -/
theorem freeproc_spec (hused : (t.proc p).state ≠ .unused) (hp : (t.proc p).state ≠ .runnable)
    (hpH : ¬ H.frozen p) (hK : Kept H t As m) :
    Triple (OwnedAt L t extra As m) (freeproc L (t.proc p)) fun x s =>
      (x = freed (t.proc p) ∧ ∀ pa ∈ slotPages m (t.proc p) (As p), pa ∈ s.freelist) ∧
        OwnedIn H L (t.set p x) extra s := by
  intro s hs
  have halive := (hs.good.slots p).alive hused
  have hspace := hs.good.space hused hs.pages
  have hnd := hs.pages.nodup
  rw [total_eq t As m p] at hnd
  have hframe : ∀ pa ∈ slotPages m (t.proc p) (As p), pa ∈ frames L := fun pa hpa =>
    hs.pages.2.mem_frames (by rw [total_eq t As m p]; exact Multiset.mem_add.mpr (Or.inl hpa))
  have htf : (t.proc p).trapframe ≠ 0 := frame_ne_zero (hframe _ (by
    rw [slotPages_used hused]
    exact Multiset.mem_cons_self _ _))
  have hpt : (t.proc p).image.pagetable ≠ 0 := frame_ne_zero (hframe _ (by
    rw [slotPages_used hused]
    exact Multiset.mem_cons_of_mem (Multiset.mem_add.mpr (Or.inl (self_mem_nodes _ _ _)))))
  have hrun : Triple (Space L (t.proc p).image.pagetable (As p)
      ((t.proc p).trapframe ::ₘ elsewhere t As m p) m) (freeproc L (t.proc p)) fun x s =>
        x = freed (t.proc p) ∧ Held L (elsewhere t As m p) m s := by
    refine Triple.ite (fun _ => ?_) fun h => absurd htf h
    refine Triple.bind kfree_space fun _ => ?_
    refine Triple.ite (fun _ => ?_) fun h => absurd hpt h
    refine Triple.bind (procFreepagetable_spec halive.sized halive.top) fun _ => ?_
    exact Triple.ret fun s hs => ⟨rfl, hs⟩
  obtain ⟨x, u, hru, rfl, hheld⟩ := hrun s hspace
  refine ⟨_, u, hru, ⟨rfl, fun pa hpa => ?_⟩, freed_owned hs.good hs.files hK hpH hp rfl hheld⟩
  obtain ⟨m', hat, -⟩ := hheld
  have hmem := hframe pa hpa
  rw [← hat.2.pages] at hmem
  refine Multiset.mem_coe.mp ((Multiset.mem_add.mp hmem).resolve_right fun hin => ?_)
  exact Multiset.disjoint_left.mp (Multiset.nodup_add.mp hnd).2.2 hpa hin

/-- The slots in use, the files and the pages of the kernel are as they were, and the
other slots are not in use. -/
structure SameTab (t t' : Tab) : Prop where
  proc : ∀ q, (t.proc q).state ≠ .unused → t'.proc q = t.proc q
  unused : ∀ q, (t.proc q).state = .unused → (t'.proc q).state = .unused
  ftable : t'.ftable = t.ftable
  kernel : t'.kernel = t.kernel

/-- The slot `np` has been taken for a new process. -/
structure Allocated (t t' : Tab) (np : Fin NPROC) : Prop where
  free : (t.proc np).state = .unused
  used : (t'.proc np).state = .used
  sz : (t'.proc np).image.sz = 0
  other : ∀ q, q ≠ np → t'.proc q = t.proc q
  ftable : t'.ftable = t.ftable
  kernel : t'.kernel = t.kernel

/-- A slot that is freed again. -/
theorem SameTab.freed (hfree : (t.proc np).state = .unused)
    (hother : ∀ q, q ≠ np → t'.proc q = t.proc q) (hft : t'.ftable = t.ftable)
    (hk : t'.kernel = t.kernel) : SameTab t (t'.set np (freed x)) where
  proc q hq := by
    have hne : q ≠ np := by
      rintro rfl
      exact hq hfree
    rw [Tab.set_of_ne _ _ hne, hother q hne]
  unused q hq := by
    by_cases hqn : q = np
    · rw [hqn, Tab.set_self]
      rfl
    · rw [Tab.set_of_ne _ _ hqn, hother q hqn]
      exact hq
  ftable := hft
  kernel := hk

/-- A slot that is not in use has no pages. -/
theorem total_unused (hp : (t.proc p).state = .unused) : total t As m = elsewhere t As m p := by
  rw [total_eq t As m p, slotPages_unused hp, zero_add]

theorem allocFound_spec (hfree : (t.proc p).state = .unused) (hx : x.state = .used)
    (hofile : x.ofile = (t.proc p).ofile) (himage : x.image = (t.proc p).image)
    (hpH : ¬ H.frozen p) : Triple (OwnedIn H L t extra) (allocFound L t p x) fun res s =>
      ((∀ np, res.2 = some np → Allocated t res.1 np) ∧ (res.2 = none → SameTab t res.1)) ∧
        OwnedIn H L res.1 extra s := by
  have hnot : (t.proc p).state ≠ .runnable := by
    rw [hfree]
    decide
  refine Triple.of_ownedIn fun As m hG hF hK => ?_
  rw [total_unused hfree]
  obtain ⟨-, hpt, hsz⟩ := (hG.slots p).null hfree
  rw [← himage] at hpt hsz
  refine Triple.bind kalloc_spec fun o => ?_
  cases o with
  | none =>
    refine Triple.bind (Q := fun x' s => x' = freed x ∧ Held L (elsewhere t As m p) m s) ?_ fun x' => ?_
    · refine Triple.ite (fun h => absurd hpt h) fun _ => ?_
      exact Triple.ret fun s hs => ⟨rfl, m, hs, fun _ _ => rfl⟩
    · refine Triple.ret fun s hs => ⟨⟨fun np h => ?_, fun _ => ?_⟩, ?_⟩
      · cases h
      · rw [hs.1]
        exact SameTab.freed hfree (fun _ _ => rfl) rfl rfl
      · rw [hs.1]
        exact freed_owned hG hF hK hpH hnot hofile hs.2
  | some tf =>
    refine Triple.of_fact (fun hfresh => ?_) fun s hs => hs.1
    refine Triple.of_fact (fun hframe => ?_) fun s hs =>
      hs.2.2.mem_frames (Multiset.mem_cons_self tf _)
    have hkeep : ∀ pa ∈ elsewhere t As m p, update m tf (fun _ => 5) pa = m pa := by
      intro pa hpa
      refine update_of_ne ?_ _ _
      rintro rfl
      exact hfresh hpa
    have hpagetable : Triple (At L (update m tf fun _ => 5) (tf ::ₘ elsewhere t As m p))
        (procPagetable L tf) _ :=
      (procPagetable_spec (frames_lt hframe)).pre fun s hs => ⟨_, hs, fun _ _ => rfl⟩
    refine Triple.bind (hpagetable.pre fun s hs => hs.2) fun o => ?_
    cases o with
    | none =>
      refine Triple.bind (Q := fun x' s => x' = freed x ∧ Held L (elsewhere t As m p) m s) ?_
        fun x' => ?_
      · refine Triple.ite (fun _ => ?_) fun h => absurd (frame_ne_zero hframe) h
        refine Triple.of_exists_and fun m' hsame => ?_
        refine Triple.bind kfree_spec fun _ => ?_
        refine Triple.ret fun s hs => ?_
        refine ⟨rfl, _, hs, fun pa hpa => ?_⟩
        rw [update_of_ne, hsame pa (Multiset.mem_cons_of_mem hpa), hkeep pa hpa]
        rintro rfl
        exact hfresh hpa
      · refine Triple.ret fun s hs => ⟨⟨fun np h => ?_, fun _ => ?_⟩, ?_⟩
        · cases h
        · rw [hs.1]
          exact SameTab.freed hfree (fun _ _ => rfl) rfl rfl
        · rw [hs.1]
          exact freed_owned hG hF hK hpH hnot hofile hs.2
    | some r =>
      refine Triple.ret fun s hs => ?_
      obtain ⟨A, hzero, htop, hspace⟩ := hs
      refine ⟨⟨fun np h => ?_, fun h => ?_⟩, ?_⟩
      · obtain rfl := Option.some.inj h
        refine ⟨hfree, ?_, ?_, fun q hq => Tab.set_of_ne t _ hq, rfl, rfl⟩
        · rw [Tab.set_self]
          exact hx
        · rw [Tab.set_self]
          exact hsz
      · cases h
      have hsized : Sized A x.image.sz := by
        rw [hsz]
        exact sized_zero hzero
      obtain ⟨m', howned, hkeep'⟩ := OwnedAt.of_space (p := p) hG
        (x := { x with trapframe := tf, image := { x.image with pagetable := r } })
        (by rw [hx]; decide) hsized htop (hF.set_same hofile fun _ => hnot) hkeep hspace
      exact ⟨_, m', howned, hK.replace hG hpH hkeep'⟩

/-- **`allocproc`** finds a slot and gives it a trapframe and an empty address space, or
leaves the account as it was. -/
theorem allocproc_spec (hfreeH : ∀ q, (t.proc q).state = .unused → ¬ H.frozen q) :
    Triple (OwnedIn H L t extra) (allocproc L t) fun res s =>
      ((∀ np, res.2 = some np → Allocated t res.1 np) ∧ (res.2 = none → SameTab t res.1)) ∧
        OwnedIn H L res.1 extra s := by
  unfold allocproc
  cases hfind : first fun p => decide ((t.proc p).state = .unused) with
  | none =>
    refine Triple.ret fun s hs => ⟨⟨fun np h => ?_, fun _ => ?_⟩, hs⟩
    · cases h
    · exact ⟨fun _ _ => rfl, fun _ hq => hq, rfl, rfl⟩
  | some p =>
    have hfree : (t.proc p).state = .unused := of_decide_eq_true (first_some hfind)
    have hfound : Triple (OwnedIn H L { t with nextpid := t.nextpid + 1 } extra) (allocFound L
        { t with nextpid := t.nextpid + 1 } p { t.proc p with pid := t.nextpid, state := .used }) _ :=
      allocFound_spec hfree rfl rfl rfl (hfreeH p hfree)
    -- the next process id is no part of what the account is about
    refine (hfound.pre fun s hs => ?_).post fun res s hs => ⟨⟨fun np h => ?_, fun h => ?_⟩, hs.2⟩
    · exact hs.relabel (fun q => ⟨Iff.rfl, rfl, rfl⟩) rfl rfl fun hF =>
        ⟨hF.ref, hF.kind, hF.closed, hF.named⟩
    · obtain ⟨h₁, h₂, h₃, h₄, h₅, h₆⟩ := hs.1.1 np h
      exact ⟨h₁, h₂, h₃, h₄, h₅, h₆⟩
    · obtain ⟨h₁, h₂, h₃, h₄⟩ := hs.1.2 h
      exact ⟨h₁, h₂, h₃, h₄⟩

/-! ## fork -/

theorem dupFiles_spec {ofile : Fin NOFILE → Option (Fin NFILE)} (fds : List (Fin NOFILE)) :
    ∀ ft extra, (∀ fd f, ofile fd = some f → 1 ≤ (ft f).ref) →
      Triple (OwnedIn H L (t.setFiles ft) extra) (dupFiles ofile fds ft) fun ft' s =>
        OwnedIn H L (t.setFiles ft') (fun f => extra f + fds.countP fun fd => ofile fd = some f) s := by
  induction fds with
  | nil => exact fun ft extra _ => Triple.ret fun s hs => hs
  | cons fd fds ih =>
    intro ft extra href
    unfold dupFiles
    cases hfd : ofile fd with
    | none =>
      refine (ih ft extra href).post fun ft' s hs => ?_
      simp only [List.countP_cons, hfd, reduceCtorEq, decide_false, Bool.false_eq_true, if_false]
      exact hs
    | some f =>
      have hdup : Triple (OwnedIn H L (t.setFiles ft) extra) (filedup ft f) _ :=
        filedup_spec (t := t.setFiles ft) (href fd f hfd)
      refine Triple.bind hdup fun ft₁ => ?_
      refine Triple.of_fact (fun hmore => ?_) fun s hs => hs.1
      refine ((ih ft₁ (bump extra f) fun i g hi => le_trans (href i g hi) (hmore g).1).pre
        fun s hs => hs.2).post fun ft' s hs => ?_
      have hcount : (fun g => bump extra f g + fds.countP fun fd => ofile fd = some g)
          = fun g => extra g + (fd :: fds).countP fun fd => ofile fd = some g := by
        funext g
        rw [List.countP_cons, hfd]
        by_cases hgf : g = f
        · rw [hgf, bump_self, if_pos (decide_eq_true rfl)]
          omega
        · rw [bump_of_ne extra hgf, if_neg fun h => hgf (Option.some.inj (of_decide_eq_true h)).symm]
          omega
      rw [hcount] at hs
      exact hs

theorem countP_finRange (x : Process) (f : Fin NFILE) :
    (List.finRange NOFILE).countP (fun fd => x.ofile fd = some f) = refs x f := by
  rw [refs, List.countP_eq_length_filter, Fin.univ_def]
  simp [Finset.card, Finset.filter]

/-- The child gets a copy of the parent's memory. -/
theorem uvmcopy_owned (hG : Good L t As m) (hp : (t.proc p).state ≠ .unused)
    (hnp : (t.proc np).state ≠ .unused) (hne : p ≠ np) (hsz : (t.proc np).image.sz = 0) :
    Triple (At L m (total t As m)) (uvmcopy L (t.proc p).image.pagetable
      (t.proc np).image.pagetable (t.proc p).image.sz) fun ret s =>
      ret = 0 ∧ (∃ C, (Copied (As np) C (As p) ∧ C.n = (As p).n) ∧
        (Sized C (t.proc p).image.sz ∧ HasTop L C (t.proc np).trapframe) ∧
        Space L (t.proc np).image.pagetable C ((t.proc np).trapframe ::ₘ elsewhere t As m np) m s) ∨
      ret = -1 ∧ Space L (t.proc np).image.pagetable (As np)
        ((t.proc np).trapframe ::ₘ elsewhere t As m np) m s := by
  have hparent := (hG.slots p).alive hp
  have hchild := (hG.slots np).alive hnp
  have hzero : (As np).n = 0 := by
    have h := hchild.sized
    rw [hsz] at h
    exact h
  have hsub : ∀ pa ∈ pages m (t.proc p).image.pagetable (As p),
      pa ∈ (t.proc np).trapframe ::ₘ elsewhere t As m np := fun pa hpa =>
    Multiset.mem_cons_of_mem (mem_elsewhere_slot hne (by
      rw [slotPages_used hp]
      exact Multiset.mem_cons_of_mem hpa))
  refine ((uvmcopy_spec hparent.rep hsub hparent.sized hzero).pre fun s hs =>
    hG.space hnp hs).post fun ret s hs => ?_
  rcases hs with ⟨hret, C, hn, hcopied, hspace⟩ | ⟨hret, hspace⟩
  · refine Or.inl ⟨hret, C, ⟨hcopied, hn⟩, ⟨?_, hcopied.hasTop hspace.wf hchild.top⟩, hspace⟩
    rw [Sized, hn]
    exact hparent.sized
  · exact Or.inr ⟨hret, hspace⟩

/-- The child gets the descriptors for which the call has taken references. -/
theorem OwnedIn.inherit {y : Process}
    (hs : OwnedIn H L ((t.set np x).setFiles ft) (fun f => extra f +
      (List.finRange NOFILE).countP fun fd => (t.proc p).ofile fd = some f) s) (hne : p ≠ np)
    (hx : x.state ≠ .runnable) (hsame : SameMem y x) (hy : y.state = .runnable)
    (hofile : ∀ fd, y.ofile fd = if ((t.proc p).ofile fd).isSome then (t.proc p).ofile fd
      else x.ofile fd) : OwnedIn H L ((t.set np y).setFiles ft) extra s := by
  have hset : ((t.set np x).setFiles ft).set np y = (t.set np y).setFiles ft :=
    congrArg (fun u : Tab => u.setFiles ft) (Tab.set_set t np x y)
  have hproc : ((t.set np x).setFiles ft).proc np = x := Tab.set_self t np x
  rw [← hset]
  refine hs.relabel_one (by rw [hproc]; exact hsame) fun hF => ?_
  have hnone : ∀ fd, x.ofile fd = none := fun fd => by
    have := hF.closed np (by rw [hproc]; exact hx) fd
    rw [hproc] at this
    exact this
  have hcopy : y.ofile = (t.proc p).ofile := by
    funext fd
    rw [hofile fd, hnone fd]
    cases (t.proc p).ofile fd with
    | none => rfl
    | some g => rfl
  refine hF.set (fun f => ?_) (fun h => absurd hy h) fun fd f hfd => ?_
  · have hrefs : refs x f = 0 := by
      rw [refs, Finset.card_eq_zero, Finset.filter_eq_empty_iff]
      intro fd _ hfd
      rw [hnone fd] at hfd
      cases hfd
    rw [hproc, hrefs, countP_finRange, refs, hcopy, refs]
    omega
  · rw [hcopy] at hfd
    refine hF.named p fd f ?_
    show ((t.set np x).proc p).ofile fd = some f
    rw [Tab.set_of_ne t x hne]
    exact hfd

/-- The slots in use, with their memory. -/
def inUse (t : Tab) (As : Fin NPROC → AS) (m : ℕ → Page) : Snapshot :=
  ⟨fun q => (t.proc q).state ≠ .unused, t, As, m⟩

/-- The child's memory is a copy of the parent's. -/
structure Twin (C A : AS) : Prop where
  n : C.n = A.n
  flags : ∀ v < A.n, PTE_FLAGS (C.pte v) = PTE_FLAGS (A.pte v)
  page : ∀ v < A.n, C.page v = A.page v

theorem twin_of_copied {A₀ : AS} (h : Copied A₀ C A) (hn : C.n = A.n) : Twin C A :=
  ⟨hn, fun v hv => h.flags v (hn ▸ hv), fun v hv => h.page v (hn ▸ hv)⟩

/-- `fork` has made a child in the slot `np`, with a copy of the parent's memory. -/
structure Forked (L : Layout) (t t' : Tab) (extra : Fin NFILE → ℕ) (As : Fin NPROC → AS)
    (m : ℕ → Page) (p np : Fin NPROC) (s : Phys) : Prop where
  free : (t.proc np).state = .unused
  runnable : (t'.proc np).state = .runnable
  parent : (t'.proc np).parent = some p
  sz : (t'.proc np).image.sz = (t.proc p).image.sz
  name : (t'.proc np).image.name = (t.proc p).image.name
  proc : ∀ q, q ≠ np → t'.proc q = t.proc q
  memory : ∃ As' m', OwnedAt L t' extra As' m' s ∧ Kept (inUse t As m) t' As' m' ∧
    Twin (As' np) (As p)

/-- `fork` has failed, and all that it took has been given back. -/
structure Unforked (L : Layout) (t t' : Tab) (extra : Fin NFILE → ℕ) (As : Fin NPROC → AS)
    (m : ℕ → Page) (s : Phys) : Prop where
  same : SameTab t t'
  memory : OwnedIn (inUse t As m) L t' extra s

/-- The record of the child in the slot `np` once it has its memory. -/
def copied (t : Tab) (p np : Fin NPROC) : Process :=
  { t.proc np with
    image := ⟨(t.proc np).image.pagetable, (t.proc p).image.sz, (t.proc p).image.name⟩ }

/-- The record of the child at the end of `fork`. -/
def child (t : Tab) (p np : Fin NPROC) : Process :=
  { copied t p np with
    ofile := fun fd => if ((t.proc p).ofile fd).isSome then (t.proc p).ofile fd
      else (t.proc np).ofile fd
    parent := some p
    state := .runnable }

/-- `fork` after a copy that succeeded: the trapframe and the descriptors. -/
theorem forkChild_spec {pid : ℤ} (hG : Good L t As m) (hF : FilesOk t extra)
    (hp : (t.proc p).state ≠ .unused) (hnp : (t.proc np).state = .used) (hne : p ≠ np)
    (hC : Sized C (t.proc p).image.sz ∧ HasTop L C (t.proc np).trapframe) :
    Triple (Space L (t.proc np).image.pagetable C ((t.proc np).trapframe ::ₘ elsewhere t As m np) m)
      (do
        memmovePage (t.proc np).trapframe (t.proc p).trapframe
        writeWord (t.proc np).trapframe a0Off 0
        let ft ← dupFiles (t.proc p).ofile (List.finRange NOFILE) t.ftable
        pure ((t.set np (child t p np)).setFiles ft, pid)) fun res s =>
      (∃ ft, res = ((t.set np (child t p np)).setFiles ft, pid)) ∧
      ∃ As' m', OwnedAt L res.1 extra As' m' s ∧
        Kept ⟨fun q => q ≠ np, t, As, m⟩ res.1 As' m' ∧ As' np = C := by
  have hused : (t.proc np).state ≠ .unused := by
    rw [hnp]
    decide
  have hnot : (t.proc np).state ≠ .runnable := by
    rw [hnp]
    decide
  have htf : (t.proc p).trapframe ∈ elsewhere t As m np := mem_elsewhere_slot hne (by
    rw [slotPages_used hp]
    exact Multiset.mem_cons_self _ _)
  refine Triple.bind (memmovePage_space (Multiset.mem_cons_self _ _)
    (Multiset.mem_cons_of_mem htf)) fun _ => ?_
  refine Triple.bind (writeWord_space (Multiset.mem_cons_self _ _)) fun _ => ?_
  rw [update_idem]
  -- from here on the memory of all slots is kept, that of the child included
  intro s hs
  have hnd := (Multiset.nodup_cons.mp hs.nodup_rest).1
  obtain ⟨m', howned, hkeep⟩ := OwnedAt.of_space hG (p := np) (x := copied t p np) hused
    hC.1 hC.2 (hF.set_same rfl id) (fun pa hpa => update_of_ne (by
      rintro rfl
      exact hnd hpa) _ _) hs
  have hdup : Triple (OwnedIn ⟨fun _ => True, t.set np (copied t p np), update As np C, m'⟩
      L ((t.set np (copied t p np)).setFiles t.ftable) extra)
      (dupFiles (t.proc p).ofile (List.finRange NOFILE) t.ftable) _ :=
    dupFiles_spec (List.finRange NOFILE) t.ftable extra fun fd f hfd =>
      le_trans (Nat.le_add_left 1 _) (hF.ref_pos hfd)
  have hrest : Triple _ (dupFiles (t.proc p).ofile (List.finRange NOFILE) t.ftable >>= fun ft =>
      (pure ((t.set np (child t p np)).setFiles ft, pid) : Kernel (Tab × ℤ))) _ :=
    Triple.bind hdup fun ft => Triple.ret (a := ((t.set np (child t p np)).setFiles ft, pid))
      (Q := fun res s => (∃ ft, res = ((t.set np (child t p np)).setFiles ft, pid)) ∧
        OwnedIn ⟨fun _ => True, t.set np (copied t p np), update As np C, m'⟩
          L res.1 extra s) fun s hs =>
        ⟨⟨ft, rfl⟩, OwnedIn.inherit hs hne hnot
          ⟨iff_of_false (fun h => by cases h) hused, rfl, rfl⟩ rfl fun _ => rfl⟩
  obtain ⟨res, u, hrun, hres, As', m'', hs', hK'⟩ :=
    hrest s ⟨_, m', howned, Kept.refl _ _ _ _⟩
  have hK : Kept ⟨fun q => q ≠ np, t, As, m⟩ (t.set np (copied t p np))
      (update As np C) m' :=
    (Kept.refl _ t As m).replace hG (fun h => h rfl) hkeep
  refine ⟨res, u, hrun, hres, As', m'', hs', hK.trans hK' fun _ _ => trivial, ?_⟩
  exact (hK' np trivial).space.trans (update_self np C As)

/-- **`fork`** gives the child its own pages with the contents of the parent's, or gives
everything back. -/
theorem fork_spec (hp : (t.proc p).state = .runnable) :
    Triple (OwnedAt L t extra As m) (fork L t p) fun res s =>
      (∃ np, Forked L t res.1 extra As m p np s) ∨
      res.2 = -1 ∧ Unforked L t res.1 extra As m s := by
  have halloc : Triple (OwnedAt L t extra As m) (allocproc L t) _ :=
    (allocproc_spec (H := inUse t As m) fun q hq h => h hq).pre fun s hs =>
      ⟨As, m, hs, Kept.refl _ t As m⟩
  refine Triple.bind halloc fun res => ?_
  obtain ⟨t₁, o⟩ := res
  cases o with
  | none => exact Triple.ret fun s hs => Or.inr ⟨rfl, hs.1.2 rfl, hs.2⟩
  | some np =>
    refine Triple.of_fact (fun hfacts => ?_) fun s hs => hs.1.1 np rfl
    refine Triple.pre ?_ fun s hs => hs.2
    obtain ⟨hfree, hused, hsz, hother, hft, hk⟩ := hfacts
    have hne : p ≠ np := by
      rintro rfl
      rw [hp] at hfree
      cases hfree
    have hp₁ : (t₁.proc p).state ≠ .unused := by
      rw [hother p hne, hp]
      decide
    have hnp : (t₁.proc np).state ≠ .unused := by
      rw [hused]
      decide
    have hnpH : ¬ (inUse t As m).frozen np := fun h => h hfree
    refine Triple.of_ownedIn fun As₁ m₁ hG hF hK => ?_
    have hAp : As₁ p = As p := (hK p (by show (t.proc p).state ≠ _; rw [hp]; decide)).space
    refine Triple.bind (uvmcopy_owned hG hp₁ hnp hne hsz) fun ret => ?_
    refine Triple.ite (fun hret => ?_) fun hret => ?_
    · -- the copy failed, the child is freed
      refine Triple.pre (P := fun s => ∃ m', OwnedAt L t₁ extra As₁ m' s ∧
        Kept (inUse t As m) t₁ As₁ m') ?_ fun s hs => ?_
      · refine Triple.of_exists fun m' => ?_
        refine Triple.of_fact (fun hK' => ?_) fun s hs => hs.2
        refine Triple.bind ((freeproc_spec hnp (by rw [hused]; decide) hnpH hK').pre
          fun s hs => hs.1) fun x => Triple.ret fun s hs => Or.inr ⟨rfl, ?_, hs.2⟩
        rw [hs.1.1]
        exact SameTab.freed hfree hother hft hk
      · have hspace := (hs.resolve_left fun h => by omega).2
        have halive := (hG.slots np).alive hnp
        obtain ⟨m', howned, hkeep⟩ := OwnedAt.of_space hG (x := t₁.proc np) (p := np) hnp
          halive.sized halive.top (hF.set_same rfl id) (fun _ _ => rfl) hspace
        have hK' := hK.replace (x := t₁.proc np) (A := As₁ np) hG hnpH hkeep
        rw [Tab.set_proc, update_eq_self] at howned hK'
        exact ⟨m', howned, hK'⟩
    · refine Triple.pre (P := fun s => ∃ C, (Twin C (As p) ∧ Sized C (t₁.proc p).image.sz ∧
        HasTop L C (t₁.proc np).trapframe) ∧ Space L (t₁.proc np).image.pagetable C
          ((t₁.proc np).trapframe ::ₘ elsewhere t₁ As₁ m₁ np) m₁ s) ?_ fun s hs => ?_
      · refine Triple.of_exists fun C => ?_
        refine Triple.of_and fun hC => ?_
        refine (forkChild_spec hG hF hp₁ hused hne hC.2).post fun res s hs => Or.inl ⟨np, ?_⟩
        obtain ⟨⟨ft, hres⟩, As', m', howned, hK', hnew⟩ := hs
        have hproc : res.1.proc np = child t₁ p np := by
          rw [hres]
          exact Tab.set_self t₁ np _
        refine ⟨hfree, ?_, ?_, ?_, ?_, fun q hq => ?_, As', m', howned, ?_, ?_⟩
        · rw [hproc]
          rfl
        · rw [hproc]
          rfl
        · rw [hproc, ← hother p hne]
          rfl
        · rw [hproc, ← hother p hne]
          rfl
        · rw [hres, ← hother q hq]
          exact Tab.set_of_ne t₁ _ hq
        · refine hK.trans hK' fun q hq => ?_
          rintro rfl
          exact hq hfree
        · rw [hnew]
          exact hC.1
      · obtain ⟨C, hcopied, hC, hspace⟩ := (hs.resolve_right fun h => by omega).2
        rw [hAp] at hcopied
        exact ⟨C, ⟨twin_of_copied hcopied.1 hcopied.2, hC⟩, hspace⟩

theorem fork_owned (hp : (t.proc p).state = .runnable)
    (hfreeH : ∀ q, (t.proc q).state = .unused → ¬ H.frozen q) :
    Triple (OwnedIn H L t extra) (fork L t p) fun res s => OwnedIn H L res.1 extra s := by
  rintro s ⟨As, m, hs, hK⟩
  have hfrozen : ∀ q, H.frozen q → (inUse t As m).frozen q := fun q hq hun => hfreeH q hun hq
  obtain ⟨res, u, hrun, hres⟩ := fork_spec hp s hs
  refine ⟨res, u, hrun, ?_⟩
  rcases hres with ⟨np, hf⟩ | ⟨-, hf⟩
  · obtain ⟨As', m', howned, hK', -⟩ := hf.memory
    exact ⟨As', m', howned, hK.trans hK' hfrozen⟩
  · obtain ⟨As', m', howned, hK'⟩ := hf.memory
    exact ⟨As', m', howned, hK.trans hK' hfrozen⟩

/-! ## wait -/

/-- The pages of the processes that a call reaps are free afterwards. -/
def Reaped (t t' : Tab) (As : Fin NPROC → AS) (m : ℕ → Page) (s : Phys) : Prop :=
  ∀ q, (t.proc q).state = .zombie → (t'.proc q).state = .unused →
    ∀ pa ∈ slotPages m (t.proc q) (As q), pa ∈ s.freelist

theorem Reaped.refl (t : Tab) (As : Fin NPROC → AS) (m : ℕ → Page) (s : Phys) :
    Reaped t t As m s := by
  intro q hz hu
  rw [hz] at hu
  cases hu

/-- **`wait`** gives back every page of the child that it reaps. -/
theorem wait_owned (hp : (t.proc p).state = .runnable) (hpH : ¬ H.frozen p)
    (hzombieH : ∀ q, (t.proc q).state = .zombie → ¬ H.frozen q) (hK : Kept H t As m) :
    Triple (OwnedAt L t extra As m) (wait L t p addr) fun o s =>
      ∀ res, o = some res → Reaped t res.1 As m s ∧ OwnedIn H L res.1 extra s := by
  have hret : ∀ k : ℤ, Triple (OwnedIn H L t extra) (pure (some (t, k)) : Kernel (Option (Tab × ℤ)))
      fun o s => ∀ res, o = some res → Reaped t res.1 As m s ∧ OwnedIn H L res.1 extra s := by
    refine fun k => Triple.ret fun s hs res hres => ?_
    obtain rfl := Option.some.inj hres
    exact ⟨Reaped.refl t As m s, hs⟩
  unfold wait
  cases hfind : first fun q => decide ((t.proc q).parent = some p ∧ (t.proc q).state = .zombie) with
  | none =>
    refine Triple.ite (fun _ => Triple.ret fun s hs res hres => ?_) fun _ => ?_
    · cases hres
    · exact (hret (-1)).pre fun s hs => ⟨As, m, hs, hK⟩
  | some q =>
    have hq : (t.proc q).state = .zombie := (of_decide_eq_true (first_some hfind)).2
    have hused : (t.proc q).state ≠ .unused := by
      rw [hq]
      decide
    have hne : q ≠ p := by
      rintro rfl
      rw [hp] at hq
      cases hq
    refine Triple.bind (Q := fun _ s => ∃ As' m', OwnedAt L t extra As' m' s ∧
      Kept H t As' m' ∧ slotPages m' (t.proc q) (As' q) = slotPages m (t.proc q) (As q)) ?_
      fun r => ?_
    · refine Triple.ite (fun _ => ?_) fun _ => Triple.ret fun s hs => ⟨As, m, hs, hK, rfl⟩
      refine Triple.of_fact (fun hG => ?_) fun s hs => hs.good
      refine (copyout_owned (by rw [hp]; decide)).post fun r s hs => ?_
      obtain ⟨A', m', howned, hkeep⟩ := hs
      have hK' := hK.replace (x := t.proc p) (A := A') hG hpH hkeep
      rw [Tab.set_proc] at hK'
      refine ⟨_, m', howned, hK', ?_⟩
      rw [update_of_ne hne]
      exact ((hG.slots q).congr fun pa hpa => hkeep pa (mem_elsewhere_slot hne hpa)).2
    · refine Triple.ite (fun _ => (hret (-1)).pre fun s hs => ?_) fun _ => ?_
      · obtain ⟨As', m', howned, hK', -⟩ := hs
        exact ⟨As', m', howned, hK'⟩
      · refine Triple.of_exists fun As' => Triple.of_exists fun m' => ?_
        refine Triple.of_fact (fun hfacts => ?_) fun s hs => hs.2
        obtain ⟨hK', hpages⟩ := hfacts
        have hfree : Triple (OwnedAt L t extra As' m') (freeproc L (t.proc q)) _ :=
          freeproc_spec hused (by rw [hq]; decide) (hzombieH q hq) hK'
        refine Triple.bind (hfree.pre fun s hs => hs.1)
          fun x => Triple.ret fun s hs res hres => ?_
        obtain rfl := Option.some.inj hres
        obtain ⟨⟨rfl, hfreed⟩, howned⟩ := hs
        refine ⟨fun q' hz hu => ?_, howned⟩
        by_cases heq : q' = q
        · rw [heq, ← hpages]
          exact hfreed
        · rw [Tab.set_of_ne t _ heq, hz] at hu
          cases hu

end Calls

/-
# exec is atomic

Whatever the file contains and wherever `readi`, `kalloc`, `uvmalloc`, `loadseg` or
`copyout` fails, `exec` ends its transaction once and holds no inode when it returns; and
if it returns -1 the process has the memory, the trapframe and the name that it had, and
every page that was allocated is free again (`exec_atomic`).

The memory part is that of `ExecSpec.lean`; the only changes of the session are those of
`exec` itself and of `bad`.
-/
import Xv6.Sbrk

namespace Exec

open Vm Hoare Calls Transition
open Proc (NPROC)

variable {L : Layout} {t : Tab} {m₀ m₁ : ℕ → Page} {r tf sz ip : ℕ} {A B : AS} {rest : Multiset ℕ}
variable {fs : Files} {p : Image} {P : Phys → Prop} {R : Session → Prop} {σ₀ : Session}

/-! ## Sessions -/

/-- The session of a call that has begun `b` and ended `e` operations since `σ₀`, and
holds the references `refs` and the locks `locked` beside what it held then. -/
structure Since (σ₀ : Session) (b e : ℕ) (refs locked : List ℕ) (σ : Session) : Prop where
  begun : σ.begun = σ₀.begun + b
  ended : σ.ended = σ₀.ended + e
  refs : σ.refs = refs ++ σ₀.refs
  locked : σ.locked = locked ++ σ₀.locked

/-- The call has begun an operation and has the inode locked. -/
abbrev Opened (σ₀ : Session) (ip : ℕ) : Session → Prop := Since σ₀ 1 0 [ip] [ip]

/-- The call has begun and ended one operation, and holds what it held before. -/
abbrev Closed (σ₀ : Session) : Session → Prop := Since σ₀ 1 1 [] []

theorem beginOp_spec :
    Triple (fun s => P s.1 ∧ s.2 = σ₀) beginOp fun _ s => P s.1 ∧ Since σ₀ 1 0 [] [] s.2 := by
  rintro ⟨s, σ⟩ ⟨hP, rfl⟩
  exact ⟨(), _, rfl, hP, rfl, rfl, rfl, rfl⟩

variable {path : List UInt8} {s s' : Phys} {argv : List ℕ} {elf : Elfhdr}
    {x : Process}

theorem namei_spec : Triple (fun s => P s.1 ∧ Since σ₀ 1 0 [] [] s.2) (namei fs path) fun o s =>
      P s.1 ∧ Since σ₀ 1 0 o.toList [] s.2 := by
  rintro ⟨s, σ⟩ ⟨hP, hσ⟩
  unfold namei
  cases fs.namei path with
  | none => exact ⟨none, _, rfl, hP, hσ⟩
  | some ip => exact ⟨some ip, _, rfl, hP, hσ.begun, hσ.ended, congrArg (ip :: ·) hσ.refs, hσ.locked⟩

theorem ilock_spec : Triple (fun s => P s.1 ∧ Since σ₀ 1 0 [ip] [] s.2) (ilock ip) fun _ s =>
      P s.1 ∧ Opened σ₀ ip s.2 := by
  rintro ⟨s, σ⟩ ⟨hP, hσ⟩
  have hmem : ip ∈ σ.refs := by
    rw [hσ.refs]
    exact List.mem_cons_self
  exact ⟨(), _, if_pos hmem, hP, hσ.begun, hσ.ended, hσ.refs, congrArg (ip :: ·) hσ.locked⟩

theorem iunlockput_spec : Triple (fun s => P s.1 ∧ Opened σ₀ ip s.2) (iunlockput ip) fun _ s =>
      P s.1 ∧ Since σ₀ 1 0 [] [] s.2 := by
  rintro ⟨s, σ⟩ ⟨hP, hσ⟩
  have hrefs : σ.refs = ip :: σ₀.refs := hσ.refs
  have hlocked : σ.locked = ip :: σ₀.locked := hσ.locked
  have hmem : ip ∈ σ.locked ∧ ip ∈ σ.refs := by
    rw [hrefs, hlocked]
    exact ⟨List.mem_cons_self, List.mem_cons_self⟩
  refine ⟨(), _, if_pos hmem, hP, hσ.begun, hσ.ended, ?_, ?_⟩
  · show σ.refs.erase ip = σ₀.refs
    rw [hrefs, List.erase_cons_head]
  · show σ.locked.erase ip = σ₀.locked
    rw [hlocked, List.erase_cons_head]

theorem endOp_spec :
    Triple (fun s => P s.1 ∧ Since σ₀ 1 0 [] [] s.2) endOp fun _ s => P s.1 ∧ Closed σ₀ s.2 := by
  rintro ⟨s, σ⟩ ⟨hP, hσ⟩
  exact ⟨(), _, rfl, hP, hσ.begun, congrArg (· + 1) hσ.ended, hσ.refs, hσ.locked⟩

theorem stable_opened (σ₀ : Session) (ip : ℕ) : Stable (Opened σ₀ ip) :=
  fun _ _ h => ⟨h.begun, h.ended, h.refs, h.locked⟩

/-! ## The label bad -/

/-- `bad` while the inode is locked, with no page table yet. -/
theorem bad_early : Triple (fun s => P s.1 ∧ Opened σ₀ ip s.2) (bad L p 0 0 (some ip)) fun res s =>
      res = (-1, p) ∧ P s.1 ∧ Closed σ₀ s.2 := by
  rw [bad, if_neg fun h => h rfl]
  exact Triple.bind iunlockput_spec fun _ => Triple.bind endOp_spec fun _ =>
    Triple.ret fun _ hs => ⟨rfl, hs⟩

/-- `bad` while the program is being loaded. -/
theorem bad_loading (hr : r ≠ 0) :
    Triple (fun s => Program L r sz tf rest m₀ s.1 ∧ Opened σ₀ ip s.2) (bad L p r sz (some ip))
      fun res s => res = (-1, p) ∧ Held L rest m₀ s.1 ∧ Closed σ₀ s.2 := by
  rw [bad, if_pos hr]
  exact Triple.bind (procFreepagetable_program.onFst _) fun _ => Triple.bind iunlockput_spec
    fun _ => Triple.bind endOp_spec fun _ => Triple.ret fun _ hs => ⟨rfl, hs⟩

/-- `bad` after the transaction. -/
theorem bad_late (hr : r ≠ 0) :
    Triple (fun s => Program L r sz tf rest m₀ s.1 ∧ R s.2) (bad L p r sz none)
      fun res s => res = (-1, p) ∧ Held L rest m₀ s.1 ∧ R s.2 := by
  rw [bad, if_pos hr]
  exact Triple.bind (procFreepagetable_program.onFst R) fun _ => Triple.ret fun _ hs => ⟨rfl, hs⟩

/-! ## exec -/

/-- A frame that a page table lives in is not the null pointer. -/
theorem root_ne_zero (h : Space L r A rest m₀ s) : r ≠ 0 := by
  obtain ⟨m, hat, -, -⟩ := h
  exact frame_ne_zero (hat.2.mem_frames (Multiset.mem_add.mpr (Or.inl
    (Multiset.mem_add.mpr (Or.inl (self_mem_nodes _ _ _))))))

/-- The second phase of `exec` is the stack and the switch of `ExecSpec.lean`. -/
theorem execCommit_eq (L : Layout) (tf : ℕ) (p : Image) (path : List UInt8) (argv : List ℕ)
    (elf : Elfhdr) (r sz : ℕ) :
    execCommit L tf p path argv elf r sz = onFst (execTop L r sz argv) >>= fun res =>
      match res.2 with
      | none => bad L p r res.1 none
      | some sp => onFst (switch L tf p elf.entry sp) >>= fun _ =>
          pure (argv.length, ⟨r, res.1, lastElement path⟩) := by
  simp only [execCommit, execTop, switch, onFst_bind, bind_assoc]
  refine congrArg _ (funext fun sz1 => ?_)
  by_cases hzero : sz1 = 0
  · rw [if_pos hzero, if_pos hzero, onFst_pure, pure_bind]
  · rw [if_neg hzero, if_neg hzero]
    rw [onFst_bind, bind_assoc]
    refine congrArg _ (funext fun _ => ?_)
    rw [onFst_bind, bind_assoc]
    refine congrArg _ (funext fun o => ?_)
    cases o with
    | none => rfl
    | some sp => rfl

/-- **The second phase of `exec`**, without the inode and the transaction. -/
theorem execCommit_spec (hr : r ≠ 0) (hrep : Rep m₁ p.pagetable B) (hsz : Sized B p.sz)
    (htop : HasTop L B tf) (htf : tf ∈ rest) (hnd : (pages m₁ p.pagetable B + rest).Nodup) :
    Triple (fun s => Loading L r sz tf (pages m₁ p.pagetable B + rest) m₁ s.1 ∧ R s.2)
      (execCommit L tf p path argv elf r sz) fun res s =>
        Replaced L tf p B rest m₁ res s.1 ∧ R s.2 := by
  rw [execCommit_eq]
  refine Triple.bind (execTop_spec.onFst R) fun res => ?_
  obtain ⟨sz1, o⟩ := res
  cases o with
  | none => exact (bad_late hr).post fun res s hs => ⟨Or.inl ⟨hs.1, hs.2.1⟩, hs.2.2⟩
  | some sp =>
    refine Triple.bind ((switch_spec hrep hsz htop htf hnd).onFst R) fun _ => ?_
    exact Triple.ret fun s hs => ⟨Or.inr ⟨Int.natCast_nonneg _, hs.1⟩, hs.2⟩

/-- The first phase of `exec`, with the inode locked. -/
theorem execProgram_spec (hrep : Rep m₁ p.pagetable B) (hsz : Sized B p.sz) (htop : HasTop L B tf)
    (htf : tf ∈ rest) :
    Triple (fun s => Held L (pages m₁ p.pagetable B + rest) m₁ s.1 ∧ Opened σ₀ ip s.2)
      (execProgram L fs tf p path argv ip elf) fun res s =>
        Replaced L tf p B rest m₁ res s.1 ∧ Closed σ₀ s.2 := by
  refine Triple.of_fact (fun hnd => ?_) fun s hs => hs.1.nodup
  refine Triple.of_fact (fun hframe => ?_) fun s hs =>
    hs.1.mem_frames (Multiset.mem_add.mpr (Or.inr htf))
  refine Triple.bind ((procPagetable_spec (frames_lt hframe)).onFst (Opened σ₀ ip)) fun o => ?_
  cases o with
  | none =>
    have hbad : Triple (fun s => Held L (pages m₁ p.pagetable B + rest) m₁ s.1 ∧ Opened σ₀ ip s.2)
        (bad L p 0 0 (some ip)) _ := bad_early
    exact hbad.post fun res s hs => ⟨Or.inl ⟨hs.1, hs.2.1⟩, hs.2.2⟩
  | some r =>
    refine Triple.of_fact (fun hr => ?_) fun s hs => show r ≠ 0 by
      obtain ⟨⟨A, -, -, hspace⟩, -⟩ := hs
      exact root_ne_zero hspace
    refine Triple.pre (P := fun s => Loading L r 0 tf (pages m₁ p.pagetable B + rest) m₁ s.1 ∧
      Opened σ₀ ip s.2) ?_ fun s hs => ⟨loading_empty hs.1, hs.2⟩
    refine Triple.bind (execLoad_spec (stable_opened σ₀ ip) _ _ _) fun res => ?_
    refine Triple.ite (fun _ => ?_) fun _ => ?_
    · exact Triple.bind iunlockput_spec fun _ => Triple.bind endOp_spec fun _ =>
        execCommit_spec hr hrep hsz htop htf hnd
    · refine ((bad_loading hr).pre fun s hs => ⟨hs.1.program, hs.2⟩).post fun res s hs => ?_
      exact ⟨Or.inl ⟨hs.1, hs.2.1⟩, hs.2.2⟩

/-- **`exec`** leaves the process as it was or replaces its program, and its session with
the file system is over. -/
theorem exec_spec (hrep : Rep m₁ p.pagetable B) (hsz : Sized B p.sz) (htop : HasTop L B tf)
    (htf : tf ∈ rest) : Triple (fun s => Held L (pages m₁ p.pagetable B + rest) m₁ s.1 ∧ s.2 = σ₀)
      (exec L fs tf p path argv) fun res s =>
        Replaced L tf p B rest m₁ res s.1 ∧ Closed σ₀ s.2 := by
  refine Triple.bind beginOp_spec fun _ => Triple.bind namei_spec fun o => ?_
  cases o with
  | none =>
    exact Triple.bind endOp_spec fun _ => Triple.ret fun s hs => ⟨Or.inl ⟨rfl, hs.1⟩, hs.2⟩
  | some ip =>
    refine Triple.bind ilock_spec fun _ => ?_
    refine Triple.bind (readi_spec (stable_opened σ₀ ip)) fun b => ?_
    have hearly : Triple (fun s => Held L (pages m₁ p.pagetable B + rest) m₁ s.1 ∧ Opened σ₀ ip s.2)
        (bad L p 0 0 (some ip)) fun res s =>
          Replaced L tf p B rest m₁ res s.1 ∧ Closed σ₀ s.2 :=
      bad_early.post fun res s hs => ⟨Or.inl ⟨hs.1, hs.2.1⟩, hs.2.2⟩
    refine Triple.ite (fun _ => hearly) fun _ => Triple.ite (fun _ => hearly) fun _ => ?_
    exact execProgram_spec hrep hsz htop htf

/-! ## sys_exec -/

/-- **`sys_exec`**: either it does not come to `exec`, or `exec` has ended its session. -/
theorem sysExec_spec {upath uargv : ℕ} (hrep : Rep m₁ p.pagetable B) (hsz : Sized B p.sz)
    (htop : HasTop L B tf) (htf : tf ∈ rest) :
    Triple (fun s => At L m₁ (pages m₁ p.pagetable B + rest) s.1 ∧ s.2 = σ₀)
      (sysExec L fs tf p upath uargv) fun res s =>
        Replaced L tf p B rest m₁ res s.1 ∧ (s.2 = σ₀ ∧ res.1 = -1 ∨ Closed σ₀ s.2) := by
  refine Triple.bind ((Reads.copyinstr _ _ _ _ _).onFst (· = σ₀)) fun path => ?_
  refine Triple.ite (fun _ => Triple.ret fun s hs => ?_) fun _ => ?_
  · exact ⟨Or.inl ⟨rfl, m₁, hs.1, fun _ _ => rfl⟩, Or.inl ⟨hs.2, rfl⟩⟩
  have hargs : Triple (WithArgs L [] (pages m₁ p.pagetable B + rest) m₁)
      (fetchArgs p uargv MAXARG 0 []) _ := fetchArgs_spec _ _ _
  refine Triple.bind ((hargs.onFst (· = σ₀)).pre fun s hs => ⟨⟨m₁, fun _ _ => rfl, ?_⟩, hs.2⟩)
    fun res => ?_
  · rw [Multiset.coe_nil, zero_add]
    exact hs.1
  obtain ⟨ok, argv⟩ := res
  refine Triple.pre (P := fun s => ∃ m, (∀ pa ∈ pages m₁ p.pagetable B + rest, m pa = m₁ pa) ∧
    At L m ((argv : Multiset ℕ) + (pages m₁ p.pagetable B + rest)) s.1 ∧ s.2 = σ₀) ?_
    fun s hs => ?_
  · refine Triple.of_exists fun m => Triple.of_and fun hkeep => ?_
    obtain ⟨hrep', hpages⟩ := hrep.congr fun pa hpa => hkeep pa (Multiset.mem_add.mpr (Or.inl hpa))
    refine Triple.ite (fun _ => ?_) fun _ => ?_
    · have htf' : tf ∈ (argv : Multiset ℕ) + rest := Multiset.mem_add.mpr (Or.inr htf)
      refine Triple.bind ((exec_spec hrep' hsz htop htf').pre fun s hs => ⟨?_, hs.2⟩) fun ret => ?_
      · rw [hpages, add_left_comm]
        exact ⟨m, hs.1, fun _ _ => rfl⟩
      · exact Triple.bind ((freeArgs_replaced hpages hkeep).onFst _) fun _ =>
          Triple.ret fun s hs => ⟨hs.1, Or.inr hs.2⟩
    · refine Triple.bind (((freeArgs_held argv).onFst (· = σ₀)).pre fun s hs =>
        ⟨⟨m, hs.1, fun _ _ => rfl⟩, hs.2⟩) fun _ => ?_
      refine Triple.ret fun s hs => ⟨Or.inl ⟨rfl, ?_⟩, Or.inl ⟨hs.2, rfl⟩⟩
      obtain ⟨⟨m', hat, hsame⟩, -⟩ := hs
      exact ⟨m', hat, fun pa hpa => (hsame pa hpa).trans (hkeep pa hpa)⟩
  · obtain ⟨⟨m, hkeep, hat⟩, hσ⟩ := hs
    exact ⟨m, hkeep, hat, hσ⟩

/-! ## The result -/

/-- A process that had the record `x` has the memory of that time, and no page is missing
from the free list. -/
structure AsBefore (x : Process) (im : Image) (s s' : Phys) : Prop where
  image : im = x.image
  trapframe : s'.mem x.trapframe = s.mem x.trapframe
  table : ∀ pa ∈ nodes s.mem 2 x.image.pagetable, s'.mem pa = s.mem pa
  memory : Intact s.mem s'.mem x.image im
  free : s'.freelist.Perm s.freelist

theorem asBefore_of_held (hrep : Rep m₁ x.image.pagetable B)
    (hs : At L m₁ (pages m₁ x.image.pagetable B + rest) s) (htf : x.trapframe ∈ rest)
    (hs' : Held L (pages m₁ x.image.pagetable B + rest) m₁ s') : AsBefore x x.image s s' := by
  have hfree := hs.2.pages
  obtain ⟨rfl, -⟩ := hs
  obtain ⟨_, ⟨rfl, hown⟩, hsame⟩ := hs'
  have hlow : ∀ pa ∈ pages s.mem x.image.pagetable B, s'.mem pa = s.mem pa := fun pa hpa =>
    hsame pa (Multiset.mem_add.mpr (Or.inl hpa))
  refine ⟨rfl, hsame _ (Multiset.mem_add.mpr (Or.inr htf)), fun pa hpa => ?_, ⟨rfl, fun v hv => ?_⟩,
    ?_⟩
  · exact hlow pa (Multiset.mem_add.mpr (Or.inl hpa))
  · rw [TRAPFRAME_eq, Nat.mul_div_cancel _ (by decide)] at hv
    rw [mapping_eq (hrep.congr hlow).1 hv, mapping_eq hrep hv]
  · rw [← Multiset.coe_eq_coe]
    exact add_right_cancel (hown.pages.trans hfree.symm)

/-- A call that returns -1 has replaced nothing. -/
theorem asBefore_of_replaced {res : ℤ × Image} (hrep : Rep m₁ x.image.pagetable B)
    (hs : At L m₁ (pages m₁ x.image.pagetable B + rest) s) (htf : x.trapframe ∈ rest)
    (h : Replaced L x.trapframe x.image B rest m₁ res s')
    (hret : res.1 = -1) : AsBefore x res.2 s s' := by
  rcases h with ⟨rfl, hheld⟩ | ⟨hpos, -⟩
  · exact asBefore_of_held hrep hs htf hheld
  · omega

/-- **`exec` is atomic.**  In every state that satisfies the invariant of the pages and
address spaces, whatever the path, the arguments and the bytes that each `readi` delivers,
and whenever `kalloc` fails, `exec` returns having begun and ended one operation and
holding no more inodes and locks than before; if it returns -1, the process has its page
table, size, name, trapframe and memory, and every page that was free is free.  The same
holds for `sys_exec`, except that it may fail before it comes to `exec`. -/
theorem exec_atomic {s : Phys} {q : Fin NPROC} (h : Owned L t noExtra s)
    (hq : (t.proc q).state = .runnable) (fs : Files) (σ₀ : Session) : (∀ path argv, ∃ ret im s' σ,
      exec L fs (t.proc q).trapframe (t.proc q).image path argv (s, σ₀) = .ok ((ret, im), s', σ) ∧
      Closed σ₀ σ ∧ (ret = -1 → AsBefore (t.proc q) im s s')) ∧ ∀ upath uargv, ∃ ret im s' σ,
      sysExec L fs (t.proc q).trapframe (t.proc q).image upath uargv (s, σ₀)
        = .ok ((ret, im), s', σ) ∧
      (σ = σ₀ ∧ ret = -1 ∨ Closed σ₀ σ) ∧ (ret = -1 → AsBefore (t.proc q) im s s') := by
  obtain ⟨As, m, hs⟩ := h
  have hused : (t.proc q).state ≠ .unused := by
    rw [hq]
    decide
  obtain ⟨hrep, hsz, htop⟩ := (hs.good.slots q).alive hused
  have hat := hs.pages
  rw [total_eq t As m q, slotPages_used hused, Multiset.cons_add, ← Multiset.add_cons] at hat
  have htf : (t.proc q).trapframe ∈ (t.proc q).trapframe ::ₘ elsewhere t As m q :=
    Multiset.mem_cons_self _ _
  constructor
  · intro path argv
    have hexec : Triple (fun u => Held L _ m u.1 ∧ u.2 = σ₀)
        (exec L fs (t.proc q).trapframe (t.proc q).image path argv) _ :=
      exec_spec hrep hsz htop htf
    obtain ⟨⟨ret, im⟩, ⟨s', σ⟩, hrun, hres, hσ⟩ :=
      hexec (s, σ₀) ⟨⟨m, hat, fun _ _ => rfl⟩, rfl⟩
    exact ⟨ret, im, s', σ, hrun, hσ, asBefore_of_replaced hrep hat htf hres⟩
  · intro upath uargv
    have hexec : Triple (fun u => At L m _ u.1 ∧ u.2 = σ₀)
        (sysExec L fs (t.proc q).trapframe (t.proc q).image upath uargv) _ :=
      sysExec_spec hrep hsz htop htf
    obtain ⟨⟨ret, im⟩, ⟨s', σ⟩, hrun, hres, hσ⟩ := hexec (s, σ₀) ⟨hat, rfl⟩
    exact ⟨ret, im, s', σ, hrun, hσ, asBefore_of_replaced hrep hat htf hres⟩

/-- The first process calls `exec` for a file that is not a program. -/
theorem exec_atomic_first : ∃ s im s' σ,
    run (step smallLayout) (start fun _ _ => 0) [.boot 0] = some s ∧
    exec smallLayout ⟨fun _ => some 7, fun _ _ _ _ => []⟩ (s.tab.proc firstSlot).trapframe
      (s.tab.proc firstSlot).image [47, 120] [] (s.phys, ⟨0, 0, [], [], 0⟩)
      = .ok ((-1, im), s', σ) ∧
    σ = ⟨1, 1, [], [], 1⟩ ∧ AsBefore (s.tab.proc firstSlot) im s.phys s' := by
  obtain ⟨s, hs, hstate, -, howned⟩ := small_boot
  obtain ⟨ret, im, s', σ, hrun, -, hback⟩ := (exec_atomic howned hstate
    ⟨fun _ => some 7, fun _ _ _ _ => []⟩ ⟨0, 0, [], [], 0⟩).1 [47, 120] []
  have heval : exec smallLayout ⟨fun _ => some 7, fun _ _ _ _ => []⟩
      (s.tab.proc firstSlot).trapframe (s.tab.proc firstSlot).image [47, 120] []
      (s.phys, ⟨0, 0, [], [], 0⟩)
      = .ok ((-1, (s.tab.proc firstSlot).image), s.phys, ⟨1, 1, [], [], 1⟩) := rfl
  rw [heval] at hrun
  cases hrun
  exact ⟨s, _, _, _, hs, heval, rfl, hback rfl⟩

end Exec

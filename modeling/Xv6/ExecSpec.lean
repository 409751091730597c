/-
# exec keeps the account of the pages

While `exec` builds the new address space, the old one, the trapframe, the pages of the
arguments and everything else in use stay as they are; on every path the pages of the
address space that is given up go back to the free list.
-/
import Xv6.ExecLoad

namespace Vm

open Function Hoare

variable {L : Layout} {m₀ m₁ m : ℕ → Page} {r tf sz v off w pa old page uargv : ℕ} {A B : AS}
    {rest : Multiset ℕ} {α : Type} {s : Phys} {src : List UInt8} {f : File} {c : Kernel α}
    {argv : List ℕ} {p : Image} {x : Page}

/-! ## The stack -/

/-- The address space with user page `v` closed to the user. -/
def AS.guard (A : AS) (v : ℕ) : AS :=
  { A with pte := update A.pte v (noUser (A.pte v)) }

theorem AS.guard_of_ne (h : w ≠ v) : (A.guard v).pte w = A.pte w :=
  update_of_ne h _ _

theorem AS.guard_self (A : AS) (v : ℕ) : (A.guard v).pte v = noUser (A.pte v) :=
  update_self v _ _

theorem AS.WF.guard (h : A.WF) (hv : v < A.n) : (A.guard v).WF where
  n_le := h.n_le
  low w hw := by
    by_cases hwv : w = v
    · rw [hwv, AS.guard_self]
      exact (h.low v hv).noUser
    · rw [AS.guard_of_ne hwv]
      exact h.low w hw
  high w hw hlt := by
    have hle : A.n ≤ w := hw
    rw [AS.guard_of_ne (by omega)]
    exact h.high w hle hlt
  beyond w hw hlt := by
    have h₁ := h.n_le
    have h₂ := trapframeVpn_lt
    rw [AS.guard_of_ne (by omega)]
    exact h.beyond w hw hlt

theorem HasTop.guard (h : HasTop L A tf) (hwf : A.WF) (hv : v < A.n) : HasTop L (A.guard v) tf :=
  h.congr fun w hw => AS.guard_of_ne (by
    have := hwf.n_le
    omega)

theorem uvmclear_space (hv : v < A.n) :
    Triple (Space L r A rest m₀) (uvmclear r (v * PGSIZE)) fun _ s =>
      Space L r (A.guard v) rest m₀ s := by
  intro s₀ hs₀
  have hn := hs₀.n_lt
  have hlt : A.pte v < 2 ^ 64 := by
    obtain ⟨m, -, hrep, -⟩ := hs₀
    obtain ⟨p, i, -, -, hpte⟩ := hrep.find (show v < 2 ^ 27 by omega) (hrep.wf.low v hv)
    rw [← hpte]
    exact Bytes.getLE_lt _ 8 _
  have hva : v * PGSIZE < MAXVA := by
    rw [PGSIZE_eq, MAXVA_eq]
    omega
  have hdiv : v * PGSIZE / PGSIZE = v := Nat.mul_div_cancel _ (by decide)
  obtain ⟨m₁, htable, hwf, hdata, hkeep⟩ := hs₀.table
  obtain ⟨u, t, hrun, hpost⟩ := uvmclear_spec hva (by rw [hdiv]; exact hwf.low v hv) s₀ htable
  refine ⟨u, t, hrun, ?_⟩
  rw [hdiv] at hpost
  have hpa : ∀ w, PTE2PA ((A.guard v).pte w) = PTE2PA (A.pte w) := by
    intro w
    by_cases hwv : w = v
    · rw [hwv, AS.guard_self, PTE2PA_noUser hlt]
    · rw [AS.guard_of_ne hwv]
  have hleaves : leaves (A.guard v).pte 0 A.n = leaves A.pte 0 A.n :=
    Finset.sum_congr rfl fun w _ => by rw [hpa w]
  rw [← hleaves] at hpost
  refine Space.of_table (A := A.guard v) hpost (hwf.guard hv) (fun w hw => ?_) hkeep
  rw [hpa w]
  exact hdata w hw

theorem Reads.program (hc : Reads L c) :
    Triple (Program L r sz tf rest m₀) c fun _ s => Program L r sz tf rest m₀ s := by
  refine Triple.of_exists_and fun A hA => ?_
  exact hc.space.post fun _ s hs => ⟨A, hs, hA⟩

theorem copyout_program {dstva : ℕ} :
    Triple (Program L r sz tf rest m₀) (copyout r dstva src) fun _ s =>
      Program L r sz tf rest m₀ s := by
  refine Triple.of_exists_and fun A hA => ?_
  refine (copyout_spec hA.2.shielded).post fun _ s hs => ?_
  obtain ⟨B, hB, hspace⟩ := hs
  exact ⟨B, hspace, hB.sized hA.1, hB.hasTop hA.2⟩

theorem pushArgs_spec {stackbase : ℕ} (argv : List ℕ) : ∀ sp ustack,
    Triple (Program L r sz tf rest m₀) (pushArgs r stackbase argv sp ustack) fun _ s =>
      Program L r sz tf rest m₀ s := by
  induction argv with
  | nil => exact fun sp ustack => Triple.ret fun s hs => hs
  | cons arg argv ih =>
    intro sp ustack
    refine Triple.ite (fun _ => Triple.ret fun s hs => hs) fun _ => ?_
    refine Triple.bind (((Reads.readBytes _ _ _).bind fun _ => Reads.ret _).program) fun str => ?_
    refine Triple.ite (fun _ => Triple.ret fun s hs => hs) fun _ => ?_
    refine Triple.bind copyout_program fun ret => ?_
    exact Triple.ite (fun _ => Triple.ret fun s hs => hs) fun _ => ih _ _

theorem execStack_spec {top : ℕ} :
    Triple (Program L r sz tf rest m₀) (execStack r top argv) fun _ s =>
      Program L r sz tf rest m₀ s := by
  refine Triple.bind (pushArgs_spec argv _ _) fun o => ?_
  cases o with
  | none => exact Triple.ret fun s hs => hs
  | some res =>
    refine Triple.ite (fun _ => Triple.ret fun s hs => hs) fun _ => ?_
    refine Triple.bind copyout_program fun ret => ?_
    exact Triple.ite (fun _ => Triple.ret fun s hs => hs) fun _ => Triple.ret fun s hs => hs

/-- The part of `exec` that adds the stack to a program of `sz` bytes. -/
def execTop (L : Layout) (pagetable sz : ℕ) (argv : List ℕ) : Kernel (ℕ × Option ℕ) := do
  let base := PGROUNDUP sz
  let sz1 ← uvmalloc L pagetable base (base + 2 * PGSIZE) PTE_W
  if sz1 = 0 then pure (base, none)
  else do
    uvmclear pagetable (sz1 - 2 * PGSIZE)
    let sp ← execStack pagetable sz1 argv
    pure (sz1, sp)

theorem execTop_spec : Triple (Loading L r sz tf rest m₀) (execTop L r sz argv) fun res s =>
      Program L r res.1 tf rest m₀ s := by
  refine Triple.of_exists_and fun A hA => ?_
  obtain ⟨hsz, htop, -⟩ := hA
  refine Triple.of_fact (fun hn => ?_) fun s hs => hs.n_lt
  rw [execTop, PGROUNDUP_eq hsz (by omega)]
  refine Triple.bind (uvmalloc_spec (sized_mul A) (by decide)) fun sz1 => ?_
  refine Triple.ite (fun hzero => Triple.ret fun s hs => ?_) fun hne => ?_
  · rcases hs with ⟨hlt, -⟩ | ⟨-, hsz1, -⟩ | ⟨-, hs⟩
    · omega
    · rw [PGSIZE_eq] at hsz1
      omega
    · exact ⟨A, hs, sized_mul A, htop⟩
  · refine Triple.of_fact (fun hsz1 => ?_) fun s hs => show sz1 = A.n * PGSIZE + 2 * PGSIZE by
      rcases hs with ⟨hlt, -⟩ | ⟨-, hsz1, -⟩ | ⟨hzero, -⟩
      · omega
      · exact hsz1
      · exact absurd hzero hne
    rw [hsz1] at hne
    rw [hsz1, Nat.add_sub_cancel]
    refine Triple.pre (P := fun s => ∃ C, Space L r C rest m₀ s ∧
      Sized C (A.n * PGSIZE + 2 * PGSIZE) ∧ HasTop L C tf) ?_ ?_
    · refine Triple.of_exists_and fun C hC => ?_
      obtain ⟨hC, htopC⟩ := hC
      refine Triple.of_fact (fun hwf => ?_) fun s hs => hs.wf
      have hlt : A.n < C.n := by
        rw [Sized, PGSIZE_eq] at hC
        omega
      refine Triple.bind (uvmclear_space hlt) fun _ => ?_
      refine Triple.bind (execStack_spec.pre fun s hs => ⟨_, hs, hC, htopC.guard hwf hlt⟩)
        fun sp => Triple.ret fun s hs => hs
    · rintro s (⟨hlt, -⟩ | ⟨-, -, C, hC, hgrow, hs⟩ | ⟨hzero, -⟩)
      · omega
      · exact ⟨C, hs, hC, hgrow.hasTop hs.wf htop⟩
      · exact absurd hzero hne

/-- **The new program**: the size that comes with it is that of the address space, also
when it could not be completed. -/
theorem execImage_spec {elf : Elfhdr} :
    Triple (Loading L r 0 tf rest m₀) (execImage L r f elf argv) fun res s =>
      Program L r res.1 tf rest m₀ s := by
  refine Triple.bind (execLoad_spec _ _ _) fun res => ?_
  exact Triple.ite (fun _ => execTop_spec) fun _ => Triple.ret fun s hs => hs.program

/-! ## exec -/

theorem Held.nodup (h : Held L rest m₀ s) : rest.Nodup := by
  obtain ⟨m, hat, -⟩ := h
  exact hat.nodup

theorem Held.mem_frames (h : Held L rest m₀ s) (hpa : pa ∈ rest) : pa ∈ frames L := by
  obtain ⟨m, hat, -⟩ := h
  exact hat.2.mem_frames hpa

/-- A new address space is a program of no bytes. -/
theorem loading_empty (h : ∃ A, A.n = 0 ∧ HasTop L A tf ∧ Space L r A rest m₀ s) :
    Loading L r 0 tf rest m₀ s := by
  obtain ⟨A, hzero, htop, hspace⟩ := h
  refine ⟨A, hspace, sized_zero hzero, htop, fun v hv => ?_⟩
  omega

/-- The pages of an address space are pages in use like others. -/
theorem Space.held (h : Space L r A rest m₀ s) : ∃ m, Rep m r A ∧
    Held L (pages m r A + rest) m s ∧ ∀ pa ∈ rest, m pa = m₀ pa := by
  obtain ⟨m, hat, hrep, hkeep⟩ := h
  exact ⟨m, hrep, ⟨m, hat, fun _ _ => rfl⟩, hkeep⟩

theorem Space.of_held (h : Held L (pages m₀ r A + rest) m₀ s) (hrep : Rep m₀ r A) :
    Space L r A rest m₀ s := by
  obtain ⟨m, hat, hkeep⟩ := h
  obtain ⟨hrep', hpages⟩ := hrep.congr fun pa hpa => hkeep pa (Multiset.mem_add.mpr (Or.inl hpa))
  refine ⟨m, ?_, hrep', fun pa hpa => hkeep pa (Multiset.mem_add.mpr (Or.inr hpa))⟩
  rw [hpages]
  exact hat

/-- **Two address spaces**: each is among the other pages of the other. -/
theorem Space.swap (h : Space L r A (pages m₁ old B + rest) m₁ s)
    (hrep : Rep m₁ old B) : ∃ m, Rep m r A ∧ Space L old B (pages m r A + rest) m s ∧
      ∀ pa ∈ rest, m pa = m₁ pa := by
  obtain ⟨m, hat, hrepA, hkeep⟩ := h
  obtain ⟨hrepB, hpages⟩ := hrep.congr fun pa hpa => hkeep pa (Multiset.mem_add.mpr (Or.inl hpa))
  refine ⟨m, hrepA, ⟨m, ?_, hrepB, fun _ _ => rfl⟩,
    fun pa hpa => hkeep pa (Multiset.mem_add.mpr (Or.inr hpa))⟩
  rw [hpages, ← add_assoc, add_comm (pages m₁ old B), add_assoc]
  exact hat

theorem writeWord_space (hpa : pa ∈ rest) :
    Triple (Space L r A rest m₀) (writeWord pa off w) fun _ s =>
      Space L r A rest (update m₀ pa (Bytes.setLE (m₀ pa) off 8 w)) s := by
  refine Space.write (fun m held hkeep => ?_) hpa
  rintro s ⟨rfl, h⟩
  refine ⟨(), _, rfl, ?_, ⟨h.pages, h.once⟩⟩
  rw [hkeep pa hpa]

theorem writeWord_program (hpa : pa ∈ rest) :
    Triple (Program L r sz tf rest m₀) (writeWord pa off w) fun _ s =>
      Program L r sz tf rest (update m₀ pa (Bytes.setLE (m₀ pa) off 8 w)) s := by
  refine Triple.of_exists_and fun A hA => ?_
  exact (writeWord_space hpa).post fun _ s hs => ⟨A, hs, hA⟩

/-- The old program is freed beside the new one. -/
theorem procFreepagetable_old {oldsz : ℕ} (hrep : Rep m₁ old B) (hsz : Sized B oldsz)
    (htop : HasTop L B tf) :
    Triple (Program L r sz tf (pages m₁ old B + rest) m₁) (procFreepagetable L old oldsz)
      fun _ s => Program L r sz tf rest m₁ s := by
  rintro s ⟨A, hs, hA⟩
  obtain ⟨m, hrepA, hspace, hkeep⟩ := hs.swap hrep
  obtain ⟨u, t, hrun, ht⟩ := procFreepagetable_spec hsz htop s hspace
  exact ⟨u, t, hrun, A, (Space.of_held ht hrepA).keep hkeep, hA⟩

theorem procFreepagetable_program :
    Triple (Program L r sz tf rest m₀) (procFreepagetable L r sz) fun _ s => Held L rest m₀ s :=
  Triple.of_exists_and fun _ hA => procFreepagetable_spec hA.1 hA.2

/-- The part of `exec` that changes over to the new program. -/
def switch (L : Layout) (tf : ℕ) (p : Image) (entry sp : ℕ) : Kernel Unit := do
  writeWord tf 120 sp
  writeWord tf 24 entry
  writeWord tf 48 sp
  procFreepagetable L p.pagetable p.sz

theorem switch_spec {entry sp : ℕ} (hrep : Rep m₁ p.pagetable B) (hsz : Sized B p.sz)
    (htop : HasTop L B tf) (htf : tf ∈ rest) (hnd : (pages m₁ p.pagetable B + rest).Nodup) :
    Triple (Program L r sz tf (pages m₁ p.pagetable B + rest) m₁) (switch L tf p entry sp)
      fun _ s => ∃ x, Program L r sz tf rest (update m₁ tf x) s := by
  have htf' : tf ∈ pages m₁ p.pagetable B + rest := Multiset.mem_add.mpr (Or.inr htf)
  refine Triple.bind (writeWord_program htf') fun _ => ?_
  refine Triple.bind (writeWord_program htf') fun _ => ?_
  refine Triple.bind (writeWord_program htf') fun _ => ?_
  simp only [update_idem]
  generalize Bytes.setLE (update m₁ tf _ tf) 48 8 sp = x
  have hsame : ∀ pa ∈ pages m₁ p.pagetable B, update m₁ tf x pa = m₁ pa := by
    intro pa hpa
    refine update_of_ne ?_ _ _
    rintro rfl
    exact Multiset.disjoint_left.mp (Multiset.nodup_add.mp hnd).2.2 hpa htf
  obtain ⟨hrep', hpages⟩ := hrep.congr hsame
  rw [← hpages]
  exact (procFreepagetable_old hrep' hsz htop).post fun _ s hs => ⟨x, hs⟩

/-- The outcome of `exec` for a process that had the address space `B`: nothing has
changed, or there is a new program. -/
def Replaced (L : Layout) (tf : ℕ) (p : Image) (B : AS) (rest : Multiset ℕ) (m : ℕ → Page)
    (res : ℤ × Image) (s : Phys) : Prop :=
  res = (-1, p) ∧ Held L (pages m p.pagetable B + rest) m s ∨
  0 ≤ res.1 ∧ ∃ x, Program L res.2.pagetable res.2.sz tf rest (update m tf x) s

/-- **`exec`** replaces the address space, or leaves everything as it was. -/
theorem exec_spec {path : List UInt8} {file : Option File} (hrep : Rep m₁ p.pagetable B)
    (hsz : Sized B p.sz) (htop : HasTop L B tf) (htf : tf ∈ rest) :
    Triple (Held L (pages m₁ p.pagetable B + rest) m₁) (exec L tf p path file argv)
      (Replaced L tf p B rest m₁) := by
  cases file with
  | none => exact Triple.ret fun s hs => Or.inl ⟨rfl, hs⟩
  | some f =>
    refine Triple.ite (fun _ => Triple.ret fun s hs => Or.inl ⟨rfl, hs⟩) fun _ => ?_
    refine Triple.ite (fun _ => Triple.ret fun s hs => Or.inl ⟨rfl, hs⟩) fun _ => ?_
    refine Triple.of_fact (fun hnd => ?_) fun s hs => hs.nodup
    refine Triple.of_fact (fun hframe => ?_) fun s hs =>
      hs.mem_frames (Multiset.mem_add.mpr (Or.inr htf))
    refine Triple.bind (procPagetable_spec (frames_lt hframe)) fun o => ?_
    cases o with
    | none => exact Triple.ret fun s hs => Or.inl ⟨rfl, hs⟩
    | some r =>
      have himage : Triple (Loading L r 0 tf (pages m₁ p.pagetable B + rest) m₁)
          (execImage L r f (Elfhdr.decode (readi f 0 sizeofElfhdr)) argv) _ := execImage_spec
      refine Triple.bind (himage.pre fun s hs => loading_empty hs) fun res => ?_
      obtain ⟨sz, o⟩ := res
      cases o with
      | none =>
        exact Triple.bind procFreepagetable_program fun _ =>
          Triple.ret fun s hs => Or.inl ⟨rfl, hs⟩
      | some sp =>
        have hswitch : Triple (Program L r sz tf (pages m₁ p.pagetable B + rest) m₁) (switch L tf p
            (Elfhdr.decode (readi f 0 sizeofElfhdr)).entry sp >>= fun _ =>
              pure ((argv.length : ℤ), ⟨r, sz, lastElement path⟩)) (Replaced L tf p B rest m₁) :=
          Triple.bind (switch_spec hrep hsz htop htf hnd) fun _ =>
            Triple.ret fun s hs => Or.inr ⟨Int.natCast_nonneg _, hs⟩
        simp only [switch, bind_assoc] at hswitch
        exact hswitch

/-! ## sys_exec -/

/-- The pages of the arguments beside other pages. -/
def WithArgs (L : Layout) (argv : List ℕ) (rest : Multiset ℕ) (m₀ : ℕ → Page) (s : Phys) : Prop :=
  ∃ m, (∀ pa ∈ rest, m pa = m₀ pa) ∧ At L m ((argv : Multiset ℕ) + rest) s

theorem Reads.withArgs (hc : Reads L c) :
    Triple (WithArgs L argv rest m₀) c fun _ s => WithArgs L argv rest m₀ s := by
  refine Triple.of_exists fun m => Triple.of_and fun hkeep => ?_
  exact (hc m _).post fun _ s hs => ⟨m, hkeep, hs⟩

theorem WithArgs.add (hnew : page ∉ (argv : Multiset ℕ) + rest) (hkeep : ∀ pa ∈ rest, m pa = m₀ pa)
    (h : At L (update m page x) (page ::ₘ ((argv : Multiset ℕ) + rest)) s) :
    WithArgs L (argv ++ [page]) rest m₀ s := by
  refine ⟨update m page x, fun pa hpa => ?_, ?_⟩
  · rw [update_of_ne ?_, hkeep pa hpa]
    rintro rfl
    exact hnew (Multiset.mem_add.mpr (Or.inr hpa))
  · rw [← Multiset.coe_add, Multiset.coe_singleton, add_comm (argv : Multiset ℕ), add_assoc,
      Multiset.singleton_add]
    exact h

theorem fetchaddr_reads (p : Image) (addr : ℕ) : Reads L (fetchaddr p addr) :=
  (Reads.ret none).ite ((Reads.copyin _ _ _).bind fun _ => (Reads.ret none).ite (Reads.ret _))

/-- Copying an argument to its page. -/
theorem writeBytes_arg {bytes : List UInt8} (hnew : page ∉ (argv : Multiset ℕ) + rest)
    (hkeep : ∀ pa ∈ rest, m pa = m₀ pa) :
    Triple (At L (update m page x) (page ::ₘ ((argv : Multiset ℕ) + rest)))
      (writeBytes page 0 bytes) fun _ s => WithArgs L (argv ++ [page]) rest m₀ s := by
  refine writeBytes_spec.post fun _ s hs => ?_
  rw [update_idem] at hs
  exact WithArgs.add hnew hkeep hs

theorem fetchArgs_spec (k : ℕ) : ∀ i argv,
    Triple (WithArgs L argv rest m₀) (fetchArgs p uargv k i argv) fun res s =>
      WithArgs L res.2 rest m₀ s := by
  induction k with
  | zero => exact fun i argv => Triple.ret fun s hs => hs
  | succ k ih =>
    intro i argv
    refine Triple.bind (fetchaddr_reads p _).withArgs fun o => ?_
    cases o with
    | none => exact Triple.ret fun s hs => hs
    | some uarg =>
      refine Triple.ite (fun _ => Triple.ret fun s hs => hs) fun _ => ?_
      refine Triple.of_exists fun m => Triple.of_and fun hkeep => ?_
      refine Triple.bind kalloc_spec fun o => ?_
      cases o with
      | none => exact Triple.ret fun s hs => ⟨m, hkeep, hs⟩
      | some page =>
        refine Triple.of_and fun hnew => ?_
        refine Triple.bind (Reads.copyinstr _ _ _ _ _) fun res => ?_
        refine Triple.bind (writeBytes_arg hnew hkeep) fun _ => ?_
        exact Triple.ite (fun _ => Triple.ret fun s hs => hs) fun _ => ih _ _

theorem kfree_held : Triple (Held L (pa ::ₘ rest) m₀) (kfree L pa) fun _ s => Held L rest m₀ s := by
  refine Triple.of_exists_and fun m hkeep => ?_
  refine Triple.of_fact (fun hnd => ?_) fun s hs => hs.nodup
  refine kfree_spec.post fun _ s hs => ⟨_, hs, fun q hq => ?_⟩
  rw [update_of_ne ?_, hkeep q (Multiset.mem_cons_of_mem hq)]
  rintro rfl
  exact (Multiset.nodup_cons.mp hnd).1 hq

theorem freeArgs_held (argv : List ℕ) :
    Triple (Held L ((argv : Multiset ℕ) + rest) m₀) (freeArgs L argv) fun _ s =>
      Held L rest m₀ s := by
  induction argv with
  | nil =>
    refine Triple.ret fun s hs => ?_
    rw [Multiset.coe_nil, zero_add] at hs
    exact hs
  | cons arg argv ih =>
    rw [← Multiset.cons_coe, Multiset.cons_add]
    exact Triple.bind kfree_held fun _ => ih

theorem freeArgs_program (argv : List ℕ) :
    Triple (Program L r sz tf ((argv : Multiset ℕ) + rest) m₀) (freeArgs L argv) fun _ s =>
      Program L r sz tf rest m₀ s := by
  rintro s ⟨A, hs, hA⟩
  obtain ⟨m, hrep, hheld, hkeep⟩ := hs.held
  rw [← add_assoc, add_comm (pages m r A), add_assoc] at hheld
  obtain ⟨u, t, hrun, ht⟩ := freeArgs_held argv s hheld
  exact ⟨u, t, hrun, A, (Space.of_held ht hrep).keep fun pa hpa =>
    hkeep pa (Multiset.mem_add.mpr (Or.inr hpa)), hA⟩

/-- The arguments are freed after `exec`. -/
theorem freeArgs_replaced {ret : ℤ × Image}
    (hpages : pages m p.pagetable B = pages m₁ p.pagetable B)
    (hkeep : ∀ pa ∈ pages m₁ p.pagetable B + rest, m pa = m₁ pa) :
    Triple (Replaced L tf p B ((argv : Multiset ℕ) + rest) m ret) (freeArgs L argv) fun _ s =>
      Replaced L tf p B rest m₁ ret s := by
  rintro s (⟨hret, hs⟩ | ⟨hpos, x, hs⟩)
  · rw [hpages, add_left_comm] at hs
    obtain ⟨u, t, hrun, m', hat, hsame⟩ := freeArgs_held argv s hs
    exact ⟨u, t, hrun, Or.inl ⟨hret, m', hat, fun pa hpa => (hsame pa hpa).trans (hkeep pa hpa)⟩⟩
  · obtain ⟨u, t, hrun, A, ht, hA⟩ := freeArgs_program argv s hs
    refine ⟨u, t, hrun, Or.inr ⟨hpos, x, A, ht.keep fun pa hpa => ?_, hA⟩⟩
    by_cases heq : pa = tf
    · rw [heq, update_self, update_self]
    · rw [update_of_ne heq, update_of_ne heq,
        hkeep pa (Multiset.mem_add.mpr (Or.inr hpa))]

/-- **`sys_exec`** replaces the address space, or leaves everything as it was; the pages
of the arguments are free again in both cases. -/
theorem sysExec_spec {namei : List UInt8 → Option File} {upath : ℕ} (hrep : Rep m₁ p.pagetable B)
    (hsz : Sized B p.sz) (htop : HasTop L B tf) (htf : tf ∈ rest) :
    Triple (At L m₁ (pages m₁ p.pagetable B + rest)) (sysExec L tf p namei upath uargv)
      (Replaced L tf p B rest m₁) := by
  refine Triple.bind (Reads.copyinstr _ _ _ _ _) fun path => ?_
  have hheld : ∀ s, At L m₁ (pages m₁ p.pagetable B + rest) s →
      Held L (pages m₁ p.pagetable B + rest) m₁ s := fun s hs => ⟨m₁, hs, fun _ _ => rfl⟩
  refine Triple.ite (fun _ => Triple.ret fun s hs => Or.inl ⟨rfl, hheld s hs⟩) fun _ => ?_
  have hargs : Triple (WithArgs L [] (pages m₁ p.pagetable B + rest) m₁)
      (fetchArgs p uargv MAXARG 0 []) _ := fetchArgs_spec _ _ _
  refine Triple.bind (hargs.pre fun s hs => ⟨m₁, fun _ _ => rfl, ?_⟩) fun res => ?_
  · rw [Multiset.coe_nil, zero_add]
    exact hs
  · obtain ⟨ok, argv⟩ := res
    refine Triple.of_exists fun m => Triple.of_and fun hkeep => ?_
    obtain ⟨hrep', hpages⟩ := hrep.congr fun pa hpa => hkeep pa (Multiset.mem_add.mpr (Or.inl hpa))
    refine Triple.ite (fun _ => ?_) fun _ => ?_
    · have htf' : tf ∈ (argv : Multiset ℕ) + rest := Multiset.mem_add.mpr (Or.inr htf)
      refine Triple.bind ((exec_spec hrep' hsz htop htf').pre fun s hs => ?_) fun ret => ?_
      · rw [hpages, add_left_comm]
        exact ⟨m, hs, fun _ _ => rfl⟩
      · exact Triple.bind (freeArgs_replaced hpages hkeep) fun _ => Triple.ret fun s hs => hs
    · refine Triple.bind ((freeArgs_held argv).pre fun s hs => ⟨m, hs, fun _ _ => rfl⟩) fun _ => ?_
      refine Triple.ret fun s hs => Or.inl ⟨rfl, ?_⟩
      obtain ⟨m', hat, hsame⟩ := hs
      exact ⟨m', hat, fun pa hpa => (hsame pa hpa).trans (hkeep pa hpa)⟩

end Vm

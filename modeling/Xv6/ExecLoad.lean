/-
# exec loads a program and keeps the account of the pages

The loop of `exec` over the program headers.  Whatever the headers say and the file
delivers, there is no panic, the size that comes with the program is that of the address
space, and everything else in use stays as it is.
-/
import Xv6.ExecFs

namespace Vm

open Function Hoare

variable {L : Layout} {m₀ : ℕ → Page} {r tf sz : ℕ} {A B : AS} {rest : Multiset ℕ}

/-! ## Loading -/

/-- Every user page is for the user. -/
def AllUser (A : AS) : Prop := ∀ v < A.n, A.pte v &&& PTE_U ≠ 0

/-- The address space of a program of `sz` bytes. -/
def Program (L : Layout) (r sz tf : ℕ) (rest : Multiset ℕ) (m₀ : ℕ → Page) (s : Phys) : Prop :=
  ∃ A, Space L r A rest m₀ s ∧ Sized A sz ∧ HasTop L A tf

/-- The same while the program is being loaded. -/
def Loading (L : Layout) (r sz tf : ℕ) (rest : Multiset ℕ) (m₀ : ℕ → Page) (s : Phys) : Prop :=
  ∃ A, Space L r A rest m₀ s ∧ Sized A sz ∧ HasTop L A tf ∧ AllUser A

variable {s : Phys} {C : AS} {v off filesz vaddr last pa : ℕ}
    {src : List UInt8} {f : File} {m : ℕ → Page}

theorem Loading.program (h : Loading L r sz tf rest m₀ s) : Program L r sz tf rest m₀ s := by
  obtain ⟨A, h₁, h₂, h₃, -⟩ := h
  exact ⟨A, h₁, h₂, h₃⟩

/-- The trapframe keeps its contents. -/
theorem Program.same (h : Program L r sz tf rest m₀ s) :
    ∃ y, Program L r sz tf rest (update m₀ tf y) s :=
  ⟨m₀ tf, by rw [update_eq_self]; exact h⟩

theorem SameMap.trans (h : SameMap A B) (h' : SameMap B C) : SameMap A C :=
  ⟨h'.1.trans h.1, h'.2.trans h.2⟩

theorem SameMap.sized (h : SameMap A B) (hsz : Sized A sz) : Sized B sz := h.1.trans hsz

theorem SameMap.hasTop (h : SameMap A B) (ht : HasTop L A tf) : HasTop L B tf :=
  ht.congr fun v _ => by rw [h.2]

theorem SameMap.allUser (h : SameMap A B) (hu : AllUser A) : AllUser B := by
  intro v hv
  rw [h.1] at hv
  rw [h.2]
  exact hu v hv

theorem Grows.hasTop {perm : ℕ} (h : Grows A B perm) (hwf : B.WF) (ht : HasTop L A tf) :
    HasTop L B tf :=
  ht.congr fun v hv => h.pte v (Or.inr (le_trans hwf.n_le hv))

theorem Copied.hasTop (h : Copied A B C) (hwf : B.WF) (ht : HasTop L A tf) : HasTop L B tf :=
  ht.congr fun v hv => h.pte v (le_trans hwf.n_le hv)

theorem HasTop.trunc (h : HasTop L A tf) (hwf : A.WF) (k : ℕ) : HasTop L (A.trunc k) tf :=
  h.congr fun v hv => if_neg fun hlt => by
    have := hwf.n_le
    omega

theorem Grows.allUser {xperm : ℕ} (h : Grows A B (PTE_R ||| PTE_U ||| xperm)) (hu : AllUser A) :
    AllUser B := by
  intro v hv
  by_cases hvA : v < A.n
  · rw [h.pte v (Or.inl hvA)]
    exact hu v hvA
  · rw [and_flag (by decide), h.flags v (by omega) hv, Nat.and_or_distrib_right,
      Nat.and_or_distrib_right]
    intro hzero
    exact absurd (Nat.or_eq_zero_iff.mp (Nat.or_eq_zero_iff.mp hzero).1).1 (by decide)

/-- A user page is not at address 0. -/
theorem Space.page_ne_zero (h : Space L r A rest m₀ s) (hv : v < A.n) : PTE2PA (A.pte v) ≠ 0 := by
  obtain ⟨m, hat, -, -⟩ := h
  have hmem : PTE2PA (A.pte v) ∈ pages m r A + rest := Multiset.mem_add.mpr
    (Or.inl (Multiset.mem_add.mpr (Or.inr (mem_leaves ⟨Nat.zero_le v, hv⟩))))
  obtain ⟨-, hend, -⟩ := frames_bounds (hat.2.mem_frames hmem)
  have h₁ := L.kernbase_le
  have h₂ := L.trampoline_lt
  rw [KERNBASE_eq] at h₁
  omega

/-- Writing to a user page. -/
theorem writeBytes_user (hv : v < A.n) :
    Triple (Space L r A rest m₀) (writeBytes (PTE2PA (A.pte v)) off src) fun _ s =>
      ∃ B, Space L r B rest m₀ s ∧ SameMap A B := by
  refine Triple.of_exists_and fun m hm => ?_
  exact writeBytes_spec.post fun _ s hs =>
    ⟨A.setPage v _, Space.setPage hv hs hm.1 hm.2, rfl, rfl⟩

theorem flags2perm_lt (flags : ℕ) : flags2perm flags < 2 ^ 10 := by
  unfold flags2perm
  split_ifs <;> decide

/-- The pages of a segment are there after `uvmalloc`. -/
theorem segment_le {n : ℕ} (hal : vaddr % PGSIZE = 0) (hsz : Sized A n) (hle : vaddr + filesz ≤ n) :
    vaddr / PGSIZE + 0 + (filesz + (PGSIZE - 1)) / PGSIZE ≤ A.n := by
  rw [Sized, PGSIZE_eq] at *
  omega

/-- The program grows for a segment that ends at `last`, or stays as it is. -/
theorem uvmalloc_loading {flags : ℕ} :
    Triple (Loading L r sz tf rest m₀) (uvmalloc L r sz last (flags2perm flags)) fun sz1 s =>
      sz1 = 0 ∧ Loading L r sz tf rest m₀ s ∨
      (last ≤ sz1 ∧ sz ≤ sz1) ∧ Loading L r sz1 tf rest m₀ s := by
  refine Triple.of_exists_and fun A hA => ?_
  obtain ⟨hsz, htop, hu⟩ := hA
  refine (uvmalloc_spec hsz (flags2perm_lt _)).post ?_
  rintro sz1 s (⟨hlt, rfl, hs⟩ | ⟨hle, rfl, C, hC, hgrow, hs⟩ | ⟨rfl, hs⟩)
  · exact Or.inr ⟨⟨hlt.le, le_rfl⟩, A, hs, hsz, htop, hu⟩
  · exact Or.inr ⟨⟨le_rfl, hle⟩, C, hs, hC, hgrow.hasTop hs.wf htop, hgrow.allUser hu⟩
  · exact Or.inl ⟨rfl, A, hs, hsz, htop, hu⟩

/-- Also if the new size is 0: an empty segment in an empty program. -/
theorem loading_of_zero {sz1 : ℕ} (hzero : sz1 = 0) (hs : sz1 = 0 ∧ Loading L r sz tf rest m₀ s ∨
      (last ≤ sz1 ∧ sz ≤ sz1) ∧ Loading L r sz1 tf rest m₀ s) : Loading L r sz tf rest m₀ s := by
  rcases hs with ⟨-, hs⟩ | ⟨hle, hs⟩
  · exact hs
  · rw [show sz = sz1 by omega]
    exact hs

end Vm

namespace Exec

open Vm Hoare

variable {L : Layout} {m₀ : ℕ → Page} {r tf sz ip offset filesz : ℕ} {rest : Multiset ℕ}
    {fs : Files} {P : Phys → Prop} {R : Session → Prop}

/-- What is known of a session that `readi` does not change. -/
def Stable (R : Session → Prop) : Prop := ∀ σ k, R σ → R { σ with reads := k }

theorem readi_spec {off n : ℕ} (hR : Stable R) :
    Triple (fun s => P s.1 ∧ R s.2) (readi fs ip off n) fun _ s => P s.1 ∧ R s.2 :=
  fun _ hs => ⟨_, _, rfl, hs.1, hR _ _ hs.2⟩

theorem loadsegLoop_spec {va : ℕ} (hR : Stable R) (k : ℕ) :
    ∀ j A, AllUser A → va / PGSIZE + j + k ≤ A.n → Triple (fun s => Space L r A rest m₀ s.1 ∧ R s.2)
        (loadsegLoop fs r va ip offset filesz k (j * PGSIZE)) fun _ s =>
          ∃ B, (Space L r B rest m₀ s.1 ∧ R s.2) ∧ SameMap A B := by
  induction k with
  | zero => exact fun j A _ _ => Triple.ret fun s hs => ⟨A, hs, rfl, rfl⟩
  | succ k ih =>
    intro j A hu hle
    have hdiv : (va + j * PGSIZE) / PGSIZE = va / PGSIZE + j :=
      Nat.add_mul_div_right _ _ (by decide)
    have hv : va / PGSIZE + j < A.n := by omega
    refine Triple.of_fact (fun hn => ?_) fun s hs => hs.1.n_lt
    have hva : va + j * PGSIZE < MAXVA := by
      rw [PGSIZE_eq] at *
      rw [MAXVA_eq]
      omega
    refine Triple.bind ((walkaddr_spec hv (hu _ hv) hva hdiv).onFst R) fun pa => ?_
    refine Triple.of_fact (fun hpa => ?_) fun s hs => hs.1.1
    refine Triple.of_fact (fun hne => ?_) fun s hs => hs.1.2.page_ne_zero hv
    refine Triple.pre (P := fun s => Space L r A rest m₀ s.1 ∧ R s.2) ?_ fun s hs =>
      ⟨hs.1.2, hs.2⟩
    rw [hpa, if_neg hne]
    refine Triple.bind (readi_spec hR) fun bytes => ?_
    refine Triple.bind ((writeBytes_user hv).onFst_exists R) fun _ => ?_
    refine Triple.of_exists_and fun B hB => ?_
    refine Triple.ite (fun _ => Triple.ret fun s hs => ⟨B, hs, hB⟩) fun _ => ?_
    have hnext := ih (j + 1) B (hB.allUser hu) (by rw [hB.1]; omega)
    rw [Nat.add_mul, Nat.one_mul] at hnext
    refine hnext.post fun _ s hs => ?_
    obtain ⟨C, hspace, hC⟩ := hs
    exact ⟨C, hspace, hB.trans hC⟩

theorem loadseg_spec {vaddr : ℕ} (hR : Stable R) (hal : vaddr % PGSIZE = 0)
    (hle : vaddr + filesz ≤ sz) : Triple (fun s => Loading L r sz tf rest m₀ s.1 ∧ R s.2)
      (loadseg fs r vaddr ip offset filesz) fun _ s => Loading L r sz tf rest m₀ s.1 ∧ R s.2 := by
  rintro s ⟨⟨A, hspace, hsz, htop, hu⟩, hσ⟩
  have hloop := @loadsegLoop_spec L m₀ r ip offset filesz rest fs R vaddr hR _ 0 A hu
    (segment_le hal hsz hle) s ⟨hspace, hσ⟩
  rw [Nat.zero_mul] at hloop
  obtain ⟨ret, t, hrun, B, ht, hB⟩ := hloop
  exact ⟨ret, t, hrun, ⟨B, ht.1, hB.sized hsz, hB.hasTop htop, hB.allUser hu⟩, ht.2⟩

/-- **A segment is loaded** without panic, whatever the header says and the file
delivers. -/
theorem execSegment_spec {ph : Proghdr} (hR : Stable R) :
    Triple (fun s => Loading L r sz tf rest m₀ s.1 ∧ R s.2) (execSegment L fs r ip ph sz)
      fun res s => Loading L r res.2 tf rest m₀ s.1 ∧ R s.2 := by
  refine Triple.ite (fun _ => Triple.ret fun s hs => hs) fun _ => ?_
  refine Triple.ite (fun _ => Triple.ret fun s hs => hs) fun hmem => ?_
  refine Triple.ite (fun _ => Triple.ret fun s hs => hs) fun _ => ?_
  refine Triple.ite (fun _ => Triple.ret fun s hs => hs) fun hal => ?_
  rw [not_not] at hal
  refine Triple.bind (uvmalloc_loading.onFst R) fun sz1 => ?_
  refine Triple.ite (fun hzero => Triple.ret fun s hs => ⟨loading_of_zero hzero hs.1, hs.2⟩)
    fun hne => ?_
  refine Triple.of_fact (fun hle => ?_) fun s hs => (hs.1.resolve_left fun h => hne h.1).1
  have hfilesz : ph.filesz % 2 ^ 32 ≤ ph.memsz := le_trans (Nat.mod_le _ _) (by omega)
  refine Triple.bind ((loadseg_spec hR hal (by omega)).pre fun s hs =>
    ⟨(hs.1.resolve_left fun h => hne h.1).2, hs.2⟩) fun ret => ?_
  exact Triple.ite (fun _ => Triple.ret fun s hs => hs) fun _ => Triple.ret fun s hs => hs

theorem execLoad_spec (hR : Stable R) (k : ℕ) : ∀ off sz,
    Triple (fun s => Loading L r sz tf rest m₀ s.1 ∧ R s.2) (execLoad L fs r ip k off sz)
      fun res s => Loading L r res.2 tf rest m₀ s.1 ∧ R s.2 := by
  induction k with
  | zero => exact fun off sz => Triple.ret fun s hs => hs
  | succ k ih =>
    intro off sz
    refine Triple.bind (readi_spec hR) fun b => ?_
    refine Triple.ite (fun _ => Triple.ret fun s hs => hs) fun _ => ?_
    refine Triple.bind (execSegment_spec hR) fun res => ?_
    exact Triple.ite (fun _ => ih _ _) fun _ => Triple.ret fun s hs => hs

end Exec

namespace Vm

open Hoare

/-- The same for the model with a file that does not change. -/
theorem execLoad_spec {L : Layout} {m₀ : ℕ → Page} {r tf : ℕ} {rest : Multiset ℕ} {f : File}
    (k off sz : ℕ) : Triple (Loading L r sz tf rest m₀) (execLoad L r f k off sz) fun res s =>
      Loading L r res.2 tf rest m₀ s := by
  have hfile : Exec.IsFile ⟨fun _ => none, fun _ _ => readi f⟩ 0 f := fun _ _ _ => rfl
  refine (Exec.execLoad_of_file hfile r k off sz).triple ⟨0, 0, [], [], 0⟩ ?_
  have hload := @Exec.execLoad_spec L m₀ r tf 0 rest ⟨fun _ => none, fun _ _ => readi f⟩
    (fun _ => True) (fun _ _ h => h) k off sz
  exact (hload.pre fun s hs => ⟨hs.1, trivial⟩).post fun res s hs => hs.1

end Vm

/-
# Copying between kernel and user memory (kernel/vm.c)

`copyout`, `copyin` and `copyinstr`.  The loops go from page to page; `fuel` bounds
the number of rounds by the number of bytes, of which every round copies at least one.
The bytes of the kernel's side are a list.

`copyin` and `copyinstr` change nothing, and `copyout` only the contents of user pages.
-/
import Xv6.UserSpace

namespace Vm

open Function Hoare

/-! ## kernel/vm.c -/

/-- `len` bytes of the page at `pa` from offset `off` on. -/
def readBytes (pa off len : ℕ) : Kernel (List UInt8) := fun s =>
  .ok ((List.range len).map fun j => s.mem pa (off + j), s)

/-- A page with the bytes of `src` at offset `off`. -/
def setBytes (page : Page) (off : ℕ) (src : List UInt8) : Page := fun j =>
  if off ≤ j ∧ j < off + src.length then src.getD (j - off) 0 else page j

def writeBytes (pa off : ℕ) (src : List UInt8) : Kernel Unit := fun s =>
  .ok ((), { s with mem := update s.mem pa (setBytes (s.mem pa) off src) })

def copyoutLoop (pagetable : ℕ) : ℕ → ℕ → List UInt8 → Kernel ℤ
  | 0, _, _ => pure 0
  | fuel + 1, dstva, src =>
    if src.length = 0 then pure 0
    else
      let va0 := PGROUNDDOWN dstva
      if MAXVA ≤ va0 then pure (-1)
      else do
        match ← walk pagetable va0 false with
        | none => pure (-1)
        | some (pt, i) => do
          let pte ← readPte pt i
          if pte &&& PTE_V = 0 ∨ pte &&& PTE_U = 0 ∨ pte &&& PTE_W = 0 then pure (-1)
          else do
            let n := min (PGSIZE - (dstva - va0)) src.length
            writeBytes (PTE2PA pte) (dstva - va0) (src.take n)
            copyoutLoop pagetable fuel (va0 + PGSIZE) (src.drop n)

/-- Copy the bytes of `src` to the user address `dstva`. -/
def copyout (pagetable dstva : ℕ) (src : List UInt8) : Kernel ℤ :=
  copyoutLoop pagetable src.length dstva src

def copyinLoop (pagetable : ℕ) : ℕ → ℕ → ℕ → List UInt8 → Kernel (ℤ × List UInt8)
  | 0, _, _, dst => pure (0, dst)
  | fuel + 1, srcva, len, dst =>
    if len = 0 then pure (0, dst)
    else do
      let va0 := PGROUNDDOWN srcva
      let pa0 ← walkaddr pagetable va0
      if pa0 = 0 then pure (-1, dst)
      else do
        let n := min (PGSIZE - (srcva - va0)) len
        let bytes ← readBytes pa0 (srcva - va0) n
        copyinLoop pagetable fuel (va0 + PGSIZE) (len - n) (dst ++ bytes)

/-- Copy `len` bytes from the user address `srcva`; the bytes copied so far come with
the result. -/
def copyin (pagetable srcva len : ℕ) : Kernel (ℤ × List UInt8) :=
  copyinLoop pagetable len srcva len []

/-- The bytes before the first NUL. -/
def cstring (bytes : List UInt8) : List UInt8 := bytes.takeWhile (· ≠ 0)

def copyinstrLoop (pagetable : ℕ) : ℕ → ℕ → ℕ → List UInt8 → Kernel (ℤ × List UInt8)
  | 0, _, _, dst => pure (-1, dst)
  | fuel + 1, srcva, max, dst =>
    if max = 0 then pure (-1, dst)
    else do
      let va0 := PGROUNDDOWN srcva
      let pa0 ← walkaddr pagetable va0
      if pa0 = 0 then pure (-1, dst)
      else do
        let n := min (PGSIZE - (srcva - va0)) max
        let bytes ← readBytes pa0 (srcva - va0) n
        if (cstring bytes).length < n then pure (0, dst ++ cstring bytes ++ [0])
        else copyinstrLoop pagetable fuel (va0 + PGSIZE) (max - n) (dst ++ bytes)

/-- Copy a NUL-terminated string of at most `max` bytes from the user address `srcva`. -/
def copyinstr (pagetable srcva max : ℕ) : Kernel (ℤ × List UInt8) :=
  copyinstrLoop pagetable max srcva max []

/-! ## What they leave alone -/

variable {L : Layout} {m₀ : ℕ → Page} {r va : ℕ} {A : AS} {rest : Multiset ℕ}

/-- The program leaves the address space as it is. -/
def Reads (L : Layout) {α : Type} (c : Kernel α) : Prop :=
  ∀ m held, Triple (At L m held) c fun _ s => At L m held s

theorem Reads.ret {α : Type} (a : α) : Reads L (pure a) := fun _ _ => Triple.ret fun _ hs => hs

theorem Reads.bind {α β : Type} {c : Kernel α} {f : α → Kernel β} (hc : Reads L c)
    (hf : ∀ a, Reads L (f a)) : Reads L (c >>= f) := fun m held =>
  Triple.bind (hc m held) fun a => hf a m held

theorem Reads.ite {α : Type} {φ : Prop} [Decidable φ] {c d : Kernel α} (hc : Reads L c)
    (hd : Reads L d) : Reads L (if φ then c else d) := by
  split_ifs
  · exact hc
  · exact hd

theorem Reads.readPte (p i : ℕ) : Reads L (readPte p i) := fun _ _ =>
  readPte_spec.post fun _ _ hs => hs.2

theorem Reads.readBytes (pa off len : ℕ) : Reads L (readBytes pa off len) := by
  rintro m held s ⟨rfl, h⟩
  exact ⟨_, s, rfl, rfl, h⟩

theorem Reads.walk (hva : va < MAXVA) (pt : ℕ) : Reads L (walk pt va false) := fun _ _ =>
  (walk_find hva).post fun _ _ hs => hs.2

theorem Reads.walkaddr (pt va : ℕ) : Reads L (walkaddr pt va) := by
  unfold Vm.walkaddr
  by_cases hva : MAXVA ≤ va
  · rw [if_pos hva]
    exact Reads.ret 0
  · rw [if_neg hva]
    refine (Reads.walk (by omega) pt).bind fun o => ?_
    cases o with
    | none => exact Reads.ret 0
    | some place =>
      obtain ⟨p, i⟩ := place
      exact (Reads.readPte p i).bind fun w => (Reads.ret _).ite ((Reads.ret _).ite (Reads.ret _))

theorem Reads.copyin (pt srcva len : ℕ) : Reads L (copyin pt srcva len) := by
  have hloop : ∀ fuel srcva len dst, Reads L (copyinLoop pt fuel srcva len dst) := by
    intro fuel
    induction fuel with
    | zero => exact fun _ _ _ => Reads.ret _
    | succ fuel ih =>
      intro srcva len dst
      refine (Reads.ret _).ite ((Reads.walkaddr pt _).bind fun pa0 => (Reads.ret _).ite ?_)
      exact (Reads.readBytes _ _ _).bind fun bytes => ih _ _ _
  exact hloop _ _ _ _

theorem Reads.copyinstr (pt srcva max : ℕ) : Reads L (copyinstr pt srcva max) := by
  have hloop : ∀ fuel srcva max dst, Reads L (copyinstrLoop pt fuel srcva max dst) := by
    intro fuel
    induction fuel with
    | zero => exact fun _ _ _ => Reads.ret _
    | succ fuel ih =>
      intro srcva max dst
      refine (Reads.ret _).ite ((Reads.walkaddr pt _).bind fun pa0 => (Reads.ret _).ite ?_)
      exact (Reads.readBytes _ _ _).bind fun bytes => (Reads.ret _).ite (ih _ _ _)
  exact hloop _ _ _ _

theorem Reads.space {α : Type} {c : Kernel α} (hc : Reads L c) :
    Triple (Space L r A rest m₀) c fun _ s => Space L r A rest m₀ s := by
  refine Triple.of_exists_and fun m hpure => ?_
  exact (hc m _).post fun _ s hs => ⟨m, hs, hpure⟩

/-! ## copyout -/

/-- The pages at the top are not for the user. -/
def Shielded (A : AS) : Prop := ∀ v, IsTop v → A.pte v &&& PTE_U = 0

theorem HasTop.shielded {tf : ℕ} (h : HasTop L A tf) : Shielded A := by
  intro v hv
  rcases isTop_cases hv with rfl | rfl
  · rw [h.trampoline, and_flag (by decide), PTE_FLAGS_mk (by decide)]
    rfl
  · rw [h.trapframe, and_flag (by decide), PTE_FLAGS_mk (by decide)]
    rfl

/-- An entry for the user is that of a user page. -/
theorem AS.WF.user_lt (h : A.WF) (hs : Shielded A) {v : ℕ} (hv : v < 2 ^ 27)
    (hu : A.pte v &&& PTE_U ≠ 0) : v < A.n := by
  by_contra hge
  have hzero : A.pte v ≠ 0 := by
    intro h0
    rw [h0] at hu
    exact hu (Nat.zero_and _)
  by_cases hlow : v < trapframeVpn
  · exact hzero (h.high v (by omega) hlow)
  · by_cases hmid : v < 2 ^ 26
    · exact hu (hs v ⟨by omega, hmid⟩)
    · exact hzero (h.beyond v (by omega) hv)

/-- The address space with other contents of a user page. -/
def AS.setPage (A : AS) (v : ℕ) (x : Page) : AS := { A with page := update A.page v x }

theorem leaves_eq_map (f : ℕ → ℕ) (a b : ℕ) :
    leaves f a b = (Finset.Ico a b).val.map fun v => PTE2PA (f v) := by
  have h := Multiset.sum_map_singleton ((Finset.Ico a b).val.map fun v => PTE2PA (f v))
  rw [Multiset.map_map] at h
  exact h

/-- Different user pages are different pages. -/
theorem leaves_inj {f : ℕ → ℕ} {n u v : ℕ} (hnd : (leaves f 0 n).Nodup) (hu : u < n) (hv : v < n)
    (heq : PTE2PA (f u) = PTE2PA (f v)) : u = v := by
  rw [leaves_eq_map] at hnd
  exact Multiset.inj_on_of_nodup_map hnd u (Finset.mem_Ico.mpr ⟨Nat.zero_le u, hu⟩) v
    (Finset.mem_Ico.mpr ⟨Nat.zero_le v, hv⟩) heq

/-- The contents of a user page change. -/
theorem Space.setPage {m : ℕ → Page} {v : ℕ} {x : Page} {s : Phys} (hv : v < A.n)
    (hat : At L (update m (PTE2PA (A.pte v)) x) (pages m r A + rest) s)
    (hrep : Rep m r A) (hkeep : ∀ pa ∈ rest, m pa = m₀ pa) :
    Space L r (A.setPage v x) rest m₀ s := by
  have hnd := hat.nodup
  have hleaf : PTE2PA (A.pte v) ∈ leaves A.pte 0 A.n := mem_leaves ⟨Nat.zero_le v, hv⟩
  rw [pages, add_assoc] at hnd
  obtain ⟨-, hnd', hdisj⟩ := Multiset.nodup_add.mp hnd
  obtain ⟨hndl, -, hdisj'⟩ := Multiset.nodup_add.mp hnd'
  have hnodes : ∀ pa ∈ nodes m 2 r, update m (PTE2PA (A.pte v)) x pa = m pa := by
    intro pa hpa
    refine update_of_ne ?_ _ _
    rintro rfl
    exact Multiset.disjoint_left.mp hdisj hpa (Multiset.mem_add.mpr (Or.inl hleaf))
  obtain ⟨heq, htree, -⟩ := tree_congr 2 r hnodes
  refine ⟨_, ?_, ⟨htree hrep.tree, fun u hu => ?_,
    ⟨hrep.wf.n_le, hrep.wf.low, hrep.wf.high, hrep.wf.beyond⟩, fun u hu => ?_⟩, fun pa hpa => ?_⟩
  · rw [pages, heq]
    exact hat
  · rw [view_congr hnodes]
    exact hrep.view u hu
  · show update m (PTE2PA (A.pte v)) x (PTE2PA (A.pte u)) = update A.page v x u
    by_cases huv : u = v
    · rw [huv, update_self, update_self]
    · rw [update_of_ne huv, update_of_ne, hrep.data u hu]
      exact fun heq => huv (leaves_inj hndl hu hv heq)
  · rw [update_of_ne ?_, hkeep pa hpa]
    rintro rfl
    exact Multiset.disjoint_left.mp hdisj' hleaf hpa

/-- The address spaces have the same mappings. -/
def SameMap (A B : AS) : Prop := B.n = A.n ∧ B.pte = A.pte

theorem writeBytes_spec {m : ℕ → Page} {held : Multiset ℕ} {pa off : ℕ} {src : List UInt8} :
    Triple (At L m held) (writeBytes pa off src) fun _ s =>
      At L (update m pa (setBytes (m pa) off src)) held s := by
  rintro s ⟨rfl, h⟩
  exact ⟨(), _, rfl, rfl, ⟨h.pages, h.once⟩⟩

theorem copyoutLoop_spec (fuel : ℕ) : ∀ dstva src A, Shielded A →
    Triple (Space L r A rest m₀) (copyoutLoop r fuel dstva src) fun _ s =>
      ∃ B, SameMap A B ∧ Space L r B rest m₀ s := by
  induction fuel with
  | zero => exact fun _ _ A _ => Triple.ret fun s hs => ⟨A, ⟨rfl, rfl⟩, hs⟩
  | succ fuel ih =>
    intro dstva src A hsh
    have hstay : ∀ k : ℤ, Triple (Space L r A rest m₀) (pure k : Kernel ℤ) fun _ s =>
        ∃ B, SameMap A B ∧ Space L r B rest m₀ s :=
      fun k => Triple.ret fun s hs => ⟨A, ⟨rfl, rfl⟩, hs⟩
    refine Triple.ite (fun _ => hstay 0) fun _ => Triple.ite (fun _ => hstay (-1)) fun hva => ?_
    have hva' : PGROUNDDOWN dstva < MAXVA := by omega
    have hvpn : PGROUNDDOWN dstva / PGSIZE < 2 ^ 27 := lt_trans (vpn_lt hva') (by decide)
    refine Triple.of_exists_and fun m ⟨hrep, hkeep⟩ => ?_
    have hspace : ∀ s, At L m (pages m r A + rest) s → Space L r A rest m₀ s := fun s hs =>
      ⟨m, hs, hrep, hkeep⟩
    refine Triple.bind (walk_find hva') fun o => ?_
    refine Triple.of_and fun ho => ?_
    cases o with
    | none => exact (hstay (-1)).pre fun s hs => hspace s hs
    | some place =>
      obtain ⟨p, i⟩ := place
      refine Triple.bind readPte_spec fun w => ?_
      refine Triple.of_and fun hw => ?_
      rw [← view_of_find ho.symm, hrep.view _ hvpn] at hw
      refine Triple.ite (fun _ => (hstay (-1)).pre fun s hs => hspace s hs) fun hflags => ?_
      rw [hw] at hflags ⊢
      have hv : PGROUNDDOWN dstva / PGSIZE < A.n :=
        hrep.wf.user_lt hsh hvpn fun h => hflags (Or.inr (Or.inl h))
      refine Triple.bind writeBytes_spec fun _ => ?_
      exact ((ih _ _ _ (show Shielded (A.setPage _ _) from hsh)).pre fun s hs =>
        Space.setPage hv hs hrep hkeep).post fun _ s hs => hs

/-- **`copyout`** changes nothing but the contents of user pages. -/
theorem copyout_spec {dstva : ℕ} {src : List UInt8} (hsh : Shielded A) :
    Triple (Space L r A rest m₀) (copyout r dstva src) fun _ s =>
      ∃ B, SameMap A B ∧ Space L r B rest m₀ s :=
  copyoutLoop_spec _ dstva src A hsh

/-- `walkaddr` of a user page. -/
theorem walkaddr_spec {vpn : ℕ} (hvpn : vpn < A.n) (hu : A.pte vpn &&& PTE_U ≠ 0)
    (hva : va < MAXVA) (heq : va / PGSIZE = vpn) :
    Triple (Space L r A rest m₀) (walkaddr r va) fun pa s =>
      pa = PTE2PA (A.pte vpn) ∧ Space L r A rest m₀ s := by
  refine Triple.of_exists_and fun m ⟨hrep, hkeep⟩ => ?_
  have hlt : vpn < 2 ^ 27 := by
    have h₁ := hrep.wf.n_le
    have h₂ := trapframeVpn_lt
    omega
  have hleaf := hrep.wf.low vpn hvpn
  obtain ⟨p, i, hfind, hp, hpte⟩ := hrep.find hlt hleaf
  rw [walkaddr, if_neg (by omega)]
  refine Triple.bind (walk_find hva) fun o => ?_
  refine Triple.of_and fun ho => ?_
  rw [heq, hfind] at ho
  rw [ho]
  refine Triple.bind readPte_spec fun w => ?_
  refine Triple.of_fact (fun hw => ?_) fun s hs => hs.1
  rw [hw, hpte, if_neg hleaf.1, if_neg hu]
  exact Triple.ret fun s hs => ⟨rfl, m, hs.2, hrep, hkeep⟩

end Vm

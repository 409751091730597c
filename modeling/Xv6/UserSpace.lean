/-
# User address spaces

An address space `A` is what a process sees of its page table: its user pages are the
page numbers below `n`, `pte` are the entries and `page` the contents of the pages.
`Rep m r A` says that the page table at `r` represents `A` in memory `m`, and `Space`
that moreover the pages of the table, its user pages and the pages of `rest` are all
the pages in use.

`uvmalloc`, `uvmdealloc`, `uvmcopy`, `uvmfree`, `procPagetable` and
`procFreepagetable` are described on `A`.  That the pages stay below the trapframe is
nowhere checked in the source: it follows from the number of pages there are
(`Space.n_lt`).
-/
import Xv6.PageMap

namespace Vm

open Function Hoare

/-- A user address space with `n` pages. -/
structure AS where
  n : ℕ
  pte : ℕ → ℕ
  page : ℕ → Page

/-- The page numbers of the trapframe and the trampoline. -/
def trapframeVpn : ℕ := 2 ^ 26 - 2

def trampolineVpn : ℕ := 2 ^ 26 - 1

/-- The user pages are mapped, and nothing else except the two pages at the top. -/
structure AS.WF (A : AS) : Prop where
  n_le : A.n ≤ trapframeVpn
  low : ∀ v < A.n, Leaf (A.pte v)
  high : ∀ v, A.n ≤ v → v < trapframeVpn → A.pte v = 0
  beyond : ∀ v, 2 ^ 26 ≤ v → v < 2 ^ 27 → A.pte v = 0

/-- The page table at `r` represents `A`. -/
structure Rep (m : ℕ → Page) (r : ℕ) (A : AS) : Prop where
  tree : Tree m 2 r
  view : ∀ v < 2 ^ 27, view m 2 r v = A.pte v
  wf : A.WF
  data : ∀ v < A.n, m (PTE2PA (A.pte v)) = A.page v

/-- The pages of an address space: those of its table and its user pages. -/
def pages (m : ℕ → Page) (r : ℕ) (A : AS) : Multiset ℕ := nodes m 2 r + leaves A.pte 0 A.n

/-- The page table at `r` represents `A`; the other pages in use are those of `rest`,
with contents `m₀`. -/
def Space (L : Layout) (r : ℕ) (A : AS) (rest : Multiset ℕ) (m₀ : ℕ → Page) (s : Phys) : Prop :=
  ∃ m, At L m (pages m r A + rest) s ∧ Rep m r A ∧ ∀ pa ∈ rest, m pa = m₀ pa

variable {L : Layout} {m m' m₀ m₁ : ℕ → Page} {r : ℕ} {A : AS} {rest : Multiset ℕ} {s : Phys}

/-! ## Address spaces in memory -/

variable {f : ℕ → ℕ} {a b v pa w k sz oldsz newsz tf vpn : ℕ} {x : Page}

theorem mem_leaves (h : a ≤ v ∧ v < b) : PTE2PA (f v) ∈ leaves f a b :=
  Multiset.mem_sum.mpr ⟨v, Finset.mem_Ico.mpr h, Multiset.mem_singleton_self _⟩

theorem card_leaves (f : ℕ → ℕ) (a b : ℕ) : (leaves f a b).card = b - a := by
  rw [leaves, Multiset.card_sum]
  simp

/-- An address space depends on its own pages only. -/
theorem Rep.congr (h : Rep m r A) (hsame : ∀ pa ∈ pages m r A, m' pa = m pa) :
    Rep m' r A ∧ pages m' r A = pages m r A := by
  have hnodes : ∀ pa ∈ nodes m 2 r, m' pa = m pa := fun pa hpa =>
    hsame pa (Multiset.mem_add.mpr (Or.inl hpa))
  obtain ⟨heq, htree, -⟩ := tree_congr 2 r hnodes
  refine ⟨⟨htree h.tree, fun v hv => ?_, h.wf, fun v hv => ?_⟩, ?_⟩
  · rw [view_congr hnodes, h.view v hv]
  · rw [hsame _ (Multiset.mem_add.mpr (Or.inr (mem_leaves ⟨Nat.zero_le v, hv⟩))), h.data v hv]
  · rw [pages, pages, heq]

theorem Space.of_table (h : Table L r A.pte (leaves A.pte 0 A.n + rest) m₁ s) (hwf : A.WF)
    (hdata : ∀ v < A.n, m₁ (PTE2PA (A.pte v)) = A.page v)
    (hkeep : ∀ pa ∈ rest, m₁ pa = m₀ pa) : Space L r A rest m₀ s := by
  obtain ⟨m, hat, ht, hsame, hview⟩ := h
  refine ⟨m, ?_, ⟨ht, hview, hwf, fun v hv => ?_⟩, fun pa hpa => ?_⟩
  · rw [pages, add_assoc]
    exact hat
  · rw [hsame _ (Multiset.mem_add.mpr (Or.inl (mem_leaves ⟨Nat.zero_le v, hv⟩))), hdata v hv]
  · rw [hsame pa (Multiset.mem_add.mpr (Or.inr hpa)), hkeep pa hpa]

section

variable (h : Space L r A rest m₀ s)
include h

theorem Space.table : ∃ m₁, Table L r A.pte (leaves A.pte 0 A.n + rest) m₁ s ∧ A.WF ∧
    (∀ v < A.n, m₁ (PTE2PA (A.pte v)) = A.page v) ∧ ∀ pa ∈ rest, m₁ pa = m₀ pa := by
  obtain ⟨m, hat, hrep, hkeep⟩ := h
  refine ⟨m, ⟨m, ?_, hrep.tree, fun _ _ => rfl, hrep.view⟩, hrep.wf, hrep.data, hkeep⟩
  rw [pages, add_assoc] at hat
  exact hat

theorem Space.wf : A.WF := by
  obtain ⟨m, -, hrep, -⟩ := h
  exact hrep.wf

theorem Space.nodup_rest : rest.Nodup := by
  obtain ⟨m, hat, -, -⟩ := h
  exact Multiset.nodup_of_le (Multiset.le_add_left _ _) hat.nodup

/-- **The counting argument**: there are not enough pages to reach the trapframe. -/
theorem Space.n_lt : A.n + rest.card < 2 ^ 15 := by
  obtain ⟨m, hat, -, -⟩ := h
  have hcard := hat.2.card_lt
  rw [pages, Multiset.card_add, Multiset.card_add, card_leaves] at hcard
  omega

theorem Space.keep (hsame : ∀ pa ∈ rest, m₀ pa = m₁ pa) : Space L r A rest m₁ s := by
  obtain ⟨m, hat, hrep, hkeep⟩ := h
  exact ⟨m, hat, hrep, fun pa hpa => (hkeep pa hpa).trans (hsame pa hpa)⟩

end

/-- Two descriptions of one address space. -/
theorem Space.congr {B : AS} (h : Space L r A rest m₀ s) (hn : B.n = A.n)
    (hpte : ∀ v, B.pte v = A.pte v) (hpage : ∀ v < A.n, B.page v = A.page v) :
    Space L r B rest m₀ s := by
  have hfun : B.pte = A.pte := funext hpte
  obtain ⟨m, hat, hrep, hkeep⟩ := h
  refine ⟨m, ?_, ⟨hrep.tree, ?_, ⟨?_, ?_, ?_, ?_⟩, fun v hv => ?_⟩, hkeep⟩
  · rw [pages, hfun, hn]
    exact hat
  · rw [hfun]
    exact hrep.view
  · rw [hn]
    exact hrep.wf.n_le
  · rw [hfun, hn]
    exact hrep.wf.low
  · rw [hfun, hn]
    exact hrep.wf.high
  · rw [hfun]
    exact hrep.wf.beyond
  · rw [hn] at hv
    rw [hpte, hpage v hv, hrep.data v hv]

/-- A page outside the address space changes. -/
theorem Space.of_update (hat : At L (update m pa x) (pages m r A + rest) s) (hrep : Rep m r A)
    (hpa : pa ∉ pages m r A)
    (hkeep : ∀ q ∈ rest, update m pa x q = m₀ q) : Space L r A rest m₀ s := by
  have hsame : ∀ q ∈ pages m r A, update m pa x q = m q := by
    intro q hq
    refine update_of_ne ?_ _ _
    rintro rfl
    exact hpa hq
  obtain ⟨hrep', hpages⟩ := hrep.congr hsame
  refine ⟨_, ?_, hrep', hkeep⟩
  rw [hpages]
  exact hat

/-! ## Pages beside an address space -/

theorem kalloc_space : Triple (Space L r A rest m₀) kalloc fun o s =>
    match o with
    | none => Space L r A rest m₀ s
    | some pa => pa ∉ rest ∧ pa ∈ frames L ∧
        Space L r A (pa ::ₘ rest) (update m₀ pa fun _ => 5) s := by
  refine Triple.of_exists_and fun m ⟨hrep, hkeep⟩ => ?_
  refine kalloc_spec.post fun o s hs => ?_
  cases o with
  | none => exact ⟨m, hs, hrep, hkeep⟩
  | some pa =>
    obtain ⟨hfresh, hat⟩ := hs
    have hrest : pa ∉ rest := fun h => hfresh (Multiset.mem_add.mpr (Or.inr h))
    have hframe := hat.2.mem_frames (Multiset.mem_cons_self _ _)
    rw [← Multiset.add_cons] at hat
    refine ⟨hrest, hframe, Space.of_update hat hrep
      (fun h => hfresh (Multiset.mem_add.mpr (Or.inl h))) fun q hq => ?_⟩
    by_cases hqp : q = pa
    · rw [hqp, update_self, update_self]
    · rw [update_of_ne hqp, update_of_ne hqp]
      exact hkeep q ((Multiset.mem_cons.mp hq).resolve_left hqp)

theorem kfree_space : Triple (Space L r A (pa ::ₘ rest) m₀) (kfree L pa) fun _ s =>
    Space L r A rest m₀ s := by
  refine Triple.of_exists_and fun m ⟨hrep, hkeep⟩ => ?_
  rw [Multiset.add_cons]
  refine Triple.of_fact (fun hnd => ?_) fun s hs => hs.nodup
  have hnot := (Multiset.nodup_cons.mp hnd).1
  refine kfree_spec.post fun _ s hs => Space.of_update hs hrep
    (fun h => hnot (Multiset.mem_add.mpr (Or.inl h))) fun q hq => ?_
  rw [update_of_ne ?_, hkeep q (Multiset.mem_cons_of_mem hq)]
  rintro rfl
  exact hnot (Multiset.mem_add.mpr (Or.inr hq))

/-- A page beside the address space gets new contents. -/
theorem Space.write {c : Kernel Unit} (hc : ∀ m held, (∀ q ∈ rest, m q = m₀ q) →
      Triple (At L m held) c fun _ s => At L (update m pa x) held s) (hpa : pa ∈ rest) :
    Triple (Space L r A rest m₀) c fun _ s => Space L r A rest (update m₀ pa x) s := by
  refine Triple.of_exists_and fun m ⟨hrep, hkeep⟩ => ?_
  refine Triple.of_fact (fun hnd => ?_) fun s hs => hs.nodup
  have hdisj := (Multiset.nodup_add.mp hnd).2.2
  refine (hc m _ hkeep).post fun _ s hs => Space.of_update hs hrep
    (fun h => Multiset.disjoint_left.mp hdisj h hpa) fun q hq => ?_
  by_cases hqp : q = pa
  · rw [hqp, update_self, update_self]
  · rw [update_of_ne hqp, update_of_ne hqp]
    exact hkeep q hq

theorem memsetPage_space {c : UInt8} (hpa : pa ∈ rest) :
    Triple (Space L r A rest m₀) (memsetPage pa c) fun _ s =>
      Space L r A rest (update m₀ pa fun _ => c) s :=
  Space.write (fun _ _ _ => memsetPage_spec) hpa

theorem memmovePage_space {src : ℕ} (hpa : pa ∈ rest) (hsrc : src ∈ rest) :
    Triple (Space L r A rest m₀) (memmovePage pa src) fun _ s =>
      Space L r A rest (update m₀ pa (m₀ src)) s :=
  Space.write (fun m held hkeep => by rw [← hkeep src hsrc]; exact memmovePage_spec) hpa

/-! ## Growing by one page -/

/-- One more user page, with entry `w` and contents `x`. -/
def AS.push (A : AS) (w : ℕ) (x : Page) : AS where
  n := A.n + 1
  pte := update A.pte A.n w
  page := update A.page A.n x

theorem leaves_succ (h : a ≤ b) : leaves f a (b + 1) = leaves f a b + {PTE2PA (f b)} :=
  Finset.sum_Ico_succ_top h _

theorem AS.WF.push (h : A.WF) (hn : A.n < trapframeVpn) (hw : Leaf w) : (A.push w x).WF where
  n_le := hn
  low v hv := by
    show Leaf (update A.pte A.n w v)
    by_cases hvn : v = A.n
    · rw [hvn, update_self]
      exact hw
    · rw [update_of_ne hvn]
      exact h.low v (Nat.lt_of_le_of_ne (Nat.le_of_lt_succ hv) hvn)
  high v hv hlt := by
    have hvn : A.n + 1 ≤ v := hv
    show update A.pte A.n w v = 0
    rw [update_of_ne (by omega)]
    exact h.high v (by omega) hlt
  beyond v hv hlt := by
    show update A.pte A.n w v = 0
    have : trapframeVpn < 2 ^ 26 := by decide
    rw [update_of_ne (by omega)]
    exact h.beyond v hv hlt

/-- **Mapping a page at the end** of the address space. -/
theorem mappages_push {perm : ℕ} (hperm : perm < 2 ^ 10)
    (hrwx : perm &&& (PTE_R ||| PTE_W ||| PTE_X) ≠ 0) :
    Triple (Space L r A (pa ::ₘ rest) m₀) (mappages r (A.n * PGSIZE) PGSIZE pa perm) fun ret s =>
      ret = 0 ∧ Space L r (A.push (PA2PTE pa ||| perm ||| PTE_V) (m₀ pa)) rest m₀ s ∨
      ret = -1 ∧ Space L r A (pa ::ₘ rest) m₀ s := by
  intro s₀ hs₀
  have hn := hs₀.n_lt
  have hpa : pa ∈ frames L := by
    obtain ⟨m, hat, -, -⟩ := hs₀
    exact hat.2.mem_frames (Multiset.mem_add.mpr (Or.inr (Multiset.mem_cons_self _ _)))
  have hpa' := frames_lt hpa
  obtain ⟨m₁, htable, hwf, hdata, hkeep⟩ := hs₀.table
  have htf : A.n < trapframeVpn := lt_trans (by omega) (by decide : 2 ^ 15 < trapframeVpn)
  have hdiv : A.n * PGSIZE / PGSIZE = A.n := Nat.mul_div_cancel _ (by decide)
  have hva : A.n * PGSIZE < MAXVA := by
    rw [MAXVA_eq, PGSIZE_eq]
    omega
  obtain ⟨ret, t, hrun, hpost⟩ := mappages_spec (Nat.mul_mod_left _ _) hva hpa' hperm hrwx
    (by rw [hdiv]; exact hwf.high A.n le_rfl htf) s₀ htable
  refine ⟨ret, t, hrun, ?_⟩
  rcases hpost with ⟨hret, htab⟩ | ⟨hret, htab⟩
  · refine Or.inl ⟨hret, ?_⟩
    rw [hdiv] at htab
    have hold : leaves (update A.pte A.n (PA2PTE pa ||| perm ||| PTE_V)) 0 A.n
        = leaves A.pte 0 A.n :=
      leaves_congr fun v _ hv => update_of_ne (Nat.ne_of_lt hv) _ _
    have hleaves : leaves A.pte 0 A.n + pa ::ₘ rest
        = leaves (update A.pte A.n (PA2PTE pa ||| perm ||| PTE_V)) 0 (A.n + 1) + rest := by
      rw [leaves_succ (Nat.zero_le _), update_self, PTE2PA_mk hpa'.1 hperm,
        hold, add_assoc]
      rfl
    rw [hleaves] at htab
    refine Space.of_table (A := A.push (PA2PTE pa ||| perm ||| PTE_V) (m₀ pa)) htab
      (hwf.push htf (leaf_mk hperm hrwx)) (fun v hv => ?_)
      fun q hq => hkeep q (Multiset.mem_cons_of_mem hq)
    show m₁ (PTE2PA (update A.pte A.n _ v)) = update A.page A.n (m₀ pa) v
    by_cases hvn : v = A.n
    · rw [hvn, update_self, update_self, PTE2PA_mk hpa'.1 hperm]
      exact hkeep pa (Multiset.mem_cons_self _ _)
    · rw [update_of_ne hvn, update_of_ne hvn]
      exact hdata v (Nat.lt_of_le_of_ne (Nat.le_of_lt_succ hv) hvn)
  · exact Or.inr ⟨hret, Space.of_table htab hwf hdata hkeep⟩

/-! ## Shrinking -/

/-- The first `k` user pages. -/
def AS.trunc (A : AS) (k : ℕ) : AS where
  n := k
  pte := clear A.pte k A.n
  page := A.page

theorem leaves_split {c : ℕ} (hab : a ≤ b) (hbc : b ≤ c) :
    leaves f a c = leaves f a b + leaves f b c :=
  (Finset.sum_Ico_consecutive _ hab hbc).symm

theorem AS.WF.trunc (h : A.WF) (hk : k ≤ A.n) : (A.trunc k).WF where
  n_le := le_trans hk h.n_le
  low v hv := by
    have hvk : v < k := hv
    show Leaf (clear A.pte k A.n v)
    rw [clear, if_neg (by omega)]
    exact h.low v (by omega)
  high v hv hlt := by
    have hkv : k ≤ v := hv
    show clear A.pte k A.n v = 0
    unfold clear
    split_ifs with hc
    · rfl
    · exact h.high v (by omega) hlt
  beyond v hv hlt := by
    show clear A.pte k A.n v = 0
    unfold clear
    split_ifs with hc
    · rfl
    · exact h.beyond v hv hlt

theorem trapframeVpn_lt : trapframeVpn < 2 ^ 26 := by decide

theorem uvmunmap_trunc (hk : k ≤ A.n) :
    Triple (Space L r A rest m₀) (uvmunmap L r (k * PGSIZE) (A.n - k) true) fun _ s =>
      Space L r (A.trunc k) rest m₀ s := by
  intro s₀ hs₀
  obtain ⟨m₁, htable, hwf, hdata, hkeep⟩ := hs₀.table
  have hle := hwf.n_le
  have hlt := trapframeVpn_lt
  have hsum : k + (A.n - k) = A.n := by omega
  have hrest : leaves A.pte 0 A.n + rest
      = freed true A.pte k (k + (A.n - k)) + (leaves A.pte 0 k + rest) := by
    rw [freed, if_pos rfl, hsum, leaves_split (Nat.zero_le k) hk, add_comm (leaves A.pte 0 k),
      add_assoc]
  rw [hrest] at htable
  obtain ⟨u, t, hrun, hpost⟩ := uvmunmap_spec (by omega)
    (fun v _ hv => hwf.low v (by omega)) s₀ htable
  rw [hsum] at hpost
  have hleaves : leaves (clear A.pte k A.n) 0 k = leaves A.pte 0 k :=
    leaves_congr fun v _ hv => by rw [clear, if_neg (by omega)]
  rw [← hleaves] at hpost
  refine ⟨u, t, hrun, Space.of_table (A := A.trunc k) hpost (hwf.trunc hk) (fun v hv => ?_) hkeep⟩
  have hvk : v < k := hv
  show m₁ (PTE2PA (clear A.pte k A.n v)) = A.page v
  rw [clear, if_neg (by omega)]
  exact hdata v (by omega)

/-- The number of user pages is that of a process of `sz` bytes. -/
def Sized (A : AS) (sz : ℕ) : Prop := A.n = (sz + (PGSIZE - 1)) / PGSIZE

theorem PGROUNDUP_eq (hk : k = (sz + (PGSIZE - 1)) / PGSIZE) (hlt : k < 2 ^ 15) :
    PGROUNDUP sz = k * PGSIZE := by
  rw [PGSIZE_eq] at hk
  rw [PGROUNDUP, PGSIZE_eq, Nat.mod_eq_of_lt (by omega), ← hk]

theorem viaInt_eq {x : ℕ} (hx : x < 2 ^ 31) : viaInt x = x := by
  rw [viaInt, Nat.mod_eq_of_lt (by omega), if_pos hx]

/-- **`uvmdealloc`** keeps the pages of the new size. -/
theorem uvmdealloc_spec (hold : Sized A oldsz) (hlt : newsz < oldsz) :
    Triple (Space L r A rest m₀) (uvmdealloc L r oldsz newsz) fun ret s =>
      ret = newsz ∧ Space L r (A.trunc ((newsz + (PGSIZE - 1)) / PGSIZE)) rest m₀ s := by
  refine Triple.of_fact (fun hn => ?_) fun s hs => hs.n_lt
  have hle : (newsz + (PGSIZE - 1)) / PGSIZE ≤ A.n := by
    rw [hold]
    exact Nat.div_le_div_right (by omega)
  have hup := PGROUNDUP_eq hold (by omega)
  have hup' := PGROUNDUP_eq rfl (lt_of_le_of_lt hle (by omega))
  have hdiv : (A.n * PGSIZE - (newsz + (PGSIZE - 1)) / PGSIZE * PGSIZE) / PGSIZE
      = A.n - (newsz + (PGSIZE - 1)) / PGSIZE := by
    rw [← Nat.sub_mul, Nat.mul_div_cancel _ (by decide)]
  rw [uvmdealloc, if_neg (by omega), hup, hup', hdiv,
    viaInt_eq (lt_of_le_of_lt (Nat.sub_le _ _) (by omega))]
  refine Triple.bind ?_ fun _ => Triple.ret fun s hs => ⟨rfl, hs⟩
  refine Triple.ite (fun _ => uvmunmap_trunc hle) fun hnot => Triple.ret fun s hs => ?_
  have heq : (newsz + (PGSIZE - 1)) / PGSIZE = A.n := by
    rw [PGSIZE_eq] at hnot hle ⊢
    omega
  refine hs.congr heq (fun v => ?_) fun _ _ => rfl
  show clear A.pte _ A.n v = A.pte v
  rw [heq, clear, if_neg (by omega)]

/-! ## uvmalloc -/

/-- `B` is `A` with pages of zeros added at the end. -/
structure Grows (A B : AS) (perm : ℕ) : Prop where
  n_le : A.n ≤ B.n
  pte : ∀ v, v < A.n ∨ B.n ≤ v → B.pte v = A.pte v
  page : ∀ v < A.n, B.page v = A.page v
  flags : ∀ v, A.n ≤ v → v < B.n → PTE_FLAGS (B.pte v) = perm ||| 1
  zero : ∀ v, A.n ≤ v → v < B.n → B.page v = fun _ => 0

variable {B : AS} {perm xperm : ℕ}

theorem Grows.refl (A : AS) (perm : ℕ) : Grows A A perm where
  n_le := le_rfl
  pte _ _ := rfl
  page _ _ := rfl
  flags v h₁ h₂ := by omega
  zero v h₁ h₂ := by omega

theorem Grows.push (h : Grows A B perm) (hperm : perm < 2 ^ 10) (pa : ℕ) :
    Grows A (B.push (PA2PTE pa ||| perm ||| PTE_V) fun _ => 0) perm where
  n_le := Nat.le_succ_of_le h.n_le
  pte v hv := by
    have hle := h.n_le
    have hv' : v < A.n ∨ B.n + 1 ≤ v := hv
    show update B.pte B.n _ v = A.pte v
    rw [update_of_ne (by omega)]
    exact h.pte v (by omega)
  page v hv := by
    have hle := h.n_le
    show update B.page B.n _ v = A.page v
    rw [update_of_ne (by omega)]
    exact h.page v hv
  flags v h₁ h₂ := by
    have hv : v < B.n + 1 := h₂
    show PTE_FLAGS (update B.pte B.n _ v) = _
    by_cases hvn : v = B.n
    · rw [hvn, update_self, PTE_FLAGS_mk hperm]
    · rw [update_of_ne hvn]
      exact h.flags v h₁ (by omega)
  zero v h₁ h₂ := by
    have hv : v < B.n + 1 := h₂
    show update B.page B.n _ v = _
    by_cases hvn : v = B.n
    · rw [hvn, update_self]
    · rw [update_of_ne hvn]
      exact h.zero v h₁ (by omega)

theorem sized_mul (A : AS) : Sized A (A.n * PGSIZE) := by
  rw [Sized, PGSIZE_eq]
  omega

/-- Giving back the pages that were added. -/
theorem uvmdealloc_back (hwf : A.WF) (h : Grows A B perm) :
    Triple (Space L r B rest m₀) (uvmdealloc L r (B.n * PGSIZE) (A.n * PGSIZE)) fun _ s =>
      Space L r A rest m₀ s := by
  have hle := h.n_le
  by_cases heq : A.n = B.n
  · rw [uvmdealloc, if_pos (by rw [heq])]
    refine Triple.ret fun s hs => hs.congr heq (fun v => ?_) fun v hv => (h.page v (by omega)).symm
    exact (h.pte v (by omega)).symm
  · have hlt : A.n * PGSIZE < B.n * PGSIZE := by
      rw [PGSIZE_eq]
      omega
    refine Triple.of_fact (fun hwfB => ?_) fun s hs => hs.wf
    refine (uvmdealloc_spec (sized_mul B) hlt).post fun ret s hs => ?_
    have hn : (A.n * PGSIZE + (PGSIZE - 1)) / PGSIZE = A.n := (sized_mul A).symm
    rw [hn] at hs
    refine hs.2.congr rfl (fun v => ?_) fun v hv => (h.page v hv).symm
    show A.pte v = clear B.pte A.n B.n v
    unfold clear
    split_ifs with hv
    · have := hwfB.n_le
      exact hwf.high v hv.1 (by omega)
    · exact (h.pte v (by omega)).symm

theorem perm_rwx (xperm : ℕ) : (PTE_R ||| PTE_U ||| xperm) &&& (PTE_R ||| PTE_W ||| PTE_X) ≠ 0 := by
  rw [Nat.and_or_distrib_right]
  intro h
  exact absurd (Nat.or_eq_zero_iff.mp h).1 (by decide)

theorem perm_lt (hx : xperm < 2 ^ 10) : PTE_R ||| PTE_U ||| xperm < 2 ^ 10 :=
  Nat.or_lt_two_pow (by decide) hx

theorem uvmallocLoop_spec (hwf : A.WF) (hx : xperm < 2 ^ 10) (k : ℕ) :
    ∀ B, Grows A B (PTE_R ||| PTE_U ||| xperm) →
      Triple (Space L r B rest m₀) (uvmallocLoop L r (A.n * PGSIZE) xperm k (B.n * PGSIZE))
        fun ok s => ok = true ∧ (∃ C, C.n = B.n + k ∧ Grows A C (PTE_R ||| PTE_U ||| xperm) ∧
            Space L r C rest m₀ s) ∨ ok = false ∧ Space L r A rest m₀ s := by
  induction k with
  | zero => exact fun B hB => Triple.ret fun s hs => Or.inl ⟨rfl, B, rfl, hB, hs⟩
  | succ k ih =>
    intro B hB
    refine Triple.bind kalloc_space fun o => ?_
    cases o with
    | none =>
      refine Triple.bind (uvmdealloc_back hwf hB) fun _ => Triple.ret fun s hs => ?_
      exact Or.inr ⟨rfl, hs⟩
    | some mem =>
      refine Triple.of_fact (fun hmem => ?_) fun s hs => hs.1
      refine Triple.bind ((memsetPage_space (Multiset.mem_cons_self _ _)).pre
        fun s hs => hs.2.2) fun _ => ?_
      rw [update_idem]
      have hkeep : ∀ pa ∈ rest, update m₀ mem (fun _ => (0 : UInt8)) pa = m₀ pa := by
        intro pa hpa
        refine update_of_ne ?_ _ _
        rintro rfl
        exact hmem hpa
      refine Triple.bind (mappages_push (perm_lt hx) (perm_rwx xperm)) fun ret => ?_
      refine Triple.ite (fun hret => ?_) fun hret => ?_
      · refine Triple.pre ?_ fun s hs => (hs.resolve_left fun h => hret h.1).2
        refine Triple.bind kfree_space fun _ => ?_
        refine Triple.bind (uvmdealloc_back hwf hB) fun _ => Triple.ret fun s hs => ?_
        exact Or.inr ⟨rfl, hs.keep hkeep⟩
      · have hnext := ih _ (hB.push (perm_lt hx) mem)
        rw [show (B.push (PA2PTE mem ||| (PTE_R ||| PTE_U ||| xperm) ||| PTE_V) fun _ => 0).n
          = B.n + 1 from rfl, Nat.add_mul, Nat.one_mul] at hnext
        refine hnext.conseq (fun s hs => ?_) fun ok s hs => ?_
        · have hpush := (hs.resolve_right fun h => hret (by rw [h.1]; decide)).2
          rw [update_self] at hpush
          exact hpush.keep hkeep
        · refine hs.imp_left fun h => ⟨h.1, ?_⟩
          obtain ⟨-, C, hC, hgrow, hspace⟩ := h
          exact ⟨C, by omega, hgrow, hspace⟩

/-- **`uvmalloc`** adds pages of zeros up to the new size, or leaves the address space
as it was. -/
theorem uvmalloc_spec (hold : Sized A oldsz) (hx : xperm < 2 ^ 10) :
    Triple (Space L r A rest m₀) (uvmalloc L r oldsz newsz xperm) fun ret s =>
      newsz < oldsz ∧ ret = oldsz ∧ Space L r A rest m₀ s ∨
      oldsz ≤ newsz ∧ ret = newsz ∧ (∃ C, Sized C newsz ∧
        Grows A C (PTE_R ||| PTE_U ||| xperm) ∧ Space L r C rest m₀ s) ∨
      ret = 0 ∧ Space L r A rest m₀ s := by
  refine Triple.of_fact (fun hn => ?_) fun s hs => hs.n_lt
  refine Triple.of_fact (fun hwf => ?_) fun s hs => hs.wf
  refine Triple.ite (fun hlt => ?_) fun hge => ?_
  · exact Triple.ret fun s hs => Or.inl ⟨hlt, rfl, hs⟩
  · rw [PGROUNDUP_eq hold (by omega)]
    refine Triple.bind (uvmallocLoop_spec hwf hx _ A (Grows.refl A _)) fun ok => ?_
    refine Triple.ite (fun hok => ?_) fun hok => ?_
    · refine Triple.ret fun s hs => Or.inr (Or.inl ⟨by omega, rfl, ?_⟩)
      obtain ⟨-, C, hC, hgrow, hspace⟩ := hs.resolve_right fun h => by simp [hok] at h
      refine ⟨C, ?_, hgrow, hspace⟩
      rw [Sized, PGSIZE_eq] at *
      omega
    · exact Triple.ret fun s hs => Or.inr (Or.inr ⟨rfl, (hs.resolve_left fun h => hok h.1).2⟩)

/-! ## The two pages at the top -/

/-- The address space with another entry for page number `v`. -/
def AS.setTop (A : AS) (v w : ℕ) : AS := { A with pte := update A.pte v w }

theorem AS.setTop_self (A : AS) (v w : ℕ) : (A.setTop v w).pte v = w := update_self ..

theorem AS.setTop_of_ne (A : AS) {u : ℕ} (w : ℕ) (h : u ≠ v) : (A.setTop v w).pte u = A.pte u :=
  update_of_ne h ..

/-- `v` is the page number of the trapframe or the trampoline. -/
def IsTop (v : ℕ) : Prop := trapframeVpn ≤ v ∧ v < 2 ^ 26

theorem AS.WF.setTop (h : A.WF) (hv : IsTop v) (w : ℕ) : (A.setTop v w).WF where
  n_le := h.n_le
  low u hu := by
    have hun : u < A.n := hu
    have hle := h.n_le
    have hv' := hv.1
    rw [A.setTop_of_ne w (by omega)]
    exact h.low u hun
  high u hu hlt := by
    have hv' := hv.1
    rw [A.setTop_of_ne w (by omega)]
    exact h.high u hu hlt
  beyond u hu hlt := by
    have hv' := hv.2
    rw [A.setTop_of_ne w (by omega)]
    exact h.beyond u hu hlt

/-- A change of a top entry of the table is a change of the address space. -/
theorem Space.of_top (hv : IsTop v)
    (h : Table L r (update A.pte v w) (leaves A.pte 0 A.n + rest) m₁ s) (hwf : A.WF)
    (hdata : ∀ u < A.n, m₁ (PTE2PA (A.pte u)) = A.page u)
    (hkeep : ∀ pa ∈ rest, m₁ pa = m₀ pa) : Space L r (A.setTop v w) rest m₀ s := by
  have hle := hwf.n_le
  have hv' := hv.1
  have hne : ∀ u, u < A.n → update A.pte v w u = A.pte u := fun u hu =>
    update_of_ne (by omega) _ _
  have hleaves : leaves (update A.pte v w) 0 A.n = leaves A.pte 0 A.n :=
    leaves_congr fun u _ hu => hne u hu
  rw [← hleaves] at h
  refine Space.of_table (A := A.setTop v w) h (hwf.setTop hv w) (fun u hu => ?_) hkeep
  show m₁ (PTE2PA (update A.pte v w u)) = A.page u
  rw [hne u hu]
  exact hdata u hu

theorem mappages_top (hv : IsTop v) (hzero : A.pte v = 0) (hpa : pa % PGSIZE = 0 ∧ pa < 2 ^ 56)
    (hperm : perm < 2 ^ 10) (hrwx : perm &&& (PTE_R ||| PTE_W ||| PTE_X) ≠ 0) :
    Triple (Space L r A rest m₀) (mappages r (v * PGSIZE) PGSIZE pa perm) fun ret s =>
      ret = 0 ∧ Space L r (A.setTop v (PA2PTE pa ||| perm ||| PTE_V)) rest m₀ s ∨
      ret = -1 ∧ Space L r A rest m₀ s := by
  intro s₀ hs₀
  obtain ⟨m₁, htable, hwf, hdata, hkeep⟩ := hs₀.table
  have hdiv : v * PGSIZE / PGSIZE = v := Nat.mul_div_cancel _ (by decide)
  have hva : v * PGSIZE < MAXVA := by
    have := hv.2
    rw [MAXVA_eq, PGSIZE_eq]
    omega
  obtain ⟨ret, t, hrun, hpost⟩ := mappages_spec (Nat.mul_mod_left _ _) hva hpa hperm hrwx
    (by rw [hdiv]; exact hzero) s₀ htable
  rw [hdiv] at hpost
  refine ⟨ret, t, hrun, hpost.imp (fun h => ⟨h.1, ?_⟩) fun h => ⟨h.1, ?_⟩⟩
  · exact Space.of_top hv h.2 hwf hdata hkeep
  · exact Space.of_table h.2 hwf hdata hkeep

theorem uvmunmap_top (hv : IsTop v) (hleaf : Leaf (A.pte v)) :
    Triple (Space L r A rest m₀) (uvmunmap L r (v * PGSIZE) 1 false) fun _ s =>
      Space L r (A.setTop v 0) rest m₀ s := by
  intro s₀ hs₀
  obtain ⟨m₁, htable, hwf, hdata, hkeep⟩ := hs₀.table
  have hfreed : freed false A.pte v (v + 1) + (leaves A.pte 0 A.n + rest)
      = leaves A.pte 0 A.n + rest := zero_add _
  rw [← hfreed] at htable
  obtain ⟨u, t, hrun, hpost⟩ := uvmunmap_spec (by have := hv.2; omega)
    (fun u h₁ h₂ => by rw [show u = v by omega]; exact hleaf) s₀ htable
  have hclear : clear A.pte v (v + 1) = update A.pte v 0 := by
    funext u
    unfold clear
    by_cases hu : u = v
    · rw [hu, update_self, if_pos (by omega)]
    · rw [update_of_ne hu, if_neg (by omega)]
  rw [hclear] at hpost
  exact ⟨u, t, hrun, Space.of_top hv hpost hwf hdata hkeep⟩

/-! ## Freeing and making address spaces -/

/-- **`uvmfree`** gives back every page of an address space. -/
theorem uvmfree_spec (hsz : Sized A sz) (htop : ∀ v, IsTop v → A.pte v = 0) :
    Triple (Space L r A rest m₀) (uvmfree L r sz) fun _ s => Held L rest m₀ s := by
  refine Triple.of_fact (fun hn => ?_) fun s hs => hs.n_lt
  refine Triple.bind (Q := fun _ s => Space L r (A.trunc 0) rest m₀ s) ?_ fun _ => ?_
  · rw [PGROUNDUP_eq hsz (by omega), Nat.mul_div_cancel _ (by decide)]
    refine Triple.ite (fun _ => ?_) fun hpos => ?_
    · have h : Triple (Space L r A rest m₀) (uvmunmap L r (0 * PGSIZE) (A.n - 0) true) fun _ s =>
          Space L r (A.trunc 0) rest m₀ s := uvmunmap_trunc (Nat.zero_le A.n)
      rw [Nat.zero_mul, Nat.sub_zero] at h
      exact h
    · have hzero : A.n = 0 := by
        rw [hsz, show sz = 0 by omega]
        rfl
      refine Triple.ret fun s hs => hs.congr hzero.symm (fun v => ?_) fun _ _ => rfl
      show clear A.pte 0 A.n v = A.pte v
      rw [clear, if_neg (by omega)]
  · intro s₀ hs₀
    obtain ⟨m₁, htable, hwf, -, hkeep⟩ := hs₀.table
    have hleaves : leaves (A.trunc 0).pte 0 (A.trunc 0).n + rest = rest := by
      rw [show (A.trunc 0).n = 0 from rfl, leaves, Finset.Ico_self, Finset.sum_empty, zero_add]
    rw [hleaves] at htable
    have hzero : ∀ v < 2 ^ 27, (A.trunc 0).pte v = 0 := by
      intro v hv
      by_cases hlow : v < trapframeVpn
      · exact hwf.high v (Nat.zero_le v) hlow
      · by_cases hmid : v < 2 ^ 26
        · show clear A.pte 0 A.n v = 0
          unfold clear
          split_ifs
          · rfl
          · exact htop v ⟨by omega, hmid⟩
        · exact hwf.beyond v (by omega) hv
    obtain ⟨u, t, hrun, m, hat, hsame⟩ := freewalk_table hzero s₀ htable
    exact ⟨u, t, hrun, m, hat, fun pa hpa => (hsame pa hpa).trans (hkeep pa hpa)⟩

/-- An address space with the trampoline and a trapframe mapped at the top. -/
structure HasTop (L : Layout) (A : AS) (tf : ℕ) : Prop where
  trampoline : A.pte trampolineVpn = PA2PTE L.trampoline ||| (PTE_R ||| PTE_X) ||| PTE_V
  trapframe : A.pte trapframeVpn = PA2PTE tf ||| (PTE_R ||| PTE_W) ||| PTE_V

/-- The top depends on the two entries at the top only. -/
theorem HasTop.congr {B : AS} (h : HasTop L A tf)
    (hsame : ∀ v, trapframeVpn ≤ v → B.pte v = A.pte v) : HasTop L B tf := by
  constructor
  · rw [hsame _ (by decide)]
    exact h.trampoline
  · rw [hsame _ le_rfl]
    exact h.trapframe

theorem isTop_trampoline : IsTop trampolineVpn := by
  constructor <;> decide

theorem isTop_trapframe : IsTop trapframeVpn := by
  constructor <;> decide

theorem isTop_cases (h : IsTop v) : v = trampolineVpn ∨ v = trapframeVpn := by
  obtain ⟨h₁, h₂⟩ := h
  unfold trapframeVpn trampolineVpn at *
  omega

/-- What is mapped is a user page or one of the two pages at the top. -/
theorem Rep.mapped_cases (h : Rep m r A) (hv : v < 2 ^ 27) (hval : Valid (Vm.view m 2 r v)) :
    v < A.n ∨ v = trapframeVpn ∨ v = trampolineVpn := by
  by_contra hnot
  rw [not_or, not_or] at hnot
  refine not_valid_zero ?_
  rw [h.view v hv] at hval
  by_cases hlow : v < trapframeVpn
  · rw [h.wf.high v (by omega) hlow] at hval
    exact hval
  · by_cases hmid : v < 2 ^ 26
    · rcases isTop_cases ⟨by omega, hmid⟩ with heq | heq
      · exact absurd heq hnot.2.2
      · exact absurd heq hnot.2.1
    · rw [h.wf.beyond v (by omega) hv] at hval
      exact hval

theorem TRAMPOLINE_eq : TRAMPOLINE = trampolineVpn * PGSIZE := by
  rw [TRAMPOLINE, MAXVA_eq, PGSIZE_eq]
  rfl

theorem TRAPFRAME_eq : TRAPFRAME = trapframeVpn * PGSIZE := by
  rw [TRAPFRAME, TRAMPOLINE, MAXVA_eq, PGSIZE_eq]
  rfl

theorem HasTop.leaf (h : HasTop L A tf) :
    Leaf (A.pte trampolineVpn) ∧ Leaf (A.pte trapframeVpn) := by
  constructor
  · rw [h.trampoline]
    exact leaf_mk (by decide) (by decide)
  · rw [h.trapframe]
    exact leaf_mk (by decide) (by decide)

theorem top_ne : trapframeVpn ≠ trampolineVpn := by decide

/-- **`procFreepagetable`** gives back every page of the address space of a process. -/
theorem procFreepagetable_spec (hsz : Sized A sz) (htop : HasTop L A tf) :
    Triple (Space L r A rest m₀) (procFreepagetable L r sz) fun _ s => Held L rest m₀ s := by
  obtain ⟨hl₁, hl₂⟩ := htop.leaf
  rw [procFreepagetable, TRAMPOLINE_eq, TRAPFRAME_eq]
  refine Triple.bind (uvmunmap_top isTop_trampoline hl₁) fun _ => ?_
  refine Triple.bind (uvmunmap_top isTop_trapframe ?_) fun _ => uvmfree_spec hsz fun v hv => ?_
  · rw [AS.setTop_of_ne _ _ top_ne]
    exact hl₂
  · rcases isTop_cases hv with rfl | rfl
    · rw [AS.setTop_of_ne _ _ top_ne.symm, AS.setTop_self]
    · rw [AS.setTop_self]

/-- The address space without pages. -/
def AS.empty : AS := ⟨0, fun _ => 0, fun _ _ => 0⟩

theorem AS.WF.empty : AS.empty.WF where
  n_le := Nat.zero_le _
  low v hv := absurd hv (Nat.not_lt_zero v)
  high _ _ _ := rfl
  beyond _ _ _ := rfl

theorem Space.of_empty (h : Table L r (fun _ => 0) rest m₀ s) : Space L r AS.empty rest m₀ s := by
  have hleaves : leaves AS.empty.pte 0 AS.empty.n + rest = rest := by
    rw [show AS.empty.n = 0 from rfl, leaves, Finset.Ico_self, Finset.sum_empty, zero_add]
  have htable : Table L r AS.empty.pte (leaves AS.empty.pte 0 AS.empty.n + rest) m₀ s := by
    rw [hleaves]
    exact h
  exact Space.of_table htable AS.WF.empty (fun v hv => absurd hv (Nat.not_lt_zero v))
    fun _ _ => rfl

theorem sized_zero (h : A.n = 0) : Sized A 0 := by
  rw [Sized, h]
  rfl

theorem trampoline_bounds (L : Layout) : L.trampoline % PGSIZE = 0 ∧ L.trampoline < 2 ^ 56 := by
  have h₁ := L.trampoline_lt
  have h₂ := L.end_le
  have h₃ := PHYSTOP_eq
  exact ⟨L.aligned, by omega⟩

/-- **`procPagetable`** makes an address space without user pages, or leaves everything
as it was. -/
theorem procPagetable_spec (htf : tf % PGSIZE = 0 ∧ tf < 2 ^ 56) :
    Triple (Held L rest m₀) (procPagetable L tf) fun o s =>
      match o with
      | none => Held L rest m₀ s
      | some r => ∃ A, A.n = 0 ∧ HasTop L A tf ∧ Space L r A rest m₀ s := by
  rw [procPagetable, TRAMPOLINE_eq, TRAPFRAME_eq]
  refine Triple.bind uvmcreate_spec fun o => ?_
  cases o with
  | none => exact Triple.ret fun s hs => hs
  | some r =>
    refine Triple.bind ((mappages_top isTop_trampoline rfl (trampoline_bounds L) (by decide)
      (by decide)).pre fun s hs => Space.of_empty hs) fun ret => ?_
    refine Triple.ite (fun hret => ?_) fun hret => ?_
    · refine Triple.pre ?_ fun s hs => (hs.resolve_left fun h => by omega).2
      exact Triple.bind (uvmfree_spec (sized_zero rfl) fun _ _ => rfl) fun _ =>
        Triple.ret fun s hs => hs
    · refine Triple.pre ?_ fun s hs => (hs.resolve_right fun h => by omega).2
      refine Triple.bind (mappages_top isTop_trapframe rfl htf (by decide) (by decide))
        fun ret' => ?_
      refine Triple.ite (fun hret' => ?_) fun hret' => ?_
      · refine Triple.pre ?_ fun s hs => (hs.resolve_left fun h => by omega).2
        refine Triple.bind (uvmunmap_top isTop_trampoline ?_) fun _ => ?_
        · rw [AS.setTop_self]
          exact leaf_mk (by decide) (by decide)
        · refine Triple.bind (uvmfree_spec (sized_zero rfl) fun v hv => ?_) fun _ =>
            Triple.ret fun s hs => hs
          by_cases hvt : v = trampolineVpn
          · rw [hvt, AS.setTop_self]
          · rw [AS.setTop_of_ne _ _ hvt, AS.setTop_of_ne _ _ hvt]
            rfl
      · refine Triple.ret fun s hs => ⟨_, rfl, ⟨?_, ?_⟩, (hs.resolve_right fun h => by omega).2⟩
        · rw [AS.setTop_of_ne _ _ top_ne.symm, AS.setTop_self]
        · rw [AS.setTop_self]

/-! ## uvmcopy -/

/-- A program that only reads. -/
theorem Space.read {α : Type} {c : Kernel α} {R : (ℕ → Page) → α → Prop}
    (hc : ∀ m held, Triple (At L m held) c fun a s => R m a ∧ At L m held s) :
    Triple (Space L r A rest m₀) c fun a s =>
      (∃ m, (∀ pa ∈ rest, m pa = m₀ pa) ∧ Rep m r A ∧ R m a) ∧ Space L r A rest m₀ s := by
  refine Triple.of_exists_and fun m ⟨hrep, hkeep⟩ => ?_
  refine (hc m _).post fun a s hs => ?_
  exact ⟨⟨m, hkeep, hrep, hs.1⟩, m, hs.2, hrep, hkeep⟩

/-- The entries of a page table that an address space represents. -/
theorem Rep.find (h : Rep m r A) (hvpn : vpn < 2 ^ 27) (hleaf : Leaf (A.pte vpn)) :
    ∃ p i, find m vpn 2 r = some (p, i) ∧ p ∈ nodes m 2 r ∧ pteAt (m p) i = A.pte vpn := by
  cases hf : Vm.find m vpn 2 r with
  | none =>
    rw [← h.view vpn hvpn, view_of_not_find hf] at hleaf
    exact absurd hleaf.1 not_valid_zero
  | some place =>
    obtain ⟨p, i⟩ := place
    refine ⟨p, i, rfl, (find_mem_nodes 2 r hf).1, ?_⟩
    rw [← view_of_find hf, h.view vpn hvpn]

/-- `A` is `A₀`, which has no user pages, with the first pages of `B` copied. -/
structure Copied (A₀ A B : AS) : Prop where
  n_le : A.n ≤ B.n
  pte : ∀ v, A.n ≤ v → A.pte v = A₀.pte v
  flags : ∀ v < A.n, PTE_FLAGS (A.pte v) = PTE_FLAGS (B.pte v)
  page : ∀ v < A.n, A.page v = B.page v

variable {A₀ : AS} {new old : ℕ}

theorem flags_or_one (h : Valid w) : PTE_FLAGS w ||| 1 = PTE_FLAGS w := by
  rw [Valid, and_flag (by decide), PTE_V, Nat.shiftLeft_zero, Nat.and_one_is_mod] at h
  refine Nat.eq_of_testBit_eq fun i => ?_
  rw [Nat.testBit_or]
  cases i with
  | zero =>
    rw [Nat.testBit_zero, Nat.testBit_zero, decide_eq_true (by omega)]
    rfl
  | succ i =>
    rw [Nat.testBit_succ (x := 1), show 1 / 2 = 0 from rfl, Nat.zero_testBit, Bool.or_false]

theorem flags_lt_of (w : ℕ) : PTE_FLAGS w < 2 ^ 10 :=
  lt_of_le_of_lt Nat.and_le_right (by decide)

theorem Copied.push (h : Copied A₀ A B) (hlt : A.n < B.n) (hv : Valid (B.pte A.n)) (pa : ℕ) :
    Copied A₀ (A.push (PA2PTE pa ||| PTE_FLAGS (B.pte A.n) ||| PTE_V) (B.page A.n)) B where
  n_le := hlt
  pte v hv' := by
    have hle : A.n + 1 ≤ v := hv'
    show update A.pte A.n _ v = A₀.pte v
    rw [update_of_ne (by omega)]
    exact h.pte v (by omega)
  flags v hv' := by
    have hle : v < A.n + 1 := hv'
    show PTE_FLAGS (update A.pte A.n _ v) = _
    by_cases hvn : v = A.n
    · rw [hvn, update_self, PTE_FLAGS_mk (flags_lt_of _), flags_or_one hv]
    · rw [update_of_ne hvn]
      exact h.flags v (by omega)
  page v hv' := by
    have hle : v < A.n + 1 := hv'
    show update A.page A.n _ v = _
    by_cases hvn : v = A.n
    · rw [hvn, update_self]
    · rw [update_of_ne hvn]
      exact h.page v (by omega)

/-- Giving back the pages that were copied. -/
theorem uvmunmap_copied (hwf : A₀.WF) (hzero : A₀.n = 0) (h : Copied A₀ A B) :
    Triple (Space L new A rest m₀) (uvmunmap L new 0 A.n true) fun _ s =>
      Space L new A₀ rest m₀ s := by
  refine Triple.of_fact (fun hwfA => ?_) fun s hs => hs.wf
  have hunmap : Triple (Space L new A rest m₀) (uvmunmap L new (0 * PGSIZE) (A.n - 0) true)
      fun _ s => Space L new (A.trunc 0) rest m₀ s := uvmunmap_trunc (Nat.zero_le A.n)
  rw [Nat.zero_mul, Nat.sub_zero] at hunmap
  refine hunmap.post fun _ s hs => hs.congr hzero (fun v => ?_) fun v hv =>
    absurd hv (Nat.not_lt_zero v)
  show A₀.pte v = clear A.pte 0 A.n v
  unfold clear
  have hle := hwfA.n_le
  split_ifs with hv
  · exact hwf.high v (by omega) (by omega)
  · exact (h.pte v (by omega)).symm

/-- The entry of the parent for a user page, while the child is being built. -/
theorem walk_parent (hsub : ∀ pa ∈ pages m₀ old B, pa ∈ rest) (hvpn : vpn < 2 ^ 26) :
    Triple (Space L new A rest m₀) (walk old (vpn * PGSIZE) false) fun o s =>
      o = find m₀ vpn 2 old ∧ Space L new A rest m₀ s := by
  have hva : vpn * PGSIZE < MAXVA := by
    rw [MAXVA_eq, PGSIZE_eq]
    omega
  refine (Space.read fun m held => walk_find hva).post fun o s hs => ?_
  obtain ⟨⟨m, hkeep, -, ho⟩, hspace⟩ := hs
  rw [Nat.mul_div_cancel _ (by decide : 0 < PGSIZE)] at ho
  rw [ho]
  refine ⟨(tree_congr 2 old fun pa hpa => hkeep pa (hsub pa ?_)).2.2 vpn, hspace⟩
  exact Multiset.mem_add.mpr (Or.inl hpa)

theorem readPte_rest {p i : ℕ} (hp : p ∈ rest) :
    Triple (Space L r A rest m₀) (readPte p i) fun w s =>
      w = pteAt (m₀ p) i ∧ Space L r A rest m₀ s := by
  refine (Space.read fun m held => readPte_spec).post fun w s hs => ?_
  obtain ⟨⟨m, hkeep, -, hw⟩, hspace⟩ := hs
  rw [hw, hkeep p hp]
  exact ⟨rfl, hspace⟩

theorem uvmcopyLoop_spec (hB : Rep m₀ old B) (hsub : ∀ pa ∈ pages m₀ old B, pa ∈ rest)
    (hwf : A₀.WF) (hzero : A₀.n = 0) (k : ℕ) : ∀ A, Copied A₀ A B → A.n + k = B.n →
      Triple (Space L new A rest m₀) (uvmcopyLoop L old new k (A.n * PGSIZE)) fun ok s =>
        ok = true ∧ (∃ C, C.n = B.n ∧ Copied A₀ C B ∧ Space L new C rest m₀ s) ∨
        ok = false ∧ Space L new A₀ rest m₀ s := by
  induction k with
  | zero => exact fun A hA hn => Triple.ret fun s hs => Or.inl ⟨rfl, A, hn, hA, hs⟩
  | succ k ih =>
    intro A hA hn
    have hlt : A.n < B.n := by omega
    have hvpn : A.n < 2 ^ 26 := lt_of_lt_of_le hlt (le_trans hB.wf.n_le trapframeVpn_lt.le)
    have hleaf := hB.wf.low A.n hlt
    obtain ⟨p, i, hfind, hp, hpte⟩ := hB.find (lt_trans hvpn (by decide)) hleaf
    refine Triple.bind (walk_parent hsub hvpn) fun o => ?_
    refine Triple.of_fact (fun ho => ?_) fun s hs => hs.1
    rw [ho, hfind]
    refine Triple.bind ((readPte_rest (hsub p (Multiset.mem_add.mpr (Or.inl hp)))).pre
      fun s hs => hs.2) fun w => ?_
    refine Triple.of_and fun hw => ?_
    rw [hpte] at hw
    rw [hw, if_neg hleaf.1, Nat.mul_div_cancel _ (by decide : 0 < PGSIZE)]
    refine Triple.bind kalloc_space fun o => ?_
    cases o with
    | none =>
      refine Triple.bind (uvmunmap_copied hwf hzero hA) fun _ => Triple.ret fun s hs => ?_
      exact Or.inr ⟨rfl, hs⟩
    | some mem =>
      refine Triple.of_fact (fun hmem => ?_) fun s hs => hs.1
      have hsrc : PTE2PA (B.pte A.n) ∈ rest :=
        hsub _ (Multiset.mem_add.mpr (Or.inr (mem_leaves ⟨Nat.zero_le _, hlt⟩)))
      have hne : PTE2PA (B.pte A.n) ≠ mem := by
        rintro heq
        rw [heq] at hsrc
        exact hmem hsrc
      refine Triple.bind ((memmovePage_space (Multiset.mem_cons_self _ _)
        (Multiset.mem_cons_of_mem hsrc)).pre fun s hs => hs.2.2) fun _ => ?_
      rw [update_idem, update_of_ne hne, hB.data A.n hlt]
      have hkeep : ∀ pa ∈ rest, update m₀ mem (B.page A.n) pa = m₀ pa := by
        intro pa hpa
        refine update_of_ne ?_ _ _
        rintro rfl
        exact hmem hpa
      have hrwx : PTE_FLAGS (B.pte A.n) &&& (PTE_R ||| PTE_W ||| PTE_X) ≠ 0 := by
        rw [← and_flag (by decide)]
        exact hleaf.2
      refine Triple.bind (mappages_push (flags_lt_of _) hrwx) fun ret => ?_
      refine Triple.ite (fun hret => ?_) fun hret => ?_
      · refine Triple.pre ?_ fun s hs => (hs.resolve_left fun h => hret h.1).2
        refine Triple.bind kfree_space fun _ => ?_
        refine Triple.bind (uvmunmap_copied hwf hzero hA) fun _ => Triple.ret fun s hs => ?_
        exact Or.inr ⟨rfl, hs.keep hkeep⟩
      · have hnext := ih _ (hA.push hlt hleaf.1 mem) (by show A.n + 1 + k = B.n; omega)
        rw [show (A.push (PA2PTE mem ||| PTE_FLAGS (B.pte A.n) ||| PTE_V) (B.page A.n)).n
          = A.n + 1 from rfl, Nat.add_mul, Nat.one_mul] at hnext
        refine hnext.pre fun s hs => ?_
        have hpush := (hs.resolve_right fun h => hret (by rw [h.1]; decide)).2
        rw [update_self] at hpush
        exact hpush.keep hkeep

/-- **`uvmcopy`** gives the child a copy of the parent's memory, or leaves it without
user pages. -/
theorem uvmcopy_spec (hB : Rep m₀ old B) (hsub : ∀ pa ∈ pages m₀ old B, pa ∈ rest)
    (hsz : Sized B sz) (hzero : A.n = 0) :
    Triple (Space L new A rest m₀) (uvmcopy L old new sz) fun ret s =>
      ret = 0 ∧ (∃ C, C.n = B.n ∧ Copied A C B ∧ Space L new C rest m₀ s) ∨
      ret = -1 ∧ Space L new A rest m₀ s := by
  refine Triple.of_fact (fun hwf => ?_) fun s hs => hs.wf
  have hcopied : Copied A A B :=
    ⟨by omega, fun _ _ => rfl, fun v hv => by omega, fun v hv => by omega⟩
  have hsum : A.n + (sz + (PGSIZE - 1)) / PGSIZE = B.n := by
    rw [hzero, zero_add]
    exact hsz.symm
  have hloop : Triple (Space L new A rest m₀)
      (uvmcopyLoop L old new ((sz + (PGSIZE - 1)) / PGSIZE) (A.n * PGSIZE)) _ :=
    uvmcopyLoop_spec hB hsub hwf hzero _ A hcopied hsum
  rw [hzero, Nat.zero_mul] at hloop
  refine Triple.bind hloop fun ok => ?_
  refine Triple.ite (fun hok => ?_) fun hok => ?_
  · exact Triple.ret fun s hs => Or.inl ⟨rfl, (hs.resolve_right fun h => by simp [hok] at h).2⟩
  · exact Triple.ret fun s hs => Or.inr ⟨rfl, (hs.resolve_left fun h => hok h.1).2⟩

end Vm

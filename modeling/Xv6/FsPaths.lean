/-
# Path names during a call

`namex` takes a reference to the inode a path leads to and gives back the others on the
way.  If the names that it follows lead to attached inodes only, it leaves the disk alone
and ends at an attached inode.
-/
import Xv6.FsView

namespace Fs

open Hoare
open Proc (NPROC)

variable {sb : Superblock} {w : Prop} {g : Watch} {o : ℕ} {H B : Multiset Ip} {dp ip : Ip} {s t u : State}

/-! ## Attached inodes -/

theorem Consistent.not_lastRef (h : Consistent sb s) (hatt : Attached s.dinode (s.itable ip).inum) :
    ¬ LastRef ip s := by
  rintro ⟨href, hv, hlink⟩
  have hclean := h.clean ip (by rw [href]; decide) hv
  apply hatt.2
  rw [hclean]
  exact hlink

/-- **`iunlockput`** of an attached inode leaves the disk alone. -/
theorem putAttached_ends (h : Inv sb w g o (ip ::ₘ B) s) (ho : w → 1 ≤ o)
    (hatt : g → Attached s.dinode (s.itable ip).inum) :
    Ends (iunlockput ip s) (fun _ t => Inv sb w g o B t ∧ Keeps B s t ∧ (g → SameDisk s t))
      (Fine w g) := by
  apply (iunlockput_ends h ho).post
  rintro _ t ⟨hinv, hkeeps, hput⟩
  refine ⟨hinv, hkeeps, fun hg => (hput (h.gw hg)).same ?_⟩
  exact (h.good (h.gw hg)).not_lastRef (hatt hg)

/-- What it takes to follow a name in a directory. -/
def Follows (g : Watch) (s : State) (dp : Ip) : Prop :=
  g → Closed s.dinode s.block ∧ Attached s.dinode (s.itable dp).inum

theorem Follows.attached (hf : Follows g s dp) (h : Inv sb w g o H s)
    (hpos : 0 < (s.itable dp).ref) (hv : w → (s.itable dp).valid = true) (hg : g)
    (htype : (s.itable dp).d.type = T_DIR) {k : ℕ} (hin : InDir s dp k)
    (hne : slotInum s.dinode s.block (s.itable dp).inum k ≠ 0) :
    Attached s.dinode (slotInum s.dinode s.block (s.itable dp).inum k) := by
  have hclean := (h.good (h.gw hg)).clean dp hpos (hv (h.gw hg))
  obtain ⟨hclosed, hatt⟩ := hf hg
  apply hclosed.names _ _ hatt.2 k _ hne
  · rw [hclean]
    exact htype
  · rw [lt_slots, hclean]
    exact hin

theorem Follows.names (hf : Follows g s dp) (h : Inv sb w g o H s)
    (hpos : 0 < (s.itable dp).ref) (hv : w → (s.itable dp).valid = true) (hg : g) : Names s dp :=
  fun htype _ hin hne => (hf.attached h hpos hv hg htype hin hne).1

/-- The disk is the same, and so are the names that can be followed. -/
theorem SameDisk.closed (h : SameDisk s t) (hc : Closed s.dinode s.block) :
    Closed t.dinode t.block := by
  rw [h.dinode, h.block]
  exact hc

theorem SameDisk.attached (h : SameDisk s t) {i : ℕ} (ha : Attached s.dinode i) :
    Attached t.dinode i := by
  rw [h.dinode]
  exact ha

/-! ## namex -/

/-- The references of a walk that has ended. -/
def walked (r : Option (Ip × List UInt8)) (B : Multiset Ip) : Multiset Ip :=
  match r with
  | none => B
  | some (ip, _) => ip ::ₘ B

/-- What a walk has done. -/
structure Walked (sb : Superblock) (w : Prop) (g : Watch) (o : ℕ) (B : Multiset Ip) (s : State)
    (r : Option (Ip × List UInt8)) (t : State) : Prop where
  inv : Inv sb w g o (walked r B) t
  keeps : Keeps B s t
  disk : g → SameDisk s t
  attached : g → ∀ ip name, r = some (ip, name) → Attached t.dinode (t.itable ip).inum

theorem Walked.none (hinv : Inv sb w g o B t) (hkeeps : Keeps B s t) (hdisk : g → SameDisk s t) :
    Walked sb w g o B s none t :=
  ⟨hinv, hkeeps, hdisk, fun _ _ _ h => by cases h⟩

theorem Walked.after {r : Option (Ip × List UInt8)} (hkeeps : Keeps B s t)
    (hdisk : g → SameDisk s t) (h : Walked sb w g o B t r u) : Walked sb w g o B s r u :=
  ⟨h.inv, hkeeps.trans h.keeps, fun hg => (hdisk hg).trans (h.disk hg), h.attached⟩

/-- Locks do not matter to a walk that has ended. -/
theorem Walked.aside {r : Option (Ip × List UInt8)} {l : Ip → Bool} {ops : List (List Target)}
    (h : Walked sb w g o B { s with locked := l, ops := ops } r u) : Walked sb w g o B s r u := by
  refine ⟨h.inv, h.keeps.before rfl rfl rfl, fun hg => ?_, h.attached⟩
  obtain ⟨hD, hbm, hblk⟩ := h.disk hg
  exact ⟨hD, hbm, hblk⟩

theorem namexLoop_ends (ho : w → 1 ≤ o) (parent : Bool) (fuel : ℕ) : ∀ ip path last s,
    Inv sb w g o (ip ::ₘ B) s → Follows g s ip →
    Ends (namexLoop sb parent fuel ip path last s) (Walked sb w g o B s) (Fine w g) := by
  induction fuel with
  | zero =>
    intro ip path last s h hf
    refine ⟨h, Keeps.refl B s, fun _ => SameDisk.refl s, ?_⟩
    rintro hg _ _ ⟨⟩
    exact (hf hg).2
  | succ fuel ih =>
    intro ip path last s h hf
    unfold namexLoop
    cases hskip : skipelem path with
    | none =>
      simp only
      cases parent with
      | true =>
        rw [if_pos rfl]
        apply (iput_ends h ho).bind
        rintro _ t ⟨hinv, hkeeps, hput⟩
        exact Walked.none hinv hkeeps fun hg => (hput (h.gw hg)).same
          ((h.good (h.gw hg)).not_lastRef (hf hg).2)
      | false =>
        rw [if_neg (by decide)]
        refine ⟨h, Keeps.refl B s, fun _ => SameDisk.refl s, ?_⟩
        rintro hg _ _ ⟨⟩
        exact (hf hg).2
    | some elem =>
      obtain ⟨name, rest⟩ := elem
      simp only
      have hpos := h.refs.pos_of_mem (Multiset.mem_cons_self ip B)
      apply (ilock_ends h hpos).bind
      rintro _ t ⟨hinv, hload⟩
      have hkeeps := hload.keeps B
      have hatt : g → Attached t.dinode (t.itable ip).inum := by
        intro hg
        rw [hload.inum]
        exact hload.disk.attached (hf hg).2
      have hft : Follows g t ip := fun hg => ⟨hload.disk.closed (hf hg).1, hatt hg⟩
      have hpos' := hinv.refs.pos_of_mem (Multiset.mem_cons_self ip B)
      rw [inode_bind]
      by_cases htype : (t.itable ip).d.type ≠ T_DIR
      · rw [if_pos htype]
        apply (putAttached_ends hinv ho hatt).bind
        rintro _ u ⟨hinv', hkeeps', hdisk⟩
        exact Walked.none hinv' (hkeeps.trans hkeeps') fun hg => hload.disk.trans (hdisk hg)
      rw [if_neg htype]
      by_cases hlast : parent = true ∧ rest = []
      · rw [if_pos hlast]
        apply (iunlock_ends hinv hpos').bind
        rintro _ _ rfl
        obtain ⟨hD, hbm, hblk⟩ := hload.disk
        refine ⟨hinv.aside _ _, hkeeps.trans (Keeps.of_eq rfl rfl rfl), fun _ => ⟨hD, hbm, hblk⟩, ?_⟩
        rintro hg _ _ ⟨⟩
        exact hatt hg
      rw [if_neg hlast]
      apply (dirlookup_ends hinv hpos' (fun _ => hload.valid)
        (hft.names hinv hpos' fun _ => hload.valid)).bind
      rintro (_ | ⟨next, off⟩) u ⟨htype', hlook⟩
      · obtain ⟨hinv', hkeeps', hsame⟩ := hlook
        apply (putAttached_ends hinv' ho fun hg => by
          rw [(hsame (h.gw hg)).1]; exact hatt hg).bind
        rintro _ v ⟨hinv'', hkeeps'', hdisk⟩
        refine Walked.none hinv'' ((hkeeps.trans (hkeeps'.mono fun e he => ?_)).trans hkeeps'')
          fun hg => ?_
        · exact Multiset.mem_cons_of_mem he
        · have := hdisk hg
          rw [(hsame (h.gw hg)).1] at this
          exact hload.disk.trans this
      · obtain ⟨hinv', hkeeps', hsome⟩ := hlook
        have hip := hkeeps'.mem (Multiset.mem_cons_self ip B)
        rw [Multiset.cons_swap] at hinv'
        apply (putAttached_ends hinv' ho fun hg => by
          rw [hip.1]; exact (hsome (h.gw hg)).1.attached (hatt hg)).bind
        rintro _ v ⟨hinv'', hkeeps'', hdisk⟩
        have hnext := hkeeps''.mem (Multiset.mem_cons_self next B)
        have hdisk' : g → SameDisk s v := fun hg =>
          hload.disk.trans ((hsome (h.gw hg)).1.trans (hdisk hg))
        apply (ih next rest name v hinv'' fun hg => ?_).post
        · intro r x hr
          refine hr.after ((hkeeps.trans (hkeeps'.mono fun e he => ?_)).trans
            (hkeeps''.mono fun e he => ?_)) hdisk'
          · exact Multiset.mem_cons_of_mem he
          · exact Multiset.mem_cons_of_mem he
        · obtain ⟨hd, k, -, -, -, hin, hmatch, hinum⟩ := hsome (h.gw hg)
          refine ⟨(hdisk' hg).closed (hf hg).1, ?_⟩
          rw [hnext.1, hinum]
          exact (hd.trans (hdisk hg)).attached
            (hft.attached hinv hpos' (fun _ => hload.valid) hg htype' hin hmatch.1)

/-- A walk of the path begins at an attached inode. -/
def Starts (g : Watch) (p : Fin NPROC) (path : List UInt8) (s : State) : Prop :=
  g → Closed s.dinode s.block ∧ (path.head? ≠ some 47 → ∀ c, (s.proc p).cwd = some c →
    Attached s.dinode (s.itable c).inum)

/-- **`namex`.** -/
theorem namex_ends (h : Inv sb w g o B s) (ho : w → 1 ≤ o) (p : Fin NPROC) (path : List UInt8)
    (parent : Bool) (hstart : Starts g p path s) :
    Ends (namex sb p path parent s) (Walked sb w g o B s) (Fine w g) := by
  -- the walk from its first inode
  have hwalk : ∀ inum ip t, Got inum ip s t → (g → Attached s.dinode inum) →
      Ends (namexLoop sb parent (path.length + 1) ip path [] t) (Walked sb w g o B s)
        (Fine w g) := by
    intro inum ip t hgot hatt
    obtain ⟨hinv, hkeeps⟩ := h.got hgot fun hg => (hatt hg).1
    apply (namexLoop_ends ho parent _ ip path [] t hinv fun hg => ?_).post
    · exact fun r u hr => hr.after hkeeps fun _ => hgot.sameDisk
    · refine ⟨hgot.sameDisk.closed (hstart hg).1, ?_⟩
      rw [hgot.inum_eq]
      exact hgot.sameDisk.attached (hatt hg)
  unfold namex namexStart
  by_cases habs : path.head? = some 47
  · rw [if_pos habs]
    apply Ends.bind (Q := fun r t => ∃ ip, r = some ip ∧ Got ROOTINO ip s t)
    · apply Ends.map
      apply (iget_got ROOTINO s).imp
      · exact fun ip t hgot => ⟨ip, rfl, hgot⟩
      · rintro msg t ⟨rfl, rfl, -⟩
        exact h.fine (by decide)
    · rintro r t ⟨ip, rfl, hgot⟩
      exact hwalk ROOTINO ip t hgot fun hg => (hstart hg).1.root
  · rw [if_neg habs]
    apply Ends.bind (Q := fun r t => (r = none → t = s) ∧
      ∀ ip, r = some ip → (s.proc p).cwd = some ip ∧ Got (s.itable ip).inum ip s t)
    · rw [bind_of_ok (rfl : cwd p s = .ok _ s)]
      cases hcwd : (s.proc p).cwd with
      | none => exact And.intro (fun _ => rfl) fun ip hip => by cases hip
      | some ip =>
        obtain ⟨t, hrun, hgot⟩ := idup_got (h.refs.pos_of_cwd hcwd)
        simp only
        rw [bind_of_ok hrun]
        refine And.intro (fun hnone => ?_) fun jp hip => ?_
        · cases hnone
        · cases hip
          exact ⟨rfl, hgot⟩
    · rintro (_ | ip) t hr
      · rw [hr.1 rfl]
        exact h.fine (by decide)
      · obtain ⟨hcwd, hgot⟩ := hr.2 ip rfl
        exact hwalk _ ip t hgot fun hg => (hstart hg).2 habs ip hcwd

theorem namei_ends (h : Inv sb w g o B s) (ho : w → 1 ≤ o) (p : Fin NPROC) (path : List UInt8)
    (hstart : Starts g p path s) :
    Ends (namei sb p path s) (fun r t => ∃ r', r = r'.map Prod.fst ∧ Walked sb w g o B s r' t)
      (Fine w g) := by
  apply Ends.map
  exact (namex_ends h ho p path false hstart).post fun r t hr => ⟨r, rfl, hr⟩

/-- A walk can begin after the call has changed nothing that matters to it. -/
theorem Starts.after {p : Fin NPROC} {path : List UInt8} (h : Starts g p path s)
    (hkeeps : Keeps B s t) (hclosed : g → Closed t.dinode t.block)
    (hatt : g → ∀ i, Attached s.dinode i → Attached t.dinode i) : Starts g p path t := by
  intro hg
  refine ⟨hclosed hg, fun habs c hc => ?_⟩
  rw [hkeeps.proc] at hc
  rw [(hkeeps.entry c (Or.inr (shares_pos_of_cwd hc))).1]
  exact hatt hg _ ((h hg).2 habs c hc)

end Fs

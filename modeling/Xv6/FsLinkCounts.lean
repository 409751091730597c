/-
# Link counts and dangling entries over whole runs

On a consistent image the link count of every allocated inode is the number of entries
that name it in linked directories, `.` entries apart, and no entry of a linked directory
names a free inode.  Both stay true as long as the calls are `Safe`.

A directory can be removed while it is some process's current directory.  It has no link
then, but it still has its `..` entry and accepts new entries: a file that is created in it
has a link without a name (`create_in_removed_directory`), and once the parent has been
removed as well, `..` names a free inode (`dotdot_of_removed_directory`).
-/
import Xv6.FsAlloc

namespace Fs

open Hoare
open Proc (NPROC)
open Transition

variable {sb : Superblock} {s t : State} {i d : ℕ}
variable {D : ℕ → Dinode} {bm : ℕ → Bool} {blk : ℕ → ℕ → UInt8}

/-! ## Entries that name an inode -/

/-- The entries of directory `d` that name inode `i`, other than `.`. -/
def entriesNaming (D : ℕ → Dinode) (blk : ℕ → ℕ → UInt8) (d i : ℕ) : Finset ℕ :=
  (Finset.range (slots D d)).filter fun k =>
    slotInum D blk d k = i ∧ slotName D blk d k ≠ dot

/-- The number of such entries in all allocated directories that have a link. -/
def namesOf (sb : Superblock) (D : ℕ → Dinode) (blk : ℕ → ℕ → UInt8) (i : ℕ) : ℕ :=
  ∑ d ∈ (Finset.range sb.ninodes).filter fun d => (D d).type = T_DIR ∧ 0 < (D d).nlink.toInt,
    (entriesNaming D blk d i).card

theorem count_present {f : ℕ → ℕ} {S : Finset ℕ} (hi : i ≠ 0) :
    (present f S).count i = (S.filter fun k => f k = i).card := by
  unfold present
  rw [Multiset.count_filter_of_pos (p := (· ≠ 0)) hi, Multiset.count_map]
  simp only [eq_comm]
  rfl

/-- In a directory that begins with `.` and `..`. -/
theorem Shaped.card_entriesNaming (h : Shaped D blk d) (hi : i ≠ 0) :
    (entriesNaming D blk d i).card =
      (if slotInum D blk d 1 = i then 1 else 0) + (kidsOf D blk d).count i := by
  have htwo := h.two
  have hsplit : entriesNaming D blk d i =
      (if slotInum D blk d 1 = i then {1} else ∅) ∪
        (Finset.Ico 2 (slots D d)).filter fun k => slotInum D blk d k = i := by
    ext k
    simp only [entriesNaming, Finset.mem_filter, Finset.mem_range, Finset.mem_union,
      Finset.mem_Ico]
    by_cases h1 : k = 1
    · subst h1
      have hdot : slotName D blk d 1 ≠ dot := by
        rw [h.up.2]
        decide
      split_ifs with hup
      · simp [hup, hdot]
        omega
      · simp [hup]
    have hnot : k ∉ (if slotInum D blk d 1 = i then ({1} : Finset ℕ) else ∅) := by
      split_ifs <;> simp [h1]
    simp only [hnot, false_or]
    constructor
    · rintro ⟨hlt, hk, hname⟩
      -- the first entry is `.`
      have h0 : k ≠ 0 := by
        rintro rfl
        exact hname h.self.2
      exact ⟨⟨by omega, hlt⟩, hk⟩
    · rintro ⟨⟨h2, hlt⟩, hk⟩
      exact ⟨hlt, hk, (h.rest k h2 hlt (by rw [hk]; exact hi)).1⟩
  have hdisj : Disjoint (if slotInum D blk d 1 = i then ({1} : Finset ℕ) else ∅)
      ((Finset.Ico 2 (slots D d)).filter fun k => slotInum D blk d k = i) := by
    rw [Finset.disjoint_left]
    intro k hk hk'
    have h2 := (Finset.mem_Ico.mp (Finset.mem_filter.mp hk').1).1
    split_ifs at hk
    · have := Finset.mem_singleton.mp hk
      omega
    · exact absurd hk (Finset.notMem_empty k)
  rw [hsplit, Finset.card_union_of_disjoint hdisj]
  unfold kidsOf
  rw [count_present hi]
  congr 1
  split_ifs <;> rfl

/-- **Names and counts**: the entries are those of the tree. -/
theorem Tree.namesOf_eq (h : Tree sb D blk) (hi : i ≠ 0) :
    namesOf sb D blk i = Links.count sb.ninodes (view D blk) i := by
  unfold namesOf Links.count
  rw [Finset.sum_filter]
  apply Finset.sum_congr rfl
  intro d _
  by_cases hdir : (D d).type = T_DIR
  · rw [view_dir hdir]
    simp only [Links.names]
    by_cases hpos : 0 < (D d).nlink.toInt
    · rw [if_pos ⟨hdir, hpos⟩, if_pos hpos]
      exact (h.shaped d hdir).card_entriesNaming hi
    · rw [if_neg fun hc => hpos hc.2, if_neg hpos]
  · rw [if_neg fun hc => hdir hc.1]
    by_cases hfree : (D d).type = 0
    · rw [view_free hfree]
      rfl
    · rw [view_file hfree hdir]
      rfl

/-! ## Runs of safe calls -/

/-- **A consistent image**, with its directories. -/
structure Tidy (sb : Superblock) (D : ℕ → Dinode) (bm : ℕ → Bool) (blk : ℕ → ℕ → UInt8) :
    Prop where
  image : Image sb D bm blk
  tree : Tree sb D blk

theorem Tidy.boot (h : Tidy sb D bm blk) : Settled sb True ⟨True, Orphan D⟩ 0 0 (boot D bm blk) :=
  boot_settled id (fun _ => h.image) (fun _ => h.tree) fun _ _ hi => hi

/-- **Link counts are exact.** -/
def LinksExact (sb : Superblock) (s : State) : Prop :=
  ∀ i, (s.dinode i).type ≠ 0 → (s.dinode i).nlink.toInt = namesOf sb s.dinode s.block i

theorem Tree.linksExact (h : Tree sb s.dinode s.block) : LinksExact sb s := by
  intro i hi
  obtain ⟨x, hx⟩ := Option.isSome_iff_exists.mp ((isSome_view s.block).mpr hi)
  rw [h.namesOf_eq (h.bounds hi).1, ← nlink_view hx]
  exact h.ok.exact i x hx

/-- **Link counts stay exact** in every run of safe calls. -/
theorem links_exact_of_safe (h : Tidy sb D bm blk) (calls : List (Fin NPROC × Call))
    (hsafe : Meets (step sb) (Safe sb) (boot D bm blk) calls) :
    Always (step sb) (LinksExact sb) (boot D bm blk) calls := by
  refine always_of_invariant (fun s a t hs ha hstep => step_settled hs (fun _ => ha) hstep)
    (fun s hs => ?_) calls _ h.boot hsafe
  exact (hs.tree trivial).linksExact

/-- **No dangling entry is followed** in a run of safe calls: every lookup has found an
allocated inode, also those of a call that has panicked for another reason. -/
theorem no_dangling_entry_of_safe (h : Tidy sb D bm blk) (calls : List (Fin NPROC × Call))
    (hsafe : Meets (step sb) (Safe sb) (boot D bm blk) calls) :
    Always (step sb) (fun s => s.dangled = false ∧
      ∀ p call, (s.proc p).state = .running → Safe sb s (p, call) → ∀ msg t,
        syscall sb p call s = .error msg t → msg ≠ "ilock: no type" ∧ t.dangled = false)
      (boot D bm blk) calls := by
  refine always_of_invariant (fun s a t hs ha hstep => step_settled hs (fun _ => ha) hstep)
    (fun s hs => ?_) calls _ h.boot hsafe
  refine ⟨(hs.inv.live trivial).sure, fun p call hrun hsafe msg t herr => ?_⟩
  have hends := syscall_ends p call hs hrun fun _ => hsafe
  rw [herr] at hends
  exact ⟨(hends.2 trivial).1, (hends.2 trivial).2.1⟩

/-! ## Removed directories -/

/-- The root directory alone. -/
theorem view_root :
    view rootDinode rootBlock = Function.update (fun _ => none) ROOTINO (some (.dir 1 ROOTINO 0)) := by
  funext m
  by_cases hm : m = ROOTINO
  · subst hm
    rw [Function.update_self, view_dir (by decide)]
    have hnlink : (rootDinode ROOTINO).nlink.toInt = 1 := by decide
    have hup : slotInum rootDinode rootBlock ROOTINO 1 = ROOTINO := by decide
    have hslots : slots rootDinode ROOTINO = 2 := by decide
    rw [hnlink, hup]
    unfold kidsOf
    rw [hslots]
    rfl
  · rw [Function.update_of_ne hm]
    exact view_free (by rw [rootDinode_of_ne hm]; rfl)

theorem rootTidy : Tidy rootSb rootDinode rootBitmap rootBlock where
  image := rootImage
  tree := by
    have hroot : ∀ i x, view rootDinode rootBlock i = some x → i = ROOTINO ∧ x = .dir 1 ROOTINO 0 := by
      intro i x hx
      rw [view_root] at hx
      by_cases hi : i = ROOTINO
      · rw [hi, Function.update_self] at hx
        exact ⟨hi, (Option.some.inj hx).symm⟩
      · rw [Function.update_of_ne hi] at hx
        cases hx
    refine ⟨by decide, ⟨?_, ?_, ?_, ?_, ?_, ?_, ?_⟩, ?_⟩
    · intro i hi
      obtain ⟨x, hx⟩ := Option.isSome_iff_exists.mp hi
      rw [(hroot i x hx).1]
      decide
    · intro i x hx
      obtain ⟨rfl, rfl⟩ := hroot i x hx
      rw [view_root]
      decide
    · rintro d n up kids ⟨hd, -⟩ c hc
      cases (hroot d _ hd).2
      exact absurd hc (Multiset.notMem_zero c)
    · rintro d n up kids ⟨hd, -⟩ c hc
      cases (hroot d _ hd).2
      exact absurd hc (Multiset.notMem_zero c)
    · rintro d n up kids ⟨hd, -⟩ hne
      exact absurd (hroot d _ hd).1 hne
    · refine ⟨1, 0, ?_, by decide⟩
      rw [view_root, Function.update_self]
    · rintro d n up kids ⟨hd, -⟩
      cases (hroot d _ hd).2
      exact Multiset.notMem_zero _
    · intro i hi
      have hdir : i = ROOTINO := by
        by_contra hne
        rw [rootDinode_of_ne hne] at hi
        exact absurd hi (by decide)
      subst hdir
      refine ⟨by decide, by decide, by decide, by decide, fun k h2 hlt => ?_⟩
      have hslots : slots rootDinode ROOTINO = 2 := by decide
      omega

/-- A directory is made, and a file in it. -/
def makeAndFill : List (Fin NPROC × Call) :=
  [(initproc, .mkdir (some [97])), (initproc, .chdir (some [97])),
    (initproc, .open (some [120]) O_CREATE), (initproc, .link (some [120]) (some [47, 121])),
    (initproc, .unlink (some [120]))]

theorem links_exact_of_safe_fill : Tidy rootSb rootDinode rootBitmap rootBlock ∧
    Meets (step rootSb) (Safe rootSb) (boot rootDinode rootBitmap rootBlock) makeAndFill ∧
    Always (step rootSb) (LinksExact rootSb) (boot rootDinode rootBitmap rootBlock) makeAndFill := by
  have hsafe : Meets (step rootSb) (Safe rootSb) (boot rootDinode rootBitmap rootBlock)
      makeAndFill := by decide +kernel
  exact ⟨rootTidy, hsafe, links_exact_of_safe rootTidy _ hsafe⟩

theorem no_dangling_entry_of_safe_fill : Tidy rootSb rootDinode rootBitmap rootBlock ∧
    Meets (step rootSb) (Safe rootSb) (boot rootDinode rootBitmap rootBlock) makeAndFill ∧
    Always (step rootSb) (fun s => s.dangled = false ∧
      ∀ p call, (s.proc p).state = .running → Safe rootSb s (p, call) → ∀ msg t,
        syscall rootSb p call s = .error msg t → msg ≠ "ilock: no type" ∧ t.dangled = false)
      (boot rootDinode rootBitmap rootBlock) makeAndFill := by
  have hsafe : Meets (step rootSb) (Safe rootSb) (boot rootDinode rootBitmap rootBlock)
      makeAndFill := by decide +kernel
  exact ⟨rootTidy, hsafe, no_dangling_entry_of_safe rootTidy _ hsafe⟩

/-- Every linked directory but the root has one name, in the linked directory that is its `..`. -/
def NamedOnce (s : State) : Prop :=
  ∀ d, (s.dinode d).type = T_DIR → (s.dinode d).nlink ≠ 0 → d ≠ ROOTINO →
    ∃ up, up = slotInum s.dinode s.block d 1 ∧ (s.dinode up).type = T_DIR ∧
      (s.dinode up).nlink ≠ 0 ∧ (kidsOf s.dinode s.block up).count d = 1 ∧
      ∀ e, (s.dinode e).type = T_DIR → (s.dinode e).nlink ≠ 0 →
        d ∈ kidsOf s.dinode s.block e → e = up

/-- **No directory has two names** after a run of safe calls. -/
theorem directories_named_once (h : Tidy sb D bm blk) (calls : List (Fin NPROC × Call))
    (hsafe : Meets (step sb) (Safe sb) (boot D bm blk) calls) :
    Always (step sb) NamedOnce (boot D bm blk) calls := by
  refine always_of_invariant (fun s a t hs ha hstep => step_settled hs (fun _ => ha) hstep)
    (fun s hs d hdir hlink hroot => ?_) calls _ h.boot hsafe
  have htree := hs.tree trivial
  obtain ⟨n, u, kids, hup, hone⟩ := htree.ok.parent d _ _ _ (htree.linked hdir hlink) hroot
  obtain ⟨hupDir, hupLink, rfl⟩ := linked_view hup
  refine ⟨_, rfl, hupDir, hupLink, hone, fun e he hlinked hd => ?_⟩
  exact (htree.ok.tree e _ _ _ (htree.linked he hlinked) d hd _ _ _ (view_dir hdir)).symm

theorem directories_named_once_fill :
    Always (step rootSb) NamedOnce (boot rootDinode rootBitmap rootBlock) makeAndFill :=
  directories_named_once rootTidy _ (by decide +kernel)

/-- `mkdir a; cd a; rmdir ../a`, and a file `x` is created in the current directory. -/
def createInRemoved : List (Fin NPROC × Call) :=
  [(initproc, .mkdir (some [97])), (initproc, .chdir (some [97])),
    (initproc, .unlink (some [46, 46, 47, 97])), (initproc, .open (some [120]) O_CREATE)]

/-- **A file in a removed directory** has a link, but no linked directory names it. -/
theorem create_in_removed_directory : Tidy rootSb rootDinode rootBitmap rootBlock ∧
    ¬ Always (step rootSb) (LinksExact rootSb) (boot rootDinode rootBitmap rootBlock)
      createInRemoved := by
  refine ⟨rootTidy, fun halways => ?_⟩
  have hrun : (run (step rootSb) (boot rootDinode rootBitmap rootBlock) createInRemoved).map
      (fun t => ((t.dinode 3).type, (t.dinode 3).nlink, namesOf rootSb t.dinode t.block 3))
      = some (T_FILE, 1, 0) := by decide +kernel
  obtain ⟨t, ht, heq⟩ := Option.map_eq_some_iff.mp hrun
  simp only [Prod.mk.injEq] at heq
  have hexact := halways.of_run _ _ _ ht 3 (by rw [heq.1]; decide)
  rw [heq.2.1, heq.2.2] at hexact
  exact absurd hexact (by decide)

/-- `mkdir a a/b; cd a/b; rmdir /a/b /a`. -/
def removeBoth : List (Fin NPROC × Call) :=
  [(initproc, .mkdir (some [97])), (initproc, .mkdir (some [97, 47, 98])),
    (initproc, .chdir (some [97, 47, 98])), (initproc, .unlink (some [47, 97, 47, 98])),
    (initproc, .unlink (some [47, 97]))]

/-- **The parent of a removed directory**: `..` names a free inode, and the kernel panics
when it is opened. -/
theorem dotdot_of_removed_directory : Tidy rootSb rootDinode rootBitmap rootBlock ∧
    ∃ t, run (step rootSb) (boot rootDinode rootBitmap rootBlock) removeBoth = some t ∧
      ∃ u, syscall rootSb initproc (.open (some dotdot) O_RDONLY) t = .error "ilock: no type" u ∧
        u.dangled = true := by
  have hrun : (run (step rootSb) (boot rootDinode rootBitmap rootBlock) removeBoth).map
      (fun t => outcome State.dangled (syscall rootSb initproc (.open (some dotdot) O_RDONLY) t)) =
      some (.inl ("ilock: no type", true)) := by
    decide +kernel
  obtain ⟨t, ht, heq⟩ := Option.map_eq_some_iff.mp hrun
  exact ⟨rootTidy, t, ht, exists_of_outcome_error heq⟩

end Fs

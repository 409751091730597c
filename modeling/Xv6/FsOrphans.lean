/-
# Inodes that a crash loses

What a crash leaves on disk, once the log has been recovered, is the last commit.

While the system runs no inode is lost: an allocated inode without links is in use, and its
last reference frees it (`Owned`).  So if every inode in use had a link at the commit, then
every allocated inode of the disk has a name (`no_inode_lost_of_linked`).  But an inode that
has been unlinked while it was open is on the disk without a name, and the reference that
would free it is gone after a crash (`unlinked_open_file_lost`).
-/
import Xv6.FsLinkCounts

namespace Fs

open Proc (NPROC)
open Transition

variable {sb : Superblock} {D : ℕ → Dinode} {bm : ℕ → Bool} {blk : ℕ → ℕ → UInt8}

/-- **No inode is lost to a crash** while every inode in use has a link.  From a consistent
image without such inodes, in every run of safe calls and at every commit, also at those of
a call that has panicked afterwards: if every inode that the table refers to has a link,
then every allocated inode is the root or has a name in a linked directory. -/
theorem no_inode_lost_of_linked (h : Tidy sb D bm blk) (hnone : ∀ i, ¬ Orphan D i)
    (calls : List (Fin NPROC × Call)) (hsafe : Meets (step sb) (Safe sb) (boot D bm blk) calls) :
    Always (step sb) (fun s => (∀ c ∈ s.commits, c.Secure) ∧
      ∀ p call, (s.proc p).state = .running → Safe sb s (p, call) → ∀ msg t,
        syscall sb p call s = .error msg t → ∀ c ∈ t.commits, c.Secure) (boot D bm blk) calls := by
  refine always_of_invariant (fun s a t hs ha hstep => step_settled hs (fun _ => ha) hstep)
    (fun s hs => ?_) calls _ h.boot hsafe
  refine ⟨(hs.inv.live trivial).saved hnone, fun p call hrun hsafe msg t herr => ?_⟩
  have hends := syscall_ends p call hs hrun fun _ => hsafe
  rw [herr] at hends
  exact (hends.2 trivial).2.2 hnone

/-- The root directory has a link. -/
theorem root_noOrphan (i : ℕ) : ¬ Orphan rootDinode i := by
  rintro ⟨htype, hnlink⟩
  by_cases hi : i = ROOTINO
  · subst hi
    exact absurd hnlink (by decide)
  · rw [rootDinode_of_ne hi] at htype
    exact htype rfl

/-- A file is created, closed and unlinked. -/
theorem no_inode_lost_of_linked_close : Always (step rootSb) (fun s => (∀ c ∈ s.commits, c.Secure) ∧
      ∀ p call, (s.proc p).state = .running → Safe rootSb s (p, call) → ∀ msg t,
        syscall rootSb p call s = .error msg t → ∀ c ∈ t.commits, c.Secure)
      (boot rootDinode rootBitmap rootBlock)
      [(initproc, .open (some [47, 102]) (O_CREATE ||| O_RDWR)), (initproc, .close 0),
        (initproc, .unlink (some [47, 102]))] :=
  no_inode_lost_of_linked rootTidy root_noOrphan _ (by decide +kernel)

/-- A file is created, and unlinked while it is open. -/
def unlinkOpen : List (Fin NPROC × Call) :=
  [(initproc, .open (some [47, 102]) (O_CREATE ||| O_RDWR)), (initproc, .unlink (some [47, 102]))]

/-- **An unlinked file that is open is lost**: after the two calls, which are safe, inode 2
is allocated on the disk and no entry of any directory names it. -/
theorem unlinked_open_file_lost : Tidy rootSb rootDinode rootBitmap rootBlock ∧
    (∀ i, ¬ Orphan rootDinode i) ∧
    Meets (step rootSb) (Safe rootSb) (boot rootDinode rootBitmap rootBlock) unlinkOpen ∧
    ∃ s c, run (step rootSb) (boot rootDinode rootBitmap rootBlock) unlinkOpen = some s ∧
      s.commits.head? = some c ∧ (c.dinode 2).type ≠ 0 ∧
      ∀ d, d < rootSb.ninodes → (c.dinode d).type = T_DIR →
        ∀ k, k < slots c.dinode d → slotInum c.dinode c.block d k ≠ 2 := by
  refine ⟨rootTidy, root_noOrphan, by decide +kernel, ?_⟩
  have hrun : (run (step rootSb) (boot rootDinode rootBitmap rootBlock) unlinkOpen).map (fun s =>
      s.commits.head?.map fun c => decide ((c.dinode 2).type ≠ 0 ∧
        ∀ d, d < rootSb.ninodes → (c.dinode d).type = T_DIR →
          ∀ k, k < slots c.dinode d → slotInum c.dinode c.block d k ≠ 2)) = some (some true) := by
    decide +kernel
  obtain ⟨s, hs, hval⟩ := Option.map_eq_some_iff.mp hrun
  obtain ⟨c, hc, hval⟩ := Option.map_eq_some_iff.mp hval
  exact ⟨s, c, hs, hc, of_decide_eq_true hval⟩

end Fs

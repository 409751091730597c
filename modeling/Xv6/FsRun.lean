/-
# Runs of system calls

Every system call takes a settled state without references of its own to such a state, and
so do runs of calls.  From any image at all, the references to the entries of the inode
table are accounted for; from a consistent image the disk stays consistent; and if the
directories form a tree, they do as long as the calls are `Safe`: no call starts from a
current directory that has been removed, and no link count is at its maximum when a call
may add to it.
-/
import Xv6.FsProcs

namespace Fs

open Hoare
open Calls (NFILE)
open Proc (NPROC)
open Transition

variable {sb : Superblock} {w : Prop} {g : Watch} {s t : State} {p : Fin NPROC} {call : Call}
variable {D : ℕ → Dinode} {bm : ℕ → Bool} {blk : ℕ → ℕ → UInt8}

/-! ## Safe calls -/

/-- The paths that a call looks up. -/
def Call.paths : Call → List (List UInt8)
  | .open path _ => (argstr path).toList
  | .link old new => (argstr old).toList ++ (argstr new).toList
  | .unlink path => (argstr path).toList
  | .mkdir path => (argstr path).toList
  | .mknod path _ _ => (argstr path).toList
  | .chdir path => (argstr path).toList
  | .exec path _ => (argstr path).toList
  | _ => []

/-- The calls that add to a link count. -/
def Call.addsLink : Call → Bool
  | .link _ _ => true
  | .mkdir _ => true
  | _ => false

/-- **A call that is safe**: its relative paths start from a directory that has a link, and
no count is at its maximum if the call may add to one. -/
def Safe (sb : Superblock) (s : State) (a : Fin NPROC × Call) : Prop :=
  (∀ path ∈ a.2.paths, path.head? ≠ some 47 → ∀ c ∈ (s.proc a.1).cwd,
    (s.dinode (s.itable c).inum).nlink ≠ 0) ∧
  (a.2.addsLink = true → ∀ i, i < sb.ninodes → (s.dinode i).type ≠ 0 →
    (s.dinode i).nlink.toInt < 32767)

instance (sb : Superblock) (s : State) (a : Fin NPROC × Call) : Decidable (Safe sb s a) :=
  inferInstanceAs (Decidable (_ ∧ _))

theorem Safe.starts (h : Settled sb w g 0 0 s) (hsafe : g → Safe sb s (p, call))
    {path : List UInt8} (hpath : path ∈ call.paths) : Starts g p path s := by
  intro hg
  refine ⟨(h.tree hg).closed, fun hrel c hc => ⟨?_, (hsafe hg).1 path hpath hrel c hc⟩⟩
  exact (h.inv.live hg).alloc c (h.inv.refs.pos_of_cwd hc)

theorem Safe.roomy (h : Settled sb w g 0 0 s) (hsafe : g → Safe sb s (p, call))
    (hadds : call.addsLink = true) (hg : g) : Roomy s.dinode := by
  intro i hi
  exact (hsafe hg).2 hadds i ((h.tree hg).ok.bound i ((isSome_view s.block).mpr hi)).2 hi

/-! ## Calls -/

/-- **Every system call keeps the state settled.** -/
theorem syscall_ends (p : Fin NPROC) (call : Call) (h : Settled sb w g 0 0 s)
    (hrun : (s.proc p).state = .running) (hsafe : g → Safe sb s (p, call)) :
    Ends (syscall sb p call s) (fun _ t => Settled sb w g 0 0 t) (Fine w g) := by
  cases call with
  | «open» path omode =>
    exact sysOpen_ends h fun path' hpath => Safe.starts h hsafe (by simp [Call.paths, hpath])
  | close fd => exact sysClose_ends h
  | dup fd => exact sysDup_ends h
  | read fd n ok => exact withFile_ends h fun f => fileread_ends h
  | write fd n src => exact withFile_ends h fun f => filewrite_ends h
  | fstat fd copied => exact withFile_ends h fun f => filestat_ends h
  | link old new =>
    refine sysLink_ends h (fun path' hpath => Safe.starts h hsafe ?_) (Safe.roomy h hsafe rfl)
    rcases hpath with hpath | hpath <;> simp [Call.paths, hpath]
  | unlink path =>
    exact sysUnlink_ends h fun path' hpath => Safe.starts h hsafe (by simp [Call.paths, hpath])
  | mkdir path =>
    exact sysMake_ends h (by decide)
      (fun path' hpath => Safe.starts h hsafe (by simp [Call.paths, hpath]))
      fun hg _ => Safe.roomy h hsafe rfl hg
  | mknod path major minor =>
    exact sysMake_ends h (by decide)
      (fun path' hpath => Safe.starts h hsafe (by simp [Call.paths, hpath]))
      fun _ hdir => absurd hdir (by decide)
  | chdir path =>
    exact sysChdir_ends h hrun fun path' hpath => Safe.starts h hsafe (by simp [Call.paths, hpath])
  | exec path reads =>
    exact sysExec_ends h fun path' hpath => Safe.starts h hsafe (by simp [Call.paths, hpath])
  | fork copied => exact fork_ends h
  | exit => exact exit_ends h
  | wait q => exact reap_ends h

/-- The same for a step of the machine. -/
theorem step_settled {a : Fin NPROC × Call} (h : Settled sb w g 0 0 s)
    (hsafe : g → Safe sb s a) (hstep : step sb s a = some t) : Settled sb w g 0 0 t := by
  unfold step at hstep
  by_cases hrun : (s.proc a.1).state = .running
  · rw [if_pos hrun] at hstep
    have hends := syscall_ends a.1 a.2 h hrun hsafe
    cases hcall : syscall sb a.1 a.2 s with
    | ok r u =>
      rw [hcall] at hstep hends
      simp only [Option.some.injEq] at hstep
      rw [← hstep]
      exact hends
    | error msg u =>
      rw [hcall] at hstep
      cases hstep
  · rw [if_neg hrun] at hstep
    cases hstep

/-! ## Images -/

/-- **A consistent image without holes.** -/
structure Image (sb : Superblock) (D : ℕ → Dinode) (bm : ℕ → Bool) (blk : ℕ → ℕ → UInt8) :
    Prop where
  fits : sb.size ≤ 2 ^ 32
  sound : Sound sb D bm blk
  whole : ∀ i, (D i).type ≠ 0 → ∀ j, j < (D i).size → place (D i) blk (home (j / BSIZE)) ≠ 0

theorem NINODE_pos : 0 < Itable.NINODE := by decide

/-- The first entry of the inode table. -/
def rootEntry : Ip := ⟨0, NINODE_pos⟩

theorem boot_root : (boot D bm blk).itable rootEntry = ⟨ROOTINO, 1, false, Dinode.zero 0⟩ := by
  simp [boot, rootEntry]

theorem boot_entry {e : Ip} (he : e ≠ rootEntry) :
    (boot D bm blk).itable e = ⟨0, 0, false, Dinode.zero 0⟩ := by
  unfold rootEntry at he
  simp [boot, he]

theorem boot_init : (boot D bm blk).proc initproc = ⟨.running, some rootEntry, fun _ => none⟩ := by
  simp [boot, rootEntry]

theorem boot_proc {q : Fin NPROC} (hq : q ≠ initproc) :
    (boot D bm blk).proc q = ⟨.unused, none, fun _ => none⟩ := by
  simp [boot, hq]

theorem eq_rootEntry {e : Ip} (h : 0 < ((boot D bm blk).itable e).ref) : e = rootEntry := by
  by_contra he
  rw [boot_entry he] at h
  exact absurd h (lt_irrefl 0)

/-- The only reference is that of the first process. -/
theorem shares_boot (e : Ip) : shares (boot D bm blk) e = Multiset.count e {rootEntry} := by
  have hfiles : ∑ f, fileRef ((boot D bm blk).ftable f) e = 0 :=
    Finset.sum_eq_zero fun f _ => fileRef_none rfl e
  have hprocs : ∑ q, cwdRef ((boot D bm blk).proc q) e =
      cwdRef ((boot D bm blk).proc initproc) e := by
    apply Finset.sum_eq_single
    · intro q _ hq
      apply cwdRef_none
      rw [boot_proc hq]
    · exact fun h => absurd (Finset.mem_univ _) h
  unfold shares
  rw [hfiles, hprocs, Nat.zero_add]
  exact cwdRef_some (by rw [boot_init]) 0 e

theorem boot_refs : Refs 0 (boot D bm blk) where
  exact e := by
    rw [shares_boot, Multiset.count_singleton, Multiset.count_zero]
    by_cases he : e = rootEntry
    · rw [if_pos he, he, boot_root]
      rfl
    · rw [if_neg he, boot_entry he]
      rfl
  idle _ _ := rfl
  gone q hq := by
    by_cases hinit : q = initproc
    · rw [hinit, boot_init] at hq
      exact absurd rfl hq
    · rw [boot_proc hinit]

/-- **The first state.** -/
theorem boot_settled (hgw : g → w) (hw : w → Image sb D bm blk) (hg : g → Tree sb D blk)
    (hlost : g → ∀ i, Orphan D i → g.lost i) : Settled sb w g 0 0 (boot D bm blk) := by
  refine ⟨⟨boot_refs, rfl, hgw, fun h => ?_, fun h => ?_⟩, hg,
    fun h i hi => Or.inl (hlost h i hi)⟩
  · have himg := hw h
    have hvalid : ∀ e, 0 < ((boot D bm blk).itable e).ref →
        ((boot D bm blk).itable e).valid = false := by
      intro e he
      rw [eq_rootEntry he, boot_root]
    refine ⟨himg.fits, fun e e' he he' _ => ?_, fun e he hv => ?_, fun e he hv => ?_, himg.sound,
      himg.whole⟩
    · rw [eq_rootEntry he, eq_rootEntry he']
    · rw [hvalid e he] at hv
      cases hv
    · rw [hvalid e he] at hv
      cases hv
  · refine ⟨fun e he => ?_, fun f hpos => absurd hpos (lt_irrefl 0), rfl, fun hnone c hc _ i hi => ?_⟩
    · rw [eq_rootEntry he, boot_root]
      exact (hg h).closed.root.1
    · -- the only commit is the image
      rw [List.mem_singleton.mp hc] at hi ⊢
      exact (hg h).named ⟨hi, fun hzero => hnone i (hlost h i ⟨hi, hzero⟩)⟩

/-! ## References to inodes -/

/-- The open files that refer to an entry. -/
def openFiles (s : State) (e : Ip) : Finset (Fin NFILE) :=
  Finset.univ.filter fun f => 0 < (s.ftable f).ref ∧
    ((s.ftable f).type = .inode ∨ (s.ftable f).type = .device) ∧ (s.ftable f).ip = e

/-- The live processes whose current directory is an entry. -/
def livingIn (s : State) (e : Ip) : Finset (Fin NPROC) :=
  Finset.univ.filter fun p => (s.proc p).state = .running ∧ (s.proc p).cwd = some e

theorem Refs.count (h : Refs 0 s) (e : Ip) :
    (s.itable e).ref = (openFiles s e).card + (livingIn s e).card := by
  have hlive : livingIn s e = Finset.univ.filter fun p => (s.proc p).cwd = some e := by
    apply Finset.filter_congr
    intro p _
    refine ⟨fun hp => hp.2, fun hp => ⟨?_, hp⟩⟩
    by_contra hstop
    rw [h.gone p hstop] at hp
    cases hp
  have hexact := h.exact e
  rw [Multiset.count_zero] at hexact
  rw [hexact, hlive, openFiles, Finset.card_filter, Finset.card_filter]
  unfold shares fileRef cwdRef
  push_cast
  ring

/-- **The reference count of every entry of the inode table** is the number of open files
and of current directories that refer to it, whenever no call is in progress: from any
image, whatever the calls are and however they end. -/
theorem inode_refs_exact (sb : Superblock) (D : ℕ → Dinode) (bm : ℕ → Bool)
    (blk : ℕ → ℕ → UInt8) (calls : List (Fin NPROC × Call)) :
    Always (step sb) (fun s => ∀ e, (s.itable e).ref = (openFiles s e).card + (livingIn s e).card)
      (boot D bm blk) calls := by
  have hboot : Settled sb False .off 0 0 (boot D bm blk) :=
    boot_settled id (fun h => h.elim) (fun h => h.elim) fun h => h.elim
  refine always_of_step (fun s a t hs hstep => ?_) (fun s hs e => ?_) calls _ hboot
  · exact step_settled hs (fun h => h.elim) hstep
  · exact hs.inv.refs.count e

end Fs

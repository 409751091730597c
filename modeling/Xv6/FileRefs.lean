/-
# Reference counts of files and the life of pipes

The invariant holds in every state of every run, whatever calls the processes make and
however their steps mix.  Between calls the share of a process in a file is the number of
its descriptors, and nobody is on the way to close an end of a pipe; so the reference counts
are exact and the flags of a pipe tell which of its files are open (`file_refs_exact`).
-/
import Xv6.FileTableSteps

namespace FileTable

open Calls (NFILE NOFILE first first_some)
open Proc (NPROC CInt)
open Transition

variable {s u : State} {p q : Fin NPROC} {f : Fin NFILE}

/-! ## One action -/

theorem argfd_some {o : Ofile} {fd : CInt} {i : Fin NOFILE} (h : argfd o fd = some (i, f)) :
    o i = some f := by
  unfold argfd at h
  split_ifs at h
  obtain ⟨g, hg, heq⟩ := Option.map_eq_some_iff.mp h
  obtain ⟨rfl, rfl⟩ := Prod.mk.inj heq
  exact hg

/-- A call begins without having changed anything. -/
theorem begin_inv {c : Pc} (h : Doing s p .idle) (hheld : held c = fun _ => 0)
    (howed : owed c = fun _ => 0) (hpend : pending c = fun _ _ => 0) (hfree : freeing c = fun _ => 0) (hfresh : fresh c = [])
    (hchild : child c = none) (hown : OwnAt ((s.proc p).begin c) c) :
    Inv (s.set p ((s.proc p).begin c)) := by
  refine h.local_step (fun f => ?_) hpend hfree hown (fun f hf => ?_) (fun np i hc => ?_)
    (Or.inl h.run) (Or.inl h.run)
  · show slots (s.proc p).ofile f + 0 + owed c f = slots (s.proc p).ofile f + held c f + 0
    rw [hheld, howed]
  · change f ∈ fresh c at hf
    rw [hfresh] at hf
    cases hf
  · change child c = some (np, i) at hc
    rw [hchild] at hc
    cases hc

/-- **A call begins.** -/
theorem call_inv (h : Doing s p .idle) (c : Call) : Inv (s.set p ((s.proc p).call c)) := by
  have hsame : ∀ c, ((s.proc p).begin c).Same := fun _ => ⟨rfl, rfl⟩
  have hfail : Inv (s.set p ((s.proc p).begin (.ret (-1)))) :=
    begin_inv h rfl rfl rfl rfl rfl rfl fun _ => hsame _
  cases c with
  | dup fd =>
    unfold Process.call
    dsimp only
    cases hfd : argfd (s.proc p).ofile fd with
    | none => exact hfail
    | some res =>
      obtain ⟨i, f⟩ := res
      dsimp only
      cases hnew : fdalloc (s.proc p).ofile with
      | none => exact hfail
      | some fd' =>
        have htake := slots_take (fdalloc_free hnew) f
        refine h.local_step (fun g => ?_) rfl rfl ?_ (fun g hg => ?_) (fun np i hc => ?_)
          (Or.inl h.run) (Or.inl h.run)
        · have := htake g
          show slots (s.proc p).ofile g + 0 + one f g
            = slots (Function.update (s.proc p).ofile fd' (some f)) g + 0 + 0
          omega
        · show 2 ≤ slots (Function.update (s.proc p).ofile fd' (some f)) f
          have := slots_pos (argfd_some hfd)
          rw [htake f, one_self]
          omega
        · cases hg
        · cases hc
  | close fd =>
    unfold Process.call
    dsimp only
    cases hfd : argfd (s.proc p).ofile fd with
    | none => exact hfail
    | some res =>
      obtain ⟨i, f⟩ := res
      refine h.local_step (fun g => ?_) rfl rfl ?_ (fun g hg => ?_) (fun np i hc => ?_)
        (Or.inl h.run) (Or.inl h.run)
      · have := slots_clear (argfd_some hfd) g
        show slots (s.proc p).ofile g + 0 + 0
          = slots (Function.update (s.proc p).ofile i none) g + (one f g + 0) + 0
        omega
      · intro hr
        exact absurd hr (by decide)
      · cases hg
      · cases hc
  | «open» found =>
    cases found with
    | false => exact hfail
    | true => exact begin_inv h rfl rfl rfl rfl rfl rfl (hsame _)
  | pipe => exact begin_inv h rfl rfl rfl rfl rfl rfl (hsame _)
  | fork => exact begin_inv h rfl rfl rfl rfl rfl rfl (hsame _)
  | exit =>
    refine begin_inv h rfl rfl rfl rfl rfl rfl fun j hj => ?_
    exact absurd hj (Nat.not_lt_zero _)

/-- **A call goes on.** -/
theorem exec_inv {ch : Choice} (h : Inv s) (hexec : exec s p ch = some u) : Inv u := by
  have hat : ∀ {c}, (s.proc p).pc = c → c ≠ .idle → Doing s p c := by
    intro c hpc hne
    refine ⟨h, ?_, hpc⟩
    by_contra hnot
    exact hne (hpc.symm.trans (h.idle p hnot))
  unfold exec at hexec
  cases hpc : (s.proc p).pc with
  | idle =>
    rw [hpc] at hexec
    cases hexec
  | ret r =>
    rw [hpc] at hexec
    cases hexec
    exact (hat hpc nofun).giveUp (fun _ => rfl) rfl rfl trivial rfl rfl
  | dup f fd =>
    rw [hpc] at hexec
    cases hexec
    exact dup_inv (hat hpc nofun)
  | close f k =>
    rw [hpc] at hexec
    cases hexec
    exact fileclose_inv (hat hpc nofun)
  | pipeclose pi w k =>
    rw [hpc] at hexec
    cases hexec
    exact pipeclose_inv (hat hpc nofun)
  | kfree pi k =>
    rw [hpc] at hexec
    cases hexec
    exact kfree_inv (hat hpc nofun)
  | openAlloc =>
    rw [hpc] at hexec
    cases hexec
    exact openAlloc_inv (hat hpc nofun)
  | openFd f =>
    rw [hpc] at hexec
    cases hexec
    exact openFd_inv (hat hpc nofun)
  | openType f fd =>
    rw [hpc] at hexec
    cases hexec
    exact openType_inv (hat hpc nofun) ch.device ch.readable ch.writable
  | pipeAlloc0 =>
    rw [hpc] at hexec
    cases hexec
    exact pipeAlloc0_inv (hat hpc nofun)
  | pipeAlloc1 f0 =>
    rw [hpc] at hexec
    cases hexec
    exact pipeAlloc1_inv (hat hpc nofun)
  | pipeKalloc f0 f1 =>
    rw [hpc] at hexec
    have hown : (s.proc p).Same ∧ f0 ≠ f1 := (hat hpc nofun).ownAt
    dsimp only at hexec
    by_cases hok : ch.ok = false
    · rw [if_pos hok] at hexec
      cases hexec
      exact (hat hpc nofun).giveUp (fun _ => rfl) rfl rfl hown.1 rfl rfl
    · rw [if_neg hok] at hexec
      cases hpage : s.pages ch.page with
      | some e =>
        rw [hpage] at hexec
        cases hexec
      | none =>
        rw [hpage] at hexec
        cases hexec
        exact pipeKalloc_inv (hat hpc nofun) hpage
  | pipeType f0 f1 pi =>
    rw [hpc] at hexec
    cases hexec
    exact pipeType_inv (hat hpc nofun)
  | pipeFd0 rf wf =>
    rw [hpc] at hexec
    cases hexec
    exact pipeFd0_inv (hat hpc nofun)
  | pipeFd1 rf wf fd0 =>
    rw [hpc] at hexec
    cases hexec
    exact pipeFd1_inv (hat hpc nofun)
  | pipeCopy rf wf fd0 fd1 =>
    rw [hpc] at hexec
    dsimp only at hexec
    by_cases hok : ch.ok = true
    · rw [if_pos hok] at hexec
      cases hexec
      refine (hat hpc nofun).giveUp (fun _ => rfl) rfl rfl (fun hr => ?_) rfl rfl
      exact absurd hr (by decide)
    · rw [if_neg hok] at hexec
      cases hexec
      exact pipeCopy_inv (hat hpc nofun)
  | forkAlloc =>
    rw [hpc] at hexec
    have hsame : (s.proc p).Same := (hat hpc nofun).ownAt
    dsimp only at hexec
    cases hfind : first fun np => decide ((s.proc np).state = .unused) with
    | none =>
      rw [hfind] at hexec
      cases hexec
      exact (hat hpc nofun).giveUp (fun _ => rfl) rfl rfl (fun _ => hsame) rfl rfl
    | some np =>
      rw [hfind] at hexec
      cases hexec
      exact forkAlloc_inv (hat hpc nofun) (of_decide_eq_true (first_some hfind))
  | forkVm np =>
    rw [hpc] at hexec
    have hsame : (s.proc p).Same := (hat hpc nofun).ownAt
    dsimp only at hexec
    by_cases hok : ch.ok = true
    · rw [if_pos hok] at hexec
      cases hexec
      refine (hat hpc nofun).goto_step (fun _ => rfl) rfl rfl trivial (fun f hf => ?_)
        fun np' i hc => ?_
      · cases hf
      · cases hc
        exact ⟨0, le_rfl, rfl⟩
    · rw [if_neg hok] at hexec
      cases hexec
      exact forkSlot_inv (hat hpc nofun) rfl rfl rfl rfl rfl (fun _ => hsame)
        fun _ fd => ((hat hpc nofun).child_of (i := 0) rfl).2 fd (Nat.zero_le _)
  | forkDup np i =>
    rw [hpc] at hexec
    dsimp only at hexec
    by_cases hi : i < NOFILE
    · rw [dif_pos hi] at hexec
      cases hexec
      exact forkFd_inv (hat hpc nofun)
    · rw [dif_neg hi] at hexec
      cases hexec
      refine forkSlot_inv (hat hpc nofun) rfl rfl rfl rfl rfl (fun hr => ?_) fun hcon => ?_
      · omega
      · rcases hcon with hcon | hcon <;> cases hcon
  | exit i =>
    rw [hpc] at hexec
    dsimp only at hexec
    by_cases hi : i < NOFILE
    · rw [dif_pos hi] at hexec
      have hinv := exit_inv (hat hpc nofun) hi
      cases hfd : (s.proc p).ofile ⟨i, hi⟩ with
      | none =>
        rw [hfd] at hexec hinv
        cases hexec
        exact hinv
      | some f =>
        rw [hfd] at hexec hinv
        cases hexec
        exact hinv
    · rw [dif_neg hi] at hexec
      cases hexec
      exact exitEnd_inv (hat hpc nofun) hi
  | exitClear fd f =>
    rw [hpc] at hexec
    cases hexec
    exact exitClear_inv (hat hpc nofun)

/-- A zombie is reaped. -/
theorem wait_inv (h : Inv s) (hq : (s.proc q).state = .zombie) :
    Inv (s.set q { s.proc q with state := .unused }) := by
  have hidle : (s.proc q).pc = .idle := h.idle q fun hr => by
    rw [hr] at hq
    cases hq
  refine h.step (fun r hr => ?_) rfl ⟨fun f => rfl, h.kind, fun pi w => rfl, fun pi => rfl, h.own q,
    h.fresh q, fun f hne => absurd rfl hne, fun np i hc => ⟨i, le_rfl, hc⟩, Or.inr hidle,
    Or.inr (h.clear q (Or.inr hq)), ⟨rfl, rfl⟩⟩
  rw [hq] at hr
  cases hr

/-- **One action** keeps the invariant. -/
theorem inv_step {a : Act} (h : Inv s) (hstep : step s a = some u) : Inv u := by
  unfold step at hstep
  split_ifs at hstep
  cases a with
  | call p c =>
    dsimp only at hstep
    split_ifs at hstep with hrun
    split at hstep
    · rename_i hpc
      cases hstep
      exact call_inv ⟨h, hrun, hpc⟩ c
    · cases hstep
  | step p ch => exact exec_inv h hstep
  | wait p q =>
    dsimp only at hstep
    split_ifs at hstep with hcond
    cases hstep
    exact wait_inv h hcond.2

theorem inv_start : Inv start := by
  have hpc : ∀ p, (start.proc p).pc = .idle := by
    intro p
    show Process.pc (if p.val = 0 then _ else _) = .idle
    split_ifs <;> rfl
  have hofile : ∀ p fd, (start.proc p).ofile fd = none := by
    intro p fd
    show Process.ofile (if p.val = 0 then _ else _) fd = none
    split_ifs <;> rfl
  constructor
  · intro f
    refine (Finset.sum_eq_zero fun p _ => ?_).symm
    have hslots : slots (start.proc p).ofile f = 0 := by
      rw [slots, Finset.card_eq_zero, Finset.filter_eq_empty_iff]
      intro fd _ hfd
      rw [hofile p fd] at hfd
      cases hfd
    rw [share, hslots, hpc p]
    rfl
  · exact fun _ _ => rfl
  · intro pi w
    have h₁ : ∑ f, endOf (start.ftable f) pi w = 0 :=
      Finset.sum_eq_zero fun f _ => if_neg fun hend => by cases hend.1
    have h₂ : ∑ p, pending (start.proc p).pc pi w = 0 := Finset.sum_eq_zero fun p _ => by
      rw [hpc p]
      rfl
    rw [h₁, h₂]
    rfl
  · intro pi
    have h₁ : ∑ p, freeing (start.proc p).pc pi = 0 := Finset.sum_eq_zero fun p _ => by
      rw [hpc p]
      rfl
    rw [h₁]
    rfl
  · intro p
    rw [OwnOk, hpc p]
    trivial
  · intro p f hf
    rw [hpc p] at hf
    cases hf
  · intro p np i hc
    rw [hpc p] at hc
    cases hc
  · exact fun p _ => hpc p
  · exact fun p _ => hofile p
  · exact ⟨rfl, rfl⟩

/-! ## Between calls -/

/-- The file is the end of the pipe for reading or for writing. -/
def IsEnd (s : State) (f : Fin NFILE) (pi : ℕ) (w : Bool) : Prop :=
  (s.ftable f).type = .pipe ∧ (s.ftable f).pipe = pi ∧ (s.ftable f).writable = w

/-- What holds when no call is in progress. -/
structure AtRest (s : State) : Prop where
  ref : ∀ f, (s.ftable f).ref = ∑ p, slots (s.proc p).ofile f
  kind : ∀ f, (s.ftable f).ref = 0 → (s.ftable f).type = .none
  flag : ∀ pi e, s.pages pi = some e →
    ∀ w, e.get w = true ↔ ∃ f, 0 < (s.ftable f).ref ∧ IsEnd s f pi w
  live : ∀ pi e, s.pages pi = some e → e.readopen = true ∨ e.writeopen = true
  page : ∀ f pi w, IsEnd s f pi w → ∃ e, s.pages pi = some e

/-- The files of an end of a pipe are counted by its flag. -/
theorem sum_endOf_pos (s : State) (pi : ℕ) (w : Bool) :
    0 < ∑ f, endOf (s.ftable f) pi w ↔ ∃ f, IsEnd s f pi w := by
  constructor
  · intro hpos
    obtain ⟨f, -, hf⟩ := Finset.exists_ne_zero_of_sum_ne_zero (Nat.ne_of_gt hpos)
    refine ⟨f, ?_⟩
    by_contra hnot
    exact hf (if_neg hnot)
  · rintro ⟨f, hf⟩
    refine lt_of_lt_of_le Nat.zero_lt_one ?_
    have hle : endOf (s.ftable f) pi w ≤ ∑ f, endOf (s.ftable f) pi w :=
      Finset.single_le_sum (f := fun f => endOf (s.ftable f) pi w) (fun _ _ => Nat.zero_le _)
        (Finset.mem_univ f)
    rw [show endOf (s.ftable f) pi w = 1 from if_pos hf] at hle
    exact hle

theorem atRest (h : Inv s) (hidle : ∀ p, (s.proc p).pc = .idle) : AtRest s := by
  have hends : ∀ pi w, ∑ f, endOf (s.ftable f) pi w = flag (s.pages pi) w := by
    intro pi w
    have hpend : ∑ p, pending (s.proc p).pc pi w = 0 := Finset.sum_eq_zero fun p _ => by
      rw [hidle p]
      rfl
    have := h.ends pi w
    omega
  constructor
  · intro f
    rw [h.ref f]
    refine Finset.sum_congr rfl fun p _ => ?_
    rw [share, hidle p]
    rfl
  · exact h.kind
  · intro pi e hpage w
    have hiff := sum_endOf_pos s pi w
    rw [hends pi w, hpage] at hiff
    have hflag : 0 < flag (some e) w ↔ e.get w = true := by
      show 0 < (if e.get w then 1 else 0) ↔ _
      cases e.get w <;> simp
    rw [← hflag, hiff]
    constructor
    · rintro ⟨f, hf⟩
      refine ⟨f, Nat.pos_of_ne_zero fun hzero => ?_, hf⟩
      have := hf.1
      rw [h.kind f hzero] at this
      cases this
    · rintro ⟨f, -, hf⟩
      exact ⟨f, hf⟩
  · intro pi e hpage
    have hfree : ∑ p, freeing (s.proc p).pc pi = 0 := Finset.sum_eq_zero fun p _ => by
      rw [hidle p]
      rfl
    have hclosed := h.frees pi
    rw [hfree, hpage] at hclosed
    by_contra hnot
    rw [not_or, Bool.not_eq_true, Bool.not_eq_true] at hnot
    rw [(Ends.eq_closed e).mpr hnot] at hclosed
    cases hclosed
  · intro f pi w hf
    have hpos := (sum_endOf_pos s pi w).mpr ⟨f, hf⟩
    rw [hends pi w] at hpos
    cases hpage : s.pages pi with
    | none =>
      rw [hpage] at hpos
      exact absurd hpos (Nat.lt_irrefl 0)
    | some e => exact ⟨e, rfl⟩

/-! ## The result -/

/-- **Reference counts of files and the life of pipes.**  For every interleaving of the
calls of any processes, whichever of them fail: whenever no call is in progress every
file has as many references as descriptors, a file without references has no type, and
the page of a pipe is there exactly as long as one of its ends is open, with the flags
telling which.  A call that fails returns with all descriptors as they were.  No page is
used or freed after it was freed, and no panic is reached. -/
theorem file_refs_exact (acts : List Act) : Always step (fun s =>
      ((∀ p, (s.proc p).pc = .idle) → AtRest s) ∧ (∀ p, (s.proc p).pc = .ret (-1) →
        (s.proc p).ofile = (s.proc p).before ∧ (s.proc p).others = false) ∧
      s.stale = false ∧ s.panicked = none) start acts := by
  refine always_of_step (fun s a u hs hstep => inv_step hs hstep) (fun s hs => ?_) acts start
    inv_start
  refine ⟨atRest hs, fun p hpc => ?_, hs.safe⟩
  have hown := hs.own p
  rw [OwnOk, hpc] at hown
  exact hown rfl

/-- The first process makes a pipe: two files, two descriptors and a page. -/
example :
    let init : Fin NPROC := ⟨0, by decide⟩
    (run step start (.call init .pipe :: List.replicate 7 (.step init ⟨true, 7, false, true, true⟩))).map
      (fun s => (((s.proc init).ofile ⟨0, by decide⟩).map Fin.val,
        ((s.proc init).ofile ⟨1, by decide⟩).map Fin.val, s.pages 7))
      = some (some 0, some 1, some ⟨true, true⟩) := by decide

/-- **An open descriptor stays good**, whatever the other processes are in the middle of: its
file has a reference, and the flag of this end of its pipe is set. -/
theorem descriptor_good (acts : List Act) :
    Always step (fun s => ∀ p fd f, (s.proc p).pc = .idle → (s.proc p).ofile fd = some f →
      0 < (s.ftable f).ref ∧ ((s.ftable f).type = .pipe →
        0 < flag (s.pages (s.ftable f).pipe) (s.ftable f).writable)) start acts := by
  refine always_of_step (fun s a u hs hstep => inv_step hs hstep)
    (fun s hs p fd f hpc hfd => ⟨?_, fun hpipe => ?_⟩) acts start inv_start
  · have hle := Finset.single_le_sum (f := fun q => share (s.proc q) f) (fun _ _ => Nat.zero_le _)
      (Finset.mem_univ p)
    have hshare : share (s.proc p) f = slots (s.proc p).ofile f := by
      simp [share, hpc, held, owed]
    rw [hs.ref]
    exact (hshare ▸ slots_pos hfd).trans hle
  · have hle := Finset.single_le_sum (f := fun g => endOf (s.ftable g) (s.ftable f).pipe
      (s.ftable f).writable) (fun _ _ => Nat.zero_le _) (Finset.mem_univ f)
    rw [endOf, if_pos ⟨hpipe, rfl, rfl⟩] at hle
    rw [← hs.ends]
    omega

end FileTable

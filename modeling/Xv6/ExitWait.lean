/-
# exit and wait agree

`ExitWait s` collects what holds of every state of the process table: the parent
of a process is alive, every exit status is in exactly one zombie or was returned
by exactly one `wait`, and nobody sleeps through the exit of a child.  The middle
one needs the ghost history and its own invariant `WaitInv`.
-/
import Xv6.ProcEffects
import Xv6.Tally

namespace Proc

open Function Transition

variable {s t : St} {p : ℕ}

/-! ## Exit statuses -/

/-- The slots whose zombie is the one of exit number `e`. -/
def zombiesOf (s : St) (e : ℕ) : Finset ℕ :=
  (Finset.range NPROC).filter fun i => (s.proc i).state = .zombie ∧ s.exitOf i = e

variable {k addr : ℕ} {P : Slot} {a : Act} {havekids ok : Bool}

theorem zombiesOf_change (e : ℕ) (hk : k < NPROC)
    (h : ∀ i, i ≠ k → t.proc i = s.proc i ∧ t.exitOf i = s.exitOf i) :
    (zombiesOf t e).card + (if (s.proc k).state = .zombie ∧ s.exitOf k = e then 1 else 0)
      = (zombiesOf s e).card + if (t.proc k).state = .zombie ∧ t.exitOf k = e then 1 else 0 :=
  Tally.card_change (P := fun i => (s.proc i).state = .zombie ∧ s.exitOf i = e)
    (Q := fun i => (t.proc i).state = .zombie ∧ t.exitOf i = e) (Finset.mem_range.mpr hk)
    fun i hi => by rw [(h i hi).1, (h i hi).2]

/-- The calls of `wait` that returned exit number `e`. -/
def waitsFor (s : St) (e : ℕ) : ℕ := s.waits.countP fun w => w.exit = e

/-- The history agrees with the table. -/
structure WaitInv (s : St) : Prop where
  zombie : ∀ i, (s.proc i).state = .zombie →
    s.exits[s.exitOf i]? = some ((s.proc i).pid, (s.proc i).xstate)
  waits : ∀ w ∈ s.waits, w.parent = some w.waiter ∧ s.exits[w.exit]? = some (w.pid, w.status)
  once : ∀ e, waitsFor s e + (zombiesOf s e).card = if e < s.exits.length then 1 else 0

/-- A step that neither makes nor frees a zombie. -/
theorem WaitInv.slot (h : WaitInv s) (hproc : t.proc = update s.proc k P)
    (hghost : t.exits = s.exits ∧ t.exitOf = s.exitOf ∧ t.waits = s.waits)
    (hP : P.state = .zombie ↔ (s.proc k).state = .zombie)
    (hsame : (s.proc k).state = .zombie → P.pid = (s.proc k).pid ∧ P.xstate = (s.proc k).xstate) :
    WaitInv t := by
  obtain ⟨hexits, hexitOf, hwaits⟩ := hghost
  have hzombie : ∀ i, (t.proc i).state = .zombie ↔ (s.proc i).state = .zombie := by
    intro i
    rw [hproc]
    by_cases hik : i = k
    · rw [hik, update_self, hP]
    · rw [update_of_ne hik]
  refine ⟨fun i hi => ?_, fun w hw => ?_, fun e => ?_⟩
  · rw [hzombie] at hi
    rw [hexits, hexitOf, h.zombie i hi, hproc]
    by_cases hik : i = k
    · rw [hik] at hi ⊢
      rw [update_self, (hsame hi).1, (hsame hi).2]
    · rw [update_of_ne hik]
  · rw [hwaits] at hw
    rw [hexits]
    exact h.waits w hw
  · have hset : zombiesOf t e = zombiesOf s e := by
      unfold zombiesOf
      simp only [hzombie, hexitOf]
    rw [hset, waitsFor, hwaits, hexits]
    exact h.once e

/-- A step that leaves the table alone. -/
theorem WaitInv.same (h : WaitInv s) (hproc : t.proc = s.proc)
    (hghost : t.exits = s.exits ∧ t.exitOf = s.exitOf ∧ t.waits = s.waits) : WaitInv t :=
  h.slot (k := initproc) (P := s.proc initproc) (by rw [update_eq_self, hproc]) hghost Iff.rfl
    fun _ => ⟨rfl, rfl⟩

/-- **A new exit.** -/
theorem waitInv_exitZombie (h : WaitInv s) {status : CInt} (hlt : p < NPROC)
    (hrun : (s.proc p).state = .running) (hstep : exitZombie s p status = some t) : WaitInv t := by
  unfold exitZombie at hstep
  split_ifs at hstep
  have hexits : t.exits = s.exits ++ [((s.proc p).pid, status)] := by cases hstep; rfl
  have hexitOf : t.exitOf = update s.exitOf p s.exits.length := by cases hstep; rfl
  have hwaits : t.waits = s.waits := by cases hstep; rfl
  have htp : t.proc p = { s.proc p with xstate := status, state := .zombie, lock := true } := by
    cases hstep
    exact update_self ..
  have hother : ∀ i, i ≠ p → t.proc i = s.proc i ∧ t.exitOf i = s.exitOf i := by
    intro i hi
    rw [hexitOf, update_of_ne hi]
    cases hstep
    exact ⟨update_of_ne hi .., rfl⟩
  have hold : ∀ (e : ℕ) x, s.exits[e]? = some x → t.exits[e]? = some x := by
    intro e x he
    rw [hexits, List.getElem?_append_left (List.getElem?_eq_some_iff.mp he).1, he]
  refine ⟨fun i hi => ?_, fun w hw => ?_, fun e => ?_⟩
  · by_cases hip : i = p
    · rw [hip, htp, hexitOf, update_self, hexits, List.getElem?_concat_length]
    · rw [(hother i hip).1] at hi ⊢
      rw [(hother i hip).2]
      exact hold _ _ (h.zombie i hi)
  · rw [hwaits] at hw
    exact ⟨(h.waits w hw).1, hold _ _ (h.waits w hw).2⟩
  · have honce := h.once e
    have hchange := zombiesOf_change e hlt hother
    have hnot : ¬ ((s.proc p).state = .zombie ∧ s.exitOf p = e) := by
      rw [hrun]
      simp
    have hnew : (t.proc p).state = .zombie ∧ t.exitOf p = e ↔ s.exits.length = e := by
      rw [htp, hexitOf, update_self]
      simp
    rw [if_neg hnot] at hchange
    simp only [hnew] at hchange
    have hwaitsFor : waitsFor t e = waitsFor s e := by rw [waitsFor, hwaits, waitsFor]
    rw [hwaitsFor, hexits, List.length_append, List.length_singleton]
    split_ifs at hchange honce ⊢ <;> omega

/-- **A zombie is reaped.** -/
theorem waitInv_reap (h : WaitInv s) (hlt : k < NPROC) (hk : (s.proc k).parent = some p)
    (hz : (s.proc k).state = .zombie) (hproc : t.proc = update s.proc k (freeproc (s.proc k)))
    (hexits : t.exits = s.exits) (hexitOf : t.exitOf = s.exitOf)
    (hwaits : t.waits = s.waits ++ [waitRecord s p k]) : WaitInv t := by
  have hother : ∀ i, i ≠ k → t.proc i = s.proc i := fun i hi => by
    rw [hproc, update_of_ne hi]
  have htk : (t.proc k).state = .unused := by
    rw [hproc, update_self]
    rfl
  refine ⟨fun i hi => ?_, fun w hw => ?_, fun e => ?_⟩
  · have hik : i ≠ k := by
      intro heq
      rw [heq, htk] at hi
      cases hi
    rw [hother i hik] at hi ⊢
    rw [hexits, hexitOf]
    exact h.zombie i hi
  · rw [hexits]
    rw [hwaits] at hw
    rcases List.mem_append.mp hw with hw | hw
    · exact h.waits w hw
    · rw [List.mem_singleton.mp hw]
      exact ⟨hk, h.zombie k hz⟩
  · have honce := h.once e
    have hchange := zombiesOf_change e hlt fun i hi => ⟨hother i hi, by rw [hexitOf]⟩
    rw [htk, hz] at hchange
    simp only [true_and, reduceCtorEq, false_and, if_false] at hchange
    have hcount : waitsFor t e = waitsFor s e + if s.exitOf k = e then 1 else 0 := by
      rw [waitsFor, hwaits, List.countP_append, List.countP_singleton]
      by_cases he : s.exitOf k = e
      · simp [waitsFor, waitRecord, he]
      · simp [waitsFor, waitRecord, he]
    rw [hcount, hexits]
    omega

/-- The steps of `fork` touch slots without a zombie only. -/
theorem waitInv_fork (h : WaitInv s) (hproc : t.proc = update s.proc k P)
    (hghost : t.exits = s.exits ∧ t.exitOf = s.exitOf ∧ t.waits = s.waits)
    (hs : (s.proc k).state ≠ .zombie) (hP : P.state ≠ .zombie) : WaitInv t :=
  h.slot hproc hghost ⟨fun hz => absurd hz hP, fun hz => absurd hz hs⟩ fun hz => absurd hz hs

theorem waitInv_step (hinv : Inv s) (h : WaitInv s) (hstep : step s a = some t) : WaitInv t := by
  cases step_effect hinv hstep with
  | mild hm =>
    obtain ⟨-, hexits, hexitOf, hwaits, -, -⟩ := history_eq_iff.mp hm.history
    exact h.slot hm.proc ⟨hexits, hexitOf, hwaits⟩ hm.alike.zombie
      fun _ => ⟨hm.alike.pid, hm.alike.xstate⟩
  | alloc hpc hk hlock hun ht =>
    subst ht
    exact waitInv_fork h rfl ⟨rfl, rfl, rfl⟩ (by simp [hun]) (by simp)
  | @made p np ok hpc ht =>
    have hp : PcOk s p (.forkHold np) := hpc ▸ hinv.pcs p
    have hused : (s.proc np).state ≠ .zombie := by simp [hp.2.1]
    subst ht
    cases ok with
    | true => exact waitInv_fork h rfl ⟨rfl, rfl, rfl⟩ hused hused
    | false => exact waitInv_fork h rfl ⟨rfl, rfl, rfl⟩ hused fun hz => by cases hz
  | exited hrun ht =>
    exact waitInv_exitZombie h (lt_NPROC_of_live hinv (live_of_running hrun)) hrun ht
  | reaped hk hparent hlock hz ht =>
    subst ht
    exact waitInv_reap h hk hparent hz rfl rfl rfl rfl
  | @hit p k pid ok hpc hk hlock hpid ht =>
    subst ht
    exact h.slot rfl ⟨rfl, rfl, rfl⟩ (setKilled_state (s.proc k)).2 fun _ => ⟨rfl, rfl⟩
  | missed ht =>
    subst ht
    exact h.same rfl ⟨rfl, rfl, rfl⟩

theorem waitInv_init : WaitInv init where
  zombie := fun i hi => by
    by_cases hinit : i = initproc
    · rw [hinit] at hi
      cases hi
    · simp only [init, update_of_ne hinit] at hi
      cases hi
  waits := fun w hw => by cases hw
  once := fun e => by
    have hnone : zombiesOf init e = ∅ := by
      refine Finset.filter_eq_empty_iff.mpr fun i _ hi => ?_
      by_cases hinit : i = initproc
      · rw [hinit] at hi
        cases hi.1
      · simp only [init, update_of_ne hinit] at hi
        cases hi.1
    rw [hnone]
    rfl

/-! ## The main theorem -/

/-- What holds of exit and wait in a state. -/
structure ExitWait (s : St) : Prop where
  /-- a parent that has been set is neither free nor a zombie -/
  parent : ∀ i q, (s.proc i).parent = some q →
    (s.proc q).state ≠ .unused ∧ (s.proc q).state ≠ .zombie
  /-- every process but `initproc` has a parent once it has been started -/
  hasParent : ∀ i, i ≠ initproc → (s.proc i).state ≠ .unused → (s.proc i).state ≠ .used →
    ∃ q, (s.proc i).parent = some q
  /-- every exit has been returned by exactly one `wait`, or is in exactly one zombie -/
  once : ∀ e < s.exits.length, waitsFor s e + (zombiesOf s e).card = 1
  /-- a zombie keeps its pid and status -/
  status : ∀ i, (s.proc i).state = .zombie →
    s.exits[s.exitOf i]? = some ((s.proc i).pid, (s.proc i).xstate)
  /-- `wait` returned the pid and the status of a child of its caller -/
  waits : ∀ w ∈ s.waits, w.parent = some w.waiter ∧ s.exits[w.exit]? = some (w.pid, w.status)
  /-- when `copyout` fails in `wait`, the table and the history stay as they are -/
  copyout : ∀ p addr k havekids t, s.pc p = .waitScan addr k havekids →
    (s.proc k).parent = some p → (s.proc k).state = .zombie → addr ≠ 0 →
    step s (.advance p false) = some t → t.proc = s.proc ∧ t.waits = s.waits ∧ t.exits = s.exits
  /-- nobody sleeps in `wait` while a child is a zombie -/
  awake : s.waitLock = none → ∀ i p addr, (s.proc i).parent = some p →
    (s.proc i).state = .zombie → s.pc p = .waitAsleep addr → (s.proc p).state ≠ .sleeping

theorem copyout_fails (hinv : Inv s) (hpc : s.pc p = .waitScan addr k havekids)
    (hk : (s.proc k).parent = some p) (hz : (s.proc k).state = .zombie) (haddr : addr ≠ 0)
    (hstep : step s (.advance p false) = some t) :
    t.proc = s.proc ∧ t.waits = s.waits ∧ t.exits = s.exits := by
  have hp : PcOk s p (.waitScan addr k havekids) := hpc ▸ hinv.pcs p
  have hlt : k < NPROC := by
    by_contra hge
    rw [hinv.table.outside k (Nat.le_of_not_lt hge)] at hz
    cases hz
  unfold step at hstep
  split_ifs at hstep
  simp only at hstep
  rw [if_pos hp.1.1, advance, hpc] at hstep
  simp only at hstep
  unfold waitScan at hstep
  rw [if_pos hlt, if_pos hk] at hstep
  split_ifs at hstep with hlock hcopy
  · cases hstep
    exact ⟨rfl, rfl, rfl⟩
  · exact absurd ⟨haddr, rfl⟩ hcopy

/-- **Exit and wait agree** in every state of every run, whatever the processes
call, however their critical sections interleave and wherever memory runs out. -/
theorem exit_wait_agree (as : List Act) (s : St) (hrun : run step init as = some s) :
    ExitWait s := by
  have hkeep : ∀ u a v, Inv u ∧ WaitInv u → step u a = some v → Inv v ∧ WaitInv v :=
    fun u a v hu hstep => ⟨inv_step hu.1 hstep, waitInv_step hu.1 hu.2 hstep⟩
  obtain ⟨hinv, hwait⟩ := run_invariant hkeep as init s ⟨inv_init, waitInv_init⟩ hrun
  refine ⟨fun i q hi => ?_, fun i hi hun hus => ?_, fun e he => ?_, hwait.zombie, hwait.waits,
    fun p addr k havekids t => copyout_fails hinv, fun hfree i p addr hi hz hpc hsl => ?_⟩
  · have hlive := (hinv.table.parentLive i q hi).1
    constructor
    · intro hs
      rw [hs] at hlive
      cases hlive
    · intro hs
      rw [hs] at hlive
      cases hlive
  · exact Option.ne_none_iff_exists'.mp (hinv.table.hasParent i hi hun hus)
  · rw [hwait.once e, if_pos he]
  · have hin : InWaitSleep s p := by
      unfold InWaitSleep
      rw [hpc]
      exact hsl
    obtain ⟨-, q, hq, -⟩ := hinv.zombieAsleep i p hi hz hin
    rw [hfree] at hq
    cases hq

/-- `initproc` forks a child, which exits with status 7, and waits for it. -/
def forkExitWait : List Act :=
  [.schedule 0, .call 0 .fork, .advance 0 true, .advance 0 true, .advance 0 true,
    .advance 0 true, .advance 0 true, .schedule 1, .call 1 (.exit 7), .advance 1 true] ++
  List.replicate (NPROC + 1) (.advance 1 true) ++ List.replicate (NPROC + 1) (.advance 1 true) ++
  [.advance 1 true, .advance 1 true, .call 0 (.wait 4096), .advance 0 true, .advance 0 true,
    .advance 0 true, .advance 0 true]

theorem exit_wait_agree_forkExitWait :
    ∃ s, run step init forkExitWait = some s ∧ s.exits = [(2, 7)] ∧
      s.waits = [⟨0, 1, some 0, 0, 2, 7⟩] ∧ ExitWait s := by
  obtain ⟨s, hs⟩ := Option.isSome_iff_exists.mp
    (show (run step init forkExitWait).isSome from by decide +kernel)
  have hhist : (run step init forkExitWait).map (fun s => (s.exits, s.waits))
      = some ([(2, 7)], [⟨0, 1, some 0, 0, 2, 7⟩]) := by decide +kernel
  rw [hs, Option.map_some, Option.some.injEq, Prod.mk.injEq] at hhist
  exact ⟨s, hs, hhist.1, hhist.2, exit_wait_agree forkExitWait s hs⟩

end Proc

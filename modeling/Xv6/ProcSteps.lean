/-
# The steps of the process table

Every step keeps the invariant of the process table.  Most steps are moves or
calm changes of a slot; the seven others create a child (`forkScan`, `forkHold`,
`forkParent`, `forkRun`), hand it to `initproc` (`exitReparent`), or end a process
(`exitZombie`, `waitScan`).
-/
import Xv6.ProcInv

namespace Proc

open Function Transition

variable {s t : St} {p : ℕ}

/-! ## The environment -/

variable {c : Pc} {i k r addr j q np : ℕ} {a : Act} {P : Slot} {status : CInt} {havekids ok : Bool}

theorem holdsLock_of_maySleep (h : c.maySleep = true) : c.holdsLock = false := by
  cases c <;> first | rfl | cases h

theorem calm_wakeup (chan : Option Chan) (k : ℕ) : Calm s p k (wakeup chan (s.proc k)) := by
  unfold wakeup
  split_ifs with hc
  · obtain ⟨hs, -⟩ := hc
    refine ⟨rfl, ?_, ?_, ?_, ?_⟩
    · rw [hs]
      rfl
    · intro hl
      rw [hs] at hl
      cases hl
    · intro _ _
      refine ⟨fun hrun => ?_, id⟩
      rw [hs] at hrun
      cases hrun
    · intro _ _ hsl
      cases hsl
  · exact Calm.refl s p k

theorem calm_setKilled (k : ℕ) : Calm s p k (setKilled (s.proc k)) := by
  unfold setKilled
  by_cases hs : (s.proc k).state = .sleeping
  · rw [if_pos hs]
    refine ⟨rfl, ?_, ?_, ?_, ?_⟩
    · rw [hs]
      rfl
    · intro hl
      rw [hs] at hl
      cases hl
    · intro _ _
      refine ⟨fun hrun => ?_, id⟩
      rw [hs] at hrun
      cases hrun
    · intro _ _ hsl
      cases hsl
  · rw [if_neg hs]
    exact ⟨rfl, rfl, fun _ => rfl, fun _ _ => ⟨id, id⟩, fun _ _ hsl => ⟨hsl, rfl⟩⟩

/-- The five things the environment does with a slot. -/
theorem environment_cases (hP : environment s i a = some P) :
    (s.proc i).state = .runnable ∧ P = { s.proc i with state := .running, chan := none } ∨
    (s.proc i).state = .running ∧ (s.pc i).holdsLock = false ∧
      P = { s.proc i with state := .runnable } ∨
    (∃ n, (s.proc i).state = .running ∧ (s.pc i).maySleep = true ∧
      P = { s.proc i with state := .sleeping, chan := some (.other n) }) ∨
    (∃ n, P = wakeup (some (.other n)) (s.proc i)) ∨
    (s.proc i).state = .running ∧ P = { s.proc i with killed := true } := by
  cases a with
  | schedule j =>
    simp only [environment] at hP
    split_ifs at hP with hc
    exact Or.inl ⟨hc, (Option.some.inj hP).symm⟩
  | yield j =>
    simp only [environment] at hP
    split_ifs at hP with hc
    exact Or.inr (Or.inl ⟨hc.1, hc.2, (Option.some.inj hP).symm⟩)
  | sleep j n =>
    simp only [environment] at hP
    split_ifs at hP with hc
    exact Or.inr (Or.inr (Or.inl ⟨n, hc.1, hc.2, (Option.some.inj hP).symm⟩))
  | wakeup j n => exact Or.inr (Or.inr (Or.inr (Or.inl ⟨n, (Option.some.inj hP).symm⟩)))
  | setkilled j =>
    simp only [environment] at hP
    split_ifs at hP with hc
    exact Or.inr (Or.inr (Or.inr (Or.inr ⟨hc.1, (Option.some.inj hP).symm⟩)))
  | call j c => cases hP
  | advance j ok => cases hP

/-- The environment makes calm changes, whoever is taken to be the actor. -/
theorem calm_environment (hP : environment s i a = some P) : Calm s p i P := by
  rcases environment_cases hP with ⟨hs, rfl⟩ | ⟨hs, hl, rfl⟩ | ⟨n, hs, hm, rfl⟩ | ⟨n, rfl⟩ | ⟨hs, rfl⟩
  · refine ⟨rfl, by rw [hs]; rfl, fun hl => ?_, fun _ _ => ⟨fun _ => rfl, id⟩,
      fun _ _ hsl => by cases hsl⟩
    rw [hs] at hl
    cases hl
  · refine ⟨rfl, by rw [hs]; rfl, fun hl => ?_, fun _ hlock => ?_, fun _ _ hsl => by cases hsl⟩
    · rw [hs] at hl
      cases hl
    · rw [hl] at hlock
      cases hlock
  · refine ⟨rfl, by rw [hs]; rfl, fun hl => ?_, fun _ hlock => ?_, fun _ hm' _ => ?_⟩
    · rw [hs] at hl
      cases hl
    · rw [holdsLock_of_maySleep hm] at hlock
      cases hlock
    · rw [hm] at hm'
      cases hm'
  · exact calm_wakeup _ i
  · exact ⟨rfl, rfl, fun _ => rfl, fun _ _ => ⟨id, id⟩, fun _ _ hsl => ⟨hsl, rfl⟩⟩

/-- A step that only changes a slot, and that no process takes. -/
theorem inv_slot (h : Inv s) (hP : ∀ p, Calm s p k P) : Inv (s.setProc k P) := by
  -- either of two processes can be taken for the actor, so the frame rule covers both
  have hne : k ≠ k + 1 := Nat.ne_of_lt (Nat.lt_succ_self k)
  have hpc : ∀ q, (s.setProc k P).pc = update s.pc q (s.pc q) :=
    fun q => (update_eq_self q s.pc).symm
  have hsleep : ∀ {r q}, r ≠ q → InWaitSleep (s.setProc k P) r → InWaitSleep s r :=
    fun {r q} hr hin => (hP q).inWaitSleep rfl (hpc q) hr hin
  have hkeeps : Keeps s (s.setProc k P) (k + 1) :=
    (hP k).keeps rfl (hpc k) hne.symm (h.pcs (k + 1)) id fun hin => Or.inl (hsleep hne hin)
  exact inv_calm h (hP (k + 1)) rfl (hpc (k + 1)) (fun _ _ hq => hq)
    ((h.pcs (k + 1)).keeps hkeeps) (fun _ hnp => hnp)
    (fun hin => Or.inl (hsleep hne.symm hin)) (fun hwake => Or.inl ⟨hwake, rfl⟩)

theorem inv_environment (h : Inv s) (hstep : environmentStep s i a = some t) : Inv t := by
  unfold environmentStep at hstep
  split_ifs at hstep
  obtain ⟨P, hP, rfl⟩ := Option.map_eq_some_iff.mp hstep
  exact inv_slot h fun _ => calm_environment hP

/-! ## Moves -/

theorem inWaitSleep_setPc (hr : r ≠ p) : InWaitSleep (s.setPc p c) r ↔ InWaitSleep s r := by
  unfold InWaitSleep St.setPc
  simp only
  rw [update_of_ne hr]

/-- A move of a process to a position that only needs it to be alive. -/
theorem inv_goto (h : Inv s) (hproc : t.proc = s.proc) (hpc : t.pc = update s.pc p c)
    (hw : t.waitLock = s.waitLock) (hp : PcOk t p c) (hc : c.forks = none ∧ c.sleeps = false)
    (hwake : (s.pc p).wakesInit = false) : Inv t :=
  inv_move h hproc hpc (Or.inl hw) hp hc fun hwake' => by rw [hwake] at hwake'; cases hwake'

theorem live_of_running (hrun : (s.proc p).state = .running) : (s.proc p).state.live = true := by
  rw [hrun]
  rfl

theorem inv_call (h : Inv s) (hrun : (s.proc p).state = .running) (hpc : s.pc p = .user)
    (c : Call) : Inv (call s p c) := by
  have hlive := live_of_running hrun
  have hwake : (s.pc p).wakesInit = false := by rw [hpc]; rfl
  cases c with
  | fork => exact inv_goto h rfl rfl rfl hlive ⟨rfl, rfl⟩ hwake
  | exit status =>
    unfold call
    split_ifs with hp
    · exact ⟨⟨h.table.outside, h.table.unused, h.table.parentLive, h.table.hasParent,
        h.table.initLive⟩, h.pcs, h.forkInj, h.zombieAsleep⟩
    · exact inv_goto h rfl rfl rfl ⟨hlive, hp⟩ ⟨rfl, rfl⟩ hwake
  | wait addr => exact inv_goto h rfl rfl rfl hlive ⟨rfl, rfl⟩ hwake
  | kill pid => exact inv_goto h rfl rfl rfl hlive ⟨rfl, rfl⟩ hwake

theorem inv_waitAcquire (h : Inv s) (hrun : (s.proc p).state = .running)
    (hwake : (s.pc p).wakesInit = false) (hstep : waitAcquire s p addr = some t) : Inv t := by
  unfold waitAcquire at hstep
  split_ifs at hstep with hfree
  cases hstep
  refine inv_move h rfl rfl (Or.inr (Or.inl hfree)) ⟨⟨hrun, rfl⟩, fun i hi => ?_⟩ ⟨rfl, rfl⟩
    fun hwake' => by rw [hwake] at hwake'; cases hwake'
  exact absurd hi (Nat.not_lt_zero i)

theorem inv_exiting (h : Inv s) (hrun : (s.proc p).state = .running)
    (hpc : s.pc p = .exiting status) (hstep : exiting s p status = some t) : Inv t := by
  have hp : PcOk s p (.exiting status) := hpc ▸ h.pcs p
  unfold exiting at hstep
  split_ifs at hstep with hfree
  cases hstep
  refine inv_move h rfl rfl (Or.inr (Or.inl hfree)) ⟨⟨hrun, rfl⟩, hp.2, fun i hi => ?_⟩ ⟨rfl, rfl⟩
    fun hwake => by rw [hpc] at hwake; cases hwake
  exact absurd hi (Nat.not_lt_zero i)

theorem inv_killScan (h : Inv s) {pid : CInt} (hrun : (s.proc p).state = .running)
    (hpc : s.pc p = .killScan pid k) (hstep : killScan s p pid k = some t) : Inv t := by
  have hlive := live_of_running hrun
  have hwake : (s.pc p).wakesInit = false := by rw [hpc]; rfl
  unfold killScan at hstep
  split_ifs at hstep with hk hlock hpid
  · cases hstep
    have hP : Calm s p k (setKilled (s.proc k)) := calm_setKilled k
    refine inv_calm h hP rfl rfl (fun _ _ hq => hq) ?_ (fun np hnp => by cases hnp)
      (fun hin => ?_) (fun hwake' => by rw [hwake] at hwake'; cases hwake')
    · exact (hP.live_eq (t := s.setProc k _) rfl p).trans hlive
    · exact absurd hin (not_inWaitSleep (by simp [St.setPc, Pc.sleeps]))
  · cases hstep
    exact inv_goto h rfl rfl rfl hlive ⟨rfl, rfl⟩ hwake
  · cases hstep
    exact inv_goto h rfl rfl rfl hlive ⟨rfl, rfl⟩ hwake

/-! ## wakeup in exit -/

/-- One round of `wakeup`: the own slot is skipped, another one is woken if it
sleeps on the channel, and after the last slot the loop ends. -/
theorem wakeupLoop_cases {chan : Option Chan} {next done : Pc}
    (hstep : wakeupLoop s p chan j next done = some t) : j = p ∧ t = s.setPc p next ∨
    j ≠ p ∧ (s.proc j).lock = false ∧ t = (s.setProc j (wakeup chan (s.proc j))).setPc p next ∨
    NPROC ≤ j ∧ t = s.setPc p done := by
  unfold wakeupLoop at hstep
  split_ifs at hstep with hj hjp hlock
  · exact Or.inl ⟨hjp, (Option.some.inj hstep).symm⟩
  · exact Or.inr (Or.inl ⟨hjp, Bool.eq_false_iff.mpr hlock, (Option.some.inj hstep).symm⟩)
  · exact Or.inr (Or.inr ⟨Nat.le_of_not_lt hj, (Option.some.inj hstep).symm⟩)

section

variable (h : Inv s)
include h

/-- A process that slept in `wait` does not do so after its turn in `wakeup`. -/
theorem not_inWaitSleep_wakeup (hlock : (s.proc j).lock = false) (hj : j ≠ p) :
    ¬ InWaitSleep ((s.setProc j (wakeup (some (.proc j)) (s.proc j))).setPc p c) j := by
  have hjOk := h.pcs j
  have hpc : ((s.setProc j (wakeup (some (.proc j)) (s.proc j))).setPc p c).pc j = s.pc j :=
    update_of_ne hj _ _
  have hproc : ((s.setProc j (wakeup (some (.proc j)) (s.proc j))).setPc p c).proc j
      = wakeup (some (.proc j)) (s.proc j) := update_self ..
  unfold InWaitSleep
  rw [hpc, hproc]
  cases hc : s.pc j <;> try exact id
  case waitLocked addr =>
    rw [hc] at hjOk
    rw [hjOk.2] at hlock
    cases hlock
  case waitAsleep addr =>
    rw [hc] at hjOk
    intro hsl
    simp only at hsl
    unfold wakeup at hsl
    split_ifs at hsl with hw
    exact hw ⟨hsl, hjOk.2 hsl⟩

theorem lt_NPROC_of_live (hi : (s.proc i).state.live = true) : i < NPROC := by
  by_contra hge
  rw [h.table.outside i (Nat.le_of_not_lt hge)] at hi
  cases hi

theorem inv_exitReparentWake (hpc : s.pc p = .exitReparentWake status k j)
    (hstep : wakeupLoop s p (some (.proc initproc)) j (.exitReparentWake status k (j + 1))
      (.exitReparent status (k + 1)) = some t) : Inv t := by
  have hp : PcOk s p (.exitReparentWake status k j) := hpc ▸ h.pcs p
  obtain ⟨hhold, hne, horphan⟩ := hp
  have hj : (s.pc p).wakesInit = true → j = initproc := by
    rw [hpc]
    intro hwake
    cases j with
    | zero => rfl
    | succ j => cases hwake
  rcases wakeupLoop_cases hstep with ⟨rfl, rfl⟩ | ⟨hjp, hlock, rfl⟩ | ⟨hge, rfl⟩
  · exact inv_move h rfl rfl (Or.inl rfl) ⟨hhold, hne, horphan⟩ ⟨rfl, rfl⟩
      fun hwake => absurd (hj hwake) hne
  · have hP : Calm s p j (wakeup (some (.proc initproc)) (s.proc j)) := calm_wakeup _ j
    refine inv_calm h hP rfl rfl (fun _ _ hq => hq) ⟨⟨?_, hhold.2⟩, hne, fun i hi => ?_⟩
      (fun np hnp => by cases hnp) (fun hin => ?_) (fun hwake => Or.inr ?_)
    · show (update s.proc j _ p).state = .running
      rw [update_of_ne hjp.symm]
      exact hhold.1
    · rw [parent_update (t := (s.setProc j _).setPc p _) rfl hP.parent]
      exact horphan i hi
    · exact absurd hin (not_inWaitSleep (by simp [St.setPc, Pc.sleeps]))
    · rw [hj hwake] at hlock hjp ⊢
      exact not_inWaitSleep_wakeup h hlock hjp
  · refine inv_move h rfl rfl (Or.inl rfl) ⟨hhold, hne, fun i hi => ?_⟩ ⟨rfl, rfl⟩ fun hwake => ?_
    · exact horphan i (Nat.le_of_lt_succ hi)
    · rw [hj hwake] at hge
      exact absurd hge (by decide)

theorem inv_exitWake {q : Option ℕ} (hpc : s.pc p = .exitWake status q j)
    (hstep : wakeupLoop s p (q.map .proc) j (.exitWake status q (j + 1)) (.exitZombie status)
      = some t) : Inv t := by
  have hp : PcOk s p (.exitWake status q j) := hpc ▸ h.pcs p
  obtain ⟨hhold, hne, horphan, hparent, hwoken⟩ := hp
  have hwake : (s.pc p).wakesInit = false := by rw [hpc]; rfl
  have hself : ∀ r, q = some r → r ≠ p := by
    intro r hr
    exact (h.table.parentLive p r (hparent.trans hr)).2
  rcases wakeupLoop_cases hstep with ⟨rfl, rfl⟩ | ⟨hjp, hlock, rfl⟩ | ⟨hge, rfl⟩
  · refine inv_goto h rfl rfl rfl ⟨hhold, hne, horphan, hparent, fun r hr hqr => ?_⟩ ⟨rfl, rfl⟩ hwake
    have hrj := hself r hqr
    rw [inWaitSleep_setPc hrj]
    exact hwoken r (by omega) hqr
  · have hP : Calm s p j (wakeup (q.map .proc) (s.proc j)) := calm_wakeup _ j
    refine inv_calm h hP rfl rfl (fun _ _ hq => hq)
      ⟨⟨?_, hhold.2⟩, hne, fun i => ?_, ?_, fun r hr hqr hin => ?_⟩
      (fun np hnp => by cases hnp) (fun hin => ?_)
      (fun hwake' => by rw [hwake] at hwake'; cases hwake')
    · show (update s.proc j _ p).state = .running
      rw [update_of_ne hjp.symm]
      exact hhold.1
    · rw [parent_update (t := (s.setProc j _).setPc p _) rfl hP.parent]
      exact horphan i
    · rw [parent_update (t := (s.setProc j _).setPc p _) rfl hP.parent]
      exact hparent
    · by_cases hrj : r = j
      · rw [hqr, hrj] at hin
        exact not_inWaitSleep_wakeup h hlock hjp hin
      · exact hwoken r (by omega) hqr (hP.inWaitSleep rfl rfl (hself r hqr) hin)
    · exact absurd hin (not_inWaitSleep (by simp [St.setPc, Pc.sleeps]))
  · refine inv_goto h rfl rfl rfl ⟨hhold, hne, horphan, fun r hr => ?_⟩ ⟨rfl, rfl⟩ hwake
    have hqr : q = some r := hparent.symm.trans hr
    rw [inWaitSleep_setPc (hself r hqr)]
    have hlt := lt_NPROC_of_live h (h.table.parentLive p r hr).1
    exact hwoken r (by omega) hqr

/-! ## wait -/

theorem inv_waitKilled (hpc : s.pc p = .waitKilled addr)
    (hstep : waitKilled s p addr = some t) : Inv t := by
  have hp : PcOk s p (.waitKilled addr) := hpc ▸ h.pcs p
  have hwake : (s.pc p).wakesInit = false := by rw [hpc]; rfl
  unfold waitKilled at hstep
  split_ifs at hstep with hlock hkilled
  · cases hstep
    exact inv_goto h rfl rfl rfl hp.1 ⟨rfl, rfl⟩ hwake
  · cases hstep
    exact inv_goto h rfl rfl rfl hp ⟨rfl, rfl⟩ hwake

theorem inv_waitRelease (hpc : s.pc p = .waitRelease) :
    Inv ({ s with waitLock := none }.setPc p .user) := by
  have hp : PcOk s p .waitRelease := hpc ▸ h.pcs p
  exact inv_move h rfl rfl (Or.inr (Or.inr hp.2)) (live_of_running hp.1) ⟨rfl, rfl⟩
    fun hwake => by rw [hpc] at hwake; cases hwake

/-- `sleep` gives up `wait_lock` while no child is a zombie. -/
theorem inv_waitSleep (hpc : s.pc p = .waitSleep addr)
    (hstep : waitSleep s p addr = some t) : Inv t := by
  have hp : PcOk s p (.waitSleep addr) := hpc ▸ h.pcs p
  obtain ⟨⟨hrun, hlock⟩, hno⟩ := hp
  unfold waitSleep at hstep
  split_ifs at hstep
  cases hstep
  have hP : Calm s p p { s.proc p with lock := true } :=
    ⟨rfl, rfl, fun _ => rfl, fun hne => absurd rfl hne, fun hne => absurd rfl hne⟩
  refine inv_calm h hP rfl rfl (fun q hq hql => ?_) ?_ (fun np hnp => by cases hnp)
    (fun _ => Or.inr ⟨hlock, hno⟩) (fun hwake => by rw [hpc] at hwake; cases hwake)
  · rw [hlock, Option.some.injEq] at hql
    exact absurd hql.symm hq
  · show (update s.proc p _ p).state = .running ∧ (update s.proc p _ p).lock = true
    rw [update_self]
    exact ⟨hrun, rfl⟩

theorem inv_waitLocked (hpc : s.pc p = .waitLocked addr) : Inv (waitLocked s p addr) := by
  have hp : PcOk s p (.waitLocked addr) := hpc ▸ h.pcs p
  have hP : Calm s p p { s.proc p with
      chan := some (.proc p), state := .sleeping, lock := false } := by
    refine ⟨rfl, ?_, fun hl => ?_, fun hne => absurd rfl hne, fun hne => absurd rfl hne⟩
    · rw [hp.1]
      rfl
    · rw [hp.1] at hl
      cases hl
  refine inv_calm h hP rfl rfl (fun _ _ hq => hq) ?_ (fun np hnp => by cases hnp)
    (fun _ => Or.inl ?_) (fun hwake => by rw [hpc] at hwake; cases hwake)
  · show (update s.proc p _ p).state.live = true ∧
      ((update s.proc p _ p).state = .sleeping →
        (update s.proc p _ p).chan = some (.proc p))
    rw [update_self]
    exact ⟨rfl, fun _ => rfl⟩
  · unfold InWaitSleep
    rw [hpc]
    trivial

/-- The scheduler's side of the last `sched` of a process. -/
theorem inv_dead (hpc : s.pc p = .dead) :
    Inv ((s.setProc p { s.proc p with lock := false }).setPc p .gone) := by
  have hp : PcOk s p .dead := hpc ▸ h.pcs p
  have hP : Calm s p p { s.proc p with lock := false } :=
    ⟨rfl, rfl, fun _ => rfl, fun hne => absurd rfl hne, fun hne => absurd rfl hne⟩
  refine inv_calm h hP rfl rfl (fun _ _ hq => hq) ?_ (fun np hnp => by cases hnp)
    (fun hin => ?_) (fun hwake => by rw [hpc] at hwake; cases hwake)
  · have hz : (s.proc p).state = .zombie := hp.1
    exact (hP.live_eq (t := s.setProc p _) rfl p).trans (by rw [hz]; rfl)
  · exact absurd hin (not_inWaitSleep (by simp [St.setPc, Pc.sleeps]))

/-! ## Ending a process -/

/-- A slot that the process `q` is forking is in use and has no zombie in it. -/
theorem used_of_forks (hq : (s.pc q).forks = some np) : (s.proc np).state = .used := by
  have hqOk := h.pcs q
  cases hc : s.pc q <;> rw [hc] at hqOk hq <;> cases hq <;> exact hqOk.2.1

/-- The parent of a slot that `q` is forking is not set, or is `q`. -/
theorem parent_of_forks (hq : (s.pc q).forks = some np) :
    (s.proc np).parent = none ∨ (s.proc np).parent = some q := by
  have hqOk := h.pcs q
  cases hc : s.pc q <;> rw [hc] at hqOk hq <;> cases hq
  · exact Or.inl hqOk.2.2
  · exact Or.inl hqOk.2.2
  · exact Or.inr hqOk.2.2

end

/-- Another process than the one that changes slot `k` relies on its own slot, of which only
the parent changes unless it is gone, on the slot it forks, and on `wait_lock`. -/
theorem keeps_of_update (hproc : t.proc = update s.proc k P) (hpc : t.pc = update s.pc p c)
    (hq : q ≠ p) (hk : q = k → P = { s.proc k with parent := P.parent } ∨
      s.pc k = .gone ∧ P.state.live = (s.proc k).state.live ∧ P.state ≠ .sleeping)
    (hfork : (s.pc q).forks = some k →
      P.state = (s.proc k).state ∧ P.parent = (s.proc k).parent)
    (hhold : s.waitLock = some q → t.waitLock = some q ∧
      (∀ i, (t.proc i).parent = (s.proc i).parent) ∧
      (∀ i, (t.proc i).state = .zombie → (s.proc i).state = .zombie) ∧
      ∀ r, InWaitSleep t r → InWaitSleep s r) : Keeps s t q := by
  have hpcq : t.pc q = s.pc q := by rw [hpc, update_of_ne hq]
  have hforkq : ∀ np, (s.pc q).forks = some np →
      (t.proc np).state = (s.proc np).state ∧ (t.proc np).parent = (s.proc np).parent := by
    intro np hnp
    rw [hproc]
    by_cases hnk : np = k
    · rw [hnk] at hnp ⊢
      rw [update_self]
      exact hfork hnp
    · rw [update_of_ne hnk]
      exact ⟨rfl, rfl⟩
  by_cases hqk : q = k
  · subst hqk
    have htq : t.proc q = P := by rw [hproc, update_self]
    rcases hk rfl with hP | ⟨hgone, hlive, hsl⟩
    · refine ⟨hpcq, ?_, fun _ hz => ?_, fun _ => ?_, fun _ hs => ?_, hforkq, hhold⟩
      · rw [htq, hP]
      · rw [htq, hP]
        exact hz
      · rw [htq, hP]
        exact ⟨id, id⟩
      · rw [htq, hP] at hs ⊢
        exact ⟨hs, rfl⟩
    · refine ⟨hpcq, ?_, fun hd => ?_, fun hl => ?_, fun _ hs => ?_, hforkq, hhold⟩
      · rw [htq, hlive]
      · rw [hgone] at hd
        cases hd
      · rw [hgone] at hl
        cases hl
      · rw [htq] at hs
        exact absurd hs hsl
  · have htq : t.proc q = s.proc q := by rw [hproc, update_of_ne hqk]
    refine ⟨hpcq, by rw [htq], fun _ hz => by rw [htq, hz], fun _ => ?_, fun _ hs => ?_, hforkq,
      hhold⟩
    · rw [htq]
      exact ⟨id, id⟩
    · rw [htq] at hs ⊢
      exact ⟨hs, rfl⟩

/-- The holder of `wait_lock` changes slot `k`. -/
theorem keeps_of_holder (hlock : s.waitLock = some p) (hproc : t.proc = update s.proc k P)
    (hpc : t.pc = update s.pc p c) (hq : q ≠ p)
    (hk : q = k → P = { s.proc k with parent := P.parent } ∨
      s.pc k = .gone ∧ P.state.live = (s.proc k).state.live ∧ P.state ≠ .sleeping)
    (hfork : (s.pc q).forks = some k →
      P.state = (s.proc k).state ∧ P.parent = (s.proc k).parent) : Keeps s t q := by
  refine keeps_of_update hproc hpc hq hk hfork fun hql => ?_
  rw [hlock, Option.some.injEq] at hql
  exact absurd hql.symm hq

/-- Only a process whose slot is put to sleep falls asleep in `wait`. -/
theorem inWaitSleep_of_update (hproc : t.proc = update s.proc k P) (hpc : t.pc = update s.pc p c)
    (hc : c.sleeps = false) (hP : P.state = .sleeping → (s.proc k).state = .sleeping)
    (hin : InWaitSleep t r) : InWaitSleep s r := by
  by_cases hrp : r = p
  · rw [hrp] at hin
    exact absurd hin (not_inWaitSleep (by rw [hpc, update_self]; exact hc))
  · unfold InWaitSleep at hin ⊢
    rw [hpc, update_of_ne hrp] at hin
    cases hpr : s.pc r <;> rw [hpr] at hin <;> try exact hin
    case waitAsleep addr =>
      simp only at hin ⊢
      rw [hproc] at hin
      by_cases hrk : r = k
      · rw [hrk, update_self] at hin
        rw [hrk]
        exact hP hin
      · rwa [update_of_ne hrk] at hin

/-- The holder of `wait_lock` is not at the start of a `wakeup(initproc)`, so no
parent of a zombie sleeps in `wait`. -/
theorem not_inWaitSleep_of_zombie (h : Inv s) (hlock : s.waitLock = some p)
    (hwake : (s.pc p).wakesInit = false) (hi : (s.proc i).parent = some r)
    (hz : (s.proc i).state = .zombie) : ¬ InWaitSleep s r := by
  intro hin
  obtain ⟨-, q, hq, hqw⟩ := h.zombieAsleep i r hi hz hin
  rw [hlock, Option.some.injEq] at hq
  rw [← hq, hwake] at hqw
  cases hqw

/-- `pp->parent = initproc` in `reparent`. -/
theorem inv_giveToInit (h : Inv s) (hpc : s.pc p = .exitReparent status k)
    (hk : (s.proc k).parent = some p)
    (hproc : t.proc = update s.proc k { s.proc k with parent := some initproc })
    (htpc : t.pc = update s.pc p (.exitReparentWake status k 0))
    (hwait : t.waitLock = s.waitLock) : Inv t := by
  have hp : PcOk s p (.exitReparent status k) := hpc ▸ h.pcs p
  obtain ⟨⟨hrun, hlock⟩, hne, horphan⟩ := hp
  have hpcp : t.pc p = .exitReparentWake status k 0 := by rw [htpc, update_self]
  have hik : initproc ≠ k := by
    intro heq
    rw [← heq, h.table.initLive.2] at hk
    cases hk
  have hparent : ∀ i, (t.proc i).parent = if i = k then some initproc else (s.proc i).parent := by
    intro i
    rw [hproc, update_apply]
    split_ifs <;> rfl
  have hstate : ∀ i, (t.proc i).state = (s.proc i).state := by
    intro i
    rw [hproc, update_apply]
    split_ifs with hi
    · rw [hi]
    · rfl
  have htable : TableInv t := by
    refine h.table.slot hproc (h.table.outside k) (fun hs => ?_) Or.inl (fun q hq => ?_)
      (fun _ _ _ hnone => by cases hnone) (fun heq => absurd heq.symm hik)
    · rw [h.table.unused k hs] at hk
      cases hk
    · cases hq
      exact ⟨h.table.initLive.1, hik⟩
  refine inv_of_keeps h p htable ?_ (fun q hq => ?_) (fun np hnp => ?_)
    (fun i r hi hz hin => ⟨?_, p, hwait.trans hlock, by rw [hpcp]; rfl⟩)
  · rw [hpcp]
    refine ⟨⟨by rw [hstate]; exact hrun, hwait.trans hlock⟩, hne, fun i hi => ?_⟩
    rw [hparent]
    split_ifs with heq
    · simpa using hne.symm
    · exact horphan i (by omega)
  · refine keeps_of_holder hlock hproc htpc hq (fun _ => Or.inl rfl) fun hfork => ?_
    rcases parent_of_forks h hfork with hnone | hself
    · rw [hk] at hnone
      cases hnone
    · rw [hk, Option.some.injEq] at hself
      exact absurd hself.symm hq
  · rw [hpcp] at hnp
    cases hnp
  · rw [hparent] at hi
    split_ifs at hi with heq
    · exact (Option.some.inj hi).symm
    · rw [hstate] at hz
      have hins := inWaitSleep_of_update hproc htpc rfl id hin
      exact absurd hins (not_inWaitSleep_of_zombie h hlock (by rw [hpc]; rfl) hi hz)

theorem inv_exitReparent (h : Inv s)
    (hpc : s.pc p = .exitReparent status k) : Inv (exitReparent s p status k) := by
  have hp : PcOk s p (.exitReparent status k) := hpc ▸ h.pcs p
  obtain ⟨hhold, hne, horphan⟩ := hp
  have hwake : (s.pc p).wakesInit = false := by rw [hpc]; rfl
  unfold exitReparent
  split_ifs with hk hparent
  · exact inv_giveToInit h hpc hparent rfl rfl rfl
  · refine inv_goto h rfl rfl rfl ⟨hhold, hne, fun i hi => ?_⟩ ⟨rfl, rfl⟩ hwake
    rcases Nat.lt_succ_iff_lt_or_eq.mp hi with hlt | rfl
    · exact horphan i hlt
    · exact hparent
  · refine inv_goto h rfl rfl rfl ⟨hhold, hne, fun i => ?_, rfl, fun r hr => ?_⟩ ⟨rfl, rfl⟩ hwake
    · by_cases hik : i < k
      · exact horphan i hik
      · show (s.proc i).parent ≠ some p
        rw [h.table.unused i (h.table.outside i (by omega))]
        simp
    · exact absurd hr (Nat.not_lt_zero r)

/-- `exit` makes its process a zombie: it has no children any more, and its parent
has been woken. -/
theorem inv_exitZombie (h : Inv s) (hpc : s.pc p = .exitZombie status)
    (hstep : exitZombie s p status = some t) : Inv t := by
  have hp : PcOk s p (.exitZombie status) := hpc ▸ h.pcs p
  obtain ⟨⟨hrun, hlock⟩, hne, horphan, hwoken⟩ := hp
  have hwake : (s.pc p).wakesInit = false := by rw [hpc]; rfl
  unfold exitZombie at hstep
  split_ifs at hstep with hfree
  obtain ⟨P, hPz, hPp, hPl, hproc⟩ : ∃ P : Slot, P.state = .zombie ∧
      P.parent = (s.proc p).parent ∧ P.lock = true ∧ t.proc = update s.proc p P := by
    cases hstep
    exact ⟨{ s.proc p with xstate := status, state := .zombie, lock := true }, rfl, rfl, rfl, rfl⟩
  have htpc : t.pc = update s.pc p .dead := by cases hstep; rfl
  have hpcp : t.pc p = .dead := by rw [htpc, update_self]
  have htp : t.proc p = P := by rw [hproc, update_self]
  have hother : ∀ i, i ≠ p → t.proc i = s.proc i := fun i hi => by
    rw [hproc, update_of_ne hi]
  have hparent := parent_update hproc hPp
  have hz : P.state ≠ .unused := by simp [hPz]
  have hlt := lt_NPROC_of_live h (live_of_running hrun)
  have htable : TableInv t := by
    refine h.table.slot hproc (fun hk => absurd hk (Nat.not_le_of_lt hlt)) (fun hs => absurd hs hz)
      (fun _ => Or.inr horphan) (fun q hq => h.table.parentLive p q (hPp ▸ hq)) (fun _ _ _ => ?_)
      (fun heq => absurd heq hne)
    rw [hPp]
    exact h.table.hasParent p hne (by simp [hrun]) (by simp [hrun])
  refine inv_of_keeps h p htable ?_ (fun q hq => ?_) (fun np hnp => ?_)
    (fun i r hi hz hin => ?_)
  · rw [hpcp]
    exact ⟨by rw [htp, hPz], by rw [htp, hPl]⟩
  · refine keeps_of_holder hlock hproc htpc hq (fun heq => absurd heq hq) fun hfork => ?_
    have hused := used_of_forks h hfork
    rw [hrun] at hused
    cases hused
  · rw [hpcp] at hnp
    cases hnp
  · rw [hparent] at hi
    have hins : InWaitSleep s r :=
      inWaitSleep_of_update hproc htpc rfl (fun hs => by rw [hPz] at hs; cases hs) hin
    by_cases hip : i = p
    · rw [hip] at hi
      exact absurd hins (hwoken r hi)
    · rw [hother i hip] at hz
      exact absurd hins (not_inWaitSleep_of_zombie h hlock hwake hi hz)

/-- `wait` frees the slot of a zombie child. -/
theorem inv_reap (h : Inv s) (hpc : s.pc p = .waitScan addr k havekids)
    (hk : (s.proc k).parent = some p) (hz : (s.proc k).state = .zombie)
    (hfree : (s.proc k).lock = false) (hproc : t.proc = update s.proc k (freeproc (s.proc k)))
    (htpc : t.pc = update s.pc p .waitRelease) (hwait : t.waitLock = s.waitLock) : Inv t := by
  have hp : PcOk s p (.waitScan addr k havekids) := hpc ▸ h.pcs p
  obtain ⟨⟨hrun, hlock⟩, -⟩ := hp
  have hwake : (s.pc p).wakesInit = false := by rw [hpc]; rfl
  have hpcp : t.pc p = .waitRelease := by rw [htpc, update_self]
  have htk : t.proc k = freeproc (s.proc k) := by rw [hproc, update_self]
  have hother : ∀ i, i ≠ k → t.proc i = s.proc i := fun i hi => by
    rw [hproc, update_of_ne hi]
  have hpk : p ≠ k := (h.table.parentLive k p hk).2
  -- the process in the slot has left its last `sched`
  have hgone : s.pc k = .gone := by
    have hkOk := h.pcs k
    cases hc : s.pc k <;> rw [hc] at hkOk <;> simp [PcOk, Holder, hz, hfree, ProcState.live] at hkOk
  have htable : TableInv t := by
    refine h.table.slot hproc (fun _ => rfl) (fun _ => rfl) (fun hl => ?_) (fun q hq => by cases hq)
      (fun _ hun => absurd rfl hun) (fun heq => ?_)
    · rw [hz] at hl
      cases hl
    · rw [heq, h.table.initLive.2] at hk
      cases hk
  refine inv_of_keeps h p htable ?_ (fun q hq => ?_) (fun np hnp => ?_)
    (fun i r hi hzi hin => ?_)
  · rw [hpcp]
    exact ⟨by rw [hother p hpk]; exact hrun, hwait.trans hlock⟩
  · refine keeps_of_holder hlock hproc htpc hq (fun _ => Or.inr ⟨hgone, ?_, ?_⟩) fun hfork => ?_
    · rw [hz]
      rfl
    · exact fun hs => by cases hs
    · have hused := used_of_forks h hfork
      rw [hz] at hused
      cases hused
  · rw [hpcp] at hnp
    cases hnp
  · have hik : i ≠ k := by
      intro heq
      rw [heq, htk] at hzi
      cases hzi
    rw [hother i hik] at hi hzi
    have hins : InWaitSleep s r :=
      inWaitSleep_of_update hproc htpc rfl (fun hs => by cases hs) hin
    exact absurd hins (not_inWaitSleep_of_zombie h hlock hwake hi hzi)

theorem inv_waitScan (h : Inv s) (hpc : s.pc p = .waitScan addr k havekids)
    (hstep : waitScan s p addr k havekids ok = some t) : Inv t := by
  have hp : PcOk s p (.waitScan addr k havekids) := hpc ▸ h.pcs p
  obtain ⟨hhold, hno⟩ := hp
  have hwake : (s.pc p).wakesInit = false := by rw [hpc]; rfl
  have hsucc : ((s.proc k).parent = some p → (s.proc k).state ≠ .zombie) →
      ∀ i < k + 1, (s.proc i).parent = some p → (s.proc i).state ≠ .zombie := by
    intro hk i hi
    rcases Nat.lt_succ_iff_lt_or_eq.mp hi with hlt | rfl
    · exact hno i hlt
    · exact hk
  unfold waitScan at hstep
  split_ifs at hstep with hk hparent hlock hz hcopy hkids
  · cases hstep
    exact inv_goto h rfl rfl rfl hhold ⟨rfl, rfl⟩ hwake
  · cases hstep
    exact inv_reap h hpc hparent hz (Bool.eq_false_iff.mpr hlock) rfl rfl rfl
  · cases hstep
    exact inv_goto h rfl rfl rfl ⟨hhold, hsucc fun _ => hz⟩ ⟨rfl, rfl⟩ hwake
  · cases hstep
    exact inv_goto h rfl rfl rfl ⟨hhold, hsucc fun hpar => absurd hpar hparent⟩ ⟨rfl, rfl⟩ hwake
  · cases hstep
    refine inv_goto h rfl rfl rfl ⟨hhold, fun i => ?_⟩ ⟨rfl, rfl⟩ hwake
    show (s.proc i).parent = some p → (s.proc i).state ≠ .zombie
    by_cases hik : i < k
    · exact hno i hik
    · rw [h.table.outside i (by omega)]
      simp
  · cases hstep
    exact inv_goto h rfl rfl rfl hhold ⟨rfl, rfl⟩ hwake

/-! ## Creating a process -/

/-- Nobody runs in a slot that is free or being set up. -/
theorem gone_of_fresh (h : Inv s)
    (hk : (s.proc k).state = .unused ∨ (s.proc k).state = .used) : s.pc k = .gone := by
  have hkOk := h.pcs k
  rcases hk with hk | hk <;>
    (cases hc : s.pc k <;> rw [hc] at hkOk <;> simp [PcOk, Holder, hk, ProcState.live] at hkOk)

/-- A change of a slot that nobody runs in or forks into. -/
theorem keeps_of_fresh {a : ℕ} (hproc : t.proc = update s.proc k P) (hpc : t.pc = update s.pc a c)
    (hwait : t.waitLock = s.waitLock) (hc : c.sleeps = false) (hq : q ≠ a)
    (hk : q = k → s.pc k = .gone ∧ P.state.live = (s.proc k).state.live)
    (hfork : (s.pc q).forks ≠ some k) (hz : P.state ≠ .zombie) (hsl : P.state ≠ .sleeping)
    (hparent : s.waitLock = some q → P.parent = (s.proc k).parent) : Keeps s t q := by
  refine keeps_of_update hproc hpc hq (fun hqk => Or.inr ⟨(hk hqk).1, (hk hqk).2, hsl⟩)
    (fun hf => absurd hf hfork)
    (fun hql => ⟨hwait.trans hql, parent_update hproc (hparent hql), fun i hi => ?_, fun r hin => ?_⟩)
  · rw [hproc] at hi
    by_cases hik : i = k
    · rw [hik, update_self] at hi
      exact absurd hi hz
    · rwa [update_of_ne hik] at hi
  · exact inWaitSleep_of_update hproc hpc hc (fun hs => absurd hs hsl) hin

/-- A change of a slot that leaves it without a running process. -/
theorem TableInv.fresh (h : TableInv s) (hproc : t.proc = update s.proc k P) (hk : k < NPROC)
    (hs : (s.proc k).state.live = false) (hP : P.state = .unused ∨ P.state = .used)
    (hunused : P.state = .unused → P.parent = none)
    (hparent : ∀ q, P.parent = some q → (s.proc q).state.live = true) : TableInv t := by
  refine h.slot hproc (fun hge => absurd hge (Nat.not_le_of_lt hk)) hunused (fun hl => ?_)
    (fun q hq => ⟨hparent q hq, fun heq => ?_⟩) (fun _ hun hus => (hP.elim hun hus).elim)
    (fun heq => ?_)
  · rw [hs] at hl
    cases hl
  · have hl := hparent q hq
    rw [heq, hs] at hl
    cases hl
  · rw [heq, h.initLive.1] at hs
    cases hs

/-- Steps of `fork` on the new slot keep the other zombies and sleepers as they are. -/
theorem zombieAsleep_fresh (h : Inv s) {a : ℕ} (hproc : t.proc = update s.proc k P)
    (hpc : t.pc = update s.pc a c) (hwait : t.waitLock = s.waitLock) (hc : c.sleeps = false)
    (ha : (s.pc a).wakesInit = false) (hz : P.state ≠ .zombie) (hsl : P.state ≠ .sleeping) :
    ∀ i r, (t.proc i).parent = some r → (t.proc i).state = .zombie →
      InWaitSleep t r → r = initproc ∧ ∃ q, t.waitLock = some q ∧ (t.pc q).wakesInit := by
  intro i r hi hzi hin
  have hik : i ≠ k := by
    intro heq
    rw [heq, hproc, update_self] at hzi
    exact hz hzi
  rw [hproc, update_of_ne hik] at hi hzi
  have hins : InWaitSleep s r :=
    inWaitSleep_of_update hproc hpc hc (fun hs => absurd hs hsl) hin
  obtain ⟨hr, q, hq, hwake⟩ := h.zombieAsleep i r hi hzi hins
  have hqa : q ≠ a := by
    intro heq
    rw [heq, ha] at hwake
    cases hwake
  exact ⟨hr, q, hwait.trans hq, by rw [hpc, update_of_ne hqa]; exact hwake⟩

theorem inv_forkScan (h : Inv s) (hrun : (s.proc p).state = .running) (hpc : s.pc p = .forkScan k)
    (hstep : forkScan s p k = some t) : Inv t := by
  have hwake : (s.pc p).wakesInit = false := by rw [hpc]; rfl
  have hlive := live_of_running hrun
  unfold forkScan at hstep
  split_ifs at hstep with hk hlock hun
  · -- the slot is free: take it
    have hproc : t.proc = update s.proc k
        { s.proc k with pid := s.nextpid, state := .used, lock := true } := by cases hstep; rfl
    have htpc : t.pc = update s.pc p (.forkHold k) := by cases hstep; rfl
    have hwait : t.waitLock = s.waitLock := by cases hstep; rfl
    have hpcp : t.pc p = .forkHold k := by rw [htpc, update_self]
    have hparent := h.table.unused k hun
    have hnone : ∀ q, (s.pc q).forks ≠ some k := by
      intro q hq
      have hused := used_of_forks h hq
      rw [hun] at hused
      cases hused
    have hpk : p ≠ k := by
      intro heq
      rw [heq, hun] at hrun
      cases hrun
    refine inv_of_keeps h p (h.table.fresh hproc hk (by rw [hun]; rfl) (Or.inr rfl)
        (fun hs => by cases hs) fun q hq => ?_) ?_ (fun q hq => ?_) (fun np hnp => Or.inr ?_)
      (zombieAsleep_fresh h hproc htpc hwait rfl hwake (fun hs => by cases hs) fun hs => by cases hs)
    · rw [show _ = (s.proc k).parent from rfl, hparent] at hq
      cases hq
    · rw [hpcp, PcOk, hproc, update_of_ne hpk, update_self]
      exact ⟨hrun, rfl, hparent⟩
    · exact keeps_of_fresh hproc htpc hwait rfl hq
        (fun _ => ⟨gone_of_fresh h (Or.inl hun), by rw [hun]; rfl⟩) (hnone q)
        (fun hs => by cases hs) (fun hs => by cases hs) fun _ => rfl
    · rw [hpcp] at hnp
      cases hnp
      exact hnone
  · cases hstep
    exact inv_goto h rfl rfl rfl hlive ⟨rfl, rfl⟩ hwake
  · cases hstep
    exact inv_goto h rfl rfl rfl hlive ⟨rfl, rfl⟩ hwake

/-- Nobody else forks into the slot. -/
theorem forks_ne (h : Inv s) (hp : (s.pc p).forks = some np) (hq : q ≠ p) :
    (s.pc q).forks ≠ some np :=
  fun hqnp => hq (h.forkInj q p np hqnp hp)

/-- The slot that is forked into is in the table. -/
theorem lt_NPROC_of_used (h : Inv s) (hnp : (s.proc np).state = .used) : np < NPROC := by
  by_contra hge
  rw [h.table.outside np (Nat.le_of_not_lt hge)] at hnp
  cases hnp

theorem inv_forkHold (h : Inv s) (ok : Bool) (hpc : s.pc p = .forkHold np) :
    Inv (forkHold s p np ok) := by
  have hp : PcOk s p (.forkHold np) := hpc ▸ h.pcs p
  obtain ⟨hrun, hused, hparent⟩ := hp
  have hwake : (s.pc p).wakesInit = false := by rw [hpc]; rfl
  have hgone := gone_of_fresh h (Or.inr hused)
  have hpnp : p ≠ np := by
    intro heq
    rw [heq, hused] at hrun
    cases hrun
  cases ok with
  | true =>
    have hP : Calm s p np { s.proc np with lock := false } := by
      refine ⟨rfl, rfl, fun _ => rfl, fun _ hl => ?_, fun _ _ hs => ?_⟩
      · rw [hgone] at hl
        cases hl
      · exact ⟨hs, rfl⟩
    refine inv_calm h hP rfl rfl (fun _ _ hq => hq) ?_ (fun n hn => ?_) (fun hin => ?_)
      (fun hwake' => by rw [hwake] at hwake'; cases hwake')
    · show (update s.proc np _ p).state.live = true ∧
        (update s.proc np _ np).state = .used ∧
        (update s.proc np _ np).parent = none
      rw [update_of_ne hpnp, update_self]
      exact ⟨live_of_running hrun, hused, hparent⟩
    · rw [hpc]
      exact hn
    · exact absurd hin (not_inWaitSleep (by simp [forkHold, St.setPc, Pc.sleeps]))
  | false =>
    have hproc : (forkHold s p np false).proc
        = update s.proc np { freeproc (s.proc np) with lock := false } := rfl
    have htpc : (forkHold s p np false).pc = update s.pc p .user := rfl
    have hpcp : (forkHold s p np false).pc p = .user := update_self ..
    refine inv_of_keeps h p (h.table.fresh hproc (lt_NPROC_of_used h hused) (by rw [hused]; rfl)
        (Or.inl rfl) (fun _ => rfl) fun q hq => by cases hq) ?_ (fun q hq => ?_) (fun n hn => ?_)
      (zombieAsleep_fresh h hproc htpc rfl rfl hwake (fun hs => by cases hs) fun hs => by cases hs)
    · rw [hpcp, PcOk, hproc, update_of_ne hpnp]
      exact live_of_running hrun
    · exact keeps_of_fresh hproc htpc rfl rfl hq
        (fun _ => ⟨hgone, by rw [hused]; rfl⟩) (forks_ne h (by rw [hpc]; rfl) hq)
        (fun hs => by cases hs) (fun hs => by cases hs) fun _ => hparent.symm
    · rw [hpcp] at hn
      cases hn

theorem inv_forkParent (h : Inv s) (hrun : (s.proc p).state = .running)
    (hpc : s.pc p = .forkParent np) (hstep : forkParent s p np = some t) : Inv t := by
  have hp : PcOk s p (.forkParent np) := hpc ▸ h.pcs p
  obtain ⟨hlive, hused, -⟩ := hp
  have hwake : (s.pc p).wakesInit = false := by rw [hpc]; rfl
  have hpnp : p ≠ np := by
    intro heq
    rw [heq, hused] at hrun
    cases hrun
  unfold forkParent at hstep
  split_ifs at hstep with hfree
  have hproc : t.proc = update s.proc np { s.proc np with parent := some p } := by
    cases hstep
    rfl
  have htpc : t.pc = update s.pc p (.forkRun np) := by cases hstep; rfl
  have hwait : t.waitLock = s.waitLock := by cases hstep; rfl
  have hpcp : t.pc p = .forkRun np := by rw [htpc, update_self]
  have hz : (s.proc np).state ≠ .zombie := by rw [hused]; simp
  have hsl : (s.proc np).state ≠ .sleeping := by rw [hused]; simp
  refine inv_of_keeps h p (h.table.fresh hproc (lt_NPROC_of_used h hused) (by rw [hused]; rfl)
      (Or.inr hused) (fun hs => ?_) fun q hq => ?_) ?_ (fun q hq => ?_) (fun n hn => Or.inl ?_)
    (zombieAsleep_fresh h hproc htpc hwait rfl hwake hz hsl)
  · rw [show _ = (s.proc np).state from rfl, hused] at hs
    cases hs
  · cases hq
    exact hlive
  · rw [hpcp, PcOk, hproc, update_of_ne hpnp, update_self]
    exact ⟨hlive, hused, rfl⟩
  · refine keeps_of_fresh hproc htpc hwait rfl hq
      (fun _ => ⟨gone_of_fresh h (Or.inr hused), rfl⟩) (forks_ne h (by rw [hpc]; rfl) hq) hz hsl
      fun hql => ?_
    rw [hfree] at hql
    cases hql
  · rw [hpcp] at hn
    rw [hpc]
    exact hn

/-- A slot with a parent that nobody forks into any more starts to run. -/
theorem inv_start (h : Inv s) (hused : (s.proc np).state = .used)
    (hparent : (s.proc np).parent ≠ none) (hforks : ∀ q, (s.pc q).forks ≠ some np)
    (hproc : t.proc = update s.proc np { s.proc np with state := .runnable })
    (htpc : t.pc = update s.pc np .user) (hwait : t.waitLock = s.waitLock) : Inv t := by
  have hpcp : t.pc np = .user := by rw [htpc, update_self]
  have htnp : (t.proc np).state = .runnable := by rw [hproc, update_self]
  have hlt := lt_NPROC_of_used h hused
  have hgone := gone_of_fresh h (Or.inr hused)
  have htable : TableInv t := by
    refine h.table.slot hproc (fun hge => absurd hge (Nat.not_le_of_lt hlt)) (fun hs => by cases hs)
      (fun _ => Or.inl rfl) (h.table.parentLive np) (fun _ _ _ => hparent) (fun heq => ?_)
    rw [heq] at hparent
    exact absurd h.table.initLive.2 hparent
  refine inv_of_keeps h np htable ?_ (fun q hq => ?_) (fun n hn => ?_)
    (zombieAsleep_fresh h hproc htpc hwait rfl (by rw [hgone]; rfl) (fun hs => by cases hs)
      fun hs => by cases hs)
  · rw [hpcp, PcOk, htnp]
    rfl
  · exact keeps_of_fresh hproc htpc hwait rfl hq (fun heq => absurd heq hq) (hforks q)
      (fun hs => by cases hs) (fun hs => by cases hs) fun _ => rfl
  · rw [hpcp] at hn
    cases hn

theorem inv_forkRun (h : Inv s) (hpc : s.pc p = .forkRun np)
    (hstep : forkRun s p np = some t) : Inv t := by
  have hp : PcOk s p (.forkRun np) := hpc ▸ h.pcs p
  obtain ⟨hlive, hused, hparent⟩ := hp
  have hpnp : p ≠ np := (h.table.parentLive np p hparent).2
  unfold forkRun at hstep
  split_ifs at hstep
  cases hstep
  -- first `p` returns from `fork`, then the child starts
  have hreturn : Inv (s.setPc p .user) :=
    inv_goto h rfl rfl rfl hlive ⟨rfl, rfl⟩ (by rw [hpc]; rfl)
  have hset : (s.proc np).parent ≠ none := by rw [hparent]; simp
  refine inv_start hreturn hused hset (fun q hq => ?_) rfl
    (update_comm hpnp _ _ _).symm rfl
  by_cases hqp : q = p
  · rw [hqp, show (s.setPc p .user).pc p = .user from update_self ..] at hq
    cases hq
  · rw [show (s.setPc p .user).pc q = s.pc q from update_of_ne hqp ..] at hq
    exact forks_ne h (by rw [hpc]; rfl) hqp hq

/-! ## Every step -/

theorem inv_advance (h : Inv s) (hrun : (s.proc p).state = .running)
    (hstep : advance s p ok = some t) : Inv t := by
  unfold advance at hstep
  cases hpc : s.pc p <;> rw [hpc] at hstep <;> simp only at hstep
  case gone => cases hstep
  case user => cases hstep
  case dead => cases hstep
  case forkScan k => exact inv_forkScan h hrun hpc hstep
  case forkHold np =>
    cases hstep
    exact inv_forkHold h ok hpc
  case forkParent np => exact inv_forkParent h hrun hpc hstep
  case forkRun np => exact inv_forkRun h hpc hstep
  case exiting status => exact inv_exiting h hrun hpc hstep
  case exitReparent status k =>
    cases hstep
    exact inv_exitReparent h hpc
  case exitReparentWake status k j => exact inv_exitReparentWake h hpc hstep
  case exitWake status q j => exact inv_exitWake h hpc hstep
  case exitZombie status => exact inv_exitZombie h hpc hstep
  case waitStart addr => exact inv_waitAcquire h hrun (by rw [hpc]; rfl) hstep
  case waitScan addr k havekids => exact inv_waitScan h hpc hstep
  case waitKilled addr => exact inv_waitKilled h hpc hstep
  case waitSleep addr => exact inv_waitSleep h hpc hstep
  case waitLocked addr =>
    cases hstep
    exact inv_waitLocked h hpc
  case waitAsleep addr => exact inv_waitAcquire h hrun (by rw [hpc]; rfl) hstep
  case waitRelease =>
    cases hstep
    exact inv_waitRelease h hpc
  case killScan pid k => exact inv_killScan h hrun hpc hstep

/-- **Every step keeps the invariant of the process table.** -/
theorem inv_step (h : Inv s) (hstep : step s a = some t) : Inv t := by
  unfold step at hstep
  split_ifs at hstep
  cases a with
  | schedule i => exact inv_environment h hstep
  | yield i => exact inv_environment h hstep
  | sleep i n => exact inv_environment h hstep
  | wakeup i n => exact inv_environment h hstep
  | setkilled i => exact inv_environment h hstep
  | call p c =>
    simp only at hstep
    split_ifs at hstep with hc
    cases hstep
    exact inv_call h hc.1 hc.2 c
  | advance p ok =>
    simp only at hstep
    split_ifs at hstep with hrun hdead
    · exact inv_advance h hrun hstep
    · cases hstep
      exact inv_dead h hdead

theorem inv_init : Inv init := by
  have hproc : ∀ i, i ≠ initproc → init.proc i = Slot.empty := by
    intro i hi
    simp only [init, update_of_ne hi]
  have hparent : ∀ i, (init.proc i).parent = none := by
    intro i
    by_cases hi : i = initproc
    · rw [hi]
      rfl
    · rw [hproc i hi]
      rfl
  have hpc : ∀ p, init.pc p = if p = initproc then .user else .gone := by
    intro p
    simp only [init, update_apply]
  refine ⟨⟨fun i hi => ?_, fun i _ => hparent i, fun i q hi => ?_, fun i hi hun => ?_, ?_⟩,
    fun p => ?_, fun p q np hp => ?_, fun i r hi => ?_⟩
  · have hne : i ≠ initproc := by
      intro heq
      rw [heq] at hi
      exact absurd hi (by decide)
    rw [hproc i hne]
    rfl
  · rw [hparent] at hi
    cases hi
  · rw [hproc i hi] at hun
    exact absurd rfl hun
  · exact ⟨rfl, rfl⟩
  · rw [hpc]
    by_cases hp : p = initproc
    · rw [if_pos hp, hp]
      rfl
    · rw [if_neg hp, PcOk, hproc p hp]
      rfl
  · rw [hpc] at hp
    split_ifs at hp <;> cases hp
  · rw [hparent] at hi
    cases hi

/-- **`initproc` lives** in every state of every run, without a parent, and no two calls of
`fork` make their child in the same slot. -/
theorem init_lives (as : List Act) :
    Always step (fun s => (s.proc initproc).state.live ∧ (s.proc initproc).parent = none ∧
      ∀ p q np, (s.pc p).forks = some np → (s.pc q).forks = some np → p = q) init as :=
  always_of_step (fun _ _ _ h hstep => inv_step h hstep)
    (fun _ h => ⟨h.table.initLive.1, h.table.initLive.2, h.forkInj⟩) as _ inv_init

end Proc

/-
# What one step does to the process table

Most steps of the process machine are mild: they change one slot without filling or
freeing it, and leave pids, exit statuses and the history as they are.  The others are
the ones that count: `allocproc` and the end of `fork`, the last part of `exit`, a
successful `wait`, and the end of `kill`.  `step_effect` says so once for all.
-/
import Xv6.ProcSteps

namespace Proc

open Function

/-- The fields that record what happened. -/
def St.history (s : St) :=
  (s.nextpid, s.exits, s.exitOf, s.waits, s.kills, s.births)

/-- The slot holds the same process in a state of the same kind, or none. -/
structure Alike (P Q : Slot) : Prop where
  pid : Q.pid = P.pid
  xstate : Q.xstate = P.xstate
  unused : Q.state = .unused ↔ P.state = .unused
  zombie : Q.state = .zombie ↔ P.state = .zombie
  killed : Q.state = .unused → Q.killed = P.killed

/-- A mild step, which gives slot `k` the content `Q`: the slot was not locked, or
keeps `killed` and `lock`, or is not one that `fork` sets up. -/
structure Mild (s t : St) (k : ℕ) (Q : Slot) : Prop where
  proc : t.proc = update s.proc k Q
  alike : Alike (s.proc k) Q
  history : t.history = s.history
  holds : ∀ q np, t.pc q = .forkHold np → s.pc q = .forkHold np
  keep : (s.proc k).lock = false ∨
    Q.killed = (s.proc k).killed ∧ Q.lock = (s.proc k).lock ∨ ∀ q, s.pc q ≠ .forkHold k

/-- What a step does to the table and to the history. -/
inductive Effect (s t : St) : Act → Prop where
  | mild {a : Act} {k : ℕ} {Q : Slot} (h : Mild s t k Q) : Effect s t a
  | alloc {p k : ℕ} {ok : Bool} (hpc : s.pc p = .forkScan k) (hk : k < NPROC)
      (hlock : (s.proc k).lock = false) (hun : (s.proc k).state = .unused)
      (ht : t = ({ s with nextpid := s.nextpid + 1 }.setProc k
        { s.proc k with pid := s.nextpid, state := .used, lock := true }).setPc p (.forkHold k)) :
      Effect s t (.advance p ok)
  | made {p np : ℕ} {ok : Bool} (hpc : s.pc p = .forkHold np) (ht : t = forkHold s p np ok) :
      Effect s t (.advance p ok)
  | exited {p : ℕ} {status : CInt} {ok : Bool} (hrun : (s.proc p).state = .running)
      (ht : exitZombie s p status = some t) : Effect s t (.advance p ok)
  | reaped {p k : ℕ} {ok : Bool} (hk : k < NPROC) (hparent : (s.proc k).parent = some p)
      (hlock : (s.proc k).lock = false) (hz : (s.proc k).state = .zombie)
      (ht : t = ({ s with waits := s.waits ++ [waitRecord s p k] }.setProc k
        (freeproc (s.proc k))).setPc p .waitRelease) : Effect s t (.advance p ok)
  | hit {p k : ℕ} {pid : CInt} {ok : Bool} (hpc : s.pc p = .killScan pid k) (hk : k < NPROC)
      (hlock : (s.proc k).lock = false) (hpid : (s.proc k).pid = pid)
      (ht : t = ({ s with kills := s.kills ++ [Kill.mk pid 0 (hasPid s pid)] }.setProc k
        (setKilled (s.proc k))).setPc p .user) : Effect s t (.advance p ok)
  | missed {p : ℕ} {pid : CInt} {ok : Bool}
      (ht : t = { s with kills := s.kills ++ [Kill.mk pid (-1) (hasPid s pid)] }.setPc p .user) :
      Effect s t (.advance p ok)

/-- The position is that of `fork` with the lock of the new slot held. -/
def Pc.isForkHold : Pc → Bool
  | .forkHold _ => true
  | _ => false

variable {s t : St} {p k : ℕ} {a : Act}

/-- Moving to another position. -/
theorem forkHold_of_setPc {c : Pc} (hc : c.isForkHold = false) :
    ∀ q np, update s.pc p c q = .forkHold np → s.pc q = .forkHold np := by
  intro q np hq
  by_cases hqp : q = p
  · rw [hqp, update_self] at hq
    rw [hq] at hc
    cases hc
  · rwa [update_of_ne hqp] at hq

/-- Nobody sets up a slot whose process runs or has exited. -/
theorem forkHold_ne (hinv : Inv s) (hk : (s.proc k).state ≠ .used) (q : ℕ) : s.pc q ≠ .forkHold k :=
  fun hq => hk (used_of_forks hinv (by rw [hq]; rfl))

theorem history_eq_iff : t.history = s.history ↔ t.nextpid = s.nextpid ∧ t.exits = s.exits ∧
    t.exitOf = s.exitOf ∧ t.waits = s.waits ∧ t.kills = s.kills ∧ t.births = s.births := by
  simp [St.history]

theorem Alike.refl (P : Slot) : Alike P P :=
  ⟨rfl, rfl, Iff.rfl, Iff.rfl, fun _ => rfl⟩

theorem alike_wakeup (chan : Option Chan) (P : Slot) : Alike P (wakeup chan P) := by
  unfold wakeup
  split_ifs with hc
  · exact ⟨rfl, rfl, by simp [hc.1], by simp [hc.1], fun h => by cases h⟩
  · exact Alike.refl P

theorem setKilled_state (P : Slot) : ((setKilled P).state = .unused ↔ P.state = .unused) ∧
    ((setKilled P).state = .zombie ↔ P.state = .zombie) := by
  unfold setKilled
  by_cases hs : P.state = .sleeping
  · simp [hs]
  · simp [hs]

/-- A step to another position that leaves the table alone. -/
theorem effect_move (hproc : t.proc = s.proc) (hhist : t.history = s.history)
    (hpc : ∀ q np, t.pc q = .forkHold np → s.pc q = .forkHold np) : Effect s t a :=
  .mild (k := initproc) (Q := s.proc initproc) ⟨by rw [update_eq_self, hproc], Alike.refl _, hhist,
    hpc, Or.inr (Or.inl ⟨rfl, rfl⟩)⟩

theorem effect_environment {i : ℕ} (hstep : environmentStep s i a = some t) : Effect s t a := by
  unfold environmentStep at hstep
  split_ifs at hstep with hlock
  obtain ⟨P, hP, rfl⟩ := Option.map_eq_some_iff.mp hstep
  refine .mild ⟨rfl, ?_, rfl, fun _ _ hq => hq, Or.inl (Bool.eq_false_iff.mpr hlock)⟩
  rcases environment_cases hP with ⟨hs, rfl⟩ | ⟨hs, -, rfl⟩ | ⟨n, hs, -, rfl⟩ | ⟨n, rfl⟩ | ⟨hs, rfl⟩
  · exact ⟨rfl, rfl, by simp [hs], by simp [hs], fun h => by cases h⟩
  · exact ⟨rfl, rfl, by simp [hs], by simp [hs], fun h => by cases h⟩
  · exact ⟨rfl, rfl, by simp [hs], by simp [hs], fun h => by cases h⟩
  · exact alike_wakeup _ _
  · exact ⟨rfl, rfl, Iff.rfl, Iff.rfl, fun h => by simp [hs] at h⟩

theorem effect_wakeupLoop {chan : Option Chan} {j : ℕ} {next done : Pc}
    (hnext : next.isForkHold = false) (hdone : done.isForkHold = false)
    (hstep : wakeupLoop s p chan j next done = some t) : Effect s t a := by
  rcases wakeupLoop_cases hstep with ⟨-, rfl⟩ | ⟨-, hlock, rfl⟩ | ⟨-, rfl⟩
  · exact effect_move rfl rfl (forkHold_of_setPc hnext)
  · exact .mild ⟨rfl, alike_wakeup _ _, rfl, forkHold_of_setPc hnext, Or.inl hlock⟩
  · exact effect_move rfl rfl (forkHold_of_setPc hdone)

theorem effect_advance (hinv : Inv s) {ok : Bool} (hrun : (s.proc p).state = .running)
    (hstep : advance s p ok = some t) : Effect s t (.advance p ok) := by
  have hp := hinv.pcs p
  unfold advance at hstep
  cases hpc : s.pc p <;> rw [hpc] at hstep hp <;> simp only at hstep
  case gone => cases hstep
  case user => cases hstep
  case dead => cases hstep
  case forkScan k =>
    unfold forkScan at hstep
    split_ifs at hstep with hk hlock hun
    · exact .alloc hpc hk (Bool.eq_false_iff.mpr hlock) hun (Option.some.inj hstep).symm
    · cases hstep
      exact effect_move rfl rfl (forkHold_of_setPc rfl)
    · cases hstep
      exact effect_move rfl rfl (forkHold_of_setPc rfl)
  case forkHold np => exact .made hpc (Option.some.inj hstep).symm
  case forkParent np =>
    unfold forkParent at hstep
    split_ifs at hstep
    cases hstep
    exact .mild ⟨rfl, ⟨rfl, rfl, Iff.rfl, Iff.rfl, fun _ => rfl⟩, rfl, forkHold_of_setPc rfl,
      Or.inr (Or.inl ⟨rfl, rfl⟩)⟩
  case forkRun np =>
    have hused := hp.2.1
    unfold forkRun at hstep
    split_ifs at hstep with hlock
    cases hstep
    refine .mild ⟨rfl, ⟨rfl, rfl, by simp [hused], by simp [hused], fun h => by cases h⟩, rfl,
      fun q n hq => ?_, Or.inl (Bool.eq_false_iff.mpr hlock)⟩
    exact forkHold_of_setPc rfl q n (forkHold_of_setPc (s := s.setPc np .user) rfl q n hq)
  case exiting status =>
    unfold exiting at hstep
    split_ifs at hstep
    cases hstep
    exact effect_move rfl rfl (forkHold_of_setPc rfl)
  case exitReparent status k =>
    cases hstep
    unfold exitReparent
    split_ifs
    · exact .mild ⟨rfl, ⟨rfl, rfl, Iff.rfl, Iff.rfl, fun _ => rfl⟩, rfl, forkHold_of_setPc rfl,
        Or.inr (Or.inl ⟨rfl, rfl⟩)⟩
    · exact effect_move rfl rfl (forkHold_of_setPc rfl)
    · exact effect_move rfl rfl (forkHold_of_setPc rfl)
  case exitReparentWake status k j => exact effect_wakeupLoop rfl rfl hstep
  case exitWake status q j => exact effect_wakeupLoop rfl rfl hstep
  case exitZombie status => exact .exited hrun hstep
  case waitStart addr =>
    unfold waitAcquire at hstep
    split_ifs at hstep
    cases hstep
    exact effect_move rfl rfl (forkHold_of_setPc rfl)
  case waitScan addr k havekids =>
    unfold waitScan at hstep
    split_ifs at hstep with hk hparent hlock hz <;> cases hstep
    · exact effect_move rfl rfl (forkHold_of_setPc rfl)
    · exact .reaped hk hparent (Bool.eq_false_iff.mpr hlock) hz rfl
    · exact effect_move rfl rfl (forkHold_of_setPc rfl)
    · exact effect_move rfl rfl (forkHold_of_setPc rfl)
    · exact effect_move rfl rfl (forkHold_of_setPc rfl)
    · exact effect_move rfl rfl (forkHold_of_setPc rfl)
  case waitKilled addr =>
    unfold waitKilled at hstep
    split_ifs at hstep <;> cases hstep
    · exact effect_move rfl rfl (forkHold_of_setPc rfl)
    · exact effect_move rfl rfl (forkHold_of_setPc rfl)
  case waitSleep addr =>
    unfold waitSleep at hstep
    split_ifs at hstep with hlock
    cases hstep
    exact .mild ⟨rfl, ⟨rfl, rfl, Iff.rfl, Iff.rfl, fun _ => rfl⟩, rfl, forkHold_of_setPc rfl,
      Or.inl (Bool.eq_false_iff.mpr hlock)⟩
  case waitLocked addr =>
    cases hstep
    exact .mild ⟨rfl, ⟨rfl, rfl, by simp [hrun], by simp [hrun], fun h => by cases h⟩, rfl,
      forkHold_of_setPc rfl, Or.inr (Or.inr (forkHold_ne hinv (by simp [hrun])))⟩
  case waitAsleep addr =>
    unfold waitAcquire at hstep
    split_ifs at hstep
    cases hstep
    exact effect_move rfl rfl (forkHold_of_setPc rfl)
  case waitRelease =>
    cases hstep
    exact effect_move rfl rfl (forkHold_of_setPc rfl)
  case killScan pid k =>
    unfold killScan at hstep
    split_ifs at hstep with hk hlock hpid
    · exact .hit hpc hk (Bool.eq_false_iff.mpr hlock) hpid (Option.some.inj hstep).symm
    · cases hstep
      exact effect_move rfl rfl (forkHold_of_setPc rfl)
    · exact .missed (Option.some.inj hstep).symm

/-- **What one step does**, from a state that keeps the invariant. -/
theorem step_effect (hinv : Inv s) (hstep : step s a = some t) : Effect s t a := by
  unfold step at hstep
  split_ifs at hstep
  cases a with
  | schedule i => exact effect_environment hstep
  | yield i => exact effect_environment hstep
  | sleep i n => exact effect_environment hstep
  | wakeup i n => exact effect_environment hstep
  | setkilled i => exact effect_environment hstep
  | call p c =>
    simp only at hstep
    split_ifs at hstep
    cases hstep
    cases c with
    | exit status =>
      unfold call
      split_ifs
      · exact effect_move rfl rfl fun _ _ hq => hq
      · exact effect_move rfl rfl (forkHold_of_setPc rfl)
    | fork => exact effect_move rfl rfl (forkHold_of_setPc rfl)
    | wait addr => exact effect_move rfl rfl (forkHold_of_setPc rfl)
    | kill pid => exact effect_move rfl rfl (forkHold_of_setPc rfl)
  | advance p ok =>
    simp only at hstep
    split_ifs at hstep with hrun hdead
    · exact effect_advance hinv hrun hstep
    · cases hstep
      have hp : PcOk s p .dead := hdead ▸ hinv.pcs p
      exact .mild ⟨rfl, ⟨rfl, rfl, Iff.rfl, Iff.rfl, fun _ => rfl⟩, rfl, forkHold_of_setPc rfl,
        Or.inr (Or.inr (forkHold_ne hinv (by simp [hp.1])))⟩

end Proc

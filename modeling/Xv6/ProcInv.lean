/-
# The invariant of the process table

`PcOk s p c` says what it means that process `p` is at `c`: which slots it is
working on, that it holds `wait_lock` in the sections of `wait_lock`, what the
loops of `reparent`, `wakeup` and `wait` have established so far.  `TableInv` is
about the table alone; its main part is that the parent of a process is alive.

The key to `PcOk` is `PcOk.keeps`: a step of another process that leaves alone
what `p` relies on (`Keeps`) leaves `PcOk` of `p` alone.
-/
import Xv6.Proc

namespace Proc

open Function Transition

/-! ## The invariant -/

/-- The process exists and has not exited. -/
def ProcState.live : ProcState → Bool
  | .sleeping => true
  | .runnable => true
  | .running => true
  | _ => false

/-- The process holds `wait_lock` and is running. -/
def Holder (s : St) (p : ℕ) : Prop :=
  (s.proc p).state = .running ∧ s.waitLock = some p

/-- The process is asleep in `wait`, or has released `wait_lock` in order to be. -/
def InWaitSleep (s : St) (p : ℕ) : Prop :=
  match s.pc p with
  | .waitLocked _ => True
  | .waitAsleep _ => (s.proc p).state = .sleeping
  | _ => False

/-- The position is in the `sleep` of `wait`. -/
def Pc.sleeps : Pc → Bool
  | .waitLocked _ => true
  | .waitAsleep _ => true
  | _ => false

/-- The slot a process is creating a child in. -/
def Pc.forks : Pc → Option ℕ
  | .forkHold np => some np
  | .forkParent np => some np
  | .forkRun np => some np
  | _ => none

/-- The process is at the first slot of the `wakeup(initproc)` of `reparent`. -/
def Pc.wakesInit : Pc → Bool
  | .exitReparentWake _ _ 0 => true
  | _ => false

/-- What it means that process `p` is at position `c`. -/
def PcOk (s : St) (p : ℕ) (c : Pc) : Prop :=
  match c with
  | .gone => (s.proc p).state.live = false
  | .dead => (s.proc p).state = .zombie ∧ (s.proc p).lock = true
  | .user => (s.proc p).state.live
  | .forkScan _ => (s.proc p).state.live
  | .killScan _ _ => (s.proc p).state.live
  | .waitStart _ => (s.proc p).state.live
  | .exiting _ => (s.proc p).state.live ∧ p ≠ initproc
  | .forkHold np => (s.proc p).state = .running ∧ (s.proc np).state = .used ∧
      (s.proc np).parent = none
  | .forkParent np => (s.proc p).state.live ∧ (s.proc np).state = .used ∧
      (s.proc np).parent = none
  | .forkRun np => (s.proc p).state.live ∧ (s.proc np).state = .used ∧
      (s.proc np).parent = some p
  | .exitReparent _ k => Holder s p ∧ p ≠ initproc ∧ ∀ i < k, (s.proc i).parent ≠ some p
  | .exitReparentWake _ k _ => Holder s p ∧ p ≠ initproc ∧ ∀ i ≤ k, (s.proc i).parent ≠ some p
  | .exitWake _ q j => Holder s p ∧ p ≠ initproc ∧ (∀ i, (s.proc i).parent ≠ some p) ∧
      (s.proc p).parent = q ∧ ∀ r < j, q = some r → ¬ InWaitSleep s r
  | .exitZombie _ => Holder s p ∧ p ≠ initproc ∧ (∀ i, (s.proc i).parent ≠ some p) ∧
      ∀ r, (s.proc p).parent = some r → ¬ InWaitSleep s r
  | .waitScan _ k _ => Holder s p ∧
      ∀ i < k, (s.proc i).parent = some p → (s.proc i).state ≠ .zombie
  | .waitKilled _ => Holder s p ∧ ∀ i, (s.proc i).parent = some p → (s.proc i).state ≠ .zombie
  | .waitSleep _ => Holder s p ∧ ∀ i, (s.proc i).parent = some p → (s.proc i).state ≠ .zombie
  | .waitLocked _ => (s.proc p).state = .running ∧ (s.proc p).lock = true
  | .waitAsleep _ => (s.proc p).state.live ∧
      ((s.proc p).state = .sleeping → (s.proc p).chan = some (.proc p))
  | .waitRelease => Holder s p

/-- The states and the parents in the table. -/
structure TableInv (s : St) : Prop where
  outside : ∀ i, NPROC ≤ i → (s.proc i).state = .unused
  unused : ∀ i, (s.proc i).state = .unused → (s.proc i).parent = none
  parentLive : ∀ i q, (s.proc i).parent = some q → (s.proc q).state.live ∧ q ≠ i
  hasParent : ∀ i, i ≠ initproc → (s.proc i).state ≠ .unused → (s.proc i).state ≠ .used →
    (s.proc i).parent ≠ none
  initLive : (s.proc initproc).state.live ∧ (s.proc initproc).parent = none

/-- The invariant of the process table. -/
structure Inv (s : St) : Prop where
  table : TableInv s
  pcs : ∀ p, PcOk s p (s.pc p)
  forkInj : ∀ p q np, (s.pc p).forks = some np → (s.pc q).forks = some np → p = q
  /-- a zombie whose parent sleeps in `wait` was just given to `initproc`, which is
  about to be woken -/
  zombieAsleep : ∀ i r, (s.proc i).parent = some r → (s.proc i).state = .zombie →
    InWaitSleep s r → r = initproc ∧ ∃ q, s.waitLock = some q ∧ (s.pc q).wakesInit

/-! ## Steps of other processes -/

/-- What process `q` relies on is the same in `s` and `t`. -/
structure Keeps (s t : St) (q : ℕ) : Prop where
  pc : t.pc q = s.pc q
  live : (t.proc q).state.live = (s.proc q).state.live
  dead : s.pc q = .dead → (s.proc q).state = .zombie → (t.proc q).state = .zombie
  locked : (s.pc q).holdsLock → ((s.proc q).state = .running → (t.proc q).state = .running) ∧
    ((s.proc q).lock → (t.proc q).lock)
  asleep : (s.pc q).maySleep = false → (t.proc q).state = .sleeping →
    (s.proc q).state = .sleeping ∧ (t.proc q).chan = (s.proc q).chan
  fork : ∀ np, (s.pc q).forks = some np →
    (t.proc np).state = (s.proc np).state ∧ (t.proc np).parent = (s.proc np).parent
  hold : s.waitLock = some q → t.waitLock = some q ∧
    (∀ i, (t.proc i).parent = (s.proc i).parent) ∧
    (∀ i, (t.proc i).state = .zombie → (s.proc i).state = .zombie) ∧
    ∀ r, InWaitSleep t r → InWaitSleep s r

variable {s t : St}

theorem not_inWaitSleep {p : ℕ} (hp : (s.pc p).sleeps = false) : ¬ InWaitSleep s p := by
  unfold InWaitSleep
  cases hpc : s.pc p <;> rw [hpc] at hp <;> first | exact id | cases hp

variable {q i : ℕ}

theorem Holder.keeps (hk : Keeps s t q) (hpc : (s.pc q).holdsLock) (h : Holder s q) : Holder t q :=
  ⟨(hk.locked hpc).1 h.1, (hk.hold h.2).1⟩

/-- **Frame rule**: a step that `q` does not notice keeps what its position
means. -/
theorem PcOk.keeps (hk : Keeps s t q) (h : PcOk s q (s.pc q)) : PcOk t q (t.pc q) := by
  have hholder := fun hpc => Holder.keeps hk hpc
  have hparent : s.waitLock = some q → ∀ i, (t.proc i).parent = (s.proc i).parent :=
    fun hq => (hk.hold hq).2.1
  have hzombie : s.waitLock = some q →
      ∀ i, (t.proc i).state = .zombie → (s.proc i).state = .zombie :=
    fun hq => (hk.hold hq).2.2.1
  have hsleep : s.waitLock = some q → ∀ r, InWaitSleep t r → InWaitSleep s r :=
    fun hq => (hk.hold hq).2.2.2
  have hlocked := hk.locked
  have hasleep := hk.asleep
  have hfork := hk.fork
  unfold PcOk at h ⊢
  rw [hk.pc]
  cases hq : s.pc q with
  | gone => rw [hq] at h; exact hk.live.trans h
  | dead => rw [hq] at h hlocked; exact ⟨hk.dead hq h.1, (hlocked rfl).2 h.2⟩
  | user => rw [hq] at h; exact hk.live.trans h
  | forkScan k => rw [hq] at h; exact hk.live.trans h
  | killScan pid k => rw [hq] at h; exact hk.live.trans h
  | waitStart addr => rw [hq] at h; exact hk.live.trans h
  | exiting status => rw [hq] at h; exact ⟨hk.live.trans h.1, h.2⟩
  | forkHold np =>
    rw [hq] at h hlocked hfork
    obtain ⟨hst, hpar⟩ := hfork np rfl
    exact ⟨(hlocked rfl).1 h.1, hst.trans h.2.1, hpar.trans h.2.2⟩
  | forkParent np =>
    rw [hq] at h hfork
    obtain ⟨hst, hpar⟩ := hfork np rfl
    exact ⟨hk.live.trans h.1, hst.trans h.2.1, hpar.trans h.2.2⟩
  | forkRun np =>
    rw [hq] at h hfork
    obtain ⟨hst, hpar⟩ := hfork np rfl
    exact ⟨hk.live.trans h.1, hst.trans h.2.1, hpar.trans h.2.2⟩
  | exitReparent status k =>
    rw [hq] at h hholder
    refine ⟨hholder rfl h.1, h.2.1, fun i hi => ?_⟩
    rw [hparent h.1.2]
    exact h.2.2 i hi
  | exitReparentWake status k j =>
    rw [hq] at h hholder
    refine ⟨hholder rfl h.1, h.2.1, fun i hi => ?_⟩
    rw [hparent h.1.2]
    exact h.2.2 i hi
  | exitWake status r j =>
    rw [hq] at h hholder
    obtain ⟨hhold, hne, horphan, hpar, hwoken⟩ := h
    refine ⟨hholder rfl hhold, hne, fun i => ?_, ?_, fun r hr heq hin => ?_⟩
    · rw [hparent hhold.2]
      exact horphan i
    · rw [hparent hhold.2]
      exact hpar
    · exact hwoken r hr heq (hsleep hhold.2 r hin)
  | exitZombie status =>
    rw [hq] at h hholder
    obtain ⟨hhold, hne, horphan, hwoken⟩ := h
    refine ⟨hholder rfl hhold, hne, fun i => ?_, fun r hr hin => ?_⟩
    · rw [hparent hhold.2]
      exact horphan i
    · rw [hparent hhold.2] at hr
      exact hwoken r hr (hsleep hhold.2 r hin)
  | waitScan addr k havekids =>
    rw [hq] at h hholder
    refine ⟨hholder rfl h.1, fun i hi hpar hz => ?_⟩
    rw [hparent h.1.2] at hpar
    exact h.2 i hi hpar (hzombie h.1.2 i hz)
  | waitKilled addr =>
    rw [hq] at h hholder
    refine ⟨hholder rfl h.1, fun i hpar hz => ?_⟩
    rw [hparent h.1.2] at hpar
    exact h.2 i hpar (hzombie h.1.2 i hz)
  | waitSleep addr =>
    rw [hq] at h hholder
    refine ⟨hholder rfl h.1, fun i hpar hz => ?_⟩
    rw [hparent h.1.2] at hpar
    exact h.2 i hpar (hzombie h.1.2 i hz)
  | waitLocked addr =>
    rw [hq] at h hlocked
    exact ⟨(hlocked rfl).1 h.1, (hlocked rfl).2 h.2⟩
  | waitAsleep addr =>
    rw [hq] at h hasleep
    refine ⟨hk.live.trans h.1, fun hs => ?_⟩
    obtain ⟨hs', hchan⟩ := hasleep rfl hs
    exact hchan.trans (h.2 hs')
  | waitRelease => rw [hq] at h hholder; exact hholder rfl h

/-- The invariant after a step of `p` that the others do not notice. -/
theorem inv_of_keeps (h : Inv s) (p : ℕ) (htable : TableInv t) (hp : PcOk t p (t.pc p))
    (hkeeps : ∀ q, q ≠ p → Keeps s t q) (hforks : ∀ np, (t.pc p).forks = some np →
      (s.pc p).forks = some np ∨ ∀ q, (s.pc q).forks ≠ some np)
    (hasleep : ∀ i r, (t.proc i).parent = some r → (t.proc i).state = .zombie →
      InWaitSleep t r → r = initproc ∧ ∃ q, t.waitLock = some q ∧ (t.pc q).wakesInit) : Inv t := by
  have hone : ∀ q np, q ≠ p → (t.pc p).forks = some np → (t.pc q).forks ≠ some np := by
    intro q np hq hnp hqnp
    rw [(hkeeps q hq).pc] at hqnp
    rcases hforks np hnp with hsame | hnone
    · exact hq (h.forkInj q p np hqnp hsame)
    · exact hnone q hqnp
  refine ⟨htable, fun q => ?_, fun q r np hq hr => ?_, hasleep⟩
  · by_cases hq : q = p
    · rw [hq]
      exact hp
    · exact (h.pcs q).keeps (hkeeps q hq)
  · by_cases hqp : q = p
    · by_cases hrp : r = p
      · rw [hqp, hrp]
      · rw [hqp] at hq
        exact absurd hr (hone r np hrp hq)
    · by_cases hrp : r = p
      · rw [hrp] at hr
        exact absurd hq (hone q np hqp hr)
      · rw [(hkeeps q hqp).pc] at hq
        rw [(hkeeps r hrp).pc] at hr
        exact h.forkInj q r np hq hr

/-! ## Calm changes of a slot -/

/-- Process `p`, or the environment, changes slot `k` to `P` without creating or
ending a process or touching a parent; and it does not put another process to
sleep that does not expect it. -/
structure Calm (s : St) (p k : ℕ) (P : Slot) : Prop where
  parent : P.parent = (s.proc k).parent
  live : P.state.live = (s.proc k).state.live
  same : (s.proc k).state.live = false → P.state = (s.proc k).state
  locked : k ≠ p → (s.pc k).holdsLock →
    ((s.proc k).state = .running → P.state = .running) ∧ ((s.proc k).lock → P.lock)
  asleep : k ≠ p → (s.pc k).maySleep = false → P.state = .sleeping →
    (s.proc k).state = .sleeping ∧ P.chan = (s.proc k).chan

/-- A slot that does not change. -/
theorem Calm.refl (s : St) (p k : ℕ) : Calm s p k (s.proc k) :=
  ⟨rfl, rfl, fun _ => rfl, fun _ _ => ⟨id, id⟩, fun _ _ h => ⟨h, rfl⟩⟩

section Update

variable {p k : ℕ} {P : Slot} {c : Pc}

theorem parent_update (hproc : t.proc = update s.proc k P)
    (hparent : P.parent = (s.proc k).parent) (i : ℕ) : (t.proc i).parent = (s.proc i).parent := by
  rw [hproc]
  by_cases hik : i = k
  · rw [hik, update_self, hparent]
  · rw [update_of_ne hik]

theorem Calm.live_eq (hP : Calm s p k P) (hproc : t.proc = update s.proc k P) (i : ℕ) :
    (t.proc i).state.live = (s.proc i).state.live := by
  rw [hproc]
  by_cases hik : i = k
  · rw [hik, update_self, hP.live]
  · rw [update_of_ne hik]

theorem Calm.state_eq (hP : Calm s p k P) (hproc : t.proc = update s.proc k P)
    (hi : (s.proc i).state.live = false) : (t.proc i).state = (s.proc i).state := by
  rw [hproc]
  by_cases hik : i = k
  · rw [hik] at hi ⊢
    rw [update_self, hP.same hi]
  · rw [update_of_ne hik]

theorem Calm.state_eq' (hP : Calm s p k P) (hproc : t.proc = update s.proc k P)
    (hi : (t.proc i).state.live = false) : (t.proc i).state = (s.proc i).state :=
  hP.state_eq hproc (by rw [← hP.live_eq hproc]; exact hi)

/-- Nobody but `p` falls asleep in `wait`. -/
theorem Calm.inWaitSleep (hP : Calm s p k P) (hproc : t.proc = update s.proc k P)
    (hpc : t.pc = update s.pc p c) {r : ℕ} (hr : r ≠ p) (hin : InWaitSleep t r) :
    InWaitSleep s r := by
  unfold InWaitSleep at hin ⊢
  rw [hpc, update_of_ne hr] at hin
  cases hpr : s.pc r <;> rw [hpr] at hin <;> try exact hin
  case waitAsleep addr =>
    simp only at hin ⊢
    rw [hproc] at hin
    by_cases hrk : r = k
    · subst hrk
      rw [update_self] at hin
      exact (hP.asleep hr (by rw [hpr]; rfl) hin).1
    · rwa [update_of_ne hrk] at hin

/-- **A slot of the table changes**: a process with children stays alive, and the parent
that the slot names is alive. -/
theorem TableInv.slot (h : TableInv s) (hproc : t.proc = update s.proc k P)
    (hout : NPROC ≤ k → P.state = .unused) (hunused : P.state = .unused → P.parent = none)
    (hlive : (s.proc k).state.live = true → P.state.live = true ∨ ∀ i, (s.proc i).parent ≠ some k)
    (hparent : ∀ q, P.parent = some q → (s.proc q).state.live = true ∧ q ≠ k)
    (hhas : k ≠ initproc → P.state ≠ .unused → P.state ≠ .used → P.parent ≠ none)
    (hinit : k = initproc → P.state.live = true ∧ P.parent = none) : TableInv t := by
  have htk : t.proc k = P := by rw [hproc, update_self]
  have hother : ∀ i, i ≠ k → t.proc i = s.proc i := fun i hi => by
    rw [hproc, update_of_ne hi]
  have hkeep : ∀ i q, (s.proc i).parent = some q → (t.proc q).state.live = true := by
    intro i q hi
    have hq := (h.parentLive i q hi).1
    by_cases hqk : q = k
    · rw [hqk] at hq hi ⊢
      rw [htk]
      exact (hlive hq).resolve_right fun hno => hno i hi
    · rw [hother q hqk]
      exact hq
  refine ⟨fun i hi => ?_, fun i hi => ?_, fun i q hi => ?_, fun i hi hiu hiused => ?_, ?_⟩
  · by_cases hik : i = k
    · rw [hik] at hi ⊢
      rw [htk, hout hi]
    · rw [hother i hik]
      exact h.outside i hi
  · by_cases hik : i = k
    · rw [hik, htk] at hi ⊢
      exact hunused hi
    · rw [hother i hik] at hi ⊢
      exact h.unused i hi
  · by_cases hik : i = k
    · rw [hik, htk] at hi
      have hq := hparent q hi
      rw [hother q hq.2, hik]
      exact hq
    · rw [hother i hik] at hi
      exact ⟨hkeep i q hi, (h.parentLive i q hi).2⟩
  · by_cases hik : i = k
    · rw [hik] at hi hiu hiused ⊢
      rw [htk] at hiu hiused ⊢
      exact hhas hi hiu hiused
    · rw [hother i hik] at hiu hiused ⊢
      exact h.hasParent i hi hiu hiused
  · by_cases hik : initproc = k
    · rw [hik, htk]
      exact hinit hik.symm
    · rw [hother initproc hik]
      exact h.initLive

theorem TableInv.calm (h : TableInv s) (hP : Calm s p k P)
    (hproc : t.proc = update s.proc k P) : TableInv t := by
  have hsame : P.state.live = false → (s.proc k).state = P.state := by
    intro hl
    rw [hP.live] at hl
    exact (hP.same hl).symm
  refine h.slot hproc (fun hk => ?_) (fun hs => ?_) (fun hl => Or.inl (hP.live.trans hl))
    (fun q hq => h.parentLive k q (hP.parent ▸ hq)) (fun hk hun hus => ?_) (fun hk => ?_)
  · have hs := h.outside k hk
    rw [hP.same (by rw [hs]; rfl), hs]
  · rw [hP.parent]
    exact h.unused k (by rw [hsame (by rw [hs]; rfl), hs])
  · rw [hP.parent]
    refine h.hasParent k hk (fun hs => hun ?_) (fun hs => hus ?_)
    · rw [hP.same (by rw [hs]; rfl), hs]
    · rw [hP.same (by rw [hs]; rfl), hs]
  · rw [hP.live, hP.parent, hk]
    exact h.initLive

theorem Calm.keeps (hP : Calm s p k P) (hproc : t.proc = update s.proc k P)
    (hpc : t.pc = update s.pc p c) (hq : q ≠ p) (hqOk : PcOk s q (s.pc q))
    (hw : s.waitLock = some q → t.waitLock = some q)
    (hsleep : InWaitSleep t p → InWaitSleep s p ∨ s.waitLock = some p) : Keeps s t q where
  pc := by rw [hpc, update_of_ne hq]
  live := hP.live_eq hproc q
  dead := fun _ hz => by rw [hP.state_eq hproc (by rw [hz]; rfl), hz]
  locked := fun hl => by
    rw [hproc]
    by_cases hqk : q = k
    · subst hqk
      rw [update_self]
      exact hP.locked hq hl
    · rw [update_of_ne hqk]
      exact ⟨id, id⟩
  asleep := fun hm hs => by
    rw [hproc] at hs ⊢
    by_cases hqk : q = k
    · subst hqk
      rw [update_self] at hs ⊢
      exact hP.asleep hq hm hs
    · rw [update_of_ne hqk] at hs ⊢
      exact ⟨hs, rfl⟩
  fork := fun np hnp => by
    refine ⟨hP.state_eq hproc ?_, parent_update hproc hP.parent np⟩
    have hused : (s.proc np).state = .used := by
      unfold PcOk at hqOk
      cases hpq : s.pc q <;> rw [hpq] at hqOk hnp <;> cases hnp <;> exact hqOk.2.1
    rw [hused]
    rfl
  hold := fun hlock => by
    refine ⟨hw hlock, parent_update hproc hP.parent, fun i hz => ?_, fun r hr => ?_⟩
    · rw [← hP.state_eq' hproc (by rw [hz]; rfl), hz]
    · by_cases hrp : r = p
      · rw [hrp] at hr ⊢
        rcases hsleep hr with hs | hs
        · exact hs
        · rw [hs] at hlock
          exact absurd (Option.some.inj hlock).symm hq
      · exact hP.inWaitSleep hproc hpc hrp hr

/-- **Calm steps.**  Process `p` moves on and slot `k` changes calmly. -/
theorem inv_calm (h : Inv s) (hP : Calm s p k P) (hproc : t.proc = update s.proc k P)
    (hpc : t.pc = update s.pc p c) (hw : ∀ q, q ≠ p → s.waitLock = some q → t.waitLock = some q)
    (hp : PcOk t p c) (hforks : ∀ np, c.forks = some np → (s.pc p).forks = some np)
    (hsleep : InWaitSleep t p → InWaitSleep s p ∨ s.waitLock = some p ∧
      ∀ i, (s.proc i).parent = some p → (s.proc i).state ≠ .zombie) (hinit : (s.pc p).wakesInit →
      c.wakesInit ∧ t.waitLock = s.waitLock ∨ ¬ InWaitSleep t initproc) : Inv t := by
  refine inv_of_keeps h p (h.table.calm hP hproc) (by rw [hpc, update_self]; exact hp)
    (fun q hq => hP.keeps hproc hpc hq (h.pcs q) (hw q hq) fun hin => (hsleep hin).imp_right And.left)
    (fun np hnp => Or.inl (hforks np ?_)) (fun i r hi hz hin => ?_)
  · rwa [hpc, update_self] at hnp
  · rw [parent_update hproc hP.parent] at hi
    have hzs : (s.proc i).state = .zombie := by
      rw [← hP.state_eq' hproc (by rw [hz]; rfl), hz]
    have hins : InWaitSleep s r := by
      by_cases hrp : r = p
      · rw [hrp] at hin hi ⊢
        rcases hsleep hin with hs | ⟨-, hno⟩
        · exact hs
        · exact absurd hzs (hno i hi)
      · exact hP.inWaitSleep hproc hpc hrp hin
    obtain ⟨hr, q, hq, hwake⟩ := h.zombieAsleep i r hi hzs hins
    refine ⟨hr, q, ?_⟩
    by_cases hqp : q = p
    · rw [hqp] at hq hwake ⊢
      rcases hinit hwake with ⟨hc, hsame⟩ | hno
      · exact ⟨hsame.trans hq, by rw [hpc, update_self]; exact hc⟩
      · rw [hr] at hin
        exact absurd hin hno
    · exact ⟨hw q hqp hq, by rw [hpc, update_of_ne hqp]; exact hwake⟩

/-- **Moves.**  Process `p` moves on to a position outside `sleep`, and may take or
release `wait_lock`. -/
theorem inv_move (h : Inv s) (hproc : t.proc = s.proc) (hpc : t.pc = update s.pc p c)
    (hw : t.waitLock = s.waitLock ∨ s.waitLock = none ∨ s.waitLock = some p)
    (hp : PcOk t p c) (hc : c.forks = none ∧ c.sleeps = false)
    (hinit : (s.pc p).wakesInit → ¬ InWaitSleep t initproc) : Inv t := by
  refine inv_calm h (Calm.refl s p p) (by rw [update_eq_self, hproc]) hpc ?_ hp ?_ ?_
    (fun hwake => Or.inr (hinit hwake))
  · intro q hq hlock
    rcases hw with hsame | hnone | hself
    · rw [hsame, hlock]
    · rw [hlock] at hnone
      cases hnone
    · rw [hlock, Option.some.injEq] at hself
      exact absurd hself hq
  · intro np hnp
    rw [hc.1] at hnp
    cases hnp
  · intro hin
    exact absurd hin (not_inWaitSleep (by rw [hpc, update_self]; exact hc.2))

end Update

end Proc

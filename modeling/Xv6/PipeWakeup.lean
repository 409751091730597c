/-
# Sleeping readers and writers of a pipe

A process sleeps on `&pi->nread` because the pipe is empty and may still be written, and
on `&pi->nwrite` because it is full and may still be read.  Whoever changes that has to
wake the sleepers before `pi->lock` is released.  All paths do, with one exception: a
`pipewrite` that finds itself killed returns at once, although it may have stored bytes
since it took the lock, and leaves the readers asleep (`killed_writer_leaves_reader`).

The invariant says that the holder of the lock still is going to visit every process
whose reason to sleep is gone; it is kept by every step except that return.
-/
import Xv6.PipeFifo

namespace Pipe

open Function Transition

variable {N : ℕ} {s t : St N} {p q : Fin N} {c : Chan}

/-- Nobody sleeps without a reason while the lock is free. -/
def NoneLeft (s : St N) : Prop :=
  s.holder = none → ∀ p c, (s.proc p).asleep = some c → Blocked s.pipe c

/-! ## Sleepers and the wakeups they are owed -/

/-- The process has given up the lock in `sleep(c)` and has not been woken. -/
def Sleeps (s : St N) (p : Fin N) (c : Chan) : Prop :=
  (s.proc p).asleep = some c ∨ ∃ k, s.pc p = .sleepSched c k

/-- The holder of the lock, at `k`, is going to visit process `q` in `wakeup(c)`. -/
def Wakes (stored : ℕ) (c : Chan) (q : Fin N) : Pc N → Prop
  | .wakeup c' todo k => c' = c ∧ q ∈ todo ∨ Wakes stored c q k
  | .writeLoop _ _ => c = .nread ∧ 0 < stored
  | .writeCheck _ _ => c = .nread ∧ 0 < stored
  | .writeFull _ _ => c = .nread ∧ 0 < stored
  | .writeCopy _ _ => c = .nread ∧ 0 < stored
  | .writeFail _ _ => c = .nread ∧ 0 < stored
  | .readCopy _ _ => c = .nwrite
  | _ => False

/-- The places inside `sleep` where a process holds its own lock. -/
def Pc.locks : Pc N → Bool
  | .sleepRelease _ _ => true
  | .sleepSched _ _ => true
  | _ => false

structure SleepInv (s : St N) : Prop where
  inv : Inv s
  asleep : ∀ p c, (s.proc p).asleep = some c → ∃ k, s.pc p = .asleep c k
  locked : ∀ p, (s.proc p).lock = (s.pc p).locks
  owed : ∀ q c, Sleeps s q c →
    Blocked s.pipe c ∨ ∃ h, s.holder = some h ∧ Wakes s.stored c q (s.pc h)

/-- The process is at the early return of `pipewrite`. -/
def Pc.fails : Pc N → Bool
  | .writeFail _ _ => true
  | _ => false

/-- The early return is harmless if the writer has stored nothing since it took the lock,
or if no process sleeps on `&pi->nread`. -/
def Harmless (s : St N) : Act N → Prop
  | .advance p => (s.pc p).fails = true → s.stored = 0 ∨ ∀ q, ¬ Sleeps s q .nread
  | _ => True

theorem sleepInv_start (N : ℕ) (data : ℕ → UInt8) : SleepInv (start N data) where
  inv := inv_start N data
  asleep p c h := by cases h
  locked p := rfl
  owed q c h := by
    rcases h with h | ⟨k, h⟩ <;> cases h

/-- A sleeper does not hold the lock. -/
theorem SleepInv.not_holding (h : SleepInv s) (hq : Sleeps s q c) : (s.pc q).holding = false := by
  rcases hq with hq | ⟨k, hk⟩
  · obtain ⟨k, hk⟩ := h.asleep q c hq
    rw [hk]
    rfl
  · rw [hk]
    rfl

/-- While nobody holds the lock, sleepers have their reason. -/
theorem SleepInv.blocked (h : SleepInv s) (hfree : s.holder = none) (hq : Sleeps s q c) :
    Blocked s.pipe c := by
  rcases h.owed q c hq with hb | ⟨p, hp, -⟩
  · exact hb
  · rw [hfree] at hp
    cases hp

theorem SleepInv.noneLeft (h : SleepInv s) : NoneLeft s := fun hfree _ _ hp =>
  h.blocked hfree (Or.inl hp)

/-- What is owed while `p` holds the lock. -/
theorem SleepInv.owed_by (h : SleepInv s) (hp : (s.pc p).holding = true) (hq : Sleeps s q c) :
    Blocked s.pipe c ∨ Wakes s.stored c q (s.pc p) := by
  rcases h.owed q c hq with hb | ⟨p', hp', hw⟩
  · exact Or.inl hb
  · have : p' = p := Option.some.inj (hp'.symm.trans ((h.inv.lock p).mpr hp))
    exact Or.inr (this ▸ hw)

/-! ## Steps -/

variable {k k₀ : Pc N} {i : ℕ} {x : Slot}

section

variable (h : SleepInv s)
include h

/-- Steps that change neither the process table nor who sleeps. -/
theorem SleepInv.move (hinv : Inv t) (hpc : t.pc = update s.pc p k) (hproc : t.proc = s.proc)
    (hp : (s.pc p).locks = false ∧ ∀ c, (s.proc p).asleep ≠ some c) (hk : k.locks = false)
    (howed : ∀ q c, Sleeps s q c → q ≠ p →
      Blocked t.pipe c ∨ ∃ h, t.holder = some h ∧ Wakes t.stored c q (t.pc h)) : SleepInv t where
  inv := hinv
  asleep q c hq := by
    rw [hproc] at hq
    have hqp : q ≠ p := by
      rintro rfl
      exact hp.2 c hq
    rw [hpc, update_of_ne hqp]
    exact h.asleep q c hq
  locked q := by
    rw [hproc, hpc]
    by_cases hq : q = p
    · rw [hq, update_self, hk, h.locked p, hp.1]
    · rw [update_of_ne hq]
      exact h.locked q
  owed q c hq := by
    have hqp : q ≠ p := by
      rintro rfl
      rcases hq with hq | ⟨k', hk'⟩
      · rw [hproc] at hq
        exact hp.2 c hq
      · rw [hpc, update_self] at hk'
        rw [hk'] at hk
        cases hk
    refine howed q c ?_ hqp
    rcases hq with hq | ⟨k', hk'⟩
    · rw [hproc] at hq
      exact Or.inl hq
    · rw [hpc, update_of_ne hqp] at hk'
      exact Or.inr ⟨k', hk'⟩

/-- A process that holds the lock is awake. -/
theorem SleepInv.awake (hp : (s.pc p).holding = true) (c : Chan) : (s.proc p).asleep ≠ some c := by
  intro hc
  have := h.not_holding (Or.inl hc)
  rw [hp] at this
  cases this

/-- A step under the lock. -/
theorem SleepInv.hold (hinv : Inv t) (hpc₀ : s.pc p = k₀) (hpc : t.pc = update s.pc p k)
    (hproc : t.proc = s.proc) (hholder : t.holder = s.holder) (hp : k₀.holding = true)
    (hlocks : k₀.locks = false) (hk : k.locks = false)
    (howed : ∀ q c, Sleeps s q c → Blocked s.pipe c ∨ Wakes s.stored c q k₀ →
      Blocked t.pipe c ∨ Wakes t.stored c q k) : SleepInv t := by
  subst hpc₀
  refine h.move hinv hpc hproc ⟨hlocks, h.awake hp⟩ hk fun q c hq _ => ?_
  refine (howed q c hq (h.owed_by hp hq)).imp_right fun hw => ⟨p, ?_, ?_⟩
  · rw [hholder]
    exact (h.inv.lock p).mpr hp
  · rw [hpc, update_self]
    exact hw

/-- The common case: the pipe is not changed. -/
theorem SleepInv.goto (hinv : Inv (s.goto p k)) (hpc : s.pc p = k₀) (hp : k₀.holding = true)
    (hlocks : k₀.locks = false) (hk : k.locks = false)
    (hw : ∀ q c, Sleeps s q c → Wakes s.stored c q k₀ → Wakes s.stored c q k) :
    SleepInv (s.goto p k) :=
  h.hold hinv hpc rfl rfl rfl hp hlocks hk fun q c hq => Or.imp_right (hw q c hq)

/-- After the start of `wakeup(&pi->nread)` all bytes are accounted for. -/
theorem SleepInv.wake_readers (hinv : Inv (s.wake p .nread k)) (hpc : s.pc p = k₀)
    (hp : k₀.holding = true) (hlocks : k₀.locks = false)
    (hw : ∀ q c, Wakes s.stored c q k₀ → c = .nread) : SleepInv (s.wake p .nread k) :=
  h.goto hinv hpc hp hlocks rfl fun q c _ hq => Or.inl ⟨(hw q c hq).symm, List.mem_finRange q⟩

/-- A release of the lock at the end of a call. -/
theorem SleepInv.release (hinv : Inv t) (hpc₀ : s.pc p = k₀) (hpc : t.pc = update s.pc p .idle)
    (hproc : t.proc = s.proc) (hpipe : t.pipe = s.pipe) (hp : k₀.holding = true)
    (hlocks : k₀.locks = false)
    (hw : ∀ q c, Sleeps s q c → ¬ Wakes s.stored c q k₀) : SleepInv t := by
  subst hpc₀
  refine h.move hinv hpc hproc ⟨hlocks, h.awake hp⟩ rfl fun q c hq _ => Or.inl ?_
  rw [hpipe]
  exact (h.owed_by hp hq).resolve_right (hw q c hq)

/-- What is owed does not depend on where a process without the lock stands. -/
theorem SleepInv.owed_congr (hp : (s.pc p).holding = false) (hq : Sleeps s q c) : Blocked s.pipe c ∨
      ∃ h, s.holder = some h ∧ Wakes s.stored c q (update s.pc p k h) := by
  refine (h.owed q c hq).imp_right fun ⟨r, hr, hw⟩ => ⟨r, hr, ?_⟩
  have hne : r ≠ p := by
    rintro rfl
    rw [(h.inv.lock r).mp hr] at hp
    cases hp
  rw [update_of_ne hne]
  exact hw

/-- A step of a process without the lock, which wakes nobody. -/
theorem SleepInv.outside (hinv : Inv (s.goto p k)) (hp : (s.pc p).holding = false)
    (hlocks : (s.pc p).locks = false) (hawake : ∀ c, (s.proc p).asleep ≠ some c)
    (hk : k.locks = false) : SleepInv (s.goto p k) :=
  h.move hinv rfl rfl ⟨hlocks, hawake⟩ hk fun _ _ hq _ => h.owed_congr hp hq

theorem sleepInv_acquire (hpc : s.pc p = .acquire k) (hfree : s.holder = none) :
    SleepInv { s.goto p k with holder := some p, stored := 0 } := by
  have hinv := inv_acquire h.inv hpc hfree
  have hentry := h.inv.known p
  rw [hpc] at hentry
  refine h.move hinv rfl rfl ⟨by rw [hpc]; rfl, fun c hc => ?_⟩ ?_ fun q c hq _ =>
    Or.inl (h.blocked hfree hq)
  · obtain ⟨k', hk'⟩ := h.asleep p c hc
    rw [hpc] at hk'
    cases hk'
  · cases k <;> first | rfl | cases hentry

end

/-- A byte is put in: the readers have to be woken, and no writer sleeps. -/
theorem sleepInv_push {b : Source} {ch : UInt8} (h : SleepInv s) (hpc : s.pc p = .writeCopy b i)
    (hch : b.byte i = some ch) : SleepInv ((s.push p ch).goto p (.writeLoop b (i + 1))) := by
  have hfull := h.inv.known p
  rw [hpc] at hfull
  refine h.hold (h.inv.push hpc hch) hpc rfl rfl rfl rfl rfl rfl fun _ c _ howed => Or.inr ?_
  cases c with
  | nread => exact ⟨rfl, Nat.succ_pos s.stored⟩
  | nwrite =>
    rcases howed with hb | hw
    · exact absurd hb.1 hfull
    · cases hw.1

/-- A byte is taken out: the writers have to be woken, and no reader sleeps. -/
theorem sleepInv_pop {b : Dest} (h : SleepInv s) (hinv : Inv (s.pop.goto p k))
    (hpc : s.pc p = .readCopy b i) (hempty : s.pipe.nread ≠ s.pipe.nwrite) (hk : k.locks = false)
    (hw : ∀ q, Wakes s.stored .nwrite q k) : SleepInv (s.pop.goto p k) := by
  refine h.hold hinv hpc rfl rfl rfl rfl rfl hk fun q c _ howed => Or.inr ?_
  cases c with
  | nwrite => exact hw q
  | nread =>
    rcases howed with hb | hw
    · exact absurd hb.1 hempty
    · cases hw

theorem sleepInv_shut {writable : Bool} (h : SleepInv s) (hpc : s.pc p = .close writable) :
    SleepInv ({ s with pipe := s.pipe.shut writable }.wake p
      (if writable then .nread else .nwrite) .release) := by
  refine h.hold (h.inv.shut hpc _) hpc rfl rfl rfl rfl rfl rfl fun q c _ howed => ?_
  have hb := howed.resolve_right fun hw => hw
  cases writable <;> cases c
  · exact Or.inl hb
  · exact Or.inr (Or.inl ⟨rfl, List.mem_finRange q⟩)
  · exact Or.inr (Or.inl ⟨rfl, List.mem_finRange q⟩)
  · exact Or.inl hb

/-- A visit of `wakeup`, or `kill`: a process may be woken. -/
theorem SleepInv.setSlot (h : SleepInv s) (hlock : x.lock = (s.proc q).lock)
    (hwoken : ∀ c, x.asleep = some c → (s.proc q).asleep = some c) :
    SleepInv { s with proc := update s.proc q x } := by
  have hasleep : ∀ p c, (update s.proc q x p).asleep = some c →
      (s.proc p).asleep = some c := by
    intro p c hp
    by_cases hpq : p = q
    · rw [hpq, update_self] at hp
      rw [hpq]
      exact hwoken c hp
    · rwa [update_of_ne hpq] at hp
  constructor
  · exact h.inv.setProc _
  · intro p c hp
    exact h.asleep p c (hasleep p c hp)
  · intro p
    show (update s.proc q x p).lock = _
    by_cases hpq : p = q
    · rw [hpq, update_self, hlock, h.locked q]
    · rw [update_of_ne hpq, h.locked p]
  · rintro p c (hp | hp)
    · exact h.owed p c (Or.inl (hasleep p c hp))
    · exact h.owed p c (Or.inr hp)

/-- **The body of the loop of `wakeup`.**  The process that is visited does not hold its
lock, so it is either awake or asleep and woken here if it sleeps on the channel. -/
theorem sleepInv_visit {todo : List (Fin N)} (h : SleepInv s)
    (hpc : s.pc p = .wakeup c (q :: todo) k) (hne : q ≠ p) (hlock : (s.proc q).lock = false) :
    SleepInv { s.goto p (.wakeup c todo k) with
      proc := update s.proc q ((s.proc q).wakeup c) } := by
  have hhold : (s.pc p).holding = true := by rw [hpc]; rfl
  have hknown := h.inv.known p
  rw [hpc] at hknown
  have hset : SleepInv { s with proc := update s.proc q ((s.proc q).wakeup c) } := by
    refine h.setSlot ?_ fun c' => ?_
    · rw [Slot.wakeup]
      split_ifs <;> rfl
    · rw [Slot.wakeup]
      split_ifs
      · intro hc
        cases hc
      · exact id
  have hinv : Inv (s.goto p (.wakeup c todo k)) := h.inv.goto hpc rfl rfl hknown rfl
  refine hset.move (hinv.setProc _) rfl rfl ⟨?_, hset.awake hhold⟩ rfl fun r c' hr _ => ?_
  · show (s.pc p).locks = false
    rw [hpc]
    rfl
  refine (hset.owed_by hhold hr).imp_right fun hw => ⟨p, (h.inv.lock p).mpr hhold, ?_⟩
  show Wakes s.stored c' r (update s.pc p _ p)
  rw [update_self]
  replace hw : Wakes s.stored c' r (s.pc p) := hw
  rw [hpc] at hw
  rcases hw with ⟨rfl, hmem⟩ | hw
  · rcases List.mem_cons.mp hmem with rfl | hmem
    · -- the process just visited no longer sleeps on this channel
      exfalso
      rcases hr with hr | ⟨k', hr⟩
      · replace hr : (update s.proc r ((s.proc r).wakeup c) r).asleep = some c := hr
        rw [update_self, Slot.wakeup] at hr
        split_ifs at hr with hasleep
        exact hasleep hr
      · have hlocks := h.locked r
        rw [hlock, show s.pc r = _ from hr] at hlocks
        cases hlocks
    · exact Or.inl ⟨rfl, hmem⟩
  · exact Or.inr hw

/-- Inside `sleep` the process table changes only for the process itself. -/
theorem SleepInv.sleep (h : SleepInv s) (hinv : Inv t) (hpc : t.pc = update s.pc p k)
    (hproc : t.proc = update s.proc p x) (hasleep : ∀ c, x.asleep = some c → ∃ k', k = .asleep c k')
    (hlock : x.lock = k.locks) (howed : ∀ q c, q ≠ p → Sleeps s q c →
      Blocked t.pipe c ∨ ∃ h, t.holder = some h ∧ Wakes t.stored c q (t.pc h))
    (hself : ∀ c, Sleeps t p c →
      Blocked t.pipe c ∨ ∃ h, t.holder = some h ∧ Wakes t.stored c p (t.pc h)) : SleepInv t where
  inv := hinv
  asleep q c hq := by
    rw [hproc] at hq
    rw [hpc]
    by_cases hqp : q = p
    · rw [hqp, update_self] at hq ⊢
      exact hasleep c hq
    · rw [update_of_ne hqp] at hq ⊢
      exact h.asleep q c hq
  locked q := by
    rw [hproc, hpc]
    by_cases hqp : q = p
    · rw [hqp, update_self, update_self]
      exact hlock
    · rw [update_of_ne hqp, update_of_ne hqp]
      exact h.locked q
  owed q c hq := by
    by_cases hqp : q = p
    · rw [hqp] at hq ⊢
      exact hself c hq
    · refine howed q c hqp ?_
      rcases hq with hq | ⟨k', hk'⟩
      · rw [hproc, update_of_ne hqp] at hq
        exact Or.inl hq
      · rw [hpc, update_of_ne hqp] at hk'
        exact Or.inr ⟨k', hk'⟩

theorem sleepInv_sleepLock (h : SleepInv s) (hpc : s.pc p = .sleepLock c k) :
    SleepInv { s.goto p (.sleepRelease c k) with
      proc := update s.proc p { s.proc p with lock := true } } := by
  have hknown := h.inv.known p
  rw [hpc] at hknown
  have hhold : (s.pc p).holding = true := by rw [hpc]; rfl
  have hinv : Inv (s.goto p (.sleepRelease c k)) := h.inv.goto hpc rfl rfl hknown rfl
  refine h.sleep (hinv.setProc _) rfl rfl (fun c' hc' => absurd hc' (h.awake hhold c')) rfl ?_ ?_
  · intro q c' _ hq
    refine Or.inl ((h.owed_by hhold hq).resolve_right fun hw => ?_)
    rw [hpc] at hw
    exact hw
  · rintro c' (hc' | ⟨k', hk'⟩)
    · replace hc' : (update s.proc p _ p).asleep = some c' := hc'
      rw [update_self] at hc'
      exact absurd hc' (h.awake hhold c')
    · replace hk' : update s.pc p _ p = Pc.sleepSched c' k' := hk'
      rw [update_self] at hk'
      cases hk'

/-- `sleep` gives up the lock while the reason to sleep still holds. -/
theorem sleepInv_sleepRelease (h : SleepInv s) (hpc : s.pc p = .sleepRelease c k)
    (hinv : Inv { s.goto p (.sleepSched c k) with holder := none }) :
    SleepInv { s.goto p (.sleepSched c k) with holder := none } := by
  have hknown := h.inv.known p
  rw [hpc] at hknown
  have hhold : (s.pc p).holding = true := by rw [hpc]; rfl
  have hlocked := h.locked p
  rw [hpc] at hlocked
  refine h.sleep hinv rfl (update_eq_self p s.proc).symm
    (fun c' hc' => absurd hc' (h.awake hhold c')) hlocked ?_ ?_
  · intro q c' _ hq
    refine Or.inl ((h.owed_by hhold hq).resolve_right fun hw => ?_)
    rw [hpc] at hw
    exact hw
  · rintro c' (hc' | ⟨k', hk'⟩)
    · exact absurd hc' (h.awake hhold c')
    · replace hk' : update s.pc p _ p = Pc.sleepSched c' k' := hk'
      rw [update_self] at hk'
      cases hk'
      exact Or.inl hknown.1

theorem sleepInv_sleepSched (h : SleepInv s) (hpc : s.pc p = .sleepSched c k)
    (hinv : Inv (s.goto p (.asleep c k))) : SleepInv { s.goto p (.asleep c k) with
      proc := update s.proc p { s.proc p with lock := false, asleep := some c } } := by
  have hhold : (s.pc p).holding = false := by rw [hpc]; rfl
  refine h.sleep (hinv.setProc _) rfl rfl ?_ rfl ?_ ?_
  · intro c' hc'
    cases hc'
    exact ⟨k, rfl⟩
  · intro q c' _ hq
    exact h.owed_congr hhold hq
  · rintro c' (hc' | ⟨k', hk'⟩)
    · replace hc' : (update s.proc p _ p).asleep = some c' := hc'
      rw [update_self] at hc'
      cases hc'
      exact h.owed_congr hhold (Or.inr ⟨k, hpc⟩)
    · replace hk' : update s.pc p _ p = Pc.sleepSched c' k' := hk'
      rw [update_self] at hk'
      cases hk'

/-- **One step of a process** keeps the invariant, if it is harmless. -/
theorem sleepInv_advance (h : SleepInv s) (hok : Harmless s (.advance p))
    (hstep : advance s p = some t) : SleepInv t := by
  have hinv := inv_advance h.inv hstep
  cases hpc : s.pc p <;> simp only [advance, hpc] at hstep
  case idle => cases hstep
  case acquire k =>
    split_ifs at hstep with hfree
    cases hstep
    exact sleepInv_acquire h hpc hfree
  case writeLoop b i =>
    split_ifs at hstep <;> cases hstep
    · exact h.goto hinv hpc rfl rfl rfl fun q c _ hw => hw
    · exact h.wake_readers hinv hpc rfl rfl fun _ _ hw => hw.1
  case writeCheck b i =>
    split_ifs at hstep <;> cases hstep <;> exact h.goto hinv hpc rfl rfl rfl fun q c _ hw => hw
  case writeFull b i =>
    split_ifs at hstep <;> cases hstep
    · exact h.wake_readers hinv hpc rfl rfl fun _ _ hw => hw.1
    · exact h.goto hinv hpc rfl rfl rfl fun q c _ hw => hw
  case writeCopy b i =>
    cases hch : b.byte i with
    | none =>
      rw [hch] at hstep
      cases hstep
      exact h.wake_readers hinv hpc rfl rfl fun _ _ hw => hw.1
    | some ch =>
      rw [hch] at hstep
      cases hstep
      exact sleepInv_push h hpc hch
  case writeFail b i =>
    cases hstep
    refine h.release hinv hpc rfl rfl rfl rfl rfl fun q c hq hw => ?_
    obtain ⟨rfl, hpos⟩ := hw
    rcases hok (by rw [hpc]; rfl) with hzero | hnone
    · omega
    · exact hnone q hq
  case writeDone b i =>
    cases hstep
    exact h.release hinv hpc rfl rfl rfl rfl rfl fun q c _ hw => hw
  case readWait b =>
    split_ifs at hstep <;> cases hstep <;>
      exact h.goto hinv hpc rfl rfl rfl fun q c _ hw => hw.elim
  case readKilled b =>
    split_ifs at hstep <;> cases hstep <;> exact h.goto hinv hpc rfl rfl rfl fun q c _ hw => hw
  case readCopy b i =>
    have hvisit : ∀ q, Wakes s.stored .nwrite q (.wakeup .nwrite (List.finRange N) .release) :=
      fun q => Or.inl ⟨rfl, List.mem_finRange q⟩
    split_ifs at hstep with hi hempty <;> cases hstep
    · exact h.goto hinv hpc rfl rfl rfl fun q c _ hw => (show c = .nwrite from hw) ▸ hvisit q
    · exact sleepInv_pop h hinv hpc hempty rfl fun q => rfl
    · exact sleepInv_pop h hinv hpc hempty rfl hvisit
    · exact h.goto hinv hpc rfl rfl rfl fun q c _ hw => (show c = .nwrite from hw) ▸ hvisit q
  case close writable =>
    cases hstep
    exact sleepInv_shut h hpc
  case release =>
    cases hstep
    exact h.release hinv hpc rfl rfl rfl rfl rfl fun q c _ hw => hw
  case wakeup c todo k =>
    have hknown := h.inv.known p
    rw [hpc] at hknown
    cases todo with
    | nil =>
      cases hstep
      refine h.goto hinv hpc rfl rfl ?_ fun q c' _ hw => hw.resolve_left fun hmem => ?_
      · cases k <;> first | rfl | cases hknown.1
      · cases hmem.2
    | cons q todo =>
      simp only at hstep
      split_ifs at hstep with hself hlock <;> cases hstep
      · -- a process does not visit itself
        subst hself
        refine h.goto hinv hpc rfl rfl rfl fun r c' hr hw => hw.imp_left fun hmem => ⟨hmem.1, ?_⟩
        refine (List.mem_cons.mp hmem.2).resolve_left ?_
        rintro rfl
        have hhold := h.not_holding hr
        rw [hpc] at hhold
        cases hhold
      · rw [Bool.not_eq_true] at hlock
        exact sleepInv_visit h hpc hself hlock
  case sleepLock c k =>
    cases hstep
    exact sleepInv_sleepLock h hpc
  case sleepRelease c k =>
    cases hstep
    exact sleepInv_sleepRelease h hpc hinv
  case sleepSched c k =>
    cases hstep
    exact sleepInv_sleepSched h hpc ⟨hinv.lock, hinv.known, hinv.ring, hinv.order⟩
  case asleep c k =>
    split_ifs at hstep with hawake
    cases hstep
    refine h.outside hinv (by rw [hpc]; rfl) (by rw [hpc]; rfl) (fun c' => ?_) rfl
    rw [hawake]
    exact fun hc => by cases hc

theorem sleepInv_step (a : Act N) (h : SleepInv s) (hok : Harmless s a) (hstep : step s a = some t) :
    SleepInv t := by
  have hinv := inv_step a h.inv hstep
  cases a with
  | call p c =>
    rw [step] at hstep
    split_ifs at hstep with hidle
    cases hstep
    have hpc := eq_idle hidle
    refine h.outside hinv (by rw [hpc]; rfl) (by rw [hpc]; rfl) (fun c' hc' => ?_) rfl
    obtain ⟨k, hk⟩ := h.asleep p c' hc'
    rw [hpc] at hk
    cases hk
  | advance p => exact sleepInv_advance h hok hstep
  | kill p =>
    rw [step] at hstep
    split_ifs at hstep
    cases hstep
    exact h.setSlot rfl fun c hc => by cases hc

/-! ## The result -/

/-- **No reader or writer is left asleep** in the runs in which no `pipewrite` takes its
early return after it has stored bytes that sleeping readers have not been told of. -/
theorem none_left_asleep (N : ℕ) (data : ℕ → UInt8) (acts : List (Act N))
    (h : Meets step Harmless (start N data) acts) : Always step NoneLeft (start N data) acts :=
  always_of_invariant (fun _ a _ => sleepInv_step a) (fun _ => SleepInv.noneLeft) acts _
    (sleepInv_start N data) h

/-- The place in `sleep` between the release of `pi->lock` and `sched`. -/
def Pc.goesToSleep : Pc N → Option Chan
  | .sleepSched c _ => some c
  | _ => none

theorem goesToSleep_eq_some : k.goesToSleep = some c ↔ ∃ k', k = .sleepSched c k' := by
  constructor
  · intro h
    cases k <;> cases h
    exact ⟨_, rfl⟩
  · rintro ⟨k', rfl⟩
    rfl

instance (s : St N) (p : Fin N) (c : Chan) : Decidable (Sleeps s p c) :=
  decidable_of_iff ((s.proc p).asleep = some c ∨ (s.pc p).goesToSleep = some c)
    (or_congr_right goesToSleep_eq_some)

instance (s : St N) : (a : Act N) → Decidable (Harmless s a)
  | .advance p => inferInstanceAs (Decidable ((s.pc p).fails = true → _))
  | .call _ _ => isTrue trivial
  | .kill _ => isTrue trivial

/-- Process 0 reads from the empty pipe and falls asleep, then process 1 starts to write
two bytes and has stored the first. -/
def firstByte : List (Act 2) :=
  .call 0 (.read ⟨fun _ => true, 1⟩) :: List.replicate 6 (.advance 0) ++
    .call 1 (.write ⟨fun _ => some 7, 2⟩) :: List.replicate 6 (.advance 1)

/-- The write goes on undisturbed: both bytes are stored and the reader is woken. -/
theorem none_left_asleep_after_write :
    Always step NoneLeft (start 2 fun _ => 0) (firstByte ++ List.replicate 12 (.advance 1)) :=
  none_left_asleep 2 _ _ (by decide +kernel)

/-- **A killed writer leaves a reader asleep on available data.**  The writer is killed
after its first byte, returns without a wakeup, and the reader sleeps with a byte in the
pipe and the lock free. -/
theorem killed_writer_leaves_reader :
    (run step (start 2 fun _ => 0) (firstByte ++ [.kill 1, .advance 1, .advance 1])).map
        (fun s => (s.holder, (s.proc 0).asleep, s.pipe.nread, s.pipe.nwrite))
      = some (none, some .nread, 0, 1) ∧ ¬ Always step NoneLeft (start 2 fun _ => 0)
      (firstByte ++ [.kill 1, .advance 1, .advance 1]) := by
  have hend : (run step (start 2 fun _ => 0) (firstByte ++ [.kill 1, .advance 1, .advance 1])).map
      (fun s => (s.holder, (s.proc 0).asleep, s.pipe.nread, s.pipe.nwrite))
        = some (none, some .nread, 0, 1) := by decide +kernel
  refine ⟨hend, fun hal => ?_⟩
  obtain ⟨s, hs, heq⟩ := Option.map_eq_some_iff.mp hend
  rw [Prod.mk.injEq, Prod.mk.injEq, Prod.mk.injEq] at heq
  obtain ⟨hfree, hasleep, hread, hwrite⟩ := heq
  have hblocked := Always.of_run _ _ s hal hs hfree 0 .nread hasleep
  rw [Blocked, hread, hwrite] at hblocked
  cases hblocked.1

end Pipe

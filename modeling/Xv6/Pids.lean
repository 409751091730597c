/-
# Process ids

`allocpid` hands out the counter `nextpid`, a C `int` that starts at 1 and only grows,
and compares it with nothing.  As long as it has not wrapped, every process has a
positive pid below the counter, so no two processes share one.  Failed calls of `fork`
use up pids as well, and after enough of them the next process gets a negative pid.
-/
import Mathlib.Algebra.Ring.Nat
import Xv6.ProcEffects

namespace Proc

open Function Transition

/-- The pids of processes are positive, and different processes have different pids. -/
structure PidsOk (s : St) : Prop where
  pos : ∀ i, (s.proc i).state ≠ .unused → 0 < (s.proc i).pid.toInt
  inj : ∀ i j, (s.proc i).state ≠ .unused → (s.proc j).state ≠ .unused →
    (s.proc i).pid = (s.proc j).pid → i = j

def Pc.inAllocproc : Pc → Bool
  | .forkScan _ => true
  | _ => false

/-- `allocproc` looks for a slot only while `nextpid` is positive. -/
def Unwrapped (s : St) : Act → Prop
  | .advance p _ => (s.pc p).inAllocproc → 0 < s.nextpid.toInt
  | _ => True

instance (s : St) : (a : Act) → Decidable (Unwrapped s a)
  | .schedule _ => isTrue trivial
  | .yield _ => isTrue trivial
  | .sleep _ _ => isTrue trivial
  | .wakeup _ _ => isTrue trivial
  | .setkilled _ => isTrue trivial
  | .call _ _ => isTrue trivial
  | .advance p _ =>
    inferInstanceAs (Decidable ((s.pc p).inAllocproc = true → 0 < s.nextpid.toInt))

/-- The invariant: besides, the pids are below `nextpid` until it wraps. -/
structure PidInv (s : St) : Prop extends PidsOk s where
  below : 0 < s.nextpid.toInt →
    ∀ i, (s.proc i).state ≠ .unused → (s.proc i).pid.toInt < s.nextpid.toInt

variable {s t : St} {k : ℕ} {a : Act}

/-- A step that keeps the pid of the slot it changes, or frees it. -/
theorem PidInv.slot (h : PidInv s) {P : Slot} (hproc : t.proc = update s.proc k P)
    (hnext : t.nextpid = s.nextpid)
    (hP : P.state ≠ .unused → (s.proc k).state ≠ .unused ∧ P.pid = (s.proc k).pid) : PidInv t := by
  have hback : ∀ i, (t.proc i).state ≠ .unused →
      (s.proc i).state ≠ .unused ∧ (t.proc i).pid = (s.proc i).pid := by
    intro i hi
    rw [hproc] at hi ⊢
    by_cases hik : i = k
    · rw [hik, update_self] at hi ⊢
      exact hP hi
    · rw [update_of_ne hik] at hi ⊢
      exact ⟨hi, rfl⟩
  constructor
  · constructor
    · intro i hi
      rw [(hback i hi).2]
      exact h.pos i (hback i hi).1
    · intro i j hi hj heq
      rw [(hback i hi).2, (hback j hj).2] at heq
      exact h.inj i j (hback i hi).1 (hback j hj).1 heq
  · intro hpos i hi
    rw [hnext] at hpos ⊢
    rw [(hback i hi).2]
    exact h.below hpos i (hback i hi).1

/-- The counter after `allocpid` is negative, or one more. -/
theorem toInt_succ {n : CInt} (hn : 0 < (n + 1).toInt) (hpos : 0 < n.toInt) :
    n.toInt < (n + 1).toInt := by
  rw [BitVec.toInt_add, Int.bmod_def] at hn ⊢
  simp only [BitVec.reduceToInt] at hn ⊢
  have := BitVec.toInt_lt (x := n)
  split_ifs at hn ⊢ <;> omega

/-- **`allocpid`** while the counter is positive. -/
theorem pidInv_alloc (h : PidInv s) {P : Slot} (hpos : 0 < s.nextpid.toInt)
    (hproc : t.proc = update s.proc k P) (hpid : P.pid = s.nextpid)
    (hnext : t.nextpid = s.nextpid + 1) : PidInv t := by
  have hother : ∀ i, i ≠ k → t.proc i = s.proc i := fun i hi => by rw [hproc, update_of_ne hi]
  have hnew : (t.proc k).pid = s.nextpid := by rw [hproc, update_self, hpid]
  -- the new pid is above the others
  have hlt : ∀ i, i ≠ k → (t.proc i).state ≠ .unused → (t.proc i).pid ≠ s.nextpid := by
    intro i hik hi heq
    have hbelow := h.below hpos i (hother i hik ▸ hi)
    rw [← hother i hik, heq] at hbelow
    exact Int.lt_irrefl _ hbelow
  constructor
  · constructor
    · intro i hi
      by_cases hik : i = k
      · rw [hik, hnew]
        exact hpos
      · rw [hother i hik] at hi ⊢
        exact h.pos i hi
    · intro i j hi hj heq
      by_cases hik : i = k <;> by_cases hjk : j = k
      · rw [hik, hjk]
      · rw [hik, hnew] at heq
        exact absurd heq.symm (hlt j hjk hj)
      · rw [hjk, hnew] at heq
        exact absurd heq (hlt i hik hi)
      · rw [hother i hik] at hi heq
        rw [hother j hjk] at hj heq
        exact h.inj i j hi hj heq
  · intro hpos' i hi
    rw [hnext] at hpos' ⊢
    refine Int.lt_of_le_of_lt ?_ (toInt_succ hpos' hpos)
    by_cases hik : i = k
    · exact Int.le_of_eq (by rw [hik, hnew])
    · rw [hother i hik] at hi ⊢
      exact Int.le_of_lt (h.below hpos i hi)

theorem pidInv_step (hinv : Inv s) (h : PidInv s) (hun : Unwrapped s a)
    (hstep : step s a = some t) : PidInv t := by
  cases step_effect hinv hstep with
  | mild hm =>
    refine h.slot hm.proc (history_eq_iff.mp hm.history).1 fun hs => ⟨?_, hm.alike.pid⟩
    exact fun hfree => hs (hm.alike.unused.mpr hfree)
  | alloc hpc _ _ _ ht =>
    subst ht
    exact pidInv_alloc h (hun (by rw [hpc]; rfl)) rfl rfl rfl
  | @made p np ok hpc ht =>
    have hp : PcOk s p (.forkHold np) := hpc ▸ hinv.pcs p
    subst ht
    cases ok with
    | true => exact h.slot rfl rfl fun hs => ⟨hs, rfl⟩
    | false => exact h.slot rfl rfl fun hs => absurd rfl hs
  | exited hrun ht =>
    unfold exitZombie at ht
    split_ifs at ht
    cases ht
    exact h.slot rfl rfl fun _ => ⟨by simp [hrun], rfl⟩
  | reaped _ _ _ _ ht =>
    subst ht
    exact h.slot rfl rfl fun hs => absurd rfl hs
  | @hit p k pid ok _ _ _ _ ht =>
    subst ht
    exact h.slot rfl rfl fun hs => ⟨fun hfree => hs ((setKilled_state (s.proc k)).1.mpr hfree), rfl⟩
  | @missed p pid ok ht =>
    subst ht
    exact ⟨⟨h.pos, h.inj⟩, h.below⟩

theorem pidInv_init : PidInv init := by
  have hlive : ∀ i, (init.proc i).state ≠ .unused → i = initproc := by
    intro i hi
    by_contra hne
    simp only [init, update_of_ne hne] at hi
    exact hi rfl
  constructor
  · constructor
    · intro i hi
      rw [hlive i hi]
      decide
    · intro i j hi hj _
      rw [hlive i hi, hlive j hj]
  · intro _ i hi
    rw [hlive i hi]
    decide

/-- **Pids are positive and unique** in every run in which `allocproc` is not called
after `nextpid` has wrapped. -/
theorem always_pidsOk_of_unwrapped (as : List Act) (hun : Meets step Unwrapped init as) :
    Always step PidsOk init as :=
  always_of_invariant (fun _ _ _ hs hP ht => ⟨inv_step hs.1 ht, pidInv_step hs.1 hs.2 hP ht⟩)
    (fun u (hu : Inv u ∧ PidInv u) => hu.2.toPidsOk) as init ⟨inv_init, pidInv_init⟩ hun

/-- A call of `fork` by `initproc` that fails for want of memory when `copied` is false. -/
def forkInit (copied : Bool) : List Act :=
  [.call 0 .fork, .advance 0 true, .advance 0 true, .advance 0 copied]

theorem always_pidsOk_of_unwrapped_fork : Always step PidsOk init (.schedule 0 :: forkInit true) :=
  always_pidsOk_of_unwrapped _ (by decide +kernel)

/-- `initproc` runs and there is no other process. -/
def alone (n : CInt) : St :=
  { init.setProc initproc { Slot.empty with state := .running, pid := 1 } with nextpid := n }

/-- A failed `fork` leaves nothing behind but a larger `nextpid`. -/
theorem run_failedFork (n : CInt) : run step (alone n) (forkInit false) = some (alone (n + 1)) := by
  have hproc : update (update (alone n).proc 1
      { Slot.empty with pid := n, state := .used, lock := true }) 1 Slot.empty = (alone n).proc := by
    funext i
    by_cases hi : i = 1
    · rw [hi, update_self]
      rfl
    · rw [update_of_ne hi, update_of_ne hi]
  have hpc : update (update (update (update init.pc 0 (.forkScan 0)) 0 (.forkScan 1)) 0
      (.forkHold 1)) 0 .user = init.pc := by
    funext i
    by_cases hi : i = 0
    · rw [hi, update_self]
      rfl
    · rw [update_of_ne hi, update_of_ne hi, update_of_ne hi, update_of_ne hi]
  have hrun : run step (alone n) (forkInit false) = some { alone (n + 1) with
      proc := update (update (alone n).proc 1
        { Slot.empty with pid := n, state := .used, lock := true }) 1 Slot.empty
      pc := update (update (update (update init.pc 0 (.forkScan 0)) 0 (.forkScan 1)) 0
        (.forkHold 1)) 0 .user } := rfl
  rw [hrun, hproc, hpc]
  rfl

theorem run_failedForks (m : ℕ) (n : CInt) (as : List Act) :
    run step (alone n) ((List.replicate m (forkInit false)).flatten ++ as) =
      run step (alone (n + BitVec.ofNat 32 m)) as := by
  induction m generalizing n with
  | zero => simp
  | succ m ih =>
    rw [List.replicate_succ, List.flatten_cons, List.append_assoc, run_append, run_failedFork,
      Option.bind_some, ih]
    congr 2
    bv_omega

/-- `initproc` uses up the positive pids and forks once more. -/
def wrapPids : List Act :=
  .schedule 0 :: ((List.replicate (2 ^ 31 - 2) (forkInit false)).flatten ++ forkInit true)

/-- **A negative pid**: after 2147483646 failed calls of `fork` the next process gets
the pid -2147483648. -/
theorem wrapPids_negative : ∃ s, run step init wrapPids = some s ∧
    (s.proc 1).state = .used ∧ (s.proc 1).pid.toInt = -2147483648 ∧ ¬ PidsOk s := by
  have hstart : step init (.schedule 0) = some (alone 2) := by
    rfl
  have hlast : ∃ s, run step (alone (2 + BitVec.ofNat 32 (2 ^ 31 - 2))) (forkInit true) = some s ∧
      (s.proc 1).state = .used ∧ (s.proc 1).pid = 2 + BitVec.ofNat 32 (2 ^ 31 - 2) :=
    ⟨_, rfl, rfl, rfl⟩
  obtain ⟨s, hrun, hused, hpid⟩ := hlast
  have hneg : (s.proc 1).pid.toInt = -2147483648 := by rw [hpid]; decide
  refine ⟨s, ?_, hused, hneg, fun hok => ?_⟩
  · rw [wrapPids, run, hstart, Option.bind_some, run_failedForks]
    exact hrun
  · have := hok.pos 1 (by simp [hused])
    omega

end Proc

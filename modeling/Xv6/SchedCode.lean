/-
# What a kernel thread may still do

The discipline that the functions of `proc.c` and `sleeplock.c` keep is a property of the
instructions a thread has left: which spin locks it holds before each of them, whether its
state is `RUNNING`, and whether its registers have been saved.  `Wf` says that the rest
of a thread keeps the discipline from such a view on.

An instruction of well-formed code never panics, its effect is `Safe`, and the code after it
is well formed for the view after it (`exec_wf`).
-/
import Xv6.Sched

namespace Sched

variable {M N : ℕ}

/-! ## The branches of an instruction -/

/-- **Inversion of `exec`**: the ways an instruction can go, with the test of each. -/
inductive Exec (s : St M N) (c : Fin M) : Instr N → Effect N → Code N → Prop
  | panic (i : Instr N) : Exec s c i .panic []
  | acquire {l : Lock N} (h : s.lock l = none) : Exec s c (.acquire l) (.acquire l) []
  | release {l : Lock N} : Exec s c (.release l) (.release l) []
  | setState {p : Fin N} {st : PState} (hp : s.cproc c = some p) :
    Exec s c (.setState st) (.state p st) []
  | setChan {p : Fin N} {ch : Option (Chan N)} (hp : s.cproc c = some p) :
    Exec s c (.setChan ch) (.chan p ch) []
  | schedCheck : Exec s c .schedCheck .nop []
  | save {p : Fin N} (hp : s.cproc c = some p) : Exec s c .save (.saved p false) []
  | saved {p : Fin N} (hp : s.cproc c = some p) : Exec s c .saved (.saved p true) []
  | load : Exec s c .load .toSched []
  | sleepAcquire {p : Fin N} {ch : Chan N} {lk : Lock N} (hp : s.cproc c = some p)
    (h : s.lock (.proc p) = none) :
    Exec s c (.sleepAcquire ch lk) (.acquire (.proc p)) [.sleepRelease ch lk]
  | sleepRelease {p : Fin N} {ch : Chan N} {lk : Lock N} (hp : s.cproc c = some p) :
    Exec s c (.sleepRelease ch lk) (.drop p ch lk) (sleepRest p ch lk)
  | wakeupDone {ch : Chan N} : Exec s c (.wakeup ch []) .nop []
  | wakeupSelf {ch : Chan N} {q : Fin N} {todo : List (Fin N)} (hq : s.cproc c = some q) :
    Exec s c (.wakeup ch (q :: todo)) .nop [.wakeup ch todo]
  | wakeupNext {ch : Chan N} {q : Fin N} {todo : List (Fin N)} (hq : s.cproc c ≠ some q) :
    Exec s c (.wakeup ch (q :: todo)) .nop [.wakeAcquire ch q todo]
  | wakeAcquire {ch : Chan N} {q : Fin N} {todo : List (Fin N)} (h : s.lock (.proc q) = none) :
    Exec s c (.wakeAcquire ch q todo) (.acquire (.proc q)) [.wakeOne ch q todo]
  | wakeOne {ch : Chan N} {q : Fin N} {todo : List (Fin N)}
    (h : s.state q = .SLEEPING ∧ s.chan q = some ch) :
    Exec s c (.wakeOne ch q todo) (.state q .RUNNABLE) [.wakeRelease ch q todo]
  | wakeSkip {ch : Chan N} {q : Fin N} {todo : List (Fin N)}
    (h : ¬(s.state q = .SLEEPING ∧ s.chan q = some ch)) :
    Exec s c (.wakeOne ch q todo) .nop [.wakeRelease ch q todo]
  | wakeRelease {ch : Chan N} {q : Fin N} {todo : List (Fin N)} :
    Exec s c (.wakeRelease ch q todo) (.release (.proc q)) [.wakeup ch todo]
  | killDone {pid : ℕ} : Exec s c (.kill pid []) .nop []
  | killNext {pid : ℕ} {q : Fin N} {todo : List (Fin N)} :
    Exec s c (.kill pid (q :: todo)) .nop [.acquire (.proc q), .killOne pid q todo]
  | killOne {pid : ℕ} {q : Fin N} {todo : List (Fin N)} :
    Exec s c (.killOne pid q todo) (.killed q) [.killWake q, .release (.proc q)]
  | killSkip {pid : ℕ} {q : Fin N} {todo : List (Fin N)} :
    Exec s c (.killOne pid q todo) .nop [.release (.proc q), .kill pid todo]
  | killWake {q : Fin N} (h : s.state q = .SLEEPING) :
    Exec s c (.killWake q) (.state q .RUNNABLE) []
  | killAwake {q : Fin N} (h : s.state q ≠ .SLEEPING) : Exec s c (.killWake q) .nop []
  | allocDone : Exec s c (.alloc []) .nop []
  | allocNext {q : Fin N} {todo : List (Fin N)} :
    Exec s c (.alloc (q :: todo)) .nop [.acquire (.proc q), .allocCheck q todo]
  | allocFound {q : Fin N} {todo : List (Fin N)} (h : s.state q = .UNUSED) :
    Exec s c (.allocCheck q todo) .nop [.allocPid q]
  | allocSkip {q : Fin N} {todo : List (Fin N)} :
    Exec s c (.allocCheck q todo) .nop [.release (.proc q), .alloc todo]
  | allocPid {q : Fin N} (h : s.lock .pidLock = none) :
    Exec s c (.allocPid q) (.acquire .pidLock) [.takePid q]
  | takePid {q : Fin N} : Exec s c (.takePid q) (.pid q) [.dropPid q]
  | dropPid {q : Fin N} : Exec s c (.dropPid q) (.release .pidLock) [.use q]
  | use {q : Fin N} : Exec s c (.use q) (.birth q) [.allocRest q]
  | allocRest {q : Fin N} : Exec s c (.allocRest q) .nop (forkRest q)
  | allocFail {q : Fin N} : Exec s c (.allocRest q) (.free q) [.release (.proc q)]
  | freeproc {q : Fin N} : Exec s c (.freeproc q) (.free q) []
  | setParent {q : Fin N} : Exec s c (.setParent q) (.parent q (s.cproc c)) []
  | setReady {q : Fin N} : Exec s c (.setReady q) (.state q .RUNNABLE) []
  | reparentDone : Exec s c (.reparent []) .nop []
  | reparentNext {q : Fin N} {todo : List (Fin N)} :
    Exec s c (.reparent (q :: todo)) (.parent q (some s.initproc))
      (wakeup (.proc s.initproc) ++ [.reparent todo])
  | reparentSkip {q : Fin N} {todo : List (Fin N)} :
    Exec s c (.reparent (q :: todo)) .nop [.reparent todo]
  | wakeParent {q : Fin N} : Exec s c .wakeParent .nop (wakeup (.proc q))
  | noParent : Exec s c .wakeParent .nop []
  | waitEnd {p : Fin N} {havekids : Bool} (hp : s.cproc c = some p) :
    Exec s c (.wait [] havekids) .nop [.acquire (.proc p), .waitKilled]
  | waitNone {havekids : Bool} : Exec s c (.wait [] havekids) .nop [.release .waitLock]
  | waitNext {q : Fin N} {todo : List (Fin N)} {havekids : Bool} :
    Exec s c (.wait (q :: todo) havekids) .nop [.acquire (.proc q), .waitCheck q todo]
  | waitSkip {q : Fin N} {todo : List (Fin N)} {havekids : Bool} :
    Exec s c (.wait (q :: todo) havekids) .nop [.wait todo havekids]
  | waitFound {q : Fin N} {todo : List (Fin N)} (h : s.state q = .ZOMBIE) :
    Exec s c (.waitCheck q todo) .nop [.freeproc q, .release (.proc q), .release .waitLock]
  | waitFail {q : Fin N} {todo : List (Fin N)} :
    Exec s c (.waitCheck q todo) .nop [.release (.proc q), .release .waitLock]
  | waitAlive {q : Fin N} {todo : List (Fin N)} :
    Exec s c (.waitCheck q todo) .nop [.release (.proc q), .wait todo true]
  | waitKilled {p : Fin N} (hp : s.cproc c = some p) :
    Exec s c .waitKilled .nop [.release (.proc p), .release .waitLock]
  | waitSleep {p : Fin N} (hp : s.cproc c = some p) :
    Exec s c .waitKilled .nop
      ([.release (.proc p)] ++ sleep (.proc p) .waitLock ++ [.wait (List.finRange N) false])
  | isLocked {i : ℕ} (h : s.locked i = true) :
    Exec s c (.testLocked i) .nop (sleep (.sleep i) (.sleep i) ++ [.testLocked i])
  | notLocked {i : ℕ} (h : s.locked i = false) :
    Exec s c (.testLocked i) (.locked i true) [.release (.sleep i), .critical i]
  | unlock {i : ℕ} : Exec s c (.unlock i) (.locked i false) []

variable {i : Instr N} {l lk : Lock N} {k' : Code N} {st : PState} {q p : Fin N} {ch : Chan N}
    {todo : List (Fin N)} {pid n : ℕ}

theorem exec_cases {s : St M N} {c : Fin M} {b : Bool} {e : Effect N} {new : Code N}
    (hx : exec s c b i = some (e, new)) : Exec s c i e new := by
  revert hx
  fun_cases exec s c b i
  case case13 => -- sleepAcquire
    rw [Option.bind_eq_some_iff]
    rintro ⟨p, hp, hx⟩
    split_ifs at hx with hself hfree
    · cases hx
      exact .panic _
    · cases hx
      exact .sleepAcquire hp hfree
  -- where no process is looked up, the branch determines the way
  all_goals try
    rintro ⟨⟩
    first
      | done
      | exact .panic _
      | exact .notLocked (Bool.eq_false_iff.mpr ‹_›)
      | constructor <;> assumption
  all_goals
    rw [Option.map_eq_some_iff]
    rintro ⟨p, hp, hx⟩
    try split at hx
    all_goals
      cases hx
      first
        | exact .panic _
        | constructor <;> assumption

/-! ## Views -/

/-- What a CPU knows while it executes instructions: the spin locks it holds, the state of
its process, and whether the registers of the process are saved. -/
@[ext] structure View (N : ℕ) where
  held : List (Lock N)
  st : PState
  saved : Bool

/-- The process runs. -/
def View.Plain (σ : View N) : Prop := σ.st = .RUNNING ∧ σ.saved = false

/-- The states in which a process leaves its CPU. -/
def PState.Leaves (st : PState) : Prop := st = .RUNNABLE ∨ st = .SLEEPING ∨ st = .ZOMBIE

theorem PState.Leaves.ne (h : st.Leaves) : st ≠ .RUNNING := by
  rcases h with rfl | rfl | rfl <;> decide

/-- The view when `swtch` comes back: for a zombie, never. -/
def View.resumed (σ : View N) : View N :=
  if σ.st = .ZOMBIE then ⟨[], .ZOMBIE, false⟩ else ⟨σ.held, .RUNNING, false⟩

def Lock.isProc : Lock N → Bool
  | .proc _ => true
  | _ => false

/-- A lock is held, and no process lock is. -/
def Guarded (H : List (Lock N)) : Prop := H ≠ [] ∧ ∀ l ∈ H, l.isProc = false

/-- A process that is not `q`. -/
def Other (me : Option (Fin N)) (q : Fin N) : Prop := ∃ p, me = some p ∧ p ≠ q

theorem Other.ne {me : Option (Fin N)} (h : Other me q) : me ≠ some q := by
  obtain ⟨p, rfl, hpq⟩ := h
  exact fun heq => hpq (Option.some.inj heq)

/-- What an instruction needs, with the instructions after it. -/
def Pre (me : Option (Fin N)) (σ : View N) (k : Code N) : Instr N → Prop
  | .acquire l => l ∉ σ.held
  | .release l => l ∈ σ.held ∧ ∀ p, me = some p → l = .proc p → σ.st = .RUNNING
  | .setState st => σ.Plain ∧ st.Leaves ∧ ∃ p, me = some p ∧ .proc p ∈ σ.held
  | .setChan _ => σ.Plain ∧ ∃ p, me = some p ∧ .proc p ∈ σ.held
  | .schedCheck | .save | .saved =>
    σ.st.Leaves ∧ ∃ p, me = some p ∧ σ.held = [.proc p]
  | .load => σ.st.Leaves ∧ σ.saved = true ∧ (σ.st = .ZOMBIE → k = [.zombie]) ∧
      ∃ p, me = some p ∧ σ.held = [.proc p]
  | .zombie => σ.st = .ZOMBIE ∧ σ.held = []
  | .sleepAcquire _ lk => σ.Plain ∧ me ≠ none ∧ σ.held = [lk] ∧ lk.isProc = false
  | .sleepRelease _ lk => σ.Plain ∧ lk.isProc = false ∧
      ∃ p, me = some p ∧ σ.held = [.proc p, lk]
  | .wakeup _ _ => σ.Plain ∧ Guarded σ.held
  | .wakeAcquire _ q _ => σ.Plain ∧ Guarded σ.held ∧ me ≠ some q
  | .wakeOne _ q _ | .wakeRelease _ q _ =>
    σ.Plain ∧ me ≠ some q ∧ ∃ H, σ.held = .proc q :: H ∧ Guarded H
  | .kill _ _ => σ.Plain ∧ σ.held = []
  | .killOne _ q _ | .killWake q => σ.Plain ∧ σ.held = [.proc q]
  | .alloc _ => σ.Plain ∧ me ≠ none ∧ σ.held = []
  | .allocCheck q _ => σ.Plain ∧ me ≠ none ∧ σ.held = [.proc q]
  | .allocPid q | .use q | .allocRest q | .setReady q =>
    σ.Plain ∧ Other me q ∧ σ.held = [.proc q]
  | .takePid q | .dropPid q => σ.Plain ∧ Other me q ∧ σ.held = [.pidLock, .proc q]
  | .freeproc q => σ.Plain ∧ Other me q ∧ .proc q ∈ σ.held
  | .setParent _ => σ.Plain
  | .reparent _ | .wakeParent | .wait _ _ => σ.Plain ∧ me ≠ none ∧ σ.held = [.waitLock]
  | .waitCheck q _ => σ.Plain ∧ me ≠ none ∧ σ.held = [.proc q, .waitLock]
  | .waitKilled => σ.Plain ∧ ∃ p, me = some p ∧ σ.held = [.proc p, .waitLock]
  | .testLocked i => σ.Plain ∧ me ≠ none ∧ σ.held = [.sleep i]
  | .critical _ => σ.Plain ∧ me ≠ none ∧ σ.held = []
  | .unlock i => σ.Plain ∧ me ≠ none ∧ σ.held = [.sleep i] ∧
      k.head? = some (.wakeup (.sleep i) (List.finRange N))
  | .client n => σ.Plain ∧ me ≠ none ∧ σ.held = [.other n]

/-- The view when an instruction and all that it puts in front of the rest is done. -/
def post (σ : View N) : Instr N → View N
  | .acquire l => { σ with held := l :: σ.held }
  | .release l => { σ with held := σ.held.erase l }
  | .setState st => { σ with st := st }
  | .save => { σ with saved := false }
  | .saved => { σ with saved := true }
  | .load => σ.resumed
  | .zombie => ⟨[], .RUNNING, false⟩
  | .sleepRelease _ lk => { σ with held := [lk] }
  | .wakeOne _ _ _ | .wakeRelease _ _ _ => { σ with held := σ.held.tail }
  | .killOne _ _ _ | .allocCheck _ _ | .allocPid _ | .takePid _ | .dropPid _ | .use _
  | .allocRest _ | .wait _ _ | .waitCheck _ _ | .waitKilled | .testLocked _ | .client _ =>
    { σ with held := [] }
  | .setChan _ | .schedCheck | .sleepAcquire _ _ | .wakeup _ _ | .wakeAcquire _ _ _ | .kill _ _
  | .killWake _ | .alloc _ | .freeproc _ | .setParent _ | .setReady _ | .reparent _
  | .wakeParent | .critical _ | .unlock _ => σ

/-- **Well-formed code.**  A thread ends with no lock held. -/
def Wf (me : Option (Fin N)) : View N → Code N → Prop
  | σ, [] => σ.held = [] ∧ σ.Plain
  | σ, i :: k => Pre me σ k i ∧ Wf me (post σ i) k

/-- The spin locks that CPU `c` holds. -/
structure Locks (s : St M N) (c : Fin M) (H : List (Lock N)) : Prop where
  nodup : H.Nodup
  held : ∀ l, s.lock l = some c ↔ l ∈ H
  noff : s.noff c = H.length

/-- What CPU `c` sees is so. -/
structure Sees (s : St M N) (c : Fin M) (me : Option (Fin N)) (σ : View N) : Prop
    extends Locks s c σ.held where
  cproc : s.cproc c = me
  mine : ∀ p, me = some p → s.state p = σ.st ∧ s.saved p = σ.saved
  plain : σ.st = .RUNNING → σ.saved = false
  own : σ.st ≠ .RUNNING → ∃ p, me = some p ∧ .proc p ∈ σ.held

/-! ## Effects -/

/-- What an effect needs. -/
def Safe (s : St M N) (me : Option (Fin N)) (σ : View N) : Effect N → Prop
  | .acquire l => l ∉ σ.held ∧ s.lock l = none
  | .release l => l ∈ σ.held ∧ ∀ p, me = some p → l = .proc p → σ.st = .RUNNING
  | .drop p _ lk => σ.Plain ∧ me = some p ∧ σ.held = [.proc p, lk] ∧ lk.isProc = false
  | .state q st => .proc q ∈ σ.held ∧
      (me = some q ∧ σ.Plain ∧ st.Leaves ∨
        me ≠ some q ∧ (s.state q = .SLEEPING ∨ s.state q = .USED) ∧ st = .RUNNABLE)
  | .chan q _ => me = some q ∧ σ.Plain ∧ .proc q ∈ σ.held
  | .saved p _ => me = some p ∧ σ.held = [.proc p] ∧ σ.st.Leaves
  | .birth q => .proc q ∈ σ.held ∧ me ≠ some q ∧ s.state q = .UNUSED
  | .free q => .proc q ∈ σ.held ∧ me ≠ some q ∧ (s.state q = .USED ∨ s.state q = .ZOMBIE)
  | .locked i _ => .sleep i ∈ σ.held
  | .toSched => σ.st.Leaves ∧ σ.saved = true ∧ ∃ p, me = some p ∧ σ.held = [.proc p]
  | .panic => False
  | .nop | .pid _ | .parent _ _ | .killed _ => True

/-- The view after an effect. -/
def Effect.view (me : Option (Fin N)) (σ : View N) : Effect N → View N
  | .acquire l => { σ with held := l :: σ.held }
  | .release l => { σ with held := σ.held.erase l }
  | .drop _ _ lk => { σ with held := σ.held.erase lk }
  | .state q st => if me = some q then { σ with st := st } else σ
  | .saved _ b => { σ with saved := b }
  | .toSched => σ.resumed
  | .nop | .chan _ _ | .birth _ | .free _ | .pid _ | .parent _ _ | .killed _ | .locked _ _
  | .panic => σ

/-- The process whose state an instruction relies on, and the states it may have. -/
def Instr.wants : Instr N → Option (Fin N × List PState)
  | .allocPid q | .takePid q | .dropPid q | .use q => some (q, [.UNUSED])
  | .allocRest q | .setReady q => some (q, [.USED])
  | .freeproc q => some (q, [.ZOMBIE])
  | _ => none

variable {s : St M N} {c : Fin M} {me : Option (Fin N)} {σ : View N} {b : Bool} {k : Code N}
  {e : Effect N} {new : Code N}

@[simp] theorem wf_nil : Wf me σ [] ↔ σ.held = [] ∧ σ.Plain := Iff.rfl

@[simp] theorem wf_cons : Wf me σ (i :: k) ↔ Pre me σ k i ∧ Wf me (post σ i) k := Iff.rfl

theorem Sees.not_held (hs : Sees s c me σ) (hl : l ∉ σ.held) :
    s.lock l ≠ some c := fun h => hl ((hs.held l).mp h)

/-- A process that is not `RUNNING` is another one. -/
theorem Sees.other (hs : Sees s c me σ) (hme : me ≠ none) (hq : s.state q ≠ .RUNNING)
    (hrun : σ.st = .RUNNING) : Other me q := by
  obtain ⟨p, rfl⟩ := Option.ne_none_iff_exists'.mp hme
  refine ⟨p, rfl, ?_⟩
  rintro rfl
  exact hq ((hs.mine p rfl).1.trans hrun)

theorem sched_wf {sv : Bool} (hst : st.Leaves)
    (hlive : st ≠ .ZOMBIE → Wf (some p) ⟨[.proc p], .RUNNING, false⟩ k)
    (hdead : st = .ZOMBIE → k = [.zombie]) : Wf (some p) ⟨[.proc p], st, sv⟩ (sched ++ k) := by
  refine ⟨⟨hst, p, rfl, rfl⟩, ⟨hst, p, rfl, rfl⟩, ⟨hst, p, rfl, rfl⟩,
    ⟨hst, rfl, hdead, p, rfl, rfl⟩, ?_⟩
  by_cases hz : st = .ZOMBIE
  · subst hz
    rw [hdead rfl]
    exact ⟨⟨rfl, rfl⟩, rfl, rfl, rfl⟩
  · have hview : (View.mk [Lock.proc p] st true).resumed = ⟨[.proc p], .RUNNING, false⟩ :=
      if_neg hz
    show Wf (some p) (View.mk [Lock.proc p] st true).resumed k
    rw [hview]
    exact hlive hz

/-- The discipline of `sleep` after it has released `lk`. -/
theorem sleepRest_wf (hk : Wf (some p) ⟨[lk], .RUNNING, false⟩ k) :
    Wf (some p) ⟨[.proc p], .RUNNING, false⟩ (sleepRest p ch lk ++ k) := by
  refine ⟨⟨⟨rfl, rfl⟩, p, rfl, List.mem_singleton_self _⟩,
    ⟨⟨rfl, rfl⟩, .inr (.inl rfl), p, rfl, List.mem_singleton_self _⟩, ?_⟩
  show Wf (some p) ⟨[.proc p], .SLEEPING, false⟩
    (sched ++ ([.setChan none, .release (.proc p), .acquire lk] ++ k))
  refine sched_wf (by simp [PState.Leaves]) (fun _ => ?_) (fun h => by cases h)
  refine ⟨⟨⟨rfl, rfl⟩, p, rfl, List.mem_singleton_self _⟩,
    ⟨List.mem_singleton_self _, fun _ _ _ => rfl⟩, ?_⟩
  simp only [post, List.erase_cons_head]
  exact ⟨List.not_mem_nil, hk⟩

/-! ## One instruction -/

/-- An instruction keeps the discipline: its effect is safe, and the code after it is well
formed for the view after it. -/
def Keeps (s : St M N) (me : Option (Fin N)) (σ : View N) (e : Effect N) (k : Code N) : Prop :=
  Safe s me σ e ∧ Wf me (e.view me σ) k

theorem map_ne_panic {o : Option (Fin N)} {f : Fin N → Effect N × Code N}
    (h : ∀ p, o = some p → (f p).1 ≠ .panic) : o.map f ≠ some (.panic, new) := by
  intro hx
  obtain ⟨p, hp, hx⟩ := Option.map_eq_some_iff.mp hx
  exact h p hp (congrArg Prod.fst hx)

/-- The tests before a panic fail in well-formed code. -/
theorem exec_ne_panic (hs : Sees s c me σ) (hpre : Pre me σ k i) :
    exec s c b i ≠ some (.panic, new) := by
  fun_cases exec s c b i
  -- most branches are none that panics
  all_goals try first
    | (rintro ⟨⟩; done)
    | exact map_ne_panic fun _ _ h => by cases h
  · exact absurd ‹_› (hs.not_held hpre)
  · exact absurd ((hs.held _).mpr hpre.1) ‹_›
  · obtain ⟨hst, p, rfl, hheld⟩ := hpre
    have hlock : s.lock (.proc p) = some c := (hs.held _).mpr (by simp [hheld])
    have hnoff : s.noff c = 1 := by rw [hs.noff, hheld]; rfl
    have hrun : s.state p ≠ .RUNNING := by rw [(hs.mine p rfl).1]; exact hst.ne
    refine map_ne_panic fun p' hp => ?_
    cases hs.cproc.symm.trans hp
    simp [hlock, hnoff, hrun]
  · obtain ⟨p, -, hp⟩ := hs.own (by rw [hpre.1]; decide)
    rw [hpre.2] at hp
    exact absurd hp List.not_mem_nil
  · obtain ⟨-, hme, hheld, hlk⟩ := hpre
    obtain ⟨p, rfl⟩ := Option.ne_none_iff_exists'.mp hme
    have hp : s.lock (.proc p) ≠ some c := hs.not_held fun hmem => by
      rw [hheld, List.mem_singleton] at hmem
      rw [← hmem] at hlk
      cases hlk
    rw [hs.cproc, Option.bind_some, if_neg hp]
    split <;> rintro ⟨⟩
  · obtain ⟨-, -, p, rfl, hheld⟩ := hpre
    refine map_ne_panic fun _ _ => ?_
    rw [if_pos ((hs.held _).mpr (by simp [hheld]))]
    rintro ⟨⟩
  · exact absurd ‹_› (hs.not_held fun hmem => by cases hpre.2.1.2 _ hmem)
  · obtain ⟨-, -, H, hheld, -⟩ := hpre
    refine absurd ((hs.held _).mpr ?_) ‹_›
    simp [hheld]
  · exact absurd ‹_› (hs.not_held (by simp [hpre.2.2]))
  · refine absurd ((hs.held _).mpr ?_) ‹_›
    simp [hpre.2.2]
  all_goals
    refine map_ne_panic fun p _ => ?_
    split <;> rintro ⟨⟩

/-- The effect of an instruction of well-formed code is safe. -/
theorem Exec.safe (hx : Exec s c i e new) (hs : Sees s c me σ) (hpre : Pre me σ k i)
    (hwant : ∀ q sts, i.wants = some (q, sts) → s.state q ∈ sts) (he : e ≠ .panic) :
    Safe s me σ e := by
  cases hx
  case panic => exact absurd rfl he
  case acquire h => exact ⟨hpre, h⟩
  case release => exact hpre
  case setState p st hp =>
    obtain ⟨hplain, hst, p', rfl, hmem⟩ := hpre
    cases hs.cproc.symm.trans hp
    exact ⟨hmem, .inl ⟨rfl, hplain, hst⟩⟩
  case setChan p ch hp =>
    obtain ⟨hplain, p', rfl, hmem⟩ := hpre
    cases hs.cproc.symm.trans hp
    exact ⟨rfl, hplain, hmem⟩
  case save p hp =>
    obtain ⟨hst, p', rfl, hheld⟩ := hpre
    cases hs.cproc.symm.trans hp
    exact ⟨rfl, hheld, hst⟩
  case saved p hp =>
    obtain ⟨hst, p', rfl, hheld⟩ := hpre
    cases hs.cproc.symm.trans hp
    exact ⟨rfl, hheld, hst⟩
  case load =>
    obtain ⟨hst, hsaved, -, hp⟩ := hpre
    exact ⟨hst, hsaved, hp⟩
  case sleepAcquire p ch lk hp h =>
    obtain ⟨-, -, hheld, hlk⟩ := hpre
    refine ⟨fun hmem => ?_, h⟩
    rw [hheld, List.mem_singleton] at hmem
    rw [← hmem] at hlk
    cases hlk
  case sleepRelease p ch lk hp =>
    obtain ⟨hplain, hlk, p', rfl, hheld⟩ := hpre
    cases hs.cproc.symm.trans hp
    exact ⟨hplain, rfl, hheld, hlk⟩
  case wakeAcquire ch q todo h => exact ⟨fun hmem => (by cases hpre.2.1.2 _ hmem), h⟩
  case wakeOne ch q todo h =>
    obtain ⟨-, hq, H, hheld, -⟩ := hpre
    exact ⟨by simp [hheld], .inr ⟨hq, .inl h.1, rfl⟩⟩
  case wakeRelease ch q todo =>
    obtain ⟨-, hq, H, hheld, -⟩ := hpre
    exact ⟨by simp [hheld], fun p hp hl => absurd (hp.trans (by rw [Lock.proc.inj hl])) hq⟩
  case killWake q h =>
    refine ⟨by simp [hpre.2], .inr ⟨?_, .inl h, rfl⟩⟩
    rintro rfl
    rw [(hs.mine q rfl).1, hpre.1.1] at h
    cases h
  case allocPid q h => exact ⟨by simp [hpre.2.2], h⟩
  case dropPid q => exact ⟨by simp [hpre.2.2], fun _ _ _ => hpre.1.1⟩
  case use q =>
    exact ⟨by simp [hpre.2.2], hpre.2.1.ne, by simpa using hwant q _ rfl⟩
  case allocFail q =>
    exact ⟨by simp [hpre.2.2], hpre.2.1.ne, .inl (by simpa using hwant q _ rfl)⟩
  case freeproc q => exact ⟨hpre.2.2, hpre.2.1.ne, .inr (by simpa using hwant q _ rfl)⟩
  case setReady q =>
    exact ⟨by simp [hpre.2.2], .inr ⟨hpre.2.1.ne, .inr (by simpa using hwant q _ rfl), rfl⟩⟩
  case notLocked i h => simp [Safe, hpre.2.2]
  case unlock i => simp [Safe, hpre.2.2.1]
  all_goals exact trivial

/-- The code after an instruction is well formed for the view after it. -/
theorem Exec.wf (hx : Exec s c i e new) (hs : Sees s c me σ) (hw : Wf me σ (i :: k))
    (hsafe : Safe s me σ e) : Wf me (e.view me σ) (new ++ k) := by
  obtain ⟨hpre, hk⟩ := hw
  cases hx
  case panic => exact hsafe.elim
  case setState p st hp =>
    rw [Effect.view, if_pos (hs.cproc.symm.trans hp)]
    exact hk
  case sleepAcquire p ch lk hp h =>
    obtain ⟨hplain, hme, hheld, hlk⟩ := hpre
    cases hs.cproc.symm.trans hp
    refine ⟨⟨hplain, hlk, p, rfl, ?_⟩, ?_⟩
    · rw [Effect.view, hheld]
    · rw [Effect.view, post, ← hheld]
      exact hk
  case sleepRelease p ch lk hp =>
    obtain ⟨⟨hst, hsv⟩, rfl, hheld, hlk⟩ := hsafe
    have hne : (Lock.proc p == lk) = false := by
      rw [beq_eq_false_iff_ne]
      rintro rfl
      cases hlk
    rw [Effect.view, hheld, List.erase_cons_tail (by simpa using hne), List.erase_cons_head, hst, hsv]
    rw [post, hst, hsv] at hk
    exact sleepRest_wf hk
  case wakeupNext ch q todo hq => exact ⟨⟨hpre.1, hpre.2, hs.cproc ▸ hq⟩, hk⟩
  case wakeAcquire ch q todo h => exact ⟨⟨hpre.1, hpre.2.2, σ.held, rfl, hpre.2.1⟩, hk⟩
  case wakeOne ch q todo h =>
    rw [Effect.view, if_neg hpre.2.1]
    exact ⟨hpre, hk⟩
  case wakeRelease ch q todo =>
    obtain ⟨hplain, hq, H, hheld, hH⟩ := hpre
    rw [post, hheld] at hk
    rw [Effect.view, hheld, List.erase_cons_head]
    exact ⟨⟨hplain, hH⟩, hk⟩
  case killWake q h =>
    rcases hsafe.2 with ⟨rfl, -, -⟩ | ⟨hq, -⟩
    · rw [(hs.mine q rfl).1, hpre.1.1] at h
      cases h
    · rw [Effect.view, if_neg hq]
      exact hk
  case allocFound q todo h =>
    exact ⟨⟨hpre.1, hs.other hpre.2.1 (by rw [h]; decide) hpre.1.1, hpre.2.2⟩, hk⟩
  case setReady q =>
    rw [Effect.view, if_neg hpre.2.1.ne]
    exact hk
  case waitEnd p havekids hp =>
    obtain ⟨hplain, -, hheld⟩ := hpre
    refine ⟨by simp [Pre, Effect.view, hheld], ⟨hplain, p, hs.cproc.symm.trans hp, ?_⟩, hk⟩
    simp [Effect.view, post, hheld]
  case waitFound q todo h =>
    have hq : Other me q := hs.other hpre.2.1 (by rw [h]; decide) hpre.1.1
    obtain ⟨H, st, sv⟩ := σ
    obtain ⟨⟨rfl, rfl⟩, -, rfl⟩ := hpre
    simpa [Effect.view, Pre, View.Plain, post, hq] using hk
  case waitKilled p hp =>
    obtain ⟨H, st, sv⟩ := σ
    obtain ⟨⟨rfl, rfl⟩, p, rfl, rfl⟩ := hpre
    cases hs.cproc.symm.trans hp
    simpa [Effect.view, Pre, post] using hk
  case waitSleep p hp =>
    obtain ⟨H, st, sv⟩ := σ
    obtain ⟨⟨rfl, rfl⟩, p, rfl, rfl⟩ := hpre
    cases hs.cproc.symm.trans hp
    simpa [Effect.view, sleep, Pre, post, View.Plain, Lock.isProc] using hk
  all_goals first
    | exact hk
    | exact ⟨hpre, hk⟩
    | -- the locks before and after are known: what the next instructions need is computed
      obtain ⟨H, st, sv⟩ := σ
      obtain ⟨⟨rfl, rfl⟩, hme, rfl⟩ := hpre
      simpa [Effect.view, Pre, View.Plain, post, Guarded, Lock.isProc, forkRest, wakeup, sleep, hme]
        using hk
    | obtain ⟨H, st, sv⟩ := σ
      obtain ⟨⟨rfl, rfl⟩, rfl⟩ := hpre
      simpa [Effect.view, Pre, View.Plain, post] using hk

/-- **One instruction** of well-formed code keeps the discipline, when the processes whose
state it relies on are in that state. -/
theorem exec_wf (hs : Sees s c me σ) (hw : Wf me σ (i :: k))
    (hwant : ∀ q sts, i.wants = some (q, sts) → s.state q ∈ sts)
    (hx : exec s c b i = some (e, new)) : Keeps s me σ e (new ++ k) := by
  have he : e ≠ .panic := by
    rintro rfl
    exact exec_ne_panic hs hw.1 hx
  have hsafe := (exec_cases hx).safe hs hw.1 hwant he
  exact ⟨hsafe, (exec_cases hx).wf hs hw hsafe⟩

/-! ## What an instruction leaves to do -/

/-- The instructions that may stand behind others.  Those in the middle of a loop or of an
allocation are only ever the next one. -/
def Instr.Deep : Instr N → Prop
  | .wakeup _ todo => todo = List.finRange N
  | .sleepAcquire ch _ => ∀ i, ch ≠ .sleep i
  | .sleepRelease _ _ | .wakeAcquire _ _ _ | .wakeOne _ _ _ | .wakeRelease _ _ _ | .allocPid _
  | .takePid _ | .dropPid _ | .use _ | .allocRest _ | .freeproc _ => False
  | _ => True

theorem Exec.deep (hx : Exec s c i e new) : ∀ j ∈ new.tail, j.Deep := by
  cases hx
  all_goals first
    | exact fun _ hj => absurd hj List.not_mem_nil
    | simp [sleepRest, sched, sleep, wakeup, forkRest, Instr.Deep]

/-- Only `swtch` leaves the thread. -/
theorem Exec.toSched (hx : Exec s c i .toSched new) : i = .load ∧ new = [] := by
  cases hx
  exact ⟨rfl, rfl⟩

/-- What the next instruction relies on has just been seen or made. -/
theorem Exec.wants (hx : Exec s c i e new)
    (hwant : ∀ q sts, i.wants = some (q, sts) → s.state q ∈ sts) {sts : List PState}
    (hq : new.head?.bind Instr.wants = some (q, sts)) : (s.apply c e).state q ∈ sts := by
  cases hx
  case allocFound h =>
    cases hq
    exact List.mem_singleton.mpr h
  case allocPid => exact hwant q sts hq
  case takePid => exact hwant q sts hq
  case dropPid => exact hwant q sts hq
  case use =>
    cases hq
    simp [St.apply]
  case waitFound h =>
    cases hq
    exact List.mem_singleton.mpr h
  all_goals exact absurd hq.symm (Option.some_ne_none _)

/-- The child that a `fork` still has to make `RUNNABLE`. -/
def Instr.owes : Instr N → Option (Fin N)
  | .allocRest q | .setReady q => some q
  | _ => none

/-- How often `q` is still to be made `RUNNABLE`. -/
def owed (q : Fin N) (k : Code N) : ℕ := k.countP fun i => i.owes = some q

@[simp] theorem owed_nil (q : Fin N) : owed q [] = 0 := rfl

theorem owed_cons (q : Fin N) (i : Instr N) (k : Code N) :
    owed q (i :: k) = owed q [i] + owed q k := by
  rw [owed, owed, owed, List.countP_cons, List.countP_cons, List.countP_nil]
  omega

theorem owed_append (q : Fin N) (k k' : Code N) : owed q (k ++ k') = owed q k + owed q k' :=
  List.countP_append

/-- An instruction keeps what it owes, or makes the child `RUNNABLE` or frees it, or it has
just made the process `USED`. -/
theorem Exec.owed (hx : Exec s c i e new)
    (hwant : ∀ q sts, i.wants = some (q, sts) → s.state q ∈ sts) (hsafe : Safe s me σ e)
    (hs : Sees s c me σ) (q : Fin N) :
    owed q new = owed q [i] ∧ (s.state q = .USED → (s.apply c e).state q = .USED) ∨
      owed q new = 0 ∧ owed q [i] = 1 ∨ owed q new = 1 ∧ owed q [i] = 0 ∧ s.state q = .UNUSED ∧
        (s.apply c e).state q = .USED := by
  have hkeep : ∀ r st, s.state r ≠ .USED → s.state q = .USED →
      Function.update s.state r st q = .USED := by
    intro r st hr hq
    have hqr : q ≠ r := fun heq => hr (heq ▸ hq)
    rw [Function.update_of_ne hqr]
    exact hq
  cases hx
  case panic => exact hsafe.elim
  case setState p st hp =>
    refine .inl ⟨rfl, hkeep p st ?_⟩
    rcases hsafe.2 with ⟨rfl, hplain, -⟩ | ⟨hne, -⟩
    · rw [(hs.mine p rfl).1, hplain.1]
      decide
    · exact absurd (hs.cproc.symm.trans hp) hne
  case wakeOne r todo h => exact .inl ⟨rfl, hkeep r _ (by rw [h.1]; decide)⟩
  case killWake r h => exact .inl ⟨rfl, hkeep r _ (by rw [h]; decide)⟩
  case freeproc r =>
    have hr : s.state r = .ZOMBIE := by simpa using hwant r _ rfl
    exact .inl ⟨rfl, hkeep r _ (by rw [hr]; decide)⟩
  case use r =>
    have hr : s.state r = .UNUSED := by simpa using hwant r _ rfl
    by_cases hrq : r = q
    · subst hrq
      exact .inr (.inr ⟨by simp [Sched.owed, Instr.owes], rfl, hr, by simp [St.apply]⟩)
    · refine .inl ⟨by simp [Sched.owed, Instr.owes, hrq], hkeep r _ (by rw [hr]; decide)⟩
  case allocRest r =>
    exact .inl ⟨by simp [Sched.owed, forkRest, Instr.owes, List.countP_cons], id⟩
  case allocFail r =>
    by_cases hrq : r = q
    · exact .inr (.inl ⟨rfl, by simp [Sched.owed, Instr.owes, hrq]⟩)
    · refine .inl ⟨by simp [Sched.owed, Instr.owes, hrq], fun hq => ?_⟩
      exact (Function.update_of_ne (Ne.symm hrq) _ _).trans hq
  case setReady r =>
    by_cases hrq : r = q
    · exact .inr (.inl ⟨rfl, by simp [Sched.owed, Instr.owes, hrq]⟩)
    · refine .inl ⟨by simp [Sched.owed, Instr.owes, hrq], fun hq => ?_⟩
      exact (Function.update_of_ne (Ne.symm hrq) _ _).trans hq
  all_goals exact .inl ⟨rfl, id⟩

/-! ## What is put in front of a thread -/

/-- The running process with no lock held. -/
def View.free : View N := ⟨[], .RUNNING, false⟩

theorem wakeup_wf {H : List (Lock N)} (hH : Guarded H)
    (hk : Wf me ⟨H, .RUNNING, false⟩ k) : Wf me ⟨H, .RUNNING, false⟩ (wakeup ch ++ k) :=
  ⟨⟨⟨rfl, rfl⟩, hH⟩, hk⟩

theorem guarded_singleton (hl : l.isProc = false) : Guarded [l] := by
  refine ⟨List.cons_ne_nil _ _, fun l' hl' => ?_⟩
  rw [List.mem_singleton.mp hl']
  exact hl

theorem yield_wf (hk : Wf (some p) .free k) : Wf (some p) .free (yield p ++ k) := by
  refine ⟨List.not_mem_nil,
    ⟨⟨rfl, rfl⟩, .inl rfl, p, rfl, List.mem_singleton_self _⟩, ?_⟩
  show Wf (some p) ⟨[.proc p], .RUNNABLE, false⟩ (sched ++ ([.release (.proc p)] ++ k))
  refine sched_wf (by simp [PState.Leaves]) (fun _ => ?_) (fun h => by cases h)
  refine ⟨⟨List.mem_singleton_self _, fun _ _ _ => rfl⟩, ?_⟩
  rw [post, List.erase_cons_head]
  exact hk

theorem exit_wf (p : Fin N) : Wf (some p) .free (exit p) := by
  refine ⟨List.not_mem_nil, ⟨⟨rfl, rfl⟩, Option.some_ne_none p, rfl⟩,
    ⟨⟨rfl, rfl⟩, Option.some_ne_none p, rfl⟩, by simp [Pre, post, View.free],
    ⟨⟨rfl, rfl⟩, .inr (.inr rfl), p, rfl, List.mem_cons_self⟩,
    ⟨by simp [post, View.free], fun _ _ h => by cases h⟩, ?_⟩
  have hheld : [Lock.proc p, .waitLock].erase .waitLock = [.proc p] := by simp
  show Wf (some p) ⟨[Lock.proc p, .waitLock].erase .waitLock, .ZOMBIE, false⟩ (sched ++ [.zombie])
  rw [hheld]
  exact sched_wf (by simp [PState.Leaves]) (fun h => absurd rfl h) (fun _ => rfl)

/-- **Calls.**  The body of a function is well formed where it may be called. -/
theorem Fn.wf {f : Fn} (hexit : f = .exit → k = []) (hk : Wf (some p) .free k) :
    Wf (some p) .free (f.code p ++ k) := by
  have hme : some p ≠ none := Option.some_ne_none p
  cases f with
  | fork => exact ⟨⟨⟨rfl, rfl⟩, hme, rfl⟩, hk⟩
  | exit =>
    rw [hexit rfl, List.append_nil]
    exact exit_wf p
  | wait => exact ⟨List.not_mem_nil, ⟨⟨rfl, rfl⟩, hme, rfl⟩, hk⟩
  | kill pid => exact ⟨⟨⟨rfl, rfl⟩, rfl⟩, hk⟩
  | acquiresleep i => exact ⟨List.not_mem_nil, ⟨⟨rfl, rfl⟩, hme, rfl⟩, hk⟩
  | client n => exact ⟨List.not_mem_nil, ⟨⟨rfl, rfl⟩, hme, rfl⟩, hk⟩

theorem Op.wf {op : Op} (hw : Wf me σ (.client n :: k)) : Wf me σ (op.code n ++ k) := by
  obtain ⟨H, st, sv⟩ := σ
  obtain ⟨⟨⟨rfl, rfl⟩, hme, rfl⟩, hk⟩ := hw
  cases op with
  | sleep ch => exact ⟨⟨⟨rfl, rfl⟩, hme, rfl, rfl⟩, ⟨⟨rfl, rfl⟩, hme, rfl⟩, hk⟩
  | wakeup ch => exact wakeup_wf (guarded_singleton rfl) ⟨⟨⟨rfl, rfl⟩, hme, rfl⟩, hk⟩
  | leave =>
    refine ⟨⟨List.mem_singleton_self _, fun _ _ _ => rfl⟩, ?_⟩
    rw [post, List.erase_cons_head]
    exact hk

theorem releasesleep_wf {i : ℕ} (hw : Wf me σ (.critical i :: k)) :
    Wf me σ (releasesleep i ++ k) := by
  obtain ⟨H, st, sv⟩ := σ
  obtain ⟨⟨⟨rfl, rfl⟩, hme, rfl⟩, hk⟩ := hw
  refine ⟨List.not_mem_nil, ⟨⟨rfl, rfl⟩, hme, rfl, rfl⟩, wakeup_wf (guarded_singleton rfl) ?_⟩
  refine ⟨⟨List.mem_singleton_self _, fun _ _ _ => rfl⟩, ?_⟩
  rw [post, List.erase_cons_head]
  exact hk

theorem handler_wf {ch : ℕ} (hk : Wf me .free k) : Wf me .free (handler n ch ++ k) := by
  refine ⟨List.not_mem_nil, wakeup_wf (guarded_singleton rfl) ?_⟩
  refine ⟨⟨List.mem_singleton_self _, fun _ _ _ => rfl⟩, ?_⟩
  rw [post, List.erase_cons_head]
  exact hk

/-- Code that relies on nothing and owes nothing. -/
def Idle (k : Code N) : Prop := ∀ j ∈ k, j.Deep ∧ j.wants = none ∧ j.owes = none

theorem Fn.idle (p : Fin N) (f : Fn) : Idle (f.code p) := by
  cases f <;> simp [Fn.code, Sched.fork, Sched.exit, Sched.wait, Sched.kill,
    Sched.acquiresleep, sched, Idle, Instr.Deep, Instr.wants, Instr.owes]

theorem Op.idle (n : ℕ) (op : Op) : Idle (op.code n : Code N) := by
  cases op <;> simp [Op.code, Sched.sleep, Sched.wakeup, Idle, Instr.Deep, Instr.wants, Instr.owes]

theorem releasesleep_idle (i : ℕ) : Idle (releasesleep i : Code N) := by
  simp [releasesleep, wakeup, Idle, Instr.Deep, Instr.wants, Instr.owes]

theorem yield_idle (p : Fin N) : Idle (yield p) := by
  simp [yield, sched, Idle, Instr.Deep, Instr.wants, Instr.owes]

theorem handler_idle (n ch : ℕ) : Idle (handler n ch : Code N) := by
  simp [handler, wakeup, Idle, Instr.Deep, Instr.wants, Instr.owes]

theorem Idle.owed {k : Code N} (h : Idle k) (q : Fin N) : owed q k = 0 := by
  refine List.countP_eq_zero.mpr fun j hj => ?_
  rw [(h j hj).2.2]
  exact Bool.false_ne_true

/-- The handler of an interrupt owes nothing: there is no process. -/
theorem Wf.owed_none {k : Code N} (q : Fin N) : ∀ {σ : View N}, Wf none σ k → owed q k = 0 := by
  induction k with
  | nil => exact fun _ => rfl
  | cons i k ih =>
    rintro σ ⟨hpre, hk⟩
    have hi : owed q [i] = 0 := by
      cases i
      case allocRest r => exact absurd hpre.2.1 fun ⟨p, hp, _⟩ => by cases hp
      case setReady r => exact absurd hpre.2.1 fun ⟨p, hp, _⟩ => by cases hp
      all_goals rfl
    rw [owed_cons, hi, ih hk]

end Sched

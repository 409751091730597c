/-
# The scheduler, sleep and wakeup (kernel/proc.c) and sleep-locks (kernel/sleeplock.c)

Any number of CPUs run the loop of `scheduler` and the kernel threads of any number of
processes.  One step of a CPU is one acquire or release of a spin lock, one assignment, or
one test.  A kernel thread is the list of instructions it still has to execute: a C
function of the source is the list its body stands for, and a loop or a test puts the
instructions of the branch it takes in front of the rest.

`swtch` has a step for each of its halves.  `saved p` says that the registers of `p` are
in `p->context`; a CPU that loads them while they are not there is lost, as is one that
calls `panic`.  A spin lock records the CPU that holds it, since `p->lock` is taken by one
thread and released by another on the same CPU.

A timer or device interrupt comes between any two steps of a CPU that holds no spin lock:
the timer makes the running thread yield, and the handler of a device takes a lock and
calls `wakeup`.  In a process the rest of the kernel is a client that takes a spin lock and
then sleeps on channels and wakes them up as it likes, or a holder of sleep-locks.

The ghost field `doze` is the channel and the lock of a `sleep` that has released the
lock, until the process is made `RUNNABLE`.  Memory, files and the exit status are left
out: an allocation or a copy to user memory succeeds or fails as the action says.
-/
import Mathlib.Data.List.FinRange
import Mathlib.Logic.Function.Basic
import Xv6.Transition

namespace Sched

open Function

/-! ## Processes, locks and channels -/

inductive PState where
  | UNUSED
  | USED
  | SLEEPING
  | RUNNABLE
  | RUNNING
  | ZOMBIE
  deriving DecidableEq, Repr

/-- The spin locks: `p->lock`, `wait_lock`, `pid_lock`, `lk->lk` of a sleep-lock, and those
of the rest of the kernel. -/
inductive Lock (N : ℕ) where
  | proc (p : Fin N)
  | waitLock
  | pidLock
  | sleep (i : ℕ)
  | other (n : ℕ)
  deriving DecidableEq, Repr

/-- The channels to sleep on: the address of a process, of a sleep-lock, or another. -/
inductive Chan (N : ℕ) where
  | proc (p : Fin N)
  | sleep (i : ℕ)
  | other (n : ℕ)
  deriving DecidableEq, Repr

/-- The instructions of a kernel thread. -/
inductive Instr (N : ℕ) where
  | acquire (l : Lock N)
  | release (l : Lock N)
  /-- `p->state = st`, for the process itself -/
  | setState (st : PState)
  /-- `p->chan = ch`, for the process itself -/
  | setChan (ch : Option (Chan N))
  /-- the tests of `sched` -/
  | schedCheck
  /-- `swtch` begins to save the registers in `p->context` -/
  | save
  /-- `swtch` has saved them -/
  | saved
  /-- `swtch` loads the registers of the scheduler -/
  | load
  /-- `panic("zombie exit")` -/
  | zombie
  /-- `sleep` before it takes `p->lock` -/
  | sleepAcquire (ch : Chan N) (lk : Lock N)
  /-- `sleep` before it releases `lk` -/
  | sleepRelease (ch : Chan N) (lk : Lock N)
  /-- `wakeup(ch)`, with the processes still to visit -/
  | wakeup (ch : Chan N) (todo : List (Fin N))
  /-- `wakeup(ch)` at process `q`, before it takes the lock -/
  | wakeAcquire (ch : Chan N) (q : Fin N) (todo : List (Fin N))
  /-- `wakeup(ch)` at the test of process `q` -/
  | wakeOne (ch : Chan N) (q : Fin N) (todo : List (Fin N))
  /-- `wakeup(ch)` at process `q`, before it releases the lock -/
  | wakeRelease (ch : Chan N) (q : Fin N) (todo : List (Fin N))
  /-- `kill(pid)`, with the processes still to visit -/
  | kill (pid : ℕ) (todo : List (Fin N))
  /-- `kill(pid)` at the test of `q->pid` -/
  | killOne (pid : ℕ) (q : Fin N) (todo : List (Fin N))
  /-- `kill` at the test of `q->state` -/
  | killWake (q : Fin N)
  /-- `allocproc`, with the processes still to visit -/
  | alloc (todo : List (Fin N))
  /-- `allocproc` at the test of `q->state` -/
  | allocCheck (q : Fin N) (todo : List (Fin N))
  /-- `allocpid` before it takes `pid_lock` -/
  | allocPid (q : Fin N)
  /-- `q->pid = nextpid++` -/
  | takePid (q : Fin N)
  /-- `allocpid` before it releases `pid_lock` -/
  | dropPid (q : Fin N)
  /-- `q->state = USED` -/
  | use (q : Fin N)
  /-- the allocations of `allocproc` and `fork` -/
  | allocRest (q : Fin N)
  /-- `freeproc` of a zombie -/
  | freeproc (q : Fin N)
  /-- `q->parent = p` -/
  | setParent (q : Fin N)
  /-- `q->state = RUNNABLE` at the end of `fork` -/
  | setReady (q : Fin N)
  /-- `reparent`, with the processes still to visit -/
  | reparent (todo : List (Fin N))
  /-- `wakeup(p->parent)` -/
  | wakeParent
  /-- the scan of `wait`, with the processes still to visit -/
  | wait (todo : List (Fin N)) (havekids : Bool)
  /-- `wait` at the test of `q->state` -/
  | waitCheck (q : Fin N) (todo : List (Fin N))
  /-- `wait` at the test of `p->killed` -/
  | waitKilled
  /-- `acquiresleep` at `while(lk->locked)` -/
  | testLocked (i : ℕ)
  /-- between `acquiresleep` and `releasesleep` -/
  | critical (i : ℕ)
  /-- `lk->locked = 0` -/
  | unlock (i : ℕ)
  /-- the rest of the kernel, with spin lock `n` held -/
  | client (n : ℕ)
  deriving DecidableEq, Repr

abbrev Code (N : ℕ) := List (Instr N)

variable {M N : ℕ}

/-! ## The functions -/

def sched : Code N := [.schedCheck, .save, .saved, .load]

def yield (p : Fin N) : Code N :=
  [.acquire (.proc p), .setState .RUNNABLE] ++ sched ++ [.release (.proc p)]

def forkret (p : Fin N) : Code N := [.release (.proc p)]

/-- `sleep(chan, lk)`. -/
def sleep (ch : Chan N) (lk : Lock N) : Code N := [.sleepAcquire ch lk]

/-- `sleep` after it has released `lk`. -/
def sleepRest (p : Fin N) (ch : Chan N) (lk : Lock N) : Code N :=
  [.setChan (some ch), .setState .SLEEPING] ++ sched ++
    [.setChan none, .release (.proc p), .acquire lk]

def wakeup (ch : Chan N) : Code N := [.wakeup ch (List.finRange N)]

def exit (p : Fin N) : Code N :=
  [.acquire .waitLock, .reparent (List.finRange N), .wakeParent, .acquire (.proc p),
    .setState .ZOMBIE, .release .waitLock] ++ sched ++ [.zombie]

def wait : Code N := [.acquire .waitLock, .wait (List.finRange N) false]

def kill (pid : ℕ) : Code N := [.kill pid (List.finRange N)]

def fork : Code N := [.alloc (List.finRange N)]

def acquiresleep (i : ℕ) : Code N := [.acquire (.sleep i), .testLocked i]

def releasesleep (i : ℕ) : Code N :=
  [.acquire (.sleep i), .unlock i] ++ wakeup (.sleep i) ++ [.release (.sleep i)]

/-- The handler of a device interrupt. -/
def handler (n ch : ℕ) : Code N :=
  [.acquire (.other n)] ++ wakeup (.other ch) ++ [.release (.other n)]

/-! ## CPUs -/

/-- Where the loop of `scheduler` stands, with its `p`. -/
inductive Loop (N : ℕ) where
  /-- at `acquire(&p->lock)` -/
  | next (i : Fin N)
  /-- at `if(p->state == RUNNABLE)` -/
  | check (i : Fin N)
  /-- at `p->state = RUNNING` -/
  | setState (i : Fin N)
  /-- at `c->proc = p` -/
  | setProc (i : Fin N)
  /-- at `swtch`, before it saves the registers in `c->context` -/
  | save (i : Fin N)
  /-- at `swtch`, before it loads them from `p->context` -/
  | load (i : Fin N)
  /-- after `swtch`, at `c->proc = 0` -/
  | back (i : Fin N)
  /-- at `release(&p->lock)` -/
  | release (i : Fin N)
  deriving DecidableEq, Repr

/-- What a CPU executes: the scheduler, with the rest of an interrupt handler before it, or
the thread of a process; or it has panicked. -/
inductive Ctl (N : ℕ) where
  | sched (pre : Code N) (l : Loop N)
  | thread (p : Fin N)
  | panic
  deriving DecidableEq, Repr

structure St (M N : ℕ) where
  lock : Lock N → Option (Fin M)
  noff : Fin M → ℕ
  cproc : Fin M → Option (Fin N)
  context : Fin M → Loop N
  ctl : Fin M → Ctl N
  state : Fin N → PState
  chan : Fin N → Option (Chan N)
  parent : Fin N → Option (Fin N)
  pid : Fin N → ℕ
  killed : Fin N → Bool
  saved : Fin N → Bool
  code : Fin N → Code N
  nextpid : ℕ
  initproc : Fin N
  locked : ℕ → Bool
  doze : Fin N → Option (Chan N × Lock N)

/-! ## Effects -/

/-- What an instruction does to the shared state. -/
inductive Effect (N : ℕ) where
  | nop
  | acquire (l : Lock N)
  | release (l : Lock N)
  /-- `sleep` of process `p` releases `lk` -/
  | drop (p : Fin N) (ch : Chan N) (lk : Lock N)
  | state (q : Fin N) (st : PState)
  | chan (q : Fin N) (ch : Option (Chan N))
  | saved (p : Fin N) (b : Bool)
  | birth (q : Fin N)
  | free (q : Fin N)
  | pid (q : Fin N)
  | parent (q : Fin N) (o : Option (Fin N))
  | killed (q : Fin N)
  | locked (i : ℕ) (b : Bool)
  /-- `swtch` to the scheduler -/
  | toSched
  | panic

def St.apply (s : St M N) (c : Fin M) : Effect N → St M N
  | .nop => s
  | .acquire l =>
    { s with
      lock := update s.lock l (some c)
      noff := update s.noff c (s.noff c + 1) }
  | .release l =>
    { s with
      lock := update s.lock l none
      noff := update s.noff c (s.noff c - 1) }
  | .drop p ch lk =>
    { s with
      lock := update s.lock lk none
      noff := update s.noff c (s.noff c - 1)
      doze := update s.doze p (some (ch, lk)) }
  | .state q st =>
    { s with
      state := update s.state q st
      doze := if st = .RUNNABLE then update s.doze q none else s.doze }
  | .chan q ch => { s with chan := update s.chan q ch }
  | .saved p b => { s with saved := update s.saved p b }
  | .birth q =>
    -- the context is set up a few lines below in `allocproc`, still under `q->lock`
    { s with
      state := update s.state q .USED
      saved := update s.saved q true
      code := update s.code q (forkret q) }
  | .free q =>
    { s with
      state := update s.state q .UNUSED
      chan := update s.chan q none
      parent := update s.parent q none
      pid := update s.pid q 0
      killed := update s.killed q false }
  | .pid q => { s with pid := update s.pid q s.nextpid, nextpid := s.nextpid + 1 }
  | .parent q o => { s with parent := update s.parent q o }
  | .killed q => { s with killed := update s.killed q true }
  | .locked i b => { s with locked := update s.locked i b }
  | .toSched => { s with ctl := update s.ctl c (.sched [] (s.context c)) }
  | .panic => { s with ctl := update s.ctl c .panic }

/-! ## Execution -/

/-- `fork` once it has a child with memory. -/
def forkRest (q : Fin N) : Code N :=
  [.release (.proc q), .acquire .waitLock, .setParent q, .release .waitLock,
    .acquire (.proc q), .setReady q, .release (.proc q)]

/-- One instruction on CPU `c`: its effect, and what comes before the rest of the thread;
`none` when the CPU has to spin.  `b` says whether memory can be allocated and written. -/
def exec (s : St M N) (c : Fin M) (b : Bool) : Instr N → Option (Effect N × Code N)
  | .acquire l =>
    if s.lock l = some c then some (.panic, [])
    else if s.lock l = none then some (.acquire l, []) else none
  | .release l => if s.lock l = some c then some (.release l, []) else some (.panic, [])
  | .setState st => (s.cproc c).map fun p => (.state p st, [])
  | .setChan ch => (s.cproc c).map fun p => (.chan p ch, [])
  | .schedCheck =>
    (s.cproc c).map fun p =>
      if s.lock (.proc p) ≠ some c ∨ s.noff c ≠ 1 ∨ s.state p = .RUNNING then (.panic, [])
      else (.nop, [])
  | .save => (s.cproc c).map fun p => (.saved p false, [])
  | .saved => (s.cproc c).map fun p => (.saved p true, [])
  | .load => some (.toSched, [])
  | .zombie => some (.panic, [])
  | .sleepAcquire ch lk =>
    (s.cproc c).bind fun p =>
      if s.lock (.proc p) = some c then some (.panic, [])
      else if s.lock (.proc p) = none then some (.acquire (.proc p), [.sleepRelease ch lk])
      else none
  | .sleepRelease ch lk =>
    (s.cproc c).map fun p =>
      if s.lock lk = some c then (.drop p ch lk, sleepRest p ch lk) else (.panic, [])
  | .wakeup _ [] => some (.nop, [])
  | .wakeup ch (q :: todo) =>
    if s.cproc c = some q then some (.nop, [.wakeup ch todo])
    else some (.nop, [.wakeAcquire ch q todo])
  | .wakeAcquire ch q todo =>
    if s.lock (.proc q) = some c then some (.panic, [])
    else if s.lock (.proc q) = none then some (.acquire (.proc q), [.wakeOne ch q todo])
    else none
  | .wakeOne ch q todo =>
    if s.state q = .SLEEPING ∧ s.chan q = some ch then
      some (.state q .RUNNABLE, [.wakeRelease ch q todo])
    else some (.nop, [.wakeRelease ch q todo])
  | .wakeRelease ch q todo =>
    if s.lock (.proc q) = some c then some (.release (.proc q), [.wakeup ch todo])
    else some (.panic, [])
  | .kill _ [] => some (.nop, [])
  | .kill pid (q :: todo) => some (.nop, [.acquire (.proc q), .killOne pid q todo])
  | .killOne pid q todo =>
    if s.pid q = pid then some (.killed q, [.killWake q, .release (.proc q)])
    else some (.nop, [.release (.proc q), .kill pid todo])
  | .killWake q =>
    if s.state q = .SLEEPING then some (.state q .RUNNABLE, []) else some (.nop, [])
  | .alloc [] => some (.nop, [])
  | .alloc (q :: todo) => some (.nop, [.acquire (.proc q), .allocCheck q todo])
  | .allocCheck q todo =>
    if s.state q = .UNUSED then some (.nop, [.allocPid q])
    else some (.nop, [.release (.proc q), .alloc todo])
  | .allocPid q =>
    if s.lock .pidLock = some c then some (.panic, [])
    else if s.lock .pidLock = none then some (.acquire .pidLock, [.takePid q]) else none
  | .takePid q => some (.pid q, [.dropPid q])
  | .dropPid q =>
    if s.lock .pidLock = some c then some (.release .pidLock, [.use q]) else some (.panic, [])
  | .use q => some (.birth q, [.allocRest q])
  | .allocRest q =>
    if b then some (.nop, forkRest q) else some (.free q, [.release (.proc q)])
  | .freeproc q => some (.free q, [])
  | .setParent q => some (.parent q (s.cproc c), [])
  | .setReady q => some (.state q .RUNNABLE, [])
  | .reparent [] => some (.nop, [])
  | .reparent (q :: todo) =>
    if s.parent q = s.cproc c then
      some (.parent q (some s.initproc), wakeup (.proc s.initproc) ++ [.reparent todo])
    else some (.nop, [.reparent todo])
  | .wakeParent =>
    (s.cproc c).map fun p =>
      match s.parent p with
      | some q => (.nop, wakeup (.proc q))
      | none => (.nop, [])
  | .wait [] havekids =>
    (s.cproc c).map fun p =>
      if havekids then (.nop, [.acquire (.proc p), .waitKilled])
      else (.nop, [.release .waitLock])
  | .wait (q :: todo) havekids =>
    if s.parent q = s.cproc c then some (.nop, [.acquire (.proc q), .waitCheck q todo])
    else some (.nop, [.wait todo havekids])
  | .waitCheck q todo =>
    if s.state q = .ZOMBIE then
      if b then some (.nop, [.freeproc q, .release (.proc q), .release .waitLock])
      else some (.nop, [.release (.proc q), .release .waitLock])
    else some (.nop, [.release (.proc q), .wait todo true])
  | .waitKilled =>
    (s.cproc c).map fun p =>
      if s.killed p then (.nop, [.release (.proc p), .release .waitLock])
      else (.nop, [.release (.proc p)] ++ sleep (.proc p) .waitLock ++
        [.wait (List.finRange N) false])
  | .testLocked i =>
    if s.locked i then some (.nop, sleep (.sleep i) (.sleep i) ++ [.testLocked i])
    else some (.locked i true, [.release (.sleep i), .critical i])
  | .critical _ => none
  | .unlock i => some (.locked i false, [])
  | .client _ => none

/-- The instructions before a CPU. -/
def St.cur (s : St M N) (c : Fin M) : Code N :=
  match s.ctl c with
  | .sched pre _ => pre
  | .thread p => s.code p
  | .panic => []

def St.setCur (s : St M N) (c : Fin M) (k : Code N) : St M N :=
  match s.ctl c with
  | .sched _ l => { s with ctl := update s.ctl c (.sched k l) }
  | .thread p => { s with code := update s.code p k }
  | .panic => s

def St.goto (s : St M N) (c : Fin M) (l : Loop N) : St M N :=
  { s with ctl := update s.ctl c (.sched [] l) }

/-- `p++` in the loop of `scheduler`, which starts again at the end of the table. -/
def nextProc (i : Fin N) : Fin N :=
  ⟨(i + 1) % N, Nat.mod_lt _ (Nat.zero_lt_of_lt i.isLt)⟩

/-- The loop of `scheduler`. -/
def loop (s : St M N) (c : Fin M) : Loop N → Option (St M N)
  | .next i =>
    if s.lock (.proc i) = some c then some (s.apply c .panic)
    else if s.lock (.proc i) = none then some ((s.goto c (.check i)).apply c (.acquire (.proc i)))
    else none
  | .check i => some (s.goto c (if s.state i = .RUNNABLE then .setState i else .release i))
  | .setState i => some ((s.goto c (.setProc i)).apply c (.state i .RUNNING))
  | .setProc i => some { s.goto c (.save i) with cproc := update s.cproc c (some i) }
  | .save i => some { s.goto c (.load i) with context := update s.context c (.back i) }
  | .load i =>
    if s.saved i then
      some { s with
        ctl := update s.ctl c (.thread i)
        saved := update s.saved i false }
    else some (s.apply c .panic)
  | .back i => some { s.goto c (.release i) with cproc := update s.cproc c none }
  | .release i =>
    if s.lock (.proc i) = some c then
      some ((s.goto c (.next (nextProc i))).apply c (.release (.proc i)))
    else some (s.apply c .panic)

/-- The next step of a CPU. -/
def advance (s : St M N) (c : Fin M) (b : Bool) : Option (St M N) :=
  match s.cur c with
  | i :: k => (exec s c b i).map fun x => (s.setCur c (x.2 ++ k)).apply c x.1
  | [] =>
    match s.ctl c with
    | .sched _ l => loop s c l
    | _ => none

/-! ## The machine -/

/-- What a process may call. -/
inductive Fn where
  | fork
  | exit
  | wait
  | kill (pid : ℕ)
  | acquiresleep (i : ℕ)
  | client (n : ℕ)
  deriving DecidableEq, Repr

def Fn.code (p : Fin N) : Fn → Code N
  | .fork => Sched.fork
  | .exit => Sched.exit p
  | .wait => Sched.wait
  | .kill pid => Sched.kill pid
  | .acquiresleep i => Sched.acquiresleep i
  | .client n => [.acquire (.other n), .client n]

/-- What a client does with its lock held. -/
inductive Op where
  | sleep (ch : ℕ)
  | wakeup (ch : ℕ)
  | leave

def Op.code (n : ℕ) : Op → Code N
  | .sleep ch => Sched.sleep (.other ch) (.other n) ++ [.client n]
  | .wakeup ch => Sched.wakeup (.other ch) ++ [.client n]
  | .leave => [.release (.other n)]

inductive Act (M : ℕ) where
  /-- the next step of a CPU -/
  | advance (c : Fin M) (b : Bool)
  /-- the process of a CPU calls a function -/
  | call (c : Fin M) (f : Fn)
  /-- the client on a CPU goes on -/
  | client (c : Fin M) (op : Op)
  /-- the process of a CPU calls `releasesleep` -/
  | leave (c : Fin M)
  | timer (c : Fin M)
  /-- a device interrupt: its handler takes spin lock `n` and wakes up channel `ch` -/
  | device (c : Fin M) (n ch : ℕ)

/-- Put instructions before those of a CPU. -/
def St.push (s : St M N) (c : Fin M) (k : Code N) : St M N := s.setCur c (k ++ s.cur c)

def callable (s : St M N) (p : Fin N) (f : Fn) : Bool :=
  match s.code p with
  | [] => f ≠ .exit || p ≠ s.initproc
  | .critical _ :: _ => f ≠ .exit
  | _ => false

def step (s : St M N) : Act M → Option (St M N)
  | .advance c b => advance s c b
  | .call c f =>
    match s.ctl c with
    | .thread p => if callable s p f then some (s.push c (f.code p)) else none
    | _ => none
  | .client c op =>
    match s.cur c with
    | .client n :: k => some (s.setCur c (op.code n ++ k))
    | _ => none
  | .leave c =>
    match s.cur c with
    | .critical i :: k => some (s.setCur c (releasesleep i ++ k))
    | _ => none
  | .timer c =>
    match s.ctl c with
    | .thread p =>
      if s.noff c = 0 ∧ s.state p = .RUNNING then some (s.push c (yield p)) else none
    | _ => none
  | .device c n ch =>
    match s.ctl c with
    | .thread _ | .sched _ (.next _) =>
      if s.noff c = 0 then some (s.push c (handler n ch)) else none
    | _ => none

/-- After `userinit`: the first process is `RUNNABLE` and every CPU enters `scheduler`. -/
def start (M : ℕ) (init : Fin N) : St M N where
  lock := fun _ => none
  noff := fun _ => 0
  cproc := fun _ => none
  context := fun _ => .next init
  ctl := fun _ => .sched [] (.next init)
  state := update (fun _ => .UNUSED) init .RUNNABLE
  chan := fun _ => none
  parent := fun _ => none
  pid := update (fun _ => 0) init 1
  killed := fun _ => false
  saved := update (fun _ => false) init true
  code := update (fun _ => []) init (forkret init)
  nextpid := 2
  initproc := init
  locked := fun _ => false
  doze := fun _ => none

end Sched

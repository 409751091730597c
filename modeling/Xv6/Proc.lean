/-
# The process table (kernel/proc.c): fork, exit, wait and kill

The steps are the critical sections of `wait_lock` and of the lock of a slot.
A section that contains no other acquire or release is one step; where two
sections overlap (`fork` keeps `np->lock` over the copying of memory, `sleep`
takes `p->lock` before it gives up `wait_lock`, `exit` leaves `p->lock` to the
scheduler) the model has a step for each part and `lock` says that the slot is
locked in between.  The position of a process inside a system call is its `Pc`,
with the loop counters and arguments that are still needed.

What a process does besides these calls is left to the environment: it runs and
is preempted, sleeps on other channels and is woken there.  `kalloc` and
`copyout` may succeed or fail.  The ghost fields list the exits, the successful
calls of `wait`, the results of `kill` and the new processes of `fork`.
-/
import Mathlib.Logic.Function.Basic
import Xv6.Transition

namespace Proc

open Transition

/-! ## struct proc -/

/-- The size of the process table (`kernel/param.h`). -/
def NPROC : ℕ := 64

/-- A C `int`. -/
abbrev CInt := BitVec 32

inductive ProcState where
  | unused
  | used
  | sleeping
  | runnable
  | running
  | zombie
  deriving DecidableEq, Repr

/-- A channel to sleep on: the address of a slot, or of something else. -/
inductive Chan where
  | proc (i : ℕ)
  | other (n : ℕ)
  deriving DecidableEq, Repr

/-- `struct proc`, as far as process creation and exit use it; pointers to slots
are their indices. -/
structure Slot where
  lock : Bool
  state : ProcState
  chan : Option Chan
  killed : Bool
  xstate : CInt
  pid : CInt
  parent : Option ℕ
  deriving DecidableEq, Repr

/-- A slot of the zeroed table. -/
def Slot.empty : Slot where
  lock := false
  state := .unused
  chan := none
  killed := false
  xstate := 0
  pid := 0
  parent := none

/-- `freeproc`. -/
def freeproc (p : Slot) : Slot :=
  { p with pid := 0, parent := none, chan := none, killed := false, xstate := 0, state := .unused }

/-- The critical section of `wakeup` for one slot. -/
def wakeup (chan : Option Chan) (p : Slot) : Slot :=
  if p.state = .sleeping ∧ p.chan = chan then { p with state := .runnable } else p

/-- The critical section of `kill` for the slot with the right pid. -/
def setKilled (p : Slot) : Slot :=
  { p with killed := true, state := if p.state = .sleeping then .runnable else p.state }

/-! ## The machine -/

/-- Where a process stands. -/
inductive Pc where
  /-- the slot has no process, or its process never runs again -/
  | gone
  /-- in user space or in another part of the kernel -/
  | user
  /-- in the loop of `allocproc`, at slot `k` -/
  | forkScan (k : ℕ)
  /-- `fork` holds the lock of the new slot -/
  | forkHold (np : ℕ)
  /-- `fork` before it sets `np->parent` -/
  | forkParent (np : ℕ)
  /-- `fork` before it makes the child runnable -/
  | forkRun (np : ℕ)
  /-- `exit` before it takes `wait_lock` -/
  | exiting (status : CInt)
  /-- in the loop of `reparent`, at slot `k` -/
  | exitReparent (status : CInt) (k : ℕ)
  /-- in `wakeup(initproc)` of `reparent` at slot `k`, at slot `j` -/
  | exitReparentWake (status : CInt) (k j : ℕ)
  /-- in `wakeup(p->parent)` of `exit`, at slot `j` -/
  | exitWake (status : CInt) (parent : Option ℕ) (j : ℕ)
  /-- `exit` before it takes `p->lock` -/
  | exitZombie (status : CInt)
  /-- `exit` has called `sched` with `p->lock` held -/
  | dead
  /-- `wait` before it takes `wait_lock` -/
  | waitStart (addr : ℕ)
  /-- in the loop of `wait`, at slot `k` -/
  | waitScan (addr k : ℕ) (havekids : Bool)
  /-- `wait` at the call of `killed` -/
  | waitKilled (addr : ℕ)
  /-- `wait` at the call of `sleep` -/
  | waitSleep (addr : ℕ)
  /-- `sleep` in `wait`, with `p->lock` held and `wait_lock` released -/
  | waitLocked (addr : ℕ)
  /-- `sleep` in `wait`, from the call of `sched` to the acquire of `wait_lock` -/
  | waitAsleep (addr : ℕ)
  /-- `wait` at its last release of `wait_lock` -/
  | waitRelease
  /-- in the loop of `kill`, at slot `k` -/
  | killScan (pid : CInt) (k : ℕ)
  deriving DecidableEq, Repr

/-- A successful `wait`: who called it, for which slot, the parent of that slot
at that time, the number of the exit, and what it returned. -/
structure Wait where
  waiter : ℕ
  child : ℕ
  parent : Option ℕ
  exit : ℕ
  pid : CInt
  status : CInt
  deriving DecidableEq, Repr

/-- A call of `kill` that returned, and whether there was a process with the pid
at that time. -/
structure Kill where
  pid : CInt
  result : CInt
  live : Bool
  deriving DecidableEq, Repr

structure St where
  proc : ℕ → Slot
  pc : ℕ → Pc
  waitLock : Option ℕ
  nextpid : CInt
  panicked : Option String
  /-- ghost: pid and status of every exit -/
  exits : List (CInt × CInt)
  /-- ghost: the number of the exit that made the slot a zombie -/
  exitOf : ℕ → ℕ
  waits : List Wait
  kills : List Kill
  /-- ghost: the flag `killed` of every new process of `fork` -/
  births : List Bool

/-- `initproc`: `userinit` gets the first slot. -/
def initproc : ℕ := 0

/-- The state after `userinit`. -/
def init : St where
  proc := Function.update (fun _ => Slot.empty) initproc
    { Slot.empty with state := .runnable, pid := 1 }
  pc := Function.update (fun _ => .gone) initproc .user
  waitLock := none
  nextpid := 2
  panicked := none
  exits := []
  exitOf := fun _ => 0
  waits := []
  kills := []
  births := []

/-- A system call. -/
inductive Call where
  | fork
  | exit (status : CInt)
  | wait (addr : ℕ)
  | kill (pid : CInt)
  deriving DecidableEq, Repr

inductive Act where
  /-- the scheduler picks slot `i` -/
  | schedule (i : ℕ)
  /-- the process in slot `i` is preempted -/
  | yield (i : ℕ)
  /-- it sleeps on a channel of another part of the kernel -/
  | sleep (i n : ℕ)
  /-- the slot's turn in a `wakeup` on such a channel -/
  | wakeup (i n : ℕ)
  /-- `setkilled` of a process that trapped -/
  | setkilled (i : ℕ)
  /-- process `p` makes a system call -/
  | call (p : ℕ) (c : Call)
  /-- process `p` goes on to its next critical section; `ok` is the result of
  the memory allocation or of `copyout` there -/
  | advance (p : ℕ) (ok : Bool)
  deriving DecidableEq, Repr

def St.setProc (s : St) (i : ℕ) (p : Slot) : St :=
  { s with proc := Function.update s.proc i p }

def St.setPc (s : St) (i : ℕ) (c : Pc) : St :=
  { s with pc := Function.update s.pc i c }

/-- The process holds a spinlock, so it is not preempted. -/
def Pc.holdsLock : Pc → Bool
  | .forkHold _ => true
  | .exitReparent _ _ => true
  | .exitReparentWake _ _ _ => true
  | .exitWake _ _ _ => true
  | .exitZombie _ => true
  | .waitScan _ _ _ => true
  | .waitKilled _ => true
  | .waitSleep _ => true
  | .waitLocked _ => true
  | .waitRelease => true
  | .dead => true
  | _ => false

/-- Code that may sleep on other channels. -/
def Pc.maySleep : Pc → Bool
  | .user => true
  | .exiting _ => true
  | _ => false

/-! ## fork -/

/-- `allocproc` at slot `k`. -/
def forkScan (s : St) (p k : ℕ) : Option St :=
  if k < NPROC then
    if (s.proc k).lock then
      none
    else if (s.proc k).state = .unused then
      some ({ s with nextpid := s.nextpid + 1 }.setProc k
        { s.proc k with pid := s.nextpid, state := .used, lock := true } |>.setPc p (.forkHold k))
    else some (s.setPc p (.forkScan (k + 1)))
  else some (s.setPc p .user)

/-- The rest of `allocproc` and the copying in `fork`, up to the release of
`np->lock`. -/
def forkHold (s : St) (p np : ℕ) (ok : Bool) : St :=
  if ok then
    { s with births := s.births ++ [(s.proc np).killed] }.setProc np
      { s.proc np with lock := false } |>.setPc p (.forkParent np)
  else
    s.setProc np { freeproc (s.proc np) with lock := false } |>.setPc p .user

/-- `np->parent = p` under `wait_lock`. -/
def forkParent (s : St) (p np : ℕ) : Option St :=
  if s.waitLock = none then
    some (s.setProc np { s.proc np with parent := some p } |>.setPc p (.forkRun np))
  else none

/-- `np->state = RUNNABLE` under `np->lock`; the child will start in `forkret`. -/
def forkRun (s : St) (p np : ℕ) : Option St :=
  if (s.proc np).lock then
    none
  else
    some (s.setProc np { s.proc np with state := .runnable } |>.setPc np .user |>.setPc p .user)

/-! ## exit -/

/-- `exit` takes `wait_lock`. -/
def exiting (s : St) (p : ℕ) (status : CInt) : Option St :=
  if s.waitLock = none then
    some ({ s with waitLock := some p }.setPc p (.exitReparent status 0))
  else none

/-- The loop of `reparent`. -/
def exitReparent (s : St) (p : ℕ) (status : CInt) (k : ℕ) : St :=
  if k < NPROC then
    if (s.proc k).parent = some p then
      s.setProc k { s.proc k with parent := some initproc } |>.setPc p
        (.exitReparentWake status k 0)
    else s.setPc p (.exitReparent status (k + 1))
  else s.setPc p (.exitWake status (s.proc p).parent 0)

/-- The loop of `wakeup(chan)` at slot `j`, called by `p`: go on at `next`, or at
`done` after the last slot. -/
def wakeupLoop (s : St) (p : ℕ) (chan : Option Chan) (j : ℕ) (next done : Pc) : Option St :=
  if j < NPROC then
    if j = p then
      some (s.setPc p next)
    else if (s.proc j).lock then
      none
    else
      some (s.setProc j (wakeup chan (s.proc j)) |>.setPc p next)
  else some (s.setPc p done)

/-- `exit` under `p->lock`: from here on the process is a zombie. -/
def exitZombie (s : St) (p : ℕ) (status : CInt) : Option St :=
  if (s.proc p).lock then
    none
  else
    some ({ s with
      waitLock := none
      exits := s.exits ++ [((s.proc p).pid, status)]
      exitOf := Function.update s.exitOf p s.exits.length }.setProc p
        { s.proc p with xstate := status, state := .zombie, lock := true } |>.setPc p .dead)

/-! ## wait -/

/-- `wait`, or `sleep` in it, takes `wait_lock`. -/
def waitAcquire (s : St) (p addr : ℕ) : Option St :=
  if s.waitLock = none then
    some ({ s with waitLock := some p }.setPc p (.waitScan addr 0 false))
  else none

/-- The successful `wait` of `p` for the zombie in slot `k`. -/
def waitRecord (s : St) (p k : ℕ) : Wait where
  waiter := p
  child := k
  parent := (s.proc k).parent
  exit := s.exitOf k
  pid := (s.proc k).pid
  status := (s.proc k).xstate

/-- The loop of `wait` at slot `k`. -/
def waitScan (s : St) (p addr k : ℕ) (havekids ok : Bool) : Option St :=
  if k < NPROC then
    if (s.proc k).parent = some p then
      if (s.proc k).lock then
        none
      else if (s.proc k).state = .zombie then
        if addr ≠ 0 ∧ ok = false then
          some (s.setPc p .waitRelease)
        else
          some ({ s with waits := s.waits ++ [waitRecord s p k] }.setProc k
            (freeproc (s.proc k)) |>.setPc p .waitRelease)
      else some (s.setPc p (.waitScan addr (k + 1) true))
    else some (s.setPc p (.waitScan addr (k + 1) havekids))
  else if havekids then
    some (s.setPc p (.waitKilled addr))
  else some (s.setPc p .waitRelease)

/-- `killed(p)` in `wait`. -/
def waitKilled (s : St) (p addr : ℕ) : Option St :=
  if (s.proc p).lock then
    none
  else if (s.proc p).killed then
    some (s.setPc p .waitRelease)
  else some (s.setPc p (.waitSleep addr))

/-- `sleep` takes `p->lock` and releases `wait_lock`. -/
def waitSleep (s : St) (p addr : ℕ) : Option St :=
  if (s.proc p).lock then
    none
  else
    some ({ s with waitLock := none }.setProc p { s.proc p with lock := true }
      |>.setPc p (.waitLocked addr))

/-- `sleep` gives up the CPU; the scheduler releases `p->lock`. -/
def waitLocked (s : St) (p addr : ℕ) : St :=
  s.setProc p { s.proc p with chan := some (.proc p), state := .sleeping, lock := false }
    |>.setPc p (.waitAsleep addr)

/-! ## kill -/

/-- Some process has the pid. -/
def hasPid (s : St) (pid : CInt) : Bool :=
  (List.range NPROC).any fun i => (s.proc i).state ≠ .unused ∧ (s.proc i).pid = pid

/-- The loop of `kill` at slot `k`. -/
def killScan (s : St) (p : ℕ) (pid : CInt) (k : ℕ) : Option St :=
  if k < NPROC then
    if (s.proc k).lock then
      none
    else if (s.proc k).pid = pid then
      some ({ s with kills := s.kills ++ [Kill.mk pid 0 (hasPid s pid)] }.setProc k
        (setKilled (s.proc k)) |>.setPc p .user)
    else some (s.setPc p (.killScan pid (k + 1)))
  else some ({ s with kills := s.kills ++ [Kill.mk pid (-1) (hasPid s pid)] }.setPc p .user)

/-! ## The step function -/

/-- A system call starts. -/
def call (s : St) (p : ℕ) : Call → St
  | .fork => s.setPc p (.forkScan 0)
  | .exit status =>
    if p = initproc then
      { s with panicked := some "init exiting" }
    else s.setPc p (.exiting status)
  | .wait addr => s.setPc p (.waitStart addr)
  | .kill pid => s.setPc p (.killScan pid 0)

/-- The next critical section of a running process. -/
def advance (s : St) (p : ℕ) (ok : Bool) : Option St :=
  match s.pc p with
  | .gone => none
  | .user => none
  | .dead => none
  | .forkScan k => forkScan s p k
  | .forkHold np => some (forkHold s p np ok)
  | .forkParent np => forkParent s p np
  | .forkRun np => forkRun s p np
  | .exiting status => exiting s p status
  | .exitReparent status k => some (exitReparent s p status k)
  | .exitReparentWake status k j => wakeupLoop s p (some (.proc initproc)) j
      (.exitReparentWake status k (j + 1)) (.exitReparent status (k + 1))
  | .exitWake status q j => wakeupLoop s p (q.map .proc) j
      (.exitWake status q (j + 1)) (.exitZombie status)
  | .exitZombie status => exitZombie s p status
  | .waitStart addr => waitAcquire s p addr
  | .waitScan addr k havekids => waitScan s p addr k havekids ok
  | .waitKilled addr => waitKilled s p addr
  | .waitSleep addr => waitSleep s p addr
  | .waitLocked addr => some (waitLocked s p addr)
  | .waitAsleep addr => waitAcquire s p addr
  | .waitRelease => some ({ s with waitLock := none }.setPc p .user)
  | .killScan pid k => killScan s p pid k

/-- What the environment does with slot `i`. -/
def environment (s : St) (i : ℕ) : Act → Option Slot
  | .schedule _ =>
    if (s.proc i).state = .runnable then
      some { s.proc i with state := .running, chan := none }
    else none
  | .yield _ =>
    if (s.proc i).state = .running ∧ (s.pc i).holdsLock = false then
      some { s.proc i with state := .runnable }
    else none
  | .sleep _ n =>
    if (s.proc i).state = .running ∧ (s.pc i).maySleep then
      some { s.proc i with state := .sleeping, chan := some (.other n) }
    else none
  | .wakeup _ n => some (wakeup (some (.other n)) (s.proc i))
  | .setkilled _ =>
    if (s.proc i).state = .running ∧ s.pc i = .user then
      some { s.proc i with killed := true }
    else none
  | _ => none

/-- The slot an environment action is about. -/
def environmentStep (s : St) (i : ℕ) (a : Act) : Option St :=
  if (s.proc i).lock then none else (environment s i a).map (s.setProc i)

def step (s : St) (a : Act) : Option St :=
  if s.panicked ≠ none then
    none
  else
    match a with
    | .schedule i => environmentStep s i a
    | .yield i => environmentStep s i a
    | .sleep i _ => environmentStep s i a
    | .wakeup i _ => environmentStep s i a
    | .setkilled i => environmentStep s i a
    | .call p c =>
      if (s.proc p).state = .running ∧ s.pc p = .user then some (call s p c) else none
    | .advance p ok =>
      if (s.proc p).state = .running then
        advance s p ok
      else if s.pc p = .dead then
        -- the scheduler's side of `sched` in `exit`
        some (s.setProc p { s.proc p with lock := false } |>.setPc p .gone)
      else none

end Proc

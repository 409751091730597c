/-
# Pipes (kernel/pipe.c) with sleep and wakeup (kernel/proc.c)

One pipe, used by any number of processes.  A step of a process is one access to the
shared state: it takes or releases `pi->lock`, tests a loop condition, moves one byte, or
visits one process in the loop of `wakeup`.  `sleep` has a step for each of its parts,
because between the release of `pi->lock` and the change of the state only `p->lock`
keeps a wakeup from being missed.  A process may be killed between any two steps.

User memory is a parameter of the call: the bytes that `copyin` finds, and the places
where `copyout` fails.  The ghost fields record what has been put into the pipe and by
whom, what has been taken out, what the finished writes have read from their buffers, and
how many bytes have been stored since `pi->lock` was taken.  That `pipeclose` frees the
page is left out here: the processes may go on calling.
-/
import Xv6.Ring
import Xv6.Transition

namespace Pipe

/-! ## struct pipe -/

def PIPESIZE : ℕ := 512

/-- C `uint` arithmetic. -/
def uint (n : ℕ) : ℕ := n % 2 ^ 32

structure Ends where
  data : ℕ → UInt8
  nread : ℕ
  nwrite : ℕ
  readopen : Bool
  writeopen : Bool

/-- The addresses of the two counters are the channels to sleep on. -/
inductive Chan where
  | nread
  | nwrite
  deriving DecidableEq, Repr

/-- The fields of `struct proc` that are used here.  `lock` says that the process holds
its own lock, in `sleep`; `asleep` is the channel when its state is `SLEEPING`. -/
structure Slot where
  lock : Bool
  asleep : Option Chan
  killed : Bool
  deriving DecidableEq, Repr

/-! ## Calls -/

/-- The source of a write: the byte at each offset, `none` where `copyin` fails. -/
structure Source where
  byte : ℕ → Option UInt8
  n : ℤ

/-- The first `i` bytes of the source. -/
def Source.take (b : Source) (i : ℕ) : List (Option UInt8) := (List.range i).map b.byte

/-- The destination of a read: where `copyout` succeeds. -/
structure Dest where
  writable : ℕ → Bool
  n : ℤ

/-- Where a process stands. -/
inductive Pc (N : ℕ) where
  /-- outside the pipe -/
  | idle
  /-- `acquire(&pi->lock)` -/
  | acquire (k : Pc N)
  /-- `pipewrite` at `while(i < n)` -/
  | writeLoop (b : Source) (i : ℕ)
  /-- `pipewrite` at the test of `readopen` and `killed` -/
  | writeCheck (b : Source) (i : ℕ)
  /-- `pipewrite` at the test for a full pipe -/
  | writeFull (b : Source) (i : ℕ)
  /-- `pipewrite` at `copyin` -/
  | writeCopy (b : Source) (i : ℕ)
  /-- `pipewrite` before it releases the lock and returns -1 -/
  | writeFail (b : Source) (i : ℕ)
  /-- `pipewrite` before it releases the lock and returns `i` -/
  | writeDone (b : Source) (i : ℕ)
  /-- `piperead` at the test for an empty pipe -/
  | readWait (b : Dest)
  /-- `piperead` at the test of `killed` -/
  | readKilled (b : Dest)
  /-- `piperead` in its loop -/
  | readCopy (b : Dest) (i : ℕ)
  /-- `pipeclose` before it changes the flag -/
  | close (writable : Bool)
  /-- before `release(&pi->lock)` and the return from `piperead` or `pipeclose` -/
  | release
  /-- `wakeup(c)`, with the processes still to visit -/
  | wakeup (c : Chan) (todo : List (Fin N)) (k : Pc N)
  /-- `sleep` before it takes `p->lock` -/
  | sleepLock (c : Chan) (k : Pc N)
  /-- `sleep` before it releases `pi->lock` -/
  | sleepRelease (c : Chan) (k : Pc N)
  /-- `sleep` before it sets the state and calls `sched` -/
  | sleepSched (c : Chan) (k : Pc N)
  /-- in `sched` -/
  | asleep (c : Chan) (k : Pc N)

inductive Call where
  | write (b : Source)
  | read (b : Dest)
  | close (writable : Bool)

def Call.entry {N : ℕ} : Call → Pc N
  | .write b => .writeLoop b 0
  | .read b => .readWait b
  | .close writable => .close writable

/-! ## The machine -/

structure St (N : ℕ) where
  pipe : Ends
  holder : Option (Fin N)
  proc : Fin N → Slot
  pc : Fin N → Pc N
  put : List (Fin N × UInt8)
  taken : List UInt8
  sent : Fin N → List (Option UInt8)
  stored : ℕ

variable {N : ℕ}

def St.goto (s : St N) (p : Fin N) (k : Pc N) : St N := { s with pc := Function.update s.pc p k }

/-- Start `wakeup(c)`. -/
def St.wake (s : St N) (p : Fin N) (c : Chan) (k : Pc N) : St N :=
  s.goto p (.wakeup c (List.finRange N) k)

/-- `release(&pi->lock)` and return. -/
def St.leave (s : St N) (p : Fin N) : St N := { s.goto p .idle with holder := none }

/-- Return from `pipewrite` after `i` bytes. -/
def St.leaveWrite (s : St N) (p : Fin N) (b : Source) (i : ℕ) : St N :=
  { s.leave p with sent := Function.update s.sent p (s.sent p ++ b.take i) }

/-- `pi->data[pi->nwrite++ % PIPESIZE] = ch`. -/
def Ends.push (e : Ends) (ch : UInt8) : Ends :=
  { e with data := Function.update e.data (e.nwrite % PIPESIZE) ch, nwrite := uint (e.nwrite + 1) }

def St.push (s : St N) (p : Fin N) (ch : UInt8) : St N :=
  { s with pipe := s.pipe.push ch, put := s.put ++ [(p, ch)], stored := s.stored + 1 }

/-- `ch = pi->data[pi->nread++ % PIPESIZE]`. -/
def St.pop (s : St N) : St N :=
  { s with
    pipe := { s.pipe with nread := uint (s.pipe.nread + 1) }
    taken := s.taken ++ [s.pipe.data (s.pipe.nread % PIPESIZE)] }

/-- The first part of `pipeclose`. -/
def Ends.shut (e : Ends) (writable : Bool) : Ends :=
  if writable then { e with writeopen := false } else { e with readopen := false }

/-- The body of the loop of `wakeup`. -/
def Slot.wakeup (c : Chan) (q : Slot) : Slot :=
  if q.asleep = some c then { q with asleep := none } else q

/-- The next step of a process. -/
def advance (s : St N) (p : Fin N) : Option (St N) :=
  match s.pc p with
  | .idle => none
  | .acquire k =>
    if s.holder = none then some { s.goto p k with holder := some p, stored := 0 } else none
  | .writeLoop b i =>
    if i < b.n then some (s.goto p (.writeCheck b i))
    else some (s.wake p .nread (.writeDone b i))
  | .writeCheck b i =>
    if s.pipe.readopen = false ∨ (s.proc p).killed = true then some (s.goto p (.writeFail b i))
    else some (s.goto p (.writeFull b i))
  | .writeFull b i =>
    if s.pipe.nwrite = uint (s.pipe.nread + PIPESIZE) then
      some (s.wake p .nread (.sleepLock .nwrite (.writeLoop b i)))
    else some (s.goto p (.writeCopy b i))
  | .writeCopy b i =>
    match b.byte i with
    | none => some (s.wake p .nread (.writeDone b i))
    | some ch => some ((s.push p ch).goto p (.writeLoop b (i + 1)))
  | .writeFail b i => some (s.leaveWrite p b i)
  | .writeDone b i => some (s.leaveWrite p b i)
  | .readWait b =>
    if s.pipe.nread = s.pipe.nwrite ∧ s.pipe.writeopen = true then some (s.goto p (.readKilled b))
    else some (s.goto p (.readCopy b 0))
  | .readKilled b =>
    if (s.proc p).killed then some (s.goto p .release)
    else some (s.goto p (.sleepLock .nread (.readWait b)))
  | .readCopy b i =>
    if i < b.n then
      if s.pipe.nread = s.pipe.nwrite then some (s.wake p .nwrite .release)
      else if b.writable i then some (s.pop.goto p (.readCopy b (i + 1)))
      else some (s.pop.wake p .nwrite .release)
    else some (s.wake p .nwrite .release)
  | .close writable =>
    some ({ s with pipe := s.pipe.shut writable }.wake p
      (if writable then .nread else .nwrite) .release)
  | .release => some (s.leave p)
  | .wakeup _ [] k => some (s.goto p k)
  | .wakeup c (q :: todo) k =>
    if q = p then some (s.goto p (.wakeup c todo k))
    else if (s.proc q).lock then none
    else some { s.goto p (.wakeup c todo k) with
      proc := Function.update s.proc q ((s.proc q).wakeup c) }
  | .sleepLock c k =>
    some { s.goto p (.sleepRelease c k) with
      proc := Function.update s.proc p { s.proc p with lock := true } }
  | .sleepRelease c k => some { s.goto p (.sleepSched c k) with holder := none }
  | .sleepSched c k =>
    some { s.goto p (.asleep c k) with
      proc := Function.update s.proc p { s.proc p with lock := false, asleep := some c } }
  | .asleep _ k =>
    if (s.proc p).asleep = none then some (s.goto p (.acquire k)) else none

inductive Act (N : ℕ) where
  | call (p : Fin N) (c : Call)
  | advance (p : Fin N)
  | kill (p : Fin N)

def Pc.isIdle : Pc N → Bool
  | .idle => true
  | _ => false

def step (s : St N) : Act N → Option (St N)
  | .call p c => if (s.pc p).isIdle then some (s.goto p (.acquire c.entry)) else none
  | .advance p => advance s p
  | .kill p =>
    -- `kill` takes `p->lock`
    if (s.proc p).lock then none
    else some { s with
      proc := Function.update s.proc p { s.proc p with killed := true, asleep := none } }

/-- The pipe as `pipealloc` makes it, in a page with any contents. -/
def start (N : ℕ) (data : ℕ → UInt8) : St N where
  pipe := ⟨data, 0, 0, true, true⟩
  holder := none
  proc := fun _ => ⟨false, none, false⟩
  pc := fun _ => .idle
  put := []
  taken := []
  sent := fun _ => []
  stored := 0

end Pipe

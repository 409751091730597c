/-
# Open files, shared between processes (kernel/file.c, kernel/pipe.c, kernel/sysfile.c)

The file table, the descriptors of the processes and the pages of the pipes, with the
calls `open`, `dup`, `close`, `pipe`, `fork` and `exit` cut at their locks.  A step is a
section under `ftable.lock` or `pi->lock`, a call of `kalloc` or `kfree`, or a piece of
code in between that works on data of its own; between two steps any other process may
run.  `Calls.lean` has the same calls with memory, but one call after the other.

The inodes behind the files are left out: what `open` does before it allocates a file
either fails or not, and closing the last reference to a file that is no pipe changes
nothing here.
-/
import Xv6.Calls

namespace FileTable

open Calls (NFILE NOFILE OpenFile Ftable first filealloc)
open Proc (NPROC CInt)

/-! ## The state -/

/-- The two flags in the page of a pipe. -/
structure Ends where
  readopen : Bool
  writeopen : Bool
  deriving DecidableEq

def Ends.get (e : Ends) (writable : Bool) : Bool := if writable then e.writeopen else e.readopen

def Ends.close (e : Ends) (writable : Bool) : Ends :=
  if writable then { e with writeopen := false } else { e with readopen := false }

/-- The state of a slot of the process table.  A slot that is `USED` belongs to the
`fork` of a parent. -/
inductive Slot where
  | unused
  | used (parent : Fin NPROC)
  | running
  | zombie
  deriving DecidableEq

abbrev Ofile := Fin NOFILE → Option (Fin NFILE)

/-- Where a call goes on after `fileclose`: it returns, it closes the other file of a
pipe and fails, or `exit` clears the descriptor. -/
inductive After where
  | ret (r : ℤ)
  | close (f : Fin NFILE)
  | exit (fd : Fin NOFILE) (f : Fin NFILE)

/-- What a process does next. -/
inductive Pc where
  | idle
  | ret (r : ℤ)
  | dup (f : Fin NFILE) (fd : Fin NOFILE)
  | close (f : Fin NFILE) (k : After)
  | pipeclose (pi : ℕ) (writable : Bool) (k : After)
  | kfree (pi : ℕ) (k : After)
  | openAlloc
  | openFd (f : Fin NFILE)
  | openType (f : Fin NFILE) (fd : Fin NOFILE)
  | pipeAlloc0
  | pipeAlloc1 (f0 : Fin NFILE)
  | pipeKalloc (f0 f1 : Fin NFILE)
  | pipeType (f0 f1 : Fin NFILE) (pi : ℕ)
  | pipeFd0 (rf wf : Fin NFILE)
  | pipeFd1 (rf wf : Fin NFILE) (fd0 : Fin NOFILE)
  | pipeCopy (rf wf : Fin NFILE) (fd0 fd1 : Fin NOFILE)
  | forkAlloc
  | forkVm (np : Fin NPROC)
  | forkDup (np : Fin NPROC) (i : ℕ)
  | exit (i : ℕ)
  | exitClear (fd : Fin NOFILE) (f : Fin NFILE)

def After.pc : After → Pc
  | .ret r => .ret r
  | .close f => .close f (.ret (-1))
  | .exit fd f => .exitClear fd f

/-- A process.  The last two fields are not in the source: the descriptors when the call
in progress began, and whether it has changed those of another process. -/
structure Process where
  state : Slot
  ofile : Ofile
  pc : Pc
  before : Ofile
  others : Bool

/-- The state of the system.  `pages` are the pages of pipes; `stale` tells that a page
has been used or freed after it was freed. -/
structure State where
  ftable : Ftable
  pages : ℕ → Option Ends
  proc : Fin NPROC → Process
  stale : Bool
  panicked : Option String

def State.set (s : State) (p : Fin NPROC) (x : Process) : State :=
  { s with proc := Function.update s.proc p x }

def State.setFile (s : State) (f : Fin NFILE) (y : OpenFile) : State :=
  { s with ftable := Function.update s.ftable f y }

def State.setPage (s : State) (pi : ℕ) (o : Option Ends) : State :=
  { s with pages := Function.update s.pages pi o }

def Process.goto (x : Process) (c : Pc) : Process := { x with pc := c }

def Process.setFd (x : Process) (fd : Fin NOFILE) (o : Option (Fin NFILE)) : Process :=
  { x with ofile := Function.update x.ofile fd o }

def State.goto (s : State) (p : Fin NPROC) (c : Pc) : State := s.set p ((s.proc p).goto c)

def State.panic (s : State) (msg : String) : State := { s with panicked := some msg }

/-! ## kernel/sysfile.c, on the descriptors of a process -/

def argfd (o : Ofile) (fd : CInt) : Option (Fin NOFILE × Fin NFILE) :=
  if h : fd.toNat < NOFILE then (o ⟨fd.toNat, h⟩).map fun f => (⟨fd.toNat, h⟩, f) else none

def fdalloc (o : Ofile) : Option (Fin NOFILE) := first fun fd => (o fd).isNone

/-! ## Starting a call -/

inductive Call where
  | dup (fd : CInt)
  | close (fd : CInt)
  | open (found : Bool)
  | pipe
  | fork
  | exit

/-- A call begins. -/
def Process.begin (x : Process) (c : Pc) : Process :=
  { x with pc := c, before := x.ofile, others := false }

/-- The code before the first lock. -/
def Process.call (x : Process) : Call → Process
  | .dup fd =>
    match argfd x.ofile fd with
    | none => x.begin (.ret (-1))
    | some (_, f) =>
      match fdalloc x.ofile with
      | none => x.begin (.ret (-1))
      | some fd => (x.begin (.dup f fd)).setFd fd (some f)
  | .close fd =>
    match argfd x.ofile fd with
    | none => x.begin (.ret (-1))
    | some (fd, f) => (x.begin (.close f (.ret 0))).setFd fd none
  | .open found => if found then x.begin .openAlloc else x.begin (.ret (-1))
  | .pipe => x.begin .pipeAlloc0
  | .fork => x.begin .forkAlloc
  | .exit => x.begin (.exit 0)

/-! ## The steps of a call -/

/-- What the rest of the system decides: whether memory and user addresses are there,
which page `kalloc` finds, and the kind of an opened file. -/
structure Choice where
  ok : Bool
  page : ℕ
  device : Bool
  readable : Bool
  writable : Bool

/-- `filedup` of `f`, and what follows. -/
def filedup (s : State) (f : Fin NFILE) (next : State → State) : State :=
  if (s.ftable f).ref < 1 then s.panic "filedup"
  else next (s.setFile f { s.ftable f with ref := (s.ftable f).ref + 1 })

/-- The section of `fileclose` under `ftable.lock`. -/
def fileclose (s : State) (p : Fin NPROC) (f : Fin NFILE) (k : After) : State :=
  if (s.ftable f).ref < 1 then s.panic "fileclose"
  else if 0 < (s.ftable f).ref - 1 then
    (s.setFile f { s.ftable f with ref := (s.ftable f).ref - 1 }).goto p k.pc
  else
    (s.setFile f { s.ftable f with ref := 0, type := .none }).goto p
      (if (s.ftable f).type = .pipe then .pipeclose (s.ftable f).pipe (s.ftable f).writable k
       else k.pc)

/-- The section of `pipeclose` under the lock of the pipe. -/
def pipeclose (s : State) (p : Fin NPROC) (pi : ℕ) (writable : Bool) (k : After) : State :=
  match s.pages pi with
  | none => { s with stale := true }.goto p k.pc
  | some e =>
    (s.setPage pi (some (e.close writable))).goto p
      (if (e.close writable).readopen = false ∧ (e.close writable).writeopen = false then
        .kfree pi k
       else k.pc)

def kfree (s : State) (p : Fin NPROC) (pi : ℕ) (k : After) : State :=
  match s.pages pi with
  | none => { s with stale := true }.goto p k.pc
  | some _ => (s.setPage pi none).goto p k.pc

/-- `filealloc`, or `fail` if the table is full. -/
def withFile (s : State) (p : Fin NPROC) (fail : Pc) (next : Fin NFILE → Pc) : State :=
  match filealloc s.ftable with
  | none => s.goto p fail
  | some (ft, f) => { s with ftable := ft }.goto p (next f)

/-- `fdalloc` for the file `f`, or `fail` if all descriptors are in use. -/
def withFd (s : State) (p : Fin NPROC) (f : Fin NFILE) (fail : Process) (next : Fin NOFILE → Pc) :
    State :=
  match fdalloc (s.proc p).ofile with
  | none => s.set p fail
  | some fd => s.set p (((s.proc p).setFd fd (some f)).goto (next fd))

/-- The types of the two files of a pipe. -/
def pipeFiles (s : State) (f0 f1 : Fin NFILE) (pi : ℕ) : State :=
  let s := s.setFile f0 ⟨.pipe, (s.ftable f0).ref, true, false, pi⟩
  s.setFile f1 ⟨.pipe, (s.ftable f1).ref, false, true, pi⟩

/-- One descriptor of the child in `fork`. -/
def forkFd (s : State) (p np : Fin NPROC) (fd : Fin NOFILE) : State :=
  match (s.proc p).ofile fd with
  | none => s.goto p (.forkDup np (fd + 1))
  | some f => filedup s f fun u =>
    (u.set np ((s.proc np).setFd fd (some f))).set p
      { s.proc p with pc := .forkDup np (fd + 1), others := true }

/-- The next step of the call of `p`. -/
def exec (s : State) (p : Fin NPROC) (ch : Choice) : Option State :=
  match (s.proc p).pc with
  | .idle => none
  | .ret _ => s.goto p .idle
  | .dup f fd => filedup s f fun u => u.goto p (.ret fd)
  | .close f k => fileclose s p f k
  | .pipeclose pi writable k => pipeclose s p pi writable k
  | .kfree pi k => kfree s p pi k
  -- sys_open
  | .openAlloc => withFile s p (.ret (-1)) .openFd
  | .openFd f => withFd s p f ((s.proc p).goto (.close f (.ret (-1)))) (.openType f)
  | .openType f fd =>
    (s.setFile f { s.ftable f with
      type := if ch.device then .device else .inode
      readable := ch.readable, writable := ch.writable }).goto p (.ret fd)
  -- pipealloc
  | .pipeAlloc0 => withFile s p (.ret (-1)) .pipeAlloc1
  | .pipeAlloc1 f0 => withFile s p (.close f0 (.ret (-1))) (.pipeKalloc f0)
  | .pipeKalloc f0 f1 =>
    if ch.ok = false then s.goto p (.close f0 (.close f1))
    else match s.pages ch.page with
      | some _ => none
      | none => (s.setPage ch.page (some ⟨true, true⟩)).goto p (.pipeType f0 f1 ch.page)
  | .pipeType f0 f1 pi => (pipeFiles s f0 f1 pi).goto p (.pipeFd0 f0 f1)
  -- sys_pipe
  | .pipeFd0 rf wf => withFd s p rf ((s.proc p).goto (.close rf (.close wf))) (.pipeFd1 rf wf)
  | .pipeFd1 rf wf fd0 =>
    withFd s p wf (((s.proc p).setFd fd0 none).goto (.close rf (.close wf))) (.pipeCopy rf wf fd0)
  | .pipeCopy rf wf fd0 fd1 =>
    if ch.ok then s.goto p (.ret 0)
    else s.set p ((((s.proc p).setFd fd0 none).setFd fd1 none).goto (.close rf (.close wf)))
  -- fork: the slot of the child, its memory, its descriptors
  | .forkAlloc =>
    match first fun np => (s.proc np).state = .unused with
    | none => s.goto p (.ret (-1))
    | some np => (s.set np { s.proc np with state := .used p }).goto p (.forkVm np)
  | .forkVm np =>
    if ch.ok then s.goto p (.forkDup np 0)
    else (s.set np { s.proc np with state := .unused }).goto p (.ret (-1))
  | .forkDup np i =>
    if h : i < NOFILE then forkFd s p np ⟨i, h⟩
    else (s.set np { s.proc np with state := .running }).goto p (.ret np)
  -- exit
  | .exit i =>
    if h : i < NOFILE then
      match (s.proc p).ofile ⟨i, h⟩ with
      | none => s.goto p (.exit (i + 1))
      | some f => s.goto p (.close f (.exit ⟨i, h⟩ f))
    else s.set p { s.proc p with state := .zombie, pc := .idle }
  | .exitClear fd _ => s.set p (((s.proc p).setFd fd none).goto (.exit (fd + 1)))

/-! ## The machine -/

inductive Act where
  | call (p : Fin NPROC) (c : Call)
  | step (p : Fin NPROC) (ch : Choice)
  | wait (p q : Fin NPROC)

/-- One action: a process starts a call, goes on with it, or reaps a zombie. -/
def step (s : State) (a : Act) : Option State :=
  if s.panicked.isSome then none
  else match a with
    | .call p c =>
      if (s.proc p).state = .running then
        match (s.proc p).pc with
        | .idle => s.set p ((s.proc p).call c)
        | _ => none
      else none
    | .step p ch => exec s p ch
    | .wait p q =>
      if (s.proc p).state = .running ∧ (s.proc q).state = .zombie then
        s.set q { s.proc q with state := .unused }
      else none

def Process.empty : Process := ⟨.unused, fun _ => none, .idle, fun _ => none, false⟩

/-- The first process, without open files. -/
def start : State where
  ftable := fun _ => ⟨.none, 0, false, false, 0⟩
  pages := fun _ => none
  proc := fun p => if p.val = 0 then { Process.empty with state := .running } else .empty
  stale := false
  panicked := none

end FileTable

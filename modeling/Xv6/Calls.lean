/-
# The system calls that move pages (kernel/proc.c, kernel/file.c, kernel/pipe.c)

The process table, the file table and physical memory together: `fork`, `exit`, `wait`,
`sbrk`, `pipe`, `close`, `dup`, `open`, `read`, `write` and `fstat` with `exec` of
`Exec.lean`.  The tables are
passed explicitly; memory is the state of `Kernel`, so every page a call uses comes from
`kalloc` and a pipe lives in its page.

Calls run one at a time, in any order and by any process.  The inode of a file and the
current directory are left out, and so are locks, wakeups and the scheduler.
-/
import Xv6.ExecSpec
import Xv6.Proc

namespace Calls

open Function Vm
open Proc (NPROC CInt ProcState)

/-! ## The tables -/

/-- Open files per process and per system (`kernel/param.h`). -/
def NOFILE : ℕ := 16

def NFILE : ℕ := 100

inductive FileType where
  | none
  | pipe
  | inode
  | device
  deriving DecidableEq, Repr

/-- `struct file`. -/
structure OpenFile where
  type : FileType
  ref : ℕ
  readable : Bool
  writable : Bool
  pipe : ℕ

abbrev Ftable := Fin NFILE → OpenFile

/-- `struct proc`, as far as it has to do with memory and files; pointers to slots and
to files are indices, null pointers to pages are 0. -/
structure Process where
  state : ProcState
  xstate : CInt
  pid : CInt
  parent : Option (Fin NPROC)
  trapframe : ℕ
  image : Image
  ofile : Fin NOFILE → Option (Fin NFILE)

/-- A slot of the zeroed table. -/
def Process.empty : Process where
  state := .unused
  xstate := 0
  pid := 0
  parent := none
  trapframe := 0
  image := ⟨0, 0, []⟩
  ofile := fun _ => none

/-- The tables; `kernel` are the pages the kernel took for itself when it started. -/
structure Tab where
  proc : Fin NPROC → Process
  ftable : Ftable
  nextpid : CInt
  initproc : Option (Fin NPROC)
  kernel : List ℕ

def Tab.empty : Tab where
  proc := fun _ => .empty
  ftable := fun _ => ⟨.none, 0, false, false, 0⟩
  nextpid := 1
  initproc := none
  kernel := []

def Tab.set (t : Tab) (p : Fin NPROC) (x : Process) : Tab :=
  { t with proc := update t.proc p x }

def Tab.setFiles (t : Tab) (ft : Ftable) : Tab := { t with ftable := ft }

/-- The first index with a property, as the loops over the tables find it. -/
def first {n : ℕ} (f : Fin n → Bool) : Option (Fin n) := (List.finRange n).find? f

/-! ## kernel/pipe.c -/

def PIPESIZE : ℕ := 512

/-- The offsets of `data`, `nread`, `nwrite`, `readopen` and `writeopen` in
`struct pipe`. -/
def dataOff : ℕ := 24

def nreadOff : ℕ := 536

def nwriteOff : ℕ := 540

def readopenOff : ℕ := 544

def writeopenOff : ℕ := 548

/-- Store an `int` in a page. -/
def writeInt (pa off w : ℕ) : Kernel Unit := fun s =>
  .ok ((), { s with mem := update s.mem pa (Bytes.setLE (s.mem pa) off 4 w) })

def readInt (pa off : ℕ) : Kernel ℕ := fun s => .ok (Bytes.getLE (s.mem pa) off 4, s)

/-- Close one end of a pipe; the page is freed with the second. -/
def pipeclose (L : Layout) (pi : ℕ) (writable : Bool) : Kernel Unit := do
  writeInt pi (if writable then writeopenOff else readopenOff) 0
  let readopen ← readInt pi readopenOff
  let writeopen ← readInt pi writeopenOff
  if readopen = 0 ∧ writeopen = 0 then kfree L pi else pure ()

/-- The loop of `piperead`, with `i` bytes read and at most as many more as the first
argument says. -/
def pipereadLoop (pagetable pi addr : ℕ) : ℕ → ℕ → Kernel ℤ
  | 0, i => pure i
  | k + 1, i => do
    let nread ← readInt pi nreadOff
    let nwrite ← readInt pi nwriteOff
    if nread = nwrite then pure i
    else do
      let ch ← readBytes pi (dataOff + nread % PIPESIZE) 1
      writeInt pi nreadOff (nread + 1)
      let r ← copyout pagetable ((addr + i) % 2 ^ 64) ch
      if r = -1 then pure i else pipereadLoop pagetable pi addr k (i + 1)

/-- `piperead` by a process that has been killed or not; `none` if it sleeps. -/
def piperead (pagetable pi addr : ℕ) (n : ℤ) (killed : Bool) : Kernel (Option ℤ) := do
  let nread ← readInt pi nreadOff
  let nwrite ← readInt pi nwriteOff
  let writeopen ← readInt pi writeopenOff
  if nread = nwrite ∧ writeopen ≠ 0 then pure (if killed then some (-1) else none)
  else some <$> pipereadLoop pagetable pi addr n.toNat 0

/-- The loop of `pipewrite`, with `i` bytes written and as many more to write as the
first argument says. -/
def pipewriteLoop (pagetable pi addr : ℕ) (killed : Bool) : ℕ → ℕ → Kernel ℤ
  | 0, i => pure i
  | k + 1, i => do
    let readopen ← readInt pi readopenOff
    if readopen = 0 ∨ killed = true then pure (-1)
    else do
      let nwrite ← readInt pi nwriteOff
      let nread ← readInt pi nreadOff
      -- the writer sleeps here; what it does when it is woken is another call
      if nwrite = (nread + PIPESIZE) % 2 ^ 32 then pure i
      else do
        let (r, ch) ← copyin pagetable ((addr + i) % 2 ^ 64) 1
        if r = -1 then pure i
        else do
          writeBytes pi (dataOff + nwrite % PIPESIZE) (ch.take 1)
          writeInt pi nwriteOff (nwrite + 1)
          pipewriteLoop pagetable pi addr killed k (i + 1)

def pipewrite (pagetable pi addr : ℕ) (n : ℤ) (killed : Bool) : Kernel ℤ :=
  pipewriteLoop pagetable pi addr killed n.toNat 0

/-! ## kernel/file.c -/

def filealloc (ft : Ftable) : Option (Ftable × Fin NFILE) :=
  (first fun f => (ft f).ref = 0).map fun f =>
    (update ft f { ft f with ref := 1 }, f)

def filedup (ft : Ftable) (f : Fin NFILE) : Kernel Ftable :=
  if (ft f).ref < 1 then Vm.panic "filedup"
  else pure (update ft f { ft f with ref := (ft f).ref + 1 })

def fileclose (L : Layout) (ft : Ftable) (f : Fin NFILE) : Kernel Ftable :=
  if (ft f).ref < 1 then Vm.panic "fileclose"
  else if 0 < (ft f).ref - 1 then
    pure (update ft f { ft f with ref := (ft f).ref - 1 })
  else do
    if (ft f).type = .pipe then pipeclose L (ft f).pipe (ft f).writable else pure ()
    pure (update ft f { ft f with ref := 0, type := .none })

/-- Pieces of data copied to user memory one after another, as `readi` and the devices do
it; `tot` bytes are there already.  A piece that cannot be copied ends the call. -/
def copyoutPieces (pagetable : ℕ) (onError : ℤ → ℤ) : ℕ → ℤ → List (List UInt8) → Kernel ℤ
  | _, tot, [] => pure tot
  | dst, tot, piece :: pieces => do
    let r ← copyout pagetable dst piece
    if r = -1 then pure (onError tot)
    else copyoutPieces pagetable onError ((dst + piece.length) % 2 ^ 64) (tot + piece.length) pieces

/-- Read from a file.  `data` is what the file system or the device has to offer, `none`
for a device without a function to read. -/
def fileread (pagetable : ℕ) (f : OpenFile) (addr : ℕ) (n : ℤ) (killed : Bool)
    (data : Option (List (List UInt8))) : Kernel (Option ℤ) :=
  if f.readable = false then pure (some (-1))
  else match f.type with
    | .pipe => piperead pagetable f.pipe addr n killed
    | .device =>
      match data with
      | none => pure (some (-1))
      | some pieces => some <$> copyoutPieces pagetable id addr 0 pieces
    | .inode => some <$> copyoutPieces pagetable (fun _ => -1) addr 0 (data.getD [])
    | .none => Vm.panic "fileread"

/-- Write to a file.  The file system and the devices copy from user memory to memory of
their own, and `ret` is what they return. -/
def filewrite (pagetable : ℕ) (f : OpenFile) (addr : ℕ) (n : ℤ) (killed : Bool) (ret : ℤ) :
    Kernel ℤ :=
  if f.writable = false then pure (-1)
  else match f.type with
    | .pipe => pipewrite pagetable f.pipe addr n killed
    | .device => pure ret
    | .inode => pure ret
    | .none => Vm.panic "filewrite"

/-- The metadata `st` of a file. -/
def filestat (pagetable : ℕ) (f : OpenFile) (addr : ℕ) (st : List UInt8) : Kernel ℤ :=
  if f.type = .inode ∨ f.type = .device then do
    let r ← copyout pagetable addr st
    if r < 0 then pure (-1) else pure 0
  else pure (-1)

/-- A pipe and its two files. -/
def pipealloc (L : Layout) (ft : Ftable) : Kernel (Ftable × Option (Fin NFILE × Fin NFILE)) :=
  match filealloc ft with
  | none => pure (ft, none)
  | some (ft, f0) =>
    match filealloc ft with
    | none => do
      let ft ← fileclose L ft f0
      pure (ft, none)
    | some (ft, f1) => do
      match ← kalloc with
      | none => do
        let ft ← fileclose L ft f0
        let ft ← fileclose L ft f1
        pure (ft, none)
      | some pi => do
        writeInt pi readopenOff 1
        writeInt pi writeopenOff 1
        writeInt pi nwriteOff 0
        writeInt pi nreadOff 0
        let ft := update ft f0 ⟨.pipe, (ft f0).ref, true, false, pi⟩
        let ft := update ft f1 ⟨.pipe, (ft f1).ref, false, true, pi⟩
        pure (ft, some (f0, f1))

/-! ## kernel/sysfile.c -/

def Process.setFile (x : Process) (fd : Fin NOFILE) (o : Option (Fin NFILE)) : Process :=
  { x with ofile := update x.ofile fd o }

/-- A free descriptor. -/
def fdalloc (x : Process) (f : Fin NFILE) : Option (Process × Fin NOFILE) :=
  (first fun fd => (x.ofile fd).isNone).map fun fd => (x.setFile fd (some f), fd)

/-- The file of a descriptor. -/
def argfd (x : Process) (fd : CInt) : Option (Fin NOFILE × Fin NFILE) :=
  if h : fd.toNat < NOFILE then (x.ofile ⟨fd.toNat, h⟩).map fun f => (⟨fd.toNat, h⟩, f) else none

/-- The four bytes of a descriptor. -/
def bytes32 (w : ℕ) : List UInt8 := (List.range 4).map fun i => UInt8.ofNat (w / 256 ^ i)

def sysDup (t : Tab) (p : Fin NPROC) (fd : CInt) : Kernel (Tab × ℤ) :=
  match argfd (t.proc p) fd with
  | none => pure (t, -1)
  | some (_, f) =>
    match fdalloc (t.proc p) f with
    | none => pure (t, -1)
    | some (x, fd) => do
      let ft ← filedup t.ftable f
      pure ((t.set p x).setFiles ft, fd)

def sysRead (t : Tab) (p : Fin NPROC) (fd : CInt) (addr : ℕ) (n : ℤ) (killed : Bool)
    (data : Option (List (List UInt8))) : Kernel (Option ℤ) :=
  match argfd (t.proc p) fd with
  | none => pure (some (-1))
  | some (_, f) => fileread (t.proc p).image.pagetable (t.ftable f) addr n killed data

def sysWrite (t : Tab) (p : Fin NPROC) (fd : CInt) (addr : ℕ) (n : ℤ) (killed : Bool) (ret : ℤ) :
    Kernel ℤ :=
  match argfd (t.proc p) fd with
  | none => pure (-1)
  | some (_, f) => filewrite (t.proc p).image.pagetable (t.ftable f) addr n killed ret

def sysFstat (t : Tab) (p : Fin NPROC) (fd : CInt) (addr : ℕ) (st : List UInt8) : Kernel ℤ :=
  match argfd (t.proc p) fd with
  | none => pure (-1)
  | some (_, f) => filestat (t.proc p).image.pagetable (t.ftable f) addr st

def sysClose (L : Layout) (t : Tab) (p : Fin NPROC) (fd : CInt) : Kernel (Tab × ℤ) :=
  match argfd (t.proc p) fd with
  | none => pure (t, -1)
  | some (fd, f) => do
    let ft ← fileclose L t.ftable f
    pure ((t.set p ((t.proc p).setFile fd none)).setFiles ft, 0)

/-- The part of `sys_open` after the inode has been found. -/
def sysOpen (L : Layout) (t : Tab) (p : Fin NPROC) (device readable writable : Bool) :
    Kernel (Tab × ℤ) :=
  match filealloc t.ftable with
  | none => pure (t, -1)
  | some (ft, f) =>
    match fdalloc (t.proc p) f with
    | none => do
      let ft ← fileclose L ft f
      pure (t.setFiles ft, -1)
    | some (x, fd) =>
      let file := { ft f with type := if device then .device else .inode, readable, writable }
      pure ((t.set p x).setFiles (update ft f file), fd)

/-- Give the two files of a new pipe back. -/
def dropPipe (L : Layout) (t : Tab) (ft : Ftable) (rf wf : Fin NFILE) : Kernel (Tab × ℤ) := do
  let ft ← fileclose L ft rf
  let ft ← fileclose L ft wf
  pure (t.setFiles ft, -1)

def sysPipe (L : Layout) (t : Tab) (p : Fin NPROC) (fdarray : ℕ) : Kernel (Tab × ℤ) := do
  match ← pipealloc L t.ftable with
  | (ft, none) => pure (t.setFiles ft, -1)
  | (ft, some (rf, wf)) =>
    match fdalloc (t.proc p) rf with
    | none => dropPipe L t ft rf wf
    | some (x, fd0) =>
      match fdalloc x wf with
      | none => dropPipe L t ft rf wf
      | some (x, fd1) => do
        let r ← copyout x.image.pagetable fdarray (bytes32 fd0)
        if r < 0 then dropPipe L t ft rf wf
        else do
          let r ← copyout x.image.pagetable ((fdarray + 4) % 2 ^ 64) (bytes32 fd1)
          if r < 0 then dropPipe L t ft rf wf
          else pure ((t.set p x).setFiles ft, 0)

/-! ## kernel/proc.c -/

/-- Free the pages of a process and its slot. -/
def freeproc (L : Layout) (x : Process) : Kernel Process := do
  if x.trapframe ≠ 0 then kfree L x.trapframe else pure ()
  if x.image.pagetable ≠ 0 then procFreepagetable L x.image.pagetable x.image.sz else pure ()
  pure { x with
    state := .unused, xstate := 0, pid := 0, parent := none
    trapframe := 0, image := ⟨0, 0, []⟩ }

/-- `allocproc` from the label `found` on, for the slot `p` with the record `x`. -/
def allocFound (L : Layout) (t : Tab) (p : Fin NPROC) (x : Process) :
    Kernel (Tab × Option (Fin NPROC)) := do
  match ← kalloc with
  | none => do
    let x ← freeproc L { x with trapframe := 0 }
    pure (t.set p x, none)
  | some trapframe => do
    match ← procPagetable L trapframe with
    | none => do
      let x ← freeproc L { x with trapframe, image := { x.image with pagetable := 0 } }
      pure (t.set p x, none)
    | some pagetable =>
      pure (t.set p { x with trapframe, image := { x.image with pagetable } }, some p)

/-- A slot for a new process, with a trapframe and an address space without user
pages. -/
def allocproc (L : Layout) (t : Tab) : Kernel (Tab × Option (Fin NPROC)) :=
  match first fun p => (t.proc p).state = .unused with
  | none => pure (t, none)
  | some p =>
    allocFound L { t with nextpid := t.nextpid + 1 } p
      { t.proc p with pid := t.nextpid, state := .used }

/-- The copying of the open files in `fork`. -/
def dupFiles (ofile : Fin NOFILE → Option (Fin NFILE)) :
    List (Fin NOFILE) → Ftable → Kernel Ftable
  | [], ft => pure ft
  | fd :: fds, ft =>
    match ofile fd with
    | none => dupFiles ofile fds ft
    | some f => do
      let ft ← filedup ft f
      dupFiles ofile fds ft

/-- The offset of `a0` in the trapframe. -/
def a0Off : ℕ := 112

def fork (L : Layout) (t : Tab) (p : Fin NPROC) : Kernel (Tab × ℤ) := do
  match ← allocproc L t with
  | (t, none) => pure (t, -1)
  | (t, some np) => do
    let r ← uvmcopy L (t.proc p).image.pagetable (t.proc np).image.pagetable (t.proc p).image.sz
    if r < 0 then do
      let x ← freeproc L (t.proc np)
      pure (t.set np x, -1)
    else do
      memmovePage (t.proc np).trapframe (t.proc p).trapframe
      writeWord (t.proc np).trapframe a0Off 0
      let ft ← dupFiles (t.proc p).ofile (List.finRange NOFILE) t.ftable
      let x := { t.proc np with
        image := ⟨(t.proc np).image.pagetable, (t.proc p).image.sz, (t.proc p).image.name⟩
        ofile := fun fd => if ((t.proc p).ofile fd).isSome then (t.proc p).ofile fd
          else (t.proc np).ofile fd
        parent := some p
        state := .runnable }
      pure ((t.set np x).setFiles ft, (t.proc np).pid.toInt)

/-- The closing of the open files in `exit`. -/
def closeFiles (L : Layout) : List (Fin NOFILE) → Process → Ftable → Kernel (Process × Ftable)
  | [], x, ft => pure (x, ft)
  | fd :: fds, x, ft =>
    match x.ofile fd with
    | none => closeFiles L fds x ft
    | some f => do
      let ft ← fileclose L ft f
      closeFiles L fds (x.setFile fd none) ft

/-- The children of `p` get `initproc` as their parent. -/
def reparent (t : Tab) (p : Fin NPROC) : Tab :=
  { t with proc := fun q =>
      if (t.proc q).parent = some p then { t.proc q with parent := t.initproc } else t.proc q }

def exit (L : Layout) (t : Tab) (p : Fin NPROC) (status : CInt) : Kernel (Tab × ℤ) :=
  if t.initproc = some p then Vm.panic "init exiting"
  else do
    let (x, ft) ← closeFiles L (List.finRange NOFILE) (t.proc p) t.ftable
    let t := reparent ((t.set p x).setFiles ft) p
    pure (t.set p { t.proc p with xstate := status, state := .zombie }, 0)

/-- Copy the exit status to the parent, unless it passed a null pointer. -/
def copyStatus (pagetable addr : ℕ) (xstate : CInt) : Kernel ℤ :=
  if addr ≠ 0 then copyout pagetable addr (bytes32 xstate.toNat) else pure 0

/-- The calls of `wait` that return: the result is `none` if it sleeps. -/
def wait (L : Layout) (t : Tab) (p : Fin NPROC) (addr : ℕ) : Kernel (Option (Tab × ℤ)) :=
  match first fun q => (t.proc q).parent = some p ∧ (t.proc q).state = .zombie with
  | none =>
    if (first fun q => (t.proc q).parent = some p).isSome then pure none
    else pure (some (t, -1))
  | some q => do
    let r ← copyStatus (t.proc p).image.pagetable addr (t.proc q).xstate
    if r < 0 then pure (some (t, -1))
    else do
      let x ← freeproc L (t.proc q)
      pure (some (t.set q x, (t.proc q).pid.toInt))

/-- The sum of a size and an `int`, in 64-bit arithmetic. -/
def addInt (sz : ℕ) (n : ℤ) : ℕ := (((sz : ℤ) + n) % 2 ^ 64).toNat

/-- Grow or shrink the memory of a process by `n` bytes. -/
def growproc (L : Layout) (im : Image) (n : ℤ) : Kernel (Image × ℤ) :=
  if 0 < n then do
    let sz ← uvmalloc L im.pagetable im.sz (addInt im.sz n) PTE_W
    if sz = 0 then pure (im, -1) else pure ({ im with sz }, 0)
  else if n < 0 then do
    let sz ← uvmdealloc L im.pagetable im.sz (addInt im.sz n)
    pure ({ im with sz }, 0)
  else pure (im, 0)

/-! ## Starting the system -/

def initcode : List UInt8 :=
  [0x17, 0x05, 0x00, 0x00, 0x13, 0x05, 0x45, 0x02,
   0x97, 0x05, 0x00, 0x00, 0x93, 0x85, 0x35, 0x02,
   0x93, 0x08, 0x70, 0x00, 0x73, 0x00, 0x00, 0x00,
   0x93, 0x08, 0x20, 0x00, 0x73, 0x00, 0x00, 0x00,
   0xef, 0xf0, 0x9f, 0xff, 0x2f, 0x69, 0x6e, 0x69,
   0x74, 0x00, 0x00, 0x24, 0x00, 0x00, 0x00, 0x00,
   0x00, 0x00, 0x00, 0x00]

/-- The pages of the kernel itself: its page table, the kernel stacks and the rings of
the disk; it panics if there are not enough. -/
def kernelPages : ℕ → List ℕ → Kernel (List ℕ)
  | 0, kernel => pure kernel
  | n + 1, kernel => do
    match ← kalloc with
    | none => Vm.panic "kalloc"
    | some pa => kernelPages n (pa :: kernel)

/-- Load `initcode` at address 0.  The source ignores the result of `mappages`. -/
def uvmfirst (pagetable : ℕ) (src : List UInt8) : Kernel ℤ :=
  if PGSIZE ≤ src.length then Vm.panic "uvmfirst: more than a page"
  else do
    match ← kalloc with
    | none => Vm.panic "kerneltrap"
    | some mem => do
      memsetPage mem 0
      let r ← mappages pagetable 0 PGSIZE mem (PTE_W ||| PTE_R ||| PTE_X ||| PTE_U)
      writeBytes mem 0 src
      pure r

/-- The record of the first process. -/
def Process.first (x : Process) : Process :=
  { x with image := ⟨x.image.pagetable, PGSIZE, "initcode".toUTF8.toList⟩, state := .runnable }

/-- The first process; the result is that of `mappages`. -/
def userinit (L : Layout) (t : Tab) : Kernel (Tab × ℤ) := do
  match ← allocproc L t with
  | (_, none) => Vm.panic "kerneltrap"
  | (t, some p) => do
    let r ← uvmfirst (t.proc p).image.pagetable initcode
    writeWord (t.proc p).trapframe 24 0
    writeWord (t.proc p).trapframe 48 PGSIZE
    pure ({ t.set p (t.proc p).first with initproc := some p }, r)

/-- `main`, with `n` pages for the kernel itself. -/
def main (L : Layout) (n : ℕ) : Kernel (Tab × ℤ) := do
  kinit L
  let kernel ← kernelPages n []
  userinit L { Tab.empty with kernel }

/-! ## The machine -/

structure Machine where
  phys : Phys
  tab : Tab
  booted : Bool
  panicked : Option String

/-- What a process does; `store` and `trap` stand for what it does in user space: it
writes to its memory, and its registers are saved in the trapframe. -/
inductive Call where
  | fork
  | exec (namei : List UInt8 → Option File) (upath uargv : ℕ)
  | exit (status : CInt)
  | wait (addr : ℕ)
  | sbrk (n : ℤ)
  | pipe (fdarray : ℕ)
  | close (fd : CInt)
  | dup (fd : CInt)
  | open (device readable writable : Bool)
  | read (fd : CInt) (addr : ℕ) (n : ℤ) (killed : Bool) (data : Option (List (List UInt8)))
  | write (fd : CInt) (addr : ℕ) (n : ℤ) (killed : Bool) (ret : ℤ)
  | fstat (fd : CInt) (addr : ℕ) (st : List UInt8)
  | store (va : ℕ) (bytes : List UInt8)
  | trap (regs : Page)

inductive Act where
  | boot (n : ℕ)
  | call (p : Fin NPROC) (c : Call) (deny : List Bool)

/-- The memory of `p` is replaced. -/
def Tab.setImage (t : Tab) (p : Fin NPROC) (image : Image) : Tab :=
  t.set p { t.proc p with image }

/-- Perform a call; `none` if it sleeps. -/
def syscall (L : Layout) (t : Tab) (p : Fin NPROC) : Call → Kernel (Option (Tab × ℤ))
  | .fork => some <$> fork L t p
  | .exec namei upath uargv => do
    let (r, image) ← sysExec L (t.proc p).trapframe (t.proc p).image namei upath uargv
    pure (some (t.setImage p image, r))
  | .exit status => some <$> exit L t p status
  | .wait addr => wait L t p addr
  | .sbrk n => do
    let (image, r) ← growproc L (t.proc p).image n
    pure (some (t.setImage p image, r))
  | .pipe fdarray => some <$> sysPipe L t p fdarray
  | .close fd => some <$> sysClose L t p fd
  | .dup fd => some <$> sysDup t p fd
  | .open device readable writable => some <$> sysOpen L t p device readable writable
  | .read fd addr n killed data => do
    let r ← sysRead t p fd addr n killed data
    pure (r.map fun r => (t, r))
  | .write fd addr n killed ret => do
    let r ← sysWrite t p fd addr n killed ret
    pure (some (t, r))
  | .fstat fd addr st => do
    let r ← sysFstat t p fd addr st
    pure (some (t, r))
  | .store va bytes => do
    let r ← copyout (t.proc p).image.pagetable va bytes
    pure (some (t, r))
  | .trap regs => do
    writeBytes (t.proc p).trapframe 0 ((List.range PGSIZE).map regs)
    pure (some (t, 0))

/-- One action.  The machine starts if it has enough memory for the first process; a
panic stops it. -/
def step (L : Layout) (s : Machine) : Act → Option Machine
  | .boot n =>
    if s.booted then none
    else match main L n s.phys with
      | .ok ((tab, r), phys) => if r = 0 then some ⟨phys, tab, true, none⟩ else none
      | .error _ => none
  | .call p c deny =>
    if s.panicked.isSome ∨ (s.tab.proc p).state ≠ .runnable then none
    else match syscall L s.tab p c { s.phys with deny } with
      | .ok (some (tab, _), phys) => some { s with phys, tab }
      | .ok (none, _) => none
      | .error msg => some { s with panicked := some msg }

/-- The machine before it starts, with any contents of the memory. -/
def start (mem : ℕ → Page) : Machine := ⟨⟨mem, [], [], false⟩, .empty, false, none⟩

end Calls

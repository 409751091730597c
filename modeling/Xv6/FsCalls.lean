/-
# The system calls on files (kernel/sysfile.c, file.c, exec.c, proc.c)

The system calls that use the file system, over the functions of `Fs.lean`, and the
machine whose steps are whole calls: any process that runs makes any of its calls with any
arguments.  A call that panics has no next state.

What a call reads from or writes to the memory of its process comes with the call: whether
a string could be fetched, which pieces could be copied out, and the bytes that could be
copied in.  Pipes and devices keep their file types; their own reads and writes touch no
inode and are left out.  `exec` is what it does with the inode of the program: any
number of reads while the inode is locked.
-/
import Xv6.Fs

namespace Fs

open Calls (NFILE NOFILE first)
open Itable (CShort)
open Proc (NPROC)

/-! ## Transactions and open files -/

/-- An operation has begun, and has logged nothing yet. -/
def State.begun (s : State) : State := { s with
  outstanding := s.outstanding + 1
  ops := [] :: s.ops }

@[simp] theorem State.begun_dinode (s : State) : s.begun.dinode = s.dinode := rfl

@[simp] theorem State.begun_block (s : State) : s.begun.block = s.block := rfl

@[simp] theorem State.begun_itable (s : State) : s.begun.itable = s.itable := rfl

@[simp] theorem State.begun_ftable (s : State) : s.begun.ftable = s.ftable := rfl

@[simp] theorem State.begun_proc (s : State) : s.begun.proc = s.proc := rfl

def beginOp : FsM Unit := fun s => .ok () s.begun

theorem beginOp_bind {α : Type} (f : Unit → FsM α) (s : State) :
    (beginOp >>= f) s = f () s.begun := rfl

/-- An operation has ended; the last one commits. -/
def State.ended (s : State) : State := { s with
  outstanding := s.outstanding - 1
  commits := if s.outstanding = 1 then ⟨s.dinode, s.block, s.itable⟩ :: s.commits else s.commits }

@[simp] theorem State.ended_dinode (s : State) : s.ended.dinode = s.dinode := rfl

@[simp] theorem State.ended_block (s : State) : s.ended.block = s.block := rfl

@[simp] theorem State.ended_itable (s : State) : s.ended.itable = s.itable := rfl

@[simp] theorem State.ended_ftable (s : State) : s.ended.ftable = s.ftable := rfl

@[simp] theorem State.ended_proc (s : State) : s.ended.proc = s.proc := rfl

def endOp : FsM Unit := fun s => .ok () s.ended

theorem endOp_bind {α : Type} (f : Unit → FsM α) (s : State) : (endOp >>= f) s = f () s.ended := rfl

def file (f : Fin NFILE) : FsM File := fun s => .ok (s.ftable f) s

theorem file_bind {α : Type} (f : Fin NFILE) (c : File → FsM α) (s : State) :
    (file f >>= c) s = c (s.ftable f) s := rfl

def setFile (f : Fin NFILE) (x : File) : FsM Unit := fun s =>
  .ok () { s with ftable := Function.update s.ftable f x }

def myproc (p : Fin NPROC) : FsM Process := fun s => .ok (s.proc p) s

theorem myproc_bind {α : Type} (p : Fin NPROC) (f : Process → FsM α) (s : State) :
    (myproc p >>= f) s = f (s.proc p) s := rfl

def setProc (p : Fin NPROC) (x : Process) : FsM Unit := fun s =>
  .ok () { s with proc := Function.update s.proc p x }

def freeFile : FsM (Option (Fin NFILE)) := fun s => .ok (first fun f => (s.ftable f).ref = 0) s

def filealloc : FsM (Option (Fin NFILE)) := do
  match ← freeFile with
  | none => pure none
  | some f => do
    let x ← file f
    setFile f { x with ref := 1 }
    pure (some f)

def filedup (f : Fin NFILE) : FsM Unit := do
  let x ← file f
  if x.ref < 1 then throw "filedup"
  else setFile f { x with ref := x.ref + 1 }

def fileclose (f : Fin NFILE) : FsM Unit := do
  let x ← file f
  if x.ref < 1 then throw "fileclose"
  else if 1 < x.ref then setFile f { x with ref := x.ref - 1 }
  else do
    setFile f { x with ref := 0, type := .none }
    if x.type = .inode ∨ x.type = .device then do
      beginOp
      iput x.ip
      endOp
    else pure ()

/-- The descriptors of a process with one changed. -/
def Process.setFd (x : Process) (fd : Fin NOFILE) (o : Option (Fin NFILE)) : Process :=
  { x with ofile := Function.update x.ofile fd o }

/-- Take over the file on success. -/
def fdalloc (p : Fin NPROC) (f : Fin NFILE) : FsM (Option (Fin NOFILE)) := do
  let x ← myproc p
  match first fun fd => (x.ofile fd).isNone with
  | none => pure none
  | some fd => do
    setProc p (x.setFd fd (some f))
    pure (some fd)

/-- The descriptor and the file that an argument names. -/
def argfd (p : Fin NPROC) (fd : ℤ) : FsM (Option (Fin NOFILE × Fin NFILE)) := do
  let x ← myproc p
  if h : 0 ≤ fd ∧ fd.toNat < NOFILE then
    pure ((x.ofile ⟨fd.toNat, h.2⟩).map fun f => (⟨fd.toNat, h.2⟩, f))
  else pure none

/-! ## Reading and writing files -/

def filestat (f : Fin NFILE) (copied : Bool) : FsM ℤ := do
  let x ← file f
  if x.type = .inode ∨ x.type = .device then do
    ilock x.ip
    iunlock x.ip
    pure (if copied then 0 else -1)
  else pure (-1)

def fileread (sb : Superblock) (f : Fin NFILE) (ok : ℕ → Bool) (n : ℤ) : FsM ℤ := do
  let x ← file f
  if x.readable = false then pure (-1)
  else
    match x.type with
    | .pipe => pure 0
    | .device => pure 0
    | .inode => do
      ilock x.ip
      let (r, _) ← readi sb x.ip ok x.off (n % 2 ^ 32).toNat
      if 0 < r then do
        setFile f { x with off := x.off + r.toNat }
        iunlock x.ip
        pure r
      else do
        iunlock x.ip
        pure r
    | .none => throw "fileread"

/-- The largest piece that `filewrite` writes in one transaction. -/
def maxWrite : ℕ := (MAXOPBLOCKS - 1 - 1 - 2) / 2 * BSIZE

/-- The loop of `filewrite`, with the number of bytes written so far. -/
def writePieces (sb : Superblock) (f : Fin NFILE) (src : ℕ → Option UInt8) (n : ℕ) :
    ℕ → ℕ → FsM ℕ
  | 0, i => pure i
  | fuel + 1, i =>
    if i < n then do
      beginOp
      let x ← file f
      ilock x.ip
      let r ← writei sb x.ip (fun j => src (i + j)) x.off (min (n - i) maxWrite)
      setFile f { x with off := if 0 < r then x.off + r.toNat else x.off }
      iunlock x.ip
      endOp
      if r ≠ min (n - i) maxWrite then pure i
      else writePieces sb f src n fuel (i + min (n - i) maxWrite)
    else pure i

def filewrite (sb : Superblock) (f : Fin NFILE) (src : ℕ → Option UInt8) (n : ℤ) : FsM ℤ := do
  let x ← file f
  if x.writable = false then pure (-1)
  else
    match x.type with
    | .pipe => pure 0
    | .device => pure 0
    | .inode => do
      let i ← writePieces sb f src n.toNat n.toNat 0
      pure (if (i : ℤ) = n then n else -1)
    | .none => throw "filewrite"

/-! ## Names -/

/-- `MAXPATH` (`kernel/param.h`). -/
def MAXPATH : ℕ := 128

/-- `argstr`: the string ends at its NUL byte and must not be too long; `none` is a bad
address. -/
def argstr (path : Option (List UInt8)) : Option (List UInt8) :=
  (path.map fun path => path.takeWhile (· ≠ 0)).filter fun path => path.length < MAXPATH

/-- Change the link count in the inode and write the inode. -/
def setNlink (ip : Ip) (f : CShort → CShort) : FsM Unit :=
  relabel ip fun d => { d with nlink := f d.nlink }

/-- `bad:` in `sys_link`. -/
def linkBad (ip : Ip) : FsM ℤ := do
  ilock ip
  setNlink ip (· - 1)
  iunlockput ip
  endOp
  pure (-1)

def sysLink (sb : Superblock) (p : Fin NPROC) (old new : Option (List UInt8)) : FsM ℤ :=
  match argstr old, argstr new with
  | some old, some new => do
    beginOp
    match ← namei sb p old with
    | none => do
      endOp
      pure (-1)
    | some ip => do
      ilock ip
      let x ← inode ip
      if x.d.type = T_DIR then do
        iunlockput ip
        endOp
        pure (-1)
      else do
        setNlink ip (· + 1)
        iunlock ip
        match ← nameiparent sb p new with
        | none => linkBad ip
        | some (dp, name) => do
          ilock dp
          let r ← dirlink sb dp name x.inum
          if r < 0 then do
            iunlockput dp
            linkBad ip
          else do
            iunlockput dp
            iput ip
            endOp
            pure 0
  | _, _ => pure (-1)

/-- The entries that `isdirempty` reads, from offset `off` on. -/
def isdiremptyLoop (sb : Superblock) (dp : Ip) : ℕ → ℕ → FsM Bool
  | 0, _ => pure true
  | k + 1, off => do
    let (n, de) ← readi sb dp always off DIRENT
    if n ≠ DIRENT then throw "isdirempty: readi"
    else if deInum de ≠ 0 then pure false
    else isdiremptyLoop sb dp k (off + DIRENT)

/-- Is the directory empty except for `.` and `..`? -/
def isdirempty (sb : Superblock) (dp : Ip) : FsM Bool := do
  let x ← inode dp
  isdiremptyLoop sb dp (entries x.d.size - 2) (2 * DIRENT)

/-- `ip->type == T_DIR && !isdirempty(ip)`. -/
def nonempty (sb : Superblock) (ip : Ip) : FsM Bool := do
  let x ← inode ip
  if x.d.type = T_DIR then (! ·) <$> isdirempty sb ip else pure false

/-- `bad:` in `sys_unlink`. -/
def unlinkBad (dp : Ip) : FsM ℤ := do
  iunlockput dp
  endOp
  pure (-1)

/-- A directory that goes away gives up the link that its `..` is. -/
def dropUp (dp ip : Ip) : FsM Unit := do
  let x ← inode ip
  if x.d.type = T_DIR then setNlink dp (· - 1) else pure ()

/-- The end of `sys_unlink`: clear the entry at `off` and drop the links. -/
def unlinkEntry (sb : Superblock) (dp ip : Ip) (off : ℕ) : FsM ℤ := do
  let n ← writei sb dp (kernelSrc (List.replicate DIRENT 0)) off DIRENT
  if n ≠ DIRENT then throw "unlink: writei"
  else do
    dropUp dp ip
    iunlockput dp
    setNlink ip (· - 1)
    iunlockput ip
    endOp
    pure 0

def sysUnlink (sb : Superblock) (p : Fin NPROC) (path : Option (List UInt8)) : FsM ℤ :=
  match argstr path with
  | none => pure (-1)
  | some path => do
    beginOp
    match ← nameiparent sb p path with
    | none => do
      endOp
      pure (-1)
    | some (dp, name) => do
      ilock dp
      if namecmp name dot ∨ namecmp name dotdot then unlinkBad dp
      else do
        match ← dirlookup sb dp name with
        | none => unlinkBad dp
        | some (ip, off) => do
          ilock ip
          let x ← inode ip
          if x.d.nlink.toInt < 1 then throw "unlink: nlink < 1"
          else if ← nonempty sb ip then do
            iunlockput ip
            unlinkBad dp
          else unlinkEntry sb dp ip off

/-- `fail:` in `create`. -/
def createFail (dp ip : Ip) : FsM (Option Ip) := do
  setNlink ip fun _ => 0
  iunlockput ip
  iunlockput dp
  pure none

/-- The entries `.` and `..` of a new directory. -/
def createDots (sb : Superblock) (dp ip : Ip) (type : CShort) : FsM Bool :=
  if type = T_DIR then do
    let x ← inode ip
    let r ← dirlink sb ip dot x.inum
    if r < 0 then pure false
    else do
      let y ← inode dp
      let r ← dirlink sb ip dotdot y.inum
      pure (decide (0 ≤ r))
  else pure true

/-- The link to the parent that the `..` of a new directory is. -/
def countUp (dp : Ip) (type : CShort) : FsM Unit :=
  if type = T_DIR then setNlink dp (· + 1) else pure ()

/-- `create` once the new inode is allocated. -/
def createNew (sb : Superblock) (dp ip : Ip) (name : List UInt8) (type major minor : CShort) :
    FsM (Option Ip) := do
  ilock ip
  relabel ip fun d => { d with major, minor, nlink := 1 }
  let ok ← createDots sb dp ip type
  if ok = false then createFail dp ip
  else do
    let x ← inode ip
    let r ← dirlink sb dp name x.inum
    if r < 0 then createFail dp ip
    else do
      countUp dp type
      iunlockput dp
      pure (some ip)

def create (sb : Superblock) (p : Fin NPROC) (path : List UInt8) (type major minor : CShort) :
    FsM (Option Ip) := do
  match ← nameiparent sb p path with
  | none => pure none
  | some (dp, name) => do
    ilock dp
    match ← dirlookup sb dp name with
    | some (ip, _) => do
      iunlockput dp
      ilock ip
      let x ← inode ip
      if type = T_FILE ∧ (x.d.type = T_FILE ∨ x.d.type = T_DEVICE) then pure (some ip)
      else do
        iunlockput ip
        pure none
    | none => do
      match ← ialloc sb type with
      | none => do
        iunlockput dp
        pure none
      | some ip => createNew sb dp ip name type major minor

/-! ## Opening files -/

/-- Modes (`kernel/fcntl.h`). -/
def O_RDONLY : ℕ := 0x000

def O_WRONLY : ℕ := 0x001

def O_RDWR : ℕ := 0x002

def O_CREATE : ℕ := 0x200

def O_TRUNC : ℕ := 0x400

/-- The largest major device number (`kernel/param.h`). -/
def NDEV : ℤ := 10

/-- `O_TRUNC` applies to files. -/
def openTrunc (ip : Ip) (omode : ℕ) : FsM Unit := do
  let x ← inode ip
  if omode &&& O_TRUNC ≠ 0 ∧ x.d.type = T_FILE then itrunc ip else pure ()

/-- The file for an inode, once a descriptor has been found. -/
def openFile (f : Fin NFILE) (fd : Fin NOFILE) (ip : Ip) (omode : ℕ) : FsM ℤ := do
  let x ← inode ip
  let y ← file f
  setFile f { y with
    type := if x.d.type = T_DEVICE then .device else .inode
    major := if x.d.type = T_DEVICE then x.d.major else y.major
    off := if x.d.type = T_DEVICE then y.off else 0
    ip
    readable := decide (omode &&& O_WRONLY = 0)
    writable := decide (omode &&& O_WRONLY ≠ 0 ∨ omode &&& O_RDWR ≠ 0) }
  openTrunc ip omode
  iunlock ip
  endOp
  pure fd.val

/-- A failure of `sys_open` with a locked inode. -/
def openBad (ip : Ip) : FsM ℤ := do
  iunlockput ip
  endOp
  pure (-1)

/-- `sys_open` with the locked inode. -/
def openInode (p : Fin NPROC) (ip : Ip) (omode : ℕ) : FsM ℤ := do
  let x ← inode ip
  if x.d.type = T_DEVICE ∧ (x.d.major.toInt < 0 ∨ NDEV ≤ x.d.major.toInt) then openBad ip
  else do
    match ← filealloc with
    | none => openBad ip
    | some f => do
      match ← fdalloc p f with
      | none => do
        fileclose f
        openBad ip
      | some fd => openFile f fd ip omode

def sysOpen (sb : Superblock) (p : Fin NPROC) (path : Option (List UInt8)) (omode : ℕ) : FsM ℤ :=
  match argstr path with
  | none => pure (-1)
  | some path => do
    beginOp
    if omode &&& O_CREATE ≠ 0 then do
      match ← create sb p path T_FILE 0 0 with
      | none => do
        endOp
        pure (-1)
      | some ip => openInode p ip omode
    else do
      match ← namei sb p path with
      | none => do
        endOp
        pure (-1)
      | some ip => do
        ilock ip
        let x ← inode ip
        if x.d.type = T_DIR ∧ omode ≠ O_RDONLY then openBad ip else openInode p ip omode

/-- `sys_mkdir` and `sys_mknod`: make an inode of a type and put it. -/
def sysMake (sb : Superblock) (p : Fin NPROC) (path : Option (List UInt8))
    (type major minor : CShort) : FsM ℤ := do
  beginOp
  match argstr path with
  | none => do
    endOp
    pure (-1)
  | some path => do
    match ← create sb p path type major minor with
    | none => do
      endOp
      pure (-1)
    | some ip => do
      iunlockput ip
      endOp
      pure 0

def sysMkdir (sb : Superblock) (p : Fin NPROC) (path : Option (List UInt8)) : FsM ℤ :=
  sysMake sb p path T_DIR 0 0

def sysMknod (sb : Superblock) (p : Fin NPROC) (path : Option (List UInt8))
    (major minor : CShort) : FsM ℤ :=
  sysMake sb p path T_DEVICE major minor

/-- `iput(p->cwd)`; a process that runs has a current directory. -/
def putCwd (p : Fin NPROC) : FsM Unit := do
  match ← cwd p with
  | none => throw "kerneltrap"
  | some ip => iput ip

def sysChdir (sb : Superblock) (p : Fin NPROC) (path : Option (List UInt8)) : FsM ℤ := do
  beginOp
  match argstr path with
  | none => do
    endOp
    pure (-1)
  | some path => do
    match ← namei sb p path with
    | none => do
      endOp
      pure (-1)
    | some ip => do
      ilock ip
      let x ← inode ip
      if x.d.type ≠ T_DIR then do
        iunlockput ip
        endOp
        pure (-1)
      else do
        iunlock ip
        putCwd p
        endOp
        let x ← myproc p
        setProc p { x with cwd := some ip }
        pure 0

/-! ## Processes -/

def readAll (sb : Superblock) (ip : Ip) : List (ℕ × ℕ) → FsM Unit
  | [] => pure ()
  | (off, n) :: reads => do
    let _ ← readi sb ip always off n
    readAll sb ip reads

/-- The part of `exec` that uses the file system, with the reads from the program. -/
def exec (sb : Superblock) (p : Fin NPROC) (path : List UInt8) (reads : List (ℕ × ℕ)) : FsM ℤ := do
  beginOp
  match ← namei sb p path with
  | none => do
    endOp
    pure (-1)
  | some ip => do
    ilock ip
    readAll sb ip reads
    iunlockput ip
    endOp
    pure 0

def sysExec (sb : Superblock) (p : Fin NPROC) (path : Option (List UInt8))
    (reads : List (ℕ × ℕ)) : FsM ℤ :=
  match argstr path with
  | none => pure (-1)
  | some path => exec sb p path reads

def sysDup (p : Fin NPROC) (fd : ℤ) : FsM ℤ := do
  match ← argfd p fd with
  | none => pure (-1)
  | some (_, f) => do
    match ← fdalloc p f with
    | none => pure (-1)
    | some fd => do
      filedup f
      pure fd.val

def sysClose (p : Fin NPROC) (fd : ℤ) : FsM ℤ := do
  match ← argfd p fd with
  | none => pure (-1)
  | some (fd, f) => do
    let x ← myproc p
    setProc p (x.setFd fd none)
    fileclose f
    pure 0

/-- `filedup` for every open descriptor. -/
def dupFiles (ofile : Fin NOFILE → Option (Fin NFILE)) : List (Fin NOFILE) → FsM Unit
  | [] => pure ()
  | fd :: fds => do
    match ofile fd with
    | none => dupFiles ofile fds
    | some f => do
      filedup f
      dupFiles ofile fds

def freeProc : FsM (Option (Fin NPROC)) := fun s =>
  .ok (first fun q => (s.proc q).state = .unused) s

/-- The part of `fork` that uses files; `copied` tells whether there was memory for the
child. -/
def fork (p : Fin NPROC) (copied : Bool) : FsM ℤ := do
  match ← freeProc with
  | none => pure (-1)
  | some np =>
    if copied = false then pure (-1)
    else do
      let x ← myproc p
      dupFiles x.ofile (List.finRange NOFILE)
      match x.cwd with
      | none => throw "kerneltrap"
      | some ip => do
        idup ip
        setProc np { x with state := .running }
        pure np.val

/-- Close the descriptors of a list. -/
def closeFiles (p : Fin NPROC) : List (Fin NOFILE) → FsM Unit
  | [] => pure ()
  | fd :: fds => do
    let x ← myproc p
    match x.ofile fd with
    | none => closeFiles p fds
    | some f => do
      fileclose f
      let x ← myproc p
      setProc p (x.setFd fd none)
      closeFiles p fds

/-- The first process (`initproc`). -/
def initproc : Fin NPROC := ⟨0, by decide⟩

def exit (p : Fin NPROC) : FsM ℤ := do
  if p = initproc then throw "init exiting"
  else do
    closeFiles p (List.finRange NOFILE)
    beginOp
    putCwd p
    endOp
    let x ← myproc p
    setProc p { x with cwd := none, state := .zombie }
    pure 0

/-- What `wait` does for a child that has exited. -/
def reap (q : Fin NPROC) : FsM ℤ := do
  let x ← myproc q
  if x.state = .zombie then do
    setProc q { x with state := .unused }
    pure 0
  else pure (-1)

def withFile (p : Fin NPROC) (fd : ℤ) (c : Fin NFILE → FsM ℤ) : FsM ℤ := do
  match ← argfd p fd with
  | none => pure (-1)
  | some (_, f) => c f

/-! ## The machine -/

inductive Call where
  | open (path : Option (List UInt8)) (omode : ℕ)
  | close (fd : ℤ)
  | dup (fd : ℤ)
  | read (fd : ℤ) (n : ℤ) (ok : ℕ → Bool)
  | write (fd : ℤ) (n : ℤ) (src : ℕ → Option UInt8)
  | fstat (fd : ℤ) (copied : Bool)
  | link (old new : Option (List UInt8))
  | unlink (path : Option (List UInt8))
  | mkdir (path : Option (List UInt8))
  | mknod (path : Option (List UInt8)) (major minor : CShort)
  | chdir (path : Option (List UInt8))
  | exec (path : Option (List UInt8)) (reads : List (ℕ × ℕ))
  | fork (copied : Bool)
  | exit
  | wait (q : Fin NPROC)

def syscall (sb : Superblock) (p : Fin NPROC) : Call → FsM ℤ
  | .open path omode => sysOpen sb p path omode
  | .close fd => sysClose p fd
  | .dup fd => sysDup p fd
  | .read fd n ok => withFile p fd fun f => fileread sb f ok n
  | .write fd n src => withFile p fd fun f => filewrite sb f src n
  | .fstat fd copied => withFile p fd fun f => filestat f copied
  | .link old new => sysLink sb p old new
  | .unlink path => sysUnlink sb p path
  | .mkdir path => sysMkdir sb p path
  | .mknod path major minor => sysMknod sb p path major minor
  | .chdir path => sysChdir sb p path
  | .exec path reads => sysExec sb p path reads
  | .fork copied => fork p copied
  | .exit => exit p
  | .wait q => reap q

/-- A process that runs makes a call. -/
def step (sb : Superblock) (s : State) (a : Fin NPROC × Call) : Option State :=
  if (s.proc a.1).state = .running then
    match syscall sb a.1 a.2 s with
    | .ok _ t => some t
    | .error _ _ => none
  else none

/-- The state at boot: the first process runs in the root directory of the image, and no
file is open. -/
def boot (dinode : ℕ → Dinode) (bitmap : ℕ → Bool) (block : ℕ → ℕ → UInt8) : State where
  dinode
  bitmap
  block
  itable := Function.update (fun _ => ⟨0, 0, false, Dinode.zero 0⟩) ⟨0, by decide⟩
    ⟨ROOTINO, 1, false, Dinode.zero 0⟩
  locked := fun _ => false
  ftable := fun _ => ⟨.none, 0, false, false, ⟨0, by decide⟩, 0, 0⟩
  proc := Function.update (fun _ => ⟨.unused, none, fun _ => none⟩) initproc
    ⟨.running, some ⟨0, by decide⟩, fun _ => none⟩
  outstanding := 0
  dangled := false
  unlogged := fun _ => false
  commits := [⟨dinode, block, Function.update (fun _ => ⟨0, 0, false, Dinode.zero 0⟩)
    ⟨0, by decide⟩ ⟨ROOTINO, 1, false, Dinode.zero 0⟩⟩]
  ops := []

end Fs

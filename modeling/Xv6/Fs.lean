/-
# The file system (kernel/fs.c): blocks, inodes, directories and paths

The functions of `kernel/fs.c` for one process at a time, as programs over the inode
blocks, the free map, the data blocks and the inode table.  A block is the content it has
in the buffer cache, so `bread` and `brelse` leave no trace; `log_write` checks that an
operation is in progress.  Of the sleep-lock of an inode the state has whether it is held:
as long as one process runs alone, a call that finds it held would wait for ever.

A panic keeps the state in which it happened.  The state also remembers whether a lookup
has found the number of a free inode (`dangled`), which data blocks have been changed
in the cache since they were last logged (`unlogged`), what has been committed (`commits`,
the last commit first), and what each operation has logged (`ops`, the last operation
first); no function reads these.
-/
import Xv6.Calls
import Xv6.Itable
import Xv6.Layout

namespace Fs

open Function
open Calls (NFILE NOFILE FileType first)
open Itable (NINODE CShort)
open Proc (NPROC)

/-! ## The state -/

/-- File types (`kernel/stat.h`). -/
def T_DIR : CShort := 1

def T_FILE : CShort := 2

def T_DEVICE : CShort := 3

/-- `struct dinode`; the addresses are those from 0 to `NDIRECT`. -/
structure Dinode where
  type : CShort
  major : CShort
  minor : CShort
  nlink : CShort
  size : ℕ
  addrs : ℕ → ℕ

/-- `memset(dip, 0, sizeof(*dip)); dip->type = type`. -/
def Dinode.zero (type : CShort) : Dinode := ⟨type, 0, 0, 0, 0, fun _ => 0⟩

/-- `struct inode`, without the device; `d` is the copy of the inode on disk.  The lock is
a field of the state. -/
structure Inode where
  inum : ℕ
  ref : ℤ
  valid : Bool
  d : Dinode

abbrev Ip := Fin NINODE

/-- `struct file`, without pipes. -/
structure File where
  type : FileType
  ref : ℕ
  readable : Bool
  writable : Bool
  ip : Ip
  off : ℕ
  major : CShort

inductive ProcState where
  | unused
  | running
  | zombie
  deriving DecidableEq

structure Process where
  state : ProcState
  cwd : Option Ip
  ofile : Fin NOFILE → Option (Fin NFILE)

/-- The disk at a commit, and the inode table at that time. -/
structure Commit where
  dinode : ℕ → Dinode
  block : ℕ → ℕ → UInt8
  itable : Ip → Inode

/-- What a `log_write` is about: the block of the free map with the bit of a block, the
block with an inode, or a block of data. -/
inductive Target where
  | bit (b : ℕ)
  | inode (inum : ℕ)
  | data (b : ℕ)
  deriving DecidableEq

/-- The number of that block. -/
def Target.blockno (sb : Superblock) : Target → ℕ
  | .bit b => BBLOCK b sb
  | .inode inum => IBLOCK inum sb
  | .data b => b

structure State where
  dinode : ℕ → Dinode
  bitmap : ℕ → Bool
  block : ℕ → ℕ → UInt8
  itable : Ip → Inode
  locked : Ip → Bool
  ftable : Fin NFILE → File
  proc : Fin NPROC → Process
  outstanding : ℕ
  dangled : Bool
  unlogged : ℕ → Bool
  commits : List Commit
  ops : List (List Target)

abbrev FsM := EStateM String State

/-- The entry of the inode table. -/
def inode (ip : Ip) : FsM Inode := fun s => .ok (s.itable ip) s

theorem inode_bind {α : Type} (ip : Ip) (f : Inode → FsM α) (s : State) :
    (inode ip >>= f) s = f (s.itable ip) s := rfl

def setInode (ip : Ip) (x : Inode) : FsM Unit := fun s =>
  .ok () { s with itable := update s.itable ip x }

/-- Change the copy of the inode. -/
def edit (ip : Ip) (f : Dinode → Dinode) : FsM Unit := fun s =>
  .ok () { s with itable := update s.itable ip { s.itable ip with d := f (s.itable ip).d } }

/-! ## Blocks -/

/-- The operation in progress logs a block. -/
def noteLog (x : Target) (ops : List (List Target)) : List (List Target) :=
  ops.modifyHead (x :: ·)

/-- The check of `log_write`; the space of the log is the subject of `LogSpace.lean`. -/
def logWrite (x : Target) : FsM Unit := fun s =>
  if s.outstanding < 1 then .error "log_write outside of trans" s
  else .ok () { s with ops := noteLog x s.ops }

def readBlock (b : ℕ) : FsM (ℕ → UInt8) := fun s => .ok (s.block b) s

/-- `log_write` of a data block. -/
def logBlock (b : ℕ) : FsM Unit := fun s =>
  if s.outstanding < 1 then .error "log_write outside of trans" s
  else .ok () { s with
    unlogged := update s.unlogged b false
    ops := noteLog (.data b) s.ops }

def setBlock (b : ℕ) (x : ℕ → UInt8) : FsM Unit := fun s =>
  .ok () { s with
    block := update s.block b x
    unlogged := update s.unlogged b true }

/-- `either_copyin` into a block: the bytes before the first bad address arrive. -/
def copyIn (b off : ℕ) (bytes : List UInt8) : FsM Unit := fun s =>
  .ok () { s with
    block := update s.block b (Vm.setBytes (s.block b) off bytes)
    unlogged := if bytes = [] then s.unlogged else update s.unlogged b true }

def setBit (b : ℕ) (v : Bool) : FsM Unit := fun s =>
  .ok () { s with bitmap := update s.bitmap b v }

def bzero (b : ℕ) : FsM Unit := do
  setBlock b fun _ => 0
  logBlock b

/-- The first block whose bit is 0. -/
def freeBit (sb : Superblock) : FsM (Option ℕ) := fun s =>
  .ok ((List.range sb.size).find? fun b => !s.bitmap b) s

/-- Allocate a zeroed block; 0 if there is none. -/
def balloc (sb : Superblock) : FsM ℕ := do
  match ← freeBit sb with
  | none => pure 0
  | some b => do
    setBit b true
    logWrite (.bit b)
    bzero b
    pure b

def bit (b : ℕ) : FsM Bool := fun s => .ok (s.bitmap b) s

def bfree (b : ℕ) : FsM Unit := do
  if (← bit b) = false then throw "freeing free block"
  else do
    setBit b false
    logWrite (.bit b)

/-! ## Inodes -/

def dinode (inum : ℕ) : FsM Dinode := fun s => .ok (s.dinode inum) s

def setDinode (inum : ℕ) (d : Dinode) : FsM Unit := fun s =>
  .ok () { s with dinode := update s.dinode inum d }

def iupdate (ip : Ip) : FsM Unit := do
  let x ← inode ip
  setDinode x.inum x.d
  logWrite (.inode x.inum)

/-- Change fields of the inode and write it. -/
def relabel (ip : Ip) (f : Dinode → Dinode) : FsM Unit := do
  edit ip f
  iupdate ip

/-- The entry for an inode in the table, or else one that is not in use. -/
def findInode (inum : ℕ) : FsM (Option Ip × Option Ip) := fun s =>
  .ok (first fun ip => 0 < (s.itable ip).ref ∧ (s.itable ip).inum = inum,
    first fun ip => (s.itable ip).ref = 0) s

def iget (inum : ℕ) : FsM Ip := do
  match ← findInode inum with
  | (some ip, _) => do
    let x ← inode ip
    setInode ip { x with ref := x.ref + 1 }
    pure ip
  | (none, none) => throw "iget: no inodes"
  | (none, some ip) => do
    let x ← inode ip
    setInode ip { x with inum, ref := 1, valid := false }
    pure ip

/-- The first free inode. -/
def freeInode (sb : Superblock) : FsM (Option ℕ) := fun s =>
  .ok ((List.range' 1 (sb.ninodes - 1)).find? fun inum => (s.dinode inum).type = 0) s

def ialloc (sb : Superblock) (type : CShort) : FsM (Option Ip) := do
  match ← freeInode sb with
  | none => pure none
  | some inum => do
    setDinode inum (Dinode.zero type)
    logWrite (.inode inum)
    some <$> iget inum

def idup (ip : Ip) : FsM Unit := do
  let x ← inode ip
  setInode ip { x with ref := x.ref + 1 }

/-- Take the lock of an inode; the error stands for a wait that does not end. -/
def acquiresleep (ip : Ip) : FsM Unit := fun s =>
  if s.locked ip then .error "acquiresleep" s
  else .ok () { s with locked := update s.locked ip true }

def releasesleep (ip : Ip) : FsM Unit := fun s =>
  .ok () { s with locked := update s.locked ip false }

def holdingsleep (ip : Ip) : FsM Bool := fun s => .ok (s.locked ip) s

def ilock (ip : Ip) : FsM Unit := do
  let x ← inode ip
  if x.ref < 1 then throw "ilock"
  else do
    acquiresleep ip
    if x.valid then pure ()
    else do
      let d ← dinode x.inum
      setInode ip { x with d, valid := true }
      if d.type = 0 then throw "ilock: no type" else pure ()

def iunlock (ip : Ip) : FsM Unit := do
  let x ← inode ip
  if (← holdingsleep ip) = false ∨ x.ref < 1 then throw "iunlock" else releasesleep ip

/-! ## The content of inodes -/

/-- `a[j]` in an indirect block. -/
def entry (block : ℕ → UInt8) (j : ℕ) : ℕ := Bytes.getLE block (4 * j) 4

def setAddr (ip : Ip) (i addr : ℕ) : FsM Unit :=
  edit ip fun d => { d with addrs := update d.addrs i addr }

/-- The address `i` of the inode, allocated if it is 0. -/
def bmapDirect (sb : Superblock) (ip : Ip) (i : ℕ) : FsM ℕ := do
  let x ← inode ip
  if x.d.addrs i = 0 then do
    let addr ← balloc sb
    if addr = 0 then pure 0
    else do
      setAddr ip i addr
      pure addr
  else pure (x.d.addrs i)

/-- The address `j` of the indirect block `b`, allocated if it is 0. -/
def bmapIndirect (sb : Superblock) (b j : ℕ) : FsM ℕ := do
  let a ← readBlock b
  if entry a j = 0 then do
    let addr ← balloc sb
    if addr = 0 then pure 0
    else do
      let a ← readBlock b
      setBlock b (Bytes.setLE a (4 * j) 4 addr)
      logBlock b
      pure addr
  else pure (entry a j)

/-- The block with number `bn` of the file, allocated if need be; 0 if the disk is
full. -/
def bmap (sb : Superblock) (ip : Ip) (bn : ℕ) : FsM ℕ :=
  if bn < NDIRECT then bmapDirect sb ip bn
  else if bn - NDIRECT < NINDIRECT then do
    let addr ← bmapDirect sb ip NDIRECT
    if addr = 0 then pure 0
    else bmapIndirect sb addr (bn - NDIRECT)
  else throw "bmap: out of range"

/-- The direct blocks in `itrunc`, from number `i` on. -/
def truncDirect (ip : Ip) : ℕ → ℕ → FsM Unit
  | 0, _ => pure ()
  | n + 1, i => do
    let x ← inode ip
    if x.d.addrs i ≠ 0 then do
      bfree (x.d.addrs i)
      setAddr ip i 0
      truncDirect ip n (i + 1)
    else truncDirect ip n (i + 1)

/-- The blocks of an indirect block in `itrunc`. -/
def truncIndirect (a : ℕ → UInt8) : ℕ → ℕ → FsM Unit
  | 0, _ => pure ()
  | n + 1, j =>
    if entry a j ≠ 0 then do
      bfree (entry a j)
      truncIndirect a n (j + 1)
    else truncIndirect a n (j + 1)

def itrunc (ip : Ip) : FsM Unit := do
  truncDirect ip NDIRECT 0
  let x ← inode ip
  if x.d.addrs NDIRECT ≠ 0 then do
    let a ← readBlock (x.d.addrs NDIRECT)
    truncIndirect a NINDIRECT 0
    bfree (x.d.addrs NDIRECT)
    setAddr ip NDIRECT 0
    edit ip fun d => { d with size := 0 }
    iupdate ip
  else do
    edit ip fun d => { d with size := 0 }
    iupdate ip

/-- Truncate and free the inode, in `iput`. -/
def ifree (ip : Ip) : FsM Unit := do
  itrunc ip
  edit ip fun d => { d with type := 0 }
  iupdate ip

/-- Drop a reference; an inode without links and references is freed. -/
def iput (ip : Ip) : FsM Unit := do
  let x ← inode ip
  if x.ref = 1 ∧ x.valid = true ∧ x.d.nlink = 0 then do
    acquiresleep ip
    ifree ip
    releasesleep ip
    let x ← inode ip
    setInode ip { x with valid := false, ref := x.ref - 1 }
  else setInode ip { x with ref := x.ref - 1 }

def iunlockput (ip : Ip) : FsM Unit := do
  iunlock ip
  iput ip

/-- The number of bytes of one round of `readi` and `writei`. -/
def chunk (tot off n : ℕ) : ℕ := min (n - tot) (BSIZE - off % BSIZE)

/-- The loop of `readi`; `ok tot` tells whether the bytes from `tot` on can be copied. -/
def readLoop (sb : Superblock) (ip : Ip) (ok : ℕ → Bool) :
    ℕ → ℕ → ℕ → ℕ → List UInt8 → FsM (ℤ × List UInt8)
  | 0, tot, _, _, bytes => pure (tot, bytes)
  | fuel + 1, tot, off, n, bytes =>
    if tot < n then do
      let addr ← bmap sb ip (off / BSIZE)
      if addr = 0 then pure (tot, bytes)
      else do
        let a ← readBlock addr
        if ok tot = false then pure (-1, bytes)
        else
          readLoop sb ip ok fuel (tot + chunk tot off n) (off + chunk tot off n) n
            (bytes ++ (List.range (chunk tot off n)).map fun j => a (off % BSIZE + j))
    else pure (tot, bytes)

/-- Read `n` bytes from offset `off` on. -/
def readi (sb : Superblock) (ip : Ip) (ok : ℕ → Bool) (off n : ℕ) : FsM (ℤ × List UInt8) := do
  let x ← inode ip
  if x.d.size < off ∨ (off + n) % 2 ^ 32 < off then pure (0, [])
  else if x.d.size < off + n then
    readLoop sb ip ok (x.d.size - off) 0 off (x.d.size - off) []
  else readLoop sb ip ok n 0 off n []

/-- The bytes that can be copied from the source, up to the first bad address. -/
def available (src : ℕ → Option UInt8) (tot m : ℕ) : List UInt8 :=
  (((List.range m).map fun j => src (tot + j)).takeWhile Option.isSome).filterMap id

/-- The loop of `writei`, with the number of bytes written and the offset. -/
def writeLoop (sb : Superblock) (ip : Ip) (src : ℕ → Option UInt8) :
    ℕ → ℕ → ℕ → ℕ → FsM (ℕ × ℕ)
  | 0, tot, off, _ => pure (tot, off)
  | fuel + 1, tot, off, n =>
    if tot < n then do
      let addr ← bmap sb ip (off / BSIZE)
      if addr = 0 then pure (tot, off)
      else do
        copyIn addr (off % BSIZE) (available src tot (chunk tot off n))
        if (available src tot (chunk tot off n)).length < chunk tot off n then pure (tot, off)
        else do
          logBlock addr
          writeLoop sb ip src fuel (tot + chunk tot off n) (off + chunk tot off n) n
    else pure (tot, off)

/-- Write `n` bytes of the source at offset `off`. -/
def writei (sb : Superblock) (ip : Ip) (src : ℕ → Option UInt8) (off n : ℕ) : FsM ℤ := do
  let x ← inode ip
  if x.d.size < off ∨ (off + n) % 2 ^ 32 < off then pure (-1)
  else if MAXFILE * BSIZE < off + n then pure (-1)
  else do
    let (tot, off) ← writeLoop sb ip src n 0 off n
    edit ip fun d => if d.size < off then { d with size := off } else d
    iupdate ip
    pure tot

/-! ## Directories -/

/-- `sizeof(struct dirent)`. -/
def DIRENT : ℕ := 16

/-- A name as `strncmp` and `strncpy` see it: at most `DIRSIZ` bytes before a NUL. -/
def cname (name : List UInt8) : List UInt8 := (name.take DIRSIZ).takeWhile (· ≠ 0)

def namecmp (s t : List UInt8) : Bool := cname s = cname t

/-- The names of the first two entries of every directory. -/
def dot : List UInt8 := [46]

def dotdot : List UInt8 := [46, 46]

/-- The number in an entry. -/
def deInum (de : List UInt8) : ℕ := (de.getD 0 0).toNat + 256 * (de.getD 1 0).toNat

def deName (de : List UInt8) : List UInt8 := de.drop 2

/-- The bytes of an entry; the number is a `ushort`. -/
def dirent (inum : ℕ) (name : List UInt8) : List UInt8 :=
  [UInt8.ofNat inum, UInt8.ofNat (inum / 256)] ++
    (cname name ++ List.replicate (DIRSIZ - (cname name).length) 0)

/-- Bytes of the kernel can always be copied. -/
def kernelSrc (bytes : List UInt8) : ℕ → Option UInt8 := fun i => some (bytes.getD i 0)

def always : ℕ → Bool := fun _ => true

/-- Remember whether the inode that has been looked up is free. -/
def noteLookup (inum : ℕ) : FsM Unit := fun s =>
  .ok () { s with dangled := s.dangled || decide ((s.dinode inum).type = 0) }

def dirlookupLoop (sb : Superblock) (dp : Ip) (name : List UInt8) :
    ℕ → ℕ → FsM (Option (Ip × ℕ))
  | 0, _ => pure none
  | k + 1, off => do
    let (n, de) ← readi sb dp always off DIRENT
    if n ≠ DIRENT then throw "dirlookup read"
    else if deInum de = 0 then dirlookupLoop sb dp name k (off + DIRENT)
    else if namecmp name (deName de) then do
      noteLookup (deInum de)
      let ip ← iget (deInum de)
      pure (some (ip, off))
    else dirlookupLoop sb dp name k (off + DIRENT)

/-- The number of entries in a directory of the given size. -/
def entries (size : ℕ) : ℕ := (size + (DIRENT - 1)) / DIRENT

/-- Look up a name; also the offset of its entry. -/
def dirlookup (sb : Superblock) (dp : Ip) (name : List UInt8) : FsM (Option (Ip × ℕ)) := do
  let x ← inode dp
  if x.d.type ≠ T_DIR then throw "dirlookup not DIR"
  else dirlookupLoop sb dp name (entries x.d.size) 0

/-- The offset of an empty entry, or else the end of the directory. -/
def emptyEntry (sb : Superblock) (dp : Ip) : ℕ → ℕ → FsM ℕ
  | 0, off => pure off
  | k + 1, off => do
    let (n, de) ← readi sb dp always off DIRENT
    if n ≠ DIRENT then throw "dirlink read"
    else if deInum de = 0 then pure off
    else emptyEntry sb dp k (off + DIRENT)

def dirlink (sb : Superblock) (dp : Ip) (name : List UInt8) (inum : ℕ) : FsM ℤ := do
  match ← dirlookup sb dp name with
  | some (ip, _) => do
    iput ip
    pure (-1)
  | none => do
    let x ← inode dp
    let off ← emptyEntry sb dp (entries x.d.size) 0
    let n ← writei sb dp (kernelSrc (dirent inum name)) off DIRENT
    if n ≠ DIRENT then pure (-1) else pure 0

/-! ## Paths -/

/-- The next element of a path and the rest. -/
def skipelem (path : List UInt8) : Option (List UInt8 × List UInt8) :=
  let path := path.dropWhile (· = 47)
  if path = [] then none
  else
    let name := path.takeWhile (· ≠ 47)
    some (name.take DIRSIZ, (path.drop name.length).dropWhile (· = 47))

/-- The loop of `namex`; the first argument bounds the number of elements. -/
def namexLoop (sb : Superblock) (nameiparent : Bool) :
    ℕ → Ip → List UInt8 → List UInt8 → FsM (Option (Ip × List UInt8))
  | 0, ip, _, name => pure (some (ip, name))
  | fuel + 1, ip, path, last =>
    match skipelem path with
    | none =>
      if nameiparent then do
        iput ip
        pure none
      else pure (some (ip, last))
    | some (name, path) => do
      ilock ip
      let x ← inode ip
      if x.d.type ≠ T_DIR then do
        iunlockput ip
        pure none
      else if nameiparent ∧ path = [] then do
        iunlock ip
        pure (some (ip, name))
      else do
        match ← dirlookup sb ip name with
        | none => do
          iunlockput ip
          pure none
        | some (next, _) => do
          iunlockput ip
          namexLoop sb nameiparent fuel next path name

/-- The current directory of a process. -/
def cwd (p : Fin NPROC) : FsM (Option Ip) := fun s => .ok (s.proc p).cwd s

/-- The inode that a walk of the path starts at. -/
def namexStart (p : Fin NPROC) (path : List UInt8) : FsM (Option Ip) :=
  if path.head? = some 47 then some <$> iget ROOTINO
  else do
    match ← cwd p with
    | none => pure none
    | some ip => do
      idup ip
      pure (some ip)

/-- Look up a path, or its parent and the last element. -/
def namex (sb : Superblock) (p : Fin NPROC) (path : List UInt8) (nameiparent : Bool) :
    FsM (Option (Ip × List UInt8)) := do
  match ← namexStart p path with
  | none => throw "kerneltrap"
  | some ip => namexLoop sb nameiparent (path.length + 1) ip path []

def namei (sb : Superblock) (p : Fin NPROC) (path : List UInt8) : FsM (Option Ip) :=
  (·.map Prod.fst) <$> namex sb p path false

def nameiparent (sb : Superblock) (p : Fin NPROC) (path : List UInt8) :
    FsM (Option (Ip × List UInt8)) :=
  namex sb p path true

end Fs

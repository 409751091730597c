/-
# The inode table (kernel/fs.c) under concurrency

`iget`, `idup`, `ilock`, `iunlock`, `iput`, and `ialloc` as `create` uses it, for any
number of processes.  The steps are the critical sections of `itable.lock` and of
`ip->lock`.  `iput` gives up `itable.lock` in the middle when it frees an inode; its
three parts after that are steps of their own: the writing of the freed inode to
disk (`iputFree`), the end of the section of `ip->lock` (`iputClear`), and the final
`ip->ref--` (`iputStale`).

Of an inode only the fields that decide about freeing it are here, its type and its
number of links; a change of the links and the `iupdate` that follows it under the
same lock are one step.  Every pointer to an entry of the table is in `refs`, with
the process that holds it; a pointer may be handed to another process, as open files
are.
-/
import Mathlib.Data.List.Nodup
import Xv6.Transition

namespace Itable

open Transition

/-- The number of entries of the inode table (`kernel/param.h`). -/
def NINODE : ℕ := 50

/-- A C `short`. -/
abbrev CShort := BitVec 16

/-- `struct dinode`: type 0 is a free inode. -/
structure Dinode where
  type : CShort
  nlink : CShort
  deriving DecidableEq, Repr

/-- `struct inode`; `lock` is the holder of the sleep-lock. -/
structure Inode where
  inum : ℕ
  ref : ℕ
  lock : Option ℕ
  valid : Bool
  type : CShort
  nlink : CShort
  deriving DecidableEq, Repr

/-- Where a process stands in `ialloc` (called by `create`) or in `iput`. -/
inductive Pc where
  /-- in the loop of `ialloc`, at inode `inum` -/
  | iallocScan (inum : ℕ) (type : CShort)
  /-- `ialloc` before its `iget` -/
  | iallocGet (inum : ℕ)
  /-- `create` before the `ilock` of the new inode -/
  | createLock (e : ℕ)
  /-- `iput` has released `itable.lock` and holds `ip->lock` -/
  | iputFree (e : ℕ)
  /-- the inode is free on disk -/
  | iputClear (e : ℕ)
  /-- `iput` before its last section, with `ip->lock` released -/
  | iputStale (e : ℕ)
  deriving DecidableEq, Repr

structure St where
  inode : ℕ → Inode
  disk : ℕ → Dinode
  /-- process and table entry of every pointer -/
  refs : List (ℕ × ℕ)
  /-- the processes inside `ialloc` or `iput` -/
  busy : List (ℕ × Pc)
  panicked : Option String

/-- The table after `iinit`, over a disk. -/
def init (disk : ℕ → Dinode) : St where
  inode := fun _ => ⟨0, 0, none, false, 0, 0⟩
  disk := disk
  refs := []
  busy := []
  panicked := none

/-- How the holder of `ip->lock` changes the number of links. -/
inductive Relink where
  /-- `goto fail` in `create` -/
  | fail
  /-- `ip->nlink++` in `sys_link`, or in `create` for `..` -/
  | link
  /-- `ip->nlink--` in `sys_unlink` -/
  | unlink
  /-- `dp->nlink--` for `..` in `sys_unlink`, or the error path of `sys_link` -/
  | drop
  deriving DecidableEq, Repr

def Relink.apply : Relink → CShort → CShort
  | .fail, _ => 0
  | .link, n => n + 1
  | .unlink, n => n - 1
  | .drop, n => n - 1

inductive Act where
  | ialloc (p : ℕ) (type : CShort)
  | iget (p inum : ℕ)
  | idup (p q e : ℕ)
  | give (p q e : ℕ)
  | ilock (p e : ℕ)
  | relink (p e : ℕ) (r : Relink)
  | iunlock (p e : ℕ)
  | iput (p e : ℕ)
  | advance (p : ℕ)
  deriving DecidableEq, Repr

def St.setInode (s : St) (e : ℕ) (ip : Inode) : St :=
  { s with inode := Function.update s.inode e ip }

def St.setDisk (s : St) (inum : ℕ) (d : Dinode) : St :=
  { s with disk := Function.update s.disk inum d }

/-- The process is not inside `ialloc` or `iput`. -/
def St.idle (s : St) (p : ℕ) : Bool := s.busy.all fun b => b.1 ≠ p

/-- `iget`: the entry, and its content afterwards. -/
def iget (s : St) (inum : ℕ) : Except String (ℕ × Inode) :=
  -- is the inode already in the table?
  match (List.range NINODE).find? fun e => 0 < (s.inode e).ref ∧ (s.inode e).inum = inum with
  | some e => .ok (e, { s.inode e with ref := (s.inode e).ref + 1 })
  | none =>
    -- recycle an entry
    match (List.range NINODE).find? fun e => (s.inode e).ref = 0 with
    | some e => .ok (e, { s.inode e with inum := inum, ref := 1, valid := false })
    | none => .error "iget: no inodes"

/-- A call of `iget` for a path element. -/
def stepIget (s : St) (p inum : ℕ) : St :=
  match iget s inum with
  | .error msg => { s with panicked := some msg }
  | .ok (e, ip) => { s.setInode e ip with refs := (p, e) :: s.refs }

/-- `idup`: process `q` gets the new pointer. -/
def stepIdup (s : St) (q e : ℕ) : St :=
  { s.setInode e { s.inode e with ref := (s.inode e).ref + 1 } with refs := (q, e) :: s.refs }

/-- The content of an inode in `ilock` after the read from disk. -/
def readInode (s : St) (e : ℕ) : Except String Inode :=
  let ip := s.inode e
  if ip.valid then
    .ok ip
  else if (s.disk ip.inum).type = 0 then
    .error "ilock: no type"
  else
    .ok { ip with valid := true, type := (s.disk ip.inum).type, nlink := (s.disk ip.inum).nlink }

/-- `ilock`; `none` while `p` sleeps. -/
def stepIlock (s : St) (p e : ℕ) : Option St :=
  if (s.inode e).ref < 1 then
    some { s with panicked := some "ilock" }
  else if (s.inode e).lock ≠ none then
    none
  else
    match readInode s e with
    | .error msg => some { s with panicked := some msg }
    | .ok ip => some (s.setInode e { ip with lock := some p })

/-- A change of `ip->nlink` and the `iupdate` after it. -/
def stepRelink (s : St) (e : ℕ) (r : Relink) : St :=
  let ip := s.inode e
  if r = .unlink ∧ ip.nlink.toInt < 1 then
    { s with panicked := some "unlink: nlink < 1" }
  else
    (s.setInode e { ip with nlink := r.apply ip.nlink }).setDisk ip.inum
      ⟨ip.type, r.apply ip.nlink⟩

/-- `iput` up to the release of `itable.lock`. -/
def stepIput (s : St) (p e : ℕ) : Option St :=
  let ip := s.inode e
  if ip.ref = 1 ∧ ip.valid ∧ ip.nlink = 0 then
    if ip.lock ≠ none then
      none
    else
      some { s.setInode e { ip with lock := some p } with
        refs := s.refs.erase (p, e), busy := (p, .iputFree e) :: s.busy }
  else
    some { s.setInode e { ip with ref := ip.ref - 1 } with refs := s.refs.erase (p, e) }

/-- The process goes on from `c` to `c'`. -/
def St.goto (s : St) (p : ℕ) (c c' : Pc) : St :=
  { s with busy := (p, c') :: s.busy.erase (p, c) }

/-- The process leaves `ialloc` or `iput`. -/
def St.leave (s : St) (p : ℕ) (c : Pc) : St :=
  { s with busy := s.busy.erase (p, c) }

/-- The loop of `ialloc` at inode `inum`. -/
def iallocScan (ninodes : ℕ) (s : St) (p inum : ℕ) (type : CShort) : St :=
  if inum < ninodes then
    if (s.disk inum).type = 0 then
      (s.setDisk inum ⟨type, 0⟩).goto p (.iallocScan inum type) (.iallocGet inum)
    else s.goto p (.iallocScan inum type) (.iallocScan (inum + 1) type)
  else s.leave p (.iallocScan inum type)

/-- `iget` at the end of `ialloc`. -/
def iallocGet (s : St) (p inum : ℕ) : St :=
  match iget s inum with
  | .error msg => { s with panicked := some msg }
  | .ok (e, ip) => (s.setInode e ip).goto p (.iallocGet inum) (.createLock e)

/-- `ilock(ip)`, `ip->nlink = 1` and `iupdate(ip)` in `create`. -/
def createLock (s : St) (p e : ℕ) : Option St :=
  if (s.inode e).lock ≠ none then
    none
  else
    match readInode s e with
    | .error msg => some { s with panicked := some msg }
    | .ok ip =>
      some { ((s.setInode e { ip with lock := some p, nlink := 1 }).setDisk ip.inum
        ⟨ip.type, 1⟩).leave p (.createLock e) with refs := (p, e) :: s.refs }

/-- `itrunc(ip)`, `ip->type = 0` and `iupdate(ip)` in `iput`. -/
def iputFree (s : St) (p e : ℕ) : St :=
  let ip := s.inode e
  ((s.setInode e { ip with type := 0 }).setDisk ip.inum ⟨0, ip.nlink⟩).goto p
    (.iputFree e) (.iputClear e)

/-- `ip->valid = 0` and `releasesleep` in `iput`. -/
def iputClear (s : St) (p e : ℕ) : St :=
  (s.setInode e { s.inode e with valid := false, lock := none }).goto p
    (.iputClear e) (.iputStale e)

/-- `ip->ref--` at the end of `iput`. -/
def iputStale (s : St) (p e : ℕ) : St :=
  (s.setInode e { s.inode e with ref := (s.inode e).ref - 1 }).leave p (.iputStale e)

/-- The next section of a process inside `ialloc` or `iput`. -/
def advance (ninodes : ℕ) (s : St) (p : ℕ) : Option St :=
  match s.busy.find? fun b => b.1 = p with
  | none => none
  | some (_, .iallocScan inum type) => some (iallocScan ninodes s p inum type)
  | some (_, .iallocGet inum) => some (iallocGet s p inum)
  | some (_, .createLock e) => createLock s p e
  | some (_, .iputFree e) => some (iputFree s p e)
  | some (_, .iputClear e) => some (iputClear s p e)
  | some (_, .iputStale e) => some (iputStale s p e)

def step (ninodes : ℕ) (s : St) (a : Act) : Option St :=
  if s.panicked ≠ none then
    none
  else
    match a with
    | .ialloc p type =>
      if s.idle p ∧ type ≠ 0 then
        some { s with busy := (p, .iallocScan 1 type) :: s.busy }
      else none
    | .iget p inum => if s.idle p then some (stepIget s p inum) else none
    | .idup p q e => if s.idle p ∧ (p, e) ∈ s.refs then some (stepIdup s q e) else none
    | .give p q e =>
      if s.idle p ∧ (p, e) ∈ s.refs ∧ (s.inode e).lock ≠ some p then
        some { s with refs := (q, e) :: s.refs.erase (p, e) }
      else none
    | .ilock p e => if s.idle p ∧ (p, e) ∈ s.refs then stepIlock s p e else none
    | .relink p e r =>
      if s.idle p ∧ (s.inode e).lock = some p then some (stepRelink s e r) else none
    | .iunlock p e =>
      if s.idle p ∧ (s.inode e).lock = some p then
        some (s.setInode e { s.inode e with lock := none })
      else none
    | .iput p e =>
      if s.idle p ∧ (p, e) ∈ s.refs ∧ (s.inode e).lock ≠ some p then stepIput s p e else none
    | .advance p => advance ninodes s p

end Itable

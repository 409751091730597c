/-
# The buffer cache and its clients (kernel/bio.c with kernel/log.c)

Any number of processes read blocks of any devices through the cache, change the buffers
they hold, write them with `bwrite` or `log_write`, pin and unpin them, and give them
back; the last operation of a group commits the log through the same cache.  A changed
buffer has been given to `bwrite` or `log_write` before it is released.

There is one disk: `virtio_disk_rw` uses the block number of a buffer and ignores its
device.  The log is on the device `dev` and remembers block numbers only.

The list `released` has what has been released so far, latest first.
-/
import Xv6.Crash

namespace Cache

open Transition

/-- Where the log stands. -/
inductive Pc where
  /-- no commit in progress -/
  | idle
  /-- `p` is in `write_log`, `tail` blocks written -/
  | writeLog (p tail : ℕ)
  /-- `p` is in `install_trans(0)`, `tail` blocks installed -/
  | install (p tail : ℕ)
  /-- `commit` has returned to `end_op` -/
  | done (p : ℕ)
  deriving DecidableEq, Repr

/-- A block that has been released, with its content. -/
structure Release where
  dev : ℕ
  blockno : ℕ
  data : Block

structure St where
  disk : Disk
  cache : Bcache
  log : Log
  pc : Pc
  /-- the processes inside an operation -/
  ops : List ℕ
  /-- the buffers that have been changed and not written yet -/
  dirty : ℕ → Bool
  /-- the buffers that clients have pinned -/
  pins : List ℕ
  released : List Release

inductive Act where
  | beginOp (p : ℕ)
  | endOp (p : ℕ)
  | bget (p dev blockno : ℕ)
  | acquire (p k : ℕ)
  | modify (p k : ℕ) (d : Block)
  | bwrite (p k : ℕ)
  | logWrite (p k : ℕ)
  | bpin (p k : ℕ)
  | bunpin (p k : ℕ)
  | brelse (p k : ℕ)
  | drop (p k : ℕ)
  | writeLog (p kto kfrom : ℕ)
  | writeHead (p k : ℕ)
  | install (p klog kdst : ℕ)
  | clearHead (p k : ℕ)
  | finish (p : ℕ)

/-- `p` holds the locked buffer `k`, and it is a buffer of block `n` of the device. -/
def Holds (c : Bcache) (dev p k n : ℕ) : Prop :=
  k ∈ c.lru ∧ (c.buf k).lock = some p ∧ (c.buf k).dev = dev ∧ (c.buf k).blockno = n

instance (c : Bcache) (dev p k n : ℕ) : Decidable (Holds c dev p k n) :=
  inferInstanceAs (Decidable (_ ∧ _ ∧ _ ∧ _))

def beginOp (s : St) (p : ℕ) : Option St :=
  if p ∈ s.ops then none
  else (Log.beginOp s.log).map fun l => { s with log := l, ops := p :: s.ops }

/-- `end_op` up to the call of `commit`, which does nothing when nothing was logged. -/
def endOp (s : St) (p : ℕ) : Option St :=
  if p ∈ s.ops then
    match Log.endOp s.log with
    | .error _ => none
    | .ok (l, doCommit) =>
      some { s with
        log := l
        ops := s.ops.erase p
        pc := if doCommit then (if l.lh.length > 0 then .writeLog p 0 else .done p) else s.pc }
  else none

/-- `bget`, on a device other than 0. -/
def bget (s : St) (p dev blockno : ℕ) : Option St :=
  if dev = 0 then none
  else match s.cache.bget p dev blockno with
    | .error _ => none
    | .ok (_, c) => some { s with cache := c }

/-- The rest of `bread`. -/
def acquire (s : St) (p k : ℕ) : Option St :=
  (s.cache.acquireBuf s.disk p k).map fun c => { s with cache := c }

/-- A store to the data of a buffer that the process holds. -/
def modify (s : St) (p k : ℕ) (d : Block) : Option St :=
  if k ∈ s.cache.lru ∧ (s.cache.buf k).lock = some p then
    some { s with cache := s.cache.setData k d, dirty := Function.update s.dirty k true }
  else none

def bwrite (s : St) (p k : ℕ) : Option St :=
  if k ∈ s.cache.lru then
    match s.cache.bwrite s.disk p k with
    | .error _ => none
    | .ok d => some { s with disk := d, dirty := Function.update s.dirty k false }
  else none

/-- `log_write`, inside an operation. -/
def logWrite (s : St) (p k : ℕ) : Option St :=
  if p ∈ s.ops ∧ k ∈ s.cache.lru ∧ (s.cache.buf k).lock = some p then
    match Log.logWrite s.log (s.cache.buf k).blockno with
    | .error _ => none
    | .ok (l, pin) => some { s with
        log := l
        cache := if pin then s.cache.bpin k else s.cache
        dirty := Function.update s.dirty k false }
  else none

/-- A client pins a buffer that it holds. -/
def bpin (s : St) (p k : ℕ) : Option St :=
  if k ∈ s.cache.lru ∧ (s.cache.buf k).lock = some p then
    some { s with cache := s.cache.bpin k, pins := k :: s.pins }
  else none

/-- A client unpins a buffer that has been pinned. -/
def bunpin (s : St) (_p k : ℕ) : Option St :=
  if k ∈ s.cache.lru ∧ k ∈ s.pins then
    some { s with cache := s.cache.bunpin k, pins := s.pins.erase k }
  else none

/-- `brelse` up to the end of `releasesleep`; a changed buffer has been written by then. -/
def brelse (s : St) (p k : ℕ) : Option St :=
  if k ∈ s.cache.lru ∧ s.dirty k = false then
    match s.cache.brelse p k with
    | .error _ => none
    | .ok c =>
      let b := s.cache.buf k
      some { s with cache := c, released := ⟨b.dev, b.blockno, b.data⟩ :: s.released }
  else none

/-- The rest of `brelse`. -/
def drop (s : St) (p k : ℕ) : Option St :=
  if k ∈ s.cache.lru ∧ p ∈ (s.cache.buf k).leavers then
    some { s with cache := s.cache.dropBuf p k }
  else none

/-- `memmove` into a buffer and `bwrite` of it, by the commit. -/
def putBlock (s : St) (p k : ℕ) (d : Block) : Option St :=
  let c := s.cache.setData k d
  match c.bwrite s.disk p k with
  | .error _ => none
  | .ok disk => some { s with cache := c, disk, dirty := Function.update s.dirty k false }

/-- One round of `write_log`. -/
def stepWriteLog (dev : ℕ) (s : St) (p kto kfrom : ℕ) : Option St :=
  match s.pc with
  | .writeLog q tail =>
    match s.log.lh[tail]? with
    | none => none
    | some b =>
      if q = p ∧ Holds s.cache dev p kto (s.log.start + tail + 1) ∧ Holds s.cache dev p kfrom b then
        (putBlock s p kto (s.cache.buf kfrom).data).map fun t =>
          { t with pc := .writeLog p (tail + 1) }
      else none
  | _ => none

/-- `write_head` in `commit`. -/
def stepWriteHead (dev : ℕ) (s : St) (p k : ℕ) : Option St :=
  match s.pc with
  | .writeLog q tail =>
    if q = p ∧ tail = s.log.lh.length ∧ Holds s.cache dev p k s.log.start then
      (putBlock s p k (writeHead (s.cache.buf k).data s.log.lh)).map fun t =>
        { t with pc := .install p 0 }
    else none
  | _ => none

/-- One round of `install_trans(0)`. -/
def stepInstall (dev : ℕ) (s : St) (p klog kdst : ℕ) : Option St :=
  match s.pc with
  | .install q tail =>
    match s.log.lh[tail]? with
    | none => none
    | some b =>
      if q = p ∧ Holds s.cache dev p klog (s.log.start + tail + 1) ∧ Holds s.cache dev p kdst b then
        (putBlock s p kdst (s.cache.buf klog).data).map fun t =>
          { t with cache := t.cache.bunpin kdst, pc := .install p (tail + 1) }
      else none
  | _ => none

/-- `log.lh.n = 0` and the second `write_head` of `commit`. -/
def stepClearHead (dev : ℕ) (s : St) (p k : ℕ) : Option St :=
  match s.pc with
  | .install q tail =>
    if q = p ∧ tail = s.log.lh.length ∧ Holds s.cache dev p k s.log.start then
      (putBlock s p k (writeHead (s.cache.buf k).data [])).map fun t =>
        { t with log := { t.log with lh := [] }, pc := .done p }
    else none
  | _ => none

/-- The rest of `end_op` after `commit`. -/
def finish (s : St) (p : ℕ) : Option St :=
  if s.pc = .done p then
    some { s with log := { s.log with committing := false }, pc := .idle }
  else none

/-- The system, with the log on the device `dev`. -/
def step (dev : ℕ) (s : St) : Act → Option St
  | .beginOp p => beginOp s p
  | .endOp p => endOp s p
  | .bget p d n => bget s p d n
  | .acquire p k => acquire s p k
  | .modify p k d => modify s p k d
  | .bwrite p k => bwrite s p k
  | .logWrite p k => logWrite s p k
  | .bpin p k => bpin s p k
  | .bunpin p k => bunpin s p k
  | .brelse p k => brelse s p k
  | .drop p k => drop s p k
  | .writeLog p kto kfrom => stepWriteLog dev s p kto kfrom
  | .writeHead p k => stepWriteHead dev s p k
  | .install p klog kdst => stepInstall dev s p klog kdst
  | .clearHead p k => stepClearHead dev s p k
  | .finish p => finish s p

/-- The system after `binit` and `initlog`, with an empty log. -/
def start (sb : Superblock) (disk : Disk) : St where
  disk := disk
  cache := Bcache.binit
  log := Log.initlog sb
  pc := .idle
  ops := []
  dirty := fun _ => false
  pins := []
  released := []

/-- The content of a block: what was released last, or what was on the disk at first. -/
def content (disk : Disk) (released : List Release) (dev n : ℕ) : Block :=
  match released.find? (fun r => r.dev = dev ∧ r.blockno = n) with
  | some r => r.data
  | none => disk n

end Cache

/-
# The redo log with crashes (kernel/log.c over kernel/bio.c and a disk)

The whole logging system as one transition system: any number of processes read
and change blocks through the buffer cache, run operations between `begin_op`
and `end_op`, and the last `end_op` of a group commits it.  The machine may lose
power between any two actions; it then boots with an empty cache and runs
`recover_from_log`, during which it may lose power again.

Every action makes at most one disk write, so a crash can fall between any two
of the writes of `write_log`, `write_head`, `install_trans` and the final
`write_head`.  The ghost fields remember what was asked for: `issued` lists all
calls of `log_write` with the content of the buffer, `pending` those of the
group that is being built, and `groups` the groups whose header reached the
disk.
-/
import Xv6.Bio
import Xv6.Bytes
import Xv6.Log

open Bytes Transition

/-! ## The header block -/

/-- `read_head`: `lh->n` is an `int`, so a word from `2^31` on is negative and
the loop copies nothing. -/
def readHead (d : Block) : List ℕ :=
  let n := getLE d 0 4
  (List.range (if n < 2 ^ 31 then n else 0)).map fun i => getLE d (4 + 4 * i) 4

/-- Store block numbers from offset `o` on. -/
def setBlocks (d : Block) (o : ℕ) : List ℕ → Block
  | [] => d
  | b :: bs => setBlocks (setLE d o 4 b) (o + 4) bs

/-- The change `write_head` makes to the header block. -/
def writeHead (d : Block) (lh : List ℕ) : Block :=
  setBlocks (setLE d 0 4 lh.length) 4 lh

/-! ## Recovery on a disk -/

/-- `install_trans(1)` from `tail` on: copy the log blocks to their homes. -/
def installTrans (start : ℕ) : ℕ → List ℕ → Disk → Disk
  | _, [], d => d
  | tail, b :: bs, d =>
    installTrans start (tail + 1) bs (Function.update d b (d (start + tail + 1)))

/-- `recover_from_log`, run to completion on an empty cache. -/
def recoverFromLog (sb : Superblock) (d : Disk) : Disk :=
  let d := installTrans sb.logstart 0 (readHead (d sb.logstart)) d
  Function.update d sb.logstart (writeHead (d sb.logstart) [])

namespace Crash

/-! ## The machine -/

/-- Where the code of `recover_from_log` or `commit` stands. -/
inductive Pc where
  /-- booting, before `read_head` -/
  | readHead
  /-- in `install_trans(1)`, `tail` blocks copied -/
  | recover (tail : ℕ)
  /-- no commit in progress -/
  | idle
  /-- `p` is in `write_log`, `tail` blocks written -/
  | writeLog (p tail : ℕ)
  /-- `p` is in `install_trans(0)`, `tail` blocks installed -/
  | install (p tail : ℕ)
  /-- `commit` has returned to `end_op` -/
  | done (p : ℕ)
  deriving DecidableEq, Repr

/-- A call of `log_write`: the operation, the block and its content. -/
structure Rec where
  op : ℕ
  blockno : ℕ
  data : Block

structure St where
  disk : Disk
  cache : Bcache
  log : Log
  pc : Pc
  /-- the running operations: process and number of the operation -/
  ops : List (ℕ × ℕ)
  /-- ghost: the process that changed a buffer since the last `log_write` of it -/
  dirty : ℕ → Option ℕ
  nextOp : ℕ
  issued : List Rec
  pending : List Rec
  groups : List (List Rec)

/-- A machine that is switched on with this disk. -/
def boot (sb : Superblock) (d : Disk) : St where
  disk := d
  cache := Bcache.binit
  log := Log.initlog sb
  pc := .readHead
  ops := []
  dirty := fun _ => none
  nextOp := 0
  issued := []
  pending := []
  groups := []

inductive Act where
  | beginOp (p : ℕ)
  | endOp (p : ℕ)
  | bget (p b : ℕ)
  | acquire (p k : ℕ)
  | modify (p k : ℕ) (d : Block)
  | logWrite (p k : ℕ)
  | brelse (p k : ℕ)
  | drop (p k : ℕ)
  | readHead (p k : ℕ)
  | writeLog (p kto kfrom : ℕ)
  | writeHead (p k : ℕ)
  | install (p klog kdst : ℕ)
  | clearHead (p k : ℕ)
  | finish (p : ℕ)
  | crash

/-- A home block: one outside the log area. -/
def Home (sb : Superblock) (b : ℕ) : Prop :=
  b < sb.logstart ∨ sb.logstart + sb.nlog ≤ b

instance (sb : Superblock) (b : ℕ) : Decidable (Home sb b) :=
  inferInstanceAs (Decidable (_ ∨ _))

/-- The operation process `p` runs. -/
def opOf (s : St) (p : ℕ) : Option ℕ := (s.ops.find? (fun o => o.1 = p)).map (·.2)

/-- `recover_from_log` has not returned yet. -/
def Pc.booting : Pc → Bool
  | .readHead => true
  | .recover _ => true
  | _ => false

/-- `begin_op`, by a process that is not inside an operation already. -/
def beginOp (s : St) (p : ℕ) : Option St :=
  if s.pc.booting = false ∧ opOf s p = none then
    (Log.beginOp s.log).map fun l =>
      { s with log := l, ops := (p, s.nextOp) :: s.ops, nextOp := s.nextOp + 1 }
  else none

/-- `end_op` up to the call of `commit`: an operation has logged its changes by
then.  `commit` does nothing when nothing was logged. -/
def endOp (s : St) (p : ℕ) : Option St :=
  match opOf s p with
  | none => none
  | some o =>
    if s.cache.lru.all (fun k => s.dirty k ≠ some p) then
      match Log.endOp s.log with
      | .error _ => none
      | .ok (l, doCommit) =>
        some { s with
          log := l
          ops := s.ops.erase (p, o)
          pc := if doCommit then (if l.lh.length > 0 then .writeLog p 0 else .done p) else s.pc }
    else none

/-- A process asks for a block. -/
def bget (s : St) (p b : ℕ) : Option St :=
  if b < 2 ^ 32 then
    match s.cache.bget p ROOTDEV b with
    | .error _ => none
    | .ok (_, c) => some { s with cache := c }
  else none

/-- It gets the buffer. -/
def acquire (s : St) (p k : ℕ) : Option St :=
  (s.cache.acquireBuf s.disk p k).map fun c => { s with cache := c }

/-- Inside an operation it changes the content of a home block. -/
def modify (sb : Superblock) (s : St) (p k : ℕ) (d : Block) : Option St :=
  if (opOf s p).isSome ∧ k ∈ s.cache.lru ∧ (s.cache.buf k).lock = some p ∧
      Home sb (s.cache.buf k).blockno then
    some { s with cache := s.cache.setData k d, dirty := Function.update s.dirty k (some p) }
  else none

/-- It calls `log_write` on the buffer it holds. -/
def logWrite (sb : Superblock) (s : St) (p k : ℕ) : Option St :=
  match opOf s p with
  | none => none
  | some o =>
    let b := s.cache.buf k
    if k ∈ s.cache.lru ∧ b.lock = some p ∧ Home sb b.blockno then
      match Log.logWrite s.log b.blockno with
      | .error _ => none
      | .ok (l, pin) =>
        let r : Rec := ⟨o, b.blockno, b.data⟩
        some { s with
          log := l
          cache := if pin then s.cache.bpin k else s.cache
          dirty := Function.update s.dirty k none
          issued := s.issued ++ [r]
          pending := s.pending ++ [r] }
    else none

/-- It calls `brelse`; a changed buffer has been logged by then. -/
def brelse (s : St) (p k : ℕ) : Option St :=
  if k ∈ s.cache.lru ∧ s.dirty k = none then
    match s.cache.brelse p k with
    | .error _ => none
    | .ok c => some { s with cache := c }
  else none

/-- The second half of `brelse`. -/
def drop (s : St) (p k : ℕ) : Option St :=
  if k ∈ s.cache.lru ∧ p ∈ (s.cache.buf k).leavers then
    some { s with cache := s.cache.dropBuf p k }
  else none

/-- `read_head` in `recover_from_log`. -/
def stepReadHead (sb : Superblock) (s : St) (p k : ℕ) : Option St :=
  if s.pc = .readHead ∧ s.cache.Holds p k sb.logstart then
    some { s with
      log := { s.log with lh := readHead (s.cache.buf k).data }
      pc := .recover 0 }
  else none

/-- One round of `write_log`. -/
def stepWriteLog (sb : Superblock) (s : St) (p kto kfrom : ℕ) : Option St :=
  match s.pc with
  | .writeLog q tail =>
    match s.log.lh[tail]? with
    | none => none
    | some b =>
      if q = p ∧ s.cache.Holds p kto (sb.logstart + tail + 1) ∧ s.cache.Holds p kfrom b then
        let c := s.cache.setData kto (s.cache.buf kfrom).data
        match c.bwrite s.disk p kto with
        | .error _ => none
        | .ok d => some { s with cache := c, disk := d, pc := .writeLog p (tail + 1) }
      else none
  | _ => none

/-- `write_head` in `commit`, the real commit: the group is on disk. -/
def stepWriteHead (sb : Superblock) (s : St) (p k : ℕ) : Option St :=
  match s.pc with
  | .writeLog q tail =>
    if q = p ∧ tail = s.log.lh.length ∧ s.cache.Holds p k sb.logstart then
      let c := s.cache.setData k (writeHead (s.cache.buf k).data s.log.lh)
      match c.bwrite s.disk p k with
      | .error _ => none
      | .ok d => some { s with
          cache := c
          disk := d
          pc := .install p 0
          groups := s.groups ++ [s.pending]
          pending := [] }
    else none
  | _ => none

/-- The loop body of `install_trans`, without the `bunpin`. -/
def installBlock (sb : Superblock) (s : St) (p tail klog kdst : ℕ) : Option St :=
  match s.log.lh[tail]? with
  | none => none
  | some b =>
    if s.cache.Holds p klog (sb.logstart + tail + 1) ∧ s.cache.Holds p kdst b then
      let c := s.cache.setData kdst (s.cache.buf klog).data
      match c.bwrite s.disk p kdst with
      | .error _ => none
      | .ok d => some { s with cache := c, disk := d }
    else none

/-- One round of `install_trans`, of `commit` or of `recover_from_log`. -/
def stepInstall (sb : Superblock) (s : St) (p klog kdst : ℕ) : Option St :=
  match s.pc with
  | .recover tail =>
    (installBlock sb s p tail klog kdst).map fun t => { t with pc := .recover (tail + 1) }
  | .install q tail =>
    if q = p then
      (installBlock sb s p tail klog kdst).map fun t =>
        { t with cache := t.cache.bunpin kdst, pc := .install p (tail + 1) }
    else none
  | _ => none

/-- `log.lh.n = 0` and the `write_head` that erases the transaction. -/
def clearHead (sb : Superblock) (s : St) (p k : ℕ) (next : Pc) : Option St :=
  if s.cache.Holds p k sb.logstart then
    let c := s.cache.setData k (writeHead (s.cache.buf k).data [])
    match c.bwrite s.disk p k with
    | .error _ => none
    | .ok d => some { s with cache := c, disk := d, log := { s.log with lh := [] }, pc := next }
  else none

/-- The end of `recover_from_log` or of `commit`. -/
def stepClearHead (sb : Superblock) (s : St) (p k : ℕ) : Option St :=
  match s.pc with
  | .recover tail =>
    if tail = s.log.lh.length then clearHead sb s p k .idle else none
  | .install q tail =>
    if q = p ∧ tail = s.log.lh.length then clearHead sb s p k (.done p) else none
  | _ => none

/-- The rest of `end_op` after `commit`. -/
def finish (s : St) (p : ℕ) : Option St :=
  if s.pc = .done p then
    some { s with log := { s.log with committing := false }, pc := .idle }
  else none

/-- The power fails: only the disk (and the ghosts about it) are left. -/
def crash (sb : Superblock) (s : St) : St :=
  { boot sb s.disk with nextOp := s.nextOp, issued := s.issued, groups := s.groups }

def step (sb : Superblock) (s : St) : Act → Option St
  | .beginOp p => beginOp s p
  | .endOp p => endOp s p
  | .bget p b => bget s p b
  | .acquire p k => acquire s p k
  | .modify p k d => modify sb s p k d
  | .logWrite p k => logWrite sb s p k
  | .brelse p k => brelse s p k
  | .drop p k => drop s p k
  | .readHead p k => stepReadHead sb s p k
  | .writeLog p kto kfrom => stepWriteLog sb s p kto kfrom
  | .writeHead p k => stepWriteHead sb s p k
  | .install p klog kdst => stepInstall sb s p klog kdst
  | .clearHead p k => stepClearHead sb s p k
  | .finish p => finish s p
  | .crash => some (crash sb s)

end Crash

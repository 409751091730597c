/-
# The in-memory log (kernel/log.c)

`struct log` and the three entry points of the logging system that a
file-system operation calls, each under `log.lock` and therefore one step:

* `beginOp` either admits an operation or would sleep;
* `logWrite` records a block in the header, absorbing repeated blocks, and
  tells its caller to pin the buffer when the block is new;
* `endOp` ends an operation and says whether the caller has to commit.

`LogSpace` below is the system of any number of processes that call them, with
the block numbers as the only data.
-/
import Mathlib.Data.List.Dedup
import Xv6.Layout
import Xv6.Transition

/-! ## struct log -/

/-- `struct log`: `lh` is `lh.block[0..lh.n)`, so `lh.n` is its length. -/
structure Log where
  start : ℕ
  size : ℕ
  outstanding : ℕ
  committing : Bool
  lh : List ℕ
  deriving DecidableEq, Repr

namespace Log

/-- `initlog`, up to the call of `recover_from_log`. -/
def initlog (sb : Superblock) : Log where
  start := sb.logstart
  size := sb.nlog
  outstanding := 0
  committing := false
  lh := []

/-- One round of the loop of `begin_op`: `none` where it sleeps. -/
def beginOp (l : Log) : Option Log :=
  if l.committing then
    none
  else if l.lh.length + (l.outstanding + 1) * MAXOPBLOCKS > LOGSIZE then
    -- this op might exhaust log space; wait for commit
    none
  else
    some { l with outstanding := l.outstanding + 1 }

/-- `end_op` up to its first `release`; the flag is `do_commit`. -/
def endOp (l : Log) : Except String (Log × Bool) :=
  if l.committing then
    .error "log.committing"
  else if l.outstanding - 1 = 0 then
    .ok ({ l with outstanding := 0, committing := true }, true)
  else
    .ok ({ l with outstanding := l.outstanding - 1 }, false)

/-- `log_write` of a buffer of block `blockno`; the flag says whether the
buffer is pinned. -/
def logWrite (l : Log) (blockno : ℕ) : Except String (Log × Bool) :=
  if l.lh.length ≥ LOGSIZE ∨ l.lh.length ≥ l.size - 1 then
    .error "too big a transaction"
  else if l.outstanding < 1 then
    .error "log_write outside of trans"
  else if blockno ∈ l.lh then
    -- log absorption
    .ok (l, false)
  else
    .ok ({ l with lh := l.lh ++ [blockno] }, true)

/-- The end of a commit: `commit` has cleared `lh.n` and `end_op` clears
`committing`. -/
def commitDone (l : Log) : Log :=
  { l with lh := [], committing := false }

end Log

/-
# The buffer cache (kernel/bio.c)

`NBUF` buffers on a list in order of use.  A buffer is handed out in two steps:
`bget` finds or recycles it and counts the caller under `bcache.lock`, and the
caller then waits for the buffer's sleep-lock (`acquireBuf`, which also does the
disk read of `bread`).  It is given back in two steps as well, `brelse` for the
sleep-lock and `dropBuf` for the count.

A block is a function from offsets to bytes and the disk a function from block
numbers to blocks.  Where the C code has processes sleeping or running between
two critical sections, the model records them in the buffer (`waiters`,
`leavers`); nothing but the counting argument reads these two fields.
-/
import Mathlib.Logic.Function.Basic
import Xv6.Layout

/-- The content of a block. -/
abbrev Block := ℕ → UInt8

/-- The content of the disk. -/
abbrev Disk := ℕ → Block

/-- `struct buf`; `lock` is the process that holds the sleep-lock. -/
structure Buf where
  valid : Bool
  dev : ℕ
  blockno : ℕ
  refcnt : ℕ
  lock : Option ℕ
  waiters : List ℕ
  leavers : List ℕ
  data : Block

/-- `bcache`: the buffers, and the list from `head.next` to `head.prev`. -/
structure Bcache where
  buf : ℕ → Buf
  lru : List ℕ

namespace Bcache

/-- A buffer of the zeroed kernel data segment. -/
def freshBuf : Buf where
  valid := false
  dev := 0
  blockno := 0
  refcnt := 0
  lock := none
  waiters := []
  leavers := []
  data := fun _ => 0

/-- `binit`: every buffer is pushed at the front of the list. -/
def binit : Bcache where
  buf := fun _ => freshBuf
  lru := (List.range NBUF).reverse

/-- Store a buffer. -/
def setBuf (c : Bcache) (k : ℕ) (b : Buf) : Bcache :=
  { c with buf := Function.update c.buf k b }

@[simp] theorem setBuf_lru (c : Bcache) (k : ℕ) (b : Buf) : (c.setBuf k b).lru = c.lru := rfl

@[simp] theorem setBuf_same (c : Bcache) (k : ℕ) (b : Buf) : (c.setBuf k b).buf k = b := by
  simp [setBuf]

theorem setBuf_other (c : Bcache) {j k : ℕ} (b : Buf) (h : j ≠ k) :
    (c.setBuf k b).buf j = c.buf j := by
  simp [setBuf, h]

/-- `bget` up to the call of `acquiresleep`. -/
def bget (c : Bcache) (p dev blockno : ℕ) : Except String (ℕ × Bcache) :=
  -- is the block already cached?
  match c.lru.find? (fun k => (c.buf k).dev = dev ∧ (c.buf k).blockno = blockno) with
  | some k =>
    let b := c.buf k
    .ok (k, c.setBuf k { b with refcnt := b.refcnt + 1, waiters := p :: b.waiters })
  | none =>
    -- recycle the least recently used unused buffer
    match c.lru.reverse.find? (fun k => (c.buf k).refcnt = 0) with
    | some k =>
      let b := c.buf k
      .ok (k, c.setBuf k { b with
        dev := dev, blockno := blockno, valid := false, refcnt := 1,
        waiters := p :: b.waiters })
    | none => .error "bget: no buffers"

/-- `acquiresleep` in `bget` and the rest of `bread`; `none` while `p` sleeps. -/
def acquireBuf (c : Bcache) (disk : Disk) (p k : ℕ) : Option Bcache :=
  let b := c.buf k
  if k ∈ c.lru ∧ p ∈ b.waiters ∧ b.lock = none then
    some (c.setBuf k { b with
      lock := some p
      waiters := b.waiters.erase p
      data := if b.valid then b.data else disk b.blockno
      valid := true })
  else none

/-- `brelse` up to the end of `releasesleep`. -/
def brelse (c : Bcache) (p k : ℕ) : Except String Bcache :=
  let b := c.buf k
  if b.lock ≠ some p then
    .error "brelse"
  else
    .ok (c.setBuf k { b with lock := none, leavers := p :: b.leavers })

/-- The rest of `brelse`: drop the count, and move an unused buffer to the head
of the list. -/
def dropBuf (c : Bcache) (p k : ℕ) : Bcache :=
  let b := c.buf k
  let c' := c.setBuf k { b with refcnt := b.refcnt - 1, leavers := b.leavers.erase p }
  if b.refcnt - 1 = 0 then
    { c' with lru := k :: c.lru.erase k }
  else c'

/-- `bpin`. -/
def bpin (c : Bcache) (k : ℕ) : Bcache :=
  c.setBuf k { c.buf k with refcnt := (c.buf k).refcnt + 1 }

/-- `bunpin`. -/
def bunpin (c : Bcache) (k : ℕ) : Bcache :=
  c.setBuf k { c.buf k with refcnt := (c.buf k).refcnt - 1 }

/-- A store to `b->data` by the holder of the buffer. -/
def setData (c : Bcache) (k : ℕ) (d : Block) : Bcache :=
  c.setBuf k { c.buf k with data := d }

/-- `bwrite`: write the content of the locked buffer to disk. -/
def bwrite (c : Bcache) (disk : Disk) (p k : ℕ) : Except String Disk :=
  if (c.buf k).lock ≠ some p then
    .error "bwrite"
  else
    .ok (Function.update disk (c.buf k).blockno (c.buf k).data)

/-- `p` holds the locked buffer `k`, and it is a buffer of block `blockno`. -/
def Holds (c : Bcache) (p k blockno : ℕ) : Prop :=
  k ∈ c.lru ∧ (c.buf k).lock = some p ∧ (c.buf k).blockno = blockno

instance (c : Bcache) (p k blockno : ℕ) : Decidable (Holds c p k blockno) :=
  inferInstanceAs (Decidable (_ ∧ _ ∧ _))

end Bcache

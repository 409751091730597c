/-
# Console input (kernel/console.c)

The input ring of the console, filled by the interrupt handler `consoleintr` and emptied
by any number of processes in `consoleread`.  Both hold `cons.lock`: the handler for its
whole body, so that one character is one step, and a reader until it sleeps or returns,
so that a step of a reader is one test or one byte.  `sleep` gives up the lock and
`wakeup` lets the reader ask for it again; a process may be killed between any two steps.

The destination of a read is a parameter of the call: where `either_copyout` succeeds.
The ghost fields record the characters that came in and the bytes that were taken out of
the ring, the bytes that reached a reader, and the finished reads.  Echoing, the process
list of `^P` and the output side are left out.

`Editor` is what the ring is for: a line being edited, in front of it the committed
bytes nobody has taken, and in front of these the bytes that were taken.
-/
import Xv6.Ring
import Xv6.Transition

namespace Console

/-! ## Characters -/

def INPUT_BUF_SIZE : ℕ := 128

/-- `Control-x`. -/
def C (x : Char) : UInt8 := x.toUInt8 - 64

def NL : UInt8 := 10

def CR : UInt8 := 13

def DEL : UInt8 := 127

/-! ## struct cons -/

/-- C `uint` arithmetic. -/
def uint (n : ℕ) : ℕ := n % 2 ^ 32

/-- The difference of two C `uint`s. -/
def usub (a b : ℕ) : ℕ := uint (a + 2 ^ 32 - b)

structure Cons where
  buf : ℕ → UInt8
  r : ℕ
  w : ℕ
  e : ℕ

/-- `cons.buf[cons.e++ % INPUT_BUF_SIZE] = c`. -/
def Cons.store (s : Cons) (c : UInt8) : Cons :=
  { s with buf := Function.update s.buf (s.e % INPUT_BUF_SIZE) c, e := uint (s.e + 1) }

/-- The bytes in `[r, w)`. -/
def Cons.unread (s : Cons) : List UInt8 :=
  (List.range (usub s.w s.r)).map fun k => s.buf (uint (s.r + k) % INPUT_BUF_SIZE)

/-! ## consoleintr -/

/-- The loop of `C('U')`, which goes round at most once for each byte in `[w, e)`. -/
def killLine : ℕ → Cons → Cons
  | 0, s => s
  | n + 1, s =>
    if s.e ≠ s.w ∧ s.buf (usub s.e 1 % INPUT_BUF_SIZE) ≠ NL then
      killLine n { s with e := usub s.e 1 }
    else s

/-- The ring after the character, and whether `wakeup(&cons.r)` is called. -/
def consoleintr (c : UInt8) (s : Cons) : Cons × Bool :=
  if c = C 'P' then (s, false)
  else if c = C 'U' then (killLine (usub s.e s.w) s, false)
  else if c = C 'H' ∨ c = DEL then
    (if s.e ≠ s.w then { s with e := usub s.e 1 } else s, false)
  else if c ≠ 0 ∧ usub s.e s.r < INPUT_BUF_SIZE then
    let c := if c = CR then NL else c
    let s := s.store c
    if c = NL ∨ c = C 'D' ∨ usub s.e s.r = INPUT_BUF_SIZE then ({ s with w := s.e }, true)
    else (s, false)
  else (s, false)

/-! ## consoleread -/

/-- A call of `consoleread`: the `n` it was called with, what is left of it, and the bytes
copied out so far. -/
structure Read where
  target : ℤ
  n : ℤ
  writable : ℕ → Bool
  got : List UInt8

/-- Where a process stands. -/
inductive Pc where
  /-- outside the console -/
  | idle
  /-- at `acquire(&cons.lock)` -/
  | enter (rd : Read)
  /-- at `while(n > 0)` -/
  | loop (rd : Read)
  /-- at `while(cons.r == cons.w)` -/
  | wait (rd : Read)
  /-- in `sleep`, `SLEEPING` -/
  | asleep (rd : Read)
  /-- in `sleep`, woken up and about to take `cons.lock` again -/
  | reenter (rd : Read)
  /-- at `c = cons.buf[cons.r++ % INPUT_BUF_SIZE]` -/
  | take (rd : Read)
  /-- before it releases the lock and returns `target - n` -/
  | leave (rd : Read)

/-- What `wakeup(&cons.r)` and `kill` do to a process that sleeps. -/
def Pc.woken : Pc → Pc
  | .asleep rd => .reenter rd
  | k => k

/-- The bytes the running call has copied out. -/
def Pc.got : Pc → List UInt8
  | .idle => []
  | .enter rd | .loop rd | .wait rd | .asleep rd | .reenter rd | .take rd | .leave rd => rd.got

/-- What has happened to the ring. -/
inductive Event where
  | key (c : UInt8)
  | take
  deriving DecidableEq, Repr

/-- A finished read: the bytes copied out and what the call returned. -/
structure Done where
  bytes : List UInt8
  result : ℤ
  deriving DecidableEq, Repr

structure St (N : ℕ) where
  cons : Cons
  holder : Option (Fin N)
  pc : Fin N → Pc
  killed : Fin N → Bool
  history : List Event
  delivered : List (Fin N × UInt8)
  reads : List (Fin N × Done)

variable {N : ℕ}

def St.goto (s : St N) (p : Fin N) (k : Pc) : St N := { s with pc := Function.update s.pc p k }

/-- `release(&cons.lock)` and return `result`. -/
def St.ret (s : St N) (p : Fin N) (bytes : List UInt8) (result : ℤ) : St N :=
  { s.goto p .idle with holder := none, reads := s.reads ++ [(p, ⟨bytes, result⟩)] }

/-- `cons.r++`. -/
def St.pop (s : St N) : St N :=
  { s with cons := { s.cons with r := uint (s.cons.r + 1) }, history := s.history ++ [.take] }

def St.setCons (s : St N) (c : Cons) : St N := { s with cons := c }

/-- `cons.r++` followed by `cons.r--`. -/
def St.unpop (s : St N) : St N :=
  s.setCons { s.cons with r := usub (uint (s.cons.r + 1)) 1 }

/-- The body of the loop of `consoleread` from the byte on. -/
def takeByte (s : St N) (p : Fin N) (rd : Read) : St N :=
  let c := s.cons.buf (s.cons.r % INPUT_BUF_SIZE)
  if c = C 'D' then
    if rd.n < rd.target then s.unpop.goto p (.leave rd)
    else s.pop.goto p (.leave rd)
  else if rd.writable rd.got.length then
    let rd := { rd with n := rd.n - 1, got := rd.got ++ [c] }
    { s.pop.goto p (if c = NL then .leave rd else .loop rd) with
      delivered := s.delivered ++ [(p, c)] }
  else s.pop.goto p (.leave rd)

/-- The next step of a process. -/
def advance (s : St N) (p : Fin N) : Option (St N) :=
  match s.pc p with
  | .idle => none
  | .enter rd =>
    if s.holder = none then some { s.goto p (.loop rd) with holder := some p } else none
  | .loop rd => if 0 < rd.n then some (s.goto p (.wait rd)) else some (s.goto p (.leave rd))
  | .wait rd =>
    if s.cons.r = s.cons.w then
      if s.killed p then some (s.ret p rd.got (-1))
      else some { s.goto p (.asleep rd) with holder := none }
    else some (s.goto p (.take rd))
  | .asleep _ => none
  | .reenter rd =>
    if s.holder = none then some { s.goto p (.wait rd) with holder := some p } else none
  | .take rd => some (takeByte s p rd)
  | .leave rd => some (s.ret p rd.got (rd.target - rd.n))

/-! ## The machine -/

inductive Act (N : ℕ) where
  /-- the interrupt handler gets a character -/
  | intr (c : UInt8)
  | call (p : Fin N) (n : ℤ) (writable : ℕ → Bool)
  | advance (p : Fin N)
  | kill (p : Fin N)

def Pc.isIdle : Pc → Bool
  | .idle => true
  | _ => false

def step (s : St N) : Act N → Option (St N)
  | .intr c =>
    if s.holder = none then
      some { s with
        cons := (consoleintr c s.cons).1
        pc := if (consoleintr c s.cons).2 then fun p => (s.pc p).woken else s.pc
        history := s.history ++ [.key c] }
    else none
  | .call p n writable =>
    if (s.pc p).isIdle then some (s.goto p (.enter ⟨n, n, writable, []⟩)) else none
  | .advance p => advance s p
  | .kill p =>
    some { s.goto p (s.pc p).woken with killed := Function.update s.killed p true }

/-- The console after `consoleinit`. -/
def start (N : ℕ) (buf : ℕ → UInt8) : St N where
  cons := ⟨buf, 0, 0, 0⟩
  holder := none
  pc := fun _ => .idle
  killed := fun _ => false
  history := []
  delivered := []
  reads := []

/-! ## The line editor -/

/-- The bytes that were taken, the committed bytes that were not, and the line being
edited. -/
structure Editor where
  past : List UInt8
  queue : List UInt8
  line : List UInt8
  deriving DecidableEq, Repr

/-- All that has been committed. -/
def Editor.text (d : Editor) : List UInt8 := d.past ++ d.queue

def Editor.size (d : Editor) : ℕ := d.queue.length + d.line.length

/-- Commit the line. -/
def Editor.commit (d : Editor) : Editor := { d with queue := d.queue ++ d.line, line := [] }

/-- Put a character at the end of the line, and commit the line when that ends it or
fills the buffer. -/
def Editor.insert (d : Editor) (c : UInt8) : Editor :=
  let d := { d with line := d.line ++ [c] }
  if c = NL ∨ c = C 'D' ∨ d.size = INPUT_BUF_SIZE then d.commit else d

/-- **The editing rules.** -/
def Editor.key (d : Editor) (c : UInt8) : Editor :=
  if c = C 'P' then d
  else if c = C 'U' then { d with line := [] }
  else if c = C 'H' ∨ c = DEL then { d with line := d.line.dropLast }
  else if c ≠ 0 ∧ d.size < INPUT_BUF_SIZE then d.insert (if c = CR then NL else c)
  else d

/-- Take the first committed byte. -/
def Editor.take (d : Editor) : Editor :=
  { d with past := d.past ++ d.queue.take 1, queue := d.queue.drop 1 }

def Editor.apply (d : Editor) : Event → Editor
  | .key c => d.key c
  | .take => d.take

/-- The editor after what has happened. -/
def edit (history : List Event) : Editor := history.foldl Editor.apply ⟨[], [], []⟩

end Console

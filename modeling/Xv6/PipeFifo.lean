/-
# A pipe is a first-in first-out queue

The invariant says who holds `pi->lock` and what the holder knows from its tests, and
relates the two counters and the ring to the bytes put in and taken out.  The counters
are the lengths of these two histories modulo `2 ^ 32`, so nothing in the argument
depends on how often they have wrapped.
-/
import Xv6.Pipe

open Function

namespace Pipe

open Transition Ring

variable {N : ℕ} {s t : St N} {p q : Fin N}

/-! ## The lock -/

/-- The process is between an acquire and a release of `pi->lock`. -/
def Pc.holding : Pc N → Bool
  | .idle => false
  | .acquire _ => false
  | .sleepSched _ _ => false
  | .asleep _ _ => false
  | _ => true

/-- Where a process goes on after an acquire of `pi->lock`. -/
def Pc.isEntry : Pc N → Prop
  | .writeLoop _ _ => True
  | .readWait _ => True
  | .close _ => True
  | _ => False

/-- What may follow a call of `wakeup`. -/
def Pc.isNext : Pc N → Bool
  | .writeDone _ _ => true
  | .sleepLock _ _ => true
  | .release => true
  | _ => false

/-- The reason to sleep on a channel. -/
def Blocked (e : Ends) : Chan → Prop
  | .nread => e.nread = e.nwrite ∧ e.writeopen = true
  | .nwrite => e.nwrite = uint (e.nread + PIPESIZE) ∧ e.readopen = true

/-- What a process knows where it stands, from the tests it has made under the lock. -/
def Known (e : Ends) : Pc N → Prop
  | .acquire k => k.isEntry
  | .writeFull _ _ => e.readopen = true
  | .writeCopy _ _ => e.nwrite ≠ uint (e.nread + PIPESIZE)
  | .readKilled _ => Blocked e .nread
  | .wakeup _ _ k => k.isNext = true ∧ Known e k
  | .sleepLock c k => Blocked e c ∧ k.isEntry
  | .sleepRelease c k => Blocked e c ∧ k.isEntry
  | .sleepSched _ k => k.isEntry
  | .asleep _ k => k.isEntry
  | _ => True

/-- What an unfinished write has read from its source. -/
def Pc.progress : Pc N → List (Option UInt8)
  | .acquire k => k.progress
  | .writeLoop b i => b.take i
  | .writeCheck b i => b.take i
  | .writeFull b i => b.take i
  | .writeCopy b i => b.take i
  | .writeFail b i => b.take i
  | .writeDone b i => b.take i
  | .wakeup _ _ k => k.progress
  | .sleepLock _ k => k.progress
  | .sleepRelease _ k => k.progress
  | .sleepSched _ k => k.progress
  | .asleep _ k => k.progress
  | _ => []

variable {k k₀ : Pc N} {b : Source} {i : ℕ}

/-- A process without the lock knows nothing about the pipe. -/
theorem Known.congr {e e' : Ends} (hk : k.holding = false) (h : Known e k) : Known e' k := by
  cases k <;> first | exact h | cases hk

theorem Pc.isEntry.holding (h : k.isEntry) : k.holding = true := by
  cases k <;> first | rfl | cases h

theorem Pc.holding_of_isNext (h : k.isNext = true) : k.holding = true := by
  cases k <;> first | rfl | cases h

theorem Pc.isEntry.known (h : k.isEntry) (e : Ends) : Known e k := by
  cases k <;> trivial

theorem isEntry_entry (c : Call) : (c.entry : Pc N).isEntry := by
  cases c <;> trivial

theorem progress_entry (c : Call) : (c.entry : Pc N).progress = [] := by
  cases c <;> rfl

/-! ## The ring -/

/-- The pipe holds what has been put in and not yet taken out. -/
structure RingOk (e : Ends) (put taken : List UInt8) : Prop where
  nread : e.nread = uint taken.length
  nwrite : e.nwrite = uint put.length
  lo : taken.length ≤ put.length
  hi : put.length ≤ taken.length + PIPESIZE
  queue : put = taken ++ contents PIPESIZE e.data taken.length put.length

theorem PIPESIZE_lt : PIPESIZE < 2 ^ 32 := by decide

theorem PIPESIZE_dvd : PIPESIZE ∣ 2 ^ 32 := by decide

theorem uint_succ (n : ℕ) : uint (uint n + 1) = uint (n + 1) := Nat.mod_add_mod n _ 1

namespace RingOk

variable {e : Ends} {put taken : List UInt8}

theorem empty_iff (h : RingOk e put taken) : e.nread = e.nwrite ↔ taken.length = put.length := by
  rw [h.nread, h.nwrite]
  exact Ring.empty_iff PIPESIZE_lt h.lo h.hi

theorem full_iff (h : RingOk e put taken) :
    e.nwrite = uint (e.nread + PIPESIZE) ↔ put.length = taken.length + PIPESIZE := by
  rw [h.nread, h.nwrite]
  exact Ring.full_iff PIPESIZE_lt h.lo h.hi

theorem push (h : RingOk e put taken) (hfull : e.nwrite ≠ uint (e.nread + PIPESIZE)) (ch : UInt8) :
    RingOk (e.push ch) (put ++ [ch]) taken := by
  have hlt : put.length < taken.length + PIPESIZE := by
    have := mt h.full_iff.mpr hfull
    have := h.hi
    omega
  have hslot : e.nwrite % PIPESIZE = put.length % PIPESIZE := by
    rw [h.nwrite]
    exact mod_mod_slot PIPESIZE_dvd _
  have hlen : (put ++ [ch]).length = put.length + 1 := List.length_append
  constructor
  · exact h.nread
  · show uint (e.nwrite + 1) = _
    rw [hlen, h.nwrite, uint_succ]
  · rw [hlen]
    exact Nat.le_succ_of_le h.lo
  · rw [hlen]
    exact hlt
  · rw [hlen, Ends.push, hslot, contents_push ch h.lo hlt, ← List.append_assoc, ← h.queue]

theorem pop (h : RingOk e put taken) (hempty : e.nread ≠ e.nwrite) :
    RingOk { e with nread := uint (e.nread + 1) } put
      (taken ++ [e.data (e.nread % PIPESIZE)]) := by
  have hlt : taken.length < put.length := by
    have := mt h.empty_iff.mpr hempty
    have := h.lo
    omega
  have hslot : e.nread % PIPESIZE = taken.length % PIPESIZE := by
    rw [h.nread]
    exact mod_mod_slot PIPESIZE_dvd _
  have hlen : (taken ++ [e.data (e.nread % PIPESIZE)]).length = taken.length + 1 :=
    List.length_append
  constructor
  · show uint (e.nread + 1) = _
    rw [hlen, h.nread, uint_succ]
  · exact h.nwrite
  · rw [hlen]
    exact hlt
  · rw [hlen]
    have := h.hi
    omega
  · rw [hlen, hslot, List.append_assoc, List.singleton_append, ← contents_pop hlt]
    exact h.queue

/-- The flags play no part. -/
theorem shut (h : RingOk e put taken) (writable : Bool) : RingOk (e.shut writable) put taken := by
  cases writable <;> exact ⟨h.nread, h.nwrite, h.lo, h.hi, h.queue⟩

end RingOk

/-! ## The invariant -/

/-- The bytes a process has put into the pipe. -/
def bytesOf (put : List (Fin N × UInt8)) (p : Fin N) : List (Option UInt8) :=
  (put.filter fun x => x.1 = p).map fun x => some x.2

structure Inv (s : St N) : Prop where
  lock : ∀ p, s.holder = some p ↔ (s.pc p).holding = true
  known : ∀ p, Known s.pipe (s.pc p)
  ring : RingOk s.pipe (s.put.map Prod.snd) s.taken
  order : ∀ p, bytesOf s.put p = s.sent p ++ (s.pc p).progress

theorem inv_start (N : ℕ) (data : ℕ → UInt8) : Inv (start N data) where
  lock p := by
    constructor
    · intro h
      cases h
    · intro h
      cases h
  known p := trivial
  ring := ⟨rfl, rfl, le_rfl, Nat.zero_le _, rfl⟩
  order p := rfl

/-- Only one process is at a place where it holds the lock. -/
theorem Inv.alone (h : Inv s) (hp : (s.pc p).holding = true) (hq : q ≠ p) :
    (s.pc q).holding = false := by
  by_contra hhold
  rw [Bool.not_eq_false] at hhold
  have := ((h.lock q).mpr hhold).symm.trans ((h.lock p).mpr hp)
  exact hq (Option.some.inj this)

/-- The lock after a step of `p` to `k`: only `p` may have taken or released it. -/
def LockMoves (s t : St N) (p : Fin N) (k : Pc N) : Prop :=
  (t.holder = some p ↔ k.holding = true) ∧ ∀ q ≠ p, t.holder = some q ↔ s.holder = some q

/-- **Steps of one process.**  The others stay where they are, and the pipe changes only
when the process holds the lock. -/
theorem Inv.of_step (h : Inv s) (hpc : t.pc = update s.pc p k) (hlock : LockMoves s t p k)
    (hknown : Known t.pipe k) (hpipe : t.pipe = s.pipe ∨ (s.pc p).holding = true)
    (hring : RingOk t.pipe (t.put.map Prod.snd) t.taken)
    (hself : bytesOf t.put p = t.sent p ++ k.progress)
    (hothers : ∀ q ≠ p, bytesOf t.put q = bytesOf s.put q ∧ t.sent q = s.sent q) : Inv t where
  lock q := by
    rw [hpc]
    by_cases hq : q = p
    · rw [hq, update_self]
      exact hlock.1
    · rw [update_of_ne hq, hlock.2 q hq]
      exact h.lock q
  known q := by
    rw [hpc]
    by_cases hq : q = p
    · rw [hq, update_self]
      exact hknown
    · rw [update_of_ne hq]
      rcases hpipe with heq | hhold
      · rw [heq]
        exact h.known q
      · exact (h.known q).congr (h.alone hhold hq)
  ring := hring
  order q := by
    rw [hpc]
    by_cases hq : q = p
    · rw [hq, update_self]
      exact hself
    · rw [update_of_ne hq, (hothers q hq).1, (hothers q hq).2]
      exact h.order q

/-- Steps that only change where the process stands, and perhaps the lock. -/
theorem Inv.move (h : Inv s) (hpc : t.pc = update s.pc p k)
    (hsame : t.pipe = s.pipe ∧ t.put = s.put ∧ t.taken = s.taken ∧ t.sent = s.sent)
    (hlock : LockMoves s t p k) (hknown : Known s.pipe k)
    (hprog : k.progress = (s.pc p).progress) : Inv t := by
  obtain ⟨hpipe, hput, htaken, hsent⟩ := hsame
  apply h.of_step hpc hlock
  · rw [hpipe]
    exact hknown
  · exact Or.inl hpipe
  · rw [hpipe, hput, htaken]
    exact h.ring
  · rw [hput, hsent, hprog]
    exact h.order p
  · intro q _
    rw [hput, hsent]
    exact ⟨rfl, rfl⟩

/-! ## Steps -/

/-- A step that keeps the lock. -/
theorem LockMoves.keep (h : Inv s) (hp : (s.pc p).holding = true) (hk : k.holding = true)
    (hholder : t.holder = s.holder) : LockMoves s t p k := by
  constructor
  · rw [hholder]
    exact ⟨fun _ => hk, fun _ => (h.lock p).mpr hp⟩
  · intro q _
    rw [hholder]

/-- A step of a process that does not have the lock. -/
theorem LockMoves.without (h : Inv s) (hp : (s.pc p).holding = false) (hk : k.holding = false)
    (hholder : t.holder = s.holder) : LockMoves s t p k := by
  constructor
  · rw [hholder, h.lock p, hp, hk]
  · intro q _
    rw [hholder]

/-- A step that releases the lock. -/
theorem LockMoves.release (h : Inv s) (hp : (s.pc p).holding = true) (hk : k.holding = false)
    (hholder : t.holder = none) : LockMoves s t p k := by
  constructor
  · rw [hholder, hk]
    constructor <;> intro hc <;> cases hc
  · intro q hq
    rw [hholder, (h.lock p).mpr hp]
    constructor
    · intro hc
      cases hc
    · intro hc
      exact absurd (Option.some.inj hc).symm hq

/-- A step that takes the lock. -/
theorem LockMoves.acquire (hfree : s.holder = none) (hk : k.holding = true)
    (hholder : t.holder = some p) : LockMoves s t p k := by
  constructor
  · exact ⟨fun _ => hk, fun _ => hholder⟩
  · intro q hq
    rw [hholder, hfree]
    constructor
    · intro hc
      exact absurd (Option.some.inj hc).symm hq
    · intro hc
      cases hc

/-- The process goes on under the lock. -/
theorem Inv.goto (h : Inv s) (hpc : s.pc p = k₀) (hp : k₀.holding = true) (hk : k.holding = true)
    (hknown : Known s.pipe k) (hprog : k.progress = k₀.progress) : Inv (s.goto p k) := by
  subst hpc
  exact h.move rfl ⟨rfl, rfl, rfl, rfl⟩ (LockMoves.keep h hp hk rfl) hknown hprog

theorem Inv.wake {c : Chan} (h : Inv s) (hpc : s.pc p = k₀) (hp : k₀.holding = true)
    (hk : k.isNext = true) (hknown : Known s.pipe k)
    (hprog : k.progress = k₀.progress) : Inv (s.wake p c k) :=
  h.goto hpc hp rfl ⟨hk, hknown⟩ hprog

/-- Changes in the process table do not matter. -/
theorem Inv.setProc (h : Inv s) (proc : Fin N → Slot) : Inv { s with proc } :=
  ⟨h.lock, h.known, h.ring, h.order⟩

theorem Inv.leave (h : Inv s) (hp : (s.pc p).holding = true) (hprog : (s.pc p).progress = []) :
    Inv (s.leave p) :=
  h.move rfl ⟨rfl, rfl, rfl, rfl⟩ (LockMoves.release h hp rfl rfl) trivial hprog.symm

theorem Inv.leaveWrite (h : Inv s) (hp : (s.pc p).holding = true)
    (hprog : (s.pc p).progress = b.take i) : Inv (s.leaveWrite p b i) := by
  refine h.of_step rfl (LockMoves.release h hp rfl rfl) trivial (Or.inl rfl) h.ring ?_ ?_
  · show bytesOf s.put p = update s.sent p _ p ++ []
    rw [h.order p, update_self, hprog, List.append_nil]
  · intro q hq
    exact ⟨rfl, update_of_ne hq _ _⟩

theorem bytesOf_append (put : List (Fin N × UInt8)) (p q : Fin N) (ch : UInt8) :
    bytesOf (put ++ [(p, ch)]) q = bytesOf put q ++ if p = q then [some ch] else [] := by
  rw [bytesOf, List.filter_append, List.map_append]
  congr 1
  by_cases hq : p = q <;> simp [hq]

theorem Source.take_succ (b : Source) (i : ℕ) : b.take (i + 1) = b.take i ++ [b.byte i] := by
  rw [Source.take, List.range_succ, List.map_append]
  rfl

/-- **A byte is put in.** -/
theorem Inv.push {ch : UInt8} (h : Inv s) (hpc : s.pc p = .writeCopy b i)
    (hch : b.byte i = some ch) : Inv ((s.push p ch).goto p (.writeLoop b (i + 1))) := by
  have hp : (s.pc p).holding = true := by rw [hpc]; rfl
  have hfull := h.known p
  rw [hpc] at hfull
  refine h.of_step rfl (LockMoves.keep h hp rfl rfl) trivial (Or.inr hp) ?_ ?_ ?_
  · show RingOk (s.pipe.push ch) ((s.put ++ [(p, ch)]).map Prod.snd) s.taken
    rw [List.map_append]
    exact h.ring.push hfull ch
  · show bytesOf (s.put ++ [(p, ch)]) p = s.sent p ++ b.take (i + 1)
    rw [bytesOf_append, if_pos rfl, h.order p, hpc, List.append_assoc, Source.take_succ, hch]
    rfl
  · intro q hq
    refine ⟨?_, rfl⟩
    show bytesOf (s.put ++ [(p, ch)]) q = _
    rw [bytesOf_append, if_neg (Ne.symm hq), List.append_nil]

/-- **A byte is taken out.** -/
theorem Inv.pop {b : Dest} (h : Inv s) (hpc : s.pc p = .readCopy b i)
    (hempty : s.pipe.nread ≠ s.pipe.nwrite) (hk : k.holding = true) (hknown : ∀ e, Known e k)
    (hprog : k.progress = []) : Inv (s.pop.goto p k) := by
  have hp : (s.pc p).holding = true := by rw [hpc]; rfl
  refine h.of_step rfl (LockMoves.keep h hp hk rfl) (hknown _) (Or.inr hp) (h.ring.pop hempty) ?_ ?_
  · rw [hprog]
    have horder := h.order p
    rw [hpc] at horder
    exact horder
  · intro q _
    exact ⟨rfl, rfl⟩

theorem Inv.shut {writable : Bool} (h : Inv s) (hpc : s.pc p = .close writable) (c : Chan) :
    Inv ({ s with pipe := s.pipe.shut writable }.wake p c .release) := by
  have hp : (s.pc p).holding = true := by rw [hpc]; rfl
  refine h.of_step rfl (LockMoves.keep h hp rfl rfl) ⟨rfl, trivial⟩ (Or.inr hp)
    (h.ring.shut writable) ?_ ?_
  · have horder := h.order p
    rw [hpc] at horder
    exact horder
  · intro q _
    exact ⟨rfl, rfl⟩

theorem inv_acquire (h : Inv s) (hpc : s.pc p = .acquire k) (hfree : s.holder = none) :
    Inv { s.goto p k with holder := some p, stored := 0 } := by
  have hk := h.known p
  rw [hpc] at hk
  refine h.move rfl ⟨rfl, rfl, rfl, rfl⟩ (LockMoves.acquire hfree hk.holding rfl) (hk.known _) ?_
  rw [hpc, Pc.progress]

/-- **One step of a process** keeps the invariant. -/
theorem inv_advance (h : Inv s) (hstep : advance s p = some t) : Inv t := by
  have hknown := h.known p
  cases hpc : s.pc p <;> rw [hpc] at hknown <;> simp only [advance, hpc] at hstep
  case idle => cases hstep
  case acquire k =>
    split_ifs at hstep with hfree
    cases hstep
    exact inv_acquire h hpc hfree
  case writeLoop b i =>
    split_ifs at hstep <;> cases hstep
    · exact h.goto hpc rfl rfl trivial rfl
    · exact h.wake hpc rfl rfl trivial rfl
  case writeCheck b i =>
    split_ifs at hstep with hc <;> cases hstep
    · exact h.goto hpc rfl rfl trivial rfl
    · rw [not_or, Bool.not_eq_false] at hc
      exact h.goto hpc rfl rfl hc.1 rfl
  case writeFull b i =>
    split_ifs at hstep with hfull <;> cases hstep
    · exact h.wake hpc rfl rfl ⟨⟨hfull, hknown⟩, trivial⟩ rfl
    · exact h.goto hpc rfl rfl hfull rfl
  case writeCopy b i =>
    cases hch : b.byte i with
    | none =>
      rw [hch] at hstep
      cases hstep
      exact h.wake hpc rfl rfl trivial rfl
    | some ch =>
      rw [hch] at hstep
      cases hstep
      exact h.push hpc hch
  case writeFail b i =>
    cases hstep
    exact h.leaveWrite (by rw [hpc]; rfl) (by rw [hpc]; rfl)
  case writeDone b i =>
    cases hstep
    exact h.leaveWrite (by rw [hpc]; rfl) (by rw [hpc]; rfl)
  case readWait b =>
    split_ifs at hstep with hc <;> cases hstep
    · exact h.goto hpc rfl rfl hc rfl
    · exact h.goto hpc rfl rfl trivial rfl
  case readKilled b =>
    split_ifs at hstep <;> cases hstep
    · exact h.goto hpc rfl rfl trivial rfl
    · exact h.goto hpc rfl rfl ⟨hknown, trivial⟩ rfl
  case readCopy b i =>
    split_ifs at hstep with hi hempty <;> cases hstep
    · exact h.wake hpc rfl rfl trivial rfl
    · exact h.pop hpc hempty rfl (fun _ => trivial) rfl
    · exact h.pop hpc hempty rfl (fun _ => ⟨rfl, trivial⟩) rfl
    · exact h.wake hpc rfl rfl trivial rfl
  case close writable =>
    cases hstep
    exact h.shut hpc _
  case release =>
    cases hstep
    exact h.leave (by rw [hpc]; rfl) (by rw [hpc]; rfl)
  case wakeup c todo k =>
    cases todo with
    | nil =>
      cases hstep
      exact h.goto hpc rfl (Pc.holding_of_isNext hknown.1) hknown.2 rfl
    | cons q todo =>
      have hgoto : Inv (s.goto p (.wakeup c todo k)) := h.goto hpc rfl rfl hknown rfl
      simp only at hstep
      split_ifs at hstep <;> cases hstep
      · exact hgoto
      · exact hgoto.setProc _
  case sleepLock c k =>
    cases hstep
    have hgoto : Inv (s.goto p (.sleepRelease c k)) := h.goto hpc rfl rfl hknown rfl
    exact hgoto.setProc _
  case sleepRelease c k =>
    cases hstep
    refine h.move rfl ⟨rfl, rfl, rfl, rfl⟩ (LockMoves.release h ?_ rfl rfl) hknown.2 ?_ <;>
      rw [hpc] <;> rfl
  case sleepSched c k =>
    cases hstep
    refine h.move rfl ⟨rfl, rfl, rfl, rfl⟩ (LockMoves.without h ?_ rfl rfl) hknown ?_ <;>
      rw [hpc] <;> rfl
  case asleep c k =>
    split_ifs at hstep
    cases hstep
    refine h.move rfl ⟨rfl, rfl, rfl, rfl⟩ (LockMoves.without h ?_ rfl rfl) hknown ?_ <;>
      rw [hpc] <;> rfl

theorem eq_idle (h : k.isIdle = true) : k = .idle := by
  cases k <;> first | rfl | cases h

theorem inv_call {c : Call} (h : Inv s) (hidle : (s.pc p).isIdle = true) :
    Inv (s.goto p (.acquire c.entry)) := by
  have hpc := eq_idle hidle
  refine h.move rfl ⟨rfl, rfl, rfl, rfl⟩ (LockMoves.without h ?_ rfl rfl) (isEntry_entry c) ?_
  · rw [hpc]
    rfl
  · rw [hpc, Pc.progress, progress_entry]
    rfl

theorem inv_step (a : Act N) (h : Inv s) (hstep : step s a = some t) : Inv t := by
  cases a with
  | call p c =>
    rw [step] at hstep
    split_ifs at hstep with hidle
    cases hstep
    exact inv_call h hidle
  | advance p => exact inv_advance h hstep
  | kill p =>
    rw [step] at hstep
    split_ifs at hstep
    cases hstep
    exact h.setProc _

/-! ## The queue -/

/-- The bytes in the pipe, from the counters as they are stored. -/
def Ends.queue (e : Ends) : List UInt8 :=
  (List.range (uint (e.nwrite + 2 ^ 32 - e.nread))).map fun k =>
    e.data (uint (e.nread + k) % PIPESIZE)

theorem RingOk.used {e : Ends} {put taken : List UInt8} (h : RingOk e put taken) :
    uint (e.nwrite + 2 ^ 32 - e.nread) = put.length - taken.length := by
  rw [h.nread, h.nwrite]
  exact stored_sub PIPESIZE_lt h.lo h.hi

theorem RingOk.queue_eq {e : Ends} {put taken : List UInt8} (h : RingOk e put taken) :
    e.queue = contents PIPESIZE e.data taken.length put.length := by
  rw [Ends.queue, h.used, contents]
  refine List.map_congr_left fun k _ => ?_
  rw [h.nread, uint, uint, Nat.mod_add_mod, mod_mod_slot PIPESIZE_dvd]

/-- **A pipe is a queue.**  In every state of every run at most `PIPESIZE` bytes are in
the pipe; the bytes put in are those taken out followed by those in the pipe, so nothing
is lost, overwritten or taken twice; and the bytes of each process are those it has read
from its sources, in this order. -/
theorem pipe_fifo (N : ℕ) (data : ℕ → UInt8) (acts : List (Act N)) :
    Always step (fun s => uint (s.pipe.nwrite + 2 ^ 32 - s.pipe.nread) ≤ PIPESIZE ∧
      s.taken <+: s.put.map Prod.snd ∧ s.put.map Prod.snd = s.taken ++ s.pipe.queue ∧
      ∀ p, bytesOf s.put p = s.sent p ++ (s.pc p).progress) (start N data) acts := by
  refine always_of_step (fun s a t => inv_step a) (fun s h => ?_) acts _ (inv_start N data)
  have hqueue : s.put.map Prod.snd = s.taken ++ s.pipe.queue := by
    rw [h.ring.queue_eq]
    exact h.ring.queue
  refine ⟨?_, ⟨_, hqueue.symm⟩, hqueue, h.order⟩
  rw [h.ring.used]
  have := h.ring.hi
  omega

end Pipe

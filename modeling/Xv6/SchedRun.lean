/-
# The loop of scheduler, and every run

`Move` says what a step of the loop of `scheduler` can do, as `Turn` does for the rest of a
CPU: the loop takes a process on at `p->state = RUNNING`, gives its CPU to the thread at
`swtch`, and lets the process go after `swtch` has come back.  A move keeps the invariant
(`Inv.move`), so every step does (`Inv.step`).
-/
import Xv6.SchedInv

namespace Sched

open Function Transition

variable {M N : ℕ} {s t : St M N} {c : Fin M}

/-! ## Moves -/

/-- A step of the loop of `scheduler` at process `i`, after which the CPU is at `k`. -/
structure Move (s t : St M N) (c : Fin M) (i : Fin N) (k : Ctl N) : Prop where
  loop : ∃ l, s.ctl c = .sched [] l
  ctl : t.ctl = update s.ctl c k
  code : t.code = s.code
  chan : t.chan = s.chan
  locked : t.locked = s.locked
  doze : t.doze = s.doze
  next : k = .thread i ∧ t.state i = .RUNNING ∨ ∃ l, k = .sched [] l
  ok : CtlOk t c k
  lock : ∀ c' ≠ c, ∀ l, t.lock l = some c' ↔ s.lock l = some c'
  noff : ∀ c' ≠ c, t.noff c' = s.noff c'
  cproc : ∀ c' ≠ c, t.cproc c' = s.cproc c'
  context : ∀ c' ≠ c, t.context c' = s.context c'
  same : ∀ q ≠ i, Same s t q
  held : Same s t i ∨ s.lock (.proc i) = some c ∧ k.engaged = some i ∧
    ((s.ctl c).engaged = some i ∧ t.state i = s.state i ∨
      s.state i = .RUNNABLE ∧ t.state i = .RUNNING)
  engaged : k.engaged = (s.ctl c).engaged ∨
    (s.ctl c).engaged = none ∧ k.engaged = some i ∧ s.state i = .RUNNABLE ∧
      s.lock (.proc i) = some c ∨
    k.engaged = none ∧ (s.ctl c).engaged = some i ∧ Parked t i

variable {i : Fin N} {k : Ctl N}

theorem Move.ctl_self (hm : Move s t c i k) : t.ctl c = k := by
  rw [hm.ctl, update_self]

variable {c' : Fin M} {q p : Fin N} {new : Code N} {act : Act M}

theorem Move.ctl_of_ne (hm : Move s t c i k) (hc : c' ≠ c) : t.ctl c' = s.ctl c' := by
  rw [hm.ctl, update_of_ne hc]

/-- A `RUNNABLE` process whose lock the CPU holds is relied on by no other. -/
theorem Inv.untaken (h : Inv s) (hst : s.state i = .RUNNABLE) (hlock : s.lock (.proc i) = some c)
    (hq : (s.ctl c').watches = some i) : c' = c := by
  rcases (h.cpu c').watching hq with hl | ⟨-, hrun⟩
  · exact Option.some.inj (hl.symm.trans hlock)
  · rw [hst] at hrun
    cases hrun

/-- The processes that the other CPUs rely on are left alone. -/
theorem Move.watched (h : Inv s) (hm : Move s t c i k) (hc : c' ≠ c)
    (hq : (s.ctl c').watches = some q) : Same s t q := by
  by_cases hqi : q = i
  · subst hqi
    rcases hm.held with hsame | ⟨hlock, -, ⟨heng, -⟩ | ⟨hst, -⟩⟩
    · exact hsame
    · exact absurd (h.sole heng hq) hc
    · exact absurd (h.untaken hst hlock hq) hc
  · exact hm.same q hqi

/-- Nobody else has taken on the process that a move takes on. -/
theorem Move.apart (h : Inv s) (hm : Move s t c i k) (hc : c' ≠ c)
    (hp : k.engaged = some p) : (s.ctl c').engaged ≠ some p := by
  intro hq
  rcases hm.engaged with heq | ⟨-, hi, hst, hlock⟩ | ⟨hnone, -⟩
  · exact hc (h.apart c' c p hq (heq ▸ hp))
  · cases hi.symm.trans hp
    exact hc (h.untaken hst hlock (Ctl.watches_of_engaged hq))
  · cases hnone.symm.trans hp

/-- A process that no CPU has taken on after a move is parked. -/
theorem Move.parked (h : Inv s) (hm : Move s t c i k)
    (hp : ∀ c', (t.ctl c').engaged ≠ some p) : Parked t p := by
  have hk : k.engaged ≠ some p := by
    rw [← hm.ctl_self]
    exact hp c
  by_cases hown : (s.ctl c).engaged = some p
  · rcases hm.engaged with heq | ⟨hnone, -⟩ | ⟨-, hi, hpark⟩
    · exact absurd (heq.trans hown) hk
    · cases hnone.symm.trans hown
    · cases hi.symm.trans hown
      exact hpark
  · have hoff := h.off p fun c' hc' => by
      by_cases hc : c' = c
      · exact hown (hc ▸ hc')
      · exact hp c' (by rw [hm.ctl_of_ne hc]; exact hc')
    by_cases hpi : p = i
    · subst hpi
      rcases hm.held with hsame | ⟨-, heng, -⟩
      · exact hsame.parked hoff
      · exact absurd heng hk
    · exact (hm.same p hpi).parked hoff

/-- The code of the thread that a move gives the CPU to. -/
theorem Move.deep (h : Inv s) (hm : Move s t c i k) (hk : k = .thread i) :
    ∀ j ∈ s.code i, j.Deep := by
  refine h.still i fun c' hc' => ?_
  have heng : k.engaged = some i := by rw [hk]; rfl
  by_cases hc : c' = c
  · obtain ⟨l, hl⟩ := hm.loop
    rw [hc, hl] at hc'
    cases hc'
  · exact hm.apart h hc heng (by rw [hc']; rfl)

theorem Move.cur_self (hm : Move s t c i k) :
    t.cur c = [] ∨ k = .thread i ∧ t.state i = .RUNNING ∧ t.cur c = s.code i := by
  rw [St.cur, hm.ctl_self]
  rcases hm.next with ⟨rfl, hst⟩ | ⟨l, rfl⟩
  · exact .inr ⟨rfl, hst, by rw [hm.code]⟩
  · exact .inl rfl

theorem Move.cur_of_ne (hm : Move s t c i k) (hc : c' ≠ c) : t.cur c' = s.cur c' := by
  rw [St.cur, St.cur, hm.ctl_of_ne hc, hm.code]

/-- What is owed is still `USED` after a move. -/
theorem Move.used (h : Inv s) (hm : Move s t c i k)
    (hpos : 0 < ∑ p, owed q (s.code p)) : t.state q = .USED := by
  have hst := h.used q hpos
  by_cases hq : q = i
  · subst hq
    rcases hm.held with hsame | ⟨-, -, ⟨-, heq⟩ | ⟨hrun, -⟩⟩
    · exact hsame.state.trans hst
    · exact heq.trans hst
    · rw [hst] at hrun
      cases hrun
  · exact (hm.same q hq).state.trans hst

/-- **A move keeps the invariant.** -/
theorem Inv.move (h : Inv s) (hm : Move s t c i k) : Inv t := by
  have hused : ∀ q, 0 < ∑ p, owed q (t.code p) → t.state q = .USED := by
    intro q hpos
    rw [hm.code] at hpos
    exact hm.used h hpos
  refine ⟨?_, ?_, fun p => hm.parked h, ?_, ?_, ?_, ?_, hused⟩
  · intro c'
    by_cases hc : c' = c
    · rw [hc, hm.ctl_self]
      exact hm.ok
    · rw [hm.ctl_of_ne hc]
      exact (h.cpu c').frame (hm.lock c' hc) (hm.noff c' hc) (hm.cproc c' hc) (hm.context c' hc)
        fun q => hm.watched h hc
  · intro c' c'' p h' h''
    by_cases hc' : c' = c
    · by_cases hc'' : c'' = c
      · rw [hc', hc'']
      · rw [hc', hm.ctl_self] at h'
        rw [hm.ctl_of_ne hc''] at h''
        exact absurd h'' (hm.apart h hc'' h')
    · rw [hm.ctl_of_ne hc'] at h'
      by_cases hc'' : c'' = c
      · rw [hc'', hm.ctl_self] at h''
        exact absurd h' (hm.apart h hc' h'')
      · rw [hm.ctl_of_ne hc''] at h''
        exact h.apart c' c'' p h' h''
  · intro c' j hj
    by_cases hc : c' = c
    · rw [hc] at hj
      rcases hm.cur_self with hcur | ⟨hk, -, hcur⟩
      · rw [hcur] at hj
        exact absurd hj List.not_mem_nil
      · rw [hcur] at hj
        exact hm.deep h hk j (List.mem_of_mem_tail hj)
    · rw [hm.cur_of_ne hc] at hj
      exact h.deep c' j hj
  · intro p hp
    rw [hm.code]
    refine h.still p fun c' hc' => ?_
    by_cases hc : c' = c
    · obtain ⟨l, hl⟩ := hm.loop
      rw [hc, hl] at hc'
      cases hc'
    · exact hp c' ((hm.ctl_of_ne hc).trans hc')
  · intro c' q sts hq
    by_cases hc : c' = c
    · rw [hc] at hq
      rcases hm.cur_self with hcur | ⟨hk, hst, hcur⟩
      · rw [hcur] at hq
        cases hq
      · -- a thread off the CPUs relies on a child it owes, whose state it keeps `USED`
        rw [hcur] at hq
        obtain ⟨hpos, rfl⟩ := head_wants (hm.deep h hk) hq
        rw [hm.used h (Nat.lt_of_lt_of_le hpos (owed_le_sum s i q))]
        exact List.mem_singleton_self _
    · rw [hm.cur_of_ne hc] at hq
      have hmem := h.heads c' q sts hq
      have hsame : Same s t q := by
        by_cases hqi : q = i
        · subst hqi
          rcases hm.held with hsame | ⟨hlock, -⟩
          · exact hsame
          · exact absurd (Option.some.inj ((h.heads_held hq).symm.trans hlock)) hc
        · exact hm.same q hqi
      rw [hsame.state]
      exact hmem
  · intro q
    rw [hm.code]
    exact h.once q

/-! ## The loop -/

theorem some_ne_of_ne (hc : c' ≠ c) : some c ≠ some c' :=
  fun heq => hc (Option.some.inj heq).symm

/-- At `acquire(&p->lock)`. -/
theorem Inv.loop_next (h : Inv s) (hctl : s.ctl c = .sched [] (.next i))
    (hx : loop s c (.next i) = some t) : Move s t c i (.sched [] (.check i)) := by
  have hok := h.cpu c
  rw [hctl] at hok
  obtain ⟨H, hsees, hheld, -⟩ := hok
  cases hheld
  rw [loop] at hx
  split at hx
  · rename_i hlock
    exact absurd ((hsees.held _).mp hlock) List.not_mem_nil
  split at hx
  · rename_i hfree
    cases hx
    refine ⟨⟨_, hctl⟩, rfl, rfl, rfl, rfl, rfl, .inr ⟨_, rfl⟩, ⟨rfl, hsees.cproc, ?_⟩, ?_,
      fun c' hc => update_of_ne hc _ _, fun _ _ => rfl, fun _ _ => rfl,
      fun _ _ => ⟨rfl, rfl, rfl⟩, .inl ⟨rfl, rfl, rfl⟩, .inl ?_⟩
    · have hlocks : Locks (s.goto c (.check i)) c [] := ⟨hsees.nodup, hsees.held, hsees.noff⟩
      exact hlocks.acquire List.not_mem_nil
    · intro c' hc l
      have hne : s.lock (.proc i) ≠ some c' := by
        rw [hfree]
        exact (Option.some_ne_none c').symm
      exact locks_update (some_ne_of_ne hc) hne l
    · rw [hctl]
      rfl
  · cases hx

/-- At `if(p->state == RUNNABLE)`. -/
theorem Inv.loop_check (h : Inv s) (hctl : s.ctl c = .sched [] (.check i))
    (hx : loop s c (.check i) = some t) : ∃ k, Move s t c i k := by
  have hok := h.cpu c
  rw [hctl] at hok
  obtain ⟨-, hcproc, hlocks⟩ := hok
  cases hx
  have hlocks' : ∀ l, Locks (s.goto c l) c [.proc i] := fun l =>
    ⟨hlocks.nodup, hlocks.held, hlocks.noff⟩
  by_cases hst : s.state i = .RUNNABLE
  · rw [if_pos hst]
    refine ⟨_, ⟨_, hctl⟩, rfl, rfl, rfl, rfl, rfl, .inr ⟨_, rfl⟩, ⟨rfl, hcproc, hlocks' _, hst⟩,
      fun _ _ _ => Iff.rfl, fun _ _ => rfl, fun _ _ => rfl, fun _ _ => rfl,
      fun _ _ => ⟨rfl, rfl, rfl⟩, .inl ⟨rfl, rfl, rfl⟩, .inl ?_⟩
    rw [hctl]
    rfl
  · rw [if_neg hst]
    refine ⟨_, ⟨_, hctl⟩, rfl, rfl, rfl, rfl, rfl, .inr ⟨_, rfl⟩, ⟨rfl, hcproc, hlocks' _⟩,
      fun _ _ _ => Iff.rfl, fun _ _ => rfl, fun _ _ => rfl, fun _ _ => rfl,
      fun _ _ => ⟨rfl, rfl, rfl⟩, .inl ⟨rfl, rfl, rfl⟩, .inl ?_⟩
    rw [hctl]
    rfl

/-- At `p->state = RUNNING`: the CPU takes the process on. -/
theorem Inv.loop_setState (h : Inv s) (hctl : s.ctl c = .sched [] (.setState i))
    (hx : loop s c (.setState i) = some t) : Move s t c i (.sched [] (.setProc i)) := by
  have hok := h.cpu c
  rw [hctl] at hok
  obtain ⟨-, hcproc, hlocks, hst⟩ := hok
  have hlock : s.lock (.proc i) = some c := (hlocks.held _).mpr (List.mem_singleton_self _)
  have hpark : Parked s i := h.off i fun c' heng => by
    obtain rfl := h.untaken hst hlock (Ctl.watches_of_engaged heng)
    rw [hctl] at heng
    cases heng
  have hself : update s.state i .RUNNING i = .RUNNING := update_self _ _ _
  cases hx
  refine ⟨⟨_, hctl⟩, rfl, rfl, rfl, rfl, rfl, .inr ⟨_, rfl⟩, ?_, fun _ _ _ => Iff.rfl,
    fun _ _ => rfl, fun _ _ => rfl, fun _ _ => rfl, ?_, .inr ⟨hlock, rfl, .inr ⟨hst, hself⟩⟩, ?_⟩
  · exact ⟨rfl, hcproc, ⟨hlocks.nodup, hlocks.held, hlocks.noff⟩, hself,
      hpark.resumable (.inl hst)⟩
  · exact fun q hq => ⟨update_of_ne hq _ _, rfl, rfl⟩
  · refine .inr (.inl ⟨?_, rfl, hst, hlock⟩)
    rw [hctl]
    rfl

/-- At `c->proc = p`. -/
theorem Inv.loop_setProc (h : Inv s) (hctl : s.ctl c = .sched [] (.setProc i))
    (hx : loop s c (.setProc i) = some t) : Move s t c i (.sched [] (.save i)) := by
  have hok := h.cpu c
  rw [hctl] at hok
  obtain ⟨-, -, hlocks, hst, hres⟩ := hok
  cases hx
  refine ⟨⟨_, hctl⟩, rfl, rfl, rfl, rfl, rfl, .inr ⟨_, rfl⟩, ?_, fun _ _ _ => Iff.rfl,
    fun _ _ => rfl, fun c' hc => update_of_ne hc _ _, fun _ _ => rfl,
    fun _ _ => ⟨rfl, rfl, rfl⟩, .inl ⟨rfl, rfl, rfl⟩, .inl ?_⟩
  · exact ⟨rfl, update_self _ _ _, ⟨hlocks.nodup, hlocks.held, hlocks.noff⟩, hst, hres⟩
  · rw [hctl]
    rfl

/-- At `swtch`, which saves the registers of the scheduler. -/
theorem Inv.loop_save (h : Inv s) (hctl : s.ctl c = .sched [] (.save i))
    (hx : loop s c (.save i) = some t) : Move s t c i (.sched [] (.load i)) := by
  have hok := h.cpu c
  rw [hctl] at hok
  obtain ⟨-, hcproc, hlocks, hst, hres⟩ := hok
  cases hx
  refine ⟨⟨_, hctl⟩, rfl, rfl, rfl, rfl, rfl, .inr ⟨_, rfl⟩, ?_, fun _ _ _ => Iff.rfl,
    fun _ _ => rfl, fun _ _ => rfl, fun c' hc => update_of_ne hc _ _,
    fun _ _ => ⟨rfl, rfl, rfl⟩, .inl ⟨rfl, rfl, rfl⟩, .inl ?_⟩
  · exact ⟨rfl, hcproc, ⟨hlocks.nodup, hlocks.held, hlocks.noff⟩, hst, hres,
      update_self _ _ _⟩
  · rw [hctl]
    rfl

/-- At `swtch`, which loads the registers of the process: they have been saved. -/
theorem Inv.loop_load (h : Inv s) (hctl : s.ctl c = .sched [] (.load i))
    (hx : loop s c (.load i) = some t) : Move s t c i (.thread i) := by
  have hok := h.cpu c
  rw [hctl] at hok
  obtain ⟨-, hcproc, hlocks, hst, ⟨hsaved, hwf⟩, hctx⟩ := hok
  have hlock : s.lock (.proc i) = some c := (hlocks.held _).mpr (List.mem_singleton_self _)
  have hself : update s.saved i false i = false := update_self _ _ _
  rw [loop, if_pos hsaved] at hx
  cases hx
  refine ⟨⟨_, hctl⟩, rfl, rfl, rfl, rfl, rfl, .inl ⟨rfl, hst⟩, ?_, fun _ _ _ => Iff.rfl,
    fun _ _ => rfl, fun _ _ => rfl, fun _ _ => rfl, ?_, .inr ⟨hlock, rfl, .inl ⟨?_, rfl⟩⟩, .inl ?_⟩
  · refine ⟨hctx, [.proc i], ?_, ?_⟩
    · refine ⟨⟨hlocks.nodup, hlocks.held, hlocks.noff⟩, hcproc, ?_, fun _ => hself, ?_⟩
      · intro p hp
        cases hp
        exact ⟨rfl, rfl⟩
      · exact fun hne => absurd hst hne
    · show Wf (some i) ⟨[.proc i], s.state i, update s.saved i false i⟩ (s.code i)
      rw [hst, hself]
      exact hwf
  · exact fun q hq => ⟨rfl, update_of_ne hq _ _, rfl⟩
  · rw [hctl]
    rfl
  · rw [hctl]
    rfl

/-- At `c->proc = 0`: the CPU lets the process go. -/
theorem Inv.loop_back (h : Inv s) (hctl : s.ctl c = .sched [] (.back i))
    (hx : loop s c (.back i) = some t) : Move s t c i (.sched [] (.release i)) := by
  have hok := h.cpu c
  rw [hctl] at hok
  obtain ⟨-, hcproc, hlocks, hpark⟩ := hok
  cases hx
  refine ⟨⟨_, hctl⟩, rfl, rfl, rfl, rfl, rfl, .inr ⟨_, rfl⟩, ?_, fun _ _ _ => Iff.rfl,
    fun _ _ => rfl, fun c' hc => update_of_ne hc _ _, fun _ _ => rfl,
    fun _ _ => ⟨rfl, rfl, rfl⟩, .inl ⟨rfl, rfl, rfl⟩, .inr (.inr ⟨rfl, ?_, hpark⟩)⟩
  · exact ⟨rfl, update_self _ _ _, ⟨hlocks.nodup, hlocks.held, hlocks.noff⟩⟩
  · rw [hctl]
    rfl

/-- At `release(&p->lock)`. -/
theorem Inv.loop_release (h : Inv s) (hctl : s.ctl c = .sched [] (.release i))
    (hx : loop s c (.release i) = some t) : Move s t c i (.sched [] (.next (nextProc i))) := by
  have hok := h.cpu c
  rw [hctl] at hok
  obtain ⟨-, hcproc, hlocks⟩ := hok
  have hlock : s.lock (.proc i) = some c := (hlocks.held _).mpr (List.mem_singleton_self _)
  rw [loop, if_pos hlock] at hx
  cases hx
  refine ⟨⟨_, hctl⟩, rfl, rfl, rfl, rfl, rfl, .inr ⟨_, rfl⟩, ?_, ?_,
    fun c' hc => update_of_ne hc _ _, fun _ _ => rfl, fun _ _ => rfl,
    fun _ _ => ⟨rfl, rfl, rfl⟩, .inl ⟨rfl, rfl, rfl⟩, .inl ?_⟩
  · have hlocks' := hlocks.release (t := (s.goto c (.next (nextProc i))).apply c
      (.release (.proc i))) (List.mem_singleton_self _) rfl rfl
    rw [List.erase_cons_head] at hlocks'
    exact ⟨[], ⟨hlocks', hcproc, fun q hq => (Option.some_ne_none q hq.symm).elim, fun _ => rfl,
      fun hne => absurd rfl hne⟩, rfl, rfl, rfl⟩
  · intro c' hc l
    have hne : s.lock (.proc i) ≠ some c' := by
      rw [hlock]
      exact some_ne_of_ne hc
    exact locks_update (Option.some_ne_none c').symm hne l
  · rw [hctl]
    rfl

/-- **A step of the loop is a move.** -/
theorem Inv.loop (h : Inv s) {l : Loop N} (hctl : s.ctl c = .sched [] l)
    (hx : loop s c l = some t) : ∃ i k, Move s t c i k := by
  cases l with
  | next i => exact ⟨i, _, h.loop_next hctl hx⟩
  | check i => exact ⟨i, h.loop_check hctl hx⟩
  | setState i => exact ⟨i, _, h.loop_setState hctl hx⟩
  | setProc i => exact ⟨i, _, h.loop_setProc hctl hx⟩
  | save i => exact ⟨i, _, h.loop_save hctl hx⟩
  | load i => exact ⟨i, _, h.loop_load hctl hx⟩
  | back i => exact ⟨i, _, h.loop_back hctl hx⟩
  | release i => exact ⟨i, _, h.loop_release hctl hx⟩

/-! ## Steps -/

/-- What is put in front of a thread or of the scheduler. -/
inductive Pushed : Code N → Prop
  | call (p : Fin N) (f : Fn) : Pushed (f.code p)
  | timer (p : Fin N) : Pushed (yield p)
  | device (n ch : ℕ) : Pushed (handler n ch)

/-- Where the effect and the code of a turn come from. -/
inductive Source (s : St M N) (c : Fin M) : Effect N → Code N → Prop
  | exec {i : Instr N} {e : Effect N} {new k : Code N} (hcur : s.cur c = i :: k)
    (hx : Exec s c i e new) : Source s c e (new ++ k)
  | push {new : Code N} (hnoff : s.noff c = 0) (hnew : Pushed new) :
    Source s c .nop (new ++ s.cur c)
  | client {n : ℕ} {op : Op} {k : Code N} (hcur : s.cur c = .client n :: k) :
    Source s c .nop (op.code n ++ k)
  | leave {i : ℕ} {k : Code N} (hcur : s.cur c = .critical i :: k) :
    Source s c .nop (releasesleep i ++ k)

/-- What a step of the machine can do. -/
inductive Stepped (s t : St M N) : Prop
  | turn {c : Fin M} {e : Effect N} {k : Code N} (ht : Turn s c e k) (hsrc : Source s c e k)
    (h : t = s.turn c e k)
  | move {c : Fin M} {i : Fin N} {k : Ctl N} (hm : Move s t c i k)

/-- Code in front of a CPU that holds no lock. -/
theorem Inv.push (h : Inv s) (hact : (s.ctl c).active) (hnoff : s.noff c = 0)
    (hwf : Wf (s.ctl c).me .free (s.cur c) → Wf (s.ctl c).me .free (new ++ s.cur c))
    (hnew : Idle new) (hne : new ≠ []) : Turn s c .nop (new ++ s.cur c) := by
  obtain ⟨hdeep, hfree⟩ := h.deep_cur hact hnoff
  refine Turn.idle hact (fun σ hsees hcur => ?_) hnew hne hdeep fun q => rfl
  obtain rfl := hfree σ hsees
  exact hwf hcur

/-- Code in the place of the instruction before a CPU. -/
theorem Inv.replace (h : Inv s) {j : Instr N} {k : Code N} (hcur : s.cur c = j :: k)
    (hwf : ∀ σ, Wf (s.ctl c).me σ (j :: k) → Wf (s.ctl c).me σ (new ++ k)) (hnew : Idle new)
    (hne : new ≠ []) (hj : j.owes = none) : Turn s c .nop (new ++ k) := by
  have hdeep := h.deep c
  rw [hcur] at hdeep
  refine Turn.idle (h.active hcur) (fun σ hsees hw => hwf σ (hcur ▸ hw)) hnew hne hdeep fun q => ?_
  rw [hcur, owed, owed, List.countP_cons_of_neg]
  rw [hj]
  exact Bool.false_ne_true

/-- A process calls a function only with no lock held. -/
theorem Inv.callable (h : Inv s) {f : Fn} (hctl : s.ctl c = .thread p)
    (hf : callable s p f = true) : s.noff c = 0 ∧ (f = .exit → s.code p = []) := by
  have hok := h.cpu c
  rw [hctl] at hok
  obtain ⟨-, H, hsees, hwf⟩ := hok
  rw [Sched.callable] at hf
  split at hf
  · rename_i hcode
    rw [hcode] at hwf
    have hheld : H = [] := hwf.1
    exact ⟨hsees.noff.trans (by rw [hheld]; rfl), fun _ => hcode⟩
  · rename_i j k hcode
    rw [hcode] at hwf
    have hheld : H = [] := hwf.1.2.2
    refine ⟨hsees.noff.trans (by rw [hheld]; rfl), fun hexit => ?_⟩
    rw [hexit] at hf
    cases hf
  · cases hf

/-- **What a step can do.** -/
theorem Inv.stepped (h : Inv s) (hx : step s act = some t) : Stepped s t := by
  cases act with
  | advance c b =>
    rw [step, advance] at hx
    split at hx
    · rename_i j k hcur
      obtain ⟨⟨e, new⟩, hexec, rfl⟩ := Option.map_eq_some_iff.mp hx
      exact .turn (h.exec hcur hexec) (.exec hcur (exec_cases hexec)) rfl
    · rename_i hcur
      split at hx
      · rename_i pre l hctl
        rw [St.cur, hctl] at hcur
        cases hcur
        obtain ⟨i, k, hm⟩ := h.loop hctl hx
        exact .move hm
      · cases hx
  | call c f =>
    rw [step] at hx
    split at hx
    · rename_i p hctl
      split at hx
      · rename_i hf
        cases hx
        obtain ⟨hnoff, hexit⟩ := h.callable hctl hf
        have hturn : Turn s c .nop (f.code p ++ s.cur c) := by
          refine h.push (by rw [hctl]; trivial) hnoff ?_ (Fn.idle p f) ?_
          · rw [hctl, St.cur, hctl]
            exact Fn.wf hexit
          · cases f <;> exact List.cons_ne_nil _ _
        exact .turn hturn (.push hnoff (.call p f)) rfl
      · cases hx
    · cases hx
  | client c op =>
    rw [step] at hx
    split at hx
    · rename_i n k hcur
      cases hx
      refine .turn (h.replace hcur (fun σ => Op.wf) (Op.idle n op) ?_ rfl) (.client hcur) rfl
      cases op <;> exact List.cons_ne_nil _ _
    · cases hx
  | leave c =>
    rw [step] at hx
    split at hx
    · rename_i i k hcur
      cases hx
      exact .turn (h.replace hcur (fun σ => releasesleep_wf) (releasesleep_idle i)
        (List.cons_ne_nil _ _) rfl) (.leave hcur) rfl
    · cases hx
  | timer c =>
    rw [step] at hx
    split at hx
    · rename_i p hctl
      split at hx
      · rename_i hcond
        cases hx
        have hturn : Turn s c .nop (yield p ++ s.cur c) := by
          refine h.push (by rw [hctl]; trivial) hcond.1 ?_ (yield_idle p) (List.cons_ne_nil _ _)
          rw [hctl]
          exact yield_wf
        exact .turn hturn (.push hcond.1 (.timer p)) rfl
      · cases hx
    · cases hx
  | device c n ch =>
    have hpush : (s.ctl c).active → s.noff c = 0 → Stepped s (s.push c (handler n ch)) := by
      intro hact hnoff
      exact .turn (h.push hact hnoff handler_wf (handler_idle n ch) (List.cons_ne_nil _ _))
        (.push hnoff (.device n ch)) rfl
    rw [step] at hx
    split at hx
    · rename_i p hctl
      split at hx
      · cases hx
        exact hpush (by rw [hctl]; trivial) ‹_›
      · cases hx
    · rename_i pre i hctl
      split at hx
      · cases hx
        exact hpush (by rw [hctl]; trivial) ‹_›
      · cases hx
    · cases hx

/-- **Every step keeps the invariant.** -/
theorem Inv.step (h : Inv s) (hx : step s act = some t) : Inv t := by
  cases h.stepped hx with
  | turn ht _ heq =>
    rw [heq]
    exact h.turn ht
  | move hm => exact h.move hm

/-! ## Every run -/

/-- At the start every process is unused except the first one, which can be resumed. -/
theorem start_parked (init p : Fin N) : Parked (start M init) p := by
  by_cases hp : p = init
  · subst hp
    have hstate : (start M p).state p = .RUNNABLE := by simp [start]
    have hcode : (start M p).code p = forkret p := by simp [start]
    rw [Parked, hstate]
    refine ⟨by simp [start], ?_⟩
    rw [hcode]
    exact forkret_wf p
  · have hstate : (start M init).state p = .UNUSED := by simp [start, hp]
    rw [Parked, hstate]
    exact .inl (by simp [start, hp])

theorem start_code (init p : Fin N) :
    (start M init).code p = [] ∨ (start M init).code p = forkret p := by
  by_cases hp : p = init
  · subst hp
    exact .inr (by simp [start])
  · exact .inl (by simp [start, hp])

/-- **The invariant holds at the start.** -/
theorem Inv.start (init : Fin N) : Inv (start M init) := by
  have hsum : ∀ q, ∑ p, owed q ((Sched.start M init).code p) = 0 := by
    refine fun q => Finset.sum_eq_zero fun p _ => ?_
    rcases start_code (M := M) init p with hcode | hcode <;> rw [hcode] <;> rfl
  refine ⟨?_, ?_, fun p _ => start_parked init p, ?_, ?_, ?_, ?_, ?_⟩
  · intro c
    refine ⟨[], ⟨⟨List.nodup_nil, fun l => ?_, rfl⟩, rfl, ?_, fun _ => rfl, ?_⟩, rfl, rfl, rfl⟩
    · exact ⟨(fun h => by cases h), fun h => absurd h List.not_mem_nil⟩
    · exact fun p hp => by cases hp
    · exact fun h => absurd rfl h
  · intro c c' p h
    cases h
  · intro c j hj
    exact absurd hj List.not_mem_nil
  · intro p hp j hj
    rcases start_code (M := M) init p with hcode | hcode <;> rw [hcode] at hj
    · exact absurd hj List.not_mem_nil
    · rw [List.mem_singleton.mp hj]
      trivial
  · intro c q sts h
    cases h
  · intro q
    rw [hsum]
    exact Nat.zero_le _
  · intro q hpos
    rw [hsum] at hpos
    exact absurd hpos (Nat.lt_irrefl _)

theorem Inv.run {init : Fin N} {acts : List (Act M)}
    (hrun : run Sched.step (Sched.start M init) acts = some s) : Inv s :=
  run_invariant (fun _ _ _ (h : Inv _) hx => h.step hx) acts _ _ (.start init) hrun

/-- The states a process goes through. -/
inductive Edge : PState → PState → Prop
  | alloc : Edge .UNUSED .USED
  | fail : Edge .USED .UNUSED
  | ready : Edge .USED .RUNNABLE
  | run : Edge .RUNNABLE .RUNNING
  | yield : Edge .RUNNING .RUNNABLE
  | sleep : Edge .RUNNING .SLEEPING
  | exit : Edge .RUNNING .ZOMBIE
  | wakeup : Edge .SLEEPING .RUNNABLE
  | reap : Edge .ZOMBIE .UNUSED

/-- A safe effect changes states along the edges. -/
theorem Safe.edge {me : Option (Fin N)} {σ : View N} {e : Effect N} (hs : Sees s c me σ)
    (hsafe : Safe s me σ e) (p : Fin N) :
    (s.apply c e).state p = s.state p ∨ Edge (s.state p) ((s.apply c e).state p) := by
  have hset : ∀ {q : Fin N} {st : PState}, Edge (s.state q) st →
      update s.state q st p = s.state p ∨
        Edge (s.state p) (update s.state q st p) := by
    intro q st hedge
    by_cases hp : p = q
    · rw [hp, update_self]
      exact .inr hedge
    · exact .inl (update_of_ne hp _ _)
  cases e
  case state q st =>
    refine hset ?_
    obtain ⟨-, ⟨hme, hplain, hst⟩ | ⟨-, hst, rfl⟩⟩ := hsafe
    · rw [(hs.mine q hme).1, hplain.1]
      rcases hst with rfl | rfl | rfl
      · exact .yield
      · exact .sleep
      · exact .exit
    · rcases hst with hst | hst <;> rw [hst]
      · exact .wakeup
      · exact .ready
  case birth q =>
    refine hset ?_
    rw [hsafe.2.2]
    exact .alloc
  case free q =>
    refine hset ?_
    rcases hsafe.2.2 with hst | hst <;> rw [hst]
    · exact .fail
    · exact .reap
  all_goals exact .inl rfl

theorem Move.edge {i : Fin N} {k : Ctl N} (hm : Move s t c i k) (p : Fin N) :
    t.state p = s.state p ∨ Edge (s.state p) (t.state p) := by
  by_cases hp : p = i
  · subst hp
    rcases hm.held with hsame | ⟨-, -, ⟨-, heq⟩ | ⟨hst, hrun⟩⟩
    · exact .inl hsame.state
    · exact .inl heq
    · rw [hst, hrun]
      exact .inr .run
  · exact .inl (hm.same p hp).state

/-- **States change along the edges.** -/
theorem Inv.edge (h : Inv s) (hx : Sched.step s act = some t) (p : Fin N) :
    t.state p = s.state p ∨ Edge (s.state p) (t.state p) := by
  cases h.stepped hx with
  | turn ht _ heq =>
    obtain ⟨σ, hsees, -, hsafe⟩ := ht.sees h
    rw [heq, turn_state]
    exact hsafe.edge hsees p
  | move hm => exact hm.edge p

/-- `c->proc` is a process that the CPU has taken on. -/
theorem CtlOk.engaged (h : CtlOk s c (s.ctl c)) (hp : s.cproc c = some p) :
    (s.ctl c).engaged = some p := by
  cases hctl : s.ctl c with
  | thread q =>
    rw [hctl] at h
    obtain ⟨-, H, hsees, -⟩ := h
    exact hsees.cproc.symm.trans hp
  | panic =>
    rw [hctl] at h
    exact h.elim
  | sched pre l =>
    rw [hctl] at h
    cases l
    case next i =>
      obtain ⟨H, hsees, -⟩ := h
      cases hsees.cproc.symm.trans hp
    all_goals
      have := h.2.1.symm.trans hp
      first
      | exact this
      | cases this

/-- A running process whose lock is free is the process of a CPU. -/
theorem Inv.running (h : Inv s) (hlock : s.lock (.proc p) = none) :
    s.state p = .RUNNING ↔ ∃! c, s.cproc c = some p := by
  constructor
  · intro hst
    have hex : ∃ c, (s.ctl c).engaged = some p := by
      by_contra hnone
      exact (h.off p fun c hc => hnone ⟨c, hc⟩).ne hst
    obtain ⟨c, hc⟩ := hex
    have hthread : s.ctl c = .thread p := by
      rcases (h.cpu c).watching (Ctl.watches_of_engaged hc) with hl | ⟨hctl, -⟩
      · rw [hlock] at hl
        cases hl
      · exact hctl
    have hok := h.cpu c
    rw [hthread] at hok
    obtain ⟨-, H, hsees, -⟩ := hok
    refine ⟨c, hsees.cproc, fun c' hc' => ?_⟩
    exact h.apart c' c p ((h.cpu c').engaged hc') hc
  · rintro ⟨c, hc, -⟩
    rcases (h.cpu c).watching (Ctl.watches_of_engaged ((h.cpu c).engaged hc)) with hl | ⟨-, hst⟩
    · rw [hlock] at hl
      cases hl
    · exact hst

/-- At `swtch` to a process, its registers are saved, and no CPU is on its stack. -/
theorem Inv.switch (h : Inv s) {pre : Code N} (hctl : s.ctl c = .sched pre (.load p)) :
    s.saved p = true ∧ ∀ c', s.ctl c' ≠ .thread p := by
  have hok := h.cpu c
  rw [hctl] at hok
  refine ⟨hok.2.2.2.2.1.1, fun c' hc' => ?_⟩
  have heq : c' = c := h.apart c' c p (by rw [hc']; rfl) (by rw [hctl]; rfl)
  rw [heq, hctl] at hc'
  cases hc'

/-- **One CPU per process**, in every run: no two CPUs have the same process; while `p->lock`
is free, `p` is `RUNNING` exactly when one CPU has it; a CPU switches to a process only when
its registers are saved and no CPU is on its stack any more; no CPU panics; and states change
only along the edges. -/
theorem one_cpu_per_process {init : Fin N} {acts : List (Act M)}
    (hrun : run step (start M init) acts = some s) :
    (∀ c c' p, s.cproc c = some p → s.cproc c' = some p → c = c') ∧
    (∀ p, s.lock (.proc p) = none → (s.state p = .RUNNING ↔ ∃! c, s.cproc c = some p)) ∧
    (∀ c pre p, s.ctl c = .sched pre (.load p) → s.saved p = true ∧ ∀ c', s.ctl c' ≠ .thread p) ∧
    (∀ c, s.ctl c ≠ .panic) ∧ ∀ act t, step s act = some t →
      ∀ p, t.state p = s.state p ∨ Edge (s.state p) (t.state p) := by
  have h := Inv.run hrun
  refine ⟨fun c c' p hc hc' => ?_, fun p => h.running, fun c pre p => h.switch, fun c hc => ?_,
    fun act t hx => h.edge hx⟩
  · exact h.apart c c' p ((h.cpu c).engaged hc) ((h.cpu c').engaged hc')
  · have hok := h.cpu c
    rw [hc] at hok
    exact hok

/-- Two CPUs: the first process forks, and its child is scheduled on the other CPU. -/
theorem one_cpu_per_process_fork : ∃ s, run step (start (N := 2) 2 0)
        (List.replicate 7 (.advance 0 true) ++ [.call 0 .fork] ++
          List.replicate 19 (.advance 0 true) ++ List.replicate 10 (.advance 1 true)) = some s ∧
      s.cproc 0 = some 0 ∧ s.cproc 1 = some 1 ∧ s.state 1 = .RUNNING ∧
      ∀ c c' p, s.cproc c = some p → s.cproc c' = some p → c = c' := by
  have hrun : (run step (start (N := 2) 2 0)
      (List.replicate 7 (.advance 0 true) ++ [.call 0 .fork] ++
        List.replicate 19 (.advance 0 true) ++ List.replicate 10 (.advance 1 true))).map
      (fun s => (s.cproc 0, s.cproc 1, s.state 1)) = some (some 0, some 1, .RUNNING) := by
    decide +kernel
  obtain ⟨s, hs, hfields⟩ := Option.map_eq_some_iff.mp hrun
  simp only [Prod.mk.injEq] at hfields
  exact ⟨s, hs, hfields.1, hfields.2.1, hfields.2.2, (one_cpu_per_process hs).1⟩

/-- The locks that a CPU holds. -/
theorem CtlOk.locks {k : Ctl N} (h : CtlOk s c k) : ∃ H, Locks s c H := by
  cases k with
  | panic => exact h.elim
  | thread p =>
    obtain ⟨-, H, hsees, -⟩ := h
    exact ⟨H, hsees.toLocks⟩
  | sched pre l =>
    cases l
    case next i =>
      obtain ⟨H, hsees, -⟩ := h
      exact ⟨H, hsees.toLocks⟩
    case check i => exact ⟨_, h.2.2⟩
    case release i => exact ⟨_, h.2.2⟩
    all_goals exact ⟨_, h.2.2.1⟩

/-- **`noff` counts the locks** that a CPU holds, in every run; and when `swtch` has come back
to `scheduler`, the only one is the lock of the process that has called `sched`. -/
theorem noff_counts_locks (init : Fin N) (acts : List (Act M)) :
    Always step (fun s => (∀ c, ∃ H, Locks s c H) ∧ ∀ c pre p, s.ctl c = .sched pre (.back p) →
      ∀ l, s.lock l = some c ↔ l = .proc p) (start M init) acts := by
  refine always_of_step (fun _ _ _ (h : Inv _) hx => h.step hx)
    (fun s h => ⟨fun c => (h.cpu c).locks, fun c pre p hctl l => ?_⟩) acts _ (.start init)
  have hok := h.cpu c
  rw [hctl] at hok
  rw [hok.2.2.1.held, List.mem_singleton]

end Sched

/-
# One CPU per process

The invariant of the scheduler: what each CPU does is in order (`CtlOk`), no two CPUs have
taken on the same process, and the registers of a process that no CPU has taken on are in
its context, with well-formed code to go on with.  `p->lock` is what makes this last
across `swtch`, where the thread that takes it is not the one that releases it.

`Turn` says what a step of a CPU outside the loop of `scheduler` can do, and **`Inv.turn`**
that it keeps the invariant.
-/
import Mathlib.Algebra.Order.BigOperators.Group.Finset
import Mathlib.Data.Fintype.BigOperators
import Xv6.SchedCode
import Xv6.Tally

namespace Sched

open Function Transition

variable {M N : ℕ} {s : St M N} {c : Fin M}

/-! ## Processes on and off the CPUs -/

/-- The process whose thread a CPU executes. -/
def Ctl.me : Ctl N → Option (Fin N)
  | .thread p => some p
  | .sched _ _ | .panic => none

/-- The process that a CPU has taken on: from `p->state = RUNNING` in `scheduler` to the
return of `swtch`. -/
def Ctl.engaged : Ctl N → Option (Fin N)
  | .thread p => some p
  | .sched _ (.setProc i) | .sched _ (.save i) | .sched _ (.load i) | .sched _ (.back i) => some i
  | .sched _ (.next _) | .sched _ (.check _) | .sched _ (.setState _) | .sched _ (.release _)
  | .panic => none

/-- The process whose fields a CPU relies on. -/
def Ctl.watches : Ctl N → Option (Fin N)
  | .thread p => some p
  | .sched _ (.setState i) | .sched _ (.setProc i) | .sched _ (.save i) | .sched _ (.load i)
  | .sched _ (.back i) => some i
  | .sched _ (.next _) | .sched _ (.check _) | .sched _ (.release _) | .panic => none

/-- The CPU executes instructions of a thread or of an interrupt handler. -/
def Ctl.active : Ctl N → Prop
  | .thread _ | .sched _ (.next _) => True
  | _ => False

/-- A thread that can go on once its registers are loaded. -/
def Resumable (s : St M N) (p : Fin N) : Prop :=
  s.saved p = true ∧ Wf (some p) ⟨[.proc p], .RUNNING, false⟩ (s.code p)

/-- Code that is never executed again. -/
def Dead (k : Code N) : Prop := k = [] ∨ k = [.zombie] ∨ ∃ p, k = forkret p

/-- A process off the CPUs. -/
def Parked (s : St M N) (p : Fin N) : Prop :=
  match s.state p with
  | .RUNNABLE | .SLEEPING => Resumable s p
  | .USED => s.saved p = true ∧ s.code p = forkret p
  | .UNUSED | .ZOMBIE => Dead (s.code p)
  | .RUNNING => False

variable {p q : Fin N} {c' : Fin M} {H : List (Lock N)} {l : Lock N} {sts : List PState}
    {i : Instr N} {new pre : Code N}

theorem Parked.ne (h : Parked s p) : s.state p ≠ .RUNNING := by
  intro hst
  rw [Parked, hst] at h
  exact h

theorem Parked.resumable (h : Parked s p)
    (hst : s.state p = .RUNNABLE ∨ s.state p = .SLEEPING) : Resumable s p := by
  rcases hst with hst | hst <;> (rw [Parked, hst] at h; exact h)

theorem forkret_wf (p : Fin N) : Wf (some p) ⟨[.proc p], .RUNNING, false⟩ (forkret p) := by
  refine ⟨⟨List.mem_singleton_self _, fun _ _ _ => rfl⟩, ?_⟩
  rw [post, List.erase_cons_head]
  exact ⟨rfl, rfl, rfl⟩

/-! ## The invariant -/

/-- What a CPU does is in order. -/
def CtlOk (s : St M N) (c : Fin M) : Ctl N → Prop
  | .thread p => s.context c = .back p ∧ ∃ H, Sees s c (some p) ⟨H, s.state p, s.saved p⟩ ∧
      Wf (some p) ⟨H, s.state p, s.saved p⟩ (s.code p)
  | .sched pre (.next _) => ∃ H, Sees s c none ⟨H, .RUNNING, false⟩ ∧
      Wf none ⟨H, .RUNNING, false⟩ pre
  | .sched pre (.check i) | .sched pre (.release i) =>
    pre = [] ∧ s.cproc c = none ∧ Locks s c [.proc i]
  | .sched pre (.setState i) =>
    pre = [] ∧ s.cproc c = none ∧ Locks s c [.proc i] ∧ s.state i = .RUNNABLE
  | .sched pre (.setProc i) =>
    pre = [] ∧ s.cproc c = none ∧ Locks s c [.proc i] ∧ s.state i = .RUNNING ∧ Resumable s i
  | .sched pre (.save i) =>
    pre = [] ∧ s.cproc c = some i ∧ Locks s c [.proc i] ∧ s.state i = .RUNNING ∧ Resumable s i
  | .sched pre (.load i) => pre = [] ∧ s.cproc c = some i ∧ Locks s c [.proc i] ∧
      s.state i = .RUNNING ∧ Resumable s i ∧ s.context c = .back i
  | .sched pre (.back i) =>
    pre = [] ∧ s.cproc c = some i ∧ Locks s c [.proc i] ∧ Parked s i
  | .panic => False

structure Inv (s : St M N) : Prop where
  cpu : ∀ c, CtlOk s c (s.ctl c)
  apart : ∀ c c' p, (s.ctl c).engaged = some p → (s.ctl c').engaged = some p → c = c'
  off : ∀ p, (∀ c, (s.ctl c).engaged ≠ some p) → Parked s p
  deep : ∀ c, ∀ j ∈ (s.cur c).tail, j.Deep
  still : ∀ p, (∀ c, s.ctl c ≠ .thread p) → ∀ j ∈ s.code p, j.Deep
  heads : ∀ c q sts, (s.cur c).head?.bind Instr.wants = some (q, sts) → s.state q ∈ sts
  once : ∀ q, ∑ p, owed q (s.code p) ≤ 1
  used : ∀ q, 0 < ∑ p, owed q (s.code p) → s.state q = .USED

/-- The view of a CPU that executes instructions. -/
theorem CtlOk.view (h : CtlOk s c (s.ctl c)) (hact : (s.ctl c).active) :
    ∃ σ, Sees s c (s.ctl c).me σ ∧ Wf (s.ctl c).me σ (s.cur c) := by
  rw [St.cur]
  cases hctl : s.ctl c with
  | thread p =>
    rw [hctl] at h
    obtain ⟨-, H, hsees, hwf⟩ := h
    exact ⟨_, hsees, hwf⟩
  | panic =>
    rw [hctl] at hact
    exact hact.elim
  | sched pre l =>
    rw [hctl] at h hact
    cases l
    case next i =>
      obtain ⟨H, hsees, hwf⟩ := h
      exact ⟨_, hsees, hwf⟩
    all_goals exact hact.elim

/-- A CPU that relies on a process holds its lock, or the process runs on it. -/
theorem CtlOk.watching (h : CtlOk s c (s.ctl c)) (hq : (s.ctl c).watches = some q) :
    s.lock (.proc q) = some c ∨ s.ctl c = .thread q ∧ s.state q = .RUNNING := by
  cases hctl : s.ctl c with
  | thread p =>
    rw [hctl] at h hq
    cases hq
    obtain ⟨-, H, hsees, -⟩ := h
    by_cases hst : s.state q = .RUNNING
    · exact .inr ⟨rfl, hst⟩
    · obtain ⟨p, hp, hmem⟩ := hsees.own hst
      cases hp
      exact .inl ((hsees.held _).mpr hmem)
  | panic =>
    rw [hctl] at h
    exact h.elim
  | sched pre l =>
    rw [hctl] at h hq
    have hlocks : ∀ {i : Fin N}, Locks s c [.proc i] → s.lock (.proc i) = some c :=
      fun hl => (hl.held _).mpr (List.mem_singleton_self _)
    cases l <;> cases hq
    all_goals exact .inl (hlocks h.2.2.1)

/-! ## Frames -/

section setCur

variable (s) (c) (k : Code N)

@[simp] theorem setCur_lock : (s.setCur c k).lock = s.lock := by
  unfold St.setCur; split <;> rfl

@[simp] theorem setCur_noff : (s.setCur c k).noff = s.noff := by
  unfold St.setCur; split <;> rfl

@[simp] theorem setCur_cproc : (s.setCur c k).cproc = s.cproc := by
  unfold St.setCur; split <;> rfl

@[simp] theorem setCur_context : (s.setCur c k).context = s.context := by
  unfold St.setCur; split <;> rfl

@[simp] theorem setCur_state : (s.setCur c k).state = s.state := by
  unfold St.setCur; split <;> rfl

@[simp] theorem setCur_saved : (s.setCur c k).saved = s.saved := by
  unfold St.setCur; split <;> rfl

theorem setCur_code_of_ne (hq : (s.ctl c).me ≠ some q) : (s.setCur c k).code q = s.code q := by
  unfold St.setCur
  split
  · rfl
  · rename_i p hctl
    have hqp : q ≠ p := by
      rintro rfl
      exact hq (by rw [hctl]; rfl)
    exact update_of_ne hqp _ _
  · rfl

theorem setCur_ctl_of_ne (hc : c' ≠ c) : (s.setCur c k).ctl c' = s.ctl c' := by
  unfold St.setCur
  split
  · exact update_of_ne hc _ _
  · rfl
  · rfl

end setCur

/-- The fields of a process that the CPUs rely on. -/
structure Same (s t : St M N) (q : Fin N) : Prop where
  state : t.state q = s.state q
  saved : t.saved q = s.saved q
  code : t.code q = s.code q

theorem Same.resumable {t : St M N} (h : Same s t q) (hq : Resumable s q) : Resumable t q := by
  rw [Resumable, h.saved, h.code]
  exact hq

theorem Same.parked {t : St M N} (h : Same s t q) (hq : Parked s q) : Parked t q := by
  rw [Parked, h.state, Resumable, h.saved, h.code]
  exact hq

/-- What another CPU does is still in order when its own fields and those of the process it
relies on are the same. -/
theorem CtlOk.frame {t : St M N} {k : Ctl N} (h : CtlOk s c k)
    (hlock : ∀ l, t.lock l = some c ↔ s.lock l = some c) (hnoff : t.noff c = s.noff c)
    (hcproc : t.cproc c = s.cproc c) (hcontext : t.context c = s.context c)
    (hsame : ∀ q, k.watches = some q → Same s t q) : CtlOk t c k := by
  have hlocks : ∀ {H}, Locks s c H → Locks t c H := fun hl =>
    ⟨hl.nodup, fun l => (hlock l).trans (hl.held l), hnoff.trans hl.noff⟩
  cases k with
  | panic => exact h.elim
  | thread p =>
    have hp := hsame p rfl
    obtain ⟨hctx, H, hsees, hwf⟩ := h
    refine ⟨hcontext.trans hctx, H, ?_, ?_⟩
    · rw [hp.state, hp.saved]
      refine ⟨hlocks hsees.toLocks, hcproc.trans hsees.cproc, ?_, hsees.plain, hsees.own⟩
      intro q hq
      cases hq
      exact ⟨hp.state, hp.saved⟩
    · rw [hp.state, hp.saved, hp.code]
      exact hwf
  | sched pre l =>
    cases l
    case next i =>
      obtain ⟨H, hsees, hwf⟩ := h
      exact ⟨H, ⟨hlocks hsees.toLocks, hcproc.trans hsees.cproc,
        fun q hq => absurd hq.symm (Option.some_ne_none q), hsees.plain, hsees.own⟩, hwf⟩
    all_goals refine ⟨h.1, hcproc.trans h.2.1, ?_⟩
    case check i => exact hlocks h.2.2
    case release i => exact hlocks h.2.2
    case setState i => exact ⟨hlocks h.2.2.1, (hsame i rfl).state.trans h.2.2.2⟩
    case back i => exact ⟨hlocks h.2.2.1, (hsame i rfl).parked h.2.2.2⟩
    case load i =>
      obtain ⟨hl, hst, hres, hctx⟩ := h.2.2
      exact ⟨hlocks hl, (hsame i rfl).state.trans hst, (hsame i rfl).resumable hres,
        hcontext.trans hctx⟩
    all_goals
      obtain ⟨hl, hst, hres⟩ := h.2.2
      exact ⟨hlocks hl, (hsame _ rfl).state.trans hst, (hsame _ rfl).resumable hres⟩

/-! ## Effects -/

variable {me : Option (Fin N)} {σ : View N} {e : Effect N} {k : Code N}

/-- The locks after an acquire. -/
theorem Locks.acquire (h : Locks s c H) (hl : l ∉ H) :
    Locks (s.apply c (.acquire l)) c (l :: H) where
  nodup := List.nodup_cons.mpr ⟨hl, h.nodup⟩
  held := by
    intro l'
    rw [St.apply, List.mem_cons]
    by_cases hl' : l' = l
    · simp [hl']
    · simp [hl', h.held l']
  noff := by
    rw [St.apply, List.length_cons, ← h.noff]
    exact update_self _ _ _

/-- The locks after a release. -/
theorem Locks.release {t : St M N} (h : Locks s c H) (hl : l ∈ H)
    (hlock : t.lock = update s.lock l none)
    (hnoff : t.noff = update s.noff c (s.noff c - 1)) : Locks t c (H.erase l) where
  nodup := h.nodup.erase l
  held := by
    intro l'
    rw [hlock, h.nodup.mem_erase_iff]
    by_cases hl' : l' = l
    · simp [hl']
    · simp [hl', h.held l']
  noff := by
    rw [hnoff, List.length_erase_of_mem hl, ← h.noff]
    exact update_self _ _ _

/-- What is in front of a CPU does not matter for what it sees. -/
theorem Sees.setCur (h : Sees s c me σ) (k : Code N) : Sees (s.setCur c k) c me σ := by
  obtain ⟨⟨hnodup, hheld, hnoff⟩, hcproc, hmine, hplain, hown⟩ := h
  refine ⟨⟨hnodup, ?_, ?_⟩, ?_, ?_, hplain, hown⟩
  · simpa using hheld
  · simpa using hnoff
  · simpa using hcproc
  · simpa using hmine

/-- A CPU that changes none of the locks sees the same locks. -/
theorem Sees.congr {t : St M N} (h : Sees s c me σ) (hlock : t.lock = s.lock)
    (hnoff : t.noff = s.noff) (hcproc : t.cproc = s.cproc)
    (hmine : ∀ p, me = some p → t.state p = s.state p ∧ t.saved p = s.saved p) : Sees t c me σ := by
  refine ⟨⟨h.nodup, fun l => ?_, ?_⟩, ?_, fun p hp => ?_, h.plain, h.own⟩
  · rw [hlock]
    exact h.held l
  · rw [hnoff]
    exact h.noff
  · rw [hcproc]
    exact h.cproc
  · obtain ⟨hst, hsv⟩ := hmine p hp
    exact ⟨hst.trans (h.mine p hp).1, hsv.trans (h.mine p hp).2⟩

/-- An effect on another process. -/
theorem update_other {α : Type*} {f : Fin N → α} {v : α} (hq : me ≠ some q) :
    ∀ p, me = some p → update f q v p = f p := by
  rintro p rfl
  have hpq : p ≠ q := fun heq => hq (congrArg some heq)
  exact update_of_ne hpq _ _

/-- **What a CPU sees after a safe effect** is the view after the effect. -/
theorem Sees.apply (h : Sees s c me σ) (hsafe : Safe s me σ e) (he : e ≠ .toSched) :
    Sees (s.apply c e) c me (e.view me σ) := by
  cases e with
  | nop => exact h
  | pid q => exact h.congr rfl rfl rfl fun _ _ => ⟨rfl, rfl⟩
  | parent q o => exact h.congr rfl rfl rfl fun _ _ => ⟨rfl, rfl⟩
  | killed q => exact h.congr rfl rfl rfl fun _ _ => ⟨rfl, rfl⟩
  | locked i b => exact h.congr rfl rfl rfl fun _ _ => ⟨rfl, rfl⟩
  | chan q ch => exact h.congr rfl rfl rfl fun _ _ => ⟨rfl, rfl⟩
  | panic => exact hsafe.elim
  | toSched => exact absurd rfl he
  | birth q =>
    exact h.congr rfl rfl rfl fun p hp =>
      ⟨update_other hsafe.2.1 p hp, update_other hsafe.2.1 p hp⟩
  | free q => exact h.congr rfl rfl rfl fun p hp => ⟨update_other hsafe.2.1 p hp, rfl⟩
  | acquire l =>
    refine ⟨h.toLocks.acquire hsafe.1, h.cproc, h.mine, h.plain, fun hst => ?_⟩
    obtain ⟨p, hp, hmem⟩ := h.own hst
    exact ⟨p, hp, List.mem_cons_of_mem _ hmem⟩
  | release l =>
    refine ⟨h.toLocks.release hsafe.1 rfl rfl, h.cproc, h.mine, h.plain, fun hst => ?_⟩
    obtain ⟨p, hp, hmem⟩ := h.own hst
    refine ⟨p, hp, (List.mem_erase_of_ne ?_).mpr hmem⟩
    -- its own lock is released by a process that runs
    exact fun heq => hst (hsafe.2 p hp heq.symm)
  | drop p ch lk =>
    obtain ⟨hplain, rfl, hheld, hlk⟩ := hsafe
    refine ⟨h.toLocks.release (by simp [hheld]) rfl rfl, h.cproc, h.mine, h.plain, fun hst => ?_⟩
    exact absurd hplain.1 hst
  | saved p b =>
    obtain ⟨rfl, hheld, hst⟩ := hsafe
    refine ⟨⟨h.nodup, h.held, h.noff⟩, h.cproc, ?_, fun hrun => absurd hrun hst.ne, h.own⟩
    intro q hq
    cases hq
    exact ⟨(h.mine p rfl).1, update_self _ _ _⟩
  | state q st =>
    obtain ⟨hmem, ⟨rfl, hplain, hst⟩ | ⟨hq, -, -⟩⟩ := hsafe
    · rw [Effect.view, if_pos rfl]
      refine ⟨⟨h.nodup, h.held, h.noff⟩, h.cproc, ?_, fun hrun => absurd hrun hst.ne,
        fun _ => ⟨q, rfl, hmem⟩⟩
      intro p hp
      cases hp
      exact ⟨update_self _ _ _, (h.mine q rfl).2⟩
    · rw [Effect.view, if_neg hq]
      exact h.congr rfl rfl rfl fun p hp => ⟨update_other hq p hp, rfl⟩

/-- An effect leaves alone a process that is not the CPU's own, when the CPU does not hold
its lock or the process runs. -/
theorem Safe.same (hs : Sees s c me σ) (hsafe : Safe s me σ e) (hq : me ≠ some q)
    (hfar : s.lock (.proc q) ≠ some c ∨ s.state q = .RUNNING) : Same s (s.apply c e) q := by
  have hne : ∀ {r : Fin N}, .proc r ∈ σ.held → s.state r ≠ .RUNNING → q ≠ r := by
    rintro r hmem hst rfl
    exact hfar.elim (fun h => h ((hs.held _).mpr hmem)) fun h => hst h
  cases e with
  | toSched => exact ⟨rfl, rfl, rfl⟩
  | birth r =>
    have hqr := hne hsafe.1 (by rw [hsafe.2.2]; decide)
    exact ⟨update_of_ne hqr _ _, update_of_ne hqr _ _,
      update_of_ne hqr _ _⟩
  | free r =>
    have hqr := hne hsafe.1 (by rcases hsafe.2.2 with h | h <;> rw [h] <;> decide)
    exact ⟨update_of_ne hqr _ _, rfl, rfl⟩
  | saved p b =>
    have hqp : q ≠ p := fun heq => hq (by rw [hsafe.1, heq])
    exact ⟨rfl, update_of_ne hqp _ _, rfl⟩
  | state r st =>
    have hqr : q ≠ r := by
      obtain ⟨hmem, ⟨rfl, -, -⟩ | ⟨-, hst, -⟩⟩ := hsafe
      · exact fun heq => hq (by rw [heq])
      · exact hne hmem (by rcases hst with h | h <;> rw [h] <;> decide)
    exact ⟨update_of_ne hqr _ _, rfl, rfl⟩
  | _ => exact ⟨rfl, rfl, rfl⟩

/-! ## Turns -/

/-- A step of a CPU outside the loop of `scheduler`: an effect, and the instructions before
the CPU after it. -/
structure Turn (s : St M N) (c : Fin M) (e : Effect N) (k : Code N) : Prop where
  active : (s.ctl c).active
  keeps : ∀ σ, Sees s c (s.ctl c).me σ → Wf (s.ctl c).me σ (s.cur c) →
    Keeps s (s.ctl c).me σ e k
  dead : e = .toSched → ∀ p, s.ctl c = .thread p → s.state p = .ZOMBIE → k = [.zombie]
  deep : ∀ j ∈ k.tail, j.Deep
  still : e = .toSched → ∀ j ∈ k, j.Deep
  wants : ∀ q sts, k.head?.bind Instr.wants = some (q, sts) →
    (s.apply c e).state q ∈ sts ∨ 0 < owed q k ∧ sts = [.USED]
  owed : ∀ q, owed q k = owed q (s.cur c) ∧
      (s.state q = .USED → (s.apply c e).state q = .USED) ∨
    owed q k + 1 = owed q (s.cur c) ∨
    owed q k = owed q (s.cur c) + 1 ∧ s.state q = .UNUSED ∧ (s.apply c e).state q = .USED

/-- The state after a turn. -/
def St.turn (s : St M N) (c : Fin M) (e : Effect N) (k : Code N) : St M N :=
  (s.setCur c k).apply c e

variable {t : St M N}

/-- The instructions of a thread or of a handler behind the next one. -/
theorem owes_of_deep {j : Instr N} (hj : j.Deep)
    (hq : j.wants = some (q, sts)) : j = .setReady q ∧ sts = [.USED] := by
  cases j <;> first | exact absurd hq.symm (Option.some_ne_none _) | exact hj.elim | skip
  cases hq
  exact ⟨rfl, rfl⟩

theorem head_wants {k : Code N} (hdeep : ∀ j ∈ k, j.Deep)
    (hq : k.head?.bind Instr.wants = some (q, sts)) : 0 < owed q k ∧ sts = [.USED] := by
  cases k with
  | nil => cases hq
  | cons j k =>
    obtain ⟨rfl, hsts⟩ := owes_of_deep (hdeep j List.mem_cons_self) hq
    refine ⟨?_, hsts⟩
    rw [owed_cons]
    exact Nat.lt_add_right _ (by simp [owed, Instr.owes])

/-- A CPU with instructions before it executes them. -/
theorem Inv.active (h : Inv s) (hcur : s.cur c = i :: k) : (s.ctl c).active := by
  have hok := h.cpu c
  rw [St.cur] at hcur
  cases hctl : s.ctl c with
  | thread p => trivial
  | panic =>
    rw [hctl] at hcur
    cases hcur
  | sched pre l =>
    rw [hctl] at hcur hok
    cases hcur
    cases l
    case next i => trivial
    all_goals exact absurd hok.1 (List.cons_ne_nil _ _)

/-- An instruction is a turn. -/
theorem Inv.exec (h : Inv s) {b : Bool} (hcur : s.cur c = i :: k)
    (hx : exec s c b i = some (e, new)) : Turn s c e (new ++ k) := by
  have hwant : ∀ q sts, i.wants = some (q, sts) → s.state q ∈ sts := by
    intro q sts hq
    refine h.heads c q sts ?_
    rw [hcur]
    exact hq
  have hact := h.active hcur
  have hdeep : ∀ j ∈ k, j.Deep := by
    have := h.deep c
    rw [hcur] at this
    exact this
  have hE := exec_cases hx
  obtain ⟨σ, hsees, hwf⟩ := (h.cpu c).view hact
  rw [hcur] at hwf
  refine ⟨hact, ?_, ?_, ?_, ?_, ?_, ?_⟩
  · intro σ hsees hwf
    rw [hcur] at hwf
    exact exec_wf hsees hwf hwant hx
  · rintro rfl p hctl hst
    obtain ⟨rfl, rfl⟩ := hE.toSched
    rw [hctl] at hwf hsees
    exact hwf.1.2.2.1 ((hsees.mine p rfl).1.symm.trans hst)
  · intro j hj
    cases new with
    | nil => exact hdeep j (List.mem_of_mem_tail hj)
    | cons i' new =>
      rcases List.mem_append.mp hj with hj | hj
      · exact hE.deep j hj
      · exact hdeep j hj
  · rintro rfl j hj
    obtain ⟨-, rfl⟩ := hE.toSched
    exact hdeep j hj
  · intro q sts hq
    cases new with
    | nil => exact .inr (head_wants hdeep hq)
    | cons i' new => exact .inl (hE.wants hwant hq)
  · intro q
    rw [hcur, owed_append, owed_cons q i k]
    have hsafe := (exec_wf hsees hwf hwant hx).1
    rcases hE.owed hwant hsafe hsees q with ⟨h1, h2⟩ | ⟨h1, h2⟩ | ⟨h1, h2, h3⟩
    · exact .inl ⟨by omega, h2⟩
    · exact .inr (.inl (by omega))
    · exact .inr (.inr ⟨by omega, h3⟩)

/-- Code without reliances is put before a CPU. -/
theorem Turn.idle (hact : (s.ctl c).active)
    (hwf : ∀ σ, Sees s c (s.ctl c).me σ → Wf (s.ctl c).me σ (s.cur c) →
      Wf (s.ctl c).me σ (new ++ k)) (hnew : Idle new) (hne : new ≠ []) (hk : ∀ j ∈ k, j.Deep)
    (howed : ∀ q, Sched.owed q k = Sched.owed q (s.cur c)) : Turn s c .nop (new ++ k) := by
  obtain ⟨i, new, rfl⟩ := List.exists_cons_of_ne_nil hne
  refine ⟨hact, fun σ hsees hcur => ⟨trivial, hwf σ hsees hcur⟩, (fun he => by cases he), ?_,
    (fun he => by cases he), ?_, ?_⟩
  · intro j hj
    rcases List.mem_append.mp hj with hj | hj
    · exact (hnew j (List.mem_cons_of_mem _ hj)).1
    · exact hk j hj
  · intro q sts hq
    have hi := (hnew i List.mem_cons_self).2.1
    rw [List.cons_append, List.head?_cons, Option.bind_some, hi] at hq
    cases hq
  · intro q
    refine .inl ⟨?_, id⟩
    rw [owed_append, hnew.owed q, Nat.zero_add]
    exact howed q

/-- Where no lock is held, the next instruction may be interrupted. -/
theorem Pre.deep (h : Pre me σ k i) (hheld : σ.held = []) : i.Deep := by
  have hsome : ∀ {l : Lock N} {H : List (Lock N)}, σ.held = l :: H → i.Deep := fun hH =>
    absurd (hH.symm.trans hheld) (List.cons_ne_nil _ _)
  cases i
  case wakeup ch todo => exact absurd hheld h.2.1
  case wakeAcquire ch q todo => exact absurd hheld h.2.1.1
  case wakeOne ch q todo =>
    obtain ⟨-, -, H, hH, -⟩ := h
    exact hsome hH
  case wakeRelease ch q todo =>
    obtain ⟨-, -, H, hH, -⟩ := h
    exact hsome hH
  case sleepAcquire ch lk => exact hsome h.2.2.1
  case sleepRelease ch lk =>
    obtain ⟨-, -, p, -, hH⟩ := h
    exact hsome hH
  case freeproc q =>
    have hmem := h.2.2
    rw [hheld] at hmem
    exact absurd hmem List.not_mem_nil
  case allocPid q => exact hsome h.2.2
  case takePid q => exact hsome h.2.2
  case dropPid q => exact hsome h.2.2
  case use q => exact hsome h.2.2
  case allocRest q => exact hsome h.2.2
  all_goals trivial

/-- The code before a CPU that holds no lock. -/
theorem Inv.deep_cur (h : Inv s) (hact : (s.ctl c).active) (hnoff : s.noff c = 0) :
    (∀ j ∈ s.cur c, j.Deep) ∧ ∀ σ, Sees s c (s.ctl c).me σ → σ = .free := by
  have hfree : ∀ σ, Sees s c (s.ctl c).me σ → σ = .free := by
    intro σ hsees
    have hheld : σ.held = [] := List.length_eq_zero_iff.mp (hsees.noff.symm.trans hnoff)
    have hst : σ.st = .RUNNING := by
      by_contra hst
      obtain ⟨p, -, hmem⟩ := hsees.own hst
      rw [hheld] at hmem
      exact List.not_mem_nil hmem
    obtain ⟨H, st, sv⟩ := σ
    cases hheld
    cases hst
    cases hsees.plain rfl
    rfl
  refine ⟨?_, hfree⟩
  obtain ⟨σ, hsees, hwf⟩ := (h.cpu c).view hact
  have hdeep := h.deep c
  cases hcur : s.cur c with
  | nil => exact fun j hj => absurd hj List.not_mem_nil
  | cons i k =>
    rw [hcur] at hwf hdeep
    intro j hj
    rcases List.mem_cons.mp hj with rfl | hj
    · exact Pre.deep hwf.1 (by rw [hfree σ hsees]; rfl)
    · exact hdeep j hj

/-! ## A turn keeps the invariant -/

theorem turn_ctl_of_ne (hc : c' ≠ c) : (s.turn c e k).ctl c' = s.ctl c' := by
  rw [St.turn]
  cases e
  case toSched => exact (update_of_ne hc _ _).trans (setCur_ctl_of_ne s c k hc)
  case panic => exact (update_of_ne hc _ _).trans (setCur_ctl_of_ne s c k hc)
  all_goals exact setCur_ctl_of_ne s c k hc

theorem turn_state : (s.turn c e k).state = (s.apply c e).state := by
  rw [St.turn]
  cases e <;> simp [St.apply]

theorem turn_saved : (s.turn c e k).saved = (s.apply c e).saved := by
  rw [St.turn]
  cases e <;> simp [St.apply]

theorem turn_lock : (s.turn c e k).lock = (s.apply c e).lock := by
  rw [St.turn]
  cases e <;> simp [St.apply]

theorem turn_noff : (s.turn c e k).noff = (s.apply c e).noff := by
  rw [St.turn]
  cases e <;> simp [St.apply]

theorem turn_cproc : (s.turn c e k).cproc = s.cproc := by
  rw [St.turn]
  cases e <;> simp [St.apply]

theorem turn_context : (s.turn c e k).context = s.context := by
  rw [St.turn]
  cases e <;> simp [St.apply]

theorem turn_code_of_ne (hq : (s.ctl c).me ≠ some q) :
    (s.turn c e k).code q = (s.apply c e).code q := by
  rw [St.turn]
  have hcode := setCur_code_of_ne s c k hq
  cases e
  case birth r =>
    simp only [St.apply]
    by_cases hqr : q = r
    · rw [hqr, update_self, update_self]
    · rw [update_of_ne hqr, update_of_ne hqr]
      exact hcode
  all_goals exact hcode

/-- A turn leaves the other processes alone. -/
theorem turn_same (hs : Sees s c (s.ctl c).me σ) (hsafe : Safe s (s.ctl c).me σ e)
    (hq : (s.ctl c).me ≠ some q)
    (hfar : s.lock (.proc q) ≠ some c ∨ s.state q = .RUNNING) : Same s (s.turn c e k) q := by
  have h := hsafe.same hs hq hfar
  refine ⟨?_, ?_, ?_⟩
  · rw [turn_state]
    exact h.state
  · rw [turn_saved]
    exact h.saved
  · rw [turn_code_of_ne hq]
    exact h.code

theorem safe_setCur (k : Code N) : Safe (s.setCur c k) me σ e ↔ Safe s me σ e := by
  cases e <;> simp [Safe]

/-- What the CPU sees after its turn. -/
theorem Sees.turn (h : Sees s c me σ) (hsafe : Safe s me σ e) (he : e ≠ .toSched) (k : Code N) :
    Sees (s.turn c e k) c me (e.view me σ) := 
  (h.setCur k).apply ((safe_setCur k).mpr hsafe) he

theorem turn_ctl_self (hsafe : Safe s me σ e) (he : e ≠ .toSched) :
    (s.turn c e k).ctl c = (s.setCur c k).ctl c := by
  rw [St.turn]
  cases e
  case toSched => exact absurd rfl he
  case panic => exact hsafe.elim
  all_goals rfl

theorem turn_ctl_toSched : (s.turn c .toSched k).ctl c = .sched [] (s.context c) := by
  rw [St.turn, St.apply, setCur_context]
  exact update_self _ _ _

theorem setCur_ctl_thread (hctl : s.ctl c = .thread p) : (s.setCur c k).ctl = s.ctl := by
  rw [St.setCur, hctl]

theorem setCur_ctl_sched {l : Loop N} (hctl : s.ctl c = .sched pre l) :
    (s.setCur c k).ctl c = .sched k l := by
  rw [St.setCur, hctl]
  exact update_self _ _ _

theorem turn_code_self (hctl : s.ctl c = .thread p) (hsafe : Safe s (some p) σ e) :
    (s.turn c e k).code p = k := by
  have hcode : (s.setCur c k).code p = k := by
    rw [St.setCur, hctl]
    exact update_self _ _ _
  rw [St.turn]
  cases e
  case birth q =>
    have hpq : p ≠ q := fun heq => hsafe.2.1 (congrArg some heq)
    exact (update_of_ne hpq _ _).trans hcode
  all_goals exact hcode

/-- The CPU of a thread after the turn. -/
theorem Turn.cpu_thread (h : Inv s) (ht : Turn s c e k) (hctl : s.ctl c = .thread p) :
    CtlOk (s.turn c e k) c ((s.turn c e k).ctl c) := by
  have hok := h.cpu c
  have hkeeps := ht.keeps
  have hcur : s.cur c = s.code p := by rw [St.cur, hctl]
  rw [hcur] at hkeeps
  rw [hctl] at hok hkeeps
  obtain ⟨hctx, H, hsees, hwf⟩ := hok
  obtain ⟨hsafe, hwf'⟩ := hkeeps _ hsees hwf
  have hcode := turn_code_self (k := k) hctl hsafe
  by_cases he : e = .toSched
  · subst he
    obtain ⟨hst, hsaved, q, hq, hheld⟩ := hsafe
    cases hq
    rw [turn_ctl_toSched, hctx]
    refine ⟨rfl, ?_, ?_, ?_⟩
    · rw [turn_cproc]
      exact hsees.cproc
    · have hl := hsees.toLocks
      rw [hheld] at hl
      refine ⟨hl.nodup, fun l => ?_, ?_⟩
      · rw [turn_lock]
        exact hl.held l
      · rw [turn_noff]
        exact hl.noff
    · have hres : s.state p ≠ .ZOMBIE → Resumable (s.turn c .toSched k) p := by
        intro hz
        rw [Effect.view, View.resumed, if_neg hz, hheld] at hwf'
        refine ⟨?_, ?_⟩
        · rw [turn_saved]
          exact hsaved
        · rw [hcode]
          exact hwf'
      rw [Parked, turn_state]
      rcases hst with hst | hst | hst
      · have hst' : s.state p = .RUNNABLE := hst
        simp only [St.apply, hst']
        exact hres (by rw [hst']; decide)
      · have hst' : s.state p = .SLEEPING := hst
        simp only [St.apply, hst']
        exact hres (by rw [hst']; decide)
      · have hst' : s.state p = .ZOMBIE := hst
        simp only [St.apply, hst', hcode]
        exact .inr (.inl (ht.dead rfl p hctl hst'))
  · have hsees' := hsees.turn hsafe he k
    rw [turn_ctl_self hsafe he, setCur_ctl_thread hctl, hctl]
    refine ⟨?_, (e.view (some p) ⟨H, s.state p, s.saved p⟩).held, ?_⟩
    · rw [turn_context]
      exact hctx
    · obtain ⟨hst, hsv⟩ := hsees'.mine p rfl
      rw [hst, hsv, hcode]
      exact ⟨hsees', hwf'⟩

/-- An interrupt handler has no process of its own to change. -/
theorem view_none (hsafe : Safe s none σ e) (he : e ≠ .toSched) :
    (e.view none σ).st = σ.st ∧ (e.view none σ).saved = σ.saved := by
  cases e
  case saved p b => cases hsafe.1
  case toSched => exact absurd rfl he
  all_goals exact ⟨rfl, rfl⟩

/-- The CPU of an interrupt handler in the scheduler after the turn. -/
theorem Turn.cpu_sched (h : Inv s) (ht : Turn s c e k) {i : Fin N}
    (hctl : s.ctl c = .sched pre (.next i)) : CtlOk (s.turn c e k) c ((s.turn c e k).ctl c) := by
  have hok := h.cpu c
  have hkeeps := ht.keeps
  have hcur : s.cur c = pre := by rw [St.cur, hctl]
  rw [hcur] at hkeeps
  rw [hctl] at hok hkeeps
  obtain ⟨H, hsees, hwf⟩ := hok
  obtain ⟨hsafe, hwf'⟩ := hkeeps _ hsees hwf
  have he : e ≠ .toSched := by
    rintro rfl
    obtain ⟨-, -, p, hp, -⟩ := hsafe
    cases hp
  rw [turn_ctl_self hsafe he, setCur_ctl_sched hctl]
  obtain ⟨hst, hsv⟩ := view_none hsafe he
  have hview : e.view none ⟨H, .RUNNING, false⟩ =
      ⟨(e.view none ⟨H, .RUNNING, false⟩).held, .RUNNING, false⟩ := View.ext rfl hst hsv
  refine ⟨(e.view none ⟨H, .RUNNING, false⟩).held, ?_, ?_⟩
  · rw [← hview]
    exact hsees.turn hsafe he k
  · rw [← hview]
    exact hwf'

/-- What the CPU sees, and that the effect is safe. -/
theorem Turn.sees (h : Inv s) (ht : Turn s c e k) :
    ∃ σ, Sees s c (s.ctl c).me σ ∧ Wf (s.ctl c).me σ (s.cur c) ∧ Safe s (s.ctl c).me σ e := by
  obtain ⟨σ, hsees, hwf⟩ := (h.cpu c).view ht.active
  exact ⟨σ, hsees, hwf, (ht.keeps σ hsees hwf).1⟩

/-- Where the CPU is after the turn. -/
theorem Turn.ctl (h : Inv s) (ht : Turn s c e k) :
    (∃ p, s.ctl c = .thread p ∧ e ≠ .toSched ∧ (s.turn c e k).ctl c = .thread p) ∨
    (∃ p, s.ctl c = .thread p ∧ e = .toSched ∧ (s.turn c e k).ctl c = .sched [] (.back p)) ∨
    ∃ pre i, s.ctl c = .sched pre (.next i) ∧ (s.turn c e k).ctl c = .sched k (.next i) := by
  obtain ⟨σ, hsees, -, hsafe⟩ := ht.sees h
  have hact := ht.active
  cases hctl : s.ctl c with
  | panic =>
    rw [hctl] at hact
    exact hact.elim
  | thread p =>
    have hok := h.cpu c
    rw [hctl] at hok
    by_cases he : e = .toSched
    · subst he
      refine .inr (.inl ⟨p, rfl, rfl, ?_⟩)
      rw [turn_ctl_toSched, hok.1]
    · refine .inl ⟨p, rfl, he, ?_⟩
      rw [turn_ctl_self hsafe he, setCur_ctl_thread hctl, hctl]
  | sched pre l =>
    rw [hctl] at hact hsafe
    cases l
    case next i =>
      refine .inr (.inr ⟨pre, i, rfl, ?_⟩)
      have he : e ≠ .toSched := by
        rintro rfl
        obtain ⟨-, -, p, hp, -⟩ := hsafe
        cases hp
      rw [turn_ctl_self hsafe he, setCur_ctl_sched hctl]
    all_goals exact hact.elim

/-- A turn does not change who has taken on whom. -/
theorem Turn.engaged (h : Inv s) (ht : Turn s c e k) (c' : Fin M) :
    ((s.turn c e k).ctl c').engaged = (s.ctl c').engaged := by
  by_cases hc : c' = c
  · subst hc
    rcases ht.ctl h with ⟨p, h1, -, h2⟩ | ⟨p, h1, -, h2⟩ | ⟨pre, i, h1, h2⟩
    all_goals simp only [h1, h2, Ctl.engaged]
  · rw [turn_ctl_of_ne hc]

theorem Ctl.engaged_of_me {k : Ctl N} (h : k.me = some p) : k.engaged = some p := by
  cases k with
  | thread q => exact h
  | sched pre l => cases h
  | panic => cases h

theorem Ctl.watches_of_engaged {k : Ctl N} (h : k.engaged = some p) : k.watches = some p := by
  cases k with
  | thread q => exact h
  | sched pre l => cases l <;> first | exact h | cases h
  | panic => cases h

/-- A CPU that relies on a process has taken it on, or is about to. -/
theorem CtlOk.taking (h : CtlOk s c (s.ctl c)) (hq : (s.ctl c).watches = some q) :
    (s.ctl c).engaged = some q ∨ s.state q = .RUNNABLE ∧ s.lock (.proc q) = some c := by
  cases hctl : s.ctl c with
  | thread p =>
    rw [hctl] at hq
    exact .inl hq
  | panic =>
    rw [hctl] at h
    exact h.elim
  | sched pre l =>
    rw [hctl] at h hq
    cases l
    case setState i =>
      cases hq
      exact .inr ⟨h.2.2.2, (h.2.2.1.held _).mpr (List.mem_singleton_self _)⟩
    all_goals exact .inl hq

/-- The process of a CPU is relied on by no other. -/
theorem Inv.sole (h : Inv s) {c : Fin M} (hq : (s.ctl c).engaged = some q)
    (hq' : (s.ctl c').watches = some q) : c' = c := by
  rcases (h.cpu c').taking hq' with heng | ⟨hst, hlock⟩
  · exact h.apart c' c q heng hq
  · rcases (h.cpu c).watching (Ctl.watches_of_engaged hq) with hlock' | ⟨-, hrun⟩
    · exact Option.some.inj (hlock.symm.trans hlock')
    · rw [hst] at hrun
      cases hrun

/-- A process that another CPU relies on is left alone. -/
theorem Turn.watched (h : Inv s) (ht : Turn s c e k) (hc : c' ≠ c)
    (hq : (s.ctl c').watches = some q) : Same s (s.turn c e k) q := by
  obtain ⟨σ, hsees, -, hsafe⟩ := ht.sees h
  refine turn_same hsees hsafe ?_ ?_
  · exact fun hme => hc (h.sole (Ctl.engaged_of_me hme) hq)
  · rcases (h.cpu c').watching hq with hlock | ⟨-, hrun⟩
    · left
      rw [hlock]
      exact fun heq => hc (Option.some.inj heq)
    · exact .inr hrun

/-- The locks of a CPU when a lock passes between others. -/
theorem locks_update {l' : Lock N} {o : Option (Fin M)} (ho : o ≠ some c)
    (hl' : s.lock l' ≠ some c) (l : Lock N) :
    update s.lock l' o l = some c ↔ s.lock l = some c := by
  by_cases hl : l = l'
  · subst hl
    rw [update_self]
    exact ⟨fun h => absurd h ho, fun h => absurd h hl'⟩
  · rw [update_of_ne hl]

/-- The locks of the other CPUs after the turn. -/
theorem Safe.locks_of_ne (hs : Sees s c me σ) (hsafe : Safe s me σ e) (hc : c' ≠ c)
    (l : Lock N) : (s.apply c e).lock l = some c' ↔ s.lock l = some c' := by
  have hheld : ∀ {l' : Lock N}, l' ∈ σ.held → s.lock l' ≠ some c' := by
    intro l' hl' heq
    have := (hs.held l').mpr hl'
    exact hc (Option.some.inj (heq.symm.trans this))
  cases e
  case acquire l' =>
    refine locks_update (fun h => hc (Option.some.inj h).symm) ?_ l
    rw [hsafe.2]
    exact (Option.some_ne_none c').symm
  case release l' => exact locks_update (Option.some_ne_none c').symm (hheld hsafe.1) l
  case drop p ch lk =>
    refine locks_update (Option.some_ne_none c').symm (hheld ?_) l
    rw [hsafe.2.2.1]
    simp
  all_goals exact Iff.rfl

theorem apply_noff_of_ne (hc : c' ≠ c) : (s.apply c e).noff c' = s.noff c' := by
  cases e
  case acquire l => exact update_of_ne hc _ _
  case release l => exact update_of_ne hc _ _
  case drop p ch lk => exact update_of_ne hc _ _
  all_goals rfl

/-- Every CPU is in order after the turn. -/
theorem Turn.cpu (h : Inv s) (ht : Turn s c e k) (c' : Fin M) :
    CtlOk (s.turn c e k) c' ((s.turn c e k).ctl c') := by
  by_cases hc : c' = c
  · subst hc
    have hact := ht.active
    cases hctl : s.ctl c' with
    | thread p => exact ht.cpu_thread h hctl
    | panic =>
      rw [hctl] at hact
      exact hact.elim
    | sched pre l =>
      rw [hctl] at hact
      cases l
      case next i => exact ht.cpu_sched h hctl
      all_goals exact hact.elim
  · obtain ⟨σ, hsees, -, hsafe⟩ := ht.sees h
    rw [turn_ctl_of_ne hc]
    refine (h.cpu c').frame (fun l => ?_) ?_ ?_ ?_ (fun q hq => ht.watched h hc hq)
    · rw [turn_lock]
      exact hsafe.locks_of_ne hsees hc l
    · rw [turn_noff]
      exact apply_noff_of_ne hc
    · rw [turn_cproc]
    · rw [turn_context]

/-- A process that no CPU has taken on is parked after the turn. -/
theorem Turn.parked (h : Inv s) (ht : Turn s c e k)
    (hp : ∀ c', (s.ctl c').engaged ≠ some p) : Parked (s.turn c e k) p := by
  obtain ⟨σ, hsees, -, hsafe⟩ := ht.sees h
  have hpark := h.off p hp
  have hme : (s.ctl c).me ≠ some p := fun hme => hp c (Ctl.engaged_of_me hme)
  have hother : Same s (s.apply c e) p → Parked (s.turn c e k) p := by
    intro hsame
    refine Same.parked ⟨?_, ?_, ?_⟩ hpark
    · rw [turn_state]
      exact hsame.state
    · rw [turn_saved]
      exact hsame.saved
    · rw [turn_code_of_ne hme]
      exact hsame.code
  cases e
  case state q st =>
    by_cases hpq : p = q
    · subst hpq
      obtain ⟨-, ⟨hq, -⟩ | ⟨-, hst, rfl⟩⟩ := hsafe
      · exact absurd hq hme
      · rw [Parked, turn_state]
        simp only [St.apply, update_self]
        rw [Resumable, turn_saved, turn_code_of_ne hme]
        rcases hst with hst | hst
        · exact hpark.resumable (.inr hst)
        · rw [Parked, hst] at hpark
          refine ⟨hpark.1, ?_⟩
          show Wf (some p) ⟨[.proc p], .RUNNING, false⟩ (s.code p)
          rw [hpark.2]
          exact forkret_wf p
    · exact hother ⟨update_of_ne hpq _ _, rfl, rfl⟩
  case birth q =>
    by_cases hpq : p = q
    · subst hpq
      rw [Parked, turn_state, turn_saved, turn_code_of_ne hme]
      simp [St.apply]
    · exact hother ⟨update_of_ne hpq _ _, update_of_ne hpq _ _,
        update_of_ne hpq _ _⟩
  case free q =>
    by_cases hpq : p = q
    · subst hpq
      rw [Parked, turn_state, turn_code_of_ne hme]
      simp only [St.apply, update_self]
      rcases hsafe.2.2 with hst | hst
      · rw [Parked, hst] at hpark
        exact .inr (.inr ⟨p, hpark.2⟩)
      · rw [Parked, hst] at hpark
        exact hpark
    · exact hother ⟨update_of_ne hpq _ _, rfl, rfl⟩
  case saved q b =>
    have hpq : p ≠ q := fun heq => hme (by rw [hsafe.1, heq])
    exact hother ⟨rfl, update_of_ne hpq _ _, rfl⟩
  all_goals exact hother ⟨rfl, rfl, rfl⟩

/-- The instructions before a CPU after the turn. -/
theorem Turn.cur_self (h : Inv s) (ht : Turn s c e k) :
    (s.turn c e k).cur c = k ∨ (s.turn c e k).cur c = [] ∧ e = .toSched := by
  obtain ⟨σ, hsees, -, hsafe⟩ := ht.sees h
  rcases ht.ctl h with ⟨p, h1, -, h2⟩ | ⟨p, -, he, h2⟩ | ⟨pre, i, -, h2⟩
  · left
    rw [h1] at hsafe
    rw [St.cur, h2]
    exact turn_code_self h1 hsafe
  · right
    rw [St.cur, h2]
    exact ⟨rfl, he⟩
  · left
    rw [St.cur, h2]

theorem Turn.cur_of_ne (h : Inv s) (ht : Turn s c e k) (hc : c' ≠ c) :
    (s.turn c e k).cur c' = s.cur c' := by
  rw [St.cur, St.cur, turn_ctl_of_ne hc]
  cases hctl : s.ctl c' with
  | thread p => exact (ht.watched h hc (by rw [hctl]; rfl)).code
  | sched pre l => rfl
  | panic => rfl

/-- The code of a process that runs nowhere after the turn. -/
theorem Turn.still_code (h : Inv s) (ht : Turn s c e k)
    (hp : ∀ c', (s.turn c e k).ctl c' ≠ .thread p) : ∀ j ∈ (s.turn c e k).code p, j.Deep := by
  obtain ⟨σ, hsees, -, hsafe⟩ := ht.sees h
  by_cases hme : (s.ctl c).me = some p
  · rcases ht.ctl h with ⟨q, h1, -, h2⟩ | ⟨q, h1, he, -⟩ | ⟨pre, i, h1, -⟩
    · rw [h1] at hme
      cases hme
      exact absurd h2 (hp c)
    · rw [h1] at hme hsafe
      cases hme
      rw [turn_code_self h1 hsafe]
      exact ht.still he
    · rw [h1] at hme
      cases hme
  · have hnot : ∀ c', s.ctl c' ≠ .thread p := by
      intro c' hctl
      by_cases hc : c' = c
      · subst hc
        exact hme (by rw [hctl]; rfl)
      · exact hp c' ((turn_ctl_of_ne hc).trans hctl)
    have hstill := h.still p hnot
    rw [turn_code_of_ne hme]
    cases e
    case birth q =>
      simp only [St.apply]
      by_cases hpq : p = q
      · subst hpq
        rw [update_self]
        simp [forkret, Instr.Deep]
      · rw [update_of_ne hpq]
        exact hstill
    all_goals exact hstill

theorem Dead.owed {k : Code N} (h : Dead k) (q : Fin N) : Sched.owed q k = 0 := by
  rcases h with rfl | rfl | ⟨p, rfl⟩ <;> rfl

/-- An unused process is not taken on by anybody. -/
theorem Inv.unused (h : Inv s) (hs : Sees s c (s.ctl c).me σ) (hact : (s.ctl c).active)
    {r : Fin N} (hmem : .proc r ∈ σ.held) (hne : (s.ctl c).me ≠ some r)
    (hst : s.state r = .UNUSED) : ∀ c', (s.ctl c').engaged ≠ some r := by
  intro c' heng
  rcases (h.cpu c').watching (Ctl.watches_of_engaged heng) with hlock | ⟨-, hrun⟩
  · obtain rfl : c' = c := Option.some.inj (hlock.symm.trans ((hs.held _).mpr hmem))
    cases hctl : s.ctl c' with
    | thread p =>
      rw [hctl] at heng hne
      exact hne heng
    | panic =>
      rw [hctl] at hact
      exact hact
    | sched pre l =>
      rw [hctl] at heng hact
      cases l <;> first | exact hact | cases heng
  · rw [hst] at hrun
    cases hrun

/-- What a turn does to a tally of the instructions of all threads. -/
theorem Turn.tally (h : Inv s) (ht : Turn s c e k) (φ : Code N → ℕ)
    (hdead : ∀ k, Dead k → φ k = 0) (hnone : ∀ σ k, Wf none σ k → φ k = 0) :
    ∑ p, φ ((s.turn c e k).code p) + φ (s.cur c) = ∑ p, φ (s.code p) + φ k := by
  obtain ⟨σ, hsees, hwf, hsafe⟩ := ht.sees h
  -- first the code of the CPU itself
  have hset : ∑ p, φ ((s.setCur c k).code p) + φ (s.cur c) = ∑ p, φ (s.code p) + φ k := by
    have hact := ht.active
    rw [St.cur, St.setCur]
    cases hctl : s.ctl c with
    | thread p => exact Tally.sum_update φ s.code p k
    | panic =>
      rw [hctl] at hact
      exact hact.elim
    | sched pre l =>
      have hwf' := (ht.keeps σ hsees hwf).2
      rw [hctl] at hwf hwf'
      rw [St.cur, hctl] at hwf
      simp only [hnone _ _ hwf, hnone _ _ hwf']
  rw [← hset, St.turn]
  congr 1
  cases e
  case birth r =>
    have hpark := h.off r (h.unused hsees ht.active hsafe.1 hsafe.2.1 hsafe.2.2)
    rw [Parked, hsafe.2.2] at hpark
    have hsum := Tally.sum_update φ (s.setCur c k).code r (forkret r)
    rw [setCur_code_of_ne s c k hsafe.2.1, hdead _ hpark, hdead _ (.inr (.inr ⟨r, rfl⟩))] at hsum
    exact hsum
  all_goals rfl

/-- The state of a process changes under its lock. -/
theorem Safe.state_eq (hs : Sees s c me σ) (hsafe : Safe s me σ e)
    (hq : s.lock (.proc q) ≠ some c) : (s.apply c e).state q = s.state q := by
  have hne : ∀ {r : Fin N}, .proc r ∈ σ.held → q ≠ r := by
    rintro r hmem rfl
    exact hq ((hs.held _).mpr hmem)
  cases e
  case state r st => exact update_of_ne (hne hsafe.1) _ _
  case birth r => exact update_of_ne (hne hsafe.1) _ _
  case free r => exact update_of_ne (hne hsafe.1) _ _
  all_goals rfl

/-- What an instruction relies on is protected by the lock of the process. -/
theorem Pre.wants_held (h : Pre me σ k i) (hq : i.wants = some (q, sts)) : .proc q ∈ σ.held := by
  cases i <;> first | exact absurd hq.symm (Option.some_ne_none _) | skip
  case freeproc r => cases hq; exact h.2.2
  all_goals
    cases hq
    rw [h.2.2]
    simp

/-- The lock behind what the next instruction of a CPU relies on. -/
theorem Inv.heads_held (h : Inv s)
    (hq : (s.cur c).head?.bind Instr.wants = some (q, sts)) : s.lock (.proc q) = some c := by
  cases hcur : s.cur c with
  | nil =>
    rw [hcur] at hq
    cases hq
  | cons j k =>
    obtain ⟨σ, hsees, hwf⟩ := (h.cpu c).view (h.active hcur)
    rw [hcur] at hq hwf
    exact (hsees.held _).mpr (Pre.wants_held hwf.1 hq)

/-- What a process owes is part of what is owed. -/
theorem owed_le_sum (s : St M N) (p q : Fin N) : owed q (s.code p) ≤ ∑ p, owed q (s.code p) :=
  Finset.single_le_sum (f := fun p => owed q (s.code p)) (fun _ _ => Nat.zero_le _)
    (Finset.mem_univ p)

/-- What the CPU itself owes is part of what is owed. -/
theorem Inv.owed_cur_le (h : Inv s) (hact : (s.ctl c).active) (q : Fin N) :
    owed q (s.cur c) ≤ ∑ p, owed q (s.code p) := by
  obtain ⟨σ, -, hwf⟩ := (h.cpu c).view hact
  rw [St.cur] at hwf ⊢
  cases hctl : s.ctl c with
  | thread p => exact owed_le_sum s p q
  | panic => exact Nat.zero_le _
  | sched pre l =>
    rw [hctl] at hwf
    rw [Wf.owed_none q hwf]
    exact Nat.zero_le _

/-- **A turn keeps the invariant.** -/
theorem Inv.turn (h : Inv s) (ht : Turn s c e k) : Inv (s.turn c e k) := by
  obtain ⟨σ, hsees, -, hsafe⟩ := ht.sees h
  have htally : ∀ q, ∑ p, owed q ((s.turn c e k).code p) + owed q (s.cur c) =
      ∑ p, owed q (s.code p) + owed q k := fun q =>
    ht.tally h (owed q) (fun _ hk => hk.owed q) fun _ _ hk => hk.owed_none q
  have hused : ∀ q, 0 < ∑ p, owed q ((s.turn c e k).code p) → (s.turn c e k).state q = .USED := by
    intro q hpos
    have hq := htally q
    have honce := h.once q
    rw [turn_state]
    rcases ht.owed q with ⟨h1, h2⟩ | h1 | ⟨-, -, h2⟩
    · exact h2 (h.used q (by omega))
    · omega
    · exact h2
  refine ⟨ht.cpu h, ?_, ?_, ?_, fun p => ht.still_code h, ?_, ?_, hused⟩
  · intro c' c'' p h1 h2
    rw [ht.engaged h] at h1 h2
    exact h.apart c' c'' p h1 h2
  · intro p hp
    exact ht.parked h fun c' => by rw [← ht.engaged h]; exact hp c'
  · intro c' j hj
    by_cases hc : c' = c
    · subst hc
      rcases ht.cur_self h with hcur | ⟨hcur, -⟩
      · rw [hcur] at hj
        exact ht.deep j hj
      · rw [hcur] at hj
        exact absurd hj List.not_mem_nil
    · rw [ht.cur_of_ne h hc] at hj
      exact h.deep c' j hj
  · intro c' q sts hq
    by_cases hc : c' = c
    · subst hc
      rcases ht.cur_self h with hcur | ⟨hcur, -⟩
      · rw [hcur] at hq
        rcases ht.wants q sts hq with hmem | ⟨hpos, rfl⟩
        · rw [turn_state]
          exact hmem
        · -- a child that is owed is `USED`
          have hq := htally q
          have hle := h.owed_cur_le ht.active q
          rw [hused q (by omega)]
          exact List.mem_singleton_self _
      · rw [hcur] at hq
        cases hq
    · rw [ht.cur_of_ne h hc] at hq
      rw [turn_state, hsafe.state_eq hsees]
      · exact h.heads c' q sts hq
      · rw [h.heads_held hq]
        exact fun heq => hc (Option.some.inj heq)
  · intro q
    have hq := htally q
    have honce := h.once q
    rcases ht.owed q with ⟨h1, -⟩ | h1 | ⟨h1, h2, -⟩
    · omega
    · omega
    · have hnot : ¬0 < ∑ p, owed q (s.code p) := by
        intro hpos
        have := h.used q hpos
        rw [h2] at this
        cases this
      omega

end Sched

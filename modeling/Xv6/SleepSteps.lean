/-
# Sleepers and wakeups

`sleep(chan, lk)` takes `p->lock` before it releases `lk` and sets `SLEEPING` after, and
`wakeup(chan)` looks at each process under its lock.  From the release of `lk` until the
process is made `RUNNABLE` the ghost `doze` records the channel and the lock.

* `Naps` is the invariant: a process with a `doze` is `SLEEPING` on the channel or holds its
  own lock and is about to be; a `wakeup` that holds `lk` has before it every process that
  dozes on its channel with `lk`; a sleep-lock has one holder when it is locked;
* `Nap` says what a step can do to all this, on top of `Turn`: the lemmas on `Exec` are about
  one instruction, and **`Source.nap`** is about every turn.
-/
import Xv6.SchedRun

namespace Sched

open Transition

variable {M N : ℕ} {s : St M N} {c : Fin M} {e : Effect N} {k : Code N}

/-! ## Who sleeps, and whom a wakeup has before it -/

/-- The process is on a CPU and about to set `SLEEPING`. -/
def Going (s : St M N) (p : Fin N) (ch : Chan N) : Prop :=
  ∃ c k, s.ctl c = .thread p ∧ .setState .SLEEPING ∉ k ∧
    (s.code p = .setChan (some ch) :: .setState .SLEEPING :: k ∨
      s.code p = .setState .SLEEPING :: k ∧ s.chan p = some ch)

/-- The channel of a `wakeup`, and the processes it has before it. -/
def Instr.visits : Instr N → Option (Chan N × List (Fin N))
  | .wakeup ch todo | .wakeRelease ch _ todo => some (ch, todo)
  | .wakeAcquire ch q todo | .wakeOne ch q todo => some (ch, q :: todo)
  | _ => none

/-- The `wakeup` that a CPU is in. -/
def pending (k : Code N) : Option (Chan N × List (Fin N)) := k.head?.bind Instr.visits

/-- The sleep-lock and spin lock with which a CPU is about to sleep. -/
def Instr.naps : Instr N → Option (ℕ × Lock N)
  | .sleepAcquire (.sleep i) lk | .sleepRelease (.sleep i) lk => some (i, lk)
  | _ => none

/-- The sleep-lock that an instruction is executed under. -/
def Instr.holds : Instr N → Option ℕ
  | .critical i | .unlock i => some i
  | _ => none

/-- How often a thread is between `acquiresleep` and `releasesleep` of a sleep-lock. -/
def inside (i : ℕ) (k : Code N) : ℕ := k.countP fun j => j.holds = some i

structure Naps (s : St M N) : Prop where
  doze : ∀ p ch lk, s.doze p = some (ch, lk) →
    s.state p = .SLEEPING ∧ s.chan p = some ch ∨ Going s p ch
  asleep : ∀ p, s.state p = .SLEEPING → ∃ ch lk, s.chan p = some ch ∧ s.doze p = some (ch, lk)
  going : ∀ p, .setState .SLEEPING ∈ s.code p → ∃ ch lk, s.doze p = some (ch, lk) ∧ Going s p ch
  wake : ∀ c ch todo, pending (s.cur c) = some (ch, todo) → ∀ lk, lk.isProc = false →
    s.lock lk = some c → ∀ p, s.doze p = some (ch, lk) → p ∈ todo
  asks : ∀ c i lk, (s.cur c).head?.bind Instr.naps = some (i, lk) →
    lk = .sleep i ∧ s.locked i = true
  holders : ∀ i, ∑ p, inside i (s.code p) = if s.locked i then 1 else 0
  woken : ∀ p i lk, s.doze p = some (.sleep i, lk) → lk = .sleep i ∧
    (s.locked i = true ∨
      ∃ c todo, s.lock (.sleep i) = some c ∧ pending (s.cur c) = some (.sleep i, todo))

/-! ## Steps -/

/-- What a turn can do to the sleepers, on top of `Turn`. -/
structure Nap (s : St M N) (c : Fin M) (e : Effect N) (k : Code N) : Prop where
  turn : Turn s c e k
  new : .setState .SLEEPING ∈ k → .setState .SLEEPING ∈ s.cur c ∨ ∃ p ch lk, e = .drop p ch lk
  drop : ∀ p ch lk, e = .drop p ch lk →
    ∃ k', s.cur c = .sleepRelease ch lk :: k' ∧ k = sleepRest p ch lk ++ k'
  call : ∀ ch lk k', s.cur c = .sleepAcquire ch lk :: k' →
    k = .sleepRelease ch lk :: k' ∧ e ≠ .toSched
  release : ∀ ch lk k', s.cur c = .sleepRelease ch lk :: k' → ∃ p, e = .drop p ch lk
  chan : ∀ ch k', s.cur c = .setChan ch :: k' → k = k' ∧ ∃ p, e = .chan p ch
  sleep : ∀ k', s.cur c = .setState .SLEEPING :: k' → k = k' ∧ ∃ p, e = .state p .SLEEPING
  state : ∀ p, e = .state p .SLEEPING → ∃ k', s.cur c = .setState .SLEEPING :: k'
  fresh : ∀ ch todo, pending k = some (ch, todo) → (∀ p, p ∈ todo) ∨
    ∃ todo', pending (s.cur c) = some (ch, todo') ∧
      (∀ lk, lk.isProc = false → (s.apply c e).lock lk = s.lock lk) ∧
      (todo' = todo ∨ ∃ q, todo' = q :: todo ∧
        (s.cproc c = some q ∨ e = .state q .RUNNABLE ∨
          s.lock (.proc q) = some c ∧ ¬(s.state q = .SLEEPING ∧ s.chan q = some ch)))
  keeps : ∀ ch todo lk, pending (s.cur c) = some (ch, todo) → lk.isProc = false →
    s.lock lk = some c → todo = [] ∨
      (s.apply c e).lock lk = some c ∧ ∃ todo', pending k = some (ch, todo')
  asks : ∀ i lk, k.head?.bind Instr.naps = some (i, lk) → (s.apply c e).locked = s.locked ∧
    (lk = .sleep i ∧ s.locked i = true ∨ (s.cur c).head?.bind Instr.naps = some (i, lk))
  holders : ∀ i, inside i k = inside i (s.cur c) ∧ (s.apply c e).locked i = s.locked i ∨
    inside i k = inside i (s.cur c) + 1 ∧ s.locked i = false ∧ (s.apply c e).locked i = true ∨
    inside i k + 1 = inside i (s.cur c) ∧ (s.apply c e).locked i = false
  unlock : ∀ i, e = .locked i false → s.lock (.sleep i) = some c ∧
    ∃ todo, pending k = some (.sleep i, todo)

variable {i : Instr N} {new : Code N}

/-! ### What an instruction does -/

/-- Only `sleep` puts a thread to sleep. -/
theorem Exec.sleeps (hx : Exec s c i e new) (h : .setState .SLEEPING ∈ new) :
    ∃ p ch lk, e = .drop p ch lk := by
  cases hx
  case sleepRelease => exact ⟨_, _, _, rfl⟩
  all_goals simp [sleep, wakeup, forkRest] at h

variable {p : Fin N} {ch : Chan N} {lk : Lock N} {todo : List (Fin N)} {n : ℕ} {j : Instr N}

theorem Exec.drop (hx : Exec s c i (.drop p ch lk) new) :
    i = .sleepRelease ch lk ∧ new = sleepRest p ch lk := by
  cases hx
  exact ⟨rfl, rfl⟩

theorem Exec.state_sleeping (hx : Exec s c i (.state p .SLEEPING) new) :
    i = .setState .SLEEPING := by
  cases hx
  rfl

/-- The effects of `wakeup`: the locks of processes, and `RUNNABLE`. -/
def Effect.OfWakeup : Effect N → Prop
  | .nop | .acquire (.proc _) | .release (.proc _) | .state _ .RUNNABLE => True
  | _ => False

theorem Effect.OfWakeup.lock (h : e.OfWakeup) (hlk : lk.isProc = false) :
    (s.apply c e).lock lk = s.lock lk := by
  have hne : ∀ q, lk ≠ .proc q := by
    rintro q rfl
    cases hlk
  cases e <;> try exact h.elim
  case nop => rfl
  case state => rfl
  case acquire l =>
    cases l <;> try exact h.elim
    exact Function.update_of_ne (hne _) _ _
  case release l =>
    cases l <;> try exact h.elim
    exact Function.update_of_ne (hne _) _ _

/-- A `wakeup` that comes first after an instruction is at its beginning, or it goes on: with
the same processes before it, or one less that needs no visit any more. -/
theorem Exec.visits (hx : Exec s c i e new) (h : new.head?.bind Instr.visits = some (ch, todo)) :
    todo = List.finRange N ∨ e.OfWakeup ∧ ∃ todo', i.visits = some (ch, todo') ∧
      (todo' = todo ∨ ∃ q, todo' = q :: todo ∧ (s.cproc c = some q ∨ e = .state q .RUNNABLE ∨
          i = .wakeOne ch q todo ∧ ¬(s.state q = .SLEEPING ∧ s.chan q = some ch))) := by
  cases hx
  case wakeupSelf hq =>
    cases h
    exact .inr ⟨trivial, _, rfl, .inr ⟨_, rfl, .inl hq⟩⟩
  case wakeupNext =>
    cases h
    exact .inr ⟨trivial, _, rfl, .inl rfl⟩
  case wakeAcquire =>
    cases h
    exact .inr ⟨trivial, _, rfl, .inl rfl⟩
  case wakeOne =>
    cases h
    exact .inr ⟨trivial, _, rfl, .inr ⟨_, rfl, .inr (.inl rfl)⟩⟩
  case wakeSkip hskip =>
    cases h
    exact .inr ⟨trivial, _, rfl, .inr ⟨_, rfl, .inr (.inr ⟨rfl, hskip⟩)⟩⟩
  case wakeRelease =>
    cases h
    exact .inr ⟨trivial, _, rfl, .inl rfl⟩
  case reparentNext =>
    cases h
    exact .inl rfl
  case wakeParent =>
    cases h
    exact .inl rfl
  all_goals cases h

/-- A `wakeup` ends, or goes on. -/
theorem Exec.visiting (hx : Exec s c i e new) (he : e ≠ .panic) (h : i.visits = some (ch, todo)) :
    todo = [] ∨ e.OfWakeup ∧ ∃ j todo', new = [j] ∧ j.visits = some (ch, todo') := by
  cases hx
  case panic => exact absurd rfl he
  case wakeupDone =>
    cases h
    exact .inl rfl
  case wakeupSelf =>
    cases h
    exact .inr ⟨trivial, _, _, rfl, rfl⟩
  case wakeupNext =>
    cases h
    exact .inr ⟨trivial, _, _, rfl, rfl⟩
  case wakeAcquire =>
    cases h
    exact .inr ⟨trivial, _, _, rfl, rfl⟩
  case wakeOne =>
    cases h
    exact .inr ⟨trivial, _, _, rfl, rfl⟩
  case wakeSkip =>
    cases h
    exact .inr ⟨trivial, _, _, rfl, rfl⟩
  case wakeRelease =>
    cases h
    exact .inr ⟨trivial, _, _, rfl, rfl⟩
  all_goals cases h

/-- A `sleep` on a sleep-lock comes from `acquiresleep`, which has seen it locked. -/
theorem Exec.naps (hx : Exec s c i e new)
    (h : new.head?.bind Instr.naps = some (n, lk)) : (s.apply c e).locked = s.locked ∧
      (lk = .sleep n ∧ s.locked n = true ∨ i.naps = some (n, lk)) := by
  cases hx
  case sleepAcquire ch lk' hp hfree =>
    refine ⟨rfl, .inr ?_⟩
    cases ch <;> exact h
  case isLocked hlocked =>
    cases h
    exact ⟨rfl, .inl ⟨rfl, hlocked⟩⟩
  all_goals cases h

theorem inside_append (n : ℕ) (k k' : Code N) : inside n (k ++ k') = inside n k + inside n k' :=
  List.countP_append

theorem inside_cons (n : ℕ) (j : Instr N) (k : Code N) :
    inside n (j :: k) = inside n [j] + inside n k := inside_append n [j] k

/-- What an instruction does to the holders of a sleep-lock. -/
theorem Exec.inside (hx : Exec s c i e new) (he : e ≠ .panic) (n : ℕ) :
    inside n new = inside n [i] ∧ (s.apply c e).locked n = s.locked n ∨
      inside n new = 1 ∧ inside n [i] = 0 ∧ s.locked n = false ∧ (s.apply c e).locked n = true ∨
      inside n new = 0 ∧ inside n [i] = 1 ∧ (s.apply c e).locked n = false := by
  cases hx
  case panic => exact absurd rfl he
  case notLocked r h =>
    by_cases hr : r = n
    · subst hr
      exact .inr (.inl ⟨by simp [Sched.inside, Instr.holds], rfl, h, by simp [St.apply]⟩)
    · exact .inl ⟨by simp [Sched.inside, Instr.holds, hr], Function.update_of_ne (Ne.symm hr) _ _⟩
  case unlock r =>
    by_cases hr : r = n
    · subst hr
      exact .inr (.inr ⟨rfl, by simp [Sched.inside, Instr.holds], by simp [St.apply]⟩)
    · exact .inl ⟨by simp [Sched.inside, Instr.holds, hr], Function.update_of_ne (Ne.symm hr) _ _⟩
  all_goals exact .inl ⟨rfl, rfl⟩

/-! ### What a turn does -/

theorem Instr.Deep.visits (hj : j.Deep)
    (h : j.visits = some (ch, todo)) : todo = List.finRange N := by
  cases j <;> cases h
  case wakeup => exact hj
  all_goals exact hj.elim

theorem Instr.Deep.naps (hj : j.Deep) : j.naps = none := by
  cases j
  case sleepAcquire ch lk =>
    cases ch
    case sleep n => exact absurd rfl (hj n)
    all_goals rfl
  case sleepRelease => exact hj.elim
  all_goals rfl

/-- Code that comes first because all before it is done. -/
theorem pending_deep (hk : ∀ j ∈ k, j.Deep) (h : pending k = some (ch, todo)) : ∀ p, p ∈ todo := by
  cases k with
  | nil => cases h
  | cons j k =>
    rw [(hk j List.mem_cons_self).visits h]
    exact List.mem_finRange

theorem naps_deep (hk : ∀ j ∈ k, j.Deep) : k.head?.bind Instr.naps = none := by
  cases k with
  | nil => rfl
  | cons j k => exact (hk j List.mem_cons_self).naps

theorem Turn.ne_panic (h : Inv s) (ht : Turn s c e k) : e ≠ .panic := by
  obtain ⟨σ, -, -, hsafe⟩ := ht.sees h
  rintro rfl
  exact hsafe

/-- An instruction is a nap. -/
theorem Nap.exec (h : Inv s) (ht : Turn s c e (new ++ k)) (hcur : s.cur c = i :: k)
    (hx : Exec s c i e new) : Nap s c e (new ++ k) := by
  have hne := ht.ne_panic h
  have hdeep : ∀ j ∈ k, j.Deep := by
    have := h.deep c
    rw [hcur] at this
    exact this
  obtain ⟨σ, hsees, hwf⟩ := (h.cpu c).view ht.active
  rw [hcur] at hwf
  refine ⟨ht, ?_, ?_, ?_, ?_, ?_, ?_, ?_, ?_, ?_, ?_, ?_, ?_⟩
  · intro hmem
    rcases List.mem_append.mp hmem with hmem | hmem
    · exact .inr (hx.sleeps hmem)
    · rw [hcur]
      exact .inl (List.mem_cons_of_mem _ hmem)
  · rintro p ch lk rfl
    obtain ⟨rfl, rfl⟩ := hx.drop
    exact ⟨k, hcur, rfl⟩
  · intro ch lk k' hcur'
    cases hcur.symm.trans hcur'
    cases hx with
    | panic => exact absurd rfl hne
    | sleepAcquire hp hfree => exact ⟨rfl, fun he => by cases he⟩
  · intro ch lk k' hcur'
    cases hcur.symm.trans hcur'
    cases hx with
    | panic => exact absurd rfl hne
    | sleepRelease hp => exact ⟨_, rfl⟩
  · intro ch k' hcur'
    cases hcur.symm.trans hcur'
    cases hx with
    | panic => exact absurd rfl hne
    | setChan hp => exact ⟨rfl, _, rfl⟩
  · intro k' hcur'
    cases hcur.symm.trans hcur'
    cases hx with
    | panic => exact absurd rfl hne
    | setState hp => exact ⟨rfl, _, rfl⟩
  · rintro p rfl
    obtain rfl := hx.state_sleeping
    exact ⟨k, hcur⟩
  · intro ch todo hpend
    cases new with
    | nil => exact .inl (pending_deep hdeep hpend)
    | cons j new =>
      rcases hx.visits hpend with rfl | ⟨hofw, todo', hi, htodo⟩
      · exact .inl List.mem_finRange
      · refine .inr ⟨todo', by rw [hcur]; exact hi, fun lk => hofw.lock, ?_⟩
        rcases htodo with rfl | ⟨q, rfl, hq⟩
        · exact .inl rfl
        · refine .inr ⟨q, rfl, ?_⟩
          rcases hq with hq | hq | ⟨rfl, hskip⟩
          · exact .inl hq
          · exact .inr (.inl hq)
          · obtain ⟨-, -, H, hheld, -⟩ := hwf.1
            refine .inr (.inr ⟨(hsees.held _).mpr ?_, hskip⟩)
            rw [hheld]
            exact List.mem_cons_self
  · intro ch todo lk hpend hlk hlock
    rw [hcur] at hpend
    rcases hx.visiting hne hpend with rfl | ⟨hofw, j, todo', rfl, hj⟩
    · exact .inl rfl
    · refine .inr ⟨?_, todo', hj⟩
      rw [hofw.lock hlk]
      exact hlock
  · intro n lk hn
    cases new with
    | nil =>
      rw [List.nil_append, naps_deep hdeep] at hn
      cases hn
    | cons j new =>
      rw [hcur]
      exact hx.naps hn
  · intro n
    rw [hcur, inside_append, inside_cons n i k]
    rcases hx.inside hne n with ⟨h1, h2⟩ | ⟨h1, h2, h3⟩ | ⟨h1, h2, h3⟩
    · exact .inl ⟨by omega, h2⟩
    · exact .inr (.inl ⟨by omega, h3⟩)
    · exact .inr (.inr ⟨by omega, h3⟩)
  · rintro n rfl
    cases hx
    obtain ⟨-, -, hheld, hhead⟩ := hwf.1
    refine ⟨(hsees.held _).mpr (by rw [hheld]; exact List.mem_singleton_self _),
      List.finRange N, ?_⟩
    rw [List.nil_append, pending, hhead]
    rfl

/-- The instructions of `sleep` up to `SLEEPING`, which are never interrupted. -/
def Instr.lulls : Instr N → Bool
  | .sleepAcquire _ _ | .sleepRelease _ _ | .setChan _ | .setState _ => true
  | _ => false

/-- Such an instruction is executed with a lock held. -/
theorem Pre.lulls {me : Option (Fin N)} {σ : View N} (h : Pre me σ k j)
    (hj : j.lulls = true) : σ.held ≠ [] := by
  intro hnil
  cases j <;> cases hj
  case sleepAcquire => cases hnil.symm.trans h.2.2.1
  case sleepRelease =>
    obtain ⟨-, -, p, -, hheld⟩ := h
    cases hnil.symm.trans hheld
  case setChan =>
    obtain ⟨-, p, -, hmem⟩ := h
    rw [hnil] at hmem
    cases hmem
  case setState =>
    obtain ⟨-, -, p, -, hmem⟩ := h
    rw [hnil] at hmem
    cases hmem

/-- Code that puts nobody to sleep is put in front. -/
theorem Nap.quiet (ht : Turn s c .nop (new ++ k)) (hne : new ≠ [])
    (hnew : ∀ j ∈ new, j.Deep ∧ j ≠ .setState .SLEEPING) (hk : ∀ j ∈ k, j ∈ s.cur c)
    (hlulls : ∀ j k', s.cur c = j :: k' → j.lulls = false)
    (hpend : pending (s.cur c) = none ∨ ∀ lk, s.lock lk ≠ some c)
    (hin : ∀ n, inside n (new ++ k) = inside n (s.cur c)) : Nap s c .nop (new ++ k) := by
  have hhead : (new ++ k).head? = new.head? := by
    obtain ⟨j, new, rfl⟩ := List.exists_cons_of_ne_nil hne
    rfl
  refine ⟨ht, ?_, (fun _ _ _ he => by cases he), (fun _ _ k' h => by cases hlulls _ _ h),
    (fun _ _ k' h => by cases hlulls _ _ h), (fun _ k' h => by cases hlulls _ _ h),
    (fun k' h => by cases hlulls _ _ h), (fun _ he => by cases he), ?_, ?_, ?_,
    fun n => .inl ⟨hin n, rfl⟩, fun _ he => by cases he⟩
  · intro hmem
    rcases List.mem_append.mp hmem with hmem | hmem
    · exact absurd rfl (hnew _ hmem).2
    · exact .inl (hk _ hmem)
  · intro ch todo h
    rw [pending, hhead] at h
    exact .inl (pending_deep (fun j hj => (hnew j hj).1) h)
  · intro ch todo lk h hlk hlock
    rcases hpend with hnone | hfree
    · rw [hnone] at h
      cases h
    · exact absurd hlock (hfree lk)
  · intro n lk h
    rw [hhead, naps_deep fun j hj => (hnew j hj).1] at h
    cases h

/-- What an interrupt or a call puts in front of a thread. -/
theorem Pushed.calm (h : Pushed new) :
    new ≠ [] ∧ ∀ j ∈ new, (j.Deep ∧ j ≠ .setState .SLEEPING) ∧ j.holds = none := by
  cases h with
  | call p f =>
    cases f <;> simp [Fn.code, Sched.fork, Sched.exit, Sched.wait, Sched.kill,
      Sched.acquiresleep, sched, Instr.Deep, Instr.holds]
  | timer p => simp [yield, sched, Instr.Deep, Instr.holds]
  | device n ch => simp [handler, wakeup, Instr.Deep, Instr.holds]

theorem Nap.push (h : Inv s) (ht : Turn s c .nop (new ++ s.cur c)) (hnoff : s.noff c = 0)
    (hnew : Pushed new) : Nap s c .nop (new ++ s.cur c) := by
  obtain ⟨hne, hcalm⟩ := hnew.calm
  obtain ⟨σ, hsees, hwf⟩ := (h.cpu c).view ht.active
  have hheld : σ.held = [] := List.length_eq_zero_iff.mp (hsees.noff.symm.trans hnoff)
  have hfree : ∀ lk, s.lock lk ≠ some c := by
    intro lk hlk
    have hmem := (hsees.held lk).mp hlk
    rw [hheld] at hmem
    exact List.not_mem_nil hmem
  refine Nap.quiet ht hne (fun j hj => (hcalm j hj).1) (fun j hj => hj) ?_ (.inr hfree) ?_
  · intro j k' hcur
    rw [hcur] at hwf
    by_contra hj
    exact Pre.lulls hwf.1 (Bool.not_eq_false _ ▸ hj) hheld
  · intro n
    have hzero : inside n new = 0 := by
      refine List.countP_eq_zero.mpr fun j hj => ?_
      rw [(hcalm j hj).2]
      exact Bool.false_ne_true
    rw [inside_append, hzero, Nat.zero_add]

theorem Nap.client {op : Op} (ht : Turn s c .nop (op.code n ++ k))
    (hcur : s.cur c = .client n :: k) : Nap s c .nop (op.code n ++ k) := by
  have hsub : ∀ j ∈ k, j ∈ s.cur c := by
    rw [hcur]
    exact fun j hj => List.mem_cons_of_mem _ hj
  refine Nap.quiet ht (by cases op <;> exact List.cons_ne_nil _ _) ?_ hsub ?_ (.inl ?_) ?_
  · intro j hj
    refine ⟨(Op.idle n op j hj).1, ?_⟩
    rintro rfl
    cases op <;> simp [Op.code, Sched.sleep, Sched.wakeup] at hj
  · intro j k' h
    cases hcur.symm.trans h
    rfl
  · rw [hcur]
    rfl
  · intro m
    rw [hcur]
    cases op <;> rfl

theorem Nap.leave (ht : Turn s c .nop (releasesleep n ++ k))
    (hcur : s.cur c = .critical n :: k) : Nap s c .nop (releasesleep n ++ k) := by
  have hsub : ∀ j ∈ k, j ∈ s.cur c := by
    rw [hcur]
    exact fun j hj => List.mem_cons_of_mem _ hj
  refine Nap.quiet ht (List.cons_ne_nil _ _) ?_ hsub ?_ (.inl ?_) ?_
  · intro j hj
    refine ⟨(releasesleep_idle n j hj).1, ?_⟩
    rintro rfl
    simp [releasesleep, wakeup] at hj
  · intro j k' h
    cases hcur.symm.trans h
    rfl
  · rw [hcur]
    rfl
  · intro m
    rw [hcur, inside_append, inside_cons]
    rfl

/-- **Every turn is a nap.** -/
theorem Source.nap (h : Inv s) (ht : Turn s c e k) (hsrc : Source s c e k) : Nap s c e k := by
  cases hsrc with
  | exec hcur hx => exact Nap.exec h ht hcur hx
  | push hnoff hnew => exact Nap.push h ht hnoff hnew
  | client hcur => exact Nap.client ht hcur
  | leave hcur => exact Nap.leave ht hcur

end Sched

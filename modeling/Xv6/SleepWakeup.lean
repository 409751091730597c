/-
# No lost wakeup, and mutual exclusion of sleep-locks

The invariant of the sleepers lasts over every run: `Naps.turn` is about the turns of the
CPUs and `Naps.move` about the loop of `scheduler`.  A call of `sleep` lasts until the process
is made `RUNNABLE` (`Called.step`).
-/
import Mathlib.Algebra.Ring.Nat
import Xv6.SleepSteps

namespace Sched

open Function Transition

variable {M N : ℕ} {s t : St M N} {c : Fin M} {e : Effect N} {k : Code N}

/-! ## Effects on the sleepers -/

section fields

variable (s) (c) (k)

@[simp] theorem setCur_chan : (s.setCur c k).chan = s.chan := by
  unfold St.setCur; split <;> rfl

@[simp] theorem setCur_doze : (s.setCur c k).doze = s.doze := by
  unfold St.setCur; split <;> rfl

@[simp] theorem setCur_locked : (s.setCur c k).locked = s.locked := by
  unfold St.setCur; split <;> rfl

end fields

theorem turn_chan : (s.turn c e k).chan = (s.apply c e).chan := by
  rw [St.turn]
  cases e <;> simp [St.apply]

theorem turn_doze : (s.turn c e k).doze = (s.apply c e).doze := by
  rw [St.turn]
  cases e <;> simp [St.apply]

theorem turn_locked : (s.turn c e k).locked = (s.apply c e).locked := by
  rw [St.turn]
  cases e <;> simp [St.apply]

variable {me : Option (Fin N)} {σ : View N} {p : Fin N} {ch : Chan N} {lk : Lock N}

/-- A `doze` begins in `sleep` and ends with `RUNNABLE`. -/
theorem apply_doze (h : (s.apply c e).doze p = some (ch, lk)) :
    e = .drop p ch lk ∨ s.doze p = some (ch, lk) ∧ e ≠ .state p .RUNNABLE := by
  cases e
  case drop q ch' lk' =>
    by_cases hp : p = q
    · subst hp
      simp only [St.apply, update_self, Option.some.injEq, Prod.mk.injEq] at h
      rw [h.1, h.2]
      exact .inl rfl
    · simp only [St.apply, update_of_ne hp] at h
      exact .inr ⟨h, fun he => by cases he⟩
  case state q st =>
    simp only [St.apply] at h
    split at h
    · by_cases hp : p = q
      · rw [hp, update_self] at h
        cases h
      · rw [update_of_ne hp] at h
        exact .inr ⟨h, fun he => by cases he; exact hp rfl⟩
    · rename_i hst
      exact .inr ⟨h, fun he => by cases he; exact hst rfl⟩
  all_goals exact .inr ⟨h, fun he => by cases he⟩

/-- The effect leaves alone what `sleep` and `wakeup` look at. -/
def Rests (s : St M N) (c : Fin M) (e : Effect N) (p : Fin N) : Prop :=
  (s.apply c e).state p = s.state p ∧ (s.apply c e).chan p = s.chan p ∧
    (s.apply c e).doze p = s.doze p

variable {q : Fin N} {todo : List (Fin N)} {c' : Fin M} {n : ℕ} {act : Act M}

theorem Rests.of_state {st : PState} (hp : p ≠ q) : Rests s c (.state q st) p := by
  refine ⟨update_of_ne hp _ _, rfl, ?_⟩
  simp only [St.apply]
  split
  · exact update_of_ne hp _ _
  · rfl

/-- A process that sleeps or runs is left alone by the other CPUs, unless it is made
`RUNNABLE`. -/
theorem Safe.rests (hsafe : Safe s me σ e) (hown : ∀ q, me = some q → σ.Plain → p ≠ q)
    (hst : s.state p = .SLEEPING ∨ s.state p = .RUNNING) (hne : e ≠ .state p .RUNNABLE) :
    Rests s c e p := by
  cases e
  case drop q ch lk =>
    exact ⟨rfl, rfl, update_of_ne (hown q hsafe.2.1 hsafe.1) _ _⟩
  case chan q o => exact ⟨rfl, update_of_ne (hown q hsafe.1 hsafe.2.1) _ _, rfl⟩
  case state q st =>
    refine Rests.of_state ?_
    obtain ⟨-, ⟨hq, hplain, -⟩ | ⟨-, -, rfl⟩⟩ := hsafe
    · exact hown q hq hplain
    · rintro rfl
      exact hne rfl
  case birth q =>
    have hpq : p ≠ q := by
      rintro rfl
      rw [hsafe.2.2] at hst
      rcases hst with hst | hst <;> cases hst
    exact ⟨update_of_ne hpq _ _, rfl, rfl⟩
  case free q =>
    have hpq : p ≠ q := by
      rintro rfl
      rcases hsafe.2.2 with h | h <;> (rw [h] at hst; rcases hst with hst | hst <;> cases hst)
    exact ⟨update_of_ne hpq _ _, update_of_ne hpq _ _, rfl⟩
  all_goals exact ⟨rfl, rfl, rfl⟩

theorem Safe.sleeping (hs : Sees s c me σ) (hsafe : Safe s me σ e) (hst : s.state p = .SLEEPING)
    (hne : e ≠ .state p .RUNNABLE) : Rests s c e p := by
  refine hsafe.rests ?_ (.inl hst) hne
  rintro q hq hplain rfl
  rw [(hs.mine p hq).1, hplain.1] at hst
  cases hst

theorem Safe.running (hsafe : Safe s me σ e) (hme : me ≠ some p) (hst : s.state p = .RUNNING) :
    Rests s c e p := by
  refine hsafe.rests (fun q hq _ heq => hme (heq ▸ hq)) (.inr hst) ?_
  rintro rfl
  obtain ⟨-, ⟨hq, -⟩ | ⟨-, h | h, -⟩⟩ := hsafe
  · exact hme hq
  all_goals
    rw [h] at hst
    cases hst

/-! ## Processes that go to sleep -/

/-- A process that is about to sleep runs, and its CPU holds its lock. -/
theorem Going.held (h : Inv s) (hg : Going s p ch) : s.state p = .RUNNING ∧
    ∃ c, s.ctl c = .thread p ∧ s.lock (.proc p) = some c := by
  obtain ⟨c, k, hctl, -, hcode⟩ := hg
  have hok := h.cpu c
  rw [hctl] at hok
  obtain ⟨-, H, hsees, hwf⟩ := hok
  rcases hcode with hcode | ⟨hcode, -⟩ <;> rw [hcode] at hwf
  · obtain ⟨hplain, q, hq, hmem⟩ := hwf.1
    cases hq
    exact ⟨hplain.1, c, hctl, (hsees.held _).mpr hmem⟩
  · obtain ⟨hplain, -, q, hq, hmem⟩ := hwf.1
    cases hq
    exact ⟨hplain.1, c, hctl, (hsees.held _).mpr hmem⟩

/-- What the CPU of such a process is about to do. -/
theorem Going.cur (hg : Going s p ch) (hctl : s.ctl c = .thread p) :
    ∃ k, .setState .SLEEPING ∉ k ∧ (s.cur c = .setChan (some ch) :: .setState .SLEEPING :: k ∨
      s.cur c = .setState .SLEEPING :: k ∧ s.chan p = some ch) := by
  obtain ⟨c', k, hctl', hnot, hcode⟩ := hg
  have hcur : s.cur c = s.code p := by rw [St.cur, hctl]
  rw [hcur]
  exact ⟨k, hnot, hcode⟩

/-- The CPU of such a process is not in a `wakeup`. -/
theorem Going.not_pending (hg : Going s p ch) (hctl : s.ctl c = .thread p) :
    pending (s.cur c) = none := by
  obtain ⟨k, -, hcur | ⟨hcur, -⟩⟩ := hg.cur hctl <;> rw [hcur] <;> rfl

/-- A process that is about to sleep on another CPU still is. -/
theorem Going.turn (h : Inv s) (ht : Turn s c e k) (hg : Going s p ch)
    (hme : (s.ctl c).me ≠ some p) :
    Going (s.turn c e k) p ch ∧ (s.turn c e k).doze p = s.doze p := by
  obtain ⟨σ, hsees, -, hsafe⟩ := ht.sees h
  obtain ⟨hrun, -⟩ := hg.held h
  obtain ⟨c', k', hctl, hnot, hcode⟩ := hg
  obtain ⟨-, hchan, hdoze⟩ := hsafe.running (c := c) hme hrun
  have hc : c' ≠ c := by
    rintro rfl
    exact hme (by rw [hctl]; rfl)
  have hsame : Same s (s.turn c e k) p := turn_same hsees hsafe hme (.inr hrun)
  refine ⟨⟨c', k', (turn_ctl_of_ne hc).trans hctl, hnot, ?_⟩, ?_⟩
  · rw [hsame.code, turn_chan, hchan]
    exact hcode
  · rw [turn_doze, hdoze]

/-- The thread of a CPU after the turn. -/
theorem Turn.thread (h : Inv s) (ht : Turn s c e k) (hctl : s.ctl c = .thread p)
    (he : e ≠ .toSched) : (s.turn c e k).ctl c = .thread p ∧ (s.turn c e k).code p = k := by
  obtain ⟨σ, hsees, -, hsafe⟩ := ht.sees h
  rw [hctl] at hsafe
  refine ⟨?_, turn_code_self hctl hsafe⟩
  rw [turn_ctl_self hsafe he, setCur_ctl_thread hctl, hctl]

theorem Ctl.thread_of_me {k : Ctl N} (h : k.me = some p) : k = .thread p := by
  cases k with
  | thread q => cases h; rfl
  | sched pre l => cases h
  | panic => cases h

/-- `sleep` has released `lk`. -/
theorem Naps.dropped (h : Inv s) (hn : Naps s) (hnap : Nap s c (.drop p ch lk) k) :
    Going (s.turn c (.drop p ch lk) k) p ch := by
  obtain ⟨σ, -, -, hsafe⟩ := hnap.turn.sees h
  have hctl := Ctl.thread_of_me hsafe.2.1
  obtain ⟨k', hcur, rfl⟩ := hnap.drop p ch lk rfl
  obtain ⟨hctl', hcode⟩ := hnap.turn.thread h hctl (fun he => by cases he)
  -- nothing behind the `sleep` puts the process to sleep
  have hnot : .setState .SLEEPING ∉ k' := by
    intro hmem
    have hin : .setState .SLEEPING ∈ s.cur c := by
      rw [hcur]
      exact List.mem_cons_of_mem _ hmem
    have hcode' : s.cur c = s.code p := by rw [St.cur, hctl]
    obtain ⟨ch', lk', -, hg⟩ := hn.going p (hcode' ▸ hin)
    obtain ⟨k'', -, hcur' | ⟨hcur', -⟩⟩ := hg.cur hctl <;> cases hcur.symm.trans hcur'
  refine ⟨c, sched ++ [.setChan none, .release (.proc p), .acquire lk] ++ k', hctl', ?_,
    .inl ?_⟩
  · simp [sched, hnot]
  · rw [hcode]
    rfl

/-- One step of a process that is about to sleep. -/
theorem Naps.going_turn (h : Inv s) (hnap : Nap s c e k) (hg : Going s p ch)
    (hctl : s.ctl c = .thread p) : Going (s.turn c e k) p ch ∧ (s.turn c e k).doze p = s.doze p ∨
      .setState .SLEEPING ∉ k ∧
      (s.turn c e k).state p = .SLEEPING ∧ (s.turn c e k).chan p = some ch := by
  obtain ⟨σ, hsees, -, hsafe⟩ := hnap.turn.sees h
  rw [hctl] at hsafe
  obtain ⟨k', hnot, hcur | ⟨hcur, hchan⟩⟩ := hg.cur hctl
  · obtain ⟨rfl, q, rfl⟩ := hnap.chan _ _ hcur
    cases hsafe.1
    obtain ⟨hctl', hcode⟩ := hnap.turn.thread h hctl (fun he => by cases he)
    refine .inl ⟨⟨c, k', hctl', hnot, .inr ⟨hcode, ?_⟩⟩, ?_⟩
    · rw [turn_chan]
      exact update_self _ _ _
    · rw [turn_doze]
      rfl
  · obtain ⟨rfl, q, rfl⟩ := hnap.sleep _ hcur
    obtain ⟨-, ⟨hq, -, -⟩ | ⟨-, -, hst⟩⟩ := hsafe
    · cases hq
      refine .inr ⟨hnot, ?_, ?_⟩
      · rw [turn_state]
        exact update_self _ _ _
      · rw [turn_chan]
        exact hchan
    · cases hst

/-! ## A turn keeps the invariant -/

theorem Naps.turn_doze (h : Inv s) (hn : Naps s) (hnap : Nap s c e k)
    (hd : (s.turn c e k).doze p = some (ch, lk)) :
    (s.turn c e k).state p = .SLEEPING ∧ (s.turn c e k).chan p = some ch ∨
      Going (s.turn c e k) p ch := by
  obtain ⟨σ, hsees, -, hsafe⟩ := hnap.turn.sees h
  rw [Sched.turn_doze] at hd
  rcases apply_doze hd with rfl | ⟨hd, hne⟩
  · exact .inr (hn.dropped h hnap)
  rcases hn.doze p ch lk hd with ⟨hst, hchan⟩ | hg
  · obtain ⟨hst', hchan', -⟩ := hsafe.sleeping hsees hst hne
    rw [turn_state, turn_chan, hst', hchan']
    exact .inl ⟨hst, hchan⟩
  · by_cases hme : (s.ctl c).me = some p
    · rcases Naps.going_turn h hnap hg (Ctl.thread_of_me hme) with ⟨hg', -⟩ | ⟨-, hst⟩
      · exact .inr hg'
      · exact .inl hst
    · exact .inr (hg.turn h hnap.turn hme).1

theorem apply_sleeping (h : (s.apply c e).state p = .SLEEPING) :
    e = .state p .SLEEPING ∨ s.state p = .SLEEPING ∧ e ≠ .state p .RUNNABLE := by
  have hset : ∀ {q : Fin N} {st : PState}, st ≠ .SLEEPING →
      update s.state q st p = .SLEEPING → p ≠ q ∧ s.state p = .SLEEPING := by
    intro q st hst hup
    by_cases hp : p = q
    · rw [hp, update_self] at hup
      exact absurd hup hst
    · rw [update_of_ne hp] at hup
      exact ⟨hp, hup⟩
  cases e
  case state q st =>
    by_cases hst : st = .SLEEPING
    · subst hst
      by_cases hp : p = q
      · exact .inl (by rw [hp])
      · exact .inr ⟨(update_of_ne hp _ _).symm.trans h, fun he => by cases he⟩
    · obtain ⟨hp, hs⟩ := hset hst h
      exact .inr ⟨hs, fun he => by cases he; exact hp rfl⟩
  case birth q => exact .inr ⟨(hset (by decide) h).2, fun he => by cases he⟩
  case free q => exact .inr ⟨(hset (by decide) h).2, fun he => by cases he⟩
  all_goals exact .inr ⟨h, fun he => by cases he⟩

theorem Naps.turn_asleep (h : Inv s) (hn : Naps s) (hnap : Nap s c e k)
    (hst : (s.turn c e k).state p = .SLEEPING) :
    ∃ ch lk, (s.turn c e k).chan p = some ch ∧ (s.turn c e k).doze p = some (ch, lk) := by
  obtain ⟨σ, hsees, -, hsafe⟩ := hnap.turn.sees h
  rw [turn_state] at hst
  rw [turn_chan, Sched.turn_doze]
  rcases apply_sleeping hst with rfl | ⟨hst, hne⟩
  · obtain ⟨k', hcur⟩ := hnap.state p rfl
    obtain ⟨-, ⟨hme, -, -⟩ | ⟨-, -, hst⟩⟩ := hsafe
    · have hctl := Ctl.thread_of_me hme
      have hcode : s.cur c = s.code p := by rw [St.cur, hctl]
      obtain ⟨ch, lk, hd, hg⟩ := hn.going p (by rw [← hcode, hcur]; exact List.mem_cons_self)
      obtain ⟨k'', -, hcur' | ⟨-, hchan⟩⟩ := hg.cur hctl
      · cases hcur.symm.trans hcur'
      · exact ⟨ch, lk, hchan, hd⟩
    · cases hst
  · obtain ⟨-, hchan, hdoze⟩ := hsafe.sleeping hsees hst hne
    rw [hchan, hdoze]
    exact hn.asleep p hst

theorem Naps.turn_going (h : Inv s) (hn : Naps s) (hnap : Nap s c e k)
    (hmem : .setState .SLEEPING ∈ (s.turn c e k).code p) :
    ∃ ch lk, (s.turn c e k).doze p = some (ch, lk) ∧ Going (s.turn c e k) p ch := by
  obtain ⟨σ, hsees, -, hsafe⟩ := hnap.turn.sees h
  by_cases hme : (s.ctl c).me = some p
  · have hctl := Ctl.thread_of_me hme
    rw [turn_code_self hctl (hme ▸ hsafe)] at hmem
    rcases hnap.new hmem with hcur | ⟨q, ch, lk, rfl⟩
    · have hcode : s.cur c = s.code p := by rw [St.cur, hctl]
      obtain ⟨ch, lk, hd, hg⟩ := hn.going p (hcode ▸ hcur)
      rcases Naps.going_turn h hnap hg hctl with ⟨hg', hd'⟩ | ⟨hnot, -⟩
      · exact ⟨ch, lk, hd'.trans hd, hg'⟩
      · exact absurd hmem hnot
    · cases hme.symm.trans hsafe.2.1
      refine ⟨ch, lk, ?_, hn.dropped h hnap⟩
      rw [Sched.turn_doze]
      exact update_self _ _ _
  · rw [turn_code_of_ne hme] at hmem
    have hmem' : .setState .SLEEPING ∈ s.code p := by
      cases e
      case birth q =>
        simp only [St.apply] at hmem
        by_cases hp : p = q
        · rw [hp, update_self] at hmem
          cases List.mem_singleton.mp hmem
        · rw [update_of_ne hp] at hmem
          exact hmem
      all_goals exact hmem
    obtain ⟨ch, lk, hd, hg⟩ := hn.going p hmem'
    obtain ⟨hg', hd'⟩ := hg.turn h hnap.turn hme
    exact ⟨ch, lk, hd'.trans hd, hg'⟩

/-- The process that executes a `wakeup` runs. -/
theorem Pre.visits {j : Instr N} (h : Pre me σ k j)
    (hj : j.visits = some (ch, todo)) : σ.Plain := by
  cases j <;> cases hj <;> exact h.1

/-- A process that dozes is not the one that executes the `wakeup`, nor is its lock with the
CPU of the `wakeup`, unless it sleeps on the channel. -/
theorem Naps.not_dozing (h : Inv s) (hn : Naps s) (hpend : pending (s.cur c) = some (ch, todo))
    (hp : s.cproc c = some p ∨
      s.lock (.proc p) = some c ∧ ¬(s.state p = .SLEEPING ∧ s.chan p = some ch)) :
    s.doze p ≠ some (ch, lk) := by
  intro hd
  have hgoing : s.ctl c = .thread p → ¬Going s p ch := by
    intro hctl hg
    rw [hg.not_pending hctl] at hpend
    cases hpend
  cases hcur : s.cur c with
  | nil =>
    rw [hcur] at hpend
    cases hpend
  | cons j k =>
    rw [hcur] at hpend
    obtain ⟨σ, hsees, hwf⟩ := (h.cpu c).view (h.active hcur)
    rw [hcur] at hwf
    rcases hp with hp | ⟨hlock, hnot⟩
    · have hme : (s.ctl c).me = some p := hsees.cproc.symm.trans hp
      rcases hn.doze p ch lk hd with ⟨hst, -⟩ | hg
      · rw [(hsees.mine p hme).1, (Pre.visits hwf.1 hpend).1] at hst
        cases hst
      · exact hgoing (Ctl.thread_of_me hme) hg
    · rcases hn.doze p ch lk hd with hst | hg
      · exact hnot hst
      · obtain ⟨-, c', hctl, hlock'⟩ := hg.held h
        cases hlock.symm.trans hlock'
        exact hgoing hctl hg

theorem Naps.turn_wake (h : Inv s) (hn : Naps s) (hnap : Nap s c e k)
    (hpend : pending ((s.turn c e k).cur c') = some (ch, todo)) (hlk : lk.isProc = false)
    (hlock : (s.turn c e k).lock lk = some c')
    (hd : (s.turn c e k).doze p = some (ch, lk)) : p ∈ todo := by
  obtain ⟨σ, hsees, -, hsafe⟩ := hnap.turn.sees h
  rw [Sched.turn_doze] at hd
  rw [turn_lock] at hlock
  by_cases hc : c' = c
  · subst hc
    have hk : pending k = some (ch, todo) := by
      rcases hnap.turn.cur_self h with hcur | ⟨hcur, -⟩ <;> rw [hcur] at hpend
      · exact hpend
      · cases hpend
    rcases hnap.fresh ch todo hk with hall | ⟨todo', hpend', hsame, htodo⟩
    · exact hall p
    · rw [hsame lk hlk] at hlock
      rcases apply_doze hd with rfl | ⟨hd, hne⟩
      · obtain ⟨k', hcur, -⟩ := hnap.drop p ch lk rfl
        rw [hcur] at hpend'
        cases hpend'
      · have hmem := hn.wake c' ch todo' hpend' lk hlk hlock p hd
        rcases htodo with rfl | ⟨q, rfl, hq⟩
        · exact hmem
        · rcases List.mem_cons.mp hmem with rfl | hmem
          · rcases hq with hq | hq | hq
            · exact absurd hd (hn.not_dozing h hpend' (.inl hq))
            · exact absurd hq hne
            · exact absurd hd (hn.not_dozing h hpend' (.inr hq))
          · exact hmem
  · rw [hnap.turn.cur_of_ne h hc] at hpend
    have hlock' := (hsafe.locks_of_ne hsees hc lk).mp hlock
    rcases apply_doze hd with rfl | ⟨hd, -⟩
    · -- `lk` was with the CPU that released it
      have hheld : s.lock lk = some c := (hsees.held _).mpr (by rw [hsafe.2.2.1]; simp)
      exact absurd (Option.some.inj (hlock'.symm.trans hheld)) hc
    · exact hn.wake c' ch todo hpend lk hlk hlock' p hd

/-- The spin lock with which a CPU is about to sleep. -/
theorem Inv.naps_held (h : Inv s)
    (hnaps : (s.cur c).head?.bind Instr.naps = some (n, lk)) : s.lock lk = some c := by
  cases hcur : s.cur c with
  | nil =>
    rw [hcur] at hnaps
    cases hnaps
  | cons j k =>
    rw [hcur] at hnaps
    obtain ⟨σ, hsees, hwf⟩ := (h.cpu c).view (h.active hcur)
    rw [hcur] at hwf
    refine (hsees.held lk).mpr ?_
    cases j
    case sleepAcquire ch lk' =>
      cases ch <;> cases hnaps
      obtain ⟨-, -, hheld, -⟩ := hwf.1
      rw [hheld]
      exact List.mem_singleton_self _
    case sleepRelease ch lk' =>
      cases ch <;> cases hnaps
      obtain ⟨-, -, p, -, hheld⟩ := hwf.1
      rw [hheld]
      simp
    all_goals cases hnaps

/-- A sleep-lock is locked and unlocked under its spin lock. -/
theorem Safe.locked (hs : Sees s c me σ) (hsafe : Safe s me σ e)
    (hn : s.lock (.sleep n) ≠ some c) : (s.apply c e).locked n = s.locked n := by
  cases e
  case locked m b =>
    have hne : n ≠ m := by
      rintro rfl
      exact hn ((hs.held _).mpr hsafe)
    exact update_of_ne hne _ _
  all_goals rfl

theorem Naps.turn_asks (h : Inv s) (hn : Naps s) (hnap : Nap s c e k)
    (hnaps : ((s.turn c e k).cur c').head?.bind Instr.naps = some (n, lk)) :
    lk = .sleep n ∧ (s.turn c e k).locked n = true := by
  obtain ⟨σ, hsees, -, hsafe⟩ := hnap.turn.sees h
  rw [turn_locked]
  by_cases hc : c' = c
  · subst hc
    have hk : k.head?.bind Instr.naps = some (n, lk) := by
      rcases hnap.turn.cur_self h with hcur | ⟨hcur, -⟩ <;> rw [hcur] at hnaps
      · exact hnaps
      · cases hnaps
    obtain ⟨hlocked, hseen | hold⟩ := hnap.asks n lk hk <;> rw [hlocked]
    · exact hseen
    · exact hn.asks c' n lk hold
  · rw [hnap.turn.cur_of_ne h hc] at hnaps
    obtain ⟨rfl, hlocked⟩ := hn.asks c' n lk hnaps
    refine ⟨rfl, ?_⟩
    rw [hsafe.locked hsees]
    · exact hlocked
    · rw [h.naps_held hnaps]
      exact fun heq => hc (Option.some.inj heq)

theorem inside_of_dead (n : ℕ) {k : Code N} (h : Dead k) : inside n k = 0 := by
  rcases h with rfl | rfl | ⟨p, rfl⟩ <;> rfl

/-- An interrupt handler in the scheduler is inside no sleep-lock. -/
theorem inside_of_none (n : ℕ) {k : Code N} : ∀ {σ : View N}, Wf none σ k → inside n k = 0 := by
  induction k with
  | nil => exact fun _ => rfl
  | cons j k ih =>
    rintro σ ⟨hpre, hk⟩
    have hj : inside n [j] = 0 := by
      cases j
      case critical m => exact absurd rfl hpre.2.1
      case unlock m => exact absurd rfl hpre.2.1
      all_goals rfl
    rw [inside_cons, hj, ih hk]

theorem Naps.turn_holders (h : Inv s) (hn : Naps s) (hnap : Nap s c e k) (n : ℕ) :
    ∑ p, inside n ((s.turn c e k).code p) = if (s.turn c e k).locked n then 1 else 0 := by
  have htally := hnap.turn.tally h (inside n) (fun _ hk => inside_of_dead n hk)
    fun _ _ hk => inside_of_none n hk
  have hsum := hn.holders n
  rw [turn_locked]
  rcases hnap.holders n with ⟨hin, hlocked⟩ | ⟨hin, hfree, hlocked⟩ | ⟨hin, hlocked⟩
  · rw [hlocked, ← hsum]
    omega
  · rw [hfree] at hsum
    rw [hlocked]
    simp only [Bool.false_eq_true, if_false] at hsum
    simp only [if_true]
    omega
  · rw [hlocked]
    simp only [Bool.false_eq_true, if_false]
    split at hsum <;> omega

theorem Naps.turn_woken (h : Inv s) (hn : Naps s) (hnap : Nap s c e k)
    (hd : (s.turn c e k).doze p = some (.sleep n, lk)) : lk = .sleep n ∧
      ((s.turn c e k).locked n = true ∨ ∃ c' todo, (s.turn c e k).lock (.sleep n) = some c' ∧
        pending ((s.turn c e k).cur c') = some (.sleep n, todo)) := by
  obtain ⟨σ, hsees, -, hsafe⟩ := hnap.turn.sees h
  rw [Sched.turn_doze] at hd
  rw [turn_locked, turn_lock]
  rcases apply_doze hd with rfl | ⟨hdoze, -⟩
  · obtain ⟨k', hcur, -⟩ := hnap.drop p _ lk rfl
    obtain ⟨hlk, hlocked⟩ := hn.asks c n lk (by rw [hcur]; rfl)
    exact ⟨hlk, .inl hlocked⟩
  obtain ⟨hlk, hcase⟩ := hn.woken p n lk hdoze
  refine ⟨hlk, ?_⟩
  rcases hcase with hlocked | ⟨c', todo, hlock, hpend⟩
  · by_cases he : e = .locked n false
    · subst he
      obtain ⟨hlock, todo, hpend⟩ := hnap.unlock n rfl
      refine .inr ⟨c, todo, hlock, ?_⟩
      rcases hnap.turn.cur_self h with hcur | ⟨-, he⟩
      · rw [hcur]
        exact hpend
      · cases he
    · left
      cases e
      case locked m b =>
        by_cases hm : n = m
        · subst hm
          cases b
          · exact absurd rfl he
          · exact update_self _ _ _
        · exact (update_of_ne hm _ _).trans hlocked
      all_goals exact hlocked
  · right
    by_cases hc : c' = c
    · subst hc
      rcases hnap.keeps _ todo _ hpend rfl hlock with rfl | ⟨hlock', todo', hpend'⟩
      · -- a `wakeup` that is done has left nobody dozing
        subst hlk
        exact absurd (hn.wake c' _ [] hpend _ rfl hlock p hdoze) List.not_mem_nil
      · refine ⟨c', todo', hlock', ?_⟩
        rcases hnap.turn.cur_self h with hcur | ⟨-, rfl⟩
        · rw [hcur]
          exact hpend'
        · obtain ⟨-, -, q, hq, hheld⟩ := hsafe
          have hmem := (hsees.held _).mp hlock
          rw [hheld] at hmem
          cases List.mem_singleton.mp hmem
    · refine ⟨c', todo, (hsafe.locks_of_ne hsees hc _).mpr hlock, ?_⟩
      rw [hnap.turn.cur_of_ne h hc]
      exact hpend

/-- **A turn keeps the invariant of the sleepers.** -/
theorem Naps.turn (h : Inv s) (hn : Naps s) (hnap : Nap s c e k) : Naps (s.turn c e k) where
  doze _ _ _ := hn.turn_doze h hnap
  asleep _ := hn.turn_asleep h hnap
  going _ := hn.turn_going h hnap
  wake _ _ _ hpend _ hlk hlock _ := hn.turn_wake h hnap hpend hlk hlock
  asks _ _ _ := hn.turn_asks h hnap
  holders := hn.turn_holders h hnap
  woken _ _ _ := hn.turn_woken h hnap

/-! ## The loop of scheduler keeps the invariant -/

variable {i : Fin N} {l : Ctl N}

/-- A move puts nobody to sleep and takes nobody's sleep. -/
theorem Move.sleeping (hm : Move s t c i l) (p : Fin N) :
    t.state p = .SLEEPING ↔ s.state p = .SLEEPING := by
  rcases hm.edge p with heq | hedge
  · rw [heq]
  · by_cases hp : p = i
    · subst hp
      rcases hm.held with hsame | ⟨-, -, ⟨-, heq⟩ | ⟨hst, hrun⟩⟩
      · rw [hsame.state]
      · rw [heq]
      · rw [hst, hrun]
        exact ⟨(fun h => by cases h), fun h => by cases h⟩
    · rw [(hm.same p hp).state]

theorem Move.ctl_thread (hm : Move s t c i l) (hctl : s.ctl c' = .thread p) :
    t.ctl c' = .thread p := by
  obtain ⟨l', hl'⟩ := hm.loop
  have hc : c' ≠ c := by
    rintro rfl
    cases hctl.symm.trans hl'
  rw [hm.ctl_of_ne hc]
  exact hctl

theorem Move.going (hm : Move s t c i l) (hg : Going s p ch) : Going t p ch := by
  obtain ⟨c', k, hctl, hnot, hcode⟩ := hg
  refine ⟨c', k, hm.ctl_thread hctl, hnot, ?_⟩
  rw [hm.code, hm.chan]
  exact hcode

/-- The code that a move puts before the CPU begins no `wakeup` in its middle. -/
theorem Move.cur_deep (h : Inv s) (hm : Move s t c i l) : ∀ j ∈ t.cur c, j.Deep := by
  rcases hm.cur_self with hcur | ⟨hl, -, hcur⟩ <;> rw [hcur]
  · exact fun j hj => absurd hj List.not_mem_nil
  · exact hm.deep h hl

theorem Move.pending (hm : Move s t c i l) : pending (s.cur c) = none := by
  obtain ⟨l', hl'⟩ := hm.loop
  rw [St.cur, hl']
  rfl

/-- **A move keeps the invariant of the sleepers.** -/
theorem Naps.move (h : Inv s) (hn : Naps s) (hm : Move s t c i l) : Naps t := by
  refine ⟨?_, ?_, ?_, ?_, ?_, ?_, ?_⟩
  · intro p ch lk hd
    rw [hm.doze] at hd
    rw [hm.sleeping, hm.chan]
    exact (hn.doze p ch lk hd).imp_right hm.going
  · intro p hst
    rw [hm.chan, hm.doze]
    exact hn.asleep p ((hm.sleeping p).mp hst)
  · intro p hmem
    rw [hm.code] at hmem
    obtain ⟨ch, lk, hd, hg⟩ := hn.going p hmem
    exact ⟨ch, lk, by rw [hm.doze]; exact hd, hm.going hg⟩
  · intro c' ch todo hpend lk hlk hlock p hd
    by_cases hc : c' = c
    · subst hc
      exact pending_deep (hm.cur_deep h) hpend p
    · rw [hm.cur_of_ne hc] at hpend
      rw [hm.doze] at hd
      exact hn.wake c' ch todo hpend lk hlk ((hm.lock c' hc lk).mp hlock) p hd
  · intro c' n lk hnaps
    by_cases hc : c' = c
    · subst hc
      rw [naps_deep (hm.cur_deep h)] at hnaps
      cases hnaps
    · rw [hm.cur_of_ne hc] at hnaps
      rw [hm.locked]
      exact hn.asks c' n lk hnaps
  · intro n
    rw [hm.code, hm.locked]
    exact hn.holders n
  · intro p n lk hd
    rw [hm.doze] at hd
    rw [hm.locked]
    refine (hn.woken p n lk hd).imp_right (Or.imp_right ?_)
    rintro ⟨c', todo, hlock, hpend⟩
    have hc : c' ≠ c := by
      rintro rfl
      cases hm.pending.symm.trans hpend
    refine ⟨c', todo, (hm.lock c' hc _).mpr hlock, ?_⟩
    rw [hm.cur_of_ne hc]
    exact hpend

/-! ## Every run -/

theorem Naps.step (h : Inv s) (hn : Naps s) (hx : Sched.step s act = some t) : Naps t := by
  cases h.stepped hx with
  | turn ht hsrc heq =>
    rw [heq]
    exact hn.turn h (hsrc.nap h ht)
  | move hm => exact hn.move h hm

theorem Naps.start (init : Fin N) : Naps (start M init) := by
  have hsleep : ∀ p, (Sched.start M init).state p ≠ .SLEEPING := by
    intro p
    by_cases hp : p = init <;> simp [Sched.start, hp]
  refine ⟨?_, fun p hst => absurd hst (hsleep p), ?_, ?_, ?_, ?_, ?_⟩
  · intro p ch lk hd
    cases hd
  · intro p hmem
    rcases start_code (M := M) init p with hcode | hcode <;> rw [hcode] at hmem
    · cases hmem
    · cases List.mem_singleton.mp hmem
  · intro c ch todo hpend
    cases hpend
  · intro c n lk hnaps
    cases hnaps
  · intro n
    refine Finset.sum_eq_zero fun p _ => ?_
    rcases start_code (M := M) init p with hcode | hcode <;> rw [hcode] <;> rfl
  · intro p n lk hd
    cases hd

theorem Naps.run {acts : List (Act M)} {init : Fin N}
    (hrun : run Sched.step (Sched.start M init) acts = some s) : Inv s ∧ Naps s :=
  run_invariant (fun _ _ _ (h : Inv _ ∧ Naps _) hx => ⟨h.1.step hx, h.2.step h.1 hx⟩) acts _ _
    ⟨.start init, .start init⟩ hrun

/-! ## Calls of sleep -/

/-- The process has called `sleep(chan, lk)` and has not been made `RUNNABLE` since. -/
def Called (s : St M N) (p : Fin N) (ch : Chan N) (lk : Lock N) : Prop :=
  (∃ c k, s.ctl c = .thread p ∧
    (s.code p = .sleepAcquire ch lk :: k ∨ s.code p = .sleepRelease ch lk :: k)) ∨
  s.doze p = some (ch, lk)

/-- The CPU of the call holds `lk`. -/
theorem Inv.call_held (h : Inv s) {k : Code N} (hctl : s.ctl c = .thread p)
    (hcode : s.code p = .sleepAcquire ch lk :: k ∨ s.code p = .sleepRelease ch lk :: k) :
    s.state p = .RUNNING ∧ lk.isProc = false ∧ s.lock lk = some c := by
  have hok := h.cpu c
  rw [hctl] at hok
  obtain ⟨-, H, hsees, hwf⟩ := hok
  rcases hcode with hcode | hcode <;> rw [hcode] at hwf
  · obtain ⟨hplain, -, hheld, hlk⟩ := hwf.1
    have hH : H = [lk] := hheld
    exact ⟨hplain.1, hlk, (hsees.held _).mpr (by rw [hH]; exact List.mem_singleton_self _)⟩
  · obtain ⟨hplain, hlk, q, -, hheld⟩ := hwf.1
    have hH : H = [.proc q, lk] := hheld
    exact ⟨hplain.1, hlk, (hsees.held _).mpr (by rw [hH]; simp)⟩

/-- A `doze` lasts until the process is `RUNNABLE`. -/
theorem Naps.doze_turn (h : Inv s) (hn : Naps s) (hnap : Nap s c e k)
    (hd : s.doze p = some (ch, lk)) :
    (s.turn c e k).doze p = some (ch, lk) ∨ (s.turn c e k).state p = .RUNNABLE := by
  obtain ⟨σ, hsees, -, hsafe⟩ := hnap.turn.sees h
  rw [Sched.turn_doze, turn_state]
  by_cases hrun : e = .state p .RUNNABLE
  · subst hrun
    exact .inr (update_self _ _ _)
  · left
    cases e
    case drop q ch' lk' =>
      obtain ⟨k', hcur, -⟩ := hnap.drop q ch' lk' rfl
      have hpq : p ≠ q := by
        -- the process that calls `sleep` does not doze
        rintro rfl
        rcases hn.doze p ch lk hd with ⟨hst, -⟩ | hg
        · rw [(hsees.mine p hsafe.2.1).1, hsafe.1.1] at hst
          cases hst
        · obtain ⟨k'', -, hcur' | ⟨hcur', -⟩⟩ := hg.cur (Ctl.thread_of_me hsafe.2.1) <;>
            cases hcur.symm.trans hcur'
      exact (update_of_ne hpq _ _).trans hd
    case state q st =>
      simp only [St.apply]
      split
      · rename_i hst
        have hpq : p ≠ q := by
          rintro rfl
          exact hrun (by rw [hst])
        exact (update_of_ne hpq _ _).trans hd
      · exact hd
    all_goals exact hd

theorem Called.turn (h : Inv s) (hn : Naps s) (hnap : Nap s c e k) (hcall : Called s p ch lk) :
    Called (s.turn c e k) p ch lk ∨ (s.turn c e k).state p = .RUNNABLE := by
  rcases hcall with ⟨c', k', hctl, hcode⟩ | hd
  · left
    obtain ⟨σ, hsees, -, hsafe⟩ := hnap.turn.sees h
    by_cases hc : c' = c
    · subst hc
      have hcur : s.cur c' = s.code p := by rw [St.cur, hctl]
      rw [← hcur] at hcode
      rcases hcode with hcode | hcode
      · obtain ⟨rfl, he⟩ := hnap.call ch lk k' hcode
        obtain ⟨hctl', hcode'⟩ := hnap.turn.thread h hctl he
        exact .inl ⟨c', k', hctl', .inr hcode'⟩
      · obtain ⟨q, rfl⟩ := hnap.release ch lk k' hcode
        rw [hctl] at hsafe
        cases hsafe.2.1
        refine .inr ?_
        rw [Sched.turn_doze]
        exact update_self _ _ _
    · have hwatch : (s.ctl c').watches = some p := by rw [hctl]; rfl
      have hsame := hnap.turn.watched h hc hwatch
      refine .inl ⟨c', k', (turn_ctl_of_ne hc).trans hctl, ?_⟩
      rw [hsame.code]
      exact hcode
  · exact (hn.doze_turn h hnap hd).imp_left .inr

/-- **A call of `sleep` lasts until the process is `RUNNABLE`.** -/
theorem Called.step (h : Inv s) (hn : Naps s) (hx : Sched.step s act = some t)
    (hcall : Called s p ch lk) : Called t p ch lk ∨ t.state p = .RUNNABLE := by
  cases h.stepped hx with
  | turn ht hsrc heq =>
    rw [heq]
    exact hcall.turn h hn (hsrc.nap h ht)
  | move hm =>
    left
    rcases hcall with ⟨c', k', hctl, hcode⟩ | hd
    · refine .inl ⟨c', k', hm.ctl_thread hctl, ?_⟩
      rw [hm.code]
      exact hcode
    · exact .inr (by rw [hm.doze]; exact hd)

theorem Called.run : ∀ (acts : List (Act M)) (s : St M N), Inv s → Naps s → Called s p ch lk →
    Always Sched.step (fun u => u.state p ≠ .RUNNABLE) s acts →
    run Sched.step s acts = some t → Inv t ∧ Naps t ∧ Called t p ch lk := by
  intro acts
  induction acts with
  | nil =>
    intro s h hn hcall _ hrun
    cases hrun
    exact ⟨h, hn, hcall⟩
  | cons a acts ih =>
    intro s h hn hcall halways hrun
    obtain ⟨u, hu, hrun⟩ := run_cons_eq_some.mp hrun
    have hnot := halways.2 u hu
    have hstate : u.state p ≠ .RUNNABLE := by
      cases acts with
      | nil => exact hnot
      | cons b acts => exact hnot.1
    refine ih u (h.step hu) (hn.step h hu) ?_ hnot hrun
    exact (hcall.step h hn hu).resolve_right hstate

/-- At the end of a `wakeup` under `lk` nobody is in a call of `sleep` with `lk`. -/
theorem Called.woken (h : Inv s) (hn : Naps s) (hcur : s.cur c = .wakeup ch [] :: k)
    (hlk : lk.isProc = false) (hlock : s.lock lk = some c) : ¬Called s p ch lk := by
  rintro (⟨c', k', hctl, hcode⟩ | hd)
  · obtain ⟨-, -, hlock'⟩ := h.call_held hctl hcode
    cases hlock.symm.trans hlock'
    have hcur' : s.cur c = s.code p := by rw [St.cur, hctl]
    rw [← hcur', hcur] at hcode
    rcases hcode with hcode | hcode <;> cases hcode
  · have hpend : pending (s.cur c) = some (ch, []) := by rw [hcur]; rfl
    exact List.not_mem_nil (hn.wake c ch [] hpend lk hlk hlock p hd)

theorem inside_pos {k : Code N} (h : .critical n ∈ k) : 0 < inside n k :=
  List.countP_pos_iff.mpr ⟨_, h, by simp [Instr.holds]⟩

/-- A sleep-lock has one holder. -/
theorem Naps.exclusive (hn : Naps s) {p : Fin N} (hp : .critical n ∈ s.code p)
    (hq : .critical n ∈ s.code q) : p = q := by
  by_contra hne
  have hle : ∑ r ∈ {p, q}, inside n (s.code r) ≤ ∑ r, inside n (s.code r) :=
    Finset.sum_le_sum_of_subset (Finset.subset_univ _)
  rw [Finset.sum_pair hne, hn.holders n] at hle
  have hp' := inside_pos hp
  have hq' := inside_pos hq
  split at hle <;> omega

/-- **No lost wakeup, and mutual exclusion of sleep-locks**, in every run: when process `p` has
called `sleep(chan, lk)`, which it does with `lk` held, and later a CPU that holds `lk` is at
the end of `wakeup(chan)`, `p` has been `RUNNABLE` in between; at most one process is between
`acquiresleep` and `releasesleep` of a sleep-lock; and nobody sleeps on a sleep-lock that is
unlocked and whose spin lock is free. -/
theorem no_lost_wakeup {init : Fin N} {acts : List (Act M)}
    (hrun : run step (start M init) acts = some s) :
    (∀ p ch lk c k, s.ctl c = .thread p → s.code p = sleep ch lk ++ k → s.lock lk = some c ∧
      ∀ acts' s' c' k', run step s acts' = some s' → s'.cur c' = .wakeup ch [] :: k' →
        s'.lock lk = some c' → ¬Always step (fun u => u.state p ≠ .RUNNABLE) s acts') ∧
    (∀ i p q, .critical i ∈ s.code p → .critical i ∈ s.code q → p = q) ∧
    ∀ i, s.locked i = false → s.lock (.sleep i) = none →
      ∀ p, ¬(s.state p = .SLEEPING ∧ s.chan p = some (.sleep i)) := by
  obtain ⟨h, hn⟩ := Naps.run hrun
  refine ⟨?_, fun i p q => hn.exclusive, ?_⟩
  · intro p ch lk c k hctl hcode
    obtain ⟨-, hlk, hlock⟩ := h.call_held hctl (.inl hcode)
    refine ⟨hlock, fun acts' s' c' k' hrun' hcur hlock' halways => ?_⟩
    obtain ⟨h', hn', hcall⟩ :=
      Called.run acts' s h hn (.inl ⟨c, k, hctl, .inl hcode⟩) halways hrun'
    exact Called.woken h' hn' hcur hlk hlock' hcall
  · rintro i hfree hlock p ⟨hst, hchan⟩
    obtain ⟨ch, lk, hchan', hd⟩ := hn.asleep p hst
    cases hchan.symm.trans hchan'
    obtain ⟨-, hlocked | ⟨c, todo, hlock', -⟩⟩ := hn.woken p i lk hd
    · rw [hfree] at hlocked
      cases hlocked
    · rw [hlock] at hlock'
      cases hlock'

local instance neZero_two : NeZero 2 := ⟨by decide⟩

/-- Two CPUs: the first process forks, and takes a sleep-lock that its child then asks for. -/
def askRun : List (Act 2) :=
  List.replicate 7 (.advance 0 true) ++ [.call 0 .fork] ++ List.replicate 19 (.advance 0 true) ++
    List.replicate 10 (.advance 1 true) ++ [.call 0 (.acquiresleep 0)] ++
    List.replicate 3 (.advance 0 true) ++ [.call 1 (.acquiresleep 0)] ++
    List.replicate 2 (.advance 1 true)

/-- The child sleeps, and the first process releases the sleep-lock. -/
def wakeRun : List (Act 2) :=
  List.replicate 10 (.advance 1 true) ++ [.leave 0] ++ List.replicate 7 (.advance 0 true)

/-- The child is woken up. -/
theorem no_lost_wakeup_releasesleep :
    ∃ s s', run step (start (N := 2) 2 0) askRun = some s ∧ run step s wakeRun = some s' ∧
      s'.state 1 = .RUNNABLE ∧ ¬Always step (fun u => u.state 1 ≠ .RUNNABLE) s wakeRun := by
  have hask : (run step (start (N := 2) 2 0) askRun).map (fun s => (s.ctl 1, s.code 1)) =
      some (.thread 1, sleep (.sleep 0) (.sleep 0) ++ [.testLocked 0]) := by
    decide +kernel
  have hwake : (run step (start (N := 2) 2 0) askRun).bind (fun s => (run step s wakeRun).map
      fun s' => (s'.state 1, s'.cur 0, s'.lock (.sleep 0))) =
      some (.RUNNABLE, [.wakeup (.sleep 0) [], .release (.sleep 0)], some 0) := by
    decide +kernel
  obtain ⟨s, hs, hfields⟩ := Option.map_eq_some_iff.mp hask
  rw [hs, Option.bind_some] at hwake
  obtain ⟨s', hs', hfields'⟩ := Option.map_eq_some_iff.mp hwake
  simp only [Prod.mk.injEq] at hfields hfields'
  obtain ⟨hctl, hcode⟩ := hfields
  obtain ⟨hst, hcur, hlock⟩ := hfields'
  exact ⟨s, s', hs, hs', hst,
    ((no_lost_wakeup hs).1 1 _ _ 1 _ hctl hcode).2 wakeRun s' 0 _ hs' hcur hlock⟩

end Sched

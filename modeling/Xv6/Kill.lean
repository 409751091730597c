/-
# kill and free slots

`kill` looks for its argument in the `pid` field of all slots, free ones included,
and `freeproc` leaves `pid = 0` in a free slot.  So `kill(0)` sets the flag
`killed` of a free slot and reports success, and since `allocproc` does not clear
the flag, the next process in that slot is killed before it has run.

The exact condition is that the loop of `kill` does not find its pid in a free
slot.
-/
import Xv6.ProcEffects

namespace Proc

open Function Transition

variable {s t : St} {p : ℕ}

/-- What `kill` is supposed to keep: free slots have not been killed, a successful
`kill` found a process, and the processes `fork` creates have not been killed. -/
structure KillOk (s : St) : Prop where
  free : ∀ i, (s.proc i).state = .unused → (s.proc i).killed = false
  found : ∀ k ∈ s.kills, k.result = 0 → k.live = true
  births : ∀ b ∈ s.births, b = false

/-- `kill` is at a free slot that has the pid it looks for. -/
def hitsFree (s : St) : Pc → Bool
  | .killScan pid k => k < NPROC && (s.proc k).state = .unused && (s.proc k).pid = pid
  | _ => false

/-- The step is not one of `kill` at a free slot with the pid it looks for. -/
def SparesFree (s : St) : Act → Prop
  | .advance p _ => hitsFree s (s.pc p) = false
  | _ => True

instance (s : St) : (a : Act) → Decidable (SparesFree s a)
  | .schedule _ => isTrue trivial
  | .yield _ => isTrue trivial
  | .sleep _ _ => isTrue trivial
  | .wakeup _ _ => isTrue trivial
  | .setkilled _ => isTrue trivial
  | .call _ _ => isTrue trivial
  | .advance p _ => inferInstanceAs (Decidable (hitsFree s (s.pc p) = false))

/-- The invariant: besides, the slot that `fork` sets up is locked and has not been
killed. -/
structure KillInv (s : St) : Prop extends KillOk s where
  hold : ∀ q np, s.pc q = .forkHold np → (s.proc np).killed = false ∧ (s.proc np).lock = true

variable {k : ℕ} {a : Act} {pid : CInt}

/-- A step that changes one slot: it was not locked, or keeps `killed` and `lock`, or
is not the slot another process sets up. -/
theorem KillInv.slot (h : KillInv s) {P : Slot} (hproc : t.proc = update s.proc k P)
    (hpc : ∀ q np, t.pc q = .forkHold np → s.pc q = .forkHold np)
    (hghost : t.kills = s.kills ∧ t.births = s.births)
    (hfree : P.state = .unused → P.killed = false) (hkeep : (s.proc k).lock = false ∨
      P.killed = (s.proc k).killed ∧ P.lock = (s.proc k).lock ∨
      ∀ q, t.pc q ≠ .forkHold k) : KillInv t := by
  obtain ⟨hkills, hbirths⟩ := hghost
  refine ⟨⟨fun i hi => ?_, fun c hc => ?_, fun b hb => ?_⟩, fun q np hq => ?_⟩
  · rw [hproc] at hi ⊢
    by_cases hik : i = k
    · rw [hik, update_self] at hi ⊢
      exact hfree hi
    · rw [update_of_ne hik] at hi ⊢
      exact h.free i hi
  · rw [hkills] at hc
    exact h.found c hc
  · rw [hbirths] at hb
    exact h.births b hb
  · have hold := h.hold q np (hpc q np hq)
    rw [hproc]
    by_cases hnk : np = k
    · rw [hnk] at hold hq ⊢
      rw [update_self]
      rcases hkeep with hlock | ⟨hkilled, hlock⟩ | hno
      · rw [hlock] at hold
        cases hold.2
      · rw [hkilled, hlock]
        exact hold
      · exact absurd hq (hno q)
    · rw [update_of_ne hnk]
      exact hold

theorem KillInv.same (h : KillInv s) (hproc : t.proc = s.proc)
    (hpc : ∀ q np, t.pc q = .forkHold np → s.pc q = .forkHold np)
    (hghost : t.kills = s.kills ∧ t.births = s.births) : KillInv t :=
  h.slot (k := initproc) (P := s.proc initproc) (by rw [update_eq_self, hproc]) hpc hghost
    (h.free initproc) (Or.inr (Or.inl ⟨rfl, rfl⟩))

/-! ## Every step that spares the free slots -/

/-- `allocproc` takes a free slot. -/
theorem killInv_alloc (h : KillInv s) (hlock : (s.proc k).lock = false)
    (hun : (s.proc k).state = .unused) : KillInv (({ s with nextpid := s.nextpid + 1 }.setProc k
      { s.proc k with pid := s.nextpid, state := .used, lock := true }).setPc p (.forkHold k)) := by
  refine ⟨⟨fun i hi => ?_, h.found, h.births⟩, fun q np hq => ?_⟩
  · simp only [St.setPc, St.setProc, update_apply] at hi ⊢
    split_ifs at hi ⊢ with hik
    exact h.free i hi
  · simp only [St.setPc, St.setProc] at hq ⊢
    by_cases hqp : q = p
    · rw [hqp, update_self] at hq
      cases hq
      rw [update_self]
      exact ⟨h.free k hun, rfl⟩
    · -- the free slot was not locked by another `fork`
      rw [update_of_ne hqp] at hq
      have hold := h.hold q np hq
      have hnk : np ≠ k := by
        intro heq
        rw [heq, hlock] at hold
        cases hold.2
      rw [update_of_ne hnk]
      exact hold

theorem killInv_forkHold (hinv : Inv s) (h : KillInv s) {np : ℕ} (ok : Bool)
    (hpc : s.pc p = .forkHold np) : KillInv (forkHold s p np ok) := by
  have hp : PcOk s p (.forkHold np) := hpc ▸ hinv.pcs p
  have hno : ∀ c : Pc, c.isForkHold = false →
      ∀ q, update s.pc p c q ≠ .forkHold np := by
    intro c hc q hq
    by_cases hqp : q = p
    · rw [hqp, update_self] at hq
      rw [hq] at hc
      cases hc
    · rw [update_of_ne hqp] at hq
      exact forks_ne hinv (by rw [hpc]; rfl) hqp (by rw [hq]; rfl)
  cases ok with
  | true =>
    have hslot : KillInv ((s.setProc np { s.proc np with lock := false }).setPc p
        (.forkParent np)) := by
      refine h.slot rfl (forkHold_of_setPc rfl) ⟨rfl, rfl⟩ (fun hun => ?_)
        (Or.inr (Or.inr (hno _ rfl)))
      rw [show _ = (s.proc np).state from rfl, hp.2.1] at hun
      cases hun
    refine ⟨⟨hslot.free, h.found, fun b hb => ?_⟩, hslot.hold⟩
    rcases List.mem_append.mp hb with hb | hb
    · exact h.births b hb
    · rw [List.mem_singleton.mp hb]
      exact (h.hold p np hpc).1
  | false =>
    exact h.slot rfl (forkHold_of_setPc rfl) ⟨rfl, rfl⟩ (fun _ => rfl)
      (Or.inr (Or.inr (hno _ rfl)))

theorem hasPid_of_slot (hk : k < NPROC) (hs : (s.proc k).state ≠ .unused)
    (hpid : (s.proc k).pid = pid) : hasPid s pid = true := by
  unfold hasPid
  rw [List.any_eq_true]
  exact ⟨k, List.mem_range.mpr hk, by simp [hs, hpid]⟩

theorem killInv_step (hinv : Inv s) (h : KillInv s) (hspares : SparesFree s a)
    (hstep : step s a = some t) : KillInv t := by
  cases step_effect hinv hstep with
  | mild hm =>
    obtain ⟨-, -, -, -, hkills, hbirths⟩ := history_eq_iff.mp hm.history
    refine h.slot hm.proc hm.holds ⟨hkills, hbirths⟩ (fun hun => ?_)
      (hm.keep.imp_right (Or.imp_right fun hno q hq => hno q (hm.holds q _ hq)))
    rw [hm.alike.killed hun]
    exact h.free _ (hm.alike.unused.mp hun)
  | alloc hpc hk hlock hun ht =>
    subst ht
    exact killInv_alloc h hlock hun
  | made hpc ht =>
    subst ht
    exact killInv_forkHold hinv h _ hpc
  | exited hrun ht =>
    unfold exitZombie at ht
    split_ifs at ht with hlock
    cases ht
    exact h.slot rfl (forkHold_of_setPc rfl) ⟨rfl, rfl⟩
      (fun hun => by cases hun) (Or.inl (Bool.eq_false_iff.mpr hlock))
  | reaped hk hparent hlock hz ht =>
    subst ht
    exact h.slot rfl (forkHold_of_setPc rfl) ⟨rfl, rfl⟩ (fun _ => rfl) (Or.inl hlock)
  | @hit p k pid ok hpc hk hlock hpid ht =>
    subst ht
    have hs : (s.proc k).state ≠ .unused := by
      intro hun
      simp [SparesFree, hpc, hitsFree, hk, hun, hpid] at hspares
    have hslot : KillInv ((s.setProc k (setKilled (s.proc k))).setPc p .user) :=
      h.slot rfl (forkHold_of_setPc rfl) ⟨rfl, rfl⟩
        (fun hun => absurd ((setKilled_state _).1.mp hun) hs) (Or.inl hlock)
    refine ⟨⟨hslot.free, fun c hc _ => ?_, h.births⟩, hslot.hold⟩
    rcases List.mem_append.mp hc with hc | hc
    · exact h.found c hc ‹_›
    · rw [List.mem_singleton.mp hc]
      exact hasPid_of_slot hk hs hpid
  | @missed p pid ok ht =>
    subst ht
    have hsame : KillInv (s.setPc p .user) :=
      h.same rfl (forkHold_of_setPc rfl) ⟨rfl, rfl⟩
    refine ⟨⟨hsame.free, fun c hc hres => ?_, h.births⟩, hsame.hold⟩
    rcases List.mem_append.mp hc with hc | hc
    · exact h.found c hc hres
    · rw [List.mem_singleton.mp hc] at hres
      exact absurd (show (-1 : CInt) = 0 from hres) (by decide)

/-! ## The exact condition -/

/-- A step of `kill` that hits a free slot leaves it killed. -/
theorem sparesFree_of_killOk (hstep : step s a = some t) (hok : KillOk t) : SparesFree s a := by
  cases a with
  | advance p ok =>
    show hitsFree s (s.pc p) = false
    by_contra hhit
    cases hpc : s.pc p <;> rw [hpc] at hhit <;> try exact hhit rfl
    case killScan pid k =>
      simp only [hitsFree, Bool.and_eq_true, decide_eq_true_eq, Bool.not_eq_false] at hhit
      obtain ⟨⟨hk, hun⟩, hpid⟩ := hhit
      unfold step at hstep
      split_ifs at hstep
      simp only at hstep
      split_ifs at hstep with hrun hdead
      · rw [advance, hpc] at hstep
        simp only at hstep
        unfold killScan at hstep
        rw [if_pos hk] at hstep
        split_ifs at hstep
        cases hstep
        have hfree := hok.free k
        simp only [St.setPc, St.setProc, update_self, setKilled, hun] at hfree
        exact absurd (hfree rfl) (by simp)
      · rw [hpc] at hdead
        cases hdead
  | schedule i => trivial
  | yield i => trivial
  | sleep i n => trivial
  | wakeup i n => trivial
  | setkilled i => trivial
  | call p c => trivial

theorem killInv_init : KillInv init where
  free := fun i _ => by
    by_cases hi : i = initproc
    · rw [hi]
      rfl
    · simp only [init, update_of_ne hi]
      rfl
  found := fun k hk => by cases hk
  births := fun b hb => by cases hb
  hold := fun q np hq => by
    by_cases hqi : q = initproc
    · rw [hqi] at hq
      cases hq
    · simp only [init, update_of_ne hqi] at hq
      cases hq

/-- **kill and live processes.**  In every run, free slots have not been killed, `kill`
succeeds only for the pid of a process, and new processes have not been killed, all
along exactly when no step of `kill` finds its pid in a free slot. -/
theorem always_killOk_iff_sparesFree (as : List Act) :
    Always step KillOk init as ↔ Meets step SparesFree init as := by
  refine always_iff_meets (fun u (hu : Inv u ∧ KillInv u) => hu.2.toKillOk)
    (fun u a t hu hP hstep => ⟨inv_step hu.1 hstep, killInv_step hu.1 hu.2 hP hstep⟩)
    (fun u a t hu hstep hok => sparesFree_of_killOk hstep hok) as init
    ⟨inv_init, killInv_init⟩

/-- `initproc` calls `kill(0)` and then forks. -/
def killZeroFork : List Act :=
  [.schedule 0, .call 0 (.kill 0), .advance 0 true, .advance 0 true,
    .call 0 .fork, .advance 0 true, .advance 0 true, .advance 0 true]

/-- **`kill(0)` reports success without a process of that pid, and the next child is
killed from birth.** -/
theorem killZero_hits_free_slot : (run step init killZeroFork).map (fun s => (s.kills, s.births))
      = some ([⟨0, 0, false⟩], [true]) ∧ ¬ Always step KillOk init killZeroFork := by
  have hhist : (run step init killZeroFork).map (fun s => (s.kills, s.births))
      = some ([⟨0, 0, false⟩], [true]) := by decide +kernel
  refine ⟨hhist, fun hal => ?_⟩
  obtain ⟨s, hs, heq⟩ := Option.map_eq_some_iff.mp hhist
  have hok := Always.of_run killZeroFork init s hal hs
  rw [Prod.mk.injEq] at heq
  have hbirth := hok.births true (by rw [heq.2]; exact List.mem_singleton_self true)
  cases hbirth

end Proc

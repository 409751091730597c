/-
# Who holds a reference to a file

Every process has a share in the references to a file: the descriptors that point at it,
and those references that the call in progress holds in a local variable (`held`); not
those that it still has to take, or has dropped before it clears the descriptor (`owed`).
The reference count of a file is the sum of the shares.  A flag in the page of a pipe is
in the same way the number of those that will still clear it: the file of that end, or a
process on its way to `pipeclose` (`pending`).

A step of one process changes the share of that process only (`Inv.step`).
-/
import Xv6.CallsFiles
import Xv6.FileTable

namespace FileTable

open Function
open Calls (NFILE NOFILE OpenFile)
open Proc (NPROC)

variable {s u : State} {p q np : Fin NPROC} {x : Process} {f g : Fin NFILE} {fd : Fin NOFILE}
variable {o : Ofile}

/-! ## Shares -/

/-- How many descriptors point at the file. -/
def slots (o : Ofile) (f : Fin NFILE) : ℕ := (Finset.univ.filter fun fd => o fd = some f).card

/-- The number of references to `f` that a reference to `g` is. -/
def one (g f : Fin NFILE) : ℕ := if g = f then 1 else 0

def heldAfter : After → Fin NFILE → ℕ
  | .close g, f => one g f
  | _, _ => 0

def owedAfter : After → Fin NFILE → ℕ
  | .exit _ g, f => one g f
  | _, _ => 0

/-- The references that a call holds besides the descriptors. -/
def held : Pc → Fin NFILE → ℕ
  | .close g k, f => one g f + heldAfter k f
  | .pipeclose _ _ k, f => heldAfter k f
  | .kfree _ k, f => heldAfter k f
  | .openFd g, f => one g f
  | .pipeAlloc1 g, f => one g f
  | .pipeKalloc g₀ g₁, f => one g₀ f + one g₁ f
  | .pipeType g₀ g₁ _, f => one g₀ f + one g₁ f
  | .pipeFd0 g₀ g₁, f => one g₀ f + one g₁ f
  | .pipeFd1 _ g₁ _, f => one g₁ f
  | _, _ => 0

/-- The descriptors without a reference. -/
def owed : Pc → Fin NFILE → ℕ
  | .dup g _, f => one g f
  | .close _ k, f => owedAfter k f
  | .pipeclose _ _ k, f => owedAfter k f
  | .kfree _ k, f => owedAfter k f
  | .exitClear _ g, f => one g f
  | _, _ => 0

/-- The share of a process in the references to a file. -/
def share (x : Process) (f : Fin NFILE) : ℕ := slots x.ofile f + held x.pc f - owed x.pc f

/-- The file is an end of the pipe. -/
def endOf (y : OpenFile) (pi : ℕ) (w : Bool) : ℕ :=
  if y.type = .pipe ∧ y.pipe = pi ∧ y.writable = w then 1 else 0

/-- The call will clear a flag of the pipe, or make a file that will. -/
def pending : Pc → ℕ → Bool → ℕ
  | .pipeclose pi w _, pi', w' => if pi = pi' ∧ w = w' then 1 else 0
  | .pipeType _ _ pi, pi', _ => if pi = pi' then 1 else 0
  | _, _, _ => 0

/-- The call will free the page. -/
def freeing : Pc → ℕ → ℕ
  | .kfree pi _, pi' => if pi = pi' then 1 else 0
  | _, _ => 0

/-- The flag in a page. -/
def flag (e : Option Ends) (w : Bool) : ℕ :=
  match e with
  | none => 0
  | some e => if e.get w then 1 else 0

/-- A page with both ends closed. -/
def closed (e : Option Ends) : ℕ := if e = some ⟨false, false⟩ then 1 else 0

/-! ## The invariant -/

/-- The call in progress has changed no descriptors. -/
def Process.Same (x : Process) : Prop := x.ofile = x.before ∧ x.others = false

def AfterOk (x : Process) : After → Prop
  | .ret r => r = -1 → x.Same
  | .close _ => x.Same
  | .exit fd f => x.ofile fd = some f ∧ ∀ j < fd, x.ofile j = none

/-- What a process knows about its own descriptors. -/
def OwnAt (x : Process) : Pc → Prop
  | .idle => True
  | .ret r => r = -1 → x.Same
  | .dup f _ => 2 ≤ slots x.ofile f
  | .close _ k => AfterOk x k
  | .pipeclose _ _ k => AfterOk x k
  | .kfree _ k => AfterOk x k
  | .openAlloc => x.Same
  | .openFd _ => x.Same
  | .openType f fd => x.ofile fd = some f
  | .pipeAlloc0 => x.Same
  | .pipeAlloc1 _ => x.Same
  | .pipeKalloc f0 f1 => x.Same ∧ f0 ≠ f1
  | .pipeType f0 f1 _ => x.Same ∧ f0 ≠ f1
  | .pipeFd0 _ _ => x.Same
  | .pipeFd1 rf _ fd0 => x.ofile fd0 = some rf ∧ (x.setFd fd0 none).Same
  | .pipeCopy rf wf fd0 fd1 => (x.ofile fd0 = some rf ∧ x.ofile fd1 = some wf ∧ fd0 ≠ fd1) ∧
    ((x.setFd fd0 none).setFd fd1 none).Same
  | .forkAlloc => x.Same
  | .forkVm _ => x.Same
  | .forkDup _ _ => True
  | .exit i => ∀ j : Fin NOFILE, j < i → x.ofile j = none
  | .exitClear fd f => x.ofile fd = some f ∧ ∀ j < fd, x.ofile j = none

def OwnOk (x : Process) : Prop := OwnAt x x.pc

/-- The files that a call has allocated and not given a type. -/
def fresh : Pc → List (Fin NFILE)
  | .openFd f => [f]
  | .openType f _ => [f]
  | .pipeAlloc1 f0 => [f0]
  | .pipeKalloc f0 f1 => [f0, f1]
  | .pipeType f0 f1 _ => [f0, f1]
  | _ => []

/-- The child that `fork` is making, and how many of its descriptors it has been given. -/
def child : Pc → Option (Fin NPROC × ℕ)
  | .forkVm np => some (np, 0)
  | .forkDup np i => some (np, i)
  | _ => none

/-- **The invariant.** -/
structure Inv (s : State) : Prop where
  ref : ∀ f, (s.ftable f).ref = ∑ p, share (s.proc p) f
  kind : ∀ f, (s.ftable f).ref = 0 → (s.ftable f).type = .none
  ends : ∀ pi w, ∑ f, endOf (s.ftable f) pi w + ∑ p, pending (s.proc p).pc pi w
    = flag (s.pages pi) w
  frees : ∀ pi, ∑ p, freeing (s.proc p).pc pi = closed (s.pages pi)
  own : ∀ p, OwnOk (s.proc p)
  fresh : ∀ p, ∀ f ∈ fresh (s.proc p).pc, (s.ftable f).ref = 1 ∧ (s.ftable f).type = .none
  child : ∀ p np i, child (s.proc p).pc = some (np, i) →
    (s.proc np).state = .used p ∧ ∀ fd : Fin NOFILE, i ≤ fd → (s.proc np).ofile fd = none
  idle : ∀ p, (s.proc p).state ≠ .running → (s.proc p).pc = .idle
  clear : ∀ p, (s.proc p).state = .unused ∨ (s.proc p).state = .zombie →
    ∀ fd, (s.proc p).ofile fd = none
  safe : s.stale = false ∧ s.panicked = none

/-! ## Counting -/

theorem one_self (f : Fin NFILE) : one f f = 1 := if_pos rfl

theorem one_of_ne (h : g ≠ f) : one g f = 0 := if_neg h

/-- A descriptor that points at the file. -/
theorem slots_pos (h : o fd = some f) : 1 ≤ slots o f :=
  Finset.card_pos.mpr ⟨fd, Finset.mem_filter.mpr ⟨Finset.mem_univ fd, h⟩⟩

theorem slots_update (o : Ofile) (fd : Fin NOFILE) (v : Option (Fin NFILE)) (f : Fin NFILE) :
    slots (update o fd v) f + (if o fd = some f then 1 else 0)
      = slots o f + if v = some f then 1 else 0 := by
  have h := Tally.card_change (s := Finset.univ) (P := fun i => o i = some f)
    (Q := fun i => update o fd v i = some f) (Finset.mem_univ fd) fun i hi => by
      rw [update_of_ne hi]
  simp only [update_self] at h
  exact h

/-- A free descriptor is taken. -/
theorem slots_take (hfd : o fd = none) (g f : Fin NFILE) :
    slots (update o fd (some g)) f = slots o f + one g f := by
  have h := slots_update o fd (some g) f
  simp only [hfd, reduceCtorEq, if_false, Option.some.injEq] at h
  exact h

/-- A descriptor is cleared. -/
theorem slots_clear (hfd : o fd = some g) (f : Fin NFILE) :
    slots (update o fd none) f + one g f = slots o f := by
  have h := slots_update o fd none f
  simp only [hfd, reduceCtorEq, if_false, Option.some.injEq] at h
  exact h

theorem fdalloc_free (h : fdalloc o = some fd) : o fd = none :=
  Option.isNone_iff_eq_none.mp (Calls.first_some h)

/-- No process owes more than it has. -/
theorem owed_le (h : OwnOk x) (f : Fin NFILE) : owed x.pc f ≤ slots x.ofile f + held x.pc f := by
  have hone : ∀ {fd : Fin NOFILE} {g}, x.ofile fd = some g → one g f ≤ slots x.ofile f := by
    intro fd g hfd
    by_cases hgf : g = f
    · rw [hgf, one_self]
      exact slots_pos (hgf ▸ hfd)
    · rw [one_of_ne hgf]
      exact Nat.zero_le _
  have hafter : ∀ k, AfterOk x k → owedAfter k f ≤ slots x.ofile f := by
    intro k hk
    cases k with
    | ret r => exact Nat.zero_le _
    | close g => exact Nat.zero_le _
    | exit fd g => exact hone hk.1
  unfold OwnOk at h
  generalize x.pc = c at h
  cases c with
  | dup g fd =>
    have h₂ : 2 ≤ slots x.ofile g := h
    show one g f ≤ slots x.ofile f + 0
    by_cases hgf : g = f
    · rw [hgf, one_self]
      rw [hgf] at h₂
      omega
    · rw [one_of_ne hgf]
      omega
  | close g k => exact le_trans (hafter k h) (Nat.le_add_right _ _)
  | pipeclose pi w k => exact le_trans (hafter k h) (Nat.le_add_right _ _)
  | kfree pi k => exact le_trans (hafter k h) (Nat.le_add_right _ _)
  | exitClear fd g => exact le_trans (hone h.1) (Nat.le_add_right _ _)
  | _ => exact Nat.zero_le _

theorem share_add (h : OwnOk x) (f : Fin NFILE) :
    share x f + owed x.pc f = slots x.ofile f + held x.pc f := by
  have := owed_le h f
  rw [share]
  omega

/-- A call has a share in the files that it has allocated. -/
theorem share_fresh (h : OwnOk x) (hf : f ∈ fresh x.pc) : 1 ≤ share x f := by
  unfold OwnOk at h
  unfold share
  generalize x.pc = c at h hf
  cases c with
  | openFd g =>
    show 1 ≤ slots x.ofile f + one g f - 0
    rw [List.mem_singleton.mp hf, one_self]
    omega
  | openType g fd =>
    show 1 ≤ slots x.ofile f + 0 - 0
    rw [List.mem_singleton.mp hf]
    exact slots_pos h
  | pipeAlloc1 g =>
    show 1 ≤ slots x.ofile f + one g f - 0
    rw [List.mem_singleton.mp hf, one_self]
    omega
  | pipeKalloc g₀ g₁ =>
    show 1 ≤ slots x.ofile f + (one g₀ f + one g₁ f) - 0
    rcases List.mem_pair.mp hf with rfl | rfl
    · rw [one_self]
      omega
    · rw [one_self f]
      omega
  | pipeType g₀ g₁ pi =>
    show 1 ≤ slots x.ofile f + (one g₀ f + one g₁ f) - 0
    rcases List.mem_pair.mp hf with rfl | rfl
    · rw [one_self]
      omega
    · rw [one_self f]
      omega
  | _ => cases hf

/-! ## The rule for a step -/

/-- One process has no more than there is. -/
theorem Inv.share_le (h : Inv s) (p : Fin NPROC) (f : Fin NFILE) :
    share (s.proc p) f ≤ (s.ftable f).ref := by
  rw [h.ref f]
  exact Finset.single_le_sum (f := fun q => share (s.proc q) f) (fun _ _ => Nat.zero_le _)
    (Finset.mem_univ p)

theorem Inv.share_add_le (h : Inv s) (hqp : q ≠ p) (f : Fin NFILE) :
    share (s.proc p) f + share (s.proc q) f ≤ (s.ftable f).ref := by
  rw [h.ref f]
  refine Finset.add_le_sum (f := fun q => share (s.proc q) f) (fun _ _ => Nat.zero_le _)
    (Finset.mem_univ p) (Finset.mem_univ q) hqp.symm

/-- Another process has not touched the files that a call has allocated. -/
theorem Inv.fresh_kept (h : Inv s) (hqp : q ≠ p)
    (htouch : ∀ f, u.ftable f ≠ s.ftable f → 1 ≤ share (s.proc p) f ∨ (s.ftable f).ref = 0)
    (hf : f ∈ FileTable.fresh (s.proc q).pc) : u.ftable f = s.ftable f := by
  by_contra hne
  have hone := (h.fresh q f hf).1
  have hq := share_fresh (h.own q) hf
  rcases htouch f hne with hp | hzero
  · have := h.share_add_le hqp f
    omega
  · omega

/-- A slot that is not `USED` is not that of a child. -/
theorem Inv.child_ne (h : Inv s) (hp : ∀ q, (s.proc p).state ≠ .used q) {i : ℕ}
    (hc : FileTable.child (s.proc q).pc = some (np, i)) : np ≠ p := by
  rintro rfl
  exact hp q (h.child q np i hc).1

theorem not_used (hrun : (s.proc p).state = .running) (q : Fin NPROC) :
    (s.proc p).state ≠ .used q := by
  rw [hrun]
  exact fun h => by cases h

/-- What a step of the process `p` has to establish, if it becomes `x`. -/
structure StepOk (s u : State) (p : Fin NPROC) (x : Process) : Prop where
  ref : ∀ f, (u.ftable f).ref + share (s.proc p) f = (s.ftable f).ref + share x f
  kind : ∀ f, (u.ftable f).ref = 0 → (u.ftable f).type = .none
  ends : ∀ pi w, ∑ f, endOf (u.ftable f) pi w + pending x.pc pi w + flag (s.pages pi) w
    = ∑ f, endOf (s.ftable f) pi w + pending (s.proc p).pc pi w + flag (u.pages pi) w
  frees : ∀ pi, freeing x.pc pi + closed (s.pages pi)
    = freeing (s.proc p).pc pi + closed (u.pages pi)
  own : OwnOk x
  fresh : ∀ f ∈ fresh x.pc, (u.ftable f).ref = 1 ∧ (u.ftable f).type = .none
  touch : ∀ f, u.ftable f ≠ s.ftable f → 1 ≤ share (s.proc p) f ∨ (s.ftable f).ref = 0
  child : ∀ np i, child x.pc = some (np, i) → ∃ j ≤ i, child (s.proc p).pc = some (np, j)
  idle : x.state = .running ∨ x.pc = .idle
  clear : x.state = .running ∨ ∀ fd, x.ofile fd = none
  safe : u.stale = s.stale ∧ u.panicked = s.panicked

/-- **A step of one process** keeps the invariant. -/
theorem Inv.step (h : Inv s) (hrun : ∀ q, (s.proc p).state ≠ .used q)
    (hproc : u.proc = update s.proc p x) (hk : StepOk s u p x) : Inv u := by
  have hp : u.proc p = x := by rw [hproc, update_self]
  have hother : ∀ q, q ≠ p → u.proc q = s.proc q := fun q hq => by
    rw [hproc, update_of_ne hq]
  have hsum : ∀ φ : Process → ℕ,
      (∑ q, φ (u.proc q)) + φ (s.proc p) = (∑ q, φ (s.proc q)) + φ x := by
    intro φ
    rw [hproc]
    exact Tally.sum_update φ s.proc p x
  constructor
  · intro f
    have h₁ := hsum fun y => share y f
    have h₂ := hk.ref f
    have h₃ := h.ref f
    omega
  · exact hk.kind
  · intro pi w
    have h₁ := hsum fun y => pending y.pc pi w
    have h₂ := hk.ends pi w
    have h₃ := h.ends pi w
    omega
  · intro pi
    have h₁ := hsum fun y => freeing y.pc pi
    have h₂ := hk.frees pi
    have h₃ := h.frees pi
    omega
  · intro q
    by_cases hq : q = p
    · rw [hq, hp]
      exact hk.own
    · rw [hother q hq]
      exact h.own q
  · intro q f hf
    by_cases hq : q = p
    · rw [hq, hp] at hf
      exact hk.fresh f hf
    · rw [hother q hq] at hf
      rw [h.fresh_kept hq hk.touch hf]
      exact h.fresh q f hf
  · intro q np i hc
    by_cases hq : q = p
    · rw [hq, hp] at hc
      obtain ⟨j, hj, hold⟩ := hk.child np i hc
      obtain ⟨hstate, hnone⟩ := h.child p np j hold
      rw [hother np (h.child_ne hrun hold), hq]
      exact ⟨hstate, fun fd hfd => hnone fd (le_trans hj hfd)⟩
    · rw [hother q hq] at hc
      rw [hother np (h.child_ne hrun hc)]
      exact h.child q np i hc
  · intro q hq
    by_cases hqp : q = p
    · rw [hqp, hp] at hq ⊢
      exact hk.idle.resolve_left hq
    · rw [hother q hqp] at hq ⊢
      exact h.idle q hq
  · intro q hq
    by_cases hqp : q = p
    · rw [hqp, hp] at hq ⊢
      refine hk.clear.resolve_left fun hr => ?_
      rw [hr] at hq
      rcases hq with hq | hq <;> cases hq
    · rw [hother q hqp] at hq ⊢
      exact h.clear q hq
  · rw [hk.safe.1, hk.safe.2]
    exact h.safe

end FileTable

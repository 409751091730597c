/-
# Every step of a call keeps the shares

First the forms that `Inv.step` takes for the kinds of steps there are: a step that works
on the process's own data (`Doing.local_step`), one that changes a file
(`Doing.file_step`), one that changes a page of a pipe (`Doing.page_step`), and one that
changes the child of a `fork` (`Doing.child_step`).  Then the steps themselves.
-/
import Xv6.FileTableInv

namespace FileTable

open Function
open Calls (NFILE NOFILE OpenFile Ftable filealloc filealloc_some)
open Proc (NPROC)

variable {s u : State} {p q np : Fin NPROC} {x y : Process} {f g : Fin NFILE} {fd : Fin NOFILE}
variable {c c' : Pc} {k : After} {z : OpenFile} {pi : ℕ} {e : Option Ends}

/-! ## Kinds of steps -/

/-- The running process `p` is at `c`, in a state that satisfies the invariant. -/
structure Doing (s : State) (p : Fin NPROC) (c : Pc) : Prop where
  inv : Inv s
  run : (s.proc p).state = .running
  pc : (s.proc p).pc = c

/-- The balance of the references, with the descriptors and the call spelled out. -/
theorem share_balance {a b : ℕ} (hx : OwnOk x) (hy : OwnOk y)
    (h : a + slots y.ofile f + held y.pc f + owed x.pc f
      = b + slots x.ofile f + held x.pc f + owed y.pc f) : a + share y f = b + share x f := by
  have h₁ := share_add hx f
  have h₂ := share_add hy f
  omega

/-- A step on the process's own data. -/
theorem Doing.local_step (h : Doing s p c)
    (hcount : ∀ f, slots (s.proc p).ofile f + held c f + owed x.pc f
      = slots x.ofile f + held x.pc f + owed c f)
    (hpend : pending x.pc = pending c) (hfree : freeing x.pc = freeing c) (hown : OwnOk x)
    (hfresh : ∀ f ∈ FileTable.fresh x.pc, f ∈ FileTable.fresh c)
    (hchild : ∀ np i, FileTable.child x.pc = some (np, i) →
      ∃ j ≤ i, FileTable.child c = some (np, j)) (hidle : x.state = .running ∨ x.pc = .idle)
    (hclear : x.state = .running ∨ ∀ fd, x.ofile fd = none) : Inv (s.set p x) := by
  refine h.inv.step (not_used h.run) rfl ⟨fun f => ?_, h.inv.kind, fun pi w => ?_, fun pi => ?_, hown, fun f hf => ?_,
    fun f hne => absurd rfl hne, ?_, hidle, hclear, ⟨rfl, rfl⟩⟩
  · refine share_balance hown (h.inv.own p) ?_
    have := hcount f
    rw [h.pc]
    show (s.ftable f).ref + _ + _ + _ = _
    omega
  · rw [h.pc, hpend]
    rfl
  · rw [h.pc, hfree]
    rfl
  · rw [← h.pc] at hfresh
    exact h.inv.fresh p f (hfresh f hf)
  · rw [h.pc]
    exact hchild

/-- A step that changes the file `f` from what it is to `z`. -/
theorem Doing.file_step (h : Doing s p c)
    (hcount : ∀ g, (update s.ftable f z g).ref + slots (s.proc p).ofile g + held c g
      + owed x.pc g = (s.ftable g).ref + slots x.ofile g + held x.pc g + owed c g)
    (hkind : z.ref = 0 → z.type = .none) (hends : ∀ pi w, endOf z pi w + pending x.pc pi w
      = endOf (s.ftable f) pi w + pending c pi w)
    (hfree : freeing x.pc = freeing c) (hown : OwnOk x)
    (hfresh : ∀ g ∈ FileTable.fresh x.pc, g = f ∧ z.ref = 1 ∧ z.type = .none ∨
      g ≠ f ∧ g ∈ FileTable.fresh c) (htouch : 1 ≤ share (s.proc p) f ∨ (s.ftable f).ref = 0)
    (hchild : FileTable.child x.pc = none) (hx : x.state = .running) :
    Inv ((s.setFile f z).set p x) := by
  refine h.inv.step (not_used h.run) rfl ⟨fun g => ?_, fun g hg => ?_, fun pi w => ?_, fun pi => ?_, hown,
    fun g hg => ?_, fun g hne => ?_, fun np i hc => ?_, Or.inl hx, Or.inl hx, ⟨rfl, rfl⟩⟩
  · refine share_balance hown (h.inv.own p) ?_
    rw [h.pc]
    exact hcount g
  · show (update s.ftable f z g).type = .none
    have hg' : (update s.ftable f z g).ref = 0 := hg
    by_cases hgf : g = f
    · subst hgf
      rw [update_self] at hg' ⊢
      exact hkind hg'
    · rw [update_of_ne hgf] at hg' ⊢
      exact h.inv.kind g hg'
  · have hsum := Tally.sum_update (fun y => endOf y pi w) s.ftable f z
    have := hends pi w
    rw [h.pc]
    show ∑ g, endOf (update s.ftable f z g) pi w + _ + flag (s.pages pi) w
      = _ + _ + flag (s.pages pi) w
    omega
  · rw [h.pc, hfree]
    rfl
  · show (update s.ftable f z g).ref = 1 ∧ (update s.ftable f z g).type = .none
    rcases hfresh g hg with ⟨rfl, hz⟩ | ⟨hgf, hg⟩
    · rw [update_self]
      exact hz
    · rw [update_of_ne hgf]
      exact h.inv.fresh p g (h.pc.symm ▸ hg)
  · have hgf : g = f := by
      by_contra hgf
      exact hne (update_of_ne hgf _ _)
    rw [hgf]
    exact htouch
  · rw [hchild] at hc
    cases hc

/-- A step that changes the page `pi`. -/
theorem Doing.page_step (h : Doing s p c)
    (hcount : ∀ f, held c f + owed c' f = held c' f + owed c f)
    (hends : ∀ pi' w, pending c' pi' w + flag (s.pages pi') w
      = pending c pi' w + flag (update s.pages pi e pi') w)
    (hfree : ∀ pi', freeing c' pi' + closed (s.pages pi')
      = freeing c pi' + closed (update s.pages pi e pi')) (hown : OwnOk ((s.proc p).goto c'))
    (hfresh : ∀ f ∈ FileTable.fresh c', f ∈ FileTable.fresh c)
    (hchild : FileTable.child c' = none) : Inv ((s.setPage pi e).goto p c') := by
  refine h.inv.step (not_used h.run) rfl ⟨fun f => ?_, h.inv.kind, fun pi' w => ?_, fun pi' => ?_, hown, fun f hf => ?_,
    fun f hne => absurd rfl hne, fun np i hc => ?_, Or.inl h.run, Or.inl h.run, ⟨rfl, rfl⟩⟩
  · refine share_balance hown (h.inv.own p) ?_
    have := hcount f
    rw [h.pc]
    show (s.ftable f).ref + _ + _ + owed c' f = (s.ftable f).ref + slots (s.proc p).ofile f +
      held c' f + _
    omega
  · have := hends pi' w
    rw [h.pc]
    show ∑ f, endOf (s.ftable f) pi' w + pending c' pi' w + flag (s.pages pi') w
      = ∑ f, endOf (s.ftable f) pi' w + pending c pi' w + flag (update s.pages pi e pi') w
    omega
  · rw [h.pc]
    exact hfree pi'
  · rw [← h.pc] at hfresh
    exact h.inv.fresh p f (hfresh f hf)
  · have hc' : FileTable.child c' = some (np, i) := hc
    rw [hchild] at hc'
    cases hc'

/-- A step of `fork` that changes the slot of the child, and perhaps reference counts. -/
theorem Doing.child_step (h : Doing s p c) (ft : Ftable)
    (hnp : (s.proc np).state = .unused ∨ (s.proc np).state = .used p)
    (href : ∀ g, (ft g).ref + slots (s.proc np).ofile g = (s.ftable g).ref + slots y.ofile g)
    (hkind : ∀ g, (ft g).ref = 0 → (ft g).type = .none)
    (hends : ∀ g, endOf (ft g) = endOf (s.ftable g))
    (htouch : ∀ g, ft g ≠ s.ftable g → 1 ≤ share (s.proc p) g)
    (hshare : ∀ g, share x g = share (s.proc p) g)
    (hpend : pending x.pc = pending c) (hfree : freeing x.pc = freeing c) (hown : OwnOk x)
    (hfresh : FileTable.fresh x.pc = []) (hchild : ∀ np' i, FileTable.child x.pc = some (np', i) →
      np' = np ∧ y.state = .used p ∧ ∀ fd : Fin NOFILE, i ≤ fd → y.ofile fd = none)
    (hx : x.state = .running) (hy : y.pc = .idle)
    (hclear : y.state = .unused ∨ y.state = .zombie → ∀ fd, y.ofile fd = none) :
    Inv (({ s with ftable := ft }.set np y).set p x) := by
  have hne : np ≠ p := by
    rintro rfl
    rw [h.run] at hnp
    rcases hnp with hnp | hnp <;> cases hnp
  have hnp_idle : (s.proc np).pc = .idle := by
    refine h.inv.idle np fun hr => ?_
    rw [hr] at hnp
    rcases hnp with hnp | hnp <;> cases hnp
  have hshare_idle : ∀ z : Process, z.pc = .idle → ∀ g, share z g = slots z.ofile g := by
    intro z hz g
    rw [share, hz]
    rfl
  -- the three kinds of processes
  set proc := update (update s.proc np y) p x with hproc
  have hp : proc p = x := update_self p _ _
  have hpnp : proc np = y := by
    rw [hproc, update_of_ne hne, update_self]
  have hother : ∀ q, q ≠ p → q ≠ np → proc q = s.proc q := by
    intro q hqp hqnp
    rw [hproc, update_of_ne hqp, update_of_ne hqnp]
  have hsum : ∀ φ : Process → ℕ, (∑ q, φ (proc q)) + φ (s.proc p) + φ (s.proc np)
      = (∑ q, φ (s.proc q)) + φ x + φ y := by
    intro φ
    have h₁ := Tally.sum_update φ s.proc np y
    have h₂ := Tally.sum_update φ (update s.proc np y) p x
    rw [update_of_ne hne.symm, ← hproc] at h₂
    omega
  constructor
  · intro g
    have h₁ := hsum fun z => share z g
    have h₂ := href g
    have h₃ := h.inv.ref g
    simp only [hshare g, hshare_idle y hy, hshare_idle _ hnp_idle] at h₁
    show (ft g).ref = ∑ q, share (proc q) g
    omega
  · exact hkind
  · intro pi w
    have h₁ := hsum fun z => pending z.pc pi w
    simp only [h.pc, hpend, hy, hnp_idle] at h₁
    show ∑ g, endOf (ft g) pi w + ∑ q, pending (proc q).pc pi w = flag (s.pages pi) w
    simp only [hends]
    have := h.inv.ends pi w
    omega
  · intro pi
    have h₁ := hsum fun z => freeing z.pc pi
    simp only [h.pc, hfree, hy, hnp_idle] at h₁
    show ∑ q, freeing (proc q).pc pi = closed (s.pages pi)
    have := h.inv.frees pi
    omega
  · intro q
    show OwnOk (proc q)
    by_cases hqp : q = p
    · rw [hqp, hp]
      exact hown
    · by_cases hqnp : q = np
      · rw [hqnp, hpnp, OwnOk, hy]
        trivial
      · rw [hother q hqp hqnp]
        exact h.inv.own q
  · intro q g hg
    change g ∈ FileTable.fresh (proc q).pc at hg
    by_cases hqp : q = p
    · rw [hqp, hp, hfresh] at hg
      cases hg
    · by_cases hqnp : q = np
      · rw [hqnp, hpnp, hy] at hg
        cases hg
      · rw [hother q hqp hqnp] at hg
        have hkept : ft g = s.ftable g := h.inv.fresh_kept (u := { s with ftable := ft }) hqp
          (fun f hf => Or.inl (htouch f hf)) hg
        show (ft g).ref = 1 ∧ (ft g).type = .none
        rw [hkept]
        exact h.inv.fresh q g hg
  · intro q np' i hc
    change FileTable.child (proc q).pc = some (np', i) at hc
    show (proc np').state = .used q ∧ ∀ fd : Fin NOFILE, i ≤ fd → (proc np').ofile fd = none
    by_cases hqp : q = p
    · rw [hqp, hp] at hc
      obtain ⟨rfl, hstate, hnone⟩ := hchild np' i hc
      rw [hpnp, hqp]
      exact ⟨hstate, hnone⟩
    · by_cases hqnp : q = np
      · rw [hqnp, hpnp, hy] at hc
        cases hc
      · rw [hother q hqp hqnp] at hc
        have hold := h.inv.child q np' i hc
        have hne' : np' ≠ np := by
          rintro rfl
          rw [hold.1] at hnp
          rcases hnp with hnp | hnp
          · cases hnp
          · exact hqp (Slot.used.inj hnp)
        rw [hother np' (h.inv.child_ne (not_used h.run) hc) hne']
        exact hold
  · intro q hq
    change (proc q).state ≠ .running at hq
    show (proc q).pc = .idle
    by_cases hqp : q = p
    · rw [hqp, hp] at hq
      exact absurd hx hq
    · by_cases hqnp : q = np
      · rw [hqnp, hpnp]
        exact hy
      · rw [hother q hqp hqnp] at hq ⊢
        exact h.inv.idle q hq
  · intro q hq
    change (proc q).state = .unused ∨ (proc q).state = .zombie at hq
    show ∀ fd, (proc q).ofile fd = none
    by_cases hqp : q = p
    · rw [hqp, hp, hx] at hq
      rcases hq with hq | hq <;> cases hq
    · by_cases hqnp : q = np
      · rw [hqnp, hpnp] at hq ⊢
        exact hclear hq
      · rw [hother q hqp hqnp] at hq ⊢
        exact h.inv.clear q hq
  · exact h.inv.safe

/-! ## Where a call goes on -/

theorem afterOk_goto : ∀ k, AfterOk (x.goto c) k ↔ AfterOk x k
  | .ret _ => Iff.rfl
  | .close _ => Iff.rfl
  | .exit _ _ => Iff.rfl

/-- What a process knows about its descriptors does not depend on where it is. -/
theorem ownAt_goto (c' : Pc) : OwnAt (x.goto c) c' ↔ OwnAt x c' := by
  cases c' with
  | close f k => exact afterOk_goto k
  | pipeclose pi w k => exact afterOk_goto k
  | kfree pi k => exact afterOk_goto k
  | _ => exact Iff.rfl

theorem AfterOk.pc (h : AfterOk x k) : OwnAt x k.pc := by
  cases k with
  | ret r => exact h
  | close f => exact fun _ => h
  | exit fd f => exact h

@[simp] theorem held_pc (k : After) (f : Fin NFILE) : held k.pc f = heldAfter k f := by
  cases k <;> rfl

@[simp] theorem owed_pc (k : After) (f : Fin NFILE) : owed k.pc f = owedAfter k f := by
  cases k <;> rfl

@[simp] theorem pending_pc (k : After) (pi : ℕ) (w : Bool) : pending k.pc pi w = 0 := by
  cases k <;> rfl

@[simp] theorem freeing_pc (k : After) (pi : ℕ) : freeing k.pc pi = 0 := by
  cases k <;> rfl

@[simp] theorem fresh_pc (k : After) : fresh k.pc = [] := by
  cases k <;> rfl

@[simp] theorem child_pc (k : After) : child k.pc = none := by
  cases k <;> rfl

/-- A step that changes nothing but the place of the process. -/
theorem Doing.goto_step (h : Doing s p c)
    (hcount : ∀ f, held c f + owed c' f = held c' f + owed c f) (hpend : pending c' = pending c)
    (hfree : freeing c' = freeing c) (hown : OwnAt (s.proc p) c')
    (hfresh : ∀ f ∈ FileTable.fresh c', f ∈ FileTable.fresh c)
    (hchild : ∀ np i, FileTable.child c' = some (np, i) → ∃ j ≤ i, FileTable.child c = some (np, j)) :
    Inv (s.goto p c') := by
  refine h.local_step (x := (s.proc p).goto c') (fun f => ?_) hpend hfree
    ((ownAt_goto c').mpr hown) hfresh hchild (Or.inl h.run) (Or.inl h.run)
  have := hcount f
  show slots (s.proc p).ofile f + held c f + owed c' f
    = slots (s.proc p).ofile f + held c' f + owed c f
  omega

theorem Doing.ownAt (h : Doing s p c) : OwnAt (s.proc p) c := by
  rw [← h.pc]
  exact h.inv.own p

/-! ## filedup and fileclose -/

variable {ft : Ftable} {w : Bool} {f0 f1 rf wf : Fin NFILE} {fd0 : Fin NOFILE} {i : ℕ}

theorem ref_up (hz : z.ref = (ft f).ref + 1) (g : Fin NFILE) :
    (update ft f z g).ref = (ft g).ref + one f g := by
  by_cases hgf : g = f
  · rw [hgf, update_self, one_self, hz]
  · rw [update_of_ne hgf, one_of_ne (Ne.symm hgf), Nat.add_zero]

theorem ref_down (hz : z.ref + 1 = (ft f).ref) (g : Fin NFILE) :
    (update ft f z g).ref + one f g = (ft g).ref := by
  by_cases hgf : g = f
  · rw [hgf, update_self, one_self, hz]
  · rw [update_of_ne hgf, one_of_ne (Ne.symm hgf), Nat.add_zero]

theorem dup_inv (h : Doing s p (.dup f fd)) : Inv (filedup s f fun u => u.goto p (.ret fd)) := by
  have htwo : 2 ≤ slots (s.proc p).ofile f := h.ownAt
  have hshare : 1 ≤ share (s.proc p) f := by
    have := share_add (h.inv.own p) f
    rw [h.pc] at this
    change share _ f + one f f = slots _ f + 0 at this
    rw [one_self] at this
    omega
  have hle := h.inv.share_le p f
  rw [filedup, if_neg (by omega)]
  refine h.file_step (fun g => ?_) (fun hzero => ?_) (fun _ _ => rfl) rfl ?_ ?_ (Or.inl hshare)
    rfl h.run
  · rw [ref_up rfl g]
    show (s.ftable g).ref + one f g + slots (s.proc p).ofile g + 0 + 0
      = (s.ftable g).ref + slots (s.proc p).ofile g + 0 + one f g
    omega
  · exact absurd hzero (Nat.succ_ne_zero _)
  · intro hr
    exact absurd hr (by omega)
  · intro g hg
    cases hg

/-- **`fileclose`** in the section under the lock of the table. -/
theorem fileclose_inv (h : Doing s p (.close f k)) : Inv (fileclose s p f k) := by
  have hafter : AfterOk (s.proc p) k := h.ownAt
  have hshare : 1 ≤ share (s.proc p) f := by
    have hadd := share_add (h.inv.own p) f
    rw [h.pc] at hadd
    change share _ f + owedAfter k f = slots _ f + (one f f + heldAfter k f) at hadd
    rw [one_self] at hadd
    cases k with
    | ret r =>
      change _ + 0 = _ at hadd
      omega
    | close g =>
      change _ + 0 = _ at hadd
      omega
    | exit fd g =>
      change share _ f + one g f = _ at hadd
      by_cases hgf : g = f
      · have := slots_pos hafter.1
        rw [hgf] at hadd this
        rw [one_self] at hadd
        omega
      · rw [one_of_ne hgf] at hadd
        omega
  have hle := h.inv.share_le p f
  unfold fileclose
  rw [if_neg (by omega)]
  have hcount : ∀ c' z g, held c' g = heldAfter k g → owed c' g = owedAfter k g →
      z.ref + 1 = (s.ftable f).ref →
      (update s.ftable f z g).ref + slots (s.proc p).ofile g + held (.close f k) g + owed c' g
        = (s.ftable g).ref + slots (s.proc p).ofile g + held c' g + owed (.close f k) g := by
    intro c' z g hheld howed hz
    have hr := ref_down hz g
    rw [hheld, howed]
    show _ + _ + (one f g + heldAfter k g) + _ = _ + _ + _ + owedAfter k g
    omega
  by_cases hmore : 0 < (s.ftable f).ref - 1
  · rw [if_pos hmore]
    refine h.file_step (fun g => hcount _ _ g (held_pc k g) (owed_pc k g) ?_) (fun hzero => ?_)
      (fun pi w => ?_) (funext fun pi => freeing_pc k pi) ((ownAt_goto _).mpr hafter.pc)
      (fun g hg => ?_) (Or.inl hshare) (child_pc k) h.run
    · show (s.ftable f).ref - 1 + 1 = _
      omega
    · exact absurd hzero (Nat.ne_of_gt hmore)
    · show endOf (s.ftable f) pi w + pending k.pc pi w = endOf (s.ftable f) pi w + 0
      rw [pending_pc]
    · change g ∈ FileTable.fresh k.pc at hg
      rw [fresh_pc] at hg
      cases hg
  · rw [if_neg hmore]
    have hlast : (s.ftable f).ref = 1 := by omega
    by_cases hpipe : (s.ftable f).type = .pipe
    · -- an end of a pipe: now this process will clear its flag
      rw [if_pos hpipe]
      refine h.file_step (fun g => hcount _ _ g rfl rfl ?_) (fun _ => rfl) (fun pi w => ?_) rfl
        ((ownAt_goto _).mpr hafter) (fun g hg => ?_) (Or.inl hshare) rfl h.run
      · show 0 + 1 = _
        omega
      · show 0 + (if (s.ftable f).pipe = pi ∧ (s.ftable f).writable = w then 1 else 0)
          = endOf (s.ftable f) pi w + 0
        simp only [endOf, hpipe, true_and, Nat.zero_add, Nat.add_zero]
      · cases hg
    · rw [if_neg hpipe]
      refine h.file_step (fun g => hcount _ _ g (held_pc k g) (owed_pc k g) ?_) (fun _ => rfl)
        (fun pi w => ?_) (funext fun pi => freeing_pc k pi) ((ownAt_goto _).mpr hafter.pc)
        (fun g hg => ?_) (Or.inl hshare) (child_pc k) h.run
      · show 0 + 1 = _
        omega
      · show 0 + pending k.pc pi w = endOf (s.ftable f) pi w + 0
        rw [pending_pc, endOf, if_neg fun hend => hpipe hend.1]
      · change g ∈ FileTable.fresh k.pc at hg
        rw [fresh_pc] at hg
        cases hg

/-! ## The page of a pipe -/

theorem Ends.get_close (e : Ends) (w w' : Bool) :
    (e.close w).get w' = if w = w' then false else e.get w' := by
  cases w <;> cases w' <;> rfl

theorem Ends.eq_closed (e : Ends) : e = ⟨false, false⟩ ↔ e.readopen = false ∧ e.writeopen = false := by
  cases e
  simp only [Ends.mk.injEq]

/-- The flag that a call is about to clear is set. -/
theorem Inv.page_open (h : Inv s) (hpend : pending (s.proc p).pc pi w = 1) :
    ∃ e, s.pages pi = some e ∧ e.get w = true := by
  have hle : 1 ≤ ∑ q, pending (s.proc q).pc pi w := by
    rw [← hpend]
    exact Finset.single_le_sum (f := fun q => pending (s.proc q).pc pi w)
      (fun _ _ => Nat.zero_le _) (Finset.mem_univ p)
  have hends := h.ends pi w
  cases hpage : s.pages pi with
  | none =>
    rw [hpage] at hends
    change _ = 0 at hends
    omega
  | some e =>
    rw [hpage] at hends
    change _ = (if e.get w then 1 else 0) at hends
    refine ⟨e, rfl, ?_⟩
    by_contra hne
    rw [if_neg hne] at hends
    omega

/-- **`pipeclose`** finds its page, and frees it after the second end. -/
theorem pipeclose_inv (h : Doing s p (.pipeclose pi w k)) : Inv (pipeclose s p pi w k) := by
  have hafter : AfterOk (s.proc p) k := h.ownAt
  have hpend : pending (s.proc p).pc pi w = 1 := by
    rw [h.pc]
    exact if_pos ⟨rfl, rfl⟩
  obtain ⟨e, hpage, hopen⟩ := h.inv.page_open hpend
  have hwas : closed (s.pages pi) = 0 := by
    rw [hpage, closed, if_neg]
    intro heq
    rw [Option.some.inj heq] at hopen
    cases w <;> cases hopen
  -- the flag goes from 1 to 0, the call does not have to clear it any more
  have hflag : ∀ pi' w', flag (s.pages pi') w' = (if pi = pi' ∧ w = w' then 1 else 0) +
      flag (update s.pages pi (some (e.close w)) pi') w' := by
    intro pi' w'
    by_cases hpi : pi = pi'
    · rw [← hpi, update_self, hpage]
      show (if e.get w' then 1 else 0) = (if pi = pi ∧ w = w' then 1 else 0) +
        if (e.close w).get w' then 1 else 0
      rw [Ends.get_close]
      by_cases hw : w = w'
      · rw [← hw]
        simp [hopen]
      · simp [hw]
    · rw [update_of_ne (Ne.symm hpi), if_neg fun hcon => hpi hcon.1, Nat.zero_add]
  unfold pipeclose
  rw [hpage]
  show Inv ((s.setPage pi (some (e.close w))).goto p (if _ then _ else _))
  by_cases hboth : (e.close w).readopen = false ∧ (e.close w).writeopen = false
  · rw [if_pos hboth]
    refine h.page_step (fun f => rfl) (fun pi' w' => ?_) (fun pi' => ?_)
      ((ownAt_goto _).mpr hafter) (fun f hf => ?_) rfl
    · rw [hflag pi' w']
      show 0 + _ = _
      rw [Nat.zero_add]
      rfl
    · show (if pi = pi' then 1 else 0) + closed (s.pages pi') = 0 + _
      by_cases hpi : pi = pi'
      · rw [← hpi, update_self, hwas, if_pos rfl, closed, if_pos]
        rw [(Ends.eq_closed _).mpr hboth]
      · rw [update_of_ne (Ne.symm hpi), if_neg hpi]
    · cases hf
  · rw [if_neg hboth]
    refine h.page_step (fun f => ?_) (fun pi' w' => ?_) (fun pi' => ?_)
      ((ownAt_goto _).mpr hafter.pc) (fun f hf => ?_) (child_pc k)
    · rw [held_pc, owed_pc]
      rfl
    · rw [hflag pi' w', pending_pc, Nat.zero_add]
      rfl
    · rw [freeing_pc]
      show 0 + closed (s.pages pi') = 0 + _
      by_cases hpi : pi = pi'
      · rw [← hpi, update_self, hwas, closed, if_neg]
        intro heq
        exact hboth ((Ends.eq_closed _).mp (Option.some.inj heq))
      · rw [update_of_ne (Ne.symm hpi)]
    · rw [fresh_pc] at hf
      cases hf

/-- **`kfree`** of the page of a pipe: it is there, and nobody else frees it. -/
theorem kfree_inv (h : Doing s p (.kfree pi k)) : Inv (kfree s p pi k) := by
  have hafter : AfterOk (s.proc p) k := h.ownAt
  have hpage : s.pages pi = some ⟨false, false⟩ := by
    have hle : freeing (s.proc p).pc pi ≤ ∑ q, freeing (s.proc q).pc pi :=
      Finset.single_le_sum (f := fun q => freeing (s.proc q).pc pi) (fun _ _ => Nat.zero_le _)
        (Finset.mem_univ p)
    rw [h.inv.frees pi, h.pc, freeing, if_pos rfl, closed] at hle
    by_contra hne
    rw [if_neg hne] at hle
    omega
  unfold kfree
  rw [hpage]
  refine h.page_step (fun f => ?_) (fun pi' w' => ?_) (fun pi' => ?_)
    ((ownAt_goto _).mpr hafter.pc) (fun f hf => ?_) (child_pc k)
  · rw [held_pc, owed_pc]
    rfl
  · rw [pending_pc]
    show 0 + flag (s.pages pi') w' = 0 + _
    by_cases hpi : pi = pi'
    · rw [← hpi, update_self, hpage]
      cases w' <;> rfl
    · rw [update_of_ne (Ne.symm hpi)]
  · rw [freeing_pc]
    show 0 + closed (s.pages pi') = (if pi = pi' then 1 else 0) + _
    by_cases hpi : pi = pi'
    · rw [← hpi, update_self, hpage, if_pos rfl]
      rfl
    · rw [update_of_ne (Ne.symm hpi), if_neg hpi]
  · rw [fresh_pc] at hf
    cases hf

/-! ## Allocating files and descriptors -/

/-- **`filealloc`**: the new file is fresh. -/
theorem withFile_inv {fail : Pc} {next : Fin NFILE → Pc} (h : Doing s p c) (hfail : Inv (s.goto p fail))
    (hheld : ∀ f g, held (next f) g + owed c g = held c g + one f g + owed (next f) g)
    (hpend : ∀ f, pending (next f) = pending c) (hfree : ∀ f, freeing (next f) = freeing c)
    (hown : ∀ f, (s.ftable f).ref = 0 → OwnAt (s.proc p) (next f))
    (hfresh : ∀ f, ∀ g ∈ FileTable.fresh (next f), g = f ∨ g ∈ FileTable.fresh c)
    (hchild : ∀ f, FileTable.child (next f) = none) : Inv (withFile s p fail next) := by
  unfold withFile
  cases hf : filealloc s.ftable with
  | none => exact hfail
  | some res =>
    obtain ⟨ft, f⟩ := res
    obtain ⟨hzero, rfl⟩ := filealloc_some hf
    refine h.file_step (x := (s.proc p).goto (next f)) (fun g => ?_)
      (fun hone => absurd hone Nat.one_ne_zero) (fun pi w => ?_) (hfree f)
      ((ownAt_goto _).mpr (hown f hzero)) (fun g hg => ?_) (Or.inr hzero) (hchild f) h.run
    · rw [ref_up (by rw [hzero]) g]
      have := hheld f g
      show _ + _ + slots (s.proc p).ofile g + _ + owed (next f) g
        = _ + slots (s.proc p).ofile g + held (next f) g + _
      omega
    · show endOf (s.ftable f) pi w + pending (next f) pi w = _
      rw [hpend f]
    · by_cases hgf : g = f
      · exact Or.inl ⟨hgf, rfl, h.inv.kind f hzero⟩
      · exact Or.inr ⟨hgf, (hfresh f g hg).resolve_left hgf⟩

/-- **`fdalloc`**: the descriptor takes over the reference of the call. -/
theorem withFd_inv {fail : Process} {next : Fin NOFILE → Pc} (h : Doing s p c) (hfail : Inv (s.set p fail))
    (hheld : ∀ fd g, held (next fd) g + one f g + owed c g = held c g + owed (next fd) g)
    (hpend : ∀ fd, pending (next fd) = pending c) (hfree : ∀ fd, freeing (next fd) = freeing c)
    (hown : ∀ fd, (s.proc p).ofile fd = none → OwnAt ((s.proc p).setFd fd (some f)) (next fd))
    (hfresh : ∀ fd, ∀ g ∈ FileTable.fresh (next fd), g ∈ FileTable.fresh c)
    (hchild : ∀ fd, FileTable.child (next fd) = none) : Inv (withFd s p f fail next) := by
  unfold withFd
  cases hfd : fdalloc (s.proc p).ofile with
  | none => exact hfail
  | some fd =>
    have hnone := fdalloc_free hfd
    refine h.local_step (fun g => ?_) (hpend fd) (hfree fd)
      ((ownAt_goto _).mpr (hown fd hnone)) (hfresh fd) (fun np i hc => ?_) (Or.inl h.run) (Or.inl h.run)
    · have hslots := slots_take hnone f g
      have := hheld fd g
      show slots (s.proc p).ofile g + held c g + owed (next fd) g
        = slots (update (s.proc p).ofile fd (some f)) g + held (next fd) g + owed c g
      omega
    · change FileTable.child (next fd) = some (np, i) at hc
      rw [hchild fd] at hc
      cases hc

/-- A process without descriptors changed may give up. -/
theorem Doing.giveUp (h : Doing s p c)
    (hcount : ∀ f, held c f + owed c' f = held c' f + owed c f) (hpend : pending c' = pending c)
    (hfree : freeing c' = freeing c) (hown : OwnAt (s.proc p) c') (hfresh : FileTable.fresh c' = [])
    (hchild : FileTable.child c' = none) : Inv (s.goto p c') := by
  refine h.goto_step hcount hpend hfree hown (fun f hf => ?_) fun np i hc => ?_
  · rw [hfresh] at hf
    cases hf
  · rw [hchild] at hc
    cases hc

/-! ## open -/

theorem openAlloc_inv (h : Doing s p (.openAlloc)) : Inv (withFile s p (.ret (-1)) .openFd) := by
  have hsame : (s.proc p).Same := h.ownAt
  refine withFile_inv h ?_ (fun f g => ?_) (fun _ => rfl) (fun _ => rfl) (fun _ _ => hsame)
    (fun f g hg => Or.inl (List.mem_singleton.mp hg)) fun _ => rfl
  · exact h.giveUp (fun _ => rfl) rfl rfl (fun _ => hsame) rfl rfl
  · show one f g + 0 = 0 + one f g + 0
    omega

theorem openFd_inv (h : Doing s p (.openFd f)) :
    Inv (withFd s p f ((s.proc p).goto (.close f (.ret (-1)))) (.openType f)) := by
  have hsame : (s.proc p).Same := h.ownAt
  refine withFd_inv h ?_ (fun fd g => ?_) (fun _ => rfl) (fun _ => rfl) (fun fd _ => ?_)
    (fun _ g hg => hg) fun _ => rfl
  · exact h.giveUp (fun _ => rfl) rfl rfl (fun _ => hsame) rfl rfl
  · show 0 + one f g + 0 = one f g + 0
    omega
  · exact update_self fd _ _

/-- The file of `open` gets its type. -/
theorem openType_inv (h : Doing s p (.openType f fd)) (device readable writable : Bool) :
    Inv ((s.setFile f { s.ftable f with
      type := if device then .device else .inode, readable, writable }).goto p (.ret fd)) := by
  have hfd : (s.proc p).ofile fd = some f := h.ownAt
  have hmem : f ∈ FileTable.fresh (s.proc p).pc := by
    rw [h.pc]
    exact List.mem_singleton_self f
  obtain ⟨hone, htype⟩ := h.inv.fresh p f hmem
  refine h.file_step (fun g => ?_) (fun hzero => ?_) (fun pi w => ?_) rfl ?_ (fun g hg => ?_)
    (Or.inl (share_fresh (h.inv.own p) hmem)) rfl h.run
  · have hsame : (update s.ftable f { s.ftable f with
        type := if device then .device else .inode, readable, writable } g).ref
        = (s.ftable g).ref := by
      by_cases hgf : g = f
      · rw [hgf, update_self]
      · rw [update_of_ne hgf]
    rw [hsame]
    rfl
  · have : (s.ftable f).ref = 0 := hzero
    omega
  · show endOf _ pi w + 0 = endOf (s.ftable f) pi w + 0
    rw [endOf, if_neg, endOf, if_neg]
    · rw [htype]
      exact fun hend => by cases hend.1
    · cases device
      · exact fun hend => by cases hend.1
      · exact fun hend => by cases hend.1
  · intro hr
    exact absurd hr (by omega)
  · cases hg

/-! ## pipe -/

theorem pipeAlloc0_inv (h : Doing s p (.pipeAlloc0)) : Inv (withFile s p (.ret (-1)) .pipeAlloc1) := by
  have hsame : (s.proc p).Same := h.ownAt
  refine withFile_inv h ?_ (fun f g => ?_) (fun _ => rfl) (fun _ => rfl) (fun _ _ => hsame)
    (fun f g hg => Or.inl (List.mem_singleton.mp hg)) fun _ => rfl
  · exact h.giveUp (fun _ => rfl) rfl rfl (fun _ => hsame) rfl rfl
  · show one f g + 0 = 0 + one f g + 0
    omega

theorem pipeAlloc1_inv (h : Doing s p (.pipeAlloc1 f)) :
    Inv (withFile s p (.close f (.ret (-1))) (.pipeKalloc f)) := by
  have hsame : (s.proc p).Same := h.ownAt
  have hone := (h.inv.fresh p f (by rw [h.pc]; exact List.mem_singleton_self f)).1
  refine withFile_inv h ?_ (fun f' g => ?_) (fun _ => rfl) (fun _ => rfl)
    (fun f' hzero => ⟨hsame, ?_⟩) (fun f' g hg => ?_) fun _ => rfl
  · exact h.giveUp (fun _ => rfl) rfl rfl (fun _ => hsame) rfl rfl
  · show one f g + one f' g + 0 = one f g + one f' g + 0
    rfl
  · rintro rfl
    omega
  · rcases List.mem_pair.mp hg with rfl | rfl
    · exact Or.inr (List.mem_singleton_self g)
    · exact Or.inl rfl

theorem pipeKalloc_inv (h : Doing s p (.pipeKalloc f0 f1)) (hpage : s.pages pi = none) :
    Inv ((s.setPage pi (some ⟨true, true⟩)).goto p (.pipeType f0 f1 pi)) := by
  have hown := h.ownAt
  refine h.page_step (fun f => rfl) (fun pi' w => ?_) (fun pi' => ?_)
    ((ownAt_goto _).mpr hown) (fun f hf => hf) rfl
  · show (if pi = pi' then 1 else 0) + flag (s.pages pi') w = 0 + _
    by_cases hpi : pi = pi'
    · rw [← hpi, update_self, hpage, if_pos rfl]
      cases w <;> rfl
    · rw [update_of_ne (Ne.symm hpi), if_neg hpi]
  · show 0 + closed (s.pages pi') = 0 + _
    by_cases hpi : pi = pi'
    · rw [← hpi, update_self, hpage]
      rfl
    · rw [update_of_ne (Ne.symm hpi)]

/-- The two files of a pipe get their type; from now on they will clear the flags. -/
theorem pipeType_inv (h : Doing s p (.pipeType f0 f1 pi)) :
    Inv ((pipeFiles s f0 f1 pi).goto p (.pipeFd0 f0 f1)) := by
  obtain ⟨hsame, hne⟩ : (s.proc p).Same ∧ f0 ≠ f1 := h.ownAt
  have hfresh : ∀ f, f = f0 ∨ f = f1 → f ∈ FileTable.fresh (s.proc p).pc := by
    intro f hf
    rw [h.pc]
    exact List.mem_pair.mpr hf
  obtain ⟨hone₀, htype₀⟩ := h.inv.fresh p f0 (hfresh f0 (Or.inl rfl))
  obtain ⟨hone₁, htype₁⟩ := h.inv.fresh p f1 (hfresh f1 (Or.inr rfl))
  set z0 : OpenFile := ⟨.pipe, (s.ftable f0).ref, true, false, pi⟩ with hz0
  set z1 : OpenFile := ⟨.pipe, (update s.ftable f0 z0 f1).ref, false, true, pi⟩ with hz1
  have hz1ref : z1.ref = (s.ftable f1).ref := by
    rw [hz1, update_of_ne hne.symm]
  have href : ∀ g, (update (update s.ftable f0 z0) f1 z1 g).ref
      = (s.ftable g).ref := by
    intro g
    by_cases hg₁ : g = f1
    · rw [hg₁, update_self, hz1ref]
    · rw [update_of_ne hg₁]
      by_cases hg₀ : g = f0
      · rw [hg₀, update_self]
      · rw [update_of_ne hg₀]
  have hother : ∀ g, g ≠ f0 → g ≠ f1 →
      update (update s.ftable f0 z0) f1 z1 g = s.ftable g := by
    intro g hg₀ hg₁
    rw [update_of_ne hg₁, update_of_ne hg₀]
  have hown : OwnOk ((s.proc p).goto (.pipeFd0 f0 f1)) := hsame
  refine h.inv.step (x := (s.proc p).goto (.pipeFd0 f0 f1)) (not_used h.run) rfl ⟨fun g => ?_, fun g hg => ?_,
    fun pi' w => ?_, fun pi' => ?_, hown, fun g hg => ?_, fun g hg => ?_, fun np i hc => ?_,
    Or.inl h.run, Or.inl h.run, ⟨rfl, rfl⟩⟩
  · refine share_balance hown (h.inv.own p) ?_
    rw [h.pc]
    show (update (update s.ftable f0 z0) f1 z1 g).ref + _ + _ + _ = _
    rw [href g]
    rfl
  · change (update (update s.ftable f0 z0) f1 z1 g).ref = 0 at hg
    show (update (update s.ftable f0 z0) f1 z1 g).type = .none
    rw [href g] at hg
    rw [hother g]
    · exact h.inv.kind g hg
    · rintro rfl
      omega
    · rintro rfl
      omega
  · have h₀ := Tally.sum_update (fun y => endOf y pi' w) s.ftable f0 z0
    have h₁ := Tally.sum_update (fun y => endOf y pi' w) (update s.ftable f0 z0) f1 z1
    rw [update_of_ne hne.symm] at h₁
    have hold : ∀ f, (s.ftable f).type = .none → endOf (s.ftable f) pi' w = 0 := by
      intro f hf
      rw [endOf, if_neg]
      rw [hf]
      exact fun hend => by cases hend.1
    have hnew : endOf z0 pi' w + endOf z1 pi' w = if pi = pi' then 1 else 0 := by
      simp only [endOf, hz0, hz1, true_and]
      cases w
      · simp
      · simp
    have hold₀ := hold f0 htype₀
    have hold₁ := hold f1 htype₁
    rw [h.pc]
    show ∑ g, endOf (update (update s.ftable f0 z0) f1 z1 g) pi' w + 0 +
      flag (s.pages pi') w
      = _ + (if pi = pi' then 1 else 0) + flag (s.pages pi') w
    omega
  · rw [h.pc]
    rfl
  · cases hg
  · left
    refine share_fresh (h.inv.own p) (hfresh g ?_)
    by_contra hnot
    rw [not_or] at hnot
    exact hg (hother g hnot.1 hnot.2)
  · cases hc

/-- After the first descriptor of a pipe. -/
theorem pipeFd0_inv (h : Doing s p (.pipeFd0 rf wf)) :
    Inv (withFd s p rf ((s.proc p).goto (.close rf (.close wf))) (.pipeFd1 rf wf)) := by
  have hsame : (s.proc p).Same := h.ownAt
  refine withFd_inv h ?_ (fun fd g => ?_) (fun _ => rfl) (fun _ => rfl) (fun fd hfd => ?_)
    (fun _ g hg => hg) fun _ => rfl
  · exact h.giveUp (fun _ => rfl) rfl rfl hsame rfl rfl
  · show one wf g + one rf g + 0 = one rf g + one wf g + 0
    omega
  · refine ⟨update_self fd _ _, ?_, hsame.2⟩
    show update (update (s.proc p).ofile fd (some rf)) fd none = (s.proc p).before
    rw [update_idem, ← hfd, update_eq_self]
    exact hsame.1

/-- A call clears descriptors that it has set and gives up. -/
theorem pipeClear_inv (h : Doing s p c) (hx : x.state = .running) (hsame : x.Same)
    (hcount : ∀ g, slots (s.proc p).ofile g + held c g = slots x.ofile g + one rf g + one wf g)
    (howed : ∀ g, owed c g = 0) (hpend : pending c = fun _ _ => 0)
    (hfree : freeing c = fun _ => 0) : Inv (s.set p (x.goto (.close rf (.close wf)))) := by
  refine h.local_step (fun g => ?_) hpend.symm hfree.symm ((ownAt_goto _).mpr hsame)
    (fun g hg => ?_) (fun np i hc => ?_) (Or.inl hx) (Or.inl hx)
  · have h₁ := hcount g
    have h₂ := howed g
    show _ + _ + 0 = slots x.ofile g + (one rf g + one wf g) + _
    omega
  · cases hg
  · cases hc

theorem pipeFd1_inv (h : Doing s p (.pipeFd1 rf wf fd0)) :
    Inv (withFd s p wf (((s.proc p).setFd fd0 none).goto (.close rf (.close wf)))
      (.pipeCopy rf wf fd0)) := by
  obtain ⟨hfd0, hsame⟩ : (s.proc p).ofile fd0 = some rf ∧ ((s.proc p).setFd fd0 none).Same :=
    h.ownAt
  refine withFd_inv h ?_ (fun fd g => ?_) (fun _ => rfl) (fun _ => rfl) (fun fd hfd => ?_)
    (fun _ g hg => hg) fun _ => rfl
  · refine pipeClear_inv h h.run hsame (fun g => ?_) (fun _ => rfl) rfl rfl
    have := slots_clear hfd0 g
    show _ + one wf g = slots (update (s.proc p).ofile fd0 none) g + _ + _
    omega
  · show 0 + one wf g + 0 = one wf g + 0
    omega
  · have hne : fd0 ≠ fd := by
      rintro rfl
      rw [hfd0] at hfd
      cases hfd
    refine ⟨⟨?_, update_self fd _ _, hne⟩, ?_, hsame.2⟩
    · show update (s.proc p).ofile fd (some wf) fd0 = some rf
      rw [update_of_ne hne]
      exact hfd0
    · show update (update (update (s.proc p).ofile fd (some wf)) fd0 none)
        fd none = (s.proc p).before
      have hself : update (s.proc p).ofile fd none = (s.proc p).ofile :=
        update_eq_self_iff.mpr hfd.symm
      rw [update_comm hne, update_idem, hself]
      exact hsame.1

theorem pipeCopy_inv {fd1 : Fin NOFILE} (h : Doing s p (.pipeCopy rf wf fd0 fd1)) :
    Inv (s.set p ((((s.proc p).setFd fd0 none).setFd fd1 none).goto (.close rf (.close wf)))) := by
  obtain ⟨⟨hfd0, hfd1, hne⟩, hsame⟩ : ((s.proc p).ofile fd0 = some rf ∧
    (s.proc p).ofile fd1 = some wf ∧ fd0 ≠ fd1) ∧
      (((s.proc p).setFd fd0 none).setFd fd1 none).Same := h.ownAt
  refine pipeClear_inv h h.run hsame (fun g => ?_) (fun _ => rfl) rfl rfl
  have h₀ := slots_clear hfd0 g
  have hfd1' : update (s.proc p).ofile fd0 none fd1 = some wf := by
    rw [update_of_ne hne.symm]
    exact hfd1
  have h₁ := slots_clear hfd1' g
  show _ + 0 = slots (update (update (s.proc p).ofile fd0 none) fd1 none) g + _ + _
  omega

/-! ## fork -/

/-- The shares of a process in the middle of a `fork` are its descriptors. -/
theorem share_fork {c : Pc} (hx : x.pc = c) (hheld : held c = fun _ => 0) (howed : owed c = fun _ => 0)
    (f : Fin NFILE) : share x f = slots x.ofile f := by
  rw [share, hx, hheld, howed]
  rfl

theorem set_goto (hne : np ≠ p) :
    (s.set np y).goto p c = (s.set np y).set p ((s.proc p).goto c) := by
  have hp : (s.set np y).proc p = s.proc p := update_of_ne hne.symm _ _
  rw [State.goto, hp]

theorem forkAlloc_inv (h : Doing s p (.forkAlloc)) (hnp : (s.proc np).state = .unused) :
    Inv ((s.set np { s.proc np with state := .used p }).goto p (.forkVm np)) := by
  have hsame : (s.proc p).Same := h.ownAt
  have hne : np ≠ p := by
    rintro rfl
    rw [h.run] at hnp
    cases hnp
  have hidle : (s.proc np).pc = .idle := h.inv.idle np fun hr => by
    rw [hr] at hnp
    cases hnp
  have hgoal := h.child_step s.ftable (x := (s.proc p).goto (.forkVm np))
    (y := { s.proc np with state := .used p }) (Or.inl hnp) (fun _ => rfl) h.inv.kind
    (fun _ => rfl) (fun g hg => absurd rfl hg) (fun g => ?_) rfl rfl hsame rfl (fun np' i hc => ?_)
    h.run hidle (fun hcon => ?_)
  · rw [set_goto hne]
    exact hgoal
  · rw [share_fork rfl rfl rfl, share_fork h.pc rfl rfl]
    rfl
  · cases hc
    exact ⟨rfl, rfl, fun fd _ => h.inv.clear np (Or.inl hnp) fd⟩
  · rcases hcon with hcon | hcon <;> cases hcon

/-- The child of a `fork` in progress. -/
theorem Doing.child_of (h : Doing s p c)
    (hc : FileTable.child c = some (np, i)) : (s.proc np).state = .used p ∧
      ∀ fd : Fin NOFILE, i ≤ fd → (s.proc np).ofile fd = none :=
  h.inv.child p np i (by rw [h.pc]; exact hc)

/-- A step of `fork` that changes the state of the child's slot. -/
theorem forkSlot_inv {r : ℤ} {state : Slot} (h : Doing s p c)
    (hchild : FileTable.child c = some (np, i)) (hheld : held c = fun _ => 0)
    (howed : owed c = fun _ => 0) (hpend : pending c = fun _ _ => 0)
    (hfree : freeing c = fun _ => 0) (hsame : r = -1 → (s.proc p).Same)
    (hclear : state = .unused ∨ state = .zombie → ∀ fd, (s.proc np).ofile fd = none) :
    Inv ((s.set np { s.proc np with state }).goto p (.ret r)) := by
  obtain ⟨hstate, -⟩ := h.child_of hchild
  have hne : np ≠ p := h.inv.child_ne (not_used h.run) (q := p) (by rw [h.pc]; exact hchild)
  have hidle : (s.proc np).pc = .idle := h.inv.idle np fun hr => by
    rw [hr] at hstate
    cases hstate
  have hgoal := h.child_step s.ftable (x := (s.proc p).goto (.ret r))
    (y := { s.proc np with state }) (Or.inr hstate) (fun _ => rfl) h.inv.kind
    (fun _ => rfl) (fun g hg => absurd rfl hg) (fun g => ?_) hpend.symm hfree.symm hsame rfl
    (fun np' i hc => ?_) h.run hidle hclear
  · rw [set_goto hne]
    exact hgoal
  · rw [share_fork rfl rfl rfl, share_fork h.pc hheld howed]
    rfl
  · cases hc

/-- **One descriptor of the child.** -/
theorem forkFd_inv (h : Doing s p (.forkDup np fd)) : Inv (forkFd s p np fd) := by
  obtain ⟨hstate, hnone⟩ : (s.proc np).state = .used p ∧
    ∀ fd' : Fin NOFILE, fd ≤ fd' → (s.proc np).ofile fd' = none := h.child_of (i := fd) rfl
  unfold forkFd
  cases hfd : (s.proc p).ofile fd with
  | none =>
    refine h.goto_step (fun _ => rfl) rfl rfl trivial (fun f hf => ?_) fun np' i hc => ?_
    · cases hf
    · cases hc
      exact ⟨fd, Nat.le_succ _, rfl⟩
  | some f =>
    have hshare : 1 ≤ share (s.proc p) f := by
      rw [share_fork h.pc rfl rfl]
      exact slots_pos hfd
    have hle := h.inv.share_le p f
    have hidle : (s.proc np).pc = .idle := h.inv.idle np fun hr => by
      rw [hr] at hstate
      cases hstate
    show Inv (filedup s f _)
    rw [filedup, if_neg (by omega)]
    refine h.child_step _ (Or.inr hstate) (fun g => ?_) (fun g hg => ?_) (fun g => ?_)
      (fun g hg => ?_) (fun g => ?_) rfl rfl trivial rfl (fun np' i hc => ?_) h.run hidle
      (fun hcon => ?_)
    · rw [ref_up rfl g]
      have := slots_take (hnone fd le_rfl) f g
      show _ = _ + slots (update (s.proc np).ofile fd (some f)) g
      omega
    · by_cases hgf : g = f
      · rw [hgf, update_self] at hg
        exact absurd hg (Nat.succ_ne_zero _)
      · rw [update_of_ne hgf] at hg ⊢
        exact h.inv.kind g hg
    · by_cases hgf : g = f
      · rw [hgf, update_self]
        rfl
      · rw [update_of_ne hgf]
    · have hgf : g = f := by
        by_contra hgf
        exact hg (update_of_ne hgf _ _)
      rw [hgf]
      exact hshare
    · rw [share_fork rfl rfl rfl, share_fork h.pc rfl rfl]
    · cases hc
      refine ⟨rfl, hstate, fun fd' hfd' => ?_⟩
      show update (s.proc np).ofile fd (some f) fd' = none
      rw [update_of_ne]
      · exact hnone fd' (by omega)
      · rintro rfl
        omega
    · change (s.proc np).state = .unused ∨ (s.proc np).state = .zombie at hcon
      rw [hstate] at hcon
      rcases hcon with hcon | hcon <;> cases hcon

/-! ## exit -/

theorem exit_inv (h : Doing s p (.exit i)) (hi : i < NOFILE) :
    Inv (match (s.proc p).ofile ⟨i, hi⟩ with
      | none => s.goto p (.exit (i + 1))
      | some f => s.goto p (.close f (.exit ⟨i, hi⟩ f))) := by
  have hdone : ∀ j : Fin NOFILE, j < i → (s.proc p).ofile j = none := h.ownAt
  cases hfd : (s.proc p).ofile ⟨i, hi⟩ with
  | none =>
    refine h.giveUp (fun _ => rfl) rfl rfl (fun j hj => ?_) rfl rfl
    by_cases hji : j.val = i
    · have : j = ⟨i, hi⟩ := Fin.ext hji
      rw [this]
      exact hfd
    · exact hdone j (by omega)
  | some f =>
    refine h.giveUp (fun g => ?_) rfl rfl ⟨hfd, fun j hj => hdone j hj⟩ rfl rfl
    show 0 + one f g = one f g + 0 + 0
    omega

theorem exitClear_inv (h : Doing s p (.exitClear fd f)) :
    Inv (s.set p (((s.proc p).setFd fd none).goto (.exit (fd + 1)))) := by
  obtain ⟨hfd, hdone⟩ : (s.proc p).ofile fd = some f ∧ ∀ j < fd, (s.proc p).ofile j = none :=
    h.ownAt
  refine h.local_step (fun g => ?_) rfl rfl ?_ (fun g hg => ?_) (fun np i hc => ?_)
    (Or.inl h.run) (Or.inl h.run)
  · have := slots_clear hfd g
    show _ + 0 + 0 = slots (update (s.proc p).ofile fd none) g + 0 + one f g
    omega
  · intro j hj
    show update (s.proc p).ofile fd none j = none
    by_cases hjf : j = fd
    · rw [hjf, update_self]
    · rw [update_of_ne hjf]
      refine hdone j ?_
      have : j.val ≠ fd.val := fun heq => hjf (Fin.ext heq)
      exact Fin.lt_def.mpr (by omega)
  · cases hg
  · cases hc

/-- The end of `exit`: all descriptors are clear. -/
theorem exitEnd_inv (h : Doing s p (.exit i)) (hi : ¬ i < NOFILE) :
    Inv (s.set p { s.proc p with state := .zombie, pc := .idle }) := by
  have hdone : ∀ j : Fin NOFILE, j < i → (s.proc p).ofile j = none := h.ownAt
  refine h.local_step (fun g => rfl) rfl rfl trivial (fun g hg => ?_) (fun np i hc => ?_)
    (Or.inr rfl) (Or.inr fun fd => hdone fd (by omega))
  · cases hg
  · cases hc

end FileTable

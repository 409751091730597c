/-
# Labelled transition systems and their runs

A system is given by a partial step function `step : σ → α → Option σ`: the
action `a` is enabled in `s` when `step s a` is some state.  All the
nondeterminism of a concurrent program (which process moves, what it asks for,
when the machine loses power) sits in the choice of the actions, so a run is a
list of actions and "for every interleaving" is a quantifier over such lists.

`run_invariant`, `run_invariant_of_meets` and `always_of_invariant` are the
induction rules, and `always_iff_meets` is the rule for conditions that are
exact.
-/
import Mathlib.Data.List.Basic

namespace Transition

variable {σ α : Type*}

/-! ## Runs -/

/-- The state after the actions, performed from left to right; `none` as soon
as one of them is not enabled. -/
def run (step : σ → α → Option σ) : σ → List α → Option σ
  | s, [] => some s
  | s, a :: as => (step s a).bind fun t => run step t as

/-- Every action that is performed meets `P` in the state it is performed in. -/
def Meets (step : σ → α → Option σ) (P : σ → α → Prop) : σ → List α → Prop
  | _, [] => True
  | s, a :: as => ∀ t, step s a = some t → P s a ∧ Meets step P t as

/-- `Q` holds of every state the actions pass through, the first one included. -/
def Always (step : σ → α → Option σ) (Q : σ → Prop) : σ → List α → Prop
  | s, [] => Q s
  | s, a :: as => Q s ∧ ∀ t, step s a = some t → Always step Q t as

variable {step : σ → α → Option σ}

/-- A condition that can be decided can be decided along a whole run. -/
instance Meets.decidable {P : σ → α → Prop} [∀ s a, Decidable (P s a)] :
    ∀ (s : σ) (as : List α), Decidable (Meets step P s as)
  | _, [] => isTrue trivial
  | s, a :: as =>
    match h : step s a with
    | none => isTrue fun t ht => by rw [h] at ht; cases ht
    | some t =>
      have : Decidable (Meets step P t as) := Meets.decidable t as
      decidable_of_iff (P s a ∧ Meets step P t as)
        ⟨fun hP u hu => by rw [h] at hu; cases hu; exact hP, fun hP => hP t h⟩

@[simp] theorem run_nil (s : σ) : run step s [] = some s := rfl

variable {s : σ} {as : List α} {Q Inv : σ → Prop} {P : σ → α → Prop}

/-- A run of `a :: as` is a step on `a` followed by a run of `as`. -/
theorem run_cons_eq_some {u : σ} {a : α} : run step s (a :: as) = some u ↔
      ∃ t, step s a = some t ∧ run step t as = some u := by
  rw [run, Option.bind_eq_some_iff]

theorem run_append (as bs : List α) :
    run step s (as ++ bs) = (run step s as).bind fun t => run step t bs := by
  induction as generalizing s with
  | nil => rfl
  | cons a as ih =>
    rw [List.cons_append, run, run, Option.bind_assoc]
    congr 1
    funext t
    exact ih

/-- What holds of every state that is passed through holds of the last one. -/
theorem Always.of_run :
    ∀ (as : List α) (s u : σ), Always step Q s as → run step s as = some u → Q u := by
  intro as
  induction as with
  | nil =>
    intro s u h hrun
    rw [run_nil, Option.some.injEq] at hrun
    exact hrun ▸ h
  | cons a as ih =>
    intro s u h hrun
    obtain ⟨t, ht, hrun⟩ := run_cons_eq_some.mp hrun
    exact ih t u (h.2 t ht) hrun

/-- A condition on the actions alone. -/
theorem Meets.of_forall : ∀ (as : List α) (s : σ), (∀ s, ∀ a ∈ as, P s a) → Meets step P s as := by
  intro as
  induction as with
  | nil => exact fun _ _ => trivial
  | cons a as ih =>
    intro s h t _
    refine ⟨h s a List.mem_cons_self, ih t fun u b hb => ?_⟩
    exact h u b (List.mem_cons_of_mem a hb)

/-! ## The induction rules -/

/-- A property of the first state that every step preserves holds of the state
a run ends in. -/
theorem run_invariant (hstep : ∀ s a t, Inv s → step s a = some t → Inv t) :
    ∀ (as : List α) (s u : σ), Inv s → run step s as = some u → Inv u := by
  intro as
  induction as with
  | nil =>
    intro s u hs hrun
    rw [run_nil, Option.some.injEq] at hrun
    exact hrun ▸ hs
  | cons a as ih =>
    intro s u hs hrun
    obtain ⟨t, ht, hrun⟩ := run_cons_eq_some.mp hrun
    exact ih t u (hstep s a t hs ht) hrun

/-- The same rule for the runs all of whose steps meet a condition. -/
theorem run_invariant_of_meets (hstep : ∀ s a t, Inv s → P s a → step s a = some t → Inv t) :
    ∀ (as : List α) (s u : σ), Inv s → Meets step P s as → run step s as = some u → Inv u := by
  intro as
  induction as with
  | nil =>
    intro s u hs _ hrun
    rw [run_nil, Option.some.injEq] at hrun
    exact hrun ▸ hs
  | cons a as ih =>
    intro s u hs hmeets hrun
    obtain ⟨t, ht, hrun⟩ := run_cons_eq_some.mp hrun
    obtain ⟨hP, hmeets⟩ := hmeets t ht
    exact ih t u (hstep s a t hs hP ht) hmeets hrun

/-- What an invariant implies holds of every state that is passed through. -/
theorem always_of_invariant (hstep : ∀ s a t, Inv s → P s a → step s a = some t → Inv t)
    (hQ : ∀ s, Inv s → Q s) :
    ∀ (as : List α) (s : σ), Inv s → Meets step P s as → Always step Q s as := by
  intro as
  induction as with
  | nil =>
    intro s hs _
    exact hQ s hs
  | cons a as ih =>
    intro s hs hmeets
    refine ⟨hQ s hs, fun t ht => ?_⟩
    obtain ⟨hP, hmeets⟩ := hmeets t ht
    exact ih t (hstep s a t hs hP ht) hmeets

/-- The same when no condition on the steps is needed. -/
theorem always_of_step (hstep : ∀ s a t, Inv s → step s a = some t → Inv t)
    (hQ : ∀ s, Inv s → Q s) : ∀ (as : List α) (s : σ), Inv s → Always step Q s as := by
  intro as
  induction as with
  | nil => exact fun s hs => hQ s hs
  | cons a as ih => exact fun s hs => ⟨hQ s hs, fun t ht => ih t (hstep s a t hs ht)⟩

/-- What holds of every state passed through holds of the first one. -/
theorem Always.head (h : Always step Q s as) : Q s := by
  cases as with
  | nil => exact h
  | cons a as => exact h.1

/-- **Exact conditions.**  When a condition on the steps is enough to keep an
invariant that implies `Q`, and a step against the condition breaks `Q`, then `Q`
holds all along exactly in the runs whose steps all meet the condition. -/
theorem always_iff_meets (hQ : ∀ s, Inv s → Q s)
    (hstep : ∀ s a t, Inv s → P s a → step s a = some t → Inv t)
    (hbreak : ∀ s a t, Inv s → step s a = some t → Q t → P s a) :
    ∀ (as : List α) (s : σ), Inv s → (Always step Q s as ↔ Meets step P s as) := by
  intro as s hs
  constructor
  · induction as generalizing s with
    | nil => exact fun _ => trivial
    | cons a as ih =>
      rintro ⟨-, hal⟩ t ht
      have hP := hbreak s a t hs ht (hal t ht).head
      exact ⟨hP, ih t (hstep s a t hs hP ht) (hal t ht)⟩
  · exact always_of_invariant hstep hQ as s hs

end Transition

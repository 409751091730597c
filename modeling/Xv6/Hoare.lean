/-
# Triples for programs that can panic

A program is a state transformer that may stop with an error, `StateT σ (Except ε) α`.
`Triple P c Q` is total correctness: from every state with `P` the program returns, it
does not panic, and `Q` holds of the value and the state.  The rules follow the shape
of the program; a proof about a program cites the triples of the programs it calls.
`Partial P c Q` is partial correctness, for programs that may panic.

`Ends` is about one outcome of a program that keeps its state when it panics,
`EStateM ε σ α`: what holds of the value and the state if it returned, and what holds of
the message and the state if it did not.
-/
import Mathlib.Logic.Basic

namespace Hoare

variable {ε σ α β : Type} {P P' : σ → Prop} {Q Q' : α → σ → Prop}

/-- From a state with `P` the program returns, with `Q`. -/
def Triple (P : σ → Prop) (c : StateT σ (Except ε) α) (Q : α → σ → Prop) : Prop :=
  ∀ s, P s → ∃ a t, c s = .ok (a, t) ∧ Q a t

variable {τ : Type} {a : α} {c : StateT σ (Except ε) α} {f : α → StateT σ (Except ε) β}
    {R : β → σ → Prop} {g : α → β} {φ : Prop} {r : EStateM.Result ε σ α}

theorem Triple.ret (h : ∀ s, P s → Q a s) : Triple P (pure a : StateT σ (Except ε) α) Q :=
  fun s hs => ⟨a, s, rfl, h s hs⟩

/-- **Sequencing.** -/
theorem Triple.bind (hc : Triple P c Q) (hf : ∀ a, Triple (Q a) (f a) R) :
    Triple P (c >>= f) R := by
  intro s hs
  obtain ⟨a, t, hct, hQ⟩ := hc s hs
  obtain ⟨b, u, hfu, hR⟩ := hf a t hQ
  refine ⟨b, u, ?_, hR⟩
  show (c s).bind (fun x => f x.1 x.2) = .ok (b, u)
  rw [hct]
  exact hfu

theorem Triple.map (h : Triple P c fun a s => R (g a) s) : Triple P (g <$> c) R := by
  intro s hs
  obtain ⟨a, t, hct, hR⟩ := h s hs
  refine ⟨g a, t, ?_, hR⟩
  show (c s).bind (fun x => .ok (g x.1, x.2)) = .ok (g a, t)
  rw [hct]
  rfl

/-- **Consequence.** -/
theorem Triple.conseq (h : Triple P c Q) (hP : ∀ s, P' s → P s)
    (hQ : ∀ a s, Q a s → Q' a s) : Triple P' c Q' := by
  intro s hs
  obtain ⟨a, t, hct, ht⟩ := h s (hP s hs)
  exact ⟨a, t, hct, hQ a t ht⟩

theorem Triple.pre (h : Triple P c Q) (hP : ∀ s, P' s → P s) : Triple P' c Q :=
  h.conseq hP fun _ _ hQ => hQ

theorem Triple.post (h : Triple P c Q) (hQ : ∀ a s, Q a s → Q' a s) : Triple P c Q' :=
  h.conseq (fun _ hP => hP) hQ

/-- A fact of the precondition that does not depend on the state. -/
theorem Triple.of_fact (h : φ → Triple P c Q) (hφ : ∀ s, P s → φ) : Triple P c Q :=
  fun s hs => h (hφ s hs) s hs

/-- A value the precondition speaks of. -/
theorem Triple.of_exists {ι : Type} {R : ι → σ → Prop}
    (h : ∀ i, Triple (R i) c Q) : Triple (fun s => ∃ i, R i s) c Q := by
  rintro s ⟨i, hs⟩
  exact h i s hs

theorem Triple.of_and (h : φ → Triple P c Q) : Triple (fun s => φ ∧ P s) c Q :=
  fun s hs => h hs.1 s hs.2

theorem Triple.of_exists_and {ι : Type} {R : ι → σ → Prop} {ψ : ι → Prop}
    (h : ∀ i, ψ i → Triple (R i) c Q) : Triple (fun s => ∃ i, R i s ∧ ψ i) c Q := by
  rintro s ⟨i, hs, hi⟩
  exact h i hi s hs

theorem Triple.ite [Decidable φ] {d : StateT σ (Except ε) α} (hc : φ → Triple P c Q)
    (hd : ¬ φ → Triple P d Q) : Triple P (if φ then c else d) Q := by
  by_cases h : φ
  · rw [if_pos h]
    exact hc h
  · rw [if_neg h]
    exact hd h

/-! ## Programs on a part of the state -/

/-- A program on the first part of a state. -/
def onFst {τ : Type} (c : StateT σ (Except ε) α) : StateT (σ × τ) (Except ε) α := fun s =>
  (c s.1).map fun x => (x.1, (x.2, s.2))

theorem onFst_pure (a : α) :
    onFst (pure a : StateT σ (Except ε) α) = (pure a : StateT (σ × τ) (Except ε) α) := rfl

theorem onFst_bind (c : StateT σ (Except ε) α) (f : α → StateT σ (Except ε) β) :
    (onFst (c >>= f) : StateT (σ × τ) (Except ε) β) = onFst c >>= fun a => onFst (f a) := by
  funext s
  show ((c s.1).bind fun x => f x.1 x.2).map _
    = ((c s.1).map fun x => (x.1, (x.2, s.2))).bind fun x => onFst (f x.1) x.2
  cases c s.1 with
  | error e => rfl
  | ok x => rfl

/-- **Frame**: the second part of the state stays as it is. -/
theorem Triple.onFst (h : Triple P c Q) (R : τ → Prop) :
    Triple (fun s => P s.1 ∧ R s.2) (onFst c) fun a s => Q a s.1 ∧ R s.2 := by
  rintro ⟨s, r⟩ ⟨hs, hr⟩
  obtain ⟨a, t, hct, hQ⟩ := h s hs
  refine ⟨a, (t, r), ?_, hQ, hr⟩
  show (c s).map _ = .ok (a, (t, r))
  rw [hct]
  rfl

theorem Triple.onFst_exists {ι : Type} {S : α → ι → σ → Prop} {ψ : α → ι → Prop}
    (h : Triple P c fun a s => ∃ i, S a i s ∧ ψ a i) (R : τ → Prop) :
    Triple (fun s => P s.1 ∧ R s.2) (Hoare.onFst c) fun a s => ∃ i, (S a i s.1 ∧ R s.2) ∧ ψ a i :=
  (h.onFst R).post fun _ _ ⟨⟨i, hs, hi⟩, hr⟩ => ⟨i, ⟨hs, hr⟩, hi⟩

/-- `d` does to the first part of the state what `c` does, whenever it returns. -/
def Forgets (c : StateT σ (Except ε) α) (d : StateT (σ × τ) (Except ε) α) : Prop :=
  ∀ s t a s' t', d (s, t) = .ok (a, s', t') → c s = .ok (a, s')

section Forgets

variable {c' : StateT σ (Except ε) α} {d d' : StateT (σ × τ) (Except ε) α}
    {h : α → StateT (σ × τ) (Except ε) β}

theorem Forgets.ret (a : α) :
    Forgets (pure a : StateT σ (Except ε) α) (pure a : StateT (σ × τ) (Except ε) α) := by
  intro s t b s' t' hrun
  cases hrun
  rfl

theorem Forgets.onFst (c : StateT σ (Except ε) α) : Forgets c (onFst c : StateT (σ × τ) _ _) := by
  intro s t a s' t' hrun
  change (c s).map _ = _ at hrun
  cases hc : c s with
  | error e =>
    rw [hc] at hrun
    cases hrun
  | ok x =>
    rw [hc] at hrun
    cases hrun
    rfl

theorem Forgets.bind (hc : Forgets c d) (hf : ∀ a, Forgets (f a) (h a)) :
    Forgets (c >>= f) (d >>= h) := by
  intro s t b s' t' hrun
  change (d (s, t)).bind _ = _ at hrun
  show (c s).bind (fun x => f x.1 x.2) = _
  cases hd : d (s, t) with
  | error e =>
    rw [hd] at hrun
    cases hrun
  | ok x =>
    rw [hd] at hrun
    rw [hc _ _ _ _ _ hd]
    exact hf _ _ _ _ _ _ hrun

theorem Forgets.ite [Decidable φ] (hc : Forgets c d) (hc' : Forgets c' d') :
    Forgets (if φ then c else c') (if φ then d else d') := by
  by_cases h : φ
  · rw [if_pos h, if_pos h]
    exact hc
  · rw [if_neg h, if_neg h]
    exact hc'

/-- What is known of the larger program holds of the smaller one. -/
theorem Forgets.triple (hc : Forgets c d) (t : τ)
    (hd : Triple (fun s => P s.1 ∧ s.2 = t) d fun a s => Q a s.1) : Triple P c Q := by
  intro s hs
  obtain ⟨a, ⟨s', t'⟩, hrun, hQ⟩ := hd (s, t) ⟨hs, rfl⟩
  exact ⟨a, s', hc _ _ _ _ _ hrun, hQ⟩

end Forgets

/-! ## Partial correctness -/

/-- If the program returns from a state with `P`, then with `Q`. -/
def Partial (P : σ → Prop) (c : StateT σ (Except ε) α) (Q : α → σ → Prop) : Prop :=
  ∀ s a t, P s → c s = .ok (a, t) → Q a t

theorem Triple.weaken (h : Triple P c Q) : Partial P c Q := by
  intro s a t hs hrun
  obtain ⟨b, u, hbu, hQ⟩ := h s hs
  rw [hbu] at hrun
  cases hrun
  exact hQ

theorem Partial.ret (h : ∀ s, P s → Q a s) : Partial P (pure a : StateT σ (Except ε) α) Q := by
  intro s b t hs hrun
  cases hrun
  exact h s hs

theorem Partial.bind (hc : Partial P c Q) (hf : ∀ a, Partial (Q a) (f a) R) :
    Partial P (c >>= f) R := by
  intro s b u hs hrun
  have hrun' : (c s).bind (fun x => f x.1 x.2) = .ok (b, u) := hrun
  cases hcs : c s with
  | error e =>
    rw [hcs] at hrun'
    cases hrun'
  | ok x =>
    obtain ⟨a, t⟩ := x
    rw [hcs] at hrun'
    exact hf a t b u (hc s a t hs hcs) hrun'

theorem Partial.pre {P' : σ → Prop} (h : Partial P c Q) (hP : ∀ s, P' s → P s) : Partial P' c Q :=
  fun s a t hs hrun => h s a t (hP s hs) hrun

/-! ## Programs that keep their state when they panic -/

/-- The program has returned with `Q` or panicked with `E`. -/
def Ends (r : EStateM.Result ε σ α) (Q : α → σ → Prop) (E : ε → σ → Prop) : Prop :=
  match r with
  | .ok a s => Q a s
  | .error e s => E e s

/-- How the program ended, with a view of its last state. -/
def outcome (v : σ → β) : EStateM.Result ε σ α → (ε × β) ⊕ (α × β)
  | .ok a s => .inr (a, v s)
  | .error e s => .inl (e, v s)

theorem exists_of_outcome_ok {v : σ → β} {b : β} (h : outcome v r = .inr (a, b)) :
    ∃ s, r = .ok a s ∧ v s = b := by
  cases r with
  | ok a' s =>
    cases h
    exact ⟨s, rfl, rfl⟩
  | error e s => cases h

theorem exists_of_outcome_error {v : σ → β} {e : ε} {b : β} (h : outcome v r = .inl (e, b)) :
    ∃ s, r = .error e s ∧ v s = b := by
  cases r with
  | ok a s => cases h
  | error e' s =>
    cases h
    exact ⟨s, rfl, rfl⟩

/-- A program after one that has returned. -/
theorem bind_of_ok {c : EStateM ε σ α} {f : α → EStateM ε σ β} {s t : σ}
    (h : c s = .ok a t) : (c >>= f) s = f a t := by
  show EStateM.bind c f s = f a t
  unfold EStateM.bind
  rw [h]

section Ends

variable {E E' : ε → σ → Prop} {s : σ}

theorem Ends.ret (h : Q a s) : Ends ((pure a : EStateM ε σ α) s) Q E := h

theorem Ends.panic {e : ε} (h : E e s) : Ends ((throw e : EStateM ε σ α) s) Q E := h

/-- **Sequencing.** -/
theorem Ends.bind {c : EStateM ε σ α} {f : α → EStateM ε σ β} (hc : Ends (c s) Q E)
    (hf : ∀ a t, Q a t → Ends (f a t) R E) : Ends ((c >>= f) s) R E := by
  show Ends (EStateM.bind c f s) R E
  unfold EStateM.bind
  cases h : c s with
  | ok a t =>
    rw [h] at hc
    exact hf a t hc
  | error e t =>
    rw [h] at hc
    exact hc

theorem Ends.map {c : EStateM ε σ α}
    (h : Ends (c s) (fun a t => R (g a) t) E) : Ends ((g <$> c) s) R E := by
  show Ends (EStateM.map g c s) R E
  unfold EStateM.map
  cases hc : c s with
  | ok a t =>
    rw [hc] at h
    exact h
  | error e t =>
    rw [hc] at h
    exact h

/-- **Consequence.** -/
theorem Ends.imp (h : Ends r Q E) (hQ : ∀ a t, Q a t → Q' a t)
    (hE : ∀ e t, E e t → E' e t) : Ends r Q' E' := by
  cases r with
  | ok a t => exact hQ a t h
  | error e t => exact hE e t h

theorem Ends.post (h : Ends r Q E) (hQ : ∀ a t, Q a t → Q' a t) : Ends r Q' E :=
  h.imp hQ fun _ _ h => h

theorem Ends.both (h : Ends r Q E) (h' : Ends r Q' E') :
    Ends r (fun a t => Q a t ∧ Q' a t) fun e t => E e t ∧ E' e t := by
  cases r with
  | ok a t => exact ⟨h, h'⟩
  | error e t => exact ⟨h, h'⟩

/-- Panics are not looked at. -/
theorem Ends.loose (h : Ends r Q E) : Ends r Q fun _ _ => True :=
  h.imp (fun _ _ hQ => hQ) fun _ _ _ => trivial

theorem Ends.any (r : EStateM.Result ε σ α) : Ends r (fun _ _ => True) fun _ _ => True := by
  cases r <;> trivial

/-- A program whose panics are excluded returns. -/
theorem Ends.returns {c : EStateM ε σ α} (h : Ends (c s) Q E) (hE : ∀ e t, ¬ E e t) :
    ∃ a t, c s = .ok a t ∧ Q a t := by
  cases hrun : c s with
  | ok a t =>
    rw [hrun] at h
    exact ⟨a, t, rfl, h⟩
  | error e t =>
    rw [hrun] at h
    exact absurd h (hE e t)

end Ends

end Hoare

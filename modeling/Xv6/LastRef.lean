/-
# The last reference frees the inode, unless the others are stale

`iput` recognises the last reference by `ip->ref == 1`.  After it has freed an inode it
still counts in `ip->ref` until its last section: such a reference is stale.  The
number of the inode can be allocated again in between, and if the new owner then
removes the links and drops its references, `ip->ref == 1` fails because of the stale
reference, and nobody frees the inode (`staleReference_leaks`).

`Recognised` is the condition under which this does not happen: where `iput` finds an
inode without links and with other references, one of them is not stale.  In every run
that meets it an inode without links has a reference whenever nothing is in progress.
-/
import Xv6.Itable
import Xv6.Tally

namespace Itable

open Function Transition

/-! ## The property and the condition -/

/-- The inode is allocated on disk and has no links. -/
def Unlinked (s : St) (i : ℕ) : Prop := (s.disk i).type ≠ 0 ∧ (s.disk i).nlink = 0

/-- When nothing is in progress, an inode without links is referenced. -/
def NoOrphan (s : St) : Prop :=
  s.busy = [] → ∀ i, Unlinked s i → ∃ e, (s.inode e).inum = i ∧ 0 < (s.inode e).ref

/-- The entry a stale reference of an `iput` counts for. -/
def Pc.stale : Pc → Option ℕ
  | .iputClear e => some e
  | .iputStale e => some e
  | _ => none

/-- The entry another reference of `create` or `iput` counts for. -/
def Pc.fresh : Pc → Option ℕ
  | .createLock e => some e
  | .iputFree e => some e
  | _ => none

def staleRefs (s : St) (e : ℕ) : ℕ := s.busy.countP fun b => b.2.stale = some e

def freshRefs (s : St) (e : ℕ) : ℕ := s.busy.countP fun b => b.2.fresh = some e

def liveRefs (s : St) (e : ℕ) : ℕ := s.refs.countP fun r => r.2 = e

/-- Where `iput` finds an inode without links and with other references, not all of
these are stale. -/
def Recognised (s : St) : Act → Prop
  | .iput _ e =>
    (s.inode e).valid = true → (s.inode e).type ≠ 0 → (s.inode e).nlink = 0 →
      1 < (s.inode e).ref → staleRefs s e + 1 < (s.inode e).ref
  | _ => True

instance (s : St) : (a : Act) → Decidable (Recognised s a)
  | .ialloc _ _ => isTrue trivial
  | .iget _ _ => isTrue trivial
  | .idup _ _ _ => isTrue trivial
  | .give _ _ _ => isTrue trivial
  | .ilock _ _ => isTrue trivial
  | .relink _ _ _ => isTrue trivial
  | .iunlock _ _ => isTrue trivial
  | .iput _ e => inferInstanceAs (Decidable ((s.inode e).valid = true → (s.inode e).type ≠ 0 →
      (s.inode e).nlink = 0 → 1 < (s.inode e).ref → staleRefs s e + 1 < (s.inode e).ref))
  | .advance _ => isTrue trivial

/-! ## The invariant -/

/-- Entry `e` has a reference that will free the inode when it is the last one: that of
a `create` or an `iput` under way, or one held by a process after `ilock`. -/
def Kept (s : St) (e : ℕ) : Prop :=
  (∃ p, (p, .createLock e) ∈ s.busy) ∨
    (s.inode e).valid = true ∧ (s.inode e).type ≠ 0 ∧
      ((∃ p, (p, e) ∈ s.refs) ∨ ∃ p, (p, .iputFree e) ∈ s.busy)

/-- The invariant of the inode table. -/
structure Inv (s : St) : Prop where
  outside : ∀ e, NINODE ≤ e → (s.inode e).ref = 0
  /-- an inode is in one entry at most -/
  uniq : ∀ e e', 0 < (s.inode e).ref → 0 < (s.inode e').ref →
    (s.inode e).inum = (s.inode e').inum → e = e'
  count : ∀ e, (s.inode e).ref = liveRefs s e + freshRefs s e + staleRefs s e
  once : (s.busy.map Prod.fst).Nodup
  locked : ∀ p e, (s.inode e).lock = some p → (s.inode e).valid = true ∧
    ((p, e) ∈ s.refs ∨ (p, .iputFree e) ∈ s.busy ∨ (p, .iputClear e) ∈ s.busy)
  freeing : ∀ p e, (p, .iputFree e) ∈ s.busy → (s.inode e).lock = some p ∧
    (s.inode e).nlink = 0
  clearing : ∀ p e, (p, .iputClear e) ∈ s.busy → (s.inode e).lock = some p ∧
    (s.inode e).type = 0
  synced : ∀ e, 0 < (s.inode e).ref → (s.inode e).valid = true →
    (∀ p, (p, .iputClear e) ∉ s.busy) →
    s.disk (s.inode e).inum = ⟨(s.inode e).type, (s.inode e).nlink⟩ ∧ (s.inode e).type ≠ 0
  kept : ∀ i, Unlinked s i → (∃ p, (p, .iallocGet i) ∈ s.busy) ∨
    ∃ e, 0 < (s.inode e).ref ∧ (s.inode e).inum = i ∧ Kept s e

variable {s t : St} {p e : ℕ}

theorem noOrphan_of_inv (h : Inv s) : NoOrphan s := by
  intro hidle i hi
  rcases h.kept i hi with ⟨q, hq⟩ | ⟨e, href, hinum, -⟩
  · rw [hidle] at hq
    cases hq
  · exact ⟨e, hinum, href⟩

/-! ## References -/

theorem liveRefs_pos (he : (p, e) ∈ s.refs) : 0 < liveRefs s e :=
  List.countP_pos_iff.mpr ⟨(p, e), he, by simp⟩

variable {c c' c'' : Pc} {e' q inum ninodes : ℕ} {ip : Inode} {type : CShort}

theorem freshRefs_pos (hc : (p, c) ∈ s.busy) (hf : c.fresh = some e) : 0 < freshRefs s e :=
  List.countP_pos_iff.mpr ⟨(p, c), hc, by simp [hf]⟩

theorem staleRefs_pos (hc : (p, c) ∈ s.busy) (hf : c.stale = some e) : 0 < staleRefs s e :=
  List.countP_pos_iff.mpr ⟨(p, c), hc, by simp [hf]⟩

theorem ref_pos_of_mem (h : Inv s) (he : (p, e) ∈ s.refs) : 0 < (s.inode e).ref := by
  rw [h.count e]
  have := liveRefs_pos he
  omega

/-- A process is at one place at a time. -/
theorem busy_unique (h : Inv s) (hc : (p, c) ∈ s.busy) (hc' : (p, c') ∈ s.busy) : c = c' := by
  have := List.inj_on_of_nodup_map h.once hc hc' rfl
  exact (Prod.mk.inj this).2

theorem not_mem_busy_of_idle (hp : s.idle p = true) (c : Pc) : (p, c) ∉ s.busy := by
  intro hc
  rw [St.idle, List.all_eq_true] at hp
  have := hp (p, c) hc
  simp at this

/-! ## Steps on one entry -/

/-- The entry a process inside `create` or `iput` refers to. -/
def Pc.entry : Pc → Option ℕ
  | .iallocScan _ _ => none
  | .iallocGet _ => none
  | .createLock e => some e
  | .iputFree e => some e
  | .iputClear e => some e
  | .iputStale e => some e

/-- The step touches entry `e` only, the inode in it, and the references to it. -/
structure Focus (s t : St) (e : ℕ) : Prop where
  other : ∀ e', e' ≠ e → t.inode e' = s.inode e'
  inum : 0 < (s.inode e).ref → (t.inode e).inum = (s.inode e).inum
  fresh : 0 < (t.inode e).ref → ∀ e', e' ≠ e → 0 < (s.inode e').ref →
    (s.inode e').inum ≠ (t.inode e).inum
  disk : t.disk = s.disk ∨
    0 < (t.inode e).ref ∧ ∀ i, i ≠ (t.inode e).inum → t.disk i = s.disk i
  refs : ∀ q e', e' ≠ e → ((q, e') ∈ t.refs ↔ (q, e') ∈ s.refs)
  busy : ∀ q c, c.entry ≠ some e → c ≠ .iallocGet (t.inode e).inum →
    (∀ i ty, c ≠ .iallocScan i ty) → ((q, c) ∈ t.busy ↔ (q, c) ∈ s.busy)

theorem Focus.kept (hf : Focus s t e) (he : e' ≠ e) (h : Kept s e') : Kept t e' := by
  have hne : some e' ≠ some e := fun heq => he (Option.some.inj heq)
  have hbusy : ∀ q c, c.entry = some e' → (q, c) ∈ s.busy → (q, c) ∈ t.busy := by
    intro q c hc hq
    refine (hf.busy q c (by rw [hc]; exact hne) ?_ ?_).mpr hq
    · rintro rfl
      cases hc
    · rintro i ty rfl
      cases hc
  rcases h with ⟨q, hq⟩ | ⟨hv, hty, ⟨q, hq⟩ | ⟨q, hq⟩⟩
  · exact Or.inl ⟨q, hbusy q _ rfl hq⟩
  · refine Or.inr ⟨?_, ?_, Or.inl ⟨q, (hf.refs q e' he).mpr hq⟩⟩
    · rw [hf.other e' he, hv]
    · rw [hf.other e' he]
      exact hty
  · refine Or.inr ⟨?_, ?_, Or.inr ⟨q, hbusy q _ rfl hq⟩⟩
    · rw [hf.other e' he, hv]
    · rw [hf.other e' he]
      exact hty

/-- **Steps on one entry**: only the facts about that entry are left to show. -/
theorem inv_focus (h : Inv s) (hf : Focus s t e) (hout : NINODE ≤ e → (t.inode e).ref = 0)
    (hcount : ∀ e', (t.inode e').ref = liveRefs t e' + freshRefs t e' + staleRefs t e')
    (honce : (t.busy.map Prod.fst).Nodup)
    (hlocked : ∀ q, (t.inode e).lock = some q → (t.inode e).valid = true ∧
      ((q, e) ∈ t.refs ∨ (q, .iputFree e) ∈ t.busy ∨ (q, .iputClear e) ∈ t.busy))
    (hfreeing : ∀ q, (q, .iputFree e) ∈ t.busy → (t.inode e).lock = some q ∧ (t.inode e).nlink = 0)
    (hclearing : ∀ q, (q, .iputClear e) ∈ t.busy → (t.inode e).lock = some q ∧ (t.inode e).type = 0)
    (hsynced : 0 < (t.inode e).ref → (t.inode e).valid = true → (∀ q, (q, .iputClear e) ∉ t.busy) →
      t.disk (t.inode e).inum = ⟨(t.inode e).type, (t.inode e).nlink⟩ ∧ (t.inode e).type ≠ 0)
    (hkept : Unlinked t (t.inode e).inum →
      (∃ q, (q, .iallocGet (t.inode e).inum) ∈ t.busy) ∨ 0 < (t.inode e).ref ∧ Kept t e) :
    Inv t := by
  have hbusy : ∀ {q c e'}, e' ≠ e → c.entry = some e' → ((q, c) ∈ t.busy ↔ (q, c) ∈ s.busy) := by
    intro q c e' he hc
    refine hf.busy q c (by rw [hc]; exact fun heq => he (Option.some.inj heq)) ?_ ?_
    · rintro rfl
      cases hc
    · rintro i ty rfl
      cases hc
  refine ⟨fun e' he' => ?_, fun e₁ e₂ h₁ h₂ heq => ?_, hcount, honce, fun q e' hq => ?_,
    fun q e' hq => ?_, fun q e' hq => ?_, fun e' href hv hno => ?_, fun i hi => ?_⟩
  · by_cases hee : e' = e
    · rw [hee] at he' ⊢
      exact hout he'
    · rw [hf.other e' hee]
      exact h.outside e' he'
  · by_cases h₁e : e₁ = e
    · by_cases h₂e : e₂ = e
      · rw [h₁e, h₂e]
      · rw [hf.other e₂ h₂e] at h₂ heq
        rw [h₁e] at h₁ heq
        exact absurd heq.symm (hf.fresh h₁ e₂ h₂e h₂)
    · rw [hf.other e₁ h₁e] at h₁ heq
      by_cases h₂e : e₂ = e
      · rw [h₂e] at h₂ heq
        exact absurd heq (hf.fresh h₂ e₁ h₁e h₁)
      · rw [hf.other e₂ h₂e] at h₂ heq
        exact h.uniq e₁ e₂ h₁ h₂ heq
  · by_cases hee : e' = e
    · rw [hee] at hq ⊢
      exact hlocked q hq
    · rw [hf.other e' hee] at hq ⊢
      rw [hf.refs q e' hee, hbusy hee rfl, hbusy hee rfl]
      exact h.locked q e' hq
  · by_cases hee : e' = e
    · rw [hee] at hq ⊢
      exact hfreeing q hq
    · rw [hbusy hee rfl] at hq
      rw [hf.other e' hee]
      exact h.freeing q e' hq
  · by_cases hee : e' = e
    · rw [hee] at hq ⊢
      exact hclearing q hq
    · rw [hbusy hee rfl] at hq
      rw [hf.other e' hee]
      exact h.clearing q e' hq
  · by_cases hee : e' = e
    · rw [hee] at href hv hno ⊢
      exact hsynced href hv hno
    · rw [hf.other e' hee] at href hv ⊢
      have hs := h.synced e' href hv fun q hq => hno q ((hbusy hee rfl).mpr hq)
      have hdisk : t.disk (s.inode e').inum = s.disk (s.inode e').inum := by
        rcases hf.disk with hd | ⟨hpos, hd⟩
        · rw [hd]
        · exact hd _ (hf.fresh hpos e' hee href)
      rw [hdisk]
      exact hs
  · by_cases hie : i = (t.inode e).inum
    · rw [hie] at hi ⊢
      rcases hkept hi with hq | ⟨hpos, hk⟩
      · exact Or.inl hq
      · exact Or.inr ⟨e, hpos, rfl, hk⟩
    · have hdisk : t.disk i = s.disk i := by
        rcases hf.disk with hd | ⟨-, hd⟩
        · rw [hd]
        · exact hd i hie
      have his : Unlinked s i := by
        unfold Unlinked at hi ⊢
        rwa [hdisk] at hi
      rcases h.kept i his with ⟨q, hq⟩ | ⟨e', href, hinum, hk⟩
      · refine Or.inl ⟨q, (hf.busy q _ (by simp [Pc.entry]) ?_ ?_).mpr hq⟩
        · exact fun heq => hie (Pc.iallocGet.inj heq)
        · exact fun _ _ heq => by cases heq
      · have hee : e' ≠ e := by
          intro heq
          rw [heq] at href hinum
          exact hie (hinum.symm.trans (hf.inum href).symm)
        refine Or.inr ⟨e', ?_, ?_, hf.kept hee hk⟩
        · rw [hf.other e' hee]
          exact href
        · rw [hf.other e' hee]
          exact hinum

/-! ## Counting references -/

/-- All references to entry `e`. -/
def allRefs (s : St) (e : ℕ) : ℕ :=
  s.refs.countP (fun r => r.2 = e) + s.busy.countP fun b => b.2.entry = some e

/-- A reference of `create` or `iput` is stale or not. -/
theorem sum_refs_eq (s : St) (e : ℕ) :
    liveRefs s e + freshRefs s e + staleRefs s e = allRefs s e := by
  have hsplit : freshRefs s e + staleRefs s e = s.busy.countP fun b => b.2.entry = some e := by
    unfold freshRefs staleRefs
    induction s.busy with
    | nil => rfl
    | cons b l ih =>
      rw [List.countP_cons, List.countP_cons, List.countP_cons, ← ih]
      obtain ⟨q, c⟩ := b
      cases c <;> simp [Pc.fresh, Pc.stale, Pc.entry] <;> omega
  rw [Nat.add_assoc, hsplit]
  rfl

theorem Inv.count_all (h : Inv s) (e : ℕ) : (s.inode e).ref = allRefs s e :=
  (h.count e).trans (sum_refs_eq s e)

theorem ref_pos_of_entry (h : Inv s) (hc : (p, c) ∈ s.busy) (he : c.entry = some e) :
    0 < (s.inode e).ref := by
  have : 0 < s.busy.countP fun b => b.2.entry = some e :=
    List.countP_pos_iff.mpr ⟨(p, c), hc, by simp [he]⟩
  rw [h.count_all, allRefs]
  omega

theorem countP_refs_erase (hp : (p, e) ∈ s.refs) (e' : ℕ) :
    (s.refs.erase (p, e)).countP (fun r => r.2 = e') + (if e' = e then 1 else 0) =
      s.refs.countP fun r => r.2 = e' := by
  have h := Tally.countP_erase_add (fun r : ℕ × ℕ => decide (r.2 = e')) hp
  simpa [eq_comm] using h

theorem countP_busy_erase (hp : (p, c) ∈ s.busy) (e' : ℕ) :
    (s.busy.erase (p, c)).countP (fun b => b.2.entry = some e') +
      (if c.entry = some e' then 1 else 0) = s.busy.countP fun b => b.2.entry = some e' := by
  have h := Tally.countP_erase_add (fun b : ℕ × Pc => decide (b.2.entry = some e')) hp
  simpa using h

theorem countP_entry_erase (hp : (p, c) ∈ s.busy) (hc : c.entry = some e) (e' : ℕ) :
    (s.busy.erase (p, c)).countP (fun b => b.2.entry = some e') + (if e' = e then 1 else 0) =
      s.busy.countP fun b => b.2.entry = some e' := by
  rw [← countP_busy_erase hp e', hc]
  simp only [Option.some.injEq, eq_comm]

/-- The references after a process went from `c` to `c'` at the same entry. -/
theorem allRefs_goto (hrefs : t.refs = s.refs) (hbusy : t.busy = (p, c') :: s.busy.erase (p, c))
    (hp : (p, c) ∈ s.busy) (hc : c'.entry = c.entry) (e' : ℕ) : allRefs t e' = allRefs s e' := by
  have h := countP_busy_erase hp e'
  rw [allRefs, hrefs, hbusy, List.countP_cons, allRefs]
  simp only [hc, decide_eq_true_eq]
  omega

theorem Kept.pos (h : Kept s e) : 0 < liveRefs s e + freshRefs s e := by
  rcases h with ⟨q, hq⟩ | ⟨-, -, ⟨q, hq⟩ | ⟨q, hq⟩⟩
  · have := freshRefs_pos hq rfl
    omega
  · have := liveRefs_pos hq
    omega
  · have := freshRefs_pos hq rfl
    omega

/-- A reference that is not stale keeps a valid inode. -/
theorem kept_of_pos (hv : (s.inode e).valid = true) (hty : (s.inode e).type ≠ 0)
    (h : 0 < liveRefs s e + freshRefs s e) : Kept s e := by
  rcases Nat.eq_zero_or_pos (liveRefs s e) with hlive | hlive
  · obtain ⟨⟨q, c⟩, hq, hc⟩ := List.countP_pos_iff.mp (show 0 < freshRefs s e by omega)
    rw [decide_eq_true_eq] at hc
    cases c with
    | createLock e' =>
      cases hc
      exact Or.inl ⟨q, hq⟩
    | iputFree e' =>
      cases hc
      exact Or.inr ⟨hv, hty, Or.inr ⟨q, hq⟩⟩
    | iallocScan i ty => cases hc
    | iallocGet i => cases hc
    | iputClear e' => cases hc
    | iputStale e' => cases hc
  · obtain ⟨⟨q, e'⟩, hq, hc⟩ := List.countP_pos_iff.mp hlive
    rw [decide_eq_true_eq] at hc
    rw [show e' = e from hc] at hq
    exact Or.inr ⟨hv, hty, Or.inl ⟨q, hq⟩⟩

/-! ## Who is where -/

theorem once_cons (h : Inv s) (hp : s.idle p = true) (c : Pc) :
    (((p, c) :: s.busy).map Prod.fst).Nodup := by
  rw [List.map_cons, List.nodup_cons]
  refine ⟨fun hmem => ?_, h.once⟩
  obtain ⟨⟨q, c'⟩, hc', rfl⟩ := List.mem_map.mp hmem
  exact not_mem_busy_of_idle hp c' hc'

theorem once_leave (h : Inv s) (c : Pc) : ((s.busy.erase (p, c)).map Prod.fst).Nodup :=
  (List.erase_sublist.map _).nodup h.once

theorem not_mem_erase (h : Inv s) (hc : (p, c) ∈ s.busy) : (p, c') ∉ s.busy.erase (p, c) := by
  intro hmem
  have heq := busy_unique h (List.mem_of_mem_erase hmem) hc
  rw [heq] at hmem
  exact (h.once.of_map).not_mem_erase hmem

theorem once_goto (h : Inv s) (hc : (p, c) ∈ s.busy) (c' : Pc) :
    (((p, c') :: s.busy.erase (p, c)).map Prod.fst).Nodup := by
  rw [List.map_cons, List.nodup_cons]
  refine ⟨fun hmem => ?_, once_leave h c⟩
  obtain ⟨⟨q, c''⟩, hc'', rfl⟩ := List.mem_map.mp hmem
  exact not_mem_erase h hc hc''

theorem mem_goto_of_ne (h' : c'' ≠ c') (h : c'' ≠ c) :
    (q, c'') ∈ (p, c') :: s.busy.erase (p, c) ↔ (q, c'') ∈ s.busy := by
  rw [List.mem_cons, List.mem_erase_of_ne (fun heq => h (Prod.mk.inj heq).2)]
  constructor
  · rintro (heq | hmem)
    · exact absurd (Prod.mk.inj heq).2 h'
    · exact hmem
  · exact Or.inr

theorem mem_leave_of_ne (h : c'' ≠ c) : (q, c'') ∈ s.busy.erase (p, c) ↔ (q, c'') ∈ s.busy :=
  List.mem_erase_of_ne fun heq => h (Prod.mk.inj heq).2

theorem mem_erase_refs (he : e' ≠ e) : (q, e') ∈ s.refs.erase (p, e) ↔ (q, e') ∈ s.refs :=
  List.mem_erase_of_ne fun heq => he (Prod.mk.inj heq).2

theorem mem_cons_refs (he : e' ≠ e) : (q, e') ∈ (p, e) :: s.refs ↔ (q, e') ∈ s.refs := by
  rw [List.mem_cons]
  constructor
  · rintro (heq | hmem)
    · exact absurd (Prod.mk.inj heq).2 he
    · exact hmem
  · exact Or.inr

/-- An entry that is locked by an idle process, or by nobody, is not being freed. -/
theorem not_freeing (h : Inv s) (hl : ∀ q, (s.inode e).lock = some q → s.idle q = true) (q : ℕ) :
    (q, .iputFree e) ∉ s.busy ∧ (q, .iputClear e) ∉ s.busy := by
  constructor
  · intro hq
    exact not_mem_busy_of_idle (hl q (h.freeing q e hq).1) _ hq
  · intro hq
    exact not_mem_busy_of_idle (hl q (h.clearing q e hq).1) _ hq

/-- A referenced entry has its inode for itself. -/
theorem fresh_of_ref (h : Inv s) (href : 0 < (s.inode e).ref) (e' : ℕ) (he : e' ≠ e)
    (href' : 0 < (s.inode e').ref) : (s.inode e').inum ≠ (s.inode e).inum :=
  fun heq => he (h.uniq e' e href' href heq)

theorem lt_NINODE_of_ref (h : Inv s) (href : 0 < (s.inode e).ref) : e < NINODE := by
  by_contra hge
  rw [h.outside e (Nat.le_of_not_lt hge)] at href
  exact absurd href (Nat.lt_irrefl 0)

/-- A step on a referenced entry that stays with its inode. -/
theorem focus_of_ref (h : Inv s) (href : 0 < (s.inode e).ref)
    (hinode : t.inode = update s.inode e ip) (hinum : ip.inum = (s.inode e).inum)
    (hdisk : t.disk = s.disk ∨ 0 < ip.ref ∧ ∃ d, t.disk = update s.disk (s.inode e).inum d)
    (hrefs : ∀ q e', e' ≠ e → ((q, e') ∈ t.refs ↔ (q, e') ∈ s.refs))
    (hbusy : ∀ q c, c.entry ≠ some e → (∀ i ty, c ≠ .iallocScan i ty) →
      ((q, c) ∈ t.busy ↔ (q, c) ∈ s.busy)) : Focus s t e := by
  have hte : t.inode e = ip := by rw [hinode, update_self]
  refine ⟨fun e' he => by rw [hinode, update_of_ne he], fun _ => by rw [hte, hinum],
    fun _ e' he href' => ?_, ?_, hrefs, fun q c hc _ hscan => hbusy q c hc hscan⟩
  · rw [hte, hinum]
    exact fresh_of_ref h href e' he href'
  · rw [hte, hinum]
    rcases hdisk with hd | ⟨hpos, d, hd⟩
    · exact Or.inl hd
    · refine Or.inr ⟨hpos, fun i hi => ?_⟩
      rw [hd, update_of_ne hi]

/-- **Steps on a referenced entry** that stays with its inode and gets the content `ip`. -/
theorem inv_onRef (h : Inv s) (href : 0 < (s.inode e).ref) (hinode : t.inode = update s.inode e ip)
    (hinum : ip.inum = (s.inode e).inum)
    (hdisk : t.disk = s.disk ∨ 0 < ip.ref ∧ ∃ d, t.disk = update s.disk (s.inode e).inum d)
    (hrefs : ∀ q e', e' ≠ e → ((q, e') ∈ t.refs ↔ (q, e') ∈ s.refs))
    (hbusy : ∀ q c, c.entry ≠ some e → (∀ i ty, c ≠ .iallocScan i ty) →
      ((q, c) ∈ t.busy ↔ (q, c) ∈ s.busy))
    (hcount : ∀ e', allRefs t e' + (if e' = e then (s.inode e).ref else 0) =
      allRefs s e' + if e' = e then ip.ref else 0) (honce : (t.busy.map Prod.fst).Nodup)
    (hlocked : ∀ q, ip.lock = some q → ip.valid = true ∧
      ((q, e) ∈ t.refs ∨ (q, .iputFree e) ∈ t.busy ∨ (q, .iputClear e) ∈ t.busy))
    (hfreeing : ∀ q, (q, .iputFree e) ∈ t.busy → ip.lock = some q ∧ ip.nlink = 0)
    (hclearing : ∀ q, (q, .iputClear e) ∈ t.busy → ip.lock = some q ∧ ip.type = 0)
    (hsynced : 0 < ip.ref → ip.valid = true → (∀ q, (q, .iputClear e) ∉ t.busy) →
      t.disk ip.inum = ⟨ip.type, ip.nlink⟩ ∧ ip.type ≠ 0)
    (hkept : Unlinked t ip.inum → (∃ q, (q, .iallocGet ip.inum) ∈ t.busy) ∨ 0 < ip.ref ∧
      ((∃ q, (q, .createLock e) ∈ t.busy) ∨ ip.valid = true ∧ ip.type ≠ 0 ∧
        ((∃ q, (q, e) ∈ t.refs) ∨ ∃ q, (q, .iputFree e) ∈ t.busy))) : Inv t := by
  have hte : t.inode e = ip := by rw [hinode, update_self]
  refine inv_focus h (focus_of_ref h href hinode hinum hdisk hrefs hbusy) (fun hge => ?_)
    (fun e' => ?_) honce (by rwa [hte]) (by rwa [hte]) (by rwa [hte]) (by rwa [hte])
    (by rwa [Kept, hte])
  · exact absurd (lt_NINODE_of_ref h href) (by omega)
  · have hsum := hcount e'
    rw [← h.count_all e'] at hsum
    rw [sum_refs_eq, hinode]
    by_cases he : e' = e
    · rw [he, if_pos rfl, if_pos rfl] at hsum
      rw [he, update_self]
      omega
    · rw [if_neg he, if_neg he] at hsum
      rw [update_of_ne he]
      exact hsum.symm

theorem ne_of_entry (hc : c.entry ≠ some e) (hc' : c'.entry = some e) : c ≠ c' := by
  rintro rfl
  exact hc hc'

/-! ## Locking and changing links -/

theorem readInode_cases (hip : readInode s e = .ok ip) : (s.inode e).valid = true ∧ ip = s.inode e ∨
    (s.inode e).valid = false ∧ (s.disk (s.inode e).inum).type ≠ 0 ∧ ip = { s.inode e with
      valid := true, type := (s.disk (s.inode e).inum).type,
      nlink := (s.disk (s.inode e).inum).nlink } := by
  unfold readInode at hip
  simp only at hip
  split_ifs at hip with hv hty
  · exact Or.inl ⟨hv, (Except.ok.inj hip).symm⟩
  · exact Or.inr ⟨Bool.eq_false_iff.mpr hv, hty, (Except.ok.inj hip).symm⟩

/-- After the read of `ilock` the entry agrees with the disk. -/
theorem readInode_spec (h : Inv s) (href : 0 < (s.inode e).ref) (hlock : (s.inode e).lock = none)
    (hip : readInode s e = .ok ip) :
    ip.inum = (s.inode e).inum ∧ ip.ref = (s.inode e).ref ∧ ip.valid = true ∧ ip.type ≠ 0 ∧
      s.disk (s.inode e).inum = ⟨ip.type, ip.nlink⟩ := by
  rcases readInode_cases hip with ⟨hv, rfl⟩ | ⟨-, hty, rfl⟩
  · have hno := not_freeing h (e := e) fun q hq => by rw [hlock] at hq; cases hq
    obtain ⟨hdisk, hty⟩ := h.synced e href hv fun q => (hno q).2
    exact ⟨rfl, rfl, hv, hty, hdisk⟩
  · exact ⟨rfl, rfl, rfl, hty, rfl⟩

theorem inv_panic (h : Inv s) (msg : Option String) : Inv { s with panicked := msg } :=
  ⟨h.outside, h.uniq, h.count, h.once, h.locked, h.freeing, h.clearing, h.synced, h.kept⟩

theorem inv_ilock (h : Inv s) (hp : (p, e) ∈ s.refs) (hstep : stepIlock s p e = some t) :
    Inv t := by
  have href := ref_pos_of_mem h hp
  unfold stepIlock at hstep
  split_ifs at hstep with hlt hlock
  · cases hstep
    exact inv_panic h _
  · rw [not_not] at hlock
    have hno := not_freeing h (e := e) fun q hq => by rw [hlock] at hq; cases hq
    cases hip : readInode s e with
    | error msg =>
      rw [hip] at hstep
      cases hstep
      exact inv_panic h _
    | ok ip =>
      rw [hip] at hstep
      cases hstep
      obtain ⟨hinum, hipref, hv, hty, hdisk⟩ := readInode_spec h href hlock hip
      refine inv_onRef h href rfl hinum (.inl rfl)
        (fun _ _ _ => .rfl) (fun _ _ _ _ => .rfl) (fun e' => by rw [← hipref]; rfl) h.once
        (fun q hq => ?_) (fun q hq => absurd hq (hno q).1) (fun q hq => absurd hq (hno q).2)
        (fun _ _ _ => ⟨by rw [← hdisk, ← hinum]; rfl, hty⟩)
        fun _ => .inr ⟨hipref ▸ href, .inr ⟨hv, hty, .inl ⟨p, hp⟩⟩⟩
      cases hq
      exact ⟨hv, .inl hp⟩

/-- An idle process that holds the lock of an entry has a pointer to it, and the entry
is valid and not being freed. -/
theorem holder_spec (h : Inv s) (hidle : s.idle p = true) (hlock : (s.inode e).lock = some p) :
    (p, e) ∈ s.refs ∧ (s.inode e).valid = true ∧
      ∀ q, (q, .iputFree e) ∉ s.busy ∧ (q, .iputClear e) ∉ s.busy := by
  have hl : ∀ q, (s.inode e).lock = some q → s.idle q = true := by
    intro q hq
    rw [hlock, Option.some.injEq] at hq
    rw [← hq]
    exact hidle
  have hno := not_freeing h hl
  obtain ⟨hv, hmem⟩ := h.locked p e hlock
  refine ⟨?_, hv, hno⟩
  rcases hmem with hmem | hmem | hmem
  · exact hmem
  · exact absurd hmem (hno p).1
  · exact absurd hmem (hno p).2

/-- Whoever keeps an inode without links in a referenced entry. -/
theorem kept_of_unlinked (h : Inv s) (href : 0 < (s.inode e).ref)
    (hun : Unlinked s (s.inode e).inum) :
    (∃ q, (q, .iallocGet (s.inode e).inum) ∈ s.busy) ∨ Kept s e := by
  rcases h.kept _ hun with hq | ⟨e', href', hinum, hk⟩
  · exact Or.inl hq
  · rw [h.uniq e' e href' href hinum] at hk
    exact Or.inr hk

theorem inv_iunlock (h : Inv s) (hidle : s.idle p = true) (hlock : (s.inode e).lock = some p) :
    Inv (s.setInode e { s.inode e with lock := none }) := by
  obtain ⟨hp, -, hno⟩ := holder_spec h hidle hlock
  have href := ref_pos_of_mem h hp
  exact inv_onRef h href rfl rfl (.inl rfl) (fun _ _ _ => .rfl) (fun _ _ _ _ => .rfl)
    (fun _ => rfl) h.once (fun q hq => by cases hq) (fun q hq => absurd hq (hno q).1)
    (fun q hq => absurd hq (hno q).2) (h.synced e)
    fun hun => (kept_of_unlinked h href hun).imp_right fun hk => ⟨href, hk⟩

theorem inv_relink (h : Inv s) (hidle : s.idle p = true) (hlock : (s.inode e).lock = some p)
    (r : Relink) : Inv (stepRelink s e r) := by
  obtain ⟨hp, hv, hno⟩ := holder_spec h hidle hlock
  have href := ref_pos_of_mem h hp
  obtain ⟨-, hty⟩ := h.synced e href hv fun q => (hno q).2
  unfold stepRelink
  simp only
  split_ifs
  · exact inv_panic h _
  · exact inv_onRef h href rfl rfl (.inr ⟨href, _, rfl⟩) (fun _ _ _ => .rfl)
      (fun _ _ _ _ => .rfl) (fun _ => rfl) h.once (h.locked · e)
      (fun q hq => absurd hq (hno q).1) (fun q hq => absurd hq (hno q).2)
      (fun _ _ _ => ⟨update_self .., hty⟩) fun _ => .inr ⟨href, .inr ⟨hv, hty, .inl ⟨p, hp⟩⟩⟩

/-! ## Getting references -/

/-- Entry `e` with content `ip` for a new reference to `inum`: found in the table, or
recycled. -/
def Igot (s : St) (inum e : ℕ) (ip : Inode) : Prop :=
  e < NINODE ∧ (0 < (s.inode e).ref ∧ (s.inode e).inum = inum ∧
      ip = { s.inode e with ref := (s.inode e).ref + 1 } ∨
    (s.inode e).ref = 0 ∧ (∀ e' < NINODE, 0 < (s.inode e').ref → (s.inode e').inum ≠ inum) ∧
      ip = { s.inode e with inum := inum, ref := 1, valid := false })

theorem iget_spec (hget : iget s inum = .ok (e, ip)) : Igot s inum e ip := by
  unfold iget at hget
  split at hget
  · rename_i e' hfind
    cases hget
    have hp := List.find?_some hfind
    rw [decide_eq_true_eq] at hp
    exact ⟨List.mem_range.mp (List.mem_of_find?_eq_some hfind), Or.inl ⟨hp.1, hp.2, rfl⟩⟩
  · rename_i hnone
    split at hget
    · rename_i e' hfind
      cases hget
      have hp := List.find?_some hfind
      rw [decide_eq_true_eq] at hp
      refine ⟨List.mem_range.mp (List.mem_of_find?_eq_some hfind), Or.inr ⟨hp, ?_, rfl⟩⟩
      intro e'' he'' href heq
      have hno := List.find?_eq_none.mp hnone e'' (List.mem_range.mpr he'')
      rw [decide_eq_true_eq] at hno
      exact hno ⟨href, heq⟩
    · cases hget

section

variable (h : Inv s)
include h

/-- A process gets a reference to entry `e`, in `refs` or as that of a `create`. -/
theorem inv_addRef (hget : Igot s inum e ip) (hinode : t.inode = update s.inode e ip)
    (hdisk : t.disk = s.disk) (hcount : ∀ e', allRefs t e' = allRefs s e' + if e' = e then 1 else 0)
    (honce : (t.busy.map Prod.fst).Nodup)
    (hrefs : ∀ q e', e' ≠ e → ((q, e') ∈ t.refs ↔ (q, e') ∈ s.refs))
    (hsub : ∀ q, (q, e) ∈ s.refs → (q, e) ∈ t.refs)
    (hbusy : ∀ q c, c.entry ≠ some e → c ≠ .iallocGet inum → (∀ i ty, c ≠ .iallocScan i ty) →
      ((q, c) ∈ t.busy ↔ (q, c) ∈ s.busy))
    (hcreate : ∀ q, (q, .createLock e) ∈ s.busy → (q, .createLock e) ∈ t.busy)
    (hput : ∀ q, ((q, .iputFree e) ∈ t.busy ↔ (q, .iputFree e) ∈ s.busy) ∧
      ((q, .iputClear e) ∈ t.busy ↔ (q, .iputClear e) ∈ s.busy))
    (halloc : ∀ q, (q, .iallocGet inum) ∈ s.busy →
      (q, .iallocGet inum) ∈ t.busy ∨ (q, .createLock e) ∈ t.busy) : Inv t := by
  obtain ⟨hlt, hcases⟩ := hget
  have hte : t.inode e = ip := by rw [hinode, update_self]
  have hother : ∀ e', e' ≠ e → t.inode e' = s.inode e' := fun e' he => by
    rw [hinode, update_of_ne he]
  have hsum : ∀ e', (t.inode e').ref = liveRefs t e' + freshRefs t e' + staleRefs t e' := by
    intro e'
    rw [sum_refs_eq, hcount, ← h.count_all e']
    by_cases he : e' = e
    · rcases hcases with ⟨-, -, rfl⟩ | ⟨hzero, -, rfl⟩ <;> simp [*]
    · simp [he, hother e' he]
  have hun : Unlinked t = Unlinked s := by
    unfold Unlinked
    rw [hdisk]
  rcases hcases with ⟨href, rfl, rfl⟩ | ⟨hzero, hno, rfl⟩
  · -- the entry was in the table
    refine inv_focus h ⟨hother, fun _ => by rw [hte], fun _ => ?_, .inl hdisk, hrefs,
        by rwa [hte]⟩ (fun hge => absurd hlt (by omega)) hsum honce (fun q hq => ?_)
      (fun q hq => ?_) (fun q hq => ?_) (fun _ hv hno => ?_) (fun hi => ?_)
    · rw [hte]
      exact fresh_of_ref h href
    · rw [hte] at hq ⊢
      rw [(hput q).1, (hput q).2]
      exact (h.locked q e hq).imp_right (Or.imp_left (hsub q))
    · rw [hte]
      exact h.freeing q e ((hput q).1.mp hq)
    · rw [hte]
      exact h.clearing q e ((hput q).2.mp hq)
    · rw [hte] at hv ⊢
      rw [hdisk]
      exact h.synced e href hv fun q hq => hno q ((hput q).2.mpr hq)
    · rw [hun, hte] at hi
      rw [Kept, hte]
      rcases kept_of_unlinked h href hi with ⟨q, hq⟩ | hk
      · exact (halloc q hq).imp (fun hq => ⟨q, hq⟩) fun hq => ⟨Nat.succ_pos _, .inl ⟨q, hq⟩⟩
      · refine .inr ⟨Nat.succ_pos _, hk.imp (Exists.imp hcreate) fun hk => ⟨hk.1, hk.2.1, ?_⟩⟩
        exact hk.2.2.imp (Exists.imp hsub) (Exists.imp fun q => (hput q).1.mpr)
  · -- the entry is recycled; nobody refers to it
    have hnone : ∀ q c, c.entry = some e → (q, c) ∉ s.busy := by
      intro q c hc hq
      have := ref_pos_of_entry h hq hc
      omega
    refine inv_focus h ⟨hother, fun href => absurd href (by omega), fun _ e' _ href' => ?_,
        .inl hdisk, hrefs, by rwa [hte]⟩ (fun hge => absurd hlt (by omega)) hsum honce
      (fun q hq => ?_) (fun q hq => absurd ((hput q).1.mp hq) (hnone q _ rfl))
      (fun q hq => absurd ((hput q).2.mp hq) (hnone q _ rfl)) (fun _ hv _ => ?_) (fun hi => ?_)
    · rw [hte]
      exact hno e' (lt_NINODE_of_ref h href') href'
    · rw [hte] at hq
      obtain ⟨-, hmem | hmem | hmem⟩ := h.locked q e hq
      · exact absurd (ref_pos_of_mem h hmem) (by omega)
      · exact absurd hmem (hnone q _ rfl)
      · exact absurd hmem (hnone q _ rfl)
    · rw [hte] at hv
      cases hv
    · rw [hun, hte] at hi
      rw [hte]
      rcases h.kept inum hi with ⟨q, hq⟩ | ⟨e', href', hi', -⟩
      · exact (halloc q hq).imp (fun hq => ⟨q, hq⟩) fun hq => ⟨Nat.one_pos, .inl ⟨q, hq⟩⟩
      · exact absurd hi' (hno e' (lt_NINODE_of_ref h href') href')

/-- A new pointer in `refs`. -/
theorem inv_consRef (hget : Igot s inum e ip) :
    Inv { s.setInode e ip with refs := (p, e) :: s.refs } := by
  refine inv_addRef h hget rfl rfl (fun e' => ?_) h.once (fun q e' he => mem_cons_refs he)
    (fun q hq => List.mem_cons_of_mem _ hq) (fun _ _ _ _ _ => Iff.rfl) (fun _ hq => hq)
    (fun _ => ⟨Iff.rfl, Iff.rfl⟩) (fun _ hq => Or.inl hq)
  simp only [allRefs, List.countP_cons, eq_comm (a := e), decide_eq_true_eq, St.setInode]
  omega

theorem inv_stepIget (inum : ℕ) : Inv (stepIget s p inum) := by
  unfold stepIget
  split
  · exact inv_panic h _
  · rename_i e ip hget
    exact inv_consRef h (iget_spec hget)

theorem inv_stepIdup (hp : (p, e) ∈ s.refs) : Inv (stepIdup s q e) := by
  have href := ref_pos_of_mem h hp
  exact inv_consRef h ⟨lt_NINODE_of_ref h href, Or.inl ⟨href, rfl, rfl⟩⟩

theorem inv_iallocGet (hp : (p, .iallocGet inum) ∈ s.busy) : Inv (iallocGet s p inum) := by
  unfold iallocGet
  split
  · exact inv_panic h _
  · rename_i e ip hget
    refine inv_addRef h (iget_spec hget) rfl rfl (fun e' => ?_) (once_goto h hp _)
      (fun _ _ _ => Iff.rfl) (fun _ hq => hq)
      (fun q c hc hget' _ => mem_goto_of_ne (ne_of_entry hc rfl) hget')
      (fun q hq => List.mem_cons_of_mem _ ((List.mem_erase_of_ne (by simp)).mpr hq))
      (fun q => ⟨mem_goto_of_ne (by simp) (by simp), mem_goto_of_ne (by simp) (by simp)⟩)
      (fun q hq => ?_)
    · have hsum := countP_busy_erase hp e'
      simp only [Pc.entry, reduceCtorEq, if_false] at hsum
      simp only [allRefs, St.goto, St.setInode, List.countP_cons, Pc.entry, Option.some.injEq,
        eq_comm (a := e), decide_eq_true_eq]
      omega
    · by_cases hqp : q = p
      · rw [hqp]
        exact Or.inr List.mem_cons_self
      · refine Or.inl (List.mem_cons_of_mem _ ((List.mem_erase_of_ne ?_).mpr hq))
        exact fun heq => hqp (Prod.mk.inj heq).1

theorem inv_give (hp : (p, e) ∈ s.refs) (hlock : (s.inode e).lock ≠ some p) :
    Inv { s with refs := (q, e) :: s.refs.erase (p, e) } := by
  have href := ref_pos_of_mem h hp
  refine inv_onRef h href (update_eq_self e s.inode).symm rfl (.inl rfl) (fun r e' he => ?_)
    (fun _ _ _ _ => .rfl) (fun e' => ?_) h.once (fun r hr => ?_) (h.freeing · e)
    (h.clearing · e) (h.synced e) (fun hun => ?_)
  · rw [mem_cons_refs (s := { s with refs := s.refs.erase (p, e) }) he]
    exact mem_erase_refs he
  · have hsum := countP_refs_erase hp e'
    simp only [allRefs, List.countP_cons, eq_comm (a := e), decide_eq_true_eq]
    omega
  · refine (h.locked r e hr).imp_right (Or.imp_left fun hmem => List.mem_cons_of_mem _ ?_)
    refine (List.mem_erase_of_ne fun heq => hlock ?_).mpr hmem
    rw [← (Prod.mk.inj heq).1]
    exact hr
  · refine (kept_of_unlinked h href hun).imp_right fun hk => ⟨href, hk.imp_right fun hk => ?_⟩
    exact ⟨hk.1, hk.2.1, .inl ⟨q, List.mem_cons_self⟩⟩

/-! ## Dropping references -/

/-- `iput` drops a reference that is not the last one. -/
theorem inv_dropRef (hp : (p, e) ∈ s.refs) (hlock : (s.inode e).lock ≠ some p)
    (hlast : ¬((s.inode e).ref = 1 ∧ (s.inode e).valid ∧ (s.inode e).nlink = 0))
    (hrec : Recognised s (.iput p e)) :
    Inv { s.setInode e { s.inode e with ref := (s.inode e).ref - 1 } with
      refs := s.refs.erase (p, e) } := by
  have href := ref_pos_of_mem h hp
  have hcount := h.count e
  have herase := countP_refs_erase hp
  refine inv_onRef h href rfl rfl (.inl rfl) (fun _ _ he => mem_erase_refs he)
    (fun _ _ _ _ => .rfl) (fun e' => ?_) h.once (fun q hq => ?_) (h.freeing · e)
    (h.clearing · e) (fun _ hv hno => h.synced e href hv hno) (fun hun => ?_)
  · have := herase e'
    simp only [allRefs, St.setInode]
    split_ifs at this ⊢ <;> omega
  · refine (h.locked q e hq).imp_right (Or.imp_left fun hmem => ?_)
    refine (List.mem_erase_of_ne fun heq => hlock ?_).mpr hmem
    rw [← (Prod.mk.inj heq).1]
    exact hq
  · -- without links the test of `iput` failed by `ref`
    refine (kept_of_unlinked h href hun).imp_right fun hk => ?_
    have hlive : liveRefs { s with refs := s.refs.erase (p, e) } e + 1 = liveRefs s e :=
      (congrArg (_ + ·) (if_pos rfl).symm).trans (herase e)
    rcases hk with ⟨q, hq⟩ | ⟨hv, hty, -⟩
    · have := freshRefs_pos hq rfl
      exact ⟨by show 0 < (s.inode e).ref - 1; omega, .inl ⟨q, hq⟩⟩
    · have hdisk := (h.synced e href hv fun q hq => hty (h.clearing q e hq).2).1
      have hnl : (s.inode e).nlink = 0 := (congrArg Dinode.nlink hdisk).symm.trans hun.2
      have hne : (s.inode e).ref ≠ 1 := fun heq => hlast ⟨heq, hv, hnl⟩
      have hstale := hrec hv hty hnl (by omega)
      refine ⟨by show 0 < (s.inode e).ref - 1; omega, ?_⟩
      refine kept_of_pos (s := { s with refs := s.refs.erase (p, e) }) hv hty ?_
      show 0 < _ + freshRefs s e
      omega

/-- `iput` starts to free the inode. -/
theorem inv_startFree (hidle : s.idle p = true) (hp : (p, e) ∈ s.refs)
    (hv : (s.inode e).valid = true) (hnl : (s.inode e).nlink = 0)
    (hlock : (s.inode e).lock = none) : Inv { s.setInode e { s.inode e with lock := some p } with
      refs := s.refs.erase (p, e), busy := (p, .iputFree e) :: s.busy } := by
  have href := ref_pos_of_mem h hp
  have hno := not_freeing h (e := e) fun q hq => by rw [hlock] at hq; cases hq
  obtain ⟨hdisk, hty⟩ := h.synced e href hv fun q => (hno q).2
  have hother : ∀ {q c}, c ≠ .iputFree e →
      ((q, c) ∈ (p, Pc.iputFree e) :: s.busy ↔ (q, c) ∈ s.busy) := by
    intro q c hc
    rw [List.mem_cons]
    exact ⟨fun hq => hq.resolve_left fun heq => hc (Prod.mk.inj heq).2, Or.inr⟩
  refine inv_onRef h href rfl rfl (.inl rfl) (fun _ _ he => mem_erase_refs he)
    (fun q c hc _ => hother (ne_of_entry hc rfl)) (fun e' => ?_) (once_cons h hidle _)
    (fun q hq => ?_) (fun q hq => ?_) (fun q hq => absurd ((hother (by simp)).mp hq) (hno q).2)
    (fun _ _ _ => ⟨hdisk, hty⟩)
    fun _ => .inr ⟨href, .inr ⟨hv, hty, .inr ⟨p, List.mem_cons_self⟩⟩⟩
  · have := countP_refs_erase hp e'
    simp only [allRefs, List.countP_cons, Pc.entry, Option.some.injEq, eq_comm (a := e),
      decide_eq_true_eq]
    omega
  · cases hq
    exact ⟨hv, .inr (.inl List.mem_cons_self)⟩
  · rcases List.mem_cons.mp hq with heq | hq
    · rw [(Prod.mk.inj heq).1]
      exact ⟨rfl, hnl⟩
    · exact absurd hq (hno q).1

theorem inv_stepIput (hidle : s.idle p = true) (hp : (p, e) ∈ s.refs)
    (hlock : (s.inode e).lock ≠ some p) (hrec : Recognised s (.iput p e))
    (hstep : stepIput s p e = some t) : Inv t := by
  unfold stepIput at hstep
  simp only at hstep
  split_ifs at hstep with hlast hfree
  · cases hstep
    rw [not_not] at hfree
    exact inv_startFree h hidle hp hlast.2.1 hlast.2.2 hfree
  · cases hstep
    exact inv_dropRef h hp hlock hlast hrec

/-! ## The end of `iput` -/

/-- The process that frees the inode of an entry is the only one. -/
theorem freer_unique (hlock : (s.inode e).lock = some p) (hp : (p, c) ∈ s.busy)
    (hc' : c' = .iputFree e ∨ c' = .iputClear e) : (q, c') ∉ s.busy.erase (p, c) := by
  intro hq
  have hq' := List.mem_of_mem_erase hq
  have hlock' : (s.inode e).lock = some q := by
    rcases hc' with rfl | rfl
    · exact (h.freeing q e hq').1
    · exact (h.clearing q e hq').1
  rw [hlock, Option.some.injEq] at hlock'
  rw [← hlock'] at hq
  exact not_mem_erase h hp hq

theorem inv_iputFree (hp : (p, .iputFree e) ∈ s.busy) : Inv (iputFree s p e) := by
  have href := ref_pos_of_entry h hp rfl
  obtain ⟨hlock, -⟩ := h.freeing p e hp
  refine inv_onRef h href rfl rfl (.inr ⟨href, _, rfl⟩) (fun _ _ _ => .rfl)
    (fun q c hc _ => mem_goto_of_ne (ne_of_entry hc rfl) (ne_of_entry hc rfl))
    (fun e' => congrArg (· + _) (allRefs_goto (s := s) (t := iputFree s p e) rfl rfl hp rfl e'))
    (once_goto h hp _)
    (fun q hq => ?_) (fun q hq => ?_) (fun q hq => ?_)
    (fun _ _ hno => absurd List.mem_cons_self (hno p)) (fun hun => ?_)
  · rw [show q = p from Option.some.inj (hq.symm.trans hlock)]
    exact ⟨(h.locked p e hlock).1, .inr (.inr List.mem_cons_self)⟩
  · rcases List.mem_cons.mp hq with heq | hq
    · cases heq
    · exact absurd hq (freer_unique (s := s) h hlock hp (Or.inl rfl))
  · rcases List.mem_cons.mp hq with heq | hq
    · rw [(Prod.mk.inj heq).1]
      exact ⟨hlock, rfl⟩
    · exact absurd hq (freer_unique (s := s) h hlock hp (Or.inr rfl))
  · refine absurd ?_ hun.1
    simp [iputFree, St.goto, St.setDisk]

theorem inv_iputClear (hp : (p, .iputClear e) ∈ s.busy) : Inv (iputClear s p e) := by
  have href := ref_pos_of_entry h hp rfl
  obtain ⟨hlock, hty⟩ := h.clearing p e hp
  have hgone : ∀ q c, c = .iputFree e ∨ c = .iputClear e →
      (q, c) ∉ (p, Pc.iputStale e) :: s.busy.erase (p, .iputClear e) := by
    intro q c hc hq
    rcases List.mem_cons.mp hq with heq | hq
    · rcases hc with rfl | rfl <;> cases heq
    · exact freer_unique h hlock hp hc hq
  refine inv_onRef h href rfl rfl (.inl rfl) (fun _ _ _ => .rfl)
    (fun q c hc _ => mem_goto_of_ne (ne_of_entry hc rfl) (ne_of_entry hc rfl))
    (fun e' => congrArg (· + _) (allRefs_goto (s := s) (t := iputClear s p e) rfl rfl hp rfl e'))
    (once_goto h hp _)
    (fun q hq => by cases hq) (fun q hq => absurd hq (hgone q _ (.inl rfl)))
    (fun q hq => absurd hq (hgone q _ (.inr rfl))) (fun _ hv => by cases hv) (fun hun => ?_)
  rcases kept_of_unlinked h href hun with ⟨q, hq⟩ | ⟨q, hq⟩ | ⟨-, hty', -⟩
  · exact .inl ⟨q, (mem_goto_of_ne (by simp) (by simp)).mpr hq⟩
  · exact .inr ⟨href, .inl ⟨q, (mem_goto_of_ne (by simp) (by simp)).mpr hq⟩⟩
  · exact absurd hty hty'

theorem inv_iputStale (hp : (p, .iputStale e) ∈ s.busy) : Inv (iputStale s p e) := by
  have href := ref_pos_of_entry h hp rfl
  have hstale := staleRefs_pos (e := e) hp rfl
  have hcount := h.count e
  have hmem : ∀ {q c}, c ≠ .iputStale e → ((q, c) ∈ (iputStale s p e).busy ↔ (q, c) ∈ s.busy) :=
    fun hc => mem_leave_of_ne hc
  refine inv_onRef h href rfl rfl (.inl rfl) (fun _ _ _ => .rfl)
    (fun q c hc _ => hmem (ne_of_entry hc rfl)) (fun e' => ?_) (once_leave h _)
    (fun q hq => ?_) (fun q hq => h.freeing q e ((hmem (by simp)).mp hq))
    (fun q hq => h.clearing q e ((hmem (by simp)).mp hq))
    (fun _ hv hno => h.synced e href hv fun q hq => hno q ((hmem (by simp)).mpr hq))
    (fun hun => ?_)
  · have := countP_entry_erase hp rfl e'
    simp only [allRefs, iputStale, St.leave, St.setInode]
    split_ifs at this ⊢ <;> omega
  · rw [hmem (by simp), hmem (by simp)]
    exact h.locked q e hq
  · rcases kept_of_unlinked h href hun with ⟨q, hq⟩ | hk
    · exact .inl ⟨q, (hmem (by simp)).mpr hq⟩
    · have hpos := hk.pos
      refine .inr ⟨by show 0 < (s.inode e).ref - 1; omega, ?_⟩
      refine hk.imp (Exists.imp fun q hq => (hmem (by simp)).mpr hq) fun hk => ?_
      exact ⟨hk.1, hk.2.1, hk.2.2.imp_right (Exists.imp fun q hq => (hmem (by simp)).mpr hq)⟩

/-! ## `ialloc` and `create` -/

/-- A step of the loop of `ialloc` touches at most one inode, a free one on disk. -/
theorem inv_scan (hinode : t.inode = s.inode) (hrefs : t.refs = s.refs)
    (hmem : ∀ q c, c.entry ≠ none → ((q, c) ∈ t.busy ↔ (q, c) ∈ s.busy))
    (hcount : ∀ e, allRefs t e = allRefs s e) (honce : (t.busy.map Prod.fst).Nodup)
    (hdisk : ∀ i, t.disk i = s.disk i ∨ (s.disk i).type = 0 ∧ ∃ q, (q, .iallocGet i) ∈ t.busy)
    (halloc : ∀ q i, (q, .iallocGet i) ∈ s.busy → (q, .iallocGet i) ∈ t.busy) : Inv t := by
  have hbusy : ∀ {q c e}, c.entry = some e → ((q, c) ∈ t.busy ↔ (q, c) ∈ s.busy) :=
    fun hc => hmem _ _ (by simp [hc])
  refine ⟨?_, ?_, fun e => ?_, honce, fun q e hq => ?_, fun q e hq => ?_, fun q e hq => ?_,
    fun e href hv hno => ?_, fun i hi => ?_⟩
  · rw [hinode]
    exact h.outside
  · rw [hinode]
    exact h.uniq
  · rw [sum_refs_eq, hcount, hinode]
    exact h.count_all e
  · rw [hinode] at hq ⊢
    rw [hrefs, hbusy rfl, hbusy rfl]
    exact h.locked q e hq
  · rw [hinode]
    exact h.freeing q e ((hbusy rfl).mp hq)
  · rw [hinode]
    exact h.clearing q e ((hbusy rfl).mp hq)
  · rw [hinode] at href hv ⊢
    obtain ⟨heq, hty⟩ := h.synced e href hv fun q hq => hno q ((hbusy rfl).mpr hq)
    rcases hdisk (s.inode e).inum with hd | ⟨hd, -⟩
    · rw [hd]
      exact ⟨heq, hty⟩
    · -- a valid entry is of an allocated inode
      rw [heq] at hd
      exact absurd hd hty
  · rcases hdisk i with hd | ⟨-, hq⟩
    · unfold Unlinked at hi
      rw [hd] at hi
      rcases h.kept i hi with ⟨q, hq⟩ | ⟨e, href, hinum, hk⟩
      · exact Or.inl ⟨q, halloc q i hq⟩
      · refine Or.inr ⟨e, by rwa [hinode], by rwa [hinode], ?_⟩
        unfold Kept at hk ⊢
        simpa only [hinode, hrefs, hbusy (c := .createLock e) rfl,
          hbusy (c := .iputFree e) rfl] using hk
    · exact Or.inl hq

theorem inv_ialloc (hidle : s.idle p = true) (type : CShort) :
    Inv { s with busy := (p, .iallocScan 1 type) :: s.busy } := by
  refine inv_scan h rfl rfl (fun q c hc => ?_) (fun e => by simp [allRefs, Pc.entry])
    (once_cons h hidle _) (fun _ => Or.inl rfl) fun q i hq => List.mem_cons_of_mem _ hq
  rw [List.mem_cons]
  refine ⟨fun hq => hq.resolve_left fun heq => hc ?_, Or.inr⟩
  rw [(Prod.mk.inj heq).2]
  rfl

/-- A process of the loop of `ialloc` goes on to `c'`, in the loop or after it. -/
theorem inv_scanGoto (hp : (p, .iallocScan inum type) ∈ s.busy) (hc' : c'.entry = none)
    (hdisk : ∀ i, t.disk i = s.disk i ∨ (s.disk i).type = 0 ∧ c' = .iallocGet i)
    (hinode : t.inode = s.inode) (hrefs : t.refs = s.refs)
    (hbusy : t.busy = (p, c') :: s.busy.erase (p, .iallocScan inum type)) : Inv t := by
  refine inv_scan h hinode hrefs (fun q c hc => ?_) (allRefs_goto hrefs hbusy hp hc')
    (by rw [hbusy]; exact once_goto h hp c') (fun i => (hdisk i).imp_right fun hd => ?_)
    (fun q i hq => ?_)
  · rw [hbusy]
    refine mem_goto_of_ne ?_ ?_
    · rintro rfl
      exact hc hc'
    · rintro rfl
      exact hc rfl
  · rw [hbusy, ← hd.2]
    exact ⟨hd.1, p, List.mem_cons_self⟩
  · rw [hbusy]
    exact List.mem_cons_of_mem _ ((List.mem_erase_of_ne (by simp)).mpr hq)

theorem inv_iallocScan
    (hp : (p, .iallocScan inum type) ∈ s.busy) : Inv (iallocScan ninodes s p inum type) := by
  unfold iallocScan
  split_ifs with hlt hfree
  · refine inv_scanGoto h hp rfl (fun i => ?_) rfl rfl rfl
    by_cases hi : i = inum
    · rw [hi]
      exact Or.inr ⟨hfree, rfl⟩
    · exact Or.inl (update_of_ne hi ..)
  · exact inv_scanGoto h hp rfl (fun i => Or.inl rfl) rfl rfl rfl
  · refine inv_scan h rfl rfl (fun q c hc => mem_leave_of_ne ?_) (fun e => ?_)
      (once_leave h _) (fun _ => Or.inl rfl) fun q i hq => (mem_leave_of_ne (by simp)).mpr hq
    · rintro rfl
      exact hc rfl
    · exact congrArg (_ + ·) (countP_busy_erase hp e)

theorem inv_createLock (hp : (p, .createLock e) ∈ s.busy)
    (hstep : createLock s p e = some t) : Inv t := by
  have href := ref_pos_of_entry h hp rfl
  unfold createLock at hstep
  split_ifs at hstep with hlock
  rw [not_not] at hlock
  have hno := not_freeing h (e := e) fun q hq => by rw [hlock] at hq; cases hq
  cases hip : readInode s e with
  | error msg =>
    rw [hip] at hstep
    cases hstep
    exact inv_panic h _
  | ok ip =>
    rw [hip] at hstep
    simp only [Option.some.injEq] at hstep
    subst hstep
    obtain ⟨hinum, hipref, hv, hty, -⟩ := readInode_spec h href hlock hip
    have hpos : 0 < ip.ref := hipref ▸ href
    refine inv_onRef h href rfl hinum (.inr ⟨hpos, ⟨ip.type, 1⟩, by rw [← hinum]; rfl⟩)
      (fun q e' he => mem_cons_refs he) (fun q c hc _ => mem_leave_of_ne (ne_of_entry hc rfl))
      (fun e' => ?_) (once_leave h _) (fun q hq => ?_)
      (fun q hq => absurd (List.mem_of_mem_erase hq) (hno q).1)
      (fun q hq => absurd (List.mem_of_mem_erase hq) (hno q).2)
      (fun _ _ _ => ⟨update_self .., hty⟩)
      fun _ => .inr ⟨hpos, .inr ⟨hv, hty, .inl ⟨p, List.mem_cons_self⟩⟩⟩
    · -- the reference of `create` becomes a pointer
      have := countP_entry_erase hp rfl e'
      simp only [allRefs, St.leave, St.setDisk, St.setInode, List.countP_cons, decide_eq_true_eq,
        eq_comm (a := e), hipref]
      omega
    · cases hq
      exact ⟨hv, .inl List.mem_cons_self⟩

/-! ## Runs -/

theorem inv_advance (hstep : advance ninodes s p = some t) : Inv t := by
  unfold advance at hstep
  cases hfind : s.busy.find? fun b => b.1 = p with
  | none =>
    rw [hfind] at hstep
    cases hstep
  | some b =>
    obtain ⟨q, c⟩ := b
    have hq := List.find?_some hfind
    rw [decide_eq_true_eq] at hq
    have hp : (p, c) ∈ s.busy := by
      rw [← hq]
      exact List.mem_of_find?_eq_some hfind
    rw [hfind] at hstep
    cases c with
    | iallocScan inum type =>
      cases hstep
      exact inv_iallocScan h hp
    | iallocGet inum =>
      cases hstep
      exact inv_iallocGet h hp
    | createLock e => exact inv_createLock h hp hstep
    | iputFree e =>
      cases hstep
      exact inv_iputFree h hp
    | iputClear e =>
      cases hstep
      exact inv_iputClear h hp
    | iputStale e =>
      cases hstep
      exact inv_iputStale h hp

/-- Every step that meets the condition keeps the invariant. -/
theorem inv_step {a : Act} (hrec : Recognised s a) (hstep : step ninodes s a = some t) : Inv t := by
  unfold step at hstep
  split_ifs at hstep
  cases a with
  | ialloc p type =>
    simp only at hstep
    split_ifs at hstep with hc
    cases hstep
    exact inv_ialloc h hc.1 type
  | iget p inum =>
    simp only at hstep
    split_ifs at hstep
    cases hstep
    exact inv_stepIget h inum
  | idup p q e =>
    simp only at hstep
    split_ifs at hstep with hc
    cases hstep
    exact inv_stepIdup h hc.2
  | give p q e =>
    simp only at hstep
    split_ifs at hstep with hc
    cases hstep
    exact inv_give h hc.2.1 hc.2.2
  | ilock p e =>
    simp only at hstep
    split_ifs at hstep with hc
    exact inv_ilock h hc.2 hstep
  | relink p e r =>
    simp only at hstep
    split_ifs at hstep with hc
    cases hstep
    exact inv_relink h hc.1 hc.2 r
  | iunlock p e =>
    simp only at hstep
    split_ifs at hstep with hc
    cases hstep
    exact inv_iunlock h hc.1 hc.2
  | iput p e =>
    simp only at hstep
    split_ifs at hstep with hc
    exact inv_stepIput h hc.1 hc.2.1 hc.2.2 hrec hstep
  | advance p => exact inv_advance h hstep

end

/-- A disk on which every allocated inode has a link, as `mkfs` or an unmounted file
system leaves it. -/
def Linked (disk : ℕ → Dinode) : Prop := ∀ i, (disk i).type ≠ 0 → (disk i).nlink ≠ 0

theorem inv_init {disk : ℕ → Dinode} (hdisk : Linked disk) : Inv (init disk) where
  outside _ _ := rfl
  uniq _ _ href := absurd href (Nat.lt_irrefl 0)
  count _ := rfl
  once := List.nodup_nil
  locked _ _ hlock := by cases hlock
  freeing _ _ hq := by cases hq
  clearing _ _ hq := by cases hq
  synced _ href := absurd href (Nat.lt_irrefl 0)
  kept i hi := absurd hi.2 (hdisk i hi.1)

/-- **The last reference frees the inode.**  In every interleaving, from every disk whose
allocated inodes have links, in which no `iput` takes the stale reference of another for
a real one, an allocated inode without links has a reference whenever nothing is in
progress. -/
theorem noOrphan_of_recognised (ninodes : ℕ) (disk : ℕ → Dinode) (hdisk : Linked disk)
    (as : List Act) (hrec : Meets (step ninodes) Recognised (init disk) as) :
    Always (step ninodes) NoOrphan (init disk) as :=
  always_of_invariant (fun _ _ _ hs hP ht => inv_step hs hP ht) (fun _ hs => noOrphan_of_inv hs)
    as (init disk) (inv_init hdisk) hrec

/-- A disk with a root directory and nothing else. -/
def rootDisk : ℕ → Dinode := fun i => if i = 1 then ⟨1, 1⟩ else ⟨0, 0⟩

theorem linked_rootDisk : Linked rootDisk := by
  intro i hty
  unfold rootDisk at hty ⊢
  split_ifs at hty ⊢
  · decide
  · exact absurd rfl hty

/-- `open` with `O_CREATE`, of the file that gets inode 2 and table entry 0. -/
def createFile (p : ℕ) : List Act :=
  [.ialloc p 2, .advance p, .advance p, .advance p, .advance p, .iunlock p 0]

/-- `unlink` of that file. -/
def unlinkFile (p : ℕ) : List Act :=
  [.iget p 2, .ilock p 0, .relink p 0 .unlink, .iunlock p 0, .iput p 0]

/-- A process creates a file, unlinks and closes it. -/
theorem noOrphan_of_recognised_createUnlinkClose : Always (step 3) NoOrphan (init rootDisk)
      (createFile 1 ++ unlinkFile 1 ++ [.iput 1 0, .advance 1, .advance 1, .advance 1]) :=
  noOrphan_of_recognised 3 rootDisk linked_rootDisk _ (by decide)

/-- Process 1 closes its unlinked file and stops before the last `ip->ref--`; process 2
gets the same inode, unlinks and closes it; process 1 goes on. -/
def reuseBeforeDrop : List Act :=
  createFile 1 ++ unlinkFile 1 ++ [.iput 1 0, .advance 1, .advance 1] ++
    createFile 2 ++ unlinkFile 2 ++ [.iput 2 0, .advance 1]

/-- **A stale reference leaks an inode**: at the end nothing is in progress, and inode 2
is allocated, without links and without references. -/
theorem staleReference_leaks :
    (∃ s, run (step 3) (init rootDisk) reuseBeforeDrop = some s ∧ s.panicked = none ∧
      s.busy = [] ∧ Unlinked s 2 ∧ ∀ e, (s.inode e).inum = 2 → (s.inode e).ref = 0) ∧
    ¬ Always (step 3) NoOrphan (init rootDisk) reuseBeforeDrop := by
  have hleak : ∃ s, run (step 3) (init rootDisk) reuseBeforeDrop = some s ∧
      s.panicked = none ∧ s.busy = [] ∧ Unlinked s 2 ∧
      ∀ e, (s.inode e).inum = 2 → (s.inode e).ref = 0 := by
    refine ⟨_, rfl, rfl, rfl, by constructor <;> decide, ?_⟩
    rintro (_ | e) he
    · rfl
    · cases he
  refine ⟨hleak, fun hal => ?_⟩
  obtain ⟨s, hs, -, hbusy, hun, hno⟩ := hleak
  obtain ⟨e, hinum, href⟩ := Always.of_run reuseBeforeDrop (init rootDisk) s hal hs hbusy 2 hun
  rw [hno e hinum] at href
  exact absurd href (Nat.lt_irrefl 0)

end Itable

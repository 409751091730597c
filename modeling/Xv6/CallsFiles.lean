/-
# Files and pipes keep the account of the pages

`fileclose` of the last reference to an end of a pipe clears the flag of that end, and
frees the page if the other end is closed too; `pipealloc` makes a pipe with a file for
each end.  In between, the references that a call holds itself are counted in `extra`.
-/
import Xv6.CallsInv

namespace Calls

open Function Vm Hoare
open Proc (NPROC)

variable {L : Layout} {t : Tab} {p q : Fin NPROC}
variable {As : Fin NPROC → AS} {m m' : ℕ → Page} {s : Phys} {rest held : Multiset ℕ}
variable {ft ft' : Ftable} {f g : Fin NFILE} {pi : ℕ} {w : Bool} {y : OpenFile}
variable {extra extra' : Fin NFILE → ℕ} {H : Snapshot}

/-! ## References held by a call -/

/-- One more reference to `f`. -/
def bump (extra : Fin NFILE → ℕ) (f : Fin NFILE) : Fin NFILE → ℕ :=
  update extra f (extra f + 1)

theorem bump_self (extra : Fin NFILE → ℕ) (f : Fin NFILE) : bump extra f f = extra f + 1 :=
  update_self f _ _

theorem bump_of_ne (extra : Fin NFILE → ℕ) (h : g ≠ f) : bump extra f g = extra g :=
  update_of_ne h _ _

theorem bump_comm (extra : Fin NFILE → ℕ) (f g : Fin NFILE) :
    bump (bump extra f) g = bump (bump extra g) f := by
  funext h
  by_cases hf : h = f
  · by_cases hg : h = g
    · rw [← hf, ← hg]
    · rw [bump_of_ne _ hg, hf, bump_self, bump_self, bump_of_ne _ (hf ▸ hg)]
  · by_cases hg : h = g
    · rw [bump_of_ne _ hf, hg, bump_self, bump_self, bump_of_ne _ (hg ▸ hf)]
    · rw [bump_of_ne _ hg, bump_of_ne _ hf, bump_of_ne _ hf, bump_of_ne _ hg]

/-- One file changes. -/
theorem FilesOk.setFile (h : FilesOk t extra)
    (href : y.ref + extra f = (t.ftable f).ref + extra' f) (hother : ∀ g, g ≠ f → extra' g = extra g)
    (hkind : y.ref = 0 → y.type = .none)
    (hnamed : ∀ p fd, (t.proc p).ofile fd = some f → y.type ≠ .none) :
    FilesOk (t.setFiles (update t.ftable f y)) extra' := by
  refine ⟨fun g => ?_, fun g hg => ?_, h.closed, fun q fd g hq => ?_⟩
  · have hg := h.ref g
    show (update t.ftable f y g).ref = (∑ p, refs (t.proc p) g) + extra' g
    by_cases hgf : g = f
    · subst hgf
      rw [update_self]
      omega
    · rw [update_of_ne hgf, hother g hgf]
      exact hg
  · have hg' : (update t.ftable f y g).ref = 0 := hg
    show (update t.ftable f y g).type = .none
    by_cases hgf : g = f
    · subst hgf
      rw [update_self] at hg' ⊢
      exact hkind hg'
    · rw [update_of_ne hgf] at hg' ⊢
      exact h.kind g hg'
  · have hq' : (t.proc q).ofile fd = some g := hq
    show (update t.ftable f y g).type ≠ .none
    by_cases hgf : g = f
    · subst hgf
      rw [update_self]
      exact hnamed q fd hq'
    · rw [update_of_ne hgf]
      exact h.named q fd g hq'

/-- A file in use gets a type, its reference count stays. -/
theorem FilesOk.retype (h : FilesOk t extra) (href : y.ref = (t.ftable f).ref) (hne : y.ref ≠ 0)
    (htype : y.type ≠ .none) : FilesOk (t.setFiles (update t.ftable f y)) extra :=
  h.setFile (by rw [href]) (fun _ _ => rfl) (fun hzero => absurd hzero hne) fun _ _ _ => htype

theorem isEnd_update_self :
    IsEnd (update ft f y) f pi w ↔ y.type = .pipe ∧ y.pipe = pi ∧ y.writable = w := by
  rw [IsEnd, update_self]

theorem isEnd_update_of_ne (h : g ≠ f) : IsEnd (update ft f y) g pi w ↔ IsEnd ft g pi w := by
  rw [IsEnd, update_of_ne h, IsEnd]

/-- A file that is no end of a pipe changes to another. -/
theorem isEnd_update_none (hold : (ft f).type ≠ .pipe) (hnew : y.type ≠ .pipe) (g : Fin NFILE)
    (pi : ℕ) (w : Bool) : IsEnd (update ft f y) g pi w ↔ IsEnd ft g pi w := by
  by_cases hgf : g = f
  · rw [hgf, isEnd_update_self]
    exact ⟨fun h => absurd h.1 hnew, fun h => absurd h.1 hold⟩
  · exact isEnd_update_of_ne hgf

/-- The reference count does not matter. -/
theorem isEnd_update_ref (k : ℕ) (g : Fin NFILE) (pi : ℕ) (w : Bool) :
    IsEnd (update ft f { ft f with ref := k }) g pi w ↔ IsEnd ft g pi w := by
  by_cases hgf : g = f
  · rw [hgf, isEnd_update_self, IsEnd]
  · exact isEnd_update_of_ne hgf

/-- The file table changes, but no pipe. -/
theorem OwnedIn.setFtable (h : OwnedIn H L t extra s)
    (hends : ∀ f pi w, IsEnd ft' f pi w ↔ IsEnd t.ftable f pi w)
    (hF : FilesOk t extra → FilesOk (t.setFiles ft') extra') :
    OwnedIn H L (t.setFiles ft') extra' s := by
  obtain ⟨As, m, hs, hK⟩ := h
  refine ⟨As, m, ⟨⟨hs.good.slots, hs.good.pipes.congr hends fun _ _ => rfl⟩, hF hs.files, ?_⟩,
    hK.of_proc rfl⟩
  have hpages : pipePages ft' = pipePages t.ftable := pipePages_congr hends
  have htotal : total (t.setFiles ft') As m = total t As m := by
    simp only [total, Tab.setFiles, hpages]
  rw [htotal]
  exact hs.pages

theorem first_some {n : ℕ} {φ : Fin n → Bool} {i : Fin n} (h : first φ = some i) : φ i = true :=
  List.find?_some h

theorem filealloc_some (h : filealloc ft = some (ft', f)) :
    (ft f).ref = 0 ∧ ft' = update ft f { ft f with ref := 1 } := by
  obtain ⟨g, hg, heq⟩ := Option.map_eq_some_iff.mp h
  obtain ⟨rfl, rfl⟩ := Prod.mk.inj heq
  exact ⟨of_decide_eq_true (first_some hg), rfl⟩

/-- A new file of the file table. -/
theorem filealloc_owned (hf : filealloc t.ftable = some (ft, f)) (h : OwnedIn H L t extra s) :
    OwnedIn H L (t.setFiles ft) (bump extra f) s ∧ (ft f).ref = 1 ∧ (ft f).type = .none := by
  obtain ⟨hzero, rfl⟩ := filealloc_some hf
  have hnone : (t.ftable f).type = .none := by
    obtain ⟨As, m, hs, -⟩ := h
    exact hs.files.kind f hzero
  refine ⟨h.setFtable (isEnd_update_ref 1) fun hF => ?_, ?_, ?_⟩
  · refine hF.setFile ?_ (fun k hk => bump_of_ne extra hk) (fun hone => absurd hone Nat.one_ne_zero)
      fun p fd hfd => hF.named p fd f hfd
    rw [bump_self, hzero]
    show 1 + extra f = 0 + (extra f + 1)
    omega
  · rw [update_self]
  · rw [update_self]
    exact hnone

theorem filedup_spec (href : 1 ≤ (t.ftable f).ref) :
    Triple (OwnedIn H L t extra) (filedup t.ftable f) fun ft s =>
      (∀ g, (t.ftable g).ref ≤ (ft g).ref ∧ (ft g).type = (t.ftable g).type) ∧
        OwnedIn H L (t.setFiles ft) (bump extra f) s := by
  rw [filedup, if_neg (by omega)]
  refine Triple.ret fun s hs => ⟨fun g => ?_, hs.setFtable (isEnd_update_ref _) fun hF => ?_⟩
  · by_cases hgf : g = f
    · rw [hgf, update_self]
      exact ⟨Nat.le_succ _, rfl⟩
    · rw [update_of_ne hgf]
      exact ⟨le_rfl, rfl⟩
  · refine hF.setFile ?_ (fun k hk => bump_of_ne extra hk) (fun hzero => ?_) fun p fd hfd =>
      hF.named p fd f hfd
    · rw [bump_self]
      show (t.ftable f).ref + 1 + extra f = (t.ftable f).ref + (extra f + 1)
      omega
    · exact absurd hzero (Nat.succ_ne_zero _)

/-! ## Pages of pipes -/

theorem writeInt_spec {pa off k : ℕ} : Triple (At L m held) (writeInt pa off k) fun _ s =>
    At L (update m pa (Bytes.setLE (m pa) off 4 k)) held s := by
  rintro s ⟨rfl, h⟩
  exact ⟨(), _, rfl, rfl, ⟨h.pages, h.once⟩⟩

theorem readInt_spec {pa off : ℕ} : Triple (At L m held) (readInt pa off) fun v s =>
    v = Bytes.getLE (m pa) off 4 ∧ At L m held s := by
  rintro s ⟨rfl, h⟩
  exact ⟨_, s, rfl, rfl, rfl, h⟩

theorem openEnd_clear (page : Page) (w : Bool) :
    ¬ openEnd (Bytes.setLE page (if w then writeopenOff else readopenOff) 4 0) w := by
  rw [openEnd, Bytes.getLE_setLE_same]
  exact fun h => h rfl

theorem openEnd_other (page : Page) (w : Bool) (k : ℕ) :
    openEnd (Bytes.setLE page (if w then writeopenOff else readopenOff) 4 k) (!w) ↔
      openEnd page (!w) := by
  rw [openEnd, openEnd, Bytes.getLE_setLE_other]
  cases w
  · exact Or.inr (by decide)
  · exact Or.inl (by decide)

/-- **`pipeclose`** frees the page exactly if the other end is closed. -/
theorem pipeclose_spec : Triple (At L m (pi ::ₘ rest)) (pipeclose L pi w) fun _ s =>
    openEnd (m pi) (!w) ∧ (∃ page, ¬ openEnd page w ∧ openEnd page (!w) ∧
      At L (update m pi page) (pi ::ₘ rest) s) ∨
    ¬ openEnd (m pi) (!w) ∧ ∃ page, At L (update m pi page) rest s := by
  refine Triple.bind writeInt_spec fun _ => ?_
  generalize hpage : Bytes.setLE (m pi) (if w then writeopenOff else readopenOff) 4 0 = page
  have hw : ¬ openEnd page w := hpage ▸ openEnd_clear (m pi) w
  have hother : openEnd page (!w) ↔ openEnd (m pi) (!w) := hpage ▸ openEnd_other (m pi) w 0
  refine Triple.bind readInt_spec fun r => ?_
  refine Triple.of_and fun hr => ?_
  refine Triple.bind readInt_spec fun v => ?_
  refine Triple.of_and fun hv => ?_
  rw [update_self] at hr hv
  have hclosed : (r = 0 ∧ v = 0) ↔ ¬ openEnd (m pi) (!w) := by
    rw [← hother]
    cases w
    · have h₁ : r = 0 := by
        rw [hr]
        exact not_not.mp hw
      show (r = 0 ∧ v = 0) ↔ ¬ (Bytes.getLE page writeopenOff 4 ≠ 0)
      rw [not_not, ← hv]
      exact ⟨fun h => h.2, fun h => ⟨h₁, h⟩⟩
    · have h₁ : v = 0 := by
        rw [hv]
        exact not_not.mp hw
      show (r = 0 ∧ v = 0) ↔ ¬ (Bytes.getLE page readopenOff 4 ≠ 0)
      rw [not_not, ← hr]
      exact ⟨fun h => h.1, fun h => ⟨h, h₁⟩⟩
  refine Triple.ite (fun h => ?_) fun h => Triple.ret fun s hs => ?_
  · refine kfree_spec.post fun _ s hs => Or.inr ⟨hclosed.mp h, fun _ => 1, ?_⟩
    rw [update_idem] at hs
    exact hs
  · have hopen : openEnd (m pi) (!w) := not_not.mp fun hno => h (hclosed.mpr hno)
    exact Or.inl ⟨hopen, page, hw, hother.mpr hopen, hs⟩

/-- The pages of the kernel and of the processes. -/
def base (t : Tab) (As : Fin NPROC → AS) (m : ℕ → Page) : Multiset ℕ :=
  (t.kernel : Multiset ℕ) + ∑ q, slotPages m (t.proc q) (As q)

/-- The processes depend on their own pages only. -/
theorem slots_congr (h : ∀ p, SlotOk L m (t.proc p) (As p))
    (hsame : ∀ pa ∈ base t As m, m' pa = m pa) :
    (∀ p, SlotOk L m' (t.proc p) (As p)) ∧ base t As m' = base t As m := by
  have hslot : ∀ p, SlotOk L m' (t.proc p) (As p) ∧
      slotPages m' (t.proc p) (As p) = slotPages m (t.proc p) (As p) := fun p =>
    (h p).congr fun pa hpa => hsame pa (Multiset.mem_add.mpr (Or.inr
      (Multiset.mem_sum.mpr ⟨p, Finset.mem_univ p, hpa⟩)))
  refine ⟨fun p => (hslot p).1, ?_⟩
  rw [base, base, Finset.sum_congr rfl fun q _ => (hslot q).2]

/-- The page of a pipe among all pages. -/
theorem total_pipe (hpi : pi ∈ pipePages t.ftable) :
    total t As m = pi ::ₘ (base t As m + ((pipePages t.ftable).erase pi).val) := by
  have hval : (pipePages t.ftable).val = pi ::ₘ ((pipePages t.ftable).erase pi).val := by
    rw [Finset.erase_val, Multiset.cons_erase hpi]
  rw [total, hval, Multiset.add_cons]
  rfl

/-- **The files and the pipes change**, the processes stay as they are. -/
theorem OwnedIn.of_pipes (hK : Kept H t As m) (hs : ∀ p, SlotOk L m (t.proc p) (As p))
    (hsame : ∀ pa ∈ base t As m, m' pa = m pa) (hP : PipesOk ft' m')
    (hF : FilesOk (t.setFiles ft') extra') (hat : At L m' (base t As m + (pipePages ft').val) s) :
    OwnedIn H L (t.setFiles ft') extra' s := by
  obtain ⟨hslots, hbase⟩ := slots_congr hs hsame
  refine ⟨As, m', ⟨⟨hslots, hP⟩, hF, ?_⟩, fun q hq => ?_⟩
  · rw [← hbase] at hat
    exact hat
  · have hK' : Kept H (t.setFiles ft') As m := hK.of_proc rfl
    refine (hK' q hq).mono (hs q) fun pa hpa => hsame pa ?_
    exact Multiset.mem_add.mpr (Or.inr (Multiset.mem_sum.mpr ⟨q, Finset.mem_univ q, hpa⟩))

/-- **The data of a pipe changes**, but not which of its ends are open. -/
theorem pipe_write_owned {c : Kernel Unit} {k : Page → Page} (hpi : pi ∈ pipePages t.ftable)
    (hopen : ∀ page w, openEnd (k page) w ↔ openEnd page w)
    (hc : ∀ m held, Triple (At L m held) c fun _ s => At L (update m pi (k (m pi))) held s) :
    Triple (OwnedIn H L t extra) c fun _ s => OwnedIn H L t extra s := by
  refine Triple.of_ownedIn fun As m hG hF hK => ?_
  refine Triple.of_fact (fun hnd => ?_) fun s hs => hs.nodup
  rw [total_pipe hpi] at hnd
  have hsame : ∀ pa ∈ base t As m, update m pi (k (m pi)) pa = m pa := by
    intro pa hpa
    refine update_of_ne ?_ _ _
    rintro rfl
    exact (Multiset.nodup_cons.mp hnd).1 (Multiset.mem_add.mpr (Or.inl hpa))
  have hP : PipesOk t.ftable (update m pi (k (m pi))) := by
    refine ⟨hG.pipes.unique, fun pi' hpi' w => ?_⟩
    rw [← hG.pipes.flag pi' hpi' w]
    by_cases heq : pi' = pi
    · rw [heq, update_self]
      exact hopen (m pi) w
    · rw [update_of_ne heq]
  exact (hc m _).post fun _ s hs => OwnedIn.of_pipes hK hG.slots hsame hP hF hs

/-- The other fields of a pipe lie before its two flags. -/
theorem openEnd_before {page page' : Page} (h : ∀ i, readopenOff ≤ i → page' i = page i) (w : Bool) :
    openEnd page' w ↔ openEnd page w := by
  have hle : readopenOff ≤ if w then writeopenOff else readopenOff := by
    cases w <;> decide
  rw [openEnd, openEnd, Bytes.getLE_congr 4 _ fun i hi _ => h i (le_trans hle hi)]

/-! ## fileclose -/

/-- The file `f` is closed. -/
theorem isEnd_close (hnone : y.type = .none) :
    IsEnd (update ft f y) g pi w ↔ g ≠ f ∧ IsEnd ft g pi w := by
  by_cases hgf : g = f
  · rw [hgf, isEnd_update_self, hnone]
    exact ⟨fun h => absurd h.1 (by decide), fun h => absurd rfl h.1⟩
  · rw [isEnd_update_of_ne hgf]
    exact ⟨fun h => ⟨hgf, h⟩, fun h => h.2⟩

/-- The other end of the pipe stays open. -/
theorem PipesOk.close_one {page : Page} (hP : PipesOk ft m) (hf : IsEnd ft f pi w)
    (hnone : y.type = .none) (hopen : openEnd (m pi) (!w)) (hw : ¬ openEnd page w)
    (hw' : openEnd page (!w)) : PipesOk (update ft f y) (update m pi page) ∧
      pipePages (update ft f y) = pipePages ft := by
  have hpi : pi ∈ pipePages ft := mem_pipePages.mpr ⟨f, w, hf⟩
  obtain ⟨g, hg⟩ := (hP.flag pi hpi (!w)).mp hopen
  have hgf : g ≠ f := by
    rintro rfl
    have := hf.2.2.symm.trans hg.2.2
    cases w <;> cases this
  have hpages : pipePages (update ft f y) = pipePages ft := by
    ext pi'
    rw [mem_pipePages, mem_pipePages]
    constructor
    · rintro ⟨k, w', hk⟩
      exact ⟨k, w', ((isEnd_close hnone).mp hk).2⟩
    · rintro ⟨k, w', hk⟩
      by_cases hkf : k = f
      · rw [hkf] at hk
        rw [← hk.2.1, hf.2.1]
        exact ⟨g, !w, (isEnd_close hnone).mpr ⟨hgf, hg⟩⟩
      · exact ⟨k, w', (isEnd_close hnone).mpr ⟨hkf, hk⟩⟩
  refine ⟨⟨fun h k pi' w' hh hk => ?_, fun pi' hpi' w' => ?_⟩, hpages⟩
  · exact hP.unique h k pi' w' ((isEnd_close hnone).mp hh).2 ((isEnd_close hnone).mp hk).2
  · rw [hpages] at hpi'
    by_cases heq : pi' = pi
    · rw [heq, update_self]
      by_cases hww : w' = w
      · rw [hww]
        refine ⟨fun h => absurd h hw, ?_⟩
        rintro ⟨k, hk⟩
        obtain ⟨hkf, hk⟩ := (isEnd_close hnone).mp hk
        exact absurd (hP.unique k f pi w hk hf) hkf
      · have hnot : w' = !w := by
          cases w <;> cases w' <;> trivial
        rw [hnot]
        exact ⟨fun _ => ⟨g, (isEnd_close hnone).mpr ⟨hgf, hg⟩⟩, fun _ => hw'⟩
    · rw [update_of_ne heq, hP.flag pi' hpi' w']
      constructor
      · rintro ⟨k, hk⟩
        refine ⟨k, (isEnd_close hnone).mpr ⟨?_, hk⟩⟩
        rintro rfl
        exact heq (hk.2.1.symm.trans hf.2.1)
      · rintro ⟨k, hk⟩
        exact ⟨k, ((isEnd_close hnone).mp hk).2⟩

/-- Both ends of the pipe are closed. -/
theorem PipesOk.close_both (hP : PipesOk ft m) (page : Page) (hf : IsEnd ft f pi w)
    (hnone : y.type = .none) (hopen : ¬ openEnd (m pi) (!w)) :
    PipesOk (update ft f y) (update m pi page) ∧
      pipePages (update ft f y) = (pipePages ft).erase pi := by
  have hpi : pi ∈ pipePages ft := mem_pipePages.mpr ⟨f, w, hf⟩
  have honly : ∀ k w', IsEnd ft k pi w' → k = f := by
    intro k w' hk
    by_cases hww : w' = w
    · rw [hww] at hk
      exact hP.unique k f pi w hk hf
    · have hnot : w' = !w := by
        cases w <;> cases w' <;> trivial
      rw [hnot] at hk
      exact absurd ((hP.flag pi hpi (!w)).mpr ⟨k, hk⟩) hopen
  have hends : ∀ k pi' w', IsEnd (update ft f y) k pi' w' ↔
      pi' ≠ pi ∧ IsEnd ft k pi' w' := by
    intro k pi' w'
    rw [isEnd_close hnone]
    constructor
    · rintro ⟨hkf, hk⟩
      refine ⟨?_, hk⟩
      rintro rfl
      exact hkf (honly k w' hk)
    · rintro ⟨hne, hk⟩
      refine ⟨?_, hk⟩
      rintro rfl
      exact hne (hk.2.1.symm.trans hf.2.1)
  have hpages : pipePages (update ft f y) = (pipePages ft).erase pi := by
    ext pi'
    rw [Finset.mem_erase, mem_pipePages, mem_pipePages]
    constructor
    · rintro ⟨k, w', hk⟩
      obtain ⟨hne, hk⟩ := (hends k pi' w').mp hk
      exact ⟨hne, k, w', hk⟩
    · rintro ⟨hne, k, w', hk⟩
      exact ⟨k, w', (hends k pi' w').mpr ⟨hne, hk⟩⟩
  refine ⟨⟨fun h k pi' w' hh hk => ?_, fun pi' hpi' w' => ?_⟩, hpages⟩
  · exact hP.unique h k pi' w' ((hends h pi' w').mp hh).2 ((hends k pi' w').mp hk).2
  · rw [hpages] at hpi'
    obtain ⟨hne, hmem⟩ := Finset.mem_erase.mp hpi'
    rw [update_of_ne hne, hP.flag pi' hmem w']
    constructor
    · rintro ⟨k, hk⟩
      exact ⟨k, (hends k pi' w').mpr ⟨hne, hk⟩⟩
    · rintro ⟨k, hk⟩
      exact ⟨k, ((hends k pi' w').mp hk).2⟩

/-- **`fileclose`** drops a reference; with the last one an end of a pipe is closed. -/
theorem fileclose_spec (t : Tab) (extra : Fin NFILE → ℕ) :
    Triple (OwnedIn H L t (bump extra f)) (fileclose L t.ftable f) fun ft s =>
      OwnedIn H L (t.setFiles ft) extra s := by
  refine Triple.of_ownedIn fun As m hG hF hK => ?_
  have href := hF.ref f
  rw [bump_self] at href
  rw [fileclose, if_neg (by omega)]
  refine Triple.ite (fun hmore => Triple.ret fun s hs => ?_) fun hlast => ?_
  · refine OwnedIn.setFtable ⟨As, m, ⟨hG, hF, hs⟩, hK⟩ (isEnd_update_ref _) fun hF => ?_
    refine hF.setFile ?_ (fun k hk => (bump_of_ne extra hk).symm) (fun hzero => ?_) fun p fd hfd =>
      hF.named p fd f hfd
    · rw [bump_self]
      show (t.ftable f).ref - 1 + (extra f + 1) = (t.ftable f).ref + extra f
      omega
    · exact absurd hzero (by show (t.ftable f).ref - 1 ≠ 0; omega)
  · have hclosed : FilesOk
        (t.setFiles (update t.ftable f { t.ftable f with ref := 0, type := .none }))
        extra := by
      refine hF.setFile ?_ (fun k hk => (bump_of_ne extra hk).symm) (fun _ => rfl) fun p fd hfd => ?_
      · rw [bump_self]
        show 0 + (extra f + 1) = (t.ftable f).ref + extra f
        omega
      · -- the call holds the last reference, so no descriptor has one
        have hmore := hF.ref_pos hfd
        rw [bump_self] at hmore
        omega
    have hnone : ({ t.ftable f with ref := 0, type := .none } : OpenFile).type = .none := rfl
    refine Triple.ite (fun hpipe => ?_) fun hnot => Triple.ret fun s hs => ?_
    · have hf : IsEnd t.ftable f (t.ftable f).pipe (t.ftable f).writable := ⟨hpipe, rfl, rfl⟩
      have hpi := mem_pipePages.mpr ⟨f, _, hf⟩
      rw [total_pipe hpi]
      refine Triple.of_fact (fun hnd => ?_) fun s hs => hs.nodup
      have hnotin : (t.ftable f).pipe ∉ base t As m := fun hin =>
        (Multiset.nodup_cons.mp hnd).1 (Multiset.mem_add.mpr (Or.inl hin))
      have hsame : ∀ page : Page, ∀ pa ∈ base t As m,
          update m (t.ftable f).pipe page pa = m pa := by
        intro page pa hpa
        refine update_of_ne ?_ _ _
        rintro rfl
        exact hnotin hpa
      refine Triple.bind pipeclose_spec fun _ => Triple.ret fun s hs => ?_
      rcases hs with ⟨hopen, page, hw, hw', hat⟩ | ⟨hopen, page, hat⟩
      · obtain ⟨hP, hpages⟩ := hG.pipes.close_one hf hnone hopen hw hw'
        refine OwnedIn.of_pipes hK hG.slots (hsame page) hP hclosed ?_
        rw [hpages]
        rw [← total_pipe hpi] at hat
        exact hat
      · obtain ⟨hP, hpages⟩ := hG.pipes.close_both page hf hnone hopen
        refine OwnedIn.of_pipes hK hG.slots (hsame page) hP hclosed ?_
        rw [hpages]
        exact hat
    · refine OwnedIn.setFtable ⟨As, m, ⟨hG, hF, hs⟩, hK⟩ (isEnd_update_none hnot ?_) fun _ => hclosed
      exact fun h => by cases h

/-! ## pipealloc -/

/-- The two files of a new pipe. -/
theorem isEnd_open (r₀ r₁ : ℕ) (hne : f ≠ g) (hf : (ft f).type = .none)
    (hg : (ft g).type = .none) (k : Fin NFILE) (pi' : ℕ) (w : Bool) :
    IsEnd (update (update ft f ⟨.pipe, r₀, true, false, pi⟩) g
      ⟨.pipe, r₁, false, true, pi⟩) k pi' w ↔
      pi' = pi ∧ k = (if w then g else f) ∨ IsEnd ft k pi' w := by
  have hold : ∀ k pi' w, IsEnd ft k pi' w → k ≠ f ∧ k ≠ g := by
    intro k pi' w hk
    constructor
    · rintro rfl
      rw [IsEnd, hf] at hk
      exact absurd hk.1 (by decide)
    · rintro rfl
      rw [IsEnd, hg] at hk
      exact absurd hk.1 (by decide)
  by_cases hkg : k = g
  · rw [hkg, isEnd_update_self]
    constructor
    · rintro ⟨-, rfl, rfl⟩
      exact Or.inl ⟨rfl, rfl⟩
    · rintro (⟨rfl, hw⟩ | hk)
      · cases w
        · exact absurd hw.symm hne
        · exact ⟨rfl, rfl, rfl⟩
      · exact absurd rfl (hold g pi' w hk).2
  · rw [isEnd_update_of_ne hkg]
    by_cases hkf : k = f
    · rw [hkf, isEnd_update_self]
      constructor
      · rintro ⟨-, rfl, rfl⟩
        exact Or.inl ⟨rfl, rfl⟩
      · rintro (⟨rfl, hw⟩ | hk)
        · cases w
          · exact ⟨rfl, rfl, rfl⟩
          · exact absurd hw hne
        · exact absurd rfl (hold f pi' w hk).1
    · rw [isEnd_update_of_ne hkf]
      constructor
      · exact Or.inr
      · rintro (⟨-, hw⟩ | hk)
        · cases w
          · exact absurd hw hkf
          · exact absurd hw hkg
        · exact hk

/-- A new pipe. -/
theorem PipesOk.open (hP : PipesOk ft m) (page : Page) (fw : Bool → Fin NFILE)
    (hpi : pi ∉ pipePages ft) (hpage : ∀ w, openEnd page w)
    (hends : ∀ k pi' w, IsEnd ft' k pi' w ↔ pi' = pi ∧ k = fw w ∨ IsEnd ft k pi' w) :
    PipesOk ft' (update m pi page) ∧ pipePages ft' = insert pi (pipePages ft) := by
  have hfresh : ∀ k w, ¬ IsEnd ft k pi w := fun k w hk => hpi (mem_pipePages.mpr ⟨k, w, hk⟩)
  have hpages : pipePages ft' = insert pi (pipePages ft) := by
    ext pi'
    rw [Finset.mem_insert, mem_pipePages, mem_pipePages]
    constructor
    · rintro ⟨k, w, hk⟩
      rcases (hends k pi' w).mp hk with h | h
      · exact Or.inl h.1
      · exact Or.inr ⟨k, w, h⟩
    · rintro (rfl | ⟨k, w, hk⟩)
      · exact ⟨fw true, true, (hends _ _ _).mpr (Or.inl ⟨rfl, rfl⟩)⟩
      · exact ⟨k, w, (hends _ _ _).mpr (Or.inr hk)⟩
  refine ⟨⟨fun h k pi' w hh hk => ?_, fun pi' hpi' w => ?_⟩, hpages⟩
  · rcases (hends h pi' w).mp hh with ⟨rfl, rfl⟩ | hh
    · rcases (hends k _ w).mp hk with ⟨-, rfl⟩ | hk
      · rfl
      · exact absurd hk (hfresh k w)
    · rcases (hends k pi' w).mp hk with ⟨rfl, rfl⟩ | hk
      · exact absurd hh (hfresh h w)
      · exact hP.unique h k pi' w hh hk
  · by_cases heq : pi' = pi
    · rw [heq, update_self]
      exact ⟨fun _ => ⟨fw w, (hends _ _ _).mpr (Or.inl ⟨rfl, rfl⟩)⟩, fun _ => hpage w⟩
    · rw [hpages] at hpi'
      rw [update_of_ne heq, hP.flag pi' ((Finset.mem_insert.mp hpi').resolve_left heq) w]
      constructor
      · rintro ⟨k, hk⟩
        exact ⟨k, (hends _ _ _).mpr (Or.inr hk)⟩
      · rintro ⟨k, hk⟩
        exact ⟨k, ((hends k pi' w).mp hk).resolve_left fun h => heq h.1⟩

/-- Both ends of a new pipe are open. -/
theorem openEnd_new (page : Page) (w : Bool) :
    openEnd (Bytes.setLE (Bytes.setLE (Bytes.setLE (Bytes.setLE page readopenOff 4 1)
      writeopenOff 4 1) nwriteOff 4 0) nreadOff 4 0) w := by
  have hoff : writeopenOff ≤ writeopenOff ∧ nreadOff + 4 ≤ nwriteOff ∧
      nwriteOff + 4 ≤ readopenOff ∧ readopenOff + 4 ≤ writeopenOff := by decide
  cases w
  · show Bytes.getLE _ readopenOff 4 ≠ 0
    rw [Bytes.getLE_setLE_other _ _ _ _ _ _ (by omega),
      Bytes.getLE_setLE_other _ _ _ _ _ _ (by omega),
      Bytes.getLE_setLE_other _ _ _ _ _ _ (by omega), Bytes.getLE_setLE_same]
    decide
  · show Bytes.getLE _ writeopenOff 4 ≠ 0
    rw [Bytes.getLE_setLE_other _ _ _ _ _ _ (by omega),
      Bytes.getLE_setLE_other _ _ _ _ _ _ (by omega), Bytes.getLE_setLE_same]
    decide

/-- **`pipealloc`** makes a pipe and holds a reference to each of its files, or leaves
the account as it was. -/
theorem pipealloc_spec : Triple (OwnedIn H L t extra) (pipealloc L t.ftable) fun res s =>
    match res.2 with
    | none => OwnedIn H L (t.setFiles res.1) extra s
    | some (f0, f1) => ((res.1 f0).type ≠ .none ∧ (res.1 f1).type ≠ .none) ∧
      OwnedIn H L (t.setFiles res.1) (bump (bump extra f0) f1) s := by
  unfold pipealloc
  cases h0 : filealloc t.ftable with
  | none => exact Triple.ret fun s hs => hs
  | some res =>
    obtain ⟨ft, f0⟩ := res
    refine Triple.of_fact (fun hfacts => ?_) fun s hs => (filealloc_owned h0 hs).2
    refine Triple.pre ?_ fun s hs => (filealloc_owned h0 hs).1
    obtain ⟨hone, htype⟩ := hfacts
    dsimp only
    cases h1 : filealloc ft with
    | none =>
      refine Triple.bind (fileclose_spec (t.setFiles ft) extra) fun ft' => ?_
      exact Triple.ret fun s hs => hs
    | some res =>
      obtain ⟨ft₁, f1⟩ := res
      have halloc : ∀ s, OwnedIn H L (t.setFiles ft) (bump extra f0) s → _ := fun s hs =>
        filealloc_owned (t := t.setFiles ft) h1 hs
      refine Triple.of_fact (fun hfacts => ?_) fun s hs => (halloc s hs).2
      refine Triple.pre ?_ fun s hs => (halloc s hs).1
      obtain ⟨hone₁, htype₁⟩ := hfacts
      obtain ⟨hzero, hft₁⟩ := filealloc_some h1
      have hne : f0 ≠ f1 := by
        rintro rfl
        omega
      have hf0 : ft₁ f0 = ft f0 := by
        rw [hft₁, update_of_ne hne]
      have htype₀ : (ft₁ f0).type = .none := hf0 ▸ htype
      refine Triple.of_ownedIn fun As m hG hF hK => ?_
      refine Triple.bind kalloc_spec fun o => ?_
      cases o with
      | none =>
        have howned : ∀ s, At L m (total (t.setFiles ft₁) As m) s →
            OwnedIn H L (t.setFiles ft₁) (bump (bump extra f1) f0) s := fun s hs =>
          bump_comm extra f0 f1 ▸ ⟨As, m, ⟨hG, hF, hs⟩, hK⟩
        refine Triple.bind ((fileclose_spec (t.setFiles ft₁) (bump extra f1)).pre howned) fun ft₂ => ?_
        refine Triple.bind (fileclose_spec (t.setFiles ft₂) extra) fun ft₃ => ?_
        exact Triple.ret fun s hs => hs
      | some pi =>
        refine Triple.of_and fun hfresh => ?_
        refine Triple.bind writeInt_spec fun _ => ?_
        refine Triple.bind writeInt_spec fun _ => ?_
        refine Triple.bind writeInt_spec fun _ => ?_
        refine Triple.bind writeInt_spec fun _ => ?_
        simp only [update_idem, update_self]
        refine Triple.ret fun s hs => ?_
        have hpi : pi ∉ pipePages ft₁ := fun hin => hfresh (Multiset.mem_add.mpr (Or.inr hin))
        have hsame : ∀ page : Page, ∀ pa ∈ base (t.setFiles ft₁) As m,
            update m pi page pa = m pa := by
          intro page pa hpa
          refine update_of_ne ?_ _ _
          rintro rfl
          exact hfresh (Multiset.mem_add.mpr (Or.inl hpa))
        obtain ⟨hP, hpages⟩ := hG.pipes.open _ (fun w => if w then f1 else f0) hpi
          (openEnd_new fun _ => 5) (isEnd_open _ _ hne htype₀ htype₁)
        refine ⟨⟨?_, ?_⟩, OwnedIn.of_pipes (hK.of_proc rfl) hG.slots (hsame _) hP ?_ ?_⟩
        · dsimp only
          rw [update_of_ne hne, update_self]
          exact fun h => by cases h
        · dsimp only
          rw [update_self]
          exact fun h => by cases h
        · have h₀ := hF.retype (f := f0) (y := ⟨.pipe, (ft₁ f0).ref, true, false, pi⟩) rfl
            (by rw [hf0, hone]; decide) (fun h => by cases h)
          refine h₀.retype (f := f1) rfl ?_ fun h => by cases h
          rw [update_of_ne hne.symm, hone₁]
          decide
        · change _ = insert pi (pipePages ft₁) at hpages
          have htotal : pi ::ₘ total ((t.setFiles ft).setFiles ft₁) As m
              = base t As m + (insert pi (pipePages ft₁)).val := by
            rw [Finset.insert_val_of_notMem hpi, Multiset.add_cons]
            rfl
          rw [htotal, ← hpages] at hs
          exact hs

end Calls

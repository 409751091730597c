/-
# The inode table during a call

What `iget`, `idup`, `ilock`, `iput`, `ialloc` and the updates of an inode do to the
invariant of a running call: which references the call holds afterwards, and what has
happened to the disk.
-/
import Xv6.FsInv

namespace Fs

open Function
open Calls (first)
open Hoare

variable {sb : Superblock} {w : Prop} {g : Watch} {o : ℕ} {H B : Multiset Ip} {e ip : Ip} {s t u : State}

variable {n inum : ℕ} {p : Fin n → Bool}

theorem first_some {i : Fin n} (h : first p = some i) : p i = true :=
  List.find?_some h

theorem first_none (h : first p = none) (i : Fin n) : p i = false := by
  simpa using List.find?_eq_none.mp h i (List.mem_finRange i)

/-- The disk is the same. -/
structure SameDisk (s t : State) : Prop where
  dinode : t.dinode = s.dinode
  bitmap : t.bitmap = s.bitmap
  block : t.block = s.block

theorem SameDisk.refl (s : State) : SameDisk s s := ⟨rfl, rfl, rfl⟩

theorem SameDisk.trans (h : SameDisk s t) (h' : SameDisk t u) : SameDisk s u :=
  ⟨h'.dinode.trans h.dinode, h'.bitmap.trans h.bitmap, h'.block.trans h.block⟩

/-! ## Taking references -/

/-- What `iget` does: one more reference to the entry of the inode, which may be a new
one. -/
structure Got (inum : ℕ) (ip : Ip) (s t : State) : Prop where
  state : ∃ x : Inode, t = { s with itable := update s.itable ip x } ∧
    x.inum = inum ∧ x.ref = (s.itable ip).ref + 1 ∧
    ((0 < (s.itable ip).ref ∧ (s.itable ip).inum = inum ∧ x.valid = (s.itable ip).valid ∧
        x.d = (s.itable ip).d) ∨
      ((s.itable ip).ref = 0 ∧ x.valid = false ∧
        ∀ e, 0 < (s.itable e).ref → (s.itable e).inum ≠ inum))

theorem iget_got (inum : ℕ) (s : State) : Ends (iget inum s) (fun ip t => Got inum ip s t)
      fun msg t => msg = "iget: no inodes" ∧ t = s ∧ ∀ e, (s.itable e).ref ≠ 0 := by
  unfold iget
  rw [bind_of_ok (rfl : findInode inum s = .ok _ s)]
  cases hfind : first fun ip => decide (0 < (s.itable ip).ref ∧ (s.itable ip).inum = inum) with
  | some ip =>
    have hip := first_some hfind
    simp only [decide_eq_true_eq] at hip
    exact ⟨_, rfl, hip.2, rfl, Or.inl ⟨hip.1, hip.2, rfl, rfl⟩⟩
  | none =>
    cases hfree : first fun ip => decide ((s.itable ip).ref = 0) with
    | none => exact ⟨rfl, rfl, fun e => by simpa using first_none hfree e⟩
    | some ip =>
      have hip := first_some hfree
      simp only [decide_eq_true_eq] at hip
      refine ⟨_, rfl, rfl, by rw [hip]; rfl, Or.inr ⟨hip, rfl, ?_⟩⟩
      intro e hpos heq
      have := first_none hfind e
      simp only [decide_eq_false_iff_not] at this
      exact this ⟨hpos, heq⟩

theorem Got.sameDisk (h : Got inum ip s t) : SameDisk s t := by
  obtain ⟨x, rfl, -⟩ := h.state
  exact ⟨rfl, rfl, rfl⟩

theorem Got.inum_eq (h : Got inum ip s t) : (t.itable ip).inum = inum := by
  obtain ⟨x, rfl, hx, -⟩ := h.state
  simpa using hx

theorem Got.of_ne (h : Got inum ip s t) (he : e ≠ ip) : t.itable e = s.itable e := by
  obtain ⟨x, rfl, -⟩ := h.state
  exact update_of_ne he _ _

/-- An entry that was in use stands for the same inode. -/
theorem Got.of_pos (h : Got inum ip s t) (he : 0 < (s.itable e).ref) :
    (t.itable e).inum = (s.itable e).inum ∧ (t.itable e).valid = (s.itable e).valid ∧
      (t.itable e).d = (s.itable e).d := by
  obtain ⟨x, rfl, hinum, -, hcase⟩ := h.state
  by_cases hee : e = ip
  · subst hee
    rcases hcase with ⟨-, h1, h2, h3⟩ | ⟨h0, -⟩
    · simp [hinum, h1, h2, h3]
    · omega
  · simp [hee]

/-- **After `iget`** the call holds one more reference. -/
theorem Inv.got (h : Inv sb w g o H s) (hgot : Got inum ip s t)
    (hg : g → (s.dinode inum).type ≠ 0) : Inv sb w g o (ip ::ₘ H) t ∧ Keeps H s t := by
  have hdisk := hgot.sameDisk
  obtain ⟨x, ht, hinum, href, hcase⟩ := hgot.state
  refine ⟨⟨?_, ?_, h.gw, fun hw => ?_, fun hg' => ?_⟩, ?_⟩
  · refine h.refs.of_table (by rw [ht]) (by rw [ht]) fun e => ?_
    rw [Multiset.count_cons, ht]
    by_cases he : e = ip
    · subst he
      simp only [update_self, if_true, href]
      push_cast
      ring
    · simp [he]
  · rw [ht]
    exact h.op
  · have hgood := h.good hw
    have hold : ∀ e, 0 < (t.itable e).ref → (t.itable e).valid = true → 0 < (s.itable e).ref := by
      -- a new entry is not valid
      intro e he hv
      by_cases hee : e = ip
      · subst hee
        rcases hcase with ⟨hpos, -⟩ | ⟨-, hfalse, -⟩
        · exact hpos
        · rw [ht] at hv
          simp [hfalse] at hv
      · rw [hgot.of_ne hee] at he
        exact he
    refine ⟨hgood.fits, ?_, ?_, ?_, by rw [hdisk.dinode, hdisk.bitmap, hdisk.block]; exact hgood.sound,
      by rw [hdisk.dinode, hdisk.block]; exact hgood.whole⟩
    · have hother : ∀ e, e ≠ ip → 0 < (s.itable e).ref → (s.itable e).inum ≠ inum := by
        intro e he hpos heq
        rcases hcase with ⟨hpos', heq', -⟩ | ⟨-, -, hnone⟩
        · exact he (hgood.unique e ip hpos hpos' (heq.trans heq'.symm))
        · exact hnone e hpos heq
      intro e1 e2 h1 h2 heq
      by_cases he1 : e1 = ip <;> by_cases he2 : e2 = ip
      · rw [he1, he2]
      · rw [he1, hgot.inum_eq, hgot.of_ne he2] at heq
        rw [hgot.of_ne he2] at h2
        exact absurd heq.symm (hother e2 he2 h2)
      · rw [he2, hgot.inum_eq, hgot.of_ne he1] at heq
        rw [hgot.of_ne he1] at h1
        exact absurd heq (hother e1 he1 h1)
      · rw [hgot.of_ne he1, hgot.of_ne he2] at heq
        rw [hgot.of_ne he1] at h1
        rw [hgot.of_ne he2] at h2
        exact hgood.unique e1 e2 h1 h2 heq
    · intro e he hv
      have hpos := hold e he hv
      obtain ⟨h1, h2, h3⟩ := hgot.of_pos hpos
      rw [hdisk.dinode, h1, h3]
      exact hgood.clean e hpos (h2.symm.trans hv)
    · intro e he hv
      have hpos := hold e he hv
      obtain ⟨-, h2, h3⟩ := hgot.of_pos hpos
      rw [h3]
      exact hgood.typed e hpos (h2.symm.trans hv)
  · have hlive := h.live hg'
    refine ⟨?_, ?_, ?_, ?_⟩
    · intro e he
      rw [hdisk.dinode]
      by_cases hee : e = ip
      · rw [hee, hgot.inum_eq]
        exact hg hg'
      · rw [hgot.of_ne hee] at he ⊢
        exact hlive.alloc e he
    · intro f hpos hf hwr
      have hft : t.ftable = s.ftable := by rw [ht]
      rw [hft] at hpos hf hwr ⊢
      have hpos' := h.refs.pos_of_file hpos (Or.inl hf)
      rw [hdisk.dinode, (hgot.of_pos hpos').1]
      exact hlive.files f hpos hf hwr
    · rw [ht]
      exact hlive.sure
    · rw [ht]
      exact hlive.saved
  · refine ⟨by rw [ht], by rw [ht], fun e he => ?_⟩
    obtain ⟨h1, h2, -⟩ := hgot.of_pos (h.refs.pos_of_kept he)
    exact ⟨h1, fun hv => h2.trans hv⟩

theorem idup_got (hpos : 0 < (s.itable ip).ref) :
    ∃ t, idup ip s = .ok () t ∧ Got (s.itable ip).inum ip s t :=
  ⟨_, rfl, _, rfl, rfl, rfl, Or.inl ⟨hpos, rfl, rfl, rfl⟩⟩

/-! ## Locking -/

/-- The entry has been read from the disk, if it was not valid. -/
structure Loaded (e : Ip) (s t : State) : Prop where
  disk : SameDisk s t
  ftable : t.ftable = s.ftable
  proc : t.proc = s.proc
  outstanding : t.outstanding = s.outstanding
  dangled : t.dangled = s.dangled
  commits : t.commits = s.commits
  others : ∀ e', e' ≠ e → t.itable e' = s.itable e'
  inum : (t.itable e).inum = (s.itable e).inum
  ref : (t.itable e).ref = (s.itable e).ref
  valid : (t.itable e).valid = true
  copy : t.itable e = s.itable e ∨ (t.itable e).d = s.dinode (s.itable e).inum ∧
    (s.dinode (s.itable e).inum).type ≠ 0

theorem Loaded.ref_eq (h : Loaded e s t) (e' : Ip) : (t.itable e').ref = (s.itable e').ref := by
  by_cases he : e' = e
  · rw [he, h.ref]
  · rw [h.others e' he]

theorem Loaded.inum_eq (h : Loaded e s t) (e' : Ip) : (t.itable e').inum = (s.itable e').inum := by
  by_cases he : e' = e
  · rw [he, h.inum]
  · rw [h.others e' he]

theorem Loaded.keeps (h : Loaded e s t) (H : Multiset Ip) : Keeps H s t := by
  refine ⟨h.ftable, h.proc, fun e' _ => ?_⟩
  refine ⟨h.inum_eq e', fun hv => ?_⟩
  by_cases he : e' = e
  · rw [he]
    exact h.valid
  · rw [h.others e' he]
    exact hv

theorem Inv.loaded (h : Inv sb w g o H s) (hl : Loaded e s t) : Inv sb w g o H t where
  refs := h.refs.of_table hl.ftable hl.proc fun e' => by rw [hl.ref_eq]
  op := hl.outstanding.trans h.op
  gw := h.gw
  good hw := by
    have hgood := h.good hw
    refine ⟨hgood.fits, ?_, ?_, ?_,
      by rw [hl.disk.dinode, hl.disk.bitmap, hl.disk.block]; exact hgood.sound,
      by rw [hl.disk.dinode, hl.disk.block]; exact hgood.whole⟩
    · intro e1 e2 h1 h2 heq
      rw [hl.ref_eq] at h1 h2
      rw [hl.inum_eq, hl.inum_eq] at heq
      exact hgood.unique e1 e2 h1 h2 heq
    · intro e' hpos hv
      rw [hl.ref_eq] at hpos
      rw [hl.disk.dinode, hl.inum_eq]
      by_cases he : e' = e
      · subst he
        rcases hl.copy with hsame | ⟨hd, -⟩
        · rw [hsame] at hv ⊢
          exact hgood.clean e' hpos hv
        · exact hd.symm
      · rw [hl.others e' he] at hv ⊢
        exact hgood.clean e' hpos hv
    · intro e' hpos hv
      rw [hl.ref_eq] at hpos
      by_cases he : e' = e
      · subst he
        rcases hl.copy with hsame | ⟨hd, htype⟩
        · rw [hsame] at hv ⊢
          exact hgood.typed e' hpos hv
        · rw [hd]
          exact htype
      · rw [hl.others e' he] at hv ⊢
        exact hgood.typed e' hpos hv
  live hg := by
    have hlive := h.live hg
    refine ⟨?_, ?_, hl.dangled.trans hlive.sure, by rw [hl.commits]; exact hlive.saved⟩
    · intro e' hpos
      rw [hl.ref_eq] at hpos
      rw [hl.disk.dinode, hl.inum_eq]
      exact hlive.alloc e' hpos
    · intro f hpos hf hwr
      rw [hl.ftable] at hpos hf hwr ⊢
      rw [hl.disk.dinode, hl.inum_eq]
      exact hlive.files f hpos hf hwr

/-- The lock of an entry is free, and is taken. -/
theorem acquiresleep_ends (h : Inv sb w g o H s) :
    Ends (acquiresleep e s) (fun _ t => s.locked e = false ∧
      t = { s with locked := update s.locked e true }) (Fine w g) := by
  unfold acquiresleep
  by_cases hl : s.locked e = true
  · rw [if_pos hl]
    exact h.fine (by decide)
  · rw [if_neg hl]
    exact ⟨by simpa using hl, rfl⟩

/-- **`ilock`** of an entry in use. -/
theorem ilock_ends (h : Inv sb w g o H s) (hpos : 0 < (s.itable e).ref) :
    Ends (ilock e s) (fun _ t => Inv sb w g o H t ∧ Loaded e s t) (Fine w g) := by
  unfold ilock
  rw [inode_bind, if_neg (by omega)]
  apply (acquiresleep_ends h).bind
  rintro _ t ⟨-, ht⟩
  by_cases hv : (s.itable e).valid = true
  · rw [if_pos hv, ht]
    refine ⟨h.aside _ _, ⟨⟨rfl, rfl, rfl⟩, rfl, rfl, rfl, rfl, rfl, fun _ _ => rfl, rfl, rfl, hv,
      Or.inl rfl⟩⟩
  · rw [if_neg hv, ht, bind_of_ok (rfl : dinode _ _ = .ok _ _),
      bind_of_ok (rfl : setInode e _ _ = .ok () _)]
    by_cases htype : (s.dinode (s.itable e).inum).type = 0
    · rw [if_pos (by exact htype)]
      refine ⟨fun _ => by decide, fun hg => absurd htype ?_⟩
      exact (h.live hg).alloc e hpos
    · rw [if_neg (by exact htype)]
      have hl : Loaded e s { s with
          locked := update s.locked e true
          itable := update s.itable e
            { s.itable e with d := s.dinode (s.itable e).inum, valid := true } } := by
        constructor
        case others => exact fun e' he' => update_of_ne he' _ _
        case copy => exact Or.inr ⟨by simp, htype⟩
        case disk => exact ⟨rfl, rfl, rfl⟩
        all_goals simp
      exact ⟨h.loaded hl, hl⟩

/-- **`iunlock`** of an entry in use, if it is locked. -/
theorem iunlock_ends (h : Inv sb w g o H s) (hpos : 0 < (s.itable e).ref) :
    Ends (iunlock e s)
      (fun _ t => t = { s with locked := update s.locked e false }) (Fine w g) := by
  unfold iunlock
  rw [inode_bind, bind_of_ok (rfl : holdingsleep e s = .ok _ s)]
  by_cases hl : s.locked e = false
  · rw [if_pos (Or.inl hl)]
    exact h.fine (by decide)
  · rw [if_neg (by rw [not_or]; exact ⟨hl, by omega⟩)]
    exact rfl

/-! ## Dropping references -/

/-- A function on the content of an inode: what it leaves alone, and what it does on a
consistent disk. -/
theorem ends_of_body {α : Type} {c : FsM α} {Q : α → State → Prop} (hgw : g → w)
    (hbody : OnBody e c) (hok : w → ∃ a t, c s = .ok a t ∧ Q a t) :
    Ends (c s) (fun a t => Body e s t ∧ (w → Q a t)) (Fine w g) := by
  by_cases hw : w
  · obtain ⟨a, t, hrun, hQ⟩ := hok hw
    rw [hrun]
    exact ⟨hbody.ok hrun, fun _ => hQ⟩
  · refine (hbody s).imp (fun a t hb => ⟨hb, fun h => absurd h hw⟩) fun msg t _ => ?_
    exact ⟨fun h => absurd h hw, fun h => absurd (hgw h) hw⟩

/-- The inode of an entry has been freed. -/
structure Freed (ip : Ip) (s t : State) : Prop where
  block : t.block = s.block
  type : (t.dinode (s.itable ip).inum).type = 0
  other : ∀ i, i ≠ (s.itable ip).inum → t.dinode i = s.dinode i

/-- The last reference to an inode without links. -/
def LastRef (ip : Ip) (s : State) : Prop :=
  (s.itable ip).ref = 1 ∧ (s.itable ip).valid = true ∧ (s.itable ip).d.nlink = 0

/-- What `iput` has done to the disk. -/
structure PutDisk (ip : Ip) (s t : State) : Prop where
  freed : LastRef ip s → Freed ip s t
  same : ¬ LastRef ip s → SameDisk s t

/-- The reference is given back without more. -/
theorem Inv.drop (h : Inv sb w g o (ip ::ₘ B) s) (ht : t = { s with
      itable := update s.itable ip
        { s.itable ip with ref := (s.itable ip).ref - 1 } }) :
    Inv sb w g o B t ∧ Keeps B s t := by
  have hother : ∀ e, e ≠ ip → t.itable e = s.itable e := by
    intro e he
    rw [ht]
    exact update_of_ne he _ _
  have hfields : ∀ e, (t.itable e).inum = (s.itable e).inum ∧
      (t.itable e).valid = (s.itable e).valid ∧ (t.itable e).d = (s.itable e).d ∧
      (t.itable e).ref ≤ (s.itable e).ref := by
    intro e
    by_cases he : e = ip
    · rw [he, ht]
      simp
    · rw [hother e he]
      simp
  have hpos : ∀ {e}, 0 < (t.itable e).ref → 0 < (s.itable e).ref := fun {e} he =>
    lt_of_lt_of_le he (hfields e).2.2.2
  refine ⟨⟨?_, ?_, h.gw, fun hw => ?_, fun hg => ?_⟩, ?_⟩
  · refine h.refs.of_table (by rw [ht]) (by rw [ht]) fun e => ?_
    rw [Multiset.count_cons]
    by_cases he : e = ip
    · rw [he, ht]
      simp only [update_self, if_true]
      push_cast
      ring
    · rw [hother e he, if_neg he, Nat.add_zero]
  · rw [ht]
    exact h.op
  · have hgood := h.good hw
    refine ⟨hgood.fits, ?_, ?_, ?_, by rw [ht]; exact hgood.sound, by rw [ht]; exact hgood.whole⟩
    · intro e1 e2 h1 h2 heq
      rw [(hfields e1).1, (hfields e2).1] at heq
      exact hgood.unique e1 e2 (hpos h1) (hpos h2) heq
    · intro e he hv
      obtain ⟨h1, h2, h3, -⟩ := hfields e
      rw [h1, h3, show t.dinode = s.dinode by rw [ht]]
      exact hgood.clean e (hpos he) (h2.symm.trans hv)
    · intro e he hv
      obtain ⟨-, h2, h3, -⟩ := hfields e
      rw [h3]
      exact hgood.typed e (hpos he) (h2.symm.trans hv)
  · have hlive := h.live hg
    refine ⟨?_, ?_, by rw [ht]; exact hlive.sure, by rw [ht]; exact hlive.saved⟩
    · intro e he
      rw [(hfields e).1, show t.dinode = s.dinode by rw [ht]]
      exact hlive.alloc e (hpos he)
    · intro f hf
      rw [show t.ftable = s.ftable by rw [ht], show t.dinode = s.dinode by rw [ht],
        (hfields _).1] at *
      exact hlive.files f hf
  · refine ⟨by rw [ht], by rw [ht], fun e _ => ?_⟩
    obtain ⟨h1, h2, -⟩ := hfields e
    exact ⟨h1, fun hv => h2.trans hv⟩

/-- The last reference is given back and the inode freed. -/
theorem Inv.free (h : Inv sb w g o (ip ::ₘ B) s) (hlast : LastRef ip s) (hbody : Body ip s t)
    (hok : w → t.block = s.block ∧ (t.dinode (s.itable ip).inum).type = 0 ∧
      Sound sb t.dinode t.bitmap t.block)
    {l : Ip → Bool} (hu : u = { t with
      locked := l
      itable := update t.itable ip
        { t.itable ip with valid := false, ref := (t.itable ip).ref - 1 } }) :
    Inv sb w g o B u ∧ Keeps B s u ∧ (w → Freed ip s u) := by
  have hother : ∀ e, e ≠ ip → u.itable e = s.itable e := by
    intro e he
    rw [hu, ← hbody.others e he]
    exact update_of_ne he _ _
  have href : (u.itable ip).ref = 0 := by
    rw [hu]
    simp [hbody.ref, hlast.1]
  have hinum : ∀ e, (u.itable e).inum = (s.itable e).inum := by
    intro e
    by_cases he : e = ip
    · rw [he, hu]
      simp [hbody.inum]
    · rw [hother e he]
  have hne : ∀ {e}, 0 < (u.itable e).ref → e ≠ ip := by
    rintro e he rfl
    omega
  have hdisk : ∀ i, i ≠ (s.itable ip).inum → u.dinode i = s.dinode i := by
    intro i hi
    rw [hu]
    exact hbody.disk i hi
  refine ⟨⟨?_, ?_, h.gw, fun hw => ?_, fun hg => ?_⟩, ?_, fun hw => ?_⟩
  · refine h.refs.of_table (by rw [hu]; exact hbody.ftable) (by rw [hu]; exact hbody.proc)
      fun e => ?_
    rw [Multiset.count_cons]
    by_cases he : e = ip
    · rw [he, href, hlast.1, if_pos rfl]
      push_cast
      ring
    · rw [hother e he, if_neg he, Nat.add_zero]
  · rw [hu]
    exact hbody.outstanding.trans h.op
  · have hgood := h.good hw
    obtain ⟨hblock, htype, hsound⟩ := hok hw
    -- another entry in use is of another inode
    have hapart : ∀ {e}, 0 < (u.itable e).ref → 0 < (s.itable e).ref ∧
        (s.itable e).inum ≠ (s.itable ip).inum := by
      intro e he
      have hee := hne he
      rw [hother e hee] at he
      refine ⟨he, fun heq => hee (hgood.unique e ip he ?_ heq)⟩
      rw [hlast.1]
      decide
    refine ⟨hgood.fits, ?_, ?_, ?_, by rw [hu]; exact hsound, ?_⟩
    · intro e1 e2 h1 h2 heq
      rw [hinum, hinum] at heq
      exact hgood.unique e1 e2 (hapart h1).1 (hapart h2).1 heq
    · intro e he hv
      obtain ⟨hpos, hin⟩ := hapart he
      rw [hinum, hdisk _ hin]
      rw [hother e (hne he)] at hv ⊢
      exact hgood.clean e hpos hv
    · intro e he hv
      rw [hother e (hne he)] at hv ⊢
      exact hgood.typed e (hapart he).1 hv
    · intro i hi j hj
      by_cases hii : i = (s.itable ip).inum
      · rw [hii, hu] at hi
        exact absurd htype hi
      · rw [hdisk i hii] at hi hj ⊢
        rw [show u.block = s.block by rw [hu]; exact hblock]
        exact hgood.whole i hi j hj
  · have hlive := h.live hg
    obtain ⟨-, htype, -⟩ := hok (h.gw hg)
    have hgood := h.good (h.gw hg)
    refine ⟨?_, ?_, ?_, ?_⟩
    · intro e he
      have hee := hne he
      rw [hother e hee] at he ⊢
      have hin : (s.itable e).inum ≠ (s.itable ip).inum := fun heq =>
        hee (hgood.unique e ip he (by rw [hlast.1]; decide) heq)
      rw [hdisk _ hin]
      exact hlive.alloc e he
    · intro f hpos hf hwr
      have hft : u.ftable = s.ftable := by rw [hu]; exact hbody.ftable
      rw [hft] at hpos hf hwr ⊢
      rw [hinum]
      by_cases hin : (s.itable (s.ftable f).ip).inum = (s.itable ip).inum
      · rw [hin, hu, htype]
        decide
      · rw [hdisk _ hin]
        exact hlive.files f hpos hf hwr
    · rw [hu]
      exact hbody.dangled.trans hlive.sure
    · rw [hu]
      exact hbody.commits.symm ▸ hlive.saved
  · refine ⟨by rw [hu]; exact hbody.ftable, by rw [hu]; exact hbody.proc, fun e he => ?_⟩
    have hee : e ≠ ip := by
      -- there is no other reference than the one that is dropped
      rintro rfl
      have h1 := h.refs.exact e
      rw [Multiset.count_cons_self, hlast.1] at h1
      rcases he with he | he
      · have h2 := Multiset.count_pos.mpr he
        omega
      · omega
    rw [hother e hee]
    exact ⟨rfl, id⟩
  · obtain ⟨hblock, htype, -⟩ := hok hw
    exact ⟨by rw [hu]; exact hblock, by rw [hu]; exact htype, hdisk⟩

/-- **`iput`** gives back one reference. -/
theorem iput_ends (h : Inv sb w g o (ip ::ₘ B) s) (ho : w → 1 ≤ o) :
    Ends (iput ip s) (fun _ t => Inv sb w g o B t ∧ Keeps B s t ∧ (w → PutDisk ip s t))
      (Fine w g) := by
  have hpos := h.refs.pos_of_mem (Multiset.mem_cons_self ip B)
  unfold iput
  rw [inode_bind]
  by_cases hlast : (s.itable ip).ref = 1 ∧ (s.itable ip).valid = true ∧ (s.itable ip).d.nlink = 0
  · rw [if_pos hlast]
    apply (acquiresleep_ends h).bind
    rintro _ x ⟨-, hx⟩
    have hx' : Inv sb w g o (ip ::ₘ B) x := by
      rw [hx]
      exact h.aside _ _
    have hit : x.itable = s.itable := by rw [hx]
    have hrun : w → ∃ a t, ifree ip x = .ok a t ∧ t.block = x.block ∧
        (t.dinode (x.itable ip).inum).type = 0 ∧ Sound sb t.dinode t.bitmap t.block := by
      intro hw
      obtain ⟨t, hrun, hfree⟩ := ifree_ok
        ((hx'.good hw).work (by rw [hit]; exact hpos) (by rw [hit]; exact hlast.2.1)
          (by rw [hx'.op]; exact ho hw))
      exact ⟨(), t, hrun, hfree⟩
    apply (ends_of_body h.gw ifree_onBody hrun).bind
    rintro _ t ⟨hbody, hok⟩
    obtain ⟨hinv, hkeeps, hfreed⟩ := hx'.free (by rw [LastRef, hit]; exact hlast) hbody hok rfl
    refine ⟨hinv, hkeeps.before hit (by rw [hx]) (by rw [hx]), fun hw =>
      ⟨fun _ => ?_, fun hn => absurd hlast hn⟩⟩
    obtain ⟨hblock, htype, hother⟩ := hfreed hw
    rw [hx] at hblock htype hother
    exact ⟨hblock, htype, hother⟩
  · rw [if_neg hlast]
    obtain ⟨hinv, hkeeps⟩ := h.drop rfl
    exact ⟨hinv, hkeeps, fun _ => ⟨fun hl => absurd hl hlast, fun _ => ⟨rfl, rfl, rfl⟩⟩⟩

theorem iunlockput_ends (h : Inv sb w g o (ip ::ₘ B) s) (ho : w → 1 ≤ o) :
    Ends (iunlockput ip s) (fun _ t => Inv sb w g o B t ∧ Keeps B s t ∧ (w → PutDisk ip s t))
      (Fine w g) := by
  unfold iunlockput
  apply (iunlock_ends h (h.refs.pos_of_mem (Multiset.mem_cons_self ip B))).bind
  rintro _ _ rfl
  apply (iput_ends (h.aside _ _) ho).post
  rintro _ t ⟨hinv, hkeeps, hput⟩
  refine ⟨hinv, hkeeps.before rfl rfl rfl, fun hw => ⟨fun hlast => ?_, fun hlast => ?_⟩⟩
  · obtain ⟨hblock, htype, hother⟩ := (hput hw).freed hlast
    exact ⟨hblock, htype, hother⟩
  · obtain ⟨hD, hbm, hblk⟩ := (hput hw).same hlast
    exact ⟨hD, hbm, hblk⟩

end Fs

/-
# Changing inodes during a call

What `readi`, `writei`, `itrunc`, `ialloc` and the updates of link counts do to the
invariant of a running call.
-/
import Xv6.FsTable

namespace Fs

open Function Hoare
open Itable (CShort)

variable {sb : Superblock} {w : Prop} {g : Watch} {o : ℕ} {H : Multiset Ip} {e ip : Ip} {s t : State}

theorem Inv.body (h : Inv sb w g o H s) (hb : Body e s t) (hgood : w → Consistent sb t)
    (hlive : g → Live g.lost t) : Inv sb w g o H t :=
  ⟨h.refs.body hb, hb.outstanding.trans h.op, h.gw, hgood, hlive⟩

/-! ## The content of an inode -/

/-- **`readi`** changes nothing on a consistent disk. -/
theorem readi_ends (h : Inv sb w g o H s) (hpos : 0 < (s.itable e).ref)
    (hv : w → (s.itable e).valid = true) (ok : ℕ → Bool) (off n : ℕ) :
    Ends (readi sb e ok off n s) (fun _ t => Inv sb w g o H t ∧ Body e s t ∧ (w → t = s))
      (Fine w g) := by
  have hrun : w → ∃ a t, readi sb e ok off n s = .ok a t ∧ t = s := by
    intro hw
    obtain ⟨r, bs, hrun⟩ := readi_ok sb ok off n ((h.good hw).has hpos (hv hw))
    exact ⟨_, s, hrun, rfl⟩
  apply (ends_of_body h.gw (readi_onBody sb ok off n) hrun).post
  rintro _ t ⟨hbody, hsame⟩
  refine ⟨h.body hbody (fun hw => ?_) fun hg => ?_, hbody, hsame⟩
  · rw [hsame hw]
    exact h.good hw
  · rw [hsame (h.gw hg)]
    exact h.live hg

/-- What `writei` has done: nothing, or a write. -/
def WriteDone (sb : Superblock) (e : Ip) (src : ℕ → Option UInt8) (off n : ℕ) (s : State) (r : ℤ)
    (t : State) : Prop :=
  (r = -1 ∧ t = s ∧ ((s.itable e).d.size < off ∨ 2 ^ 32 ≤ off + n ∨ MAXFILE * BSIZE < off + n)) ∨
    ∃ m : ℕ, r = m ∧ Saved sb e src off n s m t

/-- **`writei`** keeps the disk consistent. -/
theorem writei_ends (h : Inv sb w g o H s) (ho : w → 1 ≤ o) (hpos : 0 < (s.itable e).ref)
    (hv : w → (s.itable e).valid = true) (src : ℕ → Option UInt8) (off n : ℕ) :
    Ends (writei sb e src off n s)
      (fun r t => Inv sb w g o H t ∧ Body e s t ∧ (w → WriteDone sb e src off n s r t))
      (Fine w g) := by
  have hrun : w → ∃ r t, writei sb e src off n s = .ok r t ∧ WriteDone sb e src off n s r t := by
    intro hw
    have hgood := h.good hw
    rcases writei_ok src off n (hgood.work hpos (hv hw) (by rw [h.op]; exact ho hw))
      (hgood.clean e hpos (hv hw)) (hgood.has hpos (hv hw)) with ⟨hrun, hwhy⟩ | ⟨m, t, hrun, hsaved⟩
    · exact ⟨-1, s, hrun, Or.inl ⟨rfl, rfl, hwhy⟩⟩
    · exact ⟨m, t, hrun, Or.inr ⟨m, rfl, hsaved⟩⟩
  apply (ends_of_body h.gw (writei_onBody sb src off n) hrun).post
  rintro r t ⟨hbody, hdone⟩
  refine ⟨h.body hbody (fun hw => ?_) fun hg => ?_, hbody, hdone⟩
  · rcases hdone hw with ⟨-, rfl, -⟩ | ⟨m, -, hsaved⟩
    · exact h.good hw
    · exact (h.good hw).saved hpos (hv hw) hsaved
  · rcases hdone (h.gw hg) with ⟨-, rfl, -⟩ | ⟨m, -, hsaved⟩
    · exact h.live hg
    · exact (h.live hg).of_types hbody hsaved.wrote.type_eq

/-- **`itrunc`** keeps the disk consistent. -/
theorem itrunc_ends (h : Inv sb w g o H s) (ho : w → 1 ≤ o) (hpos : 0 < (s.itable e).ref)
    (hv : w → (s.itable e).valid = true) :
    Ends (itrunc e s) (fun _ t => Inv sb w g o H t ∧ Body e s t ∧ (w → Emptied sb e s t))
      (Fine w g) := by
  have hrun : w → ∃ a t, itrunc e s = .ok a t ∧ Emptied sb e s t := by
    intro hw
    obtain ⟨t, hrun, hempty⟩ := itrunc_ok
      ((h.good hw).work hpos (hv hw) (by rw [h.op]; exact ho hw))
    exact ⟨(), t, hrun, hempty⟩
  apply (ends_of_body h.gw itrunc_onBody hrun).post
  rintro _ t ⟨hbody, hempty⟩
  refine ⟨h.body hbody (fun hw => (h.good hw).emptied hpos (hv hw) (hempty hw)) fun hg => ?_,
    hbody, hempty⟩
  have hw := h.gw hg
  apply (h.live hg).of_types hbody
  intro i
  by_cases hi : i = (s.itable e).inum
  · obtain ⟨f, hd, -⟩ := (hempty hw).shape
    rw [hi, (hempty hw).clean, hd, (h.good hw).clean e hpos (hv hw)]
  · rw [hbody.disk i hi]

/-! ## Fields of an inode -/

/-- The type and the content stay. -/
def Relabels (f : Dinode → Dinode) : Prop :=
  ∀ d, (f d).type = d.type ∧ (f d).addrs = d.addrs ∧ (f d).size = d.size

variable {f : Dinode → Dinode} {type : CShort}

theorem Relabels.place_eq (hf : Relabels f) (d : Dinode) (blk : ℕ → ℕ → UInt8)
    (p : Place) : place (f d) blk p = place d blk p := by
  cases p <;> simp [place, (hf d).2.1]

theorem Relabels.refs_eq (hf : Relabels f) (D : ℕ → Dinode) (blk : ℕ → ℕ → UInt8)
    (i : ℕ) : refs (update D i (f (D i))) blk = refs D blk := by
  funext ⟨m, p⟩
  by_cases hm : m = i
  · subst hm
    simp only [refs, update_self, (hf (D m)).1, hf.place_eq]
  · simp [refs, hm]

/-- What `relabel` has done to the disk. -/
structure Relabelled (e : Ip) (f : Dinode → Dinode) (s t : State) : Prop where
  block : t.block = s.block
  dinode : t.dinode = update s.dinode (s.itable e).inum (f (s.dinode (s.itable e).inum))

theorem relabel_ends (hf : Relabels f) (h : Inv sb w g o H s) (ho : w → 1 ≤ o)
    (hpos : 0 < (s.itable e).ref) (hv : w → (s.itable e).valid = true) :
    Ends (relabel e f s) (fun _ t => Inv sb w g o H t ∧ Body e s t ∧ (w → Relabelled e f s t))
      (Fine w g) := by
  have hrun : w → ∃ a t, relabel e f s = .ok a t ∧ t.bitmap = s.bitmap ∧
      (t.itable e).d = f (s.itable e).d ∧ Relabelled e f s t := by
    intro hw
    have hop : 1 ≤ s.outstanding := by
      rw [h.op]
      exact ho hw
    unfold relabel
    rw [bind_of_ok (rfl : edit e f s = .ok () _), iupdate_ok (by exact hop)]
    refine ⟨(), _, rfl, rfl, by simp, rfl, ?_⟩
    simp [cur, (h.good hw).clean e hpos (hv hw)]
  have hon : OnBody e (relabel e f) := (edit_onBody f).bind fun _ => iupdate_onBody
  apply (ends_of_body h.gw hon hrun).post
  rintro _ t ⟨hbody, hdone⟩
  have htypes : w → ∀ i, (t.dinode i).type = (s.dinode i).type := by
    intro hw i
    obtain ⟨-, -, hrel⟩ := hdone hw
    rw [hrel.dinode]
    by_cases hi : i = (s.itable e).inum
    · rw [hi, update_self, (hf _).1]
    · rw [update_of_ne hi]
  refine ⟨h.body hbody (fun hw => ?_) fun hg => (h.live hg).of_types hbody (htypes (h.gw hg)),
    hbody, fun hw => (hdone hw).2.2⟩
  obtain ⟨hbm, hd, hrel⟩ := hdone hw
  have hgood := h.good hw
  have hclean := hgood.clean e hpos (hv hw)
  apply hgood.of_body hpos hbody
  · rw [hrel.dinode, update_self, hclean, hd]
  · rw [hd, (hf _).1]
    exact hgood.typed e hpos (hv hw)
  · rw [hbm, hrel.block, hrel.dinode]
    exact hgood.sound.congr (hf.refs_eq _ _ _)
  · intro i htype j hj
    rw [htypes hw] at htype
    rw [hrel.block]
    rw [hrel.dinode] at hj ⊢
    by_cases hi : i = (s.itable e).inum
    · subst hi
      rw [update_self] at hj ⊢
      rw [(hf _).2.2] at hj
      rw [hf.place_eq]
      exact hgood.whole _ htype j hj
    · rw [update_of_ne hi] at hj ⊢
      exact hgood.whole i htype j hj

/-- **The link count of an inode is set.** -/
theorem setNlink_ends (f : CShort → CShort) (h : Inv sb w g o H s) (ho : w → 1 ≤ o)
    (hpos : 0 < (s.itable e).ref) (hv : w → (s.itable e).valid = true) :
    Ends (setNlink e f s) (fun _ t => Inv sb w g o H t ∧ Body e s t ∧
      (w → Relabelled e (fun d => { d with nlink := f d.nlink }) s t)) (Fine w g) :=
  relabel_ends (fun _ => ⟨rfl, rfl, rfl⟩) h ho hpos hv

/-! ## A new inode -/

theorem logWrite_ends (x : Target) (hgw : g → w) (hop : w → 1 ≤ s.outstanding) :
    Ends (logWrite x s) (fun _ t => t = { s with ops := noteLog x s.ops }) (Fine w g) := by
  unfold logWrite
  by_cases hlt : s.outstanding < 1
  · rw [if_pos hlt]
    have hw : ¬ w := fun hw => absurd (hop hw) (by omega)
    exact ⟨fun h => absurd h hw, fun h => absurd (hgw h) hw⟩
  · rw [if_neg hlt]
    exact rfl

/-- A free inode gets a type. -/
theorem Inv.alloc {inum : ℕ} (h : Inv sb w g o H s) (htype : type ≠ 0)
    (hfree : (s.dinode inum).type = 0)
    (ht : t = { s with dinode := update s.dinode inum (Dinode.zero type) }) : Inv sb w g o H t := by
  have hother : ∀ i, (s.dinode i).type ≠ 0 → t.dinode i = s.dinode i := by
    intro i hi
    rw [ht]
    apply update_of_ne
    rintro rfl
    exact hi hfree
  have hself : t.dinode inum = Dinode.zero type := by
    rw [ht]
    exact update_self _ _ _
  refine ⟨h.refs.of_table (by rw [ht]) (by rw [ht]) fun e => by rw [ht], by rw [ht]; exact h.op,
    h.gw, fun hw => ?_, fun hg => ?_⟩
  · have hgood := h.good hw
    refine ⟨hgood.fits, by rw [ht]; exact hgood.unique, ?_, by rw [ht]; exact hgood.typed, ?_, ?_⟩
    · -- a valid entry is of an inode that is not free
      intro e hpos hv
      rw [show t.itable = s.itable by rw [ht]] at hpos hv ⊢
      rw [hother _ (by rw [hgood.clean e hpos hv]; exact hgood.typed e hpos hv)]
      exact hgood.clean e hpos hv
    · show Ledger.Exact _ _ (Fs.refs t.dinode t.block) t.bitmap
      rw [show t.block = s.block by rw [ht], show t.bitmap = s.bitmap by rw [ht]]
      apply hgood.sound.congr
      funext ⟨m, p⟩
      by_cases hm : m = inum
      · subst hm
        rw [refs_of_type (by rw [hself]; exact htype), hself]
        exact (place_eq_zero (fun _ _ => rfl) p).trans (if_pos hfree).symm
      · rw [ht]
        simp [Fs.refs, hm]
    · intro i hi j hj
      by_cases hii : i = inum
      · rw [hii, hself] at hj
        exact absurd hj (Nat.not_lt_zero j)
      · have hsame : t.dinode i = s.dinode i := by
          rw [ht]
          exact update_of_ne hii _ _
        rw [hsame] at hi hj ⊢
        rw [show t.block = s.block by rw [ht]]
        exact hgood.whole i hi j hj
  · have hlive := h.live hg
    have hit : t.itable = s.itable := by rw [ht]
    refine ⟨?_, ?_, by rw [ht]; exact hlive.sure, by rw [ht]; exact hlive.saved⟩
    · intro e hpos
      rw [hit] at hpos ⊢
      rw [hother _ (hlive.alloc e hpos)]
      exact hlive.alloc e hpos
    · intro f hpos hf hwr
      rw [show t.ftable = s.ftable by rw [ht]] at hpos hf hwr ⊢
      rw [hit, hother _ (hlive.alloc _ (h.refs.pos_of_file hpos (Or.inl hf)))]
      exact hlive.files f hpos hf hwr

/-- What `ialloc` has done: `inum` was free and now has the type, and nothing else. -/
structure Allocated (sb : Superblock) (type : CShort) (inum : ℕ) (ip : Ip) (s t : State) :
    Prop where
  pos : 0 < inum
  lt : inum < sb.ninodes
  free : (s.dinode inum).type = 0
  inum_eq : (t.itable ip).inum = inum
  block : t.block = s.block
  dinode : t.dinode = update s.dinode inum (Dinode.zero type)
  fresh : (∀ e, 0 < (s.itable e).ref → (s.itable e).inum ≠ inum) → (t.itable ip).ref = 1

/-- **`ialloc`** finds no free inode, or takes one. -/
theorem ialloc_ends (h : Inv sb w g o H s) (ho : w → 1 ≤ o) (htype : type ≠ 0) :
    Ends (ialloc sb type s)
      (fun r t => match r with
        | none => t = s
        | some ip => Inv sb w g o (ip ::ₘ H) t ∧ Keeps H s t ∧
          ∃ inum, Allocated sb type inum ip s t)
      (Fine w g) := by
  unfold ialloc
  rw [bind_of_ok (rfl : freeInode sb s = .ok _ s)]
  cases hfind : (List.range' 1 (sb.ninodes - 1)).find? fun inum =>
      decide ((s.dinode inum).type = 0) with
  | none => exact rfl
  | some inum =>
    have hmem := List.mem_range'_1.mp (List.mem_of_find?_eq_some hfind)
    have hfree : (s.dinode inum).type = 0 := by simpa using List.find?_some hfind
    have hinv := h.alloc htype hfree rfl
    simp only
    rw [bind_of_ok (rfl : setDinode inum _ s = .ok () _)]
    apply (logWrite_ends _ h.gw fun hw => by rw [hinv.op]; exact ho hw).bind
    rintro _ _ rfl
    have hinv := hinv.aside s.locked (noteLog (.inode inum) s.ops)
    apply Ends.map
    apply (iget_got inum _).imp
    · intro ip t hgot
      obtain ⟨hinv', hkeeps⟩ := hinv.got hgot fun _ => by simpa [Dinode.zero] using htype
      refine ⟨hinv', hkeeps.before rfl rfl rfl, inum, by omega, by omega, hfree, hgot.inum_eq, hgot.sameDisk.block,
        hgot.sameDisk.dinode, fun hno => ?_⟩
      obtain ⟨x, rfl, -, href, ⟨hpos, heq, -⟩ | ⟨hzero, -⟩⟩ := hgot.state
      · exact absurd heq (hno ip hpos)
      · simp only at hzero
        simp [href, hzero]
    · rintro msg t ⟨rfl, rfl, -⟩
      exact hinv.fine (by decide)

end Fs

/-
# Entering names: sys_link

`Settled` is the state between two changes of the tree: the invariant of the running call,
and the tree in order.  `sys_link` takes a settled state to a settled one, also on its error
paths; on the way the link count is one too high, and `bad:` takes it back.
-/
import Xv6.FsTree

namespace Fs

open Hoare
open Itable (CShort)
open Proc (NPROC)

variable {sb : Superblock} {w : Prop} {g : Watch} {o : ℕ} {H B : Multiset Ip} {dp ip : Ip} {s t u : State}
variable {D D' D'' : ℕ → Dinode} {blk blk' blk'' : ℕ → ℕ → UInt8} {i d j k v : ℕ} {r : ℤ}
variable {name : List UInt8} {p : Fin NPROC}

/-! ## Settled states -/

/-- **The state between two changes of the tree.** -/
structure Settled (sb : Superblock) (w : Prop) (g : Watch) (o : ℕ) (H : Multiset Ip) (s : State) :
    Prop where
  inv : Inv sb w g o H s
  tree : g → Tree sb s.dinode s.block
  owned : g → Owned g.lost s

/-- The nodes of the tree are the same. -/
theorem Settled.alike {H' : Multiset Ip} (h : Settled sb w g o H s) (hinv : Inv sb w g o H' t)
    (hk : Keeps H s t) (hsub : H ≤ H')
    (hsame : g → ∀ m, SameAt s.dinode s.block t.dinode t.block m) : Settled sb w g o H' t :=
  ⟨hinv, fun hg => (h.tree hg).of_same (hsame hg), fun hg =>
    (h.owned hg).keeps h.inv.refs hinv.refs hk hsub fun m hm => (hsame hg m).orphan hm⟩

theorem Settled.same {H' : Multiset Ip} (h : Settled sb w g o H s) (hinv : Inv sb w g o H' t)
    (hk : Keeps H s t) (hsub : H ≤ H') (hdisk : g → SameDisk s t) : Settled sb w g o H' t := by
  refine h.alike hinv hk hsub fun hg m => ?_
  rw [(hdisk hg).block]
  apply SameAt.of_eq
  rw [(hdisk hg).dinode]

theorem le_walked (r : Option (Ip × List UInt8)) (B : Multiset Ip) : B ≤ walked r B := by
  cases r with
  | none => exact le_rfl
  | some x => exact Multiset.le_cons_self B x.1

theorem Settled.walk {r : Option (Ip × List UInt8)} (h : Settled sb w g o B s)
    (hwalk : Walked sb w g o B s r t) : Settled sb w g o (walked r B) t :=
  h.same hwalk.inv hwalk.keeps (le_walked r B) hwalk.disk

/-- What is committed from a settled state is secure. -/
theorem Settled.secure (h : Settled sb w g o H s) (hg : g) (hl : ∀ i, ¬ g.lost i) :
    Commit.Secure ⟨s.dinode, s.block, s.itable⟩ := by
  intro hused i hi
  apply (h.tree hg).named ⟨hi, fun hzero => ?_⟩
  rcases h.owned hg i ⟨hi, hzero⟩ with hlost | ⟨e, hpos, rfl, -⟩
  · exact hl i hlost
  · exact hused e hpos hzero

/-- Locks and what has been logged do not matter. -/
theorem Settled.aside (h : Settled sb w g o H s) (l : Ip → Bool) (ops : List (List Target)) :
    Settled sb w g o H { s with locked := l, ops := ops } :=
  ⟨h.inv.aside l ops, h.tree, h.owned⟩

/-- A transaction begins or ends. -/
theorem Settled.outstanding (h : Settled sb w g o H s) (o' : ℕ) {l : List Commit}
    (hl : l = s.commits ∨ l = ⟨s.dinode, s.block, s.itable⟩ :: s.commits) :
    Settled sb w g o' H { s with outstanding := o', commits := l } := by
  refine ⟨⟨h.inv.refs.of_table rfl rfl fun _ => rfl, rfl, h.inv.gw, fun hw => ?_, fun hg => ?_⟩,
    h.tree, h.owned⟩
  · exact (h.inv.good hw).of_eq rfl rfl rfl rfl
  · have hlive := h.inv.live hg
    refine ⟨hlive.alloc, hlive.files, hlive.sure, ?_⟩
    rcases hl with rfl | rfl
    · exact hlive.saved
    · exact hlive.saved.cons (h.secure hg)

/-- **`begin_op`.** -/
theorem Settled.begin (h : Settled sb w g o H s) : Settled sb w g (o + 1) H s.begun := by
  unfold State.begun
  rw [h.inv.op]
  exact (h.outstanding (o + 1) (Or.inl rfl)).aside s.locked _

/-- **`end_op`.** -/
theorem Settled.finish (h : Settled sb w g (o + 1) H s) : Settled sb w g o H s.ended := by
  have hcommit : (if s.outstanding = 1 then ⟨s.dinode, s.block, s.itable⟩ :: s.commits
      else s.commits) = s.commits ∨ (if s.outstanding = 1 then
        ⟨s.dinode, s.block, s.itable⟩ :: s.commits else s.commits) =
      ⟨s.dinode, s.block, s.itable⟩ :: s.commits := by
    split
    · exact Or.inr rfl
    · exact Or.inl rfl
  have hop : s.outstanding - 1 = o := by
    rw [h.inv.op]
    rfl
  unfold State.ended
  rw [hop]
  exact h.outstanding o hcommit

theorem Settled.pos (h : Settled sb w g o H s) (he : ip ∈ H) : 0 < (s.itable ip).ref :=
  h.inv.refs.pos_of_mem he

theorem Settled.lock (h : Settled sb w g o H s) (hpos : 0 < (s.itable ip).ref) :
    Ends (ilock ip s) (fun _ t => Settled sb w g o H t ∧ Loaded ip s t) (Fine w g) :=
  (ilock_ends h.inv hpos).post fun _ _ ⟨hinv, hload⟩ => ⟨h.same hinv (hload.keeps H) le_rfl fun _ => hload.disk, hload⟩

/-- **`iput`** frees what it loses: the last reference to an inode without links. -/
theorem Owned.put {lost : ℕ → Prop} (h : Owned lost s) (hinv : Inv sb w g o (ip ::ₘ B) s) (hw : w) (ht : Refs B t)
    (hk : Keeps B s t) (hput : PutDisk ip s t) : Owned lost t := by
  by_cases hlast : LastRef ip s
  · have hfreed := hput.freed hlast
    refine h.dropped hinv.refs ht hk (fun i hi => ?_) fun horphan => horphan.1 hfreed.type
    have hne : i ≠ (s.itable ip).inum := by
      rintro rfl
      exact hi.1 hfreed.type
    unfold Orphan at hi
    rwa [hfreed.other i hne] at hi
  · have hdisk := (hput.same hlast).dinode
    refine h.of_kept ht hk le_rfl (fun i hi => by rwa [hdisk] at hi) fun e hpos hv horphan => ?_
    by_cases he : e = ip
    · -- without a link, the entry has another reference
      subst he
      have hexact := hinv.refs.exact e
      rw [Multiset.count_cons_self] at hexact
      have hmore : (s.itable e).ref ≠ 1 := by
        intro hone
        refine hlast ⟨hone, hv, ?_⟩
        rw [← (hinv.good hw).clean e hpos hv, ← hdisk]
        exact horphan.2
      by_cases hmem : e ∈ B
      · exact Or.inl hmem
      · rw [Multiset.count_eq_zero.mpr hmem] at hexact
        exact Or.inr (by omega)
    · exact (hinv.refs.kept_of_pos hpos).imp_left fun hmem =>
        (Multiset.mem_cons.mp hmem).resolve_left he

theorem Settled.iput (h : Settled sb w g o (ip ::ₘ B) s) (ho : w → 1 ≤ o) :
    Ends (Fs.iput ip s) (fun _ t => Settled sb w g o B t ∧ Keeps B s t) (Fine w g) := by
  apply (iput_ends h.inv ho).post
  rintro _ t ⟨hinv, hkeeps, hput⟩
  refine ⟨⟨hinv, fun hg => ?_, fun hg => ?_⟩, hkeeps⟩
  · exact (h.tree hg).put (h.inv.good (h.inv.gw hg)) (hput (h.inv.gw hg))
  · exact (h.owned hg).put h.inv (h.inv.gw hg) hinv.refs hkeeps (hput (h.inv.gw hg))

/-- **`iunlock`.** -/
theorem Settled.unlock (h : Settled sb w g o H s) (hpos : 0 < (s.itable ip).ref) :
    Ends (iunlock ip s) (fun _ t => Settled sb w g o H t ∧
      t = { s with locked := Function.update s.locked ip false }) (Fine w g) :=
  (iunlock_ends h.inv hpos).post fun _ _ ht => ⟨by rw [ht]; exact h.aside _ _, ht⟩

theorem Settled.unlockput (h : Settled sb w g o (ip ::ₘ B) s) (ho : w → 1 ≤ o) :
    Ends (iunlockput ip s) (fun _ t => Settled sb w g o B t ∧ Keeps B s t) (Fine w g) := by
  unfold iunlockput
  apply (h.unlock (h.pos (Multiset.mem_cons_self ip B))).bind
  rintro _ t ⟨ht, rfl⟩
  exact (ht.iput ho).post fun _ u hu => ⟨hu.1, hu.2.before rfl rfl rfl⟩

/-- The last steps of most error paths. -/
theorem Settled.unlockputEnd (h : Settled sb w g (o + 1) (ip ::ₘ B) s) (r : ℤ) :
    Ends ((iunlockput ip >>= fun _ => endOp >>= fun _ => pure r) s)
      (fun _ t => Settled sb w g o B t) (Fine w g) := by
  apply (h.unlockput fun _ => by omega).bind
  rintro _ t ⟨ht, -⟩
  exact ht.finish

/-- A link count that is changed in some cases only. -/
theorem recount_ends {c : Prop} [Decidable c] (f : CShort → CShort) (h : Inv sb w g 1 H s)
    (hpos : 0 < (s.itable dp).ref) (hv : w → (s.itable dp).valid = true) :
    Ends ((if c then setNlink dp f else pure ()) s) (fun _ t => Inv sb w g 1 H t ∧ Body dp s t ∧
      (w → Recounted (s.itable dp).inum (fun x => if c then f x else x) s.dinode s.block t.dinode
        t.block)) (Fine w g) := by
  by_cases hc : c
  · simp only [if_pos hc]
    apply (setNlink_ends f h (fun _ => le_rfl) hpos hv).post
    rintro _ t ⟨ht, hbody, hrel⟩
    exact ⟨ht, hbody, fun hw => (hrel hw).recounted⟩
  · simp only [if_neg hc]
    exact ⟨h, Body.refl dp s, fun _ => Recounted.id _ _ _⟩

/-! ## What dirlink does to the tree -/

/-- The name has been entered into an empty slot or a new one; no slot had it. -/
def Entered (d : ℕ) (name : List UInt8) (v : ℕ) (D : ℕ → Dinode) (blk : ℕ → ℕ → UInt8)
    (D' : ℕ → Dinode) (blk' : ℕ → ℕ → UInt8) : Prop :=
  (∀ j, j < slots D d → slotInum D blk d j ≠ 0 → slotName D blk d j ≠ cname name) ∧
  (D d).size % DIRENT = 0 ∧
  ∃ k, SlotWritten d k (dirent v name) D blk D' blk' ∧
    (k < slots D d ∧ slotInum D blk d k = 0 ∨ k = slots D d)

/-- All entries can be read as slots. -/
theorem entries_eq {size : ℕ} (h : ∀ k, k < entries size → DIRENT * k + DIRENT ≤ size) :
    size = DIRENT * entries size := by
  have hlast := h (entries size - 1)
  unfold entries DIRENT at *
  omega

theorem Linked.effect (hgood : Consistent sb s) (hpos : 0 < (s.itable dp).ref)
    (hv : (s.itable dp).valid = true) (h : Linked sb dp name v s r t) :
    (r = 0 ∧ Entered (s.itable dp).inum name v s.dinode s.block t.dinode t.block) ∨
      (r = -1 ∧ ∀ i, SameAt s.dinode s.block t.dinode t.block i) := by
  obtain ⟨hall, k, hvac, hcase⟩ := h
  have hclean := hgood.clean dp hpos hv
  have hsize := entries_eq fun k hk => (hall k hk).1
  rcases hcase with ⟨hr, rfl | hsaved⟩ | ⟨hr, hsaved⟩
  · exact Or.inr ⟨hr, fun i => SameAt.refl _ _ i⟩
  · refine Or.inr ⟨hr, ?_⟩
    rcases hvac with ⟨hin, -⟩ | hend
    · -- a slot of the directory has its block, so the write cannot fail
      have := hsaved.full fun j hj => by
        refine ⟨hgood.has hpos hv _ ?_, rfl⟩
        unfold InDir at hin
        omega
      exact absurd this (by decide)
    · apply hsaved.sameAt_of_fail hgood hpos hv
      rw [hend]
      exact hsize
  · refine Or.inl ⟨hr, ?_, ?_, k, hsaved.slotWritten hgood hpos hv (dirent_length v name), ?_⟩
    · intro j hj hne hname
      rw [lt_slots, hclean] at hj
      have hlt : j < entries (s.itable dp).d.size := by
        unfold entries DIRENT at *
        omega
      exact (hall j hlt).2 ⟨hne, hname⟩
    · rw [hclean, hsize]
      exact Nat.mul_mod_right _ _
    · rcases hvac with ⟨hin, hzero⟩ | hend
      · refine Or.inl ⟨?_, hzero⟩
        rw [lt_slots, hclean]
        exact hin
      · right
        unfold slots
        rw [hclean, hsize, hend, Nat.mul_div_cancel_left _ (by decide)]

/-- **`dirlink`** in a directory that names attached inodes only. -/
theorem DirlinkDone.effect (hgood : Consistent sb s) (hpos : 0 < (s.itable dp).ref)
    (hv : (s.itable dp).valid = true)
    (hatt : ∀ k, InDir s dp k → slotInum s.dinode s.block (s.itable dp).inum k ≠ 0 →
      Attached s.dinode (slotInum s.dinode s.block (s.itable dp).inum k))
    (h : DirlinkDone sb dp name v s r t) :
    (r = 0 ∧ Entered (s.itable dp).inum name v s.dinode s.block t.dinode t.block) ∨
      (r = -1 ∧ ∀ i, SameAt s.dinode s.block t.dinode t.block i) := by
  rcases h with ⟨hlinked, -⟩ | ⟨hr, k, ip, x, hin, hmatch, hdisk, hinum, hgood', -, hput⟩
  · exact hlinked.effect hgood hpos hv
  · have hsame := hput.same (hgood'.not_lastRef (by
      rw [hinum]
      exact hdisk.attached (hatt k hin hmatch.1)))
    refine Or.inr ⟨hr, fun i => ?_⟩
    rw [hsame.dinode, hsame.block, hdisk.dinode, hdisk.block]
    exact SameAt.refl _ _ i

/-- A directory with one more name. -/
structure Grows (d v : ℕ) (D : ℕ → Dinode) (blk : ℕ → ℕ → UInt8) (D' : ℕ → Dinode)
    (blk' : ℕ → ℕ → UInt8) : Prop where
  other : ∀ i, i ≠ d → SameAt D blk D' blk' i
  type : (D' d).type = (D d).type
  nlink : (D' d).nlink = (D d).nlink
  shaped : Shaped D' blk' d
  up : slotInum D' blk' d 1 = slotInum D blk d 1
  kids : kidsOf D' blk' d = v ::ₘ kidsOf D blk d

theorem Entered.sameAt (h : Entered d name i D blk D' blk') {m : ℕ} (hm : m ≠ d) :
    SameAt D blk D' blk' m := by
  obtain ⟨-, -, k, hw, -⟩ := h
  exact hw.other m hm

theorem Entered.fields (h : Entered d name i D blk D' blk') :
    (D' d).type = (D d).type ∧ (D' d).nlink = (D d).nlink := by
  obtain ⟨-, -, k, hw, -⟩ := h
  exact ⟨hw.type, hw.nlink⟩

theorem Entered.noneLost (h : Entered d name i D blk D' blk') : NoneLost D D' := by
  intro m hm
  by_cases hmd : m = d
  · subst hmd
    obtain ⟨htype, hnlink⟩ := h.fields
    exact ⟨by rw [← htype]; exact hm.1, by rw [← hnlink]; exact hm.2⟩
  · exact (h.sameAt hmd).orphan hm

theorem Entered.grows (h : Entered d name v D blk D' blk') (hs : Shaped D blk d) (hd : d ≠ 0)
    (hv : v ≠ 0) (hlt : v < 2 ^ 16) : Grows d v D blk D' blk' := by
  obtain ⟨hnone, -, k, hw, hvac⟩ := h
  have htwo := hs.two
  have hdot : dot ≠ cname name := by
    have := hnone 0 (by omega) (by rw [hs.self.1]; exact hd)
    rwa [hs.self.2] at this
  have hdotdot : dotdot ≠ cname name := by
    have := hnone 1 (by omega) hs.up.1
    rwa [hs.up.2] at this
  have hk : 2 ≤ k := by
    -- the slots of `.` and `..` are not empty
    rcases hvac with ⟨-, hzero⟩ | hend
    · have h0 : k ≠ 0 := by
        rintro rfl
        exact hd (hs.self.1.symm.trans hzero)
      have h1 : k ≠ 1 := by
        rintro rfl
        exact hs.up.1 hzero
      omega
    · omega
  have hbytes : deInum (dirent v name) = v := deInum_dirent hlt name
  refine ⟨hw.other, hw.type, hw.nlink, hw.shaped hs hk ?_ fun _ => ?_,
    hw.inum_eq (by omega) (by omega), ?_⟩
  · rcases hvac with ⟨hin, -⟩ | hend <;> omega
  · rw [cname_dirent]
    exact ⟨hdot.symm, hdotdot.symm⟩
  · rw [hw.kids_add hs hk hvac (by rw [hbytes]; exact hv), hbytes]

/-! ## sys_link -/

/-- A file has one link more than in a tree. -/
structure Bumped (i : ℕ) (D : ℕ → Dinode) (blk : ℕ → ℕ → UInt8) (D' : ℕ → Dinode)
    (blk' : ℕ → ℕ → UInt8) : Prop where
  other : ∀ m, m ≠ i → SameAt D blk D' blk' m
  type : (D' i).type = (D i).type
  file : (D i).type ≠ T_DIR
  attached : Attached D i
  small : (D i).nlink.toInt < 32767
  nlink : (D' i).nlink = (D i).nlink + 1

theorem Bumped.same (h : Bumped i D blk D' blk') (hs : ∀ m, SameAt D' blk' D'' blk'' m) :
    Bumped i D blk D'' blk'' where
  other m hm := (h.other m hm).trans (hs m)
  type := (hs i).type.trans h.type
  file := h.file
  attached := h.attached
  small := h.small
  nlink := ((hs i).nlink (by rw [h.type]; exact h.attached.1)).trans h.nlink

theorem Bumped.attached_iff (h : Bumped i D blk D' blk') (ht : Tree sb D blk) (m : ℕ) :
    Attached D' m ↔ Attached D m := by
  by_cases hm : m = i
  · have hpos := (ht.attached_iff h.attached.1).mp h.attached.2
    have hne : (D' i).nlink ≠ 0 := by
      intro hzero
      have := toInt_add_one h.small
      rw [← h.nlink, hzero] at this
      have hz : (0 : CShort).toInt = 0 := rfl
      omega
    rw [hm]
    exact ⟨fun _ => h.attached, fun hatt => ⟨by rw [h.type]; exact hatt.1, hne⟩⟩
  · have hsame := h.other m hm
    refine ⟨fun hatt => ?_, hsame.attached⟩
    have htype : (D m).type ≠ 0 := by
      rw [← hsame.type]
      exact hatt.1
    exact ⟨htype, by rw [← hsame.nlink htype]; exact hatt.2⟩

/-- The names can be followed as before. -/
theorem Bumped.closed (h : Bumped i D blk D' blk') (ht : Tree sb D blk) : Closed D' blk' where
  root := (h.attached_iff ht _).mpr ht.closed.root
  names d htype hlink k hk hne := by
    have hdi : d ≠ i := by
      rintro rfl
      exact h.file (h.type.symm.trans htype)
    have hsame := h.other d hdi
    have htype' : (D d).type = T_DIR := hsame.type.symm.trans htype
    have hslots := hsame.dir htype'
    rw [hslots.slots_eq] at hk
    rw [hslots.inum_eq hk] at hne ⊢
    rw [hsame.nlink (dir_ne_zero htype')] at hlink
    exact (h.attached_iff ht _).mpr (ht.closed.names d htype' hlink k hk hne)

theorem Relabelled.bumped (h : Relabelled ip (fun x => { x with nlink := x.nlink + 1 }) s t)
    (hfile : (s.dinode (s.itable ip).inum).type ≠ T_DIR)
    (hatt : Attached s.dinode (s.itable ip).inum)
    (hsmall : (s.dinode (s.itable ip).inum).nlink.toInt < 32767) :
    Bumped (s.itable ip).inum s.dinode s.block t.dinode t.block where
  other _ hm := h.sameAt hm
  type := by rw [h.self]
  file := hfile
  attached := hatt
  small := hsmall
  nlink := by rw [h.self]

theorem Bumped.noneLost (h : Bumped i D blk D' blk') (ht : Tree sb D blk) : NoneLost D D' := by
  intro m hm
  by_cases hmi : m = i
  · subst hmi
    exact absurd hm.2 ((h.attached_iff ht m).mpr h.attached).2
  · exact (h.other m hmi).orphan hm

/-- The link is taken back. -/
theorem Bumped.undo (h : Bumped (s.itable ip).inum D blk s.dinode s.block)
    (hrel : Relabelled ip (fun x => { x with nlink := x.nlink - 1 }) s t) (m : ℕ) :
    SameAt D blk t.dinode t.block m := by
  by_cases hm : m = (s.itable ip).inum
  · subst hm
    refine ⟨?_, fun _ => ?_, fun hdir => absurd hdir h.file⟩
    · rw [hrel.self]
      exact h.type
    · rw [hrel.self, h.nlink]
      exact BitVec.add_sub_cancel _ _
  · exact (h.other m hm).trans (hrel.sameAt hm)

/-- **`bad:`** -/
theorem linkBad_ends (h : Inv sb w g 1 (ip ::ₘ B) s) (howned : g → Owned g.lost s)
    (hbump : g → ∃ D blk, Tree sb D blk ∧ Bumped (s.itable ip).inum D blk s.dinode s.block) :
    Ends (linkBad ip s) (fun _ t => Settled sb w g 0 B t) (Fine w g) := by
  have hmem := Multiset.mem_cons_self ip B
  unfold linkBad
  apply (ilock_ends h (h.refs.pos_of_mem hmem)).bind
  rintro _ t ⟨ht, hload⟩
  apply (setNlink_ends _ ht (fun _ => le_rfl) (ht.refs.pos_of_mem hmem) fun _ => hload.valid).bind
  rintro _ u ⟨hu, hbody, hrel⟩
  have hsame : g → ∃ D blk, Tree sb D blk ∧ Bumped (s.itable ip).inum D blk s.dinode s.block ∧
      ∀ m, SameAt D blk u.dinode u.block m := by
    intro hg
    obtain ⟨D, blk, htree, hb⟩ := hbump hg
    refine ⟨D, blk, htree, hb, ?_⟩
    rw [← hload.inum, ← hload.disk.dinode, ← hload.disk.block] at hb
    exact hb.undo (hrel (h.gw hg))
  have hsettled : Settled sb w g 1 (ip ::ₘ B) u := by
    refine ⟨hu, fun hg => ?_, fun hg => ?_⟩
    · obtain ⟨D, blk, htree, -, hundo⟩ := hsame hg
      exact htree.of_same hundo
    · obtain ⟨D, blk, htree, hb, hundo⟩ := hsame hg
      refine (howned hg).keeps h.refs hu.refs ((hload.keeps _).trans (hbody.keeps _)) le_rfl
        fun m hm => ?_
      have hold := (hundo m).orphan hm
      by_cases hmi : m = (s.itable ip).inum
      · rw [hmi] at hold
        exact absurd hold.2 hb.attached.2
      · exact ⟨by rw [(hb.other m hmi).type]; exact hold.1,
          ((hb.other m hmi).nlink hold.1).trans hold.2⟩
  exact hsettled.unlockputEnd (-1)

theorem Tree.bounds (h : Tree sb D blk) (hi : (D i).type ≠ 0) : i ≠ 0 ∧ i < 2 ^ 16 := by
  have hbound := h.ok.bound i ((isSome_view blk).mpr hi)
  have := h.small
  omega

/-- The new link is entered. -/
theorem Bumped.link (h : Bumped i D blk D' blk') (ht : Tree sb D blk)
    (he : Entered d name i D' blk' D'' blk'') (hdir : (D' d).type = T_DIR)
    (hlink : (D' d).nlink ≠ 0) : Tree sb D'' blk'' := by
  have hdi : d ≠ i := by
    rintro rfl
    exact h.file (h.type.symm.trans hdir)
  have hd := h.other d hdi
  have hdir' : (D d).type = T_DIR := hd.type.symm.trans hdir
  have hslots := hd.dir hdir'
  have hshape := ht.shaped d hdir'
  obtain ⟨hi0, hilt⟩ := ht.bounds h.attached.1
  have hgrows := he.grows (hslots.shaped hshape) (ht.bounds (dir_ne_zero hdir')).1 hi0 hilt
  have hi := hgrows.other i hdi.symm
  have hnlink : (D'' i).nlink.toInt = (D i).nlink.toInt + 1 := by
    rw [hi.nlink (by rw [h.type]; exact h.attached.1), h.nlink]
    exact toInt_add_one h.small
  have hlink' : (D d).nlink ≠ 0 := by
    rw [← hd.nlink (dir_ne_zero hdir')]
    exact hlink
  refine ht.change (i := i) (d := d) (fun m hmi hmd => (h.other m hmi).trans (hgrows.other m hmd))
    (x := some (.file ((D i).nlink.toInt + 1)))
    (y := some (.dir (D d).nlink.toInt (slotInum D blk d 1) (i ::ₘ kidsOf D blk d))) ?_ ?_ ?_ ?_
  · rw [view_file (by rw [hi.type, h.type]; exact h.attached.1)
      (by rw [hi.type, h.type]; exact h.file), hnlink]
  · rw [view_dir (hgrows.type.trans hdir), hgrows.nlink, hd.nlink (dir_ne_zero hdir'), hgrows.up,
      hgrows.kids, hslots.kids_eq, hslots.inum_eq hshape.two]
  · apply ht.ok.setFile (ht.linked hdir' hlink') (Or.inl (view_file h.attached.1 h.file))
    · intro c hc
      exact Multiset.count_cons_of_ne hc _
    · rw [Multiset.count_cons_self]
      push_cast
      ring
  · rintro m (rfl | rfl) hm
    · rw [hi.type, h.type] at hm
      exact absurd hm h.file
    · exact hgrows.shaped

/-- No link count is at its maximum. -/
def Roomy (D : ℕ → Dinode) : Prop := ∀ i, (D i).type ≠ 0 → (D i).nlink.toInt < 32767

/-- The rest of `sys_link` once the new parent is known. -/
theorem linkEntry_ends (h : Inv sb w g 1 (dp ::ₘ ip ::ₘ B) s) (howned : g → Owned g.lost s)
    {nm : List UInt8} (hi : (s.itable ip).inum = i)
    (hbump : g → ∃ D blk, Tree sb D blk ∧ Bumped i D blk s.dinode s.block)
    (hatt : g → Attached s.dinode (s.itable dp).inum) :
    Ends ((ilock dp >>= fun _ => dirlink sb dp nm i >>= fun r =>
        if r < 0 then iunlockput dp >>= fun _ => linkBad ip
        else iunlockput dp >>= fun _ => iput ip >>= fun _ => endOp >>= fun _ => pure 0) s)
      (fun (_ : ℤ) t => Settled sb w g 0 B t) (Fine w g) := by
  have hdp := Multiset.mem_cons_self dp (ip ::ₘ B)
  have hip : ip ∈ dp ::ₘ ip ::ₘ B := Multiset.mem_cons_of_mem (Multiset.mem_cons_self ip B)
  apply (ilock_ends h (h.refs.pos_of_mem hdp)).bind
  rintro _ t ⟨ht, hload⟩
  have hatt' : g → Attached t.dinode (t.itable dp).inum := by
    intro hg
    rw [hload.inum]
    exact hload.disk.attached (hatt hg)
  have hbump' : g → ∃ D blk, Tree sb D blk ∧ Bumped i D blk t.dinode t.block := by
    rw [hload.disk.dinode, hload.disk.block]
    exact hbump
  have hfollow : Follows g t dp := by
    intro hg
    obtain ⟨D, blk, htree, hb⟩ := hbump' hg
    exact ⟨hb.closed htree, hatt' hg⟩
  have hpos := ht.refs.pos_of_mem hdp
  apply (dirlink_ends i ht (fun _ => le_rfl) hdp (fun _ => hload.valid)
    (hfollow.names ht hpos fun _ => hload.valid)).bind
  rintro r u ⟨hu, hkeeps, hdone⟩
  have hdpu := hkeeps.mem hdp
  have hipu : (u.itable ip).inum = i := by
    rw [(hkeeps.mem hip).1, hload.inum_eq, hi]
  have heffect : g → (r = 0 ∧ Entered (t.itable dp).inum nm i t.dinode t.block u.dinode u.block) ∨
      (r = -1 ∧ ∀ m, SameAt t.dinode t.block u.dinode u.block m) := by
    intro hg
    have hw := h.gw hg
    obtain ⟨htype, hd⟩ := hdone hw
    refine hd.effect (ht.good hw) hpos hload.valid fun k hin hne => ?_
    exact hfollow.attached ht hpos (fun _ => hload.valid) hg htype hin hne
  by_cases hr : r < 0
  · -- the tree is as before but for the link count
    have hsame : g → ∀ m, SameAt t.dinode t.block u.dinode u.block m := by
      intro hg
      rcases heffect hg with ⟨rfl, -⟩ | ⟨-, hsame⟩
      · exact absurd hr (by decide)
      · exact hsame
    rw [if_pos hr]
    apply (putAttached_ends hu (fun _ => le_rfl) fun hg => by
      rw [hdpu.1]; exact (hsame hg _).attached (hatt' hg)).bind
    rintro _ x ⟨hx, hkeeps', hdisk⟩
    apply linkBad_ends hx
    · intro hg
      have hu' := (howned hg).keeps h.refs hu.refs ((hload.keeps _).trans hkeeps) le_rfl fun m hm => by
        rw [← hload.disk.dinode]
        exact (hsame hg m).orphan hm
      refine hu'.dropped hu.refs hx.refs hkeeps' (fun m hm => by rwa [(hdisk hg).dinode] at hm) ?_
      rw [(hdisk hg).dinode, hdpu.1]
      exact fun horphan => ((hsame hg _).attached (hatt' hg)).2 horphan.2
    intro hg
    obtain ⟨D, blk, htree, hb⟩ := hbump' hg
    refine ⟨D, blk, htree, ?_⟩
    rw [(hkeeps'.mem (Multiset.mem_cons_self ip B)).1, hipu, (hdisk hg).dinode, (hdisk hg).block]
    exact hb.same (hsame hg)
  · rw [if_neg hr]
    have hsettled : Settled sb w g 1 (dp ::ₘ ip ::ₘ B) u := by
      refine ⟨hu, fun hg => ?_, fun hg => ?_⟩
      swap
      · refine (howned hg).keeps h.refs hu.refs ((hload.keeps _).trans hkeeps) le_rfl ?_
        rw [← hload.disk.dinode]
        rcases heffect hg with ⟨-, he⟩ | ⟨rfl, -⟩
        · exact he.noneLost
        · exact absurd (by decide : (-1 : ℤ) < 0) hr
      obtain ⟨D, blk, htree, hb⟩ := hbump' hg
      rcases heffect hg with ⟨-, he⟩ | ⟨rfl, -⟩
      · refine hb.link htree he ?_ (hatt' hg).2
        rw [(ht.good (h.gw hg)).clean dp hpos hload.valid]
        exact (hdone (h.gw hg)).1
      · exact absurd (by decide : (-1 : ℤ) < 0) hr
    apply (hsettled.unlockput fun _ => le_rfl).bind
    rintro _ x ⟨hx, -⟩
    apply (hx.iput fun _ => le_rfl).bind
    rintro _ y ⟨hy, -⟩
    exact hy.finish

/-- **`sys_link`.** -/
theorem sysLink_ends {old new : Option (List UInt8)} (h : Settled sb w g 0 B s)
    (hstart : ∀ path, argstr old = some path ∨ argstr new = some path → Starts g p path s)
    (hroom : g → Roomy s.dinode) :
    Ends (sysLink sb p old new s) (fun _ t => Settled sb w g 0 B t) (Fine w g) := by
  unfold sysLink
  cases hold : argstr old with
  | none => exact h
  | some old' =>
    cases hnew : argstr new with
    | none => exact h
    | some new' =>
      simp only
      rw [beginOp_bind]
      have h1 := h.begin
      apply (namei_ends h1.inv (fun _ => le_rfl) p old' (hstart old' (Or.inl hold))).bind
      rintro _ t ⟨(_ | ⟨ip, nm⟩), rfl, hwalk⟩
      · exact (h1.walk hwalk).finish
      have ht : Settled sb w g 1 (ip ::ₘ B) t := h1.walk hwalk
      have hip := Multiset.mem_cons_self ip B
      simp only [Option.map_some]
      apply (ht.lock (ht.pos hip)).bind
      rintro _ u ⟨hu, hload⟩
      rw [inode_bind]
      by_cases hdir : (u.itable ip).d.type = T_DIR
      · rw [if_pos hdir]
        exact hu.unlockputEnd (-1)
      rw [if_neg hdir]
      apply (setNlink_ends _ hu.inv (fun _ => le_rfl) (hu.pos hip) fun _ => hload.valid).bind
      rintro _ v ⟨hv, hbody, hrel⟩
      have hbump : g → Bumped (u.itable ip).inum u.dinode u.block v.dinode v.block := by
        intro hg
        have hclean := (hu.inv.good (h.inv.gw hg)).clean ip (hu.pos hip) hload.valid
        have hatt : Attached u.dinode (u.itable ip).inum := by
          rw [hload.inum]
          exact hload.disk.attached (hwalk.attached hg ip nm rfl)
        refine (hrel (h.inv.gw hg)).bumped (by rw [hclean]; exact hdir) hatt ?_
        rw [hload.disk.dinode, (hwalk.disk hg).dinode] at hatt ⊢
        exact hroom hg _ hatt.1
      have hstart' : Starts g p new' v := by
        refine (hstart new' (Or.inr hnew)).after (B := B) ?_
          (fun hg => (hbump hg).closed (hu.tree hg)) fun hg m hm => ?_
        · have hkeeps : Keeps B s t := hwalk.keeps.before rfl rfl rfl
          exact (hkeeps.trans (hload.keeps B)).trans (hbody.keeps B)
        · rw [(hbump hg).attached_iff (hu.tree hg)]
          exact hload.disk.attached ((hwalk.disk hg).attached hm)
      apply (iunlock_ends hv (hv.refs.pos_of_mem hip)).bind
      rintro _ _ rfl
      apply (namex_ends (hv.aside (Function.update v.locked ip false) v.ops) (fun _ => le_rfl) p new'
        true (by exact hstart')).bind
      rintro r x hwalk'
      replace hwalk' := hwalk'.aside
      have hownedx : g → Owned g.lost x := by
        intro hg
        have hownedv := (hu.owned hg).keeps hu.inv.refs hv.refs (hbody.keeps _) le_rfl
          ((hbump hg).noneLost (hu.tree hg))
        refine hownedv.keeps hv.refs hwalk'.inv.refs hwalk'.keeps (le_walked r _) fun m hm => ?_
        rwa [(hwalk'.disk hg).dinode] at hm
      rcases r with _ | ⟨dp, nm'⟩
      · apply linkBad_ends hwalk'.inv hownedx
        intro hg
        refine ⟨u.dinode, u.block, hu.tree hg, ?_⟩
        rw [(hwalk'.keeps.mem hip).1, hbody.inum, (hwalk'.disk hg).dinode, (hwalk'.disk hg).block]
        exact hbump hg
      · refine linkEntry_ends hwalk'.inv hownedx ?_ (fun hg => ⟨u.dinode, u.block, hu.tree hg, ?_⟩)
          fun hg => hwalk'.attached hg dp nm' rfl
        · rw [(hwalk'.keeps.mem hip).1, hbody.inum]
        · rw [(hwalk'.disk hg).dinode, (hwalk'.disk hg).block]
          exact hbump hg

end Fs

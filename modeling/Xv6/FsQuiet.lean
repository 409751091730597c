/-
# Path names in a quiescent file system

Between calls no inode is locked and every reference is that of an open file or of a
current directory.  A walk from such a state returns what `follow` says, leaves the disk and
the other references alone, logs nothing, and has given back every lock (`namex_walk`).  It
stops with a panic only at a directory that is free, or for want of an entry in the inode
table.

A walk would free an inode without links if it held its only reference.  So the inodes
that names lead to must have a link or be open (`Reach`).
-/
import Xv6.FsLookup
import Xv6.FsNames

namespace Fs

open Function Hoare
open Proc (NPROC)

variable {sb : Superblock} {o : ℕ} {H B : Multiset Ip} {dp e ip : Ip} {s t u : State}
variable {R : ℕ → Prop} {inum : ℕ} {name : List UInt8} {p : Fin NPROC}

/-! ## One step of a walk -/

/-- The invariant of a call, without what depends on the shape of the tree. -/
abbrev Calm (sb : Superblock) (o : ℕ) (H : Multiset Ip) (s : State) : Prop :=
  Inv sb True .off o H s

/-- Nothing has changed but references that the call does not hold any more, or does not hold
yet. -/
structure Still (B : Multiset Ip) (s t : State) : Prop where
  disk : SameDisk s t
  keeps : Keeps B s t
  locked : t.locked = s.locked
  ops : t.ops = s.ops

theorem Still.refl (B : Multiset Ip) (s : State) : Still B s s :=
  ⟨SameDisk.refl s, Keeps.refl B s, rfl, rfl⟩

theorem Still.trans (h : Still B s t) (h' : Still B t u) : Still B s u :=
  ⟨h.disk.trans h'.disk, h.keeps.trans h'.keeps, h'.locked.trans h.locked, h'.ops.trans h.ops⟩

theorem Still.mono (h : Still H s t) (hB : ∀ e ∈ B, e ∈ H) : Still B s t :=
  ⟨h.disk, h.keeps.mono hB, h.locked, h.ops⟩

theorem Still.of_cons (h : Still (ip ::ₘ B) s t) : Still B s t :=
  h.mono fun _ => Multiset.mem_cons_of_mem

/-- **`ilock`** of an inode that is not locked. -/
theorem Calm.lock (h : Calm sb o H s) (hpos : 0 < (s.itable e).ref) (hfree : s.locked e = false) :
    Ends (ilock e s) (fun _ t => Calm sb o H t ∧ Loaded e s t ∧
      t.locked = update s.locked e true ∧ t.ops = s.ops)
      fun msg _ => msg = "ilock: no type" ∧ (s.dinode (s.itable e).inum).type = 0 := by
  have haside : Ends (ilock e s)
      (fun _ t => t.locked = update s.locked e true ∧ t.ops = s.ops)
      fun msg _ => msg = "ilock: no type" ∧ (s.dinode (s.itable e).inum).type = 0 := by
    have hacquire : acquiresleep e s =
        .ok () { s with locked := update s.locked e true } :=
      if_neg (by rw [hfree]; decide)
    unfold ilock
    rw [inode_bind, if_neg (by omega), bind_of_ok hacquire]
    by_cases hv : (s.itable e).valid = true
    · rw [if_pos hv]
      exact ⟨rfl, rfl⟩
    · rw [if_neg hv, bind_of_ok (rfl : dinode _ _ = .ok _ _),
        bind_of_ok (rfl : setInode e _ _ = .ok () _)]
      by_cases htype : (s.dinode (s.itable e).inum).type = 0
      · rw [if_pos (by exact htype)]
        exact ⟨rfl, htype⟩
      · rw [if_neg (by exact htype)]
        exact ⟨rfl, rfl⟩
  refine ((ilock_ends h hpos).both haside).imp ?_ ?_
  · rintro _ t ⟨⟨hinv, hload⟩, hlocked, hops⟩
    exact ⟨hinv, hload, hlocked, hops⟩
  · exact fun _ _ h => h.2

/-- **`iput`** of a reference that is not the last one. -/
theorem Calm.put (h : Calm sb o (ip ::ₘ B) s) (hlast : ¬ LastRef ip s) :
    ∃ t, iput ip s = .ok () t ∧ Calm sb o B t ∧ Still B s t := by
  obtain ⟨hinv, hkeeps⟩ := h.drop rfl
  refine ⟨_, ?_, hinv, ⟨rfl, rfl, rfl⟩, hkeeps, rfl, rfl⟩
  unfold LastRef at hlast
  unfold iput
  rw [inode_bind, if_neg hlast]
  rfl

/-- **`iunlock`** of a locked inode. -/
theorem iunlock_ok (hpos : 0 < (s.itable ip).ref) (hl : s.locked ip = true) :
    iunlock ip s = .ok () { s with locked := update s.locked ip false } := by
  unfold iunlock
  rw [inode_bind, bind_of_ok (rfl : holdingsleep ip s = .ok _ s),
    if_neg (by rw [hl, not_or]; exact ⟨by decide, by omega⟩)]
  rfl

/-- **`iunlockput`** of a reference that is not the last one. -/
theorem Calm.unlockput (h : Calm sb o (ip ::ₘ B) s) (hl : s.locked ip = true)
    (hlast : ¬ LastRef ip s) :
    ∃ t, iunlockput ip s = .ok () t ∧ Calm sb o B t ∧ SameDisk s t ∧ Keeps B s t ∧
      t.locked = update s.locked ip false ∧ t.ops = s.ops := by
  have hrun := iunlock_ok (h.refs.pos_of_mem (Multiset.mem_cons_self ip B)) hl
  obtain ⟨t, hput, hcalm, hstill⟩ :=
    Calm.put (h.aside (update s.locked ip false) s.ops) hlast
  refine ⟨t, ?_, hcalm, ⟨hstill.disk.dinode, hstill.disk.bitmap, hstill.disk.block⟩,
    hstill.keeps.before rfl rfl rfl, hstill.locked, hstill.ops⟩
  unfold iunlockput
  rw [bind_of_ok hrun]
  exact hput

/-- What `iget` adds is never the last reference: there was one before, or the entry is
new and has not been read. -/
theorem Got.not_lastRef (h : Got inum ip s t) : ¬ LastRef ip t := by
  rintro ⟨href, hv, -⟩
  obtain ⟨x, rfl, -, hx, hcase⟩ := h.state
  simp only [update_self] at href hv
  rcases hcase with ⟨hpos, -⟩ | ⟨-, hx', -⟩
  · omega
  · rw [hx'] at hv
    cases hv

theorem Got.still (h : Got inum ip s t) (hinv : Calm sb o H s) :
    Calm sb o (ip ::ₘ H) t ∧ Still H s t := by
  obtain ⟨hinv', hkeeps⟩ := hinv.got h fun hg => hg.elim
  refine ⟨hinv', h.sameDisk, hkeeps, ?_, ?_⟩
  · obtain ⟨x, rfl, -⟩ := h.state
    rfl
  · obtain ⟨x, rfl, -⟩ := h.state
    rfl

/-- **The end of a lookup**: one more reference, to the inode of the slot. -/
theorem Calm.fetch (h : Calm sb o H s) (inum off : ℕ) : Ends (Fs.fetch inum off s)
      (fun r t => ∃ ip, r = some (ip, off) ∧ Calm sb o (ip ::ₘ H) t ∧ Still H s t ∧
        (t.itable ip).inum = inum ∧ ¬ LastRef ip t)
      fun msg _ => msg = "iget: no inodes" ∧ ∀ e, (s.itable e).ref ≠ 0 := by
  unfold Fs.fetch
  rw [bind_of_ok (rfl : noteLookup _ s = .ok () _)]
  have hnote : Calm sb o H
      { s with dangled := s.dangled || decide ((s.dinode inum).type = 0) } :=
    h.note fun hg => hg.elim
  refine Ends.bind ((iget_got inum _).imp (fun _ _ hgot => hgot) fun msg t hfull =>
    ⟨hfull.1, hfull.2.2⟩) ?_
  intro ip t hgot
  obtain ⟨hcalm, hstill⟩ := hgot.still hnote
  refine ⟨ip, rfl, hcalm, ⟨?_, hstill.keeps.before rfl rfl rfl, hstill.locked, hstill.ops⟩,
    hgot.inum_eq, hgot.not_lastRef⟩
  exact ⟨hstill.disk.dinode, hstill.disk.bitmap, hstill.disk.block⟩

/-- **`dirlookup`** in a directory of whole slots. -/
theorem Calm.dirlookup (h : Calm sb o H s) (hdir : Listed sb dp s) (name : List UInt8) :
    Ends (Fs.dirlookup sb dp name s)
      (fun r t => match r with
        | none => t = s ∧ findSlot s.dinode s.block (s.itable dp).inum name = none
        | some (ip, off) => Calm sb o (ip ::ₘ H) t ∧ Still H s t ∧ ¬ LastRef ip t ∧
          ∃ k, findSlot s.dinode s.block (s.itable dp).inum name = some k ∧ off = DIRENT * k ∧
            (t.itable ip).inum = slotInum s.dinode s.block (s.itable dp).inum k)
      fun msg _ => msg = "iget: no inodes" ∧ ∀ e, (s.itable e).ref ≠ 0 := by
  rw [dirlookup_eq hdir]
  cases hfind : findSlot s.dinode s.block (s.itable dp).inum name with
  | none => exact ⟨rfl, rfl⟩
  | some k =>
    apply (h.fetch _ _).post
    rintro _ t ⟨ip, rfl, hcalm, hstill, hinum, hlast⟩
    exact ⟨hcalm, hstill, hlast, k, rfl, rfl, hinum⟩

/-! ## What names lead to -/

/-- An inode without links has a reference that the walk does not drop. -/
def Anchored (B : Multiset Ip) (s : State) (i : ℕ) : Prop :=
  Orphan s.dinode i → ∃ e, (e ∈ B ∨ 0 < shares s e) ∧ (s.itable e).inum = i

/-- **No reference to an anchored inode is the last one.** -/
theorem Anchored.not_lastRef (h : Anchored B s (s.itable ip).inum)
    (hinv : Calm sb o (ip ::ₘ B) s) : ¬ LastRef ip s := by
  rintro ⟨href, hv, hlink⟩
  have hgood := hinv.good trivial
  have hpos : 0 < (s.itable ip).ref := by rw [href]; decide
  have hclean := hgood.clean ip hpos hv
  obtain ⟨e, he, heq⟩ := h ⟨by rw [hclean]; exact hgood.typed ip hpos hv,
    by rw [hclean]; exact hlink⟩
  have he' : e ∈ ip ::ₘ B ∨ 0 < shares s e := he.imp_left Multiset.mem_cons_of_mem
  -- the entry is the one that the walk holds, and so has two references
  obtain rfl := hgood.unique e ip (hinv.refs.pos_of_kept he') hpos heq
  have hexact := hinv.refs.exact e
  rw [href, Multiset.count_cons_self] at hexact
  rcases he with he | he
  · have := Multiset.count_pos.mpr he
    omega
  · omega

theorem Anchored.keeps {i : ℕ} (h : Anchored B s i) (hk : Keeps B s t)
    (hi : Orphan t.dinode i → Orphan s.dinode i) : Anchored B t i := by
  intro ho
  obtain ⟨e, he, heq⟩ := h (hi ho)
  exact ⟨e, by rwa [hk.shares_eq], (hk.entry e he).1.trans heq⟩

theorem Anchored.mono {i : ℕ} (h : Anchored B s i) (hB : ∀ e ∈ B, e ∈ H) : Anchored H s i := by
  intro ho
  obtain ⟨e, he, heq⟩ := h ho
  exact ⟨e, he.imp (hB e) id, heq⟩

/-- **What names lead to.**  The set `R` is closed under the names in its directories, and its inodes
are anchored. -/
structure Reach (R : ℕ → Prop) (B : Multiset Ip) (s : State) : Prop where
  names : ∀ d, R d → (s.dinode d).type = T_DIR → ∀ k, k < slots s.dinode d →
    slotInum s.dinode s.block d k ≠ 0 → R (slotInum s.dinode s.block d k)
  anchored : ∀ i, R i → Anchored B s i
  even : ∀ d, R d → (s.dinode d).type = T_DIR → (s.dinode d).size % DIRENT = 0

theorem Reach.still (h : Reach R B s) (ht : Still B s t) : Reach R B t where
  names := by
    rw [ht.disk.dinode, ht.disk.block]
    exact h.names
  anchored i hi := (h.anchored i hi).keeps ht.keeps fun ho => by rwa [ht.disk.dinode] at ho
  even := by
    rw [ht.disk.dinode]
    exact h.even

theorem Reach.aside (h : Reach R B s) (l : Ip → Bool) (ops : List (List Target)) :
    Reach R B { s with locked := l, ops := ops } :=
  ⟨h.names, h.anchored, h.even⟩

theorem Reach.mono (h : Reach R B s) (hB : ∀ e ∈ B, e ∈ H) : Reach R H s where
  names := h.names
  anchored i hi := (h.anchored i hi).mono hB
  even := h.even

theorem Reach.lookup (h : Reach R B s) {d j : ℕ} (hd : R d) (htype : (s.dinode d).type = T_DIR)
    (hj : lookup s.dinode s.block d name = some j) : R j := by
  obtain ⟨k, hk, rfl⟩ := lookup_some hj
  obtain ⟨hlt, hne, -⟩ := findSlot_some hk
  exact h.names d hd htype k hlt hne

/-- **No reference of a walk is the last one.** -/
theorem Reach.not_lastRef (h : Reach R B s) (hinv : Calm sb o (ip ::ₘ B) s)
    (hip : R (s.itable ip).inum) : ¬ LastRef ip s :=
  (h.anchored _ hip).not_lastRef hinv

/-! ## Walks -/

/-- At most one entry of the inode table is free for a walk. -/
def Crowded (B : Multiset Ip) (s : State) : Prop :=
  ∀ e e', (shares s e = 0 ∧ e ∉ B) → (shares s e' = 0 ∧ e' ∉ B) → e = e'

theorem Crowded.still (h : Crowded B t) (ht : Still B s t) : Crowded B s := by
  intro e e' he he'
  rw [← ht.keeps.shares_eq] at he he'
  exact h e e' he he'

theorem Crowded.of_full (h : Calm sb o (ip ::ₘ B) s) (hfull : ∀ e, (s.itable e).ref ≠ 0) :
    Crowded B s := by
  have hone : ∀ e, (shares s e = 0 ∧ e ∉ B) → e = ip := by
    rintro e ⟨hshare, hB⟩
    by_contra hne
    have hexact := h.refs.exact e
    rw [hshare, Multiset.count_cons_of_ne hne, Multiset.count_eq_zero_of_notMem hB] at hexact
    exact hfull e (by simpa using hexact)
  intro e e' he he'
  rw [hone e he, hone e' he']

/-- Where a walk from inode `i` has arrived. -/
structure Arrived (sb : Superblock) (R : ℕ → Prop) (o : ℕ) (B : Multiset Ip) (parent : Bool)
    (i : ℕ) (names : List (List UInt8)) (last : List UInt8) (s : State)
    (r : Option (Ip × List UInt8)) (t : State) : Prop where
  calm : Calm sb o (walked r B) t
  still : Still B s t
  result : r.map (fun x => ((t.itable x.1).inum, x.2)) =
    follow s.dinode s.block parent i names last
  reach : ∀ ip name, r = some (ip, name) → R (t.itable ip).inum

/-- **The parent**: a directory, in which the last component is looked up. -/
theorem Arrived.parent {i : ℕ} {names : List (List UInt8)} {last : List UInt8}
    (h : Arrived sb R o B true i names last s (some (dp, name)) t) :
    (s.dinode (t.itable dp).inum).type = T_DIR ∧
      resolve s.dinode s.block i names = lookup s.dinode s.block (t.itable dp).inum name := by
  have hresult := h.result
  by_cases hne : names = []
  · rw [hne] at hresult
    cases hresult
  rw [follow_true _ _ _ hne] at hresult
  obtain ⟨d, hd, hdir⟩ := Option.bind_eq_some_iff.mp hresult.symm
  split at hdir
  swap
  · cases hdir
  rename_i htype
  simp only [Option.some.injEq, Prod.mk.injEq] at hdir
  obtain ⟨rfl, rfl⟩ := hdir
  refine ⟨htype, ?_⟩
  rw [resolve_getLast hne, hd, Option.bind_some, search_dir htype]

/-- Why a walk from inode `i` has panicked. -/
def Stops (B : Multiset Ip) (i : ℕ) (names : List (List UInt8)) (s : State) (msg : String) : Prop :=
  (msg = "ilock: no type" ∧ Dangles s.dinode s.block i names) ∨
    (msg = "iget: no inodes" ∧ Crowded B s)

/-- A walk that has started at `s` has locked the inode `ip`. -/
structure Inside (sb : Superblock) (R : ℕ → Prop) (o : ℕ) (B : Multiset Ip) (ip : Ip)
    (s t : State) : Prop where
  calm : Calm sb o (ip ::ₘ B) t
  valid : (t.itable ip).valid = true
  inum : (t.itable ip).inum = (s.itable ip).inum
  copy : s.dinode (s.itable ip).inum = (t.itable ip).d
  locked : t.locked ip = true
  still : Still B s { t with locked := update t.locked ip false }
  reach : Reach R B t
  here : R (t.itable ip).inum

theorem Inside.pos (h : Inside sb R o B ip s t) : 0 < (t.itable ip).ref :=
  h.calm.refs.pos_of_mem (Multiset.mem_cons_self ip B)

theorem Inside.disk (h : Inside sb R o B ip s t) : SameDisk s t :=
  ⟨h.still.disk.dinode, h.still.disk.bitmap, h.still.disk.block⟩

theorem Inside.keeps (h : Inside sb R o B ip s t) : Keeps B s t :=
  h.still.keeps.trans (Keeps.of_eq rfl rfl rfl)

/-- The walk locks an inode. -/
theorem Calm.enter (h : Calm sb o (ip ::ₘ B) s) (hreach : Reach R B s)
    (hip : R (s.itable ip).inum) (hfree : ∀ e, s.locked e = false) :
    Ends (ilock ip s) (fun _ t => Inside sb R o B ip s t)
      fun msg _ => msg = "ilock: no type" ∧ (s.dinode (s.itable ip).inum).type = 0 := by
  apply (Calm.lock h (h.refs.pos_of_mem (Multiset.mem_cons_self ip B)) (hfree ip)).post
  rintro _ t ⟨hcalm, hload, hlocked, hops⟩
  have hstill : Still B s { t with locked := update t.locked ip false } := by
    obtain ⟨hD, hbm, hblk⟩ := hload.disk
    refine ⟨⟨hD, hbm, hblk⟩, (hload.keeps B).trans (Keeps.of_eq rfl rfl rfl), ?_, hops⟩
    simp only
    rw [hlocked, update_idem, ← hfree ip, update_eq_self]
  refine ⟨hcalm, hload.valid, hload.inum, ?_, by rw [hlocked, update_self], hstill,
    (hreach.still hstill).aside t.locked t.ops, by rw [hload.inum]; exact hip⟩
  rw [← hload.inum, ← hload.disk.dinode]
  exact (hcalm.good trivial).clean ip (hcalm.refs.pos_of_mem (Multiset.mem_cons_self ip B))
    hload.valid

/-- The walk leaves the inode that it has locked. -/
theorem Inside.leave (h : Inside sb R o B ip s t) (hu : Calm sb o (ip ::ₘ H) u)
    (hB : ∀ e ∈ B, e ∈ H) (hstill : Still (ip ::ₘ B) t u) :
    ∃ v, iunlockput ip u = .ok () v ∧ Calm sb o H v ∧ Still B s v ∧ Keeps H u v := by
  have hreach : Reach R H u := (h.reach.still hstill.of_cons).mono hB
  have hinum := (hstill.keeps.mem (Multiset.mem_cons_self ip B)).1
  obtain ⟨v, hrun, hv, hdisk, hkeeps, hlocked, hops⟩ :=
    Calm.unlockput hu (by rw [hstill.locked, h.locked])
      (hreach.not_lastRef hu (by rw [hinum]; exact h.here))
  refine ⟨v, hrun, hv, ⟨h.disk.trans (hstill.disk.trans hdisk), ?_, ?_, ?_⟩, hkeeps⟩
  · exact (h.still.keeps.trans (hstill.of_cons.keeps.before rfl rfl rfl)).trans (hkeeps.mono hB)
  · rw [hlocked, hstill.locked]
    exact h.still.locked
  · rw [hops, hstill.ops]
    exact h.still.ops

theorem namexLoop_walk (parent : Bool) (fuel : ℕ) : ∀ ip path last s, path.length < fuel →
    Calm sb o (ip ::ₘ B) s → Reach R B s → R (s.itable ip).inum → (∀ e, s.locked e = false) →
    Ends (namexLoop sb parent fuel ip path last s)
      (Arrived sb R o B parent (s.itable ip).inum (components path) last s)
      fun msg _ => Stops B (s.itable ip).inum (components path) s msg := by
  induction fuel with
  | zero =>
    intro ip path last s hfuel
    omega
  | succ fuel ih =>
    intro ip path last s hfuel h hreach hip hfree
    unfold namexLoop
    cases hskip : skipelem path with
    | none =>
      rw [skipelem_eq_none hskip]
      cases parent with
      | true =>
        obtain ⟨t, hrun, hcalm, hstill⟩ := Calm.put h (hreach.not_lastRef h hip)
        simp only [if_true]
        rw [bind_of_ok hrun]
        exact ⟨hcalm, hstill, rfl, fun _ _ h => by cases h⟩
      | false =>
        simp only [Bool.false_eq_true, if_false]
        refine ⟨h, Still.refl B s, rfl, ?_⟩
        rintro _ _ ⟨⟩
        exact hip
    | some elem =>
      obtain ⟨name, rest⟩ := elem
      obtain ⟨hcomp, hlast, hlen⟩ := skipelem_eq_some hskip
      rw [hcomp]
      simp only
      refine Ends.bind ((Calm.enter h hreach hip hfree).imp (fun _ _ h => h) ?_) ?_
      · rintro msg _ ⟨rfl, hzero⟩
        exact Or.inl ⟨rfl, dangles_here hzero _ _⟩
      intro _ t hin
      rw [inode_bind]
      by_cases htype : (t.itable ip).d.type ≠ T_DIR
      · rw [if_pos htype]
        obtain ⟨v, hrun, hv, hstill, -⟩ := hin.leave hin.calm (fun _ => id) (Still.refl _ t)
        rw [bind_of_ok hrun]
        refine ⟨hv, hstill, ?_, fun _ _ h => by cases h⟩
        rw [follow_cons, if_pos (by rw [hin.copy]; exact htype)]
        rfl
      rw [if_neg htype]
      have hdir : (s.dinode (s.itable ip).inum).type = T_DIR := by
        rw [hin.copy]
        exact not_not.mp htype
      have hnot : ¬ (s.dinode (s.itable ip).inum).type ≠ T_DIR := not_not.mpr hdir
      by_cases hparent : parent = true ∧ rest = []
      · rw [if_pos hparent, bind_of_ok (iunlock_ok hin.pos hin.locked)]
        refine ⟨hin.calm.aside _ _, hin.still, ?_, ?_⟩
        · rw [follow_cons, if_neg hnot, if_pos ⟨hparent.1, hlast.mp hparent.2⟩, ← hin.inum]
          rfl
        · rintro _ _ ⟨⟩
          exact hin.here
      rw [if_neg hparent]
      have hfollow : follow s.dinode s.block parent (s.itable ip).inum (name :: components rest)
          last = (lookup s.dinode s.block (s.itable ip).inum name).bind fun j =>
            follow s.dinode s.block parent j (components rest) name := by
        rw [follow_cons, if_neg hnot, if_neg fun hc => hparent ⟨hc.1, hlast.mpr hc.2⟩]
      have hlisted : Listed sb ip t := by
        refine ⟨hin.calm.good trivial, hin.pos, hin.valid, not_not.mp htype, ?_⟩
        rw [← hin.copy]
        exact hreach.even _ hip hdir
      refine Ends.bind ((Calm.dirlookup hin.calm hlisted name).imp (fun _ _ h => h) ?_) ?_
      · rintro msg _ ⟨rfl, hfull⟩
        have hcrowd := Crowded.of_full (s := { t with locked := update t.locked ip false })
          (hin.calm.aside _ _) hfull
        exact Or.inr ⟨rfl, hcrowd.still hin.still⟩
      rw [hin.disk.dinode, hin.disk.block, hin.inum]
      rintro (_ | ⟨next, off⟩) u hlook
      · obtain ⟨rfl, hnone⟩ := hlook
        obtain ⟨v, hrun, hv, hstill, -⟩ := hin.leave hin.calm (fun _ => id) (Still.refl _ u)
        simp only
        rw [bind_of_ok hrun]
        refine ⟨hv, hstill, ?_, fun _ _ h => by cases h⟩
        rw [hfollow, lookup, hnone]
        rfl
      · obtain ⟨hcalm, hstill, -, k, hfind, -, hnext⟩ := hlook
        have hj : lookup s.dinode s.block (s.itable ip).inum name = some (u.itable next).inum := by
          rw [lookup, hfind, hnext]
          rfl
        rw [Multiset.cons_swap] at hcalm
        obtain ⟨v, hrun, hv, hsv, hkeeps⟩ :=
          hin.leave hcalm (fun _ => Multiset.mem_cons_of_mem) hstill
        have hvnext : (v.itable next).inum = (u.itable next).inum :=
          (hkeeps.mem (Multiset.mem_cons_self next B)).1
        have hR : R (v.itable next).inum := by
          rw [hvnext]
          exact hreach.lookup hip hdir hj
        simp only
        rw [bind_of_ok hrun]
        have hrest := ih next rest name v (by omega) hv (hreach.still hsv) hR fun e => by
          rw [hsv.locked]
          exact hfree e
        rw [hvnext] at hrest
        refine hrest.imp ?_ ?_
        · intro r x hr
          refine ⟨hr.calm, hsv.trans hr.still, ?_, hr.reach⟩
          rw [hr.result, hfollow, hj, hsv.disk.dinode, hsv.disk.block]
          rfl
        · rintro msg _ (⟨rfl, hdang⟩ | ⟨rfl, hcrowd⟩)
          · rw [hsv.disk.dinode, hsv.disk.block] at hdang
            exact Or.inl ⟨rfl, hdang.cons ((search_dir hdir).trans hj)⟩
          · exact Or.inr ⟨rfl, hcrowd.still hsv⟩

/-- The inode that a walk of the path begins at. -/
def start (s : State) (c : Ip) (path : List UInt8) : ℕ :=
  if path.head? = some 47 then ROOTINO else (s.itable c).inum

theorem namexStart_got {c : Ip} (h : Calm sb o B s) (hc : (s.proc p).cwd = some c)
    (path : List UInt8) :
    Ends (namexStart p path s) (fun r t => ∃ ip, r = some ip ∧ Got (start s c path) ip s t)
      fun msg _ => msg = "iget: no inodes" ∧ ∀ e, (s.itable e).ref ≠ 0 := by
  unfold namexStart start
  by_cases habs : path.head? = some 47
  · rw [if_pos habs, if_pos habs]
    apply Ends.map
    apply (iget_got ROOTINO s).imp
    · exact fun ip t hgot => ⟨ip, rfl, hgot⟩
    · exact fun msg t hfull => ⟨hfull.1, hfull.2.2⟩
  · obtain ⟨t, hrun, hgot⟩ := idup_got (h.refs.pos_of_cwd hc)
    rw [if_neg habs, if_neg habs, bind_of_ok (rfl : cwd p s = .ok _ s), hc]
    simp only
    rw [bind_of_ok hrun]
    exact ⟨c, rfl, hgot⟩

/-- **`namex`** returns what the names on the disk say, and changes nothing. -/
theorem namex_walk {c : Ip} (h : Calm sb o B s) (hreach : Reach R B s)
    (hfree : ∀ e, s.locked e = false) (hc : (s.proc p).cwd = some c) (path : List UInt8)
    (hR : R (start s c path)) (parent : Bool) : Ends (namex sb p path parent s)
      (Arrived sb R o B parent (start s c path) (components path) [] s)
      fun msg _ => Stops B (start s c path) (components path) s msg := by
  unfold namex
  refine Ends.bind ((namexStart_got h hc path).imp (fun _ _ h => h) ?_) ?_
  · rintro msg _ ⟨rfl, hfull⟩
    refine Or.inr ⟨rfl, fun e e' he _ => absurd ?_ (hfull e)⟩
    rw [h.refs.exact, he.1, Multiset.count_eq_zero_of_notMem he.2]
    rfl
  rintro r t ⟨ip, rfl, hgot⟩
  obtain ⟨hcalm, hstill⟩ := hgot.still h
  have hloop := namexLoop_walk parent _ ip path [] t (Nat.lt_succ_self _) hcalm
    (hreach.still hstill) (by rw [hgot.inum_eq]; exact hR)
    fun e => by rw [hstill.locked]; exact hfree e
  rw [hgot.inum_eq] at hloop
  refine hloop.imp ?_ ?_
  · intro r u hr
    refine ⟨hr.calm, hstill.trans hr.still, ?_, hr.reach⟩
    rw [hr.result, hstill.disk.dinode, hstill.disk.block]
  · rintro msg _ (⟨rfl, hdang⟩ | ⟨rfl, hcrowd⟩)
    · rw [hstill.disk.dinode, hstill.disk.block] at hdang
      exact Or.inl ⟨rfl, hdang⟩
    · exact Or.inr ⟨rfl, hcrowd.still hstill⟩

theorem namei_walk {c : Ip} (h : Calm sb o B s) (hreach : Reach R B s)
    (hfree : ∀ e, s.locked e = false) (hc : (s.proc p).cwd = some c) (path : List UInt8)
    (hR : R (start s c path)) : Ends (namei sb p path s) (fun r t => ∃ r', r = r'.map Prod.fst ∧
        Arrived sb R o B false (start s c path) (components path) [] s r' t)
      fun msg _ => Stops B (start s c path) (components path) s msg := by
  apply Ends.map
  exact (namex_walk h hreach hfree hc path hR false).post fun r t hr => ⟨r, rfl, hr⟩

/-! ## Quiescent file systems -/

/-- **A quiescent file system**, between calls or at the beginning of one: no inode is
locked, the references are those of open files and current directories, and these are
of allocated inodes. -/
structure Quiet (sb : Superblock) (o : ℕ) (s : State) : Prop where
  calm : Calm sb o 0 s
  free : ∀ e, s.locked e = false
  alloc : ∀ e, 0 < (s.itable e).ref → (s.dinode (s.itable e).inum).type ≠ 0
  reach : ∃ R : ℕ → Prop, R ROOTINO ∧
    (∀ p c, (s.proc p).cwd = some c → R (s.itable c).inum) ∧ Reach R 0 s

/-- **`begin_op`.** -/
theorem Calm.begin (h : Calm sb o H s) : Calm sb (o + 1) H s.begun :=
  Settled.inv (Settled.begin ⟨h, fun hg => hg.elim, fun hg => hg.elim⟩)

/-- **`end_op`.** -/
theorem Calm.finish (h : Calm sb (o + 1) H s) : Calm sb o H s.ended :=
  Settled.inv (Settled.finish ⟨h, fun hg => hg.elim, fun hg => hg.elim⟩)

theorem Quiet.begin (h : Quiet sb o s) : Quiet sb (o + 1) s.begun := by
  obtain ⟨R, hroot, hcwd, hreach⟩ := h.reach
  exact ⟨Calm.begin h.calm, h.free, h.alloc, R, hroot, hcwd,
    ⟨hreach.names, hreach.anchored, hreach.even⟩⟩

/-- A settled file system in which every current directory has a name is quiescent. -/
theorem Settled.quiet {lost : ℕ → Prop} (h : Settled sb True ⟨True, lost⟩ o 0 s)
    (hfree : ∀ e, s.locked e = false)
    (hcwd : ∀ p c, (s.proc p).cwd = some c → (s.dinode (s.itable c).inum).nlink ≠ 0) :
    Quiet sb o s := by
  have hlive := h.inv.live trivial
  have htree := h.tree trivial
  refine ⟨⟨h.inv.refs, h.inv.op, fun hg => hg.elim, fun _ => h.inv.good trivial,
    fun hg => hg.elim⟩, hfree, hlive.alloc, Attached s.dinode, htree.closed.root, ?_, ?_⟩
  · intro p c hc
    exact ⟨hlive.alloc c (h.inv.refs.pos_of_cwd hc), hcwd p c hc⟩
  · refine ⟨fun d hd htype k hk hne => ?_, fun i hi ho => absurd ho.2 hi.2, fun d _ hd => ?_⟩
    · exact htree.attached_slot htype hd.2 hk hne
    · exact (htree.shaped d hd).size

end Fs

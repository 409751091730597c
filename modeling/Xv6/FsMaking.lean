/-
# Making an inode

`create` resolves the parent of a path, and returns the inode that the path names or makes a
new one.  By the time it fails for a new inode it may have filled in the inode and up to two
of its entries; `fail:` truncates and frees it again.  In a quiescent file system a failing
`create` gives back its references and leaves every inode as it looked (`NoTrace`), and one
that succeeds has found the name or made an inode of its type (`Calm.create`).
-/
import Xv6.FsLinking
import Xv6.FsResolve

namespace Fs

open Hoare
open Itable (CShort)
open Proc (NPROC)

variable {sb : Superblock} {o : ℕ} {H B : Multiset Ip} {dp ip c : Ip} {s t u : State}
variable {D₀ : ℕ → Dinode} {blk₀ : ℕ → ℕ → UInt8} {i d k : ℕ}
variable {R : ℕ → Prop} {name : List UInt8} {p : Fin NPROC} {type major minor : CShort}

/-- **A call that has failed** gives back its references and leaves every inode as it
looked. -/
structure NoTrace (sb : Superblock) (o : ℕ) (B : Multiset Ip) (s t : State) : Prop where
  calm : Calm sb o B t
  keeps : Keeps B s t
  alike : ∀ m, Alike s.dinode s.block t.dinode t.block m

theorem NoTrace.of_still (h : Still B s t) (ht : Calm sb o B t) : NoTrace sb o B s t :=
  ⟨ht, h.keeps, fun m => h.disk.alike m⟩

theorem NoTrace.after (h : NoTrace sb o B t u) (hdisk : SameDisk s t) (hk : Keeps B s t) :
    NoTrace sb o B s u :=
  ⟨h.calm, hk.trans h.keeps, fun m => (hdisk.alike m).trans (h.alike m)⟩

theorem NoTrace.of_begun (h : NoTrace sb o B s.begun t) : NoTrace sb o B s t :=
  ⟨h.calm, ⟨h.keeps.ftable, h.keeps.proc, h.keeps.entry⟩, h.alike⟩

/-- The transaction is closed. -/
theorem NoTrace.ended (h : NoTrace sb (o + 1) B s.begun t) : NoTrace sb o B s t.ended :=
  NoTrace.of_begun ⟨Calm.finish h.calm, h.keeps.trans (Keeps.of_eq rfl rfl rfl), h.alike⟩

/-! ## create -/

/-- **`fail:`** frees the new inode. -/
theorem Calm.createFail (h : Calm sb o (ip ::ₘ dp ::ₘ B) s) (ho : 1 ≤ o)
    (hv : (s.itable ip).valid = true) (hsole : Sole ip (dp ::ₘ B) s)
    (hfree : (D₀ (s.itable ip).inum).type = 0)
    (hother : ∀ m, m ≠ (s.itable ip).inum → Alike D₀ blk₀ s.dinode s.block m)
    (hanch : Anchored B s (s.itable dp).inum) :
    Ends (Fs.createFail dp ip s) (fun r t => r = none ∧ Calm sb o B t ∧ Keeps B s t ∧
      ∀ m, Alike D₀ blk₀ t.dinode t.block m) fun _ _ => True := by
  have hip := Multiset.mem_cons_self ip (dp ::ₘ B)
  unfold Fs.createFail
  apply Ends.bind (setNlink_ends _ h (fun _ => ho) (h.refs.pos_of_mem hip) fun _ => hv).loose
  rintro _ t ⟨ht, hbody, hrel⟩
  apply Ends.bind (iunlockput_ends ht fun _ => ho).loose
  rintro _ u ⟨hu, hkeeps, hput⟩
  have hr := hrel trivial
  have hvt : (t.itable ip).valid = true := by
    rw [hbody.valid]
    exact hv
  -- the last reference, and no link
  have hlast : LastRef ip t := by
    refine ⟨(hsole.keeps (hbody.keeps 0)).ref_eq ht.refs, hvt, ?_⟩
    rw [← (ht.good trivial).clean ip (ht.refs.pos_of_mem hip) hvt, hbody.inum, hr.self]
  have hfreed := (hput trivial).freed hlast
  have hback : ∀ m, Alike D₀ blk₀ u.dinode u.block m := by
    intro m
    by_cases hm : m = (s.itable ip).inum
    · subst hm
      have htype := hfreed.type
      rw [hbody.inum] at htype
      exact Alike.of_free hfree htype
    · exact (hother m hm).trans ((hr.alike hm).trans (hfreed.alike (by rw [hbody.inum]; exact hm)))
  have hksu : Keeps (dp ::ₘ B) s u := (hbody.keeps _).trans hkeeps
  have hdpu := (hksu.mem (Multiset.mem_cons_self dp B)).1
  have hanchu : Anchored B u (u.itable dp).inum := by
    rw [hdpu]
    refine hanch.keeps (hksu.mono fun _ => Multiset.mem_cons_of_mem) fun horphan => ?_
    have h0 := (hback _).orphan horphan
    by_cases hd : (s.itable dp).inum = (s.itable ip).inum
    · rw [hd] at h0
      exact absurd hfree h0.1
    · have halike := hother _ hd
      exact ⟨by rw [halike.type]; exact h0.1, by rw [halike.nlink h0.1]; exact h0.2⟩
  apply Ends.bind (iunlockput_ends hu fun _ => ho).loose
  rintro _ v ⟨hv', hkeeps', hput'⟩
  refine ⟨rfl, hv', (hksu.mono fun _ => Multiset.mem_cons_of_mem).trans hkeeps', fun m => ?_⟩
  exact (hback m).trans (((hput' trivial).same (hanchu.not_lastRef hu)).alike m)

/-- The entries `.` and `..` have been made. -/
def Dotted (i d : ℕ) (s t : State) : Prop :=
  ∃ D blk, Entered i dot i s.dinode s.block D blk ∧ Entered i dotdot d D blk t.dinode t.block

/-- **The entries `.` and `..`** of a new directory show at the directory only. -/
theorem Calm.createDots (h : Calm sb o (ip ::ₘ dp ::ₘ B) s) (ho : 1 ≤ o)
    (hdir : type = T_DIR → Listed sb ip s) : Ends (Fs.createDots sb dp ip type s)
      (fun r t => Calm sb o (ip ::ₘ dp ::ₘ B) t ∧ Keeps (ip ::ₘ dp ::ₘ B) s t ∧
        (∀ m, m ≠ (s.itable ip).inum → Alike s.dinode s.block t.dinode t.block m) ∧
        (∀ m, (t.dinode m).type = (s.dinode m).type ∧ (t.dinode m).nlink = (s.dinode m).nlink) ∧
        (r = true → type = T_DIR → Dotted (s.itable ip).inum (s.itable dp).inum s t))
      fun _ _ => True := by
  have hip := Multiset.mem_cons_self ip (dp ::ₘ B)
  have hdp : dp ∈ ip ::ₘ dp ::ₘ B := Multiset.mem_cons_of_mem (Multiset.mem_cons_self dp B)
  unfold Fs.createDots
  by_cases htype : type = T_DIR
  swap
  · rw [if_neg htype]
    exact ⟨h, Keeps.refl _ s, fun m _ => Alike.refl _ _ m, fun _ => ⟨rfl, rfl⟩,
      fun _ ht => absurd ht htype⟩
  rw [if_pos htype, inode_bind]
  have hlisted := hdir htype
  apply Ends.bind (Calm.dirlink h ho hlisted dot (s.itable ip).inum).loose
  rintro r t ⟨ht, hk, hdone⟩
  by_cases hr : r < 0
  · rw [if_pos hr]
    exact ⟨ht, hk, fun m hm => hdone.alike_of_ne hlisted hm,
      fun m => ⟨hdone.type_eq m, hdone.nlink_eq m⟩, fun h => by cases h⟩
  rw [if_neg hr, inode_bind]
  have hlisted' := hdone.listed hlisted ht hip hk
  apply Ends.bind (Calm.dirlink ht ho hlisted' dotdot (t.itable dp).inum).loose
  rintro r' u ⟨hu, hk', hdone'⟩
  have hip' := (hk.mem hip).1
  refine ⟨hu, hk.trans hk', fun m hm => ?_, fun m => ⟨?_, ?_⟩, fun hok _ => ?_⟩
  · exact (hdone.alike_of_ne hlisted hm).trans
      (hdone'.alike_of_ne hlisted' (by rw [hip']; exact hm))
  · exact (hdone'.type_eq m).trans (hdone.type_eq m)
  · exact (hdone'.nlink_eq m).trans (hdone.nlink_eq m)
  · have hr' : ¬ r' < 0 := not_lt.mpr (of_decide_eq_true hok)
    have hentered := hdone'.entered hlisted' hr'
    rw [hip', (hk.mem hdp).1] at hentered
    exact ⟨t.dinode, t.block, hdone.entered hlisted hr, hentered⟩

theorem Calm.countUp (h : Calm sb o H s) (ho : 1 ≤ o) (hpos : 0 < (s.itable dp).ref)
    (hv : (s.itable dp).valid = true) :
    Ends (Fs.countUp dp type s) (fun _ t => Calm sb o H t ∧ Body dp s t ∧
      ∀ m, m ≠ (s.itable dp).inum → Alike s.dinode s.block t.dinode t.block m) fun _ _ => True := by
  unfold Fs.countUp
  by_cases htype : type = T_DIR
  · rw [if_pos htype]
    apply (setNlink_ends _ h (fun _ => ho) hpos fun _ => hv).loose.post
    rintro _ t ⟨ht, hbody, hrel⟩
    exact ⟨ht, hbody, fun m hm => (hrel trivial).alike hm⟩
  · rw [if_neg htype]
    exact ⟨h, Body.refl dp s, fun m _ => Alike.refl _ _ m⟩

/-- **The new inode** `i` under the directory `d`: of its type, with one link, and a directory
with the entries `.` and `..`. -/
structure NewNode (i d : ℕ) (type : CShort) (t : State) : Prop where
  kind : (t.dinode i).type = type
  nlink : (t.dinode i).nlink = 1
  dots : type = T_DIR → ∃ u v, (u.dinode i).size = 0 ∧ Dotted i d u v ∧
    Alike v.dinode v.block t.dinode t.block i

/-- What `create` has done with a new inode `ip` for the directory `dp`.  If it has failed,
every inode looks as on the disk `D₀`, `blk₀`. -/
def NewDone (sb : Superblock) (o : ℕ) (B : Multiset Ip) (dp ip : Ip) (type : CShort)
    (D₀ : ℕ → Dinode) (blk₀ : ℕ → ℕ → UInt8) (s : State) (r : Option Ip) (t : State) : Prop :=
  match r with
  | none => Calm sb o B t ∧ Keeps B s t ∧ ∀ m, Alike D₀ blk₀ t.dinode t.block m
  | some e => e = ip ∧ Calm sb o (ip ::ₘ B) t ∧ Keeps (ip ::ₘ B) s t ∧
    (t.itable ip).valid = true ∧ NewNode (s.itable ip).inum (s.itable dp).inum type t

/-- **A new inode**, once it is allocated. -/
theorem Calm.createNew (h : Calm sb o (ip ::ₘ dp ::ₘ B) s) (ho : 1 ≤ o)
    (hdir : Listed sb dp s) (hsole : Sole ip (dp ::ₘ B) s)
    (htype : type ≠ 0) (hzero : s.dinode (s.itable ip).inum = Dinode.zero type)
    (hfree : (D₀ (s.itable ip).inum).type = 0)
    (hother : ∀ m, m ≠ (s.itable ip).inum → Alike D₀ blk₀ s.dinode s.block m)
    (hanch : Anchored B s (s.itable dp).inum) :
    Ends (Fs.createNew sb dp ip name type major minor s) (NewDone sb o B dp ip type D₀ blk₀ s)
      fun _ _ => True := by
  have hip := Multiset.mem_cons_self ip (dp ::ₘ B)
  have hdp : dp ∈ ip ::ₘ dp ::ₘ B := Multiset.mem_cons_of_mem (Multiset.mem_cons_self dp B)
  have hsub : ∀ e ∈ B, e ∈ ip ::ₘ dp ::ₘ B := fun _ he =>
    Multiset.mem_cons_of_mem (Multiset.mem_cons_of_mem he)
  -- the new inode is not the directory
  have hne : (s.itable dp).inum ≠ (s.itable ip).inum := by
    intro heq
    have := (h.good trivial).unique dp ip hdir.pos (h.refs.pos_of_mem hip) heq
    subst this
    exact absurd hsole.2 (by rw [Multiset.count_cons_self]; omega)
  unfold Fs.createNew
  apply Ends.bind (ilock_ends h (h.refs.pos_of_mem hip)).loose
  rintro _ t ⟨ht, hload⟩
  have hrelabels : Relabels fun d => { d with major, minor, nlink := 1 } :=
    fun _ => ⟨rfl, rfl, rfl⟩
  apply Ends.bind (relabel_ends hrelabels ht (fun _ => ho) (ht.refs.pos_of_mem hip)
    fun _ => hload.valid).loose
  rintro _ u ⟨hu, hbody, hrel⟩
  have hksu : Keeps (ip ::ₘ dp ::ₘ B) s u := (hload.keeps _).trans (hbody.keeps _)
  have hr := hrel trivial
  have halike : ∀ m, m ≠ (s.itable ip).inum → Alike s.dinode s.block u.dinode u.block m :=
    fun m hm => (hload.disk.alike m).trans (hr.alike (by rw [hload.inum]; exact hm))
  have hself : u.dinode (s.itable ip).inum =
      { Dinode.zero type with major, minor, nlink := 1 } := by
    have := hr.self
    rw [hload.inum, hload.disk.dinode, hzero] at this
    exact this
  have hvu : (u.itable ip).valid = true := by
    rw [hbody.valid]
    exact hload.valid
  have hlistedIp : type = T_DIR → Listed sb ip u := by
    intro htype
    have hclean := (hu.good trivial).clean ip (hu.refs.pos_of_mem hip) hvu
    rw [(hksu.mem hip).1, hself] at hclean
    refine ⟨hu.good trivial, hu.refs.pos_of_mem hip, hvu, ?_, ?_⟩
    · rw [← hclean]
      exact htype
    · rw [← hclean]
      rfl
  have hdots := Calm.createDots hu ho hlistedIp
  rw [(hksu.mem hip).1, (hksu.mem hdp).1] at hdots
  apply Ends.bind hdots
  rintro ok v ⟨hv, hkv, hsame, hfields, hdotted⟩
  have hksv := hksu.trans hkv
  -- both failures free the inode
  have hfail : ∀ x, Calm sb o (ip ::ₘ dp ::ₘ B) x → Keeps (ip ::ₘ dp ::ₘ B) v x →
      (∀ m, m ≠ (s.itable ip).inum → Alike v.dinode v.block x.dinode x.block m) →
      Ends (Fs.createFail dp ip x) (NewDone sb o B dp ip type D₀ blk₀ s) fun _ _ => True := by
    intro x hx hkx hsame'
    have hksx := hksv.trans hkx
    have hall : ∀ m, m ≠ (s.itable ip).inum → Alike s.dinode s.block x.dinode x.block m :=
      fun m hm => (halike m hm).trans ((hsame m hm).trans (hsame' m hm))
    have hfree' : (D₀ (x.itable ip).inum).type = 0 := by
      rw [(hksx.mem hip).1]
      exact hfree
    have hother' : ∀ m, m ≠ (x.itable ip).inum → Alike D₀ blk₀ x.dinode x.block m := by
      rw [(hksx.mem hip).1]
      exact fun m hm => (hother m hm).trans (hall m hm)
    have hanch' : Anchored B x (x.itable dp).inum := by
      rw [(hksx.mem hdp).1]
      exact hanch.keeps (hksx.mono hsub) (hall _ hne).orphan
    apply (Calm.createFail hx ho (((hkv.trans hkx).mem hip).2 hvu) (hsole.keeps hksx) hfree'
      hother' hanch').post
    rintro _ y ⟨rfl, hy, hky, hdone⟩
    exact ⟨hy, (hksx.mono hsub).trans hky, hdone⟩
  cases ok with
  | false =>
    rw [if_pos rfl]
    exact hfail v hv (Keeps.refl _ v) fun m _ => Alike.refl _ _ m
  | true =>
    rw [if_neg (by decide), inode_bind, (hksv.mem hip).1]
    have hlisted : Listed sb dp v :=
      hdir.of_alike hv hdp (hksv.mem hdp) ((halike _ hne).trans (hsame _ hne))
    apply Ends.bind (Calm.dirlink hv ho hlisted name (s.itable ip).inum).loose
    rintro r x ⟨hx, hkx, hdone⟩
    by_cases hneg : r < 0
    · rw [if_pos hneg]
      exact hfail x hx hkx fun m _ => hdone.alike hlisted hneg m
    rw [if_neg hneg]
    have hip' : (s.itable ip).inum ≠ (v.itable dp).inum := by
      rw [(hksv.mem hdp).1]
      exact hne.symm
    have hnew := hdone.alike_of_ne hlisted hip'
    have hxdp := (hksv.trans hkx).mem hdp
    apply Ends.bind (Calm.countUp hx ho (hx.refs.pos_of_mem hdp) (hxdp.2 hdir.valid))
    rintro _ y ⟨hy, hbodyy, hup⟩
    have hky := hkx.trans (hbodyy.keeps _)
    rw [Multiset.cons_swap] at hy
    apply Ends.bind (iunlockput_ends hy fun _ => ho).loose
    rintro _ z ⟨hz, hkz, hput⟩
    have hnew : Alike v.dinode v.block z.dinode z.block (s.itable ip).inum := by
      refine (hdone.alike_of_ne hlisted hip').trans ((hup _ ?_).trans ((hput trivial).alike ?_))
      · rw [hxdp.1]
        exact hne.symm
      · rw [((hksv.trans hky).mem hdp).1]
        exact hne.symm
    have hmono : ∀ e ∈ ip ::ₘ B, e ∈ ip ::ₘ dp ::ₘ B := fun e he =>
      (Multiset.mem_cons.mp he).elim (fun h => h ▸ hip) fun he => hsub e he
    have hkind : (v.dinode (s.itable ip).inum).type = type := by
      rw [(hfields _).1, hself]
      rfl
    refine ⟨rfl, hz, ((hksv.trans hky).mono hmono).trans hkz, ?_, ?_, ?_, fun hdirType => ?_⟩
    · exact (hkz.mem (Multiset.mem_cons_self ip B)).2 (((hkv.trans hky).mem hip).2 hvu)
    · rw [hnew.type, hkind]
    · rw [hnew.nlink (by rw [hkind]; exact htype), (hfields _).2, hself]
    · refine ⟨u, v, ?_, hdotted rfl hdirType, hnew⟩
      rw [hself]
      rfl

/-- **What `create` has done.**  The inode that it returns was there, or is new. -/
def CreateDone (sb : Superblock) (o : ℕ) (R : ℕ → Prop) (B : Multiset Ip) (start : ℕ)
    (path : List UInt8) (type : CShort) (s : State) (r : Option Ip) (t : State) : Prop :=
  match r with
  | none => NoTrace sb o B s t
  | some ip => Calm sb o (ip ::ₘ B) t ∧ Keeps B s t ∧ (t.itable ip).valid = true ∧
    ((type = T_FILE ∧ SameDisk s t ∧ R (t.itable ip).inum ∧
        resolve s.dinode s.block start (components path) = some (t.itable ip).inum) ∨
      (resolve s.dinode s.block start (components path) = none ∧ 0 < (t.itable ip).inum ∧
        (t.itable ip).inum < sb.ninodes ∧ (s.dinode (t.itable ip).inum).type = 0 ∧
        ∃ d, (s.dinode d).type = T_DIR ∧ NewNode (t.itable ip).inum d type t))

/-- **`create`** in a quiescent file system. -/
theorem Calm.create (h : Calm sb o B s) (ho : 1 ≤ o) (hreach : Reach R B s)
    (hfree : ∀ e, s.locked e = false)
    (halloc : ∀ e, 0 < (s.itable e).ref → (s.dinode (s.itable e).inum).type ≠ 0)
    (hc : (s.proc p).cwd = some c) (path : List UInt8) (hR : R (start s c path))
    (htype : type ≠ 0) : Ends (Fs.create sb p path type major minor s)
      (CreateDone sb o R B (start s c path) path type s) fun _ _ => True := by
  unfold Fs.create
  apply Ends.bind (namex_walk h hreach hfree hc path hR true).loose
  rintro (_ | ⟨dp, name⟩) t harr
  · exact NoTrace.of_still harr.still harr.calm
  have hdp := Multiset.mem_cons_self dp B
  have ht : Calm sb o (dp ::ₘ B) t := harr.calm
  have hRdp : R (t.itable dp).inum := harr.reach dp name rfl
  have hreach' := hreach.still harr.still
  simp only
  apply Ends.bind (Calm.enter ht hreach' hRdp fun e => by
    rw [harr.still.locked]; exact hfree e).loose
  intro _ u hin
  have hsu : SameDisk s u := harr.still.disk.trans hin.disk
  have hku : Keeps B s u := harr.still.keeps.trans hin.keeps
  obtain ⟨hdirType, hresolve⟩ := harr.parent
  have hcopy : s.dinode (u.itable dp).inum = (u.itable dp).d := by
    rw [hin.inum, ← hin.copy, harr.still.disk.dinode]
  rw [← hin.inum] at hdirType hresolve
  have hlisted : Listed sb dp u := by
    refine ⟨hin.calm.good trivial, hin.pos, hin.valid, by rw [← hcopy]; exact hdirType, ?_⟩
    rw [← hcopy]
    exact hreach.even _ (by rw [hin.inum]; exact hRdp) hdirType
  apply Ends.bind (Calm.dirlookup hin.calm hlisted name).loose
  rw [hsu.dinode, hsu.block]
  rintro (_ | ⟨ip, off⟩) v hlook
  · -- the name is new
    obtain ⟨rfl, hnone⟩ := hlook
    rw [lookup, hnone, Option.map_none] at hresolve
    simp only
    apply Ends.bind (ialloc_ends hin.calm (fun _ => ho) htype).loose
    rintro (_ | ip) x hx
    · obtain rfl := hx
      obtain ⟨y, hrun, hy, hstill, -⟩ := hin.leave hin.calm (fun _ => id) (Still.refl _ x)
      simp only
      rw [bind_of_ok hrun]
      exact NoTrace.of_still (harr.still.trans hstill) hy
    · obtain ⟨hx, hkx, inum, hall⟩ := hx
      have hne : (v.itable dp).inum ≠ inum := by
        rintro rfl
        have := hall.free
        rw [hsu.dinode, hdirType] at this
        exact absurd this (by decide)
      have hsame : ∀ m, m ≠ inum → Alike s.dinode s.block x.dinode x.block m := fun m hm =>
        (hsu.alike m).trans (hall.alike hm)
      -- the entry of a free inode is new
      have hfresh : ∀ e, 0 < (v.itable e).ref → (v.itable e).inum ≠ inum := by
        rintro e he rfl
        have htype0 : (s.dinode (v.itable e).inum).type = 0 := by
          rw [← hsu.dinode]
          exact hall.free
        by_cases hedp : e = dp
        · subst hedp
          exact hne rfl
        · have hkept : e ∈ B ∨ 0 < shares s e := by
            have := hin.calm.refs.kept_of_pos he
            rw [hku.shares_eq] at this
            exact this.imp_left fun hmem => (Multiset.mem_cons.mp hmem).resolve_left hedp
          rw [(hku.entry e hkept).1] at htype0
          exact halloc e (h.refs.pos_of_kept hkept) htype0
      have hxip := hall.inum_eq
      have hxdp := hkx.mem hdp
      have hksx : Keeps B s x := hku.trans (hkx.mono fun _ => Multiset.mem_cons_of_mem)
      have hdpx : dp ∈ ip ::ₘ dp ::ₘ B := Multiset.mem_cons_of_mem hdp
      have hlistedx : Listed sb dp x := hlisted.of_alike hx hdpx hxdp (hall.alike hne)
      have hanch : Anchored B x (x.itable dp).inum := by
        rw [hxdp.1]
        refine (hreach.anchored _ ?_).keeps hksx (hsame _ hne).orphan
        rw [hin.inum]
        exact hRdp
      have hzero : x.dinode (x.itable ip).inum = Dinode.zero type := by
        rw [hxip, hall.dinode, Function.update_self]
      have hfree₀ : (s.dinode (x.itable ip).inum).type = 0 := by
        rw [hxip, ← hsu.dinode]
        exact hall.free
      have hother : ∀ m, m ≠ (x.itable ip).inum → Alike s.dinode s.block x.dinode x.block m := by
        rw [hxip]
        exact hsame
      apply (Calm.createNew hx ho hlistedx (Sole.of_ref hx.refs (hall.fresh hfresh)) htype hzero
        hfree₀ hother hanch).post
      rintro (_ | e) z hz
      · exact ⟨hz.1, hksx.trans hz.2.1, hz.2.2⟩
      · obtain ⟨rfl, hcalm, hkz, hvalid, hnode⟩ := hz
        have hzip := (hkz.mem (Multiset.mem_cons_self e B)).1
        refine ⟨hcalm, hksx.trans (hkz.mono fun _ => Multiset.mem_cons_of_mem), hvalid, Or.inr ?_⟩
        rw [hzip]
        refine ⟨hresolve, ?_, ?_, hfree₀, (x.itable dp).inum, ?_, hnode⟩
        · rw [hxip]
          exact hall.pos
        · rw [hxip]
          exact hall.lt
        · rw [hxdp.1]
          exact hdirType
  · -- the inode is there already
    obtain ⟨hv, hstill, -, k, hfind, -, hinum⟩ := hlook
    rw [lookup, hfind, Option.map_some, ← hinum] at hresolve
    rw [Multiset.cons_swap] at hv
    obtain ⟨x, hrun, hx, hsx, hkx⟩ := hin.leave hv (fun _ => Multiset.mem_cons_of_mem) hstill
    have hxip := (hkx.mem (Multiset.mem_cons_self ip B)).1
    have hRip : R (x.itable ip).inum := by
      rw [hxip, hinum]
      obtain ⟨hlt, hne, -⟩ := findSlot_some hfind
      exact hreach.names _ (by rw [hin.inum]; exact hRdp) hdirType k hlt hne
    have hstillx : Still B s x := harr.still.trans hsx
    simp only
    rw [bind_of_ok hrun]
    apply Ends.bind (Calm.enter hx (hreach.still hstillx) hRip fun e => by
      rw [hstillx.locked]; exact hfree e).loose
    intro _ y hiny
    rw [inode_bind]
    by_cases hfile : type = T_FILE ∧
        ((y.itable ip).d.type = T_FILE ∨ (y.itable ip).d.type = T_DEVICE)
    · rw [if_pos hfile]
      refine ⟨hiny.calm, hstillx.keeps.trans hiny.keeps,
        hiny.valid, Or.inl ⟨hfile.1, hstillx.disk.trans hiny.disk, hiny.here, ?_⟩⟩
      rw [hiny.inum, hxip]
      exact hresolve
    · rw [if_neg hfile]
      obtain ⟨z, hrun', hz, hsz, -⟩ := hiny.leave hiny.calm (fun _ => id) (Still.refl _ y)
      rw [bind_of_ok hrun']
      exact NoTrace.of_still (hstillx.trans hsz) hz

end Fs

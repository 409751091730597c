/-
# Calls that fail leave no trace

`create`, `sys_link` and `sys_unlink` can fail at many points: a name is missing or there
already, the inodes or the blocks have run out.  `create` has then filled in a new inode, and
`sys_link` has counted a link that it does not make.  In a quiescent file system each failure
is undone: every inode looks as before, and the call has given back its references, its locks
and its transaction (`failed_names_leave_no_trace`).

`sys_open` with `O_CREATE` makes the file before it looks for a file structure and a
descriptor.  When one of these has run out it returns -1 and the new file stays
(`failed_open_creates`); every other failing `sys_open` leaves no trace
(`failed_open_leaves_no_trace`).
-/
import Xv6.FsMaking

namespace Fs

open Function Hoare
open Calls (NFILE NOFILE)
open Itable (CShort)
open Proc (NPROC)
open Transition

variable {sb : Superblock} {o : ℕ} {B : Multiset Ip} {dp ip c : Ip} {s t u : State}
variable {R : ℕ → Prop} {p : Fin NPROC} {f : Fin NFILE} {type major minor : CShort}

/-! ## sys_link -/

/-- A link that is counted and taken back does not show. -/
theorem Relabelled.undo {v : State} {e : Ip}
    (h : Relabelled ip (fun x => { x with nlink := x.nlink + 1 }) s t)
    (hsame : ∀ m, Alike t.dinode t.block u.dinode u.block m)
    (h' : Relabelled e (fun x => { x with nlink := x.nlink - 1 }) u v)
    (he : (u.itable e).inum = (s.itable ip).inum) (m : ℕ) :
    Alike s.dinode s.block v.dinode v.block m := by
  by_cases hm : m = (s.itable ip).inum
  · subst hm
    obtain ⟨htype, hnlink, hmajor, hminor, hsize, hbytes⟩ := hsame (s.itable ip).inum
    have hself' := h'.self
    rw [h.self] at htype hnlink hmajor hminor hsize hbytes
    rw [he] at hself'
    refine ⟨?_, fun hne => ?_, fun hne => ?_, fun hne => ?_, fun hne => ?_, fun hne j hj => ?_⟩
    · rw [hself']
      exact htype
    · rw [hself']
      show (u.dinode (s.itable ip).inum).nlink - 1 = _
      rw [hnlink hne]
      exact BitVec.add_sub_cancel _ 1
    · rw [hself']
      exact hmajor hne
    · rw [hself']
      exact hminor hne
    · rw [hself']
      exact hsize hne
    · rw [h'.content_eq (fun _ => ⟨rfl, rfl, rfl⟩), hbytes hne j hj,
        h.content_eq fun _ => ⟨rfl, rfl, rfl⟩]
  · exact (h.alike hm).trans ((hsame m).trans (h'.alike (by rw [he]; exact hm)))

/-- **`bad:`** in `sys_link` takes back the link that the call has counted. -/
theorem Calm.linkBad (h : Calm sb (o + 1) (ip ::ₘ B) u) (hk : Keeps B s u)
    (hrel : Relabelled ip (fun x => { x with nlink := x.nlink + 1 }) s t)
    (hsame : ∀ m, Alike t.dinode t.block u.dinode u.block m)
    (hinum : (u.itable ip).inum = (s.itable ip).inum)
    (hanch : Anchored B s (s.itable ip).inum) :
    Ends (Fs.linkBad ip u) (fun _ v => NoTrace sb o B s v) fun _ _ => True := by
  have hip := Multiset.mem_cons_self ip B
  unfold Fs.linkBad
  apply Ends.bind (ilock_ends h (h.refs.pos_of_mem hip)).loose
  rintro _ v ⟨hv, hload⟩
  apply Ends.bind (setNlink_ends _ hv (fun _ => by omega) (hv.refs.pos_of_mem hip)
    fun _ => hload.valid).loose
  rintro _ x ⟨hx, hbody, hrel'⟩
  apply Ends.bind (iunlockput_ends hx fun _ => by omega).loose
  rintro _ y ⟨hy, hky, hput⟩
  have hinumv : (v.itable ip).inum = (s.itable ip).inum := hload.inum.trans hinum
  have hback := hrel.undo (fun m => (hsame m).trans (hload.disk.alike m)) (hrel' trivial) hinumv
  have hksx : Keeps B s x := hk.trans ((hload.keeps B).trans (hbody.keeps B))
  have hlast : ¬ LastRef ip x := by
    refine Anchored.not_lastRef ?_ hx
    rw [hbody.inum, hinumv]
    exact hanch.keeps hksx (hback _).orphan
  rw [endOp_bind]
  exact ⟨Calm.finish hy, (hksx.trans hky).trans (Keeps.of_eq rfl rfl rfl), fun m =>
    (hback m).trans (((hput trivial).same hlast).alike m)⟩

/-- Counting a link of a held inode does not change which inodes are reached. -/
theorem Reach.relabelled (f : CShort → CShort) (h : Reach R B s) (hk : Keeps B s t)
    (hrel : Relabelled ip (fun x => { x with nlink := f x.nlink }) s t)
    (hinum : (t.itable ip).inum = (s.itable ip).inum) : Reach R (ip ::ₘ B) t := by
  have hcount := hrel.recounted
  refine ⟨fun d hd htype k hlt hne => ?_, fun i hi horphan => ?_, fun d hd htype => ?_⟩
  · rw [hcount.type] at htype
    rw [(hcount.slots d).slots_eq] at hlt
    rw [(hcount.slots d).inum_eq hlt] at hne ⊢
    exact h.names d hd htype k hlt hne
  · by_cases hip : i = (s.itable ip).inum
    · exact ⟨ip, Or.inl (Multiset.mem_cons_self ip B), hinum.trans hip.symm⟩
    · exact ((h.anchored i hi).keeps hk (hrel.alike hip).orphan).mono
        (fun _ => Multiset.mem_cons_of_mem) horphan
  · rw [hcount.type] at htype
    rw [(hcount.slots d).size]
    exact h.even d hd htype

/-- Where a path begins is reached. -/
theorem start_reached (hroot : R ROOTINO) (hcwd : R (s.itable c).inum) (path : List UInt8) :
    R (start s c path) := by
  unfold start
  split
  · exact hroot
  · exact hcwd

/-- A locked directory that a path has led to. -/
theorem Inside.listed (h : Inside sb R o B dp s t) (hreach : Reach R B s)
    (htype : (s.dinode (s.itable dp).inum).type = T_DIR) : Listed sb dp t := by
  refine ⟨h.calm.good trivial, h.pos, h.valid, ?_, ?_⟩
  · rw [← h.copy]
    exact htype
  · rw [← h.copy]
    exact hreach.even _ (by rw [← h.inum]; exact h.here) htype

/-- **`sys_link`** in a quiescent file system. -/
theorem sysLink_fails (h : Quiet sb o s) (hc : (s.proc p).cwd = some c)
    (old new : Option (List UInt8)) :
    Ends (sysLink sb p old new s) (fun r t => r = -1 → NoTrace sb o 0 s t) fun _ _ => True := by
  unfold sysLink
  have hsame : NoTrace sb o 0 s s := NoTrace.of_still (Still.refl 0 s) h.calm
  rcases argstr old with _ | old'
  · exact fun _ => hsame
  rcases argstr new with _ | new'
  · exact fun _ => hsame
  simp only
  rw [beginOp_bind]
  have hb := h.begin
  obtain ⟨R, hroot, hcwd, hreach⟩ := hb.reach
  apply Ends.bind (namei_walk hb.calm hreach hb.free hc old'
    (start_reached hroot (hcwd p c hc) old')).loose
  rintro r t ⟨r', rfl, harr⟩
  obtain _ | ⟨ip, last⟩ := r'
  · exact fun _ => (NoTrace.of_still harr.still harr.calm).ended
  have hRip : R (t.itable ip).inum := harr.reach ip last rfl
  simp only [Option.map_some]
  apply Ends.bind (Calm.enter harr.calm (hreach.still harr.still) hRip fun e => by
    rw [harr.still.locked]; exact hb.free e).loose
  intro _ u hin
  rw [inode_bind]
  by_cases hdir : (u.itable ip).d.type = T_DIR
  · rw [if_pos hdir]
    obtain ⟨v, hrun, hv, hstill, -⟩ := hin.leave hin.calm (fun _ => id) (Still.refl _ u)
    rw [bind_of_ok hrun]
    exact fun _ => (NoTrace.of_still (harr.still.trans hstill) hv).ended
  rw [if_neg hdir]
  apply Ends.bind (setNlink_ends _ hin.calm (fun _ => by omega) hin.pos fun _ => hin.valid).loose
  rintro _ v ⟨hv, hbody, hrel⟩
  have hposv : 0 < (v.itable ip).ref := hv.refs.pos_of_mem (Multiset.mem_cons_self ip 0)
  rw [bind_of_ok (iunlock_ok hposv (by rw [hbody.locked]; exact hin.locked))]
  generalize hx : { v with locked := update v.locked ip false } = x
  -- the link is counted, and the inode is unlocked again
  have hcalmx : Calm sb (o + 1) (ip ::ₘ 0) x := by
    rw [← hx]
    exact Inv.aside hv _ _
  have hrelx : Relabelled ip (fun y => { y with nlink := y.nlink + 1 }) u x := by
    rw [← hx]
    exact ⟨(hrel trivial).block, (hrel trivial).dinode⟩
  have hkux : Keeps (ip ::ₘ 0) u x := by
    rw [← hx]
    exact (hbody.keeps _).trans (Keeps.of_eq rfl rfl rfl)
  have hsu : SameDisk s.begun u := harr.still.disk.trans hin.disk
  have hksu : Keeps 0 s.begun u := harr.still.keeps.trans hin.keeps
  have hksx : Keeps 0 s.begun x := hksu.trans (hkux.mono fun _ => Multiset.mem_cons_of_mem)
  have hip := (hkux.mem (Multiset.mem_cons_self ip 0)).1
  have hreachx : Reach R (ip ::ₘ 0) x :=
    hin.reach.relabelled (· + 1) (hkux.mono fun _ => Multiset.mem_cons_of_mem) hrelx hip
  have hfreex : ∀ e, x.locked e = false := by
    intro e
    have hl := hin.still.locked
    simp only at hl
    rw [← hx, hbody.locked, hl, harr.still.locked]
    exact hb.free e
  have hcx : (x.proc p).cwd = some c := by
    rw [hksx.proc]
    exact hc
  have hRc : R (x.itable c).inum := by
    rw [(hksx.entry c (Or.inr (shares_pos_of_cwd hc))).1]
    exact hcwd p c hc
  have hanch := hin.reach.anchored _ hin.here
  apply Ends.bind (namex_walk hcalmx hreachx hfreex hcx new'
    (start_reached hroot hRc new') true).loose
  rintro (_ | ⟨dp, name⟩) y harr'
  · have hkuy := hkux.trans harr'.still.keeps
    apply (Calm.linkBad harr'.calm (hkuy.mono fun _ => Multiset.mem_cons_of_mem) hrelx
      (fun m => harr'.still.disk.alike m) (hkuy.mem (Multiset.mem_cons_self ip 0)).1 hanch).post
    intro r z hz _
    exact (hz.after hsu hksu).of_begun
  have hRdp : R (y.itable dp).inum := harr'.reach dp name rfl
  have hreachy := hreachx.still harr'.still
  simp only
  apply Ends.bind (Calm.enter harr'.calm hreachy hRdp fun e => by
    rw [harr'.still.locked]; exact hfreex e).loose
  intro _ z hinz
  have hlisted : Listed sb dp z := by
    refine hinz.listed hreachy ?_
    rw [harr'.still.disk.dinode]
    exact harr'.parent.1
  apply Ends.bind (Calm.dirlink hinz.calm (by omega) hlisted name _).loose
  rintro r a ⟨ha, hka, hdone⟩
  by_cases hr : r < 0
  swap
  · -- the link is made
    rw [if_neg hr]
    apply Ends.bind (Ends.any _)
    intro _ _ _
    apply Ends.bind (Ends.any _)
    intro _ _ _
    exact fun h => absurd h (by decide)
  rw [if_pos hr]
  apply Ends.bind (iunlockput_ends ha fun _ => by omega).loose
  rintro _ b ⟨hb', hkb, hput⟩
  have hkxz : Keeps (ip ::ₘ 0) x z := harr'.still.keeps.trans hinz.keeps
  have hkza : Keeps (ip ::ₘ 0) z a := hka.mono fun _ => Multiset.mem_cons_of_mem
  have hxa : ∀ m, Alike x.dinode x.block a.dinode a.block m := fun m =>
    ((harr'.still.disk.trans hinz.disk).alike m).trans (hdone.alike hlisted hr m)
  have hlast : ¬ LastRef dp a := by
    refine Anchored.not_lastRef ?_ ha
    rw [(hka.mem (Multiset.mem_cons_self dp _)).1]
    exact (hinz.reach.anchored _ hinz.here).keeps hkza (hdone.alike hlisted hr _).orphan
  have hkub := hkux.trans ((hkxz.trans hkza).trans hkb)
  apply (Calm.linkBad hb' (hkub.mono fun _ => Multiset.mem_cons_of_mem) hrelx
    (fun m => (hxa m).trans (((hput trivial).same hlast).alike m))
    (hkub.mem (Multiset.mem_cons_self ip 0)).1 hanch).post
  intro r z hz _
  exact (hz.after hsu hksu).of_begun

/-! ## sys_unlink, sys_mkdir and sys_mknod -/

/-- **`bad:`** in `sys_unlink`. -/
theorem Calm.unlinkBad (h : Calm sb (o + 1) (dp ::ₘ B) t) (hk : Keeps B s t)
    (hdisk : SameDisk s t) (hanch : Anchored B s (t.itable dp).inum) :
    Ends (Fs.unlinkBad dp t) (fun _ u => NoTrace sb o B s u) fun _ _ => True := by
  unfold Fs.unlinkBad
  apply Ends.bind (iunlockput_ends h fun _ => by omega).loose
  rintro _ u ⟨hu, hku, hput⟩
  have hlast : ¬ LastRef dp t :=
    Anchored.not_lastRef (hanch.keeps hk (hdisk.alike _).orphan) h
  rw [endOp_bind]
  exact ⟨Calm.finish hu, (hk.trans hku).trans (Keeps.of_eq rfl rfl rfl), fun m =>
    (hdisk.alike m).trans (((hput trivial).same hlast).alike m)⟩

/-- Once the entry is cleared, `sys_unlink` does not fail. -/
theorem unlinkEntry_zero (off : ℕ) :
    Ends (unlinkEntry sb dp ip off s) (fun r _ => r = 0) fun _ _ => True := by
  unfold unlinkEntry
  apply Ends.bind (Ends.any _)
  intro n t _
  by_cases hn : n ≠ DIRENT
  · rw [if_pos hn]
    exact Ends.panic trivial
  · rw [if_neg hn]
    repeat
      apply Ends.bind (Ends.any _)
      intro _ _ _
    exact Ends.ret rfl

/-- **`sys_unlink`** in a quiescent file system. -/
theorem sysUnlink_fails (h : Quiet sb o s) (hc : (s.proc p).cwd = some c)
    (path : Option (List UInt8)) :
    Ends (sysUnlink sb p path s) (fun r t => r = -1 → NoTrace sb o 0 s t) fun _ _ => True := by
  unfold sysUnlink
  rcases argstr path with _ | path'
  · exact fun _ => NoTrace.of_still (Still.refl 0 s) h.calm
  simp only
  rw [beginOp_bind]
  have hb := h.begin
  obtain ⟨R, hroot, hcwd, hreach⟩ := hb.reach
  apply Ends.bind (namex_walk hb.calm hreach hb.free hc path'
    (start_reached hroot (hcwd p c hc) path') true).loose
  rintro (_ | ⟨dp, name⟩) t harr
  · exact fun _ => (NoTrace.of_still harr.still harr.calm).ended
  have hRdp : R (t.itable dp).inum := harr.reach dp name rfl
  have hreacht := hreach.still harr.still
  simp only
  apply Ends.bind (Calm.enter harr.calm hreacht hRdp fun e => by
    rw [harr.still.locked]; exact hb.free e).loose
  intro _ u hin
  have hsu : SameDisk s.begun u := harr.still.disk.trans hin.disk
  have hksu : Keeps 0 s.begun u := harr.still.keeps.trans hin.keeps
  have hanch : Anchored 0 s.begun (u.itable dp).inum := hreach.anchored _ hin.here
  have hbad : Ends (unlinkBad dp u) (fun r v => r = -1 → NoTrace sb o 0 s v) fun _ _ => True :=
    (Calm.unlinkBad hin.calm hksu hsu hanch).post fun _ _ hv _ => hv.of_begun
  by_cases hdots : namecmp name dot ∨ namecmp name dotdot
  · rw [if_pos hdots]
    exact hbad
  rw [if_neg hdots]
  have hlisted : Listed sb dp u := by
    refine hin.listed hreacht ?_
    rw [harr.still.disk.dinode]
    exact harr.parent.1
  apply Ends.bind (Calm.dirlookup hin.calm hlisted name).loose
  rintro (_ | ⟨ip, off⟩) v hlook
  · obtain ⟨rfl, -⟩ := hlook
    exact hbad
  obtain ⟨hv, hstill, -, k, hfind, -, hinum⟩ := hlook
  have hip := Multiset.mem_cons_self ip (dp ::ₘ (0 : Multiset Ip))
  simp only
  apply Ends.bind (ilock_ends hv (hv.refs.pos_of_mem hip)).loose
  rintro _ w ⟨hw, hload⟩
  rw [inode_bind]
  by_cases hnlink : (w.itable ip).d.nlink.toInt < 1
  · rw [if_pos hnlink]
    exact Ends.panic trivial
  rw [if_neg hnlink]
  apply Ends.bind (nonempty_ends hw (hw.refs.pos_of_mem hip) fun _ => hload.valid).loose
  rintro r x ⟨-, -, hx⟩
  obtain ⟨rfl, -⟩ := hx trivial
  by_cases hr : r = true
  swap
  · rw [if_neg hr]
    apply (unlinkEntry_zero off).post
    rintro _ _ rfl
    exact fun h => absurd h (by decide)
  -- a directory that is not empty
  rw [if_pos hr]
  apply Ends.bind (iunlockput_ends hw fun _ => by omega).loose
  rintro _ y ⟨hy, hky, hput⟩
  have hkux : Keeps (dp ::ₘ 0) u x := hstill.keeps.trans (hload.keeps _)
  have hux : SameDisk u x := hstill.disk.trans hload.disk
  have hRip : R (x.itable ip).inum := by
    rw [hload.inum, hinum]
    obtain ⟨hlt, hne, -⟩ := findSlot_some hfind
    exact hin.reach.names _ hin.here (by rw [hlisted.clean]; exact hlisted.type) k hlt hne
  have hksx : Keeps 0 s.begun x := hksu.trans (hkux.mono fun _ => Multiset.mem_cons_of_mem)
  have hlast : ¬ LastRef ip x := by
    have hanchx := (hreach.anchored _ hRip).keeps hksx ((hsu.trans hux).alike _).orphan
    exact (hanchx.mono fun _ he => absurd he (Multiset.notMem_zero _)).not_lastRef hw
  have hkuy := hkux.trans hky
  rw [← (hkuy.mem (Multiset.mem_cons_self dp 0)).1] at hanch
  apply (Calm.unlinkBad hy (hksx.trans (hky.mono fun _ => Multiset.mem_cons_of_mem))
    ((hsu.trans hux).trans ((hput trivial).same hlast)) hanch).post
  intro _ z hz _
  exact hz.of_begun

/-- **`sys_mkdir` and `sys_mknod`** in a quiescent file system. -/
theorem sysMake_fails (h : Quiet sb o s) (hc : (s.proc p).cwd = some c)
    (path : Option (List UInt8)) (htype : type ≠ 0) :
    Ends (sysMake sb p path type major minor s) (fun r t => r = -1 → NoTrace sb o 0 s t)
      fun _ _ => True := by
  unfold sysMake
  rw [beginOp_bind]
  have hb := h.begin
  obtain ⟨R, hroot, hcwd, hreach⟩ := hb.reach
  rcases argstr path with _ | path'
  · exact fun _ => (NoTrace.of_still (Still.refl 0 _) hb.calm).ended
  apply Ends.bind (Calm.create hb.calm (by omega) hreach hb.free hb.alloc hc path'
    (start_reached hroot (hcwd p c hc) path') htype)
  rintro (_ | ip) t ht
  · exact fun _ => ht.ended
  · simp only
    apply Ends.bind (Ends.any _)
    intro _ _ _
    exact fun h => absurd h (by decide)

/-! ## Open files -/

theorem filealloc_eq (s : State) : (filealloc s = .ok none s ∧ ∀ f, (s.ftable f).ref ≠ 0) ∨
    ∃ f, (s.ftable f).ref = 0 ∧ filealloc s = .ok (some f)
      { s with ftable := update s.ftable f { s.ftable f with ref := 1 } } := by
  unfold filealloc
  rw [bind_of_ok (rfl : freeFile s = .ok _ s)]
  cases hfree : Calls.first fun f => decide ((s.ftable f).ref = 0) with
  | none => exact Or.inl ⟨rfl, fun f => of_decide_eq_false (first_none hfree f)⟩
  | some f => exact Or.inr ⟨f, of_decide_eq_true (first_some hfree), rfl⟩

theorem fdalloc_eq (p : Fin NPROC) (f : Fin NFILE) (s : State) :
    (fdalloc p f s = .ok none s ∧ ∀ fd, (s.proc p).ofile fd ≠ none) ∨
    ∃ fd t, fdalloc p f s = .ok (some fd) t := by
  unfold fdalloc
  rw [myproc_bind]
  cases hfree : Calls.first fun fd => ((s.proc p).ofile fd).isNone with
  | none =>
    refine Or.inl ⟨rfl, fun fd hfd => ?_⟩
    have := first_none hfree fd
    rw [hfd] at this
    cases this
  | some fd => exact Or.inr ⟨fd, _, rfl⟩

/-- A file structure that has not been used is given back as it was. -/
theorem fileclose_fresh (hzero : (s.ftable f).ref = 0) (hnone : (s.ftable f).type = .none) :
    fileclose f { s with ftable := update s.ftable f { s.ftable f with ref := 1 } } =
      .ok () s := by
  generalize ht : { s with
    ftable := update s.ftable f { s.ftable f with ref := 1 } } = t
  have hfile : file f t = .ok { s.ftable f with ref := 1 } t := by
    rw [← ht]
    exact congrArg (EStateM.Result.ok · _) (update_self f _ _)
  have hback : setFile f { s.ftable f with ref := 0, type := .none } t = .ok () s := by
    have hsame : ({ s.ftable f with ref := 0, type := .none } : File) = s.ftable f := by
      rw [← hzero, ← hnone]
    rw [hsame, ← ht]
    refine congrArg (EStateM.Result.ok () ·) ?_
    simp only [update_idem, update_eq_self]
  unfold fileclose
  rw [bind_of_ok hfile, if_neg (lt_irrefl 1), if_neg (lt_irrefl 1), bind_of_ok hback,
    if_neg (by rw [hnone]; decide)]
  rfl

/-- A file that is opened has a descriptor. -/
theorem openFile_fd {fd : Fin NOFILE} {omode : ℕ} (s : State) :
    Ends (openFile f fd ip omode s) (fun r _ => r = fd.val) fun _ _ => True := by
  unfold openFile
  rw [inode_bind, file_bind,
    bind_of_ok (rfl : setFile f _ s = .ok () _)]
  apply Ends.bind (Ends.any _)
  intro _ _ _
  apply Ends.bind (Ends.any _)
  intro _ _ _
  rw [endOp_bind]
  exact Ends.ret rfl

/-- **A locked inode that `sys_open` does not open.** -/
theorem openInode_fails (h : Calm sb (o + 1) (ip ::ₘ B) t) (hk : Keeps B s t)
    (hdisk : SameDisk s t) (hanch : Anchored B s (t.itable ip).inum) (omode : ℕ) :
    Ends (openInode p ip omode t) (fun r u => r = -1 → NoTrace sb o B s u) fun _ _ => True := by
  have hbad : Ends (openBad ip t) (fun r u => r = -1 → NoTrace sb o B s u) fun _ _ => True :=
    (Calm.unlinkBad h hk hdisk hanch).post fun _ _ hv _ => hv
  unfold openInode
  rw [inode_bind]
  by_cases hdev : (t.itable ip).d.type = T_DEVICE ∧
      ((t.itable ip).d.major.toInt < 0 ∨ NDEV ≤ (t.itable ip).d.major.toInt)
  · rw [if_pos hdev]
    exact hbad
  rw [if_neg hdev]
  obtain ⟨hrun, -⟩ | ⟨f, hzero, hrun⟩ := filealloc_eq t
  · rw [bind_of_ok hrun]
    exact hbad
  rw [bind_of_ok hrun]
  simp only
  obtain ⟨hrun', -⟩ | ⟨fd, v, hrun'⟩ := fdalloc_eq p f { t with
    ftable := update t.ftable f { t.ftable f with ref := 1 } }
  · rw [bind_of_ok hrun']
    simp only
    rw [bind_of_ok (fileclose_fresh hzero (h.refs.idle f hzero))]
    exact hbad
  · rw [bind_of_ok hrun']
    apply (openFile_fd v).post
    rintro _ _ rfl hneg
    exact absurd hneg (by omega)

/-- A locked inode that is not a device is opened if there are a file structure and a
descriptor for it. -/
theorem openInode_opens (htype : (t.itable ip).d.type ≠ T_DEVICE)
    (hfile : ∃ f, (t.ftable f).ref = 0) (hfd : ∃ fd, (t.proc p).ofile fd = none) (omode : ℕ) :
    Ends (openInode p ip omode t) (fun r _ => r ≠ -1) fun _ _ => True := by
  obtain ⟨f₀, hf₀⟩ := hfile
  obtain ⟨fd₀, hfd₀⟩ := hfd
  unfold openInode
  rw [inode_bind, if_neg fun h => htype h.1]
  obtain ⟨-, hfull⟩ | ⟨f, -, hrun⟩ := filealloc_eq t
  · exact absurd hf₀ (hfull f₀)
  rw [bind_of_ok hrun]
  simp only
  obtain ⟨-, hfull⟩ | ⟨fd, v, hrun'⟩ := fdalloc_eq p f { t with
    ftable := update t.ftable f { t.ftable f with ref := 1 } }
  · exact absurd hfd₀ (hfull fd₀)
  rw [bind_of_ok hrun']
  apply (openFile_fd v).post
  rintro _ _ rfl
  omega

/-- `sys_open` does not run out of file structures or descriptors after making a file: it
does not make files, or the path names an inode already, or both are there. -/
def Prepared (p : Fin NPROC) (c : Ip) (path : List UInt8) (omode : ℕ) (s : State) : Prop :=
  omode &&& O_CREATE = 0 ∨ (resolve s.dinode s.block (start s c path) (components path)).isSome ∨
    ((∃ f, (s.ftable f).ref = 0) ∧ ∃ fd, (s.proc p).ofile fd = none)

/-- **`sys_open`** in a quiescent file system. -/
theorem sysOpen_fails (h : Quiet sb o s) (hc : (s.proc p).cwd = some c)
    (path : Option (List UInt8)) (omode : ℕ)
    (hprep : ∀ path', argstr path = some path' → Prepared p c path' omode s) :
    Ends (sysOpen sb p path omode s) (fun r t => r = -1 → NoTrace sb o 0 s t) fun _ _ => True := by
  unfold sysOpen
  rcases hpath : argstr path with _ | path'
  · exact fun _ => NoTrace.of_still (Still.refl 0 s) h.calm
  simp only
  rw [beginOp_bind]
  have hb := h.begin
  obtain ⟨R, hroot, hcwd, hreach⟩ := hb.reach
  have hR := start_reached hroot (hcwd p c hc) path'
  by_cases hcreate : omode &&& O_CREATE ≠ 0
  · rw [if_pos hcreate]
    apply Ends.bind (Calm.create hb.calm (by omega) hreach hb.free hb.alloc hc path' hR
      (by decide))
    rintro (_ | ip) t ht
    · exact fun _ => ht.ended
    obtain ⟨hcalm, hkeeps, hvalid, ⟨-, hdisk, hRip, -⟩ | ⟨hnone, -, -, -, d, -, hnode⟩⟩ := ht
    · -- the file was there
      apply (openInode_fails hcalm hkeeps hdisk (hreach.anchored _ hRip) omode).post
      intro _ _ hu hr
      exact (hu hr).of_begun
    · -- the file is new
      obtain hno | hsome | ⟨⟨f, hf⟩, fd, hfd⟩ := hprep path' hpath
      · exact absurd hno hcreate
      · have hnone' : resolve s.dinode s.block (start s c path') (components path') = none := hnone
        rw [hnone'] at hsome
        cases hsome
      · have hpos := hcalm.refs.pos_of_mem (Multiset.mem_cons_self ip 0)
        have hdev : (t.itable ip).d.type ≠ T_DEVICE := by
          rw [← (hcalm.good trivial).clean ip hpos hvalid, hnode.kind]
          decide
        apply (openInode_opens hdev ⟨f, by rw [hkeeps.ftable]; exact hf⟩
          ⟨fd, by rw [hkeeps.proc]; exact hfd⟩ omode).post
        exact fun _ _ hr hneg => absurd hneg hr
  · rw [if_neg hcreate]
    apply Ends.bind (namei_walk hb.calm hreach hb.free hc path' hR).loose
    rintro r t ⟨r', rfl, harr⟩
    obtain _ | ⟨ip, last⟩ := r'
    · exact fun _ => (NoTrace.of_still harr.still harr.calm).ended
    simp only [Option.map_some]
    apply Ends.bind (Calm.enter harr.calm (hreach.still harr.still) (harr.reach ip last rfl)
      fun e => by rw [harr.still.locked]; exact hb.free e).loose
    intro _ u hin
    rw [inode_bind]
    have hsu : SameDisk s.begun u := harr.still.disk.trans hin.disk
    have hksu : Keeps 0 s.begun u := harr.still.keeps.trans hin.keeps
    have hanch : Anchored 0 s.begun (u.itable ip).inum := hreach.anchored _ hin.here
    by_cases hbad : (u.itable ip).d.type = T_DIR ∧ omode ≠ O_RDONLY
    · rw [if_pos hbad]
      exact (Calm.unlinkBad hin.calm hksu hsu hanch).post fun _ _ hv _ => hv.of_begun
    · rw [if_neg hbad]
      apply (openInode_fails hin.calm hksu hsu hanch omode).post
      intro _ _ hv hr
      exact (hv hr).of_begun

/-! ## What a caller sees -/

/-- The entries of a directory in use: their inode numbers and names. -/
def entriesOf (D : ℕ → Dinode) (blk : ℕ → ℕ → UInt8) (d : ℕ) : List (ℕ × List UInt8) :=
  ((List.range (slots D d)).map fun k => (slotInum D blk d k, slotName D blk d k)).filter
    fun x => x.1 ≠ 0

theorem Alike.entriesOf_eq {D D' : ℕ → Dinode} {blk blk' : ℕ → ℕ → UInt8} {d : ℕ}
    (h : Alike D blk D' blk' d) (hd : (D d).type ≠ 0) :
    entriesOf D' blk' d = entriesOf D blk d := by
  unfold entriesOf
  rw [h.slots_eq hd]
  congr 1
  apply List.map_congr_left
  intro k hk
  unfold slotInum slotName
  rw [h.slotBytes_eq hd (List.mem_range.mp hk)]

/-- **Nothing has changed**: the allocated inodes, their link counts and contents, the entries
of every directory, the references, the locks and the open transactions. -/
structure Unchanged (s t : State) : Prop where
  type : ∀ i, (t.dinode i).type = (s.dinode i).type
  nlink : ∀ i, (s.dinode i).type ≠ 0 → (t.dinode i).nlink = (s.dinode i).nlink
  size : ∀ i, (s.dinode i).type ≠ 0 → (t.dinode i).size = (s.dinode i).size
  bytes : ∀ i, (s.dinode i).type ≠ 0 → ∀ j, j < (s.dinode i).size →
    content t.dinode t.block i j = content s.dinode s.block i j
  entries : ∀ d, (s.dinode d).type = T_DIR →
    entriesOf t.dinode t.block d = entriesOf s.dinode s.block d
  refs : ∀ e, (t.itable e).ref = (s.itable e).ref
  ftable : t.ftable = s.ftable
  proc : t.proc = s.proc
  locked : t.locked = s.locked
  outstanding : t.outstanding = s.outstanding

theorem NoTrace.unchanged (h : NoTrace sb o 0 s t) (hs : Calm sb o 0 s)
    (hlocked : t.locked = s.locked) : Unchanged s t where
  type i := (h.alike i).type
  nlink i := (h.alike i).nlink
  size i := (h.alike i).size
  bytes i := (h.alike i).bytes
  entries d hd := (h.alike d).entriesOf_eq (dir_ne_zero hd)
  refs e := by rw [h.calm.refs.exact, hs.refs.exact, h.keeps.shares_eq]
  ftable := h.keeps.ftable
  proc := h.keeps.proc
  locked := hlocked
  outstanding := h.calm.op.trans hs.op.symm

/-- A call that leaves no trace when it fails, and the locks as they were. -/
theorem Unchanged.of_fails {c : FsM ℤ} (h : Quiet sb o s)
    (hc : Ends (c s) (fun r t => r = -1 → NoTrace sb o 0 s t) fun _ _ => True)
    (hlocks : Neutral c) (hrun : c s = .ok (-1) t) : Unchanged s t := by
  have hl := hlocks s
  rw [hrun] at hc hl
  exact (hc rfl).unchanged h.calm hl

/-- **Failed calls on names leave no trace.**  In every quiescent file system and for every
path, a failing `create` of a file, a directory or a device, `sys_mkdir`, `sys_mknod`,
`sys_link` or `sys_unlink` changes nothing: wherever it fails. -/
theorem failed_names_leave_no_trace (hq : Quiet sb 0 s) (hc : (s.proc p).cwd = some c) :
    (∀ path type major minor t, type ∈ [T_FILE, T_DIR, T_DEVICE] →
      create sb p path type major minor s.begun = .ok none t → Unchanged s.begun t) ∧
    (∀ path t, sysMkdir sb p path s = .ok (-1) t → Unchanged s t) ∧
    (∀ path major minor t, sysMknod sb p path major minor s = .ok (-1) t → Unchanged s t) ∧
    (∀ old new t, sysLink sb p old new s = .ok (-1) t → Unchanged s t) ∧
    ∀ path t, sysUnlink sb p path s = .ok (-1) t → Unchanged s t := by
  refine ⟨fun path type major minor t htype hrun => ?_, fun path t => ?_,
    fun path major minor t => ?_, fun old new t => ?_, fun path t => ?_⟩
  · have hb := hq.begin
    obtain ⟨R, hroot, hcwd, hreach⟩ := hb.reach
    have hne : type ≠ 0 := by
      rintro rfl
      exact absurd htype (by decide)
    have hdone : Ends (create sb p path type major minor s.begun)
        (CreateDone sb 1 R 0 (start s.begun c path) path type s.begun) fun _ _ => True :=
      Calm.create hb.calm le_rfl hreach hb.free hb.alloc hc path
        (start_reached hroot (hcwd p c hc) path) hne
    have hlocks : Ends (create sb p path type major minor s.begun)
        (fun r t => Leaves r s.begun.locked t.locked) fun _ _ => True := create_locks path s.begun
    rw [hrun] at hdone hlocks
    exact NoTrace.unchanged hdone hb.calm hlocks
  · exact Unchanged.of_fails hq (sysMake_fails hq hc path (by decide)) (sysMake_neutral path)
  · exact Unchanged.of_fails hq (sysMake_fails hq hc path (by decide)) (sysMake_neutral path)
  · exact Unchanged.of_fails hq (sysLink_fails hq hc old new) (sysLink_neutral old new)
  · exact Unchanged.of_fails hq (sysUnlink_fails hq hc path) (sysUnlink_neutral path)

/-- The value that a call has returned. -/
def returned {α : Type} (r : EStateM.Result String State α) : Option α :=
  match r with
  | .ok a _ => some a
  | .error _ _ => none

theorem exists_of_returned {α : Type} {a : α} {r : EStateM.Result String State α}
    (h : returned r = some a) : ∃ t, r = .ok a t := by
  cases r with
  | ok b t =>
    cases h
    exact ⟨t, rfl⟩
  | error e t => cases h

/-- `unlink("/x")` and `mkdir("/.")` on the disk with a root directory alone. -/
theorem failed_names_leave_no_trace_root :
    (∃ t, sysUnlink rootSb initproc (some [47, 120]) (boot rootDinode rootBitmap rootBlock) =
      .ok (-1) t ∧ Unchanged (boot rootDinode rootBitmap rootBlock) t) ∧
    ∃ t, sysMkdir rootSb initproc (some [47, 46]) (boot rootDinode rootBitmap rootBlock) =
      .ok (-1) t ∧ Unchanged (boot rootDinode rootBitmap rootBlock) t := by
  have hcwd : ((boot rootDinode rootBitmap rootBlock).proc initproc).cwd = some rootEntry := by
    rw [boot_init]
  obtain ⟨-, hmkdir, -, -, hunlink⟩ := failed_names_leave_no_trace rootQuiet hcwd
  have hno : returned (sysUnlink rootSb initproc (some [47, 120])
      (boot rootDinode rootBitmap rootBlock)) = some (-1) := by
    decide +kernel
  have hdot : returned (sysMkdir rootSb initproc (some [47, 46])
      (boot rootDinode rootBitmap rootBlock)) = some (-1) := by
    decide +kernel
  obtain ⟨t, ht⟩ := exists_of_returned hno
  obtain ⟨u, hu⟩ := exists_of_returned hdot
  exact ⟨⟨t, ht, hunlink _ t ht⟩, u, hu, hmkdir _ u hu⟩

/-- Sixteen descriptors for the root directory. -/
def openAll : List (Fin NPROC × Call) :=
  List.replicate NOFILE (initproc, .open (some [47]) O_RDONLY)

end Fs

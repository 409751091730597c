/-
# Runs of calls on directories

Any sequence of `dirlink`, of the clearing of entries in `sys_unlink`, of `dirlookup` and of
`isdirempty` on directories does what its steps do to maps (`directories_are_maps`): a name
is bound to the number that was last linked under it and not unlinked since, a failing
`dirlink` changes nothing, and the only panic is a full inode table.  A directory that
`sys_mkdir` makes starts with `.` and `..`.
-/
import Xv6.FsDirMap

namespace Fs

open Hoare
open Proc (NPROC)
open Transition

variable {sb : Superblock} {dp ip c : Ip} {s t u : State}
variable {D : ℕ → Dinode} {blk : ℕ → ℕ → UInt8} {d i k : ℕ}
variable {name : List UInt8} {p : Fin NPROC} {S : ℕ → Prop}

/-! ## Calls on a locked directory -/

/-- The only panic of a call on a directory. -/
def Full (msg : String) (_ : State) : Prop := msg = "iget: no inodes"

/-- **A call on a directory**: what it does with the locked directory is what it does. -/
theorem onDir_ends {c : Ip → FsM ℤ} {Q : ℤ → State → Prop} (h : Calm sb 0 0 s)
    (hfree : ∀ e, s.locked e = false) (hm : Mapped s.dinode s.block d)
    (hneutral : ∀ dp, Neutral (c dp))
    (hbody : ∀ dp u, Calm sb 1 (dp ::ₘ 0) u → Listed sb dp u → (u.itable dp).inum = d →
      SameDisk s u → Ends (c dp u) (fun r v => Calm sb 1 (dp ::ₘ 0) v ∧ Keeps (dp ::ₘ 0) u v ∧
        (v.dinode d).nlink ≠ 0 ∧ Q r v) Full) :
    Ends (onDir d c s) (fun r t => Calm sb 0 0 t ∧ t.locked = s.locked ∧
      ∃ v, Q r v ∧ SameDisk v t) Full := by
  unfold onDir
  rw [beginOp_bind]
  apply Ends.bind ((iget_got d s.begun).imp (fun _ _ h => h) fun _ _ he => he.1)
  intro dp t hgot
  obtain ⟨ht, hstill⟩ := hgot.still (Calm.begin h)
  have hdp := Multiset.mem_cons_self dp (0 : Multiset Ip)
  have hpos := ht.refs.pos_of_mem hdp
  have hinum : (t.itable dp).inum = d := hgot.inum_eq
  have hft : t.locked dp = false := by
    rw [hstill.locked]
    exact hfree dp
  apply Ends.bind ((Calm.lock ht hpos hft).imp (fun _ _ h => h) fun _ _ he => ?_)
  swap
  · have htype := he.2
    rw [hinum, hstill.disk.dinode] at htype
    exact absurd htype (dir_ne_zero hm.type)
  rintro _ u ⟨hu, hload, hlocked, -⟩
  have hsu : SameDisk s u := ⟨(hstill.disk.trans hload.disk).dinode,
    (hstill.disk.trans hload.disk).bitmap, (hstill.disk.trans hload.disk).block⟩
  have hinumu : (u.itable dp).inum = d := hload.inum.trans hinum
  have hposu := hu.refs.pos_of_mem hdp
  have hclean := (hu.good trivial).clean dp hposu hload.valid
  rw [hinumu, hsu.dinode] at hclean
  have hlisted : Listed sb dp u := ⟨hu.good trivial, hposu, hload.valid,
    by rw [← hclean]; exact hm.type, by rw [← hclean]; exact hm.even⟩
  apply Ends.bind (((hbody dp u hu hlisted hinumu hsu).both (hneutral dp u)).imp
    (fun _ _ h => h) fun _ _ he => he.1)
  rintro r v ⟨⟨hv, hkuv, hlink, hQ⟩, hlockv⟩
  have hvdp := hkuv.mem hdp
  have hlast : ¬ LastRef dp v := by
    rintro ⟨-, hvalid, hzero⟩
    rw [← (hv.good trivial).clean dp (hv.refs.pos_of_mem hdp) hvalid, hvdp.1, hinumu] at hzero
    exact hlink hzero
  have hheld : v.locked dp = true := by
    rw [hlockv, hlocked]
    exact Function.update_self _ _ _
  obtain ⟨x, hrun, hx, hdisk, -, hlockx, -⟩ := Calm.unlockput hv hheld hlast
  rw [bind_of_ok hrun, endOp_bind]
  refine ⟨Calm.finish hx, ?_, v, hQ, ⟨hdisk.dinode, hdisk.bitmap, hdisk.block⟩⟩
  show x.locked = s.locked
  rw [hlockx, hlockv, hlocked, Function.update_idem, ← hft, Function.update_eq_self, hstill.locked]
  rfl

variable {a : DirOp} {r : ℤ} {x : State × Maps} {inum : ℕ}

/-- The outcome is about disks. -/
theorem Outcome.of_same {x : State} (h : Outcome sb a u r x) (hs : SameDisk s u)
    (ht : SameDisk x t) : Outcome sb a s r t := by
  have hrefused : ∀ d name, Refused sb d name u ↔ Refused sb d name s := by
    intro d name
    unfold Refused NoneFree
    rw [hs.dinode, hs.block, hs.bitmap]
  have hfree : NoneFree sb t ↔ NoneFree sb x := by
    unfold NoneFree
    rw [ht.bitmap]
  obtain ⟨hanswer, hfollows, hfails⟩ := h
  rw [hs.dinode, hs.block] at hanswer hfollows hfails
  refine ⟨hanswer, ?_, fun d name inum ha => ?_⟩
  · rw [ht.dinode, ht.block]
    exact hfollows
  · rw [← hrefused, hfree, ht.dinode, ht.block]
    exact hfails d name inum ha

/-- A call that leaves every directory as it looks. -/
theorem Outcome.of_alike (hanswer : a.Answers (bindings s.dinode s.block a.dir) r)
    (halike : ∀ e, Mapped s.dinode s.block e → Alike s.dinode s.block t.dinode t.block e)
    (hafter : a.after (bindings s.dinode s.block a.dir) r = bindings s.dinode s.block a.dir)
    (hlink : ∀ d name inum, a ≠ .link d name inum) : Outcome sb a s r t := by
  refine ⟨hanswer, fun e he => ?_, fun d name inum ha => absurd ha (hlink d name inum)⟩
  rw [Maps.after, hafter, Function.update_eq_self]
  exact he.of_alike (halike e he)

/-! ## dirlink -/

theorem isSome_findSlot : (findSlot D blk d name).isSome ↔ bindings D blk d (cname name) ≠ none := by
  rw [← lookup_eq_bindings]
  unfold lookup
  cases findSlot D blk d name <;> simp

/-- When no block is free, a write finds all its blocks. -/
theorem Saved.has_before {src : ℕ → Option UInt8} {off n m j : ℕ} (hdir : Listed sb dp s)
    (h : Saved sb dp src off n s m t) (hfull : NoneFree sb s) (hj : j < (t.itable dp).d.size) :
    Has s dp j := by
  have hne : (s.dinode (s.itable dp).inum).type ≠ 0 := by
    rw [hdir.clean, hdir.type]
    decide
  have hne' : (t.dinode (s.itable dp).inum).type ≠ 0 := by
    rw [h.wrote.type_eq]
    exact hne
  have hhas := h.has j hj
  unfold Has at hhas ⊢
  rw [← h.clean, ← refs_of_type hne'] at hhas
  have hsame := hdir.good.sound.no_more h.sound h.wrote.kept hfull hhas
  rw [← hdir.clean, ← refs_of_type hne, hsame]
  exact hhas

/-- A refused name gets no entry. -/
theorem LinkDone.of_refused (h : LinkDone sb dp name inum s r t) (hdir : Listed sb dp s)
    (ht : Consistent sb t) (hbad : Refused sb (s.itable dp).inum name s) : r = -1 := by
  obtain hneg | rfl := h.result
  · exact hneg
  exfalso
  have hsize := hdir.size_eq
  rcases h with ⟨hr, -⟩ | ⟨hnone, hbody, ⟨hr, -⟩ | ⟨hr, -⟩ | ⟨-, hsaved⟩⟩
  · cases hr
  · cases hr
  · cases hr
  have hposT : 0 < (t.itable dp).ref := by
    rw [hbody.ref]
    exact hdir.pos
  have hle : (t.itable dp).d.size ≤ MAXFILE * BSIZE :=
    ht.size_le hposT (by rw [hbody.valid]; exact hdir.valid)
  rcases hbad with hbound | ⟨hused, hmax | ⟨hfull, hplace⟩⟩
  · rw [← isSome_findSlot, hnone] at hbound
    cases hbound
  all_goals
    -- every slot is in use, so the entry went to the end
    have hvac : vacancy s.dinode s.block (s.itable dp).inum = slots s.dinode (s.itable dp).inum := by
      rcases vacancy_spec s.dinode s.block (s.itable dp).inum with ⟨hlt, hzero⟩ | ⟨heq, -⟩
      · exact absurd hzero (hused _ hlt)
      · exact heq
    rw [hvac, ← hsize] at hsaved
    have hgrow := hsaved.size
  · rw [hdir.clean] at hmax
    rw [hgrow, hmax] at hle
    have : 0 < DIRENT := by decide
    omega
  · have hhas : Has s dp (s.itable dp).d.size := by
      refine hsaved.has_before hdir hfull ?_
      have : 0 < DIRENT := by decide
      rw [hgrow]
      omega
    rw [hdir.clean] at hplace
    exact hhas hplace

/-- Why `dirlink` fails. -/
theorem LinkDone.why (h : LinkDone sb dp name inum s (-1) t)
    (hdir : Listed sb dp s) : Refused sb (s.itable dp).inum name s ∨ NoneFree sb t ∧
      ∀ k, k < slots s.dinode (s.itable dp).inum →
        slotInum s.dinode s.block (s.itable dp).inum k ≠ 0 := by
  have hsize := hdir.size_eq
  have hle := hdir.good.size_le hdir.pos hdir.valid
  rcases h with ⟨-, -, hsome⟩ | ⟨-, -, ⟨-, -, hbig⟩ | ⟨-, hsaved⟩ | ⟨hr, -⟩⟩
  · exact Or.inl (Or.inl (isSome_findSlot.mp hsome))
  · -- no room at the end of a directory of the maximal size
    rcases vacancy_spec s.dinode s.block (s.itable dp).inum with ⟨hlt, -⟩ | ⟨heq, hused⟩
    · rw [lt_slots, hdir.clean] at hlt
      omega
    · refine Or.inl (Or.inr ⟨hused, Or.inl ?_⟩)
      rw [heq, ← hsize] at hbig
      rw [hdir.clean]
      have := hdir.even
      unfold MAXFILE NINDIRECT NDIRECT BSIZE DIRENT at *
      omega
  · refine Or.inr ⟨hsaved.dry (fun _ _ => rfl) (by decide), ?_⟩
    have hend := hsaved.vacancy_of_fail hdir
    rcases vacancy_spec s.dinode s.block (s.itable dp).inum with ⟨hlt, -⟩ | ⟨-, hused⟩
    · rw [hsize] at hend
      have : 0 < DIRENT := by decide
      have := Nat.eq_of_mul_eq_mul_left this hend
      omega
    · exact hused
  · cases hr

/-- **`dirlink`** on a locked directory. -/
theorem dirlink_outcome (h : Calm sb 1 (dp ::ₘ 0) s) (hdir : Listed sb dp s)
    (hm : Mapped s.dinode s.block (s.itable dp).inum) (inum : ℕ) :
    Ends (dirlink sb dp name inum s) (fun r t => Calm sb 1 (dp ::ₘ 0) t ∧ Keeps (dp ::ₘ 0) s t ∧
      Outcome sb (.link (s.itable dp).inum name inum) s r t) Full := by
  apply (Calm.dirlink h le_rfl hdir name inum).imp
  swap
  · exact fun _ _ he => he.1
  rintro r t ⟨ht, hk, hdone⟩
  refine ⟨ht, hk, ?_⟩
  have hfails : ∀ d name' inum', DirOp.link (s.itable dp).inum name inum = .link d name' inum' →
      (Refused sb d name' s → r = -1) ∧ (r = -1 →
        (∀ i, Alike s.dinode s.block t.dinode t.block i) ∧ (Refused sb d name' s ∨ NoneFree sb t ∧
          ∀ k, k < slots s.dinode d → slotInum s.dinode s.block d k ≠ 0)) := by
    rintro d name' inum' heq
    obtain ⟨rfl, rfl, rfl⟩ := DirOp.link.inj heq
    refine ⟨hdone.of_refused hdir (ht.good trivial), ?_⟩
    rintro rfl
    exact ⟨hdone.alike hdir (by decide), hdone.why hdir⟩
  obtain rfl | rfl := hdone.result
  · refine ⟨Or.inl rfl, fun e he => ?_, hfails⟩
    rw [Maps.after, DirOp.after_fail, Function.update_eq_self]
    exact he.of_alike (hdone.alike hdir (by decide) e)
  · have hentered := hdone.entered hdir (by decide)
    refine ⟨Or.inr ⟨rfl, SlotMap.get_eq_none_iff.mpr hentered.1⟩, fun e he => ?_, hfails⟩
    by_cases hed : e = (s.itable dp).inum
    · subst hed
      obtain ⟨hmapped, hbind⟩ := hm.entered hentered
      refine ⟨hmapped, ?_⟩
      rw [hbind, Maps.after, DirOp.dir, Function.update_self, DirOp.after_link]
    · obtain ⟨hmapped, hbind⟩ := he.of_alike (hdone.alike_of_ne hdir hed)
      exact ⟨hmapped, hbind.trans (Maps.after_of_ne _ _ _ hed).symm⟩

/-! ## The other calls -/

theorem cname_eq_of_namecmp {x y : List UInt8} (h : cname y = y) :
    namecmp x y = true ↔ cname x = y := by
  unfold namecmp
  rw [h, decide_eq_true_eq]

/-- **Clearing an entry** of a locked directory. -/
theorem clearEntry_outcome (h : Calm sb 1 (dp ::ₘ 0) s) (hdir : Listed sb dp s)
    (hm : Mapped s.dinode s.block (s.itable dp).inum) :
    Ends (clearEntry sb dp name s) (fun r t => Calm sb 1 (dp ::ₘ 0) t ∧ Keeps (dp ::ₘ 0) s t ∧
      Outcome sb (.clear (s.itable dp).inum name) s r t) Full := by
  have hdots : namecmp name dot = true ∨ namecmp name dotdot = true ↔
      cname name = dot ∨ cname name = dotdot := by
    rw [cname_eq_of_namecmp (by decide), cname_eq_of_namecmp (by decide)]
  -- a refused call changes nothing
  have hsame : ∀ t, Calm sb 1 (dp ::ₘ 0) t → t = s → (cname name = dot ∨ cname name = dotdot ∨
      bindings s.dinode s.block (s.itable dp).inum (cname name) = none) →
      Calm sb 1 (dp ::ₘ 0) t ∧ Keeps (dp ::ₘ 0) s t ∧
        Outcome sb (.clear (s.itable dp).inum name) s (-1) t := by
    rintro t ht rfl hno
    refine ⟨ht, Keeps.refl _ t, Outcome.of_alike ?_ (fun e _ => Alike.refl _ _ e) ?_ fun _ _ _ => ?_⟩
    · exact (if_pos hno).symm
    · exact DirOp.after_fail _ _
    · exact DirOp.noConfusion
  unfold clearEntry
  by_cases hdot : namecmp name dot = true ∨ namecmp name dotdot = true
  · rw [if_pos hdot]
    exact hsame s h rfl ((hdots.mp hdot).imp_right Or.inl)
  rw [if_neg hdot]
  apply Ends.bind ((Calm.dirlookup h hdir name).imp (fun _ _ h => h) fun _ _ he => he.1)
  rintro (_ | ⟨ip, off⟩) t hlook
  · obtain ⟨rfl, hnone⟩ := hlook
    refine hsame t h rfl (Or.inr (Or.inr ?_))
    rw [← lookup_eq_bindings, lookup, hnone]
    rfl
  obtain ⟨ht, hstill, hlast, k, hfind, rfl, hinum⟩ := hlook
  obtain ⟨hlt, hne, hname⟩ := findSlot_some hfind
  have hip := Multiset.mem_cons_self ip (dp ::ₘ (0 : Multiset Ip))
  have hdp : dp ∈ ip ::ₘ dp ::ₘ (0 : Multiset Ip) :=
    Multiset.mem_cons_of_mem (Multiset.mem_cons_self dp 0)
  have hkept := hstill.keeps.mem (Multiset.mem_cons_self dp 0)
  have hdirt : Listed sb dp t := hdir.of_alike ht hdp hkept (hstill.disk.alike _)
  have hin : InDir t dp k := by
    rw [hdirt.inDir_iff, hkept.1, hstill.disk.dinode]
    exact hlt
  obtain ⟨n, u, hrun, hu, hbody, hdone⟩ := Calm.writei ht le_rfl hdirt.pos hdirt.valid
    (kernelSrc (List.replicate DIRENT 0)) (DIRENT * k) DIRENT
  obtain ⟨rfl, hsaved⟩ := hdone.slot hdirt.good hdirt.pos hdirt.valid hin
  have hlastu : ¬ LastRef ip u := by
    by_cases heq : ip = dp
    · rintro ⟨hone, -⟩
      subst heq
      have := hu.refs.exact ip
      rw [Multiset.count_cons_self, Multiset.count_cons_self] at this
      omega
    · unfold LastRef at hlast ⊢
      rw [hbody.others ip heq]
      exact hlast
  obtain ⟨v, hrun', hv, hstill'⟩ := Calm.put hu hlastu
  simp only
  rw [bind_of_ok hrun, if_neg (by decide), bind_of_ok hrun']
  have hwritten := hsaved.slotWritten hdirt.good hdirt.pos hdirt.valid (by decide)
  have hother : ∀ e, e ≠ (s.itable dp).inum → Alike s.dinode s.block v.dinode v.block e := by
    intro e he
    refine (hstill.disk.alike e).trans ((hsaved.alike hdirt.good ?_).trans (hstill'.disk.alike e))
    rw [hkept.1]
    exact he
  rw [hkept.1, hstill.disk.dinode, hstill.disk.block, ← hstill'.disk.dinode,
    ← hstill'.disk.block] at hwritten
  obtain ⟨hmapped, hbind⟩ := hm.cleared hwritten hlt hne (by
    rw [hname]
    exact not_or.mp fun h => hdot (hdots.mpr h))
  refine ⟨hv, ?_, ?_, fun e he => ?_, fun _ _ _ ha => DirOp.noConfusion ha⟩
  · exact (hstill.keeps.trans (hbody.keeps _)).trans hstill'.keeps
  · have hbound : bindings s.dinode s.block (s.itable dp).inum (cname name) ≠ none := by
      rw [← isSome_findSlot, hfind]
      rfl
    have hno := not_or.mp fun h => hdot (hdots.mpr h)
    exact (if_neg fun h => h.elim hno.1 fun h => h.elim hno.2 hbound).symm
  · by_cases hed : e = (s.itable dp).inum
    · subst hed
      refine ⟨hmapped, ?_⟩
      rw [hbind, hname, Maps.after, DirOp.dir, Function.update_self, DirOp.after_clear]
    · obtain ⟨hmapped', hbind'⟩ := he.of_alike (hother e hed)
      exact ⟨hmapped', hbind'.trans (Maps.after_of_ne _ _ _ hed).symm⟩

/-- **Looking up** a name in a locked directory. -/
theorem findEntry_outcome (h : Calm sb 1 (dp ::ₘ 0) s) (hdir : Listed sb dp s) :
    Ends (findEntry sb dp name s) (fun r t => Calm sb 1 (dp ::ₘ 0) t ∧ Keeps (dp ::ₘ 0) s t ∧
      Outcome sb (.find (s.itable dp).inum name) s r t) Full := by
  unfold findEntry
  apply Ends.bind ((Calm.dirlookup h hdir name).imp (fun _ _ h => h) fun _ _ he => he.1)
  rintro (_ | ⟨ip, off⟩) t hlook
  · obtain ⟨rfl, hnone⟩ := hlook
    refine ⟨h, Keeps.refl _ t, Outcome.of_alike ?_ (fun e _ => Alike.refl _ _ e) rfl
      fun _ _ _ => DirOp.noConfusion⟩
    show -1 = ((lookup t.dinode t.block (t.itable dp).inum name).map Nat.cast).getD (-1)
    rw [lookup, hnone]
    rfl
  · obtain ⟨ht, hstill, hlast, k, hfind, -, hinum⟩ := hlook
    obtain ⟨u, hrun, hu, hstill'⟩ := Calm.put ht hlast
    simp only
    rw [inode_bind, bind_of_ok hrun]
    refine ⟨hu, (hstill.trans hstill').keeps, Outcome.of_alike ?_
      (fun e _ => (hstill.trans hstill').disk.alike e) rfl fun _ _ _ => DirOp.noConfusion⟩
    show ((t.itable ip).inum : ℤ) =
      ((lookup s.dinode s.block (s.itable dp).inum name).map Nat.cast).getD (-1)
    rw [lookup, hfind, hinum]
    rfl

/-- **`isdirempty`** on a locked directory. -/
theorem isdirempty_outcome (h : Calm sb 1 (dp ::ₘ 0) s) (hdir : Listed sb dp s)
    (hm : Mapped s.dinode s.block (s.itable dp).inum) :
    Ends (((fun b => if b then 1 else 0) <$> isdirempty sb dp : FsM ℤ) s)
      (fun r t => Calm sb 1 (dp ::ₘ 0) t ∧ Keeps (dp ::ₘ 0) s t ∧
        Outcome sb (.isEmpty (s.itable dp).inum) s r t) Full := by
  apply Ends.map
  rw [isdirempty_eq hdir]
  refine ⟨h, Keeps.refl _ s, Outcome.of_alike ⟨?_, ?_⟩ (fun e _ => Alike.refl _ _ e) rfl
    fun _ _ _ => DirOp.noConfusion⟩
  · split
    · exact Or.inr rfl
    · exact Or.inl rfl
  · rw [DirOp.dir, ← hm.empty_iff]
    split
    · rename_i hall
      exact ⟨fun _ => of_decide_eq_true hall, fun _ => rfl⟩
    · rename_i hnot
      exact ⟨fun h => absurd h (by decide), fun hall => absurd (decide_eq_true hall) hnot⟩

/-! ## Every call -/

/-- **A call on a directory** does what it should. -/
theorem dirCall_outcome (h : Calm sb 0 0 s) (hfree : ∀ e, s.locked e = false) (a : DirOp)
    (hm : Mapped s.dinode s.block a.dir) :
    Ends (dirCall sb a s) (fun r t => Calm sb 0 0 t ∧ t.locked = s.locked ∧ Outcome sb a s r t)
      Full := by
  have hbody : ∀ dp u, Calm sb 1 (dp ::ₘ 0) u → Listed sb dp u → (u.itable dp).inum = a.dir →
      SameDisk s u → Ends (a.body sb dp u) (fun r v => Calm sb 1 (dp ::ₘ 0) v ∧
        Keeps (dp ::ₘ 0) u v ∧ (v.dinode a.dir).nlink ≠ 0 ∧ Outcome sb a s r v) Full := by
    intro dp u hu hdir hinum hsu
    have hmu : Mapped u.dinode u.block (u.itable dp).inum := by
      rw [hsu.dinode, hsu.block, hinum]
      exact hm
    have hout : Ends (a.body sb dp u) (fun r v => Calm sb 1 (dp ::ₘ 0) v ∧
        Keeps (dp ::ₘ 0) u v ∧ Outcome sb a u r v) Full := by
      cases a with
      | link d name inum =>
        obtain rfl : (u.itable dp).inum = d := hinum
        exact dirlink_outcome hu hdir hmu inum
      | clear d name =>
        obtain rfl : (u.itable dp).inum = d := hinum
        exact clearEntry_outcome hu hdir hmu
      | find d name =>
        obtain rfl : (u.itable dp).inum = d := hinum
        exact findEntry_outcome hu hdir
      | isEmpty d =>
        obtain rfl : (u.itable dp).inum = d := hinum
        exact isdirempty_outcome hu hdir hmu
    apply hout.post
    rintro r v ⟨hv, hk, ho⟩
    have hos := ho.of_same hsu (SameDisk.refl v)
    exact ⟨hv, hk, (hos.follows a.dir hm).1.linked, hos⟩
  apply (onDir_ends h hfree hm (fun dp => a.body_neutral) hbody).post
  rintro r t ⟨ht, hlocked, v, hv, hdisk⟩
  exact ⟨ht, hlocked, hv.of_same (SameDisk.refl s) hdisk⟩

/-! ## Runs -/

/-- One call, and what it does to the maps. -/
def dirStep (sb : Superblock) (x : State × Maps) (a : DirOp) : Option (State × Maps) :=
  match dirCall sb a x.1 with
  | .ok r t => some (t, x.2.after a r)
  | .error _ _ => none

/-- **The directories `S` are the maps.** -/
structure Sim (sb : Superblock) (S : ℕ → Prop) (x : State × Maps) : Prop where
  calm : Calm sb 0 0 x.1
  free : ∀ e, x.1.locked e = false
  maps : ∀ d, S d → Mapped x.1.dinode x.1.block d ∧ bindings x.1.dinode x.1.block d = x.2 d

theorem Sim.step {y : State × Maps} (h : Sim sb S x) (ha : S a.dir)
    (hstep : dirStep sb x a = some y) : Sim sb S y := by
  have hends := dirCall_outcome h.calm h.free a (h.maps a.dir ha).1
  unfold dirStep at hstep
  cases hrun : dirCall sb a x.1 with
  | error e t =>
    rw [hrun] at hstep
    cases hstep
  | ok r t =>
    rw [hrun] at hstep hends
    cases hstep
    obtain ⟨ht, hlocked, hout⟩ := hends
    refine ⟨ht, fun e => ?_, fun d hd => ?_⟩
    · show t.locked e = false
      rw [hlocked]
      exact h.free e
    · obtain ⟨hmapped, heq⟩ := h.maps d hd
      obtain ⟨hmapped', heq'⟩ := hout.follows d hmapped
      exact ⟨hmapped', heq'.trans (Maps.after_congr heq a r)⟩

/-- **What holds in every state that calls on directories lead to.**  The maps say what every
name is bound to.  Every call returns what they say, unless the inode table is full; a
`dirlink` that fails has changed nothing. -/
def AreMaps (sb : Superblock) (S : ℕ → Prop) (x : State × Maps) : Prop :=
  (∀ d, S d → Mapped x.1.dinode x.1.block d ∧
    ∀ name, lookup x.1.dinode x.1.block d name = x.2 d (cname name)) ∧
  ∀ a : DirOp, S a.dir → Ends (dirCall sb a x.1)
    (fun r t => a.Answers (x.2 a.dir) r ∧
      ∀ d name inum, a = .link d name inum → (Refused sb d name x.1 → r = -1) ∧
        (r = -1 → (∀ i, Alike x.1.dinode x.1.block t.dinode t.block i) ∧
          (Refused sb d name x.1 ∨ NoneFree sb t ∧
            ∀ k, k < slots x.1.dinode d → slotInum x.1.dinode x.1.block d k ≠ 0))) Full

theorem Sim.areMaps (h : Sim sb S x) : AreMaps sb S x := by
  refine ⟨fun d hd => ?_, fun a ha => ?_⟩
  · obtain ⟨hmapped, heq⟩ := h.maps d hd
    exact ⟨hmapped, fun name => by rw [lookup_eq_bindings, heq]⟩
  · obtain ⟨hmapped, heq⟩ := h.maps a.dir ha
    apply (dirCall_outcome h.calm h.free a hmapped).post
    rintro r t ⟨-, -, hout⟩
    exact ⟨heq ▸ hout.answer, hout.fails⟩

theorem Sim.always (acts : List DirOp) : ∀ x, Sim sb S x → (∀ a ∈ acts, S a.dir) →
    Always (dirStep sb) (AreMaps sb S) x acts := by
  induction acts with
  | nil => exact fun x hx _ => hx.areMaps
  | cons a acts ih =>
    intro x hx hacts
    refine ⟨hx.areMaps, fun y hstep => ?_⟩
    exact ih y (hx.step (hacts a List.mem_cons_self) hstep) fun b hb =>
      hacts b (List.mem_cons_of_mem a hb)

/-! ## A new directory -/

/-- A directory with the entries `.` and `..` only. -/
theorem Shaped.mapped (h : Shaped D blk i) (hkids : kidsOf D blk i = 0)
    (htype : (D i).type = T_DIR) (hlink : (D i).nlink ≠ 0) (hi : i ≠ 0) :
    Mapped D blk i ∧ bindings D blk i = fun x =>
      if x = dot then some i else if x = dotdot then some (slotInum D blk i 1) else none := by
  have hself := h.self
  have hup := h.up
  have htwo := h.two
  -- the other slots are empty
  have hempty : ∀ k, k < slots D i → 2 ≤ k → slotInum D blk i k = 0 := by
    intro k hlt hk
    by_contra hne
    have hmem : slotInum D blk i k ∈ kidsOf D blk i :=
      mem_present.mpr ⟨hne, k, Finset.mem_Ico.mpr ⟨hk, hlt⟩, rfl⟩
    rw [hkids] at hmem
    exact Multiset.notMem_zero _ hmem
  have hused : ∀ k, k < slots D i → slotInum D blk i k ≠ 0 → k = 0 ∨ k = 1 := by
    intro k hlt hne
    by_contra hk
    exact hne (hempty k hlt (by omega))
  have hm : Mapped D blk i := by
    refine ⟨htype, hlink, h.size, htwo, ⟨by rw [hself.1]; exact hi, hself.2⟩, hup, ?_⟩
    intro j k hj hk hvj hvk hkey
    have hkey' : slotName D blk i j = slotName D blk i k := hkey
    rcases hused j hj hvj with rfl | rfl <;> rcases hused k hk hvk with rfl | rfl
    · rfl
    · rw [hself.2, hup.2] at hkey'
      exact absurd hkey' (by decide)
    · rw [hself.2, hup.2] at hkey'
      exact absurd hkey' (by decide)
    · rfl
  refine ⟨hm, ?_⟩
  funext x
  have hget : ∀ k, k < slots D i → slotInum D blk i k ≠ 0 →
      bindings D blk i (slotName D blk i k) = some (slotInum D blk i k) := fun k hlt hne =>
    (SlotMap.get_eq_some_iff hm.distinct).mpr ⟨hne, k, hlt, rfl, rfl⟩
  split_ifs with hdot hdotdot
  · have := hget 0 (by omega) hm.self.1
    rw [hself.2, hself.1] at this
    rw [hdot]
    exact this
  · have := hget 1 (by omega) hup.1
    rw [hup.2] at this
    rw [hdotdot]
    exact this
  · by_contra hbound
    rcases hm.empty_iff.mp hempty x hbound with rfl | rfl
    · exact hdot rfl
    · exact hdotdot rfl

/-- **`sys_mkdir`** makes a map with the names `.` and `..`. -/
theorem sysMkdir_maps (h : Quiet sb 0 s) (hc : (s.proc p).cwd = some c)
    (hsmall : sb.ninodes ≤ 2 ^ 16) (hnum : ∀ i, (s.dinode i).type ≠ 0 → i ≠ 0 ∧ i < 2 ^ 16)
    (path : Option (List UInt8)) : Ends (sysMkdir sb p path s) (fun r t => r = 0 → Calm sb 0 0 t ∧
      ∃ d up, (s.dinode d).type = 0 ∧ (s.dinode up).type = T_DIR ∧
        Mapped t.dinode t.block d ∧ bindings t.dinode t.block d = fun x =>
          if x = dot then some d else if x = dotdot then some up else none) fun _ _ => True := by
  unfold sysMkdir sysMake
  rw [beginOp_bind]
  have hb := h.begin
  obtain ⟨R, hroot, hcwd, hreach⟩ := hb.reach
  rcases argstr path with _ | path'
  · exact fun h => absurd h (by decide)
  apply Ends.bind (Calm.create hb.calm le_rfl hreach hb.free hb.alloc hc path'
    (start_reached hroot (hcwd p c hc) path') (by decide))
  rintro (_ | ip) t ht
  · exact fun h => absurd h (by decide)
  obtain ⟨hcalm, -, hvalid, ⟨hfile, -⟩ | ⟨-, hpos, hlt, hfree, d, hdir, hnode⟩⟩ := ht
  · exact absurd hfile (by decide)
  obtain ⟨u, v, hsize, ⟨D, blk, hdot, hdotdot⟩, halike⟩ := hnode.dots rfl
  obtain ⟨hd, hdlt⟩ := hnum d (dir_ne_zero hdir)
  obtain ⟨hshaped, hup, hkids⟩ := hdot.dots hdotdot hsize hpos.ne' (hlt.trans_le hsmall) hd hdlt
  have htype : (v.dinode (t.itable ip).inum).type = T_DIR := halike.type.symm.trans hnode.kind
  have hlink : (v.dinode (t.itable ip).inum).nlink ≠ 0 := by
    rw [← halike.nlink (dir_ne_zero htype), hnode.nlink]
    decide
  obtain ⟨hmv, hbv⟩ := hshaped.mapped hkids htype hlink hpos.ne'
  obtain ⟨hm, hbind⟩ := hmv.of_alike halike
  simp only
  apply Ends.bind (iunlockput_ends hcalm fun _ => le_rfl).loose
  rintro _ x ⟨hx, -, hput⟩
  have hlast : ¬ LastRef ip t := by
    rintro ⟨-, -, hzero⟩
    have hip := hcalm.refs.pos_of_mem (Multiset.mem_cons_self ip 0)
    rw [← (hcalm.good trivial).clean ip hip hvalid] at hzero
    exact hm.linked hzero
  have hsame := (hput trivial).same hlast
  rw [endOp_bind]
  rw [hup] at hbv
  refine fun _ => ⟨Calm.finish hx, (t.itable ip).inum, d, hfree, hdir, ?_, ?_⟩
  · rw [State.ended_dinode, State.ended_block, hsame.dinode, hsame.block]
    exact hm
  · rw [State.ended_dinode, State.ended_block, hsame.dinode, hsame.block]
    exact hbind.trans hbv

/-- **Directories are finite maps.**  From every consistent file system without holes, every
sequence of `dirlink` and of entries being cleared keeps the directories `S` maps in which a
name has the inode number last linked under it and not unlinked since.  A directory that
`sys_mkdir` makes is such a map, with the names `.` and `..`. -/
theorem directories_are_maps (sb : Superblock) :
    (∀ (S : ℕ → Prop) s acts, Calm sb 0 0 s → (∀ e, s.locked e = false) →
      (∀ d, S d → Mapped s.dinode s.block d) → (∀ a ∈ acts, S a.dir) →
      Always (dirStep sb) (AreMaps sb S) (s, bindings s.dinode s.block) acts) ∧
    ∀ s p c path t, Quiet sb 0 s → (s.proc p).cwd = some c → sb.ninodes ≤ 2 ^ 16 →
      (∀ i, (s.dinode i).type ≠ 0 → i ≠ 0 ∧ i < 2 ^ 16) → sysMkdir sb p path s = .ok 0 t →
      Calm sb 0 0 t ∧ (∀ e, t.locked e = false) ∧
      ∃ d up, (s.dinode d).type = 0 ∧ (s.dinode up).type = T_DIR ∧
        Mapped t.dinode t.block d ∧ bindings t.dinode t.block d = fun x =>
          if x = dot then some d else if x = dotdot then some up else none := by
  constructor
  · intro S s acts hcalm hfree hS hacts
    exact Sim.always acts _ ⟨hcalm, hfree, fun d hd => ⟨hS d hd, rfl⟩⟩ hacts
  · intro s p c path t hq hc hsmall hnum hrun
    have hmaps := sysMkdir_maps hq hc hsmall hnum path
    have hlocks : Ends (sysMkdir sb p path s) (fun _ t => t.locked = s.locked) fun _ _ => True :=
      sysMake_neutral path s
    rw [hrun] at hmaps hlocks
    obtain ⟨hcalm, hdir⟩ := hmaps rfl
    refine ⟨hcalm, fun e => ?_, hdir⟩
    have hl : t.locked = s.locked := hlocks
    rw [hl]
    exact hq.free e

/-- The root directory alone: a link and an unlink in it, and a new directory. -/
theorem directories_are_maps_root : Always (dirStep rootSb) (AreMaps rootSb (· = ROOTINO))
      (boot rootDinode rootBitmap rootBlock, bindings rootDinode rootBlock)
      [.link ROOTINO [97] 2, .clear ROOTINO [97]] ∧
    ∃ t d up, sysMkdir rootSb initproc (some [47, 97]) (boot rootDinode rootBitmap rootBlock) =
      .ok 0 t ∧ Mapped t.dinode t.block d ∧ bindings t.dinode t.block d = fun x =>
        if x = dot then some d else if x = dotdot then some up else none := by
  have hmapped : Mapped rootDinode rootBlock ROOTINO :=
    ((rootTidy.tree.shaped ROOTINO (by decide)).mapped (by decide) (by decide) (by decide)
      (by decide)).1
  have hcwd : ((boot rootDinode rootBitmap rootBlock).proc initproc).cwd = some rootEntry := by
    rw [boot_init]
  have hmade : returned (sysMkdir rootSb initproc (some [47, 97])
      (boot rootDinode rootBitmap rootBlock)) = some 0 := by
    decide +kernel
  obtain ⟨t, ht⟩ := exists_of_returned hmade
  obtain ⟨hruns, hnew⟩ := directories_are_maps rootSb
  obtain ⟨-, -, d, up, -, -, hd, hbind⟩ := hnew _ _ _ _ t rootQuiet hcwd (by decide)
    (fun i hi => rootTidy.tree.bounds hi) ht
  refine ⟨hruns (· = ROOTINO) _ _ rootQuiet.calm rootQuiet.free ?_ ?_, t, d, up, ht, hd, hbind⟩
  · rintro d rfl
    exact hmapped
  · decide

end Fs

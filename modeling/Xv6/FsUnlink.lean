/-
# Removing names: sys_unlink

Only files and empty directories can be unlinked.  The entry is cleared before the counts
are changed, so that the tree is in order again once both counts have been written; the
last `iunlockput` may then free the inode.
-/
import Xv6.FsNames

namespace Fs

open Hoare
open Itable (CShort)
open Proc (NPROC)

variable {sb : Superblock} {w : Prop} {g : Watch} {o : ℕ} {H B : Multiset Ip} {dp ip : Ip} {s t u : State}
variable {D D₁ D₂ D₃ : ℕ → Dinode} {blk blk₁ blk₂ blk₃ : ℕ → ℕ → UInt8} {i d k : ℕ}
variable {name : List UInt8} {p : Fin NPROC}

/-! ## The tree -/

/-- Slot `k` of the linked directory `d` names `i`, which is no directory or an empty
one. -/
structure Unlinkable (d k i : ℕ) (D : ℕ → Dinode) (blk : ℕ → ℕ → UInt8) : Prop where
  dir : (D d).type = T_DIR
  linked : (D d).nlink ≠ 0
  two : 2 ≤ k
  lt : k < slots D d
  inum : slotInum D blk d k = i
  pos : i ≠ 0
  empty : (D i).type = T_DIR → kidsOf D blk i = 0

namespace Unlinkable

section

variable (h : Unlinkable d k i D blk)
include h

theorem mem : i ∈ kidsOf D blk d :=
  mem_present.mpr ⟨h.pos, k, Finset.mem_Ico.mpr ⟨h.two, h.lt⟩, h.inum⟩

theorem attached (ht : Tree sb D blk) : Attached D i := by
  have := ht.attached_slot h.dir h.linked h.lt (by rw [h.inum]; exact h.pos)
  rwa [h.inum] at this

theorem ne : i ≠ d := by
  intro hid
  have hmem := h.mem
  have hempty := h.empty (by rw [hid]; exact h.dir)
  rw [hid] at hempty hmem
  rw [hempty] at hmem
  exact Multiset.notMem_zero _ hmem

theorem linked_dir (ht : Tree sb D blk) (hi : (D i).type = T_DIR) :
    Links.Linked (view D blk) i (D i).nlink.toInt (slotInum D blk i 1) 0 := by
  have := ht.linked hi (h.attached ht).2
  rwa [h.empty hi] at this

/-- The parent of a directory has a link besides that of its `..`. -/
theorem one_lt (ht : Tree sb D blk) (hi : (D i).type = T_DIR) : 1 < (D d).nlink.toInt := by
  have hd := ht.linked h.dir h.linked
  have hl := h.linked_dir ht hi
  obtain ⟨hup, hroot, -⟩ := ht.ok.nlink_empty hd h.mem hl.1
  rw [hup] at hl
  exact ht.ok.one_lt_nlink hd hl h.ne (Multiset.count_zero _) hroot

theorem attached_parent (ht : Tree sb D blk)
    (hw : SlotWritten d k (List.replicate DIRENT 0) D blk D₁ blk₁)
    (hup : Recounted d (fun x => if (D i).type = T_DIR then x - 1 else x) D₁ blk₁ D₂ blk₂) :
    Attached D₂ d := by
  refine ⟨?_, ?_⟩
  · rw [hup.type, hw.type]
    exact dir_ne_zero h.dir
  · rw [hup.self, hw.nlink]
    split_ifs with hdir
    · have hlt := h.one_lt ht hdir
      intro hzero
      have := toInt_sub_one hlt.le
      rw [hzero] at this
      have hz : (0 : CShort).toInt = 0 := rfl
      omega
    · exact h.linked

/-- **The name goes, and with it the link** and, for a directory, the link that its `..`
is. -/
theorem tree (ht : Tree sb D blk) (hw : SlotWritten d k (List.replicate DIRENT 0) D blk D₁ blk₁)
    (hup : Recounted d (fun x => if (D i).type = T_DIR then x - 1 else x) D₁ blk₁ D₂ blk₂)
    (hlast : Recounted i (· - 1) D₂ blk₂ D₃ blk₃) : Tree sb D₃ blk₃ := by
  have hshape := ht.shaped d h.dir
  have hzero : deInum (List.replicate DIRENT 0) = 0 := by decide
  have hatt := h.attached ht
  have hi : SameAt D blk D₂ blk₂ i := (hw.other i h.ne).trans (hup.sameAt h.ne)
  have hd : SameSlots D₁ blk₁ D₃ blk₃ d := (hup.slots d).trans (hlast.slots d)
  have hshape' : Shaped D₁ blk₁ d := hw.shaped hshape h.two h.lt.le fun hne => absurd hzero hne
  have hnlink : (D₃ i).nlink.toInt = (D i).nlink.toInt - 1 := by
    rw [hlast.self, hi.nlink hatt.1]
    exact toInt_sub_one ((ht.attached_iff hatt.1).mp hatt.2)
  have hnlink' : (D₃ d).nlink.toInt = if (D i).type = T_DIR then (D d).nlink.toInt - 1
      else (D d).nlink.toInt := by
    rw [hlast.other d h.ne.symm, hup.self, hw.nlink]
    split_ifs with hdir
    · exact toInt_sub_one (h.one_lt ht hdir).le
    · rfl
  have hdot : slotInum D₃ blk₃ d 1 = slotInum D blk d 1 := by
    have htwo := hshape.two
    have hk := h.two
    rw [hd.inum_eq hshape'.two, hw.inum_eq (by omega) (by omega)]
  have hkids : kidsOf D₃ blk₃ d = (kidsOf D blk d).erase i := by
    rw [hd.kids_eq, hw.kids_erase hshape h.two h.lt hzero (by rw [h.inum]; exact h.pos), h.inum]
  have hdir : (D₃ d).type = T_DIR :=
    (hlast.type d).trans ((hup.type d).trans (hw.type.trans h.dir))
  have htype : (D₃ i).type = (D i).type := (hlast.type i).trans hi.type
  refine ht.change (i := i) (d := d)
    (fun m hmi hmd => ((hw.other m hmd).trans (hup.sameAt hmd)).trans (hlast.sameAt hmi))
    rfl (view_dir hdir) ?_ ?_
  · rw [hnlink', hdot, hkids]
    by_cases hdi : (D i).type = T_DIR
    · -- an empty directory
      have hs := (hi.dir hdi).trans (hlast.slots i)
      have hnode : view D₃ blk₃ i = some (.dir ((D i).nlink.toInt - 1) (slotInum D blk i 1) 0) := by
        rw [view_dir (htype.trans hdi), hnlink, hs.kids_eq, h.empty hdi,
          hs.inum_eq (ht.shaped i hdi).two]
      rw [if_pos hdi, hnode]
      exact ht.ok.removeDir (ht.linked h.dir h.linked) h.mem (h.linked_dir ht hdi).1
    · have hnode : view D₃ blk₃ i = some (.file ((D i).nlink.toInt - 1)) := by
        rw [view_file (by rw [htype]; exact hatt.1) (by rw [htype]; exact hdi), hnlink]
      have hkid := Multiset.count_pos.mpr h.mem
      rw [if_neg hdi, hnode]
      apply ht.ok.setFile (ht.linked h.dir h.linked) (Or.inl (view_file hatt.1 hdi))
      · intro c hc
        exact Multiset.count_erase_of_ne hc _
      · rw [Multiset.count_erase_self]
        omega
  · rintro m (rfl | rfl) hm
    · have hdi : (D m).type = T_DIR := htype.symm.trans hm
      exact ((hi.dir hdi).trans (hlast.slots m)).shaped (ht.shaped m hdi)
    · exact hd.shaped hshape'

/-- No other inode loses its last link. -/
theorem orphan (ht : Tree sb D blk) (hw : SlotWritten d k (List.replicate DIRENT 0) D blk D₁ blk₁)
    (hup : Recounted d (fun x => if (D i).type = T_DIR then x - 1 else x) D₁ blk₁ D₂ blk₂)
    (hlast : Recounted i (· - 1) D₂ blk₂ D₃ blk₃) {m : ℕ} (hm : m ≠ i) (ho : Orphan D₃ m) :
    m ≠ d ∧ Orphan D m := by
  have ho₂ := (hlast.sameAt hm).orphan ho
  have hmd : m ≠ d := by
    rintro rfl
    exact (h.attached_parent ht hw hup).2 ho₂.2
  exact ⟨hmd, ((hw.other m hmd).trans (hup.sameAt hmd)).orphan ho₂⟩

end

end Unlinkable

/-! ## The call -/

/-- **The end of `sys_unlink`.** -/
theorem unlinkEntry_ends (h : Settled sb w g 1 (ip ::ₘ dp ::ₘ B) s)
    (hvip : w → (s.itable ip).valid = true) (hvdp : w → (s.itable dp).valid = true)
    {off : ℕ} (hoff : w → off = DIRENT * k ∧ InDir s dp k)
    (hun : g → Unlinkable (s.itable dp).inum k (s.itable ip).inum s.dinode s.block) :
    Ends (unlinkEntry sb dp ip off s) (fun _ t => Settled sb w g 0 B t) (Fine w g) := by
  have hip := Multiset.mem_cons_self ip (dp ::ₘ B)
  have hdp : dp ∈ ip ::ₘ dp ::ₘ B := Multiset.mem_cons_of_mem (Multiset.mem_cons_self dp B)
  have hpos := h.pos hdp
  unfold unlinkEntry
  apply (writei_ends h.inv (fun _ => le_rfl) hpos hvdp _ _ _).bind
  rintro n t ⟨ht, hbody, hdone⟩
  -- the slot has its block, so all of it is written
  have hsaved : w → n = DIRENT ∧ Saved sb dp (kernelSrc (List.replicate DIRENT 0)) (DIRENT * k)
      DIRENT s DIRENT t := by
    intro hw
    obtain ⟨rfl, hin⟩ := hoff hw
    exact (hdone hw).slot (h.inv.good hw) hpos (hvdp hw) hin
  by_cases hn : n ≠ DIRENT
  · rw [if_pos hn]
    have hw : ¬ w := fun hw => hn (hsaved hw).1
    exact ⟨fun h => absurd h hw, fun h' => absurd (h.inv.gw h') hw⟩
  rw [if_neg hn]
  have hcut : g → SlotWritten (s.itable dp).inum k (List.replicate DIRENT 0) s.dinode s.block
      t.dinode t.block := fun hg =>
    (hsaved (h.inv.gw hg)).2.slotWritten (h.inv.good (h.inv.gw hg)) hpos (hvdp (h.inv.gw hg))
      (by decide)
  unfold dropUp
  rw [bind_assoc, inode_bind]
  apply (recount_ends _ ht (ht.refs.pos_of_mem hdp) fun hw => by
    rw [hbody.valid]; exact hvdp hw).bind
  rintro _ u ⟨hu, hbody', hdrop⟩
  have hup : g → Recounted (s.itable dp).inum
      (fun x => if (s.dinode (s.itable ip).inum).type = T_DIR then x - 1 else x) t.dinode t.block
      u.dinode u.block := by
    intro hg
    have hw := h.inv.gw hg
    have hne : ip ≠ dp := fun heq => (hun hg).ne (by rw [heq])
    have hd := hdrop hw
    rw [hbody.others ip hne, hbody.inum,
      ← (h.inv.good hw).clean ip (h.pos hip) (hvip hw)] at hd
    exact hd
  have hinum : ∀ e, (u.itable e).inum = (s.itable e).inum := fun e =>
    (hbody'.inum_eq e).trans (hbody.inum_eq e)
  rw [Multiset.cons_swap] at hu
  apply (putAttached_ends hu (fun _ => le_rfl) fun hg => by
    rw [hinum]; exact (hun hg).attached_parent (h.tree hg) (hcut hg) (hup hg)).bind
  rintro _ x ⟨hx, hkeeps, hdisk⟩
  have hmem := Multiset.mem_cons_self ip B
  have hxip := hkeeps.mem hmem
  apply (setNlink_ends _ hx (fun _ => le_rfl) (hx.refs.pos_of_mem hmem) fun hw => hxip.2 (by
    rw [hbody'.valid_eq, hbody.valid_eq]; exact hvip hw)).bind
  rintro _ y ⟨hy, hbody'', hrel⟩
  have hlast : g → Recounted (s.itable ip).inum (· - 1) u.dinode u.block y.dinode y.block := by
    intro hg
    have hr := Relabelled.recounted (f := (· - 1)) (hrel (h.inv.gw hg))
    rw [hxip.1, hinum, (hdisk hg).dinode, (hdisk hg).block] at hr
    exact hr
  have hksy : Keeps (ip ::ₘ B) s y :=
    (((hbody.keeps _).trans (hbody'.keeps _)).trans hkeeps).trans (hbody''.keeps _)
  have hsettled : Settled sb w g 1 (ip ::ₘ B) y := by
    refine ⟨hy, fun hg => (hun hg).tree (h.tree hg) (hcut hg) (hup hg) (hlast hg), fun hg i hi => ?_⟩
    by_cases hii : i = (s.itable ip).inum
    · -- the call still holds the inode that has lost the link
      refine Or.inr ⟨ip, hy.refs.pos_of_mem hmem, ?_, (hksy.mem hmem).2 (hvip (h.inv.gw hg))⟩
      rw [(hksy.mem hmem).1, hii]
    · obtain ⟨hid, hold⟩ := (hun hg).orphan (h.tree hg) (hcut hg) (hup hg) (hlast hg) hii hi
      refine (h.owned hg i hold).kept hy.refs hksy le_rfl fun e hpos' _ hei => ?_
      refine (h.inv.refs.kept_of_pos hpos').imp_left fun hmem' => ?_
      rw [Multiset.cons_swap] at hmem'
      refine (Multiset.mem_cons.mp hmem').resolve_left ?_
      rintro rfl
      exact hid hei.symm
  exact hsettled.unlockputEnd 0

/-- What has been looked up under a name other than `.` and `..` can be unlinked, unless
it is a directory with entries. -/
theorem unlinkable_of_match (h : Settled sb w g o H s) (hg : g) (hpos : 0 < (s.itable dp).ref)
    (hv : (s.itable dp).valid = true) (htype : (s.itable dp).d.type = T_DIR)
    (hatt : Attached s.dinode (s.itable dp).inum) (hin : InDir s dp k)
    (hmatch : Matches s dp name k) (hdot : ¬ (namecmp name dot = true ∨ namecmp name dotdot = true))
    (hi : slotInum s.dinode s.block (s.itable dp).inum k = i)
    (hempty : (s.dinode i).type = T_DIR → ∀ k, 2 ≤ k → k < slots s.dinode i →
      slotInum s.dinode s.block i k = 0) : Unlinkable (s.itable dp).inum k i s.dinode s.block := by
  have hclean := (h.inv.good (h.inv.gw hg)).clean dp hpos hv
  have hdir : (s.dinode (s.itable dp).inum).type = T_DIR := by
    rw [hclean]
    exact htype
  have hshape := (h.tree hg).shaped _ hdir
  obtain ⟨hne, hname⟩ := hmatch
  refine ⟨hdir, hatt.2, ?_, ?_, hi, by rw [← hi]; exact hne, fun hdi => ?_⟩
  · -- the first two slots have other names
    rw [not_or] at hdot
    have h0 : k ≠ 0 := by
      rintro rfl
      apply hdot.1
      rw [hshape.self.2] at hname
      exact decide_eq_true hname.symm
    have h1 : k ≠ 1 := by
      rintro rfl
      apply hdot.2
      rw [hshape.up.2] at hname
      exact decide_eq_true hname.symm
    omega
  · rw [lt_slots, hclean]
    exact hin
  · unfold kidsOf
    rw [Multiset.eq_zero_iff_forall_notMem]
    intro x hx
    obtain ⟨hx0, m, hm, hxm⟩ := mem_present.mp hx
    obtain ⟨hm2, hmlt⟩ := Finset.mem_Ico.mp hm
    exact hx0 (hxm.symm.trans (hempty hdi m hm2 hmlt))

/-- **`sys_unlink`.** -/
theorem sysUnlink_ends {path : Option (List UInt8)} (h : Settled sb w g 0 B s)
    (hstart : ∀ path', argstr path = some path' → Starts g p path' s) :
    Ends (sysUnlink sb p path s) (fun _ t => Settled sb w g 0 B t) (Fine w g) := by
  unfold sysUnlink
  cases hpath : argstr path with
  | none => exact h
  | some path' =>
    simp only
    rw [beginOp_bind]
    have h1 := h.begin
    apply (namex_ends h1.inv (fun _ => le_rfl) p path' true (hstart path' hpath)).bind
    rintro (_ | ⟨dp, name⟩) t hwalk
    · exact (h1.walk hwalk).finish
    have ht : Settled sb w g 1 (dp ::ₘ B) t := h1.walk hwalk
    have hdp := Multiset.mem_cons_self dp B
    simp only
    apply (ht.lock (ht.pos hdp)).bind
    rintro _ u ⟨hu, hload⟩
    have hatt : g → Attached u.dinode (u.itable dp).inum := by
      intro hg
      rw [hload.inum]
      exact hload.disk.attached (hwalk.attached hg dp name rfl)
    by_cases hdot : namecmp name dot = true ∨ namecmp name dotdot = true
    · rw [if_pos hdot]
      exact hu.unlockputEnd (-1)
    rw [if_neg hdot]
    have hfollow : Follows g u dp := fun hg => ⟨(hu.tree hg).closed, hatt hg⟩
    apply (dirlookup_ends hu.inv (hu.pos hdp) (fun _ => hload.valid)
      (hfollow.names hu.inv (hu.pos hdp) fun _ => hload.valid)).bind
    rintro (_ | ⟨ip, off⟩) v ⟨htype, hlook⟩
    · obtain ⟨hinv, hkeeps, hsame⟩ := hlook
      refine (hu.same hinv hkeeps le_rfl fun hg => ?_).unlockputEnd (-1)
      rw [(hsame (h.inv.gw hg)).1]
      exact SameDisk.refl u
    obtain ⟨hinv, hkeeps, hfound⟩ := hlook
    have hv : Settled sb w g 1 (ip ::ₘ dp ::ₘ B) v :=
      hu.same hinv hkeeps (Multiset.le_cons_self _ ip) fun hg => (hfound (h.inv.gw hg)).1
    have hip := Multiset.mem_cons_self ip (dp ::ₘ B)
    simp only
    apply (hv.lock (hv.pos hip)).bind
    rintro _ x ⟨hx, hload'⟩
    rw [inode_bind]
    by_cases hlink : (x.itable ip).d.nlink.toInt < 1
    · rw [if_pos hlink]
      exact hx.inv.fine (by decide)
    rw [if_neg hlink]
    apply (nonempty_ends hx.inv (hx.pos hip) fun _ => hload'.valid).bind
    rintro full y ⟨hy, hbody, hempty⟩
    have hys : Settled sb w g 1 (ip ::ₘ dp ::ₘ B) y := hx.same hy (hbody.keeps _) le_rfl fun hg => by
      rw [(hempty (h.inv.gw hg)).1]
      exact SameDisk.refl x
    cases full with
    | true =>
      rw [if_pos rfl]
      apply (hys.unlockput fun _ => le_rfl).bind
      rintro _ z ⟨hz, -⟩
      exact hz.unlockputEnd (-1)
    | false =>
      rw [if_neg (by decide)]
      have hvdp : (x.itable dp).valid = true :=
        ((hload'.keeps (dp ::ₘ B)).mem hdp).2 ((hkeeps.mem hdp).2 hload.valid)
      by_cases hw : w
      · -- the state is that of the lookup
        obtain ⟨rfl, hnone⟩ := hempty hw
        obtain ⟨hdisk, k, -, -, rfl, hin, hmatch, hinum⟩ := hfound hw
        have hdisk' : SameDisk u y := hdisk.trans hload'.disk
        have hgood := hx.inv.good hw
        have hposdp := hx.pos (Multiset.mem_cons_of_mem hdp : dp ∈ ip ::ₘ dp ::ₘ B)
        have hd : (y.itable dp).d = (u.itable dp).d := by
          rw [← hgood.clean dp hposdp hvdp, hload'.inum_eq, (hkeeps.mem hdp).1, hdisk'.dinode]
          exact (hu.inv.good hw).clean dp (hu.pos hdp) hload.valid
        have hin' : InDir y dp k := by
          unfold InDir
          rw [hd]
          exact hin
        have hdnum : (y.itable dp).inum = (u.itable dp).inum := by
          rw [hload'.inum_eq, (hkeeps.mem hdp).1]
        refine unlinkEntry_ends hx (fun _ => hload'.valid) (fun _ => hvdp)
          (fun _ => ⟨rfl, hin'⟩) fun hg => ?_
        refine unlinkable_of_match hx hg hposdp hvdp (by rw [hd]; exact htype) ?_
          hin' ?_ hdot ?_ fun hdir k' h2 hlt => ?_
        · rw [hdnum]
          exact hdisk'.attached (hatt hg)
        · unfold Matches
          rw [hdnum, hdisk'.dinode, hdisk'.block]
          exact hmatch
        · rw [hdnum, hdisk'.dinode, hdisk'.block, hload'.inum_eq]
          exact hinum.symm
        · have hclean := hgood.clean ip (hx.pos hip) hload'.valid
          apply hnone rfl (by rw [← hclean]; exact hdir) k' h2
          rw [lt_slots, hclean] at hlt
          unfold entries DIRENT at *
          omega
      · -- nothing is known about the offset
        have hg : ¬ g := fun hg => hw (h.inv.gw hg)
        exact unlinkEntry_ends (k := 0) hys (fun h => absurd h hw) (fun h => absurd h hw)
          (fun h => absurd h hw) fun h => absurd h hg

end Fs

/-
# What dirlink does, and what shows of it

Two disks are alike at an inode if it has the same type on both and, unless it is free, the
same link count, device, size and bytes (`Alike`); the addresses of its blocks do not show.
On a consistent disk `dirlink` fills the first empty slot of the directory; if it fails,
every inode looks as before (`Calm.dirlink`, `LinkDone.alike`).
-/
import Mathlib.Data.List.Find
import Xv6.FsQuiet

namespace Fs

open Hoare

variable {sb : Superblock} {o : ℕ} {H : Multiset Ip} {dp ip : Ip} {s t u : State}
variable {D D' D'' : ℕ → Dinode} {blk blk' blk'' : ℕ → ℕ → UInt8} {i k : ℕ} {r : ℤ}
variable {name : List UInt8} {inum : ℕ}

/-! ## Disks that look the same -/

/-- **The inode looks the same** on both disks. -/
structure Alike (D : ℕ → Dinode) (blk : ℕ → ℕ → UInt8) (D' : ℕ → Dinode)
    (blk' : ℕ → ℕ → UInt8) (i : ℕ) : Prop where
  type : (D' i).type = (D i).type
  nlink : (D i).type ≠ 0 → (D' i).nlink = (D i).nlink
  major : (D i).type ≠ 0 → (D' i).major = (D i).major
  minor : (D i).type ≠ 0 → (D' i).minor = (D i).minor
  size : (D i).type ≠ 0 → (D' i).size = (D i).size
  bytes : (D i).type ≠ 0 → ∀ j, j < (D i).size → content D' blk' i j = content D blk i j

theorem Alike.refl (D : ℕ → Dinode) (blk : ℕ → ℕ → UInt8) (i : ℕ) : Alike D blk D blk i :=
  ⟨rfl, fun _ => rfl, fun _ => rfl, fun _ => rfl, fun _ => rfl, fun _ _ _ => rfl⟩

theorem Alike.trans (h : Alike D blk D' blk' i) (h' : Alike D' blk' D'' blk'' i) :
    Alike D blk D'' blk'' i := by
  have htype : (D i).type ≠ 0 → (D' i).type ≠ 0 := fun hi => by rwa [h.type]
  refine ⟨h'.type.trans h.type, fun hi => (h'.nlink (htype hi)).trans (h.nlink hi),
    fun hi => (h'.major (htype hi)).trans (h.major hi),
    fun hi => (h'.minor (htype hi)).trans (h.minor hi),
    fun hi => (h'.size (htype hi)).trans (h.size hi), fun hi j hj => ?_⟩
  rw [h'.bytes (htype hi) j (by rwa [h.size hi]), h.bytes hi j hj]

theorem Alike.of_eq (h : D' i = D i) : Alike D blk D' blk i := by
  refine ⟨by rw [h], fun _ => by rw [h], fun _ => by rw [h], fun _ => by rw [h],
    fun _ => by rw [h], fun _ j _ => ?_⟩
  unfold content
  rw [h]

theorem Alike.of_free (h : (D i).type = 0) (h' : (D' i).type = 0) : Alike D blk D' blk' i :=
  ⟨h'.trans h.symm, fun hi => absurd h hi, fun hi => absurd h hi, fun hi => absurd h hi,
    fun hi => absurd h hi, fun hi => absurd h hi⟩

theorem SameDisk.alike (h : SameDisk s t) (i : ℕ) : Alike s.dinode s.block t.dinode t.block i := by
  rw [h.dinode, h.block]
  exact Alike.refl _ _ i

theorem Alike.orphan (h : Alike D blk D' blk' i) (hi : Orphan D' i) : Orphan D i := by
  have htype : (D i).type ≠ 0 := by
    rw [← h.type]
    exact hi.1
  exact ⟨htype, by rw [← h.nlink htype]; exact hi.2⟩

theorem Alike.slots_eq (h : Alike D blk D' blk' i) (hi : (D i).type ≠ 0) :
    slots D' i = slots D i := by
  unfold slots
  rw [h.size hi]

theorem Alike.slotBytes_eq (h : Alike D blk D' blk' i) (hi : (D i).type ≠ 0)
    (hk : k < slots D i) : slotBytes D' blk' i k = slotBytes D blk i k := by
  rw [lt_slots] at hk
  exact slotBytes_congr fun j hj => h.bytes hi _ (by omega)

/-! ## What the updates of an inode leave alone -/

theorem Saved.alike {src : ℕ → Option UInt8} {off n m : ℕ} (hgood : Consistent sb s)
    (h : Saved sb dp src off n s m t) (hi : i ≠ (s.itable dp).inum) :
    Alike s.dinode s.block t.dinode t.block i := by
  have hsame := h.wrote.other i hi
  refine ⟨by rw [hsame], fun _ => by rw [hsame], fun _ => by rw [hsame], fun _ => by rw [hsame],
    fun _ => by rw [hsame], fun htype j hj => ?_⟩
  exact h.wrote.content_eq htype (hgood.whole i htype j hj) (Or.inl hi)

/-- A write at the end that has failed. -/
theorem Saved.alike_of_fail {src : ℕ → Option UInt8} {off n : ℕ} (hgood : Consistent sb s)
    (hpos : 0 < (s.itable dp).ref) (hv : (s.itable dp).valid = true)
    (h : Saved sb dp src off n s 0 t) (hoff : (s.itable dp).d.size = off) (i : ℕ) :
    Alike s.dinode s.block t.dinode t.block i := by
  by_cases hi : i = (s.itable dp).inum
  · subst hi
    have hclean := hgood.clean dp hpos hv
    obtain ⟨f, z, hshape⟩ := h.wrote.shape
    refine ⟨h.wrote.type_eq _, fun _ => h.nlink_eq _, fun _ => by rw [hshape],
      fun _ => by rw [hshape], fun _ => ?_, fun htype j hj => ?_⟩
    · rw [h.clean, h.size, hclean, hoff]
      exact Nat.max_eq_left (by omega)
    · rw [hclean, hoff] at hj
      exact h.wrote.content_eq htype
        (hgood.whole _ htype j (by rw [hclean, hoff]; exact hj)) (Or.inr (Or.inl hj))
  · exact h.alike hgood hi

theorem Relabelled.alike {f : Dinode → Dinode} (h : Relabelled ip f s t)
    (hi : i ≠ (s.itable ip).inum) : Alike s.dinode s.block t.dinode t.block i := by
  rw [h.block]
  apply Alike.of_eq
  rw [h.dinode, Function.update_of_ne hi]

theorem Freed.alike (h : Freed ip s t) (hi : i ≠ (s.itable ip).inum) :
    Alike s.dinode s.block t.dinode t.block i := by
  rw [h.block]
  exact Alike.of_eq (h.other i hi)

theorem PutDisk.alike (h : PutDisk ip s t) (hi : i ≠ (s.itable ip).inum) :
    Alike s.dinode s.block t.dinode t.block i := by
  by_cases hlast : LastRef ip s
  · exact (h.freed hlast).alike hi
  · exact (h.same hlast).alike i

theorem Allocated.alike {type : Itable.CShort} (h : Allocated sb type inum ip s t)
    (hi : i ≠ inum) : Alike s.dinode s.block t.dinode t.block i := by
  rw [h.block]
  apply Alike.of_eq
  rw [h.dinode, Function.update_of_ne hi]

/-! ## dirlink -/

/-- What `dirlink` has done to a directory of whole slots: the name is there already, the
entry could not be written, or it has been written to the first empty slot. -/
def LinkDone (sb : Superblock) (dp : Ip) (name : List UInt8) (inum : ℕ) (s : State) (r : ℤ)
    (t : State) : Prop :=
  (r = -1 ∧ SameDisk s t ∧ (findSlot s.dinode s.block (s.itable dp).inum name).isSome) ∨
  (findSlot s.dinode s.block (s.itable dp).inum name = none ∧ Body dp s t ∧
    ((r = -1 ∧ t = s ∧
        MAXFILE * BSIZE < DIRENT * vacancy s.dinode s.block (s.itable dp).inum + DIRENT) ∨
      (r = -1 ∧ Saved sb dp (kernelSrc (dirent inum name))
        (DIRENT * vacancy s.dinode s.block (s.itable dp).inum) DIRENT s 0 t) ∨
      (r = 0 ∧ Saved sb dp (kernelSrc (dirent inum name))
        (DIRENT * vacancy s.dinode s.block (s.itable dp).inum) DIRENT s DIRENT t)))

theorem Listed.size_eq (h : Listed sb dp s) :
    (s.itable dp).d.size = DIRENT * slots s.dinode (s.itable dp).inum := by
  have heven := h.even
  unfold slots DIRENT at *
  rw [h.clean]
  omega

theorem Listed.vacancy_le (h : Listed sb dp s) :
    DIRENT * vacancy s.dinode s.block (s.itable dp).inum ≤ (s.itable dp).d.size := by
  rw [h.size_eq]
  apply Nat.mul_le_mul_left
  rcases vacancy_spec s.dinode s.block (s.itable dp).inum with hv | hv
  · exact hv.1.le
  · exact hv.1.le

/-- **`writei`** to a locked inode returns. -/
theorem Calm.writei (h : Calm sb o H s) (ho : 1 ≤ o) (hpos : 0 < (s.itable ip).ref)
    (hv : (s.itable ip).valid = true) (src : ℕ → Option UInt8) (off n : ℕ) :
    ∃ r t, Fs.writei sb ip src off n s = .ok r t ∧ Calm sb o H t ∧ Body ip s t ∧
      WriteDone sb ip src off n s r t := by
  have hgood := h.good trivial
  have hwork := hgood.work hpos hv (by rw [h.op]; exact ho)
  have hends := writei_ends h (fun _ => ho) hpos (fun _ => hv) src off n
  rcases writei_ok src off n hwork (hgood.clean ip hpos hv) (hgood.has hpos hv) with
    ⟨hrun, -⟩ | ⟨m, t, hrun, -⟩
  · rw [hrun] at hends
    exact ⟨_, _, hrun, hends.1, hends.2.1, hends.2.2 trivial⟩
  · rw [hrun] at hends
    exact ⟨_, _, hrun, hends.1, hends.2.1, hends.2.2 trivial⟩

/-- **`dirlink`** in a directory of whole slots. -/
theorem Calm.dirlink (h : Calm sb o H s) (ho : 1 ≤ o) (hdir : Listed sb dp s)
    (name : List UInt8) (inum : ℕ) : Ends (Fs.dirlink sb dp name inum s)
      (fun r t => Calm sb o H t ∧ Keeps H s t ∧ LinkDone sb dp name inum s r t)
      fun msg _ => msg = "iget: no inodes" ∧ ∀ e, (s.itable e).ref ≠ 0 := by
  unfold Fs.dirlink
  apply Ends.bind (Calm.dirlookup h hdir name)
  rintro (_ | ⟨ip, off⟩) t hlook
  · obtain ⟨rfl, hnone⟩ := hlook
    simp only
    rw [inode_bind, bind_of_ok (emptyEntry_eq hdir)]
    obtain ⟨r, u, hrun, hu, hbody, hdone⟩ := Calm.writei h ho hdir.pos hdir.valid
      (kernelSrc (dirent inum name)) (DIRENT * vacancy t.dinode t.block (t.itable dp).inum) DIRENT
    rw [bind_of_ok hrun]
    rcases hdone with ⟨rfl, rfl, hwhy⟩ | ⟨m, rfl, hsaved⟩
    · rw [if_pos (by decide)]
      refine ⟨h, Keeps.refl H u, Or.inr ⟨hnone, hbody, Or.inl ⟨rfl, rfl, ?_⟩⟩⟩
      have hle := hdir.vacancy_le
      have hsize := hdir.good.size_le hdir.pos hdir.valid
      have hmax : MAXFILE * BSIZE + DIRENT < 2 ^ 32 := by decide
      omega
    rcases hsaved.slot with rfl | rfl
    · rw [if_pos (by decide)]
      exact ⟨hu, hbody.keeps H, Or.inr ⟨hnone, hbody, Or.inr (Or.inl ⟨rfl, hsaved⟩)⟩⟩
    · rw [if_neg (by decide)]
      exact ⟨hu, hbody.keeps H, Or.inr ⟨hnone, hbody, Or.inr (Or.inr ⟨rfl, hsaved⟩)⟩⟩
  · obtain ⟨hcalm, hstill, hlast, k, hfind, -⟩ := hlook
    obtain ⟨u, hrun, hu, hstill'⟩ := Calm.put hcalm hlast
    simp only
    rw [bind_of_ok hrun]
    refine ⟨hu, hstill.keeps.trans hstill'.keeps, Or.inl ⟨rfl, hstill.disk.trans hstill'.disk, ?_⟩⟩
    rw [hfind]
    rfl

/-- A write that fails is one beyond the last slot. -/
theorem Saved.vacancy_of_fail (hdir : Listed sb dp s) {bytes : List UInt8}
    (h : Saved sb dp (kernelSrc bytes) (DIRENT * vacancy s.dinode s.block (s.itable dp).inum)
      DIRENT s 0 t) :
    (s.itable dp).d.size = DIRENT * vacancy s.dinode s.block (s.itable dp).inum := by
  rcases vacancy_spec s.dinode s.block (s.itable dp).inum with hv | hv
  · -- a slot in the directory has its bytes, so that the write does not fail
    exfalso
    have hin := hdir.inDir_iff.mpr hv.1
    have hfull := h.full fun j hj => ⟨hdir.good.has hdir.pos hdir.valid _ (by
      unfold InDir at hin
      omega), rfl⟩
    exact absurd hfull (by decide)
  · rw [hv.1]
    exact hdir.size_eq

namespace LinkDone

section

variable (h : LinkDone sb dp name inum s r t)
include h

theorem result : r = -1 ∨ r = 0 := by
  rcases h with ⟨rfl, -⟩ | ⟨-, -, ⟨rfl, -⟩ | ⟨rfl, -⟩ | ⟨rfl, -⟩⟩
  · exact Or.inl rfl
  · exact Or.inl rfl
  · exact Or.inl rfl
  · exact Or.inr rfl

/-- **A link that fails** does not show. -/
theorem alike (hdir : Listed sb dp s) (hr : r < 0) (i : ℕ) :
    Alike s.dinode s.block t.dinode t.block i := by
  rcases h with ⟨-, hdisk, -⟩ | ⟨-, -, ⟨-, rfl, -⟩ | ⟨-, hsaved⟩ | ⟨rfl, -⟩⟩
  · exact hdisk.alike i
  · exact Alike.refl _ _ i
  · exact hsaved.alike_of_fail hdir.good hdir.pos hdir.valid (hsaved.vacancy_of_fail hdir) i
  · exact absurd hr (by decide)

/-- A link shows at the directory only. -/
theorem alike_of_ne (hdir : Listed sb dp s)
    (hi : i ≠ (s.itable dp).inum) : Alike s.dinode s.block t.dinode t.block i := by
  rcases h with ⟨-, hdisk, -⟩ | ⟨-, -, ⟨-, rfl, -⟩ | ⟨-, hsaved⟩ | ⟨-, hsaved⟩⟩
  · exact hdisk.alike i
  · exact Alike.refl _ _ i
  · exact hsaved.alike hdir.good hi
  · exact hsaved.alike hdir.good hi

theorem type_eq (i : ℕ) : (t.dinode i).type = (s.dinode i).type := by
  rcases h with ⟨-, hdisk, -⟩ | ⟨-, -, ⟨-, rfl, -⟩ | ⟨-, hsaved⟩ | ⟨-, hsaved⟩⟩
  · rw [hdisk.dinode]
  · rfl
  · exact hsaved.wrote.type_eq i
  · exact hsaved.wrote.type_eq i

theorem nlink_eq (i : ℕ) : (t.dinode i).nlink = (s.dinode i).nlink := by
  rcases h with ⟨-, hdisk, -⟩ | ⟨-, -, ⟨-, rfl, -⟩ | ⟨-, hsaved⟩ | ⟨-, hsaved⟩⟩
  · rw [hdisk.dinode]
  · rfl
  · exact hsaved.nlink_eq i
  · exact hsaved.nlink_eq i

/-- **A link that succeeds** is a new entry in the first empty slot. -/
theorem entered (hdir : Listed sb dp s) (hr : ¬ r < 0) :
    Entered (s.itable dp).inum name inum s.dinode s.block t.dinode t.block := by
  rcases h with ⟨rfl, -⟩ | ⟨hnone, -, ⟨rfl, -⟩ | ⟨rfl, -⟩ | ⟨-, hsaved⟩⟩
  · exact absurd (by decide) hr
  · exact absurd (by decide) hr
  · exact absurd (by decide) hr
  refine ⟨fun j hj hne => findSlot_none hnone hj hne, ?_, _,
    hsaved.slotWritten hdir.good hdir.pos hdir.valid (dirent_length _ _), ?_⟩
  · rw [hdir.clean]
    exact hdir.even
  · rcases vacancy_spec s.dinode s.block (s.itable dp).inum with hv | hv
    · exact Or.inl hv
    · exact Or.inr hv.1

end

end LinkDone

/-- A directory of whole slots stays one if it looks the same. -/
theorem Listed.of_alike (h : Listed sb dp s) (ht : Calm sb o H t) (hdp : dp ∈ H)
    (hkept : (t.itable dp).inum = (s.itable dp).inum ∧
      ((s.itable dp).valid = true → (t.itable dp).valid = true))
    (halike : Alike s.dinode s.block t.dinode t.block (s.itable dp).inum) : Listed sb dp t := by
  have hpos := ht.refs.pos_of_mem hdp
  have hvalid := hkept.2 h.valid
  have hclean := (ht.good trivial).clean dp hpos hvalid
  have htype : (s.dinode (s.itable dp).inum).type ≠ 0 := by
    rw [h.clean, h.type]
    decide
  rw [hkept.1] at hclean
  refine ⟨ht.good trivial, hpos, hvalid, ?_, ?_⟩
  · rw [← hclean, halike.type, h.clean, h.type]
  · rw [← hclean, halike.size htype, h.clean]
    exact h.even

/-- So does the directory that `dirlink` has worked on. -/
theorem LinkDone.listed (h : LinkDone sb dp name inum s r t) (hdir : Listed sb dp s)
    (ht : Calm sb o H t) (hdp : dp ∈ H) (hkeeps : Keeps H s t) : Listed sb dp t := by
  by_cases hr : r < 0
  · exact hdir.of_alike ht hdp (hkeeps.mem hdp) (h.alike hdir hr _)
  obtain ⟨-, heven, k, hw, -⟩ := h.entered hdir hr
  have hpos := ht.refs.pos_of_mem hdp
  have hvalid := (hkeeps.mem hdp).2 hdir.valid
  have hclean := (ht.good trivial).clean dp hpos hvalid
  rw [(hkeeps.mem hdp).1] at hclean
  refine ⟨ht.good trivial, hpos, hvalid, ?_, ?_⟩
  · rw [← hclean, hw.type, hdir.clean, hdir.type]
  · rw [← hclean]
    exact (hw.slots_eq heven).2

end Fs

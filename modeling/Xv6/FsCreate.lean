/-
# Making inodes: create

`create` allocates an inode, fills in its fields, makes the entries `.` and `..` of a new
directory, and enters the name last.  Until then nothing names the inode, so that `fail:`
can free it by setting its link count to 0.
-/
import Xv6.FsUnlink

namespace Fs

open Hoare
open Itable (CShort)
open Proc (NPROC)

variable {sb : Superblock} {w : Prop} {g : Watch} {H B : Multiset Ip} {dp ip : Ip} {s t u : State}
variable {D D₀ D' D'' : ℕ → Dinode} {blk blk₀ blk' blk'' : ℕ → ℕ → UInt8} {i d k : ℕ}
variable {name : List UInt8} {p : Fin NPROC} {type major minor : CShort}

/-! ## A new inode -/

/-- Inode `i` is new: it was free, and nothing else of the tree has changed. -/
structure Fresh (sb : Superblock) (i : ℕ) (D₀ : ℕ → Dinode) (blk₀ : ℕ → ℕ → UInt8)
    (D : ℕ → Dinode) (blk : ℕ → ℕ → UInt8) : Prop where
  tree : Tree sb D₀ blk₀
  free : (D₀ i).type = 0
  pos : 0 < i
  lt : i < sb.ninodes
  other : ∀ m, m ≠ i → SameAt D₀ blk₀ D blk m

section

variable (h : Fresh sb i D₀ blk₀ D blk)
include h

theorem Fresh.step (hs : ∀ m, m ≠ i → SameAt D blk D' blk' m) : Fresh sb i D₀ blk₀ D' blk' :=
  ⟨h.tree, h.free, h.pos, h.lt, fun m hm => (h.other m hm).trans (hs m hm)⟩

theorem Fresh.ne (hd : Attached D₀ d) : d ≠ i := by
  rintro rfl
  exact hd.1 h.free

theorem Fresh.attached (hd : Attached D₀ d) : Attached D d :=
  (h.other d (h.ne hd)).attached hd

/-- What a linked directory names is attached, still. -/
theorem Fresh.attached_slot (hdir : (D₀ d).type = T_DIR) (hlink : (D₀ d).nlink ≠ 0)
    (hk : k < slots D d) (hne : slotInum D blk d k ≠ 0) : Attached D (slotInum D blk d k) := by
  have hslots := (h.other d (h.ne ⟨dir_ne_zero hdir, hlink⟩)).dir hdir
  rw [hslots.slots_eq] at hk
  rw [hslots.inum_eq hk] at hne ⊢
  exact h.attached (h.tree.attached_slot hdir hlink hk hne)

/-- The inode is free again. -/
theorem Fresh.undo (hfree : (D i).type = 0) (m : ℕ) : SameAt D₀ blk₀ D blk m := by
  by_cases hm : m = i
  · subst hm
    exact ⟨hfree.trans h.free.symm, fun hne => absurd h.free hne,
      fun hdir => absurd h.free (dir_ne_zero hdir)⟩
  · exact h.other m hm

end

/-- The call has the only reference to the new inode. -/
def Sole (ip : Ip) (B : Multiset Ip) (s : State) : Prop := shares s ip = 0 ∧ B.count ip = 0

theorem Sole.ref_eq (h : Sole ip B s) (hr : Refs (ip ::ₘ B) s) : (s.itable ip).ref = 1 := by
  have := hr.exact ip
  rw [Multiset.count_cons_self, h.1, h.2] at this
  exact this

theorem Sole.of_ref (hr : Refs (ip ::ₘ B) s) (href : (s.itable ip).ref = 1) : Sole ip B s := by
  have := hr.exact ip
  rw [Multiset.count_cons_self, href] at this
  unfold Sole
  omega

theorem Sole.keeps (h : Sole ip B s) (hk : Keeps H s t) : Sole ip B t :=
  ⟨(hk.shares_eq ip).trans h.1, h.2⟩

/-- **`fail:`** -/
theorem createFail_ends (h : Inv sb w g 1 (ip ::ₘ dp ::ₘ B) s) (hv : w → (s.itable ip).valid = true)
    (hnew : g → Sole ip (dp ::ₘ B) s ∧
      ∃ D₀ blk₀, Fresh sb (s.itable ip).inum D₀ blk₀ s.dinode s.block ∧
        ∀ m, Orphan D₀ m → Held g.lost s m) :
    Ends (createFail dp ip s) (fun r t => r = none ∧ Settled sb w g 1 B t) (Fine w g) := by
  have hip := Multiset.mem_cons_self ip (dp ::ₘ B)
  unfold createFail
  apply (setNlink_ends _ h (fun _ => le_rfl) (h.refs.pos_of_mem hip) hv).bind
  rintro _ t ⟨ht, hbody, hrel⟩
  apply (iunlockput_ends ht fun _ => le_rfl).bind
  rintro _ u ⟨hu, hkeeps, hput⟩
  have hback : g → ∃ D₀ blk₀, Fresh sb (s.itable ip).inum D₀ blk₀ s.dinode s.block ∧
      (∀ m, Orphan D₀ m → Held g.lost s m) ∧ ∀ m, SameAt D₀ blk₀ u.dinode u.block m := by
    intro hg
    have hw := h.gw hg
    obtain ⟨hsole, D₀, blk₀, hfresh, hheld⟩ := hnew hg
    refine ⟨D₀, blk₀, hfresh, hheld, ?_⟩
    have hr := hrel hw
    have hvt : (t.itable ip).valid = true := by
      rw [hbody.valid]
      exact hv hw
    -- the last reference, and no link
    have hlast : LastRef ip t := by
      refine ⟨(hsole.keeps (hbody.keeps 0)).ref_eq ht.refs, hvt, ?_⟩
      rw [← (ht.good hw).clean ip (ht.refs.pos_of_mem hip) hvt, hbody.inum, hr.self]
    have hfreed := (hput hw).freed hlast
    rw [← hbody.inum] at hfresh
    refine (hfresh.step fun m hm => ?_).undo hfreed.type
    rw [hbody.inum] at hm
    refine (hr.sameAt hm).trans ?_
    rw [hfreed.block]
    apply SameAt.of_eq
    apply hfreed.other
    rw [hbody.inum]
    exact hm
  have hsettled : Settled sb w g 1 (dp ::ₘ B) u := by
    refine ⟨hu, fun hg => ?_, fun hg m hm => ?_⟩
    · obtain ⟨D₀, blk₀, hfresh, -, hsame⟩ := hback hg
      exact hfresh.tree.of_same hsame
    · obtain ⟨D₀, blk₀, hfresh, hheld, hsame⟩ := hback hg
      have hold := (hsame m).orphan hm
      refine (hheld m hold).kept hu.refs ((hbody.keeps _).trans hkeeps) le_rfl fun e hpos _ hem => ?_
      refine (h.refs.kept_of_pos hpos).imp_left fun hmem => (Multiset.mem_cons.mp hmem).resolve_left ?_
      rintro rfl
      exact hold.1 (by rw [← hem]; exact hfresh.free)
  apply (hsettled.unlockput fun _ => le_rfl).bind
  rintro _ x ⟨hx, -⟩
  exact ⟨rfl, hx⟩

/-! ## The entries of a new directory -/

/-- The node of a new inode that nothing names yet. -/
structure Made (i d : ℕ) (type : CShort) (D : ℕ → Dinode) (blk : ℕ → ℕ → UInt8) : Prop where
  kind : (D i).type = type
  nlink : (D i).nlink = 1
  dir : type = T_DIR → Shaped D blk i ∧ slotInum D blk i 1 = d ∧ kidsOf D blk i = 0

/-- The first entry of an empty directory. -/
theorem Entered.first (h : Entered i name d D blk D' blk') (hsize : (D i).size = 0)
    (hd : d < 2 ^ 16) : slots D' i = 1 ∧ (D' i).size % DIRENT = 0 ∧ slotInum D' blk' i 0 = d ∧
      slotName D' blk' i 0 = cname name := by
  obtain ⟨-, hmod, k, hw, hk⟩ := h
  have h0 : slots D i = 0 := by
    unfold slots
    rw [hsize]
    rfl
  have hk0 : k = 0 := by
    rcases hk with ⟨hlt, -⟩ | rfl
    · omega
    · exact h0
  subst hk0
  refine ⟨?_, (hw.slots_eq hmod).2, hw.inum_new.trans (deInum_dirent hd name), ?_⟩
  · rw [(hw.slots_eq hmod).1, h0]
    rfl
  · rw [hw.name_new, cname_dirent]

/-- The entries `.` and `..` make a directory. -/
theorem Entered.dots (h : Entered i dot i D blk D' blk') (h' : Entered i dotdot d D' blk' D'' blk'')
    (hsize : (D i).size = 0) (hi : i ≠ 0) (hlt : i < 2 ^ 16) (hd : d ≠ 0) (hdlt : d < 2 ^ 16) :
    Shaped D'' blk'' i ∧ slotInum D'' blk'' i 1 = d ∧ kidsOf D'' blk'' i = 0 := by
  obtain ⟨h1, -, hself, hdot⟩ := h.first hsize hlt
  obtain ⟨-, hmod, k, hw, hk⟩ := h'
  have hk1 : k = 1 := by
    rcases hk with ⟨hklt, hzero⟩ | rfl
    · have : k = 0 := by omega
      rw [this, hself] at hzero
      exact absurd hzero hi
    · exact h1
  subst hk1
  have hup : slotInum D'' blk'' i 1 = d := hw.inum_new.trans (deInum_dirent hdlt dotdot)
  obtain ⟨hslots, hmod'⟩ := hw.slots_eq hmod
  have h2 : slots D'' i = 2 := by
    rw [hslots, h1]
    rfl
  refine ⟨⟨hmod', h2.ge, ⟨?_, ?_⟩, ⟨?_, ?_⟩, fun k hk hlt => by omega⟩, hup, ?_⟩
  · rw [hw.inum_eq (by omega) (by decide)]
    exact hself
  · rw [hw.name_eq (by omega) (by decide), hdot]
    decide
  · rw [hup]
    exact hd
  · rw [hw.name_new, cname_dirent]
    decide
  · unfold kidsOf
    rw [h2]
    rfl

/-- **The entries `.` and `..`**, if the new inode is a directory. -/
theorem createDots_ends (h : Inv sb w g 1 (ip ::ₘ dp ::ₘ B) s)
    (hv : w → (s.itable ip).valid = true) (hi : (s.itable ip).inum = i)
    (hd : (s.itable dp).inum = d)
    (hnode : g → (s.dinode i).type = type ∧ (s.dinode i).nlink = 1 ∧ (s.dinode i).size = 0)
    (hbound : g → (i ≠ 0 ∧ i < 2 ^ 16) ∧ d ≠ 0 ∧ d < 2 ^ 16) : Ends (createDots sb dp ip type s)
      (fun r t => Inv sb w g 1 (ip ::ₘ dp ::ₘ B) t ∧ Keeps (ip ::ₘ dp ::ₘ B) s t ∧
        (g → (∀ m, m ≠ i → SameAt s.dinode s.block t.dinode t.block m) ∧
          (r = true → Made i d type t.dinode t.block))) (Fine w g) := by
  unfold createDots
  by_cases htype : type = T_DIR
  swap
  · rw [if_neg htype]
    refine ⟨h, Keeps.refl _ s, fun hg => ⟨fun m _ => SameAt.refl _ _ m, fun _ => ?_⟩⟩
    exact ⟨(hnode hg).1, (hnode hg).2.1, fun hdir => absurd hdir htype⟩
  rw [if_pos htype, inode_bind, hi]
  have hip := Multiset.mem_cons_self ip (dp ::ₘ B)
  have hdp : dp ∈ ip ::ₘ dp ::ₘ B := Multiset.mem_cons_of_mem (Multiset.mem_cons_self dp B)
  have hpos := h.refs.pos_of_mem hip
  -- there is no slot yet
  have hnone : g → ∀ k, ¬ InDir s ip k := by
    intro hg k hin
    have hclean := (h.good (h.gw hg)).clean ip hpos (hv (h.gw hg))
    have hsize := (hnode hg).2.2
    rw [hi] at hclean
    unfold InDir DIRENT at hin
    rw [← hclean, hsize] at hin
    omega
  apply (dirlink_ends i h (fun _ => le_rfl) hip hv fun hg _ k hin => absurd hin (hnone hg k)).bind
  rintro r t ⟨ht, hkeeps, hdone⟩
  have hfirst : g → (r = 0 ∧ Entered i dot i s.dinode s.block t.dinode t.block) ∨
      (r = -1 ∧ ∀ m, SameAt s.dinode s.block t.dinode t.block m) := by
    intro hg
    rw [← hi]
    rw [← hi] at hdone
    exact (hdone (h.gw hg)).2.effect (h.good (h.gw hg)) hpos (hv (h.gw hg))
      fun k hin => absurd hin (hnone hg k)
  by_cases hr : r < 0
  · rw [if_pos hr]
    refine ⟨ht, hkeeps, fun hg => ⟨fun m hm => ?_, fun h => by cases h⟩⟩
    rcases hfirst hg with ⟨-, he⟩ | ⟨-, hsame⟩
    · exact he.sameAt hm
    · exact hsame m
  rw [if_neg hr, inode_bind, (hkeeps.mem hdp).1, hd]
  have hit : (t.itable ip).inum = i := (hkeeps.mem hip).1.trans hi
  have hvt : w → (t.itable ip).valid = true := fun hw => (hkeeps.mem hip).2 (hv hw)
  have hpost := ht.refs.pos_of_mem hip
  have hent : g → Entered i dot i s.dinode s.block t.dinode t.block := by
    intro hg
    rcases hfirst hg with ⟨-, he⟩ | ⟨rfl, -⟩
    · exact he
    · exact absurd (by decide : (-1 : ℤ) < 0) hr
  -- the only slot names the directory itself
  have hatt : g → ∀ k, InDir t ip k → slotInum t.dinode t.block (t.itable ip).inum k ≠ 0 →
      Attached t.dinode (slotInum t.dinode t.block (t.itable ip).inum k) := by
    intro hg k hin _
    have hclean := (ht.good (h.gw hg)).clean ip hpost (hvt (h.gw hg))
    obtain ⟨hone, -, hself, -⟩ := (hent hg).first (hnode hg).2.2 (hbound hg).1.2
    obtain ⟨hkind, hlink⟩ := (hent hg).fields
    have hk : k < slots t.dinode i := by
      rw [lt_slots, ← hit, hclean]
      exact hin
    rw [hit, show k = 0 by omega, hself]
    refine ⟨?_, ?_⟩
    · rw [hkind, (hnode hg).1, htype]
      decide
    · rw [hlink, (hnode hg).2.1]
      decide
  apply (dirlink_ends d ht (fun _ => le_rfl) hip hvt
    fun hg _ k hin hne => (hatt hg k hin hne).1).bind
  rintro r' u ⟨hu, hkeeps', hdone'⟩
  refine ⟨hu, hkeeps.trans hkeeps', fun hg => ?_⟩
  have heffect := (hdone' (h.gw hg)).2.effect (ht.good (h.gw hg)) hpost (hvt (h.gw hg)) (hatt hg)
  rw [hit] at heffect
  rcases heffect with ⟨-, he⟩ | ⟨rfl, hsame⟩
  · refine ⟨fun m hm => ((hent hg).sameAt hm).trans (he.sameAt hm), fun _ => ⟨?_, ?_, fun _ => ?_⟩⟩
    · rw [he.fields.1, (hent hg).fields.1]
      exact (hnode hg).1
    · rw [he.fields.2, (hent hg).fields.2]
      exact (hnode hg).2.1
    · obtain ⟨⟨hi0, hilt⟩, hd0, hdlt⟩ := hbound hg
      exact (hent hg).dots he (hnode hg).2.2 hi0 hilt hd0 hdlt
  · exact ⟨fun m hm => ((hent hg).sameAt hm).trans (hsame m), fun h => by cases h⟩

/-! ## Entering the new inode -/

/-- **The new inode is named**, and a new directory names its parent. -/
theorem Fresh.enter (h : Fresh sb i D₀ blk₀ D blk) (hmade : Made i d type D blk)
    (htype : type ≠ 0) (hdir : (D₀ d).type = T_DIR) (hlink : (D₀ d).nlink ≠ 0)
    (hroom : type = T_DIR → (D₀ d).nlink.toInt < 32767) (he : Entered d name i D blk D' blk')
    (hup : Recounted d (fun x => if type = T_DIR then x + 1 else x) D' blk' D'' blk'') :
    Tree sb D'' blk'' ∧ Attached D'' d ∧ (D'' i).type = type ∧ NoneLost D₀ D'' := by
  have htree := h.tree
  have hdi : d ≠ i := h.ne ⟨dir_ne_zero hdir, hlink⟩
  have hd := h.other d hdi
  have hslots := hd.dir hdir
  have hshape := htree.shaped d hdir
  have hsmall := htree.small
  have hilt := h.lt
  have hgrows := he.grows (hslots.shaped hshape) (htree.bounds (dir_ne_zero hdir)).1 h.pos.ne'
    (by omega)
  have hi : SameAt D blk D'' blk'' i := (hgrows.other i hdi.symm).trans (hup.sameAt hdi.symm)
  have hkind : (D'' i).type = type := hi.type.trans hmade.kind
  have hone : (D'' i).nlink.toInt = 1 := by
    rw [hi.nlink (by rw [hmade.kind]; exact htype), hmade.nlink]
    decide
  have hnlink : (D'' d).nlink.toInt = if type = T_DIR then (D₀ d).nlink.toInt + 1
      else (D₀ d).nlink.toInt := by
    rw [hup.self, hgrows.nlink, hd.nlink (dir_ne_zero hdir)]
    split_ifs with hdt
    · exact toInt_add_one (hroom hdt)
    · rfl
  have hnode : view D'' blk'' d = some (.dir (D'' d).nlink.toInt (slotInum D₀ blk₀ d 1)
      (i ::ₘ kidsOf D₀ blk₀ d)) := by
    have htwo := hshape.two
    rw [view_dir ((hup.type d).trans (hgrows.type.trans (hd.type.trans hdir))),
      (hup.slots d).kids_eq, hgrows.kids, hslots.kids_eq, (hup.slots d).inum_eq hgrows.shaped.two,
      hgrows.up, hslots.inum_eq htwo]
  have hatt : Attached D'' d := by
    have hpos := (htree.attached_iff (dir_ne_zero hdir)).mp hlink
    constructor
    · rw [hup.type, hgrows.type, hd.type]
      exact dir_ne_zero hdir
    · intro hzero
      rw [hzero] at hnlink
      have hz : (0 : CShort).toInt = 0 := rfl
      split_ifs at hnlink <;> omega
  have hsame : ∀ m, m ≠ i → m ≠ d → SameAt D₀ blk₀ D'' blk'' m := fun m hmi hmd =>
    ((h.other m hmi).trans (hgrows.other m hmd)).trans (hup.sameAt hmd)
  have hlost : NoneLost D₀ D'' := by
    intro m hm
    by_cases hmi : m = i
    · rw [hmi] at hm
      rw [hm.2] at hone
      exact absurd hone (by decide)
    by_cases hmd : m = d
    · rw [hmd] at hm
      exact absurd hm.2 hatt.2
    · exact (hsame m hmi hmd).orphan hm
  refine ⟨htree.change (i := i) (d := d) hsame rfl hnode ?_ ?_, hatt, hkind, hlost⟩
  · rw [hnlink]
    by_cases hdt : type = T_DIR
    · obtain ⟨hs, hparent, hempty⟩ := hmade.dir hdt
      have hsame := hi.dir (hmade.kind.trans hdt)
      rw [if_pos hdt, view_dir (hkind.trans hdt), hone, hsame.kids_eq, hempty,
        hsame.inum_eq hs.two, hparent]
      exact htree.ok.addDir (htree.linked hdir hlink) (view_free h.free) h.pos h.lt
    · rw [if_neg hdt, view_file (by rw [hkind]; exact htype) (by rw [hkind]; exact hdt), hone]
      refine htree.ok.setFile (m := 0) (htree.linked hdir hlink)
        (Or.inr ⟨view_free h.free, rfl, h.pos, h.lt⟩)
        (fun c hc => Multiset.count_cons_of_ne hc _) ?_
      rw [Multiset.count_cons_self]
      push_cast
      ring
  · rintro m (rfl | rfl) hm
    · have hdt : type = T_DIR := hkind.symm.trans hm
      exact (hi.dir (hmade.kind.trans hdt)).shaped (hmade.dir hdt).1
    · exact (hup.slots m).shaped hgrows.shaped

/-- What `create` returns. -/
def Created (sb : Superblock) (w : Prop) (g : Watch) (B : Multiset Ip) (type : CShort) (r : Option Ip)
    (t : State) : Prop :=
  match r with
  | none => Settled sb w g 1 B t
  | some ip => Settled sb w g 1 (ip ::ₘ B) t ∧ (w → (t.itable ip).valid = true) ∧
    (g → type = T_FILE → (t.dinode (t.itable ip).inum).type ≠ T_DIR)

/-- **`create` with a new inode.** -/
theorem createNew_ends (h : Inv sb w g 1 (ip ::ₘ dp ::ₘ B) s) (htype : type ≠ 0)
    (hvdp : w → (s.itable dp).valid = true)
    (hnew : g → Sole ip (dp ::ₘ B) s ∧ s.dinode (s.itable ip).inum = Dinode.zero type ∧
      ∃ D₀ blk₀, Fresh sb (s.itable ip).inum D₀ blk₀ s.dinode s.block ∧
        (D₀ (s.itable dp).inum).type = T_DIR ∧ (D₀ (s.itable dp).inum).nlink ≠ 0 ∧
        (type = T_DIR → Roomy D₀) ∧ ∀ m, Orphan D₀ m → Held g.lost s m) :
    Ends (createNew sb dp ip name type major minor s) (Created sb w g B type) (Fine w g) := by
  have hip := Multiset.mem_cons_self ip (dp ::ₘ B)
  have hdp : dp ∈ ip ::ₘ dp ::ₘ B := Multiset.mem_cons_of_mem (Multiset.mem_cons_self dp B)
  unfold createNew
  apply (ilock_ends h (h.refs.pos_of_mem hip)).bind
  rintro _ t ⟨ht, hload⟩
  apply (relabel_ends (f := fun d => { d with major, minor, nlink := 1 }) (fun _ => ⟨rfl, rfl, rfl⟩) ht (fun _ => le_rfl) (ht.refs.pos_of_mem hip)
    fun _ => hload.valid).bind
  rintro _ u ⟨hu, hbody, hrel⟩
  have hinum : ∀ e, (u.itable e).inum = (s.itable e).inum := fun e =>
    (hbody.inum_eq e).trans (hload.inum_eq e)
  have hvip : w → (u.itable ip).valid = true := fun _ => hbody.valid.trans hload.valid
  have hku : Keeps (ip ::ₘ dp ::ₘ B) s u := (hload.keeps _).trans (hbody.keeps _)
  have hfresh : g → ∃ D₀ blk₀, Fresh sb (s.itable ip).inum D₀ blk₀ u.dinode u.block ∧
      (D₀ (s.itable dp).inum).type = T_DIR ∧ (D₀ (s.itable dp).inum).nlink ≠ 0 ∧
      (type = T_DIR → Roomy D₀) ∧ ∀ m, Orphan D₀ m → Held g.lost s m := by
    intro hg
    obtain ⟨-, -, D₀, blk₀, hf, hrest⟩ := hnew hg
    refine ⟨D₀, blk₀, hf.step fun m hm => ?_, hrest⟩
    rw [← hload.disk.dinode, ← hload.disk.block]
    exact (hrel (h.gw hg)).sameAt (by rw [hload.inum]; exact hm)
  have hnode : g → (u.dinode (s.itable ip).inum).type = type ∧
      (u.dinode (s.itable ip).inum).nlink = 1 ∧ (u.dinode (s.itable ip).inum).size = 0 := by
    intro hg
    have hself := (hrel (h.gw hg)).self
    rw [hload.inum, hload.disk.dinode, (hnew hg).2.1] at hself
    rw [hself]
    exact ⟨rfl, rfl, rfl⟩
  have hbound : g → ((s.itable ip).inum ≠ 0 ∧ (s.itable ip).inum < 2 ^ 16) ∧
      (s.itable dp).inum ≠ 0 ∧ (s.itable dp).inum < 2 ^ 16 := by
    intro hg
    obtain ⟨D₀, blk₀, hf, hdir, -⟩ := hfresh hg
    have hpos := hf.pos
    have hlt := hf.lt
    have hsmall := hf.tree.small
    exact ⟨by omega, hf.tree.bounds (dir_ne_zero hdir)⟩
  apply (createDots_ends hu hvip (hinum ip) (hinum dp) hnode hbound).bind
  rintro ok v ⟨hv, hkv, hdots⟩
  have hksv := hku.trans hkv
  have hfreshv : g → ∃ D₀ blk₀, Fresh sb (s.itable ip).inum D₀ blk₀ v.dinode v.block ∧
      (D₀ (s.itable dp).inum).type = T_DIR ∧ (D₀ (s.itable dp).inum).nlink ≠ 0 ∧
      (type = T_DIR → Roomy D₀) ∧ ∀ m, Orphan D₀ m → Held g.lost s m := by
    intro hg
    obtain ⟨D₀, blk₀, hf, hrest⟩ := hfresh hg
    exact ⟨D₀, blk₀, hf.step (hdots hg).1, hrest⟩
  have hvipv : w → (v.itable ip).valid = true := fun hw => (hkv.mem hip).2 (hvip hw)
  have hheldx : ∀ {x}, Inv sb w g 1 (ip ::ₘ dp ::ₘ B) x → Keeps (ip ::ₘ dp ::ₘ B) s x →
      ∀ {m}, Held g.lost s m → Held g.lost x m := fun hx hkx _ hheld =>
    hheld.kept hx.refs hkx le_rfl fun e hpos _ _ => h.refs.kept_of_pos hpos
  -- both failures free the inode
  have hfail : ∀ x, Inv sb w g 1 (ip ::ₘ dp ::ₘ B) x → Keeps (ip ::ₘ dp ::ₘ B) v x →
      (g → ∀ m, m ≠ (s.itable ip).inum → SameAt v.dinode v.block x.dinode x.block m) →
      Ends (createFail dp ip x) (Created sb w g B type) (Fine w g) := by
    intro x hx hkx hsame
    apply (createFail_ends hx (fun hw => (hkx.mem hip).2 (hvipv hw)) fun hg => ?_).post
    · rintro _ y ⟨rfl, hy⟩
      exact hy
    · obtain ⟨D₀, blk₀, hf, -, -, -, hheld⟩ := hfreshv hg
      refine ⟨(hnew hg).1.keeps (hksv.trans hkx), D₀, blk₀, ?_,
        fun m hm => hheldx hx (hksv.trans hkx) (hheld m hm)⟩
      rw [((hksv.trans hkx).mem hip).1]
      exact hf.step (hsame hg)
  cases ok with
  | false =>
    rw [if_pos rfl]
    exact hfail v hv (Keeps.refl _ v) fun _ m _ => SameAt.refl _ _ m
  | true =>
    rw [if_neg (by decide), inode_bind, (hksv.mem hip).1]
    have hvdpv : w → (v.itable dp).valid = true := fun hw => (hksv.mem hdp).2 (hvdp hw)
    have hposv := hv.refs.pos_of_mem hdp
    have hatt : g → ∀ k, InDir v dp k → slotInum v.dinode v.block (v.itable dp).inum k ≠ 0 →
        Attached v.dinode (slotInum v.dinode v.block (v.itable dp).inum k) := by
      intro hg k hin hne
      obtain ⟨D₀, blk₀, hf, hdir, hlink, -⟩ := hfreshv hg
      rw [(hksv.mem hdp).1] at hne ⊢
      refine hf.attached_slot hdir hlink ?_ hne
      rw [lt_slots, ← (hksv.mem hdp).1, (hv.good (h.gw hg)).clean dp hposv (hvdpv (h.gw hg))]
      exact hin
    apply (dirlink_ends _ hv (fun _ => le_rfl) hdp hvdpv
      fun hg _ k hin hne => (hatt hg k hin hne).1).bind
    rintro r x ⟨hx, hkx, hdone⟩
    have heffect : g → (r = 0 ∧ Entered (s.itable dp).inum name (s.itable ip).inum v.dinode
        v.block x.dinode x.block) ∨ (r = -1 ∧ ∀ m, SameAt v.dinode v.block x.dinode x.block m) := by
      intro hg
      have heff := (hdone (h.gw hg)).2.effect (hv.good (h.gw hg)) hposv (hvdpv (h.gw hg)) (hatt hg)
      rw [(hksv.mem hdp).1] at heff
      exact heff
    by_cases hr : r < 0
    · rw [if_pos hr]
      refine hfail x hx hkx fun hg m _ => ?_
      rcases heffect hg with ⟨rfl, -⟩ | ⟨-, hsame⟩
      · exact absurd hr (by decide)
      · exact hsame m
    rw [if_neg hr]
    unfold countUp
    apply (recount_ends _ hx (hx.refs.pos_of_mem hdp) fun hw => (hkx.mem hdp).2 (hvdpv hw)).bind
    rintro _ y ⟨hy, hbodyy, hup⟩
    have hksy := hksv.trans (hkx.trans (hbodyy.keeps _))
    have hentered : g → Tree sb y.dinode y.block ∧ Attached y.dinode (s.itable dp).inum ∧
        (y.dinode (s.itable ip).inum).type = type ∧ ∀ m, Orphan y.dinode m → Held g.lost s m := by
      intro hg
      obtain ⟨D₀, blk₀, hf, hdir, hlink, hroom, hheld⟩ := hfreshv hg
      have hrecount := hup (h.gw hg)
      rw [((hksv.trans hkx).mem hdp).1] at hrecount
      rcases heffect hg with ⟨-, he⟩ | ⟨rfl, -⟩
      · obtain ⟨htree, hatt', hkind, hlost⟩ := hf.enter ((hdots hg).2 rfl) htype hdir hlink
          (fun hdt => hroom hdt _ (dir_ne_zero hdir)) he hrecount
        exact ⟨htree, hatt', hkind, fun m hm => hheld m (hlost m hm)⟩
      · exact absurd (by decide : (-1 : ℤ) < 0) hr
    have howned : g → Owned g.lost y := fun hg m hm => hheldx hy hksy ((hentered hg).2.2.2 m hm)
    rw [Multiset.cons_swap] at hy
    apply (putAttached_ends hy (fun _ => le_rfl) fun hg => by
      rw [(hksy.mem hdp).1]; exact (hentered hg).2.1).bind
    rintro _ z ⟨hz, hkz, hdisk⟩
    have hzip := hkz.mem (Multiset.mem_cons_self ip B)
    have hdpy : (y.itable dp).inum = (s.itable dp).inum := (hksy.mem hdp).1
    refine ⟨⟨hz, fun hg => ?_, fun hg => ?_⟩, fun hw => ?_, fun hg hfile => ?_⟩
    · rw [(hdisk hg).dinode, (hdisk hg).block]
      exact (hentered hg).1
    · refine (howned hg).dropped hy.refs hz.refs hkz (fun m hm => ?_) ?_
      · rwa [(hdisk hg).dinode] at hm
      · rw [(hdisk hg).dinode, hdpy]
        exact fun horphan => (hentered hg).2.1.2 horphan.2
    · apply hzip.2
      rw [hbodyy.valid_eq]
      exact (hkx.mem hip).2 (hvipv hw)
    · rw [hzip.1, (hksy.mem hip).1, (hdisk hg).dinode, (hentered hg).2.2.1, hfile]
      decide

/-- **`create`.** -/
theorem create_ends {path : List UInt8} (h : Settled sb w g 1 B s) (htype : type ≠ 0)
    (hstart : Starts g p path s) (hroom : g → type = T_DIR → Roomy s.dinode) :
    Ends (create sb p path type major minor s) (Created sb w g B type) (Fine w g) := by
  unfold create
  apply (namex_ends h.inv (fun _ => le_rfl) p path true hstart).bind
  rintro (_ | ⟨dp, name⟩) t hwalk
  · exact h.walk hwalk
  have ht : Settled sb w g 1 (dp ::ₘ B) t := h.walk hwalk
  have hdp := Multiset.mem_cons_self dp B
  simp only
  apply (ht.lock (ht.pos hdp)).bind
  rintro _ u ⟨hu, hload⟩
  have hatt : g → Attached u.dinode (u.itable dp).inum := by
    intro hg
    rw [hload.inum]
    exact hload.disk.attached (hwalk.attached hg dp name rfl)
  have hfollow : Follows g u dp := fun hg => ⟨(hu.tree hg).closed, hatt hg⟩
  apply (dirlookup_ends hu.inv (hu.pos hdp) (fun _ => hload.valid)
    (hfollow.names hu.inv (hu.pos hdp) fun _ => hload.valid)).bind
  rintro (_ | ⟨ip, off⟩) v ⟨hdir, hlook⟩
  · -- the name is new
    obtain ⟨hv, hkv, hsame⟩ := hlook
    have hdisk : g → SameDisk u v := by
      intro hg
      rw [(hsame (h.inv.gw hg)).1]
      exact SameDisk.refl u
    have hvs := hu.same hv hkv le_rfl hdisk
    simp only
    apply (ialloc_ends hv (fun _ => le_rfl) htype).bind
    rintro (_ | ip) x hx
    · obtain rfl := hx
      simp only
      apply (hvs.unlockput fun _ => le_rfl).bind
      rintro _ y ⟨hy, -⟩
      exact hy
    · obtain ⟨hx, hkx, inum, halloc⟩ := hx
      refine createNew_ends hx htype (fun _ => (hkx.mem hdp).2 ((hkv.mem hdp).2 hload.valid))
        fun hg => ?_
      have hxdp : (x.itable dp).inum = (u.itable dp).inum := (hkx.mem hdp).1.trans (hkv.mem hdp).1
      rw [halloc.inum_eq, hxdp]
      refine ⟨Sole.of_ref hx.refs (halloc.fresh fun e he heq => ?_), ?_, v.dinode, v.block,
        ⟨hvs.tree hg, halloc.free, halloc.pos, halloc.lt, fun m hm => ?_⟩, ?_, ?_, ?_,
        fun m hm => ?_⟩
      · exact (hv.live hg).alloc e he (by rw [heq]; exact halloc.free)
      · rw [halloc.dinode, Function.update_self]
      · rw [halloc.block]
        apply SameAt.of_eq
        rw [halloc.dinode, Function.update_of_ne hm]
      · rw [(hdisk hg).dinode,
          (hu.inv.good (h.inv.gw hg)).clean dp (hu.pos hdp) hload.valid]
        exact hdir
      · rw [(hdisk hg).dinode]
        exact (hatt hg).2
      · intro hdt
        rw [(hdisk hg).dinode, hload.disk.dinode, (hwalk.disk hg).dinode]
        exact hroom hg hdt
      · exact (hvs.owned hg m hm).kept hx.refs hkx (Multiset.le_cons_self _ ip)
          fun e hpos _ _ => hv.refs.kept_of_pos hpos
  · obtain ⟨hv, hkv, hfound⟩ := hlook
    have hvs : Settled sb w g 1 (ip ::ₘ dp ::ₘ B) v :=
      hu.same hv hkv (Multiset.le_cons_self _ ip) fun hg => (hfound (h.inv.gw hg)).1
    simp only
    rw [Multiset.cons_swap] at hvs
    apply (hvs.unlockput fun _ => le_rfl).bind
    rintro _ x ⟨hx, -⟩
    have hip := Multiset.mem_cons_self ip B
    apply (hx.lock (hx.pos hip)).bind
    rintro _ y ⟨hy, hloady⟩
    rw [inode_bind]
    by_cases hfile : type = T_FILE ∧ ((y.itable ip).d.type = T_FILE ∨ (y.itable ip).d.type = T_DEVICE)
    · rw [if_pos hfile]
      refine ⟨hy, fun _ => hloady.valid, fun hg _ => ?_⟩
      rw [(hy.inv.good (h.inv.gw hg)).clean ip (hy.pos hip) hloady.valid]
      rcases hfile.2 with hf | hf <;> rw [hf] <;> decide
    · rw [if_neg hfile]
      apply (hy.unlockput fun _ => le_rfl).bind
      rintro _ z ⟨hz, -⟩
      exact hz

end Fs

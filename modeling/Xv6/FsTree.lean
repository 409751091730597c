/-
# Changes of the directory tree

How the name space on the disk changes when a slot of a directory is written, a link count
is set, and an inode is allocated or freed.
-/
import Mathlib.Data.List.TakeWhile
import Xv6.FsPaths

open Function

namespace Fs

open Itable (CShort)
open Links (Node)

variable {sb : Superblock} {dp ip : Ip} {s t : State}
variable {D D' D'' : ℕ → Dinode} {blk blk' blk'' : ℕ → ℕ → UInt8} {i d j k n : ℕ}
variable {name bytes : List UInt8}

/-! ## Entries of directories -/

theorem cname_length (name : List UInt8) : (cname name).length ≤ DIRSIZ := by
  calc (cname name).length ≤ (name.take DIRSIZ).length := (List.takeWhile_sublist _).length_le
    _ ≤ DIRSIZ := List.length_take_le _ _

theorem cname_ne_zero (name : List UInt8) : ∀ b ∈ cname name, (b ≠ 0) := by
  intro b hb
  simpa using List.mem_takeWhile_imp hb

theorem dirent_length (inum : ℕ) (name : List UInt8) : (dirent inum name).length = DIRENT := by
  have := cname_length name
  simp only [dirent, List.length_append, List.length_cons, List.length_nil, List.length_replicate]
  unfold DIRENT DIRSIZ at *
  omega

/-- The number is stored in 16 bits. -/
theorem deInum_dirent_mod (inum : ℕ) (name : List UInt8) :
    deInum (dirent inum name) = inum % 2 ^ 16 := by
  show (UInt8.ofNat inum).toNat + 256 * (UInt8.ofNat (inum / 256)).toNat = inum % 2 ^ 16
  rw [UInt8.toNat_ofNat', UInt8.toNat_ofNat']
  omega

/-- The number is read back. -/
theorem deInum_dirent {inum : ℕ} (h : inum < 2 ^ 16) (name : List UInt8) :
    deInum (dirent inum name) = inum := by
  rw [deInum_dirent_mod, Nat.mod_eq_of_lt h]

/-- The name is read back. -/
theorem cname_dirent (inum : ℕ) (name : List UInt8) :
    cname (deName (dirent inum name)) = cname name := by
  have hpad : ∀ m, (List.replicate m (0 : UInt8)).takeWhile (· ≠ 0) = [] := by
    intro m
    cases m with
    | zero => rfl
    | succ m => simp [List.replicate_succ]
  have hlen : (cname name ++ List.replicate (DIRSIZ - (cname name).length) (0 : UInt8)).length ≤
      DIRSIZ := by
    have := cname_length name
    simp only [List.length_append, List.length_replicate]
    omega
  show ((cname name ++ List.replicate _ 0).take DIRSIZ).takeWhile (· ≠ 0) = cname name
  rw [List.take_of_length_le hlen, List.takeWhile_append_of_pos, hpad, List.append_nil]
  intro b hb
  simpa using cname_ne_zero name b hb

theorem map_range_getD (h : bytes.length = n) :
    ((List.range n).map fun j => bytes.getD j 0) = bytes := by
  apply List.ext_getElem
  · simp [h]
  · intro j h1 h2
    simp [h2]

/-! ## What stays the same -/

/-- Directory `i` has the same slots. -/
structure SameSlots (D : ℕ → Dinode) (blk : ℕ → ℕ → UInt8) (D' : ℕ → Dinode)
    (blk' : ℕ → ℕ → UInt8) (i : ℕ) : Prop where
  size : (D' i).size = (D i).size
  keep : ∀ j, j < slots D i → slotBytes D' blk' i j = slotBytes D blk i j

/-- Inode `i` is the same node of the tree. -/
structure SameAt (D : ℕ → Dinode) (blk : ℕ → ℕ → UInt8) (D' : ℕ → Dinode)
    (blk' : ℕ → ℕ → UInt8) (i : ℕ) : Prop where
  type : (D' i).type = (D i).type
  nlink : (D i).type ≠ 0 → (D' i).nlink = (D i).nlink
  dir : (D i).type = T_DIR → SameSlots D blk D' blk' i

/-- It is no new orphan. -/
theorem SameAt.orphan (h : SameAt D blk D' blk' i) (hi : Orphan D' i) : Orphan D i := by
  have htype : (D i).type ≠ 0 := by
    rw [← h.type]
    exact hi.1
  exact ⟨htype, (h.nlink htype).symm.trans hi.2⟩

section

variable (h : SameSlots D blk D' blk' i)
include h

theorem SameSlots.slots_eq : slots D' i = slots D i := by
  unfold slots
  rw [h.size]

theorem SameSlots.trans (h' : SameSlots D' blk' D'' blk'' i) : SameSlots D blk D'' blk'' i :=
  ⟨h'.size.trans h.size, fun j hj =>
    (h'.keep j (by rw [h.slots_eq]; exact hj)).trans (h.keep j hj)⟩

theorem SameSlots.inum_eq (hj : j < slots D i) : slotInum D' blk' i j = slotInum D blk i j := by
  unfold slotInum
  rw [h.keep j hj]

theorem SameSlots.name_eq (hj : j < slots D i) : slotName D' blk' i j = slotName D blk i j := by
  unfold slotName
  rw [h.keep j hj]

theorem SameSlots.kids_eq : kidsOf D' blk' i = kidsOf D blk i := by
  unfold kidsOf
  rw [h.slots_eq]
  apply present_congr
  intro k hk
  exact h.inum_eq (Finset.mem_Ico.mp hk).2

theorem SameSlots.shaped (hs : Shaped D blk i) : Shaped D' blk' i where
  size := by
    rw [h.size]
    exact hs.size
  two := by
    rw [h.slots_eq]
    exact hs.two
  self := by
    have h0 : 0 < slots D i := by have := hs.two; omega
    rw [h.inum_eq h0, h.name_eq h0]
    exact hs.self
  up := by
    rw [h.inum_eq hs.two, h.name_eq hs.two]
    exact hs.up
  rest k hk hlt := by
    rw [h.slots_eq] at hlt
    rw [h.inum_eq hlt, h.name_eq hlt]
    exact hs.rest k hk hlt

end

theorem SameAt.refl (D : ℕ → Dinode) (blk : ℕ → ℕ → UInt8) (i : ℕ) : SameAt D blk D blk i :=
  ⟨rfl, fun _ => rfl, fun _ => ⟨rfl, fun _ _ => rfl⟩⟩

theorem SameAt.trans (h : SameAt D blk D' blk' i) (h' : SameAt D' blk' D'' blk'' i) :
    SameAt D blk D'' blk'' i where
  type := h'.type.trans h.type
  nlink hi := (h'.nlink (by rw [h.type]; exact hi)).trans (h.nlink hi)
  dir hi := (h.dir hi).trans (h'.dir (h.type.trans hi))

/-- The blocks are the same, and so is the inode. -/
theorem SameAt.of_eq (h : D' i = D i) : SameAt D blk D' blk i := by
  refine ⟨by rw [h], fun _ => by rw [h], fun _ => ⟨by rw [h], fun j _ => ?_⟩⟩
  apply slotBytes_congr
  intro x _
  unfold content
  rw [h]

theorem SameAt.attached (h : SameAt D blk D' blk' i) (hi : Attached D i) : Attached D' i := by
  refine ⟨?_, ?_⟩
  · rw [h.type]
    exact hi.1
  · rw [h.nlink hi.1]
    exact hi.2

theorem SameAt.view_eq (h : SameAt D blk D' blk' i)
    (hs : (D i).type = T_DIR → Shaped D blk i) : view D' blk' i = view D blk i := by
  by_cases hfree : (D i).type = 0
  · rw [view_free hfree, view_free (h.type.trans hfree)]
  by_cases hdir : (D i).type = T_DIR
  · rw [view_dir hdir, view_dir (h.type.trans hdir), h.nlink hfree, (h.dir hdir).kids_eq,
      (h.dir hdir).inum_eq (hs hdir).two]
  · have htype : (D' i).type = (D i).type := h.type
    rw [view_file hfree hdir, view_file (by rw [htype]; exact hfree) (by rw [htype]; exact hdir),
      h.nlink hfree]

theorem Tree.of_same (h : Tree sb D blk) (hsame : ∀ i, SameAt D blk D' blk' i) :
    Tree sb D' blk' where
  small := h.small
  ok := by
    have hview : view D' blk' = view D blk := by
      funext i
      exact (hsame i).view_eq (h.shaped i)
    rw [hview]
    exact h.ok
  shaped i hi := by
    rw [(hsame i).type] at hi
    exact ((hsame i).dir hi).shaped (h.shaped i hi)

/-- **The tree changes at one or two nodes.** -/
theorem Tree.change (h : Tree sb D blk) {x y : Option Node}
    (hsame : ∀ m, m ≠ i → m ≠ d → SameAt D blk D' blk' m)
    (hi : view D' blk' i = x) (hd : view D' blk' d = y) (hok : Links.Ok sb.ninodes ROOTINO
      (update (update (view D blk) i x) d y))
    (hshape : ∀ m, m = i ∨ m = d → (D' m).type = T_DIR → Shaped D' blk' m) : Tree sb D' blk' where
  small := h.small
  ok := by
    have hview : view D' blk' = update (update (view D blk) i x) d y := by
      funext m
      by_cases hmd : m = d
      · rw [hmd, update_self, hd]
      · rw [update_of_ne hmd]
        by_cases hmi : m = i
        · rw [hmi, update_self, hi]
        · rw [update_of_ne hmi]
          exact (hsame m hmi hmd).view_eq (h.shaped m)
    rw [hview]
    exact hok
  shaped m hm := by
    by_cases hmid : m = i ∨ m = d
    · exact hshape m hmid hm
    · have hsm := hsame m (fun hmi => hmid (Or.inl hmi)) fun hmd => hmid (Or.inr hmd)
      rw [hsm.type] at hm
      exact (hsm.dir hm).shaped (h.shaped m hm)

/-! ## Writing a slot -/

/-- Slot `k` of directory `d` has been written. -/
structure SlotWritten (d k : ℕ) (bytes : List UInt8) (D : ℕ → Dinode) (blk : ℕ → ℕ → UInt8)
    (D' : ℕ → Dinode) (blk' : ℕ → ℕ → UInt8) : Prop where
  other : ∀ i, i ≠ d → SameAt D blk D' blk' i
  type : (D' d).type = (D d).type
  nlink : (D' d).nlink = (D d).nlink
  size : (D' d).size = max (D d).size (DIRENT * k + DIRENT)
  keep : ∀ j, j < slots D d → j ≠ k → slotBytes D' blk' d j = slotBytes D blk d j
  new : slotBytes D' blk' d k = bytes

variable {x : CShort} {src : ℕ → Option UInt8} {off m : ℕ} {f : Dinode → Dinode}

/-- A slot that is not written has its old bytes. -/
theorem Saved.keep (hgood : Consistent sb s) (h : Saved sb dp src off n s m t)
    (hi : (s.dinode i).type ≠ 0) (hj : j < slots s.dinode i)
    (hout : i ≠ (s.itable dp).inum ∨ DIRENT * j + DIRENT ≤ off ∨ off + n ≤ DIRENT * j) :
    slotBytes t.dinode t.block i j = slotBytes s.dinode s.block i j := by
  rw [lt_slots] at hj
  apply slotBytes_congr
  intro x hx
  apply h.wrote.content_eq hi (hgood.whole i hi _ (by omega))
  rcases hout with hne | hlo | hhi
  · exact Or.inl hne
  · exact Or.inr (Or.inl (by omega))
  · exact Or.inr (Or.inr (by omega))

theorem Saved.nlink_eq (h : Saved sb dp src off n s m t)
    (i : ℕ) : (t.dinode i).nlink = (s.dinode i).nlink := by
  by_cases hi : i = (s.itable dp).inum
  · obtain ⟨f, z, hshape⟩ := h.wrote.shape
    rw [hi, hshape]
  · rw [h.wrote.other i hi]

/-- A write changes the node of no other inode. -/
theorem Saved.sameAt (hgood : Consistent sb s) (h : Saved sb dp src off n s m t)
    (hi : i ≠ (s.itable dp).inum ∨ (s.dinode i).type ≠ T_DIR) :
    SameAt s.dinode s.block t.dinode t.block i := by
  refine ⟨h.wrote.type_eq i, fun _ => h.nlink_eq i, fun hdir => ?_⟩
  have hne : i ≠ (s.itable dp).inum := hi.resolve_right fun hno => hno hdir
  exact ⟨by rw [h.wrote.other i hne], fun j hj => h.keep hgood (dir_ne_zero hdir) hj (Or.inl hne)⟩

theorem Saved.slotWritten (hgood : Consistent sb s) (hpos : 0 < (s.itable dp).ref)
    (hv : (s.itable dp).valid = true)
    (h : Saved sb dp (kernelSrc bytes) (DIRENT * k) DIRENT s DIRENT t)
    (hlen : bytes.length = DIRENT) :
    SlotWritten (s.itable dp).inum k bytes s.dinode s.block t.dinode t.block where
  other i hi := h.sameAt hgood (Or.inl hi)
  type := h.wrote.type_eq _
  nlink := h.nlink_eq _
  size := by
    rw [h.clean, h.size, hgood.clean dp hpos hv]
  keep j hj hne := by
    apply h.keep hgood _ hj
    · right
      unfold DIRENT
      omega
    · rw [hgood.clean dp hpos hv]
      exact hgood.typed dp hpos hv
  new := by
    rw [← map_range_getD hlen]
    apply List.map_congr_left
    intro x hx
    have hbyte := h.bytes x (List.mem_range.mp hx)
    injection hbyte with hbyte
    exact hbyte.symm

/-- A write beyond the end that has failed. -/
theorem Saved.sameAt_of_fail (hgood : Consistent sb s) (hpos : 0 < (s.itable dp).ref)
    (hv : (s.itable dp).valid = true) (h : Saved sb dp src (DIRENT * k) DIRENT s 0 t)
    (hk : (s.itable dp).d.size = DIRENT * k) (i : ℕ) :
    SameAt s.dinode s.block t.dinode t.block i := by
  by_cases hi : i = (s.itable dp).inum
  · subst hi
    refine ⟨h.wrote.type_eq _, fun _ => h.nlink_eq _, fun hdir => ⟨?_, fun j hj => ?_⟩⟩
    · rw [h.clean, h.size, hgood.clean dp hpos hv, hk]
      exact Nat.max_eq_left (by omega)
    · apply h.keep hgood (dir_ne_zero hdir) hj
      rw [lt_slots, hgood.clean dp hpos hv, hk] at hj
      exact Or.inr (Or.inl hj)
  · exact h.sameAt hgood (Or.inl hi)

/-! ## A name is added or removed -/

namespace SlotWritten

section

variable (h : SlotWritten d k bytes D blk D' blk')
include h

theorem inum_eq (hj : j < slots D d) (hne : j ≠ k) : slotInum D' blk' d j = slotInum D blk d j := by
  unfold slotInum
  rw [h.keep j hj hne]

theorem name_eq (hj : j < slots D d) (hne : j ≠ k) : slotName D' blk' d j = slotName D blk d j := by
  unfold slotName
  rw [h.keep j hj hne]

theorem inum_new : slotInum D' blk' d k = deInum bytes := by
  unfold slotInum
  rw [h.new]

theorem name_new : slotName D' blk' d k = cname (deName bytes) := by
  unfold slotName
  rw [h.new]

/-- A slot in the directory, or the next after its end. -/
theorem slots_eq (hmod : (D d).size % DIRENT = 0) :
    slots D' d = max (slots D d) (k + 1) ∧ (D' d).size % DIRENT = 0 := by
  unfold slots
  rw [h.size]
  unfold DIRENT at *
  omega

theorem shaped (hs : Shaped D blk d) (hk : 2 ≤ k) (hlt : k ≤ slots D d)
    (hname : deInum bytes ≠ 0 → cname (deName bytes) ≠ dot ∧ cname (deName bytes) ≠ dotdot) :
    Shaped D' blk' d := by
  obtain ⟨hslots, hmod⟩ := h.slots_eq hs.size
  have htwo := hs.two
  refine ⟨hmod, by omega, ?_, ?_, ?_⟩
  · rw [h.inum_eq (by omega) (by omega), h.name_eq (by omega) (by omega)]
    exact hs.self
  · rw [h.inum_eq (by omega) (by omega), h.name_eq (by omega) (by omega)]
    exact hs.up
  · intro m hm hlt'
    by_cases hmk : m = k
    · rw [hmk, h.inum_new, h.name_new]
      exact hname
    · rw [h.inum_eq (by omega) hmk, h.name_eq (by omega) hmk]
      exact hs.rest m hm (by omega)

/-- A slot of the directory is written. -/
theorem kids_change (hs : Shaped D blk d) (hk : 2 ≤ k) (hlt : k < slots D d) :
    ∃ R, kidsOf D blk d = (if slotInum D blk d k ≠ 0 then {slotInum D blk d k} else 0) + R ∧
      kidsOf D' blk' d = (if deInum bytes ≠ 0 then {deInum bytes} else 0) + R := by
  have hslots := (h.slots_eq hs.size).1
  unfold kidsOf
  rw [show slots D' d = slots D d by omega, ← h.inum_new]
  apply present_change (Finset.mem_Ico.mpr ⟨hk, hlt⟩)
  intro m hm hmk
  exact h.inum_eq (Finset.mem_Ico.mp hm).2 hmk

/-- A number goes into an empty slot or a new one. -/
theorem kids_add (hs : Shaped D blk d) (hk : 2 ≤ k)
    (hvac : k < slots D d ∧ slotInum D blk d k = 0 ∨ k = slots D d) (hne : deInum bytes ≠ 0) :
    kidsOf D' blk' d = deInum bytes ::ₘ kidsOf D blk d := by
  rcases hvac with ⟨hlt, hzero⟩ | hend
  · obtain ⟨R, hold, hnew⟩ := h.kids_change hs hk hlt
    rw [if_neg (by rw [hzero]; simp), zero_add] at hold
    rw [hnew, hold, if_pos hne, Multiset.singleton_add]
  · have hslots := (h.slots_eq hs.size).1
    have hset : Finset.Ico 2 (slots D' d) = insert k (Finset.Ico 2 (slots D d)) := by
      ext m
      simp only [Finset.mem_Ico, Finset.mem_insert]
      omega
    have hrest : present (slotInum D' blk' d) (Finset.Ico 2 (slots D d)) = kidsOf D blk d := by
      apply present_congr
      intro m hm
      obtain ⟨-, hm⟩ := Finset.mem_Ico.mp hm
      exact h.inum_eq hm (by omega)
    unfold kidsOf at hrest ⊢
    rw [hset, present_insert (by simp [hend]), hrest, h.inum_new, if_pos hne,
      Multiset.singleton_add]

/-- A slot is cleared. -/
theorem kids_erase (hs : Shaped D blk d) (hk : 2 ≤ k) (hlt : k < slots D d)
    (hzero : deInum bytes = 0) (hne : slotInum D blk d k ≠ 0) :
    kidsOf D' blk' d = (kidsOf D blk d).erase (slotInum D blk d k) := by
  obtain ⟨R, hold, hnew⟩ := h.kids_change hs hk hlt
  rw [if_neg (by rw [hzero]; simp), zero_add] at hnew
  rw [hnew, hold, if_pos hne, Multiset.singleton_add, Multiset.erase_cons_head]

end

end SlotWritten

/-! ## Link counts -/

/-- A change of labels leaves the bytes of every file. -/
theorem Relabelled.content_eq (h : Relabelled ip f s t) (hf : Relabels f)
    (i j : ℕ) : content t.dinode t.block i j = content s.dinode s.block i j := by
  unfold content
  rw [h.block, h.dinode]
  by_cases hi : i = (s.itable ip).inum
  · rw [hi, update_self, hf.place_eq]
  · rw [update_of_ne hi]

/-- The count of one inode is changed. -/
theorem Relabelled.sameSlots (h : Relabelled ip f s t) (hf : Relabels f)
    (i : ℕ) : SameSlots s.dinode s.block t.dinode t.block i := by
  refine ⟨?_, fun k _ => slotBytes_congr fun j _ => h.content_eq hf i _⟩
  rw [h.dinode]
  by_cases hi : i = (s.itable ip).inum
  · rw [hi, update_self, (hf _).2.2]
  · rw [update_of_ne hi]

theorem Relabelled.sameAt (h : Relabelled ip f s t)
    (hi : i ≠ (s.itable ip).inum) : SameAt s.dinode s.block t.dinode t.block i := by
  rw [h.block]
  apply SameAt.of_eq
  rw [h.dinode, update_of_ne hi]

theorem Relabelled.self (h : Relabelled ip f s t) :
    t.dinode (s.itable ip).inum = f (s.dinode (s.itable ip).inum) := by
  rw [h.dinode, update_self]

/-- Only the link count of inode `d` has changed. -/
structure Recounted (d : ℕ) (f : CShort → CShort) (D : ℕ → Dinode) (blk : ℕ → ℕ → UInt8)
    (D' : ℕ → Dinode) (blk' : ℕ → ℕ → UInt8) : Prop where
  slots : ∀ m, SameSlots D blk D' blk' m
  type : ∀ m, (D' m).type = (D m).type
  other : ∀ m, m ≠ d → (D' m).nlink = (D m).nlink
  self : (D' d).nlink = f (D d).nlink

theorem Recounted.id (d : ℕ) (D : ℕ → Dinode) (blk : ℕ → ℕ → UInt8) :
    Recounted d (fun x => x) D blk D blk :=
  ⟨fun _ => ⟨rfl, fun _ _ => rfl⟩, fun _ => rfl, fun _ _ => rfl, rfl⟩

theorem Recounted.sameAt {f : CShort → CShort} (h : Recounted d f D blk D' blk') (hi : i ≠ d) :
    SameAt D blk D' blk' i :=
  ⟨h.type i, fun _ => h.other i hi, fun _ => h.slots i⟩

theorem Relabelled.recounted {f : CShort → CShort}
    (h : Relabelled ip (fun x => { x with nlink := f x.nlink }) s t) :
    Recounted (s.itable ip).inum f s.dinode s.block t.dinode t.block where
  slots := h.sameSlots fun _ => ⟨rfl, rfl, rfl⟩
  type m := by
    by_cases hm : m = (s.itable ip).inum
    · rw [hm, h.self]
    · exact (h.sameAt hm).type
  other m hm := by rw [h.dinode, update_of_ne hm]
  self := by rw [h.self]

theorem toInt_add_one (h : x.toInt < 32767) : (x + 1).toInt = x.toInt + 1 := by
  have := BitVec.le_toInt x
  rw [BitVec.toInt_add, show (1 : CShort).toInt = 1 by decide]
  simp only [Int.bmod]
  omega

theorem toInt_sub_one (h : 1 ≤ x.toInt) : (x - 1).toInt = x.toInt - 1 := by
  have := BitVec.toInt_lt (x := x)
  rw [BitVec.toInt_sub, show (1 : CShort).toInt = 1 by decide]
  simp only [Int.bmod]
  omega

/-! ## Freed inodes -/

theorem Tree.freed (h : Tree sb s.dinode s.block) (hf : Freed ip s t)
    (hi : (s.dinode (s.itable ip).inum).type ≠ 0)
    (hlink : (s.dinode (s.itable ip).inum).nlink = 0) : Tree sb t.dinode t.block := by
  obtain ⟨x, hx⟩ := Option.isSome_iff_exists.mp ((isSome_view s.block).mpr hi)
  have hzero : x.nlink = 0 := by
    rw [nlink_view hx, hlink]
    rfl
  refine h.change (i := (s.itable ip).inum) (d := (s.itable ip).inum) (fun m hm _ => ?_)
    (view_free hf.type) (view_free hf.type) ?_ ?_
  · rw [hf.block]
    exact SameAt.of_eq (hf.other m hm)
  · rw [update_idem]
    exact h.ok.free hx hzero
  · rintro m (rfl | rfl) hm
    · exact absurd hf.type (dir_ne_zero hm)
    · exact absurd hf.type (dir_ne_zero hm)

/-- **`iput` keeps the tree.** -/
theorem Tree.put (h : Tree sb s.dinode s.block) (hgood : Consistent sb s)
    (hput : PutDisk ip s t) : Tree sb t.dinode t.block := by
  by_cases hlast : LastRef ip s
  · have hpos : 0 < (s.itable ip).ref := by
      rw [hlast.1]
      decide
    have hclean := hgood.clean ip hpos hlast.2.1
    apply h.freed (hput.freed hlast)
    · rw [hclean]
      exact hgood.typed ip hpos hlast.2.1
    · rw [hclean]
      exact hlast.2.2
  · have hsame := hput.same hlast
    rw [hsame.dinode, hsame.block]
    exact h

end Fs

/-
# The directory tree on the disk

The disk as a name space (`Links.Space`): the number in slot 1 of a directory is its
parent, and the numbers in the slots from 2 on are its kids.  `Tree` says that this space
is in order and that every directory begins with the names `.` and `..`, which no other
slot has.
-/
import Xv6.FsDirs
import Xv6.Links

namespace Fs

variable {sb : Superblock}
variable {D : ℕ → Dinode} {blk : ℕ → ℕ → UInt8} {i d k n v : ℕ}

/-! ## Numbers in slots -/

/-- The nonzero values on a set of slots. -/
def present (f : ℕ → ℕ) (S : Finset ℕ) : Multiset ℕ := (S.val.map f).filter (· ≠ 0)

variable {f g : ℕ → ℕ} {S : Finset ℕ}

theorem mem_present : v ∈ present f S ↔ v ≠ 0 ∧ ∃ k ∈ S, f k = v := by
  simp [present, and_comm]

theorem present_congr (h : ∀ k ∈ S, g k = f k) : present g S = present f S := by
  unfold present
  congr 1
  apply Multiset.map_congr rfl
  intro k hk
  exact h k hk

theorem present_insert (hk : k ∉ S) :
    present f (insert k S) = (if f k ≠ 0 then {f k} else 0) + present f S := by
  unfold present
  rw [Finset.insert_val_of_notMem hk, Multiset.map_cons, Multiset.filter_cons]

/-- One slot changes. -/
theorem present_change (hk : k ∈ S)
    (h : ∀ j ∈ S, j ≠ k → g j = f j) : ∃ R, present f S = (if f k ≠ 0 then {f k} else 0) + R ∧
      present g S = (if g k ≠ 0 then {g k} else 0) + R := by
  have hf := present_insert (f := f) (Finset.notMem_erase k S)
  have hg := present_insert (f := g) (Finset.notMem_erase k S)
  rw [Finset.insert_erase hk] at hf hg
  refine ⟨present f (S.erase k), hf, ?_⟩
  rw [hg, present_congr fun j hj => ?_]
  obtain ⟨hne, hj⟩ := Finset.mem_erase.mp hj
  exact h j hj hne

/-! ## The space -/

/-- The number of slots of a directory. -/
def slots (D : ℕ → Dinode) (i : ℕ) : ℕ := (D i).size / DIRENT

/-- The kids of a directory. -/
def kidsOf (D : ℕ → Dinode) (blk : ℕ → ℕ → UInt8) (i : ℕ) : Multiset ℕ :=
  present (slotInum D blk i) (Finset.Ico 2 (slots D i))

/-- The disk as a name space. -/
def view (D : ℕ → Dinode) (blk : ℕ → ℕ → UInt8) : Links.Space := fun i =>
  if (D i).type = 0 then none
  else if (D i).type = T_DIR then
    some (.dir (D i).nlink.toInt (slotInum D blk i 1) (kidsOf D blk i))
  else some (.file (D i).nlink.toInt)

/-- A directory begins with its own two names, which come nowhere else. -/
structure Shaped (D : ℕ → Dinode) (blk : ℕ → ℕ → UInt8) (i : ℕ) : Prop where
  size : (D i).size % DIRENT = 0
  two : 2 ≤ slots D i
  self : slotInum D blk i 0 = i ∧ slotName D blk i 0 = dot
  up : slotInum D blk i 1 ≠ 0 ∧ slotName D blk i 1 = dotdot
  rest : ∀ k, 2 ≤ k → k < slots D i → slotInum D blk i k ≠ 0 →
    slotName D blk i k ≠ dot ∧ slotName D blk i k ≠ dotdot

/-- **The directories form a tree** with exact link counts. -/
structure Tree (sb : Superblock) (D : ℕ → Dinode) (blk : ℕ → ℕ → UInt8) : Prop where
  small : sb.ninodes ≤ 2 ^ 16
  ok : Links.Ok sb.ninodes ROOTINO (view D blk)
  shaped : ∀ i, (D i).type = T_DIR → Shaped D blk i

/-- The inode is allocated and has a link. -/
def Attached (D : ℕ → Dinode) (i : ℕ) : Prop := (D i).type ≠ 0 ∧ (D i).nlink ≠ 0

theorem dir_ne_zero (h : (D i).type = T_DIR) : (D i).type ≠ 0 := by
  rw [h]
  decide

theorem view_dir (h : (D i).type = T_DIR) : view D blk i =
    some (.dir (D i).nlink.toInt (slotInum D blk i 1) (kidsOf D blk i)) := by
  unfold view
  rw [if_neg (dir_ne_zero h), if_pos h]

theorem view_file (h : (D i).type ≠ 0) (h' : (D i).type ≠ T_DIR) :
    view D blk i = some (.file (D i).nlink.toInt) := by
  unfold view
  rw [if_neg h, if_neg h']

theorem view_free (h : (D i).type = 0) : view D blk i = none := if_pos h

theorem isSome_view (blk : ℕ → ℕ → UInt8) : (view D blk i).isSome = true ↔ (D i).type ≠ 0 := by
  unfold view
  by_cases h : (D i).type = 0
  · simp [h]
  · simp only [h, if_false, ne_eq, not_false_eq_true, iff_true]
    split <;> rfl

theorem nlink_view {x : Links.Node} (h : view D blk i = some x) : x.nlink = (D i).nlink.toInt := by
  unfold view at h
  split at h
  · cases h
  · split at h <;> (cases h; rfl)

/-- A link count is not negative. -/
theorem Tree.nlink_nonneg (h : Tree sb D blk) (hi : (D i).type ≠ 0) : 0 ≤ (D i).nlink.toInt := by
  obtain ⟨x, hx⟩ := Option.isSome_iff_exists.mp ((isSome_view blk).mpr hi)
  rw [← nlink_view hx, h.ok.exact i x hx]
  exact Int.natCast_nonneg _

theorem Tree.attached_iff (h : Tree sb D blk) (hi : (D i).type ≠ 0) :
    (D i).nlink ≠ 0 ↔ 0 < (D i).nlink.toInt := by
  have hnn := h.nlink_nonneg hi
  constructor
  · intro hne
    rcases hnn.lt_or_eq with hlt | heq
    · exact hlt
    · exact absurd (BitVec.toInt_inj.mp (heq.symm.trans (by rfl : (0 : ℤ) = (0 : BitVec 16).toInt))) hne
  · intro hlt heq
    rw [heq] at hlt
    exact absurd hlt (by decide)

theorem Tree.linked (h : Tree sb D blk) (htype : (D d).type = T_DIR) (hlink : (D d).nlink ≠ 0) :
    Links.Linked (view D blk) d (D d).nlink.toInt (slotInum D blk d 1) (kidsOf D blk d) :=
  ⟨view_dir htype, (h.attached_iff (dir_ne_zero htype)).mp hlink⟩

theorem lt_slots : k < slots D i ↔ DIRENT * k + DIRENT ≤ (D i).size := by
  unfold slots DIRENT
  omega

/-- **What a linked directory names is attached.** -/
theorem Tree.attached_slot (h : Tree sb D blk) (htype : (D d).type = T_DIR)
    (hlink : (D d).nlink ≠ 0) (hk : k < slots D d) (hne : slotInum D blk d k ≠ 0) :
    Attached D (slotInum D blk d k) := by
  have hshape := h.shaped d htype
  by_cases h0 : k = 0
  · rw [h0, hshape.self.1]
    exact ⟨dir_ne_zero htype, hlink⟩
  · have hnamed : slotInum D blk d k = slotInum D blk d 1 ∨
        slotInum D blk d k ∈ kidsOf D blk d := by
      by_cases h1 : k = 1
      · rw [h1]
        exact Or.inl rfl
      · right
        rw [kidsOf, mem_present]
        exact ⟨hne, k, Finset.mem_Ico.mpr ⟨by omega, hk⟩, rfl⟩
    obtain ⟨x, hx, hpos⟩ := h.ok.linked_names (h.linked htype hlink) hnamed
    have hi : (D (slotInum D blk d k)).type ≠ 0 := (isSome_view blk).mp (by rw [hx]; rfl)
    rw [nlink_view hx] at hpos
    exact ⟨hi, (h.attached_iff hi).mpr hpos⟩

/-- **The names that can be followed**: those of linked directories lead to attached
inodes. -/
structure Closed (D : ℕ → Dinode) (blk : ℕ → ℕ → UInt8) : Prop where
  root : Attached D ROOTINO
  names : ∀ d, (D d).type = T_DIR → (D d).nlink ≠ 0 → ∀ k, k < slots D d →
    slotInum D blk d k ≠ 0 → Attached D (slotInum D blk d k)

theorem Tree.closed (h : Tree sb D blk) : Closed D blk := by
  refine ⟨?_, fun d htype hlink k hk hne => h.attached_slot htype hlink hk hne⟩
  obtain ⟨n, kids, hroot, hpos⟩ := h.ok.top
  have hi : (D ROOTINO).type ≠ 0 := (isSome_view blk).mp (by rw [hroot]; rfl)
  have hn := nlink_view hroot
  refine ⟨hi, (h.attached_iff hi).mpr ?_⟩
  rw [← hn]
  exact hpos

/-- A linked node of the space is a directory. -/
theorem linked_view {n' : ℤ} {up : ℕ} {kids : Multiset ℕ}
    (h : Links.Linked (view D blk) d n' up kids) : (D d).type = T_DIR ∧ (D d).nlink ≠ 0 ∧
      kids = kidsOf D blk d := by
  obtain ⟨hview, hpos⟩ := h
  have hdir : (D d).type = T_DIR := by
    by_contra hne
    by_cases h0 : (D d).type = 0
    · rw [view_free h0] at hview
      cases hview
    · rw [view_file h0 hne] at hview
      cases hview
  rw [view_dir hdir] at hview
  cases hview
  refine ⟨hdir, fun h0 => ?_, rfl⟩
  rw [h0] at hpos
  exact absurd hpos (by decide)

/-- **An inode with a link has a name.** -/
theorem Tree.named (h : Tree sb D blk) (hi : Attached D i) : Named D blk i := by
  by_cases hroot : i = ROOTINO
  · exact Or.inl hroot
  right
  obtain ⟨x, hx⟩ := Option.isSome_iff_exists.mp ((isSome_view blk).mpr hi.1)
  have hpos : 0 < x.nlink := by
    rw [nlink_view hx]
    exact (h.attached_iff hi.1).mp hi.2
  obtain ⟨d, n, up, kids, hlinked, hmem⟩ := h.ok.named hx hpos hroot
  obtain ⟨hdir, hlink, rfl⟩ := linked_view hlinked
  obtain ⟨hne, k, hk, hnum⟩ := mem_present.mp hmem
  obtain ⟨h2, hlt⟩ := Finset.mem_Ico.mp hk
  obtain ⟨hdot, hdotdot⟩ := (h.shaped d hdir).rest k h2 hlt (by rw [hnum]; exact hne)
  exact ⟨d, k, hdir, hlink, lt_slots.mp hlt, hnum, hdot, hdotdot⟩

end Fs

/-
# Blocks and the places that refer to them

An inode refers to blocks at its addresses and at the entries of its indirect block.  The
file system is sound when these places and the free map agree (`Ledger.Exact`): every
place refers to its own block of the data area, and the bits of the map say which blocks
are taken.
-/
import Xv6.Fs
import Xv6.Ledger

namespace Fs

open Function

variable {D D' D'' : ℕ → Dinode} {blk blk' blk'' : ℕ → ℕ → UInt8} {bm : ℕ → Bool}
variable {sb : Superblock} {i k j b : ℕ}

/-! ## Places -/

/-- A place of an inode that can refer to a block. -/
inductive Place where
  | addr (k : ℕ)
  | leaf (j : ℕ)
  deriving DecidableEq

/-- The block a place refers to; 0 for none. -/
def place (d : Dinode) (blk : ℕ → ℕ → UInt8) : Place → ℕ
  | .addr k => if k ≤ NDIRECT then d.addrs k else 0
  | .leaf j =>
    if d.addrs NDIRECT ≠ 0 ∧ j < NINDIRECT then entry (blk (d.addrs NDIRECT)) j else 0

/-- The place of the block with number `bn` of a file. -/
def home (bn : ℕ) : Place := if bn < NDIRECT then .addr bn else .leaf (bn - NDIRECT)

/-- The references of the allocated inodes. -/
def refs (D : ℕ → Dinode) (blk : ℕ → ℕ → UInt8) (x : ℕ × Place) : ℕ :=
  if (D x.1).type = 0 then 0 else place (D x.1) blk x.2

/-- The first data block. -/
def dataStart (sb : Superblock) : ℕ := sb.size - sb.nblocks

/-- **References and free map agree.** -/
abbrev Sound (sb : Superblock) (D : ℕ → Dinode) (bm : ℕ → Bool) (blk : ℕ → ℕ → UInt8) : Prop :=
  Ledger.Exact (dataStart sb) sb.size (refs D blk) bm

/-- The address `k` of an inode set to `v`. -/
def Dinode.setAddr (d : Dinode) (k v : ℕ) : Dinode :=
  { d with addrs := update d.addrs k v }

theorem home_ne (bn : ℕ) : home bn ≠ .addr NDIRECT := by
  unfold home
  split
  · intro h
    cases h
    omega
  · exact fun h => by cases h

theorem home_injective : Function.Injective home := by
  intro a b h
  by_cases ha : a < NDIRECT <;> by_cases hb : b < NDIRECT <;> simp [home, ha, hb] at h <;> omega

theorem refs_of_type (h : (D i).type ≠ 0) (p : Place) : refs D blk (i, p) = place (D i) blk p :=
  if_neg h

theorem place_addr (d : Dinode) (hk : k ≤ NDIRECT) : place d blk (.addr k) = d.addrs k :=
  if_pos hk

variable {d : Dinode} {p : Place} {a z m off : ℕ}

theorem place_leaf (hc : d.addrs NDIRECT ≠ 0) (hj : j < NINDIRECT) :
    place d blk (.leaf j) = entry (blk (d.addrs NDIRECT)) j :=
  if_pos ⟨hc, hj⟩

/-- A file has at most `MAXFILE` blocks. -/
theorem home_lt {bn : ℕ} (h : place d blk (home bn) ≠ 0) : bn < MAXFILE := by
  unfold home at h
  split at h
  · simp only [MAXFILE]
    omega
  · by_contra hbn
    apply h
    apply if_neg
    simp only [MAXFILE] at hbn
    omega

/-! ## Writing blocks -/

/-- The indirect blocks have the same content. -/
def Intact (D : ℕ → Dinode) (blk blk' : ℕ → ℕ → UInt8) : Prop :=
  ∀ i, (D i).type ≠ 0 → (D i).addrs NDIRECT ≠ 0 →
    blk' ((D i).addrs NDIRECT) = blk ((D i).addrs NDIRECT)

theorem Intact.refs_eq (h : Intact D blk blk') : refs D blk' = refs D blk := by
  funext ⟨i, p⟩
  unfold refs
  split
  · rfl
  · rename_i htype
    cases p with
    | addr k => rfl
    | leaf j =>
      simp only [place]
      by_cases hc : (D i).addrs NDIRECT ≠ 0 ∧ j < NINDIRECT
      · rw [if_pos hc, if_pos hc, h i htype hc.1]
      · rw [if_neg hc, if_neg hc]

/-- The reference to an indirect block. -/
theorem refs_indirect (htype : (D i).type ≠ 0) :
    refs D blk (i, .addr NDIRECT) = (D i).addrs NDIRECT := by
  rw [refs_of_type htype, place_addr _ le_rfl]

theorem intact_of_free (h : Sound sb D bm blk) (hb : b < sb.size) (hfree : bm b = false)
    (x : ℕ → UInt8) : Intact D blk (update blk b x) := by
  intro i htype _
  apply update_of_ne
  rw [← refs_indirect htype]
  exact h.not_ref hb hfree _

theorem intact_of_data (h : Sound sb D bm blk) (hp : p ≠ .addr NDIRECT) (hb : refs D blk (i, p) ≠ 0)
    (x : ℕ → UInt8) : Intact D blk (update blk (refs D blk (i, p)) x) := by
  intro m htype _
  apply update_of_ne
  rw [← refs_indirect htype]
  intro heq
  have := h.once _ _ hb heq.symm
  injection this with _ hpe
  exact hp hpe

/-! ## Setting addresses -/

theorem refs_setDirect (htype : (D i).type ≠ 0) (hk : k < NDIRECT) (v : ℕ) :
    refs (update D i ((D i).setAddr k v)) blk = update (refs D blk) (i, .addr k) v := by
  funext ⟨m, p⟩
  by_cases hm : m = i
  · subst hm
    have hne : NDIRECT ≠ k := by omega
    by_cases hp : p = .addr k
    · rw [hp, update_self, refs_of_type (by simpa [Dinode.setAddr] using htype),
        place_addr _ hk.le]
      simp [Dinode.setAddr]
    · rw [update_of_ne (fun h => hp (congrArg Prod.snd h))]
      cases p with
      | addr k' =>
        have hk' : k' ≠ k := fun h => hp (congrArg Place.addr h)
        simp [refs, place, Dinode.setAddr, hk']
      | leaf j => simp [refs, place, Dinode.setAddr, hne]
  · rw [update_of_ne (fun h => hm (congrArg Prod.fst h))]
    simp [refs, hm]

theorem refs_setIndirect (htype : (D i).type ≠ 0) (hnone : (D i).addrs NDIRECT = 0)
    (hblank : ∀ j, entry (blk b) j = 0) : refs (update D i ((D i).setAddr NDIRECT b)) blk =
      update (refs D blk) (i, .addr NDIRECT) b := by
  funext ⟨m, p⟩
  by_cases hm : m = i
  · subst hm
    by_cases hp : p = .addr NDIRECT
    · rw [hp, update_self, refs_of_type (by simpa [Dinode.setAddr] using htype),
        place_addr _ le_rfl]
      simp [Dinode.setAddr]
    · rw [update_of_ne (fun h => hp (congrArg Prod.snd h))]
      cases p with
      | addr k' =>
        have hk' : k' ≠ NDIRECT := fun h => hp (congrArg Place.addr h)
        simp [refs, place, Dinode.setAddr, hk']
      | leaf j => simp [refs, place, Dinode.setAddr, hnone, hblank]
  · rw [update_of_ne (fun h => hm (congrArg Prod.fst h))]
    simp [refs, hm]

/-- An entry of the indirect block is set. -/
theorem refs_setLeaf (h : Sound sb D bm blk) (htype : (D i).type ≠ 0)
    (hc : (D i).addrs NDIRECT ≠ 0) (hj : j < NINDIRECT) (hb : b < 2 ^ 32) :
    refs D (update blk ((D i).addrs NDIRECT)
        (Bytes.setLE (blk ((D i).addrs NDIRECT)) (4 * j) 4 b)) =
      update (refs D blk) (i, .leaf j) b := by
  funext ⟨m, p⟩
  by_cases hm : m = i
  · subst hm
    cases p with
    | addr k => rw [update_of_ne (by simp)]; rfl
    | leaf j' =>
      by_cases hj' : j' = j
      · subst hj'
        rw [update_self, refs_of_type htype, place_leaf hc hj, update_self]
        unfold entry
        rw [Bytes.getLE_setLE_same, Nat.mod_eq_of_lt]
        exact lt_of_lt_of_eq hb (by norm_num)
      · rw [update_of_ne (by simpa using hj'), refs_of_type htype, refs_of_type htype]
        by_cases hlt : j' < NINDIRECT
        · rw [place_leaf hc hlt, place_leaf hc hlt, update_self]
          unfold entry
          apply Bytes.getLE_setLE_other
          omega
        · have hno : ∀ blk, place (D m) blk (.leaf j') = 0 := by
            intro blk
            exact if_neg fun hh => hlt hh.2
          rw [hno, hno]
  · -- another inode has another indirect block
    rw [update_of_ne (fun heq => hm (congrArg Prod.fst heq))]
    unfold refs
    split
    · rfl
    · rename_i hm'
      have hmtype : (D m).type ≠ 0 := hm'
      cases p with
      | addr k => rfl
      | leaf j' =>
        by_cases hlt : (D m).addrs NDIRECT ≠ 0 ∧ j' < NINDIRECT
        · rw [place_leaf hlt.1 hlt.2, place_leaf hlt.1 hlt.2, update_of_ne]
          intro heq
          have hone := h.once (m, .addr NDIRECT) (i, .addr NDIRECT)
          rw [refs_indirect hmtype, refs_indirect htype] at hone
          exact hm (congrArg Prod.fst (hone hlt.1 heq))
        · exact (if_neg hlt).trans (if_neg hlt).symm

/-! ## The content of files -/

/-- Byte `j` of the file with number `i`. -/
def content (D : ℕ → Dinode) (blk : ℕ → ℕ → UInt8) (i j : ℕ) : UInt8 :=
  blk (place (D i) blk (home (j / BSIZE))) (j % BSIZE)

/-- Byte `o` of the block at a place of inode `m` is one of the bytes `[a, z)` of file
`i`. -/
def InRange (i a z m : ℕ) (p : Place) (o : ℕ) : Prop :=
  m = i ∧ ∃ bn, p = home bn ∧ a ≤ bn * BSIZE + o ∧ bn * BSIZE + o < z

/-- File `i` has been written in `[a, z)` and may have got new blocks and another size;
everything else that the inodes refer to is the same. -/
structure Wrote (i a z : ℕ) (D : ℕ → Dinode) (blk : ℕ → ℕ → UInt8) (D' : ℕ → Dinode)
    (blk' : ℕ → ℕ → UInt8) : Prop where
  other : ∀ m, m ≠ i → D' m = D m
  shape : ∃ f n, D' i = { D i with addrs := f, size := n }
  kept : ∀ x, refs D blk x ≠ 0 → refs D' blk' x = refs D blk x
  bytes : ∀ m p o, p ≠ .addr NDIRECT → refs D blk (m, p) ≠ 0 → o < BSIZE →
    ¬ InRange i a z m p o → blk' (refs D blk (m, p)) o = blk (refs D blk (m, p)) o

theorem Wrote.refl (i a : ℕ) (D : ℕ → Dinode) (blk : ℕ → ℕ → UInt8) : Wrote i a a D blk D blk where
  other _ _ := rfl
  shape := ⟨(D i).addrs, (D i).size, rfl⟩
  kept _ _ := rfl
  bytes _ _ _ _ _ _ _ := rfl

theorem Wrote.mono {a' z' : ℕ} (h : Wrote i a z D blk D' blk') (ha : a' ≤ a)
    (hz : z ≤ z') : Wrote i a' z' D blk D' blk' where
  other := h.other
  shape := h.shape
  kept := h.kept
  bytes m p o hp hr ho hout := by
    apply h.bytes m p o hp hr ho
    rintro ⟨hm, bn, hbn, hlo, hhi⟩
    exact hout ⟨hm, bn, hbn, by omega, by omega⟩

/-- Two writes to one range. -/
theorem Wrote.trans (h : Wrote i a z D blk D' blk')
    (h' : Wrote i a z D' blk' D'' blk'') : Wrote i a z D blk D'' blk'' where
  other m hm := (h'.other m hm).trans (h.other m hm)
  shape := by
    obtain ⟨f, n, hf⟩ := h.shape
    obtain ⟨g, n', hg⟩ := h'.shape
    exact ⟨g, n', by rw [hg, hf]⟩
  kept x hx := by
    have hkept := h.kept x hx
    rw [h'.kept x (hkept ▸ hx), hkept]
  bytes m p o hp hr ho hout := by
    have hkept := h.kept (m, p) hr
    have hlater := h'.bytes m p o hp (hkept ▸ hr) ho hout
    rw [hkept] at hlater
    rw [hlater, h.bytes m p o hp hr ho hout]

/-- A place gets a free block. -/
theorem wrote_of_grow (a : ℕ) {x : ℕ × Place}
    (hother : ∀ m, m ≠ i → D' m = D m) (hshape : ∃ f n, D' i = { D i with addrs := f, size := n })
    (hx : refs D blk x = 0) (hrefs : refs D' blk' = update (refs D blk) x b)
    (hbytes : ∀ m p, p ≠ .addr NDIRECT → refs D blk (m, p) ≠ 0 →
      blk' (refs D blk (m, p)) = blk (refs D blk (m, p))) : Wrote i a a D blk D' blk' := by
  refine ⟨hother, hshape, ?_, ?_⟩
  · intro y hy
    rw [hrefs, update_of_ne]
    rintro rfl
    exact hy hx
  · intro m p o hp hr _ _
    rw [hbytes m p hp hr]

theorem Wrote.type_eq (h : Wrote i a z D blk D' blk') (m : ℕ) : (D' m).type = (D m).type := by
  by_cases hm : m = i
  · obtain ⟨f, n, hf⟩ := h.shape
    rw [hm, hf]
  · rw [h.other m hm]

theorem Wrote.place_eq (h : Wrote i a z D blk D' blk') (htype : (D m).type ≠ 0)
    (hp : place (D m) blk p ≠ 0) : place (D' m) blk' p = place (D m) blk p := by
  have hkept := h.kept (m, p)
  rw [refs_of_type htype, refs_of_type (by rw [h.type_eq]; exact htype)] at hkept
  exact hkept hp

/-- **What has not been written has its old content.** -/
theorem Wrote.content_eq {j : ℕ} (h : Wrote i a z D blk D' blk') (htype : (D m).type ≠ 0)
    (hp : place (D m) blk (home (j / BSIZE)) ≠ 0)
    (hout : m ≠ i ∨ j < a ∨ z ≤ j) : content D' blk' m j = content D blk m j := by
  have hbytes := h.bytes m (home (j / BSIZE)) (j % BSIZE) (home_ne _)
  rw [refs_of_type htype] at hbytes
  unfold content
  rw [h.place_eq htype hp]
  apply hbytes hp (Nat.mod_lt _ (by decide))
  rintro ⟨hm, bn, hbn, hlo, hhi⟩
  have hj := Nat.div_add_mod' j BSIZE
  rw [← home_injective hbn] at hlo hhi
  omega

/-! The size of a file does not matter for its references. -/

/-- File `i` with another size. -/
def resize (D : ℕ → Dinode) (i n : ℕ) : ℕ → Dinode := update D i { D i with size := n }

theorem place_resize (n m : ℕ) (p : Place) : place (resize D i n m) blk p = place (D m) blk p := by
  by_cases hm : m = i
  · subst hm
    unfold resize
    rw [update_self]
    cases p <;> rfl
  · unfold resize
    rw [update_of_ne hm]

theorem type_resize (n m : ℕ) : (resize D i n m).type = (D m).type := by
  by_cases hm : m = i
  · subst hm
    unfold resize
    rw [update_self]
  · unfold resize
    rw [update_of_ne hm]

theorem refs_resize (n : ℕ) : refs (resize D i n) blk = refs D blk := by
  funext ⟨m, p⟩
  simp only [refs, type_resize, place_resize]

theorem content_resize (n m j : ℕ) : content (resize D i n) blk m j = content D blk m j := by
  simp only [content, place_resize]

theorem Wrote.resize (h : Wrote i a z D blk D' blk') (n : ℕ) :
    Wrote i a z D blk (resize D' i n) blk' where
  other m hm := by
    unfold Fs.resize
    rw [update_of_ne hm, h.other m hm]
  shape := by
    obtain ⟨f, n', hf⟩ := h.shape
    refine ⟨f, n, ?_⟩
    unfold Fs.resize
    rw [update_self, hf]
  kept x hx := by
    rw [refs_resize]
    exact h.kept x hx
  bytes := h.bytes

/-- **Writing bytes to the block of an offset.** -/
theorem wrote_setBytes (h : Sound sb D bm blk) (htype : (D i).type ≠ 0)
    (hp : place (D i) blk (home (off / BSIZE)) ≠ 0) (bytes : List UInt8) :
    Wrote i off (off + bytes.length) D blk D (update blk (place (D i) blk (home (off / BSIZE)))
        (Vm.setBytes (blk (place (D i) blk (home (off / BSIZE)))) (off % BSIZE) bytes)) := by
  have hintact := intact_of_data h (home_ne (off / BSIZE)) (i := i)
  rw [refs_of_type htype] at hintact
  refine ⟨fun _ _ => rfl, ⟨(D i).addrs, (D i).size, rfl⟩, ?_, ?_⟩
  · intro x _
    rw [(hintact hp _).refs_eq]
  · intro m p o hpd hr ho hout
    by_cases hsame : refs D blk (m, p) = place (D i) blk (home (off / BSIZE))
    · -- the block itself: only the bytes in range change
      have hplace : (m, p) = (i, home (off / BSIZE)) := by
        apply h.once _ _ hr
        rw [hsame, refs_of_type htype]
      injection hplace with hm hpe
      rw [hsame, update_self]
      apply if_neg
      rintro ⟨hlo, hhi⟩
      have hoff := Nat.div_add_mod' off BSIZE
      exact hout ⟨hm, off / BSIZE, hpe, by omega, by omega⟩
    · rw [update_of_ne hsame]

/-- Offsets in one block. -/
theorem div_of_same_block {j : ℕ} (h : off % BSIZE + j < BSIZE) :
    (off + j) / BSIZE = off / BSIZE := by
  have h1 := Nat.div_add_mod' off BSIZE
  have h2 : off + j = off % BSIZE + j + off / BSIZE * BSIZE := by omega
  rw [h2, Nat.add_mul_div_right _ _ (by decide), Nat.div_eq_of_lt h, zero_add]

theorem mod_of_same_block {j : ℕ} (h : off % BSIZE + j < BSIZE) :
    (off + j) % BSIZE = off % BSIZE + j := by
  have h1 := Nat.div_add_mod' off BSIZE
  have h2 := Nat.div_add_mod' (off + j) BSIZE
  rw [div_of_same_block h] at h2
  omega

/-- The bytes that have been written. -/
theorem content_setBytes (h : Sound sb D bm blk) (htype : (D i).type ≠ 0)
    (hp : place (D i) blk (home (off / BSIZE)) ≠ 0) {bytes : List UInt8}
    (hlen : off % BSIZE + bytes.length ≤ BSIZE) {j : ℕ} (hj : j < bytes.length) :
    content D (update blk (place (D i) blk (home (off / BSIZE)))
        (Vm.setBytes (blk (place (D i) blk (home (off / BSIZE)))) (off % BSIZE) bytes)) i
      (off + j) = bytes.getD j 0 := by
  have hwrote := wrote_setBytes h htype hp bytes
  unfold content
  rw [div_of_same_block (by omega), mod_of_same_block (by omega), hwrote.place_eq htype hp, update_self]
  unfold Vm.setBytes
  rw [if_pos (by omega)]
  congr 1
  omega

end Fs

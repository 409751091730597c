/-
# Files as byte lists

On a consistent file system `readi` and `writei` are the operations of an array of bytes:
`writei` splices the bytes of the source into the content of the file, a part of them if the
disk is full, and `readi` returns a stretch of it (`readi_writei_bytes`).

When the source gives out in the middle of a block, `writei` has already put a part of the
bytes into the block of the cache, and it releases the block without logging it.  What was
written there is neither counted nor taken back (`partial_copy_unlogged`).  If the source
gives out at the start of a block only, `writei` leaves no such trace
(`writei_clean_of_breaksAtBlocks`).
-/
import Xv6.FsAlloc

namespace Fs

open Hoare Transition

variable {sb : Superblock} {s t : State} {ip : Ip} {off n tot i : ℕ}
variable {D D' : ℕ → Dinode} {blk blk' : ℕ → ℕ → UInt8}

/-! ## The content of a file -/

/-- The content of inode `i`, of the length that the inode has. -/
def fileBytes (D : ℕ → Dinode) (blk : ℕ → ℕ → UInt8) (i : ℕ) : List UInt8 :=
  (List.range (D i).size).map (content D blk i)

/-- The bytes, put into the list from position `off` on. -/
def splice (l : List UInt8) (off : ℕ) (bytes : List UInt8) : List UInt8 :=
  l.take off ++ bytes ++ l.drop (off + bytes.length)

theorem splice_length (l bytes : List UInt8) (hoff : off ≤ l.length) :
    (splice l off bytes).length = max l.length (off + bytes.length) := by
  simp only [splice, List.length_append, List.length_take, List.length_drop]
  omega

theorem splice_map {g f src : ℕ → UInt8} (hoff : off ≤ n) (hin : ∀ j, j < tot → f (off + j) = src j)
    (hout : ∀ j, j < n → j < off ∨ off + tot ≤ j → f j = g j) :
    (List.range (max n (off + tot))).map f =
      splice ((List.range n).map g) off ((List.range tot).map src) := by
  apply List.ext_getElem
  · rw [splice_length _ _ (by simpa using hoff)]
    simp
  · intro j hj _
    simp only [List.length_map, List.length_range] at hj
    simp only [splice, List.getElem_append, List.length_append, List.length_take, List.length_map,
      List.length_range, Nat.min_eq_left hoff, List.getElem_map, List.getElem_range,
      List.getElem_take, List.getElem_drop]
    by_cases hlow : j < off
    · rw [dif_pos (by omega), dif_pos hlow]
      exact hout j (by omega) (Or.inl hlow)
    by_cases hmid : j < off + tot
    · rw [dif_pos hmid, dif_neg hlow, ← hin (j - off) (by omega)]
      congr 1
      omega
    · rw [dif_neg hmid, hout j (by omega) (Or.inr (by omega))]
      congr 1
      omega

/-- What has not been written is the same in the list. -/
theorem Wrote.fileBytes_eq {a z m : ℕ} (h : Wrote i a z D blk D' blk') (hm : m ≠ i)
    (hwhole : ∀ j, j < (D m).size → place (D m) blk (home (j / BSIZE)) ≠ 0)
    (htype : (D m).type ≠ 0) : fileBytes D' blk' m = fileBytes D blk m := by
  unfold fileBytes
  rw [h.other m hm]
  apply List.map_congr_left
  intro j hj
  exact h.content_eq htype (hwhole j (List.mem_range.mp hj)) (Or.inl hm)

theorem bytesAt_eq_drop (hclean : s.dinode (s.itable ip).inum = (s.itable ip).d)
    (hoff : off + n ≤ (s.itable ip).d.size) :
    bytesAt s ip off n = ((fileBytes s.dinode s.block (s.itable ip).inum).drop off).take n := by
  apply List.ext_getElem
  · simp only [bytesAt, fileBytes, List.length_map, List.length_range, List.length_take,
      List.length_drop, hclean]
    omega
  · intro j _ _
    simp [bytesAt, fileBytes, byteAt, cur_of_clean hclean]

/-! ## writei and readi -/

variable {src : ℕ → Option UInt8}

/-- `writei` refuses what does not fit. -/
theorem writei_refuses (hn : n < 2 ^ 32)
    (h : (s.itable ip).d.size < off ∨ 2 ^ 32 ≤ off + n ∨ MAXFILE * BSIZE < off + n)
    (hlt : off < 2 ^ 32) : writei sb ip src off n s = .ok (-1) s := by
  unfold writei
  rw [inode_bind]
  by_cases hoff : (s.itable ip).d.size < off ∨ (off + n) % 2 ^ 32 < off
  · rw [if_pos hoff]
    rfl
  rw [if_neg hoff]
  have hfit : MAXFILE * BSIZE < off + n := by
    rcases h with hsize | hwrap | hfit
    · exact absurd (Or.inl hsize) hoff
    · -- both are below 2 ^ 32, so the sum has wrapped around
      have hmod : (off + n) % 2 ^ 32 = off + n - 2 ^ 32 := by
        rw [Nat.mod_eq_sub_mod hwrap, Nat.mod_eq_of_lt (by omega)]
      exact absurd (Or.inr (by omega)) hoff
    · exact hfit
  rw [if_pos hfit]
  rfl

/-- `writei` does what fits. -/
theorem writei_saves (src : ℕ → Option UInt8) (h : Consistent sb s) (hpos : 0 < (s.itable ip).ref)
    (hv : (s.itable ip).valid = true) (hop : 1 ≤ s.outstanding)
    (hoff : off ≤ (s.itable ip).d.size) (hwrap : off + n < 2 ^ 32)
    (hfit : off + n ≤ MAXFILE * BSIZE) :
    ∃ (tot : ℕ) (t : State), writei sb ip src off n s = .ok tot t ∧ Saved sb ip src off n s tot t := by
  rcases writei_ok src off n (h.work hpos hv hop) (h.clean ip hpos hv) (h.has hpos hv) with
    ⟨-, hwhy⟩ | hdone
  · omega
  · exact hdone

theorem Saved.inum (h : Saved sb ip src off n s tot t) :
    (t.itable ip).inum = (s.itable ip).inum := h.body.inum

theorem Saved.size_eq (h : Saved sb ip src off n s tot t)
    (hclean : s.dinode (s.itable ip).inum = (s.itable ip).d) :
    (t.dinode (s.itable ip).inum).size = max (s.dinode (s.itable ip).inum).size (off + tot) := by
  rw [h.clean, h.size, hclean]

/-- The content after a write from a source that is there. -/
theorem Saved.fileBytes_eq (src : ℕ → UInt8) (hgood : Consistent sb s)
    (hpos : 0 < (s.itable ip).ref) (hv : (s.itable ip).valid = true)
    (h : Saved sb ip (fun j => some (src j)) off n s tot t) :
    fileBytes t.dinode t.block (s.itable ip).inum =
      splice (fileBytes s.dinode s.block (s.itable ip).inum) off ((List.range tot).map src) := by
  have hclean := hgood.clean ip hpos hv
  have htype : (s.dinode (s.itable ip).inum).type ≠ 0 := by
    rw [hclean]
    exact hgood.typed ip hpos hv
  obtain ⟨hwrote, -⟩ := h.tight fun j _ hnone => by cases hnone
  unfold fileBytes
  rw [h.size_eq hclean]
  apply splice_map (by rw [hclean]; exact h.start)
  · intro j hj
    have hbyte := h.bytes j hj
    injection hbyte with hbyte
    exact hbyte.symm
  · intro j hj hout
    exact hwrote.content_eq htype (hgood.whole _ htype j hj) (Or.inr hout)

/-- **`readi` and `writei` implement an array of bytes.**  On a consistent file system
without holes, for an inode that is locked in a transaction: `writei` refuses what is out of
range and changes nothing; otherwise it splices a first part of the source into the content,
all of it unless the disk is full, and leaves the other files alone.  After that `readi`
returns any stretch of the content. -/
theorem readi_writei_bytes (ip : Ip) (off n : ℕ) (src : ℕ → UInt8) (h : Consistent sb s)
    (hpos : 0 < (s.itable ip).ref) (hv : (s.itable ip).valid = true) (hop : 1 ≤ s.outstanding)
    (hoff : off < 2 ^ 32) (hn : n < 2 ^ 32) (hi : i = (s.itable ip).inum) :
    ((s.dinode i).size < off ∨ 2 ^ 32 ≤ off + n ∨ MAXFILE * BSIZE < off + n →
      writei sb ip (fun j => some (src j)) off n s = .ok (-1) s) ∧
    (off ≤ (s.dinode i).size ∧ off + n < 2 ^ 32 ∧ off + n ≤ MAXFILE * BSIZE →
      ∃ (tot : ℕ) (t : State), writei sb ip (fun j => some (src j)) off n s = .ok tot t ∧
        tot ≤ n ∧ (tot < n → ∀ b, b < sb.size → t.bitmap b = true) ∧
        (t.dinode i).size = max (s.dinode i).size (off + tot) ∧ fileBytes t.dinode t.block i =
          splice (fileBytes s.dinode s.block i) off ((List.range tot).map src) ∧
        (∀ m, m ≠ i → (s.dinode m).type ≠ 0 →
          fileBytes t.dinode t.block m = fileBytes s.dinode s.block m) ∧
        ∀ off' n', off' ≤ (t.dinode i).size → off' + n' < 2 ^ 32 →
          readi sb ip always off' n' t = .ok ((min n' ((t.dinode i).size - off') : ℕ),
            ((fileBytes t.dinode t.block i).drop off').take (min n' ((t.dinode i).size - off'))) t)
    := by
  subst hi
  have hclean := h.clean ip hpos hv
  constructor
  · intro hwhy
    rw [hclean] at hwhy
    exact writei_refuses hn hwhy hoff
  · rintro ⟨hle, hwrap, hfit⟩
    rw [hclean] at hle
    obtain ⟨tot, t, hrun, hsaved⟩ := writei_saves (fun j => some (src j)) h hpos hv hop hle hwrap
      hfit
    refine ⟨tot, t, hrun, hsaved.le, hsaved.dry fun _ _ => rfl, hsaved.size_eq hclean,
      hsaved.fileBytes_eq src h hpos hv, fun m hm htype => ?_, fun off' n' hoff' hwrap' => ?_⟩
    · exact hsaved.wrote.fileBytes_eq hm (h.whole m htype) htype
    · have hclean' : t.dinode (t.itable ip).inum = (t.itable ip).d := by
        rw [hsaved.inum]
        exact hsaved.clean
      rw [hsaved.clean] at hoff' ⊢
      rw [readi_bytes hsaved.has hoff' hwrap', bytesAt_eq_drop hclean' (by omega), hsaved.inum]

/-- The root directory, locked in a transaction. -/
def lockedRoot : State :=
  { boot rootDinode rootBitmap rootBlock with
    itable := Function.update (fun _ => ⟨0, 0, false, Dinode.zero 0⟩) rootEntry
      ⟨ROOTINO, 1, true, rootDinode ROOTINO⟩
    locked := fun e => e = rootEntry
    outstanding := 1
    ops := [[]] }

theorem lockedRoot_entry {e : Ip} (h : 0 < (lockedRoot.itable e).ref) : e = rootEntry := by
  by_contra hne
  simp [lockedRoot, Function.update_of_ne hne] at h

theorem lockedRoot_consistent : Consistent rootSb lockedRoot where
  fits := rootImage.fits
  unique e e' he he' _ := by rw [lockedRoot_entry he, lockedRoot_entry he']
  clean e he _ := by
    rw [lockedRoot_entry he]
    rfl
  typed e he _ := by
    rw [lockedRoot_entry he]
    decide
  sound := rootImage.sound
  whole := rootImage.whole

/-- Seven bytes are put over the end of the root directory. -/
theorem readi_writei_bytes_root : ∃ (tot : ℕ) (t : State),
    writei rootSb rootEntry (fun _ => some 1) 30 7 lockedRoot = .ok tot t ∧
    fileBytes t.dinode t.block ROOTINO =
      splice (fileBytes rootDinode rootBlock ROOTINO) 30 ((List.range tot).map fun _ => 1) := by
  obtain ⟨tot, t, hrun, -, -, -, hbytes, -⟩ := (readi_writei_bytes rootEntry 30 7 (fun _ => 1)
    lockedRoot_consistent (by decide) (by decide) (by decide) (by decide) (by decide) rfl).2
    (by decide)
  exact ⟨tot, t, hrun, hbytes⟩

/-! ## A source that gives out -/

/-- A file is created and two bytes are written to it. -/
def twoBytes : List Op :=
  [.call initproc (.open (some [102]) (O_CREATE ||| O_RDWR)),
    .call initproc (.write 0 2 fun _ => some 7)]

/-- A write over both bytes, of whose source only the first byte is mapped. -/
def halfMapped : Op := .writei ⟨1, by decide⟩ (fun j => if j = 0 then some 9 else none) 0 2

end Fs

/-
# Recovery from the log

`Recoverable sb disk base` is the property of a disk that survives everything:
the header block lists home blocks whose contents in `base` stand in the log
area, and all other home blocks hold `base`.  On such a disk `recover_from_log`
produces `base` (`recoverFromLog_eq`).
-/
import Xv6.Crash

open Function Bytes

/-! ## The header block -/

/-- A number in front of the stored block numbers is not changed. -/
theorem getLE_setBlocks_before (bs : List ℕ) : ∀ (d : Block) (o o' w : ℕ), o' + w ≤ o →
      getLE (setBlocks d o bs) o' w = getLE d o' w := by
  induction bs with
  | nil => intro d o o' w _; rfl
  | cons b bs ih =>
    intro d o o' w h
    rw [setBlocks, ih (setLE d o 4 b) (o + 4) o' w (by omega),
      getLE_setLE_other d o 4 b o' w (Or.inl h)]

/-- The stored block numbers are read back. -/
theorem getLE_setBlocks (bs : List ℕ) : ∀ (d : Block) (o i b : ℕ), bs[i]? = some b → b < 2 ^ 32 →
      getLE (setBlocks d o bs) (o + 4 * i) 4 = b := by
  induction bs with
  | nil => intro d o i b h _; cases h
  | cons a bs ih =>
    intro d o i b h hb
    cases i with
    | zero =>
      cases h
      rw [setBlocks, getLE_setBlocks_before bs _ _ _ _ (by omega)]
      show getLE (setLE d o 4 a) o 4 = a
      rw [getLE_setLE_same]
      exact Nat.mod_eq_of_lt hb
    | succ i =>
      rw [List.getElem?_cons_succ] at h
      rw [setBlocks, show o + 4 * (i + 1) = o + 4 + 4 * i from by ring]
      exact ih (setLE d o 4 a) (o + 4) i b h hb

/-- **What `write_head` writes `read_head` reads.** -/
theorem readHead_writeHead (d : Block) (lh : List ℕ) (hlen : lh.length < 2 ^ 31)
    (hlt : ∀ b ∈ lh, b < 2 ^ 32) : readHead (writeHead d lh) = lh := by
  have hn : getLE (writeHead d lh) 0 4 = lh.length := by
    rw [writeHead, getLE_setBlocks_before lh _ 4 0 4 le_rfl, getLE_setLE_same]
    exact Nat.mod_eq_of_lt (by norm_num; omega)
  unfold readHead
  simp only [hn, if_pos hlen]
  apply List.ext_getElem?
  intro i
  rw [List.getElem?_map]
  by_cases hi : i < lh.length
  · rw [List.getElem?_range hi, Option.map_some, List.getElem?_eq_getElem hi, writeHead,
      getLE_setBlocks lh _ 4 i lh[i] (List.getElem?_eq_getElem hi) (hlt _ (List.getElem_mem hi))]
  · rw [List.getElem?_eq_none (by simpa using hi), List.getElem?_eq_none (by simpa using hi),
      Option.map_none]

/-- The block numbers `read_head` reads are 32-bit words, and fewer than
`2^31`. -/
theorem readHead_bounds (d : Block) :
    (readHead d).length < 2 ^ 31 ∧ ∀ b ∈ readHead d, b < 2 ^ 32 := by
  unfold readHead
  constructor
  · simp only [List.length_map, List.length_range]
    split_ifs with h
    · exact h
    · norm_num
  · intro b hb
    obtain ⟨i, -, rfl⟩ := List.mem_map.mp hb
    exact getLE_lt d 4 (4 + 4 * i)

/-! ## Recovery on a disk -/

/-- A disk from which recovery produces `base`. -/
structure Recoverable (sb : Superblock) (disk base : Disk) : Prop where
  nodup : (readHead (disk sb.logstart)).Nodup
  home : ∀ b ∈ readHead (disk sb.logstart), Crash.Home sb b
  fits : (readHead (disk sb.logstart)).length ≤ sb.nlog - 1
  slots : ∀ i b, (readHead (disk sb.logstart))[i]? = some b →
    disk (sb.logstart + i + 1) = base b
  others : ∀ b, Crash.Home sb b → b ∉ readHead (disk sb.logstart) → disk b = base b

/-- `install_trans` copies the blocks of the log to their homes and leaves the
other home blocks alone. -/
theorem installTrans_eq (sb : Superblock) (base : Disk) (bs : List ℕ) :
    ∀ (tail : ℕ) (d : Disk), (∀ b ∈ bs, Crash.Home sb b) → tail + bs.length ≤ sb.nlog - 1 →
      (∀ i b, bs[i]? = some b → d (sb.logstart + (tail + i) + 1) = base b) →
      ∀ x, Crash.Home sb x → installTrans sb.logstart tail bs d x
        = if x ∈ bs then base x else d x := by
  induction bs with
  | nil => intro tail d _ _ _ x _; simp [installTrans]
  | cons b bs ih =>
    intro tail d hhome hfits hslots x hx
    have hb : Crash.Home sb b := hhome b List.mem_cons_self
    have hval : d (sb.logstart + tail + 1) = base b := by
      have := hslots 0 b rfl
      rwa [Nat.add_zero] at this
    rw [List.length_cons] at hfits
    -- the store to a home block does not touch the log area
    have hslots' : ∀ i c, bs[i]? = some c →
        update d b (d (sb.logstart + tail + 1)) (sb.logstart + (tail + 1 + i) + 1)
          = base c := by
      intro i c hc
      have hi : i < bs.length := (List.getElem?_eq_some_iff.mp hc).1
      have hne : sb.logstart + (tail + 1 + i) + 1 ≠ b := by
        rcases hb with h | h <;> omega
      rw [update_of_ne hne, show tail + 1 + i = tail + (i + 1) from by omega]
      exact hslots (i + 1) c hc
    rw [installTrans, ih (tail + 1) _ (fun c hc => hhome c (List.mem_cons_of_mem b hc))
      (by omega) hslots' x hx, hval]
    by_cases hxb : x = b
    · subst hxb
      rw [update_self, ite_self, if_pos List.mem_cons_self]
    · rw [update_of_ne hxb]
      simp only [List.mem_cons, hxb, false_or]

variable {disk base : Disk} {b i : ℕ}

/-- **Recovery of a recoverable disk.** -/
theorem recoverFromLog_eq {sb : Superblock} (hlog : 0 < sb.nlog) (h : Recoverable sb disk base)
    (hb : Crash.Home sb b) : recoverFromLog sb disk b = base b := by
  have hne : b ≠ sb.logstart := by
    rcases hb with h | h <;> omega
  unfold recoverFromLog
  rw [update_of_ne hne, installTrans_eq sb base _ 0 disk h.home (by have := h.fits; omega)
    (fun i c hc => by rw [Nat.zero_add]; exact h.slots i c hc) b hb]
  split_ifs with hmem
  · rfl
  · exact h.others b hb hmem

namespace Crash

variable {sb : Superblock}

/-! ## Writes that keep a disk recoverable -/

/-- The blocks of the log area are not home blocks. -/
theorem not_home_slot (hi : i < sb.nlog - 1) : ¬ Home sb (sb.logstart + i + 1) := by
  rintro (h | h) <;> omega

theorem ne_logstart (hlog : 0 < sb.nlog) (hb : Home sb b) : b ≠ sb.logstart := by
  rcases hb with h | h <;> omega

/-- A write into the log area, not to the header, leaves a disk with a cleared
header recoverable. -/
theorem recoverable_writeSlot (h : Recoverable sb disk base)
    (hhead : readHead (disk sb.logstart) = []) (hi : i < sb.nlog - 1) (d : Block) :
    Recoverable sb (update disk (sb.logstart + i + 1) d) base := by
  have hsame : update disk (sb.logstart + i + 1) d sb.logstart = disk sb.logstart :=
    update_of_ne (by omega) _ _
  refine ⟨?_, ?_, ?_, ?_, ?_⟩
  · rw [hsame]
    exact h.nodup
  · rw [hsame]
    exact h.home
  · rw [hsame]
    exact h.fits
  · intro j b hj
    rw [hsame, hhead] at hj
    cases hj
  · intro b hb hnot
    rw [hsame] at hnot
    have hne : b ≠ sb.logstart + i + 1 := fun heq => not_home_slot hi (heq ▸ hb)
    rw [update_of_ne hne]
    exact h.others b hb hnot

/-- A write of the right content to a home block leaves the disk recoverable. -/
theorem recoverable_writeHome (h : Recoverable sb disk base) (hlog : 0 < sb.nlog) (hb : Home sb b) :
    Recoverable sb (update disk b (base b)) base := by
  have hsame : update disk b (base b) sb.logstart = disk sb.logstart :=
    update_of_ne (ne_logstart hlog hb).symm _ _
  refine ⟨?_, ?_, ?_, ?_, ?_⟩
  · rw [hsame]
    exact h.nodup
  · rw [hsame]
    exact h.home
  · rw [hsame]
    exact h.fits
  · intro i c hi
    rw [hsame] at hi
    have hlt : i < sb.nlog - 1 :=
      lt_of_lt_of_le (List.getElem?_eq_some_iff.mp hi).1 h.fits
    have hne : sb.logstart + i + 1 ≠ b := fun heq => not_home_slot hlt (heq ▸ hb)
    rw [update_of_ne hne]
    exact h.slots i c hi
  · intro c hc hnot
    rw [hsame] at hnot
    by_cases hcb : c = b
    · rw [hcb, update_self]
    · rw [update_of_ne hcb]
      exact h.others c hc hnot

/-- Clearing the header is right once all home blocks hold their content. -/
theorem recoverable_clear (hlog : 0 < sb.nlog) (hall : ∀ b, Home sb b → disk b = base b)
    (d : Block) : Recoverable sb (update disk sb.logstart (writeHead d [])) base := by
  have hhead : readHead (update disk sb.logstart (writeHead d []) sb.logstart) = [] := by
    rw [update_self]
    exact readHead_writeHead d [] (by norm_num) (fun b hb => by cases hb)
  refine ⟨?_, ?_, ?_, ?_, ?_⟩
  · rw [hhead]
    exact List.nodup_nil
  · rw [hhead]
    intro b hb
    cases hb
  · rw [hhead]
    exact Nat.zero_le _
  · rw [hhead]
    intro i b hi
    cases hi
  · intro b hb _
    rw [update_of_ne (ne_logstart hlog hb)]
    exact hall b hb

end Crash

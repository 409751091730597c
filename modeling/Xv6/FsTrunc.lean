/-
# Reading and truncating inodes

`readi` of a file without holes changes nothing, not even outside an operation, and
returns the bytes of the file.  `itrunc` frees every block of the inode, each of them
taken, and leaves the inode on disk without references.
-/
import Xv6.FsContent

namespace Fs

open Function Hoare

variable {sb : Superblock} {e : Ip} {s t : State} {b k : ℕ}

/-! ## readi -/

theorem byteAt_eq (s : State) (e : Ip) (j : ℕ) : byteAt s e j =
    s.block (place (s.itable e).d s.block (home (j / BSIZE))) (j % BSIZE) := by
  unfold byteAt content
  rw [cur_self]

/-- The bytes `[off, off + n)` of a file. -/
def bytesAt (s : State) (e : Ip) (off n : ℕ) : List UInt8 :=
  (List.range n).map fun j => byteAt s e (off + j)

theorem bytesAt_add (off a b : ℕ) :
    bytesAt s e off (a + b) = bytesAt s e off a ++ bytesAt s e (off + a) b := by
  simp only [bytesAt, List.range_add, List.map_append, List.map_map]
  congr 1
  apply List.map_congr_left
  intro j _
  simp only [Function.comp_apply, Nat.add_assoc]

variable {off i : ℕ} {D : ℕ → Dinode} {blk : ℕ → ℕ → UInt8}

/-- The bytes of one block. -/
theorem bytesAt_chunk {c : ℕ} (hc : off % BSIZE + c ≤ BSIZE) : ((List.range c).map fun j =>
      s.block (place (s.itable e).d s.block (home (off / BSIZE))) (off % BSIZE + j)) =
    bytesAt s e off c := by
  apply List.map_congr_left
  intro j hj
  have := List.mem_range.mp hj
  rw [byteAt_eq, div_of_same_block (by omega), mod_of_same_block (by omega)]

theorem readLoop_ok (sb : Superblock) (ok : ℕ → Bool) (n fuel : ℕ) : ∀ tot off bytes, tot ≤ n → n - tot ≤ fuel →
    (∀ j, j < n - tot → Has s e (off + j)) →
    ∃ r bs, readLoop sb e ok fuel tot off n bytes s = .ok (r, bs) s ∧
      (ok = always → r = n ∧ bs = bytes ++ bytesAt s e off (n - tot)) := by
  induction fuel with
  | zero =>
    intro tot off bytes htot hfuel _
    have hn : n - tot = 0 := by omega
    refine ⟨tot, bytes, rfl, fun _ => ⟨by omega, ?_⟩⟩
    rw [hn]
    simp [bytesAt]
  | succ fuel ih =>
    intro tot off bytes htot hfuel hhas
    unfold readLoop
    by_cases hlt : tot < n
    swap
    · rw [if_neg hlt]
      have hn : n - tot = 0 := by omega
      refine ⟨tot, bytes, rfl, fun _ => ⟨by omega, ?_⟩⟩
      rw [hn]
      simp [bytesAt]
    have hoff : Has s e off := hhas 0 (by omega)
    have hchunk := chunk_le tot off n
    have hpos := chunk_pos off hlt
    have hcn : chunk tot off n ≤ n - tot := Nat.min_le_left _ _
    rw [if_pos hlt, bind_of_ok (bmap_here sb hoff), if_neg hoff,
      bind_of_ok (rfl : readBlock _ s = .ok _ s)]
    by_cases hok : ok tot = false
    · rw [if_pos hok]
      refine ⟨-1, bytes, rfl, ?_⟩
      rintro rfl
      cases hok
    · rw [if_neg hok]
      obtain ⟨r, bs, hrun, hres⟩ := ih (tot + chunk tot off n) (off + chunk tot off n)
        (bytes ++ bytesAt s e off (chunk tot off n)) (by omega) (by omega) fun j hj => by
          rw [Nat.add_assoc]
          exact hhas _ (by omega)
      rw [bytesAt_chunk hchunk]
      refine ⟨r, bs, hrun, fun h => ⟨(hres h).1, ?_⟩⟩
      rw [(hres h).2, List.append_assoc, ← bytesAt_add,
        show chunk tot off n + (n - (tot + chunk tot off n)) = n - tot by omega]

/-- **`readi`** of a file without holes leaves the state alone. -/
theorem readi_ok (sb : Superblock) (ok : ℕ → Bool) (off n : ℕ)
    (hhas : ∀ j, j < (s.itable e).d.size → Has s e j) :
    ∃ r bs, readi sb e ok off n s = .ok (r, bs) s := by
  unfold readi
  rw [inode_bind]
  by_cases hoff : (s.itable e).d.size < off ∨ (off + n) % 2 ^ 32 < off
  · rw [if_pos hoff]
    exact ⟨0, [], rfl⟩
  rw [if_neg hoff]
  by_cases hn : (s.itable e).d.size < off + n
  · rw [if_pos hn]
    obtain ⟨r, bs, hrun, -⟩ := readLoop_ok sb ok ((s.itable e).d.size - off)
      ((s.itable e).d.size - off) 0 off [] (Nat.zero_le _) le_rfl
      fun j hj => hhas _ (by omega)
    exact ⟨r, bs, hrun⟩
  · rw [if_neg hn]
    obtain ⟨r, bs, hrun, -⟩ := readLoop_ok sb ok n n 0 off [] (Nat.zero_le _) le_rfl
      fun j hj => hhas _ (by omega)
    exact ⟨r, bs, hrun⟩

/-- **`readi`** into the kernel returns the bytes of the file. -/
theorem readi_bytes {n : ℕ} (hhas : ∀ j, j < (s.itable e).d.size → Has s e j)
    (hoff : off ≤ (s.itable e).d.size) (hwrap : off + n < 2 ^ 32) : readi sb e always off n s =
      .ok ((min n ((s.itable e).d.size - off) : ℕ),
        bytesAt s e off (min n ((s.itable e).d.size - off))) s := by
  have hloop : ∀ m, off + m ≤ (s.itable e).d.size →
      readLoop sb e always m 0 off m [] s = .ok ((m : ℤ), bytesAt s e off m) s := by
    intro m hm
    obtain ⟨r, bs, hrun, hres⟩ := readLoop_ok (s := s) (e := e) sb always m m 0 off []
      (Nat.zero_le _) le_rfl fun j hj => hhas _ (by omega)
    obtain ⟨rfl, rfl⟩ := hres rfl
    rw [hrun, Nat.sub_zero, List.nil_append]
  unfold readi
  rw [inode_bind,
    if_neg (by rw [Nat.mod_eq_of_lt hwrap]; omega)]
  by_cases hn : (s.itable e).d.size < off + n
  · rw [if_pos hn, hloop _ (by omega), Nat.min_eq_right (by omega)]
  · rw [if_neg hn, hloop _ (by omega), Nat.min_eq_left (by omega)]

/-! ## itrunc -/

/-- An address is cleared and its block freed. -/
theorem Work.dropAddr (h : Work sb e s) (hk : k < NDIRECT) (hne : (s.itable e).d.addrs k ≠ 0)
    {t : State} {l : List (List Target)} (ht : t = { s with
      bitmap := update s.bitmap ((s.itable e).d.addrs k) false
      itable := update s.itable e
        { s.itable e with d := (s.itable e).d.setAddr k 0 }
      ops := l }) : Work sb e t := by
  have htype := h.cur_type
  have hcur : cur t e = update (cur s e) (s.itable e).inum
      ((cur s e (s.itable e).inum).setAddr k 0) := by
    simp [ht, cur]
  have hx : refs (cur s e) s.block ((s.itable e).inum, .addr k) = (s.itable e).d.addrs k := by
    rw [refs_of_type htype, place_addr _ hk.le, cur_self]
  refine ⟨h.fits, ?_, ?_, ?_⟩
  · simpa [ht, Dinode.setAddr] using h.type
  · rw [ht]
    exact h.op
  · have hdrop := h.sound.drop (hx ▸ hne)
    rw [hx] at hdrop
    show Ledger.Exact _ _ (refs (cur t e) t.block) t.bitmap
    rw [hcur, ht]
    simp only
    rw [refs_setDirect htype hk]
    exact hdrop

/-- The bit of an address is set. -/
theorem Work.bit_addr (h : Work sb e s) (hk : k ≤ NDIRECT) (hne : (s.itable e).d.addrs k ≠ 0) :
    s.bitmap ((s.itable e).d.addrs k) = true := by
  have hx : refs (cur s e) s.block ((s.itable e).inum, .addr k) = (s.itable e).d.addrs k := by
    rw [refs_of_type h.cur_type, place_addr _ hk, cur_self]
  rw [← hx]
  apply h.sound.bit_of_ref
  rw [hx]
  exact hne

theorem truncDirect_ok (n : ℕ) : ∀ k s, k + n = NDIRECT → Work sb e s →
    ∃ t, truncDirect e n k s = .ok () t ∧ Work sb e t ∧ t.block = s.block ∧
      ∃ f, (t.itable e).d = { (s.itable e).d with addrs := f } ∧
        (∀ k', k ≤ k' → k' < NDIRECT → f k' = 0) ∧ f NDIRECT = (s.itable e).d.addrs NDIRECT ∧
        ∀ k', k' < k → f k' = (s.itable e).d.addrs k' := by
  induction n with
  | zero =>
    intro k s hk h
    exact ⟨s, rfl, h, rfl, (s.itable e).d.addrs, rfl, fun k' h1 h2 => by omega, rfl, fun _ _ => rfl⟩
  | succ n ih =>
    intro k s hk h
    unfold truncDirect
    rw [inode_bind]
    by_cases hne : (s.itable e).d.addrs k ≠ 0
    · rw [if_pos hne, bind_of_ok (bfree_ok h.op (h.bit_addr (by omega) hne)),
        bind_of_ok (rfl : Fs.setAddr e k 0 _ = .ok () _)]
      have hwork := h.dropAddr (l := noteLog (.bit ((s.itable e).d.addrs k)) s.ops) (by omega) hne
        rfl
      obtain ⟨t, hrun, hwork', hblock, f, hf, hzero, hlast, hlow⟩ := ih (k + 1) _ (by omega) hwork
      refine ⟨t, hrun, hwork', hblock, f, ?_, ?_, ?_, ?_⟩
      · rw [hf]
        simp [Dinode.setAddr]
      · intro k' h1 h2
        rcases Nat.lt_or_eq_of_le h1 with hlt | rfl
        · exact hzero k' hlt h2
        · rw [hlow k (by omega)]
          simp [Dinode.setAddr]
      · rw [hlast]
        have : NDIRECT ≠ k := by omega
        simp [Dinode.setAddr, this]
      · intro k' hk'
        rw [hlow k' (by omega)]
        have : k' ≠ k := by omega
        simp [Dinode.setAddr, this]
    · rw [if_neg hne]
      obtain ⟨t, hrun, hwork', hblock, f, hf, hzero, hlast, hlow⟩ := ih (k + 1) s (by omega) h
      refine ⟨t, hrun, hwork', hblock, f, hf, ?_, hlast, fun k' hk' => hlow k' (by omega)⟩
      intro k' h1 h2
      rcases Nat.lt_or_eq_of_le h1 with hlt | rfl
      · exact hzero k' hlt h2
      · rw [hlow k (by omega)]
        exact not_not.mp hne

/-- References without the first `m` entries of the indirect block of `i`. -/
def dropLeaves (R : ℕ × Place → ℕ) (i m : ℕ) : ℕ × Place → ℕ
  | (i', .addr k) => R (i', .addr k)
  | (i', .leaf j) => if i' = i ∧ j < m then 0 else R (i', .leaf j)

theorem dropLeaves_zero (R : ℕ × Place → ℕ) (i : ℕ) : dropLeaves R i 0 = R := by
  funext ⟨i', p⟩
  cases p <;> simp [dropLeaves]

theorem dropLeaves_succ (R : ℕ × Place → ℕ) (i m : ℕ) :
    dropLeaves R i (m + 1) = update (dropLeaves R i m) (i, .leaf m) 0 := by
  funext ⟨i', p⟩
  cases p with
  | addr k => rw [update_of_ne (by simp)]; rfl
  | leaf j =>
    by_cases hx : i' = i ∧ j = m
    · obtain ⟨rfl, rfl⟩ := hx
      simp [dropLeaves]
    · have hne : (i', Place.leaf j) ≠ (i, Place.leaf m) := by simpa using hx
      rw [update_of_ne hne]
      simp only [dropLeaves]
      congr 1
      apply propext
      constructor <;> rintro ⟨h1, h2⟩ <;> refine ⟨h1, ?_⟩ <;> omega

/-- **The entries of an indirect block are freed** one by one. -/
theorem truncIndirect_ok {lo hi : ℕ} {R : ℕ × Place → ℕ} {a : ℕ → UInt8}
    (ha : ∀ j, j < NINDIRECT → R (i, .leaf j) = entry a j) (n : ℕ) :
    ∀ m s, m + n = NINDIRECT → 1 ≤ s.outstanding → Ledger.Exact lo hi (dropLeaves R i m) s.bitmap →
      ∃ bm l, truncIndirect a n m s = .ok () { s with bitmap := bm, ops := l } ∧
        Ledger.Exact lo hi (dropLeaves R i NINDIRECT) bm := by
  induction n with
  | zero =>
    intro m s hm _ h
    refine ⟨s.bitmap, s.ops, rfl, ?_⟩
    rw [← hm]
    exact h
  | succ n ih =>
    intro m s hm hop h
    have hval : dropLeaves R i m (i, .leaf m) = entry a m := by
      rw [← ha m (by omega)]
      simp [dropLeaves]
    unfold truncIndirect
    by_cases hne : entry a m ≠ 0
    · have hbit := h.bit_of_ref (hval ▸ hne)
      have hdrop := h.drop (hval ▸ hne)
      rw [hval] at hbit hdrop
      rw [if_pos hne, bind_of_ok (bfree_ok hop hbit)]
      rw [← dropLeaves_succ] at hdrop
      exact ih (m + 1) { s with
        bitmap := update s.bitmap (entry a m) false
        ops := noteLog (.bit (entry a m)) s.ops } (by omega) hop hdrop
    · rw [if_neg hne]
      apply ih (m + 1) s (by omega) hop
      rw [dropLeaves_succ, update_eq_self_iff.mpr]
      · exact h
      · rw [hval]
        exact (not_not.mp hne).symm

/-- Clearing the address of the indirect block drops the references in it too. -/
theorem refs_dropIndirect (htype : (D i).type ≠ 0) :
    refs (update D i ((D i).setAddr NDIRECT 0)) blk =
      update (dropLeaves (refs D blk) i NINDIRECT) (i, .addr NDIRECT) 0 := by
  funext ⟨m, p⟩
  by_cases hm : m = i
  · subst hm
    rw [refs_of_type (by simpa [Dinode.setAddr] using htype), update_self]
    cases p with
    | addr k =>
      by_cases hk : k = NDIRECT
      · subst hk
        simp [place, Dinode.setAddr]
      · rw [update_of_ne (by simpa using hk)]
        simp only [dropLeaves]
        rw [refs_of_type htype]
        simp [place, Dinode.setAddr, hk]
    | leaf j =>
      rw [update_of_ne (by simp)]
      simp only [dropLeaves, true_and]
      split
      · simp [place, Dinode.setAddr]
      · rw [refs_of_type htype]
        simp [place, Dinode.setAddr, *]
  · have hne : (m, p) ≠ (i, Place.addr NDIRECT) := fun h => hm (congrArg Prod.fst h)
    rw [update_of_ne hne]
    cases p <;> simp [dropLeaves, refs, hm]

/-- What `itrunc` has done: the inode has no blocks, on disk and in the table. -/
structure Emptied (sb : Superblock) (e : Ip) (s t : State) : Prop where
  body : Body e s t
  block : t.block = s.block
  clean : t.dinode (s.itable e).inum = (t.itable e).d
  sound : Sound sb t.dinode t.bitmap t.block
  shape : ∃ f, (t.itable e).d = { (s.itable e).d with addrs := f, size := 0 } ∧
    ∀ k, k ≤ NDIRECT → f k = 0

/-- An inode without addresses refers to nothing. -/
theorem place_eq_zero {d : Dinode} (h : ∀ k, k ≤ NDIRECT → d.addrs k = 0)
    (p : Place) : place d blk p = 0 := by
  cases p with
  | addr k =>
    simp only [place]
    split
    · exact h k ‹_›
    · rfl
  | leaf j => exact if_neg fun hc => hc.1 (h NDIRECT le_rfl)

theorem Sound.congr {D' : ℕ → Dinode} {bm : ℕ → Bool} (h : Sound sb D bm blk)
    (hrefs : refs D' blk = refs D blk) : Sound sb D' bm blk := by
  show Ledger.Exact _ _ (refs D' blk) bm
  rw [hrefs]
  exact h

/-- The end of `itrunc`: the size is set and the inode written. -/
theorem emptied_of_work (h : Work sb e t) (hbody : Body e s t) (hblock : t.block = s.block)
    {f : ℕ → ℕ} (hd : (t.itable e).d = { (s.itable e).d with addrs := f })
    (hf : ∀ k, k ≤ NDIRECT → f k = 0) :
    ∃ u, (edit e (fun d => { d with size := 0 }) >>= fun _ => iupdate e) t = .ok () u ∧
      Emptied sb e s u := by
  rw [bind_of_ok (rfl : edit e _ t = .ok () _), iupdate_ok (by exact h.op)]
  have hcur : cur { t with
        itable := update t.itable e
          { t.itable e with d := { (t.itable e).d with size := 0 } } } e =
      resize (cur t e) (t.itable e).inum 0 := by
    unfold resize
    rw [cur_self]
    simp only [cur, update_idem, update_self]
  refine ⟨_, rfl, ?_, hblock, ?_, ?_, f, ?_, hf⟩
  · apply hbody.trans
    constructor
    case others => exact fun e' he' => update_of_ne he' _ _
    case disk =>
      intro i hi
      simp only [cur, update_self]
      exact update_of_ne hi _ _
    all_goals simp
  · simp [cur, hbody.inum]
  · apply h.sound.congr
    simp only
    rw [hcur, refs_resize]
  · simp [hd]

/-- **`itrunc`** frees every block of the inode. -/
theorem itrunc_ok (h : Work sb e s) : ∃ t, itrunc e s = .ok () t ∧ Emptied sb e s t := by
  unfold itrunc
  obtain ⟨t, hrun, hwork, hblock, f, hd, hzero, hlast, -⟩ := truncDirect_ok NDIRECT 0 s rfl h
  have hbody := (truncDirect_onBody NDIRECT 0).ok hrun
  rw [bind_of_ok hrun, inode_bind]
  have haddrs : (t.itable e).d.addrs = f := by rw [hd]
  by_cases hc : (t.itable e).d.addrs NDIRECT ≠ 0
  · have htype := hwork.cur_type
    have hleaf : ∀ j, j < NINDIRECT → refs (cur t e) t.block ((t.itable e).inum, .leaf j) =
        entry (t.block ((t.itable e).d.addrs NDIRECT)) j := by
      intro j hj
      rw [refs_of_type htype, cur_self, place_leaf hc hj]
    obtain ⟨bm, l, hrun', hexact⟩ := truncIndirect_ok hleaf NINDIRECT 0 t (Nat.zero_add _) hwork.op
      (by rw [dropLeaves_zero]; exact hwork.sound)
    have hind : dropLeaves (refs (cur t e) t.block) (t.itable e).inum NINDIRECT
        ((t.itable e).inum, .addr NDIRECT) = (t.itable e).d.addrs NDIRECT := by
      simp only [dropLeaves]
      rw [refs_indirect htype, cur_self]
    have hbit := hexact.bit_of_ref (hind ▸ hc)
    have hdrop := hexact.drop (hind ▸ hc)
    rw [hind] at hbit hdrop
    have hbfree := bfree_ok (s := { t with bitmap := bm, ops := l }) hwork.op hbit
    rw [if_pos hc, bind_of_ok (rfl : readBlock _ t = .ok _ t), bind_of_ok hrun',
      bind_of_ok hbfree]
    have hbody' := (hbody.trans ((truncIndirect_onBody _ _ _).ok hrun')).trans
      ((bfree_onBody _).ok hbfree)
    have hedit : OnBody e (edit e fun d => d.setAddr NDIRECT 0) := edit_onBody _
    have hset := hedit.ok (rfl : edit e _ { t with
      bitmap := update bm ((t.itable e).d.addrs NDIRECT) false
      ops := noteLog (.bit ((t.itable e).d.addrs NDIRECT)) l } = .ok () _)
    refine emptied_of_work ⟨h.fits, ?_, ?_, ?_⟩ (hbody'.trans hset) hblock
      (f := update f NDIRECT 0) ?_ ?_
    · simpa [Dinode.setAddr] using hwork.type
    · exact hwork.op
    · rw [← refs_dropIndirect htype, cur_self, ← cur_edit _ _
        (noteLog (.bit ((t.itable e).d.addrs NDIRECT)) l)] at hdrop
      exact hdrop
    · simp [hd]
    · intro k hk
      rcases Nat.lt_or_eq_of_le hk with hlt | rfl
      · rw [update_of_ne (by omega)]
        exact hzero k (Nat.zero_le k) hlt
      · exact update_self _ _ _
  · rw [if_neg hc]
    apply emptied_of_work hwork hbody hblock hd
    intro k hk
    rcases Nat.lt_or_eq_of_le hk with hlt | rfl
    · exact hzero k (Nat.zero_le k) hlt
    · rw [← haddrs]
      exact not_not.mp hc

/-- **`ifree`** leaves a free inode. -/
theorem ifree_ok (h : Work sb e s) : ∃ t, ifree e s = .ok () t ∧ t.block = s.block ∧
    (t.dinode (s.itable e).inum).type = 0 ∧ Sound sb t.dinode t.bitmap t.block := by
  obtain ⟨t, hrun, hempty⟩ := itrunc_ok h
  obtain ⟨f, hd, hf⟩ := hempty.shape
  have hinum := hempty.body.inum
  have hop : 1 ≤ t.outstanding := by
    rw [hempty.body.outstanding]
    exact h.op
  unfold ifree
  rw [bind_of_ok hrun, bind_of_ok (rfl : edit e _ t = .ok () _), iupdate_ok (by exact hop)]
  refine ⟨_, rfl, hempty.block, ?_, ?_⟩
  · simp [cur, hinum]
  · apply hempty.sound.congr
    funext x
    obtain ⟨m, p⟩ := x
    by_cases hm : m = (s.itable e).inum
    · -- the inode had lost its references before it lost its type
      have hzero : refs t.dinode t.block (m, p) = 0 := by
        unfold refs
        rw [hm, hempty.clean, hd]
        split
        · rfl
        · exact place_eq_zero hf p
      rw [hzero]
      apply if_pos
      simp [cur, hinum, hm]
    · simp [refs, cur, hinum, hm]

end Fs

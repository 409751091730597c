/-
# Reading, writing and truncating inodes

`balloc`, `bfree`, `bmap`, `itrunc`, `readi` and `writei` on a file system whose
references and free map agree.  Inside an operation none of them panics, each keeps the
agreement, and what they do to the bytes of the files is said in terms of `content`.
`readi` of bytes that the file has changes nothing, inside an operation or not.

While an inode is worked on, its copy in the table is ahead of the disk; `cur` is the
inodes with that copy.
-/
import Xv6.FsBlocks
import Xv6.FsFrame

namespace Fs

open Function Hoare

variable {sb : Superblock} {e : Ip} {s t : State} {b k bn : ℕ}

/-! ## The inode that is worked on -/

/-- The inodes, with the one of entry `e` from the table. -/
def cur (s : State) (e : Ip) : ℕ → Dinode :=
  update s.dinode (s.itable e).inum (s.itable e).d

@[simp] theorem cur_self : cur s e (s.itable e).inum = (s.itable e).d :=
  update_self _ _ _

theorem cur_of_eq {i : ℕ} (h : (s.itable e).inum = i) : cur s e i = (s.itable e).d := by
  rw [← h, cur_self]

theorem cur_edit (bm : ℕ → Bool) (blk : ℕ → ℕ → UInt8) (l : List (List Target)) (d : Dinode) :
    cur { s with
        bitmap := bm
        block := blk
        ops := l
        itable := update s.itable e { s.itable e with d } } e =
      update (cur s e) (s.itable e).inum d := by
  simp [cur]

/-- An operation works on an allocated inode of a sound file system. -/
structure Work (sb : Superblock) (e : Ip) (s : State) : Prop where
  fits : sb.size ≤ 2 ^ 32
  type : (s.itable e).d.type ≠ 0
  op : 1 ≤ s.outstanding
  sound : Sound sb (cur s e) s.bitmap s.block

theorem Work.cur_type (h : Work sb e s) : (cur s e (s.itable e).inum).type ≠ 0 := by
  rw [cur_self]
  exact h.type

variable {α : Type} {c a j tot m n z off : ℕ} {u : State} {l : List (List Target)}
    {src : ℕ → Option UInt8}

theorem OnBody.ok {c : FsM α} {a : α} (h : OnBody e c) (hc : c s = .ok a t) : Body e s t := by
  have := h s
  rw [hc] at this
  exact this

theorem logWrite_ok (x : Target) (h : 1 ≤ s.outstanding) :
    logWrite x s = .ok () { s with ops := noteLog x s.ops } := by
  unfold logWrite
  exact if_neg (by omega)

theorem logBlock_ok (h : 1 ≤ s.outstanding) :
    logBlock b s = .ok () { s with
      unlogged := update s.unlogged b false
      ops := noteLog (.data b) s.ops } := by
  unfold logBlock
  exact if_neg (by omega)

/-- Every data block that was changed in between has been logged. -/
def Logged (s t : State) : Prop := ∀ b, t.unlogged b = true → s.unlogged b = true

theorem Logged.trans (h : Logged s t) (h' : Logged t u) : Logged s u :=
  fun b hb => h b (h' b hb)

/-- A block that is changed and then logged. -/
theorem Logged.of_log {f : ℕ → Bool} (hf : ∀ c, c ≠ b → f c = true → s.unlogged c = true)
    (ht : t.unlogged = update f b false) : Logged s t := by
  intro c hc
  rw [ht] at hc
  by_cases hcb : c = b
  · rw [hcb, update_self] at hc
    exact absurd hc (by decide)
  · rw [update_of_ne hcb] at hc
    exact hf c hcb hc

/-! ## The free map -/

/-- No block is free. -/
def NoneFree (sb : Superblock) (s : State) : Prop := ∀ b, b < sb.size → s.bitmap b = true

/-- **`balloc`** finds nothing, or takes and clears a free block. -/
theorem balloc_ok (h : Work sb e s) : (balloc sb s = .ok 0 s ∧ NoneFree sb s) ∨
    ∃ b, b < sb.size ∧ s.bitmap b = false ∧ b ≠ 0 ∧
      balloc sb s = .ok b { s with
        bitmap := update s.bitmap b true
        block := update s.block b fun _ => 0
        unlogged := update s.unlogged b false
        ops := noteLog (.data b) (noteLog (.bit b) s.ops) } := by
  have hop := h.op
  unfold balloc
  rw [bind_of_ok (rfl : freeBit sb s = .ok _ s)]
  cases hfind : (List.range sb.size).find? fun b => !s.bitmap b with
  | none =>
    refine Or.inl ⟨rfl, fun b hb => ?_⟩
    simpa using List.find?_eq_none.mp hfind b (List.mem_range.mpr hb)
  | some b =>
    have hlt : b < sb.size := List.mem_range.mp (List.mem_of_find?_eq_some hfind)
    have hfree : s.bitmap b = false := by simpa using List.find?_some hfind
    have hlo := h.sound.lo_le hlt hfree
    have hpos := h.sound.pos
    refine Or.inr ⟨b, hlt, hfree, by omega, ?_⟩
    unfold setBit bzero setBlock logWrite logBlock
    simp only [bind, EStateM.bind, pure, EStateM.pure]
    rw [if_neg (by omega)]
    simp only
    rw [if_neg (by exact not_lt.mpr hop)]
    simp only [update_idem]

/-- **`bfree`** of a taken block. -/
theorem bfree_ok (hop : 1 ≤ s.outstanding) (hb : s.bitmap b = true) :
    bfree b s = .ok () { s with
      bitmap := update s.bitmap b false
      ops := noteLog (.bit b) s.ops } := by
  unfold bfree
  rw [bind_of_ok (rfl : bit b s = .ok _ s), if_neg (by rw [hb]; simp)]
  rw [bind_of_ok (rfl : setBit b false s = .ok () _)]
  exact logWrite_ok _ hop

/-! ## bmap -/

/-- **`bmap`** of a block that the file has. -/
theorem bmap_here (sb : Superblock) (h : place (s.itable e).d s.block (home bn) ≠ 0) :
    bmap sb e bn s = .ok (place (s.itable e).d s.block (home bn)) s := by
  by_cases hbn : bn < NDIRECT
  · simp only [bmap, home, if_pos hbn] at h ⊢
    rw [place_addr _ hbn.le] at h ⊢
    unfold bmapDirect
    rw [inode_bind, if_neg h]
    rfl
  · simp only [bmap, home, if_neg hbn] at h ⊢
    have hleaf : (s.itable e).d.addrs NDIRECT ≠ 0 ∧ bn - NDIRECT < NINDIRECT := by
      by_contra hno
      exact h (if_neg hno)
    rw [place_leaf hleaf.1 hleaf.2] at h ⊢
    have hdirect : bmapDirect sb e NDIRECT s = .ok ((s.itable e).d.addrs NDIRECT) s := by
      unfold bmapDirect
      rw [inode_bind, if_neg hleaf.1]
      rfl
    rw [if_pos hleaf.2, bind_of_ok hdirect, if_neg hleaf.1]
    unfold bmapIndirect
    rw [bind_of_ok (rfl : readBlock _ s = .ok _ s), if_neg h]
    rfl

theorem entry_zero (j : ℕ) : entry (fun _ => 0) j = 0 := rfl

/-- What a step of `bmap` does: the inode may have got blocks. -/
structure Grown (sb : Superblock) (e : Ip) (s t : State) : Prop where
  work : Work sb e t
  body : Body e s t
  size : (t.itable e).d.size = (s.itable e).d.size
  wrote : ∀ a, Wrote (s.itable e).inum a a (cur s e) s.block (cur t e) t.block
  logged : Logged s t

theorem Grown.refl (h : Work sb e s) : Grown sb e s s :=
  ⟨h, Body.refl e s, rfl, fun a => Wrote.refl _ a _ _, fun _ hb => hb⟩

theorem Grown.trans (h : Grown sb e s t) (h' : Grown sb e t u) : Grown sb e s u where
  work := h'.work
  body := h.body.trans h'.body
  size := h'.size.trans h.size
  wrote a := (h.wrote a).trans (h.body.inum ▸ h'.wrote a)
  logged := h.logged.trans h'.logged

/-- The address `k` of the inode is set to a block that has just been taken. -/
theorem Work.setAddr (h : Work sb e s) (hk : k ≤ NDIRECT) (hzero : (s.itable e).d.addrs k = 0)
    (hb : b < sb.size) (hfree : s.bitmap b = false) {t : State} (ht : t = { s with
      bitmap := update s.bitmap b true
      block := update s.block b fun _ => 0
      itable := update s.itable e
        { s.itable e with d := (s.itable e).d.setAddr k b }
      unlogged := update s.unlogged b false
      ops := l }) : Grown sb e s t := by
  have htype := h.cur_type
  have hinum : (t.itable e).inum = (s.itable e).inum := by simp [ht]
  have hcur : cur t e = update (cur s e) (s.itable e).inum
      ((cur s e (s.itable e).inum).setAddr k b) := by
    simp [ht, cur]
  have hintact := intact_of_free h.sound hb hfree fun _ => 0
  have hrefs : refs (cur t e) t.block =
      update (refs (cur s e) s.block) ((s.itable e).inum, .addr k) b := by
    rw [hcur, ht, ← hintact.refs_eq]
    rcases Nat.lt_or_eq_of_le hk with hlt | rfl
    · exact refs_setDirect htype hlt b
    · apply refs_setIndirect htype (by rw [cur_self]; exact hzero)
      intro j
      show entry (update s.block b (fun _ => 0) b) j = 0
      rw [update_self, entry_zero]
  have hx : refs (cur s e) s.block ((s.itable e).inum, .addr k) = 0 := by
    rw [refs_of_type htype, place_addr _ hk, cur_self, hzero]
  refine ⟨⟨h.fits, ?_, ?_, ?_⟩, ?_, ?_, ?_, Logged.of_log (fun _ _ hc => hc) (by rw [ht])⟩
  · simpa [ht, Dinode.setAddr] using h.type
  · rw [ht]
    exact h.op
  · show Ledger.Exact _ _ (refs (cur t e) t.block) t.bitmap
    rw [hrefs, ht]
    exact h.sound.add hx hb hfree
  · rw [ht]
    constructor
    · intro e' he'
      exact update_of_ne he' _ _
    all_goals simp
  · simp [ht, Dinode.setAddr]
  · intro a
    apply wrote_of_grow a _ _ hx hrefs
    · intro m p _ _
      rw [ht]
      exact update_of_ne (h.sound.not_ref hb hfree _) _ _
    · intro m hm
      rw [hcur, update_of_ne hm]
    · refine ⟨update (s.itable e).d.addrs k b, (s.itable e).d.size, ?_⟩
      rw [hcur, update_self, cur_self]
      rfl

/-- The address `k`, allocated if need be. -/
theorem bmapDirect_ok (h : Work sb e s) (hk : k ≤ NDIRECT) :
    ∃ addr t, bmapDirect sb e k s = .ok addr t ∧ Grown sb e s t ∧
      (addr ≠ 0 → (t.itable e).d.addrs k = addr) ∧ (addr = 0 → NoneFree sb t) := by
  unfold bmapDirect
  rw [inode_bind]
  by_cases hzero : (s.itable e).d.addrs k = 0
  · rw [if_pos hzero]
    rcases balloc_ok h with ⟨hnone, hnofree⟩ | ⟨b, hb, hfree, hb0, hsome⟩
    · rw [bind_of_ok hnone]
      exact ⟨0, s, rfl, Grown.refl h, fun h0 => absurd rfl h0, fun _ => hnofree⟩
    · rw [bind_of_ok hsome, if_neg hb0]
      refine ⟨b, _, rfl, h.setAddr hk hzero hb hfree rfl, fun _ => ?_, fun h0 => absurd h0 hb0⟩
      simp
  · rw [if_neg hzero]
    exact ⟨_, s, rfl, Grown.refl h, fun _ => rfl, fun h0 => absurd h0 hzero⟩

/-- The entry `j` of the indirect block is set to a block that has just been taken. -/
theorem Work.setLeaf (h : Work sb e s) (hc : (s.itable e).d.addrs NDIRECT ≠ 0) (hj : j < NINDIRECT)
    (hzero : entry (s.block ((s.itable e).d.addrs NDIRECT)) j = 0) (hb : b < sb.size)
    (hfree : s.bitmap b = false) {t : State} (ht : t = { s with
      bitmap := update s.bitmap b true
      block := update (update s.block b fun _ => 0)
        ((s.itable e).d.addrs NDIRECT)
        (Bytes.setLE (update s.block b (fun _ => 0) ((s.itable e).d.addrs NDIRECT))
          (4 * j) 4 b)
      unlogged := update
        (update (update s.unlogged b false) ((s.itable e).d.addrs NDIRECT) true)
        ((s.itable e).d.addrs NDIRECT) false
      ops := l }) : Grown sb e s t ∧ place (t.itable e).d t.block (.leaf j) = b := by
  have htype := h.cur_type
  have hbig : b < 2 ^ 32 := lt_of_lt_of_le hb h.fits
  have hcur : cur t e = cur s e := by rw [ht]; rfl
  have hself : (cur s e (s.itable e).inum).addrs NDIRECT = (s.itable e).d.addrs NDIRECT := by
    rw [cur_self]
  have hintact := intact_of_free h.sound hb hfree fun _ => 0
  have hsound : Sound sb (cur s e) s.bitmap (update s.block b fun _ => 0) := by
    show Ledger.Exact _ _ (refs _ _) _
    rw [hintact.refs_eq]
    exact h.sound
  have hrefs : refs (cur t e) t.block =
      update (refs (cur s e) s.block) ((s.itable e).inum, .leaf j) b := by
    have hset := refs_setLeaf hsound htype (by rwa [hself]) hj hbig
    rw [hself, hintact.refs_eq] at hset
    rw [hcur, ht]
    exact hset
  have hx : refs (cur s e) s.block ((s.itable e).inum, .leaf j) = 0 := by
    rw [refs_of_type htype, cur_self, place_leaf hc hj, hzero]
  have hlogged : Logged s t := by
    rw [update_idem] at ht
    refine Logged.of_log (fun c _ hc => ?_) (by rw [ht])
    have hfirst : Logged s { s with unlogged := update s.unlogged b false } :=
      Logged.of_log (fun _ _ hc => hc) rfl
    exact hfirst c hc
  refine ⟨⟨⟨h.fits, ?_, ?_, ?_⟩, ?_, ?_, ?_, hlogged⟩, ?_⟩
  · rw [ht]
    exact h.type
  · rw [ht]
    exact h.op
  · show Ledger.Exact _ _ (refs (cur t e) t.block) t.bitmap
    rw [hrefs, ht]
    exact h.sound.add hx hb hfree
  · rw [ht]
    constructor <;> intros <;> rfl
  · rw [ht]
  · intro a
    apply wrote_of_grow a _ _ hx hrefs
    · intro m p hp hr
      -- neither the new block nor the indirect block is a block of data
      rw [ht]
      show update (update s.block b fun _ => 0) _ _ _ = _
      rw [update_of_ne, update_of_ne (h.sound.not_ref hb hfree _)]
      intro heq
      have hone := h.sound.once (m, p) ((s.itable e).inum, .addr NDIRECT) hr
      rw [refs_indirect htype, hself] at hone
      exact hp (congrArg Prod.snd (hone heq))
    · intro m _
      rw [hcur]
    · exact ⟨_, _, by rw [hcur]⟩
  · have hval : refs (cur t e) t.block ((s.itable e).inum, .leaf j) = b := by
      rw [hrefs, update_self]
    rw [hcur, refs_of_type htype, cur_self] at hval
    rw [ht] at hval ⊢
    exact hval

/-- The entry `j` of the indirect block, allocated if need be. -/
theorem bmapIndirect_ok (h : Work sb e s) (hc : (s.itable e).d.addrs NDIRECT ≠ 0)
    (hj : j < NINDIRECT) :
    ∃ addr t, bmapIndirect sb ((s.itable e).d.addrs NDIRECT) j s = .ok addr t ∧ Grown sb e s t ∧
      (addr ≠ 0 → place (t.itable e).d t.block (.leaf j) = addr) ∧ (addr = 0 → NoneFree sb t) := by
  unfold bmapIndirect
  rw [bind_of_ok (rfl : readBlock _ s = .ok _ s)]
  by_cases hzero : entry (s.block ((s.itable e).d.addrs NDIRECT)) j = 0
  · rw [if_pos hzero]
    rcases balloc_ok h with ⟨hnone, hnofree⟩ | ⟨b, hb, hfree, hb0, hsome⟩
    · rw [bind_of_ok hnone]
      exact ⟨0, s, rfl, Grown.refl h, fun h0 => absurd rfl h0, fun _ => hnofree⟩
    · rw [bind_of_ok hsome, if_neg hb0, bind_of_ok (rfl : readBlock _ _ = .ok _ _),
        bind_of_ok (rfl : setBlock _ _ _ = .ok () _), bind_of_ok (logBlock_ok (by exact h.op))]
      obtain ⟨hgrown, hleaf⟩ := h.setLeaf hc hj hzero hb hfree rfl
      exact ⟨b, _, rfl, hgrown, fun _ => hleaf, fun h0 => absurd h0 hb0⟩
  · rw [if_neg hzero]
    exact ⟨_, s, rfl, Grown.refl h, fun _ => place_leaf hc hj, fun h0 => absurd h0 hzero⟩

/-- **`bmap`** of any block that a file can have. -/
theorem bmap_ok (h : Work sb e s) (hbn : bn < MAXFILE) :
    ∃ addr t, bmap sb e bn s = .ok addr t ∧ Grown sb e s t ∧
      (addr ≠ 0 → place (t.itable e).d t.block (home bn) = addr) ∧ (addr = 0 → NoneFree sb t) := by
  unfold bmap home
  by_cases hdirect : bn < NDIRECT
  · simp only [if_pos hdirect]
    obtain ⟨addr, t, hrun, hgrown, haddr, hnone⟩ := bmapDirect_ok h hdirect.le
    refine ⟨addr, t, hrun, hgrown, fun h0 => ?_, hnone⟩
    rw [place_addr _ hdirect.le, haddr h0]
  · have hj : bn - NDIRECT < NINDIRECT := by
      simp only [MAXFILE] at hbn
      omega
    simp only [if_neg hdirect, if_pos hj]
    obtain ⟨addr, t, hrun, hgrown, haddr, hnone⟩ := bmapDirect_ok h (le_refl NDIRECT)
    rw [bind_of_ok hrun]
    by_cases h0 : addr = 0
    · rw [if_pos h0]
      exact ⟨0, t, rfl, hgrown, fun h => absurd rfl h, fun _ => hnone h0⟩
    · rw [if_neg h0, ← haddr h0]
      rw [← haddr h0] at h0
      obtain ⟨addr', u, hrun', hgrown', haddr'⟩ := bmapIndirect_ok hgrown.work h0 hj
      exact ⟨addr', u, hrun', hgrown.trans hgrown', haddr'⟩

/-! ## writei -/

theorem takeSome_length (l : List (Option α)) :
    ((l.takeWhile Option.isSome).filterMap id).length ≤ l.length := by
  induction l with
  | nil => simp
  | cons o l ih =>
    cases o with
    | none => simp
    | some a => simpa using ih

theorem takeSome_whole (l : List (Option α))
    (h : l.length ≤ ((l.takeWhile Option.isSome).filterMap id).length) :
    ((l.takeWhile Option.isSome).filterMap id).map some = l := by
  induction l with
  | nil => rfl
  | cons o l ih =>
    cases o with
    | none => simp at h
    | some a => simpa using ih (by simpa using h)

theorem available_length (src : ℕ → Option UInt8) (tot m : ℕ) :
    (available src tot m).length ≤ m := by
  have := takeSome_length ((List.range m).map fun j => src (tot + j))
  rwa [List.length_map, List.length_range] at this

/-- If nothing is missing, the bytes are those of the source. -/
theorem available_whole (h : ¬ (available src tot m).length < m) (hj : j < m) :
    src (tot + j) = some ((available src tot m).getD j 0) := by
  have hwhole : (available src tot m).map some = (List.range m).map fun j => src (tot + j) := by
    apply takeSome_whole
    rw [List.length_map, List.length_range]
    exact not_lt.mp h
  have hget := congrArg (fun l => l[j]?) hwhole
  simp only [List.getElem?_map, List.getElem?_range hj, Option.map_some] at hget
  have hlt : j < (available src tot m).length := by omega
  rw [List.getElem?_eq_getElem hlt, Option.map_some] at hget
  injection hget with hget
  rw [← hget, List.getD_eq_getElem _ _ hlt]

theorem chunk_le (tot off n : ℕ) : off % BSIZE + chunk tot off n ≤ BSIZE := by
  have hmod : off % BSIZE < BSIZE := Nat.mod_lt _ (by decide)
  have := Nat.min_le_right (n - tot) (BSIZE - off % BSIZE)
  unfold chunk
  omega

theorem chunk_pos (off : ℕ) (h : tot < n) : 0 < chunk tot off n := by
  have hmod : off % BSIZE < BSIZE := Nat.mod_lt _ (by decide)
  unfold chunk
  omega

/-- What a round of `writei` leaves: bytes `[off, z)` of the file may have changed. -/
structure Rewritten (sb : Superblock) (e : Ip) (off z : ℕ) (s t : State) : Prop where
  work : Work sb e t
  body : Body e s t
  size : (t.itable e).d.size = (s.itable e).d.size
  wrote : Wrote (s.itable e).inum off z (cur s e) s.block (cur t e) t.block

theorem Grown.rewritten (h : Grown sb e s t) (haz : a ≤ z) : Rewritten sb e a z s t :=
  ⟨h.work, h.body, h.size, (h.wrote a).mono le_rfl haz⟩

theorem Rewritten.trans (h : Rewritten sb e a z s t)
    (h' : Rewritten sb e a z t u) : Rewritten sb e a z s u where
  work := h'.work
  body := h.body.trans h'.body
  size := h'.size.trans h.size
  wrote := h.wrote.trans (h.body.inum ▸ h'.wrote)

theorem Rewritten.mono {a' z' : ℕ} (h : Rewritten sb e a z s t) (ha : a' ≤ a) (hz : z ≤ z') :
    Rewritten sb e a' z' s t :=
  ⟨h.work, h.body, h.size, h.wrote.mono ha hz⟩

/-- The file has the block of byte `j`. -/
def Has (s : State) (e : Ip) (j : ℕ) : Prop :=
  place (s.itable e).d s.block (home (j / BSIZE)) ≠ 0

/-- Byte `j` of the file. -/
def byteAt (s : State) (e : Ip) (j : ℕ) : UInt8 := content (cur s e) s.block (s.itable e).inum j

theorem Rewritten.has (hs : Work sb e s) (h : Rewritten sb e a z s t) (hj : Has s e j) :
    Has t e j := by
  have hplace := h.wrote.place_eq hs.cur_type (by rw [cur_self]; exact hj)
  rw [cur_of_eq h.body.inum, cur_self] at hplace
  unfold Has
  rw [hplace]
  exact hj

theorem Rewritten.byte_eq (hs : Work sb e s) (h : Rewritten sb e a z s t) (hj : Has s e j)
    (hout : j < a ∨ z ≤ j) : byteAt t e j = byteAt s e j := by
  unfold byteAt
  rw [h.body.inum]
  exact h.wrote.content_eq hs.cur_type (by rw [cur_self]; exact hj) (Or.inr hout)

/-- The bytes of one round are put into their block. -/
theorem Work.setBytes (h : Work sb e s) (hoff : Has s e off) {bytes : List UInt8}
    (hlen : off % BSIZE + bytes.length ≤ BSIZE) {t : State} {marks : ℕ → Bool} (ht : t = { s with
      block := update s.block (place (s.itable e).d s.block (home (off / BSIZE)))
        (Vm.setBytes (s.block (place (s.itable e).d s.block (home (off / BSIZE)))) (off % BSIZE)
          bytes)
      unlogged := marks
      ops := l }) :
    Rewritten sb e off (off + bytes.length) s t ∧
      ∀ j, j < bytes.length → Has t e (off + j) ∧ byteAt t e (off + j) = bytes.getD j 0 := by
  have htype := h.cur_type
  have hplace : place (cur s e (s.itable e).inum) s.block (home (off / BSIZE)) ≠ 0 := by
    rw [cur_self]
    exact hoff
  have hcur : cur t e = cur s e := by rw [ht]; rfl
  have hinum : (t.itable e).inum = (s.itable e).inum := by rw [ht]
  have hblock : t.block = update s.block
      (place (cur s e (s.itable e).inum) s.block (home (off / BSIZE)))
      (Vm.setBytes (s.block (place (cur s e (s.itable e).inum) s.block (home (off / BSIZE))))
        (off % BSIZE) bytes) := by
    rw [ht, cur_self]
  have hwrote := wrote_setBytes h.sound htype hplace bytes
  rw [← hblock] at hwrote
  have hrew : Rewritten sb e off (off + bytes.length) s t := by
    refine ⟨⟨h.fits, ?_, ?_, ?_⟩, ?_, ?_, ?_⟩
    · rw [ht]
      exact h.type
    · rw [ht]
      exact h.op
    · have hintact := intact_of_data h.sound (home_ne (off / BSIZE))
        (by rw [refs_of_type htype]; exact hplace)
      rw [refs_of_type htype] at hintact
      show Ledger.Exact _ _ (refs (cur t e) t.block) t.bitmap
      rw [hcur, hblock, (hintact _).refs_eq, ht]
      exact h.sound
    · rw [ht]
      constructor <;> intros <;> rfl
    · rw [ht]
    · rw [hcur]
      exact hwrote
  refine ⟨hrew, fun j hj => ⟨?_, ?_⟩⟩
  · have hold : Has s e (off + j) := by
      unfold Has
      rw [div_of_same_block (by omega)]
      exact hoff
    exact hrew.has h hold
  · have hbyte := content_setBytes h.sound htype hplace hlen hj
    rw [← hblock] at hbyte
    unfold byteAt
    rw [hcur, hinum]
    exact hbyte

theorem available_full
    (h : ∀ j, j < m → (src (tot + j)).isSome = true) : (available src tot m).length = m := by
  have hall : ∀ l : List (Option UInt8), (∀ o ∈ l, o.isSome = true) →
      ((l.takeWhile Option.isSome).filterMap id).length = l.length := by
    intro l hl
    induction l with
    | nil => rfl
    | cons o l ih =>
      have ho := hl o (by simp)
      obtain ⟨a, rfl⟩ := Option.isSome_iff_exists.mp ho
      simpa using ih fun o' ho' => hl o' (by simp [ho'])
  unfold available
  rw [hall, List.length_map, List.length_range]
  intro o ho
  obtain ⟨j, hj, rfl⟩ := List.mem_map.mp ho
  exact h j (List.mem_range.mp hj)

/-- The source gives out, if it does, at the start of a block of the file (or at the
first byte): of the bytes that go into one block, the first is missing if any is. -/
def BreaksAtBlocks (src : ℕ → Option UInt8) (off n : ℕ) : Prop :=
  ∀ j, j < n → src j = none → src ((off + j) / BSIZE * BSIZE - off) = none

theorem BreaksAtBlocks.head (h : BreaksAtBlocks (fun j => src (tot + j)) off (n - tot))
    (hc : c ≤ n - tot) (hblock : off % BSIZE + c ≤ BSIZE)
    (hshort : (available src tot c).length < c) : available src tot c = [] := by
  have hbad : ∃ j, j < c ∧ src (tot + j) = none := by
    by_contra hno
    have := @available_full tot c src fun j hj => by
      cases hsrc : src (tot + j) with
      | none => exact absurd ⟨j, hj, hsrc⟩ hno
      | some a => rfl
    omega
  obtain ⟨j, hj, hnone⟩ := hbad
  have hfirst := h j (by omega) hnone
  rw [div_of_same_block (by omega)] at hfirst
  have hzero : off / BSIZE * BSIZE - off = 0 := by
    have := Nat.div_mul_le_self off BSIZE
    omega
  rw [hzero] at hfirst
  obtain ⟨c, rfl⟩ := Nat.exists_eq_succ_of_ne_zero (show c ≠ 0 by omega)
  simp only [Nat.add_zero] at hfirst
  simp [available, List.range_succ_eq_map, hfirst]

theorem BreaksAtBlocks.tail (h : BreaksAtBlocks src off n) (hedge : c = n ∨ (off + c) % BSIZE = 0) :
    BreaksAtBlocks (fun j => src (c + j)) (off + c) (n - c) := by
  intro j hj hnone
  have hfirst := h (c + j) (by omega) hnone
  have hedge : (off + c) % BSIZE = 0 := by
    rcases hedge with hc | hedge
    · omega
    · exact hedge
  -- the block of the byte starts after the chunk
  have hdiv : off + c ≤ (off + (c + j)) / BSIZE * BSIZE := by
    have hle : (off + c) / BSIZE ≤ (off + (c + j)) / BSIZE := Nat.div_le_div_right (by omega)
    have hmul := Nat.mul_le_mul_right BSIZE hle
    have := Nat.div_add_mod' (off + c) BSIZE
    omega
  show src (c + ((off + c + j) / BSIZE * BSIZE - (off + c))) = none
  rw [Nat.add_assoc off c j,
    show c + ((off + (c + j)) / BSIZE * BSIZE - (off + c)) =
      (off + (c + j)) / BSIZE * BSIZE - off by omega]
  exact hfirst

/-- What the loop of `writei` has done when it has written `m` bytes: they are in the
file, it stops early at the end of a block only, and it stops early only for want of a
block or of a byte of the source.  If the source gives out at a block, then nothing else
has changed, and every change is logged. -/
structure Stored (sb : Superblock) (e : Ip) (src : ℕ → Option UInt8) (off n : ℕ) (s : State)
    (m : ℕ) (t : State) : Prop where
  le : m ≤ n
  rewritten : Rewritten sb e off (off + n) s t
  bytes : ∀ j, j < m → Has t e (off + j) ∧ src j = some (byteAt t e (off + j))
  edge : m = n ∨ m = 0 ∨ (off + m) % BSIZE = 0
  full : (∀ j, j < n → Has s e (off + j) ∧ (src j).isSome = true) → m = n
  dry : (∀ j, j < n → (src j).isSome = true) → m < n → NoneFree sb t
  tight : BreaksAtBlocks src off n → Rewritten sb e off (off + m) s t ∧ Logged s t

/-- Nothing has been written, for a reason. -/
theorem Stored.none (h : Rewritten sb e off (off + n) s t)
    (hwhy : (∀ j, j < n → Has s e (off + j) ∧ (src j).isSome = true) → n = 0)
    (hdry : (∀ j, j < n → (src j).isSome = true) → 0 < n → NoneFree sb t)
    (htight : BreaksAtBlocks src off n → Rewritten sb e off off s t ∧ Logged s t) :
    Stored sb e src off n s 0 t where
  le := Nat.zero_le n
  rewritten := h
  bytes j hj := absurd hj (Nat.not_lt_zero j)
  edge := Or.inr (Or.inl rfl)
  full hall := (hwhy hall).symm
  dry := hdry
  tight := htight

theorem Stored.idle (h : Work sb e s) (hn : n = 0) : Stored sb e src off n s 0 s :=
  .none ((Grown.refl h).rewritten (by omega)) (fun _ => hn) (fun _ _ => by omega)
    fun _ => ⟨(Grown.refl h).rewritten le_rfl, fun _ hb => hb⟩

/-- A whole chunk, and then the rest. -/
theorem Stored.cons (hs : Work sb e s) (hc : c ≤ n) (hedge : c = n ∨ (off + c) % BSIZE = 0)
    (h : Rewritten sb e off (off + c) s t) (hlogged : Logged s t)
    (hbytes : ∀ j, j < c → Has t e (off + j) ∧ src j = some (byteAt t e (off + j)))
    (h' : Stored sb e (fun j => src (c + j)) (off + c) (n - c) t m u) :
    Stored sb e src off n s (c + m) u where
  le := by
    have := h'.le
    omega
  rewritten := by
    have hlater : Rewritten sb e off (off + n) t u := h'.rewritten.mono (by omega) (by omega)
    exact (h.mono le_rfl (by omega)).trans hlater
  bytes j hj := by
    by_cases hjc : j < c
    · -- a byte of this chunk is not written again
      obtain ⟨hhas, hsrc⟩ := hbytes j hjc
      refine ⟨h'.rewritten.has h.work hhas, ?_⟩
      rw [h'.rewritten.byte_eq h.work hhas (by omega)]
      exact hsrc
    · have hlater := h'.bytes (j - c) (by omega)
      simp only [show off + c + (j - c) = off + j by omega,
        show c + (j - c) = j by omega] at hlater
      exact hlater
  edge := by
    rcases h'.edge with h1 | h1 | h1
    · exact Or.inl (by omega)
    · rcases hedge with h2 | h2
      · exact Or.inl (by omega)
      · exact Or.inr (Or.inr (by rw [h1]; exact h2))
    · exact Or.inr (Or.inr (by rw [← Nat.add_assoc]; exact h1))
  full hall := by
    have := h'.full fun j hj => by
      have hj' := hall (c + j) (by omega)
      rw [← Nat.add_assoc] at hj'
      exact ⟨h.has hs hj'.1, hj'.2⟩
    omega
  dry hall hlt := h'.dry (fun j hj => hall (c + j) (by omega)) (by omega)
  tight hbreaks := by
    obtain ⟨hrest, hlog⟩ := h'.tight (hbreaks.tail hedge)
    rw [← Nat.add_assoc]
    exact ⟨(h.mono le_rfl (by omega)).trans (hrest.mono (by omega) le_rfl), hlogged.trans hlog⟩

/-- **The loop of `writei`.** -/
theorem writeLoop_ok (src : ℕ → Option UInt8) (n fuel : ℕ) : ∀ tot off s, Work sb e s →
    tot ≤ n → n - tot ≤ fuel → off + (n - tot) ≤ MAXFILE * BSIZE →
    ∃ m t, writeLoop sb e src fuel tot off n s = .ok (tot + m, off + m) t ∧
      Stored sb e (fun j => src (tot + j)) off (n - tot) s m t := by
  induction fuel with
  | zero =>
    intro tot off s h htot hfuel _
    exact ⟨0, s, rfl, Stored.idle h (by omega)⟩
  | succ fuel ih =>
    intro tot off s h htot hfuel hfit
    unfold writeLoop
    by_cases hlt : tot < n
    swap
    · rw [if_neg hlt]
      exact ⟨0, s, rfl, Stored.idle h (by omega)⟩
    rw [if_pos hlt]
    have hbn : off / BSIZE < MAXFILE := by
      apply Nat.div_lt_of_lt_mul
      rw [Nat.mul_comm]
      omega
    obtain ⟨addr, t, hrun, hgrown, haddr, hnone⟩ := bmap_ok h hbn
    have hrew := hgrown.rewritten (show off ≤ off + (n - tot) by omega)
    rw [bind_of_ok hrun]
    by_cases h0 : addr = 0
    · rw [if_pos h0]
      refine ⟨0, t, rfl, Stored.none hrew (fun hall => ?_) (fun _ _ => hnone h0)
        fun _ => ⟨hgrown.rewritten le_rfl, hgrown.logged⟩⟩
      -- a block that is there would have been found
      have hhere := bmap_here sb (hall 0 (by omega)).1
      rw [Nat.add_zero, hrun] at hhere
      injection hhere with hplace
      exact absurd (hplace.symm.trans h0) (hall 0 (by omega)).1
    rw [if_neg h0, bind_of_ok (rfl : copyIn _ _ _ t = .ok () _), ← haddr h0]
    have hhas : Has t e off := by
      unfold Has
      rw [haddr h0]
      exact h0
    have hchunk := chunk_le tot off n
    have hpos := chunk_pos off hlt
    have hcn : chunk tot off n ≤ n - tot := Nat.min_le_left _ _
    have hlen := available_length src tot (chunk tot off n)
    have hroom : off % BSIZE + (available src tot (chunk tot off n)).length ≤ BSIZE := by omega
    by_cases hshort : (available src tot (chunk tot off n)).length < chunk tot off n
    · rw [if_pos hshort]
      obtain ⟨hrew', -⟩ := hgrown.work.setBytes hhas hroom rfl
      have hbad : ¬ ∀ j, j < n - tot → (src (tot + j)).isSome = true := by
        intro hall
        have := available_full fun j hj => hall j (lt_of_lt_of_le hj hcn)
        omega
      refine ⟨0, _, rfl, Stored.none (hrew.trans (hrew'.mono le_rfl (by omega)))
        (fun hall => absurd (fun j hj => (hall j hj).2) hbad) (fun hall _ => absurd hall hbad)
        fun hbreaks => ?_⟩
      -- nothing has arrived in the block
      have hempty := hbreaks.head hcn hchunk hshort
      rw [hempty] at hrew' ⊢
      exact ⟨(hgrown.rewritten le_rfl).trans hrew', hgrown.logged⟩
    · rw [if_neg hshort, bind_of_ok (logBlock_ok (by exact hgrown.work.op))]
      obtain ⟨hrew', hbytes⟩ := hgrown.work.setBytes hhas hroom rfl
      have heq : (available src tot (chunk tot off n)).length = chunk tot off n := by omega
      obtain ⟨m, u, hrun', hrest⟩ := ih (tot + chunk tot off n) (off + chunk tot off n) _
        hrew'.work (by omega) (by omega) (by omega)
      refine ⟨chunk tot off n + m, u, ?_, ?_⟩
      · rw [hrun', Nat.add_assoc, Nat.add_assoc]
      · rw [heq] at hrew' hbytes
        apply Stored.cons h hcn
        · unfold chunk
          rcases Nat.le_total (n - tot) (BSIZE - off % BSIZE) with hle | hle
          · exact Or.inl (Nat.min_eq_left hle)
          · right
            have hoff := Nat.div_add_mod' off BSIZE
            have hmod : off % BSIZE < BSIZE := Nat.mod_lt _ (by decide)
            rw [Nat.min_eq_right hle,
              show off + (BSIZE - off % BSIZE) = (off / BSIZE + 1) * BSIZE by rw [Nat.add_mul]; omega,
              Nat.mul_mod_left]
        · exact (hgrown.rewritten (show off ≤ off + chunk tot off n by omega)).trans hrew'
        · refine hgrown.logged.trans (Logged.of_log (fun c hc hmark => ?_) rfl)
          split at hmark
          · exact hmark
          · exact (update_of_ne hc _ _).symm.trans hmark
        · intro j hj
          obtain ⟨hhas', hbyte⟩ := hbytes j hj
          refine ⟨hhas', ?_⟩
          rw [hbyte]
          exact available_whole hshort hj
        · rw [show n - tot - chunk tot off n = n - (tot + chunk tot off n) by omega]
          simpa only [Nat.add_assoc] using hrest

/-! ## The inode on disk -/

theorem iupdate_ok (hop : 1 ≤ s.outstanding) :
    iupdate e s = .ok () { s with
      dinode := cur s e
      ops := noteLog (.inode (s.itable e).inum) s.ops } :=
  logWrite_ok (s := { s with dinode := cur s e }) _ hop

/-- What `writei` has done when it returns `m`: the inode is on disk again. -/
structure Saved (sb : Superblock) (e : Ip) (src : ℕ → Option UInt8) (off n : ℕ) (s : State)
    (m : ℕ) (t : State) : Prop where
  start : off ≤ (s.itable e).d.size
  le : m ≤ n
  body : Body e s t
  clean : t.dinode (s.itable e).inum = (t.itable e).d
  sound : Sound sb t.dinode t.bitmap t.block
  size : (t.itable e).d.size = max (s.itable e).d.size (off + m)
  wrote : Wrote (s.itable e).inum off (off + n) s.dinode s.block t.dinode t.block
  has : ∀ j, j < (t.itable e).d.size → Has t e j
  bytes : ∀ j, j < m → src j = some (content t.dinode t.block (s.itable e).inum (off + j))
  edge : m = n ∨ m = 0 ∨ (off + m) % BSIZE = 0
  full : (∀ j, j < n → Has s e (off + j) ∧ (src j).isSome = true) → m = n
  dry : (∀ j, j < n → (src j).isSome = true) → m < n → NoneFree sb t
  tight : BreaksAtBlocks src off n →
    Wrote (s.itable e).inum off (off + m) s.dinode s.block t.dinode t.block ∧ Logged s t

/-- The table holds what is on disk. -/
theorem cur_of_clean (h : s.dinode (s.itable e).inum = (s.itable e).d) : cur s e = s.dinode := by
  unfold cur
  rw [← h]
  exact update_eq_self _ _

/-- **`writei`**: it refuses, or writes a part of the bytes and then the inode. -/
theorem writei_ok (src : ℕ → Option UInt8) (off n : ℕ) (h : Work sb e s)
    (hclean : s.dinode (s.itable e).inum = (s.itable e).d)
    (hhas : ∀ j, j < (s.itable e).d.size → Has s e j) : (writei sb e src off n s = .ok (-1) s ∧
      ((s.itable e).d.size < off ∨ 2 ^ 32 ≤ off + n ∨ MAXFILE * BSIZE < off + n)) ∨
    ∃ (m : ℕ) (t : State), writei sb e src off n s = .ok m t ∧ Saved sb e src off n s m t := by
  unfold writei
  rw [inode_bind]
  by_cases hoff : (s.itable e).d.size < off ∨ (off + n) % 2 ^ 32 < off
  · rw [if_pos hoff]
    refine Or.inl ⟨rfl, hoff.imp_right fun hwrap => Or.inl ?_⟩
    by_contra hlt
    rw [Nat.mod_eq_of_lt (by omega)] at hwrap
    omega
  rw [if_neg hoff]
  by_cases hfit : MAXFILE * BSIZE < off + n
  · rw [if_pos hfit]
    exact Or.inl ⟨rfl, Or.inr (Or.inr hfit)⟩
  rw [if_neg hfit]
  right
  have hle : off ≤ (s.itable e).d.size := by omega
  obtain ⟨m, t, hrun, hstored⟩ := writeLoop_ok src n n 0 off s h (by omega) le_rfl (by omega)
  simp only [Nat.zero_add, Nat.sub_zero] at hrun hstored
  have hrew := hstored.rewritten
  have hsize := hrew.size
  rw [bind_of_ok hrun]
  simp only
  rw [bind_of_ok (rfl : edit e _ t = .ok () _), bind_of_ok (iupdate_ok (by exact hrew.work.op))]
  refine ⟨m, _, rfl, ?_⟩
  -- only the size has changed since the loop
  have hgrow : ∀ d : Dinode, (if d.size < off + m then { d with size := off + m } else d) =
      { d with size := max d.size (off + m) } := by
    intro d
    split
    · rw [Nat.max_eq_right (by omega)]
    · rw [Nat.max_eq_left (by omega)]
  simp only [hgrow]
  have hinum := hrew.body.inum
  have hdisk : ∀ z, cur { t with
        itable := update t.itable e
          { t.itable e with d := { (t.itable e).d with size := z } } } e =
      resize (cur t e) (s.itable e).inum z := by
    intro z
    unfold resize
    rw [cur_of_eq hinum, ← hinum]
    simp only [cur, update_idem, update_self]
  have hwrote := hrew.wrote
  rw [cur_of_clean hclean] at hwrote
  constructor
  · exact hle
  · exact hstored.le
  · apply hrew.body.trans
    constructor
    case others => exact fun e' he' => update_of_ne he' _ _
    case disk =>
      intro i hi
      simp only [cur, update_self]
      exact update_of_ne hi _ _
    all_goals simp
  · simp [cur, hinum]
  · show Ledger.Exact _ _ (refs (cur _ e) t.block) t.bitmap
    rw [hdisk, refs_resize]
    exact hrew.work.sound
  · simp [hsize]
  · show Wrote _ _ _ _ _ (cur _ e) t.block
    rw [hdisk]
    exact hwrote.resize _
  · intro j hj
    have hhas' : Has t e j := by
      by_cases hjs : j < (s.itable e).d.size
      · exact hrew.has h (hhas j hjs)
      · simp only [update_self] at hj
        have := (hstored.bytes (j - off) (by omega)).1
        rwa [show off + (j - off) = j by omega] at this
    simp only [Has, update_self]
    exact hhas'
  · intro j hj
    have hbyte := (hstored.bytes j hj).2
    unfold byteAt at hbyte
    rw [hinum] at hbyte
    show src j = some (content (cur _ e) t.block _ _)
    rw [hdisk, content_resize]
    exact hbyte
  · exact hstored.edge
  · exact hstored.full
  · exact hstored.dry
  · intro hbreaks
    obtain ⟨htight, hlogged⟩ := hstored.tight hbreaks
    have hwrote := htight.wrote
    rw [cur_of_clean hclean] at hwrote
    refine ⟨?_, hlogged⟩
    show Wrote _ _ _ _ _ (cur _ e) t.block
    rw [hdisk]
    exact hwrote.resize _

end Fs

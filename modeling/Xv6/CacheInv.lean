/-
# The invariant of the buffer cache

`CacheInv c pins dirty view` says of a cache that

* a block is in at most one buffer (`uniq`);
* every pinned block is cached (`pinned`);
* every buffer is `BufOk`: its `refcnt` counts the processes that wait for it,
  hold it or are giving it back, and one more while the log pins its block, so
  that `bget` recycles none of these; and a valid buffer that nobody has changed
  without logging it holds the logical content `view` of its block.

Every operation of `kernel/bio.c` keeps it, with the same or with an updated
`view`.
-/
import Xv6.Crash

open Bytes Transition

/-- One for the holder of the sleep-lock. -/
def lockCount (lock : Option ℕ) : ℕ := if lock = none then 0 else 1

@[simp] theorem lockCount_none : lockCount none = 0 := rfl

@[simp] theorem lockCount_some (p : ℕ) : lockCount (some p) = 1 := rfl

/-- One for the pin of the log. -/
def pinCount (pins : List ℕ) (dev blockno : ℕ) : ℕ :=
  if dev = ROOTDEV ∧ blockno ∈ pins then 1 else 0

variable {blockno k p n : ℕ} {pins' : List ℕ} {view' : Disk} {b : Buf} {c' : Bcache}

theorem pinCount_mem {pins : List ℕ} (h : blockno ∈ pins) : pinCount pins ROOTDEV blockno = 1 :=
  if_pos ⟨rfl, h⟩

theorem pinCount_not_mem {pins : List ℕ} (dev : ℕ) (h : blockno ∉ pins) :
    pinCount pins dev blockno = 0 :=
  if_neg fun hc => h hc.2

theorem pinCount_congr {pins : List ℕ} {dev : ℕ}
    (h : dev = ROOTDEV → (blockno ∈ pins ↔ blockno ∈ pins')) :
    pinCount pins dev blockno = pinCount pins' dev blockno := by
  unfold pinCount
  by_cases hdev : dev = ROOTDEV
  · simp only [hdev, true_and, h hdev]
  · simp only [hdev, false_and]

/-- The invariant of one buffer; `d` is the process that has changed it since it
was last logged. -/
structure BufOk (b : Buf) (pins : List ℕ) (d : Option ℕ) (view : Disk) : Prop where
  ref : b.refcnt = b.waiters.length + b.leavers.length + lockCount b.lock
    + pinCount pins b.dev b.blockno
  locked : b.lock ≠ none → b.valid = true
  used : b.refcnt ≠ 0 → b.dev = ROOTDEV
  bound : b.blockno < 2 ^ 32
  dirtyLocked : d ≠ none → b.lock = d
  content : b.dev = ROOTDEV → b.valid = true → d = none → b.data = view b.blockno

/-- A valid buffer of block `n`. -/
def Caches (b : Buf) (n : ℕ) : Prop := b.dev = ROOTDEV ∧ b.blockno = n ∧ b.valid = true

/-- The invariant of the cache. -/
structure CacheInv (c : Bcache) (pins : List ℕ) (dirty : ℕ → Option ℕ) (view : Disk) : Prop where
  uniq : ∀ j ∈ c.lru, ∀ k ∈ c.lru, (c.buf j).dev = ROOTDEV → (c.buf k).dev = ROOTDEV →
    (c.buf j).blockno = (c.buf k).blockno → j = k
  pinned : ∀ n ∈ pins, ∃ k ∈ c.lru, Caches (c.buf k) n
  ok : ∀ k ∈ c.lru, BufOk (c.buf k) pins (dirty k) view

namespace CacheInv

open Function

variable {c : Bcache} {pins : List ℕ} {dirty : ℕ → Option ℕ} {view : Disk}

/-- The cache after `binit`. -/
theorem binit (view : Disk) : CacheInv Bcache.binit [] (fun _ => none) view where
  uniq := fun _ _ _ _ h => by cases h
  pinned := fun _ hn => by cases hn
  ok := fun _ _ => {
    ref := rfl
    locked := fun h => absurd rfl h
    used := fun h => absurd rfl h
    bound := by show (0 : ℕ) < 2 ^ 32; decide
    dirtyLocked := fun h => absurd rfl h
    content := fun h => by cases h }

section

variable (h : CacheInv c pins dirty view)
include h

/-- The view may be replaced by an equal one. -/
theorem of_view (hv : view' = view) : CacheInv c pins dirty view' := hv ▸ h

/-! ## What the invariant says about a buffer -/

/-- A locked buffer is a buffer of the device. -/
theorem dev_of_lock (hk : k ∈ c.lru)
    (hlock : (c.buf k).lock = some p) : (c.buf k).dev = ROOTDEV := by
  apply (h.ok k hk).used
  rw [(h.ok k hk).ref, hlock, lockCount_some]
  omega

/-- The content of a locked buffer that is not dirty. -/
theorem data_of_lock (hk : k ∈ c.lru) (hlock : (c.buf k).lock = some p) (hclean : dirty k = none) :
    (c.buf k).data = view (c.buf k).blockno :=
  (h.ok k hk).content (h.dev_of_lock hk hlock) ((h.ok k hk).locked (by simp [hlock])) hclean

/-- An invalid buffer does not hold a pinned block: the pinned block has a valid
buffer, and that is the only one. -/
theorem not_pinned_of_invalid (hk : k ∈ c.lru) (hdev : (c.buf k).dev = ROOTDEV)
    (hinv : (c.buf k).valid = false) : (c.buf k).blockno ∉ pins := by
  intro hpin
  obtain ⟨j, hj, hjdev, hjb, hjv⟩ := h.pinned _ hpin
  have hjk := h.uniq j hj k hk hjdev hdev hjb
  rw [hjk, hinv] at hjv
  cases hjv

/-- An unused buffer is neither waited for, nor held, nor pinned. -/
theorem unused (hk : k ∈ c.lru) (hzero : (c.buf k).refcnt = 0) :
    (c.buf k).waiters = [] ∧ (c.buf k).leavers = [] ∧ (c.buf k).lock = none ∧
      ¬ ((c.buf k).dev = ROOTDEV ∧ (c.buf k).blockno ∈ pins) := by
  have href := (h.ok k hk).ref
  rw [hzero] at href
  refine ⟨List.eq_nil_of_length_eq_zero (by omega), List.eq_nil_of_length_eq_zero (by omega),
    ?_, ?_⟩
  · cases hlock : (c.buf k).lock with
    | none => rfl
    | some p =>
      rw [hlock, lockCount_some] at href
      omega
  · intro hpin
    rw [hpin.1, pinCount_mem hpin.2] at href
    omega

/-! ## Storing a buffer -/

/-- The general rule: a new buffer `b` in slot `k`, of the block it was of or of
a block that is not cached, keeps the invariant if it is in order itself and the
other buffers stay so under the new parameters. -/
theorem setBuf (hk : k ∈ c.lru) {dirty' : ℕ → Option ℕ}
    (hfresh : ∀ j ∈ c.lru, j ≠ k → (c.buf j).dev = ROOTDEV → (c.buf j).blockno ≠ b.blockno)
    (hself : BufOk b pins' (dirty' k) view')
    (hother : ∀ j ∈ c.lru, j ≠ k → BufOk (c.buf j) pins' (dirty' j) view')
    (hpinned : ∀ n ∈ pins', Caches b n ∨ ∃ j ∈ c.lru, j ≠ k ∧ Caches (c.buf j) n) :
    CacheInv (c.setBuf k b) pins' dirty' view' where
  uniq := by
    intro i hi j hj hidev hjdev hij
    rw [Bcache.setBuf_lru] at hi hj
    by_cases hik : i = k <;> by_cases hjk : j = k
    · rw [hik, hjk]
    · rw [hik, Bcache.setBuf_same, Bcache.setBuf_other c b hjk] at hij
      rw [Bcache.setBuf_other c b hjk] at hjdev
      exact absurd hij.symm (hfresh j hj hjk hjdev)
    · rw [hjk, Bcache.setBuf_same, Bcache.setBuf_other c b hik] at hij
      rw [Bcache.setBuf_other c b hik] at hidev
      exact absurd hij (hfresh i hi hik hidev)
    · rw [Bcache.setBuf_other c b hik, Bcache.setBuf_other c b hjk] at hij
      rw [Bcache.setBuf_other c b hik] at hidev
      rw [Bcache.setBuf_other c b hjk] at hjdev
      exact h.uniq i hi j hj hidev hjdev hij
  pinned := by
    intro n hn
    rcases hpinned n hn with hb | ⟨j, hj, hjk, hb⟩
    · exact ⟨k, hk, by rw [Bcache.setBuf_same]; exact hb⟩
    · exact ⟨j, hj, by rw [Bcache.setBuf_other c b hjk]; exact hb⟩
  ok := by
    intro j hj
    by_cases hjk : j = k
    · rw [hjk, Bcache.setBuf_same]
      exact hself
    · rw [Bcache.setBuf_other c b hjk]
      exact hother j hj hjk

/-- The buffers of other blocks, for a buffer that keeps its block. -/
theorem other_block (hk : k ∈ c.lru) (hdev : (c.buf k).dev = ROOTDEV) :
    ∀ j ∈ c.lru, j ≠ k → (c.buf j).dev = ROOTDEV → (c.buf j).blockno ≠ (c.buf k).blockno :=
  fun j hj hjk hjdev hb => hjk (h.uniq j hj k hk hjdev hdev hb)

/-- Storing a buffer of the same block that is at least as valid, with nothing
else changed. -/
theorem setBuf_same_block (hk : k ∈ c.lru) (hdev : (c.buf k).dev = ROOTDEV)
    (hb : b.dev = ROOTDEV ∧ b.blockno = (c.buf k).blockno)
    (hvalid : (c.buf k).valid = true → b.valid = true) (hself : BufOk b pins (dirty k) view) :
    CacheInv (c.setBuf k b) pins dirty view := by
  refine h.setBuf hk ?_ hself (fun j hj _ => h.ok j hj) ?_
  · intro j hj hjk hjdev
    rw [hb.2]
    exact h.other_block hk hdev j hj hjk hjdev
  · intro n hn
    obtain ⟨j, hj, hc⟩ := h.pinned n hn
    by_cases hjk : j = k
    · subst hjk
      exact Or.inl ⟨hb.1, hb.2.trans hc.2.1, hvalid hc.2.2⟩
    · exact Or.inr ⟨j, hj, hjk, hc⟩

/-! ## The operations -/

/-- `bget` of a cached block counts one more process. -/
theorem bget_hit (p : ℕ) (hk : k ∈ c.lru) (hdev : (c.buf k).dev = ROOTDEV) :
    CacheInv (c.setBuf k { c.buf k with
      refcnt := (c.buf k).refcnt + 1, waiters := p :: (c.buf k).waiters }) pins dirty view := by
  have hok := h.ok k hk
  refine h.setBuf_same_block hk hdev ⟨hdev, rfl⟩ id { hok with ref := ?_, used := fun _ => hdev }
  simp only [List.length_cons, hok.ref]
  omega

/-- `bget` of a block that is not cached recycles an unused buffer. -/
theorem bget_miss (p : ℕ) (hk : k ∈ c.lru) (hzero : (c.buf k).refcnt = 0) (hn : n < 2 ^ 32)
    (hmiss : ∀ j ∈ c.lru, ¬ ((c.buf j).dev = ROOTDEV ∧ (c.buf j).blockno = n)) :
    CacheInv (c.setBuf k { c.buf k with
      dev := ROOTDEV, blockno := n, valid := false, refcnt := 1,
      waiters := p :: (c.buf k).waiters }) pins dirty view := by
  obtain ⟨hw, hl, hlock, hnopin⟩ := h.unused hk hzero
  have hok := h.ok k hk
  have hnpin : n ∉ pins := by
    intro hpin
    obtain ⟨j, hj, hc⟩ := h.pinned n hpin
    exact hmiss j hj ⟨hc.1, hc.2.1⟩
  refine h.setBuf hk ?_ ?_ (fun j hj _ => h.ok j hj) ?_
  · intro j hj _ hjdev hjn
    exact hmiss j hj ⟨hjdev, hjn⟩
  · exact {
      ref := by simp [hw, hl, hlock, pinCount_not_mem ROOTDEV hnpin]
      locked := fun hne => absurd hlock hne
      used := fun _ => rfl
      bound := hn
      dirtyLocked := hok.dirtyLocked
      content := fun _ hv => by cases hv }
  · intro m hm
    obtain ⟨j, hj, hc⟩ := h.pinned m hm
    refine Or.inr ⟨j, hj, fun hjk => ?_, hc⟩
    subst hjk
    exact hnopin ⟨hc.1, hc.2.1 ▸ hm⟩

/-- **`bget` keeps the invariant.** -/
theorem bget (hn : n < 2 ^ 32)
    (hget : c.bget p ROOTDEV n = .ok (k, c')) : CacheInv c' pins dirty view := by
  unfold Bcache.bget at hget
  split at hget
  · rename_i j hj
    cases hget
    have hmem := List.mem_of_find?_eq_some hj
    have hprop := List.find?_some hj
    simp only [decide_eq_true_eq] at hprop
    exact h.bget_hit p hmem hprop.1
  · rename_i hnone
    rw [List.find?_eq_none] at hnone
    split at hget
    · rename_i j hj
      cases hget
      have hmem := List.mem_reverse.mp (List.mem_of_find?_eq_some hj)
      have hzero := List.find?_some hj
      simp only [decide_eq_true_eq] at hzero
      exact h.bget_miss p hmem hzero hn fun i hi => by simpa using hnone i hi
    · cases hget

/-- **The end of `bread` keeps the invariant**: what is read from disk for a
block that is not pinned is its logical content. -/
theorem acquireBuf {disk : Disk} (hview : ∀ n, n ∉ pins → view n = disk n)
    (hacq : c.acquireBuf disk p k = some c') : CacheInv c' pins dirty view := by
  unfold Bcache.acquireBuf at hacq
  simp only at hacq
  by_cases hc : k ∈ c.lru ∧ p ∈ (c.buf k).waiters ∧ (c.buf k).lock = none
  case neg => rw [if_neg hc] at hacq; cases hacq
  rw [if_pos hc] at hacq
  obtain ⟨hk, hp, hlock⟩ := hc
  cases hacq
  have hok := h.ok k hk
  have href := hok.ref
  have hlen := List.length_erase_of_mem hp
  have hpos := List.length_pos_of_mem hp
  rw [hlock, lockCount_none] at href
  have hdev : (c.buf k).dev = ROOTDEV := hok.used (by omega)
  have hclean : dirty k = none := by
    by_contra hd
    exact hd ((hok.dirtyLocked hd).symm.trans hlock)
  refine h.setBuf_same_block hk hdev ⟨hdev, rfl⟩ (fun _ => rfl) ?_
  exact {
    ref := by
      simp only [hlen, lockCount_some]
      omega
    locked := fun _ => rfl
    used := fun _ => hdev
    bound := hok.bound
    dirtyLocked := fun hd => absurd hclean hd
    content := fun _ _ _ => by
      simp only
      split_ifs with hv
      · exact hok.content hdev hv hclean
      · rw [Bool.not_eq_true] at hv
        exact (hview _ (h.not_pinned_of_invalid hk hdev hv)).symm }

/-- **`brelse` keeps the invariant.** -/
theorem brelse (hk : k ∈ c.lru) (hclean : dirty k = none)
    (hrel : c.brelse p k = .ok c') : CacheInv c' pins dirty view := by
  unfold Bcache.brelse at hrel
  simp only at hrel
  split_ifs at hrel with hlock
  rw [not_not] at hlock
  cases hrel
  have hok := h.ok k hk
  have hdev := h.dev_of_lock hk hlock
  have href := hok.ref
  rw [hlock, lockCount_some] at href
  refine h.setBuf_same_block hk hdev ⟨hdev, rfl⟩ id { hok with
    ref := ?_, locked := fun hne => absurd rfl hne, dirtyLocked := fun hd => absurd hclean hd }
  simp only [List.length_cons, lockCount_none]
  omega

/-- The order of the list does not matter. -/
theorem perm {l : List ℕ} (hl : l.Perm c.lru) : CacheInv { c with lru := l } pins dirty view where
  uniq := fun j hj k hk => h.uniq j (hl.mem_iff.mp hj) k (hl.mem_iff.mp hk)
  pinned := fun n hn => by
    obtain ⟨k, hk, hc⟩ := h.pinned n hn
    exact ⟨k, hl.mem_iff.mpr hk, hc⟩
  ok := fun k hk => h.ok k (hl.mem_iff.mp hk)

/-- **The second half of `brelse` keeps the invariant.** -/
theorem dropBuf (hk : k ∈ c.lru)
    (hp : p ∈ (c.buf k).leavers) : CacheInv (c.dropBuf p k) pins dirty view := by
  have hok := h.ok k hk
  have href := hok.ref
  have hlen := List.length_erase_of_mem hp
  have hpos := List.length_pos_of_mem hp
  have hdev : (c.buf k).dev = ROOTDEV := hok.used (by omega)
  have hset : CacheInv (c.setBuf k { c.buf k with
      refcnt := (c.buf k).refcnt - 1, leavers := (c.buf k).leavers.erase p }) pins dirty view := by
    refine h.setBuf_same_block hk hdev ⟨hdev, rfl⟩ id { hok with ref := ?_, used := fun _ => hdev }
    simp only [hlen]
    omega
  unfold Bcache.dropBuf
  simp only
  split_ifs
  · exact hset.perm (List.perm_cons_erase hk).symm
  · exact hset

/-- A store by the holder of the buffer, not logged yet. -/
theorem modify (d : Block) (hk : k ∈ c.lru) (hlock : (c.buf k).lock = some p) :
    CacheInv (c.setData k d) pins (update dirty k (some p)) view := by
  have hok := h.ok k hk
  have hdev := h.dev_of_lock hk hlock
  refine h.setBuf hk (h.other_block hk hdev) ?_ ?_ ?_
  · rw [update_self]
    exact { hok with
      dirtyLocked := fun _ => hlock
      content := fun _ _ hd => by cases hd }
  · intro j hj hjk
    rw [update_of_ne hjk]
    exact h.ok j hj
  · intro n hn
    obtain ⟨j, hj, hc⟩ := h.pinned n hn
    by_cases hjk : j = k
    · subst hjk
      exact Or.inl hc
    · exact Or.inr ⟨j, hj, hjk, hc⟩

/-- A store by the holder of the buffer that changes the logical content of the
block with it. -/
theorem setData (d : Block) (hk : k ∈ c.lru) (hlock : (c.buf k).lock = some p) :
    CacheInv (c.setData k d) pins dirty (update view (c.buf k).blockno d) := by
  have hok := h.ok k hk
  have hdev := h.dev_of_lock hk hlock
  refine h.setBuf hk (h.other_block hk hdev) ?_ ?_ ?_
  · exact { hok with content := fun _ _ _ => by rw [update_self] }
  · intro j hj hjk
    have hokj := h.ok j hj
    exact { hokj with
      content := fun hjdev hv hd => by
        rw [update_of_ne (h.other_block hk hdev j hj hjk hjdev)]
        exact hokj.content hjdev hv hd }
  · intro n hn
    obtain ⟨j, hj, hc⟩ := h.pinned n hn
    by_cases hjk : j = k
    · subst hjk
      exact Or.inl hc
    · exact Or.inr ⟨j, hj, hjk, hc⟩

/-- The content of a buffer becomes the logical content of its block, and the
buffer is not dirty any more. -/
theorem logged (hk : k ∈ c.lru) (hlock : (c.buf k).lock = some p) :
    CacheInv c pins (update dirty k none) (update view (c.buf k).blockno (c.buf k).data) where
  uniq := h.uniq
  pinned := h.pinned
  ok := by
    intro j hj
    have hokj := h.ok j hj
    by_cases hjk : j = k
    · subst hjk
      rw [update_self]
      exact { hokj with
        dirtyLocked := fun hd => absurd rfl hd
        content := fun _ _ _ => by rw [update_self] }
    · rw [update_of_ne hjk]
      exact { hokj with
        content := fun hjdev hv hd => by
          rw [update_of_ne
            (h.other_block hk (h.dev_of_lock hk hlock) j hj hjk hjdev)]
          exact hokj.content hjdev hv hd }

/-- **`bpin` pins a block that was not pinned.** -/
theorem bpin (hk : k ∈ c.lru) (hlock : (c.buf k).lock = some p) (hnew : (c.buf k).blockno ∉ pins) :
    CacheInv (c.bpin k) (pins ++ [(c.buf k).blockno]) dirty view := by
  have hok := h.ok k hk
  have hdev := h.dev_of_lock hk hlock
  have hvalid := hok.locked (by simp [hlock])
  refine h.setBuf hk (h.other_block hk hdev) ?_ ?_ ?_
  · refine { hok with ref := ?_, used := fun _ => hdev }
    have href := hok.ref
    rw [pinCount_not_mem _ hnew] at href
    simp only [hdev, pinCount_mem (List.mem_append_right pins List.mem_cons_self)]
    omega
  · intro j hj hjk
    have hokj := h.ok j hj
    refine { hokj with ref := hokj.ref.trans (congrArg _ (pinCount_congr fun hjdev => ?_)) }
    have hne := h.other_block hk hdev j hj hjk hjdev
    rw [List.mem_append, List.mem_singleton, or_iff_left hne]
  · intro n hn
    rcases List.mem_append.mp hn with hn | hn
    · obtain ⟨j, hj, hc⟩ := h.pinned n hn
      by_cases hjk : j = k
      · subst hjk
        exact Or.inl hc
      · exact Or.inr ⟨j, hj, hjk, hc⟩
    · rw [List.mem_singleton] at hn
      exact Or.inl ⟨hdev, hn.symm, hvalid⟩

end

/-- **`bunpin` releases the first of the pinned blocks.** -/
theorem bunpin (h : CacheInv c (n :: pins) dirty view) (hk : k ∈ c.lru)
    (hlock : (c.buf k).lock = some p) (hn : (c.buf k).blockno = n) (hnew : n ∉ pins) :
    CacheInv (c.bunpin k) pins dirty view := by
  have hok := h.ok k hk
  have hdev := h.dev_of_lock hk hlock
  refine h.setBuf hk (h.other_block hk hdev) ?_ ?_ ?_
  · refine { hok with ref := ?_, used := fun _ => hdev }
    have href := hok.ref
    rw [hdev, hn, pinCount_mem List.mem_cons_self] at href
    simp only [hn, pinCount_not_mem _ hnew]
    omega
  · intro j hj hjk
    have hokj := h.ok j hj
    refine { hokj with ref := hokj.ref.trans (congrArg _ (pinCount_congr fun hjdev => ?_)) }
    have hne : (c.buf j).blockno ≠ n := hn ▸ h.other_block hk hdev j hj hjk hjdev
    rw [List.mem_cons, or_iff_right hne]
  · intro m hm
    obtain ⟨j, hj, hc⟩ := h.pinned m (List.mem_cons_of_mem n hm)
    refine Or.inr ⟨j, hj, fun hjk => ?_, hc⟩
    subst hjk
    exact hnew (hn ▸ hc.2.1 ▸ hm)

end CacheInv

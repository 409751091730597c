/-
# The buffer cache refines a map from blocks to contents

For the runs on one device, other than 0: every block of the device is in at most one
buffer; a buffer that is not held shows what was released last for its block; and what is
not in the cache is on the disk.  The last needs the pins of the log: a buffer that holds
logged data differs from the disk, so it must not be recycled before the block has been
installed.

With two devices the statement is false, since they share the disk
(`two_devices_share_the_disk`).
-/
import Xv6.Cache
import Xv6.CacheInv

open Function

namespace Cache

open Transition

/-! ## The invariant of the cache -/

variable {dev : ℕ} {c : Bcache} {log pins : List ℕ} {dirty : ℕ → Bool} {disk view : Disk}

/-- One for the pin of the log. -/
def logPin (dev : ℕ) (log : List ℕ) (b : Buf) : ℕ :=
  if b.dev = dev ∧ b.blockno ∈ log then 1 else 0

variable {b : Buf} {log' pins' : List ℕ} {dirty' : ℕ → Bool} {disk' : Disk} {n : ℕ} {c' : Bcache}
    {d : Block} {pc : Pc}

theorem logPin_pos (h : b.dev = dev ∧ b.blockno ∈ log) : logPin dev log b = 1 := if_pos h

theorem logPin_zero (h : b.blockno ∉ log) : logPin dev log b = 0 :=
  if_neg fun hc => h hc.2

theorem logPin_congr (h : b.dev = dev → (b.blockno ∈ log' ↔ b.blockno ∈ log)) :
    logPin dev log' b = logPin dev log b :=
  if_congr (and_congr_right h) rfl rfl

/-- The invariant of the buffer with index `k`: `refcnt` counts the processes that wait for
it, hold it or are giving it back, and the pins; its content is on the disk unless it is
dirty or logged; and when nobody holds it, it shows the content `view` of its block. -/
structure BufOk (dev k : ℕ) (b : Buf) (log pins : List ℕ) (dirty : Bool) (disk view : Disk) :
    Prop where
  ref : b.refcnt = b.waiters.length + b.leavers.length + lockCount b.lock + logPin dev log b
    + pins.count k
  device : b.dev = 0 ∨ b.dev = dev
  used : b.refcnt ≠ 0 → b.dev = dev
  locked : b.lock ≠ none → b.valid = true
  clean : b.lock = none → dirty = false
  stored : b.dev = dev → b.valid = true → dirty = false →
    b.data = disk b.blockno ∨ b.blockno ∈ log
  shown : b.dev = dev → b.valid = true → b.lock = none → b.data = view b.blockno

/-- A valid buffer of block `n`. -/
def Has (dev : ℕ) (b : Buf) (n : ℕ) : Prop := b.dev = dev ∧ b.blockno = n ∧ b.valid = true

structure CacheOk (dev : ℕ) (c : Bcache) (log pins : List ℕ) (dirty : ℕ → Bool)
    (disk view : Disk) : Prop where
  uniq : ∀ j ∈ c.lru, ∀ k ∈ c.lru, (c.buf j).dev = dev → (c.buf k).dev = dev →
    (c.buf j).blockno = (c.buf k).blockno → j = k
  pinned : ∀ n ∈ log, ∃ k ∈ c.lru, Has dev (c.buf k) n
  absent : ∀ n, (∀ k ∈ c.lru, ¬ Has dev (c.buf k) n) → disk n = view n
  ok : ∀ k ∈ c.lru, BufOk dev k (c.buf k) log pins (dirty k) disk view

namespace CacheOk

theorem binit (hdev : dev ≠ 0) (disk : Disk) :
    CacheOk dev Bcache.binit [] [] (fun _ => false) disk disk where
  uniq _ _ _ _ h := absurd h.symm hdev
  pinned _ hn := by cases hn
  absent _ _ := rfl
  ok _ _ := {
    ref := by
      rw [logPin_zero List.not_mem_nil]
      rfl
    device := Or.inl rfl
    used := fun h => absurd rfl h
    locked := fun h => absurd rfl h
    clean := fun _ => rfl
    stored := fun h => absurd h.symm hdev
    shown := fun h => absurd h.symm hdev }

section

variable (h : CacheOk dev c log pins dirty disk view)
include h

/-- A buffer that is held is one of the device. -/
theorem dev_of_lock {k p : ℕ} (hk : k ∈ c.lru)
    (hlock : (c.buf k).lock = some p) : (c.buf k).dev = dev := by
  apply (h.ok k hk).used
  rw [(h.ok k hk).ref, hlock, lockCount_some]
  omega

/-- A buffer that is not used is neither held nor pinned. -/
theorem unused {k : ℕ} (hk : k ∈ c.lru) (hzero : (c.buf k).refcnt = 0) :
    (c.buf k).waiters = [] ∧ (c.buf k).leavers = [] ∧ (c.buf k).lock = none ∧ k ∉ pins ∧
      ¬ ((c.buf k).dev = dev ∧ (c.buf k).blockno ∈ log) := by
  have href := (h.ok k hk).ref
  rw [hzero] at href
  refine ⟨List.eq_nil_of_length_eq_zero (by omega), List.eq_nil_of_length_eq_zero (by omega),
    ?_, List.count_eq_zero.mp (by omega), ?_⟩
  · cases hlock : (c.buf k).lock with
    | none => rfl
    | some p =>
      rw [hlock, lockCount_some] at href
      omega
  · intro hpin
    rw [logPin_pos hpin] at href
    omega

/-- The buffers of other blocks. -/
theorem other_block {k : ℕ} (hk : k ∈ c.lru) (hdev : (c.buf k).dev = dev) :
    ∀ j ∈ c.lru, j ≠ k → (c.buf j).dev = dev → (c.buf j).blockno ≠ (c.buf k).blockno :=
  fun j hj hjk hjdev hb => hjk (h.uniq j hj k hk hjdev hdev hb)

/-! ## Storing a buffer -/

/-- **A new buffer of the same block.**  The parameters may change for this buffer and its
block, if the buffer is valid then. -/
theorem set {k : ℕ} (hk : k ∈ c.lru) {view' : Disk} (hdev : (c.buf k).dev = dev)
    (hb : b.dev = dev ∧ b.blockno = (c.buf k).blockno)
    (hvalid : (c.buf k).valid = true → b.valid = true)
    (hself : BufOk dev k b log' pins' (dirty' k) disk' view')
    (hlog : ∀ n ≠ (c.buf k).blockno, n ∈ log' ↔ n ∈ log)
    (hnew : (c.buf k).blockno ∈ log' → b.valid = true)
    (hpins : ∀ j ≠ k, pins'.count j = pins.count j) (hdirty : ∀ j ≠ k, dirty' j = dirty j)
    (hmaps : ∀ n ≠ (c.buf k).blockno, disk' n = disk n ∧ view' n = view n)
    (hsame : b.valid = false → disk' = disk ∧ view' = view) :
    CacheOk dev (c.setBuf k b) log' pins' dirty' disk' view' := by
  have hother := h.other_block hk hdev
  constructor
  · intro i hi j hj hidev hjdev hij
    by_cases hik : i = k <;> by_cases hjk : j = k
    · rw [hik, hjk]
    · rw [Bcache.setBuf_other c b hjk] at hij hjdev
      rw [hik, Bcache.setBuf_same, hb.2] at hij
      exact absurd hij.symm (hother j hj hjk hjdev)
    · rw [Bcache.setBuf_other c b hik] at hij hidev
      rw [hjk, Bcache.setBuf_same, hb.2] at hij
      exact absurd hij (hother i hi hik hidev)
    · rw [Bcache.setBuf_other c b hik] at hij hidev
      rw [Bcache.setBuf_other c b hjk] at hij hjdev
      exact h.uniq i hi j hj hidev hjdev hij
  · intro n hn
    by_cases hnk : n = (c.buf k).blockno
    · refine ⟨k, hk, ?_⟩
      rw [Bcache.setBuf_same]
      exact ⟨hb.1, hb.2.trans hnk.symm, hnew (hnk ▸ hn)⟩
    · obtain ⟨j, hj, hhas⟩ := h.pinned n ((hlog n hnk).mp hn)
      refine ⟨j, hj, ?_⟩
      have hjk : j ≠ k := by
        rintro rfl
        exact hnk hhas.2.1.symm
      rw [Bcache.setBuf_other c b hjk]
      exact hhas
  · intro n hn
    have hold : (∀ j ∈ c.lru, ¬ Has dev (c.buf j) n) := by
      intro j hj hhas
      by_cases hjk : j = k
      · subst hjk
        refine hn j hj ?_
        rw [Bcache.setBuf_same]
        exact ⟨hb.1, hb.2.trans hhas.2.1, hvalid hhas.2.2⟩
      · refine hn j hj ?_
        rw [Bcache.setBuf_other c b hjk]
        exact hhas
    by_cases hnk : n = (c.buf k).blockno
    · have hinv : b.valid = false := by
        by_contra hv
        rw [Bool.not_eq_false] at hv
        refine hn k hk ?_
        rw [Bcache.setBuf_same]
        exact ⟨hb.1, hb.2.trans hnk.symm, hv⟩
      rw [(hsame hinv).1, (hsame hinv).2]
      exact h.absent n hold
    · rw [(hmaps n hnk).1, (hmaps n hnk).2]
      exact h.absent n hold
  · intro j hj
    by_cases hjk : j = k
    · rw [hjk, Bcache.setBuf_same]
      exact hself
    · rw [Bcache.setBuf_other c b hjk, hdirty j hjk]
      have hokj := h.ok j hj
      have hblock := hother j hj hjk
      constructor
      · rw [hokj.ref, hpins j hjk, logPin_congr fun hjdev => hlog _ (hblock hjdev)]
      · exact hokj.device
      · exact hokj.used
      · exact hokj.locked
      · exact hokj.clean
      · intro hjdev hv hd
        rw [(hmaps _ (hblock hjdev)).1, hlog _ (hblock hjdev)]
        exact hokj.stored hjdev hv hd
      · intro hjdev hv hl
        rw [(hmaps _ (hblock hjdev)).2]
        exact hokj.shown hjdev hv hl

/-- The common case: no parameter changes. -/
theorem set_same {k : ℕ} (hk : k ∈ c.lru) (hdev : (c.buf k).dev = dev)
    (hb : b.dev = dev ∧ b.blockno = (c.buf k).blockno)
    (hvalid : (c.buf k).valid = true → b.valid = true)
    (hself : BufOk dev k b log pins (dirty k) disk view) :
    CacheOk dev (c.setBuf k b) log pins dirty disk view := by
  refine h.set hk hdev hb hvalid hself (fun _ _ => Iff.rfl) (fun hmem => hvalid ?_)
    (fun _ _ => rfl) (fun _ _ => rfl) (fun _ _ => ⟨rfl, rfl⟩) fun _ => ⟨rfl, rfl⟩
  obtain ⟨j, hj, hhas⟩ := h.pinned _ hmem
  rw [← h.uniq j hj k hk hhas.1 hdev hhas.2.1]
  exact hhas.2.2

/-! ## The operations -/

/-- `bget` of a cached block counts one more process. -/
theorem bget_hit (p : ℕ) {k : ℕ} (hk : k ∈ c.lru) (hdev : (c.buf k).dev = dev) :
    CacheOk dev (c.setBuf k { c.buf k with
      refcnt := (c.buf k).refcnt + 1, waiters := p :: (c.buf k).waiters })
      log pins dirty disk view := by
  have hok := h.ok k hk
  refine h.set_same hk hdev ⟨hdev, rfl⟩ id { hok with ref := ?_, used := fun _ => hdev }
  have href := hok.ref
  rw [logPin] at href ⊢
  simp only [List.length_cons]
  omega

/-- **`bget` of a block that is not cached** recycles an unused buffer; the content of the
block it had is on the disk. -/
theorem bget_miss (p : ℕ) {k : ℕ} (hk : k ∈ c.lru) (hzero : (c.buf k).refcnt = 0)
    (hmiss : ∀ j ∈ c.lru, ¬ ((c.buf j).dev = dev ∧ (c.buf j).blockno = n)) :
    CacheOk dev (c.setBuf k { c.buf k with
      dev := dev, blockno := n, valid := false, refcnt := 1,
      waiters := p :: (c.buf k).waiters }) log pins dirty disk view := by
  obtain ⟨hw, hl, hlock, hpins, hnolog⟩ := h.unused hk hzero
  have hok := h.ok k hk
  have hlogn : n ∉ log := by
    intro hn
    obtain ⟨j, hj, hhas⟩ := h.pinned n hn
    exact hmiss j hj ⟨hhas.1, hhas.2.1⟩
  constructor
  · intro i hi j hj hidev hjdev hij
    by_cases hik : i = k <;> by_cases hjk : j = k
    · rw [hik, hjk]
    · rw [Bcache.setBuf_other c _ hjk] at hij hjdev
      rw [hik, Bcache.setBuf_same] at hij
      exact absurd ⟨hjdev, hij.symm⟩ (hmiss j hj)
    · rw [Bcache.setBuf_other c _ hik] at hij hidev
      rw [hjk, Bcache.setBuf_same] at hij
      exact absurd ⟨hidev, hij⟩ (hmiss i hi)
    · rw [Bcache.setBuf_other c _ hik] at hij hidev
      rw [Bcache.setBuf_other c _ hjk] at hij hjdev
      exact h.uniq i hi j hj hidev hjdev hij
  · intro m hm
    obtain ⟨j, hj, hhas⟩ := h.pinned m hm
    have hjk : j ≠ k := by
      rintro rfl
      exact hnolog ⟨hhas.1, hhas.2.1 ▸ hm⟩
    refine ⟨j, hj, ?_⟩
    rw [Bcache.setBuf_other c _ hjk]
    exact hhas
  · intro m hm
    by_cases hold : Has dev (c.buf k) m
    · -- the block that is evicted
      obtain ⟨hdev, rfl, hvalid⟩ := hold
      have hstored := (hok.stored hdev hvalid (hok.clean hlock)).resolve_right fun hmem =>
        hnolog ⟨hdev, hmem⟩
      rw [← hstored]
      exact hok.shown hdev hvalid hlock
    · refine h.absent m fun j hj hhas => ?_
      have hjk : j ≠ k := by
        rintro rfl
        exact hold hhas
      refine hm j hj ?_
      rw [Bcache.setBuf_other c _ hjk]
      exact hhas
  · intro j hj
    by_cases hjk : j = k
    · rw [hjk, Bcache.setBuf_same]
      exact {
        ref := by
          rw [logPin_zero hlogn, hw, hl, hlock, lockCount_none, List.count_eq_zero.mpr hpins]
          rfl
        device := Or.inr rfl
        used := fun _ => rfl
        locked := fun hne => absurd hlock hne
        clean := hok.clean
        stored := fun _ hv => by cases hv
        shown := fun _ hv => by cases hv }
    · rw [Bcache.setBuf_other c _ hjk]
      exact h.ok j hj

end

/-- What `bget` recycles is unused. -/
theorem bget_cases {p k : ℕ} (hget : c.bget p dev n = .ok (k, c')) :
    (k ∈ c.lru ∧ (c.buf k).dev = dev ∧ (c.buf k).blockno = n ∧ c' = c.setBuf k { c.buf k with
        refcnt := (c.buf k).refcnt + 1, waiters := p :: (c.buf k).waiters }) ∨
    (k ∈ c.lru ∧ (c.buf k).refcnt = 0 ∧
      (∀ j ∈ c.lru, ¬ ((c.buf j).dev = dev ∧ (c.buf j).blockno = n)) ∧
      c' = c.setBuf k { c.buf k with
        dev := dev, blockno := n, valid := false, refcnt := 1,
        waiters := p :: (c.buf k).waiters }) := by
  unfold Bcache.bget at hget
  split at hget
  · rename_i j hj
    cases hget
    have hprop := List.find?_some hj
    simp only [decide_eq_true_eq] at hprop
    exact Or.inl ⟨List.mem_of_find?_eq_some hj, hprop.1, hprop.2, rfl⟩
  · rename_i hnone
    rw [List.find?_eq_none] at hnone
    split at hget
    · rename_i j hj
      cases hget
      have hzero := List.find?_some hj
      simp only [decide_eq_true_eq] at hzero
      refine Or.inr ⟨List.mem_reverse.mp (List.mem_of_find?_eq_some hj), hzero, ?_, rfl⟩
      exact fun i hi => by simpa using hnone i hi
    · cases hget

section

variable (h : CacheOk dev c log pins dirty disk view)
include h

theorem bget {p k : ℕ}
    (hget : c.bget p dev n = .ok (k, c')) : CacheOk dev c' log pins dirty disk view := by
  rcases bget_cases hget with ⟨hk, hdev, -, rfl⟩ | ⟨hk, hzero, hmiss, rfl⟩
  · exact h.bget_hit p hk hdev
  · exact h.bget_miss p hk hzero hmiss

/-- An invalid buffer has a block that is not in the cache. -/
theorem absent_of_invalid {k : ℕ} (hk : k ∈ c.lru) (hdev : (c.buf k).dev = dev)
    (hinv : (c.buf k).valid = false) : disk (c.buf k).blockno = view (c.buf k).blockno := by
  refine h.absent _ fun j hj hhas => ?_
  have hjk := h.uniq j hj k hk hhas.1 hdev hhas.2.1
  have hv := hhas.2.2
  rw [hjk, hinv] at hv
  cases hv

/-- **The end of `bread`**: the buffer shows the content of its block. -/
theorem acquireBuf {p k : ℕ} (hacq : c.acquireBuf disk p k = some c') :
    CacheOk dev c' log pins dirty disk view ∧
      (c'.buf k).dev = dev ∧ (c'.buf k).data = view (c'.buf k).blockno := by
  unfold Bcache.acquireBuf at hacq
  by_cases hc : k ∈ c.lru ∧ p ∈ (c.buf k).waiters ∧ (c.buf k).lock = none
  case neg =>
    rw [if_neg hc] at hacq
    cases hacq
  rw [if_pos hc] at hacq
  obtain ⟨hk, hp, hlock⟩ := hc
  cases hacq
  have hok := h.ok k hk
  have href := hok.ref
  have hlen := List.length_erase_of_mem hp
  have hpos := List.length_pos_of_mem hp
  rw [hlock, lockCount_none] at href
  have hdev : (c.buf k).dev = dev := hok.used (by omega)
  have hdata : (if (c.buf k).valid then (c.buf k).data else disk (c.buf k).blockno)
      = view (c.buf k).blockno := by
    split_ifs with hv
    · exact hok.shown hdev hv hlock
    · rw [Bool.not_eq_true] at hv
      exact h.absent_of_invalid hk hdev hv
  refine ⟨h.set_same hk hdev ⟨hdev, rfl⟩ (fun _ => rfl) ?_, ?_, ?_⟩
  · exact {
      ref := by
        rw [logPin] at href ⊢
        simp only [hlen, lockCount_some]
        omega
      device := Or.inr hdev
      used := fun _ => hdev
      locked := fun _ => rfl
      clean := fun hne => by cases hne
      stored := fun _ _ hd => by
        show (if (c.buf k).valid then (c.buf k).data else disk (c.buf k).blockno) = _ ∨ _
        split_ifs with hv
        · exact hok.stored hdev hv hd
        · exact Or.inl rfl
      shown := fun _ _ hne => by cases hne }
  · rw [Bcache.setBuf_same]
    exact hdev
  · rw [Bcache.setBuf_same]
    exact hdata

/-- **`brelse`**: the content of the block is what is released. -/
theorem brelse {p k : ℕ} (hk : k ∈ c.lru) (hclean : dirty k = false)
    (hrel : c.brelse p k = .ok c') : (c.buf k).dev = dev ∧ CacheOk dev c' log pins dirty disk
      (update view (c.buf k).blockno (c.buf k).data) := by
  unfold Bcache.brelse at hrel
  simp only at hrel
  split_ifs at hrel with hlock
  rw [not_not] at hlock
  cases hrel
  have hok := h.ok k hk
  have hdev := h.dev_of_lock hk hlock
  have hvalid := hok.locked (by rw [hlock]; exact Option.some_ne_none p)
  have href := hok.ref
  rw [hlock, lockCount_some] at href
  refine ⟨hdev, h.set hk hdev ⟨hdev, rfl⟩ id ?_ (fun _ _ => Iff.rfl) (fun _ => hvalid)
    (fun _ _ => rfl) (fun _ _ => rfl) (fun n hn => ⟨rfl, update_of_ne hn _ _⟩)
    fun hv => ?_⟩
  · exact {
      ref := by
        rw [logPin] at href ⊢
        simp only [List.length_cons, lockCount_none]
        omega
      device := Or.inr hdev
      used := fun _ => hdev
      locked := fun hne => absurd rfl hne
      clean := fun _ => hclean
      stored := hok.stored
      shown := fun _ _ _ => by
        show _ = update view (c.buf k).blockno _ (c.buf k).blockno
        rw [update_self] }
  · replace hv : (c.buf k).valid = false := hv
    rw [hvalid] at hv
    cases hv

/-- The order of the list does not matter. -/
theorem perm {l : List ℕ} (hl : l.Perm c.lru) :
    CacheOk dev { c with lru := l } log pins dirty disk view where
  uniq := fun j hj k hk => h.uniq j (hl.mem_iff.mp hj) k (hl.mem_iff.mp hk)
  pinned := fun n hn => by
    obtain ⟨k, hk, hhas⟩ := h.pinned n hn
    exact ⟨k, hl.mem_iff.mpr hk, hhas⟩
  absent := fun n hn => h.absent n fun k hk => hn k (hl.mem_iff.mpr hk)
  ok := fun k hk => h.ok k (hl.mem_iff.mp hk)

theorem dropBuf {p k : ℕ} (hk : k ∈ c.lru)
    (hp : p ∈ (c.buf k).leavers) : CacheOk dev (c.dropBuf p k) log pins dirty disk view := by
  have hok := h.ok k hk
  have href := hok.ref
  have hlen := List.length_erase_of_mem hp
  have hpos := List.length_pos_of_mem hp
  have hdev : (c.buf k).dev = dev := hok.used (by omega)
  have hset : CacheOk dev (c.setBuf k { c.buf k with
      refcnt := (c.buf k).refcnt - 1, leavers := (c.buf k).leavers.erase p })
      log pins dirty disk view := by
    refine h.set_same hk hdev ⟨hdev, rfl⟩ id { hok with ref := ?_, used := fun _ => hdev }
    rw [logPin] at href ⊢
    simp only [hlen]
    omega
  unfold Bcache.dropBuf
  simp only
  split_ifs
  · exact hset.perm (List.perm_cons_erase hk).symm
  · exact hset

/-- **The holder of a buffer** may change its data, if it is marked or written to the disk;
and the log and the clients may pin and unpin it. -/
theorem held {p k ref : ℕ} (hk : k ∈ c.lru) (hlock : (c.buf k).lock = some p)
    (hlog : ∀ n ≠ (c.buf k).blockno, n ∈ log' ↔ n ∈ log)
    (hpins : ∀ j ≠ k, pins'.count j = pins.count j) (hdirty : ∀ j ≠ k, dirty' j = dirty j)
    (hdisk : ∀ n ≠ (c.buf k).blockno, disk' n = disk n)
    (href : ref = (c.buf k).waiters.length + (c.buf k).leavers.length + 1
      + logPin dev log' (c.buf k) + pins'.count k)
    (hstored : dirty' k = false → d = disk' (c.buf k).blockno ∨ (c.buf k).blockno ∈ log') :
    CacheOk dev (c.setBuf k { c.buf k with refcnt := ref, data := d })
      log' pins' dirty' disk' view := by
  have hok := h.ok k hk
  have hdev := h.dev_of_lock hk hlock
  have hvalid := hok.locked (by rw [hlock]; exact Option.some_ne_none p)
  refine h.set hk hdev ⟨hdev, rfl⟩ id ?_ hlog (fun _ => hvalid) hpins hdirty
    (fun n hn => ⟨hdisk n hn, rfl⟩) fun hv => ?_
  · exact {
      ref := by
        show ref = (c.buf k).waiters.length + (c.buf k).leavers.length + lockCount (c.buf k).lock
          + _ + _
        rw [hlock, lockCount_some, href]
        rfl
      device := Or.inr hdev
      used := fun _ => hdev
      locked := fun _ => hvalid
      clean := fun hne => by
        rw [show (c.buf k).lock = none from hne] at hlock
        cases hlock
      stored := fun _ _ => hstored
      shown := fun _ _ hne => by
        rw [show (c.buf k).lock = none from hne] at hlock
        cases hlock }
  · rw [show (c.buf k).valid = false from hv] at hvalid
    cases hvalid

/-- The count of a buffer that is held. -/
theorem ref_of_lock {p k : ℕ} (hk : k ∈ c.lru) (hlock : (c.buf k).lock = some p) :
    (c.buf k).refcnt = (c.buf k).waiters.length + (c.buf k).leavers.length + 1
      + logPin dev log (c.buf k) + pins.count k := by
  rw [(h.ok k hk).ref, hlock, lockCount_some]

/-- The data may change, marked or written. -/
theorem setData {p k : ℕ} (d : Block) {mark : Bool} (hk : k ∈ c.lru)
    (hlock : (c.buf k).lock = some p) (hdisk : ∀ n ≠ (c.buf k).blockno, disk' n = disk n)
    (hstored : mark = false → d = disk' (c.buf k).blockno ∨ (c.buf k).blockno ∈ log) :
    CacheOk dev (c.setData k d) log pins (update dirty k mark) disk' view := by
  refine h.held hk hlock (fun _ _ => Iff.rfl) (fun _ _ => rfl)
    (fun j hj => update_of_ne hj _ _) hdisk (h.ref_of_lock hk hlock) ?_
  rw [update_self]
  exact hstored

end

theorem setData_self (c : Bcache) (k : ℕ) : c.setData k (c.buf k).data = c := by
  rw [Bcache.setData, Bcache.setBuf, update_eq_self]

/-- The log pins a buffer. -/
theorem pin_log (h : CacheOk dev c log pins dirty disk view) {p k : ℕ} (hk : k ∈ c.lru)
    (hlock : (c.buf k).lock = some p) (hnew : (c.buf k).blockno ∉ log) :
    CacheOk dev (c.bpin k) (log ++ [(c.buf k).blockno]) pins (update dirty k false) disk view := by
  have hmem : (c.buf k).blockno ∈ log ++ [(c.buf k).blockno] :=
    List.mem_append_right log List.mem_cons_self
  refine h.held hk hlock (fun n hn => ?_) (fun _ _ => rfl)
    (fun j hj => update_of_ne hj _ _) (fun _ _ => rfl) ?_ fun _ => Or.inr hmem
  · rw [List.mem_append, List.mem_singleton, or_iff_left hn]
  · rw [h.ref_of_lock hk hlock, logPin_zero hnew, logPin_pos ⟨h.dev_of_lock hk hlock, hmem⟩]
    omega

/-- A client pins a buffer. -/
theorem pin_client (h : CacheOk dev c log pins dirty disk view) {p k : ℕ} (hk : k ∈ c.lru)
    (hlock : (c.buf k).lock = some p) : CacheOk dev (c.bpin k) log (k :: pins) dirty disk view := by
  have hok := h.ok k hk
  refine h.held hk hlock (fun _ _ => Iff.rfl) (fun j hj => ?_) (fun _ _ => rfl) (fun _ _ => rfl)
    ?_ (hok.stored (h.dev_of_lock hk hlock) (hok.locked ?_))
  · rw [List.count_cons_of_ne (Ne.symm hj)]
  · rw [h.ref_of_lock hk hlock, List.count_cons_self]
    omega
  · rw [hlock]
    exact Option.some_ne_none p

/-- A client unpins a buffer. -/
theorem unpin_client (h : CacheOk dev c log pins dirty disk view) {k : ℕ} (hk : k ∈ c.lru)
    (hpin : k ∈ pins) : CacheOk dev (c.bunpin k) log (pins.erase k) dirty disk view := by
  have hok := h.ok k hk
  have href := hok.ref
  have hpos := List.count_pos_iff.mpr hpin
  have hdev : (c.buf k).dev = dev := hok.used (by omega)
  refine h.set hk hdev ⟨hdev, rfl⟩ id { hok with ref := ?_, used := fun _ => hdev }
    (fun _ _ => Iff.rfl) (fun hmem => ?_) (fun j hj => ?_) (fun _ _ => rfl)
    (fun _ _ => ⟨rfl, rfl⟩) fun _ => ⟨rfl, rfl⟩
  · rw [List.count_erase_self]
    rw [logPin] at href ⊢
    simp only
    omega
  · obtain ⟨j, hj, hhas⟩ := h.pinned _ hmem
    have hjk := h.uniq j hj k hk hhas.1 hdev hhas.2.1
    exact hjk ▸ hhas.2.2
  · rw [List.count_erase_of_ne hj]

/-- **A block is installed**: written to the disk, and no longer pinned by the log. -/
theorem install (h : CacheOk dev c (n :: log) pins dirty disk view) {p k : ℕ} (d : Block)
    (hk : k ∈ c.lru) (hlock : (c.buf k).lock = some p) (hn : (c.buf k).blockno = n)
    (hnew : n ∉ log) : CacheOk dev ((c.setData k d).bunpin k) log pins (update dirty k false)
      (update disk n d) view := by
  have hset : (c.setData k d).bunpin k
      = c.setBuf k { c.buf k with refcnt := (c.buf k).refcnt - 1, data := d } := by
    rw [Bcache.bunpin, Bcache.setData, Bcache.setBuf_same, Bcache.setBuf, Bcache.setBuf,
      Bcache.setBuf, update_idem]
  rw [hset]
  refine h.held hk hlock (fun m hm => ?_) (fun _ _ => rfl)
    (fun j hj => update_of_ne hj _ _) (fun m hm => ?_) ?_ fun _ => Or.inl ?_
  · rw [List.mem_cons, or_iff_right (hn ▸ hm)]
  · exact update_of_ne (hn ▸ hm) _ _
  · have hmem : (c.buf k).blockno ∈ n :: log := hn ▸ List.mem_cons_self
    rw [h.ref_of_lock hk hlock, logPin_pos ⟨h.dev_of_lock hk hlock, hmem⟩,
      logPin_zero (hn ▸ hnew)]
    omega
  · rw [hn, update_self]

end CacheOk

/-! ## The invariant of the system -/

/-- The blocks that the log keeps pinned. -/
def logPins (lh : List ℕ) : Pc → List ℕ
  | .install _ tail => lh.drop tail
  | _ => lh

structure Inv (dev : ℕ) (disk₀ : Disk) (s : St) : Prop where
  cache : CacheOk dev s.cache (logPins s.log.lh s.pc) s.pins s.dirty s.disk (content disk₀ s.released dev)
  nodup : s.log.lh.Nodup
  running : s.log.outstanding = s.ops.length
  committing : s.log.committing = true ↔ s.pc ≠ .idle
  quiet : s.pc ≠ .idle → s.ops = []

theorem content_cons (disk : Disk) (released : List Release) (dev n : ℕ) (d : Block) :
    content disk (⟨dev, n, d⟩ :: released) dev = update (content disk released dev) n d := by
  funext m
  by_cases hm : m = n
  · subst hm
    rw [update_self, content, List.find?_cons_of_pos (by simp)]
  · rw [update_of_ne hm, content, List.find?_cons_of_neg (by simp [Ne.symm hm])]
    rfl

theorem inv_start (hdev : dev ≠ 0) (sb : Superblock) (disk : Disk) :
    Inv dev disk (start sb disk) where
  cache := CacheOk.binit hdev disk
  nodup := List.nodup_nil
  running := rfl
  committing := by
    constructor
    · intro h
      cases h
    · intro h
      exact absurd rfl h
  quiet := fun h => absurd rfl h

/-! ## Steps -/

variable {disk₀ : Disk} {s t : St} {p k : ℕ}

section

variable (h : Inv dev disk₀ s)
include h

/-- A step that changes the cache only. -/
theorem Inv.setCache {released' : List Release}
    (hcache : CacheOk dev c' (logPins s.log.lh s.pc) pins' dirty' disk' (content disk₀ released' dev)) :
    Inv dev disk₀ { s with
      cache := c', pins := pins', dirty := dirty', disk := disk', released := released' } :=
  ⟨hcache, h.nodup, h.running, h.committing, h.quiet⟩

theorem inv_beginOp (hstep : beginOp s p = some t) : Inv dev disk₀ t := by
  unfold beginOp at hstep
  split_ifs at hstep
  obtain ⟨l, hl, rfl⟩ := Option.map_eq_some_iff.mp hstep
  unfold Log.beginOp at hl
  split_ifs at hl with hcomm
  cases hl
  refine ⟨h.cache, h.nodup, ?_, h.committing, fun hpc => absurd (h.committing.mpr hpc) hcomm⟩
  show s.log.outstanding + 1 = s.ops.length + 1
  rw [h.running]

theorem Inv.idle (hp : p ∈ s.ops) : s.pc = .idle := by
  by_contra hpc
  rw [h.quiet hpc] at hp
  cases hp

/-- The first step of `commit`. -/
theorem inv_commit (hpc : s.pc = .idle) {l : Log}
    (hl : l.lh = s.log.lh ∧ l.outstanding = 0 ∧ l.committing = true)
    (hnew : pc = .writeLog p 0 ∨ pc = .done p) : Inv dev disk₀ { s with log := l, ops := [], pc } := by
  obtain ⟨hlh, hout, hcomm⟩ := hl
  have hpins : logPins l.lh pc = logPins s.log.lh s.pc := by
    rw [hpc, hlh]
    rcases hnew with rfl | rfl <;> rfl
  have hne : pc ≠ .idle := by
    rcases hnew with rfl | rfl <;> exact fun hc => by cases hc
  refine ⟨?_, ?_, hout, ⟨fun _ => hne, fun _ => hcomm⟩, fun _ => rfl⟩
  · show CacheOk dev s.cache (logPins l.lh pc) _ _ _ _
    rw [hpins]
    exact h.cache
  · rw [hlh]
    exact h.nodup

theorem inv_endOp (hstep : endOp s p = some t) : Inv dev disk₀ t := by
  unfold endOp at hstep
  split_ifs at hstep with hp
  have hlen := List.length_erase_of_mem hp
  have hidle := h.idle hp
  unfold Log.endOp at hstep
  split_ifs at hstep with hcomm hlast
  · cases hstep
    have hempty : s.ops.erase p = [] := by
      rw [← List.length_eq_zero_iff, hlen, ← h.running]
      exact hlast
    rw [hempty, if_pos rfl]
    refine inv_commit h hidle ⟨rfl, rfl, rfl⟩ (p := p) ?_
    split_ifs
    · exact Or.inl rfl
    · exact Or.inr rfl
  · cases hstep
    refine ⟨h.cache, h.nodup, ?_, h.committing, fun hpc => absurd hidle hpc⟩
    show s.log.outstanding - 1 = _
    rw [hlen, h.running]

theorem inv_logWrite (hstep : logWrite s p k = some t) : Inv dev disk₀ t := by
  unfold logWrite at hstep
  split_ifs at hstep with hc
  obtain ⟨hp, hk, hlock⟩ := hc
  have hidle := h.idle hp
  have hcache := h.cache
  rw [hidle] at hcache
  unfold Log.logWrite at hstep
  split_ifs at hstep with hfull hout hmem
  · -- absorption: the block is pinned already
    cases hstep
    refine h.setCache ?_
    rw [hidle, if_neg Bool.false_ne_true, ← CacheOk.setData_self s.cache k]
    exact hcache.setData _ hk hlock (fun _ _ => rfl) fun _ => Or.inr hmem
  · cases hstep
    refine ⟨?_, ?_, h.running, h.committing, h.quiet⟩
    · show CacheOk dev _ (logPins _ s.pc) _ _ _ _
      rw [hidle]
      exact hcache.pin_log hk hlock hmem
    · exact List.nodup_append_comm.mp (List.nodup_cons.mpr ⟨hmem, h.nodup⟩)

/-- `memmove` and `bwrite` by the commit. -/
theorem inv_putBlock (hold : Holds s.cache dev p k n) (hput : putBlock s p k d = some t) :
    Inv dev disk₀ t ∧ t.pc = s.pc ∧ t.log = s.log ∧ t.ops = s.ops ∧
      t.cache = s.cache.setData k d ∧ t.disk = update s.disk n d ∧
      t.dirty = update s.dirty k false ∧ t.pins = s.pins ∧ t.released = s.released := by
  obtain ⟨hk, hlock, hdev, rfl⟩ := hold
  have hself : (s.cache.setData k d).buf k = { s.cache.buf k with data := d } :=
    Bcache.setBuf_same _ _ _
  have hwrite : (s.cache.setData k d).bwrite s.disk p k
      = .ok (update s.disk (s.cache.buf k).blockno d) := by
    rw [Bcache.bwrite, hself, if_neg (not_not.mpr hlock)]
  unfold putBlock at hput
  simp only [hwrite] at hput
  cases hput
  refine ⟨h.setCache (h.cache.setData d hk hlock (fun n hn => update_of_ne hn _ _)
    fun _ => Or.inl ?_), rfl, rfl, rfl, rfl, rfl, rfl, rfl, rfl⟩
  rw [update_self]

/-- A step inside `commit`. -/
theorem Inv.commits (hpc : s.pc ≠ .idle) {lh : List ℕ} {c : Bcache} (hpc' : pc ≠ .idle)
    (hnd : lh.Nodup)
    (hcache : CacheOk dev c (logPins lh pc) s.pins s.dirty s.disk (content disk₀ s.released dev)) :
    Inv dev disk₀ { s with cache := c, log := { s.log with lh }, pc } where
  cache := hcache
  nodup := hnd
  running := h.running
  committing := ⟨fun _ => hpc', fun _ => h.committing.mpr hpc⟩
  quiet := fun _ => h.quiet hpc

end

theorem inv_writeLog {kto kfrom : ℕ} (h : Inv dev disk₀ s)
    (hstep : stepWriteLog dev s p kto kfrom = some t) : Inv dev disk₀ t := by
  unfold stepWriteLog at hstep
  split at hstep
  · rename_i q tail hpc
    split at hstep
    · cases hstep
    · split_ifs at hstep with hc
      obtain ⟨u, hput, rfl⟩ := Option.map_eq_some_iff.mp hstep
      obtain ⟨hinv, hupc, -⟩ := inv_putBlock h hc.2.1 hput
      have hcache := hinv.cache
      rw [hupc, hpc] at hcache
      refine hinv.commits ?_ Pc.noConfusion hinv.nodup hcache
      rw [hupc, hpc]
      exact Pc.noConfusion
  · cases hstep

theorem inv_writeHead (h : Inv dev disk₀ s) (hstep : stepWriteHead dev s p k = some t) :
    Inv dev disk₀ t := by
  unfold stepWriteHead at hstep
  split at hstep
  · rename_i q tail hpc
    split_ifs at hstep with hc
    obtain ⟨u, hput, rfl⟩ := Option.map_eq_some_iff.mp hstep
    obtain ⟨hinv, hupc, -⟩ := inv_putBlock h hc.2.2 hput
    have hcache := hinv.cache
    rw [hupc, hpc] at hcache
    refine hinv.commits ?_ Pc.noConfusion hinv.nodup hcache
    rw [hupc, hpc]
    exact Pc.noConfusion
  · cases hstep

/-- **A round of `install_trans`**: the first of the pinned blocks is unpinned. -/
theorem inv_install {klog kdst : ℕ} (h : Inv dev disk₀ s)
    (hstep : stepInstall dev s p klog kdst = some t) : Inv dev disk₀ t := by
  unfold stepInstall at hstep
  split at hstep
  · rename_i q tail hpc
    split at hstep
    · cases hstep
    · rename_i b hb
      split_ifs at hstep with hc
      obtain ⟨u, hput, rfl⟩ := Option.map_eq_some_iff.mp hstep
      obtain ⟨hk, hlock, -, hn⟩ := hc.2.2
      obtain ⟨hinv, hupc, hulog, -, hucache, hudisk, hudirty, hupins, hurel⟩ :=
        inv_putBlock h hc.2.2 hput
      obtain ⟨hlt, hget⟩ := List.getElem?_eq_some_iff.mp hb
      have hdrop : s.log.lh.drop tail = b :: s.log.lh.drop (tail + 1) := by
        rw [← hget]
        exact List.drop_eq_getElem_cons hlt
      have hnot : b ∉ s.log.lh.drop (tail + 1) := by
        have hnd := h.nodup.sublist (List.drop_sublist tail s.log.lh)
        rw [hdrop] at hnd
        exact (List.nodup_cons.mp hnd).1
      have hcache := h.cache
      rw [hpc, logPins, hdrop] at hcache
      refine hinv.commits ?_ Pc.noConfusion hinv.nodup ?_
      · rw [hupc, hpc]
        exact Pc.noConfusion
      · show CacheOk dev _ (logPins u.log.lh _) _ _ _ _
        rw [hulog, hucache, hudisk, hudirty, hupins, hurel]
        exact hcache.install _ hk hlock hn hnot
  · cases hstep

theorem inv_clearHead (h : Inv dev disk₀ s) (hstep : stepClearHead dev s p k = some t) :
    Inv dev disk₀ t := by
  unfold stepClearHead at hstep
  split at hstep
  · rename_i q tail hpc
    split_ifs at hstep with hc
    obtain ⟨u, hput, rfl⟩ := Option.map_eq_some_iff.mp hstep
    obtain ⟨hinv, hupc, hulog, -⟩ := inv_putBlock h hc.2.2 hput
    have hcache := hinv.cache
    rw [hupc, hpc, hulog, logPins, hc.2.1, List.drop_length] at hcache
    refine hinv.commits ?_ Pc.noConfusion List.nodup_nil hcache
    rw [hupc, hpc]
    exact Pc.noConfusion
  · cases hstep

theorem inv_finish (h : Inv dev disk₀ s) (hstep : finish s p = some t) : Inv dev disk₀ t := by
  unfold finish at hstep
  split_ifs at hstep with hpc
  cases hstep
  have hcache := h.cache
  rw [hpc] at hcache
  refine ⟨hcache, h.nodup, h.running, ?_, fun hc => absurd rfl hc⟩
  exact ⟨Bool.noConfusion, fun hc => absurd rfl hc⟩

/-- The block is asked for on the device of the log. -/
def OnDevice (dev : ℕ) : Act → Prop
  | .bget _ d _ => d = dev
  | _ => True

instance (dev : ℕ) : (a : Act) → Decidable (OnDevice dev a)
  | .bget _ d _ => inferInstanceAs (Decidable (d = dev))
  | .beginOp _ => isTrue trivial
  | .endOp _ => isTrue trivial
  | .acquire _ _ => isTrue trivial
  | .modify _ _ _ => isTrue trivial
  | .bwrite _ _ => isTrue trivial
  | .logWrite _ _ => isTrue trivial
  | .bpin _ _ => isTrue trivial
  | .bunpin _ _ => isTrue trivial
  | .brelse _ _ => isTrue trivial
  | .drop _ _ => isTrue trivial
  | .writeLog _ _ _ => isTrue trivial
  | .writeHead _ _ => isTrue trivial
  | .install _ _ _ => isTrue trivial
  | .clearHead _ _ => isTrue trivial
  | .finish _ => isTrue trivial

/-- **One step** on the device keeps the invariant. -/
theorem inv_step (a : Act) (h : Inv dev disk₀ s) (hon : OnDevice dev a)
    (hstep : step dev s a = some t) : Inv dev disk₀ t := by
  cases a with
  | beginOp p => exact inv_beginOp h hstep
  | endOp p => exact inv_endOp h hstep
  | bget p d n =>
    replace hon : d = dev := hon
    subst hon
    simp only [step, bget] at hstep
    split_ifs at hstep
    cases hget : s.cache.bget p d n with
    | error e =>
      rw [hget] at hstep
      cases hstep
    | ok r =>
      rw [hget] at hstep
      cases hstep
      exact h.setCache (h.cache.bget hget)
  | acquire p k =>
    obtain ⟨c', hacq, rfl⟩ := Option.map_eq_some_iff.mp hstep
    exact h.setCache (h.cache.acquireBuf hacq).1
  | modify p k d =>
    simp only [step, modify] at hstep
    split_ifs at hstep with hc
    cases hstep
    exact h.setCache (h.cache.setData d hc.1 hc.2 (fun _ _ => rfl) Bool.noConfusion)
  | bwrite p k =>
    simp only [step, bwrite, Bcache.bwrite] at hstep
    split_ifs at hstep with hk hlock
    rw [not_not] at hlock
    cases hstep
    refine h.setCache ?_
    rw [← CacheOk.setData_self s.cache k]
    refine h.cache.setData _ hk hlock (fun n hn => ?_) fun _ => Or.inl ?_
    · rw [CacheOk.setData_self, update_of_ne hn]
    · rw [CacheOk.setData_self, update_self]
  | logWrite p k => exact inv_logWrite h hstep
  | bpin p k =>
    simp only [step, bpin] at hstep
    split_ifs at hstep with hc
    cases hstep
    exact h.setCache (h.cache.pin_client hc.1 hc.2)
  | bunpin p k =>
    simp only [step, bunpin] at hstep
    split_ifs at hstep with hc
    cases hstep
    exact h.setCache (h.cache.unpin_client hc.1 hc.2)
  | brelse p k =>
    simp only [step, brelse] at hstep
    split_ifs at hstep with hc
    cases hrel : s.cache.brelse p k with
    | error e =>
      rw [hrel] at hstep
      cases hstep
    | ok c' =>
      rw [hrel] at hstep
      cases hstep
      obtain ⟨hdev, hcache⟩ := h.cache.brelse hc.1 hc.2 hrel
      refine h.setCache ?_
      rw [hdev, content_cons]
      exact hcache
  | drop p k =>
    simp only [step, drop] at hstep
    split_ifs at hstep with hc
    cases hstep
    exact h.setCache (h.cache.dropBuf hc.1 hc.2)
  | writeLog p kto kfrom => exact inv_writeLog h hstep
  | writeHead p k => exact inv_writeHead h hstep
  | install p klog kdst => exact inv_install h hstep
  | clearHead p k => exact inv_clearHead h hstep
  | finish p => exact inv_finish h hstep

/-! ## The result -/

/-- What the clients of the cache rely on: a block is in at most one buffer; `bget` only
recycles buffers that nobody uses and that are not pinned; and `bread` gives the content
that was released last. -/
structure Transparent (dev : ℕ) (disk₀ : Disk) (s : St) : Prop where
  unique : ∀ j ∈ s.cache.lru, ∀ k ∈ s.cache.lru, (s.cache.buf j).dev ≠ 0 →
    (s.cache.buf j).dev = (s.cache.buf k).dev →
    (s.cache.buf j).blockno = (s.cache.buf k).blockno → j = k
  recycled : ∀ p d n k c, s.cache.bget p d n = .ok (k, c) →
    ¬ ((s.cache.buf k).dev = d ∧ (s.cache.buf k).blockno = n) →
    (s.cache.buf k).refcnt = 0 ∧ (s.cache.buf k).lock = none ∧ k ∉ s.pins ∧
      ¬ ((s.cache.buf k).dev = dev ∧ (s.cache.buf k).blockno ∈ logPins s.log.lh s.pc)
  bread : ∀ p k t, step dev s (.acquire p k) = some t →
    (t.cache.buf k).data = content disk₀ s.released (t.cache.buf k).dev (t.cache.buf k).blockno

theorem Inv.transparent (h : Inv dev disk₀ s) : Transparent dev disk₀ s where
  unique j hj k hk hzero hdev hblock := by
    have hjdev := ((h.cache.ok j hj).device).resolve_left hzero
    exact h.cache.uniq j hj k hk hjdev (hdev ▸ hjdev) hblock
  recycled p d n k c hget hnew := by
    rcases CacheOk.bget_cases hget with ⟨-, hdev, hblock, -⟩ | ⟨hk, hzero, -, -⟩
    · exact absurd ⟨hdev, hblock⟩ hnew
    · obtain ⟨-, -, hlock, hpins, hlog⟩ := h.cache.unused hk hzero
      exact ⟨hzero, hlock, hpins, hlog⟩
  bread p k t hstep := by
    obtain ⟨c', hacq, rfl⟩ := Option.map_eq_some_iff.mp hstep
    obtain ⟨-, hdev, hdata⟩ := h.cache.acquireBuf hacq
    show (c'.buf k).data = content disk₀ s.released (c'.buf k).dev (c'.buf k).blockno
    rw [hdev]
    exact hdata

/-- **The buffer cache is transparent** in every run on one device other than 0. -/
theorem cache_transparent (dev : ℕ) (hdev : dev ≠ 0) (sb : Superblock) (disk : Disk)
    (acts : List Act) (hon : ∀ a ∈ acts, OnDevice dev a) :
    Always (step dev) (Transparent dev disk) (start sb disk) acts :=
  always_of_invariant (fun _ a _ => inv_step a) (fun _ => Inv.transparent) acts _
    (inv_start hdev sb disk) (Meets.of_forall acts _ fun _ a ha => hon a ha)

/-- Block 5 of device 1 is read, changed in an operation and released, and read again. -/
def readBack : List Act :=
  [.bget 0 1 5, .acquire 0 0, .beginOp 0, .modify 0 0 fun _ => 1, .logWrite 0 0, .brelse 0 0,
    .drop 0 0, .bget 3 1 5, .acquire 3 0]

theorem cache_transparent_readBack :
    Always (step ROOTDEV) (Transparent ROOTDEV fun _ _ => 0) (start Mkfs.sb fun _ _ => 0) readBack :=
  cache_transparent ROOTDEV (by decide) Mkfs.sb _ readBack (by decide)

/-- `refcnt` counts the processes that wait for a buffer, hold it or give it back, and its pins. -/
def RefExact (dev : ℕ) (s : St) : Prop :=
  ∀ k ∈ s.cache.lru, let b := s.cache.buf k
    b.refcnt = b.waiters.length + b.leavers.length + lockCount b.lock
      + logPin dev (logPins s.log.lh s.pc) b + s.pins.count k

/-- **`refcnt` is exact** in every run on one device. -/
theorem refcnt_exact (hdev : dev ≠ 0) (sb : Superblock) (disk : Disk) (acts : List Act)
    (hon : ∀ a ∈ acts, OnDevice dev a) : Always (step dev) (RefExact dev) (start sb disk) acts :=
  always_of_invariant (fun _ a _ => inv_step a) (fun _ h k hk => (h.cache.ok k hk).ref) acts _
    (inv_start hdev sb disk) (Meets.of_forall acts _ fun _ a ha => hon a ha)

theorem refcnt_exact_readBack :
    Always (step ROOTDEV) (RefExact ROOTDEV) (start Mkfs.sb fun _ _ => 0) readBack :=
  refcnt_exact (by decide) Mkfs.sb _ readBack (by decide)

/-- Block 5 of device 2 is changed, written and released, then block 5 of device 1 is asked
for. -/
def twoDevices : List Act :=
  [.bget 0 2 5, .acquire 0 0, .modify 0 0 fun _ => 1, .bwrite 0 0, .brelse 0 0, .drop 0 0,
    .bget 0 1 5]

/-- The same with block 5 of device 1 in the cache from the start. -/
def twoDevicesCached : List Act :=
  [.bget 0 1 5, .acquire 0 0, .brelse 0 0, .drop 0 0] ++
    [.bget 0 2 5, .acquire 0 1, .modify 0 1 fun _ => 1, .bwrite 0 1, .brelse 0 1, .drop 0 1,
      .bget 0 1 5]

/-- **Two devices share the disk.**  A block of device 1 that nobody has released shows what
was released for the block of device 2 with the same number; and if it was cached before,
it does not show what was released last for this number. -/
theorem two_devices_share_the_disk :
    ¬ Always (step ROOTDEV) (Transparent ROOTDEV fun _ _ => 0) (start Mkfs.sb fun _ _ => 0)
      twoDevices ∧
    (run (step ROOTDEV) (start Mkfs.sb fun _ _ => 0) (twoDevicesCached ++ [.acquire 0 0])).map
        (fun t => ((t.cache.buf 0).data 0, t.released.head?.map fun r => (r.blockno, r.data 0)))
      = some (0, some (5, 1)) := by
  refine ⟨fun hal => ?_, by decide +kernel⟩
  have hend : ((run (step ROOTDEV) (start Mkfs.sb fun _ _ => 0) twoDevices).bind fun s =>
      (step ROOTDEV s (.acquire 0 1)).map fun t =>
        ((t.cache.buf 1).data 0, content (fun _ _ => 0) s.released (t.cache.buf 1).dev
          (t.cache.buf 1).blockno 0)) = some (1, 0) := by decide +kernel
  obtain ⟨s, hs, hstep⟩ := Option.bind_eq_some_iff.mp hend
  obtain ⟨t, ht, heq⟩ := Option.map_eq_some_iff.mp hstep
  have hbread := (Always.of_run _ _ s hal hs).bread 0 1 t ht
  rw [Prod.mk.injEq, hbread] at heq
  have : (1 : UInt8) = 0 := heq.1.symm.trans heq.2
  cases this

end Cache

/-
# Directories during a call

A directory is a file of slots of 16 bytes, each with the number of an inode and a name;
a slot with number 0 is empty.  On a consistent disk `dirlookup` returns the inode of a
slot with the name, and `dirlink` fills an empty slot or appends one.
-/
import Xv6.FsUpdate

namespace Fs

open Hoare

variable {sb : Superblock} {w : Prop} {g : Watch} {o : ℕ} {H : Multiset Ip} {dp ip : Ip} {s t u : State}
variable {D D' : ℕ → Dinode} {blk blk' : ℕ → ℕ → UInt8} {i k : ℕ} {name : List UInt8}

/-! ## Slots -/

theorem slotBytes_congr
    (h : ∀ j, j < DIRENT → content D' blk' i (DIRENT * k + j) = content D blk i (DIRENT * k + j)) :
    slotBytes D' blk' i k = slotBytes D blk i k := by
  apply List.map_congr_left
  intro j hj
  exact h j (List.mem_range.mp hj)

/-- The slot has a number and the name. -/
def Matches (s : State) (dp : Ip) (name : List UInt8) (k : ℕ) : Prop :=
  slotInum s.dinode s.block (s.itable dp).inum k ≠ 0 ∧
    slotName s.dinode s.block (s.itable dp).inum k = cname name

/-- The slot lies in the directory. -/
def InDir (s : State) (dp : Ip) (k : ℕ) : Prop := DIRENT * k + DIRENT ≤ (s.itable dp).d.size

theorem Consistent.size_le (h : Consistent sb s) (hpos : 0 < (s.itable dp).ref)
    (hv : (s.itable dp).valid = true) : (s.itable dp).d.size ≤ MAXFILE * BSIZE := by
  by_contra hlt
  have hlast := h.has hpos hv (MAXFILE * BSIZE) (by omega)
  have := home_lt hlast
  rw [Nat.mul_div_cancel _ (by decide)] at this
  omega

/-- Reading a slot: the whole of it, or less at the end of the directory. -/
theorem readi_slot (h : Consistent sb s) (hpos : 0 < (s.itable dp).ref)
    (hv : (s.itable dp).valid = true) (hk : DIRENT * k ≤ (s.itable dp).d.size) :
    ∃ n bytes, readi sb dp always (DIRENT * k) DIRENT s = .ok ((n : ℕ), bytes) s ∧
      (n = DIRENT → InDir s dp k ∧ bytes = slotBytes s.dinode s.block (s.itable dp).inum k) ∧
      (InDir s dp k → n = DIRENT) := by
  have hsize := h.size_le hpos hv
  have hmax : MAXFILE * BSIZE + DIRENT < 2 ^ 32 := by decide
  refine ⟨_, _, readi_bytes (h.has hpos hv) hk (by omega), fun hn => ?_, fun hin => ?_⟩
  · have hin : InDir s dp k := by
      unfold InDir
      omega
    refine ⟨hin, ?_⟩
    rw [hn]
    unfold bytesAt slotBytes byteAt
    rw [cur_of_clean (h.clean dp hpos hv)]
  · unfold InDir at hin
    omega

theorem readSlot_ends (h : Inv sb w g o H s) (hpos : 0 < (s.itable dp).ref)
    (hv : w → (s.itable dp).valid = true) (hk : w → DIRENT * k ≤ (s.itable dp).d.size) :
    Ends (readi sb dp always (DIRENT * k) DIRENT s)
      (fun r t => Inv sb w g o H t ∧ Body dp s t ∧ (w → t = s ∧
        (r.1 = DIRENT → InDir s dp k ∧ r.2 = slotBytes s.dinode s.block (s.itable dp).inum k)))
      (Fine w g) := by
  by_cases hw : w
  · obtain ⟨n, bytes, hrun, hslot, -⟩ := readi_slot (h.good hw) hpos (hv hw) (hk hw)
    rw [hrun]
    refine ⟨h, Body.refl dp s, fun _ => ⟨rfl, fun hn => hslot ?_⟩⟩
    have hn' : (n : ℤ) = DIRENT := hn
    exact_mod_cast hn'
  · apply (readi_ends h hpos hv always _ _).post
    rintro r t ⟨hinv, hbody, -⟩
    exact ⟨hinv, hbody, fun hw' => absurd hw' hw⟩

/-! ## dirlookup -/

/-- What a lookup that has looked at the slots `[a, z)` returns. -/
def LookedUp (sb : Superblock) (w : Prop) (g : Watch) (o : ℕ) (H : Multiset Ip) (dp : Ip)
    (name : List UInt8) (a z : ℕ) (s : State) (r : Option (Ip × ℕ)) (t : State) : Prop :=
  match r with
  | none => Inv sb w g o H t ∧ Keeps H s t ∧
    (w → t = s ∧ ∀ k, a ≤ k → k < z → InDir s dp k ∧ ¬ Matches s dp name k)
  | some (ip, off) => Inv sb w g o (ip ::ₘ H) t ∧ Keeps H s t ∧
    (w → SameDisk s t ∧ ∃ k, a ≤ k ∧ k < z ∧ off = DIRENT * k ∧ InDir s dp k ∧
      Matches s dp name k ∧ (t.itable ip).inum = slotInum s.dinode s.block (s.itable dp).inum k)

theorem Inv.note (h : Inv sb w g o H s) {inum : ℕ} (hg : g → (s.dinode inum).type ≠ 0) :
    Inv sb w g o H { s with dangled := s.dangled || decide ((s.dinode inum).type = 0) } := by
  refine ⟨h.refs.of_table rfl rfl fun _ => rfl, h.op, h.gw, fun hw => ?_, fun hg' => ?_⟩
  · have hgood := h.good hw
    exact ⟨hgood.fits, hgood.unique, hgood.clean, hgood.typed, hgood.sound, hgood.whole⟩
  · have hlive := h.live hg'
    refine ⟨hlive.alloc, hlive.files, ?_, hlive.saved⟩
    rw [hlive.sure, Bool.false_or]
    exact decide_eq_false (hg hg')

theorem namecmp_slot {de : List UInt8} : namecmp name (deName de) = true ↔
    cname (deName de) = cname name := by
  unfold namecmp
  rw [decide_eq_true_eq]
  exact eq_comm

/-- A slot without the name goes before the rest. -/
theorem LookedUp.cons {a z : ℕ} {r : Option (Ip × ℕ)} (hb : Body dp s t)
    (hno : w → t = s ∧ InDir s dp a ∧ ¬ Matches s dp name a)
    (h : LookedUp sb w g o H dp name (a + 1) z t r u) : LookedUp sb w g o H dp name a z s r u := by
  cases r with
  | none =>
    obtain ⟨hinv, hkeeps, hrest⟩ := h
    refine ⟨hinv, (hb.keeps H).trans hkeeps, fun hw => ?_⟩
    obtain ⟨rfl, hin, hmatch⟩ := hno hw
    obtain ⟨rfl, hall⟩ := hrest hw
    refine ⟨rfl, fun k h1 h2 => ?_⟩
    rcases Nat.eq_or_lt_of_le h1 with rfl | hlt
    · exact ⟨hin, hmatch⟩
    · exact hall k hlt h2
  | some r =>
    obtain ⟨ip, off⟩ := r
    obtain ⟨hinv, hkeeps, hrest⟩ := h
    refine ⟨hinv, (hb.keeps H).trans hkeeps, fun hw => ?_⟩
    obtain ⟨rfl, hin, hmatch⟩ := hno hw
    obtain ⟨hdisk, k, h1, hk⟩ := hrest hw
    exact ⟨hdisk, k, by omega, hk⟩

theorem dirlookupLoop_ends (name : List UInt8) (n : ℕ) : ∀ a s, Inv sb w g o H s → 0 < (s.itable dp).ref →
    (w → (s.itable dp).valid = true) → (g → ∀ k, InDir s dp k → Matches s dp name k →
      (s.dinode (slotInum s.dinode s.block (s.itable dp).inum k)).type ≠ 0) →
    (w → n ≠ 0 → DIRENT * (a + n - 1) < (s.itable dp).d.size) →
    Ends (dirlookupLoop sb dp name n (DIRENT * a) s) (LookedUp sb w g o H dp name a (a + n) s)
      (Fine w g) := by
  induction n with
  | zero =>
    intro a s h _ _ _ _
    exact ⟨h, Keeps.refl H s, fun _ => ⟨rfl, fun k h1 h2 => by omega⟩⟩
  | succ n ih =>
    intro a s h hpos hv hg hlast
    unfold dirlookupLoop
    apply (readSlot_ends h hpos hv fun hw => ?_).bind
    swap
    · have := hlast hw (by omega)
      rw [show a + (n + 1) - 1 = a + n by omega, Nat.mul_add] at this
      omega
    rintro ⟨m, de⟩ t ⟨hinv, hbody, hread⟩
    simp only at hread ⊢
    by_cases hm : m ≠ DIRENT
    · rw [if_pos hm]
      exact hinv.fine (by decide)
    rw [if_neg hm]
    have hslot : w → t = s ∧ InDir s dp a ∧
        de = slotBytes s.dinode s.block (s.itable dp).inum a := fun hw =>
      ⟨(hread hw).1, (hread hw).2 (not_not.mp hm)⟩
    -- the rest of the directory, for a slot that does not match
    have hnext : (w → ¬ Matches s dp name a) →
        Ends (dirlookupLoop sb dp name n (DIRENT * a + DIRENT) t)
          (LookedUp sb w g o H dp name a (a + (n + 1)) s) (Fine w g) := by
      intro hno
      rw [show DIRENT * a + DIRENT = DIRENT * (a + 1) by rw [Nat.mul_add, Nat.mul_one],
        show a + (n + 1) = a + 1 + n by omega]
      apply (ih (a + 1) t hinv (by rw [hbody.ref]; exact hpos) (fun hw => by
        rw [hbody.valid]; exact hv hw) (fun hg' => ?_) fun hw hn => ?_).post
      · exact fun r u hu => hu.cons hbody fun hw => ⟨(hslot hw).1, (hslot hw).2.1, hno hw⟩
      · rw [(hslot (h.gw hg')).1]
        exact hg hg'
      · rw [(hslot hw).1]
        have := hlast hw (by omega)
        rwa [show a + 1 + n - 1 = a + (n + 1) - 1 by omega]
    by_cases hzero : deInum de = 0
    · rw [if_pos hzero]
      apply hnext
      rintro hw ⟨hne, -⟩
      apply hne
      unfold slotInum
      rw [← (hslot hw).2.2, hzero]
    rw [if_neg hzero]
    by_cases hcmp : namecmp name (deName de) = true
    · rw [if_pos hcmp]
      have hmatch : w → Matches s dp name a ∧
          slotInum s.dinode s.block (s.itable dp).inum a = deInum de := by
        intro hw
        obtain ⟨-, -, rfl⟩ := hslot hw
        exact ⟨⟨hzero, namecmp_slot.mp hcmp⟩, rfl⟩
      have htype : g → (t.dinode (deInum de)).type ≠ 0 := by
        intro hg'
        have hw := h.gw hg'
        obtain ⟨rfl, hin, -⟩ := hslot hw
        rw [← (hmatch hw).2]
        exact hg hg' a hin (hmatch hw).1
      rw [bind_of_ok (rfl : noteLookup _ t = .ok () _)]
      apply Ends.bind ((iget_got (deInum de) _).imp (fun _ _ hgot => hgot) ?_)
      · intro ip u hgot
        obtain ⟨hinv', hkeeps⟩ := (hinv.note htype).got hgot htype
        refine ⟨hinv', (hbody.keeps H).trans (hkeeps.before rfl rfl rfl), fun hw => ?_⟩
        obtain ⟨rfl, hin, -⟩ := hslot hw
        refine ⟨⟨hgot.sameDisk.dinode, hgot.sameDisk.bitmap, hgot.sameDisk.block⟩, a, le_rfl,
          by omega, rfl, hin, (hmatch hw).1, ?_⟩
        rw [hgot.inum_eq, (hmatch hw).2]
      · rintro msg u ⟨rfl, rfl, -⟩
        exact (hinv.note htype).fine (by decide)
    · rw [if_neg hcmp]
      apply hnext
      rintro hw ⟨-, hname⟩
      apply hcmp
      rw [namecmp_slot]
      unfold slotName at hname
      rw [← (hslot hw).2.2] at hname
      exact hname

theorem entries_spec {size n : ℕ} (h : n < entries size) : DIRENT * n < size := by
  unfold entries DIRENT at *
  omega

/-- The numbers in the slots of a directory are those of allocated inodes. -/
def Names (s : State) (dp : Ip) : Prop :=
  (s.itable dp).d.type = T_DIR → ∀ k, InDir s dp k →
    slotInum s.dinode s.block (s.itable dp).inum k ≠ 0 →
    (s.dinode (slotInum s.dinode s.block (s.itable dp).inum k)).type ≠ 0

/-- **`dirlookup`.** -/
theorem dirlookup_ends (h : Inv sb w g o H s) (hpos : 0 < (s.itable dp).ref)
    (hv : w → (s.itable dp).valid = true) (hg : g → Names s dp) : Ends (dirlookup sb dp name s)
      (fun r t => (s.itable dp).d.type = T_DIR ∧
        LookedUp sb w g o H dp name 0 (entries (s.itable dp).d.size) s r t) (Fine w g) := by
  unfold dirlookup
  rw [inode_bind]
  by_cases htype : (s.itable dp).d.type ≠ T_DIR
  · rw [if_pos htype]
    exact h.fine (by decide)
  rw [if_neg htype]
  have hloop := dirlookupLoop_ends name (entries (s.itable dp).d.size) 0 s h hpos hv
    (fun hg' k hin hm => hg hg' (not_not.mp htype) k hin hm.1) fun _ hn => entries_spec (by omega)
  rw [Nat.zero_add] at hloop
  exact hloop.post fun r t ht => ⟨not_not.mp htype, ht⟩

/-! ## dirlink -/

/-- The slot is empty, or is the one after the last. -/
def Vacant (s : State) (dp : Ip) (k : ℕ) : Prop :=
  (InDir s dp k ∧ slotInum s.dinode s.block (s.itable dp).inum k = 0) ∨
    k = entries (s.itable dp).d.size

theorem emptyEntry_ends (n : ℕ) : ∀ a s, Inv sb w g o H s → 0 < (s.itable dp).ref →
    (w → (s.itable dp).valid = true) → (w → a + n = entries (s.itable dp).d.size) →
    Ends (emptyEntry sb dp n (DIRENT * a) s) (fun off t => Inv sb w g o H t ∧ Body dp s t ∧
        (w → t = s ∧ ∃ k, off = DIRENT * k ∧ Vacant s dp k)) (Fine w g) := by
  induction n with
  | zero =>
    intro a s h _ _ hn
    exact ⟨h, Body.refl dp s, fun hw => ⟨rfl, a, rfl, Or.inr (hn hw)⟩⟩
  | succ n ih =>
    intro a s h hpos hv hn
    unfold emptyEntry
    apply (readSlot_ends h hpos hv fun hw => (entries_spec (by have := hn hw; omega)).le).bind
    rintro ⟨m, de⟩ t ⟨hinv, hbody, hread⟩
    simp only at hread ⊢
    by_cases hm : m ≠ DIRENT
    · rw [if_pos hm]
      exact hinv.fine (by decide)
    rw [if_neg hm]
    by_cases hzero : deInum de = 0
    · rw [if_pos hzero]
      refine ⟨hinv, hbody, fun hw => ?_⟩
      obtain ⟨rfl, hslot⟩ := hread hw
      obtain ⟨hin, rfl⟩ := hslot (not_not.mp hm)
      exact ⟨rfl, a, rfl, Or.inl ⟨hin, hzero⟩⟩
    · rw [if_neg hzero,
        show DIRENT * a + DIRENT = DIRENT * (a + 1) by rw [Nat.mul_add, Nat.mul_one]]
      apply (ih (a + 1) t hinv (by rw [hbody.ref]; exact hpos)
        (fun hw => by rw [hbody.valid]; exact hv hw) fun hw => ?_).post
      · rintro off u ⟨hinv', hbody', hrest⟩
        refine ⟨hinv', hbody.trans hbody', fun hw => ?_⟩
        obtain ⟨rfl, -⟩ := hread hw
        exact hrest hw
      · obtain ⟨rfl, -⟩ := hread hw
        have := hn hw
        omega

/-- What `dirlink` has done when the name was not there: it could not write, or it has
filled a vacant slot. -/
def Linked (sb : Superblock) (dp : Ip) (name : List UInt8) (inum : ℕ) (s : State) (r : ℤ)
    (t : State) : Prop :=
  (∀ k, k < entries (s.itable dp).d.size → InDir s dp k ∧ ¬ Matches s dp name k) ∧
  ∃ k, Vacant s dp k ∧
    ((r = -1 ∧ (t = s ∨
        Saved sb dp (kernelSrc (dirent inum name)) (DIRENT * k) DIRENT s 0 t)) ∨
      (r = 0 ∧ Saved sb dp (kernelSrc (dirent inum name)) (DIRENT * k) DIRENT s DIRENT t))

/-- What `dirlink` has done.  If the name was there, it has got and put the inode of the
slot. -/
def DirlinkDone (sb : Superblock) (dp : Ip) (name : List UInt8) (inum : ℕ) (s : State) (r : ℤ)
    (t : State) : Prop :=
  Linked sb dp name inum s r t ∧ Body dp s t ∨
    r = -1 ∧ ∃ k ip u, InDir s dp k ∧ Matches s dp name k ∧ SameDisk s u ∧
      (u.itable ip).inum = slotInum s.dinode s.block (s.itable dp).inum k ∧
      Consistent sb u ∧ 0 < (u.itable ip).ref ∧ PutDisk ip u t

/-- A slot of the directory has its block, so all of it is written. -/
theorem WriteDone.slot {bytes : List UInt8} {n : ℤ} (hgood : Consistent sb s)
    (hpos : 0 < (s.itable dp).ref) (hv : (s.itable dp).valid = true) (hin : InDir s dp k)
    (h : WriteDone sb dp (kernelSrc bytes) (DIRENT * k) DIRENT s n t) :
    n = DIRENT ∧ Saved sb dp (kernelSrc bytes) (DIRENT * k) DIRENT s DIRENT t := by
  have hsize := hgood.size_le hpos hv
  unfold InDir at hin
  rcases h with ⟨-, -, hbad⟩ | ⟨m, rfl, hm⟩
  · have : MAXFILE * BSIZE < 2 ^ 32 := by decide
    omega
  · have hfull := hm.full fun j hj => ⟨hgood.has hpos hv _ (by omega), rfl⟩
    rw [hfull] at hm ⊢
    exact ⟨rfl, hm⟩

/-- A slot is written as a whole or not at all. -/
theorem Saved.slot {src : ℕ → Option UInt8} {m : ℕ}
    (h : Saved sb dp src (DIRENT * k) DIRENT s m t) : m = 0 ∨ m = DIRENT := by
  have hle := h.le
  rcases h.edge with hm | hm | hm
  · exact Or.inr hm
  · exact Or.inl hm
  · have hdvd : BSIZE ∣ DIRENT * k + m := Nat.dvd_of_mod_eq_zero hm
    have hd : DIRENT ∣ BSIZE := by decide
    have := Nat.mod_eq_zero_of_dvd (hd.trans hdvd)
    rw [Nat.mul_add_mod] at this
    rcases Nat.eq_or_lt_of_le hle with heq | hlt
    · exact Or.inr heq
    · rw [Nat.mod_eq_of_lt hlt] at this
      exact Or.inl this

/-- **`dirlink`.** -/
theorem dirlink_ends (inum : ℕ) (h : Inv sb w g o H s) (ho : w → 1 ≤ o)
    (hdp : dp ∈ H) (hv : w → (s.itable dp).valid = true) (hg : g → Names s dp) :
    Ends (dirlink sb dp name inum s) (fun r t => Inv sb w g o H t ∧ Keeps H s t ∧
        (w → (s.itable dp).d.type = T_DIR ∧ DirlinkDone sb dp name inum s r t)) (Fine w g) := by
  unfold dirlink
  apply (dirlookup_ends h (h.refs.pos_of_mem hdp) hv hg).bind
  rintro (_ | ⟨ip, off⟩) t ⟨htype, hlook⟩
  · -- the name is new
    obtain ⟨hinv, hkeeps, hnone⟩ := hlook
    have hpos := hinv.refs.pos_of_mem hdp
    have hv' : w → (t.itable dp).valid = true := fun hw => (hkeeps.mem hdp).2 (hv hw)
    simp only
    rw [inode_bind]
    have hempty := emptyEntry_ends (entries (t.itable dp).d.size) 0 t hinv hpos hv' fun _ =>
      Nat.zero_add _
    rw [Nat.mul_zero] at hempty
    apply hempty.bind
    rintro off t' ⟨hinv', hbody, hvac⟩
    apply (writei_ends hinv' ho (by rw [hbody.ref]; exact hpos)
      (fun hw => by rw [hbody.valid]; exact hv' hw) _ off DIRENT).bind
    rintro r u ⟨hinv'', hbody', hdone⟩
    have hend : ∀ r' : ℤ, (w → Linked sb dp name inum s r' u ∧ Body dp s u) →
        Ends ((pure r' : FsM ℤ) u) (fun r t => Inv sb w g o H t ∧ Keeps H s t ∧
          (w → (s.itable dp).d.type = T_DIR ∧ DirlinkDone sb dp name inum s r t)) (Fine w g) :=
      fun r' hr => ⟨hinv'', hkeeps.trans ((hbody.keeps H).trans (hbody'.keeps H)),
        fun hw => ⟨htype, Or.inl (hr hw)⟩⟩
    by_cases hr : r ≠ DIRENT
    · rw [if_pos hr]
      refine hend _ fun hw => ?_
      obtain ⟨rfl, hall⟩ := hnone hw
      obtain ⟨rfl, k, rfl, hk⟩ := hvac hw
      refine ⟨⟨fun j hj => hall j (Nat.zero_le j) hj, k, hk, Or.inl ⟨rfl, ?_⟩⟩, hbody'⟩
      rcases hdone hw with ⟨-, rfl, -⟩ | ⟨m, rfl, hsaved⟩
      · exact Or.inl rfl
      · rcases hsaved.slot with rfl | rfl
        · exact Or.inr hsaved
        · exact absurd rfl hr
    · rw [if_neg hr]
      refine hend _ fun hw => ?_
      obtain ⟨rfl, hall⟩ := hnone hw
      obtain ⟨rfl, k, rfl, hk⟩ := hvac hw
      refine ⟨⟨fun j hj => hall j (Nat.zero_le j) hj, k, hk, Or.inr ⟨rfl, ?_⟩⟩, hbody'⟩
      rcases hdone hw with ⟨rfl, -, -⟩ | ⟨m, rfl, hsaved⟩
      · exact absurd (not_not.mp hr) (by decide)
      · have hm : m = DIRENT := by exact_mod_cast not_not.mp hr
        rw [hm] at hsaved
        exact hsaved
  · obtain ⟨hinv, hkeeps, hsome⟩ := hlook
    apply (iput_ends hinv ho).bind
    rintro _ u ⟨hinv', hkeeps', hput⟩
    refine ⟨hinv', hkeeps.trans hkeeps', fun hw => ⟨htype, Or.inr ⟨rfl, ?_⟩⟩⟩
    obtain ⟨hdisk, k, -, -, -, hin, hmatch, hinum⟩ := hsome hw
    exact ⟨k, ip, t, hin, hmatch, hdisk, hinum, hinv.good hw,
      hinv.refs.pos_of_mem (Multiset.mem_cons_self ip H), hput hw⟩

/-! ## isdirempty -/

theorem isdiremptyLoop_ends (n : ℕ) : ∀ a s, Inv sb w g o H s → 0 < (s.itable dp).ref →
    (w → (s.itable dp).valid = true) → (w → n ≠ 0 → DIRENT * (a + n - 1) < (s.itable dp).d.size) →
    Ends (isdiremptyLoop sb dp n (DIRENT * a) s)
      (fun r t => Inv sb w g o H t ∧ Body dp s t ∧ (w → t = s ∧ (r = true → ∀ k, a ≤ k →
        k < a + n → slotInum s.dinode s.block (s.itable dp).inum k = 0))) (Fine w g) := by
  induction n with
  | zero =>
    intro a s h _ _ _
    exact ⟨h, Body.refl dp s, fun _ => ⟨rfl, fun _ k h1 h2 => by omega⟩⟩
  | succ n ih =>
    intro a s h hpos hv hlast
    unfold isdiremptyLoop
    apply (readSlot_ends h hpos hv fun hw => ?_).bind
    swap
    · have := hlast hw (by omega)
      rw [show a + (n + 1) - 1 = a + n by omega, Nat.mul_add] at this
      omega
    rintro ⟨m, de⟩ t ⟨hinv, hbody, hread⟩
    simp only at hread ⊢
    by_cases hm : m ≠ DIRENT
    · rw [if_pos hm]
      exact hinv.fine (by decide)
    rw [if_neg hm]
    by_cases hzero : deInum de ≠ 0
    · rw [if_pos hzero]
      exact ⟨hinv, hbody, fun hw => ⟨(hread hw).1, fun hf => by cases hf⟩⟩
    · rw [if_neg hzero,
        show DIRENT * a + DIRENT = DIRENT * (a + 1) by rw [Nat.mul_add, Nat.mul_one]]
      apply (ih (a + 1) t hinv (by rw [hbody.ref]; exact hpos)
        (fun hw => by rw [hbody.valid]; exact hv hw) fun hw hn => ?_).post
      · rintro r u ⟨hinv', hbody', hrest⟩
        refine ⟨hinv', hbody.trans hbody', fun hw => ?_⟩
        obtain ⟨rfl, hslot⟩ := hread hw
        obtain ⟨rfl, hall⟩ := hrest hw
        refine ⟨rfl, fun hr k h1 h2 => ?_⟩
        rcases Nat.eq_or_lt_of_le h1 with rfl | hlt
        · obtain ⟨-, rfl⟩ := hslot (not_not.mp hm)
          exact not_not.mp hzero
        · exact hall hr k hlt (by omega)
      · rw [(hread hw).1]
        have := hlast hw (by omega)
        rwa [show a + 1 + n - 1 = a + (n + 1) - 1 by omega]

/-- **The test of `sys_unlink`**: a directory that is not refused has no names but the
first two. -/
theorem nonempty_ends (h : Inv sb w g o H s) (hpos : 0 < (s.itable ip).ref)
    (hv : w → (s.itable ip).valid = true) : Ends (nonempty sb ip s)
      (fun r t => Inv sb w g o H t ∧ Body ip s t ∧ (w → t = s ∧ (r = false →
        (s.itable ip).d.type = T_DIR → ∀ k, 2 ≤ k → k < entries (s.itable ip).d.size →
          slotInum s.dinode s.block (s.itable ip).inum k = 0))) (Fine w g) := by
  unfold nonempty
  rw [inode_bind]
  by_cases htype : (s.itable ip).d.type = T_DIR
  · rw [if_pos htype]
    apply Ends.map
    unfold isdirempty
    rw [inode_bind, Nat.mul_comm 2 DIRENT]
    apply (isdiremptyLoop_ends (entries (s.itable ip).d.size - 2) 2 s h hpos hv
      fun _ hn => entries_spec (by omega)).post
    rintro r t ⟨hinv, hbody, hrest⟩
    refine ⟨hinv, hbody, fun hw => ⟨(hrest hw).1, fun hr _ k h1 h2 => ?_⟩⟩
    exact (hrest hw).2 (by simpa using hr) k h1 (by omega)
  · rw [if_neg htype]
    exact ⟨h, Body.refl ip s, fun _ => ⟨rfl, fun _ ht => absurd ht htype⟩⟩

end Fs

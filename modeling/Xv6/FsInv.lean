/-
# What holds between two steps of a system call

`Refs` accounts for the references to every entry of the inode table: open files, current
directories, and those that the running call holds.  It holds from boot on, whatever is on
the disk.  `Consistent` is about the disk and the copies of inodes in the table: an inode
has at most one entry, a valid entry is what is on disk, references to blocks and the free
map agree, and no file has holes.  `Live` says that every entry in use is of an allocated
inode and that no directory can be written through a descriptor.

`Inv` puts the three together.  Only `Refs` is unconditional; the propositions `w` and `g`
say whether the other two are wanted, so that one pass over the system calls serves every
property.
-/
import Xv6.FsCalls
import Xv6.FsTrunc
import Xv6.Tally
import Mathlib.Algebra.Order.BigOperators.Group.Finset
import Mathlib.Data.Fintype.BigOperators
import Mathlib.Data.Multiset.Count

namespace Fs

open Calls (NFILE)
open Proc (NPROC)
open Hoare

/-- Whether link counts are followed, and which inodes had lost their links at the start. -/
structure Watch where
  on : Prop
  lost : ℕ → Prop

instance : CoeSort Watch Prop := ⟨Watch.on⟩

/-- They are not followed. -/
abbrev Watch.off : Watch := ⟨False, fun _ => False⟩

variable {sb : Superblock} {w : Prop} {g : Watch} {o : ℕ} {H B : Multiset Ip} {e ip : Ip} {s t u : State}

/-! ## References -/

/-- The reference an open file has. -/
def fileRef (x : File) (e : Ip) : ℕ :=
  if 0 < x.ref ∧ (x.type = .inode ∨ x.type = .device) ∧ x.ip = e then 1 else 0

/-- The reference a process has. -/
def cwdRef (x : Process) (e : Ip) : ℕ := if x.cwd = some e then 1 else 0

/-- The references to an entry that last from call to call. -/
def shares (s : State) (e : Ip) : ℕ := (∑ f, fileRef (s.ftable f) e) + ∑ p, cwdRef (s.proc p) e

/-- **Every reference is accounted for**; `H` are those of the running call. -/
structure Refs (H : Multiset Ip) (s : State) : Prop where
  exact : ∀ e, (s.itable e).ref = shares s e + H.count e
  idle : ∀ f, (s.ftable f).ref = 0 → (s.ftable f).type = .none
  gone : ∀ p, (s.proc p).state ≠ .running → (s.proc p).cwd = none

theorem Refs.pos_of_mem (h : Refs H s) (he : e ∈ H) : 0 < (s.itable e).ref := by
  have := h.exact e
  have := Multiset.count_pos.mpr he
  omega

variable {f : Fin NFILE} {p : Fin NPROC} {H' : Multiset Ip}

theorem shares_pos_of_file (hf : fileRef (s.ftable f) e = 1) : 0 < shares s e := by
  have := Finset.single_le_sum (f := fun f => fileRef (s.ftable f) e) (fun _ _ => Nat.zero_le _)
    (Finset.mem_univ f)
  simp only [hf] at this
  unfold shares
  omega

theorem shares_pos_of_cwd (hp : (s.proc p).cwd = some e) : 0 < shares s e := by
  have := Finset.single_le_sum (f := fun p => cwdRef (s.proc p) e) (fun _ _ => Nat.zero_le _)
    (Finset.mem_univ p)
  simp only [cwdRef, hp, if_true] at this
  unfold shares cwdRef
  omega

theorem Refs.pos_of_file (h : Refs H s) (hpos : 0 < (s.ftable f).ref)
    (htype : (s.ftable f).type = .inode ∨ (s.ftable f).type = .device) :
    0 < (s.itable (s.ftable f).ip).ref := by
  have hshare : 0 < shares s (s.ftable f).ip := by
    apply shares_pos_of_file (f := f)
    exact if_pos ⟨hpos, htype, rfl⟩
  have := h.exact (s.ftable f).ip
  omega

theorem Refs.pos_of_cwd (h : Refs H s) (hp : (s.proc p).cwd = some e) : 0 < (s.itable e).ref := by
  have := shares_pos_of_cwd hp
  have := h.exact e
  omega

/-- The table changes in one count, and so does what the call holds. -/
theorem Refs.of_table (h : Refs H s) (hft : t.ftable = s.ftable) (hproc : t.proc = s.proc)
    (hexact : ∀ e, (t.itable e).ref + H.count e = (s.itable e).ref + H'.count e) : Refs H' t where
  exact e := by
    have h1 := h.exact e
    have h2 := hexact e
    have h3 : shares t e = shares s e := by
      unfold shares
      rw [hft, hproc]
    omega
  idle := by
    rw [hft]
    exact h.idle
  gone := by
    rw [hproc]
    exact h.gone

theorem Refs.body (h : Refs H s) (hb : Body e s t) : Refs H t :=
  h.of_table hb.ftable hb.proc fun e' => by rw [hb.ref_eq e']

/-! ## The disk and the table -/

/-- **The disk is consistent**, and valid entries of the table are copies of it. -/
structure Consistent (sb : Superblock) (s : State) : Prop where
  fits : sb.size ≤ 2 ^ 32
  unique : ∀ e e', 0 < (s.itable e).ref → 0 < (s.itable e').ref →
    (s.itable e).inum = (s.itable e').inum → e = e'
  clean : ∀ e, 0 < (s.itable e).ref → (s.itable e).valid = true →
    s.dinode (s.itable e).inum = (s.itable e).d
  typed : ∀ e, 0 < (s.itable e).ref → (s.itable e).valid = true → (s.itable e).d.type ≠ 0
  sound : Sound sb s.dinode s.bitmap s.block
  whole : ∀ i, (s.dinode i).type ≠ 0 → ∀ j, j < (s.dinode i).size →
    place (s.dinode i) s.block (home (j / BSIZE)) ≠ 0

section

variable (h : Consistent sb s)
include h

theorem Consistent.has (hpos : 0 < (s.itable e).ref) (hv : (s.itable e).valid = true) (j : ℕ)
    (hj : j < (s.itable e).d.size) : Has s e j := by
  have hclean := h.clean e hpos hv
  have hwhole := h.whole (s.itable e).inum
  rw [hclean] at hwhole
  exact hwhole (h.typed e hpos hv) j hj

theorem Consistent.work (hpos : 0 < (s.itable e).ref) (hv : (s.itable e).valid = true)
    (hop : 1 ≤ s.outstanding) : Work sb e s where
  fits := h.fits
  type := h.typed e hpos hv
  op := hop
  sound := by
    rw [cur_of_clean (h.clean e hpos hv)]
    exact h.sound

/-- The content of one inode has been changed and the inode written. -/
theorem Consistent.of_body (hpos : 0 < (s.itable e).ref) (hbody : Body e s t)
    (hclean : t.dinode (s.itable e).inum = (t.itable e).d) (htype : (t.itable e).d.type ≠ 0)
    (hsound : Sound sb t.dinode t.bitmap t.block)
    (hwhole : ∀ i, (t.dinode i).type ≠ 0 → ∀ j, j < (t.dinode i).size →
      place (t.dinode i) t.block (home (j / BSIZE)) ≠ 0) : Consistent sb t where
  fits := h.fits
  unique e1 e2 h1 h2 heq := by
    rw [hbody.ref_eq] at h1 h2
    rw [hbody.inum_eq, hbody.inum_eq] at heq
    exact h.unique e1 e2 h1 h2 heq
  clean e' hpos' hv' := by
    rw [hbody.ref_eq] at hpos'
    rw [hbody.valid_eq] at hv'
    rw [hbody.inum_eq]
    by_cases he : e' = e
    · rw [he]
      exact hclean
    · have hne : (s.itable e').inum ≠ (s.itable e).inum := fun heq =>
        he (h.unique e' e hpos' hpos heq)
      rw [hbody.disk _ hne, hbody.others e' he]
      exact h.clean e' hpos' hv'
  typed e' hpos' hv' := by
    rw [hbody.ref_eq] at hpos'
    rw [hbody.valid_eq] at hv'
    by_cases he : e' = e
    · rw [he]
      exact htype
    · rw [hbody.others e' he]
      exact h.typed e' hpos' hv'
  sound := hsound
  whole := hwhole

/-- A write to a file of a consistent disk. -/
theorem Consistent.saved (hpos : 0 < (s.itable e).ref) (hv : (s.itable e).valid = true)
    {src : ℕ → Option UInt8} {off n m : ℕ}
    (hsaved : Saved sb e src off n s m t) : Consistent sb t := by
  have hclean := h.clean e hpos hv
  apply h.of_body hpos hsaved.body hsaved.clean _ hsaved.sound
  · intro i htype j hj
    by_cases hi : i = (s.itable e).inum
    · subst hi
      rw [hsaved.clean] at hj ⊢
      exact hsaved.has j hj
    · rw [hsaved.wrote.other i hi] at htype hj
      rw [hsaved.wrote.place_eq htype (h.whole i htype j hj)]
      exact h.whole i htype j hj
  · rw [← hsaved.clean, hsaved.wrote.type_eq, hclean]
    exact h.typed e hpos hv

/-- A truncated file of a consistent disk. -/
theorem Consistent.emptied (hpos : 0 < (s.itable e).ref) (hv : (s.itable e).valid = true)
    (hempty : Emptied sb e s t) : Consistent sb t := by
  obtain ⟨f, hd, hf⟩ := hempty.shape
  apply h.of_body hpos hempty.body hempty.clean _ hempty.sound
  · intro i htype j hj
    by_cases hi : i = (s.itable e).inum
    · rw [hi, hempty.clean, hd] at hj
      exact absurd hj (Nat.not_lt_zero j)
    · rw [hempty.body.disk i hi] at htype hj ⊢
      rw [hempty.block]
      exact h.whole i htype j hj
  · rw [hd]
    exact h.typed e hpos hv

/-- Only the inodes, the free map, the blocks and the inode table matter. -/
theorem Consistent.of_eq (hD : t.dinode = s.dinode) (hbm : t.bitmap = s.bitmap)
    (hblk : t.block = s.block) (hit : t.itable = s.itable) : Consistent sb t := by
  refine ⟨h.fits, ?_, ?_, ?_, ?_, ?_⟩
  · rw [hit]
    exact h.unique
  · rw [hit, hD]
    exact h.clean
  · rw [hit]
    exact h.typed
  · rw [hD, hbm, hblk]
    exact h.sound
  · rw [hD, hblk]
    exact h.whole

end

/-! ## Commits -/

/-- The bytes of slot `k` of directory `i`. -/
def slotBytes (D : ℕ → Dinode) (blk : ℕ → ℕ → UInt8) (i k : ℕ) : List UInt8 :=
  (List.range DIRENT).map fun j => content D blk i (DIRENT * k + j)

def slotInum (D : ℕ → Dinode) (blk : ℕ → ℕ → UInt8) (i k : ℕ) : ℕ := deInum (slotBytes D blk i k)

def slotName (D : ℕ → Dinode) (blk : ℕ → ℕ → UInt8) (i k : ℕ) : List UInt8 :=
  cname (deName (slotBytes D blk i k))

/-- The inode is the root, or an entry other than `.` and `..` of a directory that has a
link names it. -/
def Named (D : ℕ → Dinode) (blk : ℕ → ℕ → UInt8) (i : ℕ) : Prop :=
  i = ROOTINO ∨ ∃ d k, (D d).type = T_DIR ∧ (D d).nlink ≠ 0 ∧ DIRENT * k + DIRENT ≤ (D d).size ∧
    slotInum D blk d k = i ∧ slotName D blk d k ≠ dot ∧ slotName D blk d k ≠ dotdot

/-- The inode is allocated and has no link. -/
def Orphan (D : ℕ → Dinode) (i : ℕ) : Prop := (D i).type ≠ 0 ∧ (D i).nlink = 0

/-- **The disk has lost no inode**: if every inode that is in use has a link, then every
allocated inode has a name. -/
def Commit.Secure (c : Commit) : Prop :=
  (∀ e, 0 < (c.itable e).ref → (c.dinode (c.itable e).inum).nlink ≠ 0) →
    ∀ i, (c.dinode i).type ≠ 0 → Named c.dinode c.block i

/-- Every commit is secure, unless inodes were lost at the start. -/
def Secured (lost : ℕ → Prop) (l : List Commit) : Prop := (∀ i, ¬ lost i) → ∀ c ∈ l, c.Secure

theorem Secured.cons {lost : ℕ → Prop} {l : List Commit} (h : Secured lost l) {c : Commit}
    (hc : (∀ i, ¬ lost i) → c.Secure) : Secured lost (c :: l) := by
  intro hnone c' hc'
  rcases List.mem_cons.mp hc' with rfl | hmem
  · exact hc hnone
  · exact h hnone c' hmem

/-! ## Entries in use -/

/-- Every entry in use is of an allocated inode, no directory is open for writing, no
lookup has found a free inode, and the commits are secure. -/
structure Live (lost : ℕ → Prop) (s : State) : Prop where
  alloc : ∀ e, 0 < (s.itable e).ref → (s.dinode (s.itable e).inum).type ≠ 0
  files : ∀ f, 0 < (s.ftable f).ref → (s.ftable f).type = .inode → (s.ftable f).writable = true →
    (s.dinode (s.itable (s.ftable f).ip).inum).type ≠ T_DIR
  sure : s.dangled = false
  saved : Secured lost s.commits

/-- The types of the inodes are the same. -/
theorem Live.of_types {lost : ℕ → Prop} (h : Live lost s) (hb : Body e s t)
    (htype : ∀ i, (t.dinode i).type = (s.dinode i).type) : Live lost t where
  alloc e' he' := by
    rw [htype, hb.inum_eq]
    rw [hb.ref_eq] at he'
    exact h.alloc e' he'
  files f hpos hf hw := by
    rw [hb.ftable] at hpos hf hw ⊢
    rw [htype, hb.inum_eq]
    exact h.files f hpos hf hw
  sure := by
    rw [hb.dangled]
    exact h.sure
  saved := by
    rw [hb.commits]
    exact h.saved

theorem Live.of_eq {lost : ℕ → Prop} (h : Live lost s) (hD : t.dinode = s.dinode)
    (hit : t.itable = s.itable) (hft : t.ftable = s.ftable) (hsure : t.dangled = s.dangled)
    (hsaved : t.commits = s.commits) : Live lost t := by
  refine ⟨?_, ?_, hsure.trans h.sure, by rw [hsaved]; exact h.saved⟩
  · rw [hit, hD]
    exact h.alloc
  · rw [hft, hit, hD]
    exact h.files

/-! ## The invariant of a running call -/

/-- **The invariant**, for a call that holds the references `H` while `o` operations are
in progress. -/
structure Inv (sb : Superblock) (w : Prop) (g : Watch) (o : ℕ) (H : Multiset Ip) (s : State) : Prop where
  refs : Refs H s
  op : s.outstanding = o
  gw : g → w
  good : w → Consistent sb s
  live : g → Live g.lost s

/-- Locks and what has been logged may change. -/
theorem Inv.aside (h : Inv sb w g o H s) (l : Ip → Bool) (ops : List (List Target)) :
    Inv sb w g o H { s with locked := l, ops := ops } where
  refs := h.refs.of_table rfl rfl fun _ => rfl
  op := h.op
  gw := h.gw
  good hw := (h.good hw).of_eq rfl rfl rfl rfl
  live hg := (h.live hg).of_eq rfl rfl rfl rfl rfl

/-- What is excluded when a call panics: some of the panics, and that a lookup before it
has found a free inode or a commit has lost an inode. -/
def Fine (w : Prop) (g : Watch) (msg : String) (s : State) : Prop :=
  (w → msg ≠ "freeing free block" ∧ msg ≠ "log_write outside of trans" ∧
    msg ≠ "unlink: writei") ∧ (g → msg ≠ "ilock: no type" ∧ s.dangled = false ∧ Secured g.lost s.commits)

/-- The other panics. -/
theorem Inv.fine {msg : String} (h : Inv sb w g o H s)
    (hmsg : msg ≠ "freeing free block" ∧ msg ≠ "log_write outside of trans" ∧
      msg ≠ "unlink: writei" ∧ msg ≠ "ilock: no type") : Fine w g msg s :=
  ⟨fun _ => ⟨hmsg.1, hmsg.2.1, hmsg.2.2.1⟩, fun hg =>
    ⟨hmsg.2.2.2, (h.live hg).sure, (h.live hg).saved⟩⟩

/-- The entries of `H`, and those of open files and current directories, stand for the
same inodes, and those that were valid still are. -/
structure Keeps (H : Multiset Ip) (s t : State) : Prop where
  ftable : t.ftable = s.ftable
  proc : t.proc = s.proc
  entry : ∀ e, e ∈ H ∨ 0 < shares s e → (t.itable e).inum = (s.itable e).inum ∧
    ((s.itable e).valid = true → (t.itable e).valid = true)

theorem Keeps.shares_eq (h : Keeps H s t) (e : Ip) : shares t e = shares s e := by
  unfold shares
  rw [h.ftable, h.proc]

theorem Keeps.mem (h : Keeps H s t) (he : e ∈ H) : (t.itable e).inum = (s.itable e).inum ∧
    ((s.itable e).valid = true → (t.itable e).valid = true) :=
  h.entry e (Or.inl he)

theorem Keeps.of_eq (hi : t.itable = s.itable) (hf : t.ftable = s.ftable)
    (hp : t.proc = s.proc) : Keeps H s t :=
  ⟨hf, hp, fun _ _ => by rw [hi]; exact ⟨rfl, id⟩⟩

theorem Keeps.refl (H : Multiset Ip) (s : State) : Keeps H s s := Keeps.of_eq rfl rfl rfl

theorem Keeps.trans (h : Keeps H s t) (h' : Keeps H t u) : Keeps H s u := by
  refine ⟨h'.ftable.trans h.ftable, h'.proc.trans h.proc, fun e he => ?_⟩
  have h1 := h.entry e he
  have h2 := h'.entry e (by rw [h.shares_eq]; exact he)
  exact ⟨h2.1.trans h1.1, fun hv => h2.2 (h1.2 hv)⟩

/-- A first step that leaves the tables alone. -/
theorem Keeps.before (h : Keeps H t u) (hi : t.itable = s.itable) (hf : t.ftable = s.ftable)
    (hp : t.proc = s.proc) : Keeps H s u :=
  (Keeps.of_eq hi hf hp).trans h

theorem Keeps.mono (h : Keeps H s t) (hB : ∀ e ∈ B, e ∈ H) : Keeps B s t :=
  ⟨h.ftable, h.proc, fun e he => h.entry e (he.imp_left (hB e))⟩

theorem Body.keeps (h : Body ip s t) (H : Multiset Ip) : Keeps H s t :=
  ⟨h.ftable, h.proc, fun e _ => ⟨h.inum_eq e, fun hv => (h.valid_eq e).trans hv⟩⟩

/-- What is kept is in use. -/
theorem Refs.pos_of_kept (h : Refs H s) (he : e ∈ H ∨ 0 < shares s e) : 0 < (s.itable e).ref := by
  rcases he with he | he
  · exact h.pos_of_mem he
  · have := h.exact e
    omega

theorem Refs.kept_of_pos (h : Refs H s) (he : 0 < (s.itable e).ref) : e ∈ H ∨ 0 < shares s e := by
  by_cases hmem : e ∈ H
  · exact Or.inl hmem
  · have := h.exact e
    rw [Multiset.count_eq_zero.mpr hmem] at this
    exact Or.inr (by omega)

/-! ## Inodes without links -/

/-- The inode is in use, and its entry is valid; or it was lost at the start. -/
def Held (lost : ℕ → Prop) (s : State) (i : ℕ) : Prop := lost i ∨
  ∃ e, 0 < (s.itable e).ref ∧ (s.itable e).inum = i ∧ (s.itable e).valid = true

/-- **An allocated inode without links is in use**: its last reference will free it. -/
def Owned (lost : ℕ → Prop) (s : State) : Prop := ∀ i, Orphan s.dinode i → Held lost s i

variable {lost : ℕ → Prop}

/-- The reference is kept. -/
theorem Held.kept {i : ℕ} (h : Held lost s i) (ht : Refs H' t) (hk : Keeps B s t) (hsub : B ≤ H')
    (hkept : ∀ e, 0 < (s.itable e).ref → (s.itable e).valid = true →
      (s.itable e).inum = i → e ∈ B ∨ 0 < shares s e) : Held lost t i := by
  rcases h with hold | ⟨e, hpos, hinum, hv⟩
  · exact Or.inl hold
  · have hheld := hkept e hpos hv hinum
    obtain ⟨h1, h2⟩ := hk.entry e hheld
    refine Or.inr ⟨e, ht.pos_of_kept ?_, h1.trans hinum, h2 hv⟩
    rw [hk.shares_eq]
    exact hheld.imp_left (Multiset.mem_of_le hsub)

/-- No inode has lost its last link. -/
def NoneLost (D D' : ℕ → Dinode) : Prop := ∀ i, Orphan D' i → Orphan D i

/-- No inode has lost its last link, and those without links are still in use. -/
theorem Owned.of_kept (h : Owned lost s) (ht : Refs H' t) (hk : Keeps B s t) (hsub : B ≤ H')
    (hlost : NoneLost s.dinode t.dinode)
    (hkept : ∀ e, 0 < (s.itable e).ref → (s.itable e).valid = true →
      Orphan t.dinode (s.itable e).inum → e ∈ B ∨ 0 < shares s e) : Owned lost t := by
  intro i hi
  refine (h i (hlost i hi)).kept ht hk hsub fun e hpos hv hinum => ?_
  exact hkept e hpos hv (by rw [hinum]; exact hi)

theorem Owned.keeps (h : Owned lost s) (hs : Refs H s) (ht : Refs H' t) (hk : Keeps H s t)
    (hsub : H ≤ H') (hlost : NoneLost s.dinode t.dinode) : Owned lost t :=
  h.of_kept ht hk hsub hlost fun _ hpos _ _ => hs.kept_of_pos hpos

/-- A reference to an inode with a link has been dropped. -/
theorem Owned.dropped (h : Owned lost s) (hs : Refs (ip ::ₘ B) s) (ht : Refs B t) (hk : Keeps B s t)
    (hlost : NoneLost s.dinode t.dinode) (hlinked : ¬ Orphan t.dinode (s.itable ip).inum) :
    Owned lost t := by
  refine h.of_kept ht hk le_rfl hlost fun e hpos _ horphan => ?_
  refine (hs.kept_of_pos hpos).imp_left fun hmem => (Multiset.mem_cons.mp hmem).resolve_left ?_
  rintro rfl
  exact hlinked horphan

end Fs

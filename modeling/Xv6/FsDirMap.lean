/-
# Directories are finite maps

A directory is an array of slots, searched from the first, in which `dirlink` reuses the first
empty slot and `sys_unlink` empties the slot of a name.  Names are compared in their first
`DIRSIZ` bytes up to a NUL (`cname`).  For a directory with the entries `.` and `..` in slots 0
and 1 and no name twice (`Mapped`), this is a finite map from names to inode numbers:
a new entry binds one name (`Mapped.entered`), a cleared one unbinds one name
(`Mapped.cleared`), and the directory is empty when it binds `.` and `..` only
(`Mapped.empty_iff`).
-/
import Xv6.FsFailed
import Xv6.SlotMap

namespace Fs

open Function Hoare
open SlotMap (Table Distinct Changed)
open Transition

variable {sb : Superblock} {dp ip c : Ip} {s t : State}
variable {D D' : ℕ → Dinode} {blk blk' : ℕ → ℕ → UInt8} {d i k v : ℕ}
variable {name bytes : List UInt8}

/-! ## A directory as a table of slots -/

/-- The slots of a directory. -/
def tableOf (D : ℕ → Dinode) (blk : ℕ → ℕ → UInt8) (d : ℕ) : Table (List UInt8) :=
  ⟨slots D d, slotInum D blk d, slotName D blk d⟩

/-- **What the names of a directory are bound to.** -/
def bindings (D : ℕ → Dinode) (blk : ℕ → ℕ → UInt8) (d : ℕ) : List UInt8 → Option ℕ :=
  SlotMap.get (tableOf D blk d)

theorem lookup_eq_bindings (D : ℕ → Dinode) (blk : ℕ → ℕ → UInt8) (d : ℕ) (name : List UInt8) :
    lookup D blk d name = bindings D blk d (cname name) := rfl

/-- **A directory that is a map**: whole entries, `.` and `..` in the first two slots, and no
name twice. -/
structure Mapped (D : ℕ → Dinode) (blk : ℕ → ℕ → UInt8) (d : ℕ) : Prop where
  type : (D d).type = T_DIR
  linked : (D d).nlink ≠ 0
  even : (D d).size % DIRENT = 0
  two : 2 ≤ slots D d
  self : slotInum D blk d 0 ≠ 0 ∧ slotName D blk d 0 = dot
  up : slotInum D blk d 1 ≠ 0 ∧ slotName D blk d 1 = dotdot
  distinct : Distinct (tableOf D blk d)

/-- The bindings show, so they are the same in a directory that looks the same. -/
theorem Mapped.of_alike (h : Mapped D blk d) (ha : Alike D blk D' blk' d) :
    Mapped D' blk' d ∧ bindings D' blk' d = bindings D blk d := by
  have hne : (D d).type ≠ 0 := dir_ne_zero h.type
  have hslots := ha.slots_eq hne
  have hinum : ∀ k, k < slots D d → slotInum D' blk' d k = slotInum D blk d k := by
    intro k hk
    unfold slotInum
    rw [ha.slotBytes_eq hne hk]
  have hname : ∀ k, k < slots D d → slotName D' blk' d k = slotName D blk d k := by
    intro k hk
    unfold slotName
    rw [ha.slotBytes_eq hne hk]
  have htwo := h.two
  refine ⟨⟨ha.type.trans h.type, by rw [ha.nlink hne]; exact h.linked,
    by rw [ha.size hne]; exact h.even, by rw [hslots]; exact htwo, ?_, ?_,
    h.distinct.congr hslots hinum hname⟩, SlotMap.get_congr hslots hinum hname⟩
  · rw [hinum 0 (by omega), hname 0 (by omega)]
    exact h.self
  · rw [hinum 1 (by omega), hname 1 (by omega)]
    exact h.up

theorem SlotWritten.changed (h : SlotWritten d k bytes D blk D' blk')
    (hmod : (D d).size % DIRENT = 0) (hk : k ≤ slots D d) :
    Changed (tableOf D blk d) (tableOf D' blk' d) k where
  le := hk
  size := (h.slots_eq hmod).1
  val _ hj hne := h.inum_eq hj hne
  key _ hj hne := h.name_eq hj hne

/-- A slot from 2 on is written, and the names stay distinct. -/
theorem Mapped.written (h : Mapped D blk d) (hw : SlotWritten d k bytes D blk D' blk')
    (hk : 2 ≤ k) (hd : Distinct (tableOf D' blk' d)) : Mapped D' blk' d := by
  have hsize := hw.slots_eq h.even
  have h0 : 0 < slots D d := by have := h.two; omega
  have h1 : 1 < slots D d := by have := h.two; omega
  refine ⟨hw.type.trans h.type, by rw [hw.nlink]; exact h.linked, hsize.2,
    by rw [hsize.1]; exact le_max_of_le_left h.two, ?_, ?_, hd⟩
  · rw [hw.inum_eq h0 (by omega), hw.name_eq h0 (by omega)]
    exact h.self
  · rw [hw.inum_eq h1 (by omega), hw.name_eq h1 (by omega)]
    exact h.up

/-- **A new entry** binds its name.  The number is stored in 16 bits. -/
theorem Mapped.entered (h : Mapped D blk d) (he : Entered d name v D blk D' blk') :
    Mapped D' blk' d ∧ bindings D' blk' d = fun x =>
      if x = cname name ∧ v % 2 ^ 16 ≠ 0 then some (v % 2 ^ 16) else bindings D blk d x := by
  obtain ⟨hnone, -, k, hw, hvac⟩ := he
  have hk : 2 ≤ k ∧ k ≤ slots D d := by
    have := h.two
    rcases hvac with ⟨hlt, hzero⟩ | rfl
    · have h0 : k ≠ 0 := fun h0 => h.self.1 (h0 ▸ hzero)
      have h1 : k ≠ 1 := fun h1 => h.up.1 (h1 ▸ hzero)
      omega
    · omega
  have hch := hw.changed h.even hk.2
  have hkey : (tableOf D' blk' d).key k = cname name := hw.name_new.trans (cname_dirent v name)
  have hval : (tableOf D' blk' d).val k = v % 2 ^ 16 :=
    hw.inum_new.trans (deInum_dirent_mod v name)
  have hempty : k < (tableOf D blk d).size → (tableOf D blk d).val k = 0 := fun hlt =>
    hvac.elim (fun h => h.2) fun heq => absurd hlt (by rw [heq]; exact lt_irrefl _)
  have hnew : SlotMap.get (tableOf D blk d) ((tableOf D' blk' d).key k) = none := by
    rw [hkey]
    exact SlotMap.get_eq_none_iff.mpr hnone
  obtain ⟨hd, hget⟩ := hch.fill h.distinct hempty hnew
  rw [hkey, hval] at hget
  exact ⟨h.written hw hk.1 hd, hget⟩

/-- **An entry is cleared**: its name is unbound. -/
theorem Mapped.cleared (h : Mapped D blk d)
    (hw : SlotWritten d k (List.replicate DIRENT 0) D blk D' blk') (hlt : k < slots D d)
    (hne : slotInum D blk d k ≠ 0)
    (hname : slotName D blk d k ≠ dot ∧ slotName D blk d k ≠ dotdot) :
    Mapped D' blk' d ∧ bindings D' blk' d = fun x =>
      if x = slotName D blk d k then none else bindings D blk d x := by
  have hk : 2 ≤ k := by
    have h0 : k ≠ 0 := fun h0 => hname.1 (by rw [h0]; exact h.self.2)
    have h1 : k ≠ 1 := fun h1 => hname.2 (by rw [h1]; exact h.up.2)
    omega
  have hzero : (tableOf D' blk' d).val k = 0 := hw.inum_new.trans (by decide)
  obtain ⟨hd, hget⟩ := (hw.changed h.even hlt.le).clear h.distinct hlt hne hzero
  exact ⟨h.written hw hk hd, hget⟩

/-- **An empty directory** binds `.` and `..` only. -/
theorem Mapped.empty_iff (h : Mapped D blk d) :
    (∀ k, k < slots D d → 2 ≤ k → slotInum D blk d k = 0) ↔
      ∀ x, bindings D blk d x ≠ none → x = dot ∨ x = dotdot := by
  have htwo := h.two
  constructor
  · intro hempty x hbound
    obtain ⟨v, hv⟩ := Option.ne_none_iff_exists'.mp hbound
    obtain ⟨hne, k, hlt, hname, rfl⟩ := (SlotMap.get_eq_some_iff h.distinct).mp hv
    have hk : ¬ 2 ≤ k := fun hk => hne (hempty k hlt hk)
    obtain rfl | rfl : k = 0 ∨ k = 1 := by omega
    · exact Or.inl (hname.symm.trans h.self.2)
    · exact Or.inr (hname.symm.trans h.up.2)
  · intro hnames k hlt hk
    by_contra hne
    -- the name in slot k is bound, so it is the name in slot 0 or 1
    have hbound : bindings D blk d (slotName D blk d k) ≠ none := fun hnone =>
      SlotMap.get_eq_none_iff.mp hnone k hlt hne rfl
    have h0 : 0 < (tableOf D blk d).size := by exact (by omega : 0 < slots D d)
    have h1 : 1 < (tableOf D blk d).size := by exact (by omega : 1 < slots D d)
    rcases hnames _ hbound with hdot | hdotdot
    · have := h.distinct k 0 hlt h0 hne h.self.1 (hdot.trans h.self.2.symm)
      omega
    · have := h.distinct k 1 hlt h1 hne h.up.1 (hdotdot.trans h.up.2.symm)
      omega

/-! ## Calls on a directory -/

/-- A call on the locked directory `d`, in a transaction of its own. -/
def onDir (d : ℕ) (c : Ip → FsM ℤ) : FsM ℤ := do
  beginOp
  let dp ← iget d
  ilock dp
  let r ← c dp
  iunlockput dp
  endOp
  pure r

/-- How `sys_unlink` clears the entry of a name in the locked directory `dp`. -/
def clearEntry (sb : Superblock) (dp : Ip) (name : List UInt8) : FsM ℤ := do
  if namecmp name dot ∨ namecmp name dotdot then pure (-1)
  else
    match ← dirlookup sb dp name with
    | none => pure (-1)
    | some (ip, off) => do
      let n ← writei sb dp (kernelSrc (List.replicate DIRENT 0)) off DIRENT
      if n ≠ DIRENT then throw "unlink: writei"
      else do
        iput ip
        pure 0

/-- The inode number that `dirlookup` finds. -/
def findEntry (sb : Superblock) (dp : Ip) (name : List UInt8) : FsM ℤ := do
  match ← dirlookup sb dp name with
  | none => pure (-1)
  | some (ip, _) => do
    let x ← inode ip
    iput ip
    pure x.inum

/-- The calls that read and change directories. -/
inductive DirOp where
  | link (d : ℕ) (name : List UInt8) (inum : ℕ)
  | clear (d : ℕ) (name : List UInt8)
  | find (d : ℕ) (name : List UInt8)
  | isEmpty (d : ℕ)

/-- The directory of a call. -/
def DirOp.dir : DirOp → ℕ
  | .link d _ _ => d
  | .clear d _ => d
  | .find d _ => d
  | .isEmpty d => d

/-- What a call does with the locked directory. -/
def DirOp.body (sb : Superblock) : DirOp → Ip → FsM ℤ
  | .link _ name inum, dp => dirlink sb dp name inum
  | .clear _ name, dp => clearEntry sb dp name
  | .find _ name, dp => findEntry sb dp name
  | .isEmpty _, dp => (fun b => if b then 1 else 0) <$> isdirempty sb dp

def dirCall (sb : Superblock) (a : DirOp) : FsM ℤ := onDir a.dir (a.body sb)

theorem clearEntry_neutral : Neutral (clearEntry sb dp name) := by
  unfold clearEntry
  refine Locks.ite (Neutral.ret _) ?_
  refine (dirlookup_neutral name).bind fun r => ?_
  split
  · exact Neutral.ret _
  · refine (writei_neutral _ _ _).bind fun n => ?_
    exact Locks.ite (Locks.panic _) (iput_neutral.bind fun _ => Neutral.ret _)

theorem findEntry_neutral : Neutral (findEntry sb dp name) := by
  unfold findEntry
  refine (dirlookup_neutral name).bind fun r => ?_
  split
  · exact Neutral.ret _
  · refine Neutral.bind (fun _ => rfl) fun _ => ?_
    exact iput_neutral.bind fun _ => Neutral.ret _

theorem DirOp.body_neutral (a : DirOp) : Neutral (a.body sb dp) := by
  cases a with
  | link d name inum => exact dirlink_neutral name inum
  | clear d name => exact clearEntry_neutral
  | find d name => exact findEntry_neutral
  | isEmpty d =>
    refine Neutral.map ?_
    refine Neutral.bind (fun _ => rfl) fun _ => ?_
    exact isdiremptyLoop_neutral _ _

/-! ## The maps that the calls work on -/

/-- A finite map from names to inode numbers. -/
abbrev NameMap := List UInt8 → Option ℕ

/-- What a call that has returned `r` makes of the map of its directory. -/
def DirOp.after (x : NameMap) : DirOp → ℤ → NameMap
  | .link _ name inum, r =>
    if r = 0 ∧ inum % 2 ^ 16 ≠ 0 then update x (cname name) (some (inum % 2 ^ 16)) else x
  | .clear _ name, r => if r = 0 then update x (cname name) none else x
  | .find _ _, _ => x
  | .isEmpty _, _ => x

/-- What a call may return, by the map of its directory. -/
def DirOp.Answers (x : NameMap) : DirOp → ℤ → Prop
  | .link _ name _, r => r = -1 ∨ r = 0 ∧ x (cname name) = none
  | .clear _ name, r =>
    r = if cname name = dot ∨ cname name = dotdot ∨ x (cname name) = none then -1 else 0
  | .find _ name, r => r = ((x (cname name)).map Nat.cast).getD (-1)
  | .isEmpty _, r => (r = 0 ∨ r = 1) ∧ (r = 1 ↔ ∀ y, x y ≠ none → y = dot ∨ y = dotdot)

/-- A call that fails changes nothing. -/
theorem DirOp.after_fail (x : NameMap) (a : DirOp) : a.after x (-1) = x := by
  cases a with
  | link d name inum => rw [DirOp.after, if_neg fun h => absurd h.1 (by decide)]
  | clear d name => rw [DirOp.after, if_neg (by decide)]
  | find d name => rfl
  | isEmpty d => rfl

theorem DirOp.after_link (x : NameMap) (d : ℕ) (name : List UInt8) (v : ℕ) :
    (DirOp.link d name v).after x 0 = fun y =>
      if y = cname name ∧ v % 2 ^ 16 ≠ 0 then some (v % 2 ^ 16) else x y := by
  funext y
  rw [DirOp.after]
  by_cases hz : v % 2 ^ 16 = 0
  · rw [if_neg fun h => h.2 hz, if_neg fun h => h.2 hz]
  · rw [if_pos ⟨rfl, hz⟩, update_apply]
    simp only [ne_eq, hz, not_false_eq_true, and_true]

theorem DirOp.after_clear (x : NameMap) (d : ℕ) (name : List UInt8) :
    (DirOp.clear d name).after x 0 = fun y => if y = cname name then none else x y := by
  funext y
  rw [DirOp.after, if_pos rfl, update_apply]

/-- **The directories as maps.** -/
abbrev Maps := ℕ → NameMap

/-- A call changes the map of its directory only. -/
def Maps.after (m : Maps) (a : DirOp) (r : ℤ) : Maps :=
  update m a.dir (a.after (m a.dir) r)

theorem Maps.after_of_ne (m : Maps) (a : DirOp) (r : ℤ) (hd : d ≠ a.dir) : m.after a r d = m d :=
  update_of_ne hd _ _

/-- What a call does to the map of a directory depends on that map only. -/
theorem Maps.after_congr {m m' : Maps} (h : m d = m' d) (a : DirOp) (r : ℤ) :
    m.after a r d = m'.after a r d := by
  by_cases hd : d = a.dir
  · subst hd
    rw [Maps.after, Maps.after, update_self, update_self, h]
  · rw [Maps.after_of_ne _ _ _ hd, Maps.after_of_ne _ _ _ hd, h]

/-- No entry can be made for the name: it is there, or every slot is in use and the directory
has its maximal size or needs a block when none is free. -/
def Refused (sb : Superblock) (d : ℕ) (name : List UInt8) (s : State) : Prop :=
  bindings s.dinode s.block d (cname name) ≠ none ∨
    (∀ k, k < slots s.dinode d → slotInum s.dinode s.block d k ≠ 0) ∧
      ((s.dinode d).size = MAXFILE * BSIZE ∨ NoneFree sb s ∧
        place (s.dinode d) s.block (home ((s.dinode d).size / BSIZE)) = 0)

/-- **What a call on a directory has done**: its result, its effect on every directory, and
for a failed `dirlink` that nothing has changed and why. -/
structure Outcome (sb : Superblock) (a : DirOp) (s : State) (r : ℤ) (t : State) : Prop where
  answer : a.Answers (bindings s.dinode s.block a.dir) r
  follows : ∀ e, Mapped s.dinode s.block e → Mapped t.dinode t.block e ∧
    bindings t.dinode t.block e = Maps.after (bindings s.dinode s.block) a r e
  fails : ∀ d name inum, a = .link d name inum → (Refused sb d name s → r = -1) ∧
    (r = -1 → (∀ i, Alike s.dinode s.block t.dinode t.block i) ∧
      (Refused sb d name s ∨ NoneFree sb t ∧
        ∀ k, k < slots s.dinode d → slotInum s.dinode s.block d k ≠ 0))

end Fs

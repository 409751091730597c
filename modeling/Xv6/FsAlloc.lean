/-
# Allocation of blocks over whole runs

From a consistent image without holes, after any sequence of operations: every block that
an allocated inode or its indirect block refers to is referred to once and lies in the data
area, the free map has exactly the blocks of the metadata and those that are referred to,
and no file has holes.  So `bfree` never finds a free block, `readi` never allocates, and
nothing is logged outside of a transaction.

Without the references being consistent, a write to one file can put a hole into another
(`aliased_block_makes_hole`).
-/
import Xv6.FsRun

namespace Fs

open Hoare
open Calls (first)
open Proc (NPROC)
open Transition

variable {sb : Superblock} {w : Prop} {g : Watch} {s t : State} {e : Ip} {i : ℕ}
variable {D : ℕ → Dinode} {bm : ℕ → Bool} {blk : ℕ → ℕ → UInt8}

/-! ## Operations -/

/-- The operations: system calls, and writing and truncating any inode that is in use. -/
inductive Op where
  | call (p : Fin NPROC) (c : Call)
  | writei (ip : Ip) (src : ℕ → Option UInt8) (off n : ℕ)
  | itrunc (ip : Ip)

/-- Can the operation happen? -/
def Op.Ready (s : State) : Op → Prop
  | .call p _ => (s.proc p).state = .running
  | .writei ip _ _ _ => 0 < (s.itable ip).ref
  | .itrunc ip => 0 < (s.itable ip).ref

instance (s : State) : (op : Op) → Decidable (op.Ready s)
  | .call p _ => inferInstanceAs (Decidable ((s.proc p).state = .running))
  | .writei ip _ _ _ => inferInstanceAs (Decidable (0 < (s.itable ip).ref))
  | .itrunc ip => inferInstanceAs (Decidable (0 < (s.itable ip).ref))

/-- A transaction on a locked inode. -/
def onInode (ip : Ip) (c : FsM ℤ) : FsM ℤ := do
  beginOp
  ilock ip
  let r ← c
  iunlock ip
  endOp
  pure r

def Op.perform (sb : Superblock) : Op → FsM ℤ
  | .call p c => syscall sb p c
  | .writei ip src off n => onInode ip (Fs.writei sb ip src off n)
  | .itrunc ip => onInode ip (Fs.itrunc ip >>= fun _ => pure 0)

def opStep (sb : Superblock) (s : State) (op : Op) : Option State :=
  if op.Ready s then
    match op.perform sb s with
    | .ok _ t => some t
    | .error _ _ => none
  else none

theorem onInode_ends {ip : Ip} {c : FsM ℤ} (h : Settled sb w .off 0 0 s)
    (hpos : 0 < (s.itable ip).ref)
    (hc : ∀ t, Inv sb w .off 1 0 t → 0 < (t.itable ip).ref → (t.itable ip).valid = true →
      Ends (c t) (fun _ u => Inv sb w .off 1 0 u ∧ Body ip t u) (Fine w .off)) :
    Ends (onInode ip c s) (fun _ t => Settled sb w .off 0 0 t) (Fine w .off) := by
  unfold onInode
  rw [beginOp_bind]
  apply (h.begin.lock hpos).bind
  rintro _ t ⟨ht, hload⟩
  have hpos' : 0 < (t.itable ip).ref := by
    rw [hload.ref]
    exact hpos
  apply (hc t ht.inv hpos' hload.valid).bind
  rintro r u ⟨hu, hbody⟩
  have hus : Settled sb w .off 1 0 u := ⟨hu, fun hg => hg.elim, fun hg => hg.elim⟩
  apply (hus.unlock (by rw [hbody.ref]; exact hpos')).bind
  rintro _ x ⟨hx, -⟩
  exact hx.finish

theorem op_ends (h : Settled sb w .off 0 0 s) (op : Op) (hready : op.Ready s) :
    Ends (op.perform sb s) (fun _ t => Settled sb w .off 0 0 t) (Fine w .off) := by
  cases op with
  | call p c => exact syscall_ends p c h hready fun hg => hg.elim
  | writei ip src off n =>
    refine onInode_ends h hready fun t ht hpos hv => ?_
    exact (writei_ends ht (fun _ => le_rfl) hpos (fun _ => hv) src off n).post
      fun _ u hu => ⟨hu.1, hu.2.1⟩
  | itrunc ip =>
    refine onInode_ends h hready fun t ht hpos hv => ?_
    apply (itrunc_ends ht (fun _ => le_rfl) hpos fun _ => hv).bind
    rintro _ u ⟨hu, hbody, -⟩
    exact ⟨hu, hbody⟩

theorem opStep_settled {op : Op} (h : Settled sb w .off 0 0 s)
    (hstep : opStep sb s op = some t) : Settled sb w .off 0 0 t := by
  unfold opStep at hstep
  by_cases hready : op.Ready s
  · rw [if_pos hready] at hstep
    have hends := op_ends h op hready
    cases hrun : op.perform sb s with
    | ok r u =>
      rw [hrun] at hstep hends
      simp only [Option.some.injEq] at hstep
      rw [← hstep]
      exact hends
    | error msg u =>
      rw [hrun] at hstep
      cases hstep
  · rw [if_neg hready] at hstep
    cases hstep

/-! ## References to blocks -/

/-- The inode as the kernel sees it: the copy in the table where one is valid, and else the
inode on disk. -/
def current (s : State) (i : ℕ) : Dinode :=
  match first fun e => 0 < (s.itable e).ref ∧ (s.itable e).valid = true ∧ (s.itable e).inum = i with
  | some e => (s.itable e).d
  | none => s.dinode i

/-- On a consistent disk both are the same. -/
theorem Consistent.current_eq (h : Consistent sb s) : current s = s.dinode := by
  funext i
  unfold current
  split
  · rename_i e he
    have hfound := first_some he
    simp only [decide_eq_true_eq] at hfound
    obtain ⟨hpos, hv, rfl⟩ := hfound
    exact (h.clean e hpos hv).symm
  · rfl

/-- **Blocks and references agree.** -/
structure BlocksExact (sb : Superblock) (s : State) : Prop where
  once : ∀ x y, refs (current s) s.block x ≠ 0 →
    refs (current s) s.block x = refs (current s) s.block y → x = y
  area : ∀ x, refs (current s) s.block x ≠ 0 →
    dataStart sb ≤ refs (current s) s.block x ∧ refs (current s) s.block x < sb.size
  bit : ∀ b, b < sb.size → (s.bitmap b = true ↔
    b < dataStart sb ∨ ∃ x, refs (current s) s.block x = b)

theorem Consistent.blocksExact (h : Consistent sb s) : BlocksExact sb s := by
  refine ⟨?_, ?_, ?_⟩ <;> rw [h.current_eq]
  · exact h.sound.once
  · exact h.sound.area
  · exact h.sound.bit

theorem Image.boot (h : Image sb D bm blk) : Settled sb True .off 0 0 (boot D bm blk) :=
  boot_settled (fun h => h.elim) (fun _ => h) (fun h => h.elim) fun h => h.elim

/-- **Blocks are allocated consistently**: no block is leaked or has two users, whatever the
operations are and however they fail, and none that is free is freed. -/
theorem block_allocation_consistent (himage : Image sb D bm blk) (ops : List Op) :
    Always (opStep sb) (fun s => BlocksExact sb s ∧ ∀ op : Op, op.Ready s → ∀ msg t,
      op.perform sb s = .error msg t → msg ≠ "freeing free block") (boot D bm blk) ops := by
  refine always_of_step (fun s op t hs hstep => opStep_settled hs hstep) (fun s hs => ?_) ops _
    himage.boot
  refine ⟨(hs.inv.good trivial).blocksExact, fun op hready msg t hrun => ?_⟩
  have hends := op_ends hs op hready
  rw [hrun] at hends
  exact (hends.1 trivial).1

/-! ## An image with the root directory only -/

def rootSb : Superblock := ⟨12, 8, 6, 0, 2, 2, 3⟩

def rootDinode (i : ℕ) : Dinode :=
  if i = ROOTINO then ⟨T_DIR, 0, 0, 1, 2 * DIRENT, fun k => if k = 0 then 4 else 0⟩
  else Dinode.zero 0

def rootBitmap (b : ℕ) : Bool := b ≤ 4

def rootBlock (b j : ℕ) : UInt8 :=
  if b = 4 then (dirent ROOTINO dot ++ dirent ROOTINO dotdot).getD j 0 else 0

theorem rootDinode_of_ne (h : i ≠ ROOTINO) : rootDinode i = Dinode.zero 0 := if_neg h

/-- The only reference is to the block of the root directory. -/
theorem refs_root (x : ℕ × Place) :
    refs rootDinode rootBlock x = if x = (ROOTINO, Place.addr 0) then 4 else 0 := by
  obtain ⟨m, p⟩ := x
  by_cases hm : m = ROOTINO
  · subst hm
    cases p with
    | addr k =>
      by_cases hk : k = 0
      · subst hk
        decide
      · simp [refs, place, rootDinode, T_DIR, hk]
    | leaf j => simp [refs, place, rootDinode, T_DIR, NDIRECT]
  · simp [refs, rootDinode_of_ne hm, Dinode.zero, hm]

theorem rootImage : Image rootSb rootDinode rootBitmap rootBlock where
  fits := by decide
  sound := by
    refine ⟨by decide, fun x hx => ?_, fun x y hx hxy => ?_, fun b hb => ?_⟩
    · rw [refs_root] at hx ⊢
      by_cases h : x = (ROOTINO, Place.addr 0)
      · rw [if_pos h]
        decide
      · rw [if_neg h] at hx
        exact absurd rfl hx
    · rw [refs_root] at hx hxy
      rw [refs_root] at hxy
      by_cases h : x = (ROOTINO, Place.addr 0)
      · by_cases h' : y = (ROOTINO, Place.addr 0)
        · rw [h, h']
        · rw [if_pos h, if_neg h'] at hxy
          cases hxy
      · rw [if_neg h] at hx
        exact absurd rfl hx
    · have hstart : dataStart rootSb = 4 := by decide
      rw [hstart]
      constructor
      · intro hbit
        have hle : b ≤ 4 := by simpa [rootBitmap] using hbit
        by_cases h4 : b = 4
        · exact Or.inr ⟨(ROOTINO, Place.addr 0), by rw [refs_root, if_pos rfl, h4]⟩
        · exact Or.inl (by omega)
      · rintro (hlt | ⟨x, hx⟩)
        · simp only [rootBitmap, decide_eq_true_eq]
          omega
        · rw [refs_root] at hx
          simp only [rootBitmap, decide_eq_true_eq]
          split_ifs at hx <;> omega
  whole i hi j hj := by
    by_cases h : i = ROOTINO
    · subst h
      have hlt : j < 32 := hj
      have hzero : j / BSIZE = 0 := Nat.div_eq_of_lt (by unfold BSIZE; omega)
      rw [hzero]
      decide
    · rw [rootDinode_of_ne h] at hi
      exact absurd rfl hi

/-- A file is created, written and truncated. -/
theorem block_allocation_consistent_create : Image rootSb rootDinode rootBitmap rootBlock ∧
    Always (opStep rootSb) (fun s => BlocksExact rootSb s ∧ ∀ op : Op, op.Ready s → ∀ msg t,
      op.perform rootSb s = .error msg t → msg ≠ "freeing free block")
      (boot rootDinode rootBitmap rootBlock)
      [.call initproc (.open (some [102]) (O_CREATE ||| O_RDWR)),
        .call initproc (.write 0 3 fun _ => some 7), .itrunc ⟨1, by decide⟩] :=
  ⟨rootImage, block_allocation_consistent rootImage _⟩

/-- An inode has one entry, and a valid entry has what is on the disk. -/
def Coherent (s : State) : Prop := ∀ e, 0 < (s.itable e).ref →
  (∀ e', 0 < (s.itable e').ref → (s.itable e).inum = (s.itable e').inum → e = e') ∧
  ((s.itable e).valid = true → s.dinode (s.itable e).inum = (s.itable e).d)

/-- **The inode table is coherent** between calls, whatever they are and however they end. -/
theorem inode_table_coherent (himage : Image sb D bm blk) (calls : List (Fin NPROC × Call)) :
    Always (step sb) Coherent (boot D bm blk) calls := by
  refine always_of_step (fun s a t hs hstep => ?_) (fun s hs e he => ?_) calls _ himage.boot
  · exact step_settled hs (fun h => h.elim) hstep
  · have hgood := hs.inv.good trivial
    exact ⟨fun e' => hgood.unique e e' he, hgood.clean e he⟩

theorem inode_table_coherent_open : Image rootSb rootDinode rootBitmap rootBlock ∧
    Always (step rootSb) Coherent (boot rootDinode rootBitmap rootBlock)
      [(initproc, .open (some [102]) (O_CREATE ||| O_RDWR))] :=
  ⟨rootImage, inode_table_coherent rootImage _⟩

/-! ## Holes -/

/-- **No file has a hole**: every block below the size of an inode has an address. -/
def NoHoles (D : ℕ → Dinode) (blk : ℕ → ℕ → UInt8) : Prop :=
  ∀ i, (D i).type ≠ 0 → ∀ bn, bn * BSIZE < (D i).size → place (D i) blk (home bn) ≠ 0

theorem Consistent.noHoles (h : Consistent sb s) : NoHoles s.dinode s.block := by
  intro i hi bn hbn
  have hwhole := h.whole i hi (bn * BSIZE) hbn
  rwa [Nat.mul_div_cancel _ (by decide)] at hwhole

/-- **Nothing is logged outside of a transaction.**  From a consistent image without holes,
no system call makes a hole, so `readi` allocates nothing; the panics of `log_write` outside
of an operation and of `sys_unlink` after a short write are never reached. -/
theorem no_log_outside_transaction (himage : Image sb D bm blk) (calls : List (Fin NPROC × Call)) :
    Always (step sb) (fun s => NoHoles s.dinode s.block ∧
      (∀ e, 0 < (s.itable e).ref → (s.itable e).valid = true → ∀ ok off n,
        ∃ r, readi sb e ok off n s = .ok r s) ∧
      ∀ p call, (s.proc p).state = .running → ∀ msg t, syscall sb p call s = .error msg t →
        msg ≠ "log_write outside of trans" ∧ msg ≠ "unlink: writei") (boot D bm blk) calls := by
  refine always_of_step (fun s a t hs hstep => step_settled (g := .off) hs (fun h => h.elim) hstep)
    (fun s hs => ?_) calls _ himage.boot
  have hgood := hs.inv.good trivial
  refine ⟨hgood.noHoles, fun e hpos hv ok off n => ?_, fun p call hrun msg t herr => ?_⟩
  · obtain ⟨r, bytes, hread⟩ := readi_ok sb ok off n (hgood.has hpos hv)
    exact ⟨(r, bytes), hread⟩
  · have hends := syscall_ends p call hs hrun fun h => h.elim
    rw [herr] at hends
    exact (hends.1 trivial).2

/-- A directory is made and read. -/
theorem no_log_outside_transaction_mkdir : Image rootSb rootDinode rootBitmap rootBlock ∧
    Always (step rootSb) (fun s => NoHoles s.dinode s.block ∧
      (∀ e, 0 < (s.itable e).ref → (s.itable e).valid = true → ∀ ok off n,
        ∃ r, readi rootSb e ok off n s = .ok r s) ∧
      ∀ p call, (s.proc p).state = .running → ∀ msg t, syscall rootSb p call s = .error msg t →
        msg ≠ "log_write outside of trans" ∧ msg ≠ "unlink: writei")
      (boot rootDinode rootBitmap rootBlock)
      [(initproc, .mkdir (some [97])), (initproc, .open (some [97]) O_RDONLY),
        (initproc, .read 0 16 fun _ => true)] :=
  ⟨rootImage, no_log_outside_transaction rootImage _⟩

/-! ## Two files that share a block -/

/-- Besides the root directory there are file 2, whose indirect block is block 6, and file 3
with the name `f`, whose first block is block 6, too. -/
def aliasDinode (i : ℕ) : Dinode :=
  if i = ROOTINO then ⟨T_DIR, 0, 0, 1, 3 * DIRENT, fun k => if k = 0 then 4 else 0⟩
  else if i = 2 then ⟨T_FILE, 0, 0, 1, NDIRECT * BSIZE + 1, fun k => if k = NDIRECT then 6 else 5⟩
  else if i = 3 then ⟨T_FILE, 0, 0, 1, BSIZE, fun k => if k = 0 then 6 else 0⟩
  else Dinode.zero 0

def aliasBlock (b j : ℕ) : UInt8 :=
  if b = 4 then (dirent ROOTINO dot ++ dirent ROOTINO dotdot ++ dirent 3 [102]).getD j 0
  else if b = 6 ∧ j = 0 then 7
  else 0

theorem alias_noHoles : NoHoles aliasDinode aliasBlock := by
  intro i hi bn hbn
  by_cases h1 : i = ROOTINO
  · subst h1
    have hlt : bn * 1024 < 48 := hbn
    have hzero : bn = 0 := by omega
    subst hzero
    decide
  by_cases h2 : i = 2
  · subst h2
    have hlt : bn * 1024 < 12 * 1024 + 1 := hbn
    have hall : ∀ k < 13, place (aliasDinode 2) aliasBlock (home k) ≠ 0 := by decide
    exact hall bn (by omega)
  by_cases h3 : i = 3
  · subst h3
    have hlt : bn * 1024 < 1024 := hbn
    have hzero : bn = 0 := by omega
    subst hzero
    decide
  · exact absurd (by simp [aliasDinode, h1, h2, h3, Dinode.zero]) hi

/-- Zeros are written to file `f`. -/
def writeShared : List (Fin NPROC × Call) :=
  [(initproc, .open (some [102]) O_WRONLY), (initproc, .write 0 4 fun _ => some 0)]

/-- **A shared block**: on an image without holes whose references are not consistent, four
zero bytes written to one file make a hole in another. -/
theorem aliased_block_makes_hole : NoHoles aliasDinode aliasBlock ∧
    ¬ Always (step rootSb) (fun s => NoHoles s.dinode s.block)
      (boot aliasDinode (fun b => b ≤ 7) aliasBlock) writeShared := by
  refine ⟨alias_noHoles, fun halways => ?_⟩
  have hrun : (run (step rootSb) (boot aliasDinode (fun b => b ≤ 7) aliasBlock) writeShared).map
      (fun t => ((t.dinode 2).type, (t.dinode 2).size, place (t.dinode 2) t.block (home NDIRECT)))
      = some (T_FILE, NDIRECT * BSIZE + 1, 0) := by decide +kernel
  obtain ⟨t, ht, heq⟩ := Option.map_eq_some_iff.mp hrun
  simp only [Prod.mk.injEq] at heq
  refine halways.of_run _ _ _ ht 2 ?_ NDIRECT ?_ heq.2.2
  · rw [heq.1]
    decide
  · rw [heq.2.1]
    exact Nat.lt_succ_self _

end Fs

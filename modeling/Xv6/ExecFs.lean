/-
# exec and what it takes from the file system (kernel/exec.c, kernel/sysfile.c)

`exec` with its transaction: `begin_op`, the inode that `namei` finds, its lock, every
`readi`, and the two places where the inode is put and the transaction ends.  The file
system is whatever it is: `Files` says which inode a path leads to and what each `readi`
delivers, which may be less than was asked for at any point.  A `Session` counts what the
call has taken and given back.

The functions of `Exec.lean` that do not read the file are used as they are there, on the
physical memory (`onFst`).  If the bytes come from a file as it is there, the program
that is loaded is the same (`execLoad_of_file`).
-/
import Xv6.Exec

namespace Exec

open Vm Hoare

/-! ## The file system as exec sees it -/

/-- How the file system answers: the inode of a path, and the bytes that the `k`-th call
of `readi` delivers for an inode, an offset and a length. -/
structure Files where
  namei : List UInt8 → Option ℕ
  readi : ℕ → ℕ → ℕ → ℕ → List UInt8

/-- What a call has taken from the file system: the operations it has begun and ended,
the references and locks of inodes that it holds, and how often it has called `readi`. -/
structure Session where
  begun : ℕ
  ended : ℕ
  refs : List ℕ
  locked : List ℕ
  reads : ℕ
  deriving DecidableEq, Repr

/-- Kernel code on physical memory and the file system. -/
abbrev ExecM := StateT (Phys × Session) (Except String)

def panic {α : Type} (msg : String) : ExecM α := fun _ => .error msg

def beginOp : ExecM Unit := fun s => .ok ((), s.1, { s.2 with begun := s.2.begun + 1 })

def endOp : ExecM Unit := fun s => .ok ((), s.1, { s.2 with ended := s.2.ended + 1 })

/-- The inode that the path leads to, with a reference. -/
def namei (fs : Files) (path : List UInt8) : ExecM (Option ℕ) := fun s =>
  match fs.namei path with
  | none => .ok (none, s)
  | some ip => .ok (some ip, s.1, { s.2 with refs := ip :: s.2.refs })

def ilock (ip : ℕ) : ExecM Unit := fun s =>
  if ip ∈ s.2.refs then .ok ((), s.1, { s.2 with locked := ip :: s.2.locked })
  else .error "ilock"

/-- `iunlock` and `iput`. -/
def iunlockput (ip : ℕ) : ExecM Unit := fun s =>
  if ip ∈ s.2.locked ∧ ip ∈ s.2.refs then
    .ok ((), s.1, { s.2 with locked := s.2.locked.erase ip, refs := s.2.refs.erase ip })
  else .error "iunlock"

/-- The bytes that `readi` copies to kernel memory. -/
def readi (fs : Files) (ip off n : ℕ) : ExecM (List UInt8) := fun s =>
  .ok ((fs.readi s.2.reads ip off n).take n, s.1, { s.2 with reads := s.2.reads + 1 })

/-! ## kernel/exec.c -/

/-- The loop of `loadseg` with `k` pages left. -/
def loadsegLoop (fs : Files) (pagetable va ip offset sz : ℕ) : ℕ → ℕ → ExecM ℤ
  | 0, _ => pure 0
  | k + 1, i => do
    let pa ← onFst (walkaddr pagetable (va + i))
    if pa = 0 then panic "loadseg: address should exist"
    else do
      let n := if sz - i < PGSIZE then sz - i else PGSIZE
      let bytes ← readi fs ip ((offset + i) % 2 ^ 32) n
      onFst (writeBytes pa 0 bytes)
      if bytes.length ≠ n then pure (-1)
      else loadsegLoop fs pagetable va ip offset sz k (i + PGSIZE)

def loadseg (fs : Files) (pagetable va ip offset sz : ℕ) : ExecM ℤ :=
  loadsegLoop fs pagetable va ip offset sz ((sz + (PGSIZE - 1)) / PGSIZE) 0

/-- Load one program header; the new size comes with the result. -/
def execSegment (L : Layout) (fs : Files) (pagetable ip : ℕ) (ph : Proghdr) (sz : ℕ) :
    ExecM (Bool × ℕ) :=
  if ph.type ≠ ELF_PROG_LOAD then pure (true, sz)
  else if ph.memsz < ph.filesz then pure (false, sz)
  else if (ph.vaddr + ph.memsz) % 2 ^ 64 < ph.vaddr then pure (false, sz)
  else if ph.vaddr % PGSIZE ≠ 0 then pure (false, sz)
  else do
    let sz1 ← onFst (uvmalloc L pagetable sz (ph.vaddr + ph.memsz) (flags2perm ph.flags))
    if sz1 = 0 then pure (false, sz)
    else do
      let r ← loadseg fs pagetable ph.vaddr ip (ph.off % 2 ^ 32) (ph.filesz % 2 ^ 32)
      if r < 0 then pure (false, sz1) else pure (true, sz1)

/-- The loop over the program headers, with `k` left. -/
def execLoad (L : Layout) (fs : Files) (pagetable ip : ℕ) : ℕ → ℕ → ℕ → ExecM (Bool × ℕ)
  | 0, _, sz => pure (true, sz)
  | k + 1, off, sz => do
    let b ← readi fs ip off sizeofProghdr
    if b.length ≠ sizeofProghdr then pure (false, sz)
    else do
      let (ok, sz) ← execSegment L fs pagetable ip (Proghdr.decode b) sz
      if ok then execLoad L fs pagetable ip k ((off + sizeofProghdr) % 2 ^ 32) sz
      else pure (false, sz)

/-- The label `bad`; `pagetable` is 0 and `ip` is `none` where the pointers are null. -/
def bad (L : Layout) (p : Image) (pagetable sz : ℕ) (ip : Option ℕ) : ExecM (ℤ × Image) := do
  if pagetable ≠ 0 then onFst (procFreepagetable L pagetable sz) else pure ()
  match ip with
  | some ip => do
    iunlockput ip
    endOp
    pure (-1, p)
  | none => pure (-1, p)

/-- `exec` after the program has been loaded: the stack, and the change to the new
image. -/
def execCommit (L : Layout) (trapframe : ℕ) (p : Image) (path : List UInt8) (argv : List ℕ)
    (elf : Elfhdr) (pagetable sz : ℕ) : ExecM (ℤ × Image) := do
  -- two pages for the stack, the first of them the guard page
  let base := PGROUNDUP sz
  let sz1 ← onFst (uvmalloc L pagetable base (base + 2 * PGSIZE) PTE_W)
  if sz1 = 0 then bad L p pagetable base none
  else do
    onFst (uvmclear pagetable (sz1 - 2 * PGSIZE))
    match ← onFst (execStack pagetable sz1 argv) with
    | none => bad L p pagetable sz1 none
    | some sp => do
      onFst (writeWord trapframe 120 sp)
      onFst (writeWord trapframe 24 elf.entry)
      onFst (writeWord trapframe 48 sp)
      onFst (procFreepagetable L p.pagetable p.sz)
      pure (argv.length, ⟨pagetable, sz1, lastElement path⟩)

/-- `exec` from `proc_pagetable` on, with the inode locked. -/
def execProgram (L : Layout) (fs : Files) (trapframe : ℕ) (p : Image) (path : List UInt8)
    (argv : List ℕ) (ip : ℕ) (elf : Elfhdr) : ExecM (ℤ × Image) := do
  match ← onFst (procPagetable L trapframe) with
  | none => bad L p 0 0 (some ip)
  | some pagetable => do
    let (ok, sz) ← execLoad L fs pagetable ip elf.phnum (elf.phoff % 2 ^ 32) 0
    if ok then do
      iunlockput ip
      endOp
      execCommit L trapframe p path argv elf pagetable sz
    else bad L p pagetable sz (some ip)

/-- `exec`: replace the program of the process, or return -1. -/
def exec (L : Layout) (fs : Files) (trapframe : ℕ) (p : Image) (path : List UInt8)
    (argv : List ℕ) : ExecM (ℤ × Image) := do
  beginOp
  match ← namei fs path with
  | none => do
    endOp
    pure (-1, p)
  | some ip => do
    ilock ip
    let b ← readi fs ip 0 sizeofElfhdr
    if b.length ≠ sizeofElfhdr then bad L p 0 0 (some ip)
    else if (Elfhdr.decode b).magic ≠ ELF_MAGIC then bad L p 0 0 (some ip)
    else execProgram L fs trapframe p path argv ip (Elfhdr.decode b)

/-! ## kernel/sysfile.c -/

def sysExec (L : Layout) (fs : Files) (trapframe : ℕ) (p : Image) (upath uargv : ℕ) :
    ExecM (ℤ × Image) := do
  let (r, path) ← onFst (copyinstr p.pagetable upath MAXPATH)
  if r < 0 then pure (-1, p)
  else do
    let (ok, argv) ← onFst (fetchArgs p uargv MAXARG 0 [])
    if ok then do
      let ret ← exec L fs trapframe p (cstring path) argv
      onFst (freeArgs L argv)
      pure ret
    else do
      onFst (freeArgs L argv)
      pure (-1, p)

/-! ## Files as in Exec.lean -/

section

variable {α : Type} {L : Layout} {fs : Files} {f : File} {ip : ℕ}

/-- The inode `ip` is the file `f`: every `readi` delivers all the bytes that are there. -/
def IsFile (fs : Files) (ip : ℕ) (f : File) : Prop :=
  ∀ k off n, fs.readi k ip off n = Vm.readi f off n

theorem length_readi_le (f : File) (off n : ℕ) : (Vm.readi f off n).length ≤ n := by
  unfold Vm.readi
  split_ifs
  · exact Nat.zero_le n
  · simp

theorem panic_forgets (msg : String) : Forgets (Vm.panic msg : Kernel α) (panic msg : ExecM α) :=
  fun _ _ _ _ _ hrun => nomatch hrun

theorem readi_forgets {off n : ℕ} {c : Kernel α} {d : List UInt8 → ExecM α} (hf : IsFile fs ip f)
    (h : Forgets c (d (Vm.readi f off n))) : Forgets c (readi fs ip off n >>= d) := by
  intro s σ a s' σ' hrun
  change d ((fs.readi σ.reads ip off n).take n) _ = _ at hrun
  rw [hf, List.take_of_length_le (length_readi_le f off n)] at hrun
  exact h _ _ _ _ _ hrun

theorem loadsegLoop_of_file (hf : IsFile fs ip f) (pagetable va offset sz k : ℕ) : ∀ i,
    Forgets (Vm.loadsegLoop pagetable va f offset sz k i)
      (loadsegLoop fs pagetable va ip offset sz k i) := by
  induction k with
  | zero => exact fun i => Forgets.ret 0
  | succ k ih =>
    intro i
    refine (Forgets.onFst _).bind fun pa => (panic_forgets _).ite (readi_forgets hf ?_)
    exact (Forgets.onFst _).bind fun _ => (Forgets.ret _).ite (ih _)

theorem execSegment_of_file (hf : IsFile fs ip f) (pagetable : ℕ) (ph : Proghdr) (sz : ℕ) :
    Forgets (Vm.execSegment L pagetable f ph sz) (execSegment L fs pagetable ip ph sz) :=
  (Forgets.ret _).ite <| (Forgets.ret _).ite <| (Forgets.ret _).ite <| (Forgets.ret _).ite <|
    (Forgets.onFst _).bind fun _ => (Forgets.ret _).ite <|
      (loadsegLoop_of_file hf _ _ _ _ _ _).bind fun _ => (Forgets.ret _).ite (Forgets.ret _)

/-- **Two models of loading**: for a file as in `Exec.lean` the program that is loaded, and
what is done to the memory, are those of `Vm.execLoad`. -/
theorem execLoad_of_file (hf : IsFile fs ip f) (pagetable k : ℕ) : ∀ off sz,
    Forgets (Vm.execLoad L pagetable f k off sz) (execLoad L fs pagetable ip k off sz) := by
  induction k with
  | zero => exact fun off sz => Forgets.ret _
  | succ k ih =>
    intro off sz
    refine readi_forgets hf ((Forgets.ret _).ite ?_)
    exact (execSegment_of_file hf _ _ _).bind fun _ => Forgets.ite (ih _ _) (Forgets.ret _)

end

end Exec

/-
# exec (kernel/exec.c, kernel/sysfile.c)

`exec` on the contents of a file, and `sys_exec`, which copies the arguments from user
memory.  The file is what `namei` finds; reading it is `readi` on its bytes.  The locks
and the transaction of the file system are left out.

The new program is an `Image`: page table, size and name of the process.  The loops
run over the program headers, the pages of a segment and the arguments.  Offsets into
the file are numbers of 32 bits, as `readi` takes them.
-/
import Xv6.Copy

namespace Vm

/-! ## kernel/elf.h -/

def ELF_MAGIC : ℕ := 0x464C457F

def ELF_PROG_LOAD : ℕ := 1

/-- `struct elfhdr`, the fields that `exec` reads. -/
structure Elfhdr where
  magic : ℕ
  entry : ℕ
  phoff : ℕ
  phnum : ℕ

/-- `struct proghdr`, the fields that `exec` reads. -/
structure Proghdr where
  type : ℕ
  flags : ℕ
  off : ℕ
  vaddr : ℕ
  filesz : ℕ
  memsz : ℕ

def sizeofElfhdr : ℕ := 64

def sizeofProghdr : ℕ := 56

/-- The `w`-byte field at offset `o`. -/
def field (bytes : List UInt8) (o w : ℕ) : ℕ := Bytes.getLE (fun j => bytes.getD j 0) o w

def Elfhdr.decode (b : List UInt8) : Elfhdr :=
  ⟨field b 0 4, field b 24 8, field b 32 8, field b 56 2⟩

def Proghdr.decode (b : List UInt8) : Proghdr :=
  ⟨field b 0 4, field b 4 4, field b 8 8, field b 16 8, field b 32 8, field b 40 8⟩

/-! ## Files -/

/-- The contents of a file. -/
structure File where
  size : ℕ
  data : ℕ → UInt8

/-- The bytes that `readi` delivers. -/
def readi (f : File) (off n : ℕ) : List UInt8 :=
  if f.size < off ∨ (off + n) % 2 ^ 32 < off then []
  else (List.range (min n (f.size - off))).map fun j => f.data (off + j)

/-! ## kernel/exec.c -/

def MAXARG : ℕ := 32

def MAXPATH : ℕ := 128

/-- The memory of a process. -/
structure Image where
  pagetable : ℕ
  sz : ℕ
  name : List UInt8

def flags2perm (flags : ℕ) : ℕ :=
  (if flags &&& 0x1 ≠ 0 then PTE_X else 0) ||| (if flags &&& 0x2 ≠ 0 then PTE_W else 0)

/-- The loop of `loadseg` with `k` pages left. -/
def loadsegLoop (pagetable va : ℕ) (f : File) (offset sz : ℕ) : ℕ → ℕ → Kernel ℤ
  | 0, _ => pure 0
  | k + 1, i => do
    let pa ← walkaddr pagetable (va + i)
    if pa = 0 then panic "loadseg: address should exist"
    else do
      let n := if sz - i < PGSIZE then sz - i else PGSIZE
      let bytes := readi f ((offset + i) % 2 ^ 32) n
      writeBytes pa 0 bytes
      if bytes.length ≠ n then pure (-1)
      else loadsegLoop pagetable va f offset sz k (i + PGSIZE)

/-- Load a segment of the file into the pages from `va` on. -/
def loadseg (pagetable va : ℕ) (f : File) (offset sz : ℕ) : Kernel ℤ :=
  loadsegLoop pagetable va f offset sz ((sz + (PGSIZE - 1)) / PGSIZE) 0

/-- Load one program header; the new size comes with the result. -/
def execSegment (L : Layout) (pagetable : ℕ) (f : File) (ph : Proghdr) (sz : ℕ) :
    Kernel (Bool × ℕ) :=
  if ph.type ≠ ELF_PROG_LOAD then pure (true, sz)
  else if ph.memsz < ph.filesz then pure (false, sz)
  else if (ph.vaddr + ph.memsz) % 2 ^ 64 < ph.vaddr then pure (false, sz)
  else if ph.vaddr % PGSIZE ≠ 0 then pure (false, sz)
  else do
    let sz1 ← uvmalloc L pagetable sz (ph.vaddr + ph.memsz) (flags2perm ph.flags)
    if sz1 = 0 then pure (false, sz)
    else do
      let r ← loadseg pagetable ph.vaddr f (ph.off % 2 ^ 32) (ph.filesz % 2 ^ 32)
      if r < 0 then pure (false, sz1) else pure (true, sz1)

/-- The loop over the program headers, with `k` left. -/
def execLoad (L : Layout) (pagetable : ℕ) (f : File) : ℕ → ℕ → ℕ → Kernel (Bool × ℕ)
  | 0, _, sz => pure (true, sz)
  | k + 1, off, sz =>
    let b := readi f off sizeofProghdr
    if b.length ≠ sizeofProghdr then pure (false, sz)
    else do
      let (ok, sz) ← execSegment L pagetable f (Proghdr.decode b) sz
      if ok then execLoad L pagetable f k ((off + sizeofProghdr) % 2 ^ 32) sz
      else pure (false, sz)

/-- The string in a page. -/
def readString (pa : ℕ) : Kernel (List UInt8) := do
  let bytes ← readBytes pa 0 PGSIZE
  pure (cstring bytes)

/-- Push the argument strings: the stack pointer and `ustack`, or `none`. -/
def pushArgs (pagetable stackbase : ℕ) : List ℕ → ℕ → List ℕ → Kernel (Option (ℕ × List ℕ))
  | [], sp, ustack => pure (some (sp, ustack))
  | arg :: argv, sp, ustack =>
    if MAXARG ≤ ustack.length then pure none
    else do
      let s ← readString arg
      let sp := sp - (s.length + 1)
      let sp := sp - sp % 16
      if sp < stackbase then pure none
      else do
        let r ← copyout pagetable sp (s ++ [0])
        if r < 0 then pure none
        else pushArgs pagetable stackbase argv sp (ustack ++ [sp])

/-- The eight bytes of a number. -/
def bytes64 (w : ℕ) : List UInt8 := (List.range 8).map fun i => UInt8.ofNat (w / 256 ^ i)

/-- The stack of the new program: the stack pointer, or `none`. -/
def execStack (pagetable sz : ℕ) (argv : List ℕ) : Kernel (Option ℕ) := do
  match ← pushArgs pagetable (sz - PGSIZE) argv sz [] with
  | none => pure none
  | some (sp, ustack) => do
    let sp := sp - (ustack.length + 1) * 8
    let sp := sp - sp % 16
    if sp < sz - PGSIZE then pure none
    else do
      let r ← copyout pagetable sp ((ustack ++ [0]).flatMap bytes64)
      if r < 0 then pure none else pure (some sp)

/-- Store a word in the trapframe. -/
def writeWord (pa off w : ℕ) : Kernel Unit := fun s =>
  .ok ((), { s with mem := Function.update s.mem pa (Bytes.setLE (s.mem pa) off 8 w) })

/-- The program name for debugging: what follows the last slash. -/
def lastElement (path : List UInt8) : List UInt8 :=
  ((path.reverse.takeWhile (· ≠ 47)).reverse).take 15

/-- The part of `exec` that builds the new image: the page table, its size, and the stack
pointer unless it failed. -/
def execImage (L : Layout) (pagetable : ℕ) (f : File) (elf : Elfhdr) (argv : List ℕ) :
    Kernel (ℕ × Option ℕ) := do
  let (ok, sz) ← execLoad L pagetable f elf.phnum (elf.phoff % 2 ^ 32) 0
  if ok then do
    -- two pages for the stack, the first of them the guard page
    let base := PGROUNDUP sz
    let sz1 ← uvmalloc L pagetable base (base + 2 * PGSIZE) PTE_W
    if sz1 = 0 then pure (base, none)
    else do
      uvmclear pagetable (sz1 - 2 * PGSIZE)
      let sp ← execStack pagetable sz1 argv
      pure (sz1, sp)
  else pure (sz, none)

/-- `exec`: replace the program of the process, or return -1. -/
def exec (L : Layout) (trapframe : ℕ) (p : Image) (path : List UInt8) (file : Option File)
    (argv : List ℕ) : Kernel (ℤ × Image) :=
  match file with
  | none => pure (-1, p)
  | some f =>
    let b := readi f 0 sizeofElfhdr
    if b.length ≠ sizeofElfhdr then pure (-1, p)
    else if (Elfhdr.decode b).magic ≠ ELF_MAGIC then pure (-1, p)
    else do
      match ← procPagetable L trapframe with
      | none => pure (-1, p)
      | some pagetable => do
        match ← execImage L pagetable f (Elfhdr.decode b) argv with
        | (sz, none) => do
          procFreepagetable L pagetable sz
          pure (-1, p)
        | (sz, some sp) => do
          writeWord trapframe 120 sp
          writeWord trapframe 24 (Elfhdr.decode b).entry
          writeWord trapframe 48 sp
          procFreepagetable L p.pagetable p.sz
          pure (argv.length, ⟨pagetable, sz, lastElement path⟩)

/-! ## kernel/syscall.c, kernel/sysfile.c -/

/-- The word at a user address. -/
def fetchaddr (p : Image) (addr : ℕ) : Kernel (Option ℕ) :=
  if p.sz ≤ addr ∨ p.sz < (addr + 8) % 2 ^ 64 then pure none
  else do
    let (r, bytes) ← copyin p.pagetable addr 8
    if r ≠ 0 then pure none else pure (some (field bytes 0 8))

/-- Free the argument pages. -/
def freeArgs (L : Layout) : List ℕ → Kernel Unit
  | [] => pure ()
  | arg :: argv => do
    kfree L arg
    freeArgs L argv

/-- The loop of `sys_exec` from argument `i` on, with room for `k` more: whether it
succeeded, and the pages of the arguments. -/
def fetchArgs (p : Image) (uargv : ℕ) : ℕ → ℕ → List ℕ → Kernel (Bool × List ℕ)
  | 0, _, argv => pure (false, argv)
  | k + 1, i, argv => do
    match ← fetchaddr p ((uargv + 8 * i) % 2 ^ 64) with
    | none => pure (false, argv)
    | some uarg =>
      if uarg = 0 then pure (true, argv)
      else do
        match ← kalloc with
        | none => pure (false, argv)
        | some page => do
          let (r, bytes) ← copyinstr p.pagetable uarg PGSIZE
          writeBytes page 0 bytes
          if r < 0 then pure (false, argv ++ [page])
          else fetchArgs p uargv k (i + 1) (argv ++ [page])

def sysExec (L : Layout) (trapframe : ℕ) (p : Image) (namei : List UInt8 → Option File)
    (upath uargv : ℕ) : Kernel (ℤ × Image) := do
  let (r, path) ← copyinstr p.pagetable upath MAXPATH
  if r < 0 then pure (-1, p)
  else do
    let (ok, argv) ← fetchArgs p uargv MAXARG 0 []
    if ok then do
      let ret ← exec L trapframe p (cstring path) (namei (cstring path)) argv
      freeArgs L argv
      pure ret
    else do
      freeArgs L argv
      pure (-1, p)

end Vm

/-
# Page tables and user memory (kernel/vm.c)

The functions of `kernel/vm.c` that build, change and free a user page table, and
`proc_pagetable` and `proc_freepagetable` of `kernel/proc.c`, on the memory of
`Xv6.Kalloc`.  A `pagetable_t` is the address of a page of 512 words of 64 bits, and
what `walk` returns is such a page and an index.

The loops run over a number of pages; the recursion of `freewalk` is bounded by the
number of levels.  Virtual addresses are 64-bit numbers.  The additions of `PGSIZE` in
the loops cannot wrap, because `walk` stops the loop at `MAXVA`.
-/
import Xv6.Bytes
import Xv6.Kalloc

namespace Vm

/-! ## kernel/riscv.h -/

def PTE_V : ℕ := 1 <<< 0
def PTE_R : ℕ := 1 <<< 1
def PTE_W : ℕ := 1 <<< 2
def PTE_X : ℕ := 1 <<< 3
def PTE_U : ℕ := 1 <<< 4

/-- The page-table entry for a physical address, without flags. -/
def PA2PTE (pa : ℕ) : ℕ := (pa >>> 12) <<< 10

def PTE2PA (pte : ℕ) : ℕ := (pte >>> 10) <<< 12

def PTE_FLAGS (pte : ℕ) : ℕ := pte &&& 0x3FF

/-- The index into the page table of a level. -/
def PX (level va : ℕ) : ℕ := (va >>> (12 + 9 * level)) &&& 0x1FF

/-- One beyond the highest virtual address. -/
def MAXVA : ℕ := 1 <<< (9 + 9 + 9 + 12 - 1)

def TRAMPOLINE : ℕ := MAXVA - PGSIZE

def TRAPFRAME : ℕ := TRAMPOLINE - PGSIZE

/-- A number of 64 bits converted to `int` and back. -/
def viaInt (x : ℕ) : ℕ :=
  if x % 2 ^ 32 < 2 ^ 31 then x % 2 ^ 32 else x % 2 ^ 32 + (2 ^ 64 - 2 ^ 32)

/-- A conditional statement without `else`. -/
def ifThen (c : Prop) [Decidable c] (k : Kernel Unit) : Kernel Unit := if c then k else pure ()

/-! ## Page-table entries in memory -/

/-- Entry `i` of a page of entries. -/
def pteAt (page : Page) (i : ℕ) : ℕ := Bytes.getLE page (8 * i) 8

def setPte (page : Page) (i w : ℕ) : Page := Bytes.setLE page (8 * i) 8 w

def readPte (pt i : ℕ) : Kernel ℕ := fun s => .ok (pteAt (s.mem pt) i, s)

def writePte (pt i w : ℕ) : Kernel Unit := fun s =>
  .ok ((), { s with mem := Function.update s.mem pt (setPte (s.mem pt) i w) })

/-! ## Finding and making entries -/

/-- The loop of `walk`, at a level. -/
def walkLevel (va : ℕ) (alloc : Bool) : ℕ → ℕ → Kernel (Option (ℕ × ℕ))
  | 0, pagetable => pure (some (pagetable, PX 0 va))
  | level + 1, pagetable => do
    let pte ← readPte pagetable (PX (level + 1) va)
    if pte &&& PTE_V ≠ 0 then
      walkLevel va alloc level (PTE2PA pte)
    else if alloc then
      match ← kalloc with
      | none => pure none
      | some page => do
        memsetPage page 0
        writePte pagetable (PX (level + 1) va) (PA2PTE page ||| PTE_V)
        walkLevel va alloc level page
    else pure none

/-- The place of the entry for `va`; with `alloc` the page-table pages on the way to it
are made. -/
def walk (pagetable va : ℕ) (alloc : Bool) : Kernel (Option (ℕ × ℕ)) :=
  if MAXVA ≤ va then panic "walk" else walkLevel va alloc 2 pagetable

/-- The physical address of a user page, 0 if it is not mapped. -/
def walkaddr (pagetable va : ℕ) : Kernel ℕ :=
  if MAXVA ≤ va then pure 0
  else do
    match ← walk pagetable va false with
    | none => pure 0
    | some (pt, i) => do
      let pte ← readPte pt i
      if pte &&& PTE_V = 0 then pure 0
      else if pte &&& PTE_U = 0 then pure 0
      else pure (PTE2PA pte)

/-- The body of the loop of `mappages`: one page. -/
def mappage (pagetable a pa perm : ℕ) : Kernel ℤ := do
  match ← walk pagetable a true with
  | none => pure (-1)
  | some (pt, i) => do
    let pte ← readPte pt i
    if pte &&& PTE_V ≠ 0 then panic "mappages: remap"
    else do
      writePte pt i (PA2PTE pa ||| perm ||| PTE_V)
      pure 0

/-- The loop of `mappages`, with `n` pages left after this one. -/
def mappagesLoop (pagetable perm : ℕ) : ℕ → ℕ → ℕ → Kernel ℤ
  | 0, a, pa => mappage pagetable a pa perm
  | n + 1, a, pa => do
    let r ← mappage pagetable a pa perm
    if r ≠ 0 then pure r
    else mappagesLoop pagetable perm n (a + PGSIZE) (pa + PGSIZE)

/-- Map `size` bytes from `va` on to the addresses from `pa` on. -/
def mappages (pagetable va size pa perm : ℕ) : Kernel ℤ :=
  if va % PGSIZE ≠ 0 then panic "mappages: va not aligned"
  else if size % PGSIZE ≠ 0 then panic "mappages: size not aligned"
  else if size = 0 then panic "mappages: size"
  else mappagesLoop pagetable perm (size / PGSIZE - 1) va pa

/-! ## Removing entries -/

/-- The loop of `uvmunmap`. -/
def uvmunmapLoop (L : Layout) (pagetable : ℕ) (doFree : Bool) : ℕ → ℕ → Kernel Unit
  | 0, _ => pure ()
  | n + 1, a => do
    match ← walk pagetable a false with
    | none => panic "uvmunmap: walk"
    | some (pt, i) => do
      let pte ← readPte pt i
      if pte &&& PTE_V = 0 then panic "uvmunmap: not mapped"
      else if PTE_FLAGS pte = PTE_V then panic "uvmunmap: not a leaf"
      else do
        ifThen doFree (kfree L (PTE2PA pte))
        writePte pt i 0
        uvmunmapLoop L pagetable doFree n (a + PGSIZE)

/-- Remove `npages` mappings from `va` on. -/
def uvmunmap (L : Layout) (pagetable va npages : ℕ) (doFree : Bool) : Kernel Unit :=
  if va % PGSIZE ≠ 0 then panic "uvmunmap: not aligned"
  else uvmunmapLoop L pagetable doFree npages va

/-- An empty page table. -/
def uvmcreate : Kernel (Option ℕ) := do
  match ← kalloc with
  | none => pure none
  | some pagetable => do
    memsetPage pagetable 0
    pure (some pagetable)

/-- Shrink user memory; the new size. -/
def uvmdealloc (L : Layout) (pagetable oldsz newsz : ℕ) : Kernel ℕ :=
  if oldsz ≤ newsz then pure oldsz
  else do
    ifThen (PGROUNDUP newsz < PGROUNDUP oldsz) (uvmunmap L pagetable (PGROUNDUP newsz)
      (viaInt ((PGROUNDUP oldsz - PGROUNDUP newsz) / PGSIZE)) true)
    pure newsz

/-- The loop of `uvmalloc`; false if memory ran out. -/
def uvmallocLoop (L : Layout) (pagetable oldsz xperm : ℕ) : ℕ → ℕ → Kernel Bool
  | 0, _ => pure true
  | n + 1, a => do
    match ← kalloc with
    | none => do
      let _ ← uvmdealloc L pagetable a oldsz
      pure false
    | some mem => do
      memsetPage mem 0
      let r ← mappages pagetable a PGSIZE mem (PTE_R ||| PTE_U ||| xperm)
      if r ≠ 0 then do
        kfree L mem
        let _ ← uvmdealloc L pagetable a oldsz
        pure false
      else uvmallocLoop L pagetable oldsz xperm n (a + PGSIZE)

/-- Grow user memory; the new size, or 0. -/
def uvmalloc (L : Layout) (pagetable oldsz newsz xperm : ℕ) : Kernel ℕ :=
  if newsz < oldsz then pure oldsz
  else do
    let base := PGROUNDUP oldsz
    if ← uvmallocLoop L pagetable base xperm ((newsz - base + (PGSIZE - 1)) / PGSIZE) base then
      pure newsz
    else pure 0

/-- The body of the loop of `freewalk`. -/
def freewalkEntry (child : ℕ → Kernel Unit) (pagetable i : ℕ) : Kernel Unit := do
  let pte ← readPte pagetable i
  if pte &&& PTE_V ≠ 0 ∧ pte &&& (PTE_R ||| PTE_W ||| PTE_X) = 0 then do
    -- this entry points to a page of the level below
    child (PTE2PA pte)
    writePte pagetable i 0
  else if pte &&& PTE_V ≠ 0 then panic "freewalk: leaf"
  else pure ()

/-- The loop of `freewalk` over the last `k` entries of a page. -/
def freewalkEntries (child : ℕ → Kernel Unit) (pagetable : ℕ) : ℕ → Kernel Unit
  | 0 => pure ()
  | k + 1 => do
    freewalkEntry child pagetable (512 - (k + 1))
    freewalkEntries child pagetable k

/-- Free the page-table pages, for a table of the given number of levels. -/
def freewalk (L : Layout) : ℕ → ℕ → Kernel Unit
  | 0, _ => panic "freewalk: levels"
  | levels + 1, pagetable => do
    freewalkEntries (freewalk L levels) pagetable 512
    kfree L pagetable

/-- Free user memory and the page table. -/
def uvmfree (L : Layout) (pagetable sz : ℕ) : Kernel Unit := do
  ifThen (0 < sz) (uvmunmap L pagetable 0 (PGROUNDUP sz / PGSIZE) true)
  freewalk L 3 pagetable

/-- The loop of `uvmcopy` with `n` pages left; false if memory ran out. -/
def uvmcopyLoop (L : Layout) (old new : ℕ) : ℕ → ℕ → Kernel Bool
  | 0, _ => pure true
  | n + 1, i => do
    match ← walk old i false with
    | none => panic "uvmcopy: pte should exist"
    | some (pt, j) => do
      let pte ← readPte pt j
      if pte &&& PTE_V = 0 then panic "uvmcopy: page not present"
      else do
        match ← kalloc with
        | none => do
          uvmunmap L new 0 (i / PGSIZE) true
          pure false
        | some mem => do
          memmovePage mem (PTE2PA pte)
          let r ← mappages new i PGSIZE mem (PTE_FLAGS pte)
          if r ≠ 0 then do
            kfree L mem
            uvmunmap L new 0 (i / PGSIZE) true
            pure false
          else uvmcopyLoop L old new n (i + PGSIZE)

/-- Copy the memory of a process into the page table of its child. -/
def uvmcopy (L : Layout) (old new sz : ℕ) : Kernel ℤ := do
  if ← uvmcopyLoop L old new ((sz + (PGSIZE - 1)) / PGSIZE) 0 then pure 0 else pure (-1)

/-- Make a page inaccessible for the user. -/
def uvmclear (pagetable va : ℕ) : Kernel Unit := do
  match ← walk pagetable va false with
  | none => panic "uvmclear"
  | some (pt, i) => do
    let pte ← readPte pt i
    writePte pt i (pte &&& (0xFFFFFFFFFFFFFFFF ^^^ PTE_U))

/-! ## kernel/proc.c -/

/-- A page table with the trampoline and the trapframe only. -/
def procPagetable (L : Layout) (trapframe : ℕ) : Kernel (Option ℕ) := do
  match ← uvmcreate with
  | none => pure none
  | some pagetable => do
    let r ← mappages pagetable TRAMPOLINE PGSIZE L.trampoline (PTE_R ||| PTE_X)
    if r < 0 then do
      uvmfree L pagetable 0
      pure none
    else do
      let r ← mappages pagetable TRAPFRAME PGSIZE trapframe (PTE_R ||| PTE_W)
      if r < 0 then do
        uvmunmap L pagetable TRAMPOLINE 1 false
        uvmfree L pagetable 0
        pure none
      else pure (some pagetable)

/-- Free a page table and the memory it refers to. -/
def procFreepagetable (L : Layout) (pagetable sz : ℕ) : Kernel Unit := do
  uvmunmap L pagetable TRAMPOLINE 1 false
  uvmunmap L pagetable TRAPFRAME 1 false
  uvmfree L pagetable sz

end Vm

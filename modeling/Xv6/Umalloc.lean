/-
# The user's memory allocator (user/umalloc.c)

`free`, `morecore` and `malloc`, on headers in memory.  The free blocks form a ring of headers
through the static header `base`; `freep` is somewhere on it, and is null before the first call
of `malloc`.  Sizes count units of a header, in a `uint`.

The loops take a bound on the number of their rounds and give `none` beyond it.
-/
import Mathlib.Logic.Function.Basic
import Mathlib.Algebra.Ring.Nat

namespace Umalloc

open Function

/-- `sizeof(Header)`. -/
def HEADER : ℕ := 16

/-- `Header`: the next free block if on the free list, and the size of this block. -/
structure Header where
  ptr : ℕ
  size : ℕ

structure Heap where
  hdr : ℕ → Header
  freep : Option ℕ

/-- The address `n` units after `p`, in C `p + n`. -/
def after (p n : ℕ) : ℕ := p + n * HEADER

/-- A `uint`. -/
def uint (n : ℕ) : ℕ := n % 2 ^ 32

/-- The loop of `free`: a free block `p` after which `bp` belongs. -/
def place (hdr : ℕ → Header) (bp : ℕ) : ℕ → ℕ → Option ℕ
  | 0, _ => none
  | fuel + 1, p =>
    if p < bp ∧ bp < (hdr p).ptr then some p
    else if (hdr p).ptr ≤ p ∧ (p < bp ∨ bp < (hdr p).ptr) then some p
    else place hdr bp fuel (hdr p).ptr

/-- `free`, from the header `bp` of the block on. -/
def free (fuel : ℕ) (h : Heap) (bp : ℕ) : Option Heap := do
  let p ← place h.hdr bp fuel (← h.freep)
  let q := (h.hdr p).ptr
  let b : Header :=
    if after bp (h.hdr bp).size = q then
      ⟨(h.hdr q).ptr, uint ((h.hdr bp).size + (h.hdr q).size)⟩
    else ⟨q, (h.hdr bp).size⟩
  let hdr := update h.hdr bp b
  let b' : Header :=
    if after p (hdr p).size = bp then ⟨(hdr bp).ptr, uint ((hdr p).size + (hdr bp).size)⟩
    else ⟨bp, (hdr p).size⟩
  pure ⟨update hdr p b', some p⟩

/-- `nunits` of `malloc`. -/
def nunits (nbytes : BitVec 32) : ℕ := (nbytes.toNat + HEADER - 1) / HEADER + 1

/-- The units that `morecore` asks for. -/
def coreUnits (nu : ℕ) : ℕ := if nu < 4096 then 4096 else nu

/-- `morecore`, where `p` is what `sbrk` returns, `none` for -1. -/
def morecore (fuel : ℕ) (h : Heap) (nu : ℕ) : Option ℕ → Option (Heap × Option ℕ)
  | none => some (h, none)
  | some hp => do
    let h ← free fuel { h with hdr := update h.hdr hp { h.hdr hp with size := coreUnits nu } } hp
    pure (h, h.freep)

/-- The block `p`, of at least `nu` units, is taken off the list, or its end is. -/
def carve (h : Heap) (nu prevp p : ℕ) : Heap × ℕ :=
  if (h.hdr p).size = nu then
    (⟨update h.hdr prevp { h.hdr prevp with ptr := (h.hdr p).ptr }, some prevp⟩, p)
  else
    let hdr := update h.hdr p { h.hdr p with size := (h.hdr p).size - nu }
    let tail := after p (hdr p).size
    (⟨update hdr tail { hdr tail with size := nu }, some prevp⟩, tail)

/-- The loop of `malloc`: the header of the block, `none` for a null pointer. -/
def search (nu : ℕ) (sbrk : Option ℕ) : ℕ → Heap → ℕ → ℕ → Option (Heap × Option ℕ)
  | 0, _, _, _ => none
  | fuel + 1, h, prevp, p =>
    if nu ≤ (h.hdr p).size then
      let r := carve h nu prevp p
      some (r.1, some r.2)
    else if some p = h.freep then do
      match ← morecore (fuel + 1) h nu sbrk with
      | (h, none) => pure (h, none)
      | (h, some p) => search nu sbrk fuel h p (h.hdr p).ptr
    else search nu sbrk fuel h p (h.hdr p).ptr

/-- `malloc`: the header of the block, which is one unit before what it returns. -/
def malloc (fuel base : ℕ) (h : Heap) (nbytes : BitVec 32) (sbrk : Option ℕ) :
    Option (Heap × Option ℕ) :=
  match h.freep with
  | none => search (nunits nbytes) sbrk fuel ⟨update h.hdr base ⟨base, 0⟩, some base⟩ base base
  | some prevp => search (nunits nbytes) sbrk fuel h prevp (h.hdr prevp).ptr

end Umalloc

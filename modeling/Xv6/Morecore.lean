/-
# What malloc gets from the kernel (user/umalloc.c, kernel/sysproc.c)

`morecore` passes a number of bytes to `sbrk`, whose argument is an `int`, and records the
number of units it asked for in the header of the new block.  If the bytes do not fit in an
`int` the two differ.
-/
import Xv6.Sbrk
import Xv6.Umalloc

namespace Umalloc

open Vm Calls Hoare Transition
open Proc (NPROC CInt)

variable {L : Layout} {t : Tab} {p : Fin NPROC} {s : Phys}

/-- The argument of `sbrk` for a block of `nu` units. -/
def sbrkArg (nu : ℕ) : CInt := BitVec.ofNat 32 (nu * HEADER)

/-- `sbrk` in `morecore`: the address and the recorded size of the new block. -/
def sbrkCore (L : Layout) (im : Image) (nbytes : BitVec 32) : Kernel (Image × Option (ℕ × ℕ)) := do
  let (im', ret) ← growproc L im (sbrkArg (coreUnits (nunits nbytes))).toInt
  pure (im', if ret < 0 then none else some (im.sz, coreUnits (nunits nbytes)))

end Umalloc

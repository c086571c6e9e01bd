import Xv6Arm.Fs.File

/-!
# The size of a process

`growproc` of `proc.c` and `sys_sbrk`.
-/
namespace Xv6Arm
open Lib

/-- `growproc`; its local `sz` is a `uint`. -/
def growproc (p : ℕ) (n : ℤ) : KM ℤ := do
  let x ← proc (.get p)
  let sz := x.sz % 2 ^ 32
  if 0 < n then do
    let r ← uvmalloc x.pagetable sz (toUint (sz + n))
    if r % 2 ^ 32 = 0 then pure (-1)
    else do
      proc (.set p (.sz (r % 2 ^ 32)))
      pure 0
  else if n < 0 then do
    let r ← uvmdealloc x.pagetable sz (toUint (sz + n))
    proc (.set p (.sz (r % 2 ^ 32)))
    pure 0
  else do
    proc (.set p (.sz sz))
    pure 0

/-- `sys_sbrk`; its local `addr` is an `int`. -/
def sysSbrk (p : ℕ) (n : ℤ) : KM ℤ := do
  let x ← proc (.get p)
  let addr := (BitVec.ofNat 32 x.sz).toInt
  if (← growproc p n) < 0 then pure (-1) else pure addr

end Xv6Arm

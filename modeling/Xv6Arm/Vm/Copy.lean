import Xv6Arm.Vm.Model

/-!
# Copying between kernel and user memory

`copyout`, `copyin` and `copyinstr` of `vm.c`. Each loop moves at least one byte
a turn, so the number of bytes asked for bounds the number of turns. A copy that
fails has still moved the bytes before the first page without a translation;
`copyin` and `copyinstr` return them with the result.
-/
namespace Xv6Arm
open Lib

/-- The loop of `copyout`; the answer is `true` for 0 and `false` for -1. -/
def copyoutFrom (pagetable : ℕ) : ℕ → ℕ → List UInt8 → VmM Bool
  | 0, _, _ => pure true
  | fuel + 1, dstva, src =>
    if src = [] then pure true
    else do
      let va0 := pgRoundDown dstva
      let pa0 ← walkaddr pagetable va0
      if pa0 = 0 then pure false
      else do
        let n := min (PGSIZE - (dstva - va0)) src.length
        writeUser dstva pa0 (dstva - va0) (src.take n)
        copyoutFrom pagetable fuel ((va0 + PGSIZE) % 2 ^ 64) (src.drop n)

def copyout (pagetable dstva : ℕ) (src : List UInt8) : VmM Bool :=
  copyoutFrom pagetable src.length dstva src

/-- The loop of `copyin`: the bytes moved to `dst`, and whether all of them were. -/
def copyinFrom (pagetable : ℕ) : ℕ → ℕ → ℕ → VmM (List UInt8 × Bool)
  | 0, _, _ => pure ([], true)
  | fuel + 1, srcva, len =>
    if len = 0 then pure ([], true)
    else do
      let va0 := pgRoundDown srcva
      let pa0 ← walkaddr pagetable va0
      if pa0 = 0 then pure ([], false)
      else do
        let n := min (PGSIZE - (srcva - va0)) len
        let l ← readUser srcva pa0 (srcva - va0) n
        let (rest, ok) ← copyinFrom pagetable fuel ((va0 + PGSIZE) % 2 ^ 64) (len - n)
        pure (l ++ rest, ok)

def copyin (pagetable srcva len : ℕ) : VmM (List UInt8 × Bool) := copyinFrom pagetable len srcva len

/-- The inner loop of `copyinstr`: up to `n` bytes from `off` on, and whether a NUL was found. -/
def copyinstrPage (page : ℕ) : ℕ → ℕ → ℕ → VmM (List UInt8 × Bool)
  | _, _, 0 => pure ([], false)
  | va, off, n + 1 => do
    let c ← readUser va page off 1
    if c = [0] then pure ([], true)
    else do
      let (rest, gotNull) ← copyinstrPage page (va + 1) (off + 1) n
      pure (c ++ rest, gotNull)

/-- The loop of `copyinstr`: the bytes before the NUL, and whether one was found. -/
def copyinstrFrom (pagetable : ℕ) : ℕ → ℕ → ℕ → VmM (List UInt8 × Bool)
  | 0, _, _ => pure ([], false)
  | fuel + 1, srcva, max =>
    if max = 0 then pure ([], false)
    else do
      let va0 := pgRoundDown srcva
      let pa0 ← walkaddr pagetable va0
      if pa0 = 0 then pure ([], false)
      else do
        let n := min (PGSIZE - (srcva - va0)) max
        let (l, gotNull) ← copyinstrPage pa0 srcva (srcva - va0) n
        if gotNull then pure (l, true)
        else do
          let (rest, gotNull) ← copyinstrFrom pagetable fuel ((va0 + PGSIZE) % 2 ^ 64) (max - n)
          pure (l ++ rest, gotNull)

def copyinstr (pagetable srcva max : ℕ) : VmM (List UInt8 × Bool) := copyinstrFrom pagetable max srcva max

end Xv6Arm

import Xv6Arm.Fs.Dir

/-!
# Open files, pipes and the console

`fileread` and the functions of `pipe.c` and `console.c` that it calls. A result of
-1 is the integer -1 here.
-/
namespace Xv6Arm
open Lib

/-! ## Pipes -/

/-- The copying loop of `piperead` with `n` bytes to go, holding the lock. -/
def pipereadFrom (p pi addr : ℕ) : ℕ → ℕ → KM ℤ
  | 0, i => do
    pipe (.release pi)
    pure i
  | n + 1, i => do
    let x ← pipe (.get pi)
    if x.nread = x.nwrite then do
      pipe (.release pi)
      pure i
    else do
      let c ← pipe (.take pi)
      let pr ← proc (.get p)
      if ← copyout pr.pagetable ((addr + i) % 2 ^ 64) [c] then pipereadFrom p pi addr n (i + 1)
      else do
        pipe (.release pi)
        pure i

def piperead (p pi addr : ℕ) (n : ℤ) : KM ℤ := do
  pipe (.acquire pi)
  let x ← pipe (.get pi)
  let pr ← proc (.get p)
  if x.nread = x.nwrite ∧ x.writeopen = true ∧ pr.killed = false then do
    pipe (.release pi)
    pipe (.sleepRead pi)
  else pure ()
  let x ← pipe (.get pi)
  if x.nread = x.nwrite ∧ x.writeopen = true then do
    pipe (.release pi)
    pure (-1)
  else pipereadFrom p pi addr n.toNat 0

/-! ## The console -/

/-- The loop of `consoleread` with `n` bytes to go, after `i` bytes. -/
def consolereadFrom (p dst : ℕ) : ℕ → ℕ → KM ℤ
  | 0, i => pure i
  | n + 1, i => do
    match ← cons .getc with
    | none => pure (-1)
    | some c =>
      -- control-D ends the input; after other bytes it is kept for the next read
      if c = 4 then do
        if 0 < i then cons (.unget c) else pure ()
        pure i
      else do
        let pr ← proc (.get p)
        if ← copyout pr.pagetable ((dst + i) % 2 ^ 64) [c] then
          if c = 10 then pure (i + 1) else consolereadFrom p dst n (i + 1)
        else pure i

def consoleread (p dst : ℕ) (n : ℤ) : KM ℤ := consolereadFrom p dst n.toNat 0

/-! ## Files -/

/-- The only device with an entry in `devsw`. -/
abbrev CONSOLE : Int16 := 1

/-- An `int` passed as a `uint`. -/
def toUint (n : ℤ) : ℕ := (n % 2 ^ 32).toNat

def fileread (sb : Superblock) (p f addr : ℕ) (n : ℤ) : KM ℤ := do
  let x ← file (.get f)
  if x.readable = false then pure (-1)
  else
    match x.type with
    | .pipe => piperead p x.pipe addr n
    | .device => if x.major = CONSOLE then consoleread p addr n else pure (-1)
    | .inode => do
      ilock sb x.ip
      let pr ← proc (.get p)
      let x ← file (.get f)
      let r ← readi sb x.ip (.user pr.pagetable addr) x.off (toUint n)
      let r : ℤ ← match r with
        | some l => do
          if 0 < l.length then file (.setOff f ((x.off + l.length) % 2 ^ 32)) else pure ()
          pure l.length
        | none => pure (-1)
      iunlock x.ip
      pure r
    | .none => .panic "fileread"

end Xv6Arm

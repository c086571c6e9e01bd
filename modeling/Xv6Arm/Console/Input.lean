import Xv6Arm.Lib.Ring

/-!
# Console input

The input side of `console.c`: the ring `cons`, the interrupt handler that edits
its end and the readers that empty it. A reader gives up `cons.lock` only where
it sleeps, so a call of `consoleread` is a sequence of sections, and each section
and each call of `consoleintr` runs as a whole.
-/
namespace Xv6Arm
open Lib

abbrev INPUT_BUF : ℕ := 128
abbrev CTRL_D : UInt8 := 4
abbrev CTRL_H : UInt8 := 8
abbrev LF : UInt8 := 10
abbrev CR : UInt8 := 13
abbrev CTRL_P : UInt8 := 16
abbrev CTRL_U : UInt8 := 21
abbrev DEL : UInt8 := 127

/-- `cons` without its lock; the indices are of type `uint`. `echo` is what `consputc` has sent. -/
structure Cons where
  buf : ℕ → UInt8
  r : ℕ
  w : ℕ
  e : ℕ
  echo : List UInt8

/-- What a section of `consoleread` ends with: the locals of a reader that sleeps, or the result. In
`out` are the bytes stored so far, the next of which goes to `dst`. -/
inductive Reading where
  | asleep (target n : ℕ) (dst : UInt64) (out : List UInt8)
  | returned (value : ℤ) (out : List UInt8)

namespace Cons

/-- `cons.e--`, with the echo of `BACKSPACE`. -/
def erase (s : Cons) : Cons := { s with e := (s.e + (2 ^ 32 - 1)) % 2 ^ 32, echo := s.echo ++ [8, 32, 8] }

-- By cases on `s`: the unifier would compare `s.erase` with `s` field by field.
@[simp] theorem erase_buf (s : Cons) : s.erase.buf = s.buf := by cases s; rfl
@[simp] theorem erase_r (s : Cons) : s.erase.r = s.r := by cases s; rfl
@[simp] theorem erase_w (s : Cons) : s.erase.w = s.w := by cases s; rfl
@[simp] theorem erase_e (s : Cons) : s.erase.e = (s.e + (2 ^ 32 - 1)) % 2 ^ 32 := by rw [erase]

/-- The loop of `^U`, in which `fuel` bounds the turns. -/
def killLine : ℕ → Cons → Cons
  | 0, s => s
  | fuel + 1, s =>
    if s.e ≠ s.w ∧ s.buf ((s.e + (2 ^ 32 - 1)) % 2 ^ 32 % INPUT_BUF) ≠ LF then killLine fuel s.erase else s

/-- The last case of `consoleintr`, for a byte that has a place. -/
def store (c : UInt8) (s : Cons) : Cons :=
  let s := { s with
    echo := s.echo ++ [c]
    buf := Function.update s.buf (s.e % INPUT_BUF) c
    e := (s.e + 1) % 2 ^ 32 }
  if c = LF ∨ c = CTRL_D ∨ s.e = (s.r + INPUT_BUF) % 2 ^ 32 then { s with w := s.e } else s

/-- `consoleintr`; for `^P` it prints the process table. -/
def consoleintr (c : UInt8) (s : Cons) : Cons :=
  if c = CTRL_P then s
  else if c = CTRL_U then s.killLine (Ring.count (2 ^ 32) s.w s.e)
  else if c = CTRL_H ∨ c = DEL then if s.e ≠ s.w then s.erase else s
  else if c ≠ 0 ∧ Ring.count (2 ^ 32) s.r s.e < INPUT_BUF then s.store (if c = CR then LF else c)
  else s

/-- The loop of `consoleread` with `n` bytes to go, until the reader sleeps or returns. `writable` is
whether `either_copyout` of one byte succeeds. -/
def consolereadFrom (killed : Bool) (writable : UInt64 → Bool) (target : ℕ) :
    ℕ → UInt64 → List UInt8 → Cons → Cons × Reading
  | 0, _, out, s => (s, .returned target out)
  | n + 1, dst, out, s =>
    if s.r = s.w then (s, if killed then .returned (-1) out else .asleep target (n + 1) dst out)
    else
      let c := s.buf (s.r % INPUT_BUF)
      let s' := { s with r := (s.r + 1) % 2 ^ 32 }
      if c = CTRL_D then
        (if n + 1 < target then { s' with r := (s'.r + (2 ^ 32 - 1)) % 2 ^ 32 } else s',
          .returned (target - (n + 1)) out)
      else if writable dst = false then (s', .returned (target - (n + 1)) out)
      else if c = LF then (s', .returned (target - n) (out ++ [c]))
      else consolereadFrom killed writable target n (dst + 1) (out ++ [c]) s'

/-- The first section of `consoleread`; a negative `n` asks for nothing. -/
def consoleread (killed : Bool) (writable : UInt64 → Bool) (dst : UInt64) (n : ℤ) (s : Cons) : Cons × Reading :=
  consolereadFrom killed writable n.toNat n.toNat dst [] s

end Cons

/-! ## Readers and interrupts together -/

/-- An interrupt, a call of `consoleread` by process `p`, or a return of its `sleep`. In the latter two
`killed` is `p->killed` in that section. -/
inductive ConsEvent where
  | intr (c : UInt8)
  | read (p : ℕ) (dst : UInt64) (n : ℤ) (killed : Bool)
  | wake (p : ℕ) (killed : Bool)

/-- The console with the processes that sleep in `consoleread`, and the calls that have returned, the
last one first. -/
structure Tty where
  cons : Cons
  sleeps : ℕ → Option (ℕ × ℕ × UInt64 × List UInt8)
  done : List (ℕ × ℤ × List UInt8)

namespace Tty

/-- The section of process `p` has ended. -/
def settle (s : Tty) (p : ℕ) : Cons × Reading → Tty
  | (cons, .asleep target n dst out) => { s with cons, sleeps := Function.update s.sleeps p (some (target, n, dst, out)) }
  | (cons, .returned value out) => { cons, sleeps := Function.update s.sleeps p none, done := (p, value, out) :: s.done }

/-- One event; a process that sleeps in `consoleread` makes no other call. -/
def step (writable : ℕ → UInt64 → Bool) (s : Tty) : ConsEvent → Tty
  | .intr c => { s with cons := s.cons.consoleintr c }
  | .read p dst n killed =>
    match s.sleeps p with
    | none => s.settle p (s.cons.consoleread killed (writable p) dst n)
    | some _ => s
  | .wake p killed =>
    match s.sleeps p with
    | none => s
    | some (target, n, dst, out) => s.settle p (s.cons.consolereadFrom killed (writable p) target n dst out)

/-- The console after boot. -/
def init : Tty where
  cons := { buf := fun _ => 0, r := 0, w := 0, e := 0, echo := [] }
  sleeps _ := none
  done := []

def run (writable : ℕ → UInt64 → Bool) (es : List ConsEvent) : Tty := es.foldl (step writable) init

end Tty
end Xv6Arm

import Xv6Arm.Lib.Wp
import Xv6Arm.Param

/-!
# Tables that are indexed from outside

System call numbers, descriptors, device majors and interrupt numbers reach the
kernel from user registers, from the disk and from the interrupt controller, and
each indexes a table. The functions that do so are programs whose requests are
the accesses; an entry may be null or not. Indices are the C values, so they can
be negative or too large.
-/
namespace Xv6Arm
open Lib

inductive Syscall where
  | fork | exit | wait | pipe | read | kill | exec | fstat | chdir | dup | getpid | sbrk | sleep | uptime
  | open | write | mknod | unlink | link | mkdir | close

/-- `syscalls[]`: the designated initializers start at `SYS_fork`, so entry 0 is null. -/
def syscalls : List (Option Syscall) :=
  [none, some .fork, some .exit, some .wait, some .pipe, some .read, some .kill, some .exec, some .fstat,
    some .chdir, some .dup, some .getpid, some .sbrk, some .sleep, some .uptime, some .open, some .write,
    some .mknod, some .unlink, some .link, some .mkdir, some .close]

inductive Table where
  | syscalls
  | ofile
  | devsw
  | isrs
  deriving DecidableEq

def Table.size : Table → ℕ
  | .syscalls => Xv6Arm.syscalls.length
  | .ofile => NOFILE
  | .devsw => NDEV
  | .isrs => 64

/-- An access to entry `i`; the answer is whether the entry is not null. -/
structure Access where
  table : Table
  i : ℤ

abbrev tableSig : Signature := ⟨Access, fun _ => Bool⟩

abbrev TableM := Prog tableSig

def access (table : Table) (i : ℤ) : TableM Bool := .op (S := tableSig) ⟨table, i⟩

def Access.InRange (a : Access) : Prop := 0 ≤ a.i ∧ a.i < a.table.size

/-- An access may only be made inside the table, and may have any answer. -/
def inRangeSpec : OpSpec tableSig Unit := fun a K v => a.InRange ∧ ∀ r, K r v

/-- Whatever the tables hold, every access that the program makes is inside its table. -/
def StaysInRange {α : Type} (p : TableM α) : Prop :=
  p.wp inRangeSpec (fun _ _ => True) (fun _ _ => True) ()

/-! ## The functions -/

/-- A register assigned to an `int`. -/
def toInt (x : UInt64) : ℤ := x.toUInt32.toInt32.toInt

/-- `syscall`: the number of the function that it calls, or `none` if it stores -1. `NELEM` is an
unsigned long, so `num` is compared as one. -/
def syscall (x7 : UInt64) : TableM (Option ℤ) := do
  let num := toInt x7
  if 0 < num ∧ num % 2 ^ 64 ≤ Table.size .syscalls then
    if ← access .syscalls num then do
      let _ ← access .syscalls num
      pure (some num)
    else pure none
  else pure none

/-- The descriptor table part of `argfd`: the descriptor, or `none` for -1. -/
def argfdIndex (fd : Int32) : TableM (Option ℤ) := do
  if fd.toInt < 0 ∨ NOFILE ≤ fd.toInt then pure none
  else if ← access .ofile fd.toInt then pure (some fd.toInt)
  else pure none

/-- The device case of `fileread` and `filewrite`: whether the function of the device is called.
`major` is a `short`, here, in the inode and on the disk, whatever `int` was passed to `mknod`. -/
def deviceRw (permitted : Bool) (major : Int16) : TableM Bool := do
  if permitted = false then pure false
  else if major.toInt < 0 ∨ NDEV ≤ major.toInt then pure false
  else if ← access .devsw major.toInt then do
    let _ ← access .devsw major.toInt
    pure true
  else pure false

def filereadDevice (readable : Bool) (major : Int16) : TableM Bool := deviceRw readable major
def filewriteDevice (writable : Bool) (major : Int16) : TableM Bool := deviceRw writable major

/-- `gic_handler`: `irq` is what it reads from `GICC_IAR`. The answer is whether `default_isr` ran first. -/
def gicHandler (irq : ℕ) : TableM Bool := do
  let spurious := decide (irq = 1023)
  let _ ← access .isrs irq
  pure spurious

/-! ## Which of them stay inside -/

theorem staysInRange_access {α : Type} {table : Table} {i : ℤ} {next : Bool → TableM α} :
    StaysInRange (access table i >>= next) ↔
      (⟨table, i⟩ : Access).InRange ∧ ∀ r, StaysInRange (next r) := Iff.rfl

theorem staysInRange_pure {α : Type} (a : α) : StaysInRange (pure a : TableM α) := trivial

theorem toInt_lt (x : UInt64) : toInt x < 2 ^ 31 := by
  have := x.toUInt32.toInt32.toInt_lt
  exact this

/-- The bound in `syscall` admits one number more than there are entries. -/
theorem staysInRange_syscall (x7 : UInt64) :
    StaysInRange (syscall x7) ↔ toInt x7 ≠ Table.size .syscalls := by
  have hlt := toInt_lt x7
  have hsize : Table.size .syscalls = 22 := rfl
  unfold syscall
  by_cases hnum : 0 < toInt x7 ∧ toInt x7 % 2 ^ 64 ≤ Table.size .syscalls
  · simp only [if_pos hnum]
    have hmod : toInt x7 % 2 ^ 64 = toInt x7 := Int.emod_eq_of_lt hnum.1.le (by omega)
    rw [hmod] at hnum
    rw [staysInRange_access]
    refine ⟨fun h => ne_of_lt h.1.2, fun hne => ⟨⟨hnum.1.le, lt_of_le_of_ne hnum.2 hne⟩, ?_⟩⟩
    intro r
    cases r with
    | false => exact staysInRange_pure _
    | true =>
      rw [if_pos rfl, staysInRange_access]
      exact ⟨⟨hnum.1.le, lt_of_le_of_ne hnum.2 hne⟩, fun _ => staysInRange_pure _⟩
  · simp only [if_neg hnum]
    refine iff_of_true (staysInRange_pure _) fun heq => hnum ?_
    rw [heq, hsize]
    decide

theorem staysInRange_argfdIndex (fd : Int32) : StaysInRange (argfdIndex fd) := by
  unfold argfdIndex
  by_cases hfd : fd.toInt < 0 ∨ (NOFILE : ℤ) ≤ fd.toInt
  · simp only [if_pos hfd]
    exact staysInRange_pure _
  · simp only [if_neg hfd]
    push Not at hfd
    rw [staysInRange_access]
    refine ⟨hfd, fun r => ?_⟩
    cases r <;> exact staysInRange_pure _

theorem staysInRange_deviceRw (permitted : Bool) (major : Int16) : StaysInRange (deviceRw permitted major) := by
  unfold deviceRw
  cases permitted with
  | false => exact staysInRange_pure _
  | true =>
    rw [if_neg (by decide)]
    by_cases hm : major.toInt < 0 ∨ (NDEV : ℤ) ≤ major.toInt
    · rw [if_pos hm]
      exact staysInRange_pure _
    · rw [if_neg hm, staysInRange_access]
      push Not at hm
      refine ⟨hm, fun r => ?_⟩
      cases r with
      | false => exact staysInRange_pure _
      | true =>
        rw [if_pos rfl, staysInRange_access]
        exact ⟨hm, fun _ => staysInRange_pure _⟩

/-- No bound is tested in `gic_handler`. -/
theorem staysInRange_gicHandler (irq : ℕ) : StaysInRange (gicHandler irq) ↔ irq < Table.size .isrs := by
  unfold gicHandler
  rw [staysInRange_access]
  refine ⟨fun h => Int.ofNat_lt.mp h.1.2, fun h => ⟨⟨Int.natCast_nonneg irq, Int.ofNat_lt.mpr h⟩, ?_⟩⟩
  exact fun _ => staysInRange_pure _

/-- For every register value, descriptor, major and interrupt number: the accesses to the four tables
stay inside them, except for system call number 22 and for interrupts from 64 on. -/
theorem table_indices (x7 : UInt64) (fd : Int32) (readable writable : Bool) (major : Int16) (irq : ℕ) :
    (StaysInRange (syscall x7) ↔ toInt x7 ≠ Table.size .syscalls) ∧ StaysInRange (argfdIndex fd) ∧
      StaysInRange (filereadDevice readable major) ∧ StaysInRange (filewriteDevice writable major) ∧
      (StaysInRange (gicHandler irq) ↔ irq < Table.size .isrs) :=
  ⟨staysInRange_syscall x7, staysInRange_argfdIndex fd, staysInRange_deviceRw readable major,
    staysInRange_deviceRw writable major, staysInRange_gicHandler irq⟩

/-- System call 22 reads past `syscalls[]`, and the spurious interrupt 1023 past `isrs[]`. -/
theorem table_overruns : ¬StaysInRange (syscall 22) ∧ ¬StaysInRange (gicHandler 1023) := by
  rw [staysInRange_syscall, staysInRange_gicHandler]
  decide

end Xv6Arm

import Xv6Arm.Lib.Wp
import Xv6Arm.Param

/-!
# Physical pages and user page tables

`kalloc.c` and `vm.c`. A page is named by its physical address; the kernel
reaches it at a fixed offset, so the conversions `P2V` and `V2P` do not appear.
A table entry is the 64-bit number that the eight bytes of its slot hold.
-/
namespace Xv6Arm
open Lib

/-! ## Constants of `mmu.h` and `arm_virt.h` -/

abbrev PGSIZE : ℕ := 4096
abbrev ENTRY_VALID : ℕ := 1
abbrev ENTRY_PAGE : ℕ := 2
abbrev ENTRY_TABLE : ℕ := 2
abbrev ENTRY_NS : ℕ := 1 <<< 5
abbrev AP_1 : ℕ := 1 <<< 6
abbrev AP_MASK : ℕ := 3 <<< 6
abbrev SH_IN_SH : ℕ := 3 <<< 8
abbrev ACCESS_FLAG : ℕ := 1 <<< 10
abbrev PG_ADDR_MASK : ℕ := 0xFFFFFFFFF000

abbrev PHYSTART : ℕ := 0x40000000
abbrev PHYSTOP : ℕ := 0x08000000 + PHYSTART

def memAttrIdx (x : ℕ) : ℕ := x <<< 2

def pgdIdx (va : ℕ) : ℕ := (va >>> 30) &&& 3
def pmdIdx (va : ℕ) : ℕ := (va >>> 21) &&& 511
def pteIdx (va : ℕ) : ℕ := (va >>> 12) &&& 511

def pgRoundUp (a : ℕ) : ℕ := (a + (PGSIZE - 1)) % 2 ^ 64 / PGSIZE * PGSIZE
def pgRoundDown (a : ℕ) : ℕ := a / PGSIZE * PGSIZE

/-! ## The machine -/

/-- The bytes of every page. -/
abbrev Mem := ℕ → Bytes

/-- The `idx`-th 64-bit entry of a page. -/
def Mem.entry (m : Mem) (page idx : ℕ) : ℕ := leGet (m page) (8 * idx) 8

/-- The free list of `kmem` and the memory. -/
structure Vm where
  freelist : List ℕ
  mem : Mem

/-- The requests of `vm.c`. In `readUser` and `writeUser` the user address `va` is only recorded;
the bytes are those of `page` from `off` on. -/
inductive VmOp where
  | kalloc
  | kfree (pa : ℕ)
  | load (page idx : ℕ)
  | store (page idx v : ℕ)
  | memset (page : ℕ) (c : UInt8)
  | writePage (page off : ℕ) (l : List UInt8)
  | readUser (va page off n : ℕ)
  | writeUser (va page off : ℕ) (l : List UInt8)

abbrev VmOp.Res : VmOp → Type
  | .kalloc => Option ℕ
  | .load _ _ => ℕ
  | .readUser _ _ _ _ => List UInt8
  | _ => Unit

abbrev vmSig : Signature := ⟨VmOp, VmOp.Res⟩

namespace Vm

def setPage (s : Vm) (page : ℕ) (f : Bytes) : Vm := { s with mem := Function.update s.mem page f }

def kalloc (s : Vm) : Option ℕ × Vm :=
  match s.freelist with
  | [] => (none, s)
  | r :: l => (some r, { s with freelist := l }.setPage r fun _ => 0)

/-- What `kfree` leaves in a page: ones, and in the first word the pointer to the next free page. -/
def freedPage (s : Vm) : Bytes := lePut (fun _ => 1) 0 8 (s.freelist.headD 0)

def kfree (s : Vm) (pa : ℕ) : Outcome Unit Vm :=
  if pa % PGSIZE ≠ 0 then .panic "kfree"
  else .done () ({ s with freelist := pa :: s.freelist }.setPage pa s.freedPage)

def store (s : Vm) (page idx v : ℕ) : Vm := s.setPage page (lePut (s.mem page) (8 * idx) 8 v)

def write (s : Vm) (page off : ℕ) (l : List UInt8) : Vm := s.setPage page (putBytes (s.mem page) off l)

end Vm

def vmStep : Machine vmSig Vm
  | .kalloc, s => .done s.kalloc.1 s.kalloc.2
  | .kfree pa, s => s.kfree pa
  | .load page idx, s => .done (s.mem.entry page idx) s
  | .store page idx v, s => .done () (s.store page idx v)
  | .memset page c, s => .done () (s.setPage page fun _ => c)
  | .writePage page off l, s => .done () (s.write page off l)
  | .readUser _ page off n, s => .done (getBytes (s.mem page) off n) s
  | .writeUser _ page off l, s => .done () (s.write page off l)

/-! ## Programs -/

abbrev VmM := Prog vmSig

def kalloc : VmM (Option ℕ) := .op (S := vmSig) .kalloc
def kfree (pa : ℕ) : VmM Unit := .op (S := vmSig) (.kfree pa)
def load (page idx : ℕ) : VmM ℕ := .op (S := vmSig) (.load page idx)
def store (page idx v : ℕ) : VmM Unit := .op (S := vmSig) (.store page idx v)
def memset (page : ℕ) (c : UInt8) : VmM Unit := .op (S := vmSig) (.memset page c)
def readUser (va page off n : ℕ) : VmM (List UInt8) := .op (S := vmSig) (.readUser va page off n)
def writeUser (va page off : ℕ) (l : List UInt8) : VmM Unit := .op (S := vmSig) (.writeUser va page off l)

/-- One level of `walk`: the table that entry `idx` of `table` points to. A missing one is allocated
if `alloc`; `clear` is whether `walk` then clears it, which it does at the second level only. -/
def nextTable (table idx : ℕ) (alloc clear : Bool) : VmM (Option ℕ) := do
  let e ← load table idx
  if e &&& (ENTRY_VALID ||| ENTRY_TABLE) ≠ 0 then pure (some (PG_ADDR_MASK &&& e))
  else if alloc then
    match ← kalloc with
    | none => pure none
    | some page => do
      if clear then memset page 0 else pure ()
      store table idx (page ||| ENTRY_TABLE ||| ENTRY_VALID)
      pure (some page)
  else pure none

/-- `walk`: the place of the leaf entry for `va`, as a page and an index. -/
def walk (pagetable va : ℕ) (alloc : Bool) : VmM (Option (ℕ × ℕ)) := do
  match ← nextTable pagetable (pgdIdx va) alloc false with
  | none => pure none
  | some pmdtb => do
    match ← nextTable pmdtb (pmdIdx va) alloc true with
    | none => pure none
    | some ptetb => pure (some (ptetb, pteIdx va))

/-- `walkaddr`; 0 if `va` has no page. -/
def walkaddr (pagetable va : ℕ) : VmM ℕ := do
  match ← walk pagetable va false with
  | none => pure 0
  | some (ptetb, i) => do
    let pte ← load ptetb i
    if pte &&& (ENTRY_PAGE ||| ENTRY_VALID) = 0 then pure 0 else pure (pte &&& PG_ADDR_MASK)

/-- The leaf entry that `mappages` stores. -/
def leafEntry (pa ap : ℕ) : ℕ :=
  pa ||| ACCESS_FLAG ||| SH_IN_SH ||| ap ||| ENTRY_NS ||| memAttrIdx 4 ||| ENTRY_PAGE ||| ENTRY_VALID

/-- One turn of the loop of `mappages`. -/
def mapPage (pagetable a pa ap : ℕ) : VmM Bool := do
  match ← walk pagetable a true with
  | none => pure false
  | some (ptetb, i) => do
    let pte ← load ptetb i
    if pte &&& (ENTRY_PAGE ||| ENTRY_VALID) ≠ 0 then .panic "remap"
    else do
      store ptetb i (leafEntry pa ap)
      pure true

/-- The loop of `mappages` from `a` on, with `n` pages to go after this one. -/
def mappagesFrom (pagetable ap : ℕ) : ℕ → ℕ → ℕ → VmM Bool
  | a, pa, 0 => mapPage pagetable a pa ap
  | a, pa, n + 1 => do
    if ← mapPage pagetable a pa ap then mappagesFrom pagetable ap (a + PGSIZE) (pa + PGSIZE) n
    else pure false

/-- `mappages`: `true` for 0, `false` for -1. The loop ends where `a` is `last`, which is the page before the first
one if `size` is 0. -/
def mappages (pagetable va size pa ap : ℕ) : VmM Bool :=
  let a := pgRoundDown va
  let last := pgRoundDown ((va + size + (2 ^ 64 - 1)) % 2 ^ 64)
  mappagesFrom pagetable ap a pa ((last + 2 ^ 64 - a % 2 ^ 64) % 2 ^ 64 / PGSIZE)

/-- The loop of `uvmunmap` over `npages` pages from `a` on. -/
def uvmunmapFrom (pagetable : ℕ) (doFree : Bool) : ℕ → ℕ → VmM Unit
  | _, 0 => pure ()
  | a, n + 1 => do
    match ← walk pagetable a false with
    | none => .panic "uvmunmap: walk"
    | some (ptetb, i) => do
      let pte ← load ptetb i
      if pte &&& ENTRY_VALID = 0 then .panic "uvmunmap: not mapped"
      else if pte &&& ENTRY_PAGE = 0 then .panic "uvmunmap: not a page"
      else do
        if doFree then kfree (pte &&& PG_ADDR_MASK) else pure ()
        store ptetb i 0
        uvmunmapFrom pagetable doFree (a + PGSIZE) n

def uvmunmap (pagetable va npages : ℕ) (doFree : Bool) : VmM Unit :=
  if va % PGSIZE ≠ 0 then .panic "uvmunmap: not aligned" else uvmunmapFrom pagetable doFree va npages

def uvmdealloc (pagetable oldsz newsz : ℕ) : VmM ℕ :=
  if oldsz ≤ newsz then pure oldsz
  else do
    if pgRoundUp newsz < pgRoundUp oldsz then
      uvmunmap pagetable (pgRoundUp newsz) ((pgRoundUp oldsz - pgRoundUp newsz) / PGSIZE) true
    else pure ()
    pure newsz

/-- The loop of `uvmalloc` from `a` on, with `n` pages to go. -/
def uvmallocFrom (pagetable oldsz newsz : ℕ) : ℕ → ℕ → VmM ℕ
  | _, 0 => pure newsz
  | a, n + 1 => do
    match ← kalloc with
    | none => do
      let _ ← uvmdealloc pagetable a oldsz
      pure 0
    | some mem => do
      memset mem 0
      if ← mappages pagetable a PGSIZE mem AP_1 then uvmallocFrom pagetable oldsz newsz (a + PGSIZE) n
      else do
        kfree mem
        let _ ← uvmdealloc pagetable a oldsz
        pure 0

def uvmalloc (pagetable oldsz newsz : ℕ) : VmM ℕ :=
  if newsz < oldsz then pure oldsz
  else
    let oldsz := pgRoundUp oldsz
    uvmallocFrom pagetable oldsz newsz oldsz ((newsz - oldsz + (PGSIZE - 1)) / PGSIZE)

end Xv6Arm

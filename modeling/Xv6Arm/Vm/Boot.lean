import Xv6Arm.Vm.Update

/-!
# The kernel's own page table

`start.c` builds the kernel table with 2 MB blocks for the kernel image and the
devices; `page_init` then maps the rest of physical memory page by page. The
tables are where `kernel.ld` puts them: one page for each root and four
second-level pages for each, one after another, below `end`.
-/
namespace Xv6Arm
open Lib Mem

/-! ## Constants of `memlayout.h`, `arm_virt.h` and `mmu.h` -/

abbrev KERNBASE : ℕ := 0xFFFFFFFF00000000
abbrev KERN_SZ : ℕ := 0x200000
abbrev INIT_KERNTOP : ℕ := KERN_SZ + PHYSTART
abbrev GICBASE : ℕ := 0x08000000
abbrev UARTBASE : ℕ := 0x09000000
abbrev VIRTIOBASE : ℕ := 0x0a000000
abbrev DEV_SZ : ℕ := 0x01000000

abbrev AP_0 : ℕ := 0 <<< 6
abbrev ENTRY_BLOCK : ℕ := 0
abbrev PMD_SZ : ℕ := 1 <<< 21
abbrev PMD_MASK : ℕ := 2 ^ 64 - PMD_SZ
abbrev UXN : ℕ := 1 <<< 54

/-- `P2V`: where the kernel sees physical address `pa`. -/
def p2v (pa : ℕ) : ℕ := pa + KERNBASE

/-! ## The code -/

/-- What the linker decides: the physical addresses of `_kernel_pgtbl` and of `end`. -/
structure KernelImage where
  kernelPgtbl : ℕ
  top : ℕ
  aligned : kernelPgtbl % PGSIZE = 0
  start_le : PHYSTART ≤ kernelPgtbl
  tables_le : kernelPgtbl + 0xa000 ≤ top
  top_aligned : top % PGSIZE = 0
  top_le : top ≤ INIT_KERNTOP

namespace KernelImage
variable (b : KernelImage)

def userPgtbl : ℕ := b.kernelPgtbl + 0x1000
def kL2 (i : ℕ) : ℕ := b.kernelPgtbl + 0x2000 + 4096 * i
def uL2 (i : ℕ) : ℕ := b.kernelPgtbl + 0x6000 + 4096 * i

end KernelImage

/-- `init_PGD_table`. -/
def initPGDTable (b : KernelImage) : VmM Unit := do
  Prog.each (fun i => store b.kernelPgtbl i (b.kL2 i ||| (ENTRY_VALID ||| ENTRY_TABLE))) (List.range 4)
  Prog.each (fun i => store b.userPgtbl i (b.uL2 i ||| (ENTRY_VALID ||| ENTRY_TABLE))) (List.range 4)

/-- The block entry that `bvmmap` stores. -/
def blockEntry (pa : ℕ) (devMem : Bool) : ℕ :=
  if devMem then
    pa &&& PMD_MASK ||| (ACCESS_FLAG ||| AP_0 ||| memAttrIdx 0 ||| ENTRY_BLOCK ||| ENTRY_VALID)
  else
    pa &&& PMD_MASK ||| (ACCESS_FLAG ||| SH_IN_SH ||| AP_0 ||| ENTRY_NS ||| memAttrIdx 4 ||| ENTRY_BLOCK |||
      ENTRY_VALID ||| UXN)

/-- One turn of the loop of `bvmmap`: the block goes into the kernel's and the user's table. -/
def bvmmapBlock (b : KernelImage) (va pa : ℕ) (devMem : Bool) : VmM Unit := do
  let l2 ← load b.kernelPgtbl (pgdIdx va)
  store (l2 &&& PG_ADDR_MASK) (pmdIdx va) (blockEntry pa devMem)
  let l2 ← load b.userPgtbl (pgdIdx va)
  store (l2 &&& PG_ADDR_MASK) (pmdIdx va) (blockEntry pa devMem)

/-- `bvmmap`; the loop body runs before the first test of `va >= end`. -/
def bvmmap (b : KernelImage) (va pa sz : ℕ) (devMem : Bool) : VmM Unit :=
  Prog.each (fun k => bvmmapBlock b (va + k * PMD_SZ) (pa + k * PMD_SZ) devMem)
    (List.range (max 1 ((sz + (PMD_SZ - 1)) / PMD_SZ)))

def initBootPgtbl (b : KernelImage) : VmM Unit := do
  bvmmap b PHYSTART PHYSTART KERN_SZ false
  bvmmap b (KERNBASE + PHYSTART) PHYSTART KERN_SZ false
  bvmmap b UARTBASE UARTBASE DEV_SZ true
  bvmmap b VIRTIOBASE VIRTIOBASE DEV_SZ true
  bvmmap b (KERNBASE + GICBASE) GICBASE DEV_SZ true
  bvmmap b (KERNBASE + UARTBASE) UARTBASE DEV_SZ true
  bvmmap b (KERNBASE + VIRTIOBASE) VIRTIOBASE DEV_SZ true

/-- `pre_free4kpt` over the physical addresses from `start` to `stop`. -/
def preFree4kpt (start stop : ℕ) : VmM Unit :=
  Prog.each kfree ((List.range ((stop - pgRoundUp start + (PGSIZE - 1)) / PGSIZE)).map
    fun n => pgRoundUp start + n * PGSIZE)

/-- `page_init`; whether `mappages` succeeded is not looked at. -/
def pageInit (b : KernelImage) : VmM Unit := do
  let _ ← mappages b.kernelPgtbl (p2v INIT_KERNTOP) (PHYSTOP - INIT_KERNTOP) INIT_KERNTOP AP_1
  pure ()

/-- The part of `start` and `kmain` that sets up the kernel table. -/
def bootMemory (b : KernelImage) : VmM Unit := do
  initPGDTable b
  initBootPgtbl b
  preFree4kpt b.top INIT_KERNTOP
  pageInit b

/-! ## What the processor makes of a table -/

/-- The block or page entry through which the processor translates `va`. -/
def Mem.mapping (m : Mem) (pgd va : ℕ) : Option ℕ :=
  let e := m.entry pgd (pgdIdx va)
  if e &&& 3 ≠ 3 then if e &&& 3 = 1 then some e else none
  else
    let e := m.entry (e &&& PG_ADDR_MASK) (pmdIdx va)
    if e &&& 3 ≠ 3 then if e &&& 3 = 1 then some e else none
    else
      let e := m.entry (e &&& PG_ADDR_MASK) (pteIdx va)
      if e &&& 3 = 3 then some e else none

/-- `AP[2:1]` lets EL0 read. -/
def El0Reads (e : ℕ) : Prop := e &&& AP_MASK = AP_1 ∨ e &&& AP_MASK = 3 <<< 6

/-- `AP[2:1]` lets EL0 write. -/
def El0Writes (e : ℕ) : Prop := e &&& AP_MASK = AP_1

def DeniesEl0 (e : ℕ) : Prop := ¬El0Reads e ∧ ¬El0Writes e

/-- The addresses that `page_init` maps. -/
def InLinearMap (va : ℕ) : Prop := p2v INIT_KERNTOP ≤ va ∧ va < p2v PHYSTOP

end Xv6Arm

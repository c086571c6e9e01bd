import Xv6Arm.Kernel.State

/-!
# Blocks and inodes

The block allocator, the inode layer and inode contents of `fs.c`.
-/
namespace Xv6Arm
open Lib

/-! ## On-disk inodes -/

def getShort (d : Block) (o : ℕ) : Int16 := Int16.ofNat (leGet d o 2)
def putShort (d : Block) (o : ℕ) (x : Int16) : Block := lePut d o 2 x.toUInt16.toNat

/-- The `k`-th `struct dinode` of a block. -/
def getDinode (d : Block) (k : ℕ) : Dinode where
  type := getShort d (64 * k)
  major := getShort d (64 * k + 2)
  minor := getShort d (64 * k + 4)
  nlink := getShort d (64 * k + 6)
  size := leGet d (64 * k + 8) 4
  addrs := fun j => leGet d (64 * k + 12 + 4 * j) 4

def putDinode (d : Block) (k : ℕ) (x : Dinode) : Block :=
  let d := putShort d (64 * k) x.type
  let d := putShort d (64 * k + 2) x.major
  let d := putShort d (64 * k + 4) x.minor
  let d := putShort d (64 * k + 6) x.nlink
  let d := lePut d (64 * k + 8) 4 x.size
  lePuts d (64 * k + 12) 4 (List.ofFn x.addrs)

/-! ## Blocks -/

def bzero (bno : ℕ) : IoM Unit := do
  let _ ← bread bno
  bset bno fun _ => 0
  logWrite bno
  brelse bno

/-- `1 << (bi % 8)` -/
def bitMask (bi : ℕ) : UInt8 := 1 <<< UInt8.ofNat (bi % 8)

def markBit (d : Block) (bi : ℕ) : Block := Function.update d (bi / 8) (d (bi / 8) ||| bitMask bi)
def clearBit (d : Block) (bi : ℕ) : Block := Function.update d (bi / 8) (d (bi / 8) &&& ~~~bitMask bi)

/-- The inner loop of `balloc` from bit `bi` on, with `n` bits of the block to go. -/
def freeBit (sb : Superblock) (bp : Block) (b : ℕ) : ℕ → ℕ → Option ℕ
  | _, 0 => none
  | bi, n + 1 =>
    if b + bi < sb.size then
      if bp (bi / 8) &&& bitMask bi = 0 then some bi else freeBit sb bp b (bi + 1) n
    else none

/-- The outer loop of `balloc` from block `b` on, with `n` blocks of the free map to go. -/
def ballocFrom (sb : Superblock) : ℕ → ℕ → IoM ℕ
  | _, 0 => .panic "balloc: out of blocks"
  | b, n + 1 => do
    let bp ← bread (bblock sb b)
    match freeBit sb bp b 0 BPB with
    | some bi => do
      bset (bblock sb b) (markBit bp bi)
      logWrite (bblock sb b)
      brelse (bblock sb b)
      bzero (b + bi)
      pure (b + bi)
    | none => do
      brelse (bblock sb b)
      ballocFrom sb (b + BPB) n

def balloc (sb : Superblock) : IoM ℕ := ballocFrom sb 0 ((sb.size + (BPB - 1)) / BPB)

def bfree (sb : Superblock) (b : ℕ) : IoM Unit := do
  let bp ← bread (bblock sb b)
  let bi := b % BPB
  if bp (bi / 8) &&& bitMask bi = 0 then .panic "freeing free block"
  else do
    bset (bblock sb b) (clearBit bp bi)
    logWrite (bblock sb b)
    brelse (bblock sb b)

/-! ## Inodes -/

def iget (inum : ℕ) : KM ℕ := inode (.iget inum)
def idup (ip : ℕ) : KM Unit := inode (.idup ip)
def iunlock (ip : ℕ) : KM Unit := inode (.iunlock ip)

def iupdate (sb : Superblock) (ip : ℕ) : KM Unit := do
  let x ← inode (.get ip)
  let bp ← bread (iblock sb x.inum)
  bset (iblock sb x.inum) (putDinode bp (x.inum % IPB) x.d)
  logWrite (iblock sb x.inum)
  brelse (iblock sb x.inum)

def ilock (sb : Superblock) (ip : ℕ) : KM Unit := do
  inode (.acquire ip)
  let x ← inode (.get ip)
  if x.valid then pure ()
  else do
    let bp ← bread (iblock sb x.inum)
    inode (.set ip (getDinode bp (x.inum % IPB)))
    brelse (iblock sb x.inum)
    inode (.setValid ip true)
    if (getDinode bp (x.inum % IPB)).type = 0 then .panic "ilock: no type" else pure ()

/-- Assign to the fields of an inode that the caller has locked. -/
def modifyInode (ip : ℕ) (f : Dinode → Dinode) : KM Unit := do
  let x ← inode (.get ip)
  inode (.set ip (f x.d))

def setAddr (k : Fin (NDIRECT + 1)) (addr : ℕ) (d : Dinode) : Dinode :=
  { d with addrs := Function.update d.addrs k addr }

/-- The entry for `ip->addrs[k]`, allocated if there is none. -/
def bmapAddr (sb : Superblock) (ip : ℕ) (k : Fin (NDIRECT + 1)) : KM ℕ := do
  let x ← inode (.get ip)
  if x.d.addrs k = 0 then do
    let addr ← balloc sb
    modifyInode ip (setAddr k addr)
    pure addr
  else pure (x.d.addrs k)

def bmap (sb : Superblock) (ip bn : ℕ) : KM ℕ :=
  if h : bn < NDIRECT then bmapAddr sb ip ⟨bn, Nat.lt_succ_of_lt h⟩
  else if bn - NDIRECT < NINDIRECT then do
    let addr ← bmapAddr sb ip (Fin.last NDIRECT)
    let bp ← bread addr
    let a := leGet bp (4 * (bn - NDIRECT)) 4
    if a = 0 then do
      let a ← balloc sb
      bset addr (lePut bp (4 * (bn - NDIRECT)) 4 a)
      logWrite addr
      brelse addr
      pure a
    else do
      brelse addr
      pure a
  else .panic "bmap: out of range"

/-- One turn of the first loop of `itrunc`. -/
def itruncDirect (sb : Superblock) (ip : ℕ) (i : Fin NDIRECT) : KM Unit := do
  let x ← inode (.get ip)
  if x.d.addrs i.castSucc ≠ 0 then do
    bfree sb (x.d.addrs i.castSucc)
    modifyInode ip (setAddr i.castSucc 0)
  else pure ()

/-- One turn of the loop of `itrunc` over the indirect block `bp`. -/
def itruncEntry (sb : Superblock) (bp : Block) (j : ℕ) : KM Unit :=
  if leGet bp (4 * j) 4 ≠ 0 then bfree sb (leGet bp (4 * j) 4) else pure ()

def itruncIndirect (sb : Superblock) (ip : ℕ) : KM Unit := do
  let x ← inode (.get ip)
  let addr := x.d.addrs (Fin.last NDIRECT)
  if addr ≠ 0 then do
    let bp ← bread addr
    Prog.each (itruncEntry sb bp) (List.range NINDIRECT)
    brelse addr
    bfree sb addr
    modifyInode ip (setAddr (Fin.last NDIRECT) 0)
  else pure ()

def itrunc (sb : Superblock) (ip : ℕ) : KM Unit := do
  Prog.each (itruncDirect sb ip) (List.finRange NDIRECT)
  itruncIndirect sb ip
  modifyInode ip fun d => { d with size := 0 }
  iupdate sb ip

def iput (sb : Superblock) (ip : ℕ) : KM Unit := do
  if ← inode (.iputTest ip) then do
    itrunc sb ip
    modifyInode ip fun d => { d with type := 0 }
    iupdate sb ip
    inode (.setValid ip false)
    inode (.releasesleep ip)
    inode (.iputDrop ip)
  else pure ()

def iunlockput (sb : Superblock) (ip : ℕ) : KM Unit := do
  iunlock ip
  iput sb ip

/-! ## Inode contents -/

/-- Where `readi` puts its bytes: into a variable of the kernel, into a page that the kernel
addresses directly, or into user memory. -/
inductive Dst where
  | kernel
  | page (pa off : ℕ)
  | user (pagetable va : ℕ)

def Dst.add (m : ℕ) : Dst → Dst
  | .kernel => .kernel
  | .page pa off => .page pa (off + m)
  | .user pagetable va => .user pagetable ((va + m) % 2 ^ 64)

/-- `either_copyout`: `false` for -1. -/
def eitherCopyout (dst : Dst) (l : List UInt8) : KM Bool :=
  match dst with
  | .kernel => pure true
  | .page pa off => do
    inVm (.op (S := vmSig) (.writePage pa off l))
    pure true
  | .user pagetable va => inVm (copyout pagetable va l)

/-- Where `writei` takes its bytes from. -/
inductive Src where
  | kernel (l : List UInt8)
  | user (pagetable va : ℕ)

def Src.add (m : ℕ) : Src → Src
  | .kernel l => .kernel (l.drop m)
  | .user pagetable va => .user pagetable ((va + m) % 2 ^ 64)

/-- `either_copyin`: the bytes that were moved, and `false` for -1. -/
def eitherCopyin (src : Src) (m : ℕ) : KM (List UInt8 × Bool) :=
  match src with
  | .kernel l => pure (l.take m, true)
  | .user pagetable va => inVm (copyin pagetable va m)

/-- The loop of `readi` with `n` bytes to go; each turn reads at least one, so `n` turns suffice. -/
def readiFrom (sb : Superblock) (ip : ℕ) : ℕ → Dst → ℕ → ℕ → KM (Option (List UInt8))
  | 0, _, _, _ => pure (some [])
  | fuel + 1, dst, off, n =>
    if n = 0 then pure (some [])
    else do
      let b ← bmap sb ip (off / BSIZE)
      let bp ← bread b
      let m := min n (BSIZE - off % BSIZE)
      let l := getBytes bp (off % BSIZE) m
      if ← eitherCopyout dst l then do
        brelse b
        match ← readiFrom sb ip fuel (dst.add m) (off + m) (n - m) with
        | some rest => pure (some (l ++ rest))
        | none => pure none
      else do
        brelse b
        pure none

/-- `readi`: `none` for -1, otherwise the bytes that were read. `off` and `n` are `uint`. -/
def readi (sb : Superblock) (ip : ℕ) (dst : Dst) (off n : ℕ) : KM (Option (List UInt8)) := do
  let x ← inode (.get ip)
  if x.d.size < off ∨ (off + n) % 2 ^ 32 < off then pure (some [])
  else
    let n := if x.d.size < (off + n) % 2 ^ 32 then x.d.size - off else n
    readiFrom sb ip n dst off n

/-- The loop of `writei` with `n` bytes to go: the last value of `off`, and `false` if the loop
ended with `n = -1`. -/
def writeiFrom (sb : Superblock) (ip : ℕ) : ℕ → Src → ℕ → ℕ → KM (ℕ × Bool)
  | 0, _, off, _ => pure (off, true)
  | fuel + 1, src, off, n =>
    if n = 0 then pure (off, true)
    else do
      let b ← bmap sb ip (off / BSIZE)
      let bp ← bread b
      let m := min n (BSIZE - off % BSIZE)
      let (l, ok) ← eitherCopyin src m
      -- a copy that fails has still stored the bytes before the fault
      bset b (putBytes bp (off % BSIZE) l)
      if ok then do
        logWrite b
        brelse b
        writeiFrom sb ip fuel (src.add m) (off + m) (n - m)
      else do
        brelse b
        pure (off, false)

/-- `writei`. After a fault `n` is `-1`, which as a `uint` is positive. -/
def writei (sb : Superblock) (ip : ℕ) (src : Src) (off n : ℕ) : KM ℤ := do
  let x ← inode (.get ip)
  if x.d.size < off ∨ (off + n) % 2 ^ 32 < off then pure (-1)
  else if MAXFILE * BSIZE < (off + n) % 2 ^ 32 then pure (-1)
  else do
    let (off, ok) ← writeiFrom sb ip n src off n
    if 0 < n ∨ ok = false then do
      modifyInode ip fun d => if d.size < off then { d with size := off } else d
      iupdate sb ip
    else pure ()
    pure (if ok then n else -1)

end Xv6Arm

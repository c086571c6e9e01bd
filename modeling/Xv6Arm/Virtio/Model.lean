import Xv6Arm.Param
import Xv6Arm.Lib.Threads

/-!
# The disk driver and its device

`virtio_disk.c` as programs that any number of threads run at the same time, next
to a device that acts on its own. Every load and store of the driver that the
device or another processor could notice is a request, so the device may act
between any two of them.

A pointer is the object it refers to, and a physical address names what is
stored there. What `sleep` and `wakeup` do is two requests and one: `sleep` holds
`p->lock` from before it releases `vdisk_lock` until the process sleeps, and
`wakeup` needs that lock, so nobody sees a process in between. A sleeping process
may be woken at any time, as by `kill`.
-/
namespace Xv6Arm.Virtio
open Lib

/-! ## Memory that the driver and the device share -/

abbrev NUM : ℕ := 8
abbrev VRING_DESC_F_NEXT : UInt16 := 1
abbrev VRING_DESC_F_WRITE : UInt16 := 2
abbrev VIRTIO_BLK_T_IN : ℕ := 0
abbrev VIRTIO_BLK_T_OUT : ℕ := 1

/-- What a descriptor can refer to: `&disk.ops[i]`, `b->data` or `&disk.info[i].status`. -/
inductive Addr where
  | null
  | op (i : ℕ)
  | data (b : ℕ)
  | status (i : ℕ)
  deriving DecidableEq

/-- `struct virtq_desc`. -/
structure Desc where
  addr : Addr
  len : ℕ
  flags : UInt16
  next : ℕ
  deriving DecidableEq

/-- `struct virtio_blk_req`. -/
structure BlkReq where
  type : ℕ
  reserved : ℕ
  sector : ℕ
  deriving DecidableEq

/-- `struct virtq_avail`, and `struct virtq_used` with the `id` of each element. -/
structure Queue where
  idx : ℕ
  ring : ℕ → ℕ

/-- The parts of `struct disk`, and `b->disk` of every buffer, that only the driver writes. -/
structure Disk where
  desc : ℕ → Desc
  avail : Queue
  free : ℕ → Bool
  usedIdx : ℕ
  /-- `info[i].b`. -/
  infoB : ℕ → Option ℕ
  ops : ℕ → BlkReq
  bufDisk : ℕ → Bool

/-- One store of the driver. -/
inductive Store where
  | opType (i v : ℕ)
  | opReserved (i v : ℕ)
  | opSector (i v : ℕ)
  | descAddr (i : ℕ) (a : Addr)
  | descLen (i v : ℕ)
  | descFlags (i : ℕ) (v : UInt16)
  | descNext (i v : ℕ)
  | infoB (i : ℕ) (b : Option ℕ)
  | bufDisk (b : ℕ) (v : Bool)
  | availRing (i v : ℕ)
  | availIdx (v : ℕ)
  | usedIdx (v : ℕ)
  | free (i : ℕ) (v : Bool)

namespace Disk

def setDesc (d : Disk) (i : ℕ) (f : Desc → Desc) : Disk :=
  { d with desc := Function.update d.desc i (f (d.desc i)) }

def setOp (d : Disk) (i : ℕ) (f : BlkReq → BlkReq) : Disk :=
  { d with ops := Function.update d.ops i (f (d.ops i)) }

def store (d : Disk) : Store → Disk
  | .opType i v => d.setOp i fun x => { x with type := v }
  | .opReserved i v => d.setOp i fun x => { x with reserved := v }
  | .opSector i v => d.setOp i fun x => { x with sector := v }
  | .descAddr i a => d.setDesc i fun x => { x with addr := a }
  | .descLen i v => d.setDesc i fun x => { x with len := v }
  | .descFlags i v => d.setDesc i fun x => { x with flags := v }
  | .descNext i v => d.setDesc i fun x => { x with next := v }
  | .infoB i b => { d with infoB := Function.update d.infoB i b }
  | .bufDisk b v => { d with bufDisk := Function.update d.bufDisk b v }
  | .availRing i v => { d with avail := ⟨d.avail.idx, Function.update d.avail.ring i v⟩ }
  | .availIdx v => { d with avail := ⟨v, d.avail.ring⟩ }
  | .usedIdx v => { d with usedIdx := v }
  | .free i v => { d with free := Function.update d.free i v }

end Disk

/-! ## The code -/

/-- What the driver sleeps on: `&disk.free[0]` or a buffer. -/
inductive Chan where
  | free
  | buf (b : ℕ)
  deriving DecidableEq

inductive Op where
  | acquire
  | release
  /-- Load something that only the driver writes. -/
  | disk
  | set (w : Store)
  /-- Load `b->blockno`. -/
  | blockno (b : ℕ)
  /-- Load `disk.used->idx`. -/
  | usedIdx
  /-- Load `disk.used->ring[i].id`. -/
  | usedId (i : ℕ)
  /-- Load and store `disk.info[i].status`. -/
  | status (i : ℕ)
  | setStatus (i : ℕ) (v : UInt8)
  /-- Write `VIRTIO_MMIO_QUEUE_NOTIFY`. -/
  | notify
  /-- Read `VIRTIO_MMIO_INTERRUPT_STATUS` and write `VIRTIO_MMIO_INTERRUPT_ACK`. -/
  | interruptStatus
  | interruptAck (v : UInt32)
  /-- `sleep` up to the switch to the scheduler, and from there on. -/
  | doze (ch : Chan)
  | resume
  | wakeup (ch : Chan)
  | panic (msg : String)
  /-- A loop of the source that has not ended yet. -/
  | hang
  /-- `virtio_disk_rw(b, …)` returns; nothing happens. -/
  | finish (b : ℕ)

abbrev Op.Res : Op → Type
  | .disk => Disk
  | .blockno _ => ℕ
  | .usedIdx => ℕ
  | .usedId _ => ℕ
  | .status _ => UInt8
  | .interruptStatus => UInt32
  | _ => Unit

abbrev diskSig : Signature := ⟨Op, Op.Res⟩
abbrev DM := Prog diskSig

def req (o : Op) : DM o.Res := .op (S := diskSig) o

def sleep (ch : Chan) : DM Unit := do
  req (.doze ch)
  req .resume

/-- The loop of `alloc_desc` with `n` descriptors to go; `none` is -1. -/
def allocFrom : ℕ → ℕ → DM (Option ℕ)
  | 0, _ => pure none
  | n + 1, i => do
    let d ← req .disk
    if d.free i then
      req (.set (.free i false))
      pure (some i)
    else allocFrom n (i + 1)

def allocDesc : DM (Option ℕ) := allocFrom NUM 0

def freeDesc (i : ℕ) : DM Unit := do
  if NUM ≤ i then
    req (.panic "free_desc 1")
  else
    let d ← req .disk
    if d.free i then
      req (.panic "free_desc 2")
    else
      req (.set (.descAddr i .null))
      req (.set (.descLen i 0))
      req (.set (.descFlags i 0))
      req (.set (.descNext i 0))
      req (.set (.free i true))
      req (.wakeup .free)

/-- The loop of `free_chain`, cut off after some rounds. -/
def freeChain : ℕ → ℕ → DM Unit
  | 0, _ => req .hang
  | fuel + 1, i => do
    let d ← req .disk
    let flag := (d.desc i).flags
    let d ← req .disk
    let nxt := (d.desc i).next
    freeDesc i
    if flag &&& VRING_DESC_F_NEXT ≠ 0 then freeChain fuel nxt else pure ()

/-- `alloc3_desc` with its loop over `idx[0]`, `idx[1]`, `idx[2]` written out; `none` is -1. -/
def alloc3Desc : DM (Option (ℕ × ℕ × ℕ)) := do
  match ← allocDesc with
  | none => pure none
  | some i =>
    match ← allocDesc with
    | none =>
      freeDesc i
      pure none
    | some j =>
      match ← allocDesc with
      | none =>
        freeDesc i
        freeDesc j
        pure none
      | some k => pure (some (i, j, k))

/-- The first loop of `virtio_disk_rw`. -/
def allocLoop : ℕ → DM (ℕ × ℕ × ℕ)
  | 0 => do
    req .hang
    pure (0, 0, 0)
  | fuel + 1 => do
    match ← alloc3Desc with
    | some idx => pure idx
    | none =>
      sleep .free
      allocLoop fuel

/-- `virtio_disk_rw`: the command, and the descriptor that refers to it. -/
def formatHead (write : Bool) (sector i j : ℕ) : DM Unit := do
  req (.set (.opType i (if write then VIRTIO_BLK_T_OUT else VIRTIO_BLK_T_IN)))
  req (.set (.opReserved i 0))
  req (.set (.opSector i sector))
  req (.set (.descAddr i (.op i)))
  req (.set (.descLen i 16))
  req (.set (.descFlags i VRING_DESC_F_NEXT))
  req (.set (.descNext i j))

/-- `virtio_disk_rw`: the descriptor of the data. -/
def formatBody (b : ℕ) (write : Bool) (j k : ℕ) : DM Unit := do
  req (.set (.descAddr j (.data b)))
  req (.set (.descLen j BSIZE))
  req (.set (.descFlags j VRING_DESC_F_NEXT))
  if !write then
    let d ← req .disk
    req (.set (.descFlags j ((d.desc j).flags ||| VRING_DESC_F_WRITE)))
  req (.set (.descNext j k))

/-- `virtio_disk_rw`: the status, and the descriptor that refers to it. -/
def formatTail (i k : ℕ) : DM Unit := do
  req (.setStatus i 0xff)
  req (.set (.descAddr k (.status i)))
  req (.set (.descLen k 1))
  req (.set (.descFlags k VRING_DESC_F_WRITE))
  req (.set (.descNext k 0))

/-- `virtio_disk_rw`: format the three descriptors and record the buffer. -/
def format (b : ℕ) (write : Bool) (sector i j k : ℕ) : DM Unit := do
  formatHead write sector i j
  formatBody b write j k
  formatTail i k
  req (.set (.bufDisk b true))
  req (.set (.infoB i (some b)))

/-- `virtio_disk_rw`: tell the device the first index of the chain. -/
def publish (i : ℕ) : DM Unit := do
  let d ← req .disk
  req (.set (.availRing (d.avail.idx % NUM) i))
  let d ← req .disk
  req (.set (.availIdx ((d.avail.idx + 1) % 2 ^ 16)))
  req .notify

/-- The last loop of `virtio_disk_rw`. -/
def waitLoop (b : ℕ) : ℕ → DM Unit
  | 0 => req .hang
  | fuel + 1 => do
    let d ← req .disk
    if d.bufDisk b then
      sleep (.buf b)
      waitLoop b fuel
    else pure ()

/-- The product is one of 32-bit words. -/
def sectorOf (blockno : ℕ) : ℕ := blockno * (BSIZE / 512) % 2 ^ 32

def virtioDiskRw (fuel b : ℕ) (write : Bool) : DM Unit := do
  let blockno ← req (.blockno b)
  req .acquire
  let (i, j, k) ← allocLoop fuel
  format b write (sectorOf blockno) i j k
  publish i
  waitLoop b fuel
  req (.set (.infoB i none))
  freeChain NUM i
  req .release
  req (.finish b)

/-- The loop of `virtio_disk_intr`. -/
def intrLoop : ℕ → DM Unit
  | 0 => req .hang
  | fuel + 1 => do
    let d ← req .disk
    let u ← req .usedIdx
    if d.usedIdx ≠ u then
      let d ← req .disk
      let id ← req (.usedId (d.usedIdx % NUM))
      let st ← req (.status id)
      if st ≠ 0 then
        req (.panic "virtio_disk_intr status")
      else
        let d ← req .disk
        match d.infoB id with
        | none => req (.panic "b is null")
        | some b =>
          req (.set (.bufDisk b false))
          req (.wakeup (.buf b))
          let d ← req .disk
          req (.set (.usedIdx ((d.usedIdx + 1) % 2 ^ 16)))
          intrLoop fuel
    else pure ()

def virtioDiskIntr (fuel : ℕ) : DM Unit := do
  req .acquire
  let st ← req .interruptStatus
  req (.interruptAck (st &&& 0x3))
  intrLoop fuel
  req .release

/-! ## The device -/

/-- How far the device is with a request. -/
inductive Stage where
  | taken
  /-- The data have been moved, or the request has failed; the status is still to be written. -/
  | answered (st : UInt8)
  | stamped
  deriving DecidableEq

/-- A request that the device has taken from the queue. -/
structure Fetched where
  head : ℕ
  write : Bool
  sector : ℕ
  buf : ℕ
  len : ℕ
  statusAt : ℕ
  stage : Stage
  deriving DecidableEq

/-- The device reads the chain that starts at a descriptor. -/
def fetch (d : Disk) (h : ℕ) : Option Fetched :=
  let d0 := d.desc h
  let d1 := d.desc d0.next
  let d2 := d.desc d1.next
  match d0.addr, d1.addr, d2.addr with
  | .op i, .data b, .status j =>
    if d0.flags = VRING_DESC_F_NEXT ∧ d0.len = 16 ∧ d1.flags &&& VRING_DESC_F_NEXT ≠ 0 ∧
        d2.flags = VRING_DESC_F_WRITE ∧ d2.len = 1 then
      if (d.ops i).type = VIRTIO_BLK_T_OUT ∧ d1.flags &&& VRING_DESC_F_WRITE = 0 then
        some ⟨h, true, (d.ops i).sector, b, d1.len, j, .taken⟩
      else if (d.ops i).type = VIRTIO_BLK_T_IN ∧ d1.flags &&& VRING_DESC_F_WRITE ≠ 0 then
        some ⟨h, false, (d.ops i).sector, b, d1.len, j, .taken⟩
      else none
    else none
  | _, _, _ => none

/-- The device's own state. -/
structure Device where
  /-- How far it has taken requests from the avail ring. -/
  last : ℕ
  /-- The `avail->idx` that it has read last. -/
  seen : ℕ
  flight : List Fetched
  /-- The head it has written into the used ring without having moved `used->idx`. -/
  out : Option ℕ
  /-- It is about to raise its interrupt. -/
  raising : Bool

/-- `len` bytes from a sector on, over a buffer. -/
def mediaRead (m : ℕ → UInt8) (sector len : ℕ) (x : Block) : Block :=
  fun i => if i < len then m (sector * 512 + i) else x i

/-- `len` bytes of a buffer, over the medium from a sector on. -/
def mediaWrite (m : ℕ → UInt8) (sector len : ℕ) (x : Block) : ℕ → UInt8 :=
  fun a => if sector * 512 ≤ a ∧ a < sector * 512 + len then x (a - sector * 512) else m a

/-! ## The system -/

/-- A call of `virtio_disk_rw` in progress, and how often the device has carried it out. -/
structure Call where
  thread : ℕ
  write : Bool
  served : ℕ
  deriving DecidableEq

structure Sys where
  disk : Disk
  used : Queue
  /-- `info[i].status`. -/
  status : ℕ → UInt8
  blockno : ℕ → ℕ
  data : ℕ → Block
  isr : UInt32
  notified : Bool
  /-- The thread that holds `vdisk_lock`. -/
  lock : Option ℕ
  dev : Device
  media : ℕ → UInt8
  asleep : ℕ → Option Chan
  /-- The call in progress on each buffer. -/
  calls : ℕ → Option Call
  /-- The device has reported an error. -/
  failed : Bool
  /-- The device has found a chain that is no request. -/
  broken : Bool

/-- The effect of a request of thread `t`. -/
def diskStep (t : ℕ) : Machine diskSig Sys
  | .acquire, s => if s.lock = none then .done () { s with lock := some t } else .blocked
  | .release, s => .done () { s with lock := none }
  | .disk, s => .done s.disk s
  | .set w, s => .done () { s with disk := s.disk.store w }
  | .blockno b, s => .done (s.blockno b) s
  | .usedIdx, s => .done s.used.idx s
  | .usedId i, s => .done (s.used.ring i) s
  | .status i, s => .done (s.status i) s
  | .setStatus i v, s => .done () { s with status := Function.update s.status i v }
  | .notify, s => .done () { s with notified := true }
  | .interruptStatus, s => .done s.isr s
  | .interruptAck v, s => .done () { s with isr := s.isr &&& ~~~v }
  | .doze ch, s => .done () { s with lock := none, asleep := Function.update s.asleep t (some ch) }
  | .resume, s => if s.asleep t = none ∧ s.lock = none then .done () { s with lock := some t } else .blocked
  | .wakeup ch, s => .done () { s with asleep := fun u => if s.asleep u = some ch then none else s.asleep u }
  | .panic msg, _ => .panic msg
  | .hang, _ => .blocked
  | .finish b, s => .done () { s with calls := Function.update s.calls b none }

/-- The device carries out a request. -/
def Sys.serve (s : Sys) (f : Fetched) : Sys :=
  { s with
    media := if f.write then mediaWrite s.media f.sector f.len (s.data f.buf) else s.media
    data := if f.write then s.data else
      Function.update s.data f.buf (mediaRead s.media f.sector f.len (s.data f.buf))
    calls := Function.update s.calls f.buf ((s.calls f.buf).map fun c => { c with served := c.served + 1 }) }

/-- What the device does on its own. It may have any number of requests at the same time and answers
them in any order. -/
inductive DevStep : Sys → Sys → Prop
  /-- It reads `avail->idx`. -/
  | look (s : Sys) : DevStep s { s with dev.seen := s.disk.avail.idx, notified := false }
  /-- It takes the next chain that it has seen. -/
  | fetch (s : Sys) (f : Fetched) (hne : s.dev.last ≠ s.dev.seen)
      (hf : fetch s.disk (s.disk.avail.ring (s.dev.last % NUM)) = some f) :
      DevStep s { s with dev.last := (s.dev.last + 1) % 2 ^ 16, dev.flight := s.dev.flight ++ [f] }
  | choke (s : Sys) (hne : s.dev.last ≠ s.dev.seen)
      (hf : fetch s.disk (s.disk.avail.ring (s.dev.last % NUM)) = none) :
      DevStep s { s with dev.last := (s.dev.last + 1) % 2 ^ 16, broken := true }
  | serve (s : Sys) (l r : List Fetched) (f : Fetched) (hl : s.dev.flight = l ++ f :: r)
      (hf : f.stage = .taken) :
      DevStep s { s.serve f with dev.flight := l ++ { f with stage := .answered 0 } :: r }
  | fail (s : Sys) (l r : List Fetched) (f : Fetched) (st : UInt8) (hl : s.dev.flight = l ++ f :: r)
      (hf : f.stage = .taken) (hst : st ≠ 0) :
      DevStep s { s with dev.flight := l ++ { f with stage := .answered st } :: r, failed := true }
  | stamp (s : Sys) (l r : List Fetched) (f : Fetched) (st : UInt8) (hl : s.dev.flight = l ++ f :: r)
      (hf : f.stage = .answered st) :
      DevStep s { s with
        status := Function.update s.status f.statusAt st
        dev.flight := l ++ { f with stage := .stamped } :: r }
  /-- It writes an element of the used ring. -/
  | record (s : Sys) (l r : List Fetched) (f : Fetched) (hl : s.dev.flight = l ++ f :: r)
      (hf : f.stage = .stamped) (hout : s.dev.out = none) :
      DevStep s { s with
        used := ⟨s.used.idx, Function.update s.used.ring (s.used.idx % NUM) f.head⟩
        dev.flight := l ++ r
        dev.out := some f.head }
  /-- It moves `used->idx`. -/
  | advance (s : Sys) (h : ℕ) (hout : s.dev.out = some h) :
      DevStep s { s with
        used := ⟨(s.used.idx + 1) % 2 ^ 16, s.used.ring⟩
        dev.out := none
        dev.raising := true }
  | raise (s : Sys) (hr : s.dev.raising = true) :
      DevStep s { s with isr := s.isr ||| 1, dev.raising := false }

/-- Block numbers are far below this. -/
abbrev MAXBLOCK : ℕ := 2 ^ 31

/-- What happens besides the requests of the threads. A caller of `virtio_disk_rw` holds the buffer's
sleep-lock, so there is one call on a buffer at a time and nobody else changes it meanwhile. -/
inductive Event (t : ℕ) : Sys → DM Unit → Sys → DM Unit → Prop
  | call (s : Sys) (fuel b : ℕ) (write : Bool) (hb : s.calls b = none) :
      Event t s (.ret ()) { s with calls := Function.update s.calls b (some ⟨t, write, 0⟩) }
        (virtioDiskRw fuel b write)
  | interrupt (s : Sys) (fuel : ℕ) : Event t s (.ret ()) s (virtioDiskIntr fuel)
  /-- The holder of a buffer changes it, or it is reused for another block. -/
  | edit (s : Sys) (p : DM Unit) (b n : ℕ) (x : Block) (hb : s.calls b = none) (hn : n < MAXBLOCK) :
      Event t s p { s with
        blockno := Function.update s.blockno b n
        data := Function.update s.data b x } p
  | wake (s : Sys) (p : DM Unit) (u : ℕ) :
      Event t s p { s with asleep := Function.update s.asleep u none } p
  | device (s s' : Sys) (p : DM Unit) (h : DevStep s s') : Event t s p s' p

def diskThreads : Threads diskSig Sys ℕ ℕ where
  step := diskStep
  active t _ := t
  spawn _ _ := none
  event := Event

/-- The driver right after `virtio_disk_init`, with a device that has done nothing yet. -/
structure Fresh (C : Threads.Config diskSig Sys ℕ) : Prop where
  avail : C.shared.disk.avail.idx = 0
  free : ∀ i < NUM, C.shared.disk.free i = true
  usedIdx : C.shared.disk.usedIdx = 0
  used : C.shared.used.idx = 0
  dev : C.shared.dev = ⟨0, 0, [], none, false⟩
  blockno : ∀ b, C.shared.blockno b < MAXBLOCK
  lock : C.shared.lock = none
  asleep : ∀ t, C.shared.asleep t = none
  calls : ∀ b, C.shared.calls b = none
  failed : C.shared.failed = false
  broken : C.shared.broken = false
  idle : ∀ t, C.thread t = .ret ()

abbrev DiskReachable : Threads.Config diskSig Sys ℕ → Prop := diskThreads.Reachable Fresh

end Xv6Arm.Virtio

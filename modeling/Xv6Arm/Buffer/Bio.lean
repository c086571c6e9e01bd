import Xv6Arm.Lib.Links
import Xv6Arm.Lib.Threads
import Xv6Arm.Param

/-!
# The linked list of the buffer cache

`bio.c` with the links of its buffers, run by any number of processes at the same
time. A section under `bcache.lock` is one request. A process waits for the
sleep-lock of a buffer after it has counted its reference, and gives the sleep-lock
up before it takes the reference back, so other processes come in between.

What the buffers contain, and the disk, play no part here.
-/
namespace Xv6Arm.Bio
open Lib

/-- `struct buf` without its links and its data; `lock` is the process that holds the sleep-lock. -/
structure Buf where
  valid : Bool
  dev : ℕ
  blockno : ℕ
  lock : Option ℕ
  refcnt : ℕ

/-- `bcache.head`; it lies behind the array `bcache.buf`. -/
abbrev HEAD : ℕ := NBUF

/-- What has been done to a buffer. -/
inductive Event where
  /-- A miss in `bget` has given it a new device and block number. -/
  | assign (b : ℕ)
  | get (b : ℕ)
  | release (b : ℕ)
  | pin (b : ℕ)
  | unpin (b : ℕ)
  deriving DecidableEq

/-- `bcache`, and what has happened to its buffers, the latest event first. -/
structure Bcache where
  links : Links ℕ
  buf : ℕ → Buf
  hist : List Event

namespace Bcache

def setBuf (c : Bcache) (b : ℕ) (f : Buf → Buf) : Bcache :=
  { c with buf := Function.update c.buf b (f (c.buf b)) }

def note (c : Bcache) (e : Event) : Bcache := { c with hist := e :: c.hist }

/-- The body of the loop of `binit`. -/
def link (c : Bcache) (b : ℕ) : Bcache := { c with links := c.links.pushFront HEAD b }

def binit (c : Bcache) : Bcache :=
  let c := { c with links := (c.links.setPrev HEAD HEAD).setNext HEAD HEAD }
  (List.range NBUF).foldl link c

/-- The first loop of `bget`, from `head.next` on. -/
def search (c : Bcache) (dev blockno : ℕ) : Option (Option ℕ) :=
  Links.walk c.links.next HEAD (fun b => (c.buf b).dev == dev && (c.buf b).blockno == blockno) (NBUF + 1)
    (c.links.next HEAD)

/-- The second loop of `bget`, from `head.prev` on. -/
def searchUnused (c : Bcache) : Option (Option ℕ) :=
  Links.walk c.links.prev HEAD (fun b => (c.buf b).refcnt == 0) (NBUF + 1) (c.links.prev HEAD)

/-- `refcnt++` on an unsigned word. -/
def inc (n : ℕ) : ℕ := (n + 1) % 2 ^ 32

/-- `refcnt--` on an unsigned word. -/
def dec (n : ℕ) : ℕ := (n + (2 ^ 32 - 1)) % 2 ^ 32

/-- `bget` up to `release(&bcache.lock)`; it is blocked if one of the loops does not end. -/
def bget (c : Bcache) (dev blockno : ℕ) : Outcome ℕ Bcache :=
  match c.search dev blockno with
  | none => .blocked
  | some (some b) => .done b ((c.setBuf b fun x => { x with refcnt := inc x.refcnt }).note (.get b))
  | some none =>
    match c.searchUnused with
    | none => .blocked
    | some (some b) =>
      .done b (((c.setBuf b fun x =>
        { x with dev := dev, blockno := blockno, valid := false, refcnt := 1 }).note (.assign b)).note (.get b))
    | some none => .panic "bget: no buffers"

/-- `brelse` from `acquire(&bcache.lock)` on. -/
def brelse (c : Bcache) (b : ℕ) : Bcache :=
  let c := c.setBuf b fun x => { x with refcnt := dec x.refcnt }
  let c := if (c.buf b).refcnt = 0 then { c with links := (c.links.unlink b).pushFront HEAD b } else c
  c.note (.release b)

def bpin (c : Bcache) (b : ℕ) : Bcache := (c.setBuf b fun x => { x with refcnt := inc x.refcnt }).note (.pin b)

def bunpin (c : Bcache) (b : ℕ) : Bcache := (c.setBuf b fun x => { x with refcnt := dec x.refcnt }).note (.unpin b)

/-- How often an event has happened. -/
def times (c : Bcache) (e : Event) : ℕ := c.hist.count e

end Bcache

inductive Op where
  | bget (dev blockno : ℕ)
  | brelse (b : ℕ)
  | bpin (b : ℕ)
  | bunpin (b : ℕ)
  | acquiresleep (b : ℕ)
  | releasesleep (b : ℕ)
  | holdingsleep (b : ℕ)
  | valid (b : ℕ)
  | setValid (b : ℕ)
  /-- `virtio_disk_rw`. -/
  | diskRw (b : ℕ) (write : Bool)

abbrev Op.Res : Op → Type
  | .bget _ _ => ℕ
  | .holdingsleep _ => Bool
  | .valid _ => Bool
  | _ => Unit

abbrev bioSig : Signature := ⟨Op, Op.Res⟩
abbrev BM := Prog bioSig

def req (o : Op) : BM o.Res := .op (S := bioSig) o

def bget (dev blockno : ℕ) : BM ℕ := do
  let b ← req (.bget dev blockno)
  req (.acquiresleep b)
  pure b

def bread (dev blockno : ℕ) : BM ℕ := do
  let b ← bget dev blockno
  if ← req (.valid b) then pure b
  else
    req (.diskRw b false)
    req (.setValid b)
    pure b

def bwrite (b : ℕ) : BM Unit := do
  if ← req (.holdingsleep b) then req (.diskRw b true) else .panic "bwrite"

def brelse (b : ℕ) : BM Unit := do
  if ← req (.holdingsleep b) then
    req (.releasesleep b)
    req (.brelse b)
  else .panic "brelse"

def bpin (b : ℕ) : BM Unit := req (.bpin b)

def bunpin (b : ℕ) : BM Unit := req (.bunpin b)

/-- More pins than this are never outstanding on one buffer; the log has `LOGSIZE` at most. -/
abbrev PINMAX : ℕ := 2 ^ 31

/-- The effect of a request of process `t`. -/
def bioStep (t : ℕ) : Machine bioSig Bcache
  | .bget dev blockno, c => c.bget dev blockno
  | .brelse b, c => .done () (c.brelse b)
  | .bpin b, c => if c.times (.pin b) < c.times (.unpin b) + PINMAX then .done () (c.bpin b) else .blocked
  | .bunpin b, c => .done () (c.bunpin b)
  | .acquiresleep b, c =>
    if (c.buf b).lock = none then .done () (c.setBuf b fun x => { x with lock := some t }) else .blocked
  | .releasesleep b, c => .done () (c.setBuf b fun x => { x with lock := none })
  | .holdingsleep b, c => .done (decide ((c.buf b).lock = some t)) c
  | .valid b, c => .done (c.buf b).valid c
  | .setValid b, c => .done () (c.setBuf b fun x => { x with valid := true })
  | .diskRw _ _, c => .done () c

/-- The calls that the rest of the kernel makes: a buffer is written and released by the process that
holds it, and `bunpin` takes back an earlier `bpin` while the buffer is held. -/
inductive Use (t : ℕ) (c : Bcache) : BM Unit → Prop
  | bread (dev blockno : ℕ) : Use t c ((bread dev blockno).bind fun _ => .ret ())
  | bwrite {b : ℕ} (hb : b < NBUF) (hlock : (c.buf b).lock = some t) : Use t c (bwrite b)
  | brelse {b : ℕ} (hb : b < NBUF) (hlock : (c.buf b).lock = some t) : Use t c (brelse b)
  | bpin {b : ℕ} (hb : b < NBUF) : Use t c (bpin b)
  | bunpin {b : ℕ} (hb : b < NBUF) (hlock : (c.buf b).lock = some t)
      (hpin : c.times (.unpin b) < c.times (.pin b)) : Use t c (bunpin b)

/-- Every process of the table runs on, and starts a new call whenever it is done with one. -/
def bioThreads : Threads bioSig Bcache ℕ ℕ where
  step := bioStep
  active t _ := t
  spawn _ _ := none
  event t c p c' p' := t < NPROC ∧ p = .ret () ∧ c' = c ∧ Use t c p'

/-- The cache right after `binit`, which finds the buffers zeroed. -/
structure Fresh (C : Threads.Config bioSig Bcache ℕ) : Prop where
  links : ∃ L, C.shared = Bcache.binit ⟨L, fun _ => ⟨false, 0, 0, none, 0⟩, []⟩
  idle : ∀ t, C.thread t = .ret ()

abbrev BioReachable : Threads.Config bioSig Bcache ℕ → Prop := bioThreads.Reachable Fresh

end Xv6Arm.Bio

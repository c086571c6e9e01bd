import Xv6Arm.Lib.Prog
import Xv6Arm.Buffer.Cache

/-!
# Disk, buffer cache and log

The requests of `bio.c` and the lock-protected sections of `log.c`, and the
functions of `log.c` as programs over them. A held buffer is named by its block
number; a program keeps the bytes it read as a value and stores them back with
`bset`.
-/
namespace Xv6Arm
open Lib

/-- `struct log`; `lh` lists `lh.block[0]`, ..., `lh.block[lh.n - 1]`. -/
structure Log where
  start : ℕ
  size : ℕ
  outstanding : ℤ
  committing : Bool
  lh : List ℕ

structure IoState where
  disk : Disk
  bcache : List Buf
  log : Log

inductive IoOp where
  | bread (b : ℕ)
  | bset (b : ℕ) (d : Block)
  | bwrite (b : ℕ)
  | brelse (b : ℕ)
  | bunpin (b : ℕ)
  | beginOp
  | endOp
  | commitDone
  | logCheck
  | logAppend (b : ℕ)
  | logGet
  | lhSet (l : List ℕ)

abbrev IoOp.Res : IoOp → Type
  | .bread _ => Block
  | .endOp => Bool
  | .logGet => Log
  | _ => Unit

abbrev ioSig : Signature := ⟨IoOp, IoOp.Res⟩

/-! ## The sections of `log.c` under `Log.lock` -/

namespace Log

/-- One pass of the loop of `begin_op`; `none` when the caller has to sleep. -/
def beginOp (l : Log) : Option Log :=
  if l.committing then none
  else if (l.lh.length : ℤ) + (l.outstanding + 1) * MAXOPBLOCKS > LOGSIZE then none
  else some { l with outstanding := l.outstanding + 1 }

/-- The first section of `end_op`; the answer is `do_commit`. -/
def endOp (l : Log) : Outcome Bool Log :=
  if l.committing then .panic "log.committing"
  else if l.outstanding - 1 = 0 then
    .done true { l with outstanding := l.outstanding - 1, committing := true }
  else .done false { l with outstanding := l.outstanding - 1 }

/-- The tests `log_write` makes before it takes the lock. -/
def check (l : Log) : Outcome Unit Log :=
  if LOGSIZE ≤ l.lh.length ∨ (l.size : ℤ) - 1 ≤ l.lh.length then .panic "too big a transaction"
  else if l.outstanding < 1 then .panic "log_write outside of trans"
  else .done () l

/-- The section of `log_write`: a block already in the log is absorbed. -/
def append (b : ℕ) (l : Log) : Log := if b ∈ l.lh then l else { l with lh := l.lh ++ [b] }

def commitDone (l : Log) : Log := { l with committing := false }

end Log

/-! ## The machine -/

namespace IoState

/-- The bytes a reader of block `b` is given: those of its buffer if it has a valid one. -/
def view (s : IoState) (b : ℕ) : Block :=
  match Bcache.find b s.bcache with
  | some x => if x.valid then x.data else s.disk b
  | none => s.disk b

/-- `bread`: `bget`, the sleep-lock, and a disk read if the buffer is not valid. -/
def bread (me b : ℕ) (s : IoState) : Outcome Block IoState :=
  match Bcache.bget ROOTDEV b s.bcache with
  | none => .panic "bget: no buffers"
  | some c =>
    match Bcache.find b c with
    | none => .blocked
    | some x =>
      if x.lock = none then
        let d := if x.valid then x.data else s.disk b
        let c' := Bcache.update b (fun x => { x with lock := some me, valid := true, data := d }) c
        .done d { s with bcache := c' }
      else .blocked

/-- Run `f` on the buffer of block `b` that `me` holds, or panic as `bwrite` and `brelse` do. -/
def held (me b : ℕ) (msg : String) (s : IoState) (f : Buf → IoState) : Outcome Unit IoState :=
  match Bcache.find b s.bcache with
  | some x => if x.lock = some me then .done () (f x) else .panic msg
  | none => .panic msg

def bset (b : ℕ) (d : Block) (s : IoState) : IoState :=
  { s with bcache := Bcache.update b (fun x => { x with data := d }) s.bcache }

def bwrite (me b : ℕ) (s : IoState) : Outcome Unit IoState :=
  s.held me b "bwrite" fun x => { s with disk := Function.update s.disk b x.data }

def brelse (me b : ℕ) (s : IoState) : Outcome Unit IoState :=
  s.held me b "brelse" fun _ => { s with bcache := Bcache.brelse ROOTDEV b s.bcache }

def bpin (b : ℕ) (s : IoState) : IoState :=
  { s with bcache := Bcache.update b (fun x => { x with refcnt := x.refcnt + 1 }) s.bcache }

def bunpin (b : ℕ) (s : IoState) : IoState :=
  { s with bcache := Bcache.update b (fun x => { x with refcnt := x.refcnt - 1 }) s.bcache }

def logAppend (b : ℕ) (s : IoState) : IoState :=
  let s' := { s with log := s.log.append b }
  if b ∈ s.log.lh then s' else s'.bpin b

end IoState

/-- What each request does when process `me` issues it. -/
def ioStep (me : ℕ) : Machine ioSig IoState
  | .bread b, s => s.bread me b
  | .bset b d, s => .done () (s.bset b d)
  | .bwrite b, s => s.bwrite me b
  | .brelse b, s => s.brelse me b
  | .bunpin b, s => .done () (s.bunpin b)
  | .beginOp, s =>
    match s.log.beginOp with
    | some l => .done () { s with log := l }
    | none => .blocked
  | .endOp, s =>
    match s.log.endOp with
    | .done r l => .done r { s with log := l }
    | .blocked => .blocked
    | .panic msg => .panic msg
  | .commitDone, s => .done () { s with log := s.log.commitDone }
  | .logCheck, s =>
    match s.log.check with
    | .panic msg => .panic msg
    | _ => .done () s
  | .logAppend b, s => .done () (s.logAppend b)
  | .logGet, s => .done s.log s
  | .lhSet l, s => .done () { s with log := { s.log with lh := l } }

/-! ## Programs -/

abbrev IoM := Prog ioSig

def io (o : IoOp) : IoM o.Res := .op (S := ioSig) o

def bread (b : ℕ) : IoM Block := io (.bread b)
def bset (b : ℕ) (d : Block) : IoM Unit := io (.bset b d)
def bwrite (b : ℕ) : IoM Unit := io (.bwrite b)
def brelse (b : ℕ) : IoM Unit := io (.brelse b)
def bunpin (b : ℕ) : IoM Unit := io (.bunpin b)
def logGet : IoM Log := io .logGet
def lhSet (l : List ℕ) : IoM Unit := io (.lhSet l)

/-- The block numbers in a header block: `n` is an `int`, so a negative one lists nothing. -/
def getHeader (d : Block) : List ℕ :=
  if leGet d 0 4 < 2 ^ 31 then leGets d 4 4 (leGet d 0 4) else []

/-- Store `n` and `block[0..n)` into a header block, leaving the other bytes. -/
def putHeader (d : Block) (l : List ℕ) : Block := lePuts (lePut d 0 4 l.length) 4 4 l

/-- The loop of `install_trans` from entry `tail` on. -/
def installFrom (recovering : Bool) (start : ℕ) : ℕ → List ℕ → IoM Unit
  | _, [] => pure ()
  | tail, b :: l => do
    let lbuf ← bread (start + tail + 1)
    let _ ← bread b
    bset b lbuf
    bwrite b
    if recovering then pure () else bunpin b
    brelse (start + tail + 1)
    brelse b
    installFrom recovering start (tail + 1) l

def installTrans (recovering : Bool) : IoM Unit := do
  let l ← logGet
  installFrom recovering l.start 0 l.lh

def readHead : IoM Unit := do
  let l ← logGet
  let buf ← bread l.start
  lhSet (getHeader buf)
  brelse l.start

def writeHead : IoM Unit := do
  let l ← logGet
  let buf ← bread l.start
  bset l.start (putHeader buf l.lh)
  bwrite l.start
  brelse l.start

def recoverFromLog : IoM Unit := do
  readHead
  installTrans true
  lhSet []
  writeHead

/-- The loop of `write_log` from entry `tail` on. -/
def writeLogFrom (start : ℕ) : ℕ → List ℕ → IoM Unit
  | _, [] => pure ()
  | tail, b :: l => do
    let _ ← bread (start + tail + 1)
    let from_ ← bread b
    bset (start + tail + 1) from_
    bwrite (start + tail + 1)
    brelse b
    brelse (start + tail + 1)
    writeLogFrom start (tail + 1) l

def writeLog : IoM Unit := do
  let l ← logGet
  writeLogFrom l.start 0 l.lh

def commit : IoM Unit := do
  let l ← logGet
  if 0 < l.lh.length then
    writeLog
    writeHead
    installTrans false
    lhSet []
    writeHead
  else pure ()

def beginOp : IoM Unit := io .beginOp

def endOp : IoM Unit := do
  let doCommit : Bool ← io .endOp
  if doCommit then
    commit
    io .commitDone
  else pure ()

def logWrite (b : ℕ) : IoM Unit := do
  io .logCheck
  io (.logAppend b)

end Xv6Arm

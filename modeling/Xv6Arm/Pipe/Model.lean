import Xv6Arm.Kernel.State
import Xv6Arm.Lib.Threads

/-!
# Processes at the two ends of one pipe

`pipe.c` as programs that any number of processes run at the same time on one
`struct pipe`, with the parts of `proc.c` they use. A process that goes to sleep
keeps its own `p->lock` from before it gives up `pi->lock` until the scheduler has
left it, so `sleep` is several requests. A section of another process that holds
`p->lock` only to look at `p` and change it is one request.

A fault of `copyin` or `copyout`, and the bytes that a writer has in its memory, are
arguments of the call.
-/
namespace Xv6Arm.Pipes
open Lib

/-- The two addresses that a process sleeps on in `pipe.c`. -/
inductive Chan where
  | nread
  | nwrite
  deriving DecidableEq

/-- What `sleep`, `wakeup` and `kill` use of a `struct proc`. -/
structure PProc where
  pid : ℤ
  state : ProcState
  chan : Option Chan
  killed : Bool
  /-- The process holds its own `p->lock` on its way to sleep. -/
  locked : Bool

/-- The pipe, the process table, and what happened so far. -/
structure PipeSys where
  pipe : Pipe
  procs : ℕ → PProc
  /-- The bytes put into the ring and taken out of it since the pipe was made. -/
  written : List UInt8
  taken : List UInt8
  /-- A process has put bytes into the ring, or closed the write end, and has not called
  `wakeup(&pi->nread)` since. -/
  owing : ℕ → Bool
  /-- A call of `pipewrite` has returned from inside its loop with a wakeup owing. -/
  abandoned : Bool

inductive Op where
  | acquire
  | release
  | get
  | put (c : UInt8)
  | take
  | close (writable : Bool)
  /-- Read `pr->killed`. -/
  | killed
  /-- `acquire(&p->lock)` of the own lock at the start of `sleep`. -/
  | lockSelf
  /-- Set `p->chan` and `p->state`, and leave the processor to the scheduler, which releases `p->lock`. -/
  | doze (ch : Chan)
  /-- Wait for the scheduler; then clear `p->chan` and release `p->lock`. -/
  | resume
  /-- The body of the loop of `wakeup`. -/
  | wakeOne (ch : Chan) (q : ℕ)
  /-- The body of the loop of `kill`; `true` if the process was found. -/
  | killOne (pid : ℤ) (q : ℕ)
  /-- A loop of the source that has not ended yet. -/
  | hang
  /-- A call of `wakeup` begins or returns; nothing happens. -/
  | wakeupCall (ch : Chan)
  | wakeupRet (ch : Chan)
  /-- `pipewrite` is about to return from inside its loop; nothing happens. -/
  | giveUp

abbrev Op.Res : Op → Type
  | .get => Pipe
  | .take => UInt8
  | .killed => Bool
  | .killOne _ _ => Bool
  | _ => Unit

abbrev pipeSig : Signature := ⟨Op, Op.Res⟩
abbrev PM := Prog pipeSig

def req (o : Op) : PM o.Res := .op (S := pipeSig) o

/-! ## The code -/

/-- `sleep(chan, &pi->lock)`. -/
def sleep (ch : Chan) : PM Unit := do
  req .lockSelf
  req .release
  req (.doze ch)
  req .resume
  req .acquire

def wakeup (ch : Chan) : PM Unit := do
  req (.wakeupCall ch)
  Prog.each (fun q => req (.wakeOne ch q)) (List.range NPROC)
  req (.wakeupRet ch)

/-- The loop of `kill` over the slots that are left. -/
def killFrom (pid : ℤ) : List ℕ → PM ℤ
  | [] => pure (-1)
  | q :: l => do
    if ← req (.killOne pid q) then pure 0 else killFrom pid l

def kill (pid : ℤ) : PM ℤ := killFrom pid (List.range NPROC)

/-- The `return -1` inside the loop of `pipewrite`. -/
def leave : PM Bool := do
  req .giveUp
  req .release
  pure false

/-- The `while` loop of `pipewrite`; `false` if the call has returned from there. -/
def waitRoom : ℕ → PM Bool
  | 0 => do
    req .hang
    pure false
  | fuel + 1 => do
    let x ← req .get
    if x.full then
      if !x.readopen then leave
      else if ← req .killed then leave
      else
        wakeup .nread
        sleep .nwrite
        waitRoom fuel
    else pure true

/-- What `pipewrite` does after its loop. -/
def writeDone (i : ℕ) : PM ℤ := do
  wakeup .nread
  req .release
  pure i

/-- The loop of `pipewrite` with `n` bytes to go; `src i` is what `copyin` gets for byte `i`. -/
def pipewriteFrom (fuel : ℕ) (src : ℕ → Option UInt8) : ℕ → ℕ → PM ℤ
  | 0, i => writeDone i
  | n + 1, i => do
    if ← waitRoom fuel then
      match src i with
      | none => writeDone i
      | some ch => do
        req (.put ch)
        pipewriteFrom fuel src n (i + 1)
    else pure (-1)

def pipewrite (fuel : ℕ) (src : ℕ → Option UInt8) (n : ℤ) : PM ℤ := do
  req .acquire
  pipewriteFrom fuel src n.toNat 0

/-- The `while` loop of `piperead`; `false` if the call has returned from there. -/
def waitData : ℕ → PM Bool
  | 0 => do
    req .hang
    pure false
  | fuel + 1 => do
    let x ← req .get
    if x.nread == x.nwrite && x.writeopen then
      if ← req .killed then
        req .release
        pure false
      else
        sleep .nread
        waitData fuel
    else pure true

/-- What `piperead` does after its loop. -/
def readDone (i : ℕ) : PM ℤ := do
  wakeup .nwrite
  req .release
  pure i

/-- The `for` loop of `piperead` with `n` bytes to go; `dst i` says whether `copyout` of byte `i` succeeds. -/
def pipereadFrom (dst : ℕ → Bool) : ℕ → ℕ → PM ℤ
  | 0, i => readDone i
  | n + 1, i => do
    let x ← req .get
    if x.nread == x.nwrite then readDone i
    else
      let _ ← req .take
      if dst i then pipereadFrom dst n (i + 1) else readDone i

def piperead (fuel : ℕ) (dst : ℕ → Bool) (n : ℤ) : PM ℤ := do
  req .acquire
  if ← waitData fuel then pipereadFrom dst n.toNat 0 else pure (-1)

/-- The page is freed after the last `release` if both ends are closed; nobody refers to it then. -/
def pipeclose (writable : Bool) : PM Unit := do
  req .acquire
  req (.close writable)
  if writable then wakeup .nread else wakeup .nwrite
  req .release

/-! ## The machine -/

/-- `pi->data[pi->nwrite++ % PIPESIZE] = ch`. -/
def put (x : Pipe) (ch : UInt8) : Pipe :=
  { x with data := Function.update x.data (x.nwrite % PIPESIZE) ch, nwrite := (x.nwrite + 1) % 2 ^ 32 }

/-- `pi->data[pi->nread++ % PIPESIZE]`: the byte, and the pipe without it. -/
def take (x : Pipe) : UInt8 × Pipe :=
  (x.data (x.nread % PIPESIZE), { x with nread := (x.nread + 1) % 2 ^ 32 })

def closeEnd (x : Pipe) (writable : Bool) : Pipe :=
  if writable then { x with writeopen := false } else { x with readopen := false }

namespace PipeSys

def setProc (s : PipeSys) (q : ℕ) (f : PProc → PProc) : PipeSys :=
  { s with procs := Function.update s.procs q (f (s.procs q)) }

def setOwing (s : PipeSys) (t : ℕ) (b : Bool) : PipeSys := { s with owing := Function.update s.owing t b }

end PipeSys

/-- A sleeper becomes `RUNNABLE`. -/
def PProc.wake (x : PProc) : PProc := { x with state := .runnable }

/-- The effect of a request of process `t`. -/
def pipeStep (t : ℕ) : Machine pipeSig PipeSys
  | .acquire, s => if s.pipe.lock = none then .done () { s with pipe.lock := some t } else .blocked
  | .release, s => .done () { s with pipe.lock := none }
  | .get, s => .done s.pipe s
  | .put c, s => .done () ({ s with pipe := put s.pipe c, written := s.written ++ [c] }.setOwing t true)
  | .take, s => .done (take s.pipe).1 { s with pipe := (take s.pipe).2, taken := s.taken ++ [(take s.pipe).1] }
  | .close writable, s =>
    .done () ({ s with pipe := closeEnd s.pipe writable }.setOwing t (s.owing t || writable))
  | .killed, s => .done (s.procs t).killed s
  | .lockSelf, s => .done () (s.setProc t fun x => { x with locked := true })
  | .doze ch, s => .done () (s.setProc t fun x =>
      { x with chan := some ch, state := .sleeping, locked := false })
  | .resume, s =>
    if (s.procs t).state = .runnable then
      .done () (s.setProc t fun x => { x with state := .running, chan := none })
    else .blocked
  | .wakeOne ch q, s =>
    if (s.procs q).locked then .blocked
    else if (s.procs q).state = .sleeping ∧ (s.procs q).chan = some ch then .done () (s.setProc q PProc.wake)
    else .done () s
  | .killOne pid q, s =>
    if (s.procs q).locked then .blocked
    else if (s.procs q).pid = pid then
      .done true (s.setProc q fun x => if x.state = .sleeping then { x with killed := true }.wake
        else { x with killed := true })
    else .done false s
  | .hang, _ => .blocked
  | .wakeupCall _, s => .done () s
  | .wakeupRet ch, s => .done () (if ch = .nread then s.setOwing t false else s)
  | .giveUp, s => .done () ({ s with abandoned := s.abandoned || s.owing t }.setOwing t false)

/-- A call that a process of the table may make. The unbounded loops are cut off after any number of rounds. -/
inductive Call : PM Unit → Prop
  | write (fuel : ℕ) (src : ℕ → Option UInt8) (n : ℤ) : Call ((pipewrite fuel src n).bind fun _ => .ret ())
  | read (fuel : ℕ) (dst : ℕ → Bool) (n : ℤ) : Call ((piperead fuel dst n).bind fun _ => .ret ())
  | close (writable : Bool) : Call (pipeclose writable)
  | kill (pid : ℤ) : Call ((kill pid).bind fun _ => .ret ())

/-- Every process of the table runs on, and starts a new call whenever it is done with one. -/
def pipeThreads : Threads pipeSig PipeSys ℕ ℕ where
  step := pipeStep
  active c _ := c
  spawn _ _ := none
  event c s p s' p' := c < NPROC ∧ p = .ret () ∧ s' = s ∧ Call p'

/-- A pipe as `pipealloc` leaves it, and processes that do not sleep on it. -/
structure Fresh (C : Threads.Config pipeSig PipeSys ℕ) : Prop where
  lock : C.shared.pipe.lock = none
  nread : C.shared.pipe.nread = 0
  nwrite : C.shared.pipe.nwrite = 0
  readopen : C.shared.pipe.readopen = true
  writeopen : C.shared.pipe.writeopen = true
  written : C.shared.written = []
  taken : C.shared.taken = []
  owing : ∀ t, C.shared.owing t = false
  abandoned : C.shared.abandoned = false
  running : ∀ q, (C.shared.procs q).state ≠ .sleeping ∧ (C.shared.procs q).locked = false
  idle : ∀ t, C.thread t = .ret ()

abbrev PipeReachable : Threads.Config pipeSig PipeSys ℕ → Prop := pipeThreads.Reachable Fresh

end Xv6Arm.Pipes

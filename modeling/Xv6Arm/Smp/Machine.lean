import Xv6Arm.Lib.Threads
import Xv6Arm.Param

/-!
# Processors, spinlocks and the process table

The data that `proc.c`, `spinlock.c` and `trap.c` work on, for any number of
processors. Every access to shared data is a request of its own. A kernel thread
belongs to a process slot or is the scheduler of one processor; `swtch` changes
which of them a processor executes. One request stands for more than an access:
`freeproc` clears a slot. `smpStep` does it at once, for the sake of the proofs;
the processors of the kernel take `storeStep`, where the request is the call and
the assignments follow one by one.

The state carries a history that no code reads. It says in plain terms what has
happened so far: which `exit` each `wait` reported, which calls of `sleep` a call
of `wakeup` had to end, and which system call is in progress.
-/
namespace Xv6Arm.Smp
open Lib

abbrev Slot := Fin NPROC

abbrev Fd := Fin NOFILE

/-- A spinlock: `p->lock`, `pid_lock`, or one of another part of the kernel. -/
inductive Lock where
  | proc (p : Slot)
  | pid
  | obj (a : ℕ)
  deriving DecidableEq

/-- What a process sleeps on: a process, in `wait`, or some other object. -/
inductive Chan where
  | proc (p : Slot)
  | obj (a : ℕ)
  deriving DecidableEq

inductive ProcState where
  | unused | sleeping | runnable | running | zombie
  deriving DecidableEq

/-- Whose stack a processor is on. -/
inductive Thread where
  | scheduler (c : ℕ)
  | proc (p : Slot)
  deriving DecidableEq

structure Proc where
  state : ProcState
  parent : Option Slot
  chan : Option Chan
  killed : Bool
  xstate : ℤ
  pid : ℤ
  sz : ℕ
  pagetable : ℕ
  trapframe : ℕ
  ofile : Fd → ℕ
  cwd : ℕ

/-- `struct cpu`, whether IRQs are enabled, and the thread that executes. -/
structure Cpu where
  proc : Option Slot
  noff : ℕ
  intena : Bool
  irq : Bool
  exec : Thread

/-! ## The history -/

/-- A call of `sleep`, and whether it has given up `lk` yet. -/
structure Nap where
  chan : Chan
  lk : Lock
  released : Bool
  deriving DecidableEq

/-- What a call of `wait` returned: the exit it took, if any, the pid, and the status it stored. -/
structure Report where
  exit : Option ℕ
  addr : ℕ
  pid : ℤ
  status : Option ℤ

structure History where
  /-- Pid and status of every process that has become a zombie, in that order. -/
  exits : List (ℤ × ℤ)
  /-- The argument of a slot's latest call of `exit`. -/
  exiting : Slot → ℤ
  /-- The number in `exits` of the exit that a zombie comes from. -/
  zombie : Slot → ℕ
  /-- Whether a process is in `wait`, and the exit that this call has taken. -/
  waiting : Slot → Option (Option ℕ)
  reports : List Report
  /-- The argument of each call of `kill` that returned 0, and the slot it found. -/
  kills : List (ℤ × Proc)
  nap : Slot → Option Nap
  /-- The processes whose current call of `sleep` had given up its lock when the thread took it. -/
  seen : Thread → Slot → Bool
  /-- The calls of `wakeup` a thread is in, each with the processes it has to wake. -/
  waking : Thread → List (Chan × (Slot → Bool))
  /-- Such a call has returned since the process called `sleep`. -/
  woken : Slot → Bool
  /-- The trap frame of the system call a process is in. -/
  window : Slot → Option ℕ
  /-- The slots that have a kernel thread. -/
  thread : Slot → Bool

/-- The points of the code that the history records. -/
inductive Event where
  | sleepCall (chan : Chan) (lk : Lock)
  | sleepRet
  | wakeupCall (chan : Chan)
  | wakeupRet
  | exitCall (status : ℤ)
  | waitCall
  | waitRet (addr : ℕ) (pid : ℤ) (status : Option ℤ)
  | killHit (pid : ℤ) (p : Slot)
  | sysEnter (tf : ℕ)
  | sysLeave

namespace History

def acquired (h : History) (t : Thread) (l : Lock) : History :=
  { h with seen := Function.update h.seen t fun p =>
      h.seen t p || match h.nap p with
        | some n => n.released && n.lk = l
        | none => false }

/-- A call of `sleep` gives up its lock itself, or, if it is `p->lock`, through the scheduler. -/
def released (h : History) (t : Thread) (l : Lock) : History :=
  { h with nap := fun p => (h.nap p).map fun n =>
      if n.lk = l ∧ (t = .proc p ∨ l = .proc p) then { n with released := true } else n }

/-- A new call of `sleep` makes `p` a process that nobody has to wake yet. -/
def sleepCall (h : History) (p : Slot) (chan : Chan) (lk : Lock) : History :=
  { h with
    nap := Function.update h.nap p (some ⟨chan, lk, false⟩)
    seen := fun t => Function.update (h.seen t) p false
    waking := fun t => (h.waking t).map fun w => (w.1, Function.update w.2 p false)
    woken := Function.update h.woken p false }

def wakeupCall (h : History) (t : Thread) (chan : Chan) : History :=
  { h with waking := Function.update h.waking t ((chan, fun p => h.seen t p && match h.nap p with
      | some n => n.chan = chan
      | none => false) :: h.waking t) }

def wakeupRet (h : History) (t : Thread) : History :=
  match h.waking t with
  | [] => h
  | w :: l => { h with waking := Function.update h.waking t l, woken := fun p => h.woken p || w.2 p }

def waitRet (h : History) (p : Slot) (addr : ℕ) (pid : ℤ) (status : Option ℤ) : History :=
  { h with
    reports := ⟨(h.waiting p).getD none, addr, pid, status⟩ :: h.reports
    waiting := Function.update h.waiting p none }

/-- `p` with `pid` becomes a zombie. -/
def died (h : History) (p : Slot) (pid : ℤ) : History :=
  { h with exits := h.exits ++ [(pid, h.exiting p)], zombie := Function.update h.zombie p h.exits.length }

/-- The thread of `p` is gone. -/
def freed (h : History) (p : Slot) : History :=
  { h with window := Function.update h.window p none, thread := Function.update h.thread p false }

/-- The zombie `p` is freed by the process `q`. -/
def reaped (h : History) (q p : Slot) : History :=
  { h.freed p with waiting := Function.update h.waiting q (some (some (h.zombie p))) }

/-- A new thread in slot `p`. -/
def reset (h : History) (p : Slot) : History :=
  { h with
    waiting := Function.update h.waiting p none
    nap := Function.update h.nap p none
    seen := fun t => if t = .proc p then fun _ => false else Function.update (h.seen t) p false
    waking := fun t => if t = .proc p then [] else
      (h.waking t).map fun w => (w.1, Function.update w.2 p false)
    woken := Function.update h.woken p false
    window := Function.update h.window p none
    thread := Function.update h.thread p true }

end History

/-! ## The state and the requests -/

structure Sys where
  lock : Lock → Option ℕ
  proc : Slot → Proc
  cpu : ℕ → Cpu
  nextpid : ℤ
  initproc : Slot
  hist : History

/-- An assignment to a field of `struct proc`. -/
inductive Field where
  | state (st : ProcState)
  | parent (q : Option Slot)
  | chan (ch : Option Chan)
  | killed (b : Bool)
  | xstate (x : ℤ)
  | pid (n : ℤ)
  | sz (n : ℕ)
  | pagetable (n : ℕ)
  | trapframe (n : ℕ)
  | ofile (fd : Fd) (f : ℕ)
  | cwd (n : ℕ)

def Field.apply : Field → Proc → Proc
  | .state st, r => { r with state := st }
  | .parent q, r => { r with parent := q }
  | .chan ch, r => { r with chan := ch }
  | .killed b, r => { r with killed := b }
  | .xstate x, r => { r with xstate := x }
  | .pid n, r => { r with pid := n }
  | .sz n, r => { r with sz := n }
  | .pagetable n, r => { r with pagetable := n }
  | .trapframe n, r => { r with trapframe := n }
  | .ofile fd f, r => { r with ofile := Function.update r.ofile fd f }
  | .cwd n, r => { r with cwd := n }

inductive SmpOp where
  | acquire (l : Lock)
  | release (l : Lock)
  | holding (l : Lock)
  | myproc
  | getNoff
  | intrGet
  | sti
  | eret
  | getIntena
  | setIntena (b : Bool)
  | setCpuProc (p : Option Slot)
  | swtchTo (p : Slot)
  | swtchBack
  | get (p : Slot)
  | getParent (p : Slot)
  | getOfile (p : Slot) (fd : Fd)
  | put (p : Slot) (f : Field)
  | freeproc (p : Slot)
  | resetContext (p : Slot)
  | getNextpid
  | setNextpid (n : ℤ)
  | getInitproc
  | note (e : Event)
  | hang

abbrev SmpOp.Res : SmpOp → Type
  | .holding _ | .intrGet | .getIntena => Bool
  | .myproc => Option Slot
  | .getNoff | .getOfile _ _ => ℕ
  | .get _ => Proc
  | .getParent _ => Option Slot
  | .getNextpid => ℤ
  | .getInitproc => Slot
  | _ => Unit

abbrev smpSig : Signature := ⟨SmpOp, SmpOp.Res⟩

def Cpu.pushOff (u : Cpu) : Cpu :=
  { u with irq := false, intena := if u.noff = 0 then u.irq else u.intena, noff := u.noff + 1 }

def Cpu.popOff (u : Cpu) : Except String Cpu :=
  if u.irq then .error "pop_off - interruptible"
  else if u.noff < 1 then .error "pop_off"
  else .ok { u with noff := u.noff - 1, irq := decide (u.noff - 1 = 0) && u.intena }

/-- The assignments of `freeproc`, in order. `exit` has let go of the open files and the directory. -/
def freeStores : List Field :=
  [.trapframe 0, .pagetable 0, .sz 0, .pid 0, .parent none, .chan none, .killed false, .xstate 0, .state .unused]

/-- What they leave in a slot. -/
def Proc.freed (r : Proc) : Proc :=
  { r with trapframe := 0, pagetable := 0, sz := 0, pid := 0, parent := none, chan := none, killed := false,
           xstate := 0, state := .unused }

namespace Sys
variable (s : Sys) (c : ℕ)

def setCpu (u : Cpu) : Sys := { s with cpu := Function.update s.cpu c u }

def setProc (p : Slot) (r : Proc) : Sys := { s with proc := Function.update s.proc p r }

/-- The processor takes a trap: IRQs are masked. -/
def mask : Sys := s.setCpu c { s.cpu c with irq := false }

def acquire (l : Lock) : Outcome Unit Sys :=
  match s.lock l with
  | some c' => if c' = c then .panic "acquire" else .blocked
  | none => .done () { s with
      lock := Function.update s.lock l (some c)
      cpu := Function.update s.cpu c (s.cpu c).pushOff
      hist := s.hist.acquired (s.cpu c).exec l }

def release (l : Lock) : Outcome Unit Sys :=
  if s.lock l ≠ some c then .panic "release"
  else
    match (s.cpu c).popOff with
    | .error msg => .panic msg
    | .ok u => .done () { s with
        lock := Function.update s.lock l none
        cpu := Function.update s.cpu c u
        hist := s.hist.released (s.cpu c).exec l }

def myproc : Outcome (Option Slot) Sys :=
  match (s.cpu c).pushOff.popOff with
  | .error msg => .panic msg
  | .ok u => .done (s.cpu c).proc (s.setCpu c u)

def put (p : Slot) (f : Field) : Sys :=
  let s' := s.setProc p (f.apply (s.proc p))
  match f with
  | .state .zombie => { s' with hist := s.hist.died p (s.proc p).pid }
  | _ => s'

/-- `freeproc` at once. The history keeps a freed zombie in the name of the process that executes on the
processor. -/
def freeproc (p : Slot) : Sys :=
  let s' := s.setProc p (s.proc p).freed
  match (s.cpu c).exec, (s.proc p).state with
  | .proc q, .zombie => { s' with hist := s.hist.reaped q p }
  | _, _ => { s' with hist := s.hist.freed p }

def note (e : Event) : Sys :=
  match (s.cpu c).exec, e with
  | .proc p, .sleepCall chan lk => { s with hist := s.hist.sleepCall p chan lk }
  | .proc p, .sleepRet => { s with hist := { s.hist with nap := Function.update s.hist.nap p none } }
  | t, .wakeupCall chan => { s with hist := s.hist.wakeupCall t chan }
  | t, .wakeupRet => { s with hist := s.hist.wakeupRet t }
  | .proc p, .exitCall status =>
    { s with hist := { s.hist with exiting := Function.update s.hist.exiting p status } }
  | .proc p, .waitCall => { s with hist := { s.hist with waiting := Function.update s.hist.waiting p (some none) } }
  | .proc p, .waitRet addr pid status => { s with hist := s.hist.waitRet p addr pid status }
  | _, .killHit pid p => { s with hist := { s.hist with kills := (pid, s.proc p) :: s.hist.kills } }
  | .proc p, .sysEnter tf =>
    { s with hist := { s.hist with window := Function.update s.hist.window p (some tf) } }
  | .proc p, .sysLeave => { s with hist := { s.hist with window := Function.update s.hist.window p none } }
  | _, _ => s

end Sys

def smpStep (c : ℕ) : Machine smpSig Sys
  | .acquire l, s => s.acquire c l
  | .release l, s => s.release c l
  | .holding l, s => .done (decide (s.lock l = some c)) s
  | .myproc, s => s.myproc c
  | .getNoff, s => .done (s.cpu c).noff s
  | .intrGet, s => .done (s.cpu c).irq s
  | .sti, s => .done () (s.setCpu c { s.cpu c with irq := true })
  | .eret, s => .done () (s.setCpu c { s.cpu c with irq := true })
  | .getIntena, s => .done (s.cpu c).intena s
  | .setIntena b, s => .done () (s.setCpu c { s.cpu c with intena := b })
  | .setCpuProc p, s => .done () (s.setCpu c { s.cpu c with proc := p })
  | .swtchTo p, s => .done () (s.setCpu c { s.cpu c with exec := .proc p })
  | .swtchBack, s => .done () (s.setCpu c { s.cpu c with exec := .scheduler c })
  | .get p, s => .done (s.proc p) s
  | .getParent p, s => .done (s.proc p).parent s
  | .getOfile p fd, s => .done ((s.proc p).ofile fd) s
  | .put p f, s => .done () (s.put p f)
  | .freeproc p, s => .done () (s.freeproc c p)
  | .resetContext p, s => .done () { s with hist := s.hist.reset p }
  | .getNextpid, s => .done s.nextpid s
  | .setNextpid n, s => .done () { s with nextpid := n }
  | .getInitproc, s => .done s.initproc s
  | .note e, s => .done () (s.note c e)
  | .hang, _ => .blocked

/-- The same with `freeproc` as a call that only the history records. -/
def storeStep (c : ℕ) : Machine smpSig Sys
  | .freeproc p, s => .done () { s with hist := (s.freeproc c p).hist }
  | o, s => smpStep c o s

abbrev SmpM := Prog smpSig

def acquire (l : Lock) : SmpM Unit := .op (S := smpSig) (.acquire l)
def release (l : Lock) : SmpM Unit := .op (S := smpSig) (.release l)
def holding (l : Lock) : SmpM Bool := .op (S := smpSig) (.holding l)
def myproc : SmpM (Option Slot) := .op (S := smpSig) .myproc
def getNoff : SmpM ℕ := .op (S := smpSig) .getNoff
def intrGet : SmpM Bool := .op (S := smpSig) .intrGet
def sti : SmpM Unit := .op (S := smpSig) .sti
def eret : SmpM Unit := .op (S := smpSig) .eret
def getIntena : SmpM Bool := .op (S := smpSig) .getIntena
def setIntena (b : Bool) : SmpM Unit := .op (S := smpSig) (.setIntena b)
def setCpuProc (p : Option Slot) : SmpM Unit := .op (S := smpSig) (.setCpuProc p)
def swtchTo (p : Slot) : SmpM Unit := .op (S := smpSig) (.swtchTo p)
def swtchBack : SmpM Unit := .op (S := smpSig) .swtchBack
def get (p : Slot) : SmpM Proc := .op (S := smpSig) (.get p)
def getParent (p : Slot) : SmpM (Option Slot) := .op (S := smpSig) (.getParent p)
def getOfile (p : Slot) (fd : Fd) : SmpM ℕ := .op (S := smpSig) (.getOfile p fd)
def put (p : Slot) (f : Field) : SmpM Unit := .op (S := smpSig) (.put p f)
def freeproc (p : Slot) : SmpM Unit := .op (S := smpSig) (.freeproc p)
def resetContext (p : Slot) : SmpM Unit := .op (S := smpSig) (.resetContext p)
def getNextpid : SmpM ℤ := .op (S := smpSig) .getNextpid
def setNextpid (n : ℤ) : SmpM Unit := .op (S := smpSig) (.setNextpid n)
def getInitproc : SmpM Slot := .op (S := smpSig) .getInitproc
def note (e : Event) : SmpM Unit := .op (S := smpSig) (.note e)
def hang : SmpM Unit := .op (S := smpSig) .hang

end Xv6Arm.Smp

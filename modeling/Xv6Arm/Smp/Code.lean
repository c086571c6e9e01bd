import Xv6Arm.Smp.Machine

/-!
# `proc.c` and `trap.c` as programs

What the code gets from the rest of the kernel is an argument: whether memory
could be allocated or copied, and the calls of `acquire`, `release`, `sleep` and
`wakeup` that other functions make on the way. A system call is any sequence of
such calls and of the calls of `proc.c`. The locks that `kalloc`, `kfree`,
`filedup` and `idup` take and give back while `fork` or `wait` holds `p->lock`
are left out; interrupts are masked all that time.
-/
namespace Xv6Arm.Smp
open Lib

/-- `myproc()` where the code goes on to use the process. -/
def curproc : SmpM Slot := do
  match ← myproc with
  | none => .panic "no process"
  | some p => pure p

def sched : SmpM Unit := do
  let p ← curproc
  if !(← holding (.proc p)) then .panic "sched p->lock"
  else if (← getNoff) ≠ 1 then .panic "sched locks"
  else if (← get p).state = .running then .panic "sched running"
  else if ← intrGet then .panic "sched interruptible"
  else do
    let intena ← getIntena
    swtchBack
    setIntena intena

def yield : SmpM Unit := do
  let p ← curproc
  acquire (.proc p)
  put p (.state .runnable)
  sched
  release (.proc p)

def sleep (chan : Chan) (lk : Lock) : SmpM Unit := do
  let p ← curproc
  if lk ≠ .proc p then
    acquire (.proc p)
    note (.sleepCall chan lk)
    release lk
  else note (.sleepCall chan lk)
  put p (.chan (some chan))
  put p (.state .sleeping)
  sched
  put p (.chan none)
  note .sleepRet
  if lk ≠ .proc p then
    release (.proc p)
    acquire lk
  else pure ()

/-- The body of the loop of `wakeup`. -/
def wakeupOne (chan : Chan) (p : Slot) : SmpM Unit := do
  acquire (.proc p)
  let r ← get p
  if r.state = .sleeping ∧ r.chan = some chan then put p (.state .runnable) else pure ()
  release (.proc p)

def wakeup (chan : Chan) : SmpM Unit := do
  note (.wakeupCall chan)
  Prog.each (wakeupOne chan) (List.finRange NPROC)
  note .wakeupRet

/-- Wake up `p` if it is sleeping in `wait()`. -/
def wakeup1 (p : Slot) : SmpM Unit := do
  note (.wakeupCall (.proc p))
  if !(← holding (.proc p)) then .panic "wakeup1"
  else do
    let r ← get p
    if r.chan = some (.proc p) ∧ r.state = .sleeping then put p (.state .runnable) else pure ()
    note .wakeupRet

/-- The loop of `kill`. -/
def killFrom (pid : ℤ) : List Slot → SmpM ℤ
  | [] => pure (-1)
  | p :: l => do
    acquire (.proc p)
    if (← get p).pid = pid then
      put p (.killed true)
      note (.killHit pid p)
      if (← get p).state = .sleeping then put p (.state .runnable) else pure ()
      release (.proc p)
      pure 0
    else do
      release (.proc p)
      killFrom pid l

def kill (pid : ℤ) : SmpM ℤ := killFrom pid (List.finRange NPROC)

/-- `n + 1` as an `int`. -/
def intSucc (n : ℤ) : ℤ := (n + 1 + 2 ^ 31) % 2 ^ 32 - 2 ^ 31

def allocpid : SmpM ℤ := do
  acquire .pid
  let pid ← getNextpid
  setNextpid (intSucc pid)
  release .pid
  pure pid

/-- The trap frame at the top of the kernel stack of `p`. -/
def topFrame (p : Slot) : ℕ := p + 1

/-- `allocproc` after the label `found`; `pt` is what `proc_pagetable` returns. -/
def allocprocFound (pt : ℕ) (p : Slot) : SmpM (Option Slot) := do
  put p (.pid (← allocpid))
  put p (.trapframe (topFrame p))
  put p (.pagetable pt)
  if pt = 0 then
    freeproc p
    release (.proc p)
    pure none
  else do
    resetContext p
    pure (some p)

def allocprocFrom (pt : ℕ) : List Slot → SmpM (Option Slot)
  | [] => pure none
  | p :: l => do
    acquire (.proc p)
    if (← get p).state = .unused then allocprocFound pt p
    else do
      release (.proc p)
      allocprocFrom pt l

def allocproc (pt : ℕ) : SmpM (Option Slot) := allocprocFrom pt (List.finRange NPROC)

/-- The body of the loop of `fork` over the open files. -/
def dupOfile (p np : Slot) (i : Fd) : SmpM Unit := do
  let f ← getOfile p i
  if f ≠ 0 then put np (.ofile i f) else pure ()

/-- `fork`; `copied` is whether `uvmcopy` returns a value that is not negative. -/
def fork (pt : ℕ) (copied : Bool) : SmpM ℤ := do
  let p ← curproc
  match ← allocproc pt with
  | none => pure (-1)
  | some np =>
    if !copied then
      freeproc np
      release (.proc np)
      pure (-1)
    else do
      put np (.sz (← get p).sz)
      put np (.parent (some p))
      Prog.each (dupOfile p np) (List.finRange NOFILE)
      put np (.cwd (← get p).cwd)
      let pid := (← get np).pid
      put np (.state .runnable)
      release (.proc np)
      pure pid

/-- The body of the loop of `reparent`. -/
def reparentOne (p ip pp : Slot) : SmpM Unit := do
  if (← getParent pp) = some p then
    acquire (.proc pp)
    put pp (.parent (some ip))
    release (.proc pp)
  else pure ()

def reparent (p ip : Slot) : SmpM Unit := Prog.each (reparentOne p ip) (List.finRange NPROC)

/-- Calls that other parts of the kernel make. -/
inductive Call where
  | acquire (a : ℕ)
  | release (a : ℕ)
  | sleep (chan lk : ℕ)
  | wakeup (chan : ℕ)

def Call.run : Call → SmpM Unit
  | .acquire a => Smp.acquire (.obj a)
  | .release a => Smp.release (.obj a)
  | .sleep chan lk => Smp.sleep (.obj chan) (.obj lk)
  | .wakeup chan => Smp.wakeup (.obj chan)

/-- The locks held after a call that returns, if `S` are held before. -/
def Call.leaves : Call → Finset ℕ → Finset ℕ
  | .acquire a, S => insert a S
  | .release a, S => S.erase a
  | _, S => S

def leavesAll (l : List Call) (S : Finset ℕ) : Finset ℕ := l.foldl (fun S k => k.leaves S) S

/-- What `fileclose` of each open file, and `iput` of the directory, call. -/
structure Closing where
  fileclose : Fd → List Call
  iput : List Call

/-- The body of the loop of `exit` over the open files. -/
def closeOfile (close : Closing) (p : Slot) (fd : Fd) : SmpM Unit := do
  if (← getOfile p fd) ≠ 0 then
    Prog.each Call.run (close.fileclose fd)
    put p (.ofile fd 0)
  else pure ()

def exit (status : ℤ) (close : Closing) : SmpM Unit := do
  let p ← curproc
  let ip ← getInitproc
  if p = ip then .panic "init exiting"
  else do
    note (.exitCall status)
    Prog.each (closeOfile close p) (List.finRange NOFILE)
    Prog.each Call.run close.iput
    put p (.cwd 0)
    acquire (.proc ip)
    wakeup1 ip
    release (.proc ip)
    acquire (.proc p)
    let original_parent ← getParent p
    release (.proc p)
    match original_parent with
    | none => .panic "no parent"
    | some q => do
      acquire (.proc q)
      acquire (.proc p)
      reparent p ip
      wakeup1 q
      put p (.xstate status)
      put p (.state .zombie)
      release (.proc q)
      sched
      .panic "zombie exit"

/-- One pass of `wait` over the table: the call returns `some r`, or else whether it has children.
`ok` is whether `copyout` would succeed. -/
def waitScan (p : Slot) (addr : ℕ) (ok : Bool) : List Slot → Bool → SmpM (Option ℤ × Bool)
  | [], havekids => pure (none, havekids)
  | np :: l, havekids => do
    if (← getParent np) = some p then
      acquire (.proc np)
      let r ← get np
      if r.state = .zombie then
        if addr ≠ 0 ∧ ok = false then
          release (.proc np)
          release (.proc p)
          note (.waitRet addr (-1) none)
          pure (some (-1), true)
        else do
          freeproc np
          release (.proc np)
          release (.proc p)
          note (.waitRet addr r.pid (if addr ≠ 0 then some r.xstate else none))
          pure (some r.pid, true)
      else do
        release (.proc np)
        waitScan p addr ok l true
    else waitScan p addr ok l havekids

/-- The outer loop of `wait`, for at most `fuel` turns. -/
def waitLoop (p : Slot) (addr : ℕ) (ok : Bool) : ℕ → SmpM Unit
  | 0 => hang
  | fuel + 1 => do
    let (result, havekids) ← waitScan p addr ok (List.finRange NPROC) false
    match result with
    | some _ => pure ()
    | none => do
      let r ← get p
      if !havekids || r.killed then
        release (.proc p)
        note (.waitRet addr (-1) none)
      else do
        sleep (.proc p) (.proc p)
        waitLoop p addr ok fuel

def wait (addr : ℕ) (ok : Bool) (fuel : ℕ) : SmpM Unit := do
  let p ← curproc
  note .waitCall
  acquire (.proc p)
  waitLoop p addr ok fuel

/-- Where a new process starts; the first one also calls `fsinit`. -/
def forkret (fsinit : List Call) : SmpM Unit := do
  let p ← curproc
  release (.proc p)
  Prog.each Call.run fsinit
  eret

/-- The body of the loop of `scheduler` over the table. -/
def scheduleOne (p : Slot) : SmpM Unit := do
  acquire (.proc p)
  if (← get p).state = .runnable then
    put p (.state .running)
    setCpuProc (some p)
    swtchTo p
    setCpuProc none
  else pure ()
  release (.proc p)

/-- One turn of `scheduler`. -/
def scheduler : SmpM Unit := do
  sti
  Prog.each scheduleOne (List.finRange NPROC)

/-! ## System calls and interrupts -/

/-- What a system call may do: the calls above, and changes to the process's own fields. -/
inductive SysOp where
  | call (k : Call)
  | fork (pt : ℕ) (copied : Bool)
  | wait (addr : ℕ) (ok : Bool) (fuel : ℕ)
  | kill (pid : ℤ)
  | exit (status : ℤ) (close : Closing)
  | sz (n : ℕ)
  | pagetable (n : ℕ)
  | ofile (fd : Fd) (f : ℕ)
  | cwd (n : ℕ)

/-- An assignment to a field of the current process. -/
def putOwn (f : Field) : SmpM Unit := do
  put (← curproc) f

def SysOp.run : SysOp → SmpM Unit
  | .call k => k.run
  | .fork pt copied => do
    let _ ← Smp.fork pt copied
    pure ()
  | .wait addr ok fuel => Smp.wait addr ok fuel
  | .kill pid => do
    let _ ← Smp.kill pid
    pure ()
  | .exit status close => Smp.exit status close
  | .sz n => putOwn (.sz n)
  | .pagetable n => putOwn (.pagetable n)
  | .ofile fd f => putOwn (.ofile fd f)
  | .cwd n => putOwn (.cwd n)

def SysOp.leaves : SysOp → Finset ℕ → Finset ℕ
  | .call k, S => k.leaves S
  | _, S => S

/-- A system call gives back the locks it takes. -/
def Balanced (body : List SysOp) : Prop := body.foldl (fun S k => k.leaves S) ∅ = ∅

/-- `swi_handler` with the system call `body`, and the return to user mode. -/
def swiHandler (tf : ℕ) (body : List SysOp) (close : Closing) : SmpM Unit := do
  let p ← curproc
  put p (.trapframe tf)
  note (.sysEnter tf)
  if (← get p).killed then exit (-1) close
  else do
    Prog.each SysOp.run body
    note .sysLeave
    eret

/-- `dabort_handler` and `iabort_handler`. -/
def abortHandler (close : Closing) : SmpM Unit := do
  let p ← curproc
  put p (.killed true)
  exit (-1) close

/-- `irq_handler`; `gic` is what `gic_handler` calls and `timer` whether it was the timer. -/
def irqHandler (tf : ℕ) (gic : List Call) (timer : Bool) (close : Closing) : SmpM Unit := do
  let p ← myproc
  match p with
  | some p => put p (.trapframe tf)
  | none => pure ()
  Prog.each Call.run gic
  match p with
  | none => eret
  | some p => do
    if (← get p).killed then exit (-1) close
    else do
      if timer && decide ((← get p).state = .running) then yield else pure ()
      eret

/-! ## The kernel -/

/-- What the processors execute for a request: `freeproc` has a body. -/
def bodyOf : (o : SmpOp) → SmpM o.Res
  | .freeproc p => do
    freeproc p
    Prog.each (put p) freeStores
  | o => .op (S := smpSig) o

/-- The code with the body of `freeproc` after each call. -/
def inlined (m : SmpM Unit) : SmpM Unit := m.lift bodyOf

/-- What happens on processor `c` from outside: a system call or an abort of the user program, an
interrupt whenever IRQs are enabled, and the next turn of the scheduler. -/
inductive Arrives (jobs : List SysOp → Prop) (c : ℕ) (s : Sys) : SmpM Unit → Sys → SmpM Unit → Prop
  | svc {p : Slot} (hx : (s.cpu c).exec = .proc p) (tf : ℕ) {body : List SysOp} (hb : jobs body)
      (hl : Balanced body) (close : Closing) :
      Arrives jobs c s (.ret ()) (s.mask c) (inlined (swiHandler tf body close))
  | abort {p : Slot} (hx : (s.cpu c).exec = .proc p) (close : Closing) :
      Arrives jobs c s (.ret ()) (s.mask c) (inlined (abortHandler close))
  | irq (h : (s.cpu c).irq = true) (tf : ℕ) {gic : List Call} (hl : leavesAll gic ∅ = ∅) (timer : Bool)
      (close : Closing) (q : SmpM Unit) :
      Arrives jobs c s q (s.mask c) ((inlined (irqHandler tf gic timer close)).bind fun _ => q)
  | turn {d : ℕ} (hx : (s.cpu c).exec = .scheduler d) : Arrives jobs c s (.ret ()) s (inlined scheduler)

/-- The kernel's threads on its processors. -/
def kernel (jobs : List SysOp → Prop) : Threads smpSig Sys Thread ℕ where
  step := storeStep
  active c s := (s.cpu c).exec
  spawn o t :=
    match o, t with
    | .resetContext p, .proc q => if q = p then some (inlined (forkret [])) else none
    | _, _ => none
  event := Arrives jobs

/-! ## The initial state -/

def Proc.zero : Proc := ⟨.unused, none, none, false, 0, 0, 0, 0, 0, fun _ => 0, 0⟩

def History.zero : History where
  exits := []
  exiting := fun _ => 0
  zombie := fun _ => 0
  waiting := fun _ => none
  reports := []
  kills := []
  nap := fun _ => none
  seen := fun _ _ => false
  waking := fun _ => []
  woken := fun _ => false
  window := fun _ => none
  thread := fun _ => false

/-- After `userinit`: the first process is ready and every processor enters `scheduler`. -/
structure Boot (C : Threads.Config smpSig Sys Thread) : Prop where
  lock : ∀ l, C.shared.lock l = none
  cpu : ∀ c, C.shared.cpu c = ⟨none, 0, false, false, .scheduler c⟩
  first : (C.shared.proc C.shared.initproc).state = .runnable ∧
    (C.shared.proc C.shared.initproc).chan = none ∧ (C.shared.proc C.shared.initproc).parent = none
  others : ∀ p, p ≠ C.shared.initproc → C.shared.proc p = Proc.zero
  hist : C.shared.hist = { History.zero with thread := fun p => decide (p = C.shared.initproc) }
  scheduler : ∀ c, C.thread (.scheduler c) = .ret ()
  forkret : ∃ fsinit, leavesAll fsinit ∅ = ∅ ∧ C.thread (.proc C.shared.initproc) = inlined (Smp.forkret fsinit)
  idle : ∀ p, p ≠ C.shared.initproc → C.thread (.proc p) = .ret ()

/-- Every state that a run of the kernel can come to. -/
abbrev Reachable (jobs : List SysOp → Prop) := Threads.Reachable (kernel jobs) Boot

end Xv6Arm.Smp

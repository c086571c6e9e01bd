import Xv6Arm.Smp.Code

/-!
# What a kernel thread knows

A thread's view holds what the other threads leave alone: the locks it has, what
is in the processes whose locks those are, and what only the thread itself
changes. The specification of a request says what has to be known before it
(`Pre`), what its answer and the new state tell (`Ok`), and the view afterwards
(`Next`). While a thread is switched out, its view is the one it will go on with.
-/
namespace Xv6Arm.Smp
open Lib

/-! ## Views -/

/-- What a scheduler is doing with the process it is dealing with; a process's thread is `live`. -/
inductive Mode where
  | idle
  /-- It has set the state of `p` to `RUNNING` and, if `named`, `c->proc` to `p`. -/
  | dispatch (p : Slot) (named : Bool)
  /-- It has switched to `p`. -/
  | away (p : Slot)
  /-- It is back from `p` and has cleared `c->proc`. -/
  | back (p : Slot)
  | live
  deriving DecidableEq

/-- What a scheduler may set `c->proc` to. -/
def Mode.Names : Mode → Option Slot → Prop
  | .dispatch p false, some q => q = p
  | .away _, none => True
  | _, _ => False

structure CoreView where
  held : Finset Lock
  irq : Bool
  /-- `c->intena`, where the thread knows it. -/
  intena : Option Bool
  mode : Mode
  /-- The state of the thread's own process. -/
  state : ProcState

/-- The fields of its own process that only the thread itself changes. -/
structure OwnView where
  chan : Option Chan
  pid : ℤ
  /-- The descriptors known to be closed. -/
  closed : Fd → Prop
  noCwd : Prop
  /-- The trap frame, from a trap until the return from it. -/
  trapframe : Option ℕ
  exit : Option ℤ
  xstate : Option ℤ

structure TreeView where
  kids : Finset Slot
  /-- The children that are not zombies as long as the thread holds its own lock. -/
  calm : Finset Slot
  /-- The process that was the parent when it was last read; by now `initproc` may be. -/
  par : Option Slot

structure NapView where
  /-- The call of `sleep` that the thread is in and has not gone to sleep in yet. -/
  due : Option (Chan × Lock)
  /-- The calls of `wakeup` it is in, each with the processes that are done. -/
  wake : List (Chan × Finset Slot)

structure View where
  core : CoreView
  /-- The other processes whose locks the thread holds. -/
  snap : Slot → Option Proc
  own : OwnView
  tree : TreeView
  nap : NapView
  /-- A slot that the thread has prepared for a new process. -/
  built : Option Slot
  /-- Whether it is in `wait`, and the pid and status of the exit that this call has taken. -/
  reap : Option (Option (ℤ × ℤ))
  /-- The trap frame of the system call it is in. -/
  window : Option ℕ

def View.setSnap (v : View) (p : Slot) (x : Option Proc) : View := { v with snap := Function.update v.snap p x }

/-- The process that a thread belongs to. -/
def Thread.slot : Thread → Option Slot
  | .proc p => some p
  | .scheduler _ => none

/-- Neither in use nor waiting to be reaped. -/
def Sys.Alive (s : Sys) (p : Slot) : Prop := (s.proc p).state ≠ .unused ∧ (s.proc p).state ≠ .zombie

def Proc.Dead (r : Proc) : Prop := r.state = .unused ∨ r.state = .zombie

/-- What a lock protects is as in `x`; and so is everything if nobody runs the process. -/
structure Agree (x r : Proc) : Prop where
  state : r.state = x.state
  parent : r.parent = x.parent
  chan : r.chan = x.chan
  xstate : r.xstate = x.xstate
  pid : r.pid = x.pid
  dead : x.Dead → r = x

/-- A slot that nothing is left in. If `strict`, it is not marked as killed either. -/
structure Clean (strict : Prop) (r : Proc) : Prop where
  chan : r.chan = none
  parent : r.parent = none
  pid : r.pid = 0
  sz : r.sz = 0
  pagetable : r.pagetable = 0
  ofile : ∀ fd, r.ofile fd = 0
  cwd : r.cwd = 0
  killed : strict → r.killed = false

def Proc.SleepsOn (r : Proc) (chan : Chan) : Prop := r.state = .sleeping ∧ r.chan = some chan

instance (r : Proc) (chan : Chan) : Decidable (r.SleepsOn chan) := inferInstanceAs (Decidable (_ ∧ _))

/-- Mark `p` as done in the innermost call of `wakeup` if `awake`. -/
def markDone (p : Slot) (awake : Chan → Bool) : List (Chan × Finset Slot) → List (Chan × Finset Slot)
  | [] => []
  | (ch, done) :: l => (ch, if awake ch then insert p done else done) :: l

/-! ## The specification of the requests -/

section Spec
variable (ip : Slot) (strict : Prop) (t : Thread)

/-- What is always so about the view of a thread that can run. -/
structure Wf (v : View) : Prop where
  masked : v.core.held.Nonempty → v.core.irq = false
  intena : v.core.held = ∅ → v.core.intena = none
  self : ∀ p, t = .proc p → .proc p ∉ v.core.held →
    v.core.state = .running ∧ v.tree.calm = ∅ ∧ v.nap.due = none ∧ v.own.chan = none
  snap : ∀ p, v.snap p ≠ none → .proc p ∈ v.core.held ∧ t ≠ .proc p
  built : ∀ p, v.built = some p → v.snap p ≠ none
  frame : v.own.trapframe ≠ none → v.core.irq = false
  window : v.window ≠ none → v.own.trapframe = v.window

/-- An assignment to the thread's own process `p`. -/
def PreOwn (p : Slot) (v : View) : Field → Prop
  | .state .runnable => .proc p ∈ v.core.held ∧ v.nap.due = none
  | .state .sleeping => .proc p ∈ v.core.held ∧ ∃ ch lk, v.nap.due = some (ch, lk) ∧ v.own.chan = some ch ∧
      (ch = .proc p → p ≠ ip → v.tree.kids ⊆ v.tree.calm)
  | .state .zombie => .proc p ∈ v.core.held ∧ p ≠ ip ∧ v.tree.kids = ∅ ∧ (∀ fd, v.own.closed fd) ∧ v.own.noCwd ∧
      v.nap.due = none ∧ (∃ x, v.own.exit = some x ∧ v.own.xstate = some x) ∧
      ∃ q, v.tree.par = some q ∧ (q = ip ∨ ∃ r, v.snap q = some r ∧ ¬r.SleepsOn (.proc q))
  | .chan _ => .proc p ∈ v.core.held
  | .xstate _ => .proc p ∈ v.core.held
  | .killed _ | .sz _ | .pagetable _ | .ofile _ _ | .cwd _ => True
  | .trapframe _ => v.window = none ∧ v.core.irq = false
  | _ => False

/-- An assignment to another process `p`, whose lock the thread holds and which is as in `r`. -/
def PreOther (p : Slot) (v : View) (r : Proc) : Field → Prop
  | .state .runnable => r.state = .sleeping ∨
      r.state = .unused ∧ v.built = some p ∧ (strict → r.killed = false) ∧ ∃ q, t = .proc q ∧ r.parent = some q
  | .state .running => r.state = .runnable ∧ v.core.mode = .idle ∧ v.built ≠ some p
  | .parent x => ∃ q, t = .proc q ∧
      (r.state = .unused ∧ r.parent = none ∧ v.core.state = .running ∧ v.built = some p ∧ x = some q ∨
        p ∈ v.tree.kids ∧ q ≠ ip ∧ x = some ip)
  | .killed _ => strict → r.state ≠ .unused
  | .pid _ => r.state = .unused ∧ v.built = none
  | .sz _ | .pagetable _ | .trapframe _ | .ofile _ _ | .cwd _ => r.state = .unused
  | _ => False

def PreNote (v : View) : Event → Prop
  | .sleepCall ch lk => ∃ p, t = .proc p ∧ .proc p ∈ v.core.held ∧ v.core.state = .running ∧ v.nap.due = none ∧
      (∀ q, ch = .proc q → q = p) ∧ ∀ q, lk = .proc q → q = p
  | .sleepRet => v.core.state = .running ∧ v.nap.due = none
  | .wakeupCall _ => True
  | .wakeupRet => ∃ ch done l, v.nap.wake = (ch, done) :: l ∧
      ∀ p, p ∈ done ∨ (∃ q, ch = .proc q ∧ p ≠ q) ∨ (∃ r, v.snap p = some r ∧ ¬r.SleepsOn ch) ∨
        t = .proc p ∧ v.core.state = .running ∧ v.nap.due = none
  | .exitCall _ => True
  | .waitCall => True
  | .waitRet addr pid status =>
    match v.reap with
    | none => False
    | some none => pid = -1
    | some (some (n, x)) => pid = n ∧ status = if addr ≠ 0 then some x else none
  | .killHit pid p => (t = .proc p ∧ v.own.pid = pid) ∨
      ∃ r, v.snap p = some r ∧ r.pid = pid ∧ (strict → r.state ≠ .unused)
  | .sysEnter tf => v.own.trapframe = some tf
  | .sysLeave => True

def Pre (v : View) : SmpOp → Prop
  | .release l => l ∈ v.core.held →
      (v.own.trapframe ≠ none → v.core.held = {l} → v.core.intena = some false) ∧
      ∀ p, l = .proc p →
        if t = .proc p then v.core.state = .running ∧ v.nap.due = none ∧ v.own.chan = none
        else v.built ≠ some p ∧ (v.core.mode = .back p ∨ (v.core.mode = .live ∨ v.core.mode = .idle) ∧
          ∃ r, v.snap p = some r ∧ (r.state = .unused → Clean strict r))
  | .myproc => v.core.mode = .live ∨ v.core.mode = .idle
  | .sti => v.core.held = ∅ ∧ v.core.mode = .idle ∧ v.window = none
  | .eret => v.core.held = ∅ ∧ v.window = none
  | .setIntena _ => v.core.held.Nonempty
  | .setCpuProc x => v.core.mode.Names x
  | .swtchTo p => v.core.mode = .dispatch p true ∧ v.core.held = {.proc p}
  | .swtchBack => ∃ p, t = .proc p ∧ v.core.held = {.proc p} ∧ v.core.state ≠ .running ∧
      v.core.state ≠ .unused ∧ (v.nap.due ≠ none → v.core.state = .sleeping)
  | .put p f => if t = .proc p then v.core.state = .running ∧ PreOwn ip p v f
      else ∃ r, v.snap p = some r ∧ PreOther ip strict t p v r f
  | .freeproc p => ∃ r, v.snap p = some r ∧
      (r.state = .zombie ∧ (∃ q, t = .proc q) ∧ p ∈ v.tree.kids ∧ v.reap = some none ∨
        r.state = .unused ∧ r.parent = none)
  | .resetContext p => (∃ q, t = .proc q) ∧ v.built = none ∧
      ∃ r, v.snap p = some r ∧ r.state = .unused ∧ r.chan = none
  | .note e => PreNote strict t v e
  | _ => True

/-- What reading process `p` can give. -/
structure Sees (v : View) (p : Slot) (r : Proc) : Prop where
  own : t = .proc p → r.state = v.core.state ∧ r.chan = v.own.chan ∧ r.pid = v.own.pid
  snap : ∀ x, v.snap p = some x → Agree x r

/-- What reading `p->parent` can give. -/
structure SeesParent (v : View) (p : Slot) (x : Option Slot) : Prop where
  kid : ∀ q, t = .proc q → p ∈ v.tree.kids → x = some q
  mine : ∀ q, t = .proc q → q ≠ ip → x = some q → p ∈ v.tree.kids
  par : t = .proc p → ∀ q, v.tree.par = some q → x = some q ∨ x = some ip

/-- What is known about another process when its lock has been taken. -/
structure Enters (v : View) (p : Slot) (r : Proc) : Prop where
  clean : r.state = .unused → Clean strict r
  closed : r.state = .zombie → (∀ fd, r.ofile fd = 0) ∧ r.cwd = 0
  kid : ∀ q, t = .proc q → p ∈ v.tree.kids → r.parent = some q

def Ok (c : ℕ) (v : View) (s' : Sys) : (o : SmpOp) → o.Res → Prop
  | .acquire l, _ => l ∉ v.core.held ∧ ∀ p, l = .proc p → t ≠ .proc p → Enters strict t v p (s'.proc p)
  | .release l, _ => l ∈ v.core.held ∧ ∀ b, v.core.intena = some b → v.core.held = {l} → (s'.cpu c).irq = b
  | .holding l, r => r = decide (l ∈ v.core.held)
  | .myproc, r => r = t.slot
  | .getNoff, r => r = v.core.held.card
  | .intrGet, r => r = v.core.irq
  | .getIntena, r => ∀ b, v.core.intena = some b → r = b
  | .get p, r => Sees t v p r
  | .getParent p, r => SeesParent ip t v p r
  | .getInitproc, r => r = ip
  | .hang, _ => False
  | _, _ => True

/-- The children known not to be zombies after the lock of `p` has been given up. -/
def calmAfter (v : View) (p : Slot) : Finset Slot :=
  match t, v.snap p with
  | .proc q, some r =>
    if q = p then ∅
    else if r.state ≠ .zombie ∧ p ∈ v.tree.kids ∧ .proc q ∈ v.core.held then insert p v.tree.calm
    else v.tree.calm
  | .proc q, none => if q = p then ∅ else v.tree.calm
  | .scheduler _, _ => v.tree.calm

/-- Whether a process just let go of is not asleep on `ch`. -/
def View.awakeAfter (v : View) (p : Slot) (ch : Chan) : Bool :=
  match v.snap p with
  | some r => !decide (r.SleepsOn ch)
  | none => false

def NextOwn (v : View) : Field → View
  | .state st => { v with core.state := st }
  | .chan ch => { v with own.chan := ch }
  | .xstate x => { v with own.xstate := some x }
  | .ofile fd f => { v with own.closed := Function.update v.own.closed fd (f = 0) }
  | .cwd n => { v with own.noCwd := n = 0 }
  | .trapframe n => { v with own.trapframe := some n }
  | _ => v

def NextOther (p : Slot) (v : View) (r : Proc) : Field → View
  | .state .running => { v.setSnap p none with core.mode := .dispatch p false }
  | .state st => { v.setSnap p (some { r with state := st }) with
      built := if v.built = some p then none else v.built }
  | .parent x => { v.setSnap p (some { r with parent := x }) with
      tree := { v.tree with
        kids := if x.map Thread.proc = some t then insert p v.tree.kids else v.tree.kids.erase p
        calm := v.tree.calm.erase p } }
  | f => v.setSnap p (some (f.apply r))

def NextNote (v : View) : Event → View
  | .sleepCall ch lk => { v with nap.due := some (ch, lk) }
  | .wakeupCall ch => { v with nap.wake := (ch, ∅) :: v.nap.wake }
  | .wakeupRet => { v with nap.wake := v.nap.wake.tail }
  | .exitCall status => { v with own.exit := some status }
  | .waitCall => { v with reap := some none }
  | .waitRet _ _ _ => { v with reap := none }
  | .sysEnter tf => { v with window := some tf }
  | .sysLeave => { v with window := none }
  | _ => v

def Next (c : ℕ) (v : View) (s' : Sys) : (o : SmpOp) → o.Res → View
  | .acquire l, _ => { v with
      core := { v.core with
        held := insert l v.core.held
        irq := false
        intena := if v.core.held = ∅ then some v.core.irq else v.core.intena }
      snap := match l with
        | .proc p => if t = .proc p then v.snap else Function.update v.snap p (some (s'.proc p))
        | _ => v.snap }
  | .release l, _ => { v with
      core := { v.core with
        held := v.core.held.erase l
        irq := if v.core.held = {l} then (s'.cpu c).irq else false
        intena := if v.core.held = {l} then none else v.core.intena
        mode := match v.core.mode, l with
          | .back p, .proc q => if p = q then .idle else .back p
          | m, _ => m }
      snap := match l with
        | .proc p => Function.update v.snap p none
        | _ => v.snap
      tree.calm := match l with
        | .proc p => calmAfter t v p
        | _ => v.tree.calm
      nap.wake := match l with
        | .proc p => markDone p (v.awakeAfter p) v.nap.wake
        | _ => v.nap.wake }
  | .sti, _ | .eret, _ => { v with core.irq := true, own.trapframe := none }
  | .setIntena b, _ => { v with core.intena := some b }
  | .setCpuProc _, _ => { v with core.mode :=
      match v.core.mode with
      | .dispatch p _ => .dispatch p true
      | .away p => .back p
      | m => m }
  | .swtchTo p, _ => { v with core := { v.core with mode := .away p, intena := none } }
  | .swtchBack, _ => { v with
      core := { v.core with state := .running, intena := none }
      tree.calm := ∅
      nap.due := none }
  | .getParent p, x => { v with
      tree := { v.tree with
        kids := if x.map Thread.proc = some t then insert p v.tree.kids else v.tree.kids
        par := if t = .proc p then x else v.tree.par } }
  | .getOfile p fd, n => if t = .proc p ∧ n = 0 then { v with own.closed := Function.update v.own.closed fd True } else v
  | .put p f, _ =>
    if t = .proc p then NextOwn v f
    else
      match v.snap p with
      | some r => NextOther t p v r f
      | none => v
  | .freeproc p, _ =>
    match v.snap p with
    | some r => { v.setSnap p (some r.freed) with
        tree := { v.tree with kids := v.tree.kids.erase p, calm := v.tree.calm.erase p }
        reap := if r.state = .zombie then some (some (r.pid, r.xstate)) else v.reap
        built := if v.built = some p then none else v.built }
    | none => v
  | .resetContext p, _ => { v with built := some p }
  | .note e, _ => NextNote v e
  | _, _ => v

/-- The specification of the requests of thread `t`. -/
def smpSpec : OpSpec smpSig View := fun o K v =>
  Wf t v → Pre ip strict t v o ∧ ∀ c r s', Ok ip strict t c v s' o r → K r (Next t c v s' o r)

theorem smpSpec_mono : (smpSpec ip strict t).Mono :=
  fun _ _ _ _ h hK hwf => ⟨(hK hwf).1, fun c r s' hok => h _ _ ((hK hwf).2 c r s' hok)⟩

end Spec

theorem Wf.setTree {t : Thread} {v : View} {T : TreeView} (hwf : Wf t v) (hT : T.calm ⊆ v.tree.calm) : Wf t { v with tree := T } := by
  refine ⟨hwf.masked, hwf.intena, fun p ht hl => ?_, hwf.snap, hwf.built, hwf.frame, hwf.window⟩
  obtain ⟨h1, h2, h3⟩ := hwf.self p ht hl
  exact ⟨h1, Finset.subset_empty.mp (h2 ▸ hT), h3⟩

/-- The view with which a new process starts: the scheduler has taken its lock for it. -/
def born (p : Slot) (pid : ℤ) : View where
  core := ⟨{.proc p}, false, none, .live, .running⟩
  snap := fun _ => none
  own := ⟨none, pid, fun _ => False, False, none, none, none⟩
  tree := ⟨∅, ∅, none⟩
  nap := ⟨none, []⟩
  built := none
  reap := none
  window := none

/-- The view with which a processor enters `scheduler`. -/
def entering : View where
  core := ⟨∅, false, none, .idle, .running⟩
  snap := fun _ => none
  own := ⟨none, 0, fun _ => False, False, none, none, none⟩
  tree := ⟨∅, ∅, none⟩
  nap := ⟨none, []⟩
  built := none
  reap := none
  window := none

/-- The mode of a thread that no `swtch` is in progress of. -/
def Thread.home : Thread → Mode
  | .proc _ => .live
  | .scheduler _ => .idle

/-- Nothing is going on in the thread: a process is in user mode, a scheduler between two turns. -/
structure Resting (t : Thread) (v : View) : Prop where
  held : v.core.held = ∅
  mode : v.core.mode = t.home
  window : v.window = none

end Xv6Arm.Smp

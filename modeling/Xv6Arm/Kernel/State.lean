import Xv6Arm.Log.Model
import Xv6Arm.Vm.Copy

/-!
# Kernel tables and requests

The tables of `fs.c`, `file.c`, `pipe.c`, `proc.c` and `console.c`, and the
requests that kernel code makes of them: one for each section under a spin-lock
and one for each access to a field that a sleep-lock or the owning process
protects. A request that has to sleep is blocked until it can go on, so the
scheduler does not appear. There is one device, so inodes carry no `dev`.
-/
namespace Xv6Arm
open Lib

abbrev T_DIR : Int16 := 1
abbrev T_FILE : Int16 := 2

/-- `struct dinode`; in memory, the fields of `struct inode` that are copies of it. -/
structure Dinode where
  type : Int16
  major : Int16
  minor : Int16
  nlink : Int16
  size : ℕ
  addrs : Fin (NDIRECT + 1) → ℕ

/-- `struct inode`; `lock` is the process that holds the sleep-lock. -/
structure Inode where
  inum : ℕ
  ref : ℤ
  lock : Option ℕ
  valid : Bool
  d : Dinode

inductive FdType where
  | none
  | pipe
  | inode
  | device
  deriving DecidableEq

/-- `struct file`; `pipe` is the page of the pipe and `ip` an index into the inode cache. -/
structure File where
  type : FdType
  ref : ℤ
  readable : Bool
  writable : Bool
  pipe : ℕ
  ip : ℕ
  off : ℕ
  major : Int16

abbrev PIPESIZE : ℕ := 512

structure Pipe where
  lock : Option ℕ
  data : ℕ → UInt8
  nread : ℕ
  nwrite : ℕ
  readopen : Bool
  writeopen : Bool

/-- `pi->nwrite == pi->nread + PIPESIZE` on unsigned counters. -/
def Pipe.full (x : Pipe) : Bool := x.nwrite == (x.nread + PIPESIZE) % 2 ^ 32

inductive ProcState where
  | unused
  | sleeping
  | runnable
  | running
  | zombie
  deriving DecidableEq

/-- The registers of a trap frame that system calls set. -/
structure Trapframe where
  x0 : ℕ
  x1 : ℕ
  sp : ℕ
  elr : ℕ

/-- `struct proc`. A null `pagetable` is 0; `parent` and the holder of `lock` are indices into
`procs`. -/
structure Proc where
  lock : Option ℕ
  state : ProcState
  parent : Option ℕ
  killed : Bool
  xstate : ℤ
  pid : ℤ
  sz : ℕ
  pagetable : ℕ
  ofile : Fin NOFILE → Option ℕ
  cwd : Option ℕ
  tf : Trapframe
  name : List UInt8

/-- The committed input of the console, and what has been sent to the UART. -/
structure Console where
  input : List UInt8
  output : List UInt8

/-- The kernel's state over an arbitrary state `io` of disk, buffer cache and log. -/
structure Kernel (ι : Type) where
  io : ι
  vm : Vm
  icache : ℕ → Inode
  ftable : ℕ → File
  pipes : ℕ → Pipe
  procs : ℕ → Proc
  nextpid : ℤ
  initproc : ℕ
  cons : Console

/-! ## Requests -/

inductive InodeOp where
  | iget (inum : ℕ)
  | idup (ip : ℕ)
  /-- The test at the start of `ilock`, and `acquiresleep`. -/
  | acquire (ip : ℕ)
  | get (ip : ℕ)
  | set (ip : ℕ) (d : Dinode)
  | setValid (ip : ℕ) (valid : Bool)
  | iunlock (ip : ℕ)
  /-- The first section of `iput`: `true` if the inode has to be freed. -/
  | iputTest (ip : ℕ)
  | releasesleep (ip : ℕ)
  /-- The last section of `iput`. -/
  | iputDrop (ip : ℕ)

abbrev InodeOp.Res : InodeOp → Type
  | .iget _ => ℕ
  | .get _ => Inode
  | .iputTest _ => Bool
  | _ => Unit

inductive FileOp where
  | alloc
  | dup (f : ℕ)
  /-- The section of `fileclose`; the answer is the copy `ff` if this was the last reference. -/
  | close (f : ℕ)
  | get (f : ℕ)
  | setDevice (f ip : ℕ) (major : Int16) (readable writable : Bool)
  | setInode (f ip : ℕ) (readable writable : Bool)
  | setPipe (f pi : ℕ) (writable : Bool)
  | setOff (f off : ℕ)

abbrev FileOp.Res : FileOp → Type
  | .alloc => Option ℕ
  | .close _ => Option File
  | .get _ => File
  | _ => Unit

inductive PipeOp where
  | init (pi : ℕ)
  /-- The section of `pipeclose`; `true` if the page has to be freed. -/
  | close (pi : ℕ) (writable : Bool)
  | acquire (pi : ℕ)
  | release (pi : ℕ)
  | get (pi : ℕ)
  | put (pi : ℕ) (c : UInt8)
  | take (pi : ℕ)
  /-- Sleep until a writer can go on, and take the lock again. -/
  | sleepWrite (pi : ℕ)
  /-- Sleep until a reader can go on, and take the lock again. -/
  | sleepRead (pi : ℕ)

abbrev PipeOp.Res : PipeOp → Type
  | .close _ _ => Bool
  | .get _ => Pipe
  | .take _ => UInt8
  | _ => Unit

/-- Assignments to one or more fields of a `struct proc`. -/
inductive ProcField where
  | pid (x : ℤ)
  | pagetable (x : ℕ)
  | sz (x : ℕ)
  | parent (x : Option ℕ)
  | ofile (fd : Fin NOFILE) (x : Option ℕ)
  | cwd (x : Option ℕ)
  | state (x : ProcState)
  | tf (x : Trapframe)
  | name (x : List UInt8)
  /-- The point where `exec` commits to the new image. -/
  | image (t n : ℕ)
  /-- The assignments of `freeproc` after the page table is gone. -/
  | clear

inductive ProcOp where
  | get (i : ℕ)
  | set (i : ℕ) (x : ProcField)
  /-- One turn of the loop of `allocproc`: the lock of an `UNUSED` slot is kept. -/
  | tryAlloc (i : ℕ)
  | allocpid
  | release (i : ℕ)
  /-- The scan of `wait`: a zombie child, with its lock, or -1; it sleeps while there is neither. -/
  | waitChild (p : ℕ)
  | reparent (p : ℕ)
  /-- The last section of `exit`. -/
  | zombie (p : ℕ) (status : ℤ)
  | kill (pid : ℤ)
  | initproc

abbrev ProcOp.Res : ProcOp → Type
  | .get _ => Proc
  | .tryAlloc _ => Bool
  | .allocpid => ℤ
  | .waitChild _ => Option ℕ
  | .kill _ => Bool
  | .initproc => ℕ
  | _ => Unit

inductive ConsOp where
  | putc (c : UInt8)
  /-- The next input byte; `none` if the sleeping reader was killed. -/
  | getc
  /-- `cons.r--`: leave the byte for the next read. -/
  | unget (c : UInt8)

abbrev ConsOp.Res : ConsOp → Type
  | .getc => Option UInt8
  | _ => Unit

inductive KOp where
  | io (o : IoOp)
  | vm (o : VmOp)
  | inode (o : InodeOp)
  | file (o : FileOp)
  | pipe (o : PipeOp)
  | proc (o : ProcOp)
  | cons (o : ConsOp)

abbrev KOp.Res : KOp → Type
  | .io o => o.Res
  | .vm o => o.Res
  | .inode o => o.Res
  | .file o => o.Res
  | .pipe o => o.Res
  | .proc o => o.Res
  | .cons o => o.Res

abbrev kSig : Signature := ⟨KOp, KOp.Res⟩

/-! ## What each request does -/

/-- The first of `n` table entries that satisfies `P`. -/
def firstIndex (n : ℕ) (P : ℕ → Bool) : Option ℕ := (List.range n).find? P

namespace Icache

def modify (c : ℕ → Inode) (ip : ℕ) (f : Inode → Inode) : ℕ → Inode := Function.update c ip (f (c ip))

def iget (inum : ℕ) (c : ℕ → Inode) : Outcome ℕ (ℕ → Inode) :=
  match firstIndex NINODE fun k => 0 < (c k).ref && (c k).inum == inum with
  | some ip => .done ip (modify c ip fun x => { x with ref := x.ref + 1 })
  | none =>
    match firstIndex NINODE fun k => (c k).ref == 0 with
    | some ip => .done ip (modify c ip fun x => { x with inum := inum, ref := 1, valid := false })
    | none => .panic "iget: no inodes"

def acquire (me ip : ℕ) (c : ℕ → Inode) : Outcome Unit (ℕ → Inode) :=
  if (c ip).ref < 1 then .panic "ilock"
  else if (c ip).lock = none then .done () (modify c ip fun x => { x with lock := some me })
  else .blocked

def iunlock (me ip : ℕ) (c : ℕ → Inode) : Outcome Unit (ℕ → Inode) :=
  if (c ip).lock ≠ some me ∨ (c ip).ref < 1 then .panic "iunlock"
  else .done () (modify c ip fun x => { x with lock := none })

def iputTest (me ip : ℕ) (c : ℕ → Inode) : Outcome Bool (ℕ → Inode) :=
  if (c ip).ref = 1 ∧ (c ip).valid = true ∧ (c ip).d.nlink = 0 then
    if (c ip).lock = none then .done true (modify c ip fun x => { x with lock := some me }) else .blocked
  else .done false (modify c ip fun x => { x with ref := x.ref - 1 })

end Icache

def inodeStep (me : ℕ) (c : ℕ → Inode) : (o : InodeOp) → Outcome o.Res (ℕ → Inode)
  | .iget inum => Icache.iget inum c
  | .idup ip => .done () (Icache.modify c ip fun x => { x with ref := x.ref + 1 })
  | .acquire ip => Icache.acquire me ip c
  | .get ip => .done (c ip) c
  | .set ip d => .done () (Icache.modify c ip fun x => { x with d := d })
  | .setValid ip valid => .done () (Icache.modify c ip fun x => { x with valid := valid })
  | .iunlock ip => Icache.iunlock me ip c
  | .iputTest ip => Icache.iputTest me ip c
  | .releasesleep ip => .done () (Icache.modify c ip fun x => { x with lock := none })
  | .iputDrop ip => .done () (Icache.modify c ip fun x => { x with ref := x.ref - 1 })

namespace Ftable

def modify (c : ℕ → File) (f : ℕ) (g : File → File) : ℕ → File := Function.update c f (g (c f))

def alloc (c : ℕ → File) : Outcome (Option ℕ) (ℕ → File) :=
  match firstIndex NFILE fun k => (c k).ref == 0 with
  | some f => .done (some f) (modify c f fun x => { x with ref := 1 })
  | none => .done none c

def dup (f : ℕ) (c : ℕ → File) : Outcome Unit (ℕ → File) :=
  if (c f).ref < 1 then .panic "filedup" else .done () (modify c f fun x => { x with ref := x.ref + 1 })

def close (f : ℕ) (c : ℕ → File) : Outcome (Option File) (ℕ → File) :=
  if (c f).ref < 1 then .panic "fileclose"
  else if 0 < (c f).ref - 1 then .done none (modify c f fun x => { x with ref := x.ref - 1 })
  else .done (some { c f with ref := (c f).ref - 1 }) (modify c f fun x => { x with ref := 0, type := .none })

end Ftable

def fileStep (c : ℕ → File) : (o : FileOp) → Outcome o.Res (ℕ → File)
  | .alloc => Ftable.alloc c
  | .dup f => Ftable.dup f c
  | .close f => Ftable.close f c
  | .get f => .done (c f) c
  | .setDevice f ip major r w => .done () (Ftable.modify c f fun x =>
      { x with type := .device, major := major, ip := ip, readable := r, writable := w })
  | .setInode f ip r w => .done () (Ftable.modify c f fun x =>
      { x with type := .inode, off := 0, ip := ip, readable := r, writable := w })
  | .setPipe f pi w => .done () (Ftable.modify c f fun x =>
      { x with type := .pipe, readable := !w, writable := w, pipe := pi })
  | .setOff f off => .done () (Ftable.modify c f fun x => { x with off := off })

def ProcField.apply (x : ProcField) (p : Proc) : Proc :=
  match x with
  | .pid x => { p with pid := x }
  | .pagetable x => { p with pagetable := x }
  | .sz x => { p with sz := x }
  | .parent x => { p with parent := x }
  | .ofile fd x => { p with ofile := Function.update p.ofile fd x }
  | .cwd x => { p with cwd := x }
  | .state x => { p with state := x }
  | .tf x => { p with tf := x }
  | .name x => { p with name := x }
  | .image t n => { p with pagetable := t, sz := n }
  | .clear => { p with
      pagetable := 0, sz := 0, pid := 0, parent := none, name := [], killed := false, xstate := 0, state := .unused }

namespace Kernel
variable {ι : Type}

def modifyPipe (s : Kernel ι) (pi : ℕ) (f : Pipe → Pipe) : Kernel ι :=
  { s with pipes := Function.update s.pipes pi (f (s.pipes pi)) }

def modifyProc (s : Kernel ι) (i : ℕ) (f : Proc → Proc) : Kernel ι :=
  { s with procs := Function.update s.procs i (f (s.procs i)) }

def pipeClose (s : Kernel ι) (pi : ℕ) (writable : Bool) : Outcome Bool (Kernel ι) :=
  if (s.pipes pi).lock ≠ none then .blocked
  else
    let s' := s.modifyPipe pi fun x =>
      if writable then { x with writeopen := false } else { x with readopen := false }
    .done (!(s'.pipes pi).readopen && !(s'.pipes pi).writeopen) s'

/-- Take the lock of a pipe once it is free and the sleeper is woken by `ready`. -/
def pipeSleep (s : Kernel ι) (me pi : ℕ) (ready : Pipe → Bool) : Outcome Unit (Kernel ι) :=
  if (s.pipes pi).lock = none ∧ (ready (s.pipes pi) || (s.procs me).killed) = true then
    .done () (s.modifyPipe pi fun x => { x with lock := some me })
  else .blocked

def pipeStep (me : ℕ) (s : Kernel ι) : (o : PipeOp) → Outcome o.Res (Kernel ι)
  | .init pi => .done () (s.modifyPipe pi fun x =>
      { x with lock := none, readopen := true, writeopen := true, nwrite := 0, nread := 0 })
  | .close pi writable => s.pipeClose pi writable
  | .acquire pi => s.pipeSleep me pi fun _ => true
  | .release pi => .done () (s.modifyPipe pi fun x => { x with lock := none })
  | .get pi => .done (s.pipes pi) s
  | .put pi c => .done () (s.modifyPipe pi fun x =>
      { x with data := Function.update x.data (x.nwrite % PIPESIZE) c, nwrite := (x.nwrite + 1) % 2 ^ 32 })
  | .take pi => .done ((s.pipes pi).data ((s.pipes pi).nread % PIPESIZE))
      (s.modifyPipe pi fun x => { x with nread := (x.nread + 1) % 2 ^ 32 })
  | .sleepWrite pi => s.pipeSleep me pi fun x => !x.full || !x.readopen
  | .sleepRead pi => s.pipeSleep me pi fun x => x.nread != x.nwrite || !x.writeopen

/-- Acquire the lock of process `i`; keep it if the slot is `UNUSED`. -/
def tryAlloc (s : Kernel ι) (me i : ℕ) : Outcome Bool (Kernel ι) :=
  if (s.procs i).lock ≠ none then .blocked
  else if (s.procs i).state = .unused then .done true (s.modifyProc i fun x => { x with lock := some me })
  else .done false s

def waitChild (s : Kernel ι) (p : ℕ) : Outcome (Option ℕ) (Kernel ι) :=
  match firstIndex NPROC fun i => (s.procs i).parent == some p && (s.procs i).state == .zombie with
  | some i =>
    if (s.procs i).lock = none then .done (some i) (s.modifyProc i fun x => { x with lock := some p })
    else .blocked
  | none =>
    if (firstIndex NPROC fun i => (s.procs i).parent == some p) = none ∨ (s.procs p).killed = true then
      .done none s
    else .blocked

/-- `reparent`: the children of `p` pass to `initproc`. -/
def reparent (s : Kernel ι) (p : ℕ) : Kernel ι :=
  { s with procs := fun i =>
      if i < NPROC ∧ (s.procs i).parent = some p then { s.procs i with parent := some s.initproc }
      else s.procs i }

def kill (s : Kernel ι) (pid : ℤ) : Outcome Bool (Kernel ι) :=
  match firstIndex NPROC fun i => (s.procs i).pid == pid with
  | some i => .done true (s.modifyProc i fun x => { x with killed := true })
  | none => .done false s

def procStep (me : ℕ) (s : Kernel ι) : (o : ProcOp) → Outcome o.Res (Kernel ι)
  | .get i => .done (s.procs i) s
  | .set i x => .done () (s.modifyProc i x.apply)
  | .tryAlloc i => s.tryAlloc me i
  | .allocpid => .done s.nextpid { s with nextpid := s.nextpid + 1 }
  | .release i => .done () (s.modifyProc i fun x => { x with lock := none })
  | .waitChild p => s.waitChild p
  | .reparent p => .done () (s.reparent p)
  | .zombie p status => .done () (s.modifyProc p fun x => { x with xstate := status, state := .zombie })
  | .kill pid => s.kill pid
  | .initproc => .done s.initproc s

def consStep (me : ℕ) (s : Kernel ι) : (o : ConsOp) → Outcome o.Res (Kernel ι)
  | .putc c => .done () { s with cons := { s.cons with output := s.cons.output ++ [c] } }
  | .getc =>
    match s.cons.input with
    | c :: l => .done (some c) { s with cons := { s.cons with input := l } }
    | [] => if (s.procs me).killed then .done none s else .blocked
  | .unget c => .done () { s with cons := { s.cons with input := c :: s.cons.input } }

/-- The requests of process `me`, over a machine for disk, buffer cache and log. -/
def step (ioM : Machine ioSig ι) (me : ℕ) : Machine kSig (Kernel ι)
  | .io o, s => (ioM o s.io).map fun t => { s with io := t }
  | .vm o, s => (vmStep o s.vm).map fun t => { s with vm := t }
  | .inode o, s => (inodeStep me s.icache o).map fun t => { s with icache := t }
  | .file o, s => (fileStep s.ftable o).map fun t => { s with ftable := t }
  | .pipe o, s => s.pipeStep me o
  | .proc o, s => s.procStep me o
  | .cons o, s => s.consStep me o

end Kernel

abbrev KState := Kernel IoState

def kStep (me : ℕ) : Machine kSig KState := Kernel.step (ioStep me) me

/-! ## Programs -/

abbrev KM := Prog kSig

def inIo {α : Type} (p : IoM α) : KM α := p.lift fun o => .op (S := kSig) (.io o)
def inVm {α : Type} (p : VmM α) : KM α := p.lift fun o => .op (S := kSig) (.vm o)

instance : MonadLift IoM KM := ⟨inIo⟩
instance : MonadLift VmM KM := ⟨inVm⟩

def inode (o : InodeOp) : KM o.Res := .op (S := kSig) (.inode o)
def file (o : FileOp) : KM o.Res := .op (S := kSig) (.file o)
def pipe (o : PipeOp) : KM o.Res := .op (S := kSig) (.pipe o)
def proc (o : ProcOp) : KM o.Res := .op (S := kSig) (.proc o)
def cons (o : ConsOp) : KM o.Res := .op (S := kSig) (.cons o)

/-- A program on memory alone. -/
theorem Kernel.run_inVm {ι α : Type} (m : Machine ioSig ι) (me : ℕ) (p : VmM α) (X : Kernel ι) :
    (inVm p).run (Kernel.step m me) X = (p.run vmStep X.vm).map fun t => { X with vm := t } := by
  refine Prog.run_lift (g := Kernel.vm) (k := fun t X => { X with vm := t }) ?_ ?_ ?_ ?_ p X
  · intro o X
    simp only [Prog.op, Prog.run, Kernel.step]
    cases vmStep o X.vm <;> rfl
  · exact fun _ _ => rfl
  · exact fun _ _ _ => rfl
  · exact fun _ => rfl

end Xv6Arm

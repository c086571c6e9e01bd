import Xv6Arm.Smp.View

/-!
# What ties the views to the state

The invariant comes in parts: who executes where and with which locks, what the
views know of the process table, the process tree, the calls of `sleep` and
`wakeup`, and the exits that `wait` reports.
-/
namespace Xv6Arm.Smp
open Lib

variable (ip : Slot) (strict : Prop) (vs : Thread → View) (s : Sys)

/-- The thread that processor `c` executes. -/
abbrev Sys.exec (s : Sys) (c : ℕ) : Thread := (s.cpu c).exec

/-- The thread exists. -/
def Sys.Has (s : Sys) : Thread → Prop
  | .scheduler _ => True
  | .proc p => s.hist.thread p = true

/-! ## Processors -/

/-- The locks and flags of the processors are those of the threads they execute. -/
structure CpuInv : Prop where
  lock : ∀ l c, s.lock l = some c ↔ l ∈ (vs (s.exec c)).core.held
  noff : ∀ c, (s.cpu c).noff = (vs (s.exec c)).core.held.card
  irq : ∀ c, (s.cpu c).irq = (vs (s.exec c)).core.irq
  intena : ∀ c b, (vs (s.exec c)).core.intena = some b → (s.cpu c).intena = b

/-- The scheduler of processor `c` is where its view says. -/
def SchedOk (c : ℕ) (v : View) : Prop :=
  match v.core.mode with
  | .idle => s.exec c = .scheduler c ∧ (s.cpu c).proc = none
  | .dispatch p named => s.exec c = .scheduler c ∧ (s.cpu c).proc = (if named then some p else none) ∧
      .proc p ∈ v.core.held ∧ v.snap p = none ∧ (s.proc p).state = .running ∧ ∀ d, s.exec d ≠ .proc p
  | .away p => (s.cpu c).proc = some p ∧ .proc p ∈ v.core.held ∧ v.snap p = none ∧ (s.proc p).state ≠ .unused ∧
      (s.exec c = .scheduler c ∨
        s.exec c = .proc p ∧ v.core.held = {.proc p} ∧ v.core.irq = false ∧ v.core.intena = none)
  | .back p => s.exec c = .scheduler c ∧ (s.cpu c).proc = none ∧ .proc p ∈ v.core.held ∧ v.snap p = none ∧
      (s.proc p).state ≠ .unused
  | .live => False

/-- The view of a process that is not executing: the scheduler will take `p->lock` for it. -/
structure Parked (p : Slot) (v : View) : Prop where
  held : v.core.held = {.proc p}
  irq : v.core.irq = false
  intena : v.core.intena = none
  mode : v.core.mode = .live
  state : v.core.state = .running
  calm : v.tree.calm = ∅
  due : v.nap.due = none

structure ExecInv : Prop where
  home : ∀ c d, s.exec c = .scheduler d → d = c
  unique : ∀ c d p, s.exec c = .proc p → s.exec d = .proc p → c = d
  sched : ∀ c, SchedOk s c (vs (.scheduler c))
  away : ∀ c p, s.exec c = .proc p → (vs (.scheduler c)).core.mode = .away p
  live : ∀ c p, s.exec c = .proc p → (vs (.proc p)).core.mode = .live
  state : ∀ c p, s.exec c = .proc p → (s.proc p).state = (vs (.proc p)).core.state
  used : ∀ c p, s.exec c = .proc p → (s.proc p).state ≠ .unused
  parked : ∀ p, s.hist.thread p = true → (∀ c, s.exec c ≠ .proc p) → Parked p (vs (.proc p))
  running : ∀ p, (s.proc p).state = .running →
    (∃ c, s.exec c = .proc p) ∨ ∃ c b, (vs (.scheduler c)).core.mode = .dispatch p b
  thread : ∀ p, (s.proc p).state ≠ .unused → s.hist.thread p = true
  wf : ∀ t, s.Has t → Wf t (vs t)

/-! ## The process table -/

structure OwnOk (u : OwnView) (r : Proc) (exiting : ℤ) : Prop where
  chan : r.chan = u.chan
  pid : r.pid = u.pid
  closed : ∀ fd, u.closed fd → r.ofile fd = 0
  noCwd : u.noCwd → r.cwd = 0
  trapframe : ∀ n, u.trapframe = some n → r.trapframe = n
  exit : ∀ x, u.exit = some x → exiting = x
  xstate : ∀ x, u.xstate = some x → r.xstate = x

structure TableInv : Prop where
  snap : ∀ t, s.Has t → ∀ p x, (vs t).snap p = some x → Agree x (s.proc p)
  own : ∀ p, s.hist.thread p = true → OwnOk (vs (.proc p)).own (s.proc p) (s.hist.exiting p)
  window : ∀ p, s.hist.thread p = true → s.hist.window p = (vs (.proc p)).window
  /-- A slot that is being prepared has a thread that has not started. -/
  born : ∀ t, s.Has t → ∀ p, (vs t).built = some p → s.hist.thread p = true ∧ (s.proc p).state = .unused ∧
    vs (.proc p) = born p (s.proc p).pid
  built : ∀ p, s.hist.thread p = true → (s.proc p).state = .unused → ∃ t, s.Has t ∧ (vs t).built = some p
  clean : ∀ p, s.lock (.proc p) = none → (s.proc p).state = .unused → Clean strict (s.proc p)
  closed : ∀ p, (s.proc p).state = .zombie → (∀ fd, (s.proc p).ofile fd = 0) ∧ (s.proc p).cwd = 0
  init : s.initproc = ip
  kills : ∀ k ∈ s.hist.kills, k.2.pid = k.1 ∧ (strict → k.2.state ≠ .unused)

/-! ## The process tree -/

/-- Every process in use has a parent that is alive, and is not asleep over an exit of its child. -/
structure Forest : Prop where
  parent : ∀ i q, (s.proc i).parent = some q → s.Alive q
  orphan : ∀ i, (s.proc i).state ≠ .unused → i ≠ ip → (s.proc i).parent ≠ none
  init : s.Alive ip
  quiet : ∀ p, p ≠ ip → (s.proc p).SleepsOn (.proc p) → ∀ i, (s.proc i).parent = some p → (s.proc i).state ≠ .zombie

/-- What the thread of `p` knows of the tree is so. -/
structure KidsOk (p : Slot) (T : TreeView) : Prop where
  kids : ∀ i ∈ T.kids, (s.proc i).parent = some p
  all : p ≠ ip → ∀ i, (s.proc i).parent = some p → i ∈ T.kids
  calm : ∀ i ∈ T.calm, i ∈ T.kids ∧ (p ≠ ip → (s.proc i).state ≠ .zombie)
  par : ∀ q, T.par = some q → (s.proc p).parent = some q ∨ (s.proc p).parent = some ip

structure TreeInv : Prop where
  forest : Forest ip s
  kids : ∀ p, s.hist.thread p = true → KidsOk ip s p (vs (.proc p)).tree

/-! ## `sleep` and `wakeup` -/

/-- Process `p` is not asleep, and is not going to be in the call of `sleep` it is in. -/
def Awake (p : Slot) : Prop :=
  (s.proc p).state ≠ .sleeping ∧ (s.hist.thread p = true → (vs (.proc p)).nap.due = none)

/-- A call of `wakeup` in the history, and what its thread knows of it. -/
structure Wakes (w : Chan × (Slot → Bool)) (u : Chan × Finset Slot) : Prop where
  chan : w.1 = u.1
  nap : ∀ p, w.2 p = true → ∀ n, s.hist.nap p = some n → n.chan = w.1
  done : ∀ p, w.2 p = true → p ∈ u.2 → Awake vs s p

structure NapInv : Prop where
  due : ∀ p, s.hist.thread p = true → ∀ ch lk, (vs (.proc p)).nap.due = some (ch, lk) →
    ∃ n, s.hist.nap p = some n ∧ n.chan = ch
  asleep : ∀ p, (s.proc p).state = .sleeping → ∃ n, s.hist.nap p = some n ∧ (s.proc p).chan = some n.chan
  own : ∀ p n q, s.hist.nap p = some n → n.chan = .proc q → q = p
  woken : ∀ p, s.hist.woken p = true → Awake vs s p
  stack : ∀ t, s.Has t → List.Forall₂ (Wakes vs s) (s.hist.waking t) (vs t).nap.wake

/-! ## Exits and reports -/

/-- What a view knows of the call of `wait` in progress. -/
def ReapOk (exits : List (ℤ × ℤ)) : Option (Option ℕ) → Option (Option (ℤ × ℤ)) → Prop
  | none, none => True
  | some none, some none => True
  | some (some n), some (some x) => exits[n]? = some x
  | _, _ => False

/-- A report is of an exit, with its pid and status, or is -1. -/
def ReportOk (exits : List (ℤ × ℤ)) (rep : Report) : Prop :=
  match rep.exit with
  | none => rep.pid = -1
  | some n => ∃ x, exits[n]? = some x ∧ rep.pid = x.1 ∧ rep.status = if rep.addr ≠ 0 then some x.2 else none

/-- Where the exit with number `n` is: with a zombie, or with a call of `wait` that has taken it. -/
inductive Holds : Slot ⊕ Slot → ℕ → Prop
  | zombie {p : Slot} (h : (s.proc p).state = .zombie) : Holds (.inl p) (s.hist.zombie p)
  | wait {q : Slot} {n : ℕ} (h : s.hist.waiting q = some (some n)) : Holds (.inr q) n

structure ReapInv : Prop where
  exit : ∀ p, (s.proc p).state = .zombie → s.hist.exits[s.hist.zombie p]? = some ((s.proc p).pid, (s.proc p).xstate)
  bound : ∀ x n, Holds s x n → n < s.hist.exits.length
  unique : ∀ x y n, Holds s x n → Holds s y n → x = y
  fresh : ∀ x n, Holds s x n → n ∉ s.hist.reports.filterMap Report.exit
  nodup : (s.hist.reports.filterMap Report.exit).Nodup
  report : ∀ rep ∈ s.hist.reports, ReportOk s.hist.exits rep
  view : ∀ p, s.hist.thread p = true → ReapOk s.hist.exits (s.hist.waiting p) (vs (.proc p)).reap

/-- The invariant. -/
structure Inv : Prop where
  cpu : CpuInv vs s
  exec : ExecInv vs s
  table : TableInv ip strict vs s
  tree : TreeInv ip vs s
  nap : NapInv vs s
  reap : ReapInv vs s

/-! ## Who holds a lock -/

variable {ip strict vs s} {c d : ℕ} {p : Slot} {t : Thread}

theorem CpuInv.exclusive (h : CpuInv vs s) {l : Lock} (hc : l ∈ (vs (s.exec c)).core.held)
    (hd : l ∈ (vs (s.exec d)).core.held) : c = d :=
  Option.some.inj (((h.lock l c).mpr hc).symm.trans ((h.lock l d).mpr hd))

theorem ExecInv.exec_inj (h : ExecInv vs s) (he : s.exec c = s.exec d) : c = d := by
  cases hc : s.exec c with
  | scheduler e =>
    rw [hc] at he
    rw [← h.home c e hc, h.home d e he.symm]
  | proc p => exact h.unique c d p hc (he ▸ hc)

theorem ExecInv.thread_of_exec (h : ExecInv vs s) (hc : s.exec c = .proc p) : s.hist.thread p = true :=
  h.thread p (h.used c p hc)

theorem ExecInv.has (h : ExecInv vs s) (c : ℕ) : s.Has (s.exec c) := by
  cases hc : s.exec c with
  | scheduler e => trivial
  | proc p => exact h.thread_of_exec hc

theorem ExecInv.wf_exec (h : ExecInv vs s) (c : ℕ) : Wf (s.exec c) (vs (s.exec c)) := h.wf _ (h.has c)

theorem Parked.snap {v : View} (h : Parked p v) (hwf : Wf (.proc p) v) (i : Slot) : v.snap i = none := by
  by_contra hne
  obtain ⟨hm, ht⟩ := hwf.snap i hne
  rw [h.held, Finset.mem_singleton] at hm
  exact ht (Lock.proc.inj hm ▸ rfl)

/-- A scheduler that has switched away knows of no process. -/
theorem ExecInv.snap_away (h : ExecInv vs s) (hc : s.exec c ≠ .scheduler c) (i : Slot) :
    (vs (.scheduler c)).snap i = none := by
  have hs := h.sched c
  rw [SchedOk] at hs
  cases hm : (vs (.scheduler c)).core.mode with
  | away p =>
    rw [hm] at hs
    obtain ⟨-, -, hp, -, he | ⟨-, hheld, -⟩⟩ := hs
    · exact absurd he hc
    · by_contra hne
      obtain ⟨hmem, -⟩ := (h.wf (.scheduler c) trivial).snap i hne
      rw [hheld, Finset.mem_singleton] at hmem
      exact hne (Lock.proc.inj hmem ▸ hp)
  | live => rw [hm] at hs; exact hs.elim
  | _ => rw [hm] at hs; exact absurd hs.1 hc

/-- Only a thread that executes knows anything of another process. -/
theorem ExecInv.exec_of_snap (h : ExecInv vs s) (ht : s.Has t) {i : Slot} (hne : (vs t).snap i ≠ none) :
    ∃ c, s.exec c = t := by
  cases t with
  | scheduler c =>
    by_contra hno
    exact hne (h.snap_away (fun he => hno ⟨c, he⟩) i)
  | proc p =>
    by_contra hno
    exact hne ((h.parked p ht fun c he => hno ⟨c, he⟩).snap (h.wf _ ht) i)

theorem ExecInv.exec_of_built (h : ExecInv vs s) (ht : s.Has t) {i : Slot} (hb : (vs t).built = some i) :
    ∃ c, s.exec c = t := h.exec_of_snap ht ((h.wf t ht).built i hb)

variable (h : Inv ip strict vs s)
include h

/-- A process whose lock another thread holds does not hold it itself. -/
theorem Inv.not_own (hc : Lock.proc p ∈ (vs (s.exec c)).core.held) (hne : s.exec c ≠ .proc p)
    (hd : s.exec d = .proc p) : Lock.proc p ∉ (vs (.proc p)).core.held := by
  intro hm
  rw [← hd] at hm
  have := h.cpu.exclusive hc hm
  subst this
  exact hne hd

/-- So it is running, and not about to sleep. -/
theorem Inv.self_of_locked (hc : Lock.proc p ∈ (vs (s.exec c)).core.held) (hne : s.exec c ≠ .proc p)
    (hd : s.exec d = .proc p) : (s.proc p).state = .running ∧ (vs (.proc p)).tree.calm = ∅ ∧
      (vs (.proc p)).nap.due = none ∧ (vs (.proc p)).own.chan = none := by
  have hwf : Wf (.proc p) (vs (.proc p)) := hd ▸ h.exec.wf_exec d
  rw [h.exec.state d p hd]
  exact hwf.self p rfl (h.not_own hc hne hd)

/-- If it is not running, nobody executes it. -/
theorem Inv.still (hc : Lock.proc p ∈ (vs (s.exec c)).core.held) (hne : s.exec c ≠ .proc p)
    (hs : (s.proc p).state ≠ .running) (d : ℕ) : s.exec d ≠ .proc p :=
  fun hd => hs (h.self_of_locked hc hne hd).1

theorem Inv.due_of_locked (hc : Lock.proc p ∈ (vs (s.exec c)).core.held) (hne : s.exec c ≠ .proc p)
    (ht : s.hist.thread p = true) : (vs (.proc p)).nap.due = none := by
  by_cases hd : ∃ d, s.exec d = .proc p
  · obtain ⟨d, hd⟩ := hd
    exact (h.self_of_locked hc hne hd).2.2.1
  · exact (h.exec.parked p ht fun d he => hd ⟨d, he⟩).due

theorem Inv.calm_of_locked (hc : Lock.proc p ∈ (vs (s.exec c)).core.held) (hne : s.exec c ≠ .proc p)
    (ht : s.hist.thread p = true) : (vs (.proc p)).tree.calm = ∅ := by
  by_cases hd : ∃ d, s.exec d = .proc p
  · obtain ⟨d, hd⟩ := hd
    exact (h.self_of_locked hc hne hd).2.1
  · exact (h.exec.parked p ht fun d he => hd ⟨d, he⟩).calm

/-- What the executing thread knows of another process. -/
theorem Inv.snap_exec {x : Proc} (hx : (vs (s.exec c)).snap p = some x) :
    Lock.proc p ∈ (vs (s.exec c)).core.held ∧ s.exec c ≠ .proc p ∧ Agree x (s.proc p) := by
  obtain ⟨hm, hne⟩ := (h.exec.wf_exec c).snap p (by rw [hx]; exact Option.some_ne_none x)
  exact ⟨hm, hne, h.table.snap _ (h.exec.has c) p x hx⟩

/-- Two threads do not know of one process at a time. -/
theorem Inv.snap_unique (hx : (vs (s.exec c)).snap p ≠ none) (ht : s.Has t) (hy : (vs t).snap p ≠ none) :
    t = s.exec c := by
  obtain ⟨d, rfl⟩ := h.exec.exec_of_snap ht hy
  have := h.cpu.exclusive ((h.exec.wf_exec c).snap p hx).1 ((h.exec.wf_exec d).snap p hy).1
  rw [this]

end Xv6Arm.Smp

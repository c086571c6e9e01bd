import Xv6Arm.Smp.Inv

/-!
# What one request changes

Which parts of the state and of the views a request leaves alone, for all
requests at once, and what the others do.
-/
namespace Xv6Arm.Smp
open Lib

variable {c : ℕ} {s s' : Sys} {t : Thread} {v : View} {o : SmpOp} {r : o.Res}

/-! ## Taking and giving up locks -/

theorem acquire_done {l : Lock} {r : Unit} (h : smpStep c (.acquire l) s = .done r s') :
    s.lock l = none ∧ s' = { s with
      lock := Function.update s.lock l (some c)
      cpu := Function.update s.cpu c (s.cpu c).pushOff
      hist := s.hist.acquired (s.cpu c).exec l } := by
  change s.acquire c l = _ at h
  unfold Sys.acquire at h
  cases hl : s.lock l with
  | some d =>
    rw [hl] at h
    dsimp only at h
    split_ifs at h
  | none =>
    rw [hl] at h
    cases h
    exact ⟨rfl, rfl⟩

theorem release_done {l : Lock} {r : Unit} (h : smpStep c (.release l) s = .done r s') :
    s.lock l = some c ∧ (s.cpu c).irq = false ∧ s' = { s with
      lock := Function.update s.lock l none
      cpu := Function.update s.cpu c { s.cpu c with
        noff := (s.cpu c).noff - 1
        irq := decide ((s.cpu c).noff - 1 = 0) && (s.cpu c).intena }
      hist := s.hist.released (s.cpu c).exec l } := by
  change s.release c l = _ at h
  unfold Sys.release Cpu.popOff at h
  split_ifs at h with h1 h2 h3
  cases h
  exact ⟨not_not.mp h1, Bool.eq_false_of_not_eq_true h2, rfl⟩

theorem myproc_done {r : Option Slot} (h : smpStep c .myproc s = .done r s') :
    r = (s.cpu c).proc ∧ s' = s.setCpu c { s.cpu c with
      intena := if (s.cpu c).noff = 0 then (s.cpu c).irq else (s.cpu c).intena
      irq := decide ((s.cpu c).noff = 0) && (s.cpu c).irq } := by
  change s.myproc c = _ at h
  unfold Sys.myproc Cpu.popOff Cpu.pushOff at h
  have h1 : ¬(s.cpu c).noff + 1 < 1 := by omega
  simp only [Bool.false_eq_true, if_false, h1, Nat.add_sub_cancel] at h
  cases h
  refine ⟨rfl, ?_⟩
  by_cases hn : (s.cpu c).noff = 0 <;> simp [hn]

/-! ## What is left alone -/

/-- Requests that have nothing to do with the processor and the locks. -/
def SmpOp.Quiet : SmpOp → Prop
  | .acquire _ | .release _ | .myproc | .sti | .eret | .setIntena _ | .setCpuProc _ | .swtchTo _ | .swtchBack => False
  | _ => True

/-- Requests that change the process table. -/
def SmpOp.Writes : SmpOp → Prop
  | .put _ _ | .freeproc _ => True
  | _ => False

theorem put_cpu (s : Sys) (p : Slot) (f : Field) : (s.put p f).cpu = s.cpu ∧ (s.put p f).lock = s.lock ∧
    (s.put p f).initproc = s.initproc := by
  unfold Sys.put
  split <;> exact ⟨rfl, rfl, rfl⟩

theorem freeproc_cpu (s : Sys) (p : Slot) : (s.freeproc c p).cpu = s.cpu ∧ (s.freeproc c p).lock = s.lock ∧
    (s.freeproc c p).initproc = s.initproc := by
  unfold Sys.freeproc
  split <;> exact ⟨rfl, rfl, rfl⟩

theorem note_frame (s : Sys) (e : Event) : (s.note c e).cpu = s.cpu ∧ (s.note c e).lock = s.lock ∧
    (s.note c e).initproc = s.initproc ∧ (s.note c e).proc = s.proc ∧ (s.note c e).hist.thread = s.hist.thread := by
  unfold Sys.note
  split <;> (try unfold History.wakeupRet) <;> (try split) <;> exact ⟨rfl, rfl, rfl, rfl, rfl⟩

theorem step_quiet (ho : o.Quiet) (h : smpStep c o s = .done r s') : s'.cpu = s.cpu ∧ s'.lock = s.lock := by
  cases o with
  | acquire | release | myproc | sti | eret | setIntena | setCpuProc | swtchTo | swtchBack => exact ho.elim
  | put p f => cases h; exact ⟨(put_cpu s p f).1, (put_cpu s p f).2.1⟩
  | freeproc p => cases h; exact ⟨(freeproc_cpu s p).1, (freeproc_cpu s p).2.1⟩
  | note e => cases h; exact ⟨(note_frame s e).1, (note_frame s e).2.1⟩
  | hang => cases h
  | _ => cases h; exact ⟨rfl, rfl⟩

theorem step_proc (ho : ¬o.Writes) (h : smpStep c o s = .done r s') : s'.proc = s.proc := by
  cases o with
  | acquire l => rw [(acquire_done h).2]
  | release l => rw [(release_done h).2.2]
  | myproc => rw [(myproc_done h).2]; rfl
  | put p f => exact absurd trivial ho
  | freeproc p => exact absurd trivial ho
  | note e => cases h; exact (note_frame s e).2.2.2.1
  | hang => cases h
  | _ => cases h; rfl

/-- Requests that change which thread the processor executes. -/
def SmpOp.Switches : SmpOp → Prop
  | .swtchTo _ | .swtchBack => True
  | _ => False

/-- Requests after which another slot has a thread, or no longer has one. -/
def SmpOp.Spawns : SmpOp → Prop
  | .freeproc _ | .resetContext _ => True
  | _ => False

theorem step_cpu_ne {d : ℕ} (h : smpStep c o s = .done r s') (hd : d ≠ c) : s'.cpu d = s.cpu d := by
  cases o with
  | acquire l => rw [(acquire_done h).2]; exact Function.update_of_ne hd ..
  | release l => rw [(release_done h).2.2]; exact Function.update_of_ne hd ..
  | myproc => rw [(myproc_done h).2]; exact Function.update_of_ne hd ..
  | sti | eret | setIntena | setCpuProc | swtchTo | swtchBack => cases h; exact Function.update_of_ne hd ..
  | _ => rw [(step_quiet (by trivial) h).1]

theorem step_exec (ho : ¬o.Switches) (h : smpStep c o s = .done r s') (d : ℕ) : s'.exec d = s.exec d := by
  by_cases hd : d = c
  · subst hd
    cases o with
    | acquire l => rw [(acquire_done h).2]; simp [Sys.exec, Cpu.pushOff]
    | release l => rw [(release_done h).2.2]; simp [Sys.exec]
    | myproc => rw [(myproc_done h).2]; simp [Sys.exec, Sys.setCpu]
    | swtchTo | swtchBack => exact absurd trivial ho
    | sti | eret | setIntena | setCpuProc => cases h; simp [Sys.exec, Sys.setCpu]
    | _ => rw [Sys.exec, (step_quiet (by trivial) h).1]
  · rw [Sys.exec, step_cpu_ne h hd]

theorem step_cpuProc (ho : ∀ x, o ≠ .setCpuProc x) (h : smpStep c o s = .done r s') (d : ℕ) :
    (s'.cpu d).proc = (s.cpu d).proc := by
  by_cases hd : d = c
  · subst hd
    cases o with
    | acquire l => rw [(acquire_done h).2]; simp [Cpu.pushOff]
    | release l => rw [(release_done h).2.2]; simp
    | myproc => rw [(myproc_done h).2]; simp [Sys.setCpu]
    | setCpuProc x => exact absurd rfl (ho x)
    | sti | eret | setIntena | swtchTo | swtchBack => cases h; simp [Sys.setCpu]
    | _ => rw [(step_quiet (by trivial) h).1]
  · rw [step_cpu_ne h hd]

theorem put_thread (s : Sys) (p : Slot) (f : Field) : (s.put p f).hist.thread = s.hist.thread := by
  unfold Sys.put
  split <;> rfl

theorem step_thread (ho : ¬o.Spawns) (h : smpStep c o s = .done r s') : s'.hist.thread = s.hist.thread := by
  cases o with
  | acquire l => rw [(acquire_done h).2]; rfl
  | release l => rw [(release_done h).2.2]; rfl
  | myproc => rw [(myproc_done h).2]; rfl
  | put p f => cases h; exact put_thread s p f
  | freeproc | resetContext => exact absurd trivial ho
  | note e => cases h; exact (note_frame s e).2.2.2.2
  | hang => cases h
  | _ => cases h; rfl

theorem step_initproc (h : smpStep c o s = .done r s') : s'.initproc = s.initproc := by
  cases o with
  | acquire l => rw [(acquire_done h).2]
  | release l => rw [(release_done h).2.2]
  | myproc => rw [(myproc_done h).2]; rfl
  | put p f => cases h; exact (put_cpu s p f).2.2
  | freeproc p => cases h; exact (freeproc_cpu s p).2.2
  | note e => cases h; exact (note_frame s e).2.2.1
  | hang => cases h
  | _ => cases h; rfl

theorem nextOwn_core (v : View) (f : Field) : (NextOwn v f).core.held = v.core.held ∧
    (NextOwn v f).core.irq = v.core.irq ∧ (NextOwn v f).core.intena = v.core.intena ∧
    (NextOwn v f).core.mode = v.core.mode := by
  cases f <;> exact ⟨rfl, rfl, rfl, rfl⟩

theorem nextOther_core (t : Thread) (p : Slot) (v : View) (x : Proc) (f : Field) :
    (NextOther t p v x f).core.held = v.core.held ∧ (NextOther t p v x f).core.irq = v.core.irq ∧
    (NextOther t p v x f).core.intena = v.core.intena ∧ (NextOther t p v x f).core.state = v.core.state := by
  cases f with
  | state st => cases st <;> exact ⟨rfl, rfl, rfl, rfl⟩
  | _ => exact ⟨rfl, rfl, rfl, rfl⟩

theorem nextNote_core (v : View) (e : Event) : (NextNote v e).core = v.core := by cases e <;> rfl

/-- The view after a request that does not touch the processor. -/
theorem next_quiet (ho : o.Quiet) : (Next t c v s' o r).core.held = v.core.held ∧
    (Next t c v s' o r).core.irq = v.core.irq ∧ (Next t c v s' o r).core.intena = v.core.intena := by
  cases o with
  | acquire | release | myproc | sti | eret | setIntena | setCpuProc | swtchTo | swtchBack => exact ho.elim
  | put p f =>
    simp only [Next]
    split_ifs
    · exact ⟨(nextOwn_core v f).1, (nextOwn_core v f).2.1, (nextOwn_core v f).2.2.1⟩
    · split
      · exact ⟨(nextOther_core t p v _ f).1, (nextOther_core t p v _ f).2.1, (nextOther_core t p v _ f).2.2.1⟩
      · exact ⟨rfl, rfl, rfl⟩
  | freeproc p =>
    simp only [Next]
    split <;> exact ⟨rfl, rfl, rfl⟩
  | getOfile p fd =>
    simp only [Next]
    split_ifs <;> exact ⟨rfl, rfl, rfl⟩
  | note e => simp only [Next, nextNote_core, and_self]
  | _ => exact ⟨rfl, rfl, rfl⟩

/-! ## Changes to the process table -/

section Writes
variable {p : Slot} {f : Field} {ip : Slot} {strict : Prop} {vs : Thread → View}

theorem put_proc (s : Sys) (p : Slot) (f : Field) :
    (s.put p f).proc = Function.update s.proc p (f.apply (s.proc p)) := by
  unfold Sys.put
  split <;> rfl

theorem freeproc_proc (s : Sys) (p : Slot) : (s.freeproc c p).proc = Function.update s.proc p (s.proc p).freed := by
  unfold Sys.freeproc
  split <;> rfl

theorem freeproc_thread (s : Sys) (p : Slot) :
    (s.freeproc c p).hist.thread = Function.update s.hist.thread p false := by
  unfold Sys.freeproc
  split <;> rfl

theorem apply_state (f : Field) (x : Proc) :
    (f.apply x).state = x.state ∨ ∃ st, f = .state st ∧ (f.apply x).state = st := by
  cases f with
  | state st => exact Or.inr ⟨st, rfl, rfl⟩
  | _ => exact Or.inl rfl

theorem next_put_own {r : Unit} (ht : t = .proc p) : Next t c v s' (.put p f) r = NextOwn v f := by
  simp only [Next, if_pos ht]

theorem next_put_other {r : Unit} {x : Proc} (ht : t ≠ .proc p) (hx : v.snap p = some x) :
    Next t c v s' (.put p f) r = NextOther t p v x f := by
  simp only [Next, if_neg ht, hx]

/-- An assignment is to the own process, or to one that the thread has locked. -/
theorem Inv.put_cases (h : Inv ip strict vs s) (hpre : Pre ip strict (s.exec c) (vs (s.exec c)) (.put p f)) :
    (s.exec c = .proc p ∧ (s.proc p).state = .running ∧ PreOwn ip p (vs (s.exec c)) f) ∨
      (s.exec c ≠ .proc p ∧ ∃ x, (vs (s.exec c)).snap p = some x ∧
        PreOther ip strict (s.exec c) p (vs (s.exec c)) x f) := by
  simp only [Pre] at hpre
  by_cases ht : s.exec c = .proc p
  · rw [if_pos ht] at hpre
    refine Or.inl ⟨ht, ?_, hpre.2⟩
    rw [h.exec.state c p ht, ← ht]
    exact hpre.1
  · rw [if_neg ht] at hpre
    exact Or.inr ⟨ht, hpre⟩

theorem PreOwn.used (hpre : PreOwn ip p v f) {x : Proc} (hx : x.state = .running) : (f.apply x).state ≠ .unused := by
  rcases apply_state f x with he | ⟨st, rfl, he⟩
  · rw [he, hx]
    exact ProcState.noConfusion
  · rw [he]
    rintro rfl
    exact hpre

theorem nextOwn_state (hpre : PreOwn ip p v f) {x : Proc} (hx : x.state = v.core.state) :
    (f.apply x).state = (NextOwn v f).core.state := by
  cases f with
  | state st => rfl
  | _ => exact hx

/-- An assignment to the state of another process. -/
theorem PreOther.state_cases {x y : Proc} (hpre : PreOther ip strict t p v x f) (hy : y.state = x.state) :
    (f.apply y).state = y.state ∨ f = .state .runnable ∧ y.state = .sleeping ∨
      (f = .state .runnable ∧ y.state = .unused ∧ v.built = some p) ∨
      f = .state .running ∧ y.state = .runnable ∧ v.core.mode = .idle := by
  cases f with
  | state st =>
    cases st with
    | runnable =>
      rcases hpre with hs | ⟨hs, hb, -⟩
      · exact Or.inr (Or.inl ⟨rfl, hy.trans hs⟩)
      · exact Or.inr (Or.inr (Or.inl ⟨rfl, hy.trans hs, hb⟩))
    | running => exact Or.inr (Or.inr (Or.inr ⟨rfl, hy.trans hpre.1, hpre.2.1⟩))
    | _ => exact hpre.elim
  | _ => exact Or.inl rfl

theorem PreOther.used {x y : Proc} (hpre : PreOther ip strict t p v x f) (hy : y.state = x.state)
    (hu : y.state ≠ .unused) : (f.apply y).state ≠ .unused := by
  rcases hpre.state_cases hy with he | ⟨rfl, -⟩ | ⟨rfl, -⟩ | ⟨rfl, -⟩
  · rwa [he]
  all_goals exact ProcState.noConfusion

end Writes

end Xv6Arm.Smp

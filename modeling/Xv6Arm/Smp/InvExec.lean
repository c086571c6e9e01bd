import Xv6Arm.Smp.InvCpu
import Xv6Arm.Smp.WfStep

/-!
# Who executes what

A request of the thread that processor `c` executes keeps the part of the
invariant that says which threads execute, and what their states then are.
-/
namespace Xv6Arm.Smp
open Lib

variable {ip : Slot} {strict : Prop} {vs : Thread → View} {s s' : Sys} {c : ℕ} {o : SmpOp} {r : o.Res} {v : View}
  {p : Slot}

/-! ## Schedulers -/

/-- The process that a scheduler is dealing with. -/
def Mode.target : Mode → Option Slot
  | .dispatch p _ => some p
  | .away p => some p
  | .back p => some p
  | _ => none

theorem SchedOk.target {w : View} (h : SchedOk s c w) (ht : w.core.mode.target = some p) :
    Lock.proc p ∈ w.core.held ∧ w.snap p = none ∧ (s.proc p).state ≠ .unused := by
  rw [SchedOk] at h
  cases hm : w.core.mode with
  | idle => rw [hm] at ht; cases ht
  | live => rw [hm] at ht; cases ht
  | dispatch q b =>
    rw [hm] at ht h
    cases ht
    exact ⟨h.2.2.1, h.2.2.2.1, by rw [h.2.2.2.2.1]; exact ProcState.noConfusion⟩
  | away q =>
    rw [hm] at ht h
    cases ht
    exact ⟨h.2.1, h.2.2.1, h.2.2.2.1⟩
  | back q =>
    rw [hm] at ht h
    cases ht
    exact ⟨h.2.2.1, h.2.2.2.1, h.2.2.2.2⟩

/-- A scheduler that executes goes on in the same mode. -/
theorem SchedOk.keep {w : View} (h : SchedOk s c w) (hexec : ∀ d, s'.exec d = s.exec d)
    (hcpu : (s'.cpu c).proc = (s.cpu c).proc) (hself : s.exec c = .scheduler c) (hmode : v.core.mode = w.core.mode)
    (htarget : ∀ p, w.core.mode.target = some p → Lock.proc p ∈ v.core.held ∧ v.snap p = none ∧
      (s'.proc p).state = (s.proc p).state) : SchedOk s' c v := by
  rw [SchedOk] at h ⊢
  rw [hmode]
  cases hm : w.core.mode with
  | idle =>
    rw [hm] at h
    exact ⟨(hexec c).trans h.1, hcpu.trans h.2⟩
  | live => rw [hm] at h; exact h
  | dispatch p b =>
    rw [hm] at h
    obtain ⟨h1, h2, h3⟩ := htarget p (by rw [hm]; rfl)
    obtain ⟨g1, g2, -, -, g5, g6⟩ := h
    exact ⟨(hexec c).trans g1, hcpu.trans g2, h1, h2, h3.trans g5, fun d => by rw [hexec]; exact g6 d⟩
  | away p =>
    rw [hm] at h
    obtain ⟨h1, h2, h3⟩ := htarget p (by rw [hm]; rfl)
    obtain ⟨g1, -, -, g4, -⟩ := h
    exact ⟨hcpu.trans g1, h1, h2, h3 ▸ g4, Or.inl ((hexec c).trans hself)⟩
  | back p =>
    rw [hm] at h
    obtain ⟨h1, h2, h3⟩ := htarget p (by rw [hm]; rfl)
    obtain ⟨g1, g2, -, -, g5⟩ := h
    exact ⟨(hexec c).trans g1, hcpu.trans g2, h1, h2, h3 ▸ g5⟩

/-- A scheduler whose view is left alone, and which still executes if it did. -/
theorem SchedOk.stay {w : View} {d : ℕ} (h : SchedOk s d w) (hexec : s'.exec d = s.exec d)
    (hcpu : (s'.cpu d).proc = (s.cpu d).proc)
    (hrun : ∀ p b, w.core.mode = .dispatch p b → (s'.proc p).state = .running ∧ ∀ e, s'.exec e ≠ .proc p)
    (hused : ∀ p, w.core.mode.target = some p → (s'.proc p).state ≠ .unused) : SchedOk s' d w := by
  rw [SchedOk] at h ⊢
  cases hm : w.core.mode with
  | idle =>
    rw [hm] at h
    exact ⟨hexec.trans h.1, hcpu.trans h.2⟩
  | live => rw [hm] at h; exact h
  | dispatch p b =>
    rw [hm] at h
    obtain ⟨g1, g2, g3, g4, -⟩ := h
    exact ⟨hexec.trans g1, hcpu.trans g2, g3, g4, hrun p b hm⟩
  | away p =>
    rw [hm] at h
    obtain ⟨g1, g2, g3, -, g5⟩ := h
    refine ⟨hcpu.trans g1, g2, g3, hused p (by rw [hm]; rfl), ?_⟩
    rw [hexec]
    exact g5
  | back p =>
    rw [hm] at h
    obtain ⟨g1, g2, g3, g4, -⟩ := h
    exact ⟨hexec.trans g1, hcpu.trans g2, g3, g4, hused p (by rw [hm]; rfl)⟩

theorem SchedOk.frame {w : View} {d : ℕ} (h : SchedOk s d w) (hexec : ∀ d, s'.exec d = s.exec d)
    (hcpu : (s'.cpu d).proc = (s.cpu d).proc)
    (hrun : ∀ p b, w.core.mode = .dispatch p b → (s'.proc p).state = .running)
    (hused : ∀ p, w.core.mode.target = some p → (s'.proc p).state ≠ .unused) : SchedOk s' d w := by
  refine h.stay (hexec d) hcpu (fun p b hm => ⟨hrun p b hm, fun e => ?_⟩) hused
  rw [SchedOk, hm] at h
  rw [hexec]
  exact h.2.2.2.2.2 e

/-! ## Requests that do not switch -/

theorem ExecInv.scheduler_ne (h : ExecInv vs s) {d : ℕ} (hd : s.exec d = .proc p) : Thread.scheduler d ≠ s.exec c := by
  intro hf
  obtain rfl := h.home c d hf.symm
  rw [hd] at hf
  cases hf

/-- Processor `c` goes on with the same thread and view `v`. -/
theorem ExecInv.keep (h : ExecInv vs s) (hexec : ∀ d, s'.exec d = s.exec d)
    (hthread : ∀ p, s'.hist.thread p = true → s.hist.thread p = true)
    (hgone : ∀ p, (s'.proc p).state ≠ .unused → s'.hist.thread p = true) (hwf : Wf (s.exec c) v)
    (hsched : ∀ d, SchedOk s' d (Function.update vs (s.exec c) v (.scheduler d)))
    (hmode : ∀ p, s.exec c = .proc p → v.core.mode = .live)
    (hstate : ∀ d p, s.exec d = .proc p →
      (s'.proc p).state = (Function.update vs (s.exec c) v (.proc p)).core.state ∧ (s'.proc p).state ≠ .unused)
    (hrun : ∀ p, (s'.proc p).state = .running → (∃ d, s.exec d = .proc p) ∨
      ∃ d b, (Function.update vs (s.exec c) v (.scheduler d)).core.mode = .dispatch p b) :
    ExecInv (Function.update vs (s.exec c) v) s' := by
  refine ⟨fun d e hd => h.home d e ((hexec d).symm.trans hd), fun d e p hd he => ?_, hsched, fun d p hd => ?_,
    fun d p hd => ?_, fun d p hd => (hstate d p ((hexec d).symm.trans hd)).1,
    fun d p hd => (hstate d p ((hexec d).symm.trans hd)).2, fun p hp hno => ?_, fun p hp => ?_, hgone, fun t ht => ?_⟩
  · exact h.unique d e p ((hexec d).symm.trans hd) ((hexec e).symm.trans he)
  · rw [hexec] at hd
    rw [Function.update_of_ne (h.scheduler_ne hd)]
    exact h.away d p hd
  · rw [hexec] at hd
    by_cases hc : Thread.proc p = s.exec c
    · rw [hc, Function.update_self]
      exact hmode p hc.symm
    · rw [Function.update_of_ne hc]
      exact h.live d p hd
  · have hc : Thread.proc p ≠ s.exec c := fun hf => hno c ((hexec c).trans hf.symm)
    rw [Function.update_of_ne hc]
    exact h.parked p (hthread p hp) fun d hd => hno d ((hexec d).trans hd)
  · rcases hrun p hp with ⟨d, hd⟩ | hd
    · exact Or.inl ⟨d, (hexec d).trans hd⟩
    · exact Or.inr hd
  · by_cases hc : t = s.exec c
    · rw [hc, Function.update_self]
      exact hwf
    · rw [Function.update_of_ne hc]
      refine h.wf t ?_
      cases t with
      | scheduler d => trivial
      | proc p => exact hthread p ht

theorem nextOther_mode {t : Thread} {f : Field} {x : Proc} (hf : f ≠ .state .running) :
    (NextOther t p v x f).core.mode = v.core.mode := by
  cases f with
  | state st =>
    cases st with
    | running => exact absurd rfl hf
    | _ => rfl
  | _ => rfl

/-! ## The scheduler that makes the request -/

section SchedSelf
variable (h : Inv ip strict vs s) (hc : s.exec c = .scheduler c)
include h hc

theorem Inv.sched_acquire {l : Lock} {r : Unit} (hstep : smpStep c (.acquire l) s = .done r s') :
    SchedOk s' c (Next (.scheduler c) c (vs (.scheduler c)) s' (.acquire l) r) := by
  have hs := h.exec.sched c
  refine hs.keep (step_exec (by exact id) hstep) (step_cpuProc (fun _ => SmpOp.noConfusion) hstep c) hc rfl fun p hp => ?_
  obtain ⟨hm, hsnap, -⟩ := hs.target hp
  refine ⟨Finset.mem_insert_of_mem hm, ?_, by rw [step_proc (by exact id) hstep]⟩
  have hfree := (acquire_done hstep).1
  cases l with
  | proc q =>
    have hpq : p ≠ q := by
      rintro rfl
      have := (h.cpu.lock (.proc p) c).mpr (hc ▸ hm)
      rw [hfree] at this
      cases this
    simp only [Next, reduceCtorEq, if_false]
    rwa [Function.update_of_ne hpq]
  | _ => exact hsnap

theorem Inv.sched_release {l : Lock} {r : Unit} (hpre : Pre ip strict (.scheduler c) (vs (.scheduler c)) (.release l))
    (hstep : smpStep c (.release l) s = .done r s') :
    SchedOk s' c (Next (.scheduler c) c (vs (.scheduler c)) s' (.release l) r) := by
  have hs := h.exec.sched c
  have hl : l ∈ (vs (.scheduler c)).core.held := hc ▸ (h.ok_release hstep).1
  have hexec := step_exec (by exact id) hstep
  have hcpu := step_cpuProc (fun _ => SmpOp.noConfusion) hstep c
  by_cases hback : ∃ p, l = .proc p ∧ (vs (.scheduler c)).core.mode = .back p
  · obtain ⟨p, rfl, hm⟩ := hback
    rw [SchedOk, hm] at hs
    have hidle : (Next (.scheduler c) c (vs (.scheduler c)) s' (.release (.proc p)) r).core.mode = .idle := by
      simp only [Next, hm, if_true]
    rw [SchedOk, hidle]
    exact ⟨(hexec c).trans hs.1, hcpu.trans hs.2.1⟩
  · have hnot : ∀ p, (vs (.scheduler c)).core.mode.target = some p → l ≠ .proc p := by
      rintro p hp rfl
      have h2 := (hpre hl).2 p rfl
      rw [if_neg (by exact Thread.noConfusion)] at h2
      rcases h2.2 with hm | ⟨hm | hm, -⟩
      · exact hback ⟨p, rfl, hm⟩
      · rw [hm] at hp; cases hp
      · rw [hm] at hp; cases hp
    have hmode : (Next (.scheduler c) c (vs (.scheduler c)) s' (.release l) r).core.mode =
        (vs (.scheduler c)).core.mode := by
      cases l with
      | proc q =>
        simp only [Next]
        cases hm : (vs (.scheduler c)).core.mode with
        | back p =>
          have hpq : ¬p = q := fun hf => hback ⟨q, rfl, hf ▸ hm⟩
          simp only [hpq, if_false]
        | _ => rfl
      | _ => simp only [Next]; cases (vs (.scheduler c)).core.mode <;> rfl
    refine hs.keep hexec hcpu hc hmode fun p hp => ?_
    obtain ⟨hm, hsnap, -⟩ := hs.target hp
    refine ⟨Finset.mem_erase.mpr ⟨(hnot p hp).symm, hm⟩, ?_, by rw [step_proc (by exact id) hstep]⟩
    cases l with
    | proc q =>
      simp only [Next]
      rwa [Function.update_of_ne fun hf => hnot p hp (congrArg Lock.proc hf.symm)]
    | _ => exact hsnap

theorem Inv.sched_setCpuProc {x : Option Slot} {r : Unit}
    (hpre : Pre ip strict (.scheduler c) (vs (.scheduler c)) (.setCpuProc x))
    (hstep : smpStep c (.setCpuProc x) s = .done r s') :
    SchedOk s' c (Next (.scheduler c) c (vs (.scheduler c)) s' (.setCpuProc x) r) := by
  have hs := h.exec.sched c
  have hexec := step_exec (by exact id) hstep
  have hproc := step_proc (by exact id) hstep
  have hcpu : (s'.cpu c).proc = x := by cases hstep; simp [Sys.setCpu]
  change (vs (.scheduler c)).core.mode.Names x at hpre
  rw [SchedOk] at hs ⊢
  cases hm : (vs (.scheduler c)).core.mode with
  | dispatch p b =>
    rw [hm] at hpre hs
    cases b with
    | true => exact hpre.elim
    | false =>
      cases x with
      | none => exact hpre.elim
      | some q =>
        obtain rfl : q = p := hpre
        simp only [Next, hm]
        obtain ⟨g1, -, g3, g4, g5, g6⟩ := hs
        refine ⟨(hexec c).trans g1, hcpu, g3, g4, by rw [hproc]; exact g5, fun d => by rw [hexec]; exact g6 d⟩
  | away p =>
    rw [hm] at hpre hs
    cases x with
    | some q => exact hpre.elim
    | none =>
      simp only [Next, hm]
      obtain ⟨-, g2, g3, g4, -⟩ := hs
      exact ⟨(hexec c).trans hc, hcpu, g2, g3, by rw [hproc]; exact g4⟩
  | _ => rw [hm] at hpre; exact hpre.elim

end SchedSelf

/-! ## Assignments -/

section Put
variable {f : Field} (h : Inv ip strict vs s)
include h

theorem ExecInv.put_own (hc : s.exec c = .proc p) (hrun : (s.proc p).state = .running)
    (hpre : PreOwn ip p (vs (s.exec c)) f) :
    ExecInv (Function.update vs (s.exec c) (NextOwn (vs (s.exec c)) f)) (s.put p f) := by
  have hstep : smpStep c (.put p f) s = .done () (s.put p f) := rfl
  have hused := hpre.used hrun
  have hother : ∀ i, i ≠ p → (s.put p f).proc i = s.proc i := fun i hi => by
    rw [put_proc, Function.update_of_ne hi]
  have hself : (s.put p f).proc p = f.apply (s.proc p) := by rw [put_proc, Function.update_self]
  have hview : ∀ d, Function.update vs (s.exec c) (NextOwn (vs (s.exec c)) f) (.scheduler d) = vs (.scheduler d) :=
    fun d => Function.update_of_ne (by rw [hc]; exact Thread.noConfusion) ..
  refine h.exec.keep (step_exec (by exact id) hstep) (fun i hi => ?_) (fun i hi => ?_)
    ((h.exec.wf_exec c).next_own hc hpre) (fun d => ?_) (fun i hi => ?_) (fun d i hi => ?_) fun i hi => ?_
  · rwa [put_thread] at hi
  · rw [put_thread]
    by_cases hip : i = p
    · exact hip ▸ h.exec.thread_of_exec hc
    · rw [hother i hip] at hi
      exact h.exec.thread i hi
  · rw [hview]
    refine (h.exec.sched d).frame (step_exec (by exact id) hstep) (by rw [(put_cpu s p f).1]) (fun i b hm => ?_)
      fun i hi => ?_
    · have hs := h.exec.sched d
      rw [SchedOk, hm] at hs
      have hip : i ≠ p := by
        rintro rfl
        exact hs.2.2.2.2.2 c hc
      rw [hother i hip]
      exact hs.2.2.2.2.1
    · by_cases hip : i = p
      · subst hip
        rwa [hself]
      · rw [hother i hip]
        exact ((h.exec.sched d).target hi).2.2
  · rw [(nextOwn_core _ f).2.2.2, hi]
    exact h.exec.live c i hi
  · by_cases hip : i = p
    · subst hip
      rw [hself, ← hc, Function.update_self]
      refine ⟨nextOwn_state hpre ?_, hused⟩
      rw [h.exec.state c i hc, hc]
    · rw [hother i hip, Function.update_of_ne (by rw [hc]; exact fun hf => hip (Thread.proc.inj hf))]
      exact ⟨h.exec.state d i hi, h.exec.used d i hi⟩
  · by_cases hip : i = p
    · exact Or.inl ⟨c, hip ▸ hc⟩
    · rw [hother i hip] at hi
      rcases h.exec.running i hi with hd | ⟨d, b, hd⟩
      · exact Or.inl hd
      · exact Or.inr ⟨d, b, by rw [hview]; exact hd⟩

/-- A scheduler does not deal with a process that another thread has locked, unless that runs. -/
theorem Inv.target_running {d : ℕ} (hd : Thread.scheduler d ≠ s.exec c)
    (ht : (vs (.scheduler d)).core.mode.target = some p) (hl : Lock.proc p ∈ (vs (s.exec c)).core.held) :
    s.exec d = .proc p := by
  have hs := h.exec.sched d
  obtain ⟨hm, -⟩ := hs.target ht
  have hexec : s.exec d ≠ .scheduler d := by
    intro he
    rw [← he] at hm
    rw [h.cpu.exclusive hl hm] at hd
    exact hd he.symm
  rw [SchedOk] at hs
  cases hmode : (vs (.scheduler d)).core.mode with
  | idle => rw [hmode] at ht; cases ht
  | live => rw [hmode] at ht; cases ht
  | away q =>
    rw [hmode] at hs ht
    cases ht
    rcases hs.2.2.2.2 with he | he
    · exact absurd he hexec
    · exact he.1
  | _ =>
    rw [hmode] at hs
    exact absurd hs.1 hexec

/-- The scheduler that makes an assignment to another process. -/
theorem Inv.sched_put {x : Proc} (hc : s.exec c = .scheduler c) (hx : (vs (.scheduler c)).snap p = some x)
    (hpre : PreOther ip strict (.scheduler c) p (vs (.scheduler c)) x f) :
    SchedOk (s.put p f) c (NextOther (.scheduler c) p (vs (.scheduler c)) x f) := by
  have hstep : smpStep c (.put p f) s = .done () (s.put p f) := rfl
  have hs := h.exec.sched c
  obtain ⟨hm, hne, hag⟩ := h.snap_exec (c := c) (by rw [hc]; exact hx)
  rw [hc] at hm
  by_cases hf : f = .state .running
  · subst hf
    rw [SchedOk, hpre.2.1] at hs
    have hold : (s.proc p).state = .runnable := hag.state.trans hpre.1
    have hstill := h.still (c := c) (by rw [hc]; exact hm) hne (by rw [hold]; exact ProcState.noConfusion)
    refine ⟨hs.1, hs.2, hm, Function.update_self .., ?_, hstill⟩
    rw [put_proc, Function.update_self]
    rfl
  · have hmode := nextOther_mode (t := .scheduler c) (v := vs (.scheduler c)) (x := x) (p := p) hf
    refine hs.keep (step_exec (by exact id) hstep) (by rw [(put_cpu s p f).1]) hc hmode fun i hi => ?_
    obtain ⟨him, hisnap, -⟩ := hs.target hi
    have hip : i ≠ p := by
      rintro rfl
      rw [hx] at hisnap
      cases hisnap
    refine ⟨by rw [(nextOther_core ..).1]; exact him, ?_, by rw [put_proc, Function.update_of_ne hip]⟩
    cases f with
    | state st => cases st <;> simpa [NextOther, View.setSnap, Function.update_of_ne hip] using hisnap
    | _ => simpa [NextOther, View.setSnap, Function.update_of_ne hip] using hisnap

theorem ExecInv.put_other {x : Proc} (hne : s.exec c ≠ .proc p) (hx : (vs (s.exec c)).snap p = some x)
    (hpre : PreOther ip strict (s.exec c) p (vs (s.exec c)) x f) :
    ExecInv (Function.update vs (s.exec c) (NextOther (s.exec c) p (vs (s.exec c)) x f)) (s.put p f) := by
  have hstep : smpStep c (.put p f) s = .done () (s.put p f) := rfl
  obtain ⟨hl, -, hag⟩ := h.snap_exec hx
  have hother : ∀ i, i ≠ p → (s.put p f).proc i = s.proc i := fun i hi => by
    rw [put_proc, Function.update_of_ne hi]
  have hself : (s.put p f).proc p = f.apply (s.proc p) := by rw [put_proc, Function.update_self]
  -- A process that executes is running, so its state is not the one that is set.
  have hexec : ∀ d, s.exec d = .proc p → ((s.put p f).proc p).state = (s.proc p).state := by
    intro d hd
    have hrun := (h.self_of_locked hl hne hd).1
    rw [hself]
    rcases hpre.state_cases hag.state with he | ⟨-, he⟩ | ⟨-, he, -⟩ | ⟨-, he, -⟩
    · exact he
    all_goals rw [hrun] at he; cases he
  refine h.exec.keep (step_exec (by exact id) hstep) (fun i hi => ?_) (fun i hi => ?_)
    ((h.exec.wf_exec c).next_other hx hpre) (fun d => ?_) (fun i hi => ?_) (fun d i hi => ?_) fun i hi => ?_
  · rwa [put_thread] at hi
  · rw [put_thread]
    by_cases hip : i = p
    · subst hip
      by_cases hu : (s.proc i).state = .unused
      · rw [hself] at hi
        rcases hpre.state_cases hag.state with he | ⟨-, he⟩ | ⟨-, -, hb⟩ | ⟨-, he, -⟩
        · exact absurd (he.trans hu) hi
        · rw [hu] at he; cases he
        · exact (h.table.born _ (h.exec.has c) i hb).1
        · rw [hu] at he; cases he
      · exact h.exec.thread i hu
    · rw [hother i hip] at hi
      exact h.exec.thread i hi
  · by_cases hd : Thread.scheduler d = s.exec c
    · obtain rfl := h.exec.home c d hd.symm
      rw [hd, Function.update_self, ← hd]
      rw [← hd] at hx hpre
      exact h.sched_put hd.symm hx hpre
    · rw [Function.update_of_ne hd]
      refine (h.exec.sched d).frame (step_exec (by exact id) hstep) (by rw [(put_cpu s p f).1]) (fun i b hm => ?_)
        fun i hi => ?_
      · have hs := h.exec.sched d
        have hip : i ≠ p := by
          rintro rfl
          have := h.target_running hd (by rw [hm]; rfl) hl
          rw [SchedOk, hm] at hs
          exact hs.2.2.2.2.2 d this
        rw [SchedOk, hm] at hs
        rw [hother i hip]
        exact hs.2.2.2.2.1
      · have hu := ((h.exec.sched d).target hi).2.2
        by_cases hip : i = p
        · subst hip
          rw [hself]
          exact hpre.used hag.state hu
        · rwa [hother i hip]
  · have hlive := h.exec.live c i hi
    rw [nextOther_mode, hi, hlive]
    rintro rfl
    rw [hi] at hpre
    have hidle := hpre.2.1
    rw [hlive] at hidle
    cases hidle
  · have hstate : (Function.update vs (s.exec c) (NextOther (s.exec c) p (vs (s.exec c)) x f) (.proc i)).core.state =
        (vs (.proc i)).core.state := by
      by_cases hc : Thread.proc i = s.exec c
      · rw [hc, Function.update_self, (nextOther_core ..).2.2.2]
      · rw [Function.update_of_ne hc]
    rw [hstate]
    by_cases hip : i = p
    · subst hip
      rw [hexec d hi]
      exact ⟨h.exec.state d i hi, h.exec.used d i hi⟩
    · rw [hother i hip]
      exact ⟨h.exec.state d i hi, h.exec.used d i hi⟩
  · have hmode : ∀ d b, (vs (.scheduler d)).core.mode = .dispatch i b →
        (Function.update vs (s.exec c) (NextOther (s.exec c) p (vs (s.exec c)) x f) (.scheduler d)).core.mode =
          .dispatch i b := by
      intro d b hm
      by_cases hd : Thread.scheduler d = s.exec c
      · rw [hd, Function.update_self, nextOther_mode, ← hd, hm]
        rintro rfl
        rw [← hd] at hpre
        have hidle := hpre.2.1
        rw [hm] at hidle
        cases hidle
      · rw [Function.update_of_ne hd, hm]
    have hkeep : (s.proc i).state = .running → (∃ d, s.exec d = .proc i) ∨ ∃ d b,
        (Function.update vs (s.exec c) (NextOther (s.exec c) p (vs (s.exec c)) x f) (.scheduler d)).core.mode =
          .dispatch i b := by
      intro hold
      rcases h.exec.running i hold with hd | ⟨d, b, hd⟩
      · exact Or.inl hd
      · exact Or.inr ⟨d, b, hmode d b hd⟩
    by_cases hip : i = p
    · subst hip
      rw [hself] at hi
      rcases hpre.state_cases hag.state with he | ⟨rfl, -⟩ | ⟨rfl, -⟩ | ⟨rfl, -, hm⟩
      · exact hkeep (he.symm.trans hi)
      · cases hi
      · cases hi
      · cases hc : s.exec c with
        | proc q =>
          rw [hc, h.exec.live c q hc] at hm
          cases hm
        | scheduler d =>
          refine Or.inr ⟨d, false, ?_⟩
          rw [Function.update_self]
          rfl
    · exact hkeep (by rwa [hother i hip] at hi)

end Put

/-! ## `freeproc` -/

theorem next_free_core {t : Thread} {r : Unit} : (Next t c v s' (.freeproc p) r).core = v.core := by
  simp only [Next]
  split <;> rfl

theorem ExecInv.freeproc (h : Inv ip strict vs s) (hpre : Pre ip strict (s.exec c) (vs (s.exec c)) (.freeproc p)) :
    ExecInv (Function.update vs (s.exec c) (Next (s.exec c) c (vs (s.exec c)) (s.freeproc c p) (.freeproc p) ()))
      (s.freeproc c p) := by
  have hstep : smpStep c (.freeproc p) s = .done () (s.freeproc c p) := rfl
  obtain ⟨x, hx, hcase⟩ := hpre
  obtain ⟨hl, hne, hag⟩ := h.snap_exec hx
  have hdead : (s.proc p).state ≠ .running := by
    rw [hag.state]
    rcases hcase with ⟨hz, -⟩ | ⟨hz, -⟩ <;> rw [hz] <;> exact ProcState.noConfusion
  have hstill := h.still hl hne hdead
  have hother : ∀ i, i ≠ p → (s.freeproc c p).proc i = s.proc i := fun i hi => by
    rw [freeproc_proc, Function.update_of_ne hi]
  have hself : ((s.freeproc c p).proc p).state = .unused := by
    rw [freeproc_proc, Function.update_self]
    rfl
  have hsched : ∀ d i, (vs (.scheduler d)).core.mode.target = some i → i ≠ p := by
    rintro d i hi rfl
    by_cases hd : Thread.scheduler d = s.exec c
    · have := ((h.exec.sched d).target hi).2.1
      rw [hd, hx] at this
      cases this
    · exact hstill d (h.target_running hd hi hl)
  have hwf : Wf (s.exec c) (Next (s.exec c) c (vs (s.exec c)) (s.freeproc c p) (.freeproc p) ()) :=
    (h.exec.wf_exec c).next (show Pre ip strict _ _ (.freeproc p) from ⟨x, hx, hcase⟩) trivial
  refine h.exec.keep (step_exec (by exact id) hstep) (fun i hi => ?_) (fun i hi => ?_) hwf (fun d => ?_) (fun i hi => ?_)
    (fun d i hi => ?_) fun i hi => ?_
  · rw [freeproc_thread] at hi
    by_cases hip : i = p
    · subst hip
      rw [Function.update_self] at hi
      cases hi
    · rwa [Function.update_of_ne hip] at hi
  · have hip : i ≠ p := by
      rintro rfl
      exact hi hself
    rw [freeproc_thread, Function.update_of_ne hip]
    rw [hother i hip] at hi
    exact h.exec.thread i hi
  · by_cases hd : Thread.scheduler d = s.exec c
    · obtain rfl := h.exec.home c d hd.symm
      rw [hd, Function.update_self]
      refine (hd ▸ h.exec.sched d).keep (step_exec (by exact id) hstep) (by rw [(freeproc_cpu s p).1]) hd.symm
        (by rw [next_free_core]) fun i hi => ?_
      have hip := hsched d i (hd ▸ hi)
      obtain ⟨him, hisnap, -⟩ := (h.exec.sched d).target (hd ▸ hi)
      rw [hd] at him hisnap
      refine ⟨by rw [next_free_core]; exact him, ?_, by rw [hother i hip]⟩
      simp only [Next, hx, View.setSnap]
      rwa [Function.update_of_ne hip]
    · rw [Function.update_of_ne hd]
      refine (h.exec.sched d).frame (step_exec (by exact id) hstep) (by rw [(freeproc_cpu s p).1]) (fun i b hm => ?_)
        fun i hi => ?_
      · have hs := h.exec.sched d
        rw [SchedOk, hm] at hs
        rw [hother i (hsched d i (by rw [hm]; rfl))]
        exact hs.2.2.2.2.1
      · rw [hother i (hsched d i hi)]
        exact ((h.exec.sched d).target hi).2.2
  · rw [next_free_core, hi]
    exact h.exec.live c i hi
  · have hip : i ≠ p := by
      rintro rfl
      exact hstill d hi
    rw [hother i hip]
    refine ⟨?_, h.exec.used d i hi⟩
    by_cases hc : Thread.proc i = s.exec c
    · rw [hc, Function.update_self, next_free_core, ← hc]
      exact h.exec.state d i hi
    · rw [Function.update_of_ne hc]
      exact h.exec.state d i hi
  · have hip : i ≠ p := by
      rintro rfl
      rw [hself] at hi
      cases hi
    rw [hother i hip] at hi
    rcases h.exec.running i hi with hd | ⟨d, b, hd⟩
    · exact Or.inl hd
    · refine Or.inr ⟨d, b, ?_⟩
      by_cases hdc : Thread.scheduler d = s.exec c
      · rw [hdc, Function.update_self, next_free_core, ← hdc, hd]
      · rw [Function.update_of_ne hdc, hd]

end Xv6Arm.Smp

import Xv6Arm.Smp.Kernel

/-!
# Who runs where

In every run, on any number of processors: which processes are `RUNNING`, that no
kernel stack is in use twice, and that a system call is not interrupted.
-/
namespace Xv6Arm.Smp
open Lib

variable {ip : Slot} {strict : Prop} {vs : Thread → View} {s : Sys} {c : ℕ} {p : Slot} {jobs : List SysOp → Prop}
  {C : Threads.Config smpSig Sys Thread}

/-! ## `RUNNING` and `c->proc` -/

/-- A process is `RUNNING` just if some `c->proc` is the process, save that a processor which holds its
lock may be between the two assignments. -/
structure Scheduled (s : Sys) : Prop where
  running : ∀ p, s.lock (.proc p) = none → ((s.proc p).state = .running ↔ ∃ c, (s.cpu c).proc = some p)
  /-- A scheduler has made the process `RUNNING` and not assigned to `c->proc` yet. -/
  unnamed : ∀ p, (s.proc p).state = .running → (∀ c, (s.cpu c).proc ≠ some p) →
    ∃ c, s.exec c = .scheduler c ∧ s.lock (.proc p) = some c
  /-- The process has set a new state and not completed the `swtch`, or the scheduler it has switched to
  has not assigned to `c->proc` yet. -/
  leaving : ∀ c p, (s.cpu c).proc = some p → (s.proc p).state ≠ .running →
    s.lock (.proc p) = some c ∧ (s.exec c = .proc p ∨ s.exec c = .scheduler c)
  named : ∀ c p, s.exec c = .proc p → (s.cpu c).proc = some p
  unique : ∀ c d p, s.exec c = .proc p → s.exec d = .proc p → c = d
  /-- So nobody is on the kernel stack of a slot that `allocproc` may take. -/
  used : ∀ c p, s.exec c = .proc p → (s.proc p).state ≠ .unused

theorem Inv.named (h : Inv ip strict vs s) (hc : s.exec c = .proc p) : (s.cpu c).proc = some p := by
  have hs := h.exec.sched c
  rw [SchedOk, h.exec.away c p hc] at hs
  exact hs.1

theorem Inv.unnamed (h : Inv ip strict vs s) (hp : (s.proc p).state = .running) (hno : ∀ c, (s.cpu c).proc ≠ some p) :
    ∃ c, s.exec c = .scheduler c ∧ s.lock (.proc p) = some c := by
  rcases h.exec.running p hp with ⟨c, hc⟩ | ⟨c, b, hm⟩
  · exact absurd (h.named hc) (hno c)
  · have hs := h.exec.sched c
    rw [SchedOk, hm] at hs
    obtain ⟨hc, -, hheld, -⟩ := hs
    exact ⟨c, hc, (h.cpu.lock _ c).mpr (by rw [hc]; exact hheld)⟩

theorem Inv.leaving (h : Inv ip strict vs s) (hc : (s.cpu c).proc = some p) (hp : (s.proc p).state ≠ .running) :
    s.lock (.proc p) = some c ∧ (s.exec c = .proc p ∨ s.exec c = .scheduler c) := by
  have hs := h.exec.sched c
  rw [SchedOk] at hs
  cases hm : (vs (.scheduler c)).core.mode with
  | live =>
    rw [hm] at hs
    exact hs.elim
  | idle =>
    rw [hm] at hs
    cases hs.2.symm.trans hc
  | back q =>
    rw [hm] at hs
    cases hs.2.1.symm.trans hc
  | dispatch q b =>
    rw [hm] at hs
    obtain ⟨-, hq, -, -, hrun, -⟩ := hs
    cases b with
    | false => cases hq.symm.trans hc
    | true =>
      cases hq.symm.trans hc
      exact absurd hrun hp
  | away q =>
    rw [hm] at hs
    obtain ⟨hq, hheld, -, -, hexec⟩ := hs
    cases hq.symm.trans hc
    rcases hexec with hexec | ⟨hexec, -⟩
    · exact ⟨(h.cpu.lock _ c).mpr (by rw [hexec]; exact hheld), Or.inr hexec⟩
    · refine ⟨(h.cpu.lock _ c).mpr ?_, Or.inl hexec⟩
      have hwf := h.exec.wf_exec c
      rw [hexec] at hwf ⊢
      by_contra hl
      exact hp ((h.exec.state c p hexec).trans (hwf.self p rfl hl).1)

theorem Inv.scheduled (h : Inv ip strict vs s) : Scheduled s := by
  refine ⟨fun p hl => ⟨fun hp => ?_, fun ⟨c, hc⟩ => ?_⟩, fun p hp hno => h.unnamed hp hno, fun c p hc hp => h.leaving hc hp,
    fun c p hc => h.named hc, h.exec.unique, h.exec.used⟩
  · by_contra hno
    obtain ⟨c, -, hc⟩ := h.unnamed hp fun c hc => hno ⟨c, hc⟩
    rw [hl] at hc
    cases hc
  · by_contra hp
    have := (h.leaving hc hp).1
    rw [hl] at this
    cases this

theorem Lags.scheduled {vs : Thread → StoreView} {g : Slot → Proc} (hinv : Inv ip strict (fun t => (vs t).view) s)
    (hl : Lags vs s g) : Scheduled { s with proc := g } := by
  have h := hinv.scheduled
  have hrun : ∀ p, (g p).state = .running ↔ (s.proc p).state = .running := fun p => by
    rcases hl.cases p with hp | ⟨hu, hp | hp⟩
    · rw [hp]
    · rw [hp, hu]
    · rw [hp, hu]
      exact ⟨ProcState.noConfusion, ProcState.noConfusion⟩
  refine ⟨fun p hf => (hrun p).trans (h.running p hf), fun p hp => h.unnamed p ((hrun p).mp hp),
    fun c p hc hp => h.leaving c p hc fun hr => hp ((hrun p).mpr hr), h.named, h.unique, fun c p hc => ?_⟩
  change (g p).state ≠ .unused
  rw [hl.same p (hl.not_exec hinv hc)]
  exact h.used c p hc

/-- What a processor must not do to a process that another one executes. -/
def SmpOp.Disturbs (p : Slot) : SmpOp → Prop
  | .freeproc q | .put q (.state .unused) | .swtchTo q | .resetContext q => q = p
  | _ => False

theorem Inv.not_executed (h : Inv ip strict vs s) {o : SmpOp} (hpre : Pre ip strict (s.exec c) (vs (s.exec c)) o)
    (ho : o.Disturbs p) (d : ℕ) : s.exec d ≠ .proc p := by
  have hsnap : ∀ x, (vs (s.exec c)).snap p = some x → x.state ≠ .running → s.exec d ≠ .proc p := fun x hx hs => by
    obtain ⟨hl, hne, hag⟩ := h.snap_exec hx
    exact h.still hl hne (hag.state ▸ hs) d
  cases o with
  | freeproc q =>
    obtain rfl : q = p := ho
    obtain ⟨x, hx, hcase⟩ := hpre
    refine hsnap x hx ?_
    rcases hcase with ⟨hz, -⟩ | ⟨hz, -⟩ <;> rw [hz] <;> exact ProcState.noConfusion
  | resetContext q =>
    obtain rfl : q = p := ho
    obtain ⟨-, -, x, hx, hu, -⟩ := hpre
    exact hsnap x hx (by rw [hu]; exact ProcState.noConfusion)
  | swtchTo q =>
    obtain rfl : q = p := ho
    have hc := h.exec_of_dispatch hpre.1
    have hs := h.exec.sched c
    rw [hc] at hpre
    rw [SchedOk, hpre.1] at hs
    exact hs.2.2.2.2.2 d
  | put q f =>
    -- only `freeproc` makes a slot unused
    cases f with
    | state st =>
      cases st with
      | unused => rcases h.put_cases hpre with ⟨-, -, hf⟩ | ⟨-, _, -, hf⟩ <;> exact hf.elim
      | _ => exact ho.elim
    | _ => exact ho.elim
  | _ => exact ho.elim

/-- In every state of every run, `RUNNING` and `c->proc` agree except under `p->lock`, no two processors
execute one process, and a process is only freed, started or switched to while no processor executes it. -/
theorem scheduling_invariant (jobs : List SysOp → Prop) (C : Threads.Config smpSig Sys Thread)
    (hC : Reachable jobs C) :
    Scheduled C.shared ∧ ∀ c o next p, C.thread (C.shared.exec c) = .call (S := smpSig) o next → o.Disturbs p →
      ∀ d, C.shared.exec d ≠ .proc p := by
  obtain ⟨shared, thread⟩ := C
  obtain ⟨vs, ⟨s, g, rfl, hinv, hl⟩, hkeep⟩ := Reachable.inv (jobs_any jobs) hC
  refine ⟨hl.scheduled hinv, fun c o next p hp ho => ?_⟩
  rcases pre_of_pending (c := c) hinv (hkeep _) hp with ⟨-, hpre⟩ | ⟨q, f, l, hleft, rfl⟩
  · exact hinv.not_executed hpre ho
  · obtain rfl : q = p := by
      cases f with
      | state st =>
        cases st with
        | unused => exact ho
        | _ => exact ho.elim
      | _ => exact ho.elim
    exact fun d hd => hl.not_exec hinv hd ⟨c, _, hleft⟩

/-- Processor 0 has switched to the first process. -/
theorem scheduling_invariant_first : ∃ C, Reachable (fun _ => True) C ∧ C.shared.exec 0 = .proc 0 ∧ Scheduled C.shared :=
  ⟨_, (reachable_firstTurn _).ahead 0 6, by decide +kernel,
    (scheduling_invariant _ _ ((reachable_firstTurn fun _ => True).ahead 0 6)).1⟩

/-- Between `p->state = RUNNING` and `c->proc = p`, no `c->proc` is the process, and nobody executes it. -/
theorem running_before_named : ∃ C, Reachable (fun _ => True) C ∧ (C.shared.proc 0).state = .running ∧
    (∀ c, (C.shared.cpu c).proc ≠ some 0) ∧ ∀ c, C.shared.exec c ≠ .proc 0 := by
  refine ⟨_, (reachable_firstTurn _).ahead 0 4, by decide +kernel, fun c => ?_, fun c => ?_⟩
  · by_cases hc : c = 0
    · subst hc
      decide +kernel
    · rw [ahead_cpu_ne hc]
      exact fun hf => nomatch hf
  · by_cases hc : c = 0
    · subst hc
      decide +kernel
    · rw [Sys.exec, ahead_cpu_ne hc]
      exact Thread.noConfusion

/-! ## The trap frame of a system call -/

/-- Processor `c` executes `p` between the assignment of `tf` in `swi_handler` and its return. -/
def InCall (C : Threads.Config smpSig Sys Thread) (c : ℕ) (p : Slot) (tf : ℕ) : Prop :=
  C.shared.exec c = .proc p ∧ (C.shared.hist.window p = some tf ∨
    ∃ next, C.thread (.proc p) = .call (S := smpSig) (.note (.sysEnter tf)) next)

theorem Inv.in_call {vs : Thread → StoreView} {g : Slot → Proc} {thread : Thread → SmpM Unit}
    (h : Inv ip strict (fun t => (vs t).view) s)
    (hkeep : ∀ t, Threads.Keeps (storeSpec ip strict) StoreResting t (thread t) (vs t)) {tf : ℕ}
    (hc : InCall ⟨{ s with proc := g }, thread⟩ c p tf) :
    (vs (.proc p)).view.own.trapframe = some tf ∧ ¬∃ a, thread (.proc p) = .ret a := by
  obtain ⟨hexec, hw | ⟨next, hn⟩⟩ := hc
  all_goals change s.exec c = .proc p at hexec
  · have hwf := h.exec.wf_exec c
    rw [hexec] at hwf
    have hwin : (vs (.proc p)).view.window = some tf := (h.table.window p (h.exec.thread_of_exec hexec)).symm.trans hw
    refine ⟨(hwf.window (by rw [hwin]; exact Option.some_ne_none tf)).trans hwin, ?_⟩
    rintro ⟨a, ha⟩
    have hr := hkeep (.proc p)
    rw [ha] at hr
    cases hr.2.window.symm.trans hwin
  · have hpending := pre_of_pending (c := c) h (hkeep _) (by rw [hexec]; exact hn)
    rw [hexec] at hpending
    rcases hpending with ⟨-, hpre⟩ | ⟨q, f, l, -, ho⟩
    · refine ⟨hpre, ?_⟩
      rintro ⟨a, ha⟩
      cases ha.symm.trans hn
    · cases ho

/-- In every state of every run: while a processor executes a process in a system call, IRQs are masked on
it, the trap frame is the one of the call, and no trap, and so no call of `irq_handler`, begins there. -/
theorem trapframe_stays (jobs : List SysOp → Prop) (C : Threads.Config smpSig Sys Thread) (hC : Reachable jobs C)
    (c : ℕ) (p : Slot) (tf : ℕ) (hc : InCall C c p tf) :
    (C.shared.cpu c).irq = false ∧ (C.shared.proc p).trapframe = tf ∧
      ∀ s m, ¬Arrives jobs c C.shared (C.thread (C.shared.exec c)) s m := by
  obtain ⟨shared, thread⟩ := C
  obtain ⟨vs, ⟨s, g, rfl, hinv, hl⟩, hkeep⟩ := Reachable.inv (jobs_any jobs) hC
  obtain ⟨hframe, hret⟩ := hinv.in_call hkeep hc
  have hexec : s.exec c = .proc p := hc.1
  have hirq : (s.cpu c).irq = false := by
    have hwf := hinv.exec.wf_exec c
    rw [hinv.cpu.irq]
    rw [hexec] at hwf ⊢
    exact hwf.frame (by rw [hframe]; exact Option.some_ne_none tf)
  refine ⟨hirq, ?_, fun s' m hev => ?_⟩
  · change (g p).trapframe = tf
    rw [hl.same p (hl.not_exec hinv hexec)]
    exact (hinv.table.own p (hinv.exec.thread_of_exec hexec)).trapframe tf hframe
  change Arrives jobs c _ (thread (s.exec c)) s' m at hev
  rw [hexec] at hev
  generalize hm : thread (.proc p) = m' at hev
  cases hev with
  | irq hi => cases hirq.symm.trans hi
  | _ => exact hret ⟨_, hm⟩

/-- The system call has slept and goes on on processor 1, without a lock. -/
theorem trapframe_stays_resumed : ∃ C, Reachable (fun _ => True) C ∧ InCall C 1 0 0 ∧ (C.shared.cpu 1).noff = 0 ∧
    (C.shared.cpu 1).irq = false ∧ (C.shared.proc 0).trapframe = 0 := by
  have hC := reachable_sampleWoken.ahead 1 11
  have hin : ((kernel fun _ => True).ahead 1 11 sampleWoken).shared.exec 1 = .proc 0 ∧
      ((kernel fun _ => True).ahead 1 11 sampleWoken).shared.hist.window 0 = some 0 ∧
      (((kernel fun _ => True).ahead 1 11 sampleWoken).shared.cpu 1).noff = 0 := by decide +kernel
  obtain ⟨hirq, hframe, -⟩ := trapframe_stays _ _ hC 1 0 0 ⟨hin.1, Or.inl hin.2.1⟩
  exact ⟨_, hC, ⟨hin.1, Or.inl hin.2.1⟩, hin.2.2, hirq, hframe⟩

end Xv6Arm.Smp

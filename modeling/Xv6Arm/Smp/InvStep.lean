import Xv6Arm.Smp.InvSwitch
import Xv6Arm.Smp.InvTree
import Xv6Arm.Smp.InvNap
import Xv6Arm.Smp.InvReap

/-!
# One request keeps the invariant

The parts put together, for every request, for the start of a new thread, and for
the trap that masks IRQs.
-/
namespace Xv6Arm.Smp
open Lib

variable {ip : Slot} {strict : Prop} {vs : Thread → View} {s s' : Sys} {c : ℕ} {o : SmpOp} {r : o.Res} {p : Slot}

/-! ## The processor -/

/-- A request on processor `c` alone that takes no lock. -/
theorem CpuInv.setCpu (h : CpuInv vs s) (he : ExecInv vs s) {u : Cpu} {v : View} (hexec : u.exec = s.exec c)
    (hheld : v.core.held = (vs (s.exec c)).core.held) (hnoff : u.noff = (s.cpu c).noff) (hirq : u.irq = v.core.irq)
    (hintena : ∀ b, v.core.intena = some b → u.intena = b) :
    CpuInv (Function.update vs (s.exec c) v) (s.setCpu c u) := by
  have hself : (s.setCpu c u).cpu c = u := setCpu_self s c u
  refine h.update he ?_ (fun d hd => setCpu_ne s u hd) (fun l => ?_) (fun l d _ => Iff.rfl) ?_ ?_ ?_
  · rw [hself, hexec]
  · rw [hheld]
    exact h.lock l c
  · rw [hself, hnoff, hheld]
    exact h.noff c
  · rw [hself, hirq]
  · rw [hself]
    exact hintena

theorem CpuInv.plain (h : Inv ip strict vs s) (ho : ¬o.Switches) (hstep : smpStep c o s = .done r s') :
    CpuInv (Function.update vs (s.exec c) (Next (s.exec c) c (vs (s.exec c)) s' o r)) s' := by
  have hquiet : o.Quiet → CpuInv (Function.update vs (s.exec c) (Next (s.exec c) c (vs (s.exec c)) s' o r)) s' := by
    intro hq
    obtain ⟨h1, h2⟩ := step_quiet hq hstep
    obtain ⟨h3, h4, h5⟩ := next_quiet (t := s.exec c) (c := c) (v := vs (s.exec c)) (r := r) hq
    exact h.cpu.same h.exec h1 h2 h3 h4 h5
  cases o with
  | swtchTo | swtchBack => exact absurd trivial ho
  | acquire l => exact h.cpu.acquire h.exec hstep
  | release l => exact h.cpu.release h.exec hstep
  | myproc => exact h.cpu.myproc h.exec hstep
  | sti | eret =>
    cases hstep
    exact h.cpu.setCpu h.exec rfl rfl rfl rfl (h.cpu.intena c)
  | setIntena b =>
    cases hstep
    refine h.cpu.setCpu h.exec rfl rfl rfl (h.cpu.irq c) fun b' hb => ?_
    cases hb
    rfl
  | setCpuProc x =>
    cases hstep
    exact h.cpu.setCpu h.exec rfl rfl rfl (h.cpu.irq c) (h.cpu.intena c)
  | _ => exact hquiet trivial

theorem CpuInv.swtchTo (h : Inv ip strict vs s) {w : View} (hpre : Pre ip strict (s.exec c) (vs (s.exec c)) (.swtchTo p)) :
    CpuInv (Function.update vs (s.exec c) w) (s.setCpu c { s.cpu c with exec := .proc p }) := by
  have hc := h.exec_of_dispatch hpre.1
  have hs := h.exec.sched c
  rw [hc] at hpre
  obtain ⟨hmode, hheld⟩ := hpre
  rw [SchedOk, hmode] at hs
  obtain ⟨-, -, hmem, -, hrun, hno⟩ := hs
  have hpark := h.exec.parked p (h.exec.thread p (by rw [hrun]; exact ProcState.noConfusion)) hno
  refine h.cpu.switch h.exec (t := .proc p) (congrArg Cpu.exec (setCpu_self s c _)) (fun d hd => setCpu_ne s _ hd) rfl ?_ ?_
    ?_ ?_ ?_ hpark.intena
  · rw [setCpu_self]
  · rw [setCpu_self]
  · rw [hc]
    exact Thread.noConfusion
  · rw [hpark.held, hc, hheld]
  · rw [hpark.irq, hc, (h.exec.wf (.scheduler c) trivial).masked ⟨_, hmem⟩]

theorem CpuInv.swtchBack (h : Inv ip strict vs s) {w : View} (hpre : Pre ip strict (s.exec c) (vs (s.exec c)) .swtchBack) :
    CpuInv (Function.update vs (s.exec c) w) (s.setCpu c { s.cpu c with exec := .scheduler c }) := by
  obtain ⟨p, hc, hheld, -⟩ := hpre
  have hs := h.exec.sched c
  rw [SchedOk, h.exec.away c p hc] at hs
  obtain ⟨-, -, -, -, hs | ⟨-, hheld', hirq, hintena⟩⟩ := hs
  · rw [hc] at hs
    cases hs
  refine h.cpu.switch h.exec (t := .scheduler c) (congrArg Cpu.exec (setCpu_self s c _)) (fun d hd => setCpu_ne s _ hd) rfl
    ?_ ?_ ?_ ?_ ?_ hintena
  · rw [setCpu_self]
  · rw [setCpu_self]
  · rw [hc]
    exact Thread.noConfusion
  · rw [hheld', hheld]
  · rw [hirq, (h.exec.wf_exec c).masked (by rw [hheld]; exact Finset.singleton_nonempty _)]

/-! ## Requests -/

theorem Inv.put (h : Inv ip strict vs s) {f : Field} (hpre : Pre ip strict (s.exec c) (vs (s.exec c)) (.put p f)) :
    Inv ip strict (Function.update vs (s.exec c) (Next (s.exec c) c (vs (s.exec c)) (s.put p f) (.put p f) ())) (s.put p f) := by
  have hcpu := CpuInv.plain h (o := .put p f) (c := c) (by exact id) (by exact rfl)
  have hnap := NapInv.put h (r := ()) hpre
  rcases h.put_cases hpre with ⟨hc, hrun, hown⟩ | ⟨hne, x, hx, hother⟩
  · rw [next_put_own hc] at hcpu hnap ⊢
    exact ⟨hcpu, ExecInv.put_own h hc hrun hown, TableInv.put_own h hc hrun hown, TreeInv.put_own h hc hrun hown, hnap,
      ReapInv.put_own h hc hrun hown⟩
  · rw [next_put_other hne hx] at hcpu hnap ⊢
    exact ⟨hcpu, ExecInv.put_other h hne hx hother, TableInv.put_other h hx hother, TreeInv.put_other h hx hother, hnap,
      ReapInv.put_other h hx hother⟩

theorem Inv.step (h : Inv ip strict vs s) (hpre : Pre ip strict (s.exec c) (vs (s.exec c)) o)
    (hstep : smpStep c o s = .done r s') (ho : ∀ p, o ≠ .resetContext p) :
    Inv ip strict (Function.update vs (s.exec c) (Next (s.exec c) c (vs (s.exec c)) s' o r)) s' := by
  cases o with
  | put p f =>
    cases hstep
    exact h.put hpre
  | freeproc p =>
    have hcpu := CpuInv.plain h (by exact id) hstep
    cases hstep
    exact ⟨hcpu, ExecInv.freeproc h hpre, TableInv.freeproc h hpre, TreeInv.freeproc h hpre, NapInv.freeproc h,
      ReapInv.freeproc h hpre⟩
  | resetContext p => exact absurd rfl (ho p)
  | swtchTo p =>
    have htable := TableInv.plain h (by exact id) (by exact id) hpre hstep
    have htree := TreeInv.plain h (by exact id) (by exact id) hstep
    have hnap := NapInv.plain h (by exact id) (by exact id) hpre hstep
    have hreap := ReapInv.plain h (by exact id) (by exact id) hpre hstep
    cases hstep
    exact ⟨CpuInv.swtchTo h hpre, ExecInv.swtchTo h hpre, htable, htree, hnap, hreap⟩
  | swtchBack =>
    have htable := TableInv.plain h (by exact id) (by exact id) hpre hstep
    have htree := TreeInv.plain h (by exact id) (by exact id) hstep
    have hnap := NapInv.plain h (by exact id) (by exact id) hpre hstep
    have hreap := ReapInv.plain h (by exact id) (by exact id) hpre hstep
    cases hstep
    exact ⟨CpuInv.swtchBack h hpre, ExecInv.swtchBack h hpre, htable, htree, hnap, hreap⟩
  | _ =>
    exact ⟨CpuInv.plain h (by exact id) hstep, ExecInv.plain h (by exact id) (by exact id) (by exact id) hpre hstep,
      TableInv.plain h (by exact id) (by exact id) hpre hstep, TreeInv.plain h (by exact id) (by exact id) hstep,
      NapInv.plain h (by exact id) (by exact id) hpre hstep, ReapInv.plain h (by exact id) (by exact id) hpre hstep⟩

/-! ## New threads -/

/-- Only `built` changes in the view of the executing thread. -/
theorem ExecInv.setBuilt (h : Inv ip strict vs s) (hp : (vs (s.exec c)).snap p ≠ none) :
    ExecInv (Function.update vs (s.exec c) { vs (s.exec c) with built := some p }) s := by
  have hview : ∀ t, (Function.update vs (s.exec c) { vs (s.exec c) with built := some p } t).core = (vs t).core ∧
      (Function.update vs (s.exec c) { vs (s.exec c) with built := some p } t).snap = (vs t).snap := fun t => by
    by_cases ht : t = s.exec c
    · rw [ht, Function.update_self]
      exact ⟨rfl, rfl⟩
    · rw [Function.update_of_ne ht]
      exact ⟨rfl, rfl⟩
  refine h.exec.keep (fun _ => rfl) (fun _ hi => hi) h.exec.thread ((h.exec.wf_exec c).setBuilt fun i hi => ?_) (fun d => ?_)
    (fun i hi => by rw [hi]; exact h.exec.live c i hi) (fun d i hi => ?_) fun i hi => ?_
  · cases hi
    exact hp
  · rw [SchedOk, (hview _).1, (hview _).2]
    exact h.exec.sched d
  · rw [(hview _).1]
    exact ⟨h.exec.state d i hi, h.exec.used d i hi⟩
  · refine (h.exec.running i hi).imp_right ?_
    rintro ⟨d, b, hd⟩
    exact ⟨d, b, by rw [(hview _).1, hd]⟩

theorem Inv.resetContext (h : Inv ip strict vs s) (hpre : Pre ip strict (s.exec c) (vs (s.exec c)) (.resetContext p)) :
    Inv ip strict (spawned vs (s.exec c) p (s.proc p).pid) { s with hist := s.hist.reset p } := by
  have htable := TableInv.resetContext h hpre
  have htree := TreeInv.resetContext h hpre
  have hnap := NapInv.resetContext h hpre
  have hreap := ReapInv.resetContext h hpre
  obtain ⟨-, -, x, hx, hu, -⟩ := hpre
  obtain ⟨hl, hne, hag⟩ := h.snap_exec hx
  have hxne : (vs (s.exec c)).snap p ≠ none := by rw [hx]; exact Option.some_ne_none x
  have hno : ∀ d, s.exec d ≠ .proc p := h.still hl hne (by rw [hag.state, hu]; exact ProcState.noConfusion)
  have hexec : ExecInv (spawned vs (s.exec c) p (s.proc p).pid) { s with hist := s.hist.reset p } :=
    (ExecInv.setBuilt h hxne).spawn (parked_born p _) (wf_born p _) hno rfl rfl rfl
  have hcore : ∀ d, (spawned vs (s.exec c) p (s.proc p).pid (s.exec d)).core = (vs (s.exec d)).core := fun d => by
    by_cases hd : s.exec d = s.exec c
    · rw [hd, spawned_exec _ hne]
    · rw [spawned_of_ne _ (hno d) hd]
  refine ⟨⟨fun l d => ?_, fun d => ?_, fun d => ?_, fun d b hb => ?_⟩, hexec, htable, htree, hnap, hreap⟩
  · rw [hcore]
    exact h.cpu.lock l d
  · rw [hcore]
    exact h.cpu.noff d
  · rw [hcore]
    exact h.cpu.irq d
  · rw [hcore] at hb
    exact h.cpu.intena d b hb

/-! ## Traps -/

/-- The processor masks IRQs. -/
theorem Inv.mask (h : Inv ip strict vs s) (c : ℕ) :
    Inv ip strict (Function.update vs (s.exec c) { vs (s.exec c) with core.irq := false }) (s.mask c) := by
  have hcpu : ∀ d, d ≠ c → (s.mask c).cpu d = s.cpu d := fun d hd => setCpu_ne s _ hd
  have hself : (s.mask c).cpu c = { s.cpu c with irq := false } := setCpu_self s c _
  have hproc : ∀ d, ((s.mask c).cpu d).proc = (s.cpu d).proc ∧ (s.mask c).exec d = s.exec d := fun d => by
    by_cases hd : d = c
    · subst hd
      rw [Sys.exec, hself]
      exact ⟨rfl, rfl⟩
    · rw [Sys.exec, hcpu d hd]
      exact ⟨rfl, rfl⟩
  have hwf := h.exec.wf_exec c
  have hview : ∀ t, (Function.update vs (s.exec c) { vs (s.exec c) with core.irq := false } t).core.mode = (vs t).core.mode ∧
      (Function.update vs (s.exec c) { vs (s.exec c) with core.irq := false } t).core.state = (vs t).core.state ∧
      (Function.update vs (s.exec c) { vs (s.exec c) with core.irq := false } t).tree = (vs t).tree ∧
      (Function.update vs (s.exec c) { vs (s.exec c) with core.irq := false } t).nap = (vs t).nap ∧
      (Function.update vs (s.exec c) { vs (s.exec c) with core.irq := false } t).reap = (vs t).reap := fun t => by
    by_cases ht : t = s.exec c
    · rw [ht, Function.update_self]
      exact ⟨rfl, rfl, rfl, rfl, rfl⟩
    · rw [Function.update_of_ne ht]
      exact ⟨rfl, rfl, rfl, rfl, rfl⟩
  refine ⟨?_, ?_, ?_, ?_, ?_, ?_⟩
  · exact h.cpu.setCpu h.exec rfl rfl rfl rfl (h.cpu.intena c)
  · refine h.exec.keep (fun d => (hproc d).2) (fun _ hi => hi) h.exec.thread
      ⟨fun _ => rfl, hwf.intena, hwf.self, hwf.snap, hwf.built, fun _ => rfl, hwf.window⟩ (fun d => ?_)
      (fun i hi => by rw [hi]; exact h.exec.live c i hi) (fun d i hi => ?_) fun i hi => ?_
    · by_cases hd : Thread.scheduler d = s.exec c
      · obtain rfl := h.exec.home c d hd.symm
        rw [hd, Function.update_self, ← hd]
        refine (h.exec.sched d).keep (fun e => (hproc e).2) (hproc d).1 hd.symm rfl fun i hi => ?_
        obtain ⟨h1, h2, -⟩ := (h.exec.sched d).target hi
        exact ⟨h1, h2, rfl⟩
      · rw [Function.update_of_ne hd]
        refine (h.exec.sched d).frame (fun e => (hproc e).2) (hproc d).1 (fun i b hm => ?_) fun i hi => ?_
        · have hs := h.exec.sched d
          rw [SchedOk, hm] at hs
          exact hs.2.2.2.2.1
        · exact ((h.exec.sched d).target hi).2.2
    · rw [(hview _).2.1]
      exact ⟨h.exec.state d i hi, h.exec.used d i hi⟩
    · refine (h.exec.running i hi).imp_right ?_
      rintro ⟨d, b, hd⟩
      exact ⟨d, b, by rw [(hview _).1, hd]⟩
  · refine TableInv.keep h rfl rfl (h.table.snap _ (h.exec.has c)) rfl (fun _ _ => ⟨rfl, rfl⟩) (fun i hi => ?_)
      h.table.clean rfl h.table.kills
    rw [hi]
    exact ⟨h.table.own i (h.exec.thread_of_exec hi), h.table.window i (h.exec.thread_of_exec hi)⟩
  · refine ⟨h.tree.forest.congr (fun _ => rfl) (fun _ => rfl) fun _ => id, fun i hi => ?_⟩
    rw [(hview _).2.2.1]
    exact (h.tree.kids i hi).congr (fun _ => rfl) fun _ _ _ hz => hz
  · refine h.nap.frame rfl rfl rfl ?_ (fun i hi => Or.inl ⟨hi, rfl⟩) (fun t => by rw [(hview t).2.2.2.1])
      fun t => Or.inr (by rw [(hview t).2.2.2.1])
    rintro (d | i) ht
    · trivial
    · exact ht
  · exact ReapInv.same h rfl rfl ⟨rfl, rfl, rfl, rfl⟩ fun i => (hview _).2.2.2.2

end Xv6Arm.Smp

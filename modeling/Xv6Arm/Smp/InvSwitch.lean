import Xv6Arm.Smp.InvExec

/-!
# Switches and new threads

The part of the invariant that says who executes, for the requests that do not
change the process table, for a new thread, and for the two directions of `swtch`.
-/
namespace Xv6Arm.Smp
open Lib

variable {ip : Slot} {strict : Prop} {vs : Thread → View} {s s' : Sys} {c : ℕ} {o : SmpOp} {r : o.Res} {v : View}
  {p : Slot}

/-! ## Other requests -/

theorem next_state {t : Thread} (ho : ¬o.Writes) (ho' : ¬o.Switches) : (Next t c v s' o r).core.state = v.core.state := by
  cases o with
  | put | freeproc => exact absurd trivial ho
  | swtchTo | swtchBack => exact absurd trivial ho'
  | getOfile p fd => simp only [Next]; split_ifs <;> rfl
  | note e => simp only [Next, nextNote_core]
  | _ => rfl

theorem next_mode_live {t : Thread} (hv : v.core.mode = .live) (ho : ¬o.Writes) (ho' : ¬o.Switches) :
    (Next t c v s' o r).core.mode = .live := by
  cases o with
  | put | freeproc => exact absurd trivial ho
  | swtchTo | swtchBack => exact absurd trivial ho'
  | release l => simp only [Next, hv]
  | setCpuProc x => simp only [Next, hv]
  | getOfile p fd => simp only [Next]; split_ifs <;> exact hv
  | note e => simp only [Next, nextNote_core, hv]
  | _ => exact hv

theorem next_mode_dispatch {t : Thread} {b : Bool} (hv : v.core.mode = .dispatch p b) (ho : ¬o.Writes)
    (ho' : ¬o.Switches) : ∃ b', (Next t c v s' o r).core.mode = .dispatch p b' := by
  cases o with
  | put | freeproc => exact absurd trivial ho
  | swtchTo | swtchBack => exact absurd trivial ho'
  | release l => exact ⟨b, by simp only [Next, hv]⟩
  | setCpuProc x => exact ⟨true, by simp only [Next, hv]⟩
  | getOfile q fd => exact ⟨b, by simp only [Next]; split_ifs <;> exact hv⟩
  | note e => exact ⟨b, by simp only [Next, nextNote_core, hv]⟩
  | _ => exact ⟨b, hv⟩

/-- The scheduler that makes a request other than an assignment. -/
theorem Inv.sched_plain (h : Inv ip strict vs s) (hc : s.exec c = .scheduler c) (ho : ¬o.Writes) (ho' : ¬o.Switches)
    (hpre : Pre ip strict (.scheduler c) (vs (.scheduler c)) o) (hstep : smpStep c o s = .done r s') :
    SchedOk s' c (Next (.scheduler c) c (vs (.scheduler c)) s' o r) := by
  have hkeep : ∀ w : View, w.core.mode = (vs (.scheduler c)).core.mode → w.core.held = (vs (.scheduler c)).core.held →
      w.snap = (vs (.scheduler c)).snap → (∀ x, o ≠ .setCpuProc x) → SchedOk s' c w := by
    intro w hmode hheld hsnap hx
    refine (h.exec.sched c).keep (step_exec ho' hstep) (step_cpuProc hx hstep c) hc hmode fun p hp => ?_
    obtain ⟨h1, h2, -⟩ := (h.exec.sched c).target hp
    exact ⟨hheld ▸ h1, hsnap ▸ h2, by rw [step_proc ho hstep]⟩
  cases o with
  | put | freeproc => exact absurd trivial ho
  | swtchTo | swtchBack => exact absurd trivial ho'
  | acquire l => exact h.sched_acquire hc hstep
  | release l => exact h.sched_release hc hpre hstep
  | setCpuProc x => exact h.sched_setCpuProc hc hpre hstep
  | getOfile p fd =>
    simp only [Next, reduceCtorEq, false_and, if_false]
    exact hkeep _ rfl rfl rfl fun _ => SmpOp.noConfusion
  | note e =>
    refine hkeep _ (congrArg CoreView.mode (nextNote_core ..)) (congrArg CoreView.held (nextNote_core ..)) ?_
      fun _ => SmpOp.noConfusion
    cases e <;> rfl
  | _ => exact hkeep _ rfl rfl rfl fun _ => SmpOp.noConfusion

theorem ExecInv.plain (h : Inv ip strict vs s) (ho : ¬o.Writes) (ho' : ¬o.Switches) (hs : ¬o.Spawns)
    (hpre : Pre ip strict (s.exec c) (vs (s.exec c)) o) (hstep : smpStep c o s = .done r s') :
    ExecInv (Function.update vs (s.exec c) (Next (s.exec c) c (vs (s.exec c)) s' o r)) s' := by
  have hproc := step_proc ho hstep
  have hthread := step_thread hs hstep
  have hexec := step_exec ho' hstep
  refine h.exec.keep hexec (fun i hi => by rwa [hthread] at hi) (fun i hi => ?_)
    ((h.exec.wf_exec c).next hpre (h.ok hpre hstep)) (fun d => ?_) (fun i hi => ?_) (fun d i hi => ?_) fun i hi => ?_
  · rw [hproc] at hi
    rw [hthread]
    exact h.exec.thread i hi
  · by_cases hd : Thread.scheduler d = s.exec c
    · obtain rfl := h.exec.home c d hd.symm
      rw [hd, Function.update_self, ← hd]
      exact h.sched_plain hd.symm ho ho' (hd ▸ hpre) hstep
    · rw [Function.update_of_ne hd]
      have hcpu : (s'.cpu d).proc = (s.cpu d).proc := by
        by_cases hdc : d = c
        · subst hdc
          refine step_cpuProc ?_ hstep d
          rintro x rfl
          cases ht : s.exec d with
          | scheduler e => exact hd (h.exec.home d e ht ▸ ht.symm)
          | proc p =>
            change (vs (s.exec d)).core.mode.Names x at hpre
            rw [ht, h.exec.live d p ht] at hpre
            exact hpre
        · rw [step_cpu_ne hstep hdc]
      refine (h.exec.sched d).frame hexec hcpu (fun i b hm => ?_) fun i hi => ?_
      · have hs := h.exec.sched d
        rw [SchedOk, hm] at hs
        rw [hproc]
        exact hs.2.2.2.2.1
      · rw [hproc]
        exact ((h.exec.sched d).target hi).2.2
  · exact next_mode_live (by rw [hi]; exact h.exec.live c i hi) ho ho'
  · rw [hproc]
    refine ⟨?_, h.exec.used d i hi⟩
    by_cases hc : Thread.proc i = s.exec c
    · rw [hc, Function.update_self, next_state ho ho', ← hc]
      exact h.exec.state d i hi
    · rw [Function.update_of_ne hc]
      exact h.exec.state d i hi
  · rw [hproc] at hi
    rcases h.exec.running i hi with hd | ⟨d, b, hd⟩
    · exact Or.inl hd
    · by_cases hdc : Thread.scheduler d = s.exec c
      · obtain ⟨b', hb'⟩ : ∃ b', (Next (s.exec c) c (vs (s.exec c)) s' o r).core.mode = .dispatch i b' :=
          next_mode_dispatch (hdc ▸ hd) ho ho'
        exact Or.inr ⟨d, b', by rw [hdc, Function.update_self, hb']⟩
      · exact Or.inr ⟨d, b, by rw [Function.update_of_ne hdc, hd]⟩

/-! ## A new thread -/

theorem wf_born (p : Slot) (pid : ℤ) : Wf (.proc p) (born p pid) :=
  ⟨fun _ => rfl, fun hf => absurd hf (Finset.singleton_ne_empty _),
    fun q hq hl => absurd (Finset.mem_singleton_self _) (by cases hq; exact hl), fun _ hf => absurd rfl hf,
    fun _ hf => (nomatch hf), fun hf => absurd rfl hf, fun hf => absurd rfl hf⟩

theorem parked_born (p : Slot) (pid : ℤ) : Parked p (born p pid) := ⟨rfl, rfl, rfl, rfl, rfl, rfl, rfl⟩

/-- Slot `p`, which nobody executes, gets a thread. -/
theorem ExecInv.spawn (h : ExecInv vs s) {w : View} (hw : Parked p w) (hwf : Wf (.proc p) w)
    (hno : ∀ d, s.exec d ≠ .proc p) (hcpu : s'.cpu = s.cpu) (hproc : s'.proc = s.proc)
    (hthread : s'.hist.thread = Function.update s.hist.thread p true) :
    ExecInv (Function.update vs (.proc p) w) s' := by
  have hexec : ∀ d, s'.exec d = s.exec d := fun d => by rw [Sys.exec, hcpu]
  have hsched : ∀ d, Function.update vs (.proc p) w (.scheduler d) = vs (.scheduler d) :=
    fun d => Function.update_of_ne Thread.noConfusion ..
  have hview : ∀ d i, s.exec d = .proc i → Function.update vs (.proc p) w (.proc i) = vs (.proc i) := by
    intro d i hi
    refine Function.update_of_ne (fun hf => ?_) ..
    cases hf
    exact hno d hi
  have hold : ∀ i, i ≠ p → s'.hist.thread i = true → s.hist.thread i = true := by
    intro i hi ht
    rwa [hthread, Function.update_of_ne hi] at ht
  refine ⟨fun d e hd => h.home d e (hexec d ▸ hd), fun d e i hd he => h.unique d e i (hexec d ▸ hd) (hexec e ▸ he),
    fun d => ?_, fun d i hd => ?_, fun d i hd => ?_, fun d i hd => ?_, fun d i hd => ?_, fun i hi hni => ?_,
    fun i hi => ?_, fun i hi => ?_, fun t ht => ?_⟩
  · rw [hsched]
    refine (h.sched d).frame hexec (by rw [hcpu]) (fun i b hm => ?_) fun i hi => ?_
    · have hs := h.sched d
      rw [SchedOk, hm] at hs
      rw [hproc]
      exact hs.2.2.2.2.1
    · rw [hproc]
      exact ((h.sched d).target hi).2.2
  · rw [hsched]
    exact h.away d i (hexec d ▸ hd)
  · rw [hview d i (hexec d ▸ hd)]
    exact h.live d i (hexec d ▸ hd)
  · rw [hview d i (hexec d ▸ hd), hproc]
    exact h.state d i (hexec d ▸ hd)
  · rw [hproc]
    exact h.used d i (hexec d ▸ hd)
  · by_cases hip : i = p
    · rw [hip, Function.update_self]
      exact hw
    · rw [Function.update_of_ne fun hf => hip (Thread.proc.inj hf)]
      exact h.parked i (hold i hip hi) fun d hd => hni d (hexec d ▸ hd)
  · rw [hproc] at hi
    rcases h.running i hi with ⟨d, hd⟩ | ⟨d, b, hd⟩
    · exact Or.inl ⟨d, hexec d ▸ hd⟩
    · exact Or.inr ⟨d, b, by rw [hsched]; exact hd⟩
  · rw [hproc] at hi
    rw [hthread]
    by_cases hip : i = p
    · rw [hip, Function.update_self]
    · rw [Function.update_of_ne hip]
      exact h.thread i hi
  · cases t with
    | scheduler d =>
      rw [hsched]
      exact h.wf _ trivial
    | proc i =>
      by_cases hip : i = p
      · subst hip
        rw [Function.update_self]
        exact hwf
      · rw [Function.update_of_ne fun hf => hip (Thread.proc.inj hf)]
        exact h.wf (.proc i) (hold i hip ht)

/-! ## `swtch` -/

theorem setCpu_self (s : Sys) (c : ℕ) (u : Cpu) : (s.setCpu c u).cpu c = u := Function.update_self ..

theorem setCpu_ne {d : ℕ} (s : Sys) (u : Cpu) (hd : d ≠ c) : (s.setCpu c u).cpu d = s.cpu d :=
  Function.update_of_ne hd ..

theorem Inv.exec_of_dispatch (h : Inv ip strict vs s) {b : Bool} (hm : (vs (s.exec c)).core.mode = .dispatch p b) :
    s.exec c = .scheduler c := by
  cases hc : s.exec c with
  | scheduler d => rw [h.exec.home c d hc]
  | proc q =>
    rw [hc, h.exec.live c q hc] at hm
    cases hm

/-- From the scheduler to process `p`. -/
theorem ExecInv.swtchTo (h : Inv ip strict vs s) (hpre : Pre ip strict (s.exec c) (vs (s.exec c)) (.swtchTo p)) :
    ExecInv (Function.update vs (s.exec c) (Next (s.exec c) c (vs (s.exec c)) s' (.swtchTo p) ()))
      (s.setCpu c { s.cpu c with exec := .proc p }) := by
  have hc := h.exec_of_dispatch hpre.1
  have hs := h.exec.sched c
  have hwf : Wf (s.exec c) (Next (s.exec c) c (vs (s.exec c)) s' (.swtchTo p) ()) :=
    (h.exec.wf_exec c).next hpre trivial
  rw [hc] at hpre hwf ⊢
  obtain ⟨hmode, hheld⟩ := hpre
  rw [SchedOk, hmode] at hs
  obtain ⟨-, hproc, hmem, hsnap, hrun, hno⟩ := hs
  have hthread : s.hist.thread p = true := h.exec.thread p (by rw [hrun]; exact ProcState.noConfusion)
  have hpark := h.exec.parked p hthread hno
  let s₁ : Sys := s.setCpu c { s.cpu c with exec := .proc p }
  have hself : s₁.exec c = .proc p := congrArg Cpu.exec (setCpu_self s c _)
  have hother : ∀ d, d ≠ c → s₁.cpu d = s.cpu d := fun d hd => setCpu_ne s _ hd
  have hexec : ∀ d, d ≠ c → s₁.exec d = s.exec d := fun d hd => congrArg Cpu.exec (hother d hd)
  have hview : ∀ u, u ≠ Thread.scheduler c → Function.update vs (.scheduler c)
      (Next (.scheduler c) c (vs (.scheduler c)) s' (.swtchTo p) ()) u = vs u := fun u hu => Function.update_of_ne hu ..
  have hne : ∀ d, d ≠ c → Thread.scheduler d ≠ .scheduler c := fun d hd hf => hd (Thread.scheduler.inj hf)
  refine ⟨fun d e hd => ?_, fun d e q hd he => ?_, fun d => ?_, fun d q hd => ?_, fun d q hd => ?_, fun d q hd => ?_,
    fun d q hd => ?_, fun q hq hnq => ?_, fun q hq => ?_, h.exec.thread, fun t ht => ?_⟩
  · by_cases hdc : d = c
    · rw [hdc, hself] at hd
      cases hd
    · exact h.exec.home d e (hexec d hdc ▸ hd)
  · by_cases hdc : d = c <;> by_cases hec : e = c
    · rw [hdc, hec]
    · rw [hdc, hself] at hd
      cases hd
      exact absurd (hexec e hec ▸ he) (hno e)
    · rw [hec, hself] at he
      cases he
      exact absurd (hexec d hdc ▸ hd) (hno d)
    · exact h.exec.unique d e q (hexec d hdc ▸ hd) (hexec e hec ▸ he)
  · by_cases hdc : d = c
    · subst hdc
      rw [Function.update_self]
      refine ⟨?_, hmem, hsnap, ?_, Or.inr ⟨hself, hheld, ?_, rfl⟩⟩
      · rw [setCpu_self]
        exact hproc
      · exact hrun ▸ ProcState.noConfusion
      · exact (h.exec.wf (.scheduler d) trivial).masked ⟨_, hmem⟩
    · rw [hview _ (hne d hdc)]
      refine (h.exec.sched d).stay (hexec d hdc) (by rw [hother d hdc]) (fun q b hm => ?_) fun q hq => ?_
      · have hs := h.exec.sched d
        rw [SchedOk, hm] at hs
        obtain ⟨g1, -, g3, -, g5, g6⟩ := hs
        refine ⟨g5, fun e he => ?_⟩
        by_cases hec : e = c
        · rw [hec, hself] at he
          cases he
          refine hdc (h.cpu.exclusive ?_ ?_ (l := .proc p))
          · rw [g1]; exact g3
          · rw [hc]; exact hmem
        · exact g6 e (hexec e hec ▸ he)
      · exact ((h.exec.sched d).target hq).2.2
  · by_cases hdc : d = c
    · subst hdc
      rw [hself] at hd
      cases hd
      rw [Function.update_self]
      rfl
    · rw [hview _ (hne d hdc)]
      exact h.exec.away d q (hexec d hdc ▸ hd)
  · rw [hview _ Thread.noConfusion]
    by_cases hdc : d = c
    · rw [hdc, hself] at hd
      cases hd
      exact hpark.mode
    · exact h.exec.live d q (hexec d hdc ▸ hd)
  · rw [hview _ Thread.noConfusion]
    by_cases hdc : d = c
    · rw [hdc, hself] at hd
      cases hd
      exact hrun.trans hpark.state.symm
    · exact h.exec.state d q (hexec d hdc ▸ hd)
  · by_cases hdc : d = c
    · rw [hdc, hself] at hd
      cases hd
      exact hrun ▸ ProcState.noConfusion
    · exact h.exec.used d q (hexec d hdc ▸ hd)
  · rw [hview _ Thread.noConfusion]
    refine h.exec.parked q hq fun d hd => ?_
    by_cases hdc : d = c
    · rw [hdc, hc] at hd
      cases hd
    · exact hnq d ((hexec d hdc).trans hd)
  · by_cases hqp : q = p
    · exact Or.inl ⟨c, by rw [hqp]; exact hself⟩
    · rcases h.exec.running q hq with ⟨d, hd⟩ | ⟨d, b, hd⟩
      · by_cases hdc : d = c
        · rw [hdc, hc] at hd
          cases hd
        · exact Or.inl ⟨d, (hexec d hdc).trans hd⟩
      · by_cases hdc : d = c
        · rw [hdc, hmode] at hd
          cases hd
          exact absurd rfl hqp
        · exact Or.inr ⟨d, b, by rw [hview _ (hne d hdc), hd]⟩
  · by_cases htc : t = .scheduler c
    · rw [htc, Function.update_self]
      exact hwf
    · rw [hview t htc]
      exact h.exec.wf t ht

/-- From a process back to the scheduler. -/
theorem ExecInv.swtchBack (h : Inv ip strict vs s) (hpre : Pre ip strict (s.exec c) (vs (s.exec c)) .swtchBack) :
    ExecInv (Function.update vs (s.exec c) (Next (s.exec c) c (vs (s.exec c)) s' .swtchBack ()))
      (s.setCpu c { s.cpu c with exec := .scheduler c }) := by
  have hwf : Wf (s.exec c) (Next (s.exec c) c (vs (s.exec c)) s' .swtchBack ()) :=
    (h.exec.wf_exec c).next hpre trivial
  obtain ⟨p, hc, hheld, hrun, -⟩ := hpre
  have hold := h.exec.wf_exec c
  rw [hc] at hheld hrun hwf hold ⊢
  let s₁ : Sys := s.setCpu c { s.cpu c with exec := .scheduler c }
  have hself : s₁.exec c = .scheduler c := congrArg Cpu.exec (setCpu_self s c _)
  have hother : ∀ d, d ≠ c → s₁.cpu d = s.cpu d := fun d hd => setCpu_ne s _ hd
  have hexec : ∀ d q, s₁.exec d = .proc q → d ≠ c ∧ s.exec d = .proc q := by
    intro d q hd
    by_cases hdc : d = c
    · rw [hdc, hself] at hd
      cases hd
    · exact ⟨hdc, (congrArg Cpu.exec (hother d hdc)).symm.trans hd⟩
  have hne : ∀ d q, s₁.exec d = .proc q → Thread.proc q ≠ .proc p := by
    intro d q hd hf
    cases hf
    exact (hexec d p hd).1 (h.exec.unique d c p (hexec d p hd).2 hc)
  have hview : ∀ u, u ≠ Thread.proc p → Function.update vs (.proc p)
      (Next (.proc p) c (vs (.proc p)) s' .swtchBack ()) u = vs u := fun u hu => Function.update_of_ne hu ..
  have hmem : Lock.proc p ∈ (vs (.proc p)).core.held := hheld ▸ Finset.mem_singleton_self _
  refine ⟨fun d e hd => ?_, fun d e q hd he => h.exec.unique d e q (hexec d q hd).2 (hexec e q he).2, fun d => ?_,
    fun d q hd => ?_, fun d q hd => ?_, fun d q hd => ?_, fun d q hd => h.exec.used d q (hexec d q hd).2,
    fun q hq hnq => ?_, fun q hq => ?_, h.exec.thread, fun t ht => ?_⟩
  · by_cases hdc : d = c
    · rw [hdc, hself] at hd
      cases hd
      exact hdc.symm
    · exact h.exec.home d e ((congrArg Cpu.exec (hother d hdc)).symm.trans hd)
  · rw [hview _ Thread.noConfusion]
    have hs := h.exec.sched d
    by_cases hdc : d = c
    · subst hdc
      rw [SchedOk, h.exec.away d p hc] at hs ⊢
      obtain ⟨g1, g2, g3, g4, -⟩ := hs
      refine ⟨?_, g2, g3, g4, Or.inl hself⟩
      rw [setCpu_self]
      exact g1
    · refine hs.stay (congrArg Cpu.exec (hother d hdc)) (by rw [hother d hdc]) (fun q b hm => ?_) fun q hq => ?_
      · rw [SchedOk, hm] at hs
        exact ⟨hs.2.2.2.2.1, fun e he => hs.2.2.2.2.2 e (hexec e q he).2⟩
      · exact (hs.target hq).2.2
  · rw [hview _ Thread.noConfusion]
    exact h.exec.away d q (hexec d q hd).2
  · rw [hview _ (hne d q hd)]
    exact h.exec.live d q (hexec d q hd).2
  · rw [hview _ (hne d q hd)]
    exact h.exec.state d q (hexec d q hd).2
  · by_cases hqp : q = p
    · subst hqp
      rw [Function.update_self]
      exact ⟨hheld, hold.masked ⟨_, hmem⟩, rfl, h.exec.live c q hc, rfl, rfl, rfl⟩
    · rw [hview _ fun hf => hqp (Thread.proc.inj hf)]
      refine h.exec.parked q hq fun d hd => ?_
      by_cases hdc : d = c
      · rw [hdc, hc] at hd
        cases hd
        exact hqp rfl
      · exact hnq d ((congrArg Cpu.exec (hother d hdc)).trans hd)
  · rcases h.exec.running q hq with ⟨d, hd⟩ | ⟨d, b, hd⟩
    · have hdc : d ≠ c := by
        rintro rfl
        rw [hc] at hd
        cases hd
        exact hrun ((h.exec.state d p hc).symm.trans hq)
      exact Or.inl ⟨d, (congrArg Cpu.exec (hother d hdc)).trans hd⟩
    · exact Or.inr ⟨d, b, by rw [hview _ Thread.noConfusion, hd]⟩
  · by_cases htc : t = .proc p
    · rw [htc, Function.update_self]
      exact hwf
    · rw [hview t htc]
      exact h.exec.wf t ht

end Xv6Arm.Smp

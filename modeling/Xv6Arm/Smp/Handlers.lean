import Xv6Arm.Smp.Reap

/-!
# Threads from their start to the next rest

A new process, one turn of the scheduler and the handlers of `trap.c` keep to the
specification. An interrupt handler that returns leaves the interrupted thread's
view exactly as it was.
-/
namespace Xv6Arm.Smp
open Lib

variable {ip : Slot} {strict : Prop} {t : Thread} {α : Type} {Q : α → View → Prop} {v : View} {p : Slot}
  {S : Finset ℕ}

theorem Resting.base (h : Resting t v) : Base t ∅ v := by
  refine ⟨by rw [h.held, Finset.image_empty], h.mode, fun _ hne => ?_⟩
  rw [h.held] at hne
  exact absurd hne Finset.not_nonempty_empty

theorem Base.held_empty (h : Base t ∅ v) : v.core.held = ∅ := by rw [h.held, Finset.image_empty]

theorem wp_eret {f : Unit → SmpM α} (hheld : v.core.held = ∅) (hw : v.window = none)
    (h : WP ip strict t (f ()) Q { v with core.irq := true, own.trapframe := none }) :
    WP ip strict t (eret.bind f) Q v :=
  fun _ => ⟨⟨hheld, hw⟩, fun _ _ _ _ => h⟩

theorem Same.window {w : View} (h : Same v w) : w.window = v.window := by rw [Same] at h; rw [h]

/-! ## New processes and the scheduler -/

theorem wp_forkret {pid : ℤ} {fsinit : List Call} (hl : leavesAll fsinit ∅ = ∅) :
    WP ip strict (.proc p) (forkret fsinit) (fun _ w => Resting (.proc p) w) (born p pid) := by
  rw [forkret]
  simp only [Prog.bind_eq]
  refine wp_curproc rfl rfl (wp_release_self rfl rfl rfl rfl rfl (fun hf => absurd rfl hf) fun b _ _ => ?_)
  have hb : Base (.proc p) ∅ { born p pid with core := (born p pid).core.rel (.proc p) b, tree.calm := ∅ } :=
    ⟨Finset.erase_singleton _, rfl, fun hf => absurd rfl hf⟩
  refine WP.bind (wp_calls hb) fun _ w hw => ?_
  rw [hl] at hw
  rw [← Prog.bind_ret eret]
  have hwin : w.window = none := hw.2.window
  exact wp_eret hw.1.held_empty hwin ⟨hw.1.held_empty, hw.1.mode, hwin⟩

/-- A scheduler between two processes. -/
structure Idle (c : ℕ) (v : View) : Prop extends Resting (.scheduler c) v where
  trapframe : v.own.trapframe = none

theorem wp_scheduleOne {c : ℕ} (h : Idle c v) :
    WP ip strict (.scheduler c) (scheduleOne p) (fun _ w => Idle c w) v := by
  rw [scheduleOne]
  simp only [Prog.bind_eq]
  have ht : Thread.scheduler c ≠ .proc p := Thread.noConfusion
  have hmasked : v.Masked := fun hf => absurd h.trapframe hf
  rw [← Prog.bind_ret (release (.proc p))]
  refine wp_acquire_other ht fun hwf hl x hx => wp_get fun r hr => ?_
  have hag : Agree x r := hr.snap x (Function.update_self ..)
  rw [hag.state]
  by_cases hs : x.state = .runnable
  · rw [if_pos hs]
    refine wp_putOther ht (Function.update_self ..) ⟨hs, h.mode, hwf.built_ne hl⟩ ?_
    refine fun _ => ⟨rfl, fun _ _ _ _ => fun _ => ⟨⟨rfl, ?_⟩, fun _ _ _ _ => fun _ => ⟨trivial, fun _ _ _ _ => ?_⟩⟩⟩
    · change insert (Lock.proc p) v.core.held = _
      rw [h.held]
      rfl
    refine fun _ => ⟨fun _ => ⟨fun hf => absurd h.trapframe hf, fun q hq => ?_⟩, fun _ _ _ _ => ?_⟩
    · cases hq
      exact ⟨hwf.built_ne hl, Or.inl rfl⟩
    · refine ⟨⟨?_, if_pos rfl, h.window⟩, h.trapframe⟩
      change (insert (Lock.proc p) v.core.held).erase (.proc p) = ∅
      rw [h.held]
      exact Finset.erase_singleton _
  · rw [if_neg hs]
    refine wp_release_visited ht h.mode hwf hl hmasked hx.clean ?_
    exact ⟨⟨h.held, h.mode, h.window⟩, h.trapframe⟩

theorem wp_scheduler {c : ℕ} (h : Resting (.scheduler c) v) :
    WP ip strict (.scheduler c) scheduler (fun _ w => Resting (.scheduler c) w) v := by
  rw [scheduler]
  simp only [Prog.bind_eq]
  refine fun _ => ⟨⟨h.held, h.mode, h.window⟩, fun _ _ _ _ => ?_⟩
  refine WP.mono (WP.each (I := fun _ w => Idle c w) ⟨⟨h.held, h.mode, h.window⟩, rfl⟩ fun p l w hw => wp_scheduleOne hw) ?_
  exact fun _ w hw => hw.toResting

/-! ## System calls -/

/-- If `strict`, there is no call `kill(0)`. -/
def SysOp.Meets (strict : Prop) : SysOp → Prop
  | .kill pid => strict → pid ≠ 0
  | _ => True

theorem wp_assign {fl : Field} (hb : Base (.proc p) S v) (hp : PreOwn ip p v fl)
    (hn : (NextOwn v fl).core = v.core ∧ (NextOwn v fl).own.trapframe = v.own.trapframe) :
    WP ip strict (.proc p) (putOwn fl) (fun _ w => Base (.proc p) S w) v := by
  rw [putOwn]
  simp only [Prog.bind_eq]
  refine wp_curproc rfl hb.mode ?_
  rw [← Prog.bind_ret (put p fl)]
  refine wp_wf fun hwf => wp_putOwn rfl (hb.running hwf) hp ⟨?_, ?_, ?_⟩
  · rw [hn.1, hb.held]
  · rw [hn.1, hb.mode]
  · intro hf hne
    rw [hn.2] at hf
    rw [hn.1] at hne ⊢
    exact hb.masked hf hne

theorem wp_sysOp {k : SysOp} (hk : k.Meets strict) (hb : Base (.proc p) S v) :
    WP ip strict (.proc p) k.run (fun _ w => Base (.proc p) (k.leaves S) w) v := by
  cases k with
  | call k => exact (wp_call hb).mono fun _ w hw => hw.1
  | fork pt copied => exact WP.bind (wp_fork rfl hb) fun _ w hw => hw
  | wait addr ok fuel => exact wp_wait rfl hb
  | kill pid => exact WP.bind (wp_kill hk hb) fun _ w hw => hw
  | exit status close => exact wp_exit rfl hb
  | sz n => exact wp_assign hb trivial ⟨rfl, rfl⟩
  | pagetable n => exact wp_assign hb trivial ⟨rfl, rfl⟩
  | ofile fd f => exact wp_assign hb trivial ⟨rfl, rfl⟩
  | cwd n => exact wp_assign hb trivial ⟨rfl, rfl⟩

theorem wp_swiHandler {tf : ℕ} {body : List SysOp} {close : Closing} (hk : ∀ k ∈ body, k.Meets strict)
    (hl : Balanced body) (h : Resting (.proc p) v) (hirq : v.core.irq = false) :
    WP ip strict (.proc p) (swiHandler tf body close) (fun _ w => Resting (.proc p) w) v := by
  have hb := h.base
  rw [swiHandler]
  simp only [Prog.bind_eq]
  refine wp_curproc rfl h.mode (wp_wf fun hwf => wp_putOwn rfl (hb.running hwf) ⟨h.window, hirq⟩ ?_)
  refine wp_note rfl (wp_get fun r _ => ?_)
  have hb' : Base (.proc p) ∅ (NextNote (NextOwn v (.trapframe tf)) (.sysEnter tf)) := by
    refine ⟨hb.held, hb.mode, fun _ hne => ?_⟩
    rw [show (NextNote (NextOwn v (.trapframe tf)) (.sysEnter tf)).core.held = ∅ from h.held] at hne
    exact absurd hne Finset.not_nonempty_empty
  split_ifs
  · exact wp_exit rfl hb'
  · let I : List SysOp → View → Prop := fun l w => ∃ S, Base (.proc p) S w ∧
      l.foldl (fun S k => k.leaves S) S = ∅ ∧ ∀ k ∈ l, k.Meets strict
    refine WP.bind (WP.each (I := I) ⟨∅, hb', hl, hk⟩ ?_) ?_
    · rintro k l w ⟨S, hS, hfold, hmeets⟩
      refine WP.mono (wp_sysOp (hmeets k List.mem_cons_self) hS) fun _ u hu => ⟨_, hu, hfold, ?_⟩
      exact fun j hj => hmeets j (List.mem_cons_of_mem _ hj)
    · rintro _ w ⟨S, hS, rfl, -⟩
      rw [← Prog.bind_ret eret]
      exact wp_note trivial (wp_eret hS.held_empty rfl ⟨hS.held_empty, hS.mode, rfl⟩)

theorem wp_abortHandler {close : Closing} {Q : Unit → View → Prop} (h : Resting (.proc p) v) :
    WP ip strict (.proc p) (abortHandler close) Q v := by
  rw [abortHandler]
  simp only [Prog.bind_eq]
  refine wp_curproc rfl h.mode (wp_wf fun hwf => wp_putOwn rfl (h.base.running hwf) trivial ?_)
  exact wp_exit rfl h.base

/-! ## Interrupts -/

/-- The return from an interrupt gives back the view `v` from before it. -/
theorem wp_eret_same {w : View} {Q : Unit → View → Prop} (hwf : Wf t v) (h : Resting t v) (hirq : v.core.irq = true)
    (hb : Base t ∅ w) (hs : Same { v with own.trapframe := w.own.trapframe } w) (hQ : Q () v) :
    WP ip strict t eret Q w := by
  rw [← Prog.bind_ret eret]
  have hwin : w.window = none := hs.window.trans h.window
  refine wp_wf fun hwf' => wp_eret hb.held_empty hwin ?_
  have hframe : v.own.trapframe = none := by
    by_contra hf
    rw [hwf.frame hf] at hirq
    cases hirq
  have hv : { w with core.irq := true, own.trapframe := none } = v := by
    have hi := hwf'.intena hb.held_empty
    have hi' := hwf.intena h.held
    have hheld := hb.held_empty
    have hheld' := h.held
    rw [Same] at hs
    rw [hs]
    obtain ⟨⟨held, irq, intena, mode, state⟩, snap, ⟨chan, pid, closed, noCwd, tf, exit, xstate⟩, tree, nap, built, reap,
      window⟩ := v
    simp only at hframe hirq hi' hheld'
    simp only [hi, hheld, hframe, hirq, hi', hheld']
  rw [hv]
  exact hQ

/-- The part of `irq_handler` after `p->trapframe` is set. -/
theorem wp_interrupted {w : View} {gic : List Call} {m : SmpM Unit} {Q : Unit → View → Prop} (hl : leavesAll gic ∅ = ∅)
    (hb : Base t ∅ w) (hs : Same { v with own.trapframe := w.own.trapframe } w)
    (hm : ∀ u, Base t ∅ u → Same { v with own.trapframe := u.own.trapframe } u → WP ip strict t m Q u) :
    WP ip strict t ((Prog.each Call.run gic).bind fun _ => m) Q w := by
  refine WP.bind (wp_calls hb) fun _ u hu => hm u (hl ▸ hu.1) ?_
  have hown : u.own.trapframe = w.own.trapframe := congrArg OwnView.trapframe hu.2.own
  rw [hown]
  exact hs.trans hu.2

theorem wp_irqHandler {tf : ℕ} {gic : List Call} {timer : Bool} {close : Closing} {Q : Unit → View → Prop}
    (hl : leavesAll gic ∅ = ∅) (hwf : Wf t v) (h : Resting t v) (hirq : v.core.irq = true) (hQ : Q () v) :
    WP ip strict t (irqHandler tf gic timer close) Q { v with core.irq := false } := by
  have hb : Base t ∅ { v with core.irq := false } := ⟨h.base.held, h.mode, h.base.masked⟩
  rw [irqHandler]
  simp only [Prog.bind_eq]
  refine wp_myproc h.mode ?_
  cases t with
  | scheduler d =>
    exact wp_interrupted hl hb rfl fun u hu hs => wp_eret_same hwf h hirq hu hs hQ
  | proc p =>
    refine wp_wf fun hwf' => wp_putOwn rfl (hb.running hwf') ⟨h.window, rfl⟩ ?_
    have hb' : Base (.proc p) ∅ (NextOwn { v with core.irq := false } (.trapframe tf)) := by
      refine ⟨hb.held, hb.mode, fun _ hne => ?_⟩
      rw [show (NextOwn { v with core.irq := false } (.trapframe tf)).core.held = ∅ from h.held] at hne
      exact absurd hne Finset.not_nonempty_empty
    refine wp_interrupted hl hb' rfl fun u hu hs => wp_get fun r _ => ?_
    split_ifs
    · exact wp_exit rfl hu
    · refine wp_get fun r' _ => ?_
      split_ifs
      · exact WP.seq (wp_yield rfl hu.mode (wp_eret_same hwf h hirq hu hs hQ))
      · exact wp_eret_same hwf h hirq hu hs hQ

end Xv6Arm.Smp

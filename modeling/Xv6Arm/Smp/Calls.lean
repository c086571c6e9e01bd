import Xv6Arm.Smp.Sleep

/-!
# `kill`, `fork`, `wait` and `exit` keep to the specification
-/
namespace Xv6Arm.Smp
open Lib

variable {ip : Slot} {strict : Prop} {t : Thread} {α : Type} {Q : α → View → Prop} {v : View} {p q : Slot}
  {S : Finset ℕ}

theorem Base.visited {r : Proc} (h : Base t S v) : Base t S (v.visited t p r) := ⟨h.held, h.mode, h.masked⟩

theorem Base.built_none (h : Base t S v) (hwf : Wf t v) : v.built = none := by
  cases hb : v.built with
  | none => rfl
  | some i => exact absurd hb (hwf.built_ne (h.not_held i))

/-! ## `kill` -/

theorem wp_killHit {pid : ℤ} {f : Unit → SmpM α} (hp : PreNote strict t v (.killHit pid p))
    (h : WP ip strict t (f ()) Q v) : WP ip strict t ((note (.killHit pid p)).bind f) Q v := wp_note hp h

theorem wp_killFrom {pid : ℤ} (hpid : strict → pid ≠ 0) {l : List Slot} (hb : Base t S v) :
    WP ip strict t (killFrom pid l) (fun _ w => Base t S w) v := by
  induction l generalizing v with
  | nil => exact hb
  | cons i l ih =>
    rw [killFrom]
    simp only [Prog.bind_eq]
    by_cases ht : t = .proc i
    · have hlive := hb.mode.trans (congrArg Thread.home ht)
      refine wp_acquire_self ht fun hwf hl => wp_get fun r hr => ?_
      have hs := (hwf.self i ht hl).1
      by_cases hp : r.pid = pid
      · rw [if_pos hp]
        refine wp_putOwn ht hs trivial (wp_killHit (Or.inl ⟨ht, (hr.own ht).2.2.symm.trans hp⟩) ?_)
        refine wp_get fun r' hr' => ?_
        have hrun : r'.state = .running := (hr'.own ht).1.trans hs
        simp only [hrun, reduceCtorEq, if_false]
        exact wp_release_own ht hlive hwf hl hb.masked hb
      · rw [if_neg hp]
        exact wp_release_own ht hlive hwf hl hb.masked (ih hb)
    · refine wp_acquire_other ht fun hwf hl x hx => wp_get fun r hr => ?_
      have hag : Agree x r := hr.snap x (Function.update_self ..)
      have hrel : ∀ (y : Proc) {m : SmpM ℤ}, (y.state = .unused → Clean strict y) →
          WP ip strict t m (fun _ w => Base t S w) (v.visited t i y) →
          WP ip strict t ((release (.proc i)).bind fun _ => m) (fun _ w => Base t S w)
            ((v.acq (.proc i)).setSnap i (some y)) :=
        fun y _ hc h => wp_release_visited ht hb.mode hwf hl hb.masked hc h
      by_cases hp : r.pid = pid
      · have hused : strict → x.state ≠ .unused := by
          intro hs hu
          exact hpid hs (hp.symm.trans (hag.pid.trans (hx.clean hu).pid))
        have hclean : ∀ y : Proc, y = { x with killed := true } → y.state = .unused → Clean strict y := by
          rintro _ rfl hu
          obtain ⟨h1, h2, h3, h4, h5, h6, h7, _⟩ := hx.clean hu
          exact ⟨h1, h2, h3, h4, h5, h6, h7, fun hs => absurd hu (hused hs)⟩
        rw [if_pos hp]
        refine wp_putOther ht (Function.update_self ..) hused ?_
        change WP ip strict t _ _ (((v.acq (.proc i)).setSnap i (some x)).setSnap i (some { x with killed := true }))
        rw [View.setSnap_setSnap]
        refine wp_killHit (Or.inr ⟨_, Function.update_self .., hag.pid.symm.trans hp, hused⟩) (wp_get fun r' hr' => ?_)
        have hag' : Agree { x with killed := true } r' := hr'.snap _ (Function.update_self ..)
        by_cases hs : x.state = .sleeping
        · rw [if_pos (hag'.state.trans hs)]
          refine wp_putRunnable ht (Function.update_self ..) (hwf.built_ne hl) hs ?_
          rw [View.setSnap_setSnap]
          exact hrel _ (fun hf => nomatch hf) hb.visited
        · rw [if_neg fun hf => hs (hag'.state.symm.trans hf)]
          exact hrel _ (hclean _ rfl) hb.visited
      · rw [if_neg hp]
        exact hrel x hx.clean (ih hb.visited)

theorem wp_kill {pid : ℤ} (hpid : strict → pid ≠ 0) (hb : Base t S v) :
    WP ip strict t (kill pid) (fun _ w => Base t S w) v := wp_killFrom hpid hb

/-! ## `fork` -/

theorem wp_allocpid {f : ℤ → SmpM α} (hm : v.core.mode = t.home) (hw : v.Masked)
    (h : ∀ n, WP ip strict t (f n) Q v) : WP ip strict t (allocpid.bind f) Q v := by
  refine wp_acquire_plain plain_pid fun hwf hl => wp_getNextpid fun n => wp_setNextpid ?_
  have hmode : ∀ i, v.core.mode ≠ .back i := by
    intro i hi
    rw [hm] at hi
    cases t <;> cases hi
  refine wp_release_plain plain_pid hmode (hw.acq hwf) fun b _ hb => ?_
  rw [hwf.rel_acq hl hb]
  exact h n

/-- A slot that is not in use yet. Some fields may have been set already. -/
structure Fresh (strict : Prop) (y : Proc) : Prop where
  state : y.state = .unused
  chan : y.chan = none
  parent : y.parent = none
  ofile : ∀ fd, y.ofile fd = 0
  cwd : y.cwd = 0
  killed : strict → y.killed = false

theorem Fresh.clean {y : Proc} (h : Fresh strict y) : Clean strict y.freed :=
  ⟨rfl, rfl, rfl, rfl, rfl, h.ofile, h.cwd, fun _ => rfl⟩

/-- Where process `p` takes the lock of `np`, holding none but locks of other parts of the kernel. -/
structure Before (p np : Slot) (S : Finset ℕ) (v : View) : Prop where
  base : Base (.proc p) S v
  wf : Wf (.proc p) v
  free : Lock.proc np ∉ v.core.held
  ne : Thread.proc p ≠ .proc np

/-- Process `p`, once it holds the lock of `np` and that slot is as in `y`. -/
def View.holding (v : View) (np : Slot) (y : Proc) (b : Option Slot) : View :=
  { (v.acq (.proc np)).setSnap np (some y) with built := b }

section Fork
variable {np : Slot} {y : Proc} {b : Option Slot} {f : Unit → SmpM α}

theorem Before.acq_eq (h : Before p np S v) : (v.acq (.proc np)).setSnap np (some y) = v.holding np y none := by
  rw [View.holding, ← h.base.built_none h.wf]
  rfl

/-- Fields of a slot that is not in use yet. -/
def Field.Inner : Field → Prop
  | .sz _ | .pagetable _ | .trapframe _ | .ofile _ _ | .cwd _ => True
  | _ => False

theorem wp_putInner {fl : Field} (h : Before p np S v) (hf : fl.Inner) (hy : y.state = .unused)
    (hw : WP ip strict (.proc p) (f ()) Q (v.holding np (fl.apply y) b)) :
    WP ip strict (.proc p) ((put np fl).bind f) Q (v.holding np y b) := by
  have hsnap : (v.holding np y b).snap np = some y := Function.update_self ..
  have hnext : NextOther (.proc p) np (v.holding np y b) y fl = v.holding np (fl.apply y) b := by
    have : NextOther (.proc p) np (v.holding np y b) y fl = (v.holding np y b).setSnap np (some (fl.apply y)) := by
      cases fl <;> first | rfl | exact hf.elim
    rw [this]
    simp only [View.holding, View.setSnap, Function.update_idem]
  refine wp_putOther h.ne hsnap ?_ (hnext ▸ hw)
  cases fl <;> first | exact hy | exact hf.elim

/-- A slot that is not in use yet is given up again. -/
theorem wp_freeFresh (h : Before p np S v) (hy : Fresh strict y) (hb : b = none ∨ b = some np)
    (hw : ∀ w, Base (.proc p) S w → WP ip strict (.proc p) (f ()) Q w) :
    WP ip strict (.proc p) ((freeproc np).bind fun _ => (release (.proc np)).bind f) Q (v.holding np y b) := by
  refine wp_freeproc (Function.update_self ..) (Or.inr ⟨hy.state, hy.parent⟩) ?_
  let u : View := { v with tree := { v.tree with kids := v.tree.kids.erase np, calm := v.tree.calm.erase np } }
  have hu : Wf (.proc p) u := h.wf.setTree (Finset.erase_subset _ _)
  have hfree : (v.holding np y b).free np y = (u.acq (.proc np)).setSnap np (some y.freed) := by
    have hbuilt : (if b = some np then none else b) = v.built := by
      rw [h.base.built_none h.wf]
      rcases hb with rfl | rfl <;> simp
    simp [View.free, View.holding, View.setSnap, hy.state, u, View.acq]
    exact hbuilt
  rw [hfree]
  refine wp_release_visited h.ne h.base.mode hu h.free h.base.masked (fun _ => hy.clean) ?_
  exact hw _ ⟨h.base.held, h.base.mode, h.base.masked⟩

end Fork

theorem wp_allocprocFound {np : Slot} {x : Proc} {pt : ℕ} {f : Option Slot → SmpM α} (h : Before p np S v)
    (hx : Fresh strict x)
    (hnone : ∀ w, Base (.proc p) S w → WP ip strict (.proc p) (f none) Q w)
    (hsome : ∀ y, Fresh strict y → WP ip strict (.proc p) (f (some np)) Q (v.holding np y (some np))) :
    WP ip strict (.proc p) ((allocprocFound pt np).bind f) Q (v.holding np x none) := by
  rw [allocprocFound]
  simp only [Prog.bind_eq, Prog.bind_assoc]
  refine wp_allocpid h.base.mode (View.Masked.acq h.base.masked h.wf) fun n => ?_
  have hpid : NextOther (.proc p) np (v.holding np x none) x (.pid n) = v.holding np { x with pid := n } none := by
    change (v.holding np x none).setSnap np (some { x with pid := n }) = _
    simp only [View.holding, View.setSnap, Function.update_idem]
  refine wp_putOther h.ne (Function.update_self ..) ⟨hx.state, rfl⟩ ?_
  rw [hpid]
  refine wp_putInner h trivial hx.state (wp_putInner h trivial hx.state ?_)
  have hy : Fresh strict (Field.apply (.pagetable pt) (Field.apply (.trapframe (topFrame np)) { x with pid := n })) :=
    ⟨hx.state, hx.chan, hx.parent, hx.ofile, hx.cwd, hx.killed⟩
  split_ifs
  · exact wp_freeFresh h hy (Or.inl rfl) hnone
  · exact wp_resetContext rfl rfl (Function.update_self ..) hx.state hx.chan (hsome _ hy)

theorem wp_allocproc {pt : ℕ} {f : Option Slot → SmpM α} (hb : Base (.proc p) S v)
    (hnone : ∀ w, Base (.proc p) S w → WP ip strict (.proc p) (f none) Q w)
    (hsome : ∀ np w y, Before p np S w → Fresh strict y →
      WP ip strict (.proc p) (f (some np)) Q (w.holding np y (some np))) :
    WP ip strict (.proc p) ((allocproc pt).bind f) Q v := by
  rw [allocproc]
  induction List.finRange NPROC generalizing v with
  | nil => exact hnone v hb
  | cons i l ih =>
    rw [allocprocFrom]
    simp only [Prog.bind_eq, Prog.bind_assoc]
    by_cases ht : Thread.proc p = .proc i
    · refine wp_acquire_self ht fun hwf hl => wp_get fun r hr => ?_
      have hrun : r.state = .running := (hr.own ht).1.trans (hwf.self i ht hl).1
      simp only [hrun, reduceCtorEq, if_false]
      exact wp_release_own ht hb.mode hwf hl hb.masked (ih hb)
    · refine wp_acquire_other ht fun hwf hl x hx => wp_get fun r hr => ?_
      have hag : Agree x r := hr.snap x (Function.update_self ..)
      have hbef : Before p i S v := ⟨hb, hwf, hl, ht⟩
      rw [hag.state]
      by_cases hs : x.state = .unused
      · have hc := hx.clean hs
        rw [if_pos hs, hbef.acq_eq]
        exact wp_allocprocFound hbef ⟨hs, hc.chan, hc.parent, hc.ofile, hc.cwd, hc.killed⟩ hnone
          fun y hy => hsome i v y hbef hy
      · rw [if_neg hs]
        exact wp_release_visited ht hb.mode hwf hl hb.masked hx.clean (ih hb.visited)

/-- A child that `p` is setting up. -/
structure Child (strict : Prop) (p : Slot) (y : Proc) : Prop where
  state : y.state = .unused
  parent : y.parent = some p
  killed : strict → y.killed = false

/-- One turn of the loop over the open files. -/
theorem wp_dupOfile {np : Slot} {i : Fd} {y : Proc} (h : Before p np S v) (hy : Child strict p y) :
    WP ip strict (.proc p) (dupOfile p np i)
      (fun _ w => ∃ u z, w = u.holding np z (some np) ∧ Before p np S u ∧ Child strict p z)
      (v.holding np y (some np)) := by
  rw [dupOfile]
  simp only [Prog.bind_eq]
  refine wp_getOfile fun n => ?_
  by_cases hn : n = 0
  · simp only [hn, and_self, ne_eq, not_true_eq_false, if_true, if_false]
    let u : View := { v with own.closed := Function.update v.own.closed i True }
    have hu : Before p np S u := by
      have hwf := h.wf
      exact ⟨⟨h.base.held, h.base.mode, h.base.masked⟩,
        ⟨hwf.masked, hwf.intena, hwf.self, hwf.snap, hwf.built, hwf.frame, hwf.window⟩, h.free, h.ne⟩
    exact ⟨u, y, rfl, hu, hy⟩
  · simp only [hn, and_false, ne_eq, not_false_eq_true, if_true, if_false]
    rw [← Prog.bind_ret (put np (.ofile i n))]
    exact wp_putInner h trivial hy.state ⟨v, _, rfl, h, hy.state, hy.parent, hy.killed⟩

theorem wp_fork {pt : ℕ} {copied : Bool} (ht : t = .proc p) (hb : Base t S v) :
    WP ip strict t (fork pt copied) (fun _ w => Base t S w) v := by
  subst ht
  rw [fork]
  simp only [Prog.bind_eq]
  refine wp_curproc rfl hb.mode (wp_allocproc hb (fun w hw => hw) fun np w y hbef hy => ?_)
  cases copied with
  | false => exact wp_freeFresh hbef hy (Or.inr rfl) fun w hw => hw
  | true =>
    simp only [Bool.not_true, Bool.false_eq_true, if_false]
    have hrun := (hbef.wf.self p rfl (hbef.base.not_held p)).1
    refine wp_get fun r _ => wp_putInner hbef trivial hy.state ?_
    refine wp_putOther hbef.ne (Function.update_self ..) ⟨p, rfl, Or.inl ⟨hy.state, hy.parent, hrun, rfl, rfl⟩⟩ ?_
    let u : View := { w with tree := { w.tree with
      kids := insert np w.tree.kids
      calm := w.tree.calm.erase np } }
    have hu : Before p np S u :=
      ⟨⟨hbef.base.held, hbef.base.mode, hbef.base.masked⟩, hbef.wf.setTree (Finset.erase_subset _ _), hbef.free, hbef.ne⟩
    have hnext : NextOther (.proc p) np (w.holding np (Field.apply (.sz r.sz) y) (some np))
        (Field.apply (.sz r.sz) y) (.parent (some p)) =
        u.holding np { Field.apply (.sz r.sz) y with parent := some p } (some np) := by
      simp [NextOther, View.holding, View.setSnap, View.acq, u]
    rw [hnext]
    refine WP.bind (WP.each (I := fun _ w => ∃ u z, w = u.holding np z (some np) ∧ Before p np S u ∧ Child strict p z)
      ⟨u, { Field.apply (.sz r.sz) y with parent := some p }, rfl, hu, hy.state, rfl, hy.killed⟩ ?_) ?_
    · rintro i l _ ⟨u, z, rfl, hu, hz⟩
      exact wp_dupOfile hu hz
    · rintro _ _ ⟨u, z, rfl, hu, hz⟩
      refine wp_get fun r' _ => wp_putInner hu trivial hz.state (wp_get fun r'' _ => ?_)
      refine wp_putOther hu.ne (Function.update_self ..) (Or.inr ⟨hz.state, rfl, hz.killed, p, rfl, hz.parent⟩) ?_
      have hnext : ∀ z, NextOther (.proc p) np (u.holding np z (some np)) z (.state .runnable) =
          (u.acq (.proc np)).setSnap np (some { z with state := .runnable }) := by
        intro z
        rw [hu.acq_eq]
        simp [NextOther, View.holding, View.setSnap]
      rw [hnext]
      refine wp_release_visited hu.ne hu.base.mode hu.wf hu.free hu.base.masked ProcState.noConfusion ?_
      exact hu.base.visited

end Xv6Arm.Smp

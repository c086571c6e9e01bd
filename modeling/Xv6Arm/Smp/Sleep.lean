import Xv6Arm.Smp.Rules

/-!
# `sched`, `sleep` and `wakeup` keep to the specification

What the functions of `proc.c` that other parts of the kernel call do to the view
of the calling thread: all but the locks and the interrupt flags is as before.
-/
namespace Xv6Arm.Smp
open Lib

variable {ip : Slot} {strict : Prop} {t : Thread} {α : Type} {Q : α → View → Prop} {v : View} {p q : Slot}

/-! ## Giving up the processor -/

theorem wp_sched {Q : Unit → View → Prop} (ht : t = .proc p) (hm : v.core.mode = .live)
    (hs : v.core.state ≠ .running) (hu : v.core.state ≠ .unused)
    (hd : v.nap.due ≠ none → v.core.state = .sleeping)
    (h : ∀ b, v.core.held = {.proc p} → v.core.Restores (.proc p) b →
      Q () { v with
        core := { v.core with state := .running, intena := some b }
        tree.calm := ∅
        nap.due := none }) :
    WP ip strict t sched Q v := by
  rw [sched]
  simp only [Prog.bind_eq]
  refine wp_curproc ht hm (wp_holding ?_)
  by_cases hl : Lock.proc p ∈ v.core.held
  · simp only [hl, decide_true, Bool.not_true, Bool.false_eq_true, if_false]
    refine wp_getNoff ?_
    by_cases hc : v.core.held.card = 1
    · have hheld : v.core.held = {.proc p} := by
        obtain ⟨l, he⟩ := Finset.card_eq_one.mp hc
        rw [he, Finset.mem_singleton] at hl
        rw [he, hl]
      simp only [hc, ne_eq, not_true_eq_false, if_false]
      refine wp_get fun r hr => ?_
      rw [if_neg (by rw [(hr.own ht).1]; exact hs)]
      refine wp_intrGet ?_
      cases v.core.irq with
      | true => trivial
      | false =>
        simp only [Bool.false_eq_true, if_false]
        refine fun _ => ⟨trivial, fun _ b _ hb => ?_⟩
        refine fun _ => ⟨⟨p, ht, hheld, hs, hu, hd⟩, fun _ _ _ _ => ?_⟩
        refine fun _ => ⟨?_, fun _ _ _ _ => h b hheld fun b' h' _ => hb b' h'⟩
        exact ⟨_, hheld ▸ Finset.mem_singleton_self (Lock.proc p)⟩
    · simp only [hc, ne_eq, not_false_eq_true, if_true]
      trivial
  · simp only [hl, decide_false, Bool.not_false, if_true]
    trivial

/-- If taking a lock gives a set of one lock, there was none before. -/
theorem eq_empty_of_insert {l : Lock} {S : Finset Lock} (hl : l ∉ S) (h : insert l S = {l}) : S = ∅ := by
  rw [← Finset.erase_insert hl, h, Finset.erase_singleton]

/-- `yield` comes back with the same view. -/
theorem wp_yield {Q : Unit → View → Prop} (ht : t = .proc p) (hm : v.core.mode = .live) (h : Q () v) :
    WP ip strict t yield Q v := by
  rw [yield]
  simp only [Prog.bind_eq]
  refine wp_curproc ht hm (wp_acquire_self ht fun hwf hl => ?_)
  obtain ⟨hs, hcalm, hdue, hc⟩ := hwf.self p ht hl
  refine wp_putOwn ht hs ⟨Finset.mem_insert_self .., hdue⟩ ?_
  refine WP.seq (wp_sched ht hm ProcState.noConfusion ProcState.noConfusion (fun hf => absurd hdue hf)
    fun b hheld hb => ?_)
  have hempty := eq_empty_of_insert hl hheld
  obtain rfl : b = v.core.irq := hb _ (if_pos hempty) hheld
  rw [← Prog.bind_ret (release (.proc p))]
  refine wp_release_self ht hm rfl rfl hc (fun hf _ => congrArg some (hwf.frame hf)) fun b _ hb => ?_
  obtain rfl : b = v.core.irq := hb _ rfl hheld
  refine (congrArg (Q ()) ?_).mpr h
  have hintena := hwf.intena hempty
  obtain ⟨⟨held, irq, intena, mode, state⟩, snap, own, ⟨kids, calm, par⟩, ⟨due, wake⟩, built, reap, window⟩ := v
  obtain rfl : held = ∅ := hempty
  obtain rfl : intena = none := hintena
  obtain rfl : state = .running := hs
  obtain rfl : calm = ∅ := hcalm
  obtain rfl : due = none := hdue
  simp [View.acq, CoreView.rel, NextOwn]

/-- The part of `sleep` from setting `p->chan` to clearing it. -/
theorem wp_doze (ch : Chan) (lk : Lock) {f : Unit → SmpM α} (ht : t = .proc p) (hm : v.core.mode = .live)
    (hs : v.core.state = .running) (hl : Lock.proc p ∈ v.core.held) (hd : v.nap.due = some (ch, lk))
    (hk : ch = .proc p → p ≠ ip → v.tree.kids ⊆ v.tree.calm)
    (h : ∀ b, v.core.held = {.proc p} → v.core.Restores (.proc p) b →
      WP ip strict t (f ()) Q { v with
        core := { v.core with state := .running, intena := some b }
        own.chan := none
        tree.calm := ∅
        nap.due := none }) :
    WP ip strict t ((put p (.chan (some ch))).bind fun _ => (put p (.state .sleeping)).bind fun _ =>
      sched.bind fun _ => (put p (.chan none)).bind fun _ => (note .sleepRet).bind f) Q v := by
  refine wp_putOwn ht hs hl (wp_putOwn ht hs ⟨hl, ch, lk, hd, rfl, hk⟩ ?_)
  refine WP.seq (wp_sched ht hm ProcState.noConfusion ProcState.noConfusion (fun _ => rfl) fun b hheld hb => ?_)
  exact wp_putOwn ht rfl hl (wp_note ⟨rfl, rfl⟩ (h b hheld hb))

/-- `sleep` on an object with the lock of one. -/
theorem wp_sleep_obj {ch a : ℕ} {Q : Unit → View → Prop} (ht : t = .proc p) (hm : v.core.mode = .live)
    (hw : v.Masked)
    (h : ∀ b, v.core.held = {.obj a} → (v.own.trapframe ≠ none → b = false) → Q () { v with core.intena := some b }) :
    WP ip strict t (sleep (.obj ch) (.obj a)) Q v := by
  rw [sleep]
  simp only [Prog.bind_eq]
  refine wp_curproc ht hm ?_
  simp only [ne_eq, reduceCtorEq, not_false_eq_true, if_true]
  refine wp_acquire_self ht fun hwf hl => ?_
  obtain ⟨hs, hcalm, hdue, hc⟩ := hwf.self p ht hl
  refine wp_note ⟨p, ht, Finset.mem_insert_self .., hs, hdue, fun q hq => (nomatch hq), fun q hq => (nomatch hq)⟩ ?_
  have hw' : (v.acq (.proc p)).Masked := hw.acq hwf
  refine wp_release_plain (plain_obj a) (fun q hq => by cases hm.symm.trans hq) hw' fun b₀ hmem _ => ?_
  have hmem : Lock.obj a ∈ v.core.held := (Finset.mem_insert.mp hmem).resolve_left Lock.noConfusion
  refine wp_doze (.obj ch) (.obj a) ht hm hs ?_ rfl (fun hf => nomatch hf) fun b hheld hb => ?_
  · exact Finset.mem_erase.mpr ⟨Lock.noConfusion, Finset.mem_insert_self ..⟩
  have hheld : (insert (Lock.proc p) v.core.held).erase (.obj a) = {.proc p} := hheld
  have hv : v.core.held = {.obj a} := by
    have h1 : insert (Lock.obj a) {Lock.proc p} = insert (Lock.proc p) v.core.held := by
      rw [← hheld, Finset.insert_erase (Finset.mem_insert_of_mem hmem)]
    rw [← Finset.erase_insert hl, ← h1, Finset.pair_comm, Finset.erase_insert (by simp)]
  have hfb : v.own.trapframe ≠ none → b = false :=
    fun hf => hb _ (View.Masked.rel hw' hf (by rw [show (_ : View).core.held = _ from hheld]; exact ⟨_, Finset.mem_singleton_self _⟩)) hheld
  refine wp_release_self ht hm rfl rfl rfl (fun hf _ => congrArg some (hfb hf)) fun b₁ _ hb₁ => ?_
  obtain rfl : b₁ = b := hb₁ _ rfl hheld
  rw [← Prog.bind_ret (acquire (.obj a))]
  refine wp_acquire_plain (plain_obj a) fun _ _ => ?_
  refine (congrArg (Q ()) ?_).mpr (h b₁ hv hfb)
  have hirq := hwf.masked ⟨_, hmem⟩
  obtain ⟨⟨held, irq, intena, mode, state⟩, snap, own, ⟨kids, calm, par⟩, ⟨due, wake⟩, built, reap, window⟩ := v
  obtain rfl : held = {.obj a} := hv
  obtain rfl : state = .running := hs
  obtain rfl : irq = false := hirq
  obtain rfl : calm = ∅ := hcalm
  obtain rfl : due = none := hdue
  obtain ⟨chan, pid, closed, noCwd, trapframe, exit, xstate⟩ := own
  obtain rfl : chan = none := hc
  simp [View.acq, CoreView.rel, NextNote, hheld]

/-- `sleep` in `wait`. -/
theorem wp_sleep_self {Q : Unit → View → Prop} (ht : t = .proc p) (hm : v.core.mode = .live)
    (hs : v.core.state = .running) (hl : Lock.proc p ∈ v.core.held) (hd : v.nap.due = none)
    (hk : p ≠ ip → v.tree.kids ⊆ v.tree.calm)
    (h : ∀ b, v.core.held = {.proc p} → v.core.Restores (.proc p) b →
      Q () { v with core.intena := some b, own.chan := none, tree.calm := ∅ }) :
    WP ip strict t (sleep (.proc p) (.proc p)) Q v := by
  rw [sleep]
  simp only [Prog.bind_eq]
  refine wp_curproc ht hm ?_
  simp only [ne_eq, not_true_eq_false, if_false]
  refine wp_note ⟨p, ht, hl, hs, hd, fun q hq => (Chan.proc.inj hq).symm, fun q hq => (Lock.proc.inj hq).symm⟩ ?_
  refine wp_doze (.proc p) (.proc p) ht hm hs hl rfl (fun _ => hk) fun b hheld hb => ?_
  refine (congrArg (Q ()) ?_).mpr (h b hheld hb)
  obtain ⟨⟨held, irq, intena, mode, state⟩, snap, own, ⟨kids, calm, par⟩, ⟨due, wake⟩, built, reap, window⟩ := v
  obtain rfl : state = .running := hs
  obtain rfl : due = none := hd
  rfl

/-! ## Waking up -/

theorem visited_of_not_held {r : Proc} (hl : ∀ q, t = .proc q → Lock.proc q ∉ v.core.held) :
    v.visited t p r = { v with nap.wake := markDone p (fun ch => !decide (r.SleepsOn ch)) v.nap.wake } := by
  cases t with
  | scheduler c => rfl
  | proc q => simp [View.visited, hl q rfl]

/-- Waking up another process. -/
theorem wp_putRunnable {x : Proc} {f : Unit → SmpM α} (ht : t ≠ .proc p) (hx : v.snap p = some x)
    (hb : v.built ≠ some p) (hs : x.state = .sleeping)
    (h : WP ip strict t (f ()) Q (v.setSnap p (some { x with state := .runnable }))) :
    WP ip strict t ((put p (.state .runnable)).bind f) Q v := by
  refine wp_putOther ht hx (Or.inl hs) ?_
  change WP ip strict t (f ()) Q { v.setSnap p _ with built := if v.built = some p then none else v.built }
  rw [if_neg hb]
  exact h

/-- One turn of the loop of `wakeup`: another process is marked as done. -/
theorem wp_wakeupOne {ch : Chan} {l : List (Chan × Finset Slot)} {D : Finset Slot} {Q : Unit → View → Prop}
    (hm : v.core.mode = t.home) (hw : v.Masked) (hv : v.nap.wake = (ch, D) :: l)
    (hself : ∀ q, t = .proc q → Lock.proc q ∉ v.core.held)
    (h : Q () { v with nap.wake := (ch, if t = .proc p then D else insert p D) :: l }) :
    WP ip strict t (wakeupOne ch p) Q v := by
  rw [wakeupOne]
  simp only [Prog.bind_eq]
  rw [← Prog.bind_ret (release (.proc p))]
  by_cases ht : t = .proc p
  · refine wp_acquire_self ht fun hwf hl => ?_
    refine wp_get fun r hr => ?_
    have hrun : r.state = .running := (hr.own ht).1.trans (hwf.self p ht hl).1
    simp only [hrun, reduceCtorEq, false_and, if_false]
    refine wp_release_own ht (hm.trans (congrArg Thread.home ht)) hwf hl hw ?_
    rw [if_pos ht, ← hv] at h
    exact h
  · rw [if_neg ht] at h
    refine wp_acquire_other ht fun hwf hl x hx => wp_get fun r hr => ?_
    have hag : Agree x r := hr.snap x (Function.update_self ..)
    have hdone : ∀ y : Proc, ¬y.SleepsOn ch → (y.state = .unused → Clean strict y) →
        WP ip strict t ((release (.proc p)).bind .ret) Q ((v.acq (.proc p)).setSnap p (some y)) := by
      intro y hy hclean
      refine wp_release_visited ht hm hwf hl hw hclean ?_
      rw [visited_of_not_held hself, hv]
      simpa [markDone, hy] using h
    rw [hag.state, hag.chan]
    by_cases hs : x.state = .sleeping ∧ x.chan = some ch
    · rw [if_pos hs]
      refine wp_putRunnable ht (Function.update_self ..) (hwf.built_ne hl) hs.1 ?_
      rw [View.setSnap_setSnap]
      exact hdone _ (fun hf => ProcState.noConfusion hf.1) ProcState.noConfusion
    · rw [if_neg hs]
      exact hdone x hs hx.clean

/-- `wakeup` comes back with the same view. -/
theorem wp_wakeup {ch : Chan} {Q : Unit → View → Prop} (hm : v.core.mode = t.home) (hw : v.Masked)
    (hself : ∀ q, t = .proc q → Lock.proc q ∉ v.core.held) (h : Q () v) : WP ip strict t (wakeup ch) Q v := by
  rw [wakeup]
  simp only [Prog.bind_eq]
  refine wp_note trivial ?_
  -- The processes that the loop has come past are done, but for the one that runs it.
  let I : List Slot → View → Prop := fun l w => ∃ D, w = { v with nap.wake := (ch, D) :: v.nap.wake } ∧
    ∀ p, p ∈ D ∨ p ∈ l ∨ t = .proc p
  refine WP.bind (WP.each (I := I) ⟨∅, rfl, fun p => Or.inr (Or.inl (List.mem_finRange p))⟩ ?_) ?_
  · rintro p l w ⟨D, rfl, hD⟩
    refine wp_wakeupOne hm hw rfl hself ⟨_, rfl, fun q => ?_⟩
    rcases hD q with hq | hq | hq
    · exact Or.inl (by split_ifs; exacts [hq, Finset.mem_insert_of_mem hq])
    · rcases List.mem_cons.mp hq with rfl | hq
      · by_cases ht : t = .proc q
        · exact Or.inr (Or.inr ht)
        · rw [if_neg ht]
          exact Or.inl (Finset.mem_insert_self ..)
      · exact Or.inr (Or.inl hq)
    · exact Or.inr (Or.inr hq)
  · rintro _ w ⟨D, rfl, hD⟩
    rw [← Prog.bind_ret (note .wakeupRet)]
    refine wp_wf fun hwf => wp_note ⟨ch, D, v.nap.wake, rfl, fun p => ?_⟩ h
    rcases hD p with hp | hp | hp
    · exact Or.inl hp
    · cases hp
    · obtain ⟨hs, -, hdue, -⟩ := hwf.self p hp (hself p hp)
      exact Or.inr (Or.inr (Or.inr ⟨hp, hs, hdue⟩))

/-- `wakeup1` leaves another process as it was, or awake. -/
theorem wp_wakeup1 {x : Proc} {Q : Unit → View → Prop} (ht : t ≠ .proc p) (hx : v.snap p = some x)
    (hb : v.built ≠ some p)
    (h : ∀ y : Proc, ¬y.SleepsOn (.proc p) → (y.state = .unused → y = x) → Q () (v.setSnap p (some y))) :
    WP ip strict t (wakeup1 p) Q v := by
  rw [wakeup1]
  simp only [Prog.bind_eq]
  refine wp_note trivial (wp_holding ?_)
  split_ifs
  · trivial
  refine wp_get fun r hr => ?_
  have hag : Agree x r := hr.snap x hx
  rw [hag.state, hag.chan, ← Prog.bind_ret (note .wakeupRet)]
  have hret : ∀ y : Proc, ¬y.SleepsOn (.proc p) → (y.state = .unused → y = x) →
      WP ip strict t ((note .wakeupRet).bind .ret) Q
        ((NextNote v (.wakeupCall (.proc p))).setSnap p (some y)) := by
    intro y hy hu
    refine wp_note ⟨.proc p, ∅, v.nap.wake, rfl, fun i => ?_⟩ (h y hy hu)
    by_cases hi : i = p
    · subst hi
      exact Or.inr (Or.inr (Or.inl ⟨y, Function.update_self .., hy⟩))
    · exact Or.inr (Or.inl ⟨p, rfl, hi⟩)
  by_cases hs : x.chan = some (.proc p) ∧ x.state = .sleeping
  · rw [if_pos hs]
    refine wp_putRunnable (x := x) ht hx hb hs.2 ?_
    exact hret _ (fun hf => nomatch hf.1) (fun hf => nomatch hf)
  · rw [if_neg hs]
    have hsnap : (NextNote v (.wakeupCall (.proc p))).setSnap p (some x) = NextNote v (.wakeupCall (.proc p)) := by
      simp [View.setSnap, NextNote, ← hx]
    have := hret x (fun hf => hs hf.symm) fun _ => rfl
    rwa [hsnap] at this

/-! ## Calls from other parts of the kernel -/

/-- The thread holds the locks `S` of other parts of the kernel and no process's. -/
structure Base (t : Thread) (S : Finset ℕ) (v : View) : Prop where
  held : v.core.held = S.image Lock.obj
  mode : v.core.mode = t.home
  masked : v.Masked

theorem Base.not_held {S : Finset ℕ} (h : Base t S v) (p : Slot) : Lock.proc p ∉ v.core.held := by
  rw [h.held]
  intro hm
  obtain ⟨a, -, ha⟩ := Finset.mem_image.mp hm
  cases ha

/-- The views differ in the locks and the interrupt flags only. -/
def Same (v w : View) : Prop := w = { v with core := { w.core with mode := v.core.mode, state := v.core.state } }

theorem Same.refl (v : View) : Same v v := rfl

theorem Same.trans {u w : View} (h : Same v u) (h' : Same u w) : Same v w := by
  rw [Same] at h h' ⊢
  rw [h']
  conv_lhs => rw [h]

theorem obj_injective : Function.Injective Lock.obj := fun _ _ h => Lock.obj.inj h

/-- A call leaves the locks that it should, and the rest of the view alone. -/
theorem wp_call {k : Call} {S : Finset ℕ} (hb : Base t S v) :
    WP ip strict t k.run (fun _ w => Base t (k.leaves S) w ∧ Same v w) v := by
  have hmode : ∀ p, v.core.mode ≠ .back p := by
    intro p hp
    rw [hb.mode] at hp
    cases t <;> cases hp
  cases k with
  | acquire a =>
    rw [Call.run, ← Prog.bind_ret (acquire (.obj a))]
    refine wp_acquire_plain (plain_obj a) fun hwf _ => ⟨⟨?_, hb.mode, hb.masked.acq hwf⟩, rfl⟩
    rw [Call.leaves, Finset.image_insert, ← hb.held]
    rfl
  | release a =>
    rw [Call.run, ← Prog.bind_ret (release (.obj a))]
    refine wp_release_plain (plain_obj a) hmode hb.masked fun b _ _ => ⟨⟨?_, hb.mode, hb.masked.rel⟩, rfl⟩
    rw [Call.leaves, Finset.image_erase obj_injective, ← hb.held]
    rfl
  | sleep chan lk =>
    cases t with
    | scheduler c =>
      refine fun _ => ⟨Or.inr hb.mode, fun c r s' hr => ?_⟩
      obtain rfl : r = none := hr
      trivial
    | proc p =>
      refine wp_sleep_obj rfl hb.mode hb.masked fun b _ hfb => ⟨⟨hb.held, hb.mode, ?_⟩, rfl⟩
      exact fun hf _ => congrArg some (hfb hf)
  | wakeup chan => exact wp_wakeup hb.mode hb.masked (fun q _ => hb.not_held q) ⟨hb, Same.refl v⟩

theorem wp_calls {l : List Call} {S : Finset ℕ} (hb : Base t S v) :
    WP ip strict t (Prog.each Call.run l) (fun _ w => Base t (leavesAll l S) w ∧ Same v w) v := by
  refine WP.mono (WP.each (I := fun l' w => ∃ S', Base t S' w ∧ Same v w ∧ leavesAll l' S' = leavesAll l S)
    ⟨S, hb, Same.refl v, rfl⟩ ?_) ?_
  · rintro k l' w ⟨S', hb', hsame, hS⟩
    exact WP.mono (wp_call hb') fun _ u hu => ⟨_, hu.1, hsame.trans hu.2, hS⟩
  · rintro _ w ⟨S', hb', hsame, hS⟩
    exact ⟨hS ▸ hb', hsame⟩

end Xv6Arm.Smp

import Xv6Arm.Smp.InvCpu
import Xv6Arm.Smp.WfStep

/-!
# What the views know of the process table
-/
namespace Xv6Arm.Smp
open Lib

variable {ip : Slot} {strict : Prop} {vs : Thread → View} {s s' : Sys} {c : ℕ} {o : SmpOp} {r : o.Res} {v : View}
  {p : Slot}

/-- A slot without a process, locked by the thread that executes on `c`, has a thread only if that one
is preparing it. -/
theorem Inv.built_of_thread (h : Inv ip strict vs s) (hx : (vs (s.exec c)).snap p ≠ none)
    (ht : s.hist.thread p = true) (hu : (s.proc p).state = .unused) : (vs (s.exec c)).built = some p := by
  obtain ⟨t, hhas, hb⟩ := h.table.built p ht hu
  rwa [h.snap_unique hx hhas ((h.exec.wf t hhas).built p hb)] at hb

/-- A thread that executes is not one that is being prepared. -/
theorem Inv.built_ne_exec (h : Inv ip strict vs s) {t : Thread} (ht : s.Has t) (hb : (vs t).built = some p) (d : ℕ) :
    s.exec d ≠ .proc p := fun hd => h.exec.used d p hd (h.table.born t ht p hb).2.1

/-- A request that leaves the process table alone. -/
theorem TableInv.keep (h : Inv ip strict vs s) (hproc : s'.proc = s.proc) (hthread : s'.hist.thread = s.hist.thread)
    (hsnap : ∀ i x, v.snap i = some x → Agree x (s.proc i)) (hbuilt : v.built = (vs (s.exec c)).built)
    (hother : ∀ i, s.exec c ≠ .proc i → s'.hist.exiting i = s.hist.exiting i ∧ s'.hist.window i = s.hist.window i)
    (hself : ∀ i, s.exec c = .proc i → OwnOk v.own (s.proc i) (s'.hist.exiting i) ∧ s'.hist.window i = v.window)
    (hclean : ∀ i, s'.lock (.proc i) = none → (s.proc i).state = .unused → Clean strict (s.proc i))
    (hinit : s'.initproc = s.initproc) (hkills : ∀ k ∈ s'.hist.kills, k.2.pid = k.1 ∧ (strict → k.2.state ≠ .unused)) :
    TableInv ip strict (Function.update vs (s.exec c) v) s' := by
  have hhas : ∀ t, s'.Has t → s.Has t := by
    intro t ht
    cases t with
    | scheduler d => trivial
    | proc i => exact (congrFun hthread i).symm.trans ht
  have hb : ∀ t, (Function.update vs (s.exec c) v t).built = (vs t).built := by
    intro t
    by_cases ht : t = s.exec c
    · rw [ht, Function.update_self, hbuilt]
    · rw [Function.update_of_ne ht]
  refine ⟨fun t ht i x hx => ?_, fun i hi => ?_, fun i hi => ?_, fun t ht i hi => ?_, fun i hi hu => ?_, fun i hl hu => ?_,
    fun i hz => ?_, hinit.trans h.table.init, hkills⟩
  · rw [hproc]
    by_cases htc : t = s.exec c
    · rw [htc, Function.update_self] at hx
      exact hsnap i x hx
    · rw [Function.update_of_ne htc] at hx
      exact h.table.snap t (hhas t ht) i x hx
  · rw [hproc]
    by_cases hic : Thread.proc i = s.exec c
    · rw [hic, Function.update_self]
      exact (hself i hic.symm).1
    · rw [Function.update_of_ne hic, (hother i fun hf => hic hf.symm).1]
      exact h.table.own i (by rwa [hthread] at hi)
  · by_cases hic : Thread.proc i = s.exec c
    · rw [hic, Function.update_self]
      exact (hself i hic.symm).2
    · rw [Function.update_of_ne hic, (hother i fun hf => hic hf.symm).2]
      exact h.table.window i (by rwa [hthread] at hi)
  · rw [hb] at hi
    have hne := h.built_ne_exec (hhas t ht) hi c
    obtain ⟨h1, h2, h3⟩ := h.table.born t (hhas t ht) i hi
    rw [Function.update_of_ne hne.symm, hproc, hthread]
    exact ⟨h1, h2, h3⟩
  · rw [hproc] at hu
    obtain ⟨t, ht, hbt⟩ := h.table.built i (by rwa [hthread] at hi) hu
    refine ⟨t, ?_, (hb t).trans hbt⟩
    cases t with
    | scheduler d => trivial
    | proc q => exact (congrFun hthread q).trans ht
  · rw [hproc] at hu ⊢
    exact hclean i hl hu
  · rw [hproc] at hz ⊢
    exact h.table.closed i hz

theorem TableInv.acquire (h : Inv ip strict vs s) {l : Lock} {r : Unit} (hstep : smpStep c (.acquire l) s = .done r s') :
    TableInv ip strict (Function.update vs (s.exec c) (Next (s.exec c) c (vs (s.exec c)) s' (.acquire l) r)) s' := by
  obtain ⟨hfree, rfl⟩ := acquire_done hstep
  refine TableInv.keep h rfl rfl (fun i x hx => ?_) rfl (fun i _ => ⟨rfl, rfl⟩) (fun i hi => ?_) (fun i hl hu => ?_) rfl
    h.table.kills
  · cases l with
    | proc q =>
      simp only [Next] at hx
      split_ifs at hx
      · exact (h.snap_exec hx).2.2
      · by_cases hq : i = q
        · subst hq
          rw [Function.update_self] at hx
          cases hx
          exact ⟨rfl, rfl, rfl, rfl, rfl, fun _ => rfl⟩
        · rw [Function.update_of_ne hq] at hx
          exact (h.snap_exec hx).2.2
    | _ => exact (h.snap_exec hx).2.2
  · have hth := h.exec.thread_of_exec hi
    rw [hi]
    exact ⟨h.table.own i hth, h.table.window i hth⟩
  · refine h.table.clean i ?_ hu
    change Function.update s.lock l (some c) (.proc i) = none at hl
    by_cases hli : Lock.proc i = l
    · rw [hli, Function.update_self] at hl
      cases hl
    · rwa [Function.update_of_ne hli] at hl

/-- A slot that is given up without a process is clean. -/
theorem Inv.clean_release (h : Inv ip strict vs s) (hl : Lock.proc p ∈ (vs (s.exec c)).core.held)
    (hpre : Pre ip strict (s.exec c) (vs (s.exec c)) (.release (.proc p))) (hu : (s.proc p).state = .unused) :
    Clean strict (s.proc p) := by
  have h2 := (hpre hl).2 p rfl
  by_cases hc : s.exec c = .proc p
  · exact absurd hu (h.exec.used c p hc)
  · rw [if_neg hc] at h2
    rcases h2.2 with hb | ⟨-, x, hx, hclean⟩
    · cases ht : s.exec c with
      | proc q =>
        rw [ht, h.exec.live c q ht] at hb
        cases hb
      | scheduler d =>
        obtain rfl := h.exec.home c d ht
        have hs := h.exec.sched d
        rw [ht] at hb
        rw [SchedOk, hb] at hs
        exact absurd hu hs.2.2.2.2
    · have hag := (h.snap_exec hx).2.2
      have hxu : x.state = .unused := hag.state.symm.trans hu
      rw [hag.dead (Or.inl hxu)]
      exact hclean hxu

theorem TableInv.release (h : Inv ip strict vs s) {l : Lock} {r : Unit}
    (hpre : Pre ip strict (s.exec c) (vs (s.exec c)) (.release l)) (hstep : smpStep c (.release l) s = .done r s') :
    TableInv ip strict (Function.update vs (s.exec c) (Next (s.exec c) c (vs (s.exec c)) s' (.release l) r)) s' := by
  have hl := (h.ok_release hstep).1
  obtain ⟨-, -, rfl⟩ := release_done hstep
  refine TableInv.keep h rfl rfl (fun i x hx => ?_) rfl (fun i _ => ⟨rfl, rfl⟩) (fun i hi => ?_) (fun i hli hu => ?_) rfl
    h.table.kills
  · cases l with
    | proc q =>
      simp only [Next] at hx
      by_cases hq : i = q
      · subst hq
        rw [Function.update_self] at hx
        cases hx
      · rw [Function.update_of_ne hq] at hx
        exact (h.snap_exec hx).2.2
    | _ => exact (h.snap_exec hx).2.2
  · have hth := h.exec.thread_of_exec hi
    rw [hi]
    exact ⟨h.table.own i hth, h.table.window i hth⟩
  · change Function.update s.lock l none (.proc i) = none at hli
    by_cases hil : Lock.proc i = l
    · subst hil
      exact h.clean_release hl hpre hu
    · rw [Function.update_of_ne hil] at hli
      exact h.table.clean i hli hu

/-! ## Notes in the history -/

theorem note_exiting (s : Sys) (e : Event) : (s.note c e).hist.exiting =
    match s.exec c, e with
    | .proc p, .exitCall x => Function.update s.hist.exiting p x
    | _, _ => s.hist.exiting := by
  cases e <;> cases hc : (s.cpu c).exec <;> simp only [Sys.note, Sys.exec, hc, History.wakeupRet] <;> (try split) <;> rfl

theorem note_window (s : Sys) (e : Event) : (s.note c e).hist.window =
    match s.exec c, e with
    | .proc p, .sysEnter tf => Function.update s.hist.window p (some tf)
    | .proc p, .sysLeave => Function.update s.hist.window p none
    | _, _ => s.hist.window := by
  cases e <;> cases hc : (s.cpu c).exec <;> simp only [Sys.note, Sys.exec, hc, History.wakeupRet] <;> (try split) <;> rfl

theorem note_kills (s : Sys) (e : Event) : (s.note c e).hist.kills =
    match e with
    | .killHit pid p => (pid, s.proc p) :: s.hist.kills
    | _ => s.hist.kills := by
  cases e <;> cases hc : (s.cpu c).exec <;> simp only [Sys.note, hc, History.wakeupRet] <;> (try split) <;> rfl

/-- The process that `kill` has found. -/
theorem Inv.killHit (h : Inv ip strict vs s) {pid : ℤ}
    (hpre : PreNote strict (s.exec c) (vs (s.exec c)) (.killHit pid p)) :
    (s.proc p).pid = pid ∧ (strict → (s.proc p).state ≠ .unused) := by
  rcases hpre with ⟨hc, hp⟩ | ⟨x, hx, hp, hu⟩
  · rw [hc] at hp
    exact ⟨(h.table.own p (h.exec.thread_of_exec hc)).pid.trans hp, fun _ => h.exec.used c p hc⟩
  · have hag := (h.snap_exec hx).2.2
    exact ⟨hag.pid.trans hp, fun hs => hag.state ▸ hu hs⟩

theorem TableInv.note (h : Inv ip strict vs s) {e : Event} (hpre : PreNote strict (s.exec c) (vs (s.exec c)) e) :
    TableInv ip strict (Function.update vs (s.exec c) (NextNote (vs (s.exec c)) e)) (s.note c e) := by
  obtain ⟨-, hlock, hinit, hproc, hthread⟩ := note_frame (c := c) s e
  have hsnap : (NextNote (vs (s.exec c)) e).snap = (vs (s.exec c)).snap := by cases e <;> rfl
  refine TableInv.keep h hproc hthread (fun i x hx => (h.snap_exec (hsnap ▸ hx)).2.2) (by cases e <;> rfl) (fun i hi => ?_)
    (fun i hi => ?_) (fun i hl => h.table.clean i (hlock ▸ hl)) hinit fun k hk => ?_
  · have hne : ∀ {α : Type} {f : Slot → α} {x : α} {j : Slot}, s.exec c = .proc j → Function.update f j x i = f i :=
      fun {_ _ _ j} hj => Function.update_of_ne (fun hf : i = j => hi (hf ▸ hj)) ..
    rw [note_exiting, note_window]
    cases hc : s.exec c with
    | scheduler d => exact ⟨rfl, rfl⟩
    | proc j =>
      cases e with
      | exitCall x => exact ⟨hne hc, rfl⟩
      | sysEnter tf => exact ⟨rfl, hne hc⟩
      | sysLeave => exact ⟨rfl, hne hc⟩
      | _ => exact ⟨rfl, rfl⟩
  · have hown := h.table.own i (h.exec.thread_of_exec hi)
    have hwin := h.table.window i (h.exec.thread_of_exec hi)
    rw [note_exiting, note_window, hi]
    cases e with
    | exitCall x =>
      refine ⟨⟨hown.chan, hown.pid, hown.closed, hown.noCwd, hown.trapframe, fun y hy => ?_, hown.xstate⟩, hwin⟩
      simp only [Function.update_self]
      exact Option.some.inj hy
    | sysEnter tf => exact ⟨hown, Function.update_self ..⟩
    | sysLeave => exact ⟨hown, Function.update_self ..⟩
    | _ => exact ⟨hown, hwin⟩
  · rw [note_kills] at hk
    cases e with
    | killHit pid q =>
      rcases List.mem_cons.mp hk with rfl | hk
      · exact h.killHit hpre
      · exact h.table.kills k hk
    | _ => exact h.table.kills k hk

/-- Requests that change neither the process table nor the history. -/
theorem TableInv.plain (h : Inv ip strict vs s) (ho : ¬o.Writes) (hs : ¬o.Spawns)
    (hpre : Pre ip strict (s.exec c) (vs (s.exec c)) o) (hstep : smpStep c o s = .done r s') :
    TableInv ip strict (Function.update vs (s.exec c) (Next (s.exec c) c (vs (s.exec c)) s' o r)) s' := by
  have hself : ∀ i, s.exec c = .proc i → OwnOk (vs (s.exec c)).own (s.proc i) (s.hist.exiting i) ∧
      s.hist.window i = (vs (s.exec c)).window := by
    intro i hi
    rw [hi]
    exact ⟨h.table.own i (h.exec.thread_of_exec hi), h.table.window i (h.exec.thread_of_exec hi)⟩
  have hkeep : ∀ w : View, w.snap = (vs (s.exec c)).snap → w.built = (vs (s.exec c)).built →
      w.window = (vs (s.exec c)).window →
      (∀ i, s.exec c = .proc i → OwnOk w.own (s.proc i) (s.hist.exiting i)) → s'.hist = s.hist → s'.lock = s.lock →
      TableInv ip strict (Function.update vs (s.exec c) w) s' := by
    intro w hsnap hbuilt hwin hown hhist hlock
    refine TableInv.keep h (step_proc ho hstep) (by rw [hhist]) (fun i x hx => (h.snap_exec (hsnap ▸ hx)).2.2) hbuilt
      (fun i _ => by rw [hhist]; exact ⟨rfl, rfl⟩) (fun i hi => ?_) (fun i hl => h.table.clean i (hlock ▸ hl))
      (step_initproc hstep) (by rw [hhist]; exact h.table.kills)
    rw [hhist, hwin]
    exact ⟨hown i hi, (hself i hi).2⟩
  have hown := fun i hi => (hself i hi).1
  have hframe : ∀ i, s.exec c = .proc i → OwnOk { (vs (s.exec c)).own with trapframe := none } (s.proc i)
      (s.hist.exiting i) := fun i hi =>
    ⟨(hown i hi).chan, (hown i hi).pid, (hown i hi).closed, (hown i hi).noCwd, fun _ hf => (nomatch hf), (hown i hi).exit,
      (hown i hi).xstate⟩
  cases o with
  | put | freeproc => exact absurd trivial ho
  | resetContext => exact absurd trivial hs
  | acquire l => exact TableInv.acquire h hstep
  | release l => exact TableInv.release h hpre hstep
  | note e => cases hstep; exact TableInv.note h hpre
  | hang => cases hstep
  | myproc =>
    have hs' := (myproc_done hstep).2
    exact hkeep _ rfl rfl rfl hown (by rw [hs']; rfl) (by rw [hs']; rfl)
  | sti => cases hstep; exact hkeep _ rfl rfl rfl hframe rfl rfl
  | eret => cases hstep; exact hkeep _ rfl rfl rfl hframe rfl rfl
  | getOfile q fd =>
    cases hstep
    by_cases hq : s.exec c = .proc q ∧ (s.proc q).ofile fd = 0
    · refine hkeep _ (by simp only [Next, if_pos hq]) (by simp only [Next, if_pos hq]) (by simp only [Next, if_pos hq])
        (fun i hi => ?_) rfl rfl
      obtain rfl : q = i := Thread.proc.inj (hq.1.symm.trans hi)
      have hi' := hown q hi
      simp only [Next, if_pos hq]
      refine ⟨hi'.chan, hi'.pid, fun j hj => ?_, hi'.noCwd, hi'.trapframe, hi'.exit, hi'.xstate⟩
      by_cases hjf : j = fd
      · exact hjf ▸ hq.2
      · simp only [Function.update_of_ne hjf] at hj
        exact hi'.closed j hj
    · exact hkeep _ (by simp only [Next, if_neg hq]) (by simp only [Next, if_neg hq]) (by simp only [Next, if_neg hq])
        (by simpa only [Next, if_neg hq] using hown) rfl rfl
  | _ => cases hstep; exact hkeep _ rfl rfl rfl hown rfl rfl

/-! ## Assignments -/

/-- Fields that the process itself assigns to without its lock. -/
def Field.Unlocked : Field → Prop
  | .killed _ | .sz _ | .pagetable _ | .ofile _ _ | .cwd _ | .trapframe _ => True
  | _ => False

theorem Agree.unlocked {x y : Proc} {f : Field} (h : Agree x y) (hf : f.Unlocked) (hx : ¬x.Dead) :
    Agree x (f.apply y) := by
  cases f with
  | state | parent | chan | xstate | pid => exact hf.elim
  | _ => exact ⟨h.state, h.parent, h.chan, h.xstate, h.pid, fun hd => absurd hd hx⟩

theorem PreOwn.unlocked_or {f : Field} (hpre : PreOwn ip p v f) : f.Unlocked ∨ Lock.proc p ∈ v.core.held := by
  cases f with
  | state st => cases st <;> first | exact Or.inr hpre.1 | exact hpre.elim
  | parent | pid => exact hpre.elim
  | chan | xstate => exact Or.inr hpre
  | _ => exact Or.inl trivial

theorem OwnOk.next {u : View} {x : Proc} {e : ℤ} {f : Field} (h : OwnOk u.own x e) (hpre : PreOwn ip p u f) :
    OwnOk (NextOwn u f).own (f.apply x) e := by
  obtain ⟨h1, h2, h3, h4, h5, h6, h7⟩ := h
  cases f with
  | parent | pid => exact hpre.elim
  | chan ch => exact ⟨rfl, h2, h3, h4, h5, h6, h7⟩
  | xstate n => exact ⟨h1, h2, h3, h4, h5, h6, fun y hy => Option.some.inj hy⟩
  | trapframe n => exact ⟨h1, h2, h3, h4, fun y hy => Option.some.inj hy, h6, h7⟩
  | cwd n => exact ⟨h1, h2, h3, id, h5, h6, h7⟩
  | ofile fd n =>
    refine ⟨h1, h2, fun i hi => ?_, h4, h5, h6, h7⟩
    by_cases hif : i = fd
    · subst hif
      simpa [NextOwn, Field.apply] using hi
    · simp only [NextOwn, Function.update_of_ne hif] at hi
      simpa only [Field.apply, Function.update_of_ne hif] using h3 i hi
  | _ => exact ⟨h1, h2, h3, h4, h5, h6, h7⟩

theorem put_hist (s : Sys) (p : Slot) (f : Field) : (s.put p f).hist.exiting = s.hist.exiting ∧
    (s.put p f).hist.window = s.hist.window ∧ (s.put p f).hist.kills = s.hist.kills := by
  unfold Sys.put
  split <;> exact ⟨rfl, rfl, rfl⟩

theorem nextOwn_rest (v : View) (f : Field) : (NextOwn v f).snap = v.snap ∧ (NextOwn v f).built = v.built ∧
    (NextOwn v f).window = v.window ∧ (NextOwn v f).tree = v.tree ∧ (NextOwn v f).nap = v.nap ∧
    (NextOwn v f).reap = v.reap := by
  cases f <;> exact ⟨rfl, rfl, rfl, rfl, rfl, rfl⟩

theorem Has.of_put {f : Field} {t : Thread} : (s.put p f).Has t ↔ s.Has t := by
  cases t with
  | scheduler d => exact Iff.rfl
  | proc i => rw [Sys.Has, Sys.Has, put_thread]

theorem TableInv.put_own (h : Inv ip strict vs s) {f : Field} (hc : s.exec c = .proc p)
    (hrun : (s.proc p).state = .running) (hpre : PreOwn ip p (vs (s.exec c)) f) :
    TableInv ip strict (Function.update vs (s.exec c) (NextOwn (vs (s.exec c)) f)) (s.put p f) := by
  have hown := h.table.own p (h.exec.thread_of_exec hc)
  rw [hc] at hpre ⊢
  have hother : ∀ i, i ≠ p → (s.put p f).proc i = s.proc i := fun i hi => by
    rw [put_proc, Function.update_of_ne hi]
  have hself : (s.put p f).proc p = f.apply (s.proc p) := by rw [put_proc, Function.update_self]
  have hused := hpre.used hrun
  obtain ⟨hexiting, hwindow, hkills⟩ := put_hist s p f
  obtain ⟨hrs, hrb, hrw, -⟩ := nextOwn_rest (vs (.proc p)) f
  have hview : ∀ t, (Function.update vs (.proc p) (NextOwn (vs (.proc p)) f) t).snap = (vs t).snap ∧
      (Function.update vs (.proc p) (NextOwn (vs (.proc p)) f) t).built = (vs t).built ∧
      (Function.update vs (.proc p) (NextOwn (vs (.proc p)) f) t).window = (vs t).window := by
    intro t
    by_cases ht : t = .proc p
    · rw [ht, Function.update_self]
      exact ⟨hrs, hrb, hrw⟩
    · rw [Function.update_of_ne ht]
      exact ⟨rfl, rfl, rfl⟩
  refine ⟨fun t ht i x hx => ?_, fun i hi => ?_, fun i hi => ?_, fun t ht i hi => ?_, fun i hi hu => ?_, fun i hl hu => ?_,
    fun i hz => ?_, ?_, fun k hk => h.table.kills k (hkills ▸ hk)⟩
  · rw [Has.of_put] at ht
    rw [(hview t).1] at hx
    have hag := h.table.snap t ht i x hx
    by_cases hip : i = p
    · subst hip
      rw [hself]
      obtain ⟨d, rfl⟩ := h.exec.exec_of_snap ht (by rw [hx]; exact Option.some_ne_none x)
      obtain ⟨hm, hne, -⟩ := h.snap_exec hx
      refine hag.unlocked (hpre.unlocked_or.resolve_right (h.not_own hm hne hc)) ?_
      rintro (hd | hd) <;> rw [← hag.state, hrun] at hd <;> cases hd
    · rwa [hother i hip]
  · rw [put_thread] at hi
    rw [hexiting]
    by_cases hip : i = p
    · subst hip
      rw [Function.update_self, hself]
      exact hown.next hpre
    · rw [Function.update_of_ne fun hf => hip (Thread.proc.inj hf), hother i hip]
      exact h.table.own i hi
  · rw [put_thread] at hi
    rw [(hview _).2.2, hwindow]
    exact h.table.window i hi
  · rw [Has.of_put] at ht
    rw [(hview t).2.1] at hi
    have hip : i ≠ p := by
      rintro rfl
      exact h.built_ne_exec ht hi c hc
    rw [Function.update_of_ne fun hf => hip (Thread.proc.inj hf), hother i hip, put_thread]
    exact h.table.born t ht i hi
  · have hip : i ≠ p := by
      rintro rfl
      exact hused (hself ▸ hu)
    rw [put_thread] at hi
    rw [hother i hip] at hu
    obtain ⟨t, ht, hb⟩ := h.table.built i hi hu
    exact ⟨t, Has.of_put.mpr ht, by rw [(hview t).2.1, hb]⟩
  · have hip : i ≠ p := by
      rintro rfl
      exact hused (hself ▸ hu)
    rw [hother i hip] at hu ⊢
    exact h.table.clean i ((put_cpu s p f).2.1 ▸ hl) hu
  · by_cases hip : i = p
    · subst hip
      rw [hself] at hz ⊢
      rcases apply_state f (s.proc i) with he | ⟨st, rfl, he⟩
      · rw [he, hrun] at hz
        cases hz
      · obtain rfl : st = .zombie := he.symm.trans hz
        obtain ⟨-, -, -, hclosed, hcwd, -⟩ := hpre
        exact ⟨fun fd => hown.closed fd (hclosed fd), hown.noCwd hcwd⟩
    · rw [hother i hip] at hz ⊢
      exact h.table.closed i hz
  · rw [(put_cpu s p f).2.2]
    exact h.table.init

end Xv6Arm.Smp

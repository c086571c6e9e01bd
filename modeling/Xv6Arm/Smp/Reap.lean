import Xv6Arm.Smp.Calls

/-!
# `wait` and `exit` keep to the specification

In `wait` the thread comes to know that no child of its own is a zombie before it
goes to sleep; in `exit`, that it has no children left, and that its parent is
not asleep in `wait`, before it becomes one.
-/
namespace Xv6Arm.Smp
open Lib

variable {ip : Slot} {strict : Prop} {t : Thread} {α : Type} {Q : α → View → Prop} {v : View} {p q : Slot}
  {S : Finset ℕ}

/-! ## `wait` -/

/-- Process `p` holds its own lock and none but locks of other parts of the kernel besides. -/
structure Waiting (p : Slot) (S : Finset ℕ) (v : View) : Prop where
  held : v.core.held = insert (.proc p) (S.image .obj)
  mode : v.core.mode = .live
  state : v.core.state = .running
  due : v.nap.due = none
  chan : v.own.chan = none
  masked : v.Masked

theorem Waiting.own (h : Waiting p S v) : Lock.proc p ∈ v.core.held := h.held ▸ Finset.mem_insert_self ..

theorem proc_notMem_image (p : Slot) (S : Finset ℕ) : Lock.proc p ∉ S.image Lock.obj := by
  intro hm
  obtain ⟨a, -, ha⟩ := Finset.mem_image.mp hm
  cases ha

/-- Giving up the own lock leaves the other locks. -/
theorem wp_release_waiting {f : Unit → SmpM α} (h : Waiting p S v)
    (hw : ∀ w, Base (.proc p) S w → w.reap = v.reap → WP ip strict (.proc p) (f ()) Q w) :
    WP ip strict (.proc p) ((release (.proc p)).bind f) Q v := by
  refine wp_release_self rfl h.mode h.state h.due h.chan h.masked fun b _ _ => hw _ ⟨?_, h.mode, ?_⟩ rfl
  · change v.core.held.erase (.proc p) = _
    rw [h.held, Finset.erase_insert (proc_notMem_image p S)]
  · exact View.Masked.rel h.masked

theorem wp_waitRet {addr : ℕ} {pid : ℤ} {status : Option ℤ} {f : Unit → SmpM α} (h : Waiting p S v)
    (hr : PreNote strict (.proc p) v (.waitRet addr pid status))
    (hw : ∀ w, Base (.proc p) S w → WP ip strict (.proc p) (f ()) Q w) :
    WP ip strict (.proc p) ((release (.proc p)).bind fun _ => (note (.waitRet addr pid status)).bind f) Q v := by
  refine wp_release_waiting h fun w hb hreap => wp_note ?_ (hw _ ⟨hb.held, hb.mode, hb.masked⟩)
  rw [PreNote, hreap]
  exact hr

/-- Every child is known not to be a zombie, or is still to be looked at. -/
def Calm (v : View) (l : List Slot) : Prop := ∀ i ∈ v.tree.kids, i ∈ v.tree.calm ∨ i ∈ l

/-- How a pass over the table ends: the call is over, or there was no zombie. -/
def ScanPost (p : Slot) (S : Finset ℕ) : Option ℤ × Bool → View → Prop
  | (some _, _), w => Base (.proc p) S w
  | (none, _), w => Waiting p S w ∧ w.reap = some none ∧ Calm w []

theorem wp_waitScan {addr : ℕ} {ok : Bool} {l : List Slot} {havekids : Bool} (h : Waiting p S v)
    (hreap : v.reap = some none) (hcalm : Calm v l) :
    WP ip strict (.proc p) (waitScan p addr ok l havekids) (ScanPost p S) v := by
  induction l generalizing v havekids with
  | nil => exact ⟨h, hreap, hcalm⟩
  | cons np l ih =>
    rw [waitScan]
    simp only [Prog.bind_eq]
    refine wp_getParent fun x hx => ?_
    by_cases hk : x = some p
    · subst hk
      simp only [Option.map_some, if_true]
      set u : View := { v with tree := { v.tree with
        kids := insert np v.tree.kids
        par := if Thread.proc p = .proc np then some p else v.tree.par } }
      have hW : Waiting p S u := ⟨h.held, h.mode, h.state, h.due, h.chan, h.masked⟩
      by_cases ht : Thread.proc p = .proc np
      · refine wp_acquire_self ht fun _ hl => ?_
        cases ht
        exact absurd hW.own hl
      refine wp_acquire_other ht fun hwf hl y hy => wp_get fun r hr => ?_
      have hag : Agree y r := hr.snap y (Function.update_self ..)
      rw [hag.state, hag.pid, hag.xstate]
      have hvisit : ∀ (w : View) (z : Proc), Waiting p S w → Waiting p S (w.visited (.proc p) np z) :=
        fun w z hw => ⟨hw.held, hw.mode, hw.state, hw.due, hw.chan, hw.masked⟩
      by_cases hz : y.state = .zombie
      · rw [if_pos hz]
        by_cases hc : addr ≠ 0 ∧ ok = false
        · rw [if_pos hc]
          refine wp_release_visited ht hW.mode hwf hl hW.masked hy.clean ?_
          refine wp_waitRet (hvisit u y hW) ?_ fun w hw => hw
          rw [PreNote, show (View.visited (.proc p) u np y).reap = some none from hreap]
        · rw [if_neg hc]
          have hkid : np ∈ u.tree.kids := Finset.mem_insert_self ..
          refine wp_freeproc (Function.update_self ..) (Or.inl ⟨hz, ⟨p, rfl⟩, hkid, hreap⟩) ?_
          let w : View := { u with
            tree := { u.tree with kids := u.tree.kids.erase np, calm := u.tree.calm.erase np }
            reap := some (some (y.pid, y.xstate)) }
          have hfree : ((u.acq (.proc np)).setSnap np (some y)).free np y = (w.acq (.proc np)).setSnap np (some y.freed) := by
            have hb : (if u.built = some np then none else u.built) = u.built := if_neg (hwf.built_ne hl)
            simp [View.free, View.setSnap, hz, w, View.acq]
            exact hb
          have hwf' : Wf (.proc p) w := by
            have := hwf.setTree (T := w.tree) (Finset.erase_subset _ _)
            exact ⟨this.masked, this.intena, this.self, this.snap, this.built, this.frame, this.window⟩
          have hW' : Waiting p S w := ⟨h.held, h.mode, h.state, h.due, h.chan, h.masked⟩
          have hclean : Clean strict y.freed :=
            ⟨rfl, rfl, rfl, rfl, rfl, (hy.closed hz).1, (hy.closed hz).2, fun _ => rfl⟩
          rw [hfree]
          refine wp_release_visited ht hW.mode hwf' hl hW.masked (fun _ => hclean) ?_
          exact wp_waitRet (hvisit w _ hW') ⟨rfl, rfl⟩ fun w hw => hw
      · rw [if_neg hz]
        refine wp_release_visited ht hW.mode hwf hl hW.masked hy.clean ?_
        refine ih (hvisit u y hW) hreap fun i hi => ?_
        have hcalm' : (u.visited (.proc p) np y).tree.calm = insert np v.tree.calm := by
          simp [View.visited, u, hz, h.own]
        rw [hcalm', Finset.mem_insert]
        rcases Finset.mem_insert.mp hi with rfl | hi
        · exact Or.inl (Or.inl rfl)
        · rcases hcalm i hi with hi | hi
          · exact Or.inl (Or.inr hi)
          · exact (List.mem_cons.mp hi).imp Or.inl id
    · have hmap : x.map Thread.proc ≠ some (.proc p) := by
        intro hf
        obtain ⟨q, rfl, hq⟩ := Option.map_eq_some_iff.mp hf
        cases hq
        exact hk rfl
      simp only [hk, hmap, if_false]
      refine ih ⟨h.held, h.mode, h.state, h.due, h.chan, h.masked⟩ hreap fun i hi => ?_
      rcases hcalm i hi with hi' | hi'
      · exact Or.inl hi'
      · rcases List.mem_cons.mp hi' with rfl | hi'
        · exact absurd (hx.kid p rfl hi) hk
        · exact Or.inr hi'

theorem wp_waitLoop {addr : ℕ} {ok : Bool} {fuel : ℕ} (h : Waiting p S v) (hreap : v.reap = some none)
    (hcalm : Calm v (List.finRange NPROC)) :
    WP ip strict (.proc p) (waitLoop p addr ok fuel) (fun _ w => Base (.proc p) S w) v := by
  induction fuel generalizing v with
  | zero =>
    rw [waitLoop]
    exact fun _ => ⟨trivial, fun _ _ _ hf => hf.elim⟩
  | succ fuel ih =>
    rw [waitLoop]
    simp only [Prog.bind_eq]
    refine WP.bind (wp_waitScan h hreap hcalm) ?_
    rintro ⟨_ | n, b⟩ w hw
    on_goal 2 => exact hw
    obtain ⟨hw, hreap, hcalm⟩ := hw
    refine wp_get fun r _ => ?_
    split_ifs
    · rw [← Prog.bind_ret (note _)]
      refine wp_waitRet hw ?_ fun w hw => hw
      rw [PreNote, hreap]
    · refine WP.seq (wp_sleep_self rfl hw.mode hw.state hw.own hw.due (fun _ i hi => ?_) fun c hheld hc => ?_)
      · exact (hcalm i hi).resolve_right (List.not_mem_nil)
      · refine ih ⟨hw.held, hw.mode, hw.state, hw.due, rfl, fun hf _ => ?_⟩ hreap fun i _ => Or.inr (List.mem_finRange i)
        exact congrArg some (hc false (hw.masked hf ⟨_, hw.own⟩) hheld)

theorem wp_wait {addr : ℕ} {ok : Bool} {fuel : ℕ} (ht : t = .proc p) (hb : Base t S v) :
    WP ip strict t (wait addr ok fuel) (fun _ w => Base t S w) v := by
  subst ht
  rw [wait]
  simp only [Prog.bind_eq]
  refine wp_curproc rfl hb.mode (wp_note trivial (wp_acquire_self rfl fun hwf hl => ?_))
  obtain ⟨hs, -, hdue, hchan⟩ := hwf.self p rfl hl
  refine wp_waitLoop ⟨?_, hb.mode, hs, hdue, hchan, ?_⟩ rfl fun i _ => Or.inr (List.mem_finRange i)
  · change insert (Lock.proc p) v.core.held = _
    rw [hb.held]
  · exact View.Masked.acq hb.masked hwf

/-! ## `exit` -/

/-- The thread is in `exit status`, and has closed all files but those in `l`. -/
structure Closes (p : Slot) (status : ℤ) (l : List Fd) (v : View) : Prop where
  base : ∃ S, Base (.proc p) S v
  exit : v.own.exit = some status
  closed : ∀ fd, fd ∉ l → v.own.closed fd

theorem Same.own {w : View} (h : Same v w) : w.own = v.own := by rw [Same] at h; rw [h]

theorem Base.running (h : Base (.proc p) S v) (hwf : Wf (.proc p) v) : v.core.state = .running :=
  (hwf.self p rfl (h.not_held p)).1

theorem wp_closeOfile {close : Closing} {status : ℤ} {fd : Fd} {l : List Fd} (h : Closes p status (fd :: l) v) :
    WP ip strict (.proc p) (closeOfile close p fd) (fun _ w => Closes p status l w) v := by
  obtain ⟨⟨S, hb⟩, hexit, hclosed⟩ := h
  have hup : ∀ (c : Fd → Prop) (b : Prop), b → (∀ i, i ∉ fd :: l → c i) → ∀ i, i ∉ l → Function.update c fd b i := by
    intro c b hb hc i hi
    by_cases hfd : i = fd
    · rw [hfd, Function.update_self]
      exact hb
    · rw [Function.update_of_ne hfd]
      exact hc i (List.not_mem_cons_of_ne_of_not_mem hfd hi)
  rw [closeOfile]
  simp only [Prog.bind_eq]
  refine wp_getOfile fun n => ?_
  by_cases hn : n = 0
  · simp only [hn, and_self, ne_eq, not_true_eq_false, if_true, if_false]
    exact ⟨⟨S, hb.held, hb.mode, hb.masked⟩, hexit, hup _ _ trivial hclosed⟩
  · simp only [hn, and_false, ne_eq, not_false_eq_true, if_true, if_false]
    refine WP.bind (wp_calls hb) fun _ w hw => ?_
    rw [← Prog.bind_ret (put p (.ofile fd 0))]
    refine wp_wf fun hwf => wp_putOwn rfl (hw.1.running hwf) trivial ?_
    refine ⟨⟨_, hw.1.held, hw.1.mode, hw.1.masked⟩, ?_, ?_⟩
    · exact (congrArg OwnView.exit hw.2.own).trans hexit
    · exact hup _ _ rfl (hw.2.own ▸ hclosed)

/-- The thread is in `exit status` and holds the locks of `q`, which is as in `x`, and of its own
process `p`. The children still to be given away are in `l`. -/
structure Leaving (ip p q : Slot) (status : ℤ) (x : Proc) (l : List Slot) (v : View) : Prop where
  own : Lock.proc p ∈ v.core.held
  mode : v.core.mode = .live
  state : v.core.state = .running
  due : v.nap.due = none
  masked : v.Masked
  built : v.built = none
  exit : v.own.exit = some status
  closed : ∀ fd, v.own.closed fd
  noCwd : v.own.noCwd
  snap : v.snap q = some x
  par : v.tree.par = some q ∨ v.tree.par = some ip
  kids : ∀ i ∈ v.tree.kids, i ∈ l

theorem wp_reparentOne {status : ℤ} {x : Proc} {i : Slot} {l : List Slot} (hip : p ≠ ip)
    (h : Leaving ip p q status x (i :: l) v) :
    WP ip strict (.proc p) (reparentOne p ip i) (fun _ w => Leaving ip p q status x l w) v := by
  rw [reparentOne]
  simp only [Prog.bind_eq]
  refine wp_getParent fun y hy => ?_
  have hpar : (if Thread.proc p = .proc i then y else v.tree.par) = some q ∨
      (if Thread.proc p = .proc i then y else v.tree.par) = some ip := by
    split_ifs with hi
    · rcases h.par with hq | hq
      · exact hy.par hi q hq
      · exact Or.inr ((hy.par hi ip hq).elim id id)
    · exact h.par
  by_cases hk : y = some p
  · rw [if_pos hk, ← Prog.bind_ret (release (.proc i))]
    have hmap : y.map Thread.proc = some (.proc p) := by rw [hk]; rfl
    rw [if_pos hmap]
    set u : View := { v with tree := { v.tree with
      kids := insert i v.tree.kids
      par := if Thread.proc p = .proc i then y else v.tree.par } }
    by_cases hi : Thread.proc p = .proc i
    · refine wp_acquire_self hi fun _ hl => ?_
      cases hi
      exact absurd h.own hl
    refine wp_acquire_other hi fun hwf hl z hz => ?_
    have hkid : i ∈ u.tree.kids := Finset.mem_insert_self ..
    have hzp : z.parent = some p := hz.kid p rfl hkid
    refine wp_putOther hi (Function.update_self ..) ⟨p, rfl, Or.inr ⟨hkid, hip, rfl⟩⟩ ?_
    let w : View := { u with tree := { u.tree with kids := u.tree.kids.erase i, calm := u.tree.calm.erase i } }
    have hnext : NextOther (.proc p) i ((u.acq (.proc i)).setSnap i (some z)) z (.parent (some ip)) =
        (w.acq (.proc i)).setSnap i (some { z with parent := some ip }) := by
      have : ¬ip = p := fun hf => hip hf.symm
      simp [NextOther, View.setSnap, View.acq, w, this]
    rw [hnext]
    refine wp_release_visited (v := w) hi h.mode (hwf.setTree (Finset.erase_subset _ _)) hl h.masked ?_ ?_
    · intro hu
      have := (hz.clean hu).parent
      rw [hzp] at this
      cases this
    · refine ⟨h.own, h.mode, h.state, h.due, h.masked, h.built, h.exit, h.closed, h.noCwd, h.snap, hpar,
        fun j hj => ?_⟩
      obtain ⟨hji, hj⟩ := Finset.mem_erase.mp hj
      have hj := (Finset.mem_insert.mp hj).resolve_left hji
      exact (List.mem_cons.mp (h.kids j hj)).resolve_left hji
  · have hmap : y.map Thread.proc ≠ some (.proc p) := by
      intro hf
      obtain ⟨j, rfl, hj⟩ := Option.map_eq_some_iff.mp hf
      cases hj
      exact hk rfl
    simp only [hk, hmap, if_false]
    refine ⟨h.own, h.mode, h.state, h.due, h.masked, h.built, h.exit, h.closed, h.noCwd, h.snap, hpar,
        fun j hj => ?_⟩
    rcases List.mem_cons.mp (h.kids j hj) with rfl | hjl
    · exact absurd (hy.kid p rfl hj) hk
    · exact hjl

/-- The end of `exit`, from `reparent` on. -/
theorem wp_leave {status : ℤ} {x : Proc} {Q : Unit → View → Prop} (hip : p ≠ ip) (hpq : Thread.proc p ≠ .proc q)
    (hx : x.state = .unused → Clean strict x) (h : Leaving ip p q status x (List.finRange NPROC) v) :
    WP ip strict (.proc p) ((reparent p ip).bind fun _ => (wakeup1 q).bind fun _ =>
      (put p (.xstate status)).bind fun _ => (put p (.state .zombie)).bind fun _ =>
      (release (.proc q)).bind fun _ => sched.bind fun _ => .panic "zombie exit") Q v := by
  refine WP.bind (WP.each (I := Leaving ip p q status x) h fun i l w hw => wp_reparentOne hip hw) fun _ w hw => ?_
  have hb : w.built ≠ some q := fun hf => by rw [hw.built] at hf; cases hf
  refine WP.seq (wp_wakeup1 hpq hw.snap hb fun y hy hyx => ?_)
  have hsnap : (w.setSnap q (some y)).snap q = some y := Function.update_self ..
  have hkids : w.tree.kids = ∅ := Finset.eq_empty_of_forall_notMem fun i hi => List.not_mem_nil (hw.kids i hi)
  have hpar : ∃ j, w.tree.par = some j ∧ (j = ip ∨ ∃ r, (w.setSnap q (some y)).snap j = some r ∧ ¬r.SleepsOn (.proc j)) := by
    rcases hw.par with hp | hp
    · exact ⟨q, hp, Or.inr ⟨y, hsnap, hy⟩⟩
    · exact ⟨ip, hp, Or.inl rfl⟩
  refine wp_putOwn rfl hw.state hw.own (wp_putOwn rfl hw.state
    ⟨hw.own, hip, hkids, hw.closed, hw.noCwd, hw.due, ⟨status, hw.exit, rfl⟩, hpar⟩ ?_)
  refine wp_release_other hpq (Or.inl hw.mode) hb hsnap (fun hu => hyx hu ▸ hx (hyx hu ▸ hu)) hw.masked fun b _ => ?_
  exact WP.seq (wp_sched rfl hw.mode ProcState.noConfusion ProcState.noConfusion (fun hf => absurd hw.due hf)
    fun _ _ _ => trivial)

theorem wp_exit {status : ℤ} {close : Closing} {Q : Unit → View → Prop} (ht : t = .proc p) (hb : Base t S v) :
    WP ip strict t (exit status close) Q v := by
  subst ht
  rw [exit]
  simp only [Prog.bind_eq]
  refine wp_curproc rfl hb.mode (wp_getInitproc ?_)
  by_cases hip : p = ip
  · rw [if_pos hip]
    trivial
  rw [if_neg hip]
  have hne : Thread.proc p ≠ .proc ip := fun hf => hip (Thread.proc.inj hf)
  refine wp_note trivial (WP.bind (WP.each (I := Closes p status)
    ⟨⟨S, hb.held, hb.mode, hb.masked⟩, rfl, fun fd hfd => absurd (List.mem_finRange fd) hfd⟩
    fun fd l w hw => wp_closeOfile hw) ?_)
  rintro _ v ⟨⟨S, hb⟩, hexit, hclosed⟩
  refine WP.bind (wp_calls hb) fun _ w ⟨hb, hsame⟩ => ?_
  have hexit : w.own.exit = some status := (congrArg OwnView.exit hsame.own).trans hexit
  have hclosed : ∀ fd, w.own.closed fd := fun fd => by rw [hsame.own]; exact hclosed fd List.not_mem_nil
  refine wp_wf fun hwf => wp_putOwn rfl (hb.running hwf) trivial ?_
  have hb : Base (.proc p) _ (NextOwn w (.cwd 0)) := ⟨hb.held, hb.mode, hb.masked⟩
  refine wp_acquire_other hne fun hwf hl x hx => ?_
  refine WP.seq (wp_wakeup1 hne (Function.update_self ..) (hwf.built_ne hl) fun y _ hyx => ?_)
  rw [View.setSnap_setSnap]
  refine wp_release_visited hne hb.mode hwf hl hb.masked (fun hu => hyx hu ▸ hx.clean (hyx hu ▸ hu)) ?_
  refine wp_acquire_self rfl fun hwf hl => wp_getParent fun par _ => ?_
  -- Reading `p->parent` under the own lock changes what is known of the tree and nothing else.
  let u : View := { (NextOwn w (.cwd 0)).visited (.proc p) ip y with tree := { ((NextOwn w (.cwd 0)).visited (.proc p) ip y).tree with
    kids := if par.map Thread.proc = some (.proc p) then insert p w.tree.kids else w.tree.kids
    par := if Thread.proc p = .proc p then par else w.tree.par } }
  have hbu : Base (.proc p) _ u := ⟨hb.held, hb.mode, hb.masked⟩
  refine wp_release_own (v := u) rfl hb.mode (hwf.setTree (Finset.Subset.refl _)) hl hb.masked ?_
  cases hpar : par with
  | none => trivial
  | some q =>
    have hup : u.tree.par = some q := (if_pos rfl).trans hpar
    by_cases hpq : Thread.proc p = .proc q
    · refine wp_acquire_self hpq fun _ _ => wp_acquire_self rfl fun _ hl => ?_
      cases hpq
      exact absurd (Finset.mem_insert_self ..) hl
    refine wp_acquire_other hpq fun hwf' hl' z hz => wp_acquire_self rfl fun hwf'' hl'' => ?_
    obtain ⟨hs, -, hdue, -⟩ := hwf''.self p rfl hl''
    refine wp_leave hip hpq hz.clean ⟨Finset.mem_insert_self .., hb.mode, hs, hdue, ?_, hbu.built_none hwf', hexit,
      hclosed, rfl, Function.update_self .., Or.inl hup, fun i _ => List.mem_finRange i⟩
    exact View.Masked.acq (View.Masked.acq hbu.masked hwf') hwf''

end Xv6Arm.Smp

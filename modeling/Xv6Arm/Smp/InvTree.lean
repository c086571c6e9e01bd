import Xv6Arm.Smp.InvSlots

/-!
# The process tree

Who is whose parent changes in `fork`, in the `reparent` of `exit`, and when
`wait` frees a zombie; and a process becomes a zombie only while it holds the lock
of its parent, or `initproc` is its parent.
-/
namespace Xv6Arm.Smp
open Lib

variable {ip : Slot} {strict : Prop} {vs : Thread → View} {s s' : Sys} {c : ℕ} {o : SmpOp} {r : o.Res} {v : View}
  {p : Slot}

theorem Forest.congr (h : Forest ip s) (hp : ∀ i, (s'.proc i).parent = (s.proc i).parent)
    (hs : ∀ i, (s'.proc i).state = (s.proc i).state) (hc : ∀ i, (s'.proc i).SleepsOn (.proc i) → (s.proc i).SleepsOn (.proc i)) :
    Forest ip s' := by
  have halive : ∀ q, s.Alive q → s'.Alive q := fun q hq => by rwa [Sys.Alive, hs]
  refine ⟨fun i q hi => halive q (h.parent i q (hp i ▸ hi)), fun i hi hne => ?_, halive ip h.init, fun q hq hsl i hi => ?_⟩
  · rw [hp]
    exact h.orphan i (hs i ▸ hi) hne
  · rw [hs]
    exact h.quiet q hq (hc q hsl) i (hp i ▸ hi)

/-- One process changes to `y`. -/
theorem Forest.update (h : Forest ip s) {y : Proc} (hp : s'.proc = Function.update s.proc p y)
    (hparent : ∀ q, y.parent = some q → s.Alive q)
    (hdead : y.Dead → p ≠ ip ∧ ∀ i, (s'.proc i).parent ≠ some p)
    (horphan : y.state ≠ .unused → p ≠ ip → y.parent ≠ none)
    (hsleep : y.SleepsOn (.proc p) → p ≠ ip → ∀ i, (s.proc i).parent = some p → (s.proc i).state ≠ .zombie)
    (hzombie : y.state = .zombie → ∀ q, q ≠ ip → y.parent = some q → ¬(s.proc q).SleepsOn (.proc q)) :
    Forest ip s' := by
  have hself : s'.proc p = y := by rw [hp, Function.update_self]
  have hother : ∀ i, i ≠ p → s'.proc i = s.proc i := fun i hi => by rw [hp, Function.update_of_ne hi]
  have halive : ∀ q, s.Alive q → (q = p → ¬y.Dead) → s'.Alive q := by
    intro q hq hy
    by_cases hqp : q = p
    · subst hqp
      rw [Sys.Alive, hself]
      exact not_or.mp (hy rfl)
    · rwa [Sys.Alive, hother q hqp]
  have hpar : ∀ i q, (s'.proc i).parent = some q → s.Alive q := by
    intro i q hi
    by_cases hip : i = p
    · subst hip
      exact hparent q (hself ▸ hi)
    · exact h.parent i q (hother i hip ▸ hi)
  refine ⟨fun i q hi => halive q (hpar i q hi) fun hqp hy => (hdead hy).2 i (hqp ▸ hi), fun i hi hne => ?_,
    halive ip h.init fun hip hy => (hdead hy).1 hip.symm, fun q hq hsl i hi => ?_⟩
  · by_cases hip : i = p
    · subst hip
      rw [hself] at hi ⊢
      exact horphan hi hne
    · rw [hother i hip] at hi ⊢
      exact h.orphan i hi hne
  · by_cases hip : i = p
    · subst hip
      rw [hself] at hi ⊢
      intro hz
      by_cases hqi : q = i
      · subst hqi
        rw [hself, Proc.SleepsOn, hz] at hsl
        cases hsl.1
      · rw [hother q hqi] at hsl
        exact hzombie hz q hq hi hsl
    · rw [hother i hip] at hi ⊢
      by_cases hqp : q = p
      · subst hqp
        rw [hself] at hsl
        exact hsleep hsl hq i hi
      · rw [hother q hqp] at hsl
        exact h.quiet q hq hsl i hi

theorem KidsOk.congr {T : TreeView} (h : KidsOk ip s p T) (hp : ∀ i, (s'.proc i).parent = (s.proc i).parent)
    (hz : ∀ i ∈ T.calm, p ≠ ip → (s'.proc i).state = .zombie → (s.proc i).state = .zombie) : KidsOk ip s' p T := by
  refine ⟨fun i hi => (hp i).trans (h.kids i hi), fun hne i hi => h.all hne i (hp i ▸ hi), fun i hi => ?_, fun q hq => ?_⟩
  · exact ⟨(h.calm i hi).1, fun hne hzi => (h.calm i hi).2 hne (hz i hi hne hzi)⟩
  · rw [hp]
    exact h.par q hq

/-! ## Requests that leave the table alone -/

theorem Inv.kids_release (h : Inv ip strict vs s) (hc : s.exec c = .proc p) (q : Slot) :
    KidsOk ip s p { (vs (.proc p)).tree with calm := calmAfter (.proc p) (vs (.proc p)) q } := by
  have hk := h.tree.kids p (h.exec.thread_of_exec hc)
  refine ⟨hk.kids, hk.all, fun i hi => ?_, hk.par⟩
  change i ∈ calmAfter (.proc p) (vs (.proc p)) q at hi
  change i ∈ (vs (.proc p)).tree.kids ∧ _
  unfold calmAfter at hi
  cases hx : (vs (.proc p)).snap q with
  | none =>
    rw [hx] at hi
    dsimp only at hi
    split_ifs at hi
    · exact absurd hi (Finset.notMem_empty i)
    · exact hk.calm i hi
  | some x =>
    rw [hx] at hi
    dsimp only at hi
    split_ifs at hi with h1 h2
    · exact absurd hi (Finset.notMem_empty i)
    · rcases Finset.mem_insert.mp hi with rfl | hi
      · rw [← hc] at hx
        refine ⟨h2.2.1, fun _ => ?_⟩
        rw [(h.snap_exec hx).2.2.state]
        exact h2.1
      · exact hk.calm i hi
    · exact hk.calm i hi

theorem Inv.kids_next (h : Inv ip strict vs s) (hc : s.exec c = .proc p) (ho : ¬o.Writes)
    (hstep : smpStep c o s = .done r s') : KidsOk ip s p (Next (.proc p) c (vs (.proc p)) s' o r).tree := by
  have hk := h.tree.kids p (h.exec.thread_of_exec hc)
  cases o with
  | put | freeproc => exact absurd trivial ho
  | release l =>
    cases l with
    | proc q => exact h.kids_release hc q
    | _ => exact hk
  | swtchBack => exact ⟨hk.kids, hk.all, fun i hi => absurd hi (Finset.notMem_empty i), hk.par⟩
  | getParent q =>
    cases hstep
    refine ⟨fun i hi => ?_, fun hne i hi => ?_, fun i hi => ?_, fun x hx => ?_⟩
    · simp only [Next] at hi
      split_ifs at hi with hq
      · rcases Finset.mem_insert.mp hi with rfl | hi
        · obtain ⟨x, hx, hxp⟩ := Option.map_eq_some_iff.mp hq
          rw [hx, Thread.proc.inj hxp]
        · exact hk.kids i hi
      · exact hk.kids i hi
    · simp only [Next]
      split_ifs
      · exact Finset.mem_insert_of_mem (hk.all hne i hi)
      · exact hk.all hne i hi
    · refine ⟨?_, (hk.calm i hi).2⟩
      simp only [Next]
      split_ifs
      · exact Finset.mem_insert_of_mem (hk.calm i hi).1
      · exact (hk.calm i hi).1
    · simp only [Next] at hx
      split_ifs at hx with hq
      · cases hq
        exact Or.inl hx
      · exact hk.par x hx
  | getOfile q fd =>
    simp only [Next]
    split_ifs <;> exact hk
  | note e => cases e <;> exact hk
  | _ => exact hk

theorem TreeInv.plain (h : Inv ip strict vs s) (ho : ¬o.Writes) (hs : ¬o.Spawns) (hstep : smpStep c o s = .done r s') :
    TreeInv ip (Function.update vs (s.exec c) (Next (s.exec c) c (vs (s.exec c)) s' o r)) s' := by
  have hproc := step_proc ho hstep
  have hkids : ∀ {i T}, KidsOk ip s i T → KidsOk ip s' i T := fun hk =>
    hk.congr (fun _ => by rw [hproc]) fun i _ _ hz => hproc ▸ hz
  refine ⟨h.tree.forest.congr (fun _ => by rw [hproc]) (fun _ => by rw [hproc]) fun i hi => hproc ▸ hi, fun i hi => hkids ?_⟩
  rw [step_thread hs hstep] at hi
  by_cases hc : Thread.proc i = s.exec c
  · rw [hc, Function.update_self, ← hc]
    exact h.kids_next hc.symm ho hstep
  · rw [Function.update_of_ne hc]
    exact h.tree.kids i hi

/-! ## Assignments -/

theorem update_tree {u : Thread} {w : View} (hw : w.tree = (vs u).tree) (t : Thread) :
    (Function.update vs u w t).tree = (vs t).tree := by
  by_cases ht : t = u
  · rw [ht, Function.update_self, hw]
  · rw [Function.update_of_ne ht]

theorem PreOwn.parent {f : Field} (hpre : PreOwn ip p v f) (x : Proc) : (f.apply x).parent = x.parent := by
  cases f with
  | parent => exact hpre.elim
  | _ => rfl

/-- A process that becomes a zombie has locked its parent, unless that is `initproc`. -/
theorem Inv.exit_parent (h : Inv ip strict vs s) (hc : s.exec c = .proc p)
    (hpre : PreOwn ip p (vs (s.exec c)) (.state .zombie)) {q : Slot} (hq : q ≠ ip) (hp : (s.proc p).parent = some q) :
    ∃ x, (vs (s.exec c)).snap q = some x ∧ ¬x.SleepsOn (.proc q) := by
  obtain ⟨-, -, -, -, -, -, -, a, hpar, hcase⟩ := hpre
  rw [hc] at hpar
  rcases (h.tree.kids p (h.exec.thread_of_exec hc)).par a hpar with ha | ha
  · obtain rfl : q = a := Option.some.inj (hp.symm.trans ha)
    exact hcase.resolve_left hq
  · exact absurd (Option.some.inj (hp.symm.trans ha)) hq

/-- The own process gets a new state. -/
theorem Inv.tree_state (h : Inv ip strict vs s) {st : ProcState} (hc : s.exec c = .proc p)
    (hrun : (s.proc p).state = .running) (hpre : PreOwn ip p (vs (s.exec c)) (.state st)) :
    Forest ip (s.put p (.state st)) ∧ ∀ j T, s.hist.thread j = true → (vs (.proc j)).tree = T →
      KidsOk ip (s.put p (.state st)) j T := by
  have hth := h.exec.thread_of_exec hc
  have hkp := h.tree.kids p hth
  have hparent : ∀ i, ((s.put p (.state st)).proc i).parent = (s.proc i).parent := fun i => by
    rw [put_proc]
    by_cases hip : i = p
    · rw [hip, Function.update_self]; rfl
    · rw [Function.update_of_ne hip]
  refine ⟨h.tree.forest.update (put_proc ..) (h.tree.forest.parent p) ?_ ?_ ?_ ?_, ?_⟩
  · intro hd
    rcases hd with hd | hd <;> (change st = _ at hd; subst hd)
    · exact hpre.elim
    · obtain ⟨-, hne, hkids, -⟩ := hpre
      refine ⟨hne, fun i hi => ?_⟩
      have := hkp.all hne i (hparent i ▸ hi)
      rw [hc] at hkids
      rw [hkids] at this
      exact Finset.notMem_empty i this
  · exact fun _ hne => h.tree.forest.orphan p (by rw [hrun]; exact ProcState.noConfusion) hne
  · rintro ⟨hs, hchan⟩ hne i hi
    change st = _ at hs
    subst hs
    obtain ⟨-, ch, lk, -, hch, hcalm⟩ := hpre
    rw [hc] at hch hcalm
    have hch' : ch = .proc p := Option.some.inj (hch.symm.trans ((h.table.own p hth).chan.symm.trans hchan))
    exact (hkp.calm i (hcalm hch' hne (hkp.all hne i hi))).2 hne
  · intro hs q hq hp hsl
    change st = _ at hs
    subst hs
    obtain ⟨x, hx, hnot⟩ := h.exit_parent hc hpre hq hp
    obtain ⟨-, -, hag⟩ := h.snap_exec hx
    exact hnot ⟨hag.state.symm.trans hsl.1, hag.chan.symm.trans hsl.2⟩
  · rintro j _ hj rfl
    refine (h.tree.kids j hj).congr hparent fun i hi hne hz => ?_
    by_cases hip : i = p
    · subst hip
      rw [put_proc, Function.update_self] at hz
      change st = _ at hz
      subst hz
      -- The parent holds its own lock as long as it counts on the child.
      obtain ⟨x, hx, -⟩ := h.exit_parent hc hpre hne ((h.tree.kids j hj).kids i ((h.tree.kids j hj).calm i hi).1)
      obtain ⟨hl, hje, -⟩ := h.snap_exec hx
      rw [h.calm_of_locked hl hje hj] at hi
      exact absurd hi (Finset.notMem_empty i)
    · rwa [put_proc, Function.update_of_ne hip] at hz

theorem TreeInv.put_own (h : Inv ip strict vs s) {f : Field} (hc : s.exec c = .proc p)
    (hrun : (s.proc p).state = .running) (hpre : PreOwn ip p (vs (s.exec c)) f) :
    TreeInv ip (Function.update vs (s.exec c) (NextOwn (vs (s.exec c)) f)) (s.put p f) := by
  have htree : ∀ t, (Function.update vs (s.exec c) (NextOwn (vs (s.exec c)) f) t).tree = (vs t).tree :=
    update_tree (nextOwn_rest ..).2.2.2.1
  have hold : ∀ i, (s.put p f).hist.thread i = true → s.hist.thread i = true := fun i hi => by rwa [put_thread] at hi
  rcases apply_state f (s.proc p) with he | ⟨st, rfl, -⟩
  · have hproc : ∀ i, ((s.put p f).proc i).parent = (s.proc i).parent ∧ ((s.put p f).proc i).state = (s.proc i).state ∧
        (((s.put p f).proc i).SleepsOn (.proc i) → (s.proc i).SleepsOn (.proc i)) := fun i => by
      rw [put_proc]
      by_cases hip : i = p
      · subst hip
        rw [Function.update_self]
        refine ⟨hpre.parent _, he, fun hs => ?_⟩
        have := hs.1
        rw [he, hrun] at this
        cases this
      · rw [Function.update_of_ne hip]
        exact ⟨rfl, rfl, id⟩
    refine ⟨h.tree.forest.congr (fun i => (hproc i).1) (fun i => (hproc i).2.1) fun i => (hproc i).2.2, fun i hi => ?_⟩
    rw [htree]
    exact (h.tree.kids i (hold i hi)).congr (fun j => (hproc j).1) fun j _ _ hz => (hproc j).2.1 ▸ hz
  · obtain ⟨h1, h2⟩ := h.tree_state hc hrun hpre
    exact ⟨h1, fun i hi => h2 i _ (hold i hi) (htree _).symm⟩

/-- Another process becomes `RUNNABLE` or `RUNNING`. -/
theorem Inv.tree_wake (h : Inv ip strict vs s) {st : ProcState} {x : Proc} (hx : (vs (s.exec c)).snap p = some x)
    (hpre : PreOther ip strict (s.exec c) p (vs (s.exec c)) x (.state st)) :
    Forest ip (s.put p (.state st)) ∧ ∀ j T, KidsOk ip s j T → KidsOk ip (s.put p (.state st)) j T := by
  obtain ⟨-, -, hag⟩ := h.snap_exec hx
  have hst : st = .runnable ∨ st = .running := by
    cases st with
    | runnable => exact Or.inl rfl
    | running => exact Or.inr rfl
    | _ => exact hpre.elim
  have hnot : ∀ st', st' ≠ .runnable → st' ≠ .running → st ≠ st' := by
    rintro st' h1 h2 rfl
    exact hst.elim h1 h2
  refine ⟨h.tree.forest.update (put_proc ..) (h.tree.forest.parent p) ?_ ?_ ?_ ?_, ?_⟩
  · intro hd
    rcases hd with hd | hd <;> exact absurd hd (hnot _ ProcState.noConfusion ProcState.noConfusion)
  · intro _ hne
    change (s.proc p).parent ≠ none
    by_cases hu : (s.proc p).state = .unused
    · rw [hag.state] at hu
      cases st with
      | runnable =>
        rcases hpre with hs | ⟨-, -, -, q, -, hq⟩
        · rw [hu] at hs
          cases hs
        · rw [hag.parent, hq]
          exact Option.some_ne_none q
      | running =>
        have := hpre.1
        rw [hu] at this
        cases this
      | _ => exact hpre.elim
    · exact h.tree.forest.orphan p hu hne
  · exact fun hs => absurd hs.1 (hnot _ ProcState.noConfusion ProcState.noConfusion)
  · exact fun hs => absurd hs (hnot _ ProcState.noConfusion ProcState.noConfusion)
  · intro j T hk
    refine hk.congr (fun i => ?_) fun i _ _ hz => ?_
    · rw [put_proc]
      by_cases hip : i = p
      · rw [hip, Function.update_self]; rfl
      · rw [Function.update_of_ne hip]
    · by_cases hip : i = p
      · rw [hip, put_proc, Function.update_self] at hz
        exact absurd hz (hnot _ ProcState.noConfusion ProcState.noConfusion)
      · rwa [put_proc, Function.update_of_ne hip] at hz

/-- What the thread of `j` knows is still so after `p` has got the parent `a` instead of `q`. -/
theorem KidsOk.reparent {T : TreeView} {j q a : Slot} (hk : KidsOk ip s j T) (hjq : j ≠ q)
    (hp : (s.proc p).parent = none ∨ (s.proc p).parent = some q ∧ a = ip) (ha : a = q ∨ a = ip) :
    KidsOk ip (s.put p (.parent (some a))) j T := by
  have hother : ∀ i, i ≠ p → (s.put p (.parent (some a))).proc i = s.proc i := fun i hi => by
    rw [put_proc, Function.update_of_ne hi]
  have hself : (s.put p (.parent (some a))).proc p = { s.proc p with parent := some a } := by
    rw [put_proc, Function.update_self]; rfl
  refine ⟨fun i hi => ?_, fun hne i hi => ?_, fun i hi => ⟨(hk.calm i hi).1, fun hne => ?_⟩, fun x hx => ?_⟩
  · have hkid := hk.kids i hi
    have hip : i ≠ p := by
      rintro rfl
      rcases hp with hp | ⟨hp, -⟩ <;> rw [hp] at hkid
      · cases hkid
      · exact hjq (Option.some.inj hkid).symm
    rw [hother i hip]
    exact hkid
  · by_cases hip : i = p
    · rw [hip, hself] at hi
      have haj : a = j := Option.some.inj hi
      exact absurd ha (not_or.mpr ⟨haj ▸ hjq, haj ▸ hne⟩)
    · exact hk.all hne i (hother i hip ▸ hi)
  · by_cases hip : i = p
    · rw [hip, hself]
      exact (hk.calm p (hip ▸ hi)).2 hne
    · rw [hother i hip]
      exact (hk.calm i hi).2 hne
  · have hold := hk.par x hx
    by_cases hjp : j = p
    · rw [hjp] at hold ⊢
      rw [hself]
      rcases hp with hp | ⟨-, rfl⟩
      · rw [hp] at hold
        rcases hold with hf | hf <;> cases hf
      · exact Or.inr rfl
    · rw [hother j hjp]
      exact hold

/-- The parent of `p` changes, in `fork` or in `exit`. -/
theorem TreeInv.put_parent (h : Inv ip strict vs s) {x : Proc} {y : Option Slot} (hx : (vs (s.exec c)).snap p = some x)
    (hpre : PreOther ip strict (s.exec c) p (vs (s.exec c)) x (.parent y)) :
    TreeInv ip (Function.update vs (s.exec c) (NextOther (s.exec c) p (vs (s.exec c)) x (.parent y))) (s.put p (.parent y)) := by
  obtain ⟨-, hne, hag⟩ := h.snap_exec hx
  obtain ⟨q, hq, hcase⟩ := hpre
  rw [hq] at hcase hne ⊢
  have hqp : q ≠ p := fun hf => hne (congrArg _ hf)
  have hkq := h.tree.kids q (h.exec.thread_of_exec hq)
  have hold : ∀ i, (s.put p (.parent y)).hist.thread i = true → s.hist.thread i = true := fun i hi => by
    rwa [put_thread] at hi
  have hother : ∀ i, i ≠ p → (s.put p (.parent y)).proc i = s.proc i := fun i hi => by
    rw [put_proc, Function.update_of_ne hi]
  have hself : (s.put p (.parent y)).proc p = { s.proc p with parent := y } := by
    rw [put_proc, Function.update_self]; rfl
  have hdead : ∀ i, i ≠ p → (s.proc p).Dead → ((s.put p (.parent y)).proc i).parent ≠ some p := fun i hi hd hf => by
    rw [hother i hi] at hf
    exact (not_or.mpr (h.tree.forest.parent i p hf)) hd
  have hinit : (s.proc p).Dead → p ≠ ip := by
    rintro hd rfl
    exact (not_or.mpr h.tree.forest.init) hd
  have hstate : ∀ i, ((s.put p (.parent y)).proc i).state = (s.proc i).state := fun i => by
    by_cases hip : i = p
    · rw [hip, hself]
    · rw [hother i hip]
  rcases hcase with ⟨hu, hpar, hrun, -, rfl⟩ | ⟨hkid, hqip, rfl⟩
  · have hu' : (s.proc p).state = .unused := hag.state.trans hu
    have hnone : (s.proc p).parent = none := hag.parent.trans hpar
    refine ⟨h.tree.forest.update (put_proc ..) ?_ (fun hd => ⟨hinit (Or.inl hu'), fun i hi => ?_⟩) ?_ ?_ ?_, fun j hj => ?_⟩
    · intro a ha
      obtain rfl : q = a := Option.some.inj ha
      rw [Sys.Alive, h.exec.state c q hq, hrun]
      exact ⟨ProcState.noConfusion, ProcState.noConfusion⟩
    · by_cases hip : i = p
      · rw [hip, hself] at hi
        exact hqp (Option.some.inj hi)
      · exact hdead i hip (Or.inl hu') hi
    · exact fun hf => absurd hu' hf
    · intro hs
      have := hs.1
      change (s.proc p).state = _ at this
      rw [hu'] at this
      cases this
    · intro hs
      change (s.proc p).state = _ at hs
      rw [hu'] at hs
      cases hs
    · by_cases hjq : j = q
      · subst hjq
        rw [Function.update_self]
        simp only [NextOther, Option.map_some, if_true]
        refine ⟨fun i hi => ?_, fun hni i hi => ?_, fun i hi => ⟨?_, fun hni => ?_⟩, fun a ha => ?_⟩
        · rcases Finset.mem_insert.mp hi with rfl | hi'
          · rw [hself]
          · have hkid := hkq.kids i hi'
            have hip : i ≠ p := by
              rintro rfl
              rw [hkid] at hnone
              cases hnone
            rw [hother i hip]
            exact hkid
        · by_cases hip : i = p
          · exact hip ▸ Finset.mem_insert_self ..
          · exact Finset.mem_insert_of_mem (hkq.all hni i (hother i hip ▸ hi))
        · exact Finset.mem_insert_of_mem (hkq.calm i (Finset.mem_of_mem_erase hi)).1
        · rw [hstate]
          exact (hkq.calm i (Finset.mem_of_mem_erase hi)).2 hni
        · rw [hother j hqp]
          exact hkq.par a ha
      · rw [Function.update_of_ne fun hf => hjq (Thread.proc.inj hf)]
        exact (h.tree.kids j (hold j hj)).reparent hjq (Or.inl hnone) (Or.inl rfl)
  · have hparent : (s.proc p).parent = some q := hkq.kids p hkid
    refine ⟨h.tree.forest.update (put_proc ..) ?_ (fun hd => ⟨hinit hd, fun i hi => ?_⟩) ?_ ?_ ?_, fun j hj => ?_⟩
    · intro a ha
      obtain rfl : ip = a := Option.some.inj ha
      exact h.tree.forest.init
    · by_cases hip : i = p
      · rw [hip, hself] at hi
        exact hinit hd (Option.some.inj hi).symm
      · exact hdead i hip hd hi
    · exact fun _ _ => Option.some_ne_none ip
    · exact fun hs hni => h.tree.forest.quiet p hni hs
    · intro _ a ha haip
      exact absurd (Option.some.inj haip).symm ha
    · by_cases hjq : j = q
      · subst hjq
        rw [Function.update_self]
        have hif : ¬(some ip).map Thread.proc = some (Thread.proc j) := fun hf =>
          hqip (Thread.proc.inj (Option.some.inj hf)).symm
        simp only [NextOther, if_neg hif]
        refine ⟨fun i hi => ?_, fun hni i hi => ?_, fun i hi => ⟨?_, fun hni => ?_⟩, fun a ha => ?_⟩
        · rw [hother i (Finset.ne_of_mem_erase hi)]
          exact hkq.kids i (Finset.mem_of_mem_erase hi)
        · have hip : i ≠ p := by
            rintro rfl
            rw [hself] at hi
            exact hqip (Option.some.inj hi).symm
          exact Finset.mem_erase.mpr ⟨hip, hkq.all hni i (hother i hip ▸ hi)⟩
        · exact Finset.mem_erase.mpr ⟨Finset.ne_of_mem_erase hi, (hkq.calm i (Finset.mem_of_mem_erase hi)).1⟩
        · rw [hstate]
          exact (hkq.calm i (Finset.mem_of_mem_erase hi)).2 hni
        · rw [hother j hqp]
          exact hkq.par a ha
      · rw [Function.update_of_ne fun hf => hjq (Thread.proc.inj hf)]
        exact (h.tree.kids j (hold j hj)).reparent hjq (Or.inr ⟨hparent, rfl⟩) (Or.inr rfl)

theorem TreeInv.put_other (h : Inv ip strict vs s) {f : Field} {x : Proc} (hx : (vs (s.exec c)).snap p = some x)
    (hpre : PreOther ip strict (s.exec c) p (vs (s.exec c)) x f) :
    TreeInv ip (Function.update vs (s.exec c) (NextOther (s.exec c) p (vs (s.exec c)) x f)) (s.put p f) := by
  have hold : ∀ i, (s.put p f).hist.thread i = true → s.hist.thread i = true := fun i hi => by rwa [put_thread] at hi
  have hkeep : (NextOther (s.exec c) p (vs (s.exec c)) x f).tree = (vs (s.exec c)).tree →
      (∀ y, (f.apply y).parent = y.parent ∧ (f.apply y).state = y.state ∧ (f.apply y).chan = y.chan) →
      TreeInv ip (Function.update vs (s.exec c) (NextOther (s.exec c) p (vs (s.exec c)) x f)) (s.put p f) := by
    intro htree hf
    have hproc : ∀ i, ((s.put p f).proc i).parent = (s.proc i).parent ∧ ((s.put p f).proc i).state = (s.proc i).state ∧
        ((s.put p f).proc i).chan = (s.proc i).chan := fun i => by
      rw [put_proc]
      by_cases hip : i = p
      · rw [hip, Function.update_self]
        exact hf _
      · rw [Function.update_of_ne hip]
        exact ⟨rfl, rfl, rfl⟩
    refine ⟨h.tree.forest.congr (fun i => (hproc i).1) (fun i => (hproc i).2.1) fun i hi => ?_, fun i hi => ?_⟩
    · rwa [Proc.SleepsOn, (hproc i).2.1, (hproc i).2.2] at hi
    · rw [update_tree htree]
      exact (h.tree.kids i (hold i hi)).congr (fun j => (hproc j).1) fun j _ _ hz => (hproc j).2.1 ▸ hz
  cases f with
  | state st =>
    obtain ⟨h1, h2⟩ := h.tree_wake hx hpre
    refine ⟨h1, fun i hi => ?_⟩
    rw [update_tree (by cases st <;> rfl)]
    exact h2 i _ (h.tree.kids i (hold i hi))
  | parent y => exact TreeInv.put_parent h hx hpre
  | chan | xstate => exact hpre.elim
  | _ => exact hkeep rfl fun _ => ⟨rfl, rfl, rfl⟩

/-! ## `freeproc` and new threads -/

theorem TreeInv.freeproc (h : Inv ip strict vs s) (hpre : Pre ip strict (s.exec c) (vs (s.exec c)) (.freeproc p)) :
    TreeInv ip
      (Function.update vs (s.exec c) (Next (s.exec c) c (vs (s.exec c)) (s.freeproc c p) (.freeproc p) ()))
      (s.freeproc c p) := by
  obtain ⟨x, hx, hcase⟩ := hpre
  obtain ⟨-, hne, hag⟩ := h.snap_exec hx
  have hdead : (s.proc p).Dead := by
    rw [Proc.Dead, hag.state]
    exact hcase.elim (fun hz => Or.inr hz.1) fun hz => Or.inl hz.1
  have hother : ∀ i, i ≠ p → (s.freeproc c p).proc i = s.proc i := fun i hi => by
    rw [freeproc_proc, Function.update_of_ne hi]
  have hself : (s.freeproc c p).proc p = (s.proc p).freed := by rw [freeproc_proc, Function.update_self]
  have hchild : ∀ i, (s.proc i).parent ≠ some p := fun i hf => (not_or.mpr (h.tree.forest.parent i p hf)) hdead
  refine ⟨h.tree.forest.update (freeproc_proc ..) (fun _ hf => nomatch hf) (fun _ => ⟨?_, fun i hi => ?_⟩)
    (fun hf => absurd rfl hf) (fun hs => nomatch hs.1) (fun hs => nomatch hs), fun j hj => ?_⟩
  · rintro rfl
    exact (not_or.mpr h.tree.forest.init) hdead
  · by_cases hip : i = p
    · rw [hip, hself] at hi
      cases hi
    · exact hchild i (hother i hip ▸ hi)
  · have hjp : j ≠ p := by
      rintro rfl
      rw [freeproc_thread, Function.update_self] at hj
      cases hj
    rw [freeproc_thread, Function.update_of_ne hjp] at hj
    have hk := h.tree.kids j hj
    have hall : j ≠ ip → ∀ i, ((s.freeproc c p).proc i).parent = some j → i ≠ p ∧ i ∈ (vs (.proc j)).tree.kids := by
      intro hni i hi
      have hip : i ≠ p := by
        rintro rfl
        rw [hself] at hi
        cases hi
      exact ⟨hip, hk.all hni i (hother i hip ▸ hi)⟩
    have hpar : ∀ q, (vs (.proc j)).tree.par = some q →
        ((s.freeproc c p).proc j).parent = some q ∨ ((s.freeproc c p).proc j).parent = some ip := fun q hq => by
      rw [hother j hjp]
      exact hk.par q hq
    by_cases hjc : Thread.proc j = s.exec c
    · rw [hjc, Function.update_self, next_free hx, ← hjc]
      refine ⟨fun i hi => ?_, fun hni i hi => Finset.mem_erase.mpr (hall hni i hi), fun i hi => ⟨?_, fun hni => ?_⟩, hpar⟩
      · rw [hother i (Finset.ne_of_mem_erase hi)]
        exact hk.kids i (Finset.mem_of_mem_erase hi)
      · exact Finset.mem_erase.mpr ⟨Finset.ne_of_mem_erase hi, (hk.calm i (Finset.mem_of_mem_erase hi)).1⟩
      · rw [hother i (Finset.ne_of_mem_erase hi)]
        exact (hk.calm i (Finset.mem_of_mem_erase hi)).2 hni
    · rw [Function.update_of_ne hjc]
      -- Nobody else takes `p` for its child.
      have hkid : ∀ i ∈ (vs (.proc j)).tree.kids, i ≠ p := by
        rintro i hi rfl
        have hij := hk.kids i hi
        rcases hcase with ⟨-, ⟨q, hq⟩, hkids, -⟩ | ⟨-, hnone⟩
        · rw [hq] at hkids hjc
          have := (h.tree.kids q (h.exec.thread_of_exec hq)).kids i hkids
          rw [hij] at this
          exact hjc (congrArg _ (Option.some.inj this))
        · rw [hag.parent, hnone] at hij
          cases hij
      refine ⟨fun i hi => ?_, fun hni i hi => (hall hni i hi).2, fun i hi => ⟨(hk.calm i hi).1, fun hni => ?_⟩, hpar⟩
      · rw [hother i (hkid i hi)]
        exact hk.kids i hi
      · rw [hother i (hkid i (hk.calm i hi).1)]
        exact (hk.calm i hi).2 hni

theorem TreeInv.resetContext (h : Inv ip strict vs s)
    (hpre : Pre ip strict (s.exec c) (vs (s.exec c)) (.resetContext p)) :
    TreeInv ip (spawned vs (s.exec c) p (s.proc p).pid) { s with hist := s.hist.reset p } := by
  obtain ⟨-, -, x, hx, hu, -⟩ := hpre
  obtain ⟨-, hne, hag⟩ := h.snap_exec hx
  refine ⟨h.tree.forest.congr (fun _ => rfl) (fun _ => rfl) fun _ => id, fun i hi => ?_⟩
  have hkeep : ∀ {j T}, KidsOk ip s j T → KidsOk ip { s with hist := s.hist.reset p } j T := fun hk =>
    hk.congr (fun _ => rfl) fun _ _ _ hz => hz
  by_cases hip : i = p
  · subst hip
    rw [spawned_self]
    refine ⟨fun j hj => absurd hj (Finset.notMem_empty j), fun _ j hj => ?_, fun j hj => absurd hj (Finset.notMem_empty j),
      fun _ hf => nomatch hf⟩
    exact absurd (hag.state.trans hu) (h.tree.forest.parent j i hj).1
  · have hip' : Thread.proc i ≠ .proc p := fun hf => hip (Thread.proc.inj hf)
    have hk := hkeep (h.tree.kids i (Has.of_reset (t := .proc i) hi hip'))
    by_cases hic : Thread.proc i = s.exec c
    · rw [hic, spawned_exec _ hne, ← hic]
      exact hk
    · rw [spawned_of_ne _ hip' hic]
      exact hk

end Xv6Arm.Smp

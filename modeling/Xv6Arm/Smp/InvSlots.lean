import Xv6Arm.Smp.InvTable

/-!
# Changes to other slots of the process table

Assignments to a process that the thread has locked, `freeproc`, and the start of
a new thread, for what the views know of the process table.
-/
namespace Xv6Arm.Smp
open Lib

variable {ip : Slot} {strict : Prop} {vs : Thread → View} {s s' : Sys} {c : ℕ} {v : View} {p : Slot}

/-! ## Assignments -/

/-- After the assignment, the view agrees with the process as it did before. -/
theorem Agree.apply {x y : Proc} {f : Field} {t : Thread} (h : Agree x y) (hpre : PreOther ip strict t p v x f) :
    Agree (f.apply x) (f.apply y) := by
  obtain ⟨h1, h2, h3, h4, h5, h6⟩ := h
  cases f with
  | state st =>
    refine ⟨rfl, h2, h3, h4, h5, fun hd => ?_⟩
    cases st with
    | runnable | running => rcases hd with hd | hd <;> cases hd
    | _ => exact hpre.elim
  | parent q => exact ⟨h1, rfl, h3, h4, h5, fun hd => by rw [h6 hd]⟩
  | chan ch => exact ⟨h1, h2, rfl, h4, h5, fun hd => by rw [h6 hd]⟩
  | xstate n => exact ⟨h1, h2, h3, rfl, h5, fun hd => by rw [h6 hd]⟩
  | pid n => exact ⟨h1, h2, h3, h4, rfl, fun hd => by rw [h6 hd]⟩
  | _ => exact ⟨h1, h2, h3, h4, h5, fun hd => by rw [h6 hd]⟩

/-- Fields of a process that other threads assign to while it is in use. -/
def Field.Shared : Field → Prop
  | .state _ | .parent _ | .killed _ => True
  | _ => False

theorem PreOther.shared_or {t : Thread} {x : Proc} {f : Field} (hpre : PreOther ip strict t p v x f) :
    f.Shared ∨ x.state = .unused ∧ (v.built = none ∨ ∀ n, f ≠ .pid n) := by
  cases f with
  | state | parent | killed => exact Or.inl trivial
  | chan | xstate => exact hpre.elim
  | pid n => exact Or.inr ⟨hpre.1, Or.inl hpre.2⟩
  | _ => exact Or.inr ⟨hpre, Or.inr fun _ => Field.noConfusion⟩

theorem OwnOk.shared {u : OwnView} {x : Proc} {e : ℤ} {f : Field} (h : OwnOk u x e) (hf : f.Shared) :
    OwnOk u (f.apply x) e := by
  obtain ⟨h1, h2, h3, h4, h5, h6, h7⟩ := h
  cases f with
  | state | parent | killed => exact ⟨h1, h2, h3, h4, h5, h6, h7⟩
  | _ => exact hf.elim

/-- What a thread that has not started knows of its process. -/
theorem OwnOk.born {x : Proc} {e : ℤ} {n : ℤ} (hc : x.chan = none) (hp : x.pid = n) : OwnOk (born p n).own x e :=
  ⟨hc, hp, fun _ hf => hf.elim, fun hf => hf.elim, fun _ hf => (nomatch hf), fun _ hf => (nomatch hf),
    fun _ hf => (nomatch hf)⟩

/-- The own view of the process assigned to. -/
theorem Inv.own_other (h : Inv ip strict vs s) {f : Field} {x : Proc} (hx : (vs (s.exec c)).snap p = some x)
    (hpre : PreOther ip strict (s.exec c) p (vs (s.exec c)) x f) (ht : s.hist.thread p = true) :
    OwnOk (vs (.proc p)).own (f.apply (s.proc p)) (s.hist.exiting p) := by
  obtain ⟨-, -, hag⟩ := h.snap_exec hx
  rcases hpre.shared_or with hf | ⟨hu, hf⟩
  · exact (h.table.own p ht).shared hf
  · have hb := h.built_of_thread (by rw [hx]; exact Option.some_ne_none x) ht (hag.state.trans hu)
    obtain ⟨-, -, hborn⟩ := h.table.born _ (h.exec.has c) p hb
    have hown := h.table.own p ht
    rw [hborn] at hown ⊢
    have hpid : ∀ n, f ≠ .pid n := hf.resolve_left fun hf => by rw [hb] at hf; cases hf
    cases f with
    | chan | xstate => exact hpre.elim
    | pid n => exact absurd rfl (hpid n)
    | _ => exact OwnOk.born hown.chan rfl

theorem nextOther_snap_self {t : Thread} {f : Field} {x : Proc} (hpre : PreOther ip strict t p v x f)
    (hr : f ≠ .state .running) : (NextOther t p v x f).snap = Function.update v.snap p (some (f.apply x)) := by
  cases f with
  | state st =>
    cases st with
    | running => exact absurd rfl hr
    | runnable => rfl
    | _ => exact hpre.elim
  | _ => rfl

theorem nextOther_snap_ne {t : Thread} {f : Field} {x : Proc} {i : Slot} (hi : i ≠ p) :
    (NextOther t p v x f).snap i = v.snap i := by
  cases f with
  | state st => cases st <;> simp [NextOther, View.setSnap, Function.update_of_ne hi]
  | _ => simp [NextOther, View.setSnap, Function.update_of_ne hi]

theorem nextOther_built {t : Thread} {f : Field} {x : Proc} {i : Slot} (hb : (NextOther t p v x f).built = some i) :
    v.built = some i ∧ (i = p → ∀ st, f = .state st → st = .running) := by
  cases f with
  | state st =>
    cases st with
    | running => exact ⟨hb, fun _ st hst => (Field.state.inj hst).symm⟩
    | _ =>
      change (if v.built = some p then none else v.built) = some i at hb
      split_ifs at hb with hp
      exact ⟨hb, fun hip => absurd (hip ▸ hb) hp⟩
  | _ => exact ⟨hb, fun _ _ hst => (nomatch hst)⟩

theorem TableInv.put_other (h : Inv ip strict vs s) {f : Field} {x : Proc} (hx : (vs (s.exec c)).snap p = some x)
    (hpre : PreOther ip strict (s.exec c) p (vs (s.exec c)) x f) :
    TableInv ip strict (Function.update vs (s.exec c) (NextOther (s.exec c) p (vs (s.exec c)) x f)) (s.put p f) := by
  obtain ⟨hl, -, hag⟩ := h.snap_exec hx
  have hxne : (vs (s.exec c)).snap p ≠ none := by rw [hx]; exact Option.some_ne_none x
  have hother : ∀ i, i ≠ p → (s.put p f).proc i = s.proc i := fun i hi => by
    rw [put_proc, Function.update_of_ne hi]
  have hself : (s.put p f).proc p = f.apply (s.proc p) := by rw [put_proc, Function.update_self]
  obtain ⟨hexiting, hwindow, hkills⟩ := put_hist s p f
  have hown : ∀ t, (Function.update vs (s.exec c) (NextOther (s.exec c) p (vs (s.exec c)) x f) t).own = (vs t).own ∧
      (Function.update vs (s.exec c) (NextOther (s.exec c) p (vs (s.exec c)) x f) t).window = (vs t).window := by
    intro t
    by_cases ht : t = s.exec c
    · rw [ht, Function.update_self]
      cases f with
      | state st => cases st <;> exact ⟨rfl, rfl⟩
      | _ => exact ⟨rfl, rfl⟩
    · rw [Function.update_of_ne ht]
      exact ⟨rfl, rfl⟩
  refine ⟨fun t ht i y hy => ?_, fun i hi => ?_, fun i hi => ?_, fun t ht i hi => ?_, fun i hi hu => ?_, fun i hli hu => ?_,
    fun i hz => ?_, ?_, fun k hk => h.table.kills k (hkills ▸ hk)⟩
  · rw [Has.of_put] at ht
    by_cases htc : t = s.exec c
    · rw [htc, Function.update_self] at hy
      by_cases hip : i = p
      · subst hip
        rw [hself]
        by_cases hr : f = .state .running
        · subst hr
          change Function.update (vs (s.exec c)).snap i none i = some y at hy
          rw [Function.update_self] at hy
          cases hy
        · rw [nextOther_snap_self hpre hr, Function.update_self] at hy
          cases hy
          exact hag.apply hpre
      · rw [nextOther_snap_ne hip] at hy
        rw [hother i hip]
        exact (h.snap_exec hy).2.2
    · rw [Function.update_of_ne htc] at hy
      have hip : i ≠ p := by
        rintro rfl
        exact htc (h.snap_unique hxne ht (by rw [hy]; exact Option.some_ne_none y))
      rw [hother i hip]
      exact h.table.snap t ht i y hy
  · rw [put_thread] at hi
    rw [(hown _).1, hexiting]
    by_cases hip : i = p
    · subst hip
      rw [hself]
      exact h.own_other hx hpre hi
    · rw [hother i hip]
      exact h.table.own i hi
  · rw [put_thread] at hi
    rw [(hown _).2, hwindow]
    exact h.table.window i hi
  · rw [Has.of_put] at ht
    rw [put_thread]
    have hold : (vs t).built = some i ∧ (i = p → ∀ st, f ≠ .state st) := by
      by_cases htc : t = s.exec c
      · rw [htc, Function.update_self] at hi
        obtain ⟨hb, hst⟩ := nextOther_built hi
        refine ⟨htc ▸ hb, fun hip st hf => ?_⟩
        obtain rfl := hst hip st hf
        subst hf
        have hu := (h.table.born _ (h.exec.has c) i hb).2.1
        rw [hip, hag.state, hpre.1] at hu
        cases hu
      · rw [Function.update_of_ne htc] at hi
        refine ⟨hi, fun hip => ?_⟩
        have := h.snap_unique hxne ht (hip ▸ (h.exec.wf t ht).built i hi)
        exact absurd this htc
    obtain ⟨hb, hst⟩ := hold
    obtain ⟨h1, h2, h3⟩ := h.table.born t ht i hb
    have hic : Thread.proc i ≠ s.exec c := (h.built_ne_exec ht hb c).symm
    rw [Function.update_of_ne hic]
    by_cases hip : i = p
    · subst hip
      have htc := h.snap_unique hxne ht ((h.exec.wf t ht).built i hb)
      rw [hself]
      refine ⟨h1, ?_, ?_⟩
      · rcases apply_state f (s.proc i) with he | ⟨st, hf, -⟩
        · rw [he, h2]
        · exact absurd hf (hst rfl st)
      · rw [h3]
        cases f with
        | pid n =>
          have hnone := hpre.2
          rw [← htc, hb] at hnone
          cases hnone
        | _ => rfl
    · rw [hother i hip]
      exact ⟨h1, h2, h3⟩
  · rw [put_thread] at hi
    have hold : (s.proc i).state = .unused ∧ (i = p → ∀ st, f ≠ .state st) := by
      by_cases hip : i = p
      · subst hip
        rw [hself] at hu
        rcases hpre.state_cases hag.state with he | ⟨rfl, -⟩ | ⟨rfl, -⟩ | ⟨rfl, -⟩
        · refine ⟨he.symm.trans hu, fun _ st hf => ?_⟩
          subst hf
          cases hu
          exact hpre.elim
        all_goals cases hu
      · rw [hother i hip] at hu
        exact ⟨hu, fun hf => absurd hf hip⟩
    obtain ⟨t, ht, hb⟩ := h.table.built i hi hold.1
    refine ⟨t, Has.of_put.mpr ht, ?_⟩
    by_cases htc : t = s.exec c
    · rw [htc, Function.update_self]
      rw [htc] at hb
      by_cases hip : i = p
      · have hst := hold.2 hip
        cases f with
        | state st => exact absurd rfl (hst st)
        | _ => exact hb
      · cases f with
        | state st =>
          cases st with
          | running => exact hb
          | _ =>
            change (if (vs (s.exec c)).built = some p then none else (vs (s.exec c)).built) = some i
            rw [if_neg fun hf => hip (Option.some.inj (hb.symm.trans hf)), hb]
        | _ => exact hb
    · rw [Function.update_of_ne htc, hb]
  · have hip : i ≠ p := by
      rintro rfl
      rw [(put_cpu s i f).2.1, (h.cpu.lock _ c).mpr hl] at hli
      cases hli
    rw [hother i hip] at hu ⊢
    exact h.table.clean i ((put_cpu s p f).2.1 ▸ hli) hu
  · by_cases hip : i = p
    · subst hip
      rw [hself] at hz ⊢
      rcases hpre.state_cases hag.state with he | ⟨rfl, -⟩ | ⟨rfl, -⟩ | ⟨rfl, -⟩
      · have hzo : (s.proc i).state = .zombie := he.symm.trans hz
        have hc := h.table.closed i hzo
        rcases hpre.shared_or with hf | ⟨hu, -⟩
        · cases f with
          | state | parent | killed => exact hc
          | _ => exact hf.elim
        · rw [hag.state, hu] at hzo
          cases hzo
      all_goals cases hz
    · rw [hother i hip] at hz ⊢
      exact h.table.closed i hz
  · rw [(put_cpu s p f).2.2]
    exact h.table.init

/-! ## `freeproc` and new threads -/

theorem freeproc_hist (s : Sys) (p : Slot) : (s.freeproc c p).hist.exiting = s.hist.exiting ∧
    (s.freeproc c p).hist.window = Function.update s.hist.window p none ∧
    (s.freeproc c p).hist.kills = s.hist.kills := by
  unfold Sys.freeproc
  split <;> exact ⟨rfl, rfl, rfl⟩

theorem next_free {t : Thread} {r : Unit} {x : Proc} (hx : v.snap p = some x) :
    Next t c v s' (.freeproc p) r = { v.setSnap p (some x.freed) with
      tree := { v.tree with kids := v.tree.kids.erase p, calm := v.tree.calm.erase p }
      reap := if x.state = .zombie then some (some (x.pid, x.xstate)) else v.reap
      built := if v.built = some p then none else v.built } := by
  simp only [Next, hx]

theorem update_own {u : Thread} {w : View} (hown : w.own = (vs u).own) (hwindow : w.window = (vs u).window)
    (t : Thread) : (Function.update vs u w t).own = (vs t).own ∧ (Function.update vs u w t).window = (vs t).window := by
  by_cases ht : t = u
  · rw [ht, Function.update_self]
    exact ⟨hown, hwindow⟩
  · rw [Function.update_of_ne ht]
    exact ⟨rfl, rfl⟩

theorem Has.of_freeproc {t : Thread} (ht : (s.freeproc c p).Has t) : s.Has t ∧ t ≠ .proc p := by
  cases t with
  | scheduler d => exact ⟨trivial, Thread.noConfusion⟩
  | proc i =>
    rw [Sys.Has, freeproc_thread] at ht
    by_cases hip : i = p
    · rw [hip, Function.update_self] at ht
      cases ht
    · rw [Function.update_of_ne hip] at ht
      exact ⟨ht, fun hf => hip (Thread.proc.inj hf)⟩

theorem TableInv.freeproc (h : Inv ip strict vs s) (hpre : Pre ip strict (s.exec c) (vs (s.exec c)) (.freeproc p)) :
    TableInv ip strict
      (Function.update vs (s.exec c) (Next (s.exec c) c (vs (s.exec c)) (s.freeproc c p) (.freeproc p) ()))
      (s.freeproc c p) := by
  obtain ⟨x, hx, hcase⟩ := hpre
  obtain ⟨hl, hne, hag⟩ := h.snap_exec hx
  have hxne : (vs (s.exec c)).snap p ≠ none := by rw [hx]; exact Option.some_ne_none x
  have hdead : x.Dead := hcase.elim (fun hz => Or.inr hz.1) fun hz => Or.inl hz.1
  have hother : ∀ i, i ≠ p → (s.freeproc c p).proc i = s.proc i := fun i hi => by
    rw [freeproc_proc, Function.update_of_ne hi]
  have hself : (s.freeproc c p).proc p = x.freed := by rw [freeproc_proc, Function.update_self, hag.dead hdead]
  obtain ⟨hexiting, hwindow, hkills⟩ := freeproc_hist (c := c) s p
  have hw : Next (s.exec c) c (vs (s.exec c)) (s.freeproc c p) (.freeproc p) () = _ := next_free hx
  generalize Next (s.exec c) c (vs (s.exec c)) (s.freeproc c p) (.freeproc p) () = w at hw ⊢
  have hwsnap : w.snap = Function.update (vs (s.exec c)).snap p (some x.freed) := by rw [hw]; rfl
  have hwbuilt : w.built = if (vs (s.exec c)).built = some p then none else (vs (s.exec c)).built := by rw [hw]
  have hown := update_own (w := w) (by rw [hw]; rfl) (by rw [hw]; rfl)
  have hthread : ∀ i, (s.freeproc c p).hist.thread i = true → s.hist.thread i = true ∧ i ≠ p := fun i hi =>
    ⟨(Has.of_freeproc (t := .proc i) hi).1, fun hf => (Has.of_freeproc (t := .proc i) hi).2 (congrArg _ hf)⟩
  refine ⟨fun t ht i y hy => ?_, fun i hi => ?_, fun i hi => ?_, fun t ht i hi => ?_, fun i hi hu => ?_, fun i hli hu => ?_,
    fun i hz => ?_, ?_, fun k hk => h.table.kills k (hkills ▸ hk)⟩
  · by_cases htc : t = s.exec c
    · rw [htc, Function.update_self] at hy
      rw [hwsnap] at hy
      by_cases hip : i = p
      · subst hip
        rw [Function.update_self] at hy
        cases hy
        rw [hself]
        exact ⟨rfl, rfl, rfl, rfl, rfl, fun _ => rfl⟩
      · rw [Function.update_of_ne hip] at hy
        rw [hother i hip]
        exact (h.snap_exec hy).2.2
    · rw [Function.update_of_ne htc] at hy
      have hip : i ≠ p := by
        rintro rfl
        exact htc (h.snap_unique hxne (Has.of_freeproc ht).1 (by rw [hy]; exact Option.some_ne_none y))
      rw [hother i hip]
      exact h.table.snap t (Has.of_freeproc ht).1 i y hy
  · obtain ⟨hi, hip⟩ := hthread i hi
    rw [(hown _).1, hexiting, hother i hip]
    exact h.table.own i hi
  · obtain ⟨hi, hip⟩ := hthread i hi
    rw [(hown _).2, hwindow, Function.update_of_ne hip]
    exact h.table.window i hi
  · obtain ⟨ht, -⟩ := Has.of_freeproc ht
    have hold : (vs t).built = some i ∧ i ≠ p := by
      by_cases htc : t = s.exec c
      · rw [htc, Function.update_self] at hi
        rw [hwbuilt] at hi
        split_ifs at hi with hp
        exact ⟨htc ▸ hi, fun hip => hp (hip ▸ hi)⟩
      · rw [Function.update_of_ne htc] at hi
        refine ⟨hi, fun hip => ?_⟩
        exact absurd (h.snap_unique hxne ht (hip ▸ (h.exec.wf t ht).built i hi)) htc
    obtain ⟨hb, hip⟩ := hold
    obtain ⟨h1, h2, h3⟩ := h.table.born t ht i hb
    rw [Function.update_of_ne (h.built_ne_exec ht hb c).symm, hother i hip, freeproc_thread, Function.update_of_ne hip]
    exact ⟨h1, h2, h3⟩
  · obtain ⟨hi, hip⟩ := hthread i hi
    rw [hother i hip] at hu
    obtain ⟨t, ht, hb⟩ := h.table.built i hi hu
    refine ⟨t, ?_, ?_⟩
    · cases t with
      | scheduler d => trivial
      | proc q =>
        -- The thread that prepares `i` executes, so it is not the one that is freed.
        obtain ⟨d, hd⟩ := h.exec.exec_of_built ht hb
        have hqp : q ≠ p := by
          rintro rfl
          have hs : (s.proc q).state ≠ .running := by
            rw [hag.state]
            rcases hdead with hd | hd <;> rw [hd] <;> exact ProcState.noConfusion
          exact h.still hl hne hs d hd
        rw [Sys.Has, freeproc_thread, Function.update_of_ne hqp]
        exact ht
    · by_cases htc : t = s.exec c
      · rw [htc] at hb
        rw [htc, Function.update_self, hwbuilt, if_neg fun hf => hip (Option.some.inj (hb.symm.trans hf)), hb]
      · rw [Function.update_of_ne htc, hb]
  · have hip : i ≠ p := by
      rintro rfl
      rw [(freeproc_cpu s i).2.1, (h.cpu.lock _ c).mpr hl] at hli
      cases hli
    rw [hother i hip] at hu ⊢
    exact h.table.clean i ((freeproc_cpu s p).2.1 ▸ hli) hu
  · have hip : i ≠ p := by
      rintro rfl
      rw [hself] at hz
      cases hz
    rw [hother i hip] at hz ⊢
    exact h.table.closed i hz
  · rw [(freeproc_cpu s p).2.2]
    exact h.table.init

/-- The views after thread `t` has given slot `p` a thread. -/
def spawned (vs : Thread → View) (t : Thread) (p : Slot) (pid : ℤ) : Thread → View :=
  Function.update (Function.update vs t { vs t with built := some p }) (.proc p) (born p pid)

theorem spawned_self (vs : Thread → View) (t : Thread) (p : Slot) (n : ℤ) : spawned vs t p n (.proc p) = born p n :=
  Function.update_self ..

theorem spawned_of_ne {t u : Thread} (n : ℤ) (hp : u ≠ .proc p) (hu : u ≠ t) : spawned vs t p n u = vs u := by
  rw [spawned, Function.update_of_ne hp, Function.update_of_ne hu]

theorem spawned_exec {t : Thread} (n : ℤ) (ht : t ≠ .proc p) :
    spawned vs t p n t = { vs t with built := some p } := by
  rw [spawned, Function.update_of_ne ht, Function.update_self]

theorem Has.of_reset {t : Thread} (ht : Sys.Has { s with hist := s.hist.reset p } t) (hp : t ≠ .proc p) : s.Has t := by
  cases t with
  | scheduler d => trivial
  | proc i =>
    change Function.update s.hist.thread p true i = true at ht
    rwa [Function.update_of_ne fun hf => hp (congrArg _ hf)] at ht

theorem Has.reset {t : Thread} (ht : s.Has t) : Sys.Has { s with hist := s.hist.reset p } t := by
  cases t with
  | scheduler d => trivial
  | proc i =>
    change Function.update s.hist.thread p true i = true
    by_cases hip : i = p
    · rw [hip, Function.update_self]
    · rw [Function.update_of_ne hip]
      exact ht

/-- The slot that a thread is about to prepare has none yet. -/
theorem Inv.no_thread (h : Inv ip strict vs s) (hb : (vs (s.exec c)).built = none) {x : Proc}
    (hx : (vs (s.exec c)).snap p = some x) (hu : x.state = .unused) : s.hist.thread p = false := by
  refine Bool.eq_false_of_not_eq_true fun ht => ?_
  obtain ⟨-, -, hag⟩ := h.snap_exec hx
  have := h.built_of_thread (by rw [hx]; exact Option.some_ne_none x) ht (hag.state.trans hu)
  rw [hb] at this
  cases this

theorem TableInv.resetContext (h : Inv ip strict vs s)
    (hpre : Pre ip strict (s.exec c) (vs (s.exec c)) (.resetContext p)) :
    TableInv ip strict (spawned vs (s.exec c) p (s.proc p).pid) { s with hist := s.hist.reset p } := by
  obtain ⟨-, hb, x, hx, hu, hchan⟩ := hpre
  obtain ⟨hl, hne, hag⟩ := h.snap_exec hx
  have hno := h.no_thread hb hx hu
  have hrest : ∀ t, t ≠ .proc p → (spawned vs (s.exec c) p (s.proc p).pid t).snap = (vs t).snap ∧
      (spawned vs (s.exec c) p (s.proc p).pid t).own = (vs t).own ∧
      (spawned vs (s.exec c) p (s.proc p).pid t).window = (vs t).window := fun t ht => by
    by_cases htc : t = s.exec c
    · rw [htc, spawned_exec _ hne]
      exact ⟨rfl, rfl, rfl⟩
    · rw [spawned_of_ne _ ht htc]
      exact ⟨rfl, rfl, rfl⟩
  have hne' : ∀ {i : Slot}, i ≠ p → Thread.proc i ≠ .proc p := fun hi hf => hi (Thread.proc.inj hf)
  have hold : ∀ {i : Slot}, i ≠ p → (s.hist.reset p).thread i = true → s.hist.thread i = true :=
    fun {i} hip hi => Has.of_reset (t := .proc i) hi (hne' hip)
  refine ⟨fun t ht i y hy => ?_, fun i hi => ?_, fun i hi => ?_, fun t ht i hi => ?_, fun i hi hui => ?_,
    h.table.clean, h.table.closed, h.table.init, h.table.kills⟩
  · by_cases htp : t = .proc p
    · subst htp
      rw [spawned_self] at hy
      cases hy
    · rw [(hrest t htp).1] at hy
      exact h.table.snap t (Has.of_reset ht htp) i y hy
  · by_cases hip : i = p
    · subst hip
      rw [spawned_self]
      exact OwnOk.born (hag.chan.trans hchan) rfl
    · rw [(hrest _ (hne' hip)).2.1]
      exact h.table.own i (hold hip hi)
  · change Function.update s.hist.window p none i = _
    by_cases hip : i = p
    · subst hip
      rw [spawned_self, Function.update_self]
      rfl
    · rw [(hrest _ (hne' hip)).2.2, Function.update_of_ne hip]
      exact h.table.window i (hold hip hi)
  · by_cases htp : t = .proc p
    · subst htp
      rw [spawned_self] at hi
      cases hi
    · by_cases htc : t = s.exec c
      · rw [htc, spawned_exec _ hne] at hi
        cases hi
        exact ⟨Function.update_self .., hag.state.trans hu, spawned_self ..⟩
      · rw [spawned_of_ne _ htp htc] at hi
        obtain ⟨h1, h2, h3⟩ := h.table.born t (Has.of_reset ht htp) i hi
        have hip : i ≠ p := by
          rintro rfl
          rw [hno] at h1
          cases h1
        refine ⟨Has.reset (t := .proc i) h1, h2, ?_⟩
        rw [spawned_of_ne _ (hne' hip) (h.built_ne_exec (Has.of_reset ht htp) hi c).symm]
        exact h3
  · by_cases hip : i = p
    · subst hip
      exact ⟨s.exec c, Has.reset (h.exec.has c), by rw [spawned_exec _ hne]⟩
    · obtain ⟨t, ht, hbt⟩ := h.table.built i (hold hip hi) hui
      have htp : t ≠ .proc p := by
        rintro rfl
        change s.hist.thread p = true at ht
        rw [hno] at ht
        cases ht
      refine ⟨t, Has.reset ht, ?_⟩
      by_cases htc : t = s.exec c
      · rw [htc, hb] at hbt
        cases hbt
      · rw [spawned_of_ne _ htp htc, hbt]

end Xv6Arm.Smp

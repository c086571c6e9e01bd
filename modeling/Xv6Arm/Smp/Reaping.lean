import Xv6Arm.Smp.Kernel

/-!
# Children, and calls of `sleep` that are over

In every run: the process tree and what `wait` reports, and that a call of
`wakeup` leaves nobody asleep that it had to wake.
-/
namespace Xv6Arm.Smp
open Lib

variable {ip : Slot} {strict : Prop} {vs : Thread → StoreView} {s : Sys} {g : Slot → Proc} {c : ℕ} {p : Slot}

/-! ## The process tree -/

/-- Who is whose parent, and which exits `wait` has reported. -/
structure Family (s : Sys) : Prop where
  /-- A zombie whose lock is taken may be without a parent: it is being freed. -/
  parent : ∀ p, (s.proc p).state ≠ .unused → p ≠ s.initproc → (∃ q, (s.proc p).parent = some q ∧ s.Alive q) ∨
    (s.proc p).state = .zombie ∧ (s.proc p).parent = none ∧ s.lock (.proc p) ≠ none
  /-- Each exit is reported at most once. -/
  once : (s.hist.reports.filterMap Report.exit).Nodup
  /-- With the pid of the process and, if there is an address, the status it passed to `exit`. -/
  report : ∀ rep ∈ s.hist.reports, ReportOk s.hist.exits rep
  /-- A process that sleeps in `wait` has no child to wait for. -/
  quiet : ∀ p, p ≠ s.initproc → s.lock (.proc p) = none → (s.proc p).SleepsOn (.proc p) →
    ∀ i, (s.proc i).parent = some p → (s.proc i).state ≠ .zombie

section Tree
variable (h : Inv ip strict (fun t => (vs t).view) s) (hl : Lags vs s g)
include h hl

omit h in
theorem Lags.alive {q : Slot} (hq : s.Alive q) : Sys.Alive { s with proc := g } q := by
  have hsame : g q = s.proc q := (hl.cases q).resolve_right fun hf => hq.1 hf.1
  change (g q).state ≠ .unused ∧ (g q).state ≠ .zombie
  rw [hsame]
  exact hq

theorem Lags.parent (hp : (g p).state ≠ .unused) (hne : p ≠ ip) :
    (∃ q, (g p).parent = some q ∧ Sys.Alive { s with proc := g } q) ∨
      (g p).state = .zombie ∧ (g p).parent = none ∧ s.lock (.proc p) ≠ none := by
  by_cases hf : Freeing vs s p
  · obtain ⟨c, fs, hleft⟩ := hf
    have hlag := hl.lag c p fs hleft
    cases hpar : (g p).parent with
    | none =>
      refine Or.inr ⟨(hlag.state.resolve_left hp).1, rfl, ?_⟩
      rw [hl.locked h hleft]
      exact Option.some_ne_none c
    | some q =>
      -- the parent is the thread that frees it
      obtain ⟨hc, hz⟩ := hlag.parent q hpar
      refine Or.inl ⟨q, rfl, hl.alive ⟨h.exec.used c q hc, fun hs => hz ?_⟩⟩
      rw [hc]
      exact (h.exec.state c q hc).symm.trans hs
  · rw [hl.same p hf] at hp ⊢
    obtain ⟨q, hq⟩ := Option.ne_none_iff_exists'.mp (h.tree.forest.orphan p hp hne)
    exact Or.inl ⟨q, hq, hl.alive (h.tree.forest.parent p q hq)⟩

theorem Lags.quiet (hne : p ≠ ip) (hfree : s.lock (.proc p) = none) (hs : (g p).SleepsOn (.proc p)) {i : Slot}
    (hi : (g i).parent = some p) : (g i).state ≠ .zombie := by
  rw [hl.same p (hl.not_free h hfree)] at hs
  by_cases hf : Freeing vs s i
  · -- then the process is not asleep but executes `freeproc`
    obtain ⟨c, fs, hleft⟩ := hf
    have hc := ((hl.lag c i fs hleft).parent p hi).1
    have hwf := h.exec.wf_exec c
    rw [hc] at hwf
    have hself := hwf.self p rfl fun hm => by
      have hlock := (h.cpu.lock (.proc p) c).mpr (by rw [hc]; exact hm)
      rw [hfree] at hlock
      cases hlock
    have hrun := (h.exec.state c p hc).trans hself.1
    rw [hs.1] at hrun
    cases hrun
  · rw [hl.same i hf] at hi ⊢
    exact h.tree.forest.quiet p hne hs i hi

omit hl in
/-- A zombie is freed by its parent, which is in `wait` and has taken no exit yet. -/
theorem Inv.freed_by_parent (hpre : Pre ip strict (s.exec c) (vs (s.exec c)).view (.freeproc p))
    (hz : (s.proc p).state = .zombie) :
    ∃ q, s.exec c = .proc q ∧ (s.proc p).parent = some q ∧ s.hist.waiting q = some none := by
  obtain ⟨x, hx, ⟨-, ⟨q, hq⟩, hkid, hreap⟩ | ⟨hu, -⟩⟩ := hpre
  · have hth := h.exec.thread_of_exec hq
    rw [hq] at hkid hreap
    have hok := h.reap.view q hth
    rw [hreap] at hok
    exact ⟨q, hq, (h.tree.kids q hth).kids p hkid, hok.none_of⟩
  · rw [(h.snap_exec hx).2.2.state, hu] at hz
    cases hz

/-- The assignments follow in the call of `wait` that has taken the exit. -/
theorem Lags.freed_in_wait {f : Field} {l : List Field} (hleft : (vs (s.exec c)).left = some (p, f :: l))
    (hz : (g p).state = .zombie) : ∃ q n, s.exec c = .proc q ∧ s.hist.waiting q = some (some n) := by
  rcases (hl.lag c p _ hleft).state with hu | ⟨-, q, x, hq, hreap⟩
  · cases hu.symm.trans hz
  · have hok := h.reap.view q (h.exec.thread_of_exec hq)
    rw [hq] at hreap
    rw [hreap] at hok
    cases hw : s.hist.waiting q with
    | none =>
      rw [hw] at hok
      exact hok.elim
    | some y =>
      cases y with
      | none =>
        rw [hw] at hok
        exact hok.elim
      | some n => exact ⟨q, n, hq, hw⟩

end Tree

/-- In every state of every run the process tree is as it should be, and no exit has been reported twice or
wrongly; and a zombie is only freed by a call of `wait` of the process that is then its parent: that process
calls `freeproc` for it, and makes it `UNUSED` in the same call of `wait`. -/
theorem process_tree (jobs : List SysOp → Prop) (C : Threads.Config smpSig Sys Thread) (hC : Reachable jobs C) :
    Family C.shared ∧
      (∀ c p next, C.thread (C.shared.exec c) = .call (S := smpSig) (.freeproc p) next →
        (C.shared.proc p).state = .zombie →
        ∃ q, C.shared.exec c = .proc q ∧ (C.shared.proc p).parent = some q ∧ C.shared.hist.waiting q = some none) ∧
      ∀ c p next, C.thread (C.shared.exec c) = .call (S := smpSig) (.put p (.state .unused)) next →
        (C.shared.proc p).state = .zombie →
        ∃ q n, C.shared.exec c = .proc q ∧ C.shared.hist.waiting q = some (some n) := by
  obtain ⟨shared, thread⟩ := C
  obtain ⟨vs, ⟨s, g, rfl, hinv, hl⟩, hkeep⟩ := Reachable.inv (jobs_any jobs) hC
  refine ⟨⟨fun p hp hne => hl.parent hinv hp hne, hinv.reap.nodup, hinv.reap.report,
    fun p hne hf hs i hi => hl.quiet hinv hne hf hs hi⟩, fun c p next hp hz => ?_, fun c p next hp hz => ?_⟩
  · rcases pre_of_pending (c := c) hinv (hkeep _) hp with ⟨hn, hpre⟩ | ⟨q, f, l, -, ho⟩
    · have hsame : g p = s.proc p := by
        obtain ⟨x, hx, -⟩ := id hpre
        exact hl.same p (hl.not_snap hinv hn (by rw [hx]; exact Option.some_ne_none x))
      change (g p).state = .zombie at hz
      change ∃ q, s.exec c = .proc q ∧ (g p).parent = some q ∧ s.hist.waiting q = some none
      rw [hsame] at hz ⊢
      exact hinv.freed_by_parent hpre hz
    · cases ho
  · rcases pre_of_pending (c := c) hinv (hkeep _) hp with ⟨-, hpre⟩ | ⟨q, f, l, hleft, ho⟩
    · rcases hinv.put_cases hpre with ⟨-, -, hf⟩ | ⟨-, _, -, hf⟩ <;> exact hf.elim
    · cases ho
      have hwait := hl.freed_in_wait hinv hleft hz
      exact hwait

section Sample

/-- The first process has forked and sleeps in `wait`, and its child has come to user mode. -/
def sampleForked : Threads.Config smpSig Sys Thread :=
  (kernel fun _ => True).ahead 0 1000 (firstCall (fun _ => True) [.fork 1 true, .wait 7 true 3])

/-- The child has called `exit(42)`. -/
def sampleExited : Threads.Config smpSig Sys Thread :=
  (kernel fun _ => True).ahead 0 1000 ⟨sampleForked.shared.mask 0, Function.update sampleForked.thread (.proc 1)
    (inlined (swiHandler 0 [.exit 42 ⟨fun _ => [], []⟩] ⟨fun _ => [], []⟩))⟩

/-- The scheduler looks for a process, and finds the parent. -/
def sampleTurn : Threads.Config smpSig Sys Thread :=
  ⟨sampleExited.shared, Function.update sampleExited.thread (.scheduler 0) (inlined scheduler)⟩

/-- The parent has returned from `wait`. -/
def sampleReaped : Threads.Config smpSig Sys Thread := (kernel fun _ => True).ahead 0 1000 sampleTurn

theorem reachable_sampleTurn : Reachable (fun _ => True) sampleTurn := by
  have h1 : Reachable (fun _ => True) sampleForked := (reachable_firstCall _ trivial (by exact rfl)).ahead 0 1000
  have h2 : Reachable (fun _ => True) sampleExited :=
    (Reachable.svc (c := 0) h1 (by decide +kernel) (by decide +kernel) 0 trivial (by exact rfl) _).ahead 0 1000
  exact Reachable.turn (c := 0) h2 (by decide +kernel) (by decide +kernel)

theorem process_tree_sample : sampleReaped.shared.hist.reports.map (fun rep => (rep.exit, rep.pid, rep.status)) =
    [(some 0, 2, some 42)] ∧ Family sampleReaped.shared :=
  ⟨by decide +kernel, (process_tree _ _ (reachable_sampleTurn.ahead 0 1000)).1⟩

/-- In between, `freeproc` has made `parent` 0 and not made the zombie `UNUSED` yet. -/
theorem zombie_without_parent : ∃ C, Reachable (fun _ => True) C ∧ (C.shared.proc 1).state = .zombie ∧
    1 ≠ C.shared.initproc ∧ (C.shared.proc 1).parent = none :=
  ⟨_, reachable_sampleTurn.ahead 0 19, by decide +kernel⟩

end Sample

/-! ## No lost wakeup -/

/-- In every state of every run: if a thread took the lock `lk` after process `p` had given it up in its
current call of `sleep(chan, lk)`, and a call of `wakeup(chan)`, or `wakeup1`, that the thread made after
that has returned, then `p` is not asleep. -/
theorem no_lost_wakeup (jobs : List SysOp → Prop) (C : Threads.Config smpSig Sys Thread) (hC : Reachable jobs C)
    (p : Slot) (hp : C.shared.hist.woken p = true) : (C.shared.proc p).state ≠ .sleeping := by
  obtain ⟨shared, thread⟩ := C
  obtain ⟨vs, ⟨s, g, rfl, hinv, hl⟩, -⟩ := Reachable.inv (jobs_any jobs) hC
  change (g p).state ≠ .sleeping
  rcases hl.cases p with hsame | ⟨-, hs | hs⟩
  · rw [hsame]
    exact (hinv.nap.woken p hp).1
  · rw [hs]
    exact ProcState.noConfusion
  · rw [hs]
    exact ProcState.noConfusion

theorem no_lost_wakeup_sample : (sampleAsleep.shared.proc 0).state = .sleeping ∧
    sampleWoken.shared.hist.woken 0 = true ∧ (sampleWoken.shared.proc 0).state ≠ .sleeping := by
  have hw : sampleWoken.shared.hist.woken 0 = true := by decide +kernel
  exact ⟨by decide +kernel, hw, no_lost_wakeup _ _ reachable_sampleWoken 0 hw⟩

end Xv6Arm.Smp

import Xv6Arm.Smp.Kernel

/-!
# Slots that nobody uses

`kill` looks for a pid among all slots, the unused ones included, and an unused
slot has pid 0. In runs without `kill(0)`, an unused slot is clean.
-/
namespace Xv6Arm.Smp
open Lib

/-- What `kill(pid)` did, given its result and its requests: if it found a process, that is the only one it
changed, and otherwise it changed none. -/
def KilledOne (pid result : ℤ) (l : List SmpOp) : Prop :=
  (result = 0 ∧ ∃ p, .note (.killHit pid p) ∈ l ∧ ∀ q f, .put q f ∈ l → q = p) ∨
    (result = -1 ∧ ∀ q f, .put q f ∉ l)

theorem killFrom_killedOne (pid : ℤ) (ps : List Slot) (l : List SmpOp) (hl : ∀ q f, .put q f ∉ l) :
    (killFrom pid ps).wp (traceSpec smpSig) Threads.anyPanic (fun result l => KilledOne pid result l) l := by
  induction ps generalizing l with
  | nil => exact Or.inr ⟨rfl, hl⟩
  | cons p ps ih =>
    rw [killFrom]
    simp only [Prog.bind_eq]
    refine fun _ r => ?_
    dsimp only [Prog.ret_bind]
    have hl' : ∀ q f, SmpOp.put q f ∉ .get p :: .acquire (.proc p) :: l := fun q f hm => by
      rcases List.mem_cons.mp hm with hm | hm
      · cases hm
      · rcases List.mem_cons.mp hm with hm | hm
        · cases hm
        · exact hl q f hm
    by_cases hp : r.pid = pid
    · rw [if_pos hp]
      refine fun _ _ r' => ?_
      dsimp only [Prog.ret_bind]
      split_ifs
      · refine fun _ _ => Or.inl ⟨rfl, p, by simp, fun q f hm => ?_⟩
        simp only [List.mem_cons, reduceCtorEq, false_or, SmpOp.put.injEq] at hm
        rcases hm with ⟨rfl, -⟩ | ⟨rfl, -⟩ | hm
        · rfl
        · rfl
        · exact absurd hm (hl q f)
      · refine fun _ => Or.inl ⟨rfl, p, by simp, fun q f hm => ?_⟩
        simp only [List.mem_cons, reduceCtorEq, false_or, SmpOp.put.injEq] at hm
        rcases hm with ⟨rfl, -⟩ | hm
        · rfl
        · exact absurd hm (hl q f)
    · rw [if_neg hp]
      refine fun _ => ih _ fun q f hm => ?_
      rcases List.mem_cons.mp hm with hm | hm
      · cases hm
      · exact hl' q f hm

/-- The table has no leftovers, and every call of `kill` that returned 0 found a process in use with that
pid. -/
structure CleanSlots (s : Sys) : Prop where
  clean : ∀ p, s.lock (.proc p) = none → (s.proc p).state = .unused → Clean True (s.proc p)
  found : ∀ k ∈ s.hist.kills, k.2.pid = k.1 ∧ k.2.state ≠ .unused

/-- In every state of every run without `kill(0)`, unused slots are clean, and a process is not marked as
killed when `fork` makes it `RUNNABLE`. A call of `kill` that returns 0 found a process in use and changed
no other one. -/
theorem clean_slots (jobs : List SysOp → Prop) (hj : ∀ body, jobs body → SysOp.kill 0 ∉ body)
    (C : Threads.Config smpSig Sys Thread) (hC : Reachable jobs C) :
    CleanSlots C.shared ∧
      (∀ c np next, C.thread (C.shared.exec c) = .call (S := smpSig) (.put np (.state .runnable)) next →
        (C.shared.proc np).state = .unused → (C.shared.proc np).killed = false) ∧
      ∀ pid, (kill pid).wp (traceSpec smpSig) Threads.anyPanic (fun result l => KilledOne pid result l) [] := by
  have hmeets : Jobs True jobs := by
    rintro body hb (k | - | - | pid | - | - | - | - | -) hk
    case kill =>
      rintro - rfl
      exact hj body hb hk
    all_goals trivial
  obtain ⟨shared, thread⟩ := C
  obtain ⟨vs, ⟨s, g, rfl, hinv, hl⟩, hkeep⟩ := Reachable.inv hmeets hC
  refine ⟨⟨fun p hf hu => ?_, fun k hk => ?_⟩, fun c np next hp hu => ?_, fun pid => ?_⟩
  · change (g p).state = .unused at hu
    change Clean True (g p)
    rw [hl.same p (hl.not_free hinv hf)] at hu ⊢
    exact hinv.table.clean p hf hu
  · obtain ⟨h1, h2⟩ := hinv.table.kills k hk
    exact ⟨h1, h2 trivial⟩
  · rcases pre_of_pending (c := c) hinv (hkeep _) hp with ⟨hn, hput⟩ | ⟨q, f, l, hleft, ho⟩
    · change (g np).state = .unused at hu
      change (g np).killed = false
      rw [hl.same np (hl.not_put hinv hn hput)] at hu ⊢
      rcases hinv.put_cases hput with ⟨-, hrun, -⟩ | ⟨-, x, hx, hpre⟩
      · rw [hu] at hrun
        cases hrun
      · obtain ⟨-, -, hag⟩ := hinv.snap_exec hx
        rcases hpre with hs | ⟨hs, -, hkilled, -⟩
        · rw [hag.state, hs] at hu
          cases hu
        · rw [hag.dead (Or.inl hs)]
          exact hkilled trivial
    · -- `freeproc` makes no process runnable
      cases ho
      exact absurd ((hl.lag c np _ hleft).stores List.mem_cons_self) (by simp [freeStores])
  · exact killFrom_killedOne pid _ [] fun _ _ => List.not_mem_nil

theorem clean_slots_first : ∃ C, Reachable (fun body => SysOp.kill 0 ∉ body) C ∧ C.shared.hist.kills.length = 1 ∧
    CleanSlots C.shared := by
  have hC : Reachable (fun body => SysOp.kill 0 ∉ body) ((kernel fun body => SysOp.kill 0 ∉ body).ahead 0 1000
      (firstCall (fun body => SysOp.kill 0 ∉ body) [.kill 1])) :=
    (reachable_firstCall _ (by simp) (by exact rfl)).ahead 0 1000
  exact ⟨_, hC, by decide +kernel, (clean_slots _ (fun _ hb => hb) _ hC).1⟩

/-- `kill(0)` finds an unused slot, returns 0 and leaves the slot marked as killed; and the next process that
`fork` returns is marked as killed from the start. -/
theorem kill_zero_marks_unused :
    (∃ C, Reachable (fun _ => True) C ∧ C.shared.lock (.proc 1) = none ∧ (C.shared.proc 1).state = .unused ∧
      (C.shared.proc 1).killed = true ∧ C.shared.hist.kills.map (fun k => (k.1, k.2.state)) = [(0, .unused)]) ∧
    ∃ C, Reachable (fun _ => True) C ∧ (C.shared.proc 1).state = .runnable ∧ (C.shared.proc 1).pid = 2 ∧
      (C.shared.proc 1).killed = true ∧ C.shared.hist.kills.map Prod.fst = [0] := by
  refine ⟨⟨_, (reachable_firstCall [.kill 0] trivial rfl).ahead 0 1000, ?_⟩,
    ⟨_, (reachable_firstCall [.kill 0, .fork 1 true] trivial rfl).ahead 0 1000, ?_⟩⟩
  · decide +kernel
  · decide +kernel

end Xv6Arm.Smp

import Xv6Arm.Smp.Code

/-!
# Kernel code on one processor that holds locks

What `acquire`, `release`, `myproc`, `wakeup` and `sleep` do on a processor that
runs a process and holds a known list of locks, with nobody in the way. The
push_off depth is the number of locks, and `sched` wants it to be one.
-/
namespace Xv6Arm.Smp
open Lib

/-- Processor `c` runs process `p` and holds the locks `L`; all other locks are free. -/
structure Solo (c : ℕ) (p : Slot) (L : List Lock) (s : Sys) : Prop where
  exec : (s.cpu c).exec = .proc p
  proc : (s.cpu c).proc = some p
  noff : (s.cpu c).noff = L.length
  irq : L ≠ [] → (s.cpu c).irq = false
  lock : ∀ l, s.lock l = if l ∈ L then some c else none

namespace Solo
variable {c : ℕ} {p : Slot} {L : List Lock} {s : Sys} {l : Lock}

theorem congr (h : Solo c p L s) {s' : Sys} (hcpu : s'.cpu = s.cpu) (hlock : s'.lock = s.lock) : Solo c p L s' :=
  ⟨by rw [hcpu]; exact h.exec, by rw [hcpu]; exact h.proc, by rw [hcpu]; exact h.noff,
    by rw [hcpu]; exact h.irq, by rw [hlock]; exact h.lock⟩

theorem acquire (h : Solo c p L s) (hl : l ∉ L) :
    ∃ s', smpStep c (.acquire l) s = .done () s' ∧ Solo c p (l :: L) s' := by
  have hfree : s.lock l = none := by rw [h.lock, if_neg hl]
  refine ⟨_, by simp only [smpStep, Sys.acquire, hfree]; rfl, ?_⟩
  refine ⟨?_, ?_, ?_, ?_, ?_⟩
  · simpa [Cpu.pushOff] using h.exec
  · simpa [Cpu.pushOff] using h.proc
  · simp [Cpu.pushOff, h.noff]
  · simp [Cpu.pushOff]
  · intro k
    by_cases hk : k = l
    · subst hk
      simp
    · simp [hk, h.lock k]

theorem release (h : Solo c p L s) (hl : l ∈ L) (hnodup : L.Nodup) :
    ∃ s', smpStep c (.release l) s = .done () s' ∧ Solo c p (L.erase l) s' := by
  have hmine : s.lock l = some c := by rw [h.lock, if_pos hl]
  have hlen : (L.erase l).length = L.length - 1 := List.length_erase_of_mem hl
  have hpos : 0 < L.length := List.length_pos_of_mem hl
  have hpop : (s.cpu c).popOff = .ok { s.cpu c with
      noff := L.length - 1, irq := decide (L.length - 1 = 0) && (s.cpu c).intena } := by
    simp [Cpu.popOff, h.irq (List.ne_nil_of_mem hl), h.noff, Nat.not_lt.mpr hpos]
  refine ⟨_, by simp only [smpStep, Sys.release, hmine, hpop, ne_eq, not_true_eq_false, if_false]; rfl, ?_⟩
  refine ⟨?_, ?_, ?_, ?_, ?_⟩
  · simpa using h.exec
  · simpa using h.proc
  · simp [hlen]
  · intro hne
    have : L.length - 1 ≠ 0 := by
      rw [← hlen]
      exact fun h0 => hne (List.length_eq_zero_iff.mp h0)
    simp [this]
  · intro k
    by_cases hk : k = l
    · subst hk
      simp [hnodup.not_mem_erase]
    · simp [hk, h.lock k, List.mem_erase_of_ne hk]

theorem myproc (h : Solo c p L s) (hL : L ≠ []) : smpStep c .myproc s = .done (some p) s := by
  have hirq := h.irq hL
  have hnoff : (s.cpu c).noff ≠ 0 := by
    rw [h.noff]
    exact (List.length_pos_iff.mpr hL).ne'
  have hcpu : (s.cpu c).pushOff.popOff = .ok (s.cpu c) := by
    generalize s.cpu c = u at hirq hnoff
    obtain ⟨pr, noff, intena, irq, exec⟩ := u
    subst hirq
    simp [Cpu.popOff, Cpu.pushOff, hnoff]
  simp [smpStep, Sys.myproc, hcpu, h.proc, Sys.setCpu]

/-- One turn of `wakeup` gives the process's lock back. -/
theorem wakeupOne (h : Solo c p L s) (chan : Chan) {q : Slot} (hq : Lock.proc q ∉ L) (hnodup : L.Nodup) :
    Completes (smpStep c) (wakeupOne chan q) s fun _ s' => Solo c p L s' := by
  obtain ⟨s₁, r₁, h₁⟩ := h.acquire hq
  have hrelease : ∀ s₂, Solo c p (.proc q :: L) s₂ →
      Completes (smpStep c) (Smp.release (.proc q)) s₂ fun _ s' => Solo c p L s' := by
    intro s₂ h₂
    obtain ⟨s₃, r₃, h₃⟩ := h₂.release List.mem_cons_self (List.nodup_cons.mpr ⟨hq, hnodup⟩)
    rw [List.erase_cons_head] at h₃
    exact Returns.quiet rfl r₃ (Returns.ret h₃)
  refine Returns.quiet rfl r₁ (Returns.quiet rfl rfl ?_)
  by_cases hs : (s₁.proc q).state = .sleeping ∧ (s₁.proc q).chan = some chan
  · simp only [Prog.ret_bind, if_pos hs]
    exact Returns.quiet rfl rfl (hrelease _ (h₁.congr rfl rfl))
  · simp only [Prog.ret_bind, if_neg hs]
    exact hrelease _ h₁

theorem wakeup (h : Solo c p L s) (chan : Chan) (hq : ∀ q, Lock.proc q ∉ L) (hnodup : L.Nodup) :
    Completes (smpStep c) (wakeup chan) s fun _ s' => Solo c p L s' := by
  have hloop : ∀ (l : List Slot) (s : Sys), Solo c p L s →
      Completes (smpStep c) (Prog.each (Smp.wakeupOne chan) l) s fun _ s' => Solo c p L s' := by
    intro l
    induction l with
    | nil => exact fun s h => Returns.ret h
    | cons q l ih => exact fun s h => (h.wakeupOne chan (hq q) hnodup).bind_quiet fun _ s' h' => ih s' h'
  have hnote : ∀ (e : Event) (s : Sys), Solo c p L s → Solo c p L (s.note c e) := by
    intro e s h
    refine h.congr ?_ ?_
    · unfold Sys.note
      split <;> rfl
    · unfold Sys.note
      split <;> rfl
  refine Returns.quiet rfl rfl ?_
  refine (hloop _ _ (hnote _ s h)).bind_quiet ?_
  intro _ s' h'
  exact Returns.quiet rfl rfl (Returns.ret (hnote _ s' h'))

/-- `sleep` under a lock while another one is held: `sched` sees a depth of two. -/
theorem sleep_panics {lk k : Lock} (h : Solo c p [lk, k] s) (chan : Chan) (hlk : lk ≠ .proc p) (hk : k ≠ .proc p)
    (hne : lk ≠ k) : (sleep chan lk).run (smpStep c) s = .panic "sched locks" := by
  have hnot : Lock.proc p ∉ [lk, k] := by simp [hlk.symm, hk.symm]
  obtain ⟨s₁, r₁, h₁⟩ := h.acquire hnot
  have h₂ : Solo c p [.proc p, lk, k] (s₁.note c (.sleepCall chan lk)) := by
    refine h₁.congr ?_ ?_
    · unfold Sys.note
      split <;> rfl
    · unfold Sys.note
      split <;> rfl
  obtain ⟨s₃, r₃, h₃⟩ := h₂.release (l := lk) (by simp) (by simp [hlk.symm, hk.symm, hne])
  rw [show [.proc p, lk, k].erase lk = [.proc p, k] by simp [hlk.symm]] at h₃
  have h₄ : Solo c p [.proc p, k] ((s₃.put p (.chan (some chan))).put p (.state .sleeping)) :=
    h₃.congr rfl rfl
  generalize hs₄ : (s₃.put p (.chan (some chan))).put p (.state .sleeping) = s₄ at h₄
  have hholding : smpStep c (.holding (.proc p)) s₄ = .done true s₄ := by simp [smpStep, h₄.lock]
  have hnoff : smpStep c .getNoff s₄ = .done 2 s₄ := by simp [smpStep, h₄.noff]
  refine (Prog.run_call_done _ (h.myproc (by simp))).trans ?_
  change (if lk ≠ .proc p then _ else _ : SmpM Unit).run (smpStep c) s = _
  rw [if_pos hlk]
  refine (Prog.run_call_done _ r₁).trans ?_
  refine (Prog.run_call_done _ rfl).trans ?_
  refine (Prog.run_call_done _ r₃).trans ?_
  refine (Prog.run_call_done _ rfl).trans ?_
  refine (Prog.run_call_done _ (congrArg (Outcome.done ()) hs₄)).trans ?_
  refine (Prog.run_call_done _ (h₄.myproc (by simp))).trans ?_
  refine (Prog.run_call_done _ hholding).trans ?_
  exact (Prog.run_call_done _ hnoff).trans rfl

end Solo

end Xv6Arm.Smp

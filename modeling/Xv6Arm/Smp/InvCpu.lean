import Xv6Arm.Smp.Step

/-!
# The processors' part of the invariant

A request of the thread that processor `c` executes keeps the locks and flags of
all processors in step with the views.
-/
namespace Xv6Arm.Smp
open Lib

variable {ip : Slot} {strict : Prop} {vs : Thread → View} {s s' : Sys} {c : ℕ} {o : SmpOp} {r : o.Res} {v : View}

/-- Processor `c` goes on with view `v` and the same thread. -/
theorem CpuInv.update (h : CpuInv vs s) (he : ExecInv vs s) (hexec : (s'.cpu c).exec = s.exec c)
    (hcpu : ∀ d, d ≠ c → s'.cpu d = s.cpu d) (hlock : ∀ l, s'.lock l = some c ↔ l ∈ v.core.held)
    (hother : ∀ l d, d ≠ c → (s'.lock l = some d ↔ s.lock l = some d))
    (hnoff : (s'.cpu c).noff = v.core.held.card) (hirq : (s'.cpu c).irq = v.core.irq)
    (hintena : ∀ b, v.core.intena = some b → (s'.cpu c).intena = b) :
    CpuInv (Function.update vs (s.exec c) v) s' := by
  have hself : Function.update vs (s.exec c) v (s'.exec c) = v := by
    change Function.update vs (s.exec c) v (s'.cpu c).exec = v
    rw [hexec, Function.update_self]
  have hne : ∀ d, d ≠ c → s'.cpu d = s.cpu d ∧
      Function.update vs (s.exec c) v (s'.exec d) = vs (s.exec d) := by
    intro d hd
    refine ⟨hcpu d hd, ?_⟩
    rw [show s'.exec d = s.exec d from congrArg Cpu.exec (hcpu d hd)]
    exact Function.update_of_ne (fun hf => hd (he.exec_inj hf)) ..
  refine ⟨fun l d => ?_, fun d => ?_, fun d => ?_, fun d b => ?_⟩ <;> by_cases hd : d = c
  · subst hd
    rw [hself, hlock]
  · rw [(hne d hd).2, hother l d hd, h.lock]
  · subst hd
    rw [hself, hnoff]
  · rw [(hne d hd).1, (hne d hd).2, h.noff]
  · subst hd
    rw [hself, hirq]
  · rw [(hne d hd).1, (hne d hd).2, h.irq]
  · subst hd
    rw [hself]
    exact hintena b
  · rw [(hne d hd).1, (hne d hd).2]
    exact h.intena d b

/-- A request that leaves the processors and locks alone. -/
theorem CpuInv.same (h : CpuInv vs s) (he : ExecInv vs s) (hcpu : s'.cpu = s.cpu) (hlock : s'.lock = s.lock)
    (hheld : v.core.held = (vs (s.exec c)).core.held) (hirq : v.core.irq = (vs (s.exec c)).core.irq)
    (hintena : v.core.intena = (vs (s.exec c)).core.intena) : CpuInv (Function.update vs (s.exec c) v) s' := by
  refine h.update he (by rw [hcpu]) (fun d _ => by rw [hcpu]) (fun l => by rw [hlock, hheld, h.lock])
    (fun l d _ => by rw [hlock]) (by rw [hcpu, hheld, h.noff]) (by rw [hcpu, hirq, h.irq]) fun b hb => ?_
  rw [hcpu]
  exact h.intena c b (hintena ▸ hb)

theorem CpuInv.noff_eq_zero (h : CpuInv vs s) : (s.cpu c).noff = 0 ↔ (vs (s.exec c)).core.held = ∅ := by
  rw [h.noff, Finset.card_eq_zero]

theorem CpuInv.acquire (h : CpuInv vs s) (he : ExecInv vs s) {l : Lock} {r : Unit}
    (hstep : smpStep c (.acquire l) s = .done r s') :
    CpuInv (Function.update vs (s.exec c) (Next (s.exec c) c (vs (s.exec c)) s' (.acquire l) r)) s' := by
  obtain ⟨hfree, rfl⟩ := acquire_done hstep
  have hl : l ∉ (vs (s.exec c)).core.held := by
    rw [← h.lock, hfree]
    exact fun hf => nomatch hf
  refine h.update he ?_ (fun d hd => Function.update_of_ne hd ..) (fun k => ?_) (fun k d hd => ?_) ?_ ?_ fun b hb => ?_
  · simp only [Function.update_self]
    rfl
  · change Function.update s.lock l (some c) k = some c ↔ k ∈ insert l (vs (s.exec c)).core.held
    by_cases hk : k = l
    · simp [hk]
    · rw [Function.update_of_ne hk, h.lock, Finset.mem_insert]
      exact (or_iff_right hk).symm
  · change Function.update s.lock l (some c) k = some d ↔ _
    by_cases hk : k = l
    · subst hk
      rw [Function.update_self, hfree]
      exact ⟨fun hf => absurd (Option.some.inj hf).symm hd, fun hf => nomatch hf⟩
    · rw [Function.update_of_ne hk]
  · simp only [Function.update_self]
    change (s.cpu c).noff + 1 = (insert l (vs (s.exec c)).core.held).card
    rw [Finset.card_insert_of_notMem hl, h.noff]
  · simp only [Function.update_self]
    rfl
  · simp only [Function.update_self]
    change (if (vs (s.exec c)).core.held = ∅ then some (vs (s.exec c)).core.irq else _) = some b at hb
    change (if (s.cpu c).noff = 0 then (s.cpu c).irq else (s.cpu c).intena) = b
    by_cases hz : (vs (s.exec c)).core.held = ∅
    · rw [if_pos hz] at hb
      rw [if_pos (h.noff_eq_zero.mpr hz), h.irq]
      exact Option.some.inj hb
    · rw [if_neg hz] at hb
      rw [if_neg fun hf => hz (h.noff_eq_zero.mp hf)]
      exact h.intena c b hb

theorem card_eq_one_of_mem {S : Finset Lock} {l : Lock} (hl : l ∈ S) : S.card - 1 = 0 ↔ S = {l} := by
  have hpos : 0 < S.card := Finset.card_pos.mpr ⟨l, hl⟩
  constructor
  · intro h
    obtain ⟨k, hk⟩ := Finset.card_eq_one.mp (show S.card = 1 by omega)
    rw [hk, Finset.mem_singleton] at hl
    rw [hk, hl]
  · rintro rfl
    rfl

theorem CpuInv.release (h : CpuInv vs s) (he : ExecInv vs s) {l : Lock} {r : Unit}
    (hstep : smpStep c (.release l) s = .done r s') :
    CpuInv (Function.update vs (s.exec c) (Next (s.exec c) c (vs (s.exec c)) s' (.release l) r)) s' := by
  obtain ⟨hlock, hirq, rfl⟩ := release_done hstep
  have hl : l ∈ (vs (s.exec c)).core.held := (h.lock l c).mp hlock
  have hone := card_eq_one_of_mem hl
  refine h.update he ?_ (fun d hd => Function.update_of_ne hd ..) (fun k => ?_) (fun k d hd => ?_) ?_ ?_ fun b hb => ?_
  · simp only [Function.update_self]
  · change Function.update s.lock l none k = some c ↔ k ∈ (vs (s.exec c)).core.held.erase l
    by_cases hk : k = l
    · simp [hk]
    · rw [Function.update_of_ne hk, h.lock, Finset.mem_erase]
      exact (and_iff_right hk).symm
  · change Function.update s.lock l none k = some d ↔ _
    by_cases hk : k = l
    · subst hk
      rw [Function.update_self, hlock]
      exact ⟨fun hf => (nomatch hf), fun hf => absurd (Option.some.inj hf).symm hd⟩
    · rw [Function.update_of_ne hk]
  · simp only [Function.update_self]
    change (s.cpu c).noff - 1 = ((vs (s.exec c)).core.held.erase l).card
    rw [Finset.card_erase_of_mem hl, h.noff]
  · simp only [Next, Function.update_self]
    split_ifs with hk
    · rfl
    · rw [h.noff, decide_eq_false fun hf => hk (hone.mp hf), Bool.false_and]
  · simp only [Function.update_self]
    change (if (vs (s.exec c)).core.held = {l} then none else (vs (s.exec c)).core.intena) = some b at hb
    split_ifs at hb
    exact h.intena c b hb

theorem CpuInv.myproc (h : CpuInv vs s) (he : ExecInv vs s) {r : Option Slot}
    (hstep : smpStep c .myproc s = .done r s') : CpuInv (Function.update vs (s.exec c) (vs (s.exec c))) s' := by
  obtain ⟨-, rfl⟩ := myproc_done hstep
  have hwf := he.wf_exec c
  refine h.update he ?_ (fun d hd => Function.update_of_ne hd ..) (fun k => h.lock k c) (fun k d _ => Iff.rfl) ?_ ?_
    fun b hb => ?_ <;> simp only [Sys.setCpu, Function.update_self]
  · exact h.noff c
  · by_cases hz : (s.cpu c).noff = 0
    · simp [hz, h.irq]
    · have := hwf.masked (Finset.nonempty_iff_ne_empty.mpr fun hf => hz (h.noff_eq_zero.mpr hf))
      simp [hz, this]
  · by_cases hz : (s.cpu c).noff = 0
    · rw [hwf.intena (h.noff_eq_zero.mp hz)] at hb
      cases hb
    · rw [if_neg hz]
      exact h.intena c b hb

/-- Processor `c` goes over to thread `t`, which takes over the locks. -/
theorem CpuInv.switch (h : CpuInv vs s) (he : ExecInv vs s) {t : Thread} (hexec : s'.exec c = t)
    (hcpu : ∀ d, d ≠ c → s'.cpu d = s.cpu d) (hlock : s'.lock = s.lock) (hnoff : (s'.cpu c).noff = (s.cpu c).noff)
    (hirq : (s'.cpu c).irq = (s.cpu c).irq) (ht : t ≠ s.exec c)
    (hheld : (vs t).core.held = (vs (s.exec c)).core.held) (hmask : (vs t).core.irq = (vs (s.exec c)).core.irq)
    (hintena : (vs t).core.intena = none) : CpuInv (Function.update vs (s.exec c) v) s' := by
  have hself : Function.update vs (s.exec c) v (s'.exec c) = vs t := by rw [hexec, Function.update_of_ne ht]
  have hother : ∀ d, d ≠ c → s'.cpu d = s.cpu d ∧ Function.update vs (s.exec c) v (s'.exec d) = vs (s.exec d) := by
    intro d hd
    refine ⟨hcpu d hd, ?_⟩
    rw [show s'.exec d = s.exec d from congrArg Cpu.exec (hcpu d hd)]
    exact Function.update_of_ne (fun hf => hd (he.exec_inj hf)) ..
  refine ⟨fun l d => ?_, fun d => ?_, fun d => ?_, fun d b hb => ?_⟩ <;> by_cases hd : d = c
  · subst hd
    rw [hself, hheld, hlock]
    exact h.lock l d
  · rw [(hother d hd).2, hlock]
    exact h.lock l d
  · subst hd
    rw [hself, hheld, hnoff]
    exact h.noff d
  · rw [(hother d hd).1, (hother d hd).2]
    exact h.noff d
  · subst hd
    rw [hself, hmask, hirq]
    exact h.irq d
  · rw [(hother d hd).1, (hother d hd).2]
    exact h.irq d
  · subst hd
    rw [hself, hintena] at hb
    cases hb
  · rw [(hother d hd).2] at hb
    rw [(hother d hd).1]
    exact h.intena d b hb

/-! ## Answers -/

theorem Inv.ok_release (h : Inv ip strict vs s) {l : Lock} {r : Unit} (hstep : smpStep c (.release l) s = .done r s') :
    Ok ip strict (s.exec c) c (vs (s.exec c)) s' (.release l) r := by
  obtain ⟨hlock, -, rfl⟩ := release_done hstep
  refine ⟨(h.cpu.lock l c).mp hlock, fun b hb he => ?_⟩
  simp only [Function.update_self]
  rw [h.cpu.noff c, he, h.cpu.intena c b hb]
  rfl

theorem Inv.ok_myproc (h : Inv ip strict vs s) {r : Option Slot} (hstep : smpStep c .myproc s = .done r s')
    (hpre : Pre ip strict (s.exec c) (vs (s.exec c)) .myproc) : r = (s.exec c).slot := by
  rw [(myproc_done hstep).1]
  have hs := h.exec.sched c
  rw [SchedOk] at hs
  cases ht : s.exec c with
  | proc p =>
    rw [h.exec.away c p ht] at hs
    exact hs.1
  | scheduler d =>
    obtain rfl := h.exec.home c d ht
    rw [ht] at hpre
    rcases hpre with hm | hm
    · rw [hm] at hs
      exact hs.elim
    · rw [hm] at hs
      exact hs.2

theorem Inv.sees (h : Inv ip strict vs s) (p : Slot) : Sees (s.exec c) (vs (s.exec c)) p (s.proc p) := by
  refine ⟨fun ht => ?_, fun x hx => (h.snap_exec hx).2.2⟩
  have hown := h.table.own p (h.exec.thread_of_exec ht)
  rw [ht]
  exact ⟨h.exec.state c p ht, hown.chan, hown.pid⟩

theorem Inv.seesParent (h : Inv ip strict vs s) (p : Slot) :
    SeesParent ip (s.exec c) (vs (s.exec c)) p (s.proc p).parent := by
  refine ⟨fun q hq hk => ?_, fun q hq hne hp => ?_, fun ht q hq => ?_⟩
  · rw [hq] at hk
    exact (h.tree.kids q (h.exec.thread_of_exec hq)).kids p hk
  · rw [hq]
    exact (h.tree.kids q (h.exec.thread_of_exec hq)).all hne p hp
  · rw [ht] at hq
    exact (h.tree.kids p (h.exec.thread_of_exec ht)).par q hq

/-- The answer of a request, and the state it leads to, are such as the specification says. -/
theorem Inv.ok (h : Inv ip strict vs s) (hpre : Pre ip strict (s.exec c) (vs (s.exec c)) o)
    (hstep : smpStep c o s = .done r s') : Ok ip strict (s.exec c) c (vs (s.exec c)) s' o r := by
  cases o with
  | acquire l =>
    obtain ⟨hfree, rfl⟩ := acquire_done hstep
    refine ⟨fun hm => ?_, fun p hl ht => ⟨?_, h.table.closed p, fun q hq hk => ?_⟩⟩
    · have := (h.cpu.lock l c).mpr hm
      rw [hfree] at this
      cases this
    · exact h.table.clean p (hl ▸ hfree)
    · exact (h.seesParent p).kid q hq hk
  | release l => exact h.ok_release hstep
  | holding l =>
    cases hstep
    exact decide_eq_decide.mpr (h.cpu.lock l c)
  | myproc => exact h.ok_myproc hstep hpre
  | getNoff => cases hstep; exact h.cpu.noff c
  | intrGet => cases hstep; exact h.cpu.irq c
  | getIntena => cases hstep; exact h.cpu.intena c
  | get p => cases hstep; exact h.sees p
  | getParent p => cases hstep; exact h.seesParent p
  | getInitproc => cases hstep; exact h.table.init
  | hang => cases hstep
  | _ => trivial

end Xv6Arm.Smp

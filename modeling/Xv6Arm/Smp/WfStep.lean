import Xv6Arm.Smp.Step

/-!
# Views stay well formed

A request that meets its precondition, and gets an answer that it can get, leaves
the view of its thread well formed.
-/
namespace Xv6Arm.Smp
open Lib

variable {ip : Slot} {strict : Prop} {t : Thread} {c : ℕ} {v : View} {s' : Sys} {p : Slot}

theorem Wf.next_acquire (h : Wf t v) {l : Lock} : Wf t (Next t c v s' (.acquire l) ()) := by
  have hsnap : ∀ i, v.snap i ≠ none → (Next t c v s' (.acquire l) ()).snap i ≠ none := by
    intro i hi
    cases l with
    | proc q =>
      simp only [Next]
      split_ifs
      · exact hi
      · by_cases hq : i = q
        · simp [hq]
        · rwa [Function.update_of_ne hq]
    | _ => exact hi
  refine ⟨fun _ => rfl, fun hf => absurd hf (Finset.insert_ne_empty _ _), fun p ht hl => ?_, fun i hi => ?_,
    fun i hi => hsnap i (h.built i hi), fun _ => rfl, h.window⟩
  · exact h.self p ht fun hm => hl (Finset.mem_insert_of_mem hm)
  · cases l with
    | proc q =>
      simp only [Next] at hi
      split_ifs at hi with ht
      · exact ⟨Finset.mem_insert_of_mem (h.snap i hi).1, (h.snap i hi).2⟩
      · by_cases hq : i = q
        · subst hq
          exact ⟨Finset.mem_insert_self _ _, ht⟩
        · rw [Function.update_of_ne hq] at hi
          exact ⟨Finset.mem_insert_of_mem (h.snap i hi).1, (h.snap i hi).2⟩
    | _ => exact ⟨Finset.mem_insert_of_mem (h.snap i hi).1, (h.snap i hi).2⟩

/-- The own lock is given up, or was not held. -/
theorem Wf.self_release (h : Wf t v) {l : Lock} (hl : l ∈ v.core.held) (hpre : Pre ip strict t v (.release l))
    (ht : t = .proc p) (hp : Lock.proc p ∉ v.core.held.erase l) :
    v.core.state = .running ∧ (Next t c v s' (.release l) ()).tree.calm = ∅ ∧ v.nap.due = none ∧
      v.own.chan = none := by
  by_cases hlp : l = .proc p
  · subst hlp
    have h2 := (hpre hl).2 p rfl
    rw [if_pos ht] at h2
    refine ⟨h2.1, ?_, h2.2⟩
    subst ht
    simp only [Next, calmAfter]
    cases v.snap p <;> simp
  · have hp' : Lock.proc p ∉ v.core.held := fun hm => hp (Finset.mem_erase.mpr ⟨Ne.symm hlp, hm⟩)
    obtain ⟨h1, h2, h3⟩ := h.self p ht hp'
    refine ⟨h1, ?_, h3⟩
    subst ht
    cases l with
    | proc q =>
      have hq : p ≠ q := fun hf => hlp (hf ▸ rfl)
      simp only [Next, calmAfter]
      cases v.snap q <;> simp [hq, h2, hp']
    | _ => exact h2

theorem Wf.next_release (h : Wf t v) {l : Lock} (hpre : Pre ip strict t v (.release l))
    (hok : Ok ip strict t c v s' (.release l) ()) : Wf t (Next t c v s' (.release l) ()) := by
  obtain ⟨hl, hirq⟩ := hok
  have hsub : ∀ k, k ∈ v.core.held.erase l → v.core.held ≠ {l} := by
    rintro k hk he
    rw [he, Finset.erase_singleton] at hk
    exact absurd hk (Finset.notMem_empty k)
  have hsnap : ∀ i, (Next t c v s' (.release l) ()).snap i ≠ none → v.snap i ≠ none ∧ Lock.proc i ≠ l := by
    intro i hi
    cases l with
    | proc q =>
      by_cases hq : i = q
      · simp [Next, hq] at hi
      · exact ⟨by simpa [Next, Function.update_of_ne hq] using hi, fun hf => hq (Lock.proc.inj hf)⟩
    | _ => exact ⟨hi, Lock.noConfusion⟩
  refine ⟨fun hk => hk.elim fun k hk => if_neg (hsub k hk), fun hf => ?_, fun p ht hp => ?_, fun i hi => ?_,
    fun i hi => ?_, fun hf => ?_, h.window⟩
  · have : v.core.held = {l} := by
      have hf : v.core.held.erase l = ∅ := hf
      rw [← Finset.insert_erase hl, hf]
      rfl
    exact if_pos this
  · exact h.self_release hl hpre ht hp
  · obtain ⟨hi, hil⟩ := hsnap i hi
    exact ⟨Finset.mem_erase.mpr ⟨hil, (h.snap i hi).1⟩, (h.snap i hi).2⟩
  · have hb := h.built i hi
    have hne : l ≠ .proc i := by
      rintro rfl
      have h2 := (hpre hl).2 i rfl
      rw [if_neg (h.snap i hb).2] at h2
      exact h2.1 hi
    cases l with
    | proc q =>
      simp only [Next]
      rwa [Function.update_of_ne fun hf => hne (congrArg Lock.proc hf.symm)]
    | _ => exact hb
  · change (if v.core.held = {l} then (s'.cpu c).irq else false) = false
    split_ifs with he
    · exact hirq false ((hpre hl).1 hf he) he
    · rfl

theorem Wf.next_own (h : Wf t v) {f : Field} (ht : t = .proc p) (hpre : PreOwn ip p v f) : Wf t (NextOwn v f) := by
  have hvac : ∀ q, Lock.proc p ∈ v.core.held → t = .proc q → Lock.proc q ∉ v.core.held → False := by
    intro q hm hq hl
    cases ht.symm.trans hq
    exact hl hm
  cases f with
  | state st =>
    have hm : Lock.proc p ∈ v.core.held := by
      cases st <;> first | exact hpre.1 | exact hpre.elim
    exact ⟨h.masked, h.intena, fun q hq hl => (hvac q hm hq hl).elim, h.snap, h.built, h.frame, h.window⟩
  | chan ch => exact ⟨h.masked, h.intena, fun q hq hl => (hvac q hpre hq hl).elim, h.snap, h.built, h.frame, h.window⟩
  | trapframe n =>
    exact ⟨h.masked, h.intena, h.self, h.snap, h.built, fun _ => hpre.2, fun hf => absurd hpre.1 hf⟩
  | _ => exact ⟨h.masked, h.intena, h.self, h.snap, h.built, h.frame, h.window⟩

/-- The view has new facts about process `p`, whose lock the thread holds. -/
theorem Wf.setSnap (h : Wf t v) {x : Option Proc} (hp : v.snap p ≠ none) (hb : x = none → v.built ≠ some p) :
    Wf t (v.setSnap p x) := by
  refine ⟨h.masked, h.intena, h.self, fun i hi => ?_, fun i hi => ?_, h.frame, h.window⟩
  · by_cases hip : i = p
    · exact hip ▸ h.snap p hp
    · exact h.snap i (by simpa [View.setSnap, Function.update_of_ne hip] using hi)
  · by_cases hip : i = p
    · subst hip
      simp only [View.setSnap, Function.update_self]
      exact fun hx => hb hx hi
    · simpa [View.setSnap, Function.update_of_ne hip] using h.built i hi

theorem Wf.setSnap_some (h : Wf t v) (hp : v.snap p ≠ none) (x : Proc) : Wf t (v.setSnap p (some x)) :=
  h.setSnap hp fun hf => nomatch hf

theorem Wf.setBuilt (h : Wf t v) {b : Option Slot} (hb : ∀ i, b = some i → v.snap i ≠ none) :
    Wf t { v with built := b } :=
  ⟨h.masked, h.intena, h.self, h.snap, hb, h.frame, h.window⟩

theorem Wf.setMode (h : Wf t v) {m : Mode} : Wf t { v with core.mode := m } :=
  ⟨h.masked, h.intena, h.self, h.snap, h.built, h.frame, h.window⟩

/-- Once the new process runs, it is no longer being prepared. -/
theorem Wf.unbuild (h : Wf t v) : Wf t { v with built := if v.built = some p then none else v.built } := by
  refine h.setBuilt fun i hi => ?_
  split_ifs at hi
  exact h.built i hi

theorem Wf.next_other (h : Wf t v) {f : Field} {x : Proc} (hx : v.snap p = some x)
    (hpre : PreOther ip strict t p v x f) : Wf t (NextOther t p v x f) := by
  have hp : v.snap p ≠ none := by rw [hx]; exact Option.some_ne_none x
  cases f with
  | state st =>
    cases st with
    | running => exact (h.setSnap hp fun _ => hpre.2.2).setMode
    | runnable => exact (h.setSnap_some hp _).unbuild
    | _ => exact hpre.elim
  | parent q => exact (h.setSnap_some hp _).setTree (Finset.erase_subset _ _)
  | _ => exact h.setSnap_some hp _

theorem Wf.next_note (h : Wf t v) {e : Event} (hpre : PreNote strict t v e) : Wf t (NextNote v e) := by
  cases e with
  | sleepCall ch lk =>
    obtain ⟨p, ht, hm, -⟩ := hpre
    refine ⟨h.masked, h.intena, fun q hq hl => ?_, h.snap, h.built, h.frame, h.window⟩
    cases ht.symm.trans hq
    exact absurd hm hl
  | sysEnter tf => exact ⟨h.masked, h.intena, h.self, h.snap, h.built, h.frame, fun _ => hpre⟩
  | sysLeave => exact ⟨h.masked, h.intena, h.self, h.snap, h.built, h.frame, fun hf => absurd rfl hf⟩
  | _ => exact ⟨h.masked, h.intena, h.self, h.snap, h.built, h.frame, h.window⟩

theorem Wf.next {o : SmpOp} {r : o.Res} (h : Wf t v) (hpre : Pre ip strict t v o) (hok : Ok ip strict t c v s' o r) :
    Wf t (Next t c v s' o r) := by
  cases o with
  | acquire l => exact h.next_acquire
  | release l => exact h.next_release hpre hok
  | sti =>
    refine ⟨fun ⟨k, hk⟩ => ?_, h.intena, h.self, h.snap, h.built, fun hf => absurd rfl hf, fun hf => absurd hpre.2.2 hf⟩
    rw [show (Next t c v s' .sti r).core.held = ∅ from hpre.1] at hk
    exact absurd hk (Finset.notMem_empty k)
  | eret =>
    refine ⟨fun ⟨k, hk⟩ => ?_, h.intena, h.self, h.snap, h.built, fun hf => absurd rfl hf, fun hf => absurd hpre.2 hf⟩
    rw [show (Next t c v s' .eret r).core.held = ∅ from hpre.1] at hk
    exact absurd hk (Finset.notMem_empty k)
  | setIntena b =>
    exact ⟨h.masked, fun hf => absurd hf (Finset.nonempty_iff_ne_empty.mp hpre), h.self, h.snap, h.built, h.frame,
      h.window⟩
  | setCpuProc x => exact h.setMode
  | swtchTo p => exact ⟨h.masked, fun _ => rfl, h.self, h.snap, h.built, h.frame, h.window⟩
  | swtchBack =>
    obtain ⟨p, ht, hheld, -⟩ := hpre
    refine ⟨h.masked, fun _ => rfl, fun q hq hl => ?_, h.snap, h.built, h.frame, h.window⟩
    cases ht.symm.trans hq
    exact absurd (by rw [show (Next t c v s' .swtchBack r).core.held = _ from hheld]; exact Finset.mem_singleton_self _) hl
  | getParent p => exact h.setTree (Finset.Subset.refl _)
  | getOfile p fd =>
    simp only [Next]
    split_ifs
    · exact ⟨h.masked, h.intena, h.self, h.snap, h.built, h.frame, h.window⟩
    · exact h
  | put p f =>
    simp only [Next]
    simp only [Pre] at hpre
    by_cases ht : t = .proc p
    · rw [if_pos ht] at hpre ⊢
      exact h.next_own ht hpre.2
    · rw [if_neg ht] at hpre ⊢
      obtain ⟨x, hx, hpre⟩ := hpre
      rw [hx]
      exact h.next_other hx hpre
  | freeproc p =>
    obtain ⟨x, hx, -⟩ := hpre
    have hp : v.snap p ≠ none := by rw [hx]; exact Option.some_ne_none x
    have h1 := (h.setSnap_some hp x.freed).setTree
      (T := { v.tree with kids := v.tree.kids.erase p, calm := v.tree.calm.erase p }) (Finset.erase_subset _ _)
    have h2 := h1.unbuild (p := p)
    simp only [Next, hx]
    exact ⟨h2.masked, h2.intena, h2.self, h2.snap, h2.built, h2.frame, h2.window⟩
  | resetContext p =>
    obtain ⟨-, -, x, hx, -⟩ := hpre
    refine h.setBuilt fun i hi => ?_
    cases hi
    rw [hx]
    exact Option.some_ne_none x
  | note e => exact h.next_note hpre
  | _ => exact h

end Xv6Arm.Smp

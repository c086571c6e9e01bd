import Xv6Arm.Log.Store

/-!
# Preconditions over the store

One rule for each buffer request of a section, and for `log_write`.
-/
namespace Xv6Arm
open Lib Store

/-- From `v`, the program does nothing that `M` forbids, and if it returns, `Q` holds. -/
abbrev Mode.wp (M : Mode) {α : Type} (p : IoM α) (Q : α → Store → Prop) (v : Store) : Prop :=
  p.wp (Store.spec M) (fun msg _ => M.panics msg) Q v

section Rules
variable {M : Mode} {α β : Type} {b : ℕ} {d : Block} {v : Store}

theorem wp_seq {p : IoM α} {f : α → IoM β} {Q : β → Store → Prop}
    (h : M.wp p (fun a w => M.wp (f a) Q w) v) : M.wp (p >>= f) Q v := by
  rw [Prog.bind_eq, Mode.wp, Prog.wp_bind]
  exact h

theorem wp_conseq {p : IoM α} {P Q : α → Store → Prop} (hp : M.wp p P v) (h : ∀ a w, P a w → Q a w) :
    M.wp p Q v :=
  Prog.wp_mono (spec_mono M) hp h

theorem wp_bread {Q : Block → Store → Prop} (hb : b ∉ v.held)
    (hroom : v.Room b ∨ M.panics "bget: no buffers")
    (hQ : ∀ d, v.Sees b d → Q d (v.hold b d)) : M.wp (bread b) Q v := by
  change breadSpec M b Q v
  unfold breadSpec
  rw [if_neg hb]
  exact ⟨hroom, hQ⟩

theorem wp_bset {Q : Unit → Store → Prop} (hb : b ∈ v.held) (hQ : Q () (v.bset b d)) : M.wp (bset b d) Q v :=
  ⟨hb, hQ⟩

theorem wp_brelse {Q : Unit → Store → Prop} (hb : b ∈ v.held) (hQ : Q () (v.brelse b)) :
    M.wp (brelse b) Q v :=
  ⟨hb, hQ⟩

end Rules

/-- `log_write` of one more block is accepted, or may panic. -/
structure Mode.Logs (M : Mode) (l : Log) : Prop where
  space : (l.lh.length < LOGSIZE ∧ l.lh.length + 1 < l.size) ∨ M.panics "too big a transaction"
  inOp : 1 ≤ l.outstanding ∨ M.panics "log_write outside of trans"

theorem wp_logWrite {M : Mode} {b : ℕ} {v : Store} {Q : Unit → Store → Prop} (hb : b ∈ v.held)
    (hp : b ∈ v.log.lh ↔ b ∈ v.pinned) (hl : M.Logs v.log)
    (hQ : v.log.lh.length + 1 < v.log.size → Q () (v.logAppend b)) : M.wp (logWrite b) Q v := by
  refine wp_seq (f := fun _ => io (.logAppend b)) ?_
  change logCheckSpec M (fun _ w => M.wp (io (.logAppend b)) Q w) v
  unfold logCheckSpec Log.check
  by_cases h1 : LOGSIZE ≤ v.log.lh.length ∨ (v.log.size : ℤ) - 1 ≤ v.log.lh.length
  · rw [if_pos h1]
    exact hl.space.resolve_left (by omega)
  · by_cases h2 : v.log.outstanding < 1
    · rw [if_neg h1, if_pos h2]
      exact hl.inOp.resolve_left (by omega)
    · rw [if_neg h1, if_neg h2]
      exact ⟨⟨hb, hp⟩, hQ (by omega)⟩

end Xv6Arm

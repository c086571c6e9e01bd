import Xv6Arm.Lib.Threads

/-!
# Programs that do not stop by themselves

A program is steady if it never reaches a `panic` of its own, whatever the answers
to its requests are. Threads that start steady programs only have steady programs
left to run.
-/
namespace Xv6Arm.Lib

namespace Prog
variable {S : Signature} {α β : Type}

def Steady : Prog S α → Prop
  | .ret _ => True
  | .panic _ => False
  | .call _ next => ∀ r, (next r).Steady

theorem Steady.bind {p : Prog S α} {f : α → Prog S β} (hp : p.Steady) (hf : ∀ a, (f a).Steady) :
    (p.bind f).Steady := by
  induction p with
  | ret a => exact hf a
  | panic msg => exact hp.elim
  | call o next ih => exact fun r => ih r (hp r)

end Prog

namespace Threads
variable {S : Signature} {σ τ κ : Type} [DecidableEq τ] {T : Threads S σ τ κ} {init : Config S σ τ → Prop}

/-- Every thread of every run has a steady program left. -/
theorem Reachable.steady (hinit : ∀ C, init C → ∀ t, (C.thread t).Steady)
    (hspawn : ∀ o t p, T.spawn o t = some p → p.Steady)
    (hevent : ∀ c s p s' p', T.event c s p s' p' → p.Steady → p'.Steady) {C : Config S σ τ}
    (h : T.Reachable init C) (t : τ) : (C.thread t).Steady := by
  induction h generalizing t with
  | init h => exact hinit _ h t
  | @step C D _ hstep ih =>
    cases hstep with
    | @request c o next r s ht hr =>
      have hsteady := ih (T.active c C.shared)
      rw [ht] at hsteady
      dsimp only
      split
      · exact hsteady r
      · cases hs : T.spawn o t with
        | none => exact ih t
        | some p => exact hspawn o t p hs
    | @event c s p h =>
      dsimp only
      rw [Function.update_apply]
      split
      · exact hevent _ _ _ _ _ h (ih _)
      · exact ih t

end Threads
end Xv6Arm.Lib

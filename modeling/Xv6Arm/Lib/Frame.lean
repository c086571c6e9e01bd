import Xv6Arm.Lib.Prog

/-!
# Programs that issue some requests only

A program that issues none of the requests which change a part of the state
leaves that part as it was, and shows nothing outside if its requests do not.
A run that returns is cut where its first part has returned.
-/
namespace Xv6Arm.Lib
namespace Prog
variable {S T : Signature} {α β γ σ ω : Type} {P : S.Op → Prop}

/-- Every request that the program can issue satisfies `P`, whatever the answers are. -/
def Only (P : S.Op → Prop) : Prog S α → Prop
  | .call o next => P o ∧ ∀ r, Only P (next r)
  | _ => True

theorem Only.bind {p : Prog S α} {f : α → Prog S β} (hp : p.Only P) (hf : ∀ a, (f a).Only P) : (p.bind f).Only P := by
  induction p with
  | ret a => exact hf a
  | panic msg => trivial
  | call o next ih => exact ⟨hp.1, fun r => ih r (hp.2 r)⟩

theorem Only.ite {c : Prop} [Decidable c] {p q : Prog S α} (hp : p.Only P) (hq : q.Only P) : (if c then p else q).Only P := by
  split
  · exact hp
  · exact hq

theorem Only.lift {Q : T.Op → Prop} {f : (o : S.Op) → Prog T (S.Res o)} (hf : ∀ o, (f o).Only Q) (p : Prog S α) :
    (p.lift f).Only Q := by
  induction p with
  | ret a => trivial
  | panic msg => trivial
  | call o next ih => exact (hf o).bind ih

variable {m : Machine S σ} {p : Prog S α} {s s' : σ} {a : α}

/-- What no such request changes, no run of the program changes. -/
theorem Only.run {g : σ → γ} (hP : ∀ o, P o → ∀ s r s', m o s = .done r s' → g s' = g s) (h : p.Only P)
    (hr : p.run m s = .done a s') : g s' = g s := by
  induction p generalizing s with
  | ret b =>
    cases hr
    rfl
  | panic msg => cases hr
  | call o next ih =>
    rw [Prog.run] at hr
    cases ho : m o s with
    | done r t =>
      rw [ho] at hr
      rw [ih r (h.2 r) hr, hP o h.1 s r t ho]
    | blocked =>
      rw [ho] at hr
      cases hr
    | panic msg =>
      rw [ho] at hr
      cases hr

theorem Only.quiet {emit : (o : S.Op) → σ → List ω} (hP : ∀ o, P o → ∀ s, emit o s = []) (h : p.Only P) : p.Quiet emit := by
  induction p with
  | ret a => trivial
  | panic msg => trivial
  | call o next ih => exact ⟨hP o h.1, fun r => ih r (h.2 r)⟩

/-- A run of a sequence that returns has a run of its first part that returns. -/
theorem run_bind_eq_done {f : α → Prog S β} {b : β} {t : σ} (h : (p.bind f).run m s = .done b t) :
    ∃ a s', p.run m s = .done a s' ∧ (f a).run m s' = .done b t := by
  rw [run_bind] at h
  cases hp : p.run m s with
  | done a s' =>
    rw [hp] at h
    exact ⟨a, s', rfl, h⟩
  | blocked =>
    rw [hp] at h
    cases h
  | panic msg =>
    rw [hp] at h
    cases h

theorem emitted_bind_done {emit : (o : S.Op) → σ → List ω} {f : α → Prog S β} (h : p.run m s = .done a s') :
    (p.bind f).emitted m emit s = p.emitted m emit s ++ (f a).emitted m emit s' := by
  rw [emitted_bind, h]

end Prog
end Xv6Arm.Lib

import Xv6Arm.Lib.Prog

/-!
# Preconditions of programs over a specification of the requests

A specification says, for each request, from which states it may be issued and
which answers and new states the program then has to be ready for. It may talk
about a coarser state than the machine's.
-/
namespace Xv6Arm.Lib

/-- `spec o K s`: request `o` may be issued in `s`, and every answer it may then give, with the
state that goes with it, satisfies `K`. -/
abbrev OpSpec (S : Signature) (σ : Type) := (o : S.Op) → (S.Res o → σ → Prop) → σ → Prop

/-- A specification in which a weaker demand on the answers is met more often. -/
def OpSpec.Mono {S : Signature} {σ : Type} (spec : OpSpec S σ) : Prop :=
  ∀ (o : S.Op) (K L : S.Res o → σ → Prop) (s : σ), (∀ r t, K r t → L r t) → spec o K s → spec o L s

namespace Prog
variable {S : Signature} {α β σ τ : Type} (spec : OpSpec S σ) (E : String → σ → Prop)

/-- From `s`, the program only issues requests that it may, panics only as `E` allows, and if it
returns, `Q` holds. -/
def wp : Prog S α → (α → σ → Prop) → σ → Prop
  | .ret a, Q, s => Q a s
  | .panic msg, _, s => E msg s
  | .call o next, Q, s => spec o (fun r t => (next r).wp Q t) s

@[simp] theorem wp_ret (a : α) (Q : α → σ → Prop) (s : σ) :
    wp spec E (.ret a : Prog S α) Q s = Q a s := rfl

@[simp] theorem wp_panic (msg : String) (Q : α → σ → Prop) (s : σ) :
    wp spec E (.panic msg : Prog S α) Q s = E msg s := rfl

theorem wp_call (o : S.Op) (next : S.Res o → Prog S α) (Q : α → σ → Prop) (s : σ) :
    wp spec E (.call o next) Q s = spec o (fun r t => wp spec E (next r) Q t) s := rfl

theorem wp_bind (p : Prog S α) (f : α → Prog S β) (Q : β → σ → Prop) (s : σ) :
    wp spec E (p.bind f) Q s = wp spec E p (fun a t => wp spec E (f a) Q t) s := by
  induction p generalizing s with
  | ret a => rfl
  | panic msg => rfl
  | call o next ih =>
    rw [call_bind, wp_call, wp_call]
    simp only [ih]

variable {spec E}

theorem wp_mono (hm : spec.Mono) {p : Prog S α} {P Q : α → σ → Prop} {s : σ}
    (hp : wp spec E p P s) (h : ∀ a t, P a t → Q a t) : wp spec E p Q s := by
  induction p generalizing s with
  | ret a => exact h a s hp
  | panic msg => exact hp
  | call o next ih => exact hm o _ _ s (fun r t => ih r) hp

end Prog

/-- Every request is allowed and may have any answer; the state lists the requests, the latest first. -/
def traceSpec (S : Signature) : OpSpec S (List S.Op) := fun o K l => ∀ r, K r (o :: l)

/-! ## A machine that keeps to a specification over another state -/

section Refines
variable {S : Signature} {α σ τ : Type} {m : Machine S σ} {spec : OpSpec S τ} {E : String → τ → Prop}
  {R : τ → σ → Prop}

/-- What the specification promises about a request, the machine does, as far as `R` can tell. -/
def Machine.Refines (m : Machine S σ) (spec : OpSpec S τ) (E : String → τ → Prop) (R : τ → σ → Prop) :
    Prop :=
  ∀ (o : S.Op) (K : S.Res o → τ → Prop) (v : τ) (s : σ), R v s → spec o K v →
    match m o s with
    | .done r t => ∃ w, R w t ∧ K r w
    | .panic msg => ∃ w, E msg w
    | .blocked => True

theorem Machine.Refines.run (hm : m.Refines spec E R) {p : Prog S α} {Q : α → τ → Prop} {v : τ} {s : σ}
    (hR : R v s) (h : p.wp spec E Q v) :
    match p.run m s with
    | .done a t => ∃ w, R w t ∧ Q a w
    | .panic msg => ∃ w, E msg w
    | .blocked => True := by
  induction p generalizing v s with
  | ret a => exact ⟨v, hR, h⟩
  | panic msg => exact ⟨v, h⟩
  | call o next ih =>
    have ho := hm o _ v s hR h
    rw [Prog.run]
    cases hr : m o s with
    | done r t =>
      rw [hr] at ho
      obtain ⟨w, hw, hK⟩ := ho
      exact ih r hw hK
    | panic msg =>
      rw [hr] at ho
      exact ho
    | blocked => trivial

end Refines

/-! ## Simulation, with panics and waiting accounted for -/

section Simulates
variable {S : Signature} {α σ τ ω : Type} {m : Machine S σ} {spec : OpSpec S τ} {E : String → Prop}
  {W : Prop} {R : τ → σ → Prop}

/-- The machine keeps to the specification, panics only with the messages `E`, and waits only
if `W`. -/
def Machine.Simulates (m : Machine S σ) (spec : OpSpec S τ) (E : String → Prop) (W : Prop)
    (R : τ → σ → Prop) : Prop :=
  ∀ (o : S.Op) (K : S.Res o → τ → Prop) (v : τ) (s : σ), R v s → spec o K v →
    match m o s with
    | .done r t => ∃ w, R w t ∧ K r w
    | .panic msg => E msg
    | .blocked => W

theorem Machine.Simulates.run (hm : m.Simulates spec E W R) {p : Prog S α} {Q : α → τ → Prop} {v : τ}
    {s : σ} (hR : R v s) (h : p.wp spec (fun msg _ => E msg) Q v) :
    match p.run m s with
    | .done a t => ∃ w, R w t ∧ Q a w
    | .panic msg => E msg
    | .blocked => W := by
  induction p generalizing v s with
  | ret a => exact ⟨v, hR, h⟩
  | panic msg => exact h
  | call o next ih =>
    have ho := hm o _ v s hR h
    rw [Prog.run]
    cases hr : m o s with
    | done r t =>
      rw [hr] at ho
      obtain ⟨w, hw, hK⟩ := ho
      exact ih r hw hK
    | panic msg =>
      rw [hr] at ho
      exact ho
    | blocked =>
      rw [hr] at ho
      exact ho

end Simulates
end Xv6Arm.Lib

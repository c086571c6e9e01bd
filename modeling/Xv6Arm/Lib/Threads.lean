import Xv6Arm.Lib.Wp

/-!
# Processors that switch between threads

A processor executes one thread at a time, and the shared state says which. A
step is one request of the thread a processor executes, or an event that comes
from outside and puts a program before, or in place of, what that thread has left
to do. A request may also give another thread a new program to start with.

The invariant rule gives every thread a view of its own. A request of one thread
leaves the other views alone; what ties the views to the state, and to each other,
is up to the invariant.
-/
namespace Xv6Arm.Lib

variable {S : Signature} {σ τ κ ν : Type} [DecidableEq τ]

/-- How processors `κ` run threads `τ` over a state `σ`. -/
structure Threads (S : Signature) (σ τ κ : Type) where
  step : κ → Machine S σ
  /-- The thread that a processor executes. -/
  active : κ → σ → τ
  /-- The program that a request makes another thread start with. -/
  spawn : S.Op → τ → Option (Prog S Unit)
  /-- An event on a processor changes the state and the program of the active thread. -/
  event : κ → σ → Prog S Unit → σ → Prog S Unit → Prop

namespace Threads

/-- The shared state and what each thread has left to do. -/
structure Config (S : Signature) (σ τ : Type) where
  shared : σ
  thread : τ → Prog S Unit

inductive Step (T : Threads S σ τ κ) : Config S σ τ → Config S σ τ → Prop
  | request {C : Config S σ τ} {c : κ} {o : S.Op} {next : S.Res o → Prog S Unit} {r : S.Res o} {s : σ}
      (ht : C.thread (T.active c C.shared) = .call o next) (hr : T.step c o C.shared = .done r s) :
      Step T C ⟨s, fun u => if u = T.active c C.shared then next r else (T.spawn o u).getD (C.thread u)⟩
  | event {C : Config S σ τ} {c : κ} {s : σ} {p : Prog S Unit}
      (h : T.event c C.shared (C.thread (T.active c C.shared)) s p) :
      Step T C ⟨s, Function.update C.thread (T.active c C.shared) p⟩

inductive Reachable (T : Threads S σ τ κ) (init : Config S σ τ → Prop) : Config S σ τ → Prop
  | init {C : Config S σ τ} (h : init C) : Reachable T init C
  | step {C D : Config S σ τ} (hC : Reachable T init C) (h : Step T C D) : Reachable T init D

/-- Whether a program has nothing left to do. -/
def idle : Prog S Unit → Bool
  | .ret _ => true
  | _ => false

theorem eq_ret_of_idle {m : Prog S Unit} (h : idle m = true) : m = .ret () := by
  cases m with
  | ret a => rfl
  | _ => cases h

/-- The next `n` requests on one processor, as long as they succeed. -/
def ahead (T : Threads S σ τ κ) (c : κ) : ℕ → Config S σ τ → Config S σ τ
  | 0, C => C
  | n + 1, C =>
    match C.thread (T.active c C.shared) with
    | .call o next =>
      match T.step c o C.shared with
      | .done r s => ahead T c n
          ⟨s, fun u => if u = T.active c C.shared then next r else (T.spawn o u).getD (C.thread u)⟩
      | _ => C
    | _ => C

theorem Reachable.ahead {T : Threads S σ τ κ} {init : Config S σ τ → Prop} {C : Config S σ τ}
    (h : T.Reachable init C) (c : κ) (n : ℕ) : T.Reachable init (T.ahead c n C) := by
  induction n generalizing C with
  | zero => exact h
  | succ n ih =>
    rw [Threads.ahead]
    split
    · next ht =>
      split
      · next hr => exact ih (h.step (.request ht hr))
      · exact h
    · exact h

/-! ## The invariant rule -/

/-- No panic is excluded. -/
abbrev anyPanic : String → ν → Prop := fun _ _ => True

/-- From view `v`, thread `t` keeps to its specification as long as it runs. -/
abbrev Keeps (spec : τ → OpSpec S ν) (final : τ → ν → Prop) (t : τ) (p : Prog S Unit) (v : ν) : Prop :=
  p.wp (spec t) anyPanic (fun _ w => final t w) v

/-- There are views for all threads that the invariant ties to the state, and every thread keeps to
its specification from its view on. -/
def Safe (spec : τ → OpSpec S ν) (final : τ → ν → Prop) (inv : (τ → ν) → σ → Prop) (C : Config S σ τ) : Prop :=
  ∃ vs, inv vs C.shared ∧ ∀ t, Keeps spec final t (C.thread t) (vs t)

/-- What has to be shown of one request. -/
def Conforms (T : Threads S σ τ κ) (spec : τ → OpSpec S ν) (final : τ → ν → Prop) (inv : (τ → ν) → σ → Prop) :
    Prop :=
  ∀ (c : κ) (o : S.Op) (K : S.Res o → ν → Prop) (vs : τ → ν) (s : σ) (r : S.Res o) (s' : σ),
    inv vs s → spec (T.active c s) o K (vs (T.active c s)) → T.step c o s = .done r s' →
      ∃ vs', inv vs' s' ∧ K r (vs' (T.active c s)) ∧ ∀ u, u ≠ T.active c s →
        match T.spawn o u with
        | none => vs' u = vs u
        | some p => Keeps spec final u p (vs' u)

/-- What has to be shown of one event. -/
def Absorbs (T : Threads S σ τ κ) (spec : τ → OpSpec S ν) (final : τ → ν → Prop) (inv : (τ → ν) → σ → Prop) :
    Prop :=
  ∀ (c : κ) (vs : τ → ν) (s s' : σ) (p p' : Prog S Unit), inv vs s → T.event c s p s' p' →
    Keeps spec final (T.active c s) p (vs (T.active c s)) →
      ∃ v, inv (Function.update vs (T.active c s) v) s' ∧ Keeps spec final (T.active c s) p' v

variable {T : Threads S σ τ κ} {spec : τ → OpSpec S ν} {final : τ → ν → Prop} {inv : (τ → ν) → σ → Prop}
  {init : Config S σ τ → Prop}

theorem Safe.step (hreq : T.Conforms spec final inv) (hev : T.Absorbs spec final inv) {C D : Config S σ τ}
    (hC : Safe spec final inv C) (h : Step T C D) : Safe spec final inv D := by
  obtain ⟨vs, hinv, hkeep⟩ := hC
  cases h with
  | @request c o next r s ht hr =>
    have hwp := hkeep (T.active c C.shared)
    rw [Keeps, ht, Prog.wp_call] at hwp
    obtain ⟨vs', hinv', hK, hother⟩ := hreq c o _ vs C.shared r s hinv hwp hr
    refine ⟨vs', hinv', ?_⟩
    intro u
    by_cases hu : u = T.active c C.shared
    · simpa only [hu, if_true] using hK
    · have hu' := hother u hu
      simp only [hu, if_false]
      cases hs : T.spawn o u with
      | none =>
        rw [hs] at hu'
        simpa only [Option.getD_none, hu'] using hkeep u
      | some p =>
        rw [hs] at hu'
        exact hu'
  | @event c s p h =>
    obtain ⟨v, hinv', hp⟩ := hev c vs C.shared s _ p hinv h (hkeep _)
    refine ⟨_, hinv', ?_⟩
    intro u
    by_cases hu : u = T.active c C.shared
    · subst hu
      simpa only [Function.update_self] using hp
    · simpa only [Function.update_of_ne hu] using hkeep u

/-- The invariant rule for whole runs. -/
theorem Reachable.safe (hreq : T.Conforms spec final inv) (hev : T.Absorbs spec final inv)
    (hinit : ∀ C, init C → Safe spec final inv C) {C : Config S σ τ} (h : T.Reachable init C) :
    Safe spec final inv C := by
  induction h with
  | init h => exact hinit _ h
  | step _ hstep ih => exact ih.step hreq hev hstep

end Threads
end Xv6Arm.Lib

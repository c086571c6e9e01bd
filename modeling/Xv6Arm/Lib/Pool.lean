import Xv6Arm.Lib.Wp

/-!
# Threads that share a state

Any number of threads run programs over one shared state. A step is one request
of one thread, so every interleaving of the requests is a run. The invariant
rule asks of each thread only that its own program meets a specification over
its own view of the state.
-/
namespace Xv6Arm.Lib

/-- The shared state and what each thread has left to do. -/
structure Pool (S : Signature) (σ : Type) where
  shared : σ
  thread : ℕ → Prog S Unit

namespace Pool
variable {S : Signature} {σ τ : Type}

/-- One request of one thread, or an idle thread taking up a program from `jobs`. -/
inductive Step (m : ℕ → Machine S σ) (jobs : Prog S Unit → Prop) : Pool S σ → Pool S σ → Prop
  | request {P : Pool S σ} {t : ℕ} {o : S.Op} {next : S.Res o → Prog S Unit} {r : S.Res o} {s : σ}
      (ht : P.thread t = .call o next) (hr : m t o P.shared = .done r s) :
      Step m jobs P ⟨s, Function.update P.thread t (next r)⟩
  | start {P : Pool S σ} {t : ℕ} {p : Prog S Unit} (ht : P.thread t = .ret ()) (hp : jobs p) :
      Step m jobs P ⟨P.shared, Function.update P.thread t p⟩

/-- The pools that runs from `init`, with every thread idle, can reach. -/
inductive Reachable (m : ℕ → Machine S σ) (jobs : Prog S Unit → Prop) (init : σ → Prop) :
    Pool S σ → Prop
  | init {s : σ} (h : init s) : Reachable m jobs init ⟨s, fun _ => .ret ()⟩
  | step {P Q : Pool S σ} (hP : Reachable m jobs init P) (h : Step m jobs P Q) :
      Reachable m jobs init Q

/-- The next request of thread `t` stops the system with `msg`. -/
def Panics (m : ℕ → Machine S σ) (P : Pool S σ) (t : ℕ) (msg : String) : Prop :=
  ∃ o next, P.thread t = .call o next ∧ m t o P.shared = .panic msg

/-- The next `n` requests of one thread, as long as they succeed. -/
def ahead (m : ℕ → Machine S σ) (t : ℕ) : ℕ → Pool S σ → Pool S σ
  | 0, P => P
  | n + 1, P =>
    match P.thread t with
    | .call o next =>
      match m t o P.shared with
      | .done r s => ahead m t n ⟨s, Function.update P.thread t (next r)⟩
      | _ => P
    | _ => P

theorem Reachable.ahead {m : ℕ → Machine S σ} {jobs : Prog S Unit → Prop} {init : σ → Prop} {P : Pool S σ}
    (h : Reachable m jobs init P) (t n : ℕ) : Reachable m jobs init (P.ahead m t n) := by
  induction n generalizing P with
  | zero => exact h
  | succ n ih =>
    rw [Pool.ahead]
    split
    · next ht =>
      split
      · next hr => exact ih (h.step (.request ht hr))
      · exact h
    · exact h

/-- `inv` holds of the shared state, and every thread keeps to `spec` from its view of it on. -/
structure Safe (spec : OpSpec S τ) (view : ℕ → σ → τ) (idle : τ → Prop) (inv : σ → Prop)
    (P : Pool S σ) : Prop where
  inv : inv P.shared
  thread : ∀ t, (P.thread t).wp spec (fun _ _ => True) (fun _ v => idle v) (view t P.shared)

variable {m : ℕ → Machine S σ} {jobs : Prog S Unit → Prop} {init : σ → Prop}
  {spec : OpSpec S τ} {view : ℕ → σ → τ} {idle : τ → Prop} {inv : σ → Prop}

/-- What has to be shown of one request: it keeps the invariant, its answer is one the
specification promises, and no other thread's view changes. -/
def Conforms (m : ℕ → Machine S σ) (spec : OpSpec S τ) (view : ℕ → σ → τ) (inv : σ → Prop) : Prop :=
  ∀ (t : ℕ) (o : S.Op) (K : S.Res o → τ → Prop) (s : σ) (r : S.Res o) (s' : σ),
    inv s → spec o K (view t s) → m t o s = .done r s' →
      inv s' ∧ K r (view t s') ∧ ∀ u, u ≠ t → view u s' = view u s

theorem Safe.step (hc : Conforms m spec view inv)
    (hj : ∀ p v, jobs p → idle v → p.wp spec (fun _ _ => True) (fun _ w => idle w) v) {P Q : Pool S σ}
    (hP : Safe spec view idle inv P) (h : Step m jobs P Q) : Safe spec view idle inv Q := by
  cases h with
  | @request t o next r s ht hr =>
    have hwp := hP.thread t
    rw [ht] at hwp
    obtain ⟨hs, hK, hother⟩ := hc t o _ P.shared r s hP.inv hwp hr
    refine ⟨hs, ?_⟩
    intro u
    by_cases hu : u = t
    · subst hu
      simpa using hK
    · simpa [Function.update_of_ne hu, hother u hu] using hP.thread u
  | @start t p ht hp =>
    refine ⟨hP.inv, ?_⟩
    intro u
    by_cases hu : u = t
    · subst hu
      have hidle := hP.thread u
      rw [ht] at hidle
      simpa using hj p _ hp hidle
    · simpa [Function.update_of_ne hu] using hP.thread u

/-- The invariant rule for whole runs. -/
theorem Reachable.safe (hc : Conforms m spec view inv)
    (hj : ∀ p v, jobs p → idle v → p.wp spec (fun _ _ => True) (fun _ w => idle w) v)
    (hi : ∀ s, init s → inv s ∧ ∀ t, idle (view t s)) {P : Pool S σ}
    (h : Reachable m jobs init P) : Safe spec view idle inv P := by
  induction h with
  | init hs => exact ⟨(hi _ hs).1, (hi _ hs).2⟩
  | step _ hstep ih => exact ih.step hc hj hstep

end Pool
end Xv6Arm.Lib

import Mathlib

/-!
# Programs over atomic requests

A program issues requests one at a time and continues with the answer. What a
request does is fixed by a machine, so one program text can be run alone, cut
off after any request, or interleaved with other programs. A request may also
block, or stop the whole system with a message.
-/
namespace Xv6Arm.Lib

/-- What a request, or a whole program, does to the state it starts from. -/
inductive Outcome (ρ σ : Type) where
  | done (r : ρ) (s : σ)
  | blocked
  | panic (msg : String)

/-- The same outcome seen from a state that the new one is a part of. -/
def Outcome.map {ρ σ τ : Type} (f : σ → τ) : Outcome ρ σ → Outcome ρ τ
  | .done r s => .done r (f s)
  | .blocked => .blocked
  | .panic msg => .panic msg

/-- The requests a program may issue and the type of each one's answer. -/
structure Signature where
  Op : Type
  Res : Op → Type

inductive Prog (S : Signature) (α : Type) where
  | ret (a : α)
  | panic (msg : String)
  | call (o : S.Op) (next : S.Res o → Prog S α)

namespace Prog
variable {S : Signature} {α β γ σ τ ω : Type}

def bind : Prog S α → (α → Prog S β) → Prog S β
  | .ret a, f => f a
  | .panic msg, _ => .panic msg
  | .call o next, f => .call o (fun r => (next r).bind f)

/-- Issue one request and return its answer. -/
def op (o : S.Op) : Prog S (S.Res o) := .call o .ret

instance : Monad (Prog S) where
  pure := .ret
  bind := bind

@[simp] theorem pure_eq (a : α) : (pure a : Prog S α) = .ret a := rfl
@[simp] theorem bind_eq (p : Prog S α) (f : α → Prog S β) : p >>= f = p.bind f := rfl
@[simp] theorem ret_bind (a : α) (f : α → Prog S β) : (ret a : Prog S α).bind f = f a := rfl
@[simp] theorem panic_bind (msg : String) (f : α → Prog S β) :
    (panic msg : Prog S α).bind f = .panic msg := rfl
@[simp] theorem call_bind (o : S.Op) (next : S.Res o → Prog S α) (f : α → Prog S β) :
    (call o next).bind f = .call o (fun r => (next r).bind f) := rfl
@[simp] theorem op_bind (o : S.Op) (f : S.Res o → Prog S β) : (op o).bind f = .call o f := rfl

theorem bind_assoc (p : Prog S α) (f : α → Prog S β) (g : β → Prog S γ) :
    (p.bind f).bind g = p.bind (fun a => (f a).bind g) := by
  induction p with
  | ret a => rfl
  | panic msg => rfl
  | call o next ih => simp only [call_bind, ih]

@[simp] theorem bind_ret (p : Prog S α) : p.bind .ret = p := by
  induction p with
  | ret a => rfl
  | panic msg => rfl
  | call o next ih => simp only [call_bind, ih]

/-- Run the same program over a larger set of requests. -/
def lift {T : Signature} (f : (o : S.Op) → Prog T (S.Res o)) : Prog S α → Prog T α
  | .ret a => .ret a
  | .panic msg => .panic msg
  | .call o next => (f o).bind (fun r => (next r).lift f)

/-- Do `body` for each element of a list in turn. -/
def each (body : β → Prog S Unit) : List β → Prog S Unit
  | [] => pure ()
  | b :: l => do
    body b
    each body l

end Prog

/-- The effect of each request on a state. -/
abbrev Machine (S : Signature) (σ : Type) := (o : S.Op) → σ → Outcome (S.Res o) σ

namespace Prog
variable {S : Signature} {α β σ ω : Type} (m : Machine S σ)

/-- Run a program alone. -/
def run : Prog S α → σ → Outcome α σ
  | .ret a, s => .done a s
  | .panic msg, _ => .panic msg
  | .call o next, s =>
    match m o s with
    | .done r s' => run (next r) s'
    | .blocked => .blocked
    | .panic msg => .panic msg

/-- What the requests of a run make visible outside, in the order issued. -/
def emitted (emit : (o : S.Op) → σ → List ω) : Prog S α → σ → List ω
  | .ret _, _ => []
  | .panic _, _ => []
  | .call o next, s =>
    match m o s with
    | .done r s' => emit o s ++ emitted emit (next r) s'
    | _ => []

@[simp] theorem run_ret (a : α) (s : σ) : run m (.ret a : Prog S α) s = .done a s := rfl
@[simp] theorem run_panic (msg : String) (s : σ) :
    run m (.panic msg : Prog S α) s = .panic msg := rfl

theorem run_call_done {o : S.Op} {next : S.Res o → Prog S α} {s s' : σ} {r : S.Res o}
    (h : m o s = .done r s') : run m (.call o next) s = run m (next r) s' := by
  simp only [run, h]

theorem run_call_panic {o : S.Op} {next : S.Res o → Prog S α} {s : σ} {msg : String}
    (h : m o s = .panic msg) : run m (.call o next) s = .panic msg := by
  simp only [run, h]

theorem run_bind (p : Prog S α) (f : α → Prog S β) (s : σ) :
    run m (p.bind f) s =
      match run m p s with
      | .done a s' => run m (f a) s'
      | .blocked => .blocked
      | .panic msg => .panic msg := by
  induction p generalizing s with
  | ret a => rfl
  | panic msg => rfl
  | call o next ih =>
    simp only [call_bind, run]
    cases m o s with
    | done r s' => exact ih r s'
    | blocked => rfl
    | panic msg => rfl

theorem run_bind_done {p : Prog S α} {f : α → Prog S β} {s s' : σ} {a : α}
    (h : run m p s = .done a s') : run m (p.bind f) s = run m (f a) s' := by
  rw [run_bind, h]

theorem emitted_bind (emit : (o : S.Op) → σ → List ω) (p : Prog S α) (f : α → Prog S β) (s : σ) :
    emitted m emit (p.bind f) s = emitted m emit p s ++
      match run m p s with
      | .done a s' => emitted m emit (f a) s'
      | _ => [] := by
  induction p generalizing s with
  | ret a => rfl
  | panic msg => rfl
  | call o next ih =>
    simp only [call_bind, run, emitted]
    cases m o s with
    | done r s' => simp only [ih r s', List.append_assoc]
    | blocked => rfl
    | panic msg => rfl

/-- No request that the program can issue shows anything outside. -/
def Quiet (emit : (o : S.Op) → σ → List ω) : Prog S α → Prop
  | .call o next => (∀ s, emit o s = []) ∧ ∀ r, Quiet emit (next r)
  | _ => True

theorem Quiet.bind {emit : (o : S.Op) → σ → List ω} {p : Prog S α} {f : α → Prog S β}
    (hp : p.Quiet emit) (hf : ∀ a, (f a).Quiet emit) : (p.bind f).Quiet emit := by
  induction p with
  | ret a => exact hf a
  | panic msg => trivial
  | call o next ih => exact ⟨hp.1, fun r => ih r (hp.2 r)⟩

theorem Quiet.emitted {emit : (o : S.Op) → σ → List ω} {p : Prog S α} (hp : p.Quiet emit) (s : σ) :
    p.emitted m emit s = [] := by
  induction p generalizing s with
  | ret a => rfl
  | panic msg => rfl
  | call o next ih =>
    rw [Prog.emitted]
    cases m o s with
    | done r s' => simp [hp.1 s, ih r (hp.2 r)]
    | blocked => rfl
    | panic msg => rfl

end Prog

/-! ## Runs that emit a given list -/

section Emits
variable {S : Signature} {α β σ ω : Type} (m : Machine S σ) (emit : (o : S.Op) → σ → List ω)

/-- However the run ends it emits a prefix of `ws`; if it returns, it emits all of `ws` and the
result satisfies `Q`. -/
def Emits (p : Prog S α) (s : σ) (ws : List ω) (Q : α → σ → Prop) : Prop :=
  p.emitted m emit s <+: ws ∧ ∀ a s', p.run m s = .done a s' → p.emitted m emit s = ws ∧ Q a s'

/-- The run returns, emits exactly `ws`, and the result satisfies `Q`. -/
def Returns (p : Prog S α) (s : σ) (ws : List ω) (Q : α → σ → Prop) : Prop :=
  ∃ a s', p.run m s = .done a s' ∧ p.emitted m emit s = ws ∧ Q a s'

variable {m emit}

theorem Emits.ret {a : α} {s : σ} {Q : α → σ → Prop} (h : Q a s) :
    Emits m emit (.ret a : Prog S α) s [] Q := by
  refine ⟨List.prefix_rfl, ?_⟩
  rintro b s' hb
  cases hb
  exact ⟨rfl, h⟩

/-- Sequencing: the second program starts from whatever the first one returns. -/
theorem Emits.bind {p : Prog S α} {f : α → Prog S β} {s : σ} {ws vs : List ω}
    {P : α → σ → Prop} {Q : β → σ → Prop} (hp : Emits m emit p s ws P)
    (hf : ∀ a s', P a s' → Emits m emit (f a) s' vs Q) :
    Emits m emit (p.bind f) s (ws ++ vs) Q := by
  obtain ⟨hpre, hret⟩ := hp
  cases hr : p.run m s with
  | done a s' =>
    obtain ⟨hws, ha⟩ := hret a s' hr
    obtain ⟨hpre', hret'⟩ := hf a s' ha
    have he : (p.bind f).emitted m emit s = ws ++ (f a).emitted m emit s' := by
      rw [Prog.emitted_bind, hr, hws]
    refine ⟨he ▸ (List.prefix_append_right_inj ws).mpr hpre', ?_⟩
    intro b s'' hb
    rw [Prog.run_bind_done m hr] at hb
    obtain ⟨hvs, hb'⟩ := hret' b s'' hb
    exact ⟨by rw [he, hvs], hb'⟩
  | blocked =>
    refine ⟨?_, ?_⟩
    · rw [Prog.emitted_bind, hr, List.append_nil]
      exact hpre.trans (List.prefix_append ws vs)
    · intro b s'' hb
      rw [Prog.run_bind, hr] at hb
      cases hb
  | panic msg =>
    refine ⟨?_, ?_⟩
    · rw [Prog.emitted_bind, hr, List.append_nil]
      exact hpre.trans (List.prefix_append ws vs)
    · intro b s'' hb
      rw [Prog.run_bind, hr] at hb
      cases hb

theorem Emits.call {o : S.Op} {next : S.Res o → Prog S α} {s : σ} {vs : List ω}
    {Q : α → σ → Prop} (h : ∀ r s', m o s = .done r s' → Emits m emit (next r) s' vs Q) :
    Emits m emit (.call o next) s (emit o s ++ vs) Q := by
  cases hr : m o s with
  | done r s' =>
    obtain ⟨hpre, hret⟩ := h r s' hr
    refine ⟨?_, ?_⟩
    · simp only [Prog.emitted, hr]
      exact (List.prefix_append_right_inj _).mpr hpre
    · intro a s'' ha
      rw [Prog.run_call_done m hr] at ha
      obtain ⟨hvs, hQ⟩ := hret a s'' ha
      exact ⟨by simp only [Prog.emitted, hr, hvs], hQ⟩
  | blocked => exact ⟨by simp [Prog.emitted, hr], by intro a s'' ha; simp [Prog.run, hr] at ha⟩
  | panic msg => exact ⟨by simp [Prog.emitted, hr], by intro a s'' ha; simp [Prog.run, hr] at ha⟩

/-- A request that shows nothing outside. -/
theorem Emits.quiet {o : S.Op} {next : S.Res o → Prog S α} {s : σ} {vs : List ω}
    {Q : α → σ → Prop} (he : emit o s = [])
    (h : ∀ r s', m o s = .done r s' → Emits m emit (next r) s' vs Q) :
    Emits m emit (.call o next) s vs Q := by
  have := Emits.call h
  rwa [he, List.nil_append] at this

/-- Sequencing when what the second program emits is only known once the first has returned. -/
theorem Emits.bind_exists {p : Prog S α} {f : α → Prog S β} {s : σ} {ws : List ω}
    {P : α → σ → Prop} {Q : β → σ → Prop} {V : List ω → Prop} (hV : ∃ vs, V vs)
    (hp : Emits m emit p s ws P)
    (hf : ∀ a s', P a s' → ∃ vs, V vs ∧ Emits m emit (f a) s' vs Q) :
    ∃ vs, V vs ∧ Emits m emit (p.bind f) s (ws ++ vs) Q := by
  cases hr : p.run m s with
  | done a s' =>
    obtain ⟨vs, hvs, hE⟩ := hf a s' (hp.2 a s' hr).2
    refine ⟨vs, hvs, Emits.bind (P := fun a' t => a' = a ∧ t = s') ⟨hp.1, ?_⟩ ?_⟩
    · intro a' t ht
      rw [hr] at ht
      cases ht
      exact ⟨(hp.2 a s' hr).1, rfl, rfl⟩
    · rintro a' t ⟨rfl, rfl⟩
      exact hE
  | blocked =>
    obtain ⟨vs, hvs⟩ := hV
    refine ⟨vs, hvs, Emits.bind (P := fun _ _ => False) ⟨hp.1, ?_⟩ (fun _ _ h => h.elim)⟩
    intro a' t ht
    rw [hr] at ht
    cases ht
  | panic msg =>
    obtain ⟨vs, hvs⟩ := hV
    refine ⟨vs, hvs, Emits.bind (P := fun _ _ => False) ⟨hp.1, ?_⟩ (fun _ _ h => h.elim)⟩
    intro a' t ht
    rw [hr] at ht
    cases ht

theorem Returns.ret {a : α} {s : σ} {Q : α → σ → Prop} (h : Q a s) :
    Returns m emit (.ret a : Prog S α) s [] Q := ⟨a, s, rfl, rfl, h⟩

theorem Returns.call {o : S.Op} {next : S.Res o → Prog S α} {s s' : σ} {r : S.Res o}
    {vs : List ω} {Q : α → σ → Prop} (hr : m o s = .done r s')
    (h : Returns m emit (next r) s' vs Q) :
    Returns m emit (.call o next) s (emit o s ++ vs) Q := by
  obtain ⟨a, s'', ha, hvs, hQ⟩ := h
  exact ⟨a, s'', by rw [Prog.run_call_done m hr, ha], by simp only [Prog.emitted, hr, hvs], hQ⟩

theorem Returns.quiet {o : S.Op} {next : S.Res o → Prog S α} {s s' : σ} {r : S.Res o}
    {vs : List ω} {Q : α → σ → Prop} (he : emit o s = []) (hr : m o s = .done r s')
    (h : Returns m emit (next r) s' vs Q) : Returns m emit (.call o next) s vs Q := by
  have := Returns.call hr h
  rwa [he, List.nil_append] at this

theorem Returns.of_run {p : Prog S α} {s s' : σ} {a : α} (hr : p.run m s = .done a s')
    (hq : p.Quiet emit) : Returns m emit p s [] (fun b t => b = a ∧ t = s') :=
  ⟨a, s', hr, hq.emitted m s, rfl, rfl⟩

theorem Returns.bind {p : Prog S α} {f : α → Prog S β} {s : σ} {ws vs : List ω}
    {P : α → σ → Prop} {Q : β → σ → Prop} (hp : Returns m emit p s ws P)
    (hf : ∀ a s', P a s' → Returns m emit (f a) s' vs Q) :
    Returns m emit (p.bind f) s (ws ++ vs) Q := by
  obtain ⟨a, s', hr, hws, ha⟩ := hp
  obtain ⟨b, s'', hr', hvs, hb⟩ := hf a s' ha
  refine ⟨b, s'', by rw [Prog.run_bind_done m hr, hr'], ?_, hb⟩
  rw [Prog.emitted_bind, hr, hws]
  exact congrArg (ws ++ ·) hvs

/-- What follows shows nothing outside. -/
theorem Returns.bind_quiet {p : Prog S α} {f : α → Prog S β} {s : σ} {ws : List ω}
    {P : α → σ → Prop} {Q : β → σ → Prop} (hp : Returns m emit p s ws P)
    (hf : ∀ a s', P a s' → Returns m emit (f a) s' [] Q) : Returns m emit (p.bind f) s ws Q := by
  have := hp.bind hf
  rwa [List.append_nil] at this

/-- What follows only transforms the result. -/
theorem Returns.bind_ret {p : Prog S α} {g : α → β} {s : σ} {ws : List ω} {P : α → σ → Prop}
    {Q : β → σ → Prop} (hp : Returns m emit p s ws P) (h : ∀ a s', P a s' → Q (g a) s') :
    Returns m emit (p.bind fun a => .ret (g a)) s ws Q :=
  hp.bind_quiet fun a s' ha => Returns.ret (h a s' ha)

theorem Returns.mono {p : Prog S α} {s : σ} {ws : List ω} {P Q : α → σ → Prop}
    (hp : Returns m emit p s ws P) (h : ∀ a s', P a s' → Q a s') : Returns m emit p s ws Q := by
  obtain ⟨a, s', hr, hws, ha⟩ := hp
  exact ⟨a, s', hr, hws, h a s' ha⟩

/-- The run returns and the result satisfies `Q`, whatever it emits. -/
abbrev Completes (m : Machine S σ) (p : Prog S α) (s : σ) (Q : α → σ → Prop) : Prop :=
  Returns m (fun _ _ => ([] : List Unit)) p s [] Q

theorem completes_iff {p : Prog S α} {s : σ} {Q : α → σ → Prop} :
    Completes m p s Q ↔ ∃ a s', p.run m s = .done a s' ∧ Q a s' := by
  have hsilent : p.Quiet fun (_ : S.Op) (_ : σ) => ([] : List Unit) := by
    induction p with
    | ret a => trivial
    | panic msg => trivial
    | call o next ih => exact ⟨fun _ => rfl, ih⟩
  refine ⟨?_, ?_⟩
  · rintro ⟨a, s', hr, -, hQ⟩
    exact ⟨a, s', hr, hQ⟩
  · rintro ⟨a, s', hr, hQ⟩
    exact ⟨a, s', hr, hsilent.emitted m s, hQ⟩

end Emits

/-! ## Running a program over a larger state -/

section Lift
variable {S T : Signature} {α σ τ : Type} {m : Machine S σ} {m' : Machine T τ}
  {f : (o : S.Op) → Prog T (S.Res o)} {g : τ → σ} {k : σ → τ → τ}

/-- If each request, in the larger signature, acts on a part of the larger state as it does alone, so
does the whole program. -/
theorem Prog.run_lift (hf : ∀ o t, (f o).run m' t = (m o (g t)).map (k · t))
    (hget : ∀ s t, g (k s t) = s) (hput : ∀ s s' t, k s' (k s t) = k s' t)
    (hself : ∀ t, k (g t) t = t) (p : Prog S α) (t : τ) :
    (p.lift f).run m' t = (p.run m (g t)).map (k · t) := by
  induction p generalizing t with
  | ret a => simp [Prog.lift, Outcome.map, hself]
  | panic msg => rfl
  | call o next ih =>
    rw [Prog.lift, Prog.run_bind, hf, Prog.run]
    cases m o (g t) with
    | done r s =>
      simp only [Outcome.map, ih, hget]
      cases (next r).run m s with
      | done a s' => simp only [hput]
      | blocked => rfl
      | panic msg => rfl
    | blocked => rfl
    | panic msg => rfl

end Lift

end Xv6Arm.Lib

import Xv6Arm.Pipe.Protocol
import Xv6Arm.Lib.Ring

/-!
# The invariant of a pipe in use

The ring holds what was written and not yet read. Whoever sleeps, or is on the way
to sleep without looking at the pipe again, has a reason to, or the process that
holds `pi->lock` is going to wake it. The second part is stated for runs in which
no writer has returned with a wakeup owing.
-/
namespace Xv6Arm.Pipes
open Lib

namespace View

/-- The pipe as the holder of `pi->lock` knows it. -/
def held : View → Option Pipe
  | .hold x _ _ | .wake x _ _ _ _ | .drowse x _ => some x
  | .out | .doze _ | .asleep _ => none

/-- `p->lock` is held. -/
def locked : View → Bool
  | .drowse _ _ | .doze _ => true
  | _ => false

/-- The sleepers on `nread` have to be woken. -/
def debt : View → Bool
  | .hold _ r _ | .wake _ r _ _ _ => r
  | _ => false

/-- The channel that the process has gone to sleep on. -/
def bed : View → Option Chan
  | .asleep ch => some ch
  | _ => none

def owed (r w : Bool) : Chan → Bool
  | .nread => r
  | .nwrite => w

/-- Process `q` will be woken if it sleeps on `ch`. -/
def Owes : View → Chan → ℕ → Prop
  | .hold _ r w, ch, _ => owed r w ch = true
  | .wake _ r w ch' k, ch, q => owed r w ch = true ∧ (ch = ch' → k ≤ q)
  | _, _, _ => False

end View

/-- A process sleeps on `ch`, or will do so without looking at the pipe again. -/
def Sleeps (v : View) (p : PProc) (ch : Chan) : Prop :=
  v = .doze ch ∨ v.bed = some ch ∧ p.state = .sleeping

structure Inv (vs : ℕ → View) (s : PipeSys) : Prop where
  held : ∀ t x, (vs t).held = some x → s.pipe = x ∧ x.lock = some t
  holder : ∀ t, s.pipe.lock = some t → ∃ x, (vs t).held = some x
  table : ∀ t, NPROC ≤ t → vs t = .out
  locked : ∀ t, (s.procs t).locked = (vs t).locked
  awake : ∀ t, (vs t).bed = none → (s.procs t).state ≠ .sleeping
  asleep : ∀ t ch, (vs t).bed = some ch → (s.procs t).state = .sleeping → (s.procs t).chan = some ch
  debt : ∀ t, s.owing t = (vs t).debt
  waits : s.abandoned = false → ∀ q ch, Sleeps (vs q) (s.procs q) ch →
    Waits ch s.pipe ∨ ∃ t, s.pipe.lock = some t ∧ (vs t).Owes ch q
  queue : ∃ xs, Ring.Holds PIPESIZE (2 ^ 32) s.pipe.data s.pipe.nread s.pipe.nwrite xs ∧
    s.written = s.taken ++ xs

/-- The process neither sleeps nor is about to. -/
def View.busy : View → Bool
  | .hold _ _ _ | .wake _ _ _ _ _ => true
  | _ => false

theorem View.busy_facts {v : View} (h : v.busy = true) (p : PProc) :
    v.locked = false ∧ v.bed = none ∧ (∀ ch, ¬ Sleeps v p ch) ∧ v ≠ .out := by
  cases v with
  | hold x r w => simp [View.locked, View.bed, Sleeps]
  | wake x r w ch k => simp [View.locked, View.bed, Sleeps]
  | _ => cases h

namespace Inv
variable {vs : ℕ → View} {s s' : PipeSys} {t : ℕ}

theorem lt_NPROC (h : Inv vs s) (ht : vs t ≠ .out) : t < NPROC := by
  by_contra hge
  exact ht (h.table t (Nat.le_of_not_lt hge))

/-- Only one process knows the pipe. -/
theorem held_unique (h : Inv vs s) {u : ℕ} {x y : Pipe} (ht : (vs t).held = some x)
    (hu : (vs u).held = some y) : u = t := by
  obtain ⟨rfl, hx⟩ := h.held t x ht
  obtain ⟨hxy, hy⟩ := h.held u y hu
  rw [← hxy, hx] at hy
  exact (Option.some.inj hy).symm

/-- Whoever sleeps has a reason, or is on the list of the one process that holds the lock. -/
theorem waits_of_held (h : Inv vs s) {x : Pipe} (ht : (vs t).held = some x) (hab : s.abandoned = false)
    {q : ℕ} {ch : Chan} (hq : Sleeps (vs q) (s.procs q) ch) : Waits ch x ∨ (vs t).Owes ch q := by
  obtain ⟨rfl, hlock⟩ := h.held t x ht
  rcases h.waits hab q ch hq with hw | ⟨u, hu, ho⟩
  · exact .inl hw
  · rw [hlock] at hu
    cases hu
    exact .inr ho

/-- The holder of the lock does something to the pipe, or to its list of sleepers to wake. -/
theorem update_pipe (h : Inv vs s) (x x' : Pipe) {w : View} (hv : (vs t).busy = true)
    (hx : (vs t).held = some x) (hw : w.busy = true) (hx' : w.held = some x') (hlock : x'.lock = some t)
    (hpipe : s'.pipe = x') (hprocs : s'.procs = s.procs)
    (howing : ∀ u, s'.owing u = if u = t then w.debt else s.owing u)
    (hab : s'.abandoned = false → s.abandoned = false)
    (hwaits : s'.abandoned = false → ∀ q < NPROC, ∀ ch, Sleeps (vs q) (s.procs q) ch →
      Waits ch x ∨ (vs t).Owes ch q → Waits ch x' ∨ w.Owes ch q)
    (hqueue : ∃ xs, Ring.Holds PIPESIZE (2 ^ 32) x'.data x'.nread x'.nwrite xs ∧ s'.written = s'.taken ++ xs) :
    Inv (Function.update vs t w) s' := by
  obtain ⟨hlk, hbed, hsleep, hout⟩ := View.busy_facts hv (s.procs t)
  obtain ⟨hlk', hbed', hsleep', -⟩ := View.busy_facts hw (s.procs t)
  constructor
  · rw [Function.forall_update_iff vs (p := fun u v => ∀ y, v.held = some y → s'.pipe = y ∧ y.lock = some u)]
    refine ⟨?_, ?_⟩
    · rintro y hy
      rw [hx'] at hy
      cases hy
      exact ⟨hpipe, hlock⟩
    · intro u hu y hy
      exact absurd (h.held_unique hx hy) hu
  · intro u hu
    rw [hpipe, hlock] at hu
    cases hu
    rw [Function.update_self]
    exact ⟨x', hx'⟩
  · intro u hu
    have hne : u ≠ t := by
      rintro rfl
      exact hout (h.table u hu)
    rw [Function.update_of_ne hne]
    exact h.table u hu
  · rw [hprocs, Function.forall_update_iff vs (p := fun u v => (s.procs u).locked = v.locked)]
    exact ⟨by rw [hlk', h.locked t, hlk], fun u _ => h.locked u⟩
  · rw [hprocs, Function.forall_update_iff vs (p := fun u v => v.bed = none → (s.procs u).state ≠ .sleeping)]
    exact ⟨fun _ => h.awake t hbed, fun u _ => h.awake u⟩
  · rw [hprocs, Function.forall_update_iff vs (p := fun u v => ∀ ch, v.bed = some ch →
      (s.procs u).state = .sleeping → (s.procs u).chan = some ch)]
    refine ⟨?_, fun u _ => h.asleep u⟩
    intro ch hch
    rw [hbed'] at hch
    cases hch
  · rw [Function.forall_update_iff vs (p := fun u v => s'.owing u = v.debt)]
    refine ⟨by rw [howing, if_pos rfl], ?_⟩
    intro u hu
    rw [howing, if_neg hu]
    exact h.debt u
  · intro habs q ch hq
    rw [hprocs] at hq
    have hne : q ≠ t := by
      rintro rfl
      rw [Function.update_self] at hq
      exact hsleep' ch hq
    rw [Function.update_of_ne hne] at hq
    have hq' : q < NPROC := by
      apply h.lt_NPROC
      rintro hqo
      rw [hqo] at hq
      rcases hq with hq | ⟨hq, -⟩ <;> cases hq
    rcases hwaits habs q hq' ch hq (h.waits_of_held hx (hab habs) hq) with hreason | ho
    · exact .inl (by rwa [hpipe])
    · refine .inr ⟨t, by rw [hpipe, hlock], ?_⟩
      rwa [Function.update_self]
  · rw [hpipe]
    exact hqueue

/-- A process that has nobody to wake takes or gives up the lock, or changes its own entry in the table. -/
theorem update_self (h : Inv vs s) {w : View} {l : Option ℕ} {p : PProc} (hlt : t < NPROC)
    (hlock : l = s.pipe.lock ∧ w.held = (vs t).held ∨ (s.pipe.lock = none ∨ s.pipe.lock = some t) ∧
      (w.held = some { s.pipe with lock := l } ∧ l = some t ∨ w.held = none ∧ l = none))
    (hlocked : p.locked = w.locked) (hawake : w.bed = none → p.state ≠ .sleeping)
    (hasleep : ∀ ch, w.bed = some ch → p.state = .sleeping → p.chan = some ch)
    (hdebt : w.debt = (vs t).debt) (howes : ∀ ch q, ¬ (vs t).Owes ch q)
    (hself : ∀ ch, Sleeps w p ch → Waits ch s.pipe ∨ Sleeps (vs t) (s.procs t) ch) :
    Inv (Function.update vs t w)
      { s with pipe := { s.pipe with lock := l }, procs := Function.update s.procs t p } := by
  -- Nobody else has the lock if it changes hands.
  have hother : ∀ u, u ≠ t → ∀ x, (vs u).held = some x → l = s.pipe.lock ∧ s.pipe = x ∧ x.lock = some u := by
    intro u hu x hx
    have hux := h.held u x hx
    rcases hlock with ⟨hl, -⟩ | ⟨hfree, -⟩
    · exact ⟨hl, hux⟩
    · rw [hux.1, hux.2] at hfree
      rcases hfree with hfree | hfree
      · cases hfree
      · exact absurd (Option.some.inj hfree) hu
  constructor
  · rw [Function.forall_update_iff vs (p := fun u v => ∀ x, v.held = some x →
      ({ s.pipe with lock := l } : Pipe) = x ∧ x.lock = some u)]
    refine ⟨?_, ?_⟩
    · intro x hx
      rcases hlock with ⟨rfl, hl⟩ | ⟨-, ⟨hl, rfl⟩ | ⟨hl, -⟩⟩
      · exact h.held t x (hl ▸ hx)
      · rw [hl] at hx
        cases hx
        exact ⟨rfl, rfl⟩
      · rw [hl] at hx
        cases hx
    · intro u hu x hx
      obtain ⟨rfl, hux⟩ := hother u hu x hx
      exact hux
  · intro u hu
    change l = some u at hu
    rw [Function.update_apply]
    split
    · next hut =>
      subst hut
      rcases hlock with ⟨rfl, hl⟩ | ⟨-, ⟨hl, -⟩ | ⟨-, rfl⟩⟩
      · rw [hl]
        exact h.holder u hu
      · exact ⟨_, hl⟩
      · cases hu
    · next hut =>
      rcases hlock with ⟨rfl, -⟩ | ⟨-, ⟨-, rfl⟩ | ⟨-, rfl⟩⟩
      · exact h.holder u hu
      · exact absurd (Option.some.inj hu).symm hut
      · cases hu
  · intro u hu
    rw [Function.update_of_ne (by omega)]
    exact h.table u hu
  · intro u
    by_cases hut : u = t
    · subst hut
      simpa using hlocked
    · simpa [hut] using h.locked u
  · intro u
    by_cases hut : u = t
    · subst hut
      simpa using hawake
    · simpa [hut] using h.awake u
  · intro u
    by_cases hut : u = t
    · subst hut
      simpa using hasleep
    · simpa [hut] using h.asleep u
  · rw [Function.forall_update_iff vs (p := fun u v => s.owing u = v.debt)]
    exact ⟨by rw [hdebt, h.debt t], fun u _ => h.debt u⟩
  · intro hab q ch hq
    -- The old reason for `q` to sleep is still one.
    have hold : Sleeps (vs q) (s.procs q) ch → Waits ch ({ s.pipe with lock := l } : Pipe) ∨
        ∃ u, l = some u ∧ (Function.update vs t w u).Owes ch q := by
      intro hq
      rcases h.waits hab q ch hq with hw | ⟨u, hu, ho⟩
      · left
        cases ch <;> exact hw
      · have hut : u ≠ t := by
          rintro rfl
          exact howes ch q ho
        obtain ⟨x, hx⟩ := h.holder u hu
        obtain ⟨rfl, -⟩ := hother u hut x hx
        exact .inr ⟨u, hu, by rwa [Function.update_of_ne hut]⟩
    by_cases hqt : q = t
    · subst hqt
      simp only [Function.update_self] at hq
      rcases hself ch hq with hw | hq
      · left
        cases ch <;> exact hw
      · exact hold hq
    · simp only [Function.update_of_ne hqt] at hq
      exact hold hq
  · exact h.queue

/-- A process that is not on its way to sleep is woken by another one. -/
theorem update_other (h : Inv vs s) {q : ℕ} {p : PProc} (hlocked : p.locked = (s.procs q).locked)
    (hstate : p.state = (s.procs q).state ∧ p.chan = (s.procs q).chan ∨ p.state = .runnable) :
    Inv vs { s with procs := Function.update s.procs q p } := by
  -- Whoever sleeps now slept before.
  have hback : ∀ u, (Function.update s.procs q p u).state = .sleeping →
      (s.procs u).state = .sleeping ∧ (Function.update s.procs q p u).chan = (s.procs u).chan := by
    intro u hu
    by_cases huq : u = q
    · subst huq
      rw [Function.update_self] at hu ⊢
      rcases hstate with ⟨hs, hc⟩ | hs
      · exact ⟨hs ▸ hu, hc⟩
      · rw [hs] at hu
        cases hu
    · rw [Function.update_of_ne huq] at hu ⊢
      exact ⟨hu, rfl⟩
  refine ⟨h.held, h.holder, h.table, ?_, ?_, ?_, h.debt, ?_, h.queue⟩
  · intro u
    by_cases huq : u = q
    · subst huq
      simpa [hlocked] using h.locked u
    · simpa [huq] using h.locked u
  · intro u hb hu
    exact h.awake u hb (hback u hu).1
  · intro u ch hb hu
    exact (hback u hu).2.trans (h.asleep u ch hb (hback u hu).1)
  · rintro hab u ch (hu | ⟨hb, hu⟩)
    · exact h.waits hab u ch (.inl hu)
    · exact h.waits hab u ch (.inr ⟨hb, (hback u hu).1⟩)

end Inv
end Xv6Arm.Pipes

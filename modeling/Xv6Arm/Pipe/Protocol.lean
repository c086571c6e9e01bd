import Xv6Arm.Pipe.Model

/-!
# What each process knows about the pipe

A process that holds `pi->lock` knows the pipe and which sleepers it still has to
wake before it may release the lock. Every call of `pipe.c`, and `kill`, keeps to
the specification of the requests and ends with nothing held and nobody to wake;
a writer that gives up is let off.
-/
namespace Xv6Arm.Pipes
open Lib

/-- What a process has to find in order to go to sleep on a channel. -/
def Waits : Chan → Pipe → Prop
  | .nread, x => x.nread = x.nwrite ∧ x.writeopen = true
  | .nwrite, x => x.full = true ∧ x.readopen = true

inductive View where
  /-- Nothing is held. -/
  | out
  /-- `pi->lock` is held and the pipe is `x`; `r` and `w` say whether the sleepers on `nread` and on
  `nwrite` have to be woken. -/
  | hold (x : Pipe) (r w : Bool)
  /-- Inside `wakeup`, with the slots from `k` on to go. -/
  | wake (x : Pipe) (r w : Bool) (ch : Chan) (k : ℕ)
  /-- On the way to sleep, with `pi->lock` and `p->lock`. -/
  | drowse (x : Pipe) (ch : Chan)
  /-- On the way to sleep, with `p->lock` only. -/
  | doze (ch : Chan)
  | asleep (ch : Chan)

/-- What a request needs of the view of the process, and what it makes of it. -/
def pipeSpec (t : ℕ) : OpSpec pipeSig View
  | .acquire, K, v => t < NPROC ∧ v = .out ∧ ∀ x, K () (.hold x false false)
  | .release, K, v =>
    (∃ x, v = .hold x false false ∧ K () .out) ∨ ∃ x ch, v = .drowse x ch ∧ Waits ch x ∧ K () (.doze ch)
  | .get, K, v => ∃ x r w, v = .hold x r w ∧ K x v
  | .put c, K, v => ∃ x r w, v = .hold x r w ∧ x.full = false ∧ K () (.hold (put x c) true w)
  | .take, K, v => ∃ x r w, v = .hold x r w ∧ x.nread ≠ x.nwrite ∧ K (take x).1 (.hold (take x).2 r true)
  | .close b, K, v => ∃ x r w, v = .hold x r w ∧ K () (.hold (closeEnd x b) (r || b) (w || !b))
  | .killed, K, v => ∀ b, K b v
  | .lockSelf, K, v => ∃ x ch, v = .hold x false false ∧ K () (.drowse x ch)
  | .doze ch, K, v => v = .doze ch ∧ K () (.asleep ch)
  | .resume, K, v => ∃ ch, v = .asleep ch ∧ K () .out
  | .wakeOne ch q, K, v => ∃ x r w, v = .wake x r w ch q ∧ K () (.wake x r w ch (q + 1))
  | .killOne _ _, K, v => v = .out ∧ ∀ b, K b .out
  | .hang, _, _ => True
  | .wakeupCall ch, K, v => ∃ x r w, v = .hold x r w ∧ K () (.wake x r w ch 0)
  | .wakeupRet ch, K, v => ∃ x r w, v = .wake x r w ch NPROC ∧
      K () (.hold x (r && ch != .nread) (w && ch != .nwrite))
  | .giveUp, K, v => ∃ x r w, v = .hold x r w ∧ K () (.hold x false w)

theorem pipeSpec_mono (t : ℕ) : (pipeSpec t).Mono := by
  intro o K L v hKL h
  cases o with
  | acquire => exact ⟨h.1, h.2.1, fun x => hKL _ _ (h.2.2 x)⟩
  | release =>
    rcases h with ⟨x, hv, h⟩ | ⟨x, ch, hv, hw, h⟩
    · exact .inl ⟨x, hv, hKL _ _ h⟩
    · exact .inr ⟨x, ch, hv, hw, hKL _ _ h⟩
  | get | close b | wakeOne ch q | wakeupCall ch | wakeupRet ch | giveUp =>
    obtain ⟨x, r, w, hv, h⟩ := h
    exact ⟨x, r, w, hv, hKL _ _ h⟩
  | put c | take =>
    obtain ⟨x, r, w, hv, hx, h⟩ := h
    exact ⟨x, r, w, hv, hx, hKL _ _ h⟩
  | killed => exact fun b => hKL _ _ (h b)
  | lockSelf =>
    obtain ⟨x, ch, hv, h⟩ := h
    exact ⟨x, ch, hv, hKL _ _ h⟩
  | doze ch => exact ⟨h.1, hKL _ _ h.2⟩
  | resume =>
    obtain ⟨ch, hv, h⟩ := h
    exact ⟨ch, hv, hKL _ _ h⟩
  | killOne pid q => exact ⟨h.1, fun b => hKL _ _ (h.2 b)⟩
  | hang => trivial

/-! ## The code keeps to the specification -/

section
variable {α : Type} (t : ℕ)

/-- From view `v` the program keeps to the specification; `Q` holds if it returns. -/
abbrev Meets (p : PM α) (v : View) (Q : α → View → Prop) : Prop :=
  p.wp (pipeSpec t) Threads.anyPanic Q v

theorem meets_bind {β : Type} {p : PM α} {f : α → PM β} {v : View} {Q : β → View → Prop}
    (h : Meets t p v fun a w => Meets t (f a) w Q) : Meets t (p.bind f) v Q := by
  rw [Meets, Prog.wp_bind]
  exact h

variable {t}

theorem meets_req {o : Op} {f : o.Res → PM α} {v : View} {Q : α → View → Prop}
    (h : pipeSpec t o (fun r w => Meets t (f r) w Q) v) : Meets t (req o >>= f) v Q := h

theorem meets_get {f : Pipe → PM α} {x : Pipe} {r w : Bool} {Q : α → View → Prop}
    (h : Meets t (f x) (.hold x r w) Q) : Meets t (req .get >>= f) (.hold x r w) Q :=
  meets_req ⟨x, r, w, rfl, h⟩

theorem meets_killed {f : Bool → PM α} {v : View} {Q : α → View → Prop} (h : ∀ b, Meets t (f b) v Q) :
    Meets t (req .killed >>= f) v Q := meets_req h

theorem meets_take {f : UInt8 → PM α} {x : Pipe} {r w : Bool} {Q : α → View → Prop} (hx : x.nread ≠ x.nwrite)
    (h : Meets t (f (take x).1) (.hold (take x).2 r true) Q) : Meets t (req .take >>= f) (.hold x r w) Q :=
  meets_req ⟨x, r, w, rfl, hx, h⟩

theorem Meets.mono {p : PM α} {v : View} {P Q : α → View → Prop} (h : Meets t p v P)
    (hPQ : ∀ a w, P a w → Q a w) : Meets t p v Q :=
  Prog.wp_mono (pipeSpec_mono t) h hPQ

theorem wakeOnes_meets (x : Pipe) (r w : Bool) (ch : Chan) (n k : ℕ) :
    Meets t (Prog.each (fun q => req (.wakeOne ch q)) (List.range' k n)) (.wake x r w ch k)
      fun _ v => v = .wake x r w ch (k + n) := by
  induction n generalizing k with
  | zero => rfl
  | succ n ih =>
    refine ⟨x, r, w, rfl, ?_⟩
    have hk : k + (n + 1) = k + 1 + n := by omega
    rw [hk]
    exact ih (k + 1)

theorem wakeup_meets (x : Pipe) (r w : Bool) (ch : Chan) :
    Meets t (wakeup ch) (.hold x r w) fun _ v => v = .hold x (r && ch != .nread) (w && ch != .nwrite) := by
  refine meets_req ⟨x, r, w, rfl, ?_⟩
  apply meets_bind
  have hloop := wakeOnes_meets (t := t) x r w ch NPROC 0
  rw [← List.range_eq_range', Nat.zero_add] at hloop
  apply hloop.mono
  rintro - v rfl
  exact ⟨x, r, w, rfl, rfl⟩

/-- The process wakes up with the lock, and knows nothing about the pipe it finds. -/
theorem sleep_meets (ht : t < NPROC) (ch : Chan) {x : Pipe} (hx : Waits ch x) :
    Meets t (sleep ch) (.hold x false false) fun _ v => ∃ y, v = .hold y false false := by
  refine ⟨x, ch, rfl, .inr ⟨x, ch, rfl, hx, rfl, ch, rfl, ht, rfl, ?_⟩⟩
  intro y
  exact ⟨y, rfl⟩

theorem killFrom_meets (pid : ℤ) (l : List ℕ) : Meets t (killFrom pid l) .out fun _ v => v = .out := by
  induction l with
  | nil => rfl
  | cons q l ih =>
    refine ⟨rfl, ?_⟩
    intro b
    cases b with
    | true => rfl
    | false => exact ih

/-- A view with the lock in which only the sleepers on `nread` may have to be woken. -/
def Writing (v : View) : Prop := ∃ x r, v = .hold x r false

/-- The call goes on with the lock and room in the ring, or it has returned. -/
def RoomOrOut (b : Bool) (v : View) : Prop :=
  (b = true ∧ ∃ x r, v = .hold x r false ∧ x.full = false) ∨ (b = false ∧ v = .out)

theorem leave_meets {v : View} (hv : Writing v) : Meets t leave v RoomOrOut := by
  obtain ⟨x, r, rfl⟩ := hv
  exact ⟨x, r, false, rfl, .inl ⟨x, rfl, .inr ⟨rfl, rfl⟩⟩⟩

theorem waitRoom_meets (ht : t < NPROC) (fuel : ℕ) {v : View} (hv : Writing v) : Meets t (waitRoom fuel) v RoomOrOut := by
  induction fuel generalizing v with
  | zero => trivial
  | succ fuel ih =>
    obtain ⟨x, r, rfl⟩ := hv
    apply meets_get
    split
    · next hfull =>
      split
      · exact leave_meets ⟨x, r, rfl⟩
      · next hopen =>
        apply meets_killed
        intro b
        cases b with
        | true => exact leave_meets ⟨x, r, rfl⟩
        | false =>
          apply meets_bind
          apply (wakeup_meets x r false .nread).mono
          rintro - v rfl
          rw [show (r && Chan.nread != Chan.nread) = false by simp]
          apply meets_bind
          apply (sleep_meets ht .nwrite ⟨hfull, by simpa using hopen⟩).mono
          rintro - v ⟨y, rfl⟩
          exact ih ⟨y, false, rfl⟩
    · next hroom => exact .inl ⟨rfl, x, r, rfl, by simpa using hroom⟩

theorem writeDone_meets (i : ℕ) {v : View} (hv : Writing v) :
    Meets t (writeDone i) v fun _ v => v = .out := by
  obtain ⟨x, r, rfl⟩ := hv
  apply meets_bind
  apply (wakeup_meets x r false .nread).mono
  rintro - v rfl
  rw [show (r && Chan.nread != Chan.nread) = false by simp]
  exact .inl ⟨x, rfl, rfl⟩

theorem pipewriteFrom_meets (ht : t < NPROC) (fuel : ℕ) (src : ℕ → Option UInt8) (n i : ℕ) {v : View} (hv : Writing v) :
    Meets t (pipewriteFrom fuel src n i) v fun _ v => v = .out := by
  induction n generalizing i v with
  | zero => exact writeDone_meets i hv
  | succ n ih =>
    apply meets_bind
    apply (waitRoom_meets ht fuel hv).mono
    rintro b v (⟨rfl, x, r, rfl, hroom⟩ | ⟨rfl, rfl⟩)
    · rw [if_pos rfl]
      cases src i with
      | none => exact writeDone_meets i ⟨x, r, rfl⟩
      | some c => exact ⟨x, r, false, rfl, hroom, ih (i + 1) ⟨put x c, true, rfl⟩⟩
    · rfl

theorem pipewrite_meets (ht : t < NPROC) (fuel : ℕ) (src : ℕ → Option UInt8) (n : ℤ) :
    Meets t (pipewrite fuel src n) .out fun _ v => v = .out := by
  refine ⟨ht, rfl, ?_⟩
  intro x
  exact pipewriteFrom_meets ht fuel src n.toNat 0 ⟨x, false, rfl⟩

theorem waitData_meets (ht : t < NPROC) (fuel : ℕ) (x : Pipe) :
    Meets t (waitData fuel) (.hold x false false) fun b v =>
      (b = true ∧ ∃ x, v = .hold x false false) ∨ (b = false ∧ v = .out) := by
  induction fuel generalizing x with
  | zero => trivial
  | succ fuel ih =>
    apply meets_get
    split
    · next hx =>
      apply meets_killed
      intro b
      cases b with
      | true => exact .inl ⟨x, rfl, .inr ⟨rfl, rfl⟩⟩
      | false =>
        apply meets_bind
        apply (sleep_meets ht .nread (by simpa [Waits] using hx)).mono
        rintro - v ⟨y, rfl⟩
        exact ih y
    · exact .inl ⟨rfl, x, rfl⟩

theorem readDone_meets (i : ℕ) (x : Pipe) (w : Bool) :
    Meets t (readDone i) (.hold x false w) fun _ v => v = .out := by
  apply meets_bind
  apply (wakeup_meets x false w .nwrite).mono
  rintro - v rfl
  rw [show (w && Chan.nwrite != Chan.nwrite) = false by simp]
  exact .inl ⟨x, rfl, rfl⟩

theorem pipereadFrom_meets (dst : ℕ → Bool) (n i : ℕ) (x : Pipe) (w : Bool) :
    Meets t (pipereadFrom dst n i) (.hold x false w) fun _ v => v = .out := by
  induction n generalizing i x w with
  | zero => exact readDone_meets i x w
  | succ n ih =>
    apply meets_get
    split
    · exact readDone_meets i x w
    · next hx =>
      apply meets_take (by simpa using hx)
      split
      · exact ih (i + 1) _ true
      · exact readDone_meets i _ true

theorem piperead_meets (ht : t < NPROC) (fuel : ℕ) (dst : ℕ → Bool) (n : ℤ) :
    Meets t (piperead fuel dst n) .out fun _ v => v = .out := by
  refine meets_req ⟨ht, rfl, ?_⟩
  intro x
  apply meets_bind
  apply (waitData_meets ht fuel x).mono
  rintro b v (⟨rfl, y, rfl⟩ | ⟨rfl, rfl⟩)
  · exact pipereadFrom_meets dst n.toNat 0 y false
  · rfl

theorem pipeclose_meets (ht : t < NPROC) (writable : Bool) : Meets t (pipeclose writable) .out fun _ v => v = .out := by
  refine meets_req ⟨ht, rfl, ?_⟩
  intro x
  refine meets_req ⟨x, false, false, rfl, ?_⟩
  cases writable with
  | true =>
    apply meets_bind
    apply (wakeup_meets _ true false .nread).mono
    rintro - v rfl
    exact .inl ⟨_, rfl, rfl⟩
  | false =>
    apply meets_bind
    apply (wakeup_meets _ false true .nwrite).mono
    rintro - v rfl
    exact .inl ⟨_, rfl, rfl⟩

/-- Every call starts and ends with nothing held. -/
theorem Call.meets (ht : t < NPROC) {p : PM Unit} (h : Call p) : Meets t p .out fun _ v => v = .out := by
  cases h with
  | write fuel src n =>
    apply meets_bind
    exact pipewrite_meets ht fuel src n
  | read fuel dst n =>
    apply meets_bind
    exact piperead_meets ht fuel dst n
  | close writable => exact pipeclose_meets ht writable
  | kill pid =>
    apply meets_bind
    exact killFrom_meets pid _

end
end Xv6Arm.Pipes

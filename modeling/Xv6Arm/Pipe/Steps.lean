import Xv6Arm.Pipe.Invariant

/-!
# Each request at a pipe keeps the invariant

One lemma for each request, with the change it makes to what the process knows. A
request is either about a lock and the process's own entry in the table, or the
process holds `pi->lock` and changes the pipe or the list of those it has to wake.
-/
namespace Xv6Arm.Pipes
open Lib

namespace Inv
variable {vs : ℕ → View} {s : PipeSys} {t : ℕ}

/-! ## Requests that take or give up a lock -/

theorem acquire (h : Inv vs s) (ht : t < NPROC) (hv : vs t = .out) (hl : s.pipe.lock = none) :
    Inv (Function.update vs t (.hold { s.pipe with lock := some t } false false))
      { s with pipe.lock := some t } := by
  rw [← Function.update_eq_self t s.procs]
  apply h.update_self ht
  · exact .inr ⟨.inl hl, .inl ⟨rfl, rfl⟩⟩
  · rw [h.locked t, hv]
    rfl
  · exact fun _ => h.awake t (by rw [hv]; rfl)
  · rintro ch ⟨⟩
  · rw [hv]
    rfl
  · rw [hv]
    rintro ch q ⟨⟩
  · rintro ch (hs | ⟨hs, -⟩) <;> cases hs

/-- `release(&pi->lock)` at the end of a call. -/
theorem release (h : Inv vs s) {x : Pipe} (hv : vs t = .hold x false false) :
    Inv (Function.update vs t .out) { s with pipe.lock := none } := by
  obtain ⟨rfl, hl⟩ := h.held t x (by rw [hv]; rfl)
  rw [← Function.update_eq_self t s.procs]
  apply h.update_self (h.lt_NPROC (by rw [hv]; rintro ⟨⟩))
  · exact .inr ⟨.inr hl, .inr ⟨rfl, rfl⟩⟩
  · rw [h.locked t, hv]
    rfl
  · exact fun _ => h.awake t (by rw [hv]; rfl)
  · rintro ch ⟨⟩
  · rw [hv]
    rfl
  · rw [hv]
    rintro (_ | _) q ⟨⟩
  · rintro ch (hs | ⟨hs, -⟩) <;> cases hs

theorem lockSelf (h : Inv vs s) {x : Pipe} (ch : Chan) (hv : vs t = .hold x false false) :
    Inv (Function.update vs t (.drowse x ch)) (s.setProc t fun p => { p with locked := true }) := by
  obtain ⟨rfl, hl⟩ := h.held t x (by rw [hv]; rfl)
  apply h.update_self (l := s.pipe.lock) (h.lt_NPROC (by rw [hv]; rintro ⟨⟩))
  · exact .inl ⟨rfl, by rw [hv]; rfl⟩
  · rfl
  · exact fun _ => h.awake t (by rw [hv]; rfl)
  · rintro ch ⟨⟩
  · rw [hv]
    rfl
  · rw [hv]
    rintro (_ | _) q ⟨⟩
  · rintro ch (hs | ⟨hs, -⟩) <;> cases hs

/-- `release(lk)` in `sleep`, for which there has to be a reason. -/
theorem releaseSleep (h : Inv vs s) {x : Pipe} {ch : Chan} (hv : vs t = .drowse x ch) (hx : Waits ch x) :
    Inv (Function.update vs t (.doze ch)) { s with pipe.lock := none } := by
  obtain ⟨rfl, hl⟩ := h.held t x (by rw [hv]; rfl)
  rw [← Function.update_eq_self t s.procs]
  apply h.update_self (h.lt_NPROC (by rw [hv]; rintro ⟨⟩))
  · exact .inr ⟨.inr hl, .inr ⟨rfl, rfl⟩⟩
  · rw [h.locked t, hv]
    rfl
  · exact fun _ => h.awake t (by rw [hv]; rfl)
  · rintro ch ⟨⟩
  · rw [hv]
    rfl
  · rw [hv]
    rintro ch q ⟨⟩
  · rintro ch (hs | ⟨hs, -⟩) <;> cases hs
    exact .inl hx

theorem doze (h : Inv vs s) {ch : Chan} (hv : vs t = .doze ch) :
    Inv (Function.update vs t (.asleep ch))
      (s.setProc t fun p => { p with chan := some ch, state := .sleeping, locked := false }) := by
  apply h.update_self (l := s.pipe.lock) (h.lt_NPROC (by rw [hv]; rintro ⟨⟩))
  · exact .inl ⟨rfl, by rw [hv]; rfl⟩
  · rfl
  · rintro ⟨⟩
  · rintro ch ⟨⟩ -
    rfl
  · rw [hv]
    rfl
  · rw [hv]
    rintro ch q ⟨⟩
  · rintro ch (hs | ⟨hs, -⟩) <;> cases hs
    exact .inr (.inl hv)

theorem resume (h : Inv vs s) {ch : Chan} (hv : vs t = .asleep ch) :
    Inv (Function.update vs t .out) (s.setProc t fun p => { p with state := .running, chan := none }) := by
  apply h.update_self (l := s.pipe.lock) (h.lt_NPROC (by rw [hv]; rintro ⟨⟩))
  · exact .inl ⟨rfl, by rw [hv]; rfl⟩
  · change (s.procs t).locked = _
    rw [h.locked t, hv]
    rfl
  · rintro - ⟨⟩
  · rintro ch ⟨⟩
  · rw [hv]
    rfl
  · rw [hv]
    rintro ch q ⟨⟩
  · rintro ch (hs | ⟨hs, -⟩) <;> cases hs

/-! ## Requests of the process that holds `pi->lock` -/

theorem put (h : Inv vs s) {x : Pipe} {r w : Bool} (hv : vs t = .hold x r w) (hx : x.full = false) (c : UInt8) :
    Inv (Function.update vs t (.hold (put x c) true w))
      ({ s with pipe := Pipes.put s.pipe c, written := s.written ++ [c] }.setOwing t true) := by
  obtain ⟨rfl, hl⟩ := h.held t x (by rw [hv]; rfl)
  obtain ⟨xs, hxs, hw⟩ := h.queue
  have hroom : xs.length ≠ PIPESIZE := by
    intro hlen
    rw [Pipe.full, beq_eq_false_iff_ne] at hx
    exact hx ((hxs.full_iff (by decide)).mpr hlen)
  refine h.update_pipe s.pipe (Pipes.put s.pipe c) (by rw [hv]; rfl) (by rw [hv]; rfl) rfl rfl hl rfl rfl ?_ ?_ ?_ ?_
  · intro u
    exact Function.update_apply s.owing t true u
  · exact id
  · rintro - q - ch - (hw | ho)
    · cases ch with
      | nread => exact .inr rfl
      | nwrite => exact absurd hw.1 (by rw [hx]; decide)
    · rw [hv] at ho
      cases ch with
      | nread => exact .inr rfl
      | nwrite => exact .inr ho
  · refine ⟨xs ++ [c], hxs.put (by decide) hroom c, ?_⟩
    change s.written ++ [c] = s.taken ++ (xs ++ [c])
    rw [hw, List.append_assoc]

theorem take (h : Inv vs s) {x : Pipe} {r w : Bool} (hv : vs t = .hold x r w) (hx : x.nread ≠ x.nwrite) :
    Inv (Function.update vs t (.hold (take x).2 r true))
      { s with pipe := (Pipes.take s.pipe).2, taken := s.taken ++ [(Pipes.take s.pipe).1] } := by
  obtain ⟨rfl, hl⟩ := h.held t x (by rw [hv]; rfl)
  obtain ⟨xs, hxs, hw⟩ := h.queue
  cases xs with
  | nil => exact absurd ((hxs.empty_iff (by decide)).mpr rfl) hx
  | cons c xs =>
    obtain ⟨hc, hrest⟩ := hxs.take (by decide)
    refine h.update_pipe s.pipe (Pipes.take s.pipe).2 (by rw [hv]; rfl) (by rw [hv]; rfl) rfl rfl hl rfl rfl
      ?_ ?_ ?_ ?_
    · intro u
      split
      · next hu => rw [hu, h.debt t, hv]; rfl
      · rfl
    · exact id
    · rintro - q - ch - (hw | ho)
      · cases ch with
        | nread => exact absurd hw.1 hx
        | nwrite => exact .inr rfl
      · rw [hv] at ho
        cases ch with
        | nread => exact .inr ho
        | nwrite => exact .inr rfl
    · refine ⟨xs, hrest, ?_⟩
      change s.written = s.taken ++ [s.pipe.data (s.pipe.nread % PIPESIZE)] ++ xs
      rw [hw, hc, List.append_assoc]
      rfl

theorem close (h : Inv vs s) {x : Pipe} {r w : Bool} (hv : vs t = .hold x r w) (b : Bool) :
    Inv (Function.update vs t (.hold (closeEnd x b) (r || b) (w || !b)))
      ({ s with pipe := closeEnd s.pipe b }.setOwing t (s.owing t || b)) := by
  obtain ⟨rfl, hl⟩ := h.held t x (by rw [hv]; rfl)
  refine h.update_pipe s.pipe (closeEnd s.pipe b) (by rw [hv]; rfl) (by rw [hv]; rfl) rfl rfl
    (by cases b <;> exact hl) rfl rfl ?_ ?_ ?_ ?_
  · intro u
    change Function.update s.owing t (s.owing t || b) u = _
    rw [Function.update_apply, h.debt t, hv]
    rfl
  · exact id
  · rintro - q - ch - (hw | ho)
    · cases b <;> cases ch <;> first | exact .inl hw | exact .inr (Bool.or_true _)
    · rw [hv] at ho
      right
      cases ch with
      | nread => exact Bool.or_eq_true_iff.mpr (.inl ho)
      | nwrite => exact Bool.or_eq_true_iff.mpr (.inl ho)
  · cases b <;> exact h.queue

theorem wakeupCall (h : Inv vs s) {x : Pipe} {r w : Bool} (hv : vs t = .hold x r w) (ch : Chan) :
    Inv (Function.update vs t (.wake x r w ch 0)) s := by
  obtain ⟨rfl, hl⟩ := h.held t x (by rw [hv]; rfl)
  refine h.update_pipe s.pipe s.pipe (by rw [hv]; rfl) (by rw [hv]; rfl) rfl rfl hl rfl rfl ?_ ?_ ?_ ?_
  · intro u
    split
    · next hu => rw [hu, h.debt t, hv]; rfl
    · rfl
  · exact id
  · rintro - q - ch' - (hw | ho)
    · exact .inl hw
    · rw [hv] at ho
      exact .inr ⟨ho, fun _ => Nat.zero_le q⟩
  · exact h.queue

/-- All slots have been visited. -/
theorem wakeupRet (h : Inv vs s) {x : Pipe} {r w : Bool} {ch : Chan} (hv : vs t = .wake x r w ch NPROC) :
    Inv (Function.update vs t (.hold x (r && ch != .nread) (w && ch != .nwrite)))
      (if ch = .nread then s.setOwing t false else s) := by
  obtain ⟨rfl, hl⟩ := h.held t x (by rw [hv]; rfl)
  refine h.update_pipe s.pipe s.pipe (by rw [hv]; rfl) (by rw [hv]; rfl) rfl rfl hl ?_ ?_ ?_ ?_ ?_ ?_
  · split <;> rfl
  · split <;> rfl
  · intro u
    have hdebt := h.debt t
    rw [hv] at hdebt
    cases ch with
    | nread => simp [PipeSys.setOwing, Function.update_apply, View.debt]
    | nwrite =>
      rw [if_neg (by decide)]
      split
      · next hu => simpa [hu, View.debt, show (Chan.nwrite != Chan.nread) = true from rfl] using hdebt
      · rfl
  · split <;> exact id
  · rintro - q hq ch' - (hw | ho)
    · exact .inl hw
    · rw [hv] at ho
      obtain ⟨ho, hk⟩ := ho
      have hne : ch' ≠ ch := fun he => absurd (hk he) (Nat.not_le.mpr hq)
      right
      cases ch <;> cases ch' <;> first | exact absurd rfl hne | simpa [View.Owes, View.owed] using ho
  · split <;> exact h.queue

theorem giveUp (h : Inv vs s) {x : Pipe} {r w : Bool} (hv : vs t = .hold x r w) :
    Inv (Function.update vs t (.hold x false w))
      ({ s with abandoned := s.abandoned || s.owing t }.setOwing t false) := by
  obtain ⟨rfl, hl⟩ := h.held t x (by rw [hv]; rfl)
  have hdebt := h.debt t
  rw [hv] at hdebt
  refine h.update_pipe s.pipe s.pipe (by rw [hv]; rfl) (by rw [hv]; rfl) rfl rfl hl rfl rfl ?_ ?_ ?_ ?_
  · intro u
    exact Function.update_apply s.owing t false u
  · intro hab
    exact (Bool.or_eq_false_iff.mp hab).1
  · rintro hab q - ch - (hw | ho)
    · exact .inl hw
    · rw [hv] at ho
      cases ch with
      | nread =>
        have hr : r = false := hdebt.symm.trans (Bool.or_eq_false_iff.mp hab).2
        rw [hr] at ho
        cases ho
      | nwrite => exact .inr ho
  · exact h.queue

/-- One slot has been visited, and whoever slept there on `ch` does not sleep any more. -/
theorem wakeOne (h : Inv vs s) {x : Pipe} {r w : Bool} {ch : Chan} {k : ℕ} (hv : vs t = .wake x r w ch k)
    (hk : ¬ Sleeps (vs k) (s.procs k) ch) : Inv (Function.update vs t (.wake x r w ch (k + 1))) s := by
  obtain ⟨rfl, hl⟩ := h.held t x (by rw [hv]; rfl)
  refine h.update_pipe s.pipe s.pipe (by rw [hv]; rfl) (by rw [hv]; rfl) rfl rfl hl rfl rfl ?_ ?_ ?_ ?_
  · intro u
    split
    · next hu => rw [hu, h.debt t, hv]; rfl
    · rfl
  · exact id
  · rintro - q - ch' hq (hw | ho)
    · exact .inl hw
    · rw [hv] at ho
      refine .inr ⟨ho.1, ?_⟩
      rintro rfl
      have hle := ho.2 rfl
      have hne : k ≠ q := by
        rintro rfl
        exact hk hq
      omega
  · exact h.queue

/-- After the body of the loop of `wakeup`, the process in the slot does not sleep on the channel. -/
theorem not_sleeps_of_unlocked (h : Inv vs s) {q : ℕ} {ch : Chan} (hlocked : (s.procs q).locked = false)
    (hq : ¬ ((s.procs q).state = .sleeping ∧ (s.procs q).chan = some ch)) :
    ¬ Sleeps (vs q) (s.procs q) ch := by
  rintro (hs | ⟨hb, hs⟩)
  · rw [h.locked q, hs] at hlocked
    cases hlocked
  · exact hq ⟨hs, h.asleep q ch hb hs⟩

end Inv

end Xv6Arm.Pipes

import Xv6Arm.Pipe.Steps

/-!
# Every run of the processes at a pipe

The invariant holds in every state of every run: the pipe is a bounded queue, and
whoever sleeps has a reason to, as long as no writer has returned from inside the
loop of `pipewrite` between putting bytes into the ring and waking the readers.
-/
namespace Xv6Arm.Pipes
open Lib

theorem pipe_conforms : pipeThreads.Conforms pipeSpec (fun _ v => v = .out) Inv := by
  intro t o K vs s r s' h hspec hr
  -- Only the view of the process itself changes.
  suffices hv : ∃ v, Inv (Function.update vs t v) s' ∧ K r v by
    obtain ⟨v, hinv, hK⟩ := hv
    refine ⟨Function.update vs t v, hinv, ?_, ?_⟩
    · change K r (Function.update vs t v t)
      rwa [Function.update_self]
    · intro u hu
      change Function.update vs t v u = vs u
      exact Function.update_of_ne hu v vs
  change pipeSpec t o K (vs t) at hspec
  change pipeStep t o s = .done r s' at hr
  cases o with
  | acquire =>
    obtain ⟨ht, hv, hK⟩ := hspec
    rw [pipeStep] at hr
    split at hr
    · next hl =>
      cases hr
      exact ⟨_, h.acquire ht hv hl, hK _⟩
    · cases hr
  | release =>
    cases hr
    rcases hspec with ⟨x, hv, hK⟩ | ⟨x, ch, hv, hx, hK⟩
    · exact ⟨_, h.release hv, hK⟩
    · exact ⟨_, h.releaseSleep hv hx, hK⟩
  | get =>
    obtain ⟨x, r, w, hv, hK⟩ := hspec
    cases hr
    obtain ⟨rfl, -⟩ := h.held t x (by rw [hv]; rfl)
    exact ⟨vs t, by rwa [Function.update_eq_self], hK⟩
  | put c =>
    obtain ⟨x, r, w, hv, hx, hK⟩ := hspec
    cases hr
    exact ⟨_, h.put hv hx c, hK⟩
  | take =>
    obtain ⟨x, r, w, hv, hx, hK⟩ := hspec
    cases hr
    obtain ⟨rfl, -⟩ := h.held t x (by rw [hv]; rfl)
    exact ⟨_, h.take hv hx, hK⟩
  | close b =>
    obtain ⟨x, r, w, hv, hK⟩ := hspec
    cases hr
    exact ⟨_, h.close hv b, hK⟩
  | killed =>
    cases hr
    exact ⟨vs t, by rwa [Function.update_eq_self], hspec _⟩
  | lockSelf =>
    obtain ⟨x, ch, hv, hK⟩ := hspec
    cases hr
    exact ⟨_, h.lockSelf ch hv, hK⟩
  | doze ch =>
    cases hr
    exact ⟨_, h.doze hspec.1, hspec.2⟩
  | resume =>
    obtain ⟨ch, hv, hK⟩ := hspec
    rw [pipeStep] at hr
    split at hr
    · cases hr
      exact ⟨_, h.resume hv, hK⟩
    · cases hr
  | wakeOne ch q =>
    obtain ⟨x, r, w, hv, hK⟩ := hspec
    rw [pipeStep] at hr
    split at hr
    · cases hr
    · next hlocked =>
      refine ⟨_, ?_, hK⟩
      split at hr
      · cases hr
        have hwoken := h.update_other (q := q) (p := (s.procs q).wake) rfl (.inr rfl)
        refine hwoken.wakeOne hv (hwoken.not_sleeps_of_unlocked ?_ ?_)
        · simpa [PProc.wake] using hlocked
        · simp [PProc.wake]
      · next hq =>
        cases hr
        exact h.wakeOne hv (h.not_sleeps_of_unlocked (by simpa using hlocked) hq)
  | killOne pid q =>
    obtain ⟨hv, hK⟩ := hspec
    rw [pipeStep] at hr
    split at hr
    · cases hr
    · refine ⟨.out, ?_, hK _⟩
      rw [← hv, Function.update_eq_self]
      split at hr
      · cases hr
        apply h.update_other
        · dsimp only
          split <;> rfl
        · dsimp only
          split
          · exact .inr rfl
          · exact .inl ⟨rfl, rfl⟩
      · cases hr
        exact h
  | hang => cases hr
  | wakeupCall ch =>
    obtain ⟨x, r, w, hv, hK⟩ := hspec
    cases hr
    exact ⟨_, h.wakeupCall hv ch, hK⟩
  | wakeupRet ch =>
    obtain ⟨x, r, w, hv, hK⟩ := hspec
    cases hr
    exact ⟨_, h.wakeupRet hv, hK⟩
  | giveUp =>
    obtain ⟨x, r, w, hv, hK⟩ := hspec
    cases hr
    exact ⟨_, h.giveUp hv, hK⟩

/-- A process that starts a call holds nothing. -/
theorem pipe_absorbs : pipeThreads.Absorbs pipeSpec (fun _ v => v = .out) Inv := by
  rintro t vs s s' p p' h ⟨ht, rfl, rfl, hcall⟩ hkeep
  refine ⟨vs t, ?_, ?_⟩
  · change Inv (Function.update vs t (vs t)) s'
    rwa [Function.update_eq_self]
  · change Meets t p' (vs t) _
    rw [show vs t = .out from hkeep]
    exact hcall.meets ht

theorem Fresh.inv {C : Threads.Config pipeSig PipeSys ℕ} (h : Fresh C) : Inv (fun _ => .out) C.shared where
  held := by rintro t x ⟨⟩
  holder := by
    intro t ht
    rw [h.lock] at ht
    cases ht
  table _ _ := rfl
  locked t := (h.running t).2
  awake t _ := (h.running t).1
  asleep := by rintro t ch ⟨⟩
  debt t := h.owing t
  waits := by rintro - q ch (hs | ⟨hs, -⟩) <;> cases hs
  queue := ⟨[], by rw [h.nread, h.nwrite]; exact Ring.holds_nil (by decide), by rw [h.written, h.taken]; rfl⟩

theorem PipeReachable.inv {C : Threads.Config pipeSig PipeSys ℕ} (h : PipeReachable C) :
    ∃ vs, Inv vs C.shared := by
  have hsafe := h.safe pipe_conforms pipe_absorbs fun C hC =>
    ⟨fun _ => .out, hC.inv, fun t => by rw [hC.idle t]; rfl⟩
  obtain ⟨vs, hinv, -⟩ := hsafe
  exact ⟨vs, hinv⟩

/-- The bytes in the ring, the oldest first. -/
def ringBytes (x : Pipe) : List UInt8 := Ring.contents PIPESIZE (2 ^ 32) x.data x.nread x.nwrite

/-- `pi->nwrite - pi->nread` on unsigned words. -/
def fill (x : Pipe) : ℕ := Ring.count (2 ^ 32) x.nread x.nwrite

/-! ## The pipe as a queue -/

/-- A pipe is a bounded queue, also after its counters have wrapped. -/
theorem pipe_fifo (C : Threads.Config pipeSig PipeSys ℕ) (h : PipeReachable C) :
    C.shared.written = C.shared.taken ++ ringBytes C.shared.pipe ∧
      (ringBytes C.shared.pipe).length = fill C.shared.pipe ∧ fill C.shared.pipe ≤ PIPESIZE := by
  obtain ⟨vs, hinv⟩ := h.inv
  obtain ⟨xs, hxs, hw⟩ := hinv.queue
  have hbytes : ringBytes C.shared.pipe = xs := hxs.contents_eq (by decide)
  have hfill : fill C.shared.pipe = xs.length := hxs.count_eq (by decide)
  rw [hbytes, hfill]
  exact ⟨hw, rfl, hxs.fits⟩

/-- Process `t` starts a call. -/
def starting (C : Threads.Config pipeSig PipeSys ℕ) (t : ℕ) (p : PM Unit) : Threads.Config pipeSig PipeSys ℕ :=
  ⟨C.shared, Function.update C.thread t p⟩

theorem PipeReachable.starting {C : Threads.Config pipeSig PipeSys ℕ} (h : PipeReachable C) {t : ℕ} {p : PM Unit}
    (ht : t < NPROC) (hidle : Threads.idle (C.thread t) = true) (hp : Call p) :
    PipeReachable (Pipes.starting C t p) :=
  h.step (.event ⟨ht, Threads.eq_ret_of_idle hidle, rfl, hp⟩)

/-- A new pipe; the process in slot `q` has the pid `q + 1`. -/
def freshPipe : Threads.Config pipeSig PipeSys ℕ where
  shared :=
    { pipe := ⟨none, fun _ => 0, 0, 0, true, true⟩
      procs := fun q => ⟨q + 1, .running, none, false, false⟩
      written := []
      taken := []
      owing := fun _ => false
      abandoned := false }
  thread _ := .ret ()

theorem freshPipe_fresh : Fresh freshPipe where
  lock := rfl
  nread := rfl
  nwrite := rfl
  readopen := rfl
  writeopen := rfl
  written := rfl
  taken := rfl
  owing _ := rfl
  abandoned := rfl
  running _ := ⟨by rintro ⟨⟩, rfl⟩
  idle _ := rfl

/-- Process 1 writes two bytes, and process 0 has read the first of them. -/
def halfRead : Threads.Config pipeSig PipeSys ℕ :=
  pipeThreads.ahead 0 4 (starting
    (pipeThreads.ahead 1 80 (starting freshPipe 1 ((pipewrite 1 (fun i => some (7 + i.toUInt8)) 2).bind fun _ => .ret ())))
    0 ((piperead 1 (fun _ => true) 2).bind fun _ => .ret ()))

theorem halfRead_reachable : PipeReachable halfRead := by
  apply Threads.Reachable.ahead
  apply PipeReachable.starting _ (by decide) (by decide +kernel) (.read _ _ _)
  apply Threads.Reachable.ahead
  exact PipeReachable.starting (.init freshPipe_fresh) (by decide) rfl (.write _ _ _)

theorem pipe_fifo_half_read :
    halfRead.shared.taken = [7] ∧ halfRead.shared.written = [7] ++ ringBytes halfRead.shared.pipe := by
  have htaken : halfRead.shared.taken = [7] := by decide +kernel
  refine ⟨htaken, ?_⟩
  rw [← htaken]
  exact (pipe_fifo halfRead halfRead_reachable).1

/-! ## Sleepers -/

/-- Nobody sleeps at the pipe without a reason, unless a writer has left it with a wakeup owing. -/
theorem pipe_sleepers (C : Threads.Config pipeSig PipeSys ℕ) (h : PipeReachable C)
    (hab : C.shared.abandoned = false) (hlock : C.shared.pipe.lock = none) (q : ℕ) (ch : Chan)
    (hq : (C.shared.procs q).state = .sleeping ∧ (C.shared.procs q).chan = some ch) :
    Waits ch C.shared.pipe := by
  obtain ⟨vs, hinv⟩ := h.inv
  have hsleeps : Sleeps (vs q) (C.shared.procs q) ch := by
    cases hb : (vs q).bed with
    | none => exact absurd hq.1 (hinv.awake q hb)
    | some c =>
      have hc := hinv.asleep q c hb hq.1
      rw [hq.2] at hc
      cases hc
      exact .inr ⟨hb, hq.1⟩
  rcases hinv.waits hab q ch hsleeps with hw | ⟨t, ht, -⟩
  · exact hw
  · rw [hlock] at ht
    cases ht

/-- Process 0 has gone to sleep on the empty pipe. -/
def readerAsleep : Threads.Config pipeSig PipeSys ℕ :=
  pipeThreads.ahead 0 6 (starting freshPipe 0 ((piperead 1 (fun _ => true) 1).bind fun _ => .ret ()))

theorem readerAsleep_reachable : PipeReachable readerAsleep := by
  apply Threads.Reachable.ahead
  exact PipeReachable.starting (.init freshPipe_fresh) (by decide) rfl (.read _ _ _)

theorem pipe_sleepers_reader_asleep : Waits .nread readerAsleep.shared.pipe :=
  pipe_sleepers readerAsleep readerAsleep_reachable (by decide +kernel) (by decide +kernel) 0 .nread
    (by decide +kernel)

/-- Process 1 fills the ring in one call for 513 bytes; process 2 kills it before it looks again. -/
def writerKilled : Threads.Config pipeSig PipeSys ℕ :=
  pipeThreads.ahead 2 2 (starting
    (pipeThreads.ahead 1 1025
      (starting readerAsleep 1 ((pipewrite 1 (fun _ => some 0) 513).bind fun _ => .ret ())))
    2 ((kill 2).bind fun _ => .ret ()))

/-- The reader sleeps on although the ring is full, and the lock is free. -/
theorem killed_writer_leaves_reader_asleep :
    ∃ C, PipeReachable C ∧ C.shared.pipe.lock = none ∧ (C.shared.procs 0).state = .sleeping ∧
      (C.shared.procs 0).chan = some .nread ∧ C.shared.pipe.nread = 0 ∧ C.shared.pipe.nwrite = 512 := by
  refine ⟨pipeThreads.ahead 1 4 writerKilled, ?_, ?_⟩
  · apply Threads.Reachable.ahead
    apply Threads.Reachable.ahead
    apply PipeReachable.starting _ (by decide) (by decide +kernel) (.kill _)
    apply Threads.Reachable.ahead
    exact PipeReachable.starting readerAsleep_reachable (by decide) (by decide +kernel) (.write _ _ _)
  · decide +kernel

end Xv6Arm.Pipes

import Xv6Arm.Virtio.Safety

/-!
# The disk driver does not get stuck

Whenever a call is in progress, some thread can go on, or the device has something
to do, or its interrupt is waiting to be taken. So no wakeup, no interrupt and no
notification is ever lost. Only a thread inside a critical section can stop for
good: in a panic, or in a loop that has used up the turns it was given.
-/
namespace Xv6Arm.Virtio
open Lib

/-! ## The code does not stop by itself -/

theorem steady_req (o : Op) : (req o).Steady := fun _ => trivial

theorem steady_allocFrom (n i : ℕ) : (allocFrom n i).Steady := by
  induction n generalizing i with
  | zero => trivial
  | succ n ih =>
    apply (steady_req .disk).bind
    intro d
    split
    · exact (steady_req _).bind fun _ => trivial
    · exact ih (i + 1)

theorem steady_freeDesc (i : ℕ) : (freeDesc i).Steady := by
  rw [freeDesc]
  split
  · exact steady_req _
  · apply (steady_req .disk).bind
    intro d
    split
    · exact steady_req _
    · exact fun _ _ _ _ _ _ => trivial

theorem steady_alloc3Desc : alloc3Desc.Steady := by
  apply (steady_allocFrom NUM 0).bind
  intro i
  cases i with
  | none => trivial
  | some i =>
    apply (steady_allocFrom NUM 0).bind
    intro j
    cases j with
    | none => exact (steady_freeDesc i).bind fun _ => trivial
    | some j =>
      apply (steady_allocFrom NUM 0).bind
      intro k
      cases k with
      | none => exact (steady_freeDesc i).bind fun _ => (steady_freeDesc j).bind fun _ => trivial
      | some k => trivial

theorem steady_allocLoop (fuel : ℕ) : (allocLoop fuel).Steady := by
  induction fuel with
  | zero => exact fun _ => trivial
  | succ fuel ih =>
    apply steady_alloc3Desc.bind
    intro res
    cases res with
    | none => exact fun _ _ => ih
    | some idx => trivial

theorem steady_format (b : ℕ) (write : Bool) (sector i j k : ℕ) : (format b write sector i j k).Steady := by
  have hhead : (formatHead write sector i j).Steady := fun _ _ _ _ _ _ _ => trivial
  have hbody : (formatBody b write j k).Steady := by
    cases write with
    | true => exact fun _ _ _ _ => trivial
    | false => exact fun _ _ _ _ _ _ => trivial
  have htail : (formatTail i k).Steady := fun _ _ _ _ _ => trivial
  exact hhead.bind fun _ => hbody.bind fun _ => htail.bind fun _ _ _ => trivial

theorem steady_freeChain (fuel i : ℕ) : (freeChain fuel i).Steady := by
  induction fuel generalizing i with
  | zero => exact steady_req _
  | succ fuel ih =>
    apply (steady_req .disk).bind
    intro d
    apply (steady_req .disk).bind
    intro d'
    apply (steady_freeDesc i).bind
    intro _
    split
    · exact ih _
    · trivial

theorem steady_waitLoop (b fuel : ℕ) : (waitLoop b fuel).Steady := by
  induction fuel with
  | zero => exact steady_req _
  | succ fuel ih =>
    apply (steady_req .disk).bind
    intro d
    split
    · exact fun _ _ => ih
    · trivial

theorem steady_virtioDiskRw (fuel b : ℕ) (write : Bool) : (virtioDiskRw fuel b write).Steady := by
  intro n _
  apply (steady_allocLoop fuel).bind
  rintro ⟨i, j, k⟩
  apply (steady_format b write (sectorOf n) i j k).bind
  intro _ _ _ _ _ _
  apply (steady_waitLoop b fuel).bind
  intro _ _
  apply (steady_freeChain NUM i).bind
  intro _ _ _
  trivial

theorem steady_intrLoop (fuel : ℕ) : (intrLoop fuel).Steady := by
  induction fuel with
  | zero => exact steady_req _
  | succ fuel ih =>
    apply (steady_req .disk).bind
    intro d
    apply (steady_req .usedIdx).bind
    intro u
    split
    · apply (steady_req .disk).bind
      intro d'
      apply (steady_req (.usedId (d'.usedIdx % NUM))).bind
      intro id
      apply (steady_req (.status id)).bind
      intro st
      split
      · exact steady_req _
      · apply (steady_req .disk).bind
        intro d''
        split
        · exact steady_req _
        · exact fun _ _ _ _ => ih
    · trivial

theorem steady_virtioDiskIntr (fuel : ℕ) : (virtioDiskIntr fuel).Steady := by
  intro _ _ _
  exact (steady_intrLoop fuel).bind fun _ _ => trivial

theorem disk_steady {C : Threads.Config diskSig Sys ℕ} (h : DiskReachable C) (t : ℕ) : (C.thread t).Steady := by
  refine h.steady ?_ ?_ ?_ t
  · intro C hC t
    rw [hC.idle]
    trivial
  · intro o t p hp
    cases hp
  · intro c s p s' p' hev hp
    cases hev with
    | call fuel b write hb => exact steady_virtioDiskRw fuel b write
    | interrupt fuel => exact steady_virtioDiskIntr fuel
    | edit _ b n x hb hn => exact hp
    | wake _ v => exact hp
    | device _ _ hd => exact hp

/-! ## Somebody can go on -/

/-- The device has something to do. -/
def Sys.DeviceBusy (s : Sys) : Prop :=
  s.notified = true ∨ s.dev.last ≠ s.dev.seen ∨ s.dev.flight ≠ [] ∨ s.dev.out ≠ none ∨ s.dev.raising = true

/-- The next request of thread `t` succeeds. -/
def CanGo (C : Threads.Config diskSig Sys ℕ) (t : ℕ) : Prop :=
  ∃ o next r s, C.thread t = .call o next ∧ diskStep t o C.shared = .done r s

/-- The program is about to panic over an error of the device, or a loop has used up its turns. -/
def Halts : DM Unit → Prop
  | .call (.panic msg) _ => msg = "virtio_disk_intr status"
  | .call .hang _ => True
  | _ => False

section
variable {vs : ℕ → View} {C : Threads.Config diskSig Sys ℕ} {q p u : List ℕ} {t : ℕ}

/-- A thread whose view is not the last one has a request to make. -/
theorem next_request (hsteady : (C.thread t).Steady) (hkeep : Meets (C.thread t) (vs t) fun _ v => v = .out)
    (hv : vs t ≠ .out) : ∃ o next, C.thread t = .call o next ∧
      diskSpec o (fun r w => Meets (next r) w fun _ v => v = .out) (vs t) := by
  cases hp : C.thread t with
  | ret a =>
    rw [hp] at hkeep
    exact absurd hkeep hv
  | panic msg =>
    rw [hp] at hsteady
    exact hsteady.elim
  | call o next =>
    rw [hp] at hkeep
    exact ⟨o, next, rfl, hkeep⟩

theorem storeSpec_held {w : Store} {K : Unit → View → Prop} {v : View} (h : storeSpec w K v) : v.held ≠ none := by
  have hwork : workSpec w K v → v.held ≠ none := by
    rintro ⟨D, r, own, owe, served, rfl, -⟩
    exact Option.some_ne_none D
  cases w with
  | availIdx n =>
    obtain ⟨D, c, rfl, -⟩ := h
    exact Option.some_ne_none D
  | usedIdx n =>
    obtain ⟨D, id, rfl, -⟩ := h
    exact Option.some_ne_none D
  | bufDisk b x =>
    cases x with
    | true => exact hwork h
    | false =>
      obtain ⟨D, id, rfl, -⟩ := h
      exact Option.some_ne_none D
  | infoB i b =>
    cases b with
    | some b => exact hwork h
    | none =>
      obtain ⟨D, c, rfl, -⟩ := h
      exact Option.some_ne_none D
  | _ => exact hwork h

/-- Without the lock only these requests are made. -/
theorem request_unlocked {o : Op} {K : o.Res → View → Prop} {v : View} (h : diskSpec o K v) (hv : v.held = none) :
    o = .acquire ∨ o = .resume ∨ (∃ b, o = .blockno b) ∨ ∃ b, o = .finish b := by
  cases o with
  | acquire => exact .inl rfl
  | resume => exact .inr (.inl rfl)
  | blockno b => exact .inr (.inr (.inl ⟨b, rfl⟩))
  | finish b => exact .inr (.inr (.inr ⟨b, rfl⟩))
  | set w => exact absurd hv (storeSpec_held h)
  | disk | hang =>
    obtain ⟨D, hD, -⟩ := h
    exact absurd (hD.symm.trans hv) (Option.some_ne_none D)
  | release =>
    rcases h with ⟨D, r, rfl, -⟩ | ⟨D, rfl, -⟩ <;> exact absurd hv (Option.some_ne_none D)
  | doze ch =>
    cases ch with
    | free =>
      obtain ⟨D, r, rfl, -⟩ := h
      cases hv
    | buf b =>
      obtain ⟨D, c, rfl, -⟩ := h
      cases hv
  | wakeup ch =>
    cases ch with
    | free =>
      obtain ⟨D, r, own, owe, served, rfl, -⟩ := h
      cases hv
    | buf b =>
      obtain ⟨D, id, rfl, -⟩ := h
      cases hv
  | setStatus i st =>
    obtain ⟨D, r, own, owe, served, rfl, -⟩ := h
    cases hv
  | panic msg =>
    obtain ⟨-, D, rfl⟩ := h
    cases hv
  | notify =>
    obtain ⟨D, c, rfl, -⟩ := h
    cases hv
  | usedIdx | usedId i | status i | interruptStatus | interruptAck st =>
    obtain ⟨D, rfl, -⟩ := h
    cases hv

namespace InvOf

/-- Nobody owes, rings or sweeps without the lock. -/
theorem unlocked (h : InvOf vs C.shared q p u) (hl : C.shared.lock = none) (t : ℕ) :
    (vs t).held = none ∧ (vs t).owes = none ∧ (vs t).rings = false ∧ (vs t).phase = none := by
  cases hD : (vs t).held with
  | some D =>
    rw [(h.mutex.held t D hD).2] at hl
    cases hl
  | none =>
    cases hv : vs t with
    | work D r own owe served | wait D c ring | hand D x =>
      rw [hv] at hD
      cases hD
    | _ => exact ⟨rfl, rfl, rfl, rfl⟩

/-- While a buffer is marked and nobody has the lock, its request is with the device, or the device or
the interrupt is about to deal with it. -/
theorem marked_busy (h : InvOf vs C.shared q p u) (hl : C.shared.lock = none) {c : Chain}
    (hc : (vs t).chain = some c) (hb : C.shared.disk.bufDisk c.req.b = true) :
    C.shared.DeviceBusy ∨ C.shared.isr &&& 1 ≠ 0 := by
  have hp : p = [] := h.hands.idle fun v => (h.unlocked hl v).2.2.2
  subst hp
  have hmem := h.flow.waiting t c hc hb
  simp only [line, List.mem_append] at hmem
  rcases hmem with hq | hf | ho | hu
  · -- The device has seen the entry, or it has been told to look.
    left
    by_cases hlast : C.shared.dev.last = C.shared.dev.seen
    · have hne : C.shared.dev.seen ≠ C.shared.disk.avail.idx := by
        intro heq
        have hnil := (h.flow.avail.empty_iff (by decide)).mp (hlast.trans heq)
        rw [hnil] at hq
        cases hq
      rcases h.bells.notify hne with hn | ⟨v, hv⟩
      · exact .inl hn
      · rw [(h.unlocked hl v).2.2.1] at hv
        cases hv
    · exact .inr (.inl hlast)
  · refine .inl (.inr (.inr (.inl ?_)))
    intro hnil
    rw [hnil] at hf
    cases hf
  · refine .inl (.inr (.inr (.inr (.inl ?_))))
    intro hnone
    rw [hnone] at ho
    cases ho
  · have hne : C.shared.disk.usedIdx ≠ C.shared.used.idx := by
      intro heq
      have hnil := (h.flow.used.empty_iff (by decide)).mp heq
      rw [List.nil_append] at hnil
      rw [hnil] at hu
      cases hu
    rcases h.bells.interrupt hne with hisr | hraise | ⟨v, x, hx, -⟩
    · exact .inr hisr
    · exact .inl (.inr (.inr (.inr (.inr hraise))))
    · rw [(h.unlocked hl v).2.2.2] at hx
      cases hx

/-- With too few free descriptors there is a call with a published chain. -/
theorem few_free (h : InvOf vs C.shared q p u) (hl : C.shared.lock = none) (hfew : FewFree C.shared.disk) :
    ∃ v c, vs v = .nap c := by
  have hused : ∃ i < NUM, C.shared.disk.free i = false := by
    by_contra hall
    push Not at hall
    have hfull : ((Finset.range NUM).filter fun i => C.shared.disk.free i = true) = Finset.range NUM := by
      apply Finset.filter_true_of_mem
      intro i hi
      simpa using hall i (Finset.mem_range.mp hi)
    rw [FewFree, hfull] at hfew
    revert hfew
    decide
  obtain ⟨i, hi, hfree⟩ := hused
  obtain ⟨v, hv⟩ := h.owners.cover i hi hfree
  have hheld := (h.unlocked hl v).1
  cases hview : vs v with
  | nap c => exact ⟨v, c, hview⟩
  | work D r own owe served | wait D c ring | hand D x =>
    rw [hview] at hheld
    cases hheld
  | _ =>
    rw [hview] at hv
    cases hv

/-- While nobody has the lock, a thread inside a call can go on unless it sleeps. -/
theorem goes_or_sleeps (h : InvOf vs C.shared q p u) (hl : C.shared.lock = none)
    (hsteady : (C.thread t).Steady) (hkeep : Meets (C.thread t) (vs t) fun _ v => v = .out) (hv : vs t ≠ .out) :
    CanGo C t ∨ ∃ ch, C.shared.asleep t = some ch ∧ (vs t).bed = some ch := by
  obtain ⟨o, next, hp, hspec⟩ := next_request hsteady hkeep hv
  have hgo : ∀ r s, diskStep t o C.shared = .done r s → CanGo C t := fun r s hr => ⟨o, next, r, s, hp, hr⟩
  rcases request_unlocked hspec (h.unlocked hl t).1 with rfl | rfl | ⟨b, rfl⟩ | ⟨b, rfl⟩
  · exact .inl (hgo _ _ (by rw [diskStep, if_pos hl]))
  · cases ha : C.shared.asleep t with
    | none => exact .inl (hgo _ _ (by rw [diskStep, if_pos ⟨ha, hl⟩]))
    | some ch => exact .inr ⟨ch, rfl, h.naps.bed t ch ha⟩
  · exact .inl (hgo _ _ rfl)
  · exact .inl (hgo _ _ rfl)

/-- Whoever sleeps while nobody has the lock has a reason. -/
theorem sleeper_reason (h : InvOf vs C.shared q p u) (hl : C.shared.lock = none) {ch : Chan}
    (ha : C.shared.asleep t = some ch) : Reason C.shared.disk ch := by
  rcases h.naps.reason t ch ha with hreason | ⟨v, hv⟩
  · exact hreason
  · rw [(h.unlocked hl v).2.1] at hv
    cases hv

/-- Whoever has the lock can go on, or stops for good. -/
theorem holder_goes (h : InvOf vs C.shared q p u) (hl : C.shared.lock = some t) (hsteady : (C.thread t).Steady)
    (hkeep : Meets (C.thread t) (vs t) fun _ v => v = .out) : CanGo C t ∨ Halts (C.thread t) := by
  obtain ⟨D, hD⟩ := h.mutex.holder t hl
  have hheld : (vs t).held ≠ none := by
    rw [show (vs t).held = some D from hD]
    exact Option.some_ne_none D
  obtain ⟨o, next, hp, hspec⟩ := next_request hsteady hkeep fun hv => hheld (by rw [hv]; rfl)
  have hgo : ∀ r s, diskStep t o C.shared = .done r s → CanGo C t := fun r s hr => ⟨o, next, r, s, hp, hr⟩
  rw [hp]
  cases o with
  | acquire =>
    rcases hspec with ⟨r, hv, -⟩ | ⟨hv, -⟩ <;> exact absurd (by rw [hv]; rfl) hheld
  | resume =>
    rcases hspec with ⟨r, hv, -⟩ | ⟨x, hv, -⟩ <;> exact absurd (by rw [hv]; rfl) hheld
  | panic msg => exact .inr hspec.1
  | hang => exact .inr trivial
  | _ => exact .inl (hgo _ _ rfl)

/-- While nobody is inside a critical section, some thread can go on, the device has something to do, or its
interrupt is pending. -/
theorem unlocked_goes (h : InvOf vs C.shared q p u) (hl : C.shared.lock = none) (hsteady : ∀ t, (C.thread t).Steady)
    (hkeep : ∀ t, Meets (C.thread t) (vs t) fun _ v => v = .out) {b : ℕ} {c : Call} (hc : C.shared.calls b = some c) :
    (∃ t, CanGo C t) ∨ C.shared.DeviceBusy ∨ C.shared.isr &&& 1 ≠ 0 := by
  have hnap : ∀ v x, vs v = .nap x → (∃ t, CanGo C t) ∨ C.shared.DeviceBusy ∨ C.shared.isr &&& 1 ≠ 0 := by
    intro v x hv
    rcases h.goes_or_sleeps hl (hsteady v) (hkeep v) (by rw [hv]; exact View.noConfusion) with hgo | ⟨ch, ha, hbed⟩
    · exact .inl ⟨v, hgo⟩
    · rw [hv] at hbed
      cases hbed
      exact .inr (h.marked_busy hl (by rw [hv]; rfl) (h.sleeper_reason hl ha))
  obtain ⟨r, hr, -⟩ := h.callers.caller b c hc
  have hout : vs c.thread ≠ .out := by
    intro hv
    rw [hv] at hr
    cases hr
  rcases h.goes_or_sleeps hl (hsteady _) (hkeep _) hout with hgo | ⟨ch, ha, hbed⟩
  · exact .inl ⟨_, hgo⟩
  · cases hv : vs c.thread with
    | nap x => exact hnap _ x hv
    | napFree r' =>
      rw [hv] at hbed
      cases hbed
      obtain ⟨v, x, hx⟩ := h.few_free hl (h.sleeper_reason hl ha)
      exact hnap v x hx
    | _ =>
      rw [hv] at hbed
      cases hbed

end InvOf
end

/-- No call is ever stuck: some thread can go on, the device has something to do, its interrupt is pending,
or the thread inside the critical section has stopped for good. -/
theorem virtio_never_stuck {C : Threads.Config diskSig Sys ℕ} (hC : DiskReachable C) {b : ℕ} {c : Call}
    (hc : C.shared.calls b = some c) :
    (∃ t, CanGo C t) ∨ C.shared.DeviceBusy ∨ C.shared.isr &&& 1 ≠ 0 ∨
      ∃ t, C.shared.lock = some t ∧ Halts (C.thread t) := by
  obtain ⟨vs, ⟨q, p, u, h⟩, hkeep⟩ := disk_safe hC
  have hsteady := disk_steady hC
  cases hl : C.shared.lock with
  | some t =>
    rcases h.holder_goes hl (hsteady t) (hkeep t) with hgo | hhalt
    · exact .inl ⟨t, hgo⟩
    · exact .inr (.inr (.inr ⟨t, rfl, hhalt⟩))
  | none =>
    rcases h.unlocked_goes hl hsteady hkeep hc with hgo | hbusy | hisr
    · exact .inl hgo
    · exact .inr (.inl hbusy)
    · exact .inr (.inr (.inl hisr))

theorem virtio_never_stuck_sleeper : oneSleeper.shared.asleep 0 = some (.buf 0) ∧
    ((∃ t, CanGo oneSleeper t) ∨ oneSleeper.shared.DeviceBusy ∨ oneSleeper.shared.isr &&& 1 ≠ 0) := by
  obtain ⟨-, -, -, -, -, -, hasleep, hlock, hcall, -⟩ := oneSleeper_state
  refine ⟨hasleep, ?_⟩
  rcases virtio_never_stuck oneSleeper_reachable hcall with hgo | hbusy | hisr | ⟨t, ht, -⟩
  · exact .inl hgo
  · exact .inr (.inl hbusy)
  · exact .inr (.inr hisr)
  · cases hlock.symm.trans ht

end Xv6Arm.Virtio

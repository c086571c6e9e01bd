import Xv6Arm.Smp.InvSlots

/-!
# `sleep` and `wakeup`

A process can only fall asleep in a call of `sleep` that nobody has had to wake
yet. A call of `wakeup` looks at every process under its lock, so none that it had
to wake is asleep when it returns, or will be in that call of `sleep`.
-/
namespace Xv6Arm.Smp
open Lib

variable {ip : Slot} {strict : Prop} {vs vs' : Thread → View} {s s' : Sys} {c : ℕ} {o : SmpOp} {r : o.Res} {v : View}
  {p : Slot}

/-! ## What is left alone -/

/-- What may happen to the sleepers and to the calls of `sleep`. -/
structure Naps (vs : Thread → View) (s : Sys) (vs' : Thread → View) (s' : Sys) : Prop where
  due : ∀ p, s'.hist.thread p = true → (vs' (.proc p)).nap.due = none ∨
    s.hist.thread p = true ∧ (vs' (.proc p)).nap.due = (vs (.proc p)).nap.due
  sleep : ∀ p, (s'.proc p).state = .sleeping →
    (s.proc p).state = .sleeping ∧ (s'.proc p).chan = (s.proc p).chan ∨
      s.hist.thread p = true ∧ ∃ ch lk, (vs (.proc p)).nap.due = some (ch, lk) ∧ (s'.proc p).chan = some ch
  old : ∀ p n', s'.hist.nap p = some n' → ∃ n, s.hist.nap p = some n ∧ n.chan = n'.chan
  kept : ∀ p n, s.hist.nap p = some n → (∃ n', s'.hist.nap p = some n' ∧ n'.chan = n.chan) ∨ Awake vs' s' p

theorem Awake.naps (hn : Naps vs s vs' s') (h : Awake vs s p) : Awake vs' s' p := by
  refine ⟨fun hs => ?_, fun ht => ?_⟩
  · rcases hn.sleep p hs with ⟨hs, -⟩ | ⟨ht, ch, lk, hd, -⟩
    · exact h.1 hs
    · rw [h.2 ht] at hd
      cases hd
  · rcases hn.due p ht with hd | ⟨ht, hd⟩
    · exact hd
    · rw [hd, h.2 ht]

theorem Wakes.naps {w : Chan × (Slot → Bool)} {u : Chan × Finset Slot} (hn : Naps vs s vs' s') (h : Wakes vs s w u) :
    Wakes vs' s' w u := by
  refine ⟨h.chan, fun p hp n' hn' => ?_, fun p hp hd => (h.done p hp hd).naps hn⟩
  obtain ⟨n, hn, hch⟩ := hn.old p n' hn'
  exact hch ▸ h.nap p hp n hn

theorem NapInv.naps (h : NapInv vs s) (hn : Naps vs s vs' s') (hwoken : ∀ p, s'.hist.woken p = true → Awake vs s p)
    (hstack : ∀ t, s'.Has t → List.Forall₂ (Wakes vs s) (s'.hist.waking t) (vs' t).nap.wake) : NapInv vs' s' := by
  refine ⟨fun p ht ch lk hd => ?_, fun p hs => ?_, fun p n q hp hq => ?_, fun p hp => (hwoken p hp).naps hn,
    fun t ht => (hstack t ht).imp fun _ _ hw => hw.naps hn⟩
  · rcases hn.due p ht with hd' | ⟨ht', hd'⟩
    · rw [hd] at hd'
      cases hd'
    · obtain ⟨n, hnap, hch⟩ := h.due p ht' ch lk (hd' ▸ hd)
      rcases hn.kept p n hnap with ⟨n', hn', hch'⟩ | hw
      · exact ⟨n', hn', hch'.trans hch⟩
      · rw [hw.2 ht] at hd
        cases hd
  · have hold : ∃ n, s.hist.nap p = some n ∧ (s'.proc p).chan = some n.chan := by
      rcases hn.sleep p hs with ⟨hs', hch⟩ | ⟨ht, ch, lk, hd, hch⟩
      · obtain ⟨n, hnap, hch'⟩ := h.asleep p hs'
        exact ⟨n, hnap, hch.trans hch'⟩
      · obtain ⟨n, hnap, hch'⟩ := h.due p ht ch lk hd
        exact ⟨n, hnap, hch' ▸ hch⟩
    obtain ⟨n, hnap, hch⟩ := hold
    rcases hn.kept p n hnap with ⟨n', hn', hch'⟩ | hw
    · exact ⟨n', hn', hch'.symm ▸ hch⟩
    · exact absurd hs hw.1
  · obtain ⟨n', hn', hch⟩ := hn.old p n hp
    exact h.own p n' q hn' (hch.trans hq)

/-- A request after which the calls of `sleep` and `wakeup` are the same. -/
theorem NapInv.frame (h : NapInv vs s) (hnap : s'.hist.nap = s.hist.nap) (hwoken : s'.hist.woken = s.hist.woken)
    (hwaking : s'.hist.waking = s.hist.waking) (hhas : ∀ t, s'.Has t → s.Has t)
    (hsleep : ∀ p, (s'.proc p).state = .sleeping → (s.proc p).state = .sleeping ∧ (s'.proc p).chan = (s.proc p).chan ∨
      s.hist.thread p = true ∧ ∃ ch lk, (vs (.proc p)).nap.due = some (ch, lk) ∧ (s'.proc p).chan = some ch)
    (hwake : ∀ t, (vs' t).nap.wake = (vs t).nap.wake)
    (hdue : ∀ t, (vs' t).nap.due = none ∨ (vs' t).nap.due = (vs t).nap.due) : NapInv vs' s' := by
  refine h.naps ⟨fun p ht => (hdue _).imp_right fun hd => ⟨hhas (.proc p) ht, hd⟩, hsleep, fun p n hp => ?_,
    fun p n hp => Or.inl ⟨n, hnap ▸ hp, rfl⟩⟩ (fun p hp => h.woken p (hwoken ▸ hp)) fun t ht => ?_
  · exact ⟨n, hnap ▸ hp, rfl⟩
  · rw [hwaking, hwake]
    exact h.stack t (hhas t ht)

theorem update_nap {u : Thread} {w : View} (hw : w.nap = (vs u).nap) (t : Thread) :
    (Function.update vs u w t).nap = (vs t).nap := by
  by_cases ht : t = u
  · rw [ht, Function.update_self, hw]
  · rw [Function.update_of_ne ht]

/-! ## Who is awake -/

theorem Inv.awake_of_none (h : Inv ip strict vs s) (hn : s.hist.nap p = none) : Awake vs s p := by
  refine ⟨fun hs => ?_, fun ht => ?_⟩
  · obtain ⟨n, hp, -⟩ := h.nap.asleep p hs
    rw [hn] at hp
    cases hp
  · cases hd : (vs (.proc p)).nap.due with
    | none => rfl
    | some d =>
      obtain ⟨n, hp, -⟩ := h.nap.due p ht d.1 d.2 hd
      rw [hn] at hp
      cases hp

/-- A process that is locked and does not sleep on what its call of `sleep` is for. -/
theorem Inv.awake_of_locked (h : Inv ip strict vs s) {x : Proc} {ch : Chan} (hx : (vs (s.exec c)).snap p = some x)
    (hs : ¬x.SleepsOn ch) (hn : ∀ n, s.hist.nap p = some n → n.chan = ch) : Awake vs s p := by
  obtain ⟨hl, hne, hag⟩ := h.snap_exec hx
  refine ⟨fun hsl => ?_, h.due_of_locked hl hne⟩
  obtain ⟨n, hp, hch⟩ := h.nap.asleep p hsl
  exact hs ⟨hag.state.symm.trans hsl, hag.chan.symm.trans (hch.trans (congrArg some (hn n hp)))⟩

theorem Inv.awake_of_running (h : Inv ip strict vs s) (hc : s.exec c = .proc p) (hs : (vs (s.exec c)).core.state = .running)
    (hd : (vs (s.exec c)).nap.due = none) : Awake vs s p := by
  rw [hc] at hs hd
  refine ⟨?_, fun _ => hd⟩
  rw [h.exec.state c p hc, hs]
  exact ProcState.noConfusion

/-! ## Requests that leave the table alone -/

/-- Requests that the calls of `sleep` and `wakeup` have to do with. -/
def SmpOp.Naps : SmpOp → Prop
  | .release _ | .swtchBack | .note _ | .resetContext _ => True
  | _ => False

theorem step_naps (ho : ¬o.Naps) (h : smpStep c o s = .done r s') : s'.hist.nap = s.hist.nap ∧
    s'.hist.woken = s.hist.woken ∧ s'.hist.waking = s.hist.waking := by
  cases o with
  | acquire l => rw [(acquire_done h).2]; exact ⟨rfl, rfl, rfl⟩
  | myproc => rw [(myproc_done h).2]; exact ⟨rfl, rfl, rfl⟩
  | release | swtchBack | note | resetContext => exact absurd trivial ho
  | put p f =>
    cases h
    unfold Sys.put
    split <;> exact ⟨rfl, rfl, rfl⟩
  | freeproc p =>
    cases h
    unfold Sys.freeproc
    split <;> exact ⟨rfl, rfl, rfl⟩
  | hang => cases h
  | _ => cases h; exact ⟨rfl, rfl, rfl⟩

theorem nextOther_nap (t : Thread) (v : View) (x : Proc) (f : Field) : (NextOther t p v x f).nap = v.nap := by
  cases f with
  | state st => cases st <;> rfl
  | _ => rfl

theorem next_nap {t : Thread} (ho : ¬o.Naps) : (Next t c v s' o r).nap = v.nap := by
  cases o with
  | release | swtchBack | note | resetContext => exact absurd trivial ho
  | put p f =>
    simp only [Next]
    split_ifs
    · exact (nextOwn_rest v f).2.2.2.2.1
    · split
      · exact nextOther_nap ..
      · rfl
  | freeproc p =>
    simp only [Next]
    split <;> rfl
  | getOfile p fd =>
    simp only [Next]
    split_ifs <;> rfl
  | _ => rfl

theorem markDone_wakes (h : Inv ip strict vs s) {l : List (Chan × (Slot → Bool))} {l' : List (Chan × Finset Slot)}
    (hl : List.Forall₂ (Wakes vs s) l l') (p : Slot) :
    List.Forall₂ (Wakes vs s) l (markDone p ((vs (s.exec c)).awakeAfter p) l') := by
  cases hl with
  | nil => exact List.Forall₂.nil
  | @cons w u l l' hw hl =>
    refine List.Forall₂.cons ⟨hw.chan, hw.nap, fun q hq hd => ?_⟩ hl
    dsimp only at hd
    split_ifs at hd with ha
    · rcases Finset.mem_insert.mp hd with rfl | hd
      · rw [View.awakeAfter] at ha
        cases hx : (vs (s.exec c)).snap q with
        | none =>
          rw [hx] at ha
          cases ha
        | some x =>
          simp only [hx, Bool.not_eq_true', decide_eq_false_iff_not] at ha
          exact h.awake_of_locked hx ha fun n hn => (hw.nap q hq n hn).trans hw.chan
      · exact hw.done q hq hd
    · exact hw.done q hq hd

theorem NapInv.release (h : Inv ip strict vs s) {l : Lock} {r : Unit} (hstep : smpStep c (.release l) s = .done r s') :
    NapInv (Function.update vs (s.exec c) (Next (s.exec c) c (vs (s.exec c)) s' (.release l) r)) s' := by
  obtain ⟨-, -, hs'⟩ := release_done hstep
  have hproc : s'.proc = s.proc := by rw [hs']
  have hthread : s'.hist.thread = s.hist.thread := by rw [hs']; rfl
  have hnap : ∀ p, s'.hist.nap p = (s.hist.nap p).map fun n =>
      if n.lk = l ∧ (s.exec c = .proc p ∨ l = .proc p) then { n with released := true } else n := fun p => by rw [hs']; rfl
  have hdue : ∀ t, (Function.update vs (s.exec c) (Next (s.exec c) c (vs (s.exec c)) s' (.release l) r) t).nap.due =
      (vs t).nap.due := fun t => by
    by_cases ht : t = s.exec c
    · rw [ht, Function.update_self]; rfl
    · rw [Function.update_of_ne ht]
  refine h.nap.naps ⟨fun p hp => Or.inr ⟨hthread ▸ hp, hdue _⟩, fun p hp => Or.inl ?_, fun p n' hp => ?_, fun p n hp => Or.inl ?_⟩
    (fun p hp => h.nap.woken p ?_) fun t ht => ?_
  · rw [hproc] at hp ⊢
    exact ⟨hp, rfl⟩
  · rw [hnap] at hp
    obtain ⟨n, hn, rfl⟩ := Option.map_eq_some_iff.mp hp
    refine ⟨n, hn, ?_⟩
    split_ifs <;> rfl
  · rw [hnap, hp]
    refine ⟨_, rfl, ?_⟩
    dsimp only
    split_ifs <;> rfl
  · rw [hs'] at hp
    exact hp
  · have hwaking : s'.hist.waking = s.hist.waking := by rw [hs']; rfl
    have hht : s.Has t := by
      cases t with
      | scheduler d => trivial
      | proc i => rwa [Sys.Has, hthread] at ht
    rw [hwaking]
    by_cases htc : t = s.exec c
    · subst htc
      rw [Function.update_self]
      cases l with
      | proc p => exact markDone_wakes h (h.nap.stack _ hht) p
      | _ => exact h.nap.stack _ hht
    · rw [Function.update_of_ne htc]
      exact h.nap.stack t hht

/-! ## The calls themselves -/

theorem Naps.same (hproc : s'.proc = s.proc) (hnap : s'.hist.nap = s.hist.nap) (hthread : s'.hist.thread = s.hist.thread)
    (hdue : ∀ t, (vs' t).nap.due = (vs t).nap.due) : Naps vs s vs' s' := by
  refine ⟨fun p hp => Or.inr ⟨hthread ▸ hp, hdue _⟩, fun p hp => Or.inl ?_, fun p n hp => ⟨n, hnap ▸ hp, rfl⟩,
    fun p n hp => Or.inl ⟨n, hnap ▸ hp, rfl⟩⟩
  rw [hproc] at hp ⊢
  exact ⟨hp, rfl⟩

/-- Process `p` starts anew: nobody has had to wake it yet. -/
theorem NapInv.renew (h : NapInv vs s) (hproc : s'.proc = s.proc) (hp : (s.proc p).state ≠ .sleeping)
    (hnap : ∀ i, i ≠ p → s'.hist.nap i = s.hist.nap i) (hwoken : s'.hist.woken = Function.update s.hist.woken p false)
    (hthread : ∀ i, i ≠ p → s'.hist.thread i = true → s.hist.thread i = true)
    (hview : ∀ i, i ≠ p → (vs' (.proc i)).nap.due = (vs (.proc i)).nap.due)
    (hdue : ∀ ch lk, (vs' (.proc p)).nap.due = some (ch, lk) → ∃ n, s'.hist.nap p = some n ∧ n.chan = ch)
    (hown : ∀ n q, s'.hist.nap p = some n → n.chan = .proc q → q = p)
    (hstack : ∀ t, s'.Has t → s'.hist.waking t = [] ∧ (vs' t).nap.wake = [] ∨
      s.Has t ∧ s'.hist.waking t = (s.hist.waking t).map (fun w => (w.1, Function.update w.2 p false)) ∧
        (vs' t).nap.wake = (vs t).nap.wake) : NapInv vs' s' := by
  have hawake : ∀ i, i ≠ p → Awake vs s i → Awake vs' s' i := fun i hi hw => by
    refine ⟨hproc ▸ hw.1, fun ht => ?_⟩
    rw [hview i hi]
    exact hw.2 (hthread i hi ht)
  refine ⟨fun i hi ch lk hd => ?_, fun i hs => ?_, fun i n q hn hq => ?_, fun i hi => ?_, fun t ht => ?_⟩
  · by_cases hip : i = p
    · subst hip
      exact hdue ch lk hd
    · rw [hnap i hip]
      exact h.due i (hthread i hip hi) ch lk (hview i hip ▸ hd)
  · rw [hproc] at hs ⊢
    have hip : i ≠ p := by
      rintro rfl
      exact hp hs
    rw [hnap i hip]
    exact h.asleep i hs
  · by_cases hip : i = p
    · subst hip
      exact hown n q hn hq
    · exact h.own i n q (hnap i hip ▸ hn) hq
  · have hip : i ≠ p := by
      rintro rfl
      rw [hwoken, Function.update_self] at hi
      cases hi
    rw [hwoken, Function.update_of_ne hip] at hi
    exact hawake i hip (h.woken i hi)
  · rcases hstack t ht with ⟨h1, h2⟩ | ⟨ht, h1, h2⟩
    · rw [h1, h2]
      exact List.Forall₂.nil
    · rw [h1, h2, List.forall₂_map_left_iff]
      refine (h.stack t ht).imp fun w u hw => ?_
      have hne : ∀ i, Function.update w.2 p false i = true → i ≠ p ∧ w.2 i = true := fun i hi => by
        by_cases hip : i = p
        · rw [hip, Function.update_self] at hi
          cases hi
        · exact ⟨hip, by rwa [Function.update_of_ne hip] at hi⟩
      exact ⟨hw.chan, fun i hi n hn => hw.nap i (hne i hi).2 n (hnap i (hne i hi).1 ▸ hn),
        fun i hi hd => hawake i (hne i hi).1 (hw.done i (hne i hi).2 hd)⟩

theorem NapInv.sleepCall (h : Inv ip strict vs s) {ch : Chan} {lk : Lock}
    (hpre : PreNote strict (s.exec c) (vs (s.exec c)) (.sleepCall ch lk)) :
    NapInv (Function.update vs (s.exec c) (NextNote (vs (s.exec c)) (.sleepCall ch lk))) (s.note c (.sleepCall ch lk)) := by
  obtain ⟨p, hc, -, hrun, -, hch, -⟩ := hpre
  have hs' : s.note c (.sleepCall ch lk) = { s with hist := s.hist.sleepCall p ch lk } := by
    unfold Sys.note
    rw [show (s.cpu c).exec = .proc p from hc]
  have hne : ∀ {i : Slot}, i ≠ p → Thread.proc i ≠ .proc p := fun hi hf => hi (Thread.proc.inj hf)
  rw [hs', hc]
  refine h.nap.renew (p := p) rfl ?_ (fun i hi => Function.update_of_ne hi ..) rfl (fun _ _ hi => hi) (fun i hi => ?_)
    (fun ch' lk' hd => ?_) (fun n q hn hq => ?_) fun t ht => Or.inr ⟨ht, rfl, ?_⟩
  · rw [h.exec.state c p hc, ← hc, hrun]
    exact ProcState.noConfusion
  · rw [Function.update_of_ne (hne hi)]
  · rw [Function.update_self] at hd
    cases hd
    exact ⟨⟨ch, lk, false⟩, Function.update_self .., rfl⟩
  · have : n = ⟨ch, lk, false⟩ := Option.some.inj (hn.symm.trans (Function.update_self ..))
    subst this
    exact hch q hq
  · by_cases htc : t = .proc p
    · rw [htc, Function.update_self]; rfl
    · rw [Function.update_of_ne htc]

theorem NapInv.sleepRet (h : Inv ip strict vs s) (hpre : PreNote strict (s.exec c) (vs (s.exec c)) .sleepRet) :
    NapInv (Function.update vs (s.exec c) (NextNote (vs (s.exec c)) .sleepRet)) (s.note c .sleepRet) := by
  change NapInv (Function.update vs (s.exec c) (vs (s.exec c))) _
  rw [Function.update_eq_self]
  cases hc : s.exec c with
  | scheduler d =>
    have hs' : s.note c .sleepRet = s := by
      unfold Sys.note
      rw [show (s.cpu c).exec = .scheduler d from hc]
    rw [hs']
    exact h.nap
  | proc p =>
    have hs' : s.note c .sleepRet = { s with hist := { s.hist with nap := Function.update s.hist.nap p none } } := by
      unfold Sys.note
      rw [show (s.cpu c).exec = .proc p from hc]
    have hp := h.awake_of_running hc hpre.1 hpre.2
    rw [hs']
    refine h.nap.naps ⟨fun i hi => Or.inr ⟨hi, rfl⟩, fun i hi => Or.inl ⟨hi, rfl⟩, fun i n hn => ?_, fun i n hn => ?_⟩
      h.nap.woken h.nap.stack
    · by_cases hip : i = p
      · rw [hip] at hn
        cases (Function.update_self (f := s.hist.nap) ..).symm.trans hn
      · exact ⟨n, (Function.update_of_ne hip ..).symm.trans hn, rfl⟩
    · by_cases hip : i = p
      · subst hip
        exact Or.inr hp
      · exact Or.inl ⟨n, (Function.update_of_ne hip ..).trans hn, rfl⟩

theorem NapInv.wakeupCall (h : Inv ip strict vs s) (ch : Chan) :
    NapInv (Function.update vs (s.exec c) (NextNote (vs (s.exec c)) (.wakeupCall ch))) (s.note c (.wakeupCall ch)) := by
  have hs' : s.note c (.wakeupCall ch) = { s with hist := s.hist.wakeupCall (s.exec c) ch } := by
    unfold Sys.note Sys.exec
    cases (s.cpu c).exec <;> rfl
  rw [hs']
  refine h.nap.naps (Naps.same rfl rfl rfl fun t => ?_) h.nap.woken fun t ht => ?_
  · by_cases htc : t = s.exec c
    · rw [htc, Function.update_self]; rfl
    · rw [Function.update_of_ne htc]
  · change List.Forall₂ _ (Function.update s.hist.waking (s.exec c) _ t) _
    by_cases htc : t = s.exec c
    · subst htc
      rw [Function.update_self, Function.update_self]
      refine List.Forall₂.cons ⟨rfl, fun p hp n hn => ?_, fun p _ hd => absurd hd (Finset.notMem_empty p)⟩ (h.nap.stack _ ht)
      simp only [hn, Bool.and_eq_true, decide_eq_true_eq] at hp
      exact hp.2
    · rw [Function.update_of_ne htc, Function.update_of_ne htc]
      exact h.nap.stack t ht

theorem NapInv.wakeupRet (h : Inv ip strict vs s) (hpre : PreNote strict (s.exec c) (vs (s.exec c)) .wakeupRet) :
    NapInv (Function.update vs (s.exec c) (NextNote (vs (s.exec c)) .wakeupRet)) (s.note c .wakeupRet) := by
  obtain ⟨ch, done, l, hwake, hall⟩ := hpre
  have hstack := h.nap.stack _ (h.exec.has c)
  rw [hwake] at hstack
  cases hw : s.hist.waking (s.exec c) with
  | nil =>
    rw [hw] at hstack
    cases hstack
  | cons w l' =>
    rw [hw, List.forall₂_cons] at hstack
    obtain ⟨hhead, htail⟩ := hstack
    have hs' : s.note c .wakeupRet = { s with hist := { s.hist with
        waking := Function.update s.hist.waking (s.exec c) l'
        woken := fun p => s.hist.woken p || w.2 p } } := by
      have : s.note c .wakeupRet = { s with hist := s.hist.wakeupRet (s.exec c) } := by
        unfold Sys.note Sys.exec
        cases (s.cpu c).exec <;> rfl
      rw [this, History.wakeupRet, hw]
    rw [hs']
    refine h.nap.naps (Naps.same rfl rfl rfl fun t => ?_) (fun p hp => ?_) fun t ht => ?_
    · by_cases htc : t = s.exec c
      · rw [htc, Function.update_self]; rfl
      · rw [Function.update_of_ne htc]
    · rcases (Bool.or_eq_true _ _).mp hp with hp | hp
      · exact h.nap.woken p hp
      · -- The call has looked at every process that it had to wake.
        have hnap : ∀ n, s.hist.nap p = some n → n.chan = ch := fun n hn => (hhead.nap p hp n hn).trans hhead.chan
        rcases hall p with hd | ⟨q, rfl, hpq⟩ | ⟨x, hx, hs⟩ | ⟨hc, hs, hd⟩
        · exact hhead.done p hp hd
        · cases hn : s.hist.nap p with
          | none => exact h.awake_of_none hn
          | some n => exact absurd (h.nap.own p n q hn (hnap n hn)).symm hpq
        · exact h.awake_of_locked hx hs hnap
        · exact h.awake_of_running hc hs hd
    · change List.Forall₂ _ (Function.update s.hist.waking (s.exec c) l' t) _
      by_cases htc : t = s.exec c
      · subst htc
        rw [Function.update_self, Function.update_self]
        change List.Forall₂ _ _ (vs (s.exec c)).nap.wake.tail
        rw [hwake]
        exact htail
      · rw [Function.update_of_ne htc, Function.update_of_ne htc]
        exact h.nap.stack t ht

theorem NapInv.note (h : Inv ip strict vs s) {e : Event} (hpre : PreNote strict (s.exec c) (vs (s.exec c)) e) :
    NapInv (Function.update vs (s.exec c) (NextNote (vs (s.exec c)) e)) (s.note c e) := by
  have hkeep : (NextNote (vs (s.exec c)) e).nap = (vs (s.exec c)).nap → (s.note c e).hist.nap = s.hist.nap ∧
      (s.note c e).hist.woken = s.hist.woken ∧ (s.note c e).hist.waking = s.hist.waking →
      NapInv (Function.update vs (s.exec c) (NextNote (vs (s.exec c)) e)) (s.note c e) := by
    rintro hv ⟨h1, h2, h3⟩
    obtain ⟨-, -, -, hproc, hthread⟩ := note_frame (c := c) s e
    refine h.nap.frame h1 h2 h3 (fun t ht => ?_) (fun p hp => Or.inl ?_) (fun t => by rw [update_nap hv])
      fun t => Or.inr (by rw [update_nap hv])
    · cases t with
      | scheduler d => trivial
      | proc i => rwa [Sys.Has, hthread] at ht
    · rw [hproc] at hp ⊢
      exact ⟨hp, rfl⟩
  cases e with
  | sleepCall ch lk => exact NapInv.sleepCall h hpre
  | sleepRet => exact NapInv.sleepRet h hpre
  | wakeupCall ch => exact NapInv.wakeupCall h ch
  | wakeupRet => exact NapInv.wakeupRet h hpre
  | _ =>
    refine hkeep rfl ?_
    unfold Sys.note
    cases (s.cpu c).exec <;> exact ⟨rfl, rfl, rfl⟩

/-- A request that has nothing to do with the calls of `sleep` and `wakeup`. -/
theorem NapInv.other (h : Inv ip strict vs s) (ho : ¬o.Naps) (hstep : smpStep c o s = .done r s')
    (hhas : ∀ t, s'.Has t → s.Has t)
    (hsleep : ∀ p, (s'.proc p).state = .sleeping → (s.proc p).state = .sleeping ∧ (s'.proc p).chan = (s.proc p).chan ∨
      s.hist.thread p = true ∧ ∃ ch lk, (vs (.proc p)).nap.due = some (ch, lk) ∧ (s'.proc p).chan = some ch) :
    NapInv (Function.update vs (s.exec c) (Next (s.exec c) c (vs (s.exec c)) s' o r)) s' := by
  obtain ⟨h1, h2, h3⟩ := step_naps ho hstep
  have hv : ∀ t, (Function.update vs (s.exec c) (Next (s.exec c) c (vs (s.exec c)) s' o r) t).nap = (vs t).nap :=
    update_nap (next_nap ho)
  exact h.nap.frame h1 h2 h3 hhas hsleep (fun t => by rw [hv]) fun t => Or.inr (by rw [hv])

theorem NapInv.plain (h : Inv ip strict vs s) (ho : ¬o.Writes) (hs : ¬o.Spawns)
    (hpre : Pre ip strict (s.exec c) (vs (s.exec c)) o) (hstep : smpStep c o s = .done r s') :
    NapInv (Function.update vs (s.exec c) (Next (s.exec c) c (vs (s.exec c)) s' o r)) s' := by
  have hproc := step_proc ho hstep
  have hthread := step_thread hs hstep
  have hhas : ∀ t, s'.Has t → s.Has t := fun t ht => by
    cases t with
    | scheduler d => trivial
    | proc i => rwa [Sys.Has, hthread] at ht
  have hsleep : ∀ p, (s'.proc p).state = .sleeping → (s.proc p).state = .sleeping ∧ (s'.proc p).chan = (s.proc p).chan :=
    fun p hp => by
      rw [hproc] at hp ⊢
      exact ⟨hp, rfl⟩
  cases o with
  | release l => exact NapInv.release h hstep
  | note e =>
    cases hstep
    exact NapInv.note h hpre
  | swtchBack =>
    cases hstep
    refine h.nap.frame rfl rfl rfl hhas (fun p hp => Or.inl (hsleep p hp)) (fun t => ?_) fun t => ?_
    · by_cases htc : t = s.exec c
      · rw [htc, Function.update_self]; rfl
      · rw [Function.update_of_ne htc]
    · by_cases htc : t = s.exec c
      · rw [htc, Function.update_self]
        exact Or.inl rfl
      · rw [Function.update_of_ne htc]
        exact Or.inr rfl
  | resetContext => exact absurd trivial hs
  | _ => exact NapInv.other h (by exact id) hstep hhas fun p hp => Or.inl (hsleep p hp)

/-! ## Assignments, `freeproc` and new threads -/

theorem NapInv.put (h : Inv ip strict vs s) {f : Field} {r : Unit}
    (hpre : Pre ip strict (s.exec c) (vs (s.exec c)) (.put p f)) :
    NapInv (Function.update vs (s.exec c) (Next (s.exec c) c (vs (s.exec c)) (s.put p f) (.put p f) r)) (s.put p f) := by
  refine NapInv.other h (by exact id) (by exact rfl) (fun t => Has.of_put.mp) fun i hs => ?_
  by_cases hip : i = p
  · subst hip
    rw [put_proc, Function.update_self] at hs ⊢
    rcases h.put_cases hpre with ⟨hc, hrun, hown⟩ | ⟨-, x, hx, hother⟩
    · refine Or.inr ⟨h.exec.thread_of_exec hc, ?_⟩
      rcases apply_state f (s.proc i) with he | ⟨st, rfl, -⟩
      · rw [he, hrun] at hs
        cases hs
      · change st = _ at hs
        subst hs
        obtain ⟨-, ch, lk, hd, hch, -⟩ := hown
        rw [hc] at hd hch
        exact ⟨ch, lk, hd, (h.table.own i (h.exec.thread_of_exec hc)).chan.trans hch⟩
    · obtain ⟨-, -, hag⟩ := h.snap_exec hx
      refine Or.inl ?_
      rcases hother.state_cases hag.state with he | ⟨rfl, -⟩ | ⟨rfl, -⟩ | ⟨rfl, -⟩
      · refine ⟨he ▸ hs, ?_⟩
        cases f with
        | chan => exact hother.elim
        | _ => rfl
      all_goals cases hs
  · rw [put_proc, Function.update_of_ne hip] at hs ⊢
    exact Or.inl ⟨hs, rfl⟩

theorem NapInv.freeproc (h : Inv ip strict vs s) {r : Unit} :
    NapInv (Function.update vs (s.exec c) (Next (s.exec c) c (vs (s.exec c)) (s.freeproc c p) (.freeproc p) r))
      (s.freeproc c p) := by
  refine NapInv.other h (by exact id) (by exact rfl) (fun t ht => (Has.of_freeproc ht).1) fun i hs => Or.inl ?_
  by_cases hip : i = p
  · rw [hip, freeproc_proc, Function.update_self] at hs
    cases hs
  · rw [freeproc_proc, Function.update_of_ne hip] at hs ⊢
    exact ⟨hs, rfl⟩

theorem NapInv.resetContext (h : Inv ip strict vs s)
    (hpre : Pre ip strict (s.exec c) (vs (s.exec c)) (.resetContext p)) :
    NapInv (spawned vs (s.exec c) p (s.proc p).pid) { s with hist := s.hist.reset p } := by
  obtain ⟨-, -, x, hx, hu, -⟩ := hpre
  obtain ⟨-, hne, hag⟩ := h.snap_exec hx
  have hne' : ∀ {i : Slot}, i ≠ p → Thread.proc i ≠ .proc p := fun hi hf => hi (Thread.proc.inj hf)
  have hview : ∀ t, t ≠ .proc p → (spawned vs (s.exec c) p (s.proc p).pid t).nap = (vs t).nap := fun t ht => by
    by_cases htc : t = s.exec c
    · rw [htc, spawned_exec _ hne]
    · rw [spawned_of_ne _ ht htc]
  refine h.nap.renew (p := p) rfl ?_ (fun i hi => Function.update_of_ne hi ..) rfl
    (fun i hi ht => Has.of_reset (t := .proc i) ht (hne' hi)) (fun i hi => by rw [hview _ (hne' hi)]) (fun ch lk hd => ?_)
    (fun n q hn _ => ?_) fun t ht => ?_
  · rw [hag.state, hu]
    exact ProcState.noConfusion
  · rw [spawned_self] at hd
    cases hd
  · cases (Function.update_self (f := s.hist.nap) ..).symm.trans hn
  · by_cases htp : t = .proc p
    · subst htp
      exact Or.inl ⟨if_pos rfl, by rw [spawned_self]; rfl⟩
    · exact Or.inr ⟨Has.of_reset ht htp, if_neg htp, by rw [hview t htp]⟩

end Xv6Arm.Smp

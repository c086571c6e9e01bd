import Xv6Arm.Virtio.Steps

/-!
# The interrupt handler and the invariant

The handler takes the elements of the used ring in order. Between clearing
`b->disk` and moving `used_idx` the element counts as dealt with although it is
still in the ring.
-/
namespace Xv6Arm.Virtio
open Lib

/-- `wakeup` pays what the thread owes. -/
theorem Naps.wake {lies owes : ℕ → Option Chan} {s s' : Sys} {t : ℕ} {ch : Chan} (h : Naps lies owes s)
    (ht : ∀ c, owes t = some c → c = ch) (hdisk : s'.disk = s.disk)
    (hasleep : s'.asleep = fun v => if s.asleep v = some ch then none else s.asleep v) :
    Naps lies (Function.update owes t none) s' := by
  have hold : ∀ v c, s'.asleep v = some c → s.asleep v = some c ∧ c ≠ ch := by
    intro v c hv
    simp only [hasleep] at hv
    split at hv
    · cases hv
    · next hne =>
      refine ⟨hv, ?_⟩
      rintro rfl
      exact hne hv
  refine ⟨fun v c hv => h.bed v c (hold v c hv).1, ?_⟩
  intro v c hv
  obtain ⟨hv, hne⟩ := hold v c hv
  rcases h.reason v c hv with hreason | ⟨x, hx⟩
  · exact .inl (by rwa [hdisk])
  · refine .inr ⟨x, ?_⟩
    rwa [Function.update_of_ne]
    rintro rfl
    exact hne (ht c hx)

namespace InvOf
variable {vs : ℕ → View} {s s' : Sys} {q p u p' u' : List ℕ} {t : ℕ} {D D' : Disk} {x x' : Hand}

/-- A step of the handler. -/
theorem hand (h : InvOf vs s q p u) (hv : vs t = .hand D x) (hlock : s'.lock = s.lock) (hdisk : s'.disk = D')
    (hcalls : s'.calls = s.calls) (hblk : s'.blockno = s.blockno) (hbroken : s'.broken = s.broken)
    (howners : Owners (fun v => (vs v).own) (fun v => (vs v).chain) D')
    (hflow : Flow (fun v => (vs v).chain) q p' u' s') (hok : x'.Ok u' s') (hp : p' = x'.reaped)
    (hnaps : Naps (fun v => (vs v).bed) (Function.update (fun v => (vs v).owes) t (View.hand D' x').owes) s')
    (hbells : Bells (Function.update (fun v => (vs v).phase) t (some x')) (fun v => (vs v).rings) s') :
    InvOf (Function.update vs t (.hand D' x')) s' q p' u' := by
  have hheld : (vs t).held = some D := by rw [hv]; rfl
  constructor
  · rw [proj_update_self]
    exact h.mutex.keep hheld hlock hdisk
  · rw [proj_update View.req (by rw [hv]; rfl), proj_update View.turns (by rw [hv]; rfl)]
    exact h.callers.congr hcalls hblk
  · rw [proj_update View.own (by rw [hv]; rfl), proj_update View.chain (by rw [hv]; rfl), hdisk]
    exact howners
  · rw [proj_update View.chain (by rw [hv]; rfl)]
    exact hflow
  · rw [proj_update_self]
    constructor
    · intro v y hy
      by_cases hvt : v = t
      · rw [hvt, Function.update_self] at hy
        cases hy
        exact ⟨hok, hp⟩
      · rw [Function.update_of_ne hvt, h.phase_none] at hy
        · cases hy
        · rw [(h.mutex.held t D hheld).2]
          exact fun heq => hvt (Option.some.inj heq).symm
    · intro hnone
      have ht := hnone t
      rw [Function.update_self] at ht
      cases ht
  · rw [proj_update View.bed (by rw [hv]; rfl), proj_update_self]
    exact hnaps
  · rw [proj_update_self, proj_update View.rings (by rw [hv]; rfl)]
    exact hbells
  · exact hbroken.trans h.broken

/-- A step that only finds something out. -/
theorem handRead (h : InvOf vs s q p u) (hv : vs t = .hand D x) (hok : x'.Ok u s) (hp : x'.reaped = x.reaped)
    (howes : (View.hand D x').owes = (View.hand D x).owes)
    (hsweeps : x.sweeps = true → x'.sweeps = true ∨ s.disk.usedIdx = s.used.idx) :
    InvOf (Function.update vs t (.hand D x')) s q p u := by
  have hphase : (vs t).phase = some x := by rw [hv]; rfl
  have hD := (h.mutex.held t D (by rw [hv]; rfl)).1
  refine h.hand hv rfl hD rfl rfl rfl (hD ▸ h.owners) h.flow hok ?_ ?_ ?_
  · rw [hp]
    exact (h.hands.ok t x hphase).2
  · have hsame : Function.update (fun v => (vs v).owes) t (View.hand D x').owes = fun v => (vs v).owes := by
      rw [howes, ← hv]
      exact Function.update_eq_self t _
    rw [hsame]
    exact h.naps
  · refine ⟨h.bells.notify, ?_⟩
    intro hne
    rcases h.bells.interrupt hne with hisr | hraise | ⟨v, y, hy, hs⟩
    · exact .inl hisr
    · exact .inr (.inl hraise)
    · refine .inr (.inr ?_)
      by_cases hvt : v = t
      · rw [hvt, hphase] at hy
        cases hy
        rcases hsweeps hs with hs' | heq
        · exact ⟨t, x', Function.update_self _ _ _, hs'⟩
        · exact absurd heq hne
      · exact ⟨v, y, by rwa [Function.update_of_ne hvt], hs⟩

/-- A request whose status is not 0 has failed. -/
theorem landed_status (h : InvOf vs s q p u) {i : ℕ} (hi : i ∈ u) (hst : s.status i ≠ 0) :
    s.failed = true := by
  obtain ⟨v, c, hc, rfl, hb, hanswer⟩ := h.flow.landed i (List.mem_append_right _ hi)
  rcases hanswer with ⟨h0, -⟩ | ⟨-, hf⟩
  · exact absurd h0 hst
  · exact hf

end InvOf

namespace Inv
variable {vs : ℕ → View} {s : Sys} {t : ℕ} {D : Disk}

theorem wakeupFree (h : Inv vs s) {r : Req} {own : List ℕ} {owe served : Bool}
    (hv : vs t = .work D r own owe served) :
    Inv (Function.update vs t (.work D r own false served))
      { s with asleep := fun v => if s.asleep v = some .free then none else s.asleep v } := by
  obtain ⟨q, p, u, h⟩ := h
  refine ⟨q, p, u, ?_⟩
  constructor
  · rw [proj_update View.held (by rw [hv]; rfl)]
    exact h.mutex.congr rfl rfl
  · rw [proj_update View.req (by rw [hv]; rfl), proj_update View.turns (by rw [hv]; rfl)]
    exact h.callers.congr rfl rfl
  · rw [proj_update View.own (by rw [hv]; rfl), proj_update View.chain (by rw [hv]; rfl)]
    exact h.owners
  · rw [proj_update View.chain (by rw [hv]; rfl)]
    exact h.flow.congr rfl rfl rfl rfl h.flow.avail fun _ _ _ => ⟨rfl, rfl, rfl⟩
  · rw [proj_update View.phase (by rw [hv]; rfl)]
    exact h.hands.congr rfl rfl
  · rw [proj_update View.bed (by rw [hv]; rfl), proj_update_self]
    refine h.naps.wake ?_ rfl rfl
    intro c hc
    rw [hv] at hc
    cases owe with
    | true => exact (Option.some.inj hc).symm
    | false => cases hc
  · rw [proj_update View.phase (by rw [hv]; rfl), proj_update View.rings (by rw [hv]; rfl)]
    exact h.bells.congr rfl rfl rfl rfl rfl rfl
  · exact h.broken

theorem acquireHand (h : Inv vs s) (hv : vs t = .out) (hl : s.lock = none) :
    Inv (Function.update vs t (.hand s.disk .enter)) { s with lock := some t } := by
  obtain ⟨q, p, u, h⟩ := h
  have hnone : ∀ v, (vs v).phase = none := fun v => h.phase_none (by simp [hl])
  have hp : p = [] := h.hands.idle hnone
  refine ⟨q, p, u, ?_⟩
  constructor
  · rw [proj_update_self]
    exact h.mutex.take hl rfl rfl
  · rw [proj_update View.req (by rw [hv]; rfl), proj_update View.turns (by rw [hv]; rfl)]
    exact h.callers.congr rfl rfl
  · rw [proj_update View.own (by rw [hv]; rfl), proj_update View.chain (by rw [hv]; rfl)]
    exact h.owners
  · rw [proj_update View.chain (by rw [hv]; rfl)]
    exact h.flow.congr rfl rfl rfl rfl h.flow.avail fun _ _ _ => ⟨rfl, rfl, rfl⟩
  · rw [proj_update_self]
    refine ⟨?_, fun _ => hp⟩
    intro v y hy
    rw [Function.update_apply] at hy
    split at hy
    · cases hy
      exact ⟨trivial, hp⟩
    · rw [hnone v] at hy
      cases hy
  · rw [proj_update View.bed (by rw [hv]; rfl), proj_update View.owes (by rw [hv]; rfl)]
    exact h.naps.congr rfl rfl
  · rw [proj_update View.rings (by rw [hv]; rfl)]
    refine ⟨h.bells.notify, ?_⟩
    intro hne
    rcases h.bells.interrupt hne with hisr | hraise | ⟨v, y, hy, -⟩
    · exact .inl hisr
    · exact .inr (.inl hraise)
    · rw [hnone v] at hy
      cases hy
  · exact h.broken

theorem releaseHand (h : Inv vs s) (hv : vs t = .hand D .done) :
    Inv (Function.update vs t .out) { s with lock := none } := by
  obtain ⟨q, p, u, h⟩ := h
  have hheld : (vs t).held = some D := by rw [hv]; rfl
  have hphase : (vs t).phase = some .done := by rw [hv]; rfl
  have hp : p = [] := (h.hands.ok t .done hphase).2
  have hnone : ∀ v, Function.update (fun v => (vs v).phase) t none v = none := by
    intro v
    by_cases hvt : v = t
    · rw [hvt, Function.update_self]
    · rw [Function.update_of_ne hvt, h.phase_none]
      rw [(h.mutex.held t D hheld).2]
      exact fun heq => hvt (Option.some.inj heq).symm
  refine ⟨q, p, u, ?_⟩
  constructor
  · rw [proj_update_self]
    exact h.mutex.give hheld rfl
  · rw [proj_update View.req (by rw [hv]; rfl), proj_update View.turns (by rw [hv]; rfl)]
    exact h.callers.congr rfl rfl
  · rw [proj_update View.own (by rw [hv]; rfl), proj_update View.chain (by rw [hv]; rfl)]
    exact h.owners
  · rw [proj_update View.chain (by rw [hv]; rfl)]
    exact h.flow.congr rfl rfl rfl rfl h.flow.avail fun _ _ _ => ⟨rfl, rfl, rfl⟩
  · rw [proj_update_self]
    refine ⟨?_, fun _ => hp⟩
    intro v y hy
    exact absurd ((hnone v).symm.trans hy) (by simp)
  · rw [proj_update View.bed (by rw [hv]; rfl), proj_update View.owes (by rw [hv]; rfl)]
    exact h.naps.congr rfl rfl
  · rw [proj_update View.rings (by rw [hv]; rfl)]
    refine ⟨h.bells.notify, ?_⟩
    intro hne
    rcases h.bells.interrupt hne with hisr | hraise | ⟨v, y, hy, hs⟩
    · exact .inl hisr
    · exact .inr (.inl hraise)
    · -- The handler has left the loop, so it is not the one that still looks.
      have hvt : v = t := by
        by_contra hvt
        have hv' := hnone v
        rw [Function.update_of_ne hvt, hy] at hv'
        cases hv'
      rw [hvt, hphase] at hy
      cases hy
      cases hs
  · exact h.broken

theorem ack (h : Inv vs s) (hv : vs t = .hand D .enter) (st : UInt32) :
    Inv (Function.update vs t (.hand D .sweep)) { s with isr := s.isr &&& ~~~st } := by
  obtain ⟨q, p, u, h⟩ := h
  have hD := (h.mutex.held t D (by rw [hv]; rfl)).1
  have hsame : Function.update (fun v => (vs v).owes) t (View.hand D .sweep).owes = fun v => (vs v).owes := by
    have howes : (View.hand D .sweep).owes = (vs t).owes := by rw [hv]; rfl
    rw [howes]
    exact Function.update_eq_self t _
  refine ⟨q, p, u, h.hand hv rfl hD rfl rfl rfl (hD ▸ h.owners)
    (h.flow.congr rfl rfl rfl rfl h.flow.avail fun _ _ _ => ⟨rfl, rfl, rfl⟩) trivial ?_ ?_ ?_⟩
  · exact (h.hands.ok t .enter (by rw [hv]; rfl)).2
  · rw [hsame]
    exact h.naps.congr rfl rfl
  · exact ⟨h.bells.notify, fun _ => .inr (.inr ⟨t, .sweep, Function.update_self _ _ _, rfl⟩)⟩

/-- Nothing is left in the used ring. -/
theorem sweepDone (h : Inv vs s) (hv : vs t = .hand D .sweep) (heq : s.used.idx = D.usedIdx) :
    Inv (Function.update vs t (.hand D .done)) s := by
  obtain ⟨q, p, u, h⟩ := h
  obtain ⟨rfl, -⟩ := h.mutex.held t D (by rw [hv]; rfl)
  exact ⟨q, p, u, h.handRead hv trivial rfl rfl fun _ => .inr heq.symm⟩

theorem sweepFound (h : Inv vs s) (hv : vs t = .hand D .sweep) (hne : s.used.idx ≠ D.usedIdx) :
    Inv (Function.update vs t (.hand D .found)) s := by
  obtain ⟨q, p, u, h⟩ := h
  obtain ⟨rfl, -⟩ := h.mutex.held t D (by rw [hv]; rfl)
  have hp : p = [] := (h.hands.ok t .sweep (by rw [hv]; rfl)).2
  refine ⟨q, p, u, h.handRead hv ?_ rfl rfl fun _ => .inl rfl⟩
  rintro rfl
  subst hp
  exact hne ((h.flow.used.empty_iff (by decide)).mpr rfl).symm

theorem getId (h : Inv vs s) (hv : vs t = .hand D .found) :
    Inv (Function.update vs t (.hand D (.got (s.used.ring (D.usedIdx % NUM))))) s := by
  obtain ⟨q, p, u, h⟩ := h
  obtain ⟨rfl, -⟩ := h.mutex.held t D (by rw [hv]; rfl)
  obtain ⟨hu, hp⟩ := h.hands.ok t .found (by rw [hv]; rfl)
  refine ⟨q, p, u, h.handRead hv ?_ rfl rfl fun _ => .inl rfl⟩
  cases u with
  | nil => exact absurd rfl hu
  | cons i l =>
    have hused : Ring.Holds NUM (2 ^ 16) s.used.ring s.disk.usedIdx s.used.idx (i :: l) := by
      simpa [hp, Hand.reaped] using h.flow.used
    exact ⟨l, by rw [(hused.take (by decide)).1]⟩

theorem statusBad (h : Inv vs s) {i : ℕ} (hv : vs t = .hand D (.got i)) (hst : s.status i ≠ 0) :
    Inv (Function.update vs t (.hand D .bad)) s := by
  obtain ⟨q, p, u, h⟩ := h
  obtain ⟨⟨l, rfl⟩, hp⟩ := h.hands.ok t (.got i) (by rw [hv]; rfl)
  exact ⟨q, p, _, h.handRead hv (h.landed_status (List.mem_cons_self ..) hst) rfl rfl fun _ => .inl rfl⟩

theorem statusClean (h : Inv vs s) {i : ℕ} (hv : vs t = .hand D (.got i)) (hst : s.status i = 0) :
    Inv (Function.update vs t (.hand D (.clean i))) s := by
  obtain ⟨q, p, u, h⟩ := h
  obtain ⟨hl, hp⟩ := h.hands.ok t (.got i) (by rw [hv]; rfl)
  exact ⟨q, p, u, h.handRead hv ⟨hl, hst⟩ rfl rfl fun _ => .inl rfl⟩

end Inv

theorem Owners.sameDesc {own : ℕ → List ℕ} {chain : ℕ → Option Chain} {d d' : Disk} (h : Owners own chain d)
    (hdesc : d'.desc = d.desc) (hops : d'.ops = d.ops) (hinfo : d'.infoB = d.infoB) (hfree : d'.free = d.free) :
    Owners own chain d' := by
  refine ⟨?_, h.disj, by rw [hfree]; exact h.cover, ?_⟩
  · intro v
    have hv := h.owned v
    exact ⟨hv.nodup, hv.lt, by rw [hfree]; exact hv.taken⟩
  · intro v x hx
    obtain ⟨hown, hfmt⟩ := h.format v x hx
    refine ⟨hown, hfmt.frame ?_⟩
    intro i _
    rw [hdesc, hops, hinfo]
    exact ⟨rfl, rfl, rfl⟩

theorem line_used_cons (s : Sys) (q l : List ℕ) (i : ℕ) : (line s q (i :: l)).Perm (i :: line s q l) := by
  simp only [line, ← List.append_assoc]
  exact List.perm_middle

/-- The element at the front of the used ring is dealt with: its buffer, and only that, is unmarked. -/
theorem Flow.clear {chain : ℕ → Option Chain} {q l : List ℕ} {s : Sys} {i v b : ℕ} {c : Chain}
    (h : Flow chain q [] (i :: l) s) (hc : chain v = some c) (hci : c.i = i) (hb : c.req.b = b)
    (hserved : Served s v c 1)
    (hbuf : ∀ v' c', chain v' = some c' → c'.req.b = b ∨ c'.i = i → v' = v ∧ c' = c) :
    Flow chain q [i] l { s with disk := s.disk.store (.bufDisk b false) } := by
  -- Nobody else waits for this buffer or uses this head.
  have hmark : ∀ v' c', chain v' = some c' → c'.i ≠ i → (s.disk.store (.bufDisk b false)).bufDisk c'.req.b =
      s.disk.bufDisk c'.req.b := by
    intro v' c' hc' hne
    apply Function.update_of_ne
    intro hb'
    obtain ⟨-, rfl⟩ := hbuf v' c' hc' (.inl hb')
    exact hne hci
  have hother : ∀ j ∈ line s q l, j ≠ i := by
    rintro j hj rfl
    exact (List.nodup_cons.mp ((line_used_cons s q l j).nodup_iff.mp h.nodup)).1 hj
  refine ⟨h.avail, h.used, h.out, h.seen, h.nodup, ?_, ?_, ?_, ?_, ?_, ?_⟩
  · intro j hj
    obtain ⟨v', c', hc', rfl, hb', hn⟩ := h.queued j hj
    exact ⟨v', c', hc', rfl, (hmark v' c' hc' (hother _ (List.mem_append_left _ hj))).trans hb', hn⟩
  · intro f hf
    obtain ⟨v', c', hc', hfc, hb', hn⟩ := h.flying f hf
    have hhead : f.head = c'.i := by rw [hfc]; rfl
    have hne : c'.i ≠ i := by
      rw [← hhead]
      apply hother
      simp only [line, List.mem_append, List.mem_map]
      exact .inr (.inl ⟨f, hf, rfl⟩)
    refine ⟨v', c', hc', hfc, (hmark v' c' hc' hne).trans hb', ?_⟩
    cases hstage : f.stage <;> rw [hstage] at hn <;> exact hn
  · intro j hj
    have hj' : j ∈ s.dev.out.toList ++ i :: l := by
      rcases List.mem_append.mp hj with hj | hj
      · exact List.mem_append_left _ hj
      · exact List.mem_append_right _ (List.mem_cons_of_mem _ hj)
    obtain ⟨v', c', hc', rfl, hb', hn⟩ := h.landed j hj'
    have hne : c'.i ≠ i := hother _ (List.mem_append_right _ (List.mem_append_right _ hj))
    exact ⟨v', c', hc', rfl, (hmark v' c' hc' hne).trans hb', hn⟩
  · intro j hj
    rw [List.mem_singleton] at hj
    exact ⟨v, c, hc, hci.trans hj.symm, by simp [Disk.store, hb]⟩
  · intro v' c' hc' hb'
    have hbb : c'.req.b ≠ b := by
      rintro hbb
      simp [Disk.store, hbb] at hb'
    have hold : s.disk.bufDisk c'.req.b = true := by simpa [Disk.store, hbb] using hb'
    rcases List.mem_cons.mp ((line_used_cons s q l i).mem_iff.mp (h.waiting v' c' hc' hold)) with hi | hi
    · obtain ⟨-, rfl⟩ := hbuf v' c' hc' (.inr hi)
      exact absurd hb hbb
    · exact hi
  · intro v' c' hc' hb'
    by_cases hbb : c'.req.b = b
    · obtain ⟨rfl, rfl⟩ := hbuf v' c' hc' (.inl hbb)
      exact hserved
    · exact h.done v' c' hc' (by simpa [Disk.store, hbb] using hb')

namespace Inv
variable {vs : ℕ → View} {s : Sys} {t : ℕ} {D : Disk}

theorem clear (h : Inv vs s) {i b : ℕ} (hv : vs t = .hand D (.clean i)) (hb : D.infoB i = some b) :
    Inv (Function.update vs t (.hand (D.store (.bufDisk b false)) (.cleared i b)))
      { s with disk := s.disk.store (.bufDisk b false) } := by
  obtain ⟨q, p, u, h⟩ := h
  obtain ⟨rfl, -⟩ := h.mutex.held t D (by rw [hv]; rfl)
  obtain ⟨⟨⟨l, rfl⟩, hst⟩, rfl⟩ := h.hands.ok t (.clean i) (by rw [hv]; rfl)
  obtain ⟨v, c, hc, rfl, -, hanswer⟩ := h.flow.landed i (List.mem_append_right _ (List.mem_cons_self ..))
  have hserved : Served s v c 1 := by
    rcases hanswer with ⟨-, hn⟩ | ⟨hne, -⟩
    · exact hn
    · exact absurd hst hne
  have hcb : c.req.b = b := by
    have hinfo := (h.owners.format v c hc).2.buf
    rw [hinfo] at hb
    exact Option.some.inj hb
  have honly : ∀ v' c', (vs v').chain = some c' → c'.req.b = b ∨ c'.i = c.i → v' = v ∧ c' = c := by
    rintro v' c' hc' (hb' | hi)
    · have hvv := h.req_unique (View.req_of_chain hc') (View.req_of_chain hc) (hb'.trans hcb.symm)
      subst hvv
      rw [hc] at hc'
      exact ⟨rfl, (Option.some.inj hc').symm⟩
    · exact h.chain_unique hc' hc hi
  refine ⟨q, [c.i], l, h.hand hv rfl rfl rfl rfl rfl (h.owners.sameDesc rfl rfl rfl rfl)
    (h.flow.clear hc rfl hcb hserved honly) trivial rfl ?_ ?_⟩
  · refine ⟨h.naps.bed, ?_⟩
    intro x ch hx
    by_cases hch : ch = .buf b
    · exact .inr ⟨t, by rw [Function.update_self, hch]; rfl⟩
    · rcases h.naps.reason x ch hx with hreason | ⟨y, hy⟩
      · left
        cases ch with
        | free => exact hreason
        | buf b' =>
          have hne : b' ≠ b := fun hbb => hch (by rw [hbb])
          simpa [Reason, Disk.store, hne] using hreason
      · refine .inr ⟨y, ?_⟩
        rwa [Function.update_of_ne]
        rintro rfl
        rw [hv] at hy
        cases hy
  · exact ⟨h.bells.notify, fun _ => .inr (.inr ⟨t, _, Function.update_self _ _ _, rfl⟩)⟩

theorem wakeupBuf (h : Inv vs s) {i b : ℕ} (hv : vs t = .hand D (.cleared i b)) :
    Inv (Function.update vs t (.hand D (.woken i)))
      { s with asleep := fun v => if s.asleep v = some (.buf b) then none else s.asleep v } := by
  obtain ⟨q, p, u, h⟩ := h
  have hD := (h.mutex.held t D (by rw [hv]; rfl)).1
  obtain ⟨-, hp⟩ := h.hands.ok t (.cleared i b) (by rw [hv]; rfl)
  refine ⟨q, p, u, h.hand hv rfl hD rfl rfl rfl (hD ▸ h.owners)
    (h.flow.congr rfl rfl rfl rfl h.flow.avail fun _ _ _ => ⟨rfl, rfl, rfl⟩) trivial hp ?_ ?_⟩
  · refine h.naps.wake ?_ rfl rfl
    intro c hc
    rw [hv] at hc
    exact (Option.some.inj hc).symm
  · exact ⟨h.bells.notify, fun _ => .inr (.inr ⟨t, _, Function.update_self _ _ _, rfl⟩)⟩

theorem advance (h : Inv vs s) {i : ℕ} (hv : vs t = .hand D (.woken i)) :
    Inv (Function.update vs t (.hand (D.store (.usedIdx ((D.usedIdx + 1) % 2 ^ 16))) .sweep))
      { s with disk := s.disk.store (.usedIdx ((D.usedIdx + 1) % 2 ^ 16)) } := by
  obtain ⟨q, p, u, h⟩ := h
  obtain ⟨rfl, -⟩ := h.mutex.held t D (by rw [hv]; rfl)
  obtain ⟨-, rfl⟩ := h.hands.ok t (.woken i) (by rw [hv]; rfl)
  refine ⟨q, [], u, h.hand hv rfl rfl rfl rfl rfl (h.owners.sameDesc rfl rfl rfl rfl) ?_ trivial rfl ?_ ?_⟩
  · have hnodup := (List.nodup_cons.mp ((line_used_cons s q u i).nodup_iff.mp h.flow.nodup)).2
    refine ⟨h.flow.avail, (h.flow.used.take (by decide)).2, h.flow.out, h.flow.seen, hnodup, h.flow.queued, ?_,
      h.flow.landed, ?_, h.flow.waiting, h.flow.done⟩
    · intro f hf
      obtain ⟨v, c, hc, hfc, hb, hn⟩ := h.flow.flying f hf
      refine ⟨v, c, hc, hfc, hb, ?_⟩
      cases hstage : f.stage <;> rw [hstage] at hn <;> exact hn
    · intro j hj
      cases hj
  · have hsame : Function.update (fun v => (vs v).owes) t
        (View.hand (s.disk.store (.usedIdx ((s.disk.usedIdx + 1) % 2 ^ 16))) .sweep).owes = fun v => (vs v).owes := by
      have howes : (View.hand (s.disk.store (.usedIdx ((s.disk.usedIdx + 1) % 2 ^ 16))) .sweep).owes =
          (vs t).owes := by rw [hv]; rfl
      rw [howes]
      exact Function.update_eq_self t _
    rw [hsame]
    refine ⟨h.naps.bed, ?_⟩
    intro x ch hx
    rcases h.naps.reason x ch hx with hreason | howes
    · left
      cases ch <;> exact hreason
    · exact .inr howes
  · exact ⟨h.bells.notify, fun _ => .inr (.inr ⟨t, _, Function.update_self _ _ _, rfl⟩)⟩

end Inv
end Xv6Arm.Virtio

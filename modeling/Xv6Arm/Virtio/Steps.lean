import Xv6Arm.Virtio.Invariant

/-!
# What each request of the driver does to the invariant
-/
namespace Xv6Arm.Virtio
open Lib

/-! ## The lock -/

namespace Mutex
variable {known : ℕ → Option Disk} {s s' : Sys} {t : ℕ} {D D' : Disk}

theorem take (h : Mutex known s) (hfree : s.lock = none) (hlock : s'.lock = some t) (hdisk : s'.disk = D') :
    Mutex (Function.update known t (some D')) s' := by
  constructor
  · intro u E hu
    rw [Function.update_apply] at hu
    split at hu
    · next hut =>
      cases hu
      exact ⟨hdisk, by rw [hlock, hut]⟩
    · rw [(h.held u E hu).2] at hfree
      cases hfree
  · intro u hu
    rw [hlock] at hu
    cases hu
    exact ⟨_, Function.update_self _ _ _⟩

theorem give (h : Mutex known s) (ht : known t = some D) (hlock : s'.lock = none) :
    Mutex (Function.update known t none) s' := by
  constructor
  · intro u E hu
    rw [Function.update_apply] at hu
    split at hu
    · cases hu
    · next hut =>
      have hboth := (h.held u E hu).2
      rw [(h.held t D ht).2] at hboth
      exact absurd (Option.some.inj hboth).symm hut
  · intro u hu
    rw [hlock] at hu
    cases hu

/-- The holder changes what only it may change. -/
theorem keep (h : Mutex known s) (ht : known t = some D) (hlock : s'.lock = s.lock) (hdisk : s'.disk = D') :
    Mutex (Function.update known t (some D')) s' := by
  have hs := (h.held t D ht).2
  constructor
  · intro u E hu
    rw [Function.update_apply] at hu
    split at hu
    · next hut =>
      cases hu
      exact ⟨hdisk, by rw [hlock, hs, hut]⟩
    · next hut =>
      have hboth := (h.held u E hu).2
      rw [hs] at hboth
      exact absurd (Option.some.inj hboth).symm hut
  · intro u hu
    rw [hlock, hs] at hu
    cases hu
    exact ⟨_, Function.update_self _ _ _⟩

theorem congr (h : Mutex known s) (hlock : s'.lock = s.lock) (hdisk : s'.disk = s.disk) : Mutex known s' := by
  obtain ⟨h1, h2⟩ := h
  constructor <;> simpa only [hlock, hdisk]

end Mutex

/-- Callers whose knowledge about their request is still right. -/
theorem Callers.recount {req : ℕ → Option Req} {count count' : ℕ → Option ℕ} {s s' : Sys}
    (h : Callers req count s) (hcalls : s'.calls = s.calls) (hblk : s'.blockno = s.blockno)
    (hcount : ∀ t r n, req t = some r → count' t = some n → s.calls r.b = some ⟨t, r.write, n⟩) :
    Callers req count' s' := by
  obtain ⟨h1, h2, h3, -, h5⟩ := h
  constructor <;> simpa only [hcalls, hblk]

namespace InvOf
variable {vs : ℕ → View} {s s' : Sys} {q p u : List ℕ} {t : ℕ}

/-- The lock changes hands; the thread is what it was otherwise, and does not sleep any more. -/
theorem relock (h : InvOf vs s q p u) {w : View} {l : Option ℕ}
    (hmutex : Mutex (Function.update (fun v => (vs v).held) t w.held) { s with lock := l })
    (hreq : w.req = (vs t).req) (hturns : w.turns = (vs t).turns) (hown : w.own = (vs t).own)
    (hchain : w.chain = (vs t).chain) (hphase : w.phase = (vs t).phase) (howes : w.owes = (vs t).owes)
    (hrings : w.rings = (vs t).rings) (hbed : w.bed = (vs t).bed ∨ s.asleep t = none) :
    InvOf (Function.update vs t w) { s with lock := l } q p u := by
  constructor
  · rwa [proj_update_self]
  · rw [proj_update _ hreq, proj_update _ hturns]
    exact h.callers.congr rfl rfl
  · rw [proj_update _ hown, proj_update _ hchain]
    exact h.owners
  · rw [proj_update _ hchain]
    exact h.flow.congr rfl rfl rfl rfl h.flow.avail fun _ _ _ => ⟨rfl, rfl, rfl⟩
  · rw [proj_update _ hphase]
    exact h.hands.congr rfl rfl
  · rw [proj_update _ howes]
    refine ⟨?_, h.naps.reason⟩
    intro v ch hv
    rw [Function.update_apply]
    split
    · next hvt =>
      subst hvt
      rcases hbed with hbed | hbed
      · rw [hbed]
        exact h.naps.bed v ch hv
      · exact absurd hv (by simp [hbed])
    · exact h.naps.bed v ch hv
  · rw [proj_update _ hphase, proj_update _ hrings]
    exact h.bells.congr rfl rfl rfl rfl rfl rfl
  · exact h.broken

/-- Nobody is in the handler while somebody else, or nobody, has the lock. -/
theorem phase_none (h : InvOf vs s q p u) {v : ℕ} (hv : s.lock ≠ some v) : (vs v).phase = none := by
  cases hview : vs v with
  | hand D x =>
    refine absurd (h.mutex.held v D ?_).2 hv
    rw [hview]
    rfl
  | _ => rfl

/-- A thread that is not in the handler but has the lock knows that the handler has left nothing behind. -/
theorem reaped_nil (h : InvOf vs s q p u) {D : Disk} (hheld : (vs t).held = some D)
    (hphase : (vs t).phase = none) : p = [] := by
  apply h.hands.idle
  intro v
  by_cases hvt : v = t
  · rwa [hvt]
  · apply h.phase_none
    rw [(h.mutex.held t D hheld).2]
    exact fun heq => hvt (Option.some.inj heq).symm

end InvOf

namespace Inv
variable {vs : ℕ → View} {s : Sys} {t : ℕ}

theorem acquireCall (h : Inv vs s) {r : Req} (hv : vs t = .called r) (hl : s.lock = none) :
    Inv (Function.update vs t (.work s.disk r [] false false)) { s with lock := some t } := by
  obtain ⟨q, p, u, h⟩ := h
  refine ⟨q, p, u, h.relock (h.mutex.take hl rfl rfl) ?_ ?_ ?_ ?_ ?_ ?_ ?_ (.inl ?_)⟩ <;> rw [hv] <;> rfl

theorem resumeFree (h : Inv vs s) {r : Req} (hv : vs t = .napFree r) (hl : s.lock = none)
    (ha : s.asleep t = none) :
    Inv (Function.update vs t (.work s.disk r [] false false)) { s with lock := some t } := by
  obtain ⟨q, p, u, h⟩ := h
  refine ⟨q, p, u, h.relock (h.mutex.take hl rfl rfl) ?_ ?_ ?_ ?_ ?_ ?_ ?_ (.inr ha)⟩ <;> rw [hv] <;> rfl

theorem resumeBuf (h : Inv vs s) {c : Chain} (hv : vs t = .nap c) (hl : s.lock = none) (ha : s.asleep t = none) :
    Inv (Function.update vs t (.wait s.disk c false)) { s with lock := some t } := by
  obtain ⟨q, p, u, h⟩ := h
  refine ⟨q, p, u, h.relock (h.mutex.take hl rfl rfl) ?_ ?_ ?_ ?_ ?_ ?_ ?_ (.inr ha)⟩ <;> rw [hv] <;> rfl

theorem releaseCall (h : Inv vs s) {D : Disk} {r : Req} (hv : vs t = .work D r [] false true) :
    Inv (Function.update vs t (.back r)) { s with lock := none } := by
  obtain ⟨q, p, u, h⟩ := h
  have hheld : (vs t).held = some D := by
    rw [hv]
    rfl
  refine ⟨q, p, u, h.relock (h.mutex.give hheld rfl) ?_ ?_ ?_ ?_ ?_ ?_ ?_ (.inl ?_)⟩ <;> rw [hv] <;> rfl

end Inv

/-! ## Stores on the way to a request and back -/

section
variable {D : Disk} {r : Req} {l : List ℕ} {w : Store} {i : ℕ}

/-- Descriptors in use by others are left alone. -/
theorem Store.May.frame (hw : w.May D r l) (hi : D.free i = false) (hil : i ∉ l) :
    (D.store w).desc i = D.desc i ∧ (D.store w).ops i = D.ops i ∧ (D.store w).infoB i = D.infoB i ∧
      (D.store w).free i = false := by
  cases w with
  | opType j v | opReserved j v | opSector j v | descAddr j v | descLen j v | descFlags j v | descNext j v
  | infoB j v =>
    have hij : i ≠ j := fun h => hil (h ▸ hw)
    simp [Disk.store, Disk.setDesc, Disk.setOp, hij, hi]
  | bufDisk b v | availRing j v | availIdx v | usedIdx v => exact ⟨rfl, rfl, rfl, hi⟩
  | free j v =>
    refine ⟨rfl, rfl, rfl, ?_⟩
    have hij : i ≠ j := by
      rintro rfl
      cases v with
      | true => exact hil hw
      | false => simp [hw.2] at hi
    simp [Disk.store, hij, hi]

theorem Store.May.rings (hw : w.May D r l) :
    (D.store w).avail.idx = D.avail.idx ∧ (D.store w).usedIdx = D.usedIdx := by
  cases w with
  | availIdx v | usedIdx v => exact hw.elim
  | _ => exact ⟨rfl, rfl⟩

/-- Only the call's own buffer is marked. -/
theorem Store.May.bufDisk (hw : w.May D r l) {b : ℕ} (hb : b ≠ r.b) : (D.store w).bufDisk b = D.bufDisk b := by
  cases w with
  | bufDisk b' v =>
    have hne : b ≠ b' := hw.1 ▸ hb
    simp [Disk.store, hne]
  | _ => rfl

theorem Store.May.mem_own (hw : w.May D r l) (hi : i ∈ w.own l) :
    i ∈ l ∨ i < NUM ∧ D.free i = true := by
  cases w with
  | free j v =>
    cases v with
    | true => exact .inl (List.mem_of_mem_erase hi)
    | false =>
      rcases List.mem_cons.mp hi with rfl | hi
      · exact .inr hw
      · exact .inl hi
  | _ => exact .inl hi

theorem Store.May.owned (hw : w.May D r l) (hl : Owned D l) : Owned (D.store w) (w.own l) := by
  cases w with
  | free j v =>
    cases v with
    | true =>
      refine ⟨hl.nodup.erase j, fun i hi => hl.lt i (List.mem_of_mem_erase hi), ?_⟩
      intro i hi
      have hij := (hl.nodup.mem_erase_iff.mp hi).1
      simp [Disk.store, hij, hl.taken i (List.mem_of_mem_erase hi)]
    | false =>
      have hj : j ∉ l := by
        intro hj
        have hfree : D.free j = true := hw.2
        simp [hl.taken j hj] at hfree
      refine ⟨List.nodup_cons.mpr ⟨hj, hl.nodup⟩, ?_, ?_⟩
      · intro i hi
        rcases List.mem_cons.mp hi with rfl | hi
        · exact hw.1
        · exact hl.lt i hi
      · intro i hi
        rcases List.mem_cons.mp hi with rfl | hi
        · simp [Disk.store]
        · have hij : i ≠ j := fun h => hj (h ▸ hi)
          simp [Disk.store, hij, hl.taken i hi]
  | _ => exact ⟨hl.nodup, hl.lt, hl.taken⟩

/-- A descriptor that is in use now is one of the thread's own or was in use before. -/
theorem Store.May.cover (hl : Owned D l) (hi : (D.store w).free i = false) :
    i ∈ w.own l ∨ D.free i = false ∧ (i ∈ l → i ∈ w.own l) := by
  cases w with
  | free j v =>
    by_cases hij : i = j
    · subst hij
      cases v with
      | true => simp [Disk.store] at hi
      | false => exact .inl (List.mem_cons_self ..)
    · have hfree : D.free i = false := by simpa [Disk.store, hij] using hi
      refine .inr ⟨hfree, ?_⟩
      intro hil
      cases v with
      | true => exact (hl.nodup.mem_erase_iff).mpr ⟨hij, hil⟩
      | false => exact List.mem_cons_of_mem _ hil
  | _ => exact .inr ⟨hi, fun h => h⟩

theorem Formatted.frame {D' : Disk} {c : Chain} (h : Formatted D c)
    (hsame : ∀ i ∈ c.own, D'.desc i = D.desc i ∧ D'.ops i = D.ops i ∧ D'.infoB i = D.infoB i) : Formatted D' c := by
  have hi := hsame c.i (by simp [Chain.own])
  have hj := hsame c.j (by simp [Chain.own])
  have hk := hsame c.k (by simp [Chain.own])
  exact ⟨hi.2.1.trans h.op, hi.1.trans h.head, hj.1.trans h.body, hk.1.trans h.tail, hi.2.2.trans h.buf⟩

theorem Owners.work {own : ℕ → List ℕ} {chain : ℕ → Option Chain} {t : ℕ} (h : Owners own chain D)
    (ht : own t = l) (hc : chain t = none) (hw : w.May D r l) :
    Owners (Function.update own t (w.own l)) chain (D.store w) := by
  subst ht
  have hother : ∀ v, v ≠ t → ∀ i ∈ own v, i ∉ own t := fun v hv i hi hit => hv (h.disj v t i hi hit)
  constructor
  · intro v
    rw [Function.update_apply]
    split
    · exact hw.owned (h.owned t)
    · next hvt =>
      have hv := h.owned v
      exact ⟨hv.nodup, hv.lt, fun i hi => (hw.frame (hv.taken i hi) (hother v hvt i hi)).2.2.2⟩
  · have hself : ∀ v, v ≠ t → ∀ i, i ∈ w.own (own t) → i ∉ own v := by
      intro v hv i hi hiv
      rcases hw.mem_own hi with hit | ⟨-, hfree⟩
      · exact hother v hv i hiv hit
      · simp [(h.owned v).taken i hiv] at hfree
    intro v x i hi hx
    rw [Function.update_apply] at hi hx
    split at hi <;> split at hx
    · next hvt hxt => rw [hvt, hxt]
    · next hxt => exact absurd hx (hself x hxt i hi)
    · next hvt _ => exact absurd hi (hself v hvt i hx)
    · exact h.disj v x i hi hx
  · intro i hi hfree
    rcases Store.May.cover (h.owned t) hfree with hit | ⟨hold, hkeep⟩
    · exact ⟨t, by rwa [Function.update_self]⟩
    · obtain ⟨v, hv⟩ := h.cover i hi hold
      refine ⟨v, ?_⟩
      rw [Function.update_apply]
      split
      · next hvt => exact hkeep (hvt ▸ hv)
      · exact hv
  · intro v c hv
    have hvt : v ≠ t := by
      rintro rfl
      rw [hc] at hv
      cases hv
    obtain ⟨hown, hfmt⟩ := h.format v c hv
    refine ⟨by rw [Function.update_of_ne hvt, hown], hfmt.frame ?_⟩
    intro i hi
    rw [← hown] at hi
    have hsame := hw.frame ((h.owned v).taken i hi) (hother v hvt i hi)
    exact ⟨hsame.1, hsame.2.1, hsame.2.2.1⟩

/-- Taking descriptors makes no sleeper's reason go away, and giving one back makes the thread owe a `wakeup`. -/
theorem Store.May.reason (hw : w.May D r l) {ch : Chan} (h : Reason D ch) :
    Reason (D.store w) ch ∨ w.frees = true ∧ ch = .free := by
  cases w with
  | bufDisk b v =>
    cases ch with
    | free => exact .inl h
    | buf b' =>
      left
      by_cases hb : b' = b
      · simp [Reason, Disk.store, hb, hw.2]
      · simpa [Reason, Disk.store, hb] using h
  | free j v =>
    cases ch with
    | buf b => exact .inl h
    | free =>
      cases v with
      | true => exact .inr ⟨rfl, rfl⟩
      | false =>
        refine .inl (lt_of_le_of_lt (Finset.card_le_card ?_) h)
        intro i hi
        rw [Finset.mem_filter] at hi ⊢
        refine ⟨hi.1, ?_⟩
        by_contra hf
        have hij : i ≠ j := fun h => hf (h ▸ hw.2)
        simp [Disk.store, hij, hf] at hi
  | _ =>
    cases ch with
    | free => exact .inl h
    | buf b => exact .inl h

end

namespace InvOf
variable {vs : ℕ → View} {s : Sys} {q p u : List ℕ} {t : ℕ}

/-- A descriptor of a thread without a published chain is not on the way to the device. -/
theorem not_mem_line (h : InvOf vs s q p u) {i : ℕ} (hi : i ∈ (vs t).own) (hc : (vs t).chain = none) :
    i ∉ line s q (p ++ u) := by
  intro hline
  obtain ⟨v, c, hv, rfl⟩ := h.mem_line hline
  have hvt : v = t := h.owners.disj v t _ (h.chain_own hv) hi
  rw [hvt, hc] at hv
  cases hv

/-- Such a thread finds room in both rings. -/
theorem room (h : InvOf vs s q p u) {i : ℕ} (hi : i ∈ (vs t).own) (hc : (vs t).chain = none) :
    (line s q (p ++ u)).length < NUM := by
  have hlen : (i :: line s q (p ++ u)).length ≤ NUM := by
    apply length_le_NUM (List.nodup_cons.mpr ⟨h.not_mem_line hi hc, h.flow.nodup⟩)
    intro j hj
    rcases List.mem_cons.mp hj with rfl | hj
    · exact (h.owners.owned t).lt _ hi
    · obtain ⟨v, c, hv, rfl⟩ := h.mem_line hj
      exact (h.owners.owned v).lt _ (h.chain_own hv)
  simpa using hlen

theorem avail_room (h : InvOf vs s q p u) {i : ℕ} (hi : i ∈ (vs t).own) (hc : (vs t).chain = none) :
    q.length ≠ NUM := by
  have hroom := h.room hi hc
  rw [line, List.length_append] at hroom
  omega

theorem work_avail (h : InvOf vs s q p u) {r : Req} {own : List ℕ} {w : Store} (hown : (vs t).own = own)
    (hchain : (vs t).chain = none) (hw : w.May s.disk r own) :
    Ring.Holds NUM (2 ^ 16) (s.disk.store w).avail.ring s.dev.last (s.disk.store w).avail.idx q := by
  cases w with
  | availIdx v => exact hw.elim
  | availRing i x =>
    obtain ⟨rfl, hx⟩ := hw
    exact h.flow.avail.write (by decide) (h.avail_room (hown ▸ hx) hchain) x
  | _ => exact h.flow.avail

end InvOf

theorem Inv.work {vs : ℕ → View} {s : Sys} {t : ℕ} (h : Inv vs s) {D : Disk} {r : Req} {own : List ℕ}
    {owe served : Bool} {w : Store} (hv : vs t = .work D r own owe served) (hw : w.May D r own) :
    Inv (Function.update vs t (.work (D.store w) r (w.own own) (owe || w.frees) served))
      { s with disk := s.disk.store w } := by
  obtain ⟨q, p, u, h⟩ := h
  have hheld : (vs t).held = some D := by rw [hv]; rfl
  obtain ⟨rfl, hlock⟩ := h.mutex.held t D hheld
  have hown : (vs t).own = own := by rw [hv]; rfl
  have hchain : (vs t).chain = none := by rw [hv]; rfl
  have hreq : (vs t).req = some r := by rw [hv]; rfl
  refine ⟨q, p, u, ?_⟩
  constructor
  · rw [proj_update_self]
    exact h.mutex.keep hheld rfl rfl
  · rw [proj_update View.req (by rw [hv]; rfl), proj_update View.turns (by rw [hv]; rfl)]
    exact h.callers.congr rfl rfl
  · rw [proj_update_self, proj_update View.chain (by rw [hv]; rfl)]
    exact h.owners.work hown hchain hw
  · rw [proj_update View.chain (by rw [hv]; rfl)]
    refine h.flow.congr rfl rfl rfl hw.rings.2 ?_ ?_
    · exact h.work_avail hown hchain hw
    · intro v c hc
      refine ⟨hw.bufDisk ?_, rfl, rfl⟩
      intro hb
      have hvt := h.req_unique (View.req_of_chain hc) hreq hb
      rw [hvt, hchain] at hc
      cases hc
  · rw [proj_update View.phase (by rw [hv]; rfl)]
    exact h.hands.congr rfl rfl
  · rw [proj_update View.bed (by rw [hv]; rfl), proj_update_self]
    refine ⟨h.naps.bed, ?_⟩
    intro v ch ha
    -- What the thread owed before it still owes.
    have howes : ∀ x, (vs x).owes = some ch → Function.update (fun y => (vs y).owes) t
        (View.work (s.disk.store w) r (w.own own) (owe || w.frees) served).owes x = some ch := by
      intro x hx
      rw [Function.update_apply]
      split
      · next hxt =>
        rw [hxt, hv] at hx
        cases owe with
        | true => exact hx
        | false => cases hx
      · exact hx
    rcases h.naps.reason v ch ha with hreason | ⟨x, hx⟩
    · rcases hw.reason hreason with hreason | ⟨hfrees, rfl⟩
      · exact .inl hreason
      · refine .inr ⟨t, ?_⟩
        rw [Function.update_self, hfrees, Bool.or_true]
        rfl
    · exact .inr ⟨x, howes x hx⟩
  · rw [proj_update View.phase (by rw [hv]; rfl), proj_update View.rings (by rw [hv]; rfl)]
    refine ⟨?_, ?_⟩
    · rw [hw.rings.1]
      exact h.bells.notify
    · rw [hw.rings.2]
      exact h.bells.interrupt
  · exact h.broken

/-! ## Publishing a chain -/

theorem Owners.publish {own : ℕ → List ℕ} {chain : ℕ → Option Chain} {d d' : Disk} {t : ℕ} {c : Chain}
    (h : Owners own chain d) (ht : own t = c.own) (hf : Formatted d c) (hdesc : d'.desc = d.desc)
    (hops : d'.ops = d.ops) (hinfo : d'.infoB = d.infoB) (hfree : d'.free = d.free) :
    Owners own (Function.update chain t (some c)) d' := by
  have hsame : ∀ i, d'.desc i = d.desc i ∧ d'.ops i = d.ops i ∧ d'.infoB i = d.infoB i := by
    intro i
    rw [hdesc, hops, hinfo]
    exact ⟨rfl, rfl, rfl⟩
  refine ⟨?_, h.disj, by rw [hfree]; exact h.cover, ?_⟩
  · intro v
    have hv := h.owned v
    exact ⟨hv.nodup, hv.lt, by rw [hfree]; exact hv.taken⟩
  · intro v x hx
    rw [Function.update_apply] at hx
    split at hx
    · next hvt =>
      cases hx
      exact ⟨hvt ▸ ht, hf.frame fun i _ => hsame i⟩
    · obtain ⟨hown, hfmt⟩ := h.format v x hx
      exact ⟨hown, hfmt.frame fun i _ => hsame i⟩

theorem line_snoc (s : Sys) (q u : List ℕ) (i : ℕ) : (line s (q ++ [i]) u).Perm (i :: line s q u) := by
  rw [line, line, List.append_assoc, List.singleton_append]
  exact List.perm_middle

/-- A chain that was in nobody's hands joins the queue. -/
theorem Flow.publish {chain : ℕ → Option Chain} {q p u : List ℕ} {s s' : Sys} {t : ℕ} {c : Chain}
    (h : Flow chain q p u s) (ht : chain t = none) (hi : c.i ∉ line s q (p ++ u)) (hroom : q.length ≠ NUM)
    (hring : s.disk.avail.ring (s.disk.avail.idx % NUM) = c.i) (hbuf : s.disk.bufDisk c.req.b = true)
    (hserved : Served s t c 0)
    (hs' : s' = { s with disk := s.disk.store (.availIdx ((s.disk.avail.idx + 1) % 2 ^ 16)) }) :
    Flow (Function.update chain t (some c)) (q ++ [c.i]) p u s' := by
  subst hs'
  have hold : ∀ {v x}, chain v = some x → Function.update chain t (some c) v = some x := by
    intro v x hx
    rwa [Function.update_of_ne]
    rintro rfl
    rw [ht] at hx
    cases hx
  constructor
  · have hcommit := h.avail.commit (by decide) hroom
    rwa [hring] at hcommit
  · exact h.used
  · exact h.out
  · obtain ⟨n, hn, hseen⟩ := h.seen
    refine ⟨n, ?_, hseen⟩
    rw [List.length_append]
    omega
  · exact (line_snoc s q (p ++ u) c.i).nodup_iff.mpr (List.nodup_cons.mpr ⟨hi, h.nodup⟩)
  · intro i hi
    rcases List.mem_append.mp hi with hi | hi
    · obtain ⟨v, x, hx, hxi⟩ := h.queued i hi
      exact ⟨v, x, hold hx, hxi⟩
    · rw [List.mem_singleton] at hi
      exact ⟨t, c, Function.update_self _ _ _, hi.symm, hbuf, hserved⟩
  · intro f hf
    obtain ⟨v, x, hx, hxi⟩ := h.flying f hf
    refine ⟨v, x, hold hx, hxi.1, hxi.2.1, ?_⟩
    cases hstage : f.stage <;> rw [hstage] at hxi <;> exact hxi.2.2
  · intro i hi
    obtain ⟨v, x, hx, hxi⟩ := h.landed i hi
    exact ⟨v, x, hold hx, hxi⟩
  · intro i hi
    obtain ⟨v, x, hx, hxi⟩ := h.reaped i hi
    exact ⟨v, x, hold hx, hxi⟩
  · intro v x hx hb
    rw [Function.update_apply] at hx
    refine (line_snoc s q u c.i).mem_iff.mpr (List.mem_cons.mpr ?_)
    split at hx
    · cases hx
      exact .inl rfl
    · exact .inr (h.waiting v x hx hb)
  · intro v x hx hb
    rw [Function.update_apply] at hx
    split at hx
    · cases hx
      exact absurd (hbuf.symm.trans hb) (by decide)
    · exact h.done v x hx hb

theorem Inv.publish {vs : ℕ → View} {s : Sys} {t : ℕ} (h : Inv vs s) {D : Disk} {c : Chain}
    (hv : vs t = .work D c.req c.own false false) (hf : Formatted D c) (hbuf : D.bufDisk c.req.b = true)
    (hring : D.avail.ring (D.avail.idx % NUM) = c.i) :
    Inv (Function.update vs t (.wait (D.store (.availIdx ((D.avail.idx + 1) % 2 ^ 16))) c true))
      { s with disk := s.disk.store (.availIdx ((D.avail.idx + 1) % 2 ^ 16)) } := by
  obtain ⟨q, p, u, h⟩ := h
  have hheld : (vs t).held = some D := by rw [hv]; rfl
  obtain ⟨rfl, hlock⟩ := h.mutex.held t D hheld
  have hown : (vs t).own = c.own := by rw [hv]; rfl
  have hchain : (vs t).chain = none := by rw [hv]; rfl
  have hi : c.i ∈ (vs t).own := by simp [hown, Chain.own]
  refine ⟨q ++ [c.i], p, u, ?_⟩
  constructor
  · rw [proj_update_self]
    exact h.mutex.keep hheld rfl rfl
  · rw [proj_update View.req (by rw [hv]; rfl), proj_update_self]
    refine h.callers.recount rfl rfl ?_
    intro v r n hr hn
    rw [Function.update_apply] at hn
    split at hn
    · cases hn
    · exact h.callers.turns v r n hr hn
  · rw [proj_update View.own (by rw [hv]; rfl), proj_update_self]
    exact h.owners.publish hown hf rfl rfl rfl rfl
  · rw [proj_update_self]
    refine h.flow.publish hchain (h.not_mem_line hi hchain) (h.avail_room hi hchain) hring hbuf ?_ rfl
    exact h.callers.turns t c.req 0 (by rw [hv]; rfl) (by rw [hv]; rfl)
  · rw [proj_update View.phase (by rw [hv]; rfl)]
    exact h.hands.congr rfl rfl
  · rw [proj_update View.bed (by rw [hv]; rfl), proj_update View.owes (by rw [hv]; rfl)]
    refine ⟨h.naps.bed, ?_⟩
    intro v ch hch
    rcases h.naps.reason v ch hch with hreason | howes
    · left
      cases ch <;> exact hreason
    · exact .inr howes
  · rw [proj_update View.phase (by rw [hv]; rfl), proj_update_self]
    refine ⟨fun _ => .inr ⟨t, Function.update_self _ _ _⟩, h.bells.interrupt⟩
  · exact h.broken

/-! ## Taking a chain back -/

theorem Owners.reclaim {own : ℕ → List ℕ} {chain : ℕ → Option Chain} {d : Disk} {t : ℕ} {c : Chain}
    (h : Owners own chain d) (ht : chain t = some c) :
    Owners own (Function.update chain t none) (d.store (.infoB c.i none)) := by
  refine ⟨?_, h.disj, h.cover, ?_⟩
  · intro v
    have hv := h.owned v
    exact ⟨hv.nodup, hv.lt, hv.taken⟩
  · intro v x hx
    rw [Function.update_apply] at hx
    split at hx
    · cases hx
    · next hvt =>
      obtain ⟨hown, hfmt⟩ := h.format v x hx
      refine ⟨hown, hfmt.frame ?_⟩
      intro i hi
      have hne : i ≠ c.i := by
        rintro rfl
        rw [← hown] at hi
        refine hvt (h.disj v t c.i hi ?_)
        rw [(h.format t c ht).1]
        simp [Chain.own]
      simp [Disk.store, hne]

/-- A chain whose buffer is no longer marked leaves. -/
theorem Flow.reclaim {chain : ℕ → Option Chain} {q u : List ℕ} {s : Sys} {t : ℕ} {c : Chain}
    (h : Flow chain q [] u s) (ht : chain t = some c) (hbuf : s.disk.bufDisk c.req.b = false) :
    Flow (Function.update chain t none) q [] u s := by
  have hother : ∀ {v x}, chain v = some x → s.disk.bufDisk x.req.b = true →
      Function.update chain t none v = some x := by
    intro v x hx hb
    rwa [Function.update_of_ne]
    rintro rfl
    rw [ht] at hx
    cases hx
    rw [hbuf] at hb
    cases hb
  have hback : ∀ {v x}, Function.update chain t none v = some x → chain v = some x := by
    intro v x hx
    rw [Function.update_apply] at hx
    split at hx
    · cases hx
    · exact hx
  refine ⟨h.avail, h.used, h.out, h.seen, h.nodup, ?_, ?_, ?_, ?_, ?_, ?_⟩
  · intro i hi
    obtain ⟨v, x, hx, hxi, hb, hn⟩ := h.queued i hi
    exact ⟨v, x, hother hx hb, hxi, hb, hn⟩
  · intro f hf
    obtain ⟨v, x, hx, hxi, hb, hn⟩ := h.flying f hf
    exact ⟨v, x, hother hx hb, hxi, hb, hn⟩
  · intro i hi
    obtain ⟨v, x, hx, hxi, hb, hn⟩ := h.landed i hi
    exact ⟨v, x, hother hx hb, hxi, hb, hn⟩
  · intro i hi
    cases hi
  · intro v x hx
    exact h.waiting v x (hback hx)
  · intro v x hx
    exact h.done v x (hback hx)

theorem Inv.reclaim {vs : ℕ → View} {s : Sys} {t : ℕ} (h : Inv vs s) {D : Disk} {c : Chain}
    (hv : vs t = .wait D c false) (hbuf : D.bufDisk c.req.b = false) :
    Inv (Function.update vs t (.work (D.store (.infoB c.i none)) c.req c.own false true))
      { s with disk := s.disk.store (.infoB c.i none) } := by
  obtain ⟨q, p, u, h⟩ := h
  have hheld : (vs t).held = some D := by rw [hv]; rfl
  obtain ⟨rfl, hlock⟩ := h.mutex.held t D hheld
  have hchain : (vs t).chain = some c := by rw [hv]; rfl
  have hp : p = [] := h.reaped_nil hheld (by rw [hv]; rfl)
  subst hp
  refine ⟨q, [], u, ?_⟩
  constructor
  · rw [proj_update_self]
    exact h.mutex.keep hheld rfl rfl
  · rw [proj_update View.req (by rw [hv]; rfl), proj_update_self]
    refine h.callers.recount rfl rfl ?_
    intro v r n hr hn
    rw [Function.update_apply] at hn
    split at hn
    · next hvt =>
      cases hn
      have hrc : r = c.req := by
        rw [hvt, hv] at hr
        exact (Option.some.inj hr).symm
      rw [hrc, hvt]
      exact h.flow.done t c hchain hbuf
    · exact h.callers.turns v r n hr hn
  · rw [proj_update View.own (by rw [hv]; rfl), proj_update_self]
    exact h.owners.reclaim hchain
  · rw [proj_update_self]
    exact (h.flow.reclaim hchain hbuf).congr rfl rfl rfl rfl h.flow.avail fun _ _ _ => ⟨rfl, rfl, rfl⟩
  · rw [proj_update View.phase (by rw [hv]; rfl)]
    exact h.hands.congr rfl rfl
  · rw [proj_update View.bed (by rw [hv]; rfl), proj_update View.owes (by rw [hv]; rfl)]
    refine ⟨h.naps.bed, ?_⟩
    intro v ch hch
    rcases h.naps.reason v ch hch with hreason | howes
    · left
      cases ch <;> exact hreason
    · exact .inr howes
  · rw [proj_update View.phase (by rw [hv]; rfl), proj_update View.rings (by rw [hv]; rfl)]
    exact h.bells.congr rfl rfl rfl rfl rfl rfl
  · exact h.broken

/-! ## Status, notification, sleep and return -/

namespace Inv
variable {vs : ℕ → View} {s : Sys} {t : ℕ}

theorem setStatus (h : Inv vs s) {D : Disk} {r : Req} {own : List ℕ} {owe served : Bool} {i : ℕ} (st : UInt8)
    (hv : vs t = .work D r own owe served) (hi : i ∈ own) :
    Inv vs { s with status := Function.update s.status i st } := by
  obtain ⟨q, p, u, h⟩ := h
  have hheld : (vs t).held = some D := by rw [hv]; rfl
  have hown : i ∈ (vs t).own := by rw [hv]; exact hi
  have hchain : (vs t).chain = none := by rw [hv]; rfl
  refine ⟨q, p, u, h.mutex.congr rfl rfl, h.callers.congr rfl rfl, h.owners, ?_, ?_, h.naps.congr rfl rfl,
    h.bells.congr rfl rfl rfl rfl rfl rfl, h.broken⟩
  · refine h.flow.congr rfl rfl rfl rfl h.flow.avail ?_
    intro v c hc
    refine ⟨rfl, rfl, Function.update_of_ne ?_ _ _⟩
    rintro rfl
    have hvt : v = t := h.owners.disj v t _ (h.chain_own hc) hown
    rw [hvt, hchain] at hc
    cases hc
  · -- The thread that writes is not in the handler, so nobody is.
    refine ⟨?_, h.hands.idle⟩
    intro v x hx
    by_cases hvt : v = t
    · rw [hvt, hv] at hx
      cases hx
    · rw [h.phase_none] at hx
      · cases hx
      · rw [(h.mutex.held t D hheld).2]
        exact fun heq => hvt (Option.some.inj heq).symm

theorem notify (h : Inv vs s) {D : Disk} {c : Chain} (hv : vs t = .wait D c true) :
    Inv (Function.update vs t (.wait D c false)) { s with notified := true } := by
  obtain ⟨q, p, u, h⟩ := h
  refine ⟨q, p, u, ?_⟩
  constructor
  · rw [proj_update View.held (by rw [hv]; rfl)]
    exact h.mutex.congr rfl rfl
  · rw [proj_update View.req (by rw [hv]; rfl), proj_update View.turns (by rw [hv]; rfl)]
    exact h.callers.congr rfl rfl
  · rw [proj_update View.own (by rw [hv]; rfl), proj_update View.chain (by rw [hv]; rfl)]
    exact h.owners
  · rw [proj_update View.chain (by rw [hv]; rfl)]
    exact h.flow.congr rfl rfl rfl rfl h.flow.avail fun _ _ _ => ⟨rfl, rfl, rfl⟩
  · rw [proj_update View.phase (by rw [hv]; rfl)]
    exact h.hands.congr rfl rfl
  · rw [proj_update View.bed (by rw [hv]; rfl), proj_update View.owes (by rw [hv]; rfl)]
    exact h.naps.congr rfl rfl
  · rw [proj_update View.phase (by rw [hv]; rfl)]
    exact ⟨fun _ => .inl rfl, h.bells.interrupt⟩
  · exact h.broken

end Inv

/-- The thread gives up the lock and sleeps. -/
theorem InvOf.doze {vs : ℕ → View} {s : Sys} {q p u : List ℕ} {t : ℕ} (h : InvOf vs s q p u) {D : Disk}
    {w : View} {ch : Chan} (hheld : (vs t).held = some D) (hheld' : w.held = none) (hreq : w.req = (vs t).req)
    (hturns : w.turns = (vs t).turns) (hown : w.own = (vs t).own) (hchain : w.chain = (vs t).chain)
    (hphase : w.phase = (vs t).phase) (howes : w.owes = (vs t).owes) (hrings : w.rings = (vs t).rings)
    (hbed : w.bed = some ch) (hreason : Reason D ch) :
    InvOf (Function.update vs t w) { s with lock := none, asleep := Function.update s.asleep t (some ch) } q p u := by
  obtain ⟨rfl, hlock⟩ := h.mutex.held t D hheld
  constructor
  · rw [proj_update_self, hheld']
    exact h.mutex.give hheld rfl
  · rw [proj_update _ hreq, proj_update _ hturns]
    exact h.callers.congr rfl rfl
  · rw [proj_update _ hown, proj_update _ hchain]
    exact h.owners
  · rw [proj_update _ hchain]
    exact h.flow.congr rfl rfl rfl rfl h.flow.avail fun _ _ _ => ⟨rfl, rfl, rfl⟩
  · rw [proj_update _ hphase]
    exact h.hands.congr rfl rfl
  · rw [proj_update _ howes]
    refine ⟨?_, ?_⟩
    · intro v ch' hv
      by_cases hvt : v = t
      · rw [hvt] at hv ⊢
        simp only [Function.update_self] at hv ⊢
        rw [hbed, hv]
      · simp only [Function.update_of_ne hvt] at hv ⊢
        exact h.naps.bed v ch' hv
    · intro v ch' hv
      by_cases hvt : v = t
      · rw [hvt] at hv
        simp only [Function.update_self] at hv
        cases hv
        exact .inl hreason
      · simp only [Function.update_of_ne hvt] at hv
        exact h.naps.reason v ch' hv
  · rw [proj_update _ hphase, proj_update _ hrings]
    exact h.bells.congr rfl rfl rfl rfl rfl rfl
  · exact h.broken

namespace Inv
variable {vs : ℕ → View} {s : Sys} {t : ℕ}

theorem dozeFree (h : Inv vs s) {D : Disk} {r : Req} (hv : vs t = .work D r [] false false) (hD : FewFree D) :
    Inv (Function.update vs t (.napFree r))
      { s with lock := none, asleep := Function.update s.asleep t (some .free) } := by
  obtain ⟨q, p, u, h⟩ := h
  refine ⟨q, p, u, h.doze (D := D) ?_ rfl ?_ ?_ ?_ ?_ ?_ ?_ ?_ rfl hD⟩ <;> rw [hv] <;> rfl

theorem dozeBuf (h : Inv vs s) {D : Disk} {c : Chain} (hv : vs t = .wait D c false)
    (hD : D.bufDisk c.req.b = true) :
    Inv (Function.update vs t (.nap c))
      { s with lock := none, asleep := Function.update s.asleep t (some (.buf c.req.b)) } := by
  obtain ⟨q, p, u, h⟩ := h
  refine ⟨q, p, u, h.doze (D := D) ?_ rfl ?_ ?_ ?_ ?_ ?_ ?_ ?_ rfl hD⟩ <;> rw [hv] <;> rfl

end Inv
end Xv6Arm.Virtio

import Xv6Arm.Virtio.Handler

/-!
# Callers, the device and the invariant

The device moves the head of a chain from the avail ring to its own list and from
there to the used ring, and carries out the request exactly once on the way.
-/
namespace Xv6Arm.Virtio
open Lib

/-! ## Calls begin and end -/

section
variable {req : ℕ → Option Req} {count : ℕ → Option ℕ} {s s' : Sys} {t : ℕ} {r : Req}

theorem Callers.start (h : Callers req count s) (ht : req t = none) (hb : s.calls r.b = none)
    (hn : s.blockno r.b = r.blockno) (hcalls : s'.calls = Function.update s.calls r.b (some ⟨t, r.write, 0⟩))
    (hblk : s'.blockno = s.blockno) : Callers (Function.update req t (some r)) (Function.update count t (some 0)) s' := by
  have hother : ∀ v r', req v = some r' → r'.b ≠ r.b := by
    intro v r' hr' hrb
    obtain ⟨n, hn⟩ := h.call v r' hr'
    rw [hrb, hb] at hn
    cases hn
  rw [← hblk] at hn
  constructor
  · intro v r' hr'
    rw [hcalls]
    rw [Function.update_apply] at hr'
    split at hr'
    · next hvt =>
      cases hr'
      exact ⟨0, by rw [Function.update_self, hvt]⟩
    · rw [Function.update_of_ne (hother v r' hr')]
      exact h.call v r' hr'
  · intro v r' hr'
    rw [Function.update_apply] at hr'
    split at hr'
    · cases hr'
      exact hn
    · rw [hblk]
      exact h.blockno v r' hr'
  · intro b c hc
    rw [hcalls, Function.update_apply] at hc
    split at hc
    · next hbr =>
      cases hc
      exact ⟨r, Function.update_self _ _ _, hbr.symm⟩
    · obtain ⟨r', hr', hrb⟩ := h.caller b c hc
      refine ⟨r', ?_, hrb⟩
      rwa [Function.update_of_ne]
      rintro hct
      rw [hct, ht] at hr'
      cases hr'
  · intro v r' n hr' hcount
    rw [hcalls]
    rw [Function.update_apply] at hr' hcount
    split at hr'
    · next hvt =>
      rw [if_pos hvt] at hcount
      cases hr'
      cases hcount
      rw [Function.update_self, hvt]
    · next hvt =>
      rw [if_neg hvt] at hcount
      rw [Function.update_of_ne (hother v r' hr')]
      exact h.turns v r' n hr' hcount
  · rw [hblk]
    exact h.small

theorem Callers.finish (h : Callers req count s) (ht : req t = some r)
    (hcalls : s'.calls = Function.update s.calls r.b none) (hblk : s'.blockno = s.blockno) :
    Callers (Function.update req t none) (Function.update count t none) s' := by
  have hback : ∀ v r', Function.update req t none v = some r' → v ≠ t ∧ req v = some r' ∧ r'.b ≠ r.b := by
    intro v r' hr'
    rw [Function.update_apply] at hr'
    split at hr'
    · cases hr'
    · next hvt => exact ⟨hvt, hr', fun hb => hvt (h.unique hr' ht hb)⟩
  constructor
  · intro v r' hr'
    obtain ⟨-, hr', hb⟩ := hback v r' hr'
    rw [hcalls, Function.update_of_ne hb]
    exact h.call v r' hr'
  · intro v r' hr'
    rw [hblk]
    exact h.blockno v r' (hback v r' hr').2.1
  · intro b c hc
    rw [hcalls, Function.update_apply] at hc
    split at hc
    · cases hc
    · next hb =>
      obtain ⟨r', hr', hrb⟩ := h.caller b c hc
      refine ⟨r', ?_, hrb⟩
      rwa [Function.update_of_ne]
      intro hct
      rw [hct, ht] at hr'
      cases hr'
      exact hb hrb.symm
  · intro v r' n hr' hn
    obtain ⟨hvt, hr', hb⟩ := hback v r' hr'
    rw [Function.update_of_ne hvt] at hn
    rw [hcalls, Function.update_of_ne hb]
    exact h.turns v r' n hr' hn
  · rw [hblk]
    exact h.small

/-- A request of a thread that does not know how far it is gets carried out once more. -/
theorem Callers.serve (h : Callers req count s) (ht : req t = some r) (hcount : count t = none) {n m : ℕ}
    (hn : s.calls r.b = some ⟨t, r.write, n⟩)
    (hcalls : s'.calls = Function.update s.calls r.b (some ⟨t, r.write, m⟩)) (hblk : s'.blockno = s.blockno) :
    Callers req count s' := by
  have hother : ∀ v r', req v = some r' → v ≠ t → r'.b ≠ r.b :=
    fun v r' hr' hvt hb => hvt (h.unique hr' ht hb)
  constructor
  · intro v r' hr'
    rw [hcalls]
    by_cases hvt : v = t
    · subst hvt
      rw [ht] at hr'
      cases hr'
      exact ⟨m, Function.update_self _ _ _⟩
    · rw [Function.update_of_ne (hother v r' hr' hvt)]
      exact h.call v r' hr'
  · rw [hblk]
    exact h.blockno
  · intro b c hc
    rw [hcalls, Function.update_apply] at hc
    split at hc
    · next hbr =>
      cases hc
      exact ⟨r, ht, hbr.symm⟩
    · exact h.caller b c hc
  · intro v r' k hr' hk
    have hvt : v ≠ t := by
      rintro rfl
      rw [hcount] at hk
      cases hk
    rw [hcalls, Function.update_of_ne (hother v r' hr' hvt)]
    exact h.turns v r' k hr' hk
  · rw [hblk]
    exact h.small

end

namespace Inv
variable {vs : ℕ → View} {s : Sys} {t : ℕ}

/-- The call returns, and the buffer belongs to its caller again. -/
theorem finish (h : Inv vs s) {r : Req} (hv : vs t = .back r) :
    Inv (Function.update vs t .out) { s with calls := Function.update s.calls r.b none } := by
  obtain ⟨q, p, u, h⟩ := h
  have hreq : (vs t).req = some r := by rw [hv]; rfl
  refine ⟨q, p, u, ?_⟩
  constructor
  · rw [proj_update View.held (by rw [hv]; rfl)]
    exact h.mutex.congr rfl rfl
  · rw [proj_update_self, proj_update_self]
    exact h.callers.finish hreq rfl rfl
  · rw [proj_update View.own (by rw [hv]; rfl), proj_update View.chain (by rw [hv]; rfl)]
    exact h.owners
  · rw [proj_update View.chain (by rw [hv]; rfl)]
    refine h.flow.congr rfl rfl rfl rfl h.flow.avail ?_
    intro v c hc
    refine ⟨rfl, Function.update_of_ne ?_ _ _, rfl⟩
    intro hb
    rw [h.req_unique (View.req_of_chain hc) hreq hb, hv] at hc
    cases hc
  · rw [proj_update View.phase (by rw [hv]; rfl)]
    exact h.hands.congr rfl rfl
  · rw [proj_update View.bed (by rw [hv]; rfl), proj_update View.owes (by rw [hv]; rfl)]
    exact h.naps.congr rfl rfl
  · rw [proj_update View.phase (by rw [hv]; rfl), proj_update View.rings (by rw [hv]; rfl)]
    exact h.bells.congr rfl rfl rfl rfl rfl rfl
  · exact h.broken

theorem call (h : Inv vs s) (hv : vs t = .out) {b : ℕ} (write : Bool) (hb : s.calls b = none) :
    Inv (Function.update vs t (.called ⟨b, write, s.blockno b⟩))
      { s with calls := Function.update s.calls b (some ⟨t, write, 0⟩) } := by
  obtain ⟨q, p, u, h⟩ := h
  refine ⟨q, p, u, ?_⟩
  constructor
  · rw [proj_update View.held (by rw [hv]; rfl)]
    exact h.mutex.congr rfl rfl
  · rw [proj_update_self, proj_update_self]
    exact h.callers.start (r := ⟨b, write, s.blockno b⟩) (by rw [hv]; rfl) hb rfl rfl rfl
  · rw [proj_update View.own (by rw [hv]; rfl), proj_update View.chain (by rw [hv]; rfl)]
    exact h.owners
  · rw [proj_update View.chain (by rw [hv]; rfl)]
    refine h.flow.congr rfl rfl rfl rfl h.flow.avail ?_
    intro v c hc
    refine ⟨rfl, Function.update_of_ne ?_ _ _, rfl⟩
    rintro rfl
    obtain ⟨n, hn⟩ := h.callers.call v c.req (View.req_of_chain hc)
    rw [hb] at hn
    cases hn
  · rw [proj_update View.phase (by rw [hv]; rfl)]
    exact h.hands.congr rfl rfl
  · rw [proj_update View.bed (by rw [hv]; rfl), proj_update View.owes (by rw [hv]; rfl)]
    exact h.naps.congr rfl rfl
  · rw [proj_update View.phase (by rw [hv]; rfl), proj_update View.rings (by rw [hv]; rfl)]
    exact h.bells.congr rfl rfl rfl rfl rfl rfl
  · exact h.broken

/-- A buffer without a call is changed. -/
theorem edit (h : Inv vs s) {b n : ℕ} (x : Block) (hb : s.calls b = none) (hn : n < MAXBLOCK) :
    Inv vs { s with
      blockno := Function.update s.blockno b n
      data := Function.update s.data b x } := by
  obtain ⟨q, p, u, h⟩ := h
  refine ⟨q, p, u, h.mutex.congr rfl rfl, ⟨h.callers.call, ?_, h.callers.caller, h.callers.turns, ?_⟩, h.owners,
    h.flow.congr rfl rfl rfl rfl h.flow.avail fun _ _ _ => ⟨rfl, rfl, rfl⟩, h.hands.congr rfl rfl,
    h.naps.congr rfl rfl, h.bells.congr rfl rfl rfl rfl rfl rfl, h.broken⟩
  · intro v r hr
    change Function.update s.blockno b n r.b = r.blockno
    rw [Function.update_of_ne]
    · exact h.callers.blockno v r hr
    · rintro rfl
      obtain ⟨k, hk⟩ := h.callers.call v r hr
      rw [hb] at hk
      cases hk
  · intro b'
    change Function.update s.blockno b n b' < MAXBLOCK
    rw [Function.update_apply]
    split
    · exact hn
    · exact h.callers.small b'

theorem wake (h : Inv vs s) (v : ℕ) : Inv vs { s with asleep := Function.update s.asleep v none } := by
  obtain ⟨q, p, u, h⟩ := h
  have hold : ∀ x ch, Function.update s.asleep v none x = some ch → s.asleep x = some ch := by
    intro x ch hx
    rw [Function.update_apply] at hx
    split at hx
    · cases hx
    · exact hx
  exact ⟨q, p, u, h.mutex.congr rfl rfl, h.callers.congr rfl rfl, h.owners,
    h.flow.congr rfl rfl rfl rfl h.flow.avail fun _ _ _ => ⟨rfl, rfl, rfl⟩, h.hands.congr rfl rfl,
    ⟨fun x ch hx => h.naps.bed x ch (hold x ch hx), fun x ch hx => h.naps.reason x ch (hold x ch hx)⟩,
    h.bells.congr rfl rfl rfl rfl rfl rfl, h.broken⟩

end Inv
/-! ## The device -/

/-- The device reads a published chain as the request that the call has made. -/
theorem fetch_formatted {d : Disk} {c : Chain} (h : Formatted d c) : fetch d c.i = some (c.fetched .taken) := by
  cases hw : c.req.write with
  | true =>
    simp [fetch, h.head, h.body, h.tail, h.op, hw, Chain.fetched]
    decide
  | false =>
    simp [fetch, h.head, h.body, h.tail, h.op, hw, Chain.fetched]
    decide

section
variable {chain : ℕ → Option Chain} {q p u : List ℕ} {s s' : Sys} {t : ℕ} {c : Chain} {l r : List Fetched}
  {f : Fetched}

/-- A request that the device has is in no other place. -/
theorem Flow.flight_perm (hl : s.dev.flight = l ++ f :: r) (x : List ℕ) :
    (line s q x).Perm (f.head :: (q ++ ((l ++ r).map Fetched.head ++ (s.dev.out.toList ++ x)))) := by
  simp only [line, hl, List.map_append, List.map_cons, List.append_assoc, List.cons_append]
  refine List.Perm.trans ?_ List.perm_middle
  exact List.Perm.append_left q List.perm_middle

theorem Flow.flight_head (h : Flow chain q p u s) (hl : s.dev.flight = l ++ f :: r) :
    f.head ∉ q ++ ((l ++ r).map Fetched.head ++ (s.dev.out.toList ++ (p ++ u))) :=
  (List.nodup_cons.mp ((Flow.flight_perm hl (p ++ u)).nodup_iff.mp h.nodup)).1

theorem Stage.Ok.congr {x : Stage} (h : x.Ok s t c) (hcalls : s'.calls c.req.b = s.calls c.req.b)
    (hstatus : s'.status c.i = s.status c.i) (hfailed : s.failed = true → s'.failed = true) : x.Ok s' t c := by
  have hserved : ∀ n, Served s t c n → Served s' t c n := fun n hn => hcalls.trans hn
  have hanswer : ∀ st, Answer s t c st → Answer s' t c st := by
    rintro st (⟨hst, hn⟩ | ⟨hst, hf⟩)
    · exact .inl ⟨hst, hserved 1 hn⟩
    · exact .inr ⟨hst, hfailed hf⟩
  cases x with
  | taken => exact hserved 0 h
  | answered st => exact hanswer st h
  | stamped =>
    rw [Stage.Ok, hstatus]
    exact hanswer _ h

/-- The device goes on with a request of chain `c`. -/
theorem Flow.restage (h : Flow chain q p u s) (hl : s.dev.flight = l ++ f :: r) (hc : chain t = some c)
    (hfc : f = c.fetched f.stage) (hbuf : s.disk.bufDisk c.req.b = true)
    (honly : ∀ v x, chain v = some x → x.i = c.i → v = t ∧ x = c) (st : Stage) (hdisk : s'.disk = s.disk)
    (hused : s'.used = s.used) (hdev : s'.dev = { s.dev with flight := l ++ { f with stage := st } :: r })
    (hfailed : s.failed = true → s'.failed = true)
    (hother : ∀ v x, chain v = some x → x.i ≠ c.i →
      s'.calls x.req.b = s.calls x.req.b ∧ s'.status x.i = s.status x.i)
    (hok : st.Ok s' t c) : Flow chain q p u s' := by
  have hhead : f.head = c.i := by rw [hfc]; rfl
  have hnot := h.flight_head hl
  rw [hhead] at hnot
  have hline : ∀ x, line s' q x = line s q x := by
    intro x
    simp [line, hl, hdev]
  have hstay : ∀ v x (y : Stage), chain v = some x → x.i ≠ c.i → y.Ok s v x → y.Ok s' v x := by
    intro v x y hx hne hy
    exact hy.congr (hother v x hx hne).1 (hother v x hx hne).2 hfailed
  constructor
  · rw [hdisk, hdev]
    exact h.avail
  · rw [hdisk, hused]
    exact h.used
  · rw [hdev, hused]
    exact h.out
  · rw [hdev]
    exact h.seen
  · rw [hline]
    exact h.nodup
  · intro i hi
    obtain ⟨v, x, hx, rfl, hb, hn⟩ := h.queued i hi
    have hne : x.i ≠ c.i := fun heq => hnot (heq ▸ List.mem_append_left _ hi)
    exact ⟨v, x, hx, rfl, hdisk ▸ hb, hstay v x .taken hx hne hn⟩
  · intro g hg
    rw [hdev] at hg
    have hcases : g = { f with stage := st } ∨ g ∈ l ++ r := by
      simp only [List.mem_append, List.mem_cons] at hg ⊢
      rcases hg with hg | hg | hg
      · exact .inr (.inl hg)
      · exact .inl hg
      · exact .inr (.inr hg)
    rcases hcases with rfl | hg
    · refine ⟨t, c, hc, ?_, hdisk ▸ hbuf, hok⟩
      rw [hfc]
      rfl
    · have hg' : g ∈ s.dev.flight := by
        rw [hl]
        simp only [List.mem_append, List.mem_cons] at hg ⊢
        rcases hg with hg | hg
        · exact .inl hg
        · exact .inr (.inr hg)
      obtain ⟨v, x, hx, hgx, hb, hn⟩ := h.flying g hg'
      have hgi : g.head = x.i := by rw [hgx]; rfl
      have hne : x.i ≠ c.i := by
        intro heq
        apply hnot
        rw [← heq, ← hgi]
        exact List.mem_append_right _ (List.mem_append_left _ (List.mem_map_of_mem hg))
      exact ⟨v, x, hx, hgx, hdisk ▸ hb, hstay v x _ hx hne hn⟩
  · intro i hi
    have hi' : i ∈ s.dev.out.toList ++ u := by
      rw [hdev] at hi
      exact hi
    obtain ⟨v, x, hx, rfl, hb, hn⟩ := h.landed i hi'
    have hne : x.i ≠ c.i := by
      intro heq
      apply hnot
      rw [← heq]
      refine List.mem_append_right _ (List.mem_append_right _ ?_)
      rcases List.mem_append.mp hi' with hi | hi
      · exact List.mem_append_left _ hi
      · exact List.mem_append_right _ (List.mem_append_right _ hi)
    exact ⟨v, x, hx, rfl, hdisk ▸ hb, hstay v x .stamped hx hne hn⟩
  · intro i hi
    rw [hdisk]
    exact h.reaped i hi
  · intro v x hx hb
    rw [hline]
    exact h.waiting v x hx (hdisk ▸ hb)
  · intro v x hx hb
    rw [hdisk] at hb
    have hne : x.i ≠ c.i := by
      intro heq
      obtain ⟨-, rfl⟩ := honly v x hx heq
      rw [hbuf] at hb
      cases hb
    exact (hother v x hx hne).1.trans (h.done v x hx hb)

/-- The device takes the chain at the front of the queue. -/
theorem Flow.fetch {i : ℕ} (h : Flow chain (i :: q) p u s) (hc : chain t = some c) (hci : c.i = i)
    (hbuf : s.disk.bufDisk c.req.b = true) (hserved : Served s t c 0) (hne : s.dev.last ≠ s.dev.seen)
    (hs' : s' = { s with
      dev.last := (s.dev.last + 1) % 2 ^ 16
      dev.flight := s.dev.flight ++ [c.fetched .taken] }) : Flow chain q p u s' := by
  subst hs'
  have htake := h.avail.take (by decide)
  have hperm : ∀ x, (line { s with
      dev.last := (s.dev.last + 1) % 2 ^ 16
      dev.flight := s.dev.flight ++ [c.fetched .taken] } q x).Perm (line s (i :: q) x) := by
    intro x
    simp only [line, List.map_append, List.map_cons, List.map_nil, List.append_assoc, List.cons_append, List.nil_append]
    rw [← hci, ← List.append_assoc, ← List.append_assoc]
    exact List.perm_middle
  refine ⟨htake.2, h.used, h.out, ?_, (hperm _).nodup_iff.mpr h.nodup, ?_, ?_, h.landed, h.reaped, ?_, h.done⟩
  · obtain ⟨n, hn, hseen⟩ := h.seen
    have hlt := h.avail.rd_lt
    rcases Nat.eq_zero_or_pos n with rfl | hpos
    · rw [Nat.add_zero, Nat.mod_eq_of_lt hlt] at hseen
      exact absurd hseen.symm hne
    · refine ⟨n - 1, ?_, ?_⟩
      · rw [List.length_cons] at hn
        omega
      · have hsum : s.dev.last + 1 + (n - 1) = s.dev.last + n := by omega
        change s.dev.seen = ((s.dev.last + 1) % 2 ^ 16 + (n - 1)) % 2 ^ 16
        rw [Nat.mod_add_mod, hsum, hseen]
  · intro j hj
    exact h.queued j (List.mem_cons_of_mem _ hj)
  · intro g hg
    rcases List.mem_append.mp hg with hg | hg
    · obtain ⟨v, x, hx, hgx, hb, hok⟩ := h.flying g hg
      exact ⟨v, x, hx, hgx, hb, hok.congr rfl rfl id⟩
    · rw [List.mem_singleton] at hg
      subst hg
      exact ⟨t, c, hc, rfl, hbuf, hserved⟩
  · intro v x hx hb
    exact (hperm u).mem_iff.mpr (h.waiting v x hx hb)

/-- The device writes an answered request into the used ring. -/
theorem Flow.record (h : Flow chain q p u s) (hl : s.dev.flight = l ++ f :: r) (hf : f.stage = .stamped)
    (hout : s.dev.out = none) (hroom : (p ++ u).length ≠ NUM)
    (hs' : s' = { s with
      used := ⟨s.used.idx, Function.update s.used.ring (s.used.idx % NUM) f.head⟩
      dev.flight := l ++ r
      dev.out := some f.head }) : Flow chain q p u s' := by
  have hperm : ∀ x, (line s' q x).Perm (line s q x) := by
    intro x
    refine List.Perm.trans ?_ (Flow.flight_perm hl x).symm
    simp only [line, hs', hout, Option.toList_none, Option.toList_some, List.nil_append, List.cons_append]
    refine List.Perm.trans ?_ List.perm_middle
    exact List.Perm.append_left q List.perm_middle
  subst hs'
  have hmem : ∀ g ∈ l ++ r, g ∈ s.dev.flight := by
    intro g hg
    rw [hl]
    simp only [List.mem_append, List.mem_cons] at hg ⊢
    rcases hg with hg | hg
    · exact .inl hg
    · exact .inr (.inr hg)
  refine ⟨h.avail, h.used.write (by decide) hroom f.head, ?_, h.seen, (hperm _).nodup_iff.mpr h.nodup, h.queued,
    ?_, ?_, h.reaped, ?_, h.done⟩
  · rintro i hi
    cases hi
    exact Function.update_self _ _ _
  · intro g hg
    obtain ⟨v, x, hx, hgx, hb, hok⟩ := h.flying g (hmem g hg)
    exact ⟨v, x, hx, hgx, hb, hok.congr rfl rfl id⟩
  · intro i hi
    rcases List.mem_append.mp hi with hi | hi
    · obtain rfl : i = f.head := by simpa using hi
      obtain ⟨v, x, hx, hfx, hb, hok⟩ := h.flying f (by rw [hl]; simp)
      rw [hf] at hok
      exact ⟨v, x, hx, by rw [hfx]; rfl, hb, hok⟩
    · exact h.landed i (List.mem_append_right _ hi)
  · intro v x hx hb
    exact (hperm u).mem_iff.mpr (h.waiting v x hx hb)

/-- The device makes the element it has written visible. -/
theorem Flow.advance {i : ℕ} (h : Flow chain q p u s) (hout : s.dev.out = some i) (hroom : (p ++ u).length ≠ NUM)
    (hs' : s' = { s with
      used := ⟨(s.used.idx + 1) % 2 ^ 16, s.used.ring⟩
      dev.out := none
      dev.raising := true }) : Flow chain q p (u ++ [i]) s' := by
  have hperm : ∀ x, (line s' q (x ++ [i])).Perm (line s q x) := by
    intro x
    simp only [line, hs', hout, Option.toList_none, Option.toList_some, List.nil_append, List.cons_append]
    refine List.Perm.append_left q (List.Perm.append_left _ ?_)
    exact (List.perm_append_singleton i x)
  subst hs'
  refine ⟨h.avail, ?_, ?_, h.seen, ?_, h.queued, ?_, ?_, h.reaped, ?_, h.done⟩
  · have hcommit := h.used.commit (by decide) hroom
    rwa [h.out i hout, List.append_assoc] at hcommit
  · intro j hj
    cases hj
  · rw [← List.append_assoc]
    exact (hperm _).nodup_iff.mpr h.nodup
  · intro g hg
    obtain ⟨v, x, hx, hgx, hb, hok⟩ := h.flying g hg
    exact ⟨v, x, hx, hgx, hb, hok.congr rfl rfl id⟩
  · intro j hj
    apply h.landed j
    rw [hout]
    simpa [or_comm] using hj
  · intro v x hx hb
    exact (hperm u).mem_iff.mpr (h.waiting v x hx hb)

end

namespace InvOf
variable {vs : ℕ → View} {s s' : Sys} {q p u : List ℕ} {t : ℕ}

/-- The used ring has room for another element. -/
theorem used_room (h : InvOf vs s q p u) {i : ℕ} (hi : i ∈ s.dev.flight.map Fetched.head ++ s.dev.out.toList) :
    (p ++ u).length ≠ NUM := by
  have hlen := h.line_length
  have hpos := List.length_pos_of_mem hi
  simp only [line, List.length_append] at hlen hpos ⊢
  omega

/-- What the handler knows stays true while the device adds to the used ring and writes elsewhere. -/
theorem hands_device (h : InvOf vs s q p u) (x : List ℕ) (hstatus : ∀ i ∈ u, s'.status i = s.status i)
    (hfailed : s.failed = true → s'.failed = true) : Hands (fun v => (vs v).phase) p (u ++ x) s' := by
  refine ⟨?_, h.hands.idle⟩
  intro v y hy
  obtain ⟨hok, hp⟩ := h.hands.ok v y hy
  refine ⟨?_, hp⟩
  cases y with
  | found => exact fun hnil => hok (List.append_eq_nil_iff.mp hnil).1
  | got i =>
    obtain ⟨l, rfl⟩ := hok
    exact ⟨l ++ x, rfl⟩
  | clean i =>
    obtain ⟨⟨l, rfl⟩, hst⟩ := hok
    exact ⟨⟨l ++ x, rfl⟩, (hstatus i (List.mem_cons_self ..)).trans hst⟩
  | bad => exact hfailed hok
  | _ => trivial

/-- The front of the queue is a chain that the device can read. -/
theorem front (h : InvOf vs s q p u) (hne : s.dev.last ≠ s.dev.seen) :
    ∃ q' t c, q = c.i :: q' ∧ (vs t).chain = some c ∧ s.disk.avail.ring (s.dev.last % NUM) = c.i ∧
      s.disk.bufDisk c.req.b = true ∧ Served s t c 0 ∧
      Virtio.fetch s.disk (s.disk.avail.ring (s.dev.last % NUM)) = some (c.fetched .taken) := by
  obtain ⟨n, hn, hseen⟩ := h.flow.seen
  cases q with
  | nil =>
    rw [List.length_nil, Nat.le_zero] at hn
    subst hn
    rw [Nat.add_zero, Nat.mod_eq_of_lt h.flow.avail.rd_lt] at hseen
    exact absurd hseen.symm hne
  | cons i q' =>
    obtain ⟨t, c, hc, rfl, hb, hserved⟩ := h.flow.queued i (List.mem_cons_self ..)
    have hring := (h.flow.avail.take (by decide)).1
    refine ⟨q', t, c, rfl, hc, hring, hb, hserved, ?_⟩
    rw [hring]
    exact fetch_formatted (h.owners.format t c hc).2

/-- The device goes on with a request; only the call it belongs to is concerned. -/
theorem restage (h : InvOf vs s q p u) {l r : List Fetched} {f : Fetched} (hl : s.dev.flight = l ++ f :: r)
    (st : Stage) (hdisk : s'.disk = s.disk) (hused : s'.used = s.used)
    (hdev : s'.dev = { s.dev with flight := l ++ { f with stage := st } :: r })
    (hlock : s'.lock = s.lock) (hasleep : s'.asleep = s.asleep) (hisr : s'.isr = s.isr)
    (hnotified : s'.notified = s.notified) (hbroken : s'.broken = s.broken)
    (hfailed : s.failed = true → s'.failed = true)
    (hcallers : Callers (fun v => (vs v).req) (fun v => (vs v).turns) s')
    (hcalls : ∀ b, b ≠ f.buf → s'.calls b = s.calls b) (hstatus : ∀ i, i ≠ f.head → s'.status i = s.status i)
    (hok : ∀ t c, (vs t).chain = some c → f = c.fetched f.stage → f.stage.Ok s t c → st.Ok s' t c) :
    InvOf vs s' q p u := by
  obtain ⟨t, c, hc, hfc, hb, hst⟩ := h.flow.flying f (by rw [hl]; simp)
  have hhead : f.head = c.i := by rw [hfc]; rfl
  have hbuf : f.buf = c.req.b := by rw [hfc]; rfl
  refine ⟨h.mutex.congr hlock hdisk, hcallers, hdisk ▸ h.owners, ?_, ?_, h.naps.congr hasleep hdisk, ?_,
    hbroken.trans h.broken⟩
  · refine h.flow.restage hl hc hfc hb ?_ st hdisk hused hdev hfailed ?_ (hok t c hc hfc hst)
    · intro v x hx hxi
      exact h.chain_unique hx hc hxi
    · intro v x hx hne
      refine ⟨hcalls _ ?_, hstatus _ (hhead ▸ hne)⟩
      intro hxb
      have hvt := h.req_unique (View.req_of_chain hx) (View.req_of_chain hc) (hxb.trans hbuf)
      rw [hvt, hc] at hx
      cases hx
      exact hne rfl
  · have hands : Hands (fun v => (vs v).phase) p (u ++ []) s' := h.hands_device [] ?_ hfailed
    · rwa [List.append_nil] at hands
    · intro i hi
      apply hstatus
      rintro rfl
      apply h.flow.flight_head hl
      simp [hi]
  · refine ⟨?_, ?_⟩
    · rw [hdev, hdisk, hnotified]
      exact h.bells.notify
    · rw [hdev, hdisk, hused, hisr]
      exact h.bells.interrupt

end InvOf

theorem isr_raised (x : UInt32) : (x ||| 1) &&& 1 ≠ 0 := by
  intro h
  have hbit := congrArg (fun y => y.toBitVec.getLsbD 0) h
  simp at hbit

/-- Whatever the device does keeps the invariant. -/
theorem Inv.device {vs : ℕ → View} {s s' : Sys} (h : Inv vs s) (hd : DevStep s s') : Inv vs s' := by
  obtain ⟨q, p, u, h⟩ := h
  cases hd with
  | look =>
    refine ⟨q, p, u, h.mutex.congr rfl rfl, h.callers.congr rfl rfl, h.owners, ?_, h.hands.congr rfl rfl,
      h.naps.congr rfl rfl, ⟨fun hne => absurd rfl hne, h.bells.interrupt⟩, h.broken⟩
    refine ⟨h.flow.avail, h.flow.used, h.flow.out, ⟨q.length, le_rfl, h.flow.avail.wr_eq⟩, h.flow.nodup,
      h.flow.queued, ?_, h.flow.landed, h.flow.reaped, h.flow.waiting, h.flow.done⟩
    intro f hf
    obtain ⟨t, c, hc, hfc, hb, hok⟩ := h.flow.flying f hf
    exact ⟨t, c, hc, hfc, hb, hok.congr rfl rfl id⟩
  | fetch f hne hf =>
    obtain ⟨q', t, c, rfl, hc, hring, hb, hserved, hfetch⟩ := h.front hne
    rw [hf] at hfetch
    cases hfetch
    refine ⟨q', p, u, h.mutex.congr rfl rfl, h.callers.congr rfl rfl, h.owners,
      h.flow.fetch hc rfl hb hserved hne rfl, h.hands.congr rfl rfl, h.naps.congr rfl rfl, ?_, h.broken⟩
    exact ⟨h.bells.notify, h.bells.interrupt⟩
  | choke hne hf =>
    obtain ⟨q', t, c, -, -, -, -, -, hfetch⟩ := h.front hne
    rw [hf] at hfetch
    cases hfetch
  | serve l r f hl hf =>
    obtain ⟨t, c, hc, hfc, hb, hst⟩ := h.flow.flying f (by rw [hl]; simp)
    have hbuf : f.buf = c.req.b := by rw [hfc]; rfl
    have hserved : s.calls c.req.b = some ⟨t, c.req.write, 0⟩ := by
      rw [hf] at hst
      exact hst
    have hcalls : (s.serve f).calls = Function.update s.calls c.req.b (some ⟨t, c.req.write, 1⟩) := by
      rw [Sys.serve, hbuf, hserved]
      rfl
    refine ⟨q, p, u, h.restage hl (.answered 0) rfl rfl rfl rfl rfl rfl rfl rfl id ?_ ?_ (fun _ _ => rfl) ?_⟩
    · refine h.callers.serve (View.req_of_chain hc) ?_ hserved hcalls rfl
      cases hv : vs t with
      | wait D x ring | nap x => rfl
      | _ =>
        rw [hv] at hc
        cases hc
    · intro b hne
      exact Function.update_of_ne hne _ _
    · intro v x hx hfx _
      obtain ⟨rfl, rfl⟩ := h.chain_unique hx hc (congrArg Fetched.head (hfx.symm.trans hfc))
      refine .inl ⟨rfl, ?_⟩
      change (s.serve f).calls _ = _
      rw [hcalls, Function.update_self]
  | fail l r f st hl hf hst =>
    exact ⟨q, p, u, h.restage hl (.answered st) rfl rfl rfl rfl rfl rfl rfl rfl (fun _ => rfl)
      (h.callers.congr rfl rfl) (fun _ _ => rfl) (fun _ _ => rfl) fun _ _ _ _ _ => .inr ⟨hst, rfl⟩⟩
  | stamp l r f st hl hf =>
    obtain ⟨t, c, hc, hfc, hb, -⟩ := h.flow.flying f (by rw [hl]; simp)
    have hat : f.statusAt = f.head := by rw [hfc]; rfl
    refine ⟨q, p, u, h.restage hl .stamped rfl rfl rfl rfl rfl rfl rfl rfl id (h.callers.congr rfl rfl)
      (fun _ _ => rfl) ?_ ?_⟩
    · intro i hi
      exact Function.update_of_ne (hat ▸ hi) _ _
    · intro v x hx hfx hok
      rw [hf] at hok
      have hxi : f.statusAt = x.i := by rw [hfx]; rfl
      change Answer _ v x (Function.update s.status f.statusAt st x.i)
      rw [hxi, Function.update_self]
      exact hok
  | record l r f hl hf hout =>
    have hroom : (p ++ u).length ≠ NUM := h.used_room (i := f.head) (by simp [hl])
    exact ⟨q, p, u, h.mutex.congr rfl rfl, h.callers.congr rfl rfl, h.owners, h.flow.record hl hf hout hroom rfl,
      h.hands.congr rfl rfl, h.naps.congr rfl rfl, ⟨h.bells.notify, h.bells.interrupt⟩, h.broken⟩
  | advance i hout =>
    have hroom : (p ++ u).length ≠ NUM := h.used_room (i := i) (by simp [hout])
    exact ⟨q, p, u ++ [i], h.mutex.congr rfl rfl, h.callers.congr rfl rfl, h.owners,
      h.flow.advance hout hroom rfl, h.hands_device [i] (fun _ _ => rfl) id, h.naps.congr rfl rfl,
      ⟨h.bells.notify, fun _ => .inr (.inl rfl)⟩, h.broken⟩
  | raise hr =>
    refine ⟨q, p, u, h.mutex.congr rfl rfl, h.callers.congr rfl rfl, h.owners, ?_, h.hands.congr rfl rfl,
      h.naps.congr rfl rfl, ⟨h.bells.notify, fun _ => .inl (isr_raised s.isr)⟩, h.broken⟩
    refine ⟨h.flow.avail, h.flow.used, h.flow.out, h.flow.seen, h.flow.nodup, h.flow.queued, ?_, h.flow.landed,
      h.flow.reaped, h.flow.waiting, h.flow.done⟩
    intro f hf
    obtain ⟨t, c, hc, hfc, hb, hok⟩ := h.flow.flying f hf
    exact ⟨t, c, hc, hfc, hb, hok.congr rfl rfl id⟩

end Xv6Arm.Virtio

import Xv6Arm.Buffer.BioInv

/-!
# Each request keeps the invariant of the buffer cache

A request changes one buffer. The general rule says what has to be shown of that
buffer; then there is one lemma for each request.
-/
namespace Xv6Arm.Bio
open Lib

namespace Inv
variable {vs : ℕ → View} {c d : Bcache} {t b : ℕ}

/-- A step of process `t` that changes one buffer, and what has to be shown of that buffer. -/
theorem update (h : Inv vs c) (ht : t < NPROC) (b : ℕ) {v : View} (hb : b < NBUF)
    (hbuf : ∀ a, a ≠ b → d.buf a = c.buf a) (htimes : ∀ e, e.buf ≠ b → d.times e = c.times e)
    (hview : v = .out ∨ v.buf? = some b) (hrefs : ∀ a, a ≠ b → (vs t).refs a = 0)
    (hlisted : ∃ l, Listed d l)
    (hdistinct : ∀ a, a ≠ b → .assign a ∈ c.hist → .assign b ∈ d.hist → ¬ SameKey (d.buf b) (c.buf a))
    (hself : v = .holding b ∨ v = .unpinning b → (d.buf b).lock = some t)
    (hother : ∀ u, u ≠ t → (c.buf b).lock = some u → (d.buf b).lock = some u)
    (hunpin : ∀ u, Function.update vs t v u = .unpinning b → d.times (.unpin b) < d.times (.pin b))
    (hgets : d.times (.get b) + c.times (.release b) + (c.buf b).lock.isSome.toNat + (vs t).refs b =
      c.times (.get b) + d.times (.release b) + (d.buf b).lock.isSome.toNat + v.refs b)
    (hpins : d.times (.unpin b) ≤ d.times (.pin b) ∧ d.times (.pin b) ≤ d.times (.unpin b) + PINMAX)
    (hrefcnt : (d.buf b).refcnt + d.times (.release b) + d.times (.unpin b) =
      d.times (.get b) + d.times (.pin b)) : Inv (Function.update vs t v) d := by
  have hassign : ∀ a, a ≠ b → .assign a ∈ d.hist → .assign a ∈ c.hist := by
    intro a ha hmem
    have hcount := htimes (.assign a) ha
    rw [Bcache.times, Bcache.times] at hcount
    rw [← List.count_pos_iff] at hmem ⊢
    omega
  have hview' : ∀ a, v.buf? = some a → a = b := by
    intro a ha
    rcases hview with rfl | hv
    · cases ha
    · rw [hv] at ha
      exact (Option.some.inj ha).symm
  constructor
  · exact hlisted
  · intro a ha
    by_cases hab : a = b
    · exact hab ▸ hb
    · exact h.assigned a (hassign a hab ha)
  · intro x y hxy hx hy
    by_cases hxb : x = b
    · subst hxb
      rw [hbuf y (Ne.symm hxy)]
      exact hdistinct y (Ne.symm hxy) (hassign y (Ne.symm hxy) hy) hx
    · by_cases hyb : y = b
      · subst hyb
        rw [hbuf x hxb]
        rintro ⟨hdev, hblock⟩
        exact hdistinct x hxy (hassign x hxb hx) hy ⟨hdev.symm, hblock.symm⟩
      · rw [hbuf x hxb, hbuf y hyb]
        exact h.distinct x y hxy (hassign x hxb hx) (hassign y hyb hy)
  · intro u hu
    rw [Function.update_of_ne (by omega)]
    exact h.table u hu
  · rw [Function.forall_update_iff vs (p := fun _ v => ∀ a, v.buf? = some a → a < NBUF)]
    exact ⟨fun a ha => hview' a ha ▸ hb, fun u _ => h.inRange u⟩
  · rw [Function.forall_update_iff vs (p := fun u v => ∀ a, v = .holding a ∨ v = .unpinning a →
      (d.buf a).lock = some u)]
    refine ⟨?_, ?_⟩
    · intro a ha
      have hab : a = b := hview' a (by rcases ha with rfl | rfl <;> rfl)
      subst hab
      exact hself ha
    · intro u hu a ha
      have hlock := h.holder u a ha
      by_cases hab : a = b
      · subst hab
        exact hother u hu hlock
      · rwa [hbuf a hab]
  · intro u a hu
    by_cases hab : a = b
    · subst hab
      exact hunpin u hu
    · rw [htimes (.unpin a) hab, htimes (.pin a) hab]
      by_cases hut : u = t
      · subst hut
        rw [Function.update_self] at hu
        exact absurd (hview' a (by rw [hu]; rfl)) hab
      · rw [Function.update_of_ne hut] at hu
        exact h.unpinning u a hu
  · intro a
    have hg := h.gets a
    have hsum := refs_update vs ht v a
    by_cases hab : a = b
    · subst hab
      omega
    · have hv0 : v.refs a = 0 := by
        unfold View.refs
        split
        · next hv =>
          exact absurd (hview' a (by rcases hv with rfl | rfl <;> rfl)) hab
        · rfl
      rw [htimes (.get a) hab, htimes (.release a) hab, hbuf a hab]
      have := hrefs a hab
      omega
  · intro a
    by_cases hab : a = b
    · subst hab
      exact hpins
    · rw [htimes (.unpin a) hab, htimes (.pin a) hab]
      exact h.pins a
  · intro a
    by_cases hab : a = b
    · subst hab
      exact hrefcnt
    · rw [hbuf a hab, htimes (.release a) hab, htimes (.unpin a) hab, htimes (.get a) hab, htimes (.pin a) hab]
      exact h.refcnt a

/-- Between two calls a process has no reference without a sleep-lock, so it may take up any such view. -/
theorem review (h : Inv vs c) (ht : t < NPROC) (hquiet : Quiet (vs t)) {v : View}
    (hlock : ∀ b, v.buf? = some b → b < NBUF ∧ (c.buf b).lock = some t) (hrefs : ∀ b, v.refs b = 0)
    (hunpin : ∀ b, v = .unpinning b → c.times (.unpin b) < c.times (.pin b)) :
    Inv (Function.update vs t v) c := by
  have hold : ∀ b, (vs t).refs b = 0 := by
    intro b
    rcases hquiet with hq | ⟨a, hq⟩ <;> simp [hq, View.refs]
  refine ⟨h.listed, h.assigned, h.distinct, ?_, ?_, ?_, ?_, ?_, h.pins, h.refcnt⟩
  · intro u hu
    rw [Function.update_of_ne (by omega)]
    exact h.table u hu
  · rw [Function.forall_update_iff vs (p := fun _ v => ∀ a, v.buf? = some a → a < NBUF)]
    exact ⟨fun a ha => (hlock a ha).1, fun u _ => h.inRange u⟩
  · rw [Function.forall_update_iff vs (p := fun u v => ∀ a, v = .holding a ∨ v = .unpinning a →
      (c.buf a).lock = some u)]
    refine ⟨?_, fun u _ => h.holder u⟩
    intro a ha
    exact (hlock a (by rcases ha with rfl | rfl <;> rfl)).2
  · rw [Function.forall_update_iff vs (p := fun _ v => ∀ a, v = .unpinning a →
      c.times (.unpin a) < c.times (.pin a))]
    exact ⟨hunpin, fun u _ => h.unpinning u⟩
  · intro a
    have hg := h.gets a
    have hsum := refs_update vs ht v a
    rw [hold, hrefs] at hsum
    omega

/-- No event, and no change to a reference count: the order of the list stays. -/
theorem listed_setBuf (h : Inv vs c) {f : Buf → Buf} (hf : (f (c.buf b)).refcnt = (c.buf b).refcnt) :
    ∃ l, Listed (c.setBuf b f) l := by
  obtain ⟨l, hl⟩ := h.listed
  refine ⟨l, hl.congr rfl ?_ fun a x _ _ hab => hab⟩
  intro a ha
  by_cases hab : a = b
  · subst hab
    simpa [hf] using ha
  · simpa [hab] using ha

/-- A buffer stays different from the others as long as it is not assigned anew. -/
theorem distinct_of_key (h : Inv vs c) (hkey : SameKey (d.buf b) (c.buf b))
    (hassign : .assign b ∈ d.hist → .assign b ∈ c.hist) :
    ∀ a, a ≠ b → .assign a ∈ c.hist → .assign b ∈ d.hist → ¬ SameKey (d.buf b) (c.buf a) := by
  rintro a hab ha hb ⟨hdev, hblock⟩
  refine h.distinct b a (Ne.symm hab) (hassign hb) ha ⟨?_, ?_⟩
  · rw [← hkey.1, hdev]
  · rw [← hkey.2, hblock]

theorem unpinning_update {v : View} {u : ℕ} (hv : v ≠ .unpinning b)
    (hu : Function.update vs t v u = .unpinning b) : u ≠ t ∧ vs u = .unpinning b := by
  by_cases hut : u = t
  · subst hut
    rw [Function.update_self] at hu
    exact absurd hu hv
  · rw [Function.update_of_ne hut] at hu
    exact ⟨hut, hu⟩

theorem acquiresleep (h : Inv vs c) (hv : vs t = .waiting b) (hl : (c.buf b).lock = none) :
    Inv (Function.update vs t (.holding b)) (c.setBuf b fun x => { x with lock := some t }) := by
  apply h.update (h.lt_NPROC (by rw [hv]; rintro ⟨⟩)) b (h.inRange t b (by rw [hv]; rfl))
  · intro a ha
    simp [ha]
  · intro e _
    rfl
  · exact .inr rfl
  · intro a ha
    simp [hv, View.refs, Ne.symm ha]
  · exact h.listed_setBuf rfl
  · exact h.distinct_of_key ⟨by simp, by simp⟩ id
  · simp
  · intro u _ hu
    rw [hl] at hu
    cases hu
  · intro u hu
    exact h.unpinning u b (unpinning_update (by rintro ⟨⟩) hu).2
  · simp [hv, hl, View.refs]
  · exact h.pins b
  · simpa using h.refcnt b

theorem releasesleep (h : Inv vs c) (hv : vs t = .holding b) :
    Inv (Function.update vs t (.leaving b)) (c.setBuf b fun x => { x with lock := none }) := by
  have hl := h.holder t b (.inl hv)
  apply h.update (h.lt_NPROC (by rw [hv]; rintro ⟨⟩)) b (h.inRange t b (by rw [hv]; rfl))
  · intro a ha
    simp [ha]
  · intro e _
    rfl
  · exact .inr rfl
  · intro a ha
    simp [hv, View.refs]
  · exact h.listed_setBuf rfl
  · exact h.distinct_of_key ⟨by simp, by simp⟩ id
  · simp
  · intro u hut hu
    rw [hl] at hu
    exact absurd (Option.some.inj hu).symm hut
  · intro u hu
    exact h.unpinning u b (unpinning_update (by rintro ⟨⟩) hu).2
  · simp [hv, hl, View.refs]
  · exact h.pins b
  · simpa using h.refcnt b

theorem setValid (h : Inv vs c) (hv : vs t = .holding b) :
    Inv (Function.update vs t (.holding b)) (c.setBuf b fun x => { x with valid := true }) := by
  apply h.update (h.lt_NPROC (by rw [hv]; rintro ⟨⟩)) b (h.inRange t b (by rw [hv]; rfl))
  · intro a ha
    simp [ha]
  · intro e _
    rfl
  · exact .inr rfl
  · intro a ha
    simp [hv, View.refs]
  · exact h.listed_setBuf rfl
  · exact h.distinct_of_key ⟨by simp, by simp⟩ id
  · simpa using h.holder t b (.inl hv)
  · intro u _ hu
    simpa using hu
  · intro u hu
    exact h.unpinning u b (unpinning_update (by rintro ⟨⟩) hu).2
  · simp [hv, View.refs]
  · exact h.pins b
  · simpa using h.refcnt b

/-- The order of the list stays as long as nothing is released. -/
theorem listed_events (h : Inv vs c) (es : List Event) (hlinks : d.links = c.links) (hhist : d.hist = es ++ c.hist)
    (hes : ∀ a, .release a ∉ es) (hother : ∀ a, a ≠ b → d.buf a = c.buf a) (hused : (d.buf b).refcnt ≠ 0) :
    ∃ l, Listed d l := by
  obtain ⟨l, hl⟩ := h.listed
  have hage : ∀ a, d.age a = c.age a + es.length := by
    intro a
    rw [Bcache.age, hhist, List.idxOf_append_of_notMem (hes a), Bcache.age, Nat.add_comm]
  refine ⟨l, hl.congr hlinks ?_ ?_⟩
  · intro a ha
    by_cases hab : a = b
    · subst hab
      exact absurd ha hused
    · rwa [hother a hab] at ha
  · intro x y _ _ hxy
    rw [hage, hage]
    omega

/-- A hit in `bget`. -/
theorem bgetHit (h : Inv vs c) (ht : t < NPROC) (hv : vs t = .out) (hb : b < NBUF) :
    Inv (Function.update vs t (.waiting b))
      ((c.setBuf b fun x => { x with refcnt := Bcache.inc x.refcnt }).note (.get b)) := by
  apply h.update ht b hb
  · intro a ha
    simp [ha]
  · intro e he
    have hne : ¬ Event.get b = e := fun heq => he (heq ▸ rfl)
    simp [hne]
  · exact .inr rfl
  · intro a ha
    simp [hv, View.refs]
  · refine h.listed_events (b := b) [.get b] rfl rfl (by simp) (fun a ha => by simp [ha]) ?_
    simp [h.inc_eq]
  · exact h.distinct_of_key ⟨by simp, by simp⟩ (by simp)
  · simp
  · intro u _ hu
    simpa using hu
  · intro u hu
    simpa using h.unpinning u b (unpinning_update (by rintro ⟨⟩) hu).2
  · simp [hv, View.refs]
    omega
  · simpa using h.pins b
  · have hr := h.refcnt b
    simp [h.inc_eq]
    omega

/-- A miss in `bget`, for a block that no buffer carries. -/
theorem bgetMiss (h : Inv vs c) (ht : t < NPROC) (hv : vs t = .out) (hb : b < NBUF) {dev blockno : ℕ}
    (hfree : (c.buf b).refcnt = 0)
    (hmiss : ∀ a, .assign a ∈ c.hist → ¬ ((c.buf a).dev = dev ∧ (c.buf a).blockno = blockno)) :
    Inv (Function.update vs t (.waiting b)) (((c.setBuf b fun x =>
      { x with dev := dev, blockno := blockno, valid := false, refcnt := 1 }).note (.assign b)).note (.get b)) := by
  apply h.update ht b hb
  · intro a ha
    simp [ha]
  · intro e he
    have hget : ¬ Event.get b = e := fun heq => he (heq ▸ rfl)
    have hassign : ¬ Event.assign b = e := fun heq => he (heq ▸ rfl)
    simp [hget, hassign]
  · exact .inr rfl
  · intro a ha
    simp [hv, View.refs]
  · refine h.listed_events (b := b) [.get b, .assign b] rfl rfl (by simp) (fun a ha => by simp [ha]) ?_
    simp
  · rintro a - ha - ⟨hdev, hblock⟩
    exact hmiss a ha ⟨by simpa using hdev.symm, by simpa using hblock.symm⟩
  · simp
  · intro u _ hu
    simpa using hu
  · intro u hu
    simpa using h.unpinning u b (unpinning_update (by rintro ⟨⟩) hu).2
  · simp [hv, View.refs]
    omega
  · simpa using h.pins b
  · have hr := h.refcnt b
    simp
    omega

theorem bpin (h : Inv vs c) (ht : t < NPROC) (hv : vs t = .out) (hb : b < NBUF)
    (hmax : c.times (.pin b) < c.times (.unpin b) + PINMAX) : Inv (Function.update vs t .out) (c.bpin b) := by
  unfold Bcache.bpin
  apply h.update ht b hb
  · intro a ha
    simp [ha]
  · intro e he
    have hne : ¬ Event.pin b = e := fun heq => he (heq ▸ rfl)
    simp [hne]
  · exact .inl rfl
  · intro a ha
    simp [hv, View.refs]
  · refine h.listed_events (b := b) [.pin b] rfl rfl (by simp) (fun a ha => by simp [ha]) ?_
    simp [h.inc_eq]
  · exact h.distinct_of_key ⟨by simp, by simp⟩ (by simp)
  · simp
  · intro u _ hu
    simpa using hu
  · intro u hu
    have := h.unpinning u b (unpinning_update (by rintro ⟨⟩) hu).2
    simp
    omega
  · simp [hv, View.refs]
  · have := h.pins b
    simp
    omega
  · have hr := h.refcnt b
    simp [h.inc_eq]
    omega

/-- The buffer is held, so a reference is left. -/
theorem bunpin (h : Inv vs c) (hv : vs t = .unpinning b) :
    Inv (Function.update vs t (.holding b)) (c.bunpin b) := by
  have hlock := h.holder t b (.inr hv)
  have hr := h.refcnt b
  have hg := h.gets b
  have hp := h.unpinning t b hv
  rw [hlock] at hg
  have hone : (some t).isSome.toNat = 1 := rfl
  have hdec := h.dec_eq (b := b) (by omega)
  unfold Bcache.bunpin
  apply h.update (h.lt_NPROC (by rw [hv]; rintro ⟨⟩)) b (h.inRange t b (by rw [hv]; rfl))
  · intro a ha
    simp [ha]
  · intro e he
    have hne : ¬ Event.unpin b = e := fun heq => he (heq ▸ rfl)
    simp [hne]
  · exact .inr rfl
  · intro a ha
    simp [hv, View.refs]
  · refine h.listed_events (b := b) [.unpin b] rfl rfl (by simp) (fun a ha => by simp [ha]) ?_
    simp
    omega
  · exact h.distinct_of_key ⟨by simp, by simp⟩ (by simp)
  · simpa using hlock
  · intro u _ hu
    simpa using hu
  · -- Nobody else holds the buffer.
    intro u hu
    obtain ⟨hut, hu⟩ := unpinning_update (by rintro ⟨⟩) hu
    have hu := h.holder u b (.inr hu)
    rw [hlock] at hu
    exact absurd (Option.some.inj hu).symm hut
  · simp [hv, View.refs]
  · have := h.pins b
    simp
    omega
  · simp
    omega

theorem brelse (h : Inv vs c) (hv : vs t = .leaving b) : Inv (Function.update vs t .out) (c.brelse b) := by
  have ht := h.lt_NPROC (t := t) (by rw [hv]; rintro ⟨⟩)
  have hb := h.inRange t b (by rw [hv]; rfl)
  have hr := h.refcnt b
  have hg := h.gets b
  have hone : 1 ≤ ∑ u ∈ Finset.range NPROC, (vs u).refs b := by
    have hle := Finset.single_le_sum (fun u _ => Nat.zero_le ((vs u).refs b)) (Finset.mem_range.mpr ht)
    simpa [hv, View.refs] using hle
  have hused : (c.buf b).refcnt ≠ 0 := by
    have := h.pins b
    omega
  have hdec := h.dec_eq hused
  have hbuf : (c.brelse b).buf = (c.setBuf b fun x => { x with refcnt := Bcache.dec x.refcnt }).buf := by
    simp only [Bcache.brelse]
    split <;> rfl
  have hhist : (c.brelse b).hist = .release b :: c.hist := by
    simp only [Bcache.brelse]
    split <;> rfl
  have htimes : ∀ e, (c.brelse b).times e = c.times e + if Event.release b = e then 1 else 0 := by
    intro e
    simp [Bcache.times, hhist, List.count_cons]
  apply h.update ht b hb
  · intro a ha
    simp [hbuf, ha]
  · intro e he
    have hne : ¬ Event.release b = e := fun heq => he (heq ▸ rfl)
    simp [htimes, hne]
  · exact .inl rfl
  · intro a ha
    simp [hv, View.refs, Ne.symm ha]
  · obtain ⟨l, hl⟩ := h.listed
    by_cases hzero : Bcache.dec (c.buf b).refcnt = 0
    · apply hl.release hb hused
      · simp [Bcache.brelse, hzero]
      · intro a ha
        simp [hbuf, ha]
      · simp [hbuf, hzero]
      · exact hhist
    · refine ⟨l, hl.congr ?_ ?_ ?_⟩
      · simp [Bcache.brelse, hzero]
      · intro a ha
        by_cases hab : a = b
        · subst hab
          simp [hbuf, hzero] at ha
        · simpa [hbuf, hab] using ha
      · intro x y hx hy hxy
        have hage : ∀ a, ((c.brelse b).buf a).refcnt = 0 → (c.brelse b).age a = c.age a + 1 := by
          intro a ha
          have hab : ¬ b = a := by
            rintro rfl
            simp [hbuf, hzero] at ha
          simp [Bcache.age, hhist, hab]
        rw [hage x hx, hage y hy]
        omega
  · exact h.distinct_of_key ⟨by simp [hbuf], by simp [hbuf]⟩ (by simp [hhist])
  · simp
  · intro u _ hu
    simpa [hbuf] using hu
  · intro u hu
    simpa [htimes] using h.unpinning u b (unpinning_update (by rintro ⟨⟩) hu).2
  · simp [hv, View.refs, htimes, hbuf]
    omega
  · simpa [htimes] using h.pins b
  · simp [htimes, hbuf]
    omega

end Inv
end Xv6Arm.Bio

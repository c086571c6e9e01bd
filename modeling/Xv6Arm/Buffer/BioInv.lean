import Xv6Arm.Buffer.Bio

/-!
# The invariant of the buffer cache

The links form a circular list of all buffers. A reference is counted for each
process that waits for a buffer, holds it or is about to take its reference back,
and for each pin. The unused buffers stand in the order of their last release.
-/
namespace Xv6Arm.Bio
open Lib

/-- How far a process is with its call. -/
inductive View where
  | out
  /-- `bget` has counted the reference. -/
  | waiting (b : ℕ)
  | holding (b : ℕ)
  | unpinning (b : ℕ)
  /-- `brelse` has given up the sleep-lock. -/
  | leaving (b : ℕ)
  deriving DecidableEq

/-- What a request needs of the view of process `t`, and what it makes of it. -/
def bioSpec (t : ℕ) : OpSpec bioSig View
  | .bget _ _, K, v => t < NPROC ∧ v = .out ∧ ∀ b, K b (.waiting b)
  | .brelse b, K, v => v = .leaving b ∧ K () .out
  | .bpin b, K, v => t < NPROC ∧ b < NBUF ∧ v = .out ∧ K () .out
  | .bunpin b, K, v => v = .unpinning b ∧ K () (.holding b)
  | .acquiresleep b, K, v => v = .waiting b ∧ K () (.holding b)
  | .releasesleep b, K, v => v = .holding b ∧ K () (.leaving b)
  | .holdingsleep b, K, v => v = .holding b ∧ K true v
  | .valid _, K, v => ∀ r, K r v
  | .setValid b, K, v => v = .holding b ∧ K () v
  | .diskRw _ _, K, v => K () v

/-- Between two calls a process neither waits for a buffer nor leaves one. -/
def Quiet (v : View) : Prop := v = .out ∨ ∃ b, v = .holding b

section
variable {t : ℕ}

theorem bread_meets (ht : t < NPROC) (dev blockno : ℕ) :
    Threads.Keeps bioSpec (fun _ => Quiet) t ((bread dev blockno).bind fun _ => .ret ()) .out := by
  refine ⟨ht, rfl, ?_⟩
  intro b
  refine ⟨rfl, ?_⟩
  intro r
  cases r with
  | true => exact .inr ⟨b, rfl⟩
  | false => exact ⟨rfl, .inr ⟨b, rfl⟩⟩

theorem bwrite_meets (b : ℕ) : Threads.Keeps bioSpec (fun _ => Quiet) t (bwrite b) (.holding b) :=
  ⟨rfl, .inr ⟨b, rfl⟩⟩

theorem brelse_meets (b : ℕ) : Threads.Keeps bioSpec (fun _ => Quiet) t (brelse b) (.holding b) :=
  ⟨rfl, rfl, rfl, .inl rfl⟩

theorem bpin_meets (ht : t < NPROC) {b : ℕ} (hb : b < NBUF) :
    Threads.Keeps bioSpec (fun _ => Quiet) t (bpin b) .out := ⟨ht, hb, rfl, .inl rfl⟩

theorem bunpin_meets (b : ℕ) : Threads.Keeps bioSpec (fun _ => Quiet) t (bunpin b) (.unpinning b) :=
  ⟨rfl, .inr ⟨b, rfl⟩⟩

end

/-! ## The invariant -/

/-- Whether the process has a reference to `b` without the sleep-lock. -/
def View.refs (v : View) (b : ℕ) : ℕ := if v = .waiting b ∨ v = .leaving b then 1 else 0

/-- The buffer that a view is about. -/
def View.buf? : View → Option ℕ
  | .out => none
  | .waiting b | .holding b | .unpinning b | .leaving b => some b

/-- How many events ago a buffer was released; the length of the history if it never was. -/
def Bcache.age (c : Bcache) (b : ℕ) : ℕ := c.hist.idxOf (.release b)

/-- The unused ones of some buffers. -/
def Bcache.unused (c : Bcache) (l : List ℕ) : List ℕ := l.filter fun b => (c.buf b).refcnt == 0

/-- The buffers `l`, from `head.next` to `head.prev`. -/
structure Listed (c : Bcache) (l : List ℕ) : Prop where
  circular : c.links.Circular HEAD l
  perm : l.Perm (List.range NBUF)
  recent : (c.unused l).Pairwise fun a b => c.age a ≤ c.age b

/-- The buffer that an event is about. -/
def Event.buf : Event → ℕ
  | .assign b | .get b | .release b | .pin b | .unpin b => b

/-- Two buffers carry the same device and block number. -/
def SameKey (x y : Buf) : Prop := x.dev = y.dev ∧ x.blockno = y.blockno

structure Inv (vs : ℕ → View) (c : Bcache) : Prop where
  listed : ∃ l, Listed c l
  assigned : ∀ b, .assign b ∈ c.hist → b < NBUF
  distinct : ∀ a b, a ≠ b → .assign a ∈ c.hist → .assign b ∈ c.hist → ¬ SameKey (c.buf a) (c.buf b)
  table : ∀ t, NPROC ≤ t → vs t = .out
  inRange : ∀ t b, (vs t).buf? = some b → b < NBUF
  holder : ∀ t b, vs t = .holding b ∨ vs t = .unpinning b → (c.buf b).lock = some t
  unpinning : ∀ t b, vs t = .unpinning b → c.times (.unpin b) < c.times (.pin b)
  gets : ∀ b, c.times (.get b) =
    c.times (.release b) + ∑ t ∈ Finset.range NPROC, (vs t).refs b + (c.buf b).lock.isSome.toNat
  pins : ∀ b, c.times (.unpin b) ≤ c.times (.pin b) ∧ c.times (.pin b) ≤ c.times (.unpin b) + PINMAX
  refcnt : ∀ b, (c.buf b).refcnt + c.times (.release b) + c.times (.unpin b) =
    c.times (.get b) + c.times (.pin b)

/-! ## What one event changes -/

namespace Bcache

@[simp] theorem note_links (c : Bcache) (e : Event) : (c.note e).links = c.links := rfl
@[simp] theorem note_buf (c : Bcache) (e : Event) : (c.note e).buf = c.buf := rfl
@[simp] theorem note_hist (c : Bcache) (e : Event) : (c.note e).hist = e :: c.hist := rfl
@[simp] theorem setBuf_links (c : Bcache) (b : ℕ) (f : Buf → Buf) : (c.setBuf b f).links = c.links := rfl
@[simp] theorem setBuf_hist (c : Bcache) (b : ℕ) (f : Buf → Buf) : (c.setBuf b f).hist = c.hist := rfl

@[simp] theorem setBuf_buf (c : Bcache) (b : ℕ) (f : Buf → Buf) (a : ℕ) :
    (c.setBuf b f).buf a = if a = b then f (c.buf b) else c.buf a := Function.update_apply _ _ _ _

@[simp] theorem times_note (c : Bcache) (e e' : Event) :
    (c.note e).times e' = c.times e' + if e = e' then 1 else 0 := by
  simp [times, List.count_cons]

@[simp] theorem times_setBuf (c : Bcache) (b : ℕ) (f : Buf → Buf) (e : Event) :
    (c.setBuf b f).times e = c.times e := rfl

@[simp] theorem age_setBuf (c : Bcache) (b : ℕ) (f : Buf → Buf) (a : ℕ) : (c.setBuf b f).age a = c.age a := rfl

@[simp] theorem age_note (c : Bcache) (e : Event) (a : ℕ) :
    (c.note e).age a = if e = .release a then 0 else c.age a + 1 := by
  by_cases h : e = .release a <;> simp [age, h]

end Bcache

/-- The order stays as long as no further buffer becomes unused. -/
theorem Listed.congr {c d : Bcache} {l : List ℕ} (h : Listed c l) (hlinks : d.links = c.links)
    (hzero : ∀ b, (d.buf b).refcnt = 0 → (c.buf b).refcnt = 0)
    (hage : ∀ a b, (d.buf a).refcnt = 0 → (d.buf b).refcnt = 0 → c.age a ≤ c.age b → d.age a ≤ d.age b) :
    Listed d l where
  circular := by
    rw [hlinks]
    exact h.circular
  perm := h.perm
  recent := by
    have hsub : (d.unused l).Sublist (c.unused l) := by
      apply List.monotone_filter_right
      intro b hb
      simpa using hzero b (by simpa using hb)
    refine List.Pairwise.imp_of_mem ?_ (h.recent.sublist hsub)
    intro a b ha hb hab
    exact hage a b (by simpa using (List.mem_filter.mp ha).2) (by simpa using (List.mem_filter.mp hb).2) hab

/-- The last reference to a buffer is taken back, and it moves to the front. -/
theorem Listed.release {c d : Bcache} {l : List ℕ} {b : ℕ} (h : Listed c l) (hb : b < NBUF)
    (hused : (c.buf b).refcnt ≠ 0) (hlinks : d.links = (c.links.unlink b).pushFront HEAD b)
    (hother : ∀ a, a ≠ b → (d.buf a).refcnt = (c.buf a).refcnt) (hunused : (d.buf b).refcnt = 0)
    (hhist : d.hist = .release b :: c.hist) : ∃ l, Listed d l := by
  have hmem : b ∈ l := h.perm.mem_iff.mpr (List.mem_range.mpr hb)
  obtain ⟨l₁, l₂, rfl⟩ := List.append_of_mem hmem
  have hnodup := (List.nodup_cons.mp h.circular.nodup).2
  have hperm : (l₁ ++ b :: l₂).Perm (b :: (l₁ ++ l₂)) := List.perm_middle
  have hnot : b ∉ l₁ ++ l₂ := (List.nodup_cons.mp (hperm.nodup_iff.mp hnodup)).1
  have hne : ∀ a ∈ l₁ ++ l₂, a ≠ b := fun a ha hab => hnot (hab ▸ ha)
  have hhead : b ∉ HEAD :: (l₁ ++ l₂) := by
    intro hin
    rcases List.mem_cons.mp hin with rfl | hin
    · exact Nat.lt_irrefl _ hb
    · exact hnot hin
  have hage : ∀ a, a ≠ b → d.age a = c.age a + 1 := by
    intro a ha
    have hne' : ¬ b = a := fun hba => ha hba.symm
    simp [Bcache.age, hhist, hne']
  -- Apart from `b` the unused buffers are the same.
  have hrest : d.unused (l₁ ++ l₂) = c.unused (l₁ ++ b :: l₂) := by
    have hc : c.unused (l₁ ++ b :: l₂) = c.unused (l₁ ++ l₂) := by
      simp [Bcache.unused, List.filter_append, hused]
    rw [hc]
    apply List.filter_congr
    intro a ha
    rw [hother a (hne a ha)]
  refine ⟨b :: (l₁ ++ l₂), ?_, hperm.symm.trans h.perm, ?_⟩
  · rw [hlinks]
    exact h.circular.unlink.pushFront hhead
  · have hfilter : d.unused (b :: (l₁ ++ l₂)) = b :: d.unused (l₁ ++ l₂) := by
      simp [Bcache.unused, hunused]
    rw [hfilter, List.pairwise_cons]
    refine ⟨?_, ?_⟩
    · intro a _
      have hb0 : d.age b = 0 := by simp [Bcache.age, hhist]
      omega
    · have hsorted := h.recent
      rw [← hrest] at hsorted
      refine List.Pairwise.imp_of_mem ?_ hsorted
      intro x y hx hy hxy
      rw [hage x (hne x (List.mem_filter.mp hx).1), hage y (hne y (List.mem_filter.mp hy).1)]
      omega

section
variable {t : ℕ}

theorem refs_update (vs : ℕ → View) (ht : t < NPROC) (v : View) (b : ℕ) :
    (∑ u ∈ Finset.range NPROC, (Function.update vs t v u).refs b) + (vs t).refs b =
      (∑ u ∈ Finset.range NPROC, (vs u).refs b) + v.refs b := by
  have hmem : t ∈ Finset.range NPROC := Finset.mem_range.mpr ht
  have hcomp : ∀ u, (Function.update vs t v u).refs b = Function.update (fun u => (vs u).refs b) t (v.refs b) u := by
    intro u
    by_cases hu : u = t
    · subst hu
      simp
    · simp [hu]
  simp only [hcomp]
  rw [Finset.sum_update_of_mem hmem, Finset.sum_eq_add_sum_sdiff_singleton_of_mem hmem (fun u => (vs u).refs b)]
  omega

theorem refs_le (v : View) (b : ℕ) : v.refs b ≤ 1 := by
  unfold View.refs
  split <;> omega

theorem refs_sum_le (vs : ℕ → View) (b : ℕ) : (∑ u ∈ Finset.range NPROC, (vs u).refs b) ≤ NPROC := by
  have hle := Finset.sum_le_card_nsmul (Finset.range NPROC) (fun u => (vs u).refs b) 1 fun u _ => refs_le (vs u) b
  simpa using hle

end

namespace Inv
variable {vs : ℕ → View} {c : Bcache} {t b : ℕ}

theorem lt_NPROC (h : Inv vs c) (ht : vs t ≠ .out) : t < NPROC := by
  by_contra hge
  exact ht (h.table t (Nat.le_of_not_lt hge))

/-- Reference counts do not come near the end of the word. -/
theorem refcnt_lt (h : Inv vs c) (b : ℕ) : (c.buf b).refcnt + 1 < 2 ^ 32 := by
  have h1 := h.refcnt b
  have h2 := h.gets b
  have h3 := h.pins b
  have h4 := refs_sum_le vs b
  have h5 := Bool.toNat_le (c.buf b).lock.isSome
  unfold NPROC PINMAX at *
  omega

theorem inc_eq (h : Inv vs c) (b : ℕ) : Bcache.inc (c.buf b).refcnt = (c.buf b).refcnt + 1 :=
  Nat.mod_eq_of_lt (h.refcnt_lt b)

theorem dec_eq (h : Inv vs c) {b : ℕ} (hb : (c.buf b).refcnt ≠ 0) :
    Bcache.dec (c.buf b).refcnt + 1 = (c.buf b).refcnt := by
  have hlt := h.refcnt_lt b
  rw [Bcache.dec]
  omega

end Inv
end Xv6Arm.Bio

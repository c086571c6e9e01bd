import Xv6Arm.Log.Protocol

/-!
# The invariant of the log under concurrent operations

One lemma for each section of `log.c` that changes the log: `begin_op`, the two
outcomes of `end_op`, the end of a commit, `log_write`, and the clearing of the
header.
-/
namespace Xv6Arm
open Lib

/-- The facts that hold between any two requests. -/
structure TxInv (s : TxState) : Prop where
  /-- `outstanding` counts the processes inside an operation. -/
  outstanding : ∃ F : Finset ℕ, (∀ t, t ∈ F ↔ ∃ op, s.phase t = .inside op) ∧
    s.io.log.outstanding = F.card
  committing : s.io.log.committing = true ↔ ∃ t, s.phase t = .committing
  exclusive : ∀ t u, s.phase t = .committing → s.phase u ≠ .outside → u = t
  fresh : ∀ t op, s.phase t = .inside op → op < s.begun ∧ op ∉ s.ended
  distinct : ∀ t u op, s.phase t = .inside op → s.phase u = .inside op → u = t
  ended_lt : ∀ op ∈ s.ended, op < s.begun
  nodup : s.io.log.lh.Nodup
  /-- Between commits the in-memory header lists what has been logged since the last one. -/
  current : s.io.log.committing = false → ∀ b, b ∈ s.io.log.lh ↔ ∃ op, (op, b, s.commits.length) ∈ s.logged
  /-- During a commit nothing is logged, and the header is the one `commit` was given or cleared. -/
  quiet : s.io.log.committing = true →
    (∀ op b, (op, b, s.commits.length) ∉ s.logged) ∧
      (s.io.log.lh = [] ∨ s.commits.getLast? = some s.io.log.lh)
  /-- What an operation has logged and is not ended is in the current header. -/
  pending : ∀ op b e, (op, b, e) ∈ s.logged →
    op ∈ s.ended ∨ ∃ t, s.phase t = .inside op ∧ e = s.commits.length
  epoch_le : ∀ op b e, (op, b, e) ∈ s.logged → e ≤ s.commits.length
  one : ∀ op b e b' e', (op, b, e) ∈ s.logged → (op, b', e') ∈ s.logged → e = e'
  commit : ∀ e c, s.commits[e]? = some c → ∀ b, b ∈ c ↔ ∃ op, (op, b, e) ∈ s.logged

namespace TxInv
variable {s : TxState} {t : ℕ} {io : IoState}

/-- A request that does not touch the log. -/
theorem same_log (h : TxInv s) (hlog : io.log = s.io.log) : TxInv { s with io } where
  outstanding := by simpa [hlog] using h.outstanding
  committing := by simpa [hlog] using h.committing
  exclusive := h.exclusive
  fresh := h.fresh
  distinct := h.distinct
  ended_lt := h.ended_lt
  nodup := by simpa [hlog] using h.nodup
  current := by simpa [hlog] using h.current
  quiet := by simpa [hlog] using h.quiet
  pending := h.pending
  epoch_le := h.epoch_le
  one := h.one
  commit := h.commit

/-- While a process is inside an operation no commit runs. -/
theorem not_committing (h : TxInv s) {op : ℕ} (ht : s.phase t = .inside op) :
    s.io.log.committing = false := by
  cases hc : s.io.log.committing with
  | false => rfl
  | true =>
    obtain ⟨u, hu⟩ := h.committing.mp hc
    have := h.exclusive u t hu (by simp [ht])
    subst this
    rw [ht] at hu
    cases hu

theorem outstanding_of_committing (h : TxInv s) (hc : s.io.log.committing = true) :
    s.io.log.outstanding = 0 := by
  obtain ⟨F, hF, hcard⟩ := h.outstanding
  have hempty : F = ∅ := by
    apply Finset.eq_empty_of_forall_notMem
    intro t ht
    obtain ⟨op, hop⟩ := (hF t).mp ht
    rw [h.not_committing hop] at hc
    cases hc
  simp [hcard, hempty]

/-- A process's own phase changes, the others' stay. -/
theorem phase_cases {ph : ℕ → TxPhase} {x y : TxPhase} {u : ℕ} (h : Function.update ph t x u = y) :
    (u = t ∧ x = y) ∨ (u ≠ t ∧ ph u = y) := by
  by_cases hu : u = t
  · subst hu
    exact .inl ⟨rfl, by simpa using h⟩
  · exact .inr ⟨hu, by simpa [Function.update_of_ne hu] using h⟩

/-- No process is committing if the flag is clear. -/
theorem phase_ne (h : TxInv s) (hc : s.io.log.committing = false) (u : ℕ) :
    s.phase u ≠ .committing := by
  intro hu
  rw [h.committing.mpr ⟨u, hu⟩] at hc
  cases hc

theorem phase_update_ne (h : TxInv s) (hc : s.io.log.committing = false) {x : TxPhase}
    (hx : x ≠ .committing) (u : ℕ) : Function.update s.phase t x u ≠ .committing := by
  intro hu
  rcases phase_cases hu with ⟨-, hx'⟩ | ⟨-, hu⟩
  · exact hx hx'
  · exact h.phase_ne hc u hu

theorem beginOp (h : TxInv s) (ht : s.phase t = .outside) (hc : s.io.log.committing = false)
    (hlog : io.log = { s.io.log with outstanding := s.io.log.outstanding + 1 }) :
    TxInv { s with io, begun := s.begun + 1, phase := Function.update s.phase t (.inside s.begun) } where
  outstanding := by
    obtain ⟨F, hF, hcard⟩ := h.outstanding
    have htF : t ∉ F := fun hm => by
      obtain ⟨op, hop⟩ := (hF t).mp hm
      rw [ht] at hop
      cases hop
    refine ⟨insert t F, ?_, by simp [hlog, hcard, Finset.card_insert_of_notMem htF]⟩
    intro u
    by_cases hu : u = t
    · subst hu
      simp
    · simp [hu, hF u]
  committing := by simp [hlog, hc, h.phase_update_ne hc]
  exclusive := fun u _ hu => absurd hu (h.phase_update_ne hc (by simp) u)
  fresh := by
    intro u op hu
    rcases phase_cases hu with ⟨-, hx⟩ | ⟨-, hx⟩
    · cases hx
      exact ⟨Nat.lt_succ_self _, fun hm => absurd (h.ended_lt _ hm) (lt_irrefl _)⟩
    · exact ⟨Nat.lt_succ_of_lt (h.fresh u op hx).1, (h.fresh u op hx).2⟩
  distinct := by
    intro u v op hu hv
    rcases phase_cases hu with ⟨rfl, hx⟩ | ⟨-, hx⟩ <;> rcases phase_cases hv with ⟨rfl, hy⟩ | ⟨-, hy⟩
    · rfl
    · cases hx
      exact absurd (h.fresh v _ hy).1 (lt_irrefl _)
    · cases hy
      exact absurd (h.fresh u _ hx).1 (lt_irrefl _)
    · exact h.distinct u v op hx hy
  ended_lt := fun op hop => Nat.lt_succ_of_lt (h.ended_lt op hop)
  nodup := by simpa [hlog] using h.nodup
  current := by simpa [hlog] using h.current
  quiet := by simp [hlog, hc]
  pending := by
    intro op b e hm
    rcases h.pending op b e hm with he | ⟨u, hu, he⟩
    · exact .inl he
    · have hut : u ≠ t := fun e => by
        rw [e, ht] at hu
        cases hu
      exact .inr ⟨u, (Function.update_of_ne hut _ _).trans hu, he⟩
  epoch_le := h.epoch_le
  one := h.one
  commit := h.commit

/-- The number of operations still in progress when one of them ends. -/
theorem outstanding_end (h : TxInv s) {op : ℕ} (ht : s.phase t = .inside op) {x : TxPhase}
    (hx : ∀ op, x ≠ .inside op) :
    ∃ F : Finset ℕ, (∀ u, u ∈ F ↔ ∃ op, Function.update s.phase t x u = .inside op) ∧
      s.io.log.outstanding - 1 = F.card := by
  obtain ⟨F, hF, hcard⟩ := h.outstanding
  have htF : t ∈ F := (hF t).mpr ⟨op, ht⟩
  refine ⟨F.erase t, ?_, ?_⟩
  · intro u
    by_cases hu : u = t
    · subst hu
      simp [hx]
    · simp [hu, hF u]
  · rw [hcard, Finset.card_erase_of_mem htF]
    have := Finset.card_pos.mpr ⟨t, htF⟩
    omega

/-- An entry of an ended or still open operation, once operation `op` of process `t` has ended. -/
theorem logged_end (h : TxInv s) {op : ℕ} (ht : s.phase t = .inside op) {x : TxPhase} {o b e : ℕ}
    (hm : (o, b, e) ∈ s.logged) :
    o ∈ op :: s.ended ∨ ∃ u, Function.update s.phase t x u = .inside o ∧ e = s.commits.length := by
  rcases h.pending o b e hm with he | ⟨u, hu, he⟩
  · exact .inl (List.mem_cons_of_mem _ he)
  · by_cases hut : u = t
    · subst hut
      rw [ht] at hu
      cases hu
      exact .inl List.mem_cons_self
    · exact .inr ⟨u, by rw [Function.update_of_ne hut, hu], he⟩

theorem fresh_end (h : TxInv s) {op : ℕ} (ht : s.phase t = .inside op) {x : TxPhase}
    (hx : ∀ op, x ≠ .inside op) (u o : ℕ) (hu : Function.update s.phase t x u = .inside o) :
    o < s.begun ∧ o ∉ op :: s.ended := by
  rcases phase_cases hu with ⟨-, hx'⟩ | ⟨hut, hu⟩
  · exact absurd hx' (hx o)
  · refine ⟨(h.fresh u o hu).1, ?_⟩
    intro hm
    rcases List.mem_cons.mp hm with rfl | hm
    · exact hut (h.distinct t u o ht hu)
    · exact (h.fresh u o hu).2 hm

theorem distinct_end (h : TxInv s) {x : TxPhase} (hx : ∀ op, x ≠ .inside op) (u v o : ℕ)
    (hu : Function.update s.phase t x u = .inside o) (hv : Function.update s.phase t x v = .inside o) :
    v = u := by
  rcases phase_cases hu with ⟨-, hx'⟩ | ⟨-, hu⟩
  · exact absurd hx' (hx o)
  · rcases phase_cases hv with ⟨-, hx'⟩ | ⟨-, hv⟩
    · exact absurd hx' (hx o)
    · exact h.distinct u v o hu hv

theorem ended_lt_end (h : TxInv s) {op : ℕ} (ht : s.phase t = .inside op) (o : ℕ)
    (ho : o ∈ op :: s.ended) : o < s.begun := by
  rcases List.mem_cons.mp ho with rfl | ho
  · exact (h.fresh t o ht).1
  · exact h.ended_lt o ho

/-- `end_op` of an operation that is not the last one outstanding. -/
theorem endOp (h : TxInv s) {op : ℕ} (ht : s.phase t = .inside op)
    (hlog : io.log = { s.io.log with outstanding := s.io.log.outstanding - 1 }) :
    TxInv { s with io, ended := op :: s.ended, phase := Function.update s.phase t .outside } where
  outstanding := by simpa [hlog] using h.outstanding_end ht (by simp)
  committing := by simp [hlog, h.not_committing ht, h.phase_update_ne (h.not_committing ht)]
  exclusive := fun u _ hu => absurd hu (h.phase_update_ne (h.not_committing ht) (by simp) u)
  fresh := h.fresh_end ht (by simp)
  distinct := h.distinct_end (by simp)
  ended_lt := h.ended_lt_end ht
  nodup := by simpa [hlog] using h.nodup
  current := by simpa [hlog] using h.current
  quiet := by simp [hlog, h.not_committing ht]
  pending := fun _ _ _ hm => h.logged_end ht hm
  epoch_le := h.epoch_le
  one := h.one
  commit := h.commit

/-- `end_op` of the last operation outstanding: the commit is given the current header. -/
theorem endOp_commit (h : TxInv s) {op : ℕ} (ht : s.phase t = .inside op)
    (h0 : s.io.log.outstanding - 1 = 0)
    (hlog : io.log = { s.io.log with outstanding := s.io.log.outstanding - 1, committing := true }) :
    TxInv { s with io, ended := op :: s.ended, phase := Function.update s.phase t .committing,
                   commits := s.commits ++ [io.log.lh] } := by
  obtain ⟨F, hF, hcard⟩ := h.outstanding_end ht (x := .committing) (by simp)
  have hempty : F = ∅ := by
    rw [h0] at hcard
    exact Finset.card_eq_zero.mp (by omega)
  have hnone : ∀ u o, Function.update s.phase t .committing u ≠ .inside o := by
    intro u o hu
    have := (hF u).mpr ⟨o, hu⟩
    simp [hempty] at this
  -- nobody is inside any more, so every operation that has logged something has ended
  have hended : ∀ o b e, (o, b, e) ∈ s.logged → o ∈ op :: s.ended := by
    intro o b e hm
    rcases h.logged_end ht hm with ho | ⟨u, hu, -⟩
    · exact ho
    · exact absurd hu (hnone u o)
  have hnc := h.not_committing ht
  refine ⟨⟨F, hF, by simpa [hlog] using hcard⟩, ?_, ?_, h.fresh_end ht (by simp),
    h.distinct_end (by simp), h.ended_lt_end ht, by simpa [hlog] using h.nodup, by simp [hlog], ?_,
    fun o b e hm => .inl (hended o b e hm), ?_, h.one, ?_⟩
  · simp only [hlog, true_iff]
    exact ⟨t, by simp⟩
  · intro u v hu hv
    have hut : u = t := by
      rcases phase_cases hu with ⟨hut, -⟩ | ⟨-, hx⟩
      · exact hut
      · exact absurd hx (h.phase_ne hnc u)
    by_contra hvu
    have hvt : v ≠ t := fun e => hvu (e.trans hut.symm)
    cases hp : s.phase v with
    | outside => exact hv ((Function.update_of_ne hvt _ _).trans hp)
    | inside o => exact hnone v o (by rw [Function.update_of_ne hvt, hp])
    | committing => exact h.phase_ne hnc v hp
  · intro _
    refine ⟨?_, .inr (by simp)⟩
    intro o b hm
    have := h.epoch_le o b _ hm
    simp at this
  · intro o b e hm
    have := h.epoch_le o b e hm
    simp only [List.length_append, List.length_singleton]
    omega
  · intro e c hc b
    by_cases he : e < s.commits.length
    · rw [List.getElem?_append_left he] at hc
      exact h.commit e c hc b
    · rw [List.getElem?_append_right (by omega)] at hc
      obtain ⟨he', rfl⟩ : e - s.commits.length = 0 ∧ io.log.lh = c := by
        cases hk : e - s.commits.length with
        | zero => simpa [hk] using hc
        | succ k => simp [hk] at hc
      rw [show e = s.commits.length by omega, hlog]
      exact h.current hnc b

/-- The end of `commit`, with the header cleared. -/
theorem commitDone (h : TxInv s) (ht : s.phase t = .committing) (hnil : s.io.log.lh = [])
    (hlog : io.log = { s.io.log with committing := false }) :
    TxInv { s with io, phase := Function.update s.phase t .outside } := by
  have hct : s.io.log.committing = true := h.committing.mpr ⟨t, ht⟩
  have hout : ∀ u, Function.update s.phase t .outside u = .outside := by
    intro u
    by_cases hu : u = t
    · simp [hu]
    · rw [Function.update_of_ne hu]
      by_contra hne
      exact hu (h.exclusive t u ht hne)
  refine ⟨⟨∅, ?_, ?_⟩, ?_, ?_, ?_, ?_, h.ended_lt, by simp [hlog, hnil], ?_, by simp [hlog], ?_,
    h.epoch_le, h.one, h.commit⟩
  · intro u
    simp [hout u]
  · simpa [hlog] using h.outstanding_of_committing hct
  · simp [hlog, hout]
  · intro u v hu
    simp [hout] at hu
  · intro u o hu
    simp [hout] at hu
  · intro u v o hu
    simp [hout] at hu
  · intro _ b
    simp only [hlog, hnil, List.not_mem_nil, false_iff, not_exists]
    exact fun o => (h.quiet hct).1 o b
  · intro o b e hm
    rcases h.pending o b e hm with ho | ⟨u, hu, -⟩
    · exact .inl ho
    · have := h.exclusive t u ht (by simp [hu])
      subst this
      rw [ht] at hu
      cases hu

/-- `log_write` of block `b` in operation `op`. -/
theorem logAppend (h : TxInv s) {op : ℕ} (ht : s.phase t = .inside op) (b : ℕ)
    (hlog : io.log = s.io.log.append b) :
    TxInv { s with io, logged := (op, b, s.commits.length) :: s.logged } := by
  have hnc := h.not_committing ht
  have hsame : io.log.outstanding = s.io.log.outstanding ∧ io.log.committing = s.io.log.committing := by
    rw [hlog, Log.append]
    split <;> exact ⟨rfl, rfl⟩
  have hlh : io.log.lh = if b ∈ s.io.log.lh then s.io.log.lh else s.io.log.lh ++ [b] := by
    rw [hlog, Log.append]
    split <;> rfl
  have hmem : ∀ x, x ∈ io.log.lh ↔ x = b ∨ x ∈ s.io.log.lh := by
    intro x
    rw [hlh]
    split
    · rename_i hb
      exact ⟨.inr, fun hx => hx.elim (fun e => e ▸ hb) id⟩
    · simp [or_comm]
  have hopen : ∀ o b' e, (o, b', e) ∈ (op, b, s.commits.length) :: s.logged →
      (o = op ∧ b' = b ∧ e = s.commits.length) ∨ (o, b', e) ∈ s.logged := by
    intro o b' e hm
    simpa using hm
  -- the entries operation `op` already has are of the current header too
  have hmine : ∀ b' e, (op, b', e) ∈ s.logged → e = s.commits.length := by
    intro b' e hm
    rcases h.pending op b' e hm with ho | ⟨-, -, he⟩
    · exact absurd ho (h.fresh t op ht).2
    · exact he
  refine ⟨by simpa [hsame] using h.outstanding, by simpa [hsame] using h.committing, h.exclusive,
    h.fresh, h.distinct, h.ended_lt, ?_, ?_, by simp [hsame, hnc], ?_, ?_, ?_, ?_⟩
  · rw [hlh]
    split
    · exact h.nodup
    · rename_i hb
      rw [List.nodup_append]
      exact ⟨h.nodup, by simp, by simpa using fun a ha => ne_of_mem_of_not_mem ha hb⟩
  · intro _ x
    rw [hmem x, h.current hnc x]
    simp only [List.mem_cons, Prod.mk.injEq, and_true]
    refine ⟨?_, ?_⟩
    · rintro (rfl | ⟨o, ho⟩)
      · exact ⟨op, .inl ⟨rfl, rfl⟩⟩
      · exact ⟨o, .inr ho⟩
    · rintro ⟨o, ⟨-, rfl⟩ | ho⟩
      · exact .inl rfl
      · exact .inr ⟨o, ho⟩
  · intro o b' e hm
    rcases hopen o b' e hm with ⟨rfl, -, rfl⟩ | hm
    · exact .inr ⟨t, ht, rfl⟩
    · exact h.pending o b' e hm
  · intro o b' e hm
    rcases hopen o b' e hm with ⟨-, -, rfl⟩ | hm
    · exact le_rfl
    · exact h.epoch_le o b' e hm
  · intro o b₁ e₁ b₂ e₂ h₁ h₂
    rcases hopen o b₁ e₁ h₁ with ⟨rfl, -, rfl⟩ | h₁ <;> rcases hopen o b₂ e₂ h₂ with ⟨ho, -, rfl⟩ | h₂
    · rfl
    · exact (hmine b₂ e₂ h₂).symm
    · exact hmine b₁ e₁ (ho ▸ h₁)
    · exact h.one o b₁ e₁ b₂ e₂ h₁ h₂
  · intro e c hc x
    have he : e < s.commits.length := (List.getElem?_eq_some_iff.mp hc).1
    rw [h.commit e c hc x]
    refine ⟨fun ⟨o, ho⟩ => ⟨o, List.mem_cons_of_mem _ ho⟩, ?_⟩
    rintro ⟨o, ho⟩
    rcases hopen o x e ho with ⟨-, -, rfl⟩ | ho
    · exact absurd he (lt_irrefl _)
    · exact ⟨o, ho⟩

/-- The assignment `log.lh.n = 0` of `commit`. -/
theorem clear (h : TxInv s) (ht : s.phase t = .committing)
    (hlog : io.log = { s.io.log with lh := [] }) : TxInv { s with io } := by
  have hct : s.io.log.committing = true := h.committing.mpr ⟨t, ht⟩
  refine ⟨by simpa [hlog] using h.outstanding, by simpa [hlog] using h.committing, h.exclusive,
    h.fresh, h.distinct, h.ended_lt, by simp [hlog], by simp [hlog, hct], ?_, h.pending, h.epoch_le,
    h.one, h.commit⟩
  intro _
  exact ⟨(h.quiet hct).1, .inl (by simp [hlog])⟩

end TxInv
end Xv6Arm

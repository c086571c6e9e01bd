import Xv6Arm.Log.Transactions

/-!
# The log space that `begin_op` reserves

`begin_op` admits an operation only if the log has room for `MAXOPBLOCKS` blocks
of every operation in progress. The blocks in the header and the unused part of
these budgets never exceed `LOGSIZE` together, so a block that is new to the log
always fits. `log_write` applies its limit before it looks for the block in the
header, though, so that a full log also turns away blocks that are already in it.
-/
namespace Xv6Arm
open Lib

namespace TxState

/-- The blocks that operation `op` has passed to `log_write`. -/
def passed (s : TxState) (op : ℕ) : Finset ℕ := ((s.logged.filter (·.1 = op)).map (·.2.1)).toFinset

/-- How many distinct blocks the operation of process `t` has logged. -/
def spent (s : TxState) (t : ℕ) : ℕ :=
  match s.phase t with
  | .inside op => (s.passed op).card
  | _ => 0

/-- Every operation of the run so far has kept to its budget. -/
def WithinBudget (s : TxState) : Prop := ∀ op, (s.passed op).card ≤ MAXOPBLOCKS

theorem mem_passed {s : TxState} {op b : ℕ} : b ∈ s.passed op ↔ ∃ e, (op, b, e) ∈ s.logged := by
  simp [passed]

theorem spent_inside {s : TxState} {t op : ℕ} (h : s.phase t = .inside op) :
    s.spent t = (s.passed op).card := by simp [spent, h]

theorem spent_congr {s s' : TxState} {t : ℕ} (hph : s'.phase t = s.phase t) (hlog : s'.logged = s.logged) :
    s'.spent t = s.spent t := by
  simp [spent, passed, hph, hlog]

/-- What is left of the budgets of the processes in `F`. -/
def unspent (s : TxState) (F : Finset ℕ) : ℕ := ∑ t ∈ F, (MAXOPBLOCKS - s.spent t)

end TxState
open TxState

/-- The header and the unused budgets fit into the log. -/
def Reserved (s : TxState) : Prop :=
  ∃ F : Finset ℕ, (∀ t, t ∈ F ↔ ∃ op, s.phase t = .inside op) ∧
    s.io.log.lh.length + s.unspent F ≤ LOGSIZE

namespace Reserved
variable {s : TxState} {t : ℕ} {io : IoState}

theorem same_log (h : Reserved s) (hlog : io.log = s.io.log) : Reserved { s with io } := by
  obtain ⟨F, hF, hle⟩ := h
  refine ⟨F, hF, ?_⟩
  rw [hlog]
  exact hle

theorem unspent_le (s : TxState) (F : Finset ℕ) : s.unspent F ≤ F.card * MAXOPBLOCKS := by
  apply (Finset.sum_le_card_nsmul F _ MAXOPBLOCKS fun u _ => Nat.sub_le _ _).trans
  simp

/-- `begin_op` has tested for a whole budget of each operation, the new one included. -/
theorem beginOp (hi : TxInv s)
    (hroom : (s.io.log.lh.length : ℤ) + (s.io.log.outstanding + 1) * MAXOPBLOCKS ≤ LOGSIZE)
    (ht : s.phase t = .outside) (hlog : io.log = { s.io.log with outstanding := s.io.log.outstanding + 1 }) :
    Reserved { s with io, begun := s.begun + 1, phase := Function.update s.phase t (.inside s.begun) } := by
  obtain ⟨F, hF, hcard⟩ := hi.outstanding
  have htF : t ∉ F := fun hm => by
    obtain ⟨op, hop⟩ := (hF t).mp hm
    rw [ht] at hop
    cases hop
  refine ⟨insert t F, ?_, ?_⟩
  · intro u
    by_cases hu : u = t
    · subst hu
      simp
    · simp [hu, hF u]
  · apply (Nat.add_le_add_left (unspent_le _ (insert t F)) _).trans
    rw [Finset.card_insert_of_notMem htF, hlog]
    rw [hcard] at hroom
    exact_mod_cast hroom

/-- An operation that ends gives up what is left of its budget. -/
theorem endOp (h : Reserved s) {op : ℕ} (ht : s.phase t = .inside op) {x : TxPhase}
    (hx : ∀ op, x ≠ .inside op) {s' : TxState} (hph : s'.phase = Function.update s.phase t x)
    (hlogged : s'.logged = s.logged) (hlh : s'.io.log.lh = s.io.log.lh) : Reserved s' := by
  obtain ⟨F, hF, hle⟩ := h
  have htF : t ∈ F := (hF t).mpr ⟨op, ht⟩
  refine ⟨F.erase t, ?_, ?_⟩
  · intro u
    rw [hph]
    by_cases hu : u = t
    · subst hu
      simp [hx]
    · simp [hu, hF u]
  · have hsum : s'.unspent (F.erase t) = s.unspent (F.erase t) := by
      apply Finset.sum_congr rfl
      intro u hu
      have hut : u ≠ t := Finset.ne_of_mem_erase hu
      rw [spent_congr (by rw [hph, Function.update_of_ne hut]) hlogged]
    have hsub : s.unspent (F.erase t) ≤ s.unspent F :=
      Finset.sum_le_sum_of_subset (Finset.erase_subset t F)
    rw [hsum, hlh]
    omega

/-- Nobody is inside an operation while the header is cleared or the commit ends. -/
theorem committing (h : Reserved s) {s' : TxState} (hph : ∀ u op, s'.phase u ≠ .inside op)
    (hlh : s'.io.log.lh.length ≤ s.io.log.lh.length) : Reserved s' := by
  obtain ⟨F, -, hle⟩ := h
  refine ⟨∅, ?_, ?_⟩
  · intro u
    simp [hph u]
  · simp only [unspent, Finset.sum_empty]
    omega

/-- A block that is new to the log is paid for by the operation that logs it. -/
theorem logAppend (h : Reserved s) (hi : TxInv s) {op b : ℕ} (ht : s.phase t = .inside op)
    (hlog : io.log = s.io.log.append b)
    (hbudget : (insert b (s.passed op)).card ≤ MAXOPBLOCKS) :
    Reserved { s with io, logged := (op, b, s.commits.length) :: s.logged } := by
  obtain ⟨F, hF, hle⟩ := h
  have htF : t ∈ F := (hF t).mpr ⟨op, ht⟩
  generalize hs' : ({ s with io, logged := (op, b, s.commits.length) :: s.logged } : TxState) = s'
  have hph : s'.phase = s.phase := by subst hs'; rfl
  have hpassed : ∀ o, s'.passed o = if o = op then insert b (s.passed op) else s.passed o := by
    intro o
    subst hs'
    by_cases ho : op = o
    · subst ho
      simp [passed]
    · simp [passed, ho, Ne.symm ho]
  -- the other operations have what they had
  have hother : ∀ u ∈ F, u ≠ t → s'.spent u = s.spent u := by
    intro u hu hut
    obtain ⟨o, ho⟩ := (hF u).mp hu
    have hne : o ≠ op := fun e => hut (hi.distinct t u op ht (e ▸ ho))
    rw [spent_inside (hph ▸ ho), spent_inside ho, hpassed, if_neg hne]
  have hmine : s'.spent t = (insert b (s.passed op)).card := by
    rw [spent_inside (hph ▸ ht), hpassed, if_pos rfl]
  have hrest : ∑ u ∈ F.erase t, (MAXOPBLOCKS - s'.spent u) = ∑ u ∈ F.erase t, (MAXOPBLOCKS - s.spent u) := by
    apply Finset.sum_congr rfl
    intro u hu
    rw [hother u (Finset.mem_of_mem_erase hu) (Finset.ne_of_mem_erase hu)]
  have hlh : s'.io.log.lh = if b ∈ s.io.log.lh then s.io.log.lh else s.io.log.lh ++ [b] := by
    subst hs'
    simp only [hlog, Log.append]
    split <;> rfl
  refine ⟨F, by rw [hph]; exact hF, ?_⟩
  rw [unspent, ← Finset.add_sum_erase F _ htF, spent_inside ht] at hle
  rw [unspent, ← Finset.add_sum_erase F _ htF, hrest, hmine, hlh]
  have hmono : (s.passed op).card ≤ (insert b (s.passed op)).card :=
    Finset.card_le_card (Finset.subset_insert b _)
  split
  · omega
  · rename_i hb
    have hnew : b ∉ s.passed op := fun hm => by
      obtain ⟨e, he⟩ := mem_passed.mp hm
      rcases hi.pending op b e he with ho | ⟨-, -, rfl⟩
      · exact (hi.fresh t op ht).2 ho
      · exact hb ((hi.current (hi.not_committing ht) b).mpr ⟨op, he⟩)
    rw [Finset.card_insert_of_notMem hnew] at hbudget ⊢
    rw [List.length_append, List.length_singleton]
    omega

end Reserved

/-! ## Whole runs -/

theorem beginOp_room {t : ℕ} {io l : IoState} (h : ioStep t .beginOp io = .done () l) :
    (io.log.lh.length : ℤ) + (io.log.outstanding + 1) * MAXOPBLOCKS ≤ LOGSIZE := by
  simp only [ioStep, Log.beginOp] at h
  split at h
  · rename_i hb
    split at hb
    · cases hb
    · split at hb
      · cases hb
      · omega
  · cases h

/-- Nothing that has been logged is forgotten. -/
theorem logged_mono (t : ℕ) (s : TxState) (o : IoOp) (r : IoOp.Res o) (io : IoState) {x : ℕ × ℕ × ℕ}
    (h : x ∈ s.logged) : x ∈ (s.note t o r io).logged := by
  cases o with
  | logAppend b =>
    simp only [TxState.note]
    split
    · exact List.mem_cons_of_mem _ h
    · exact h
  | endOp =>
    simp only [TxState.note]
    split <;> exact h
  | _ => exact h

theorem WithinBudget.before {t : ℕ} {s : TxState} {o : IoOp} {r : IoOp.Res o} {io : IoState}
    (h : (s.note t o r io).WithinBudget) : s.WithinBudget := by
  intro op
  refine (Finset.card_le_card ?_).trans (h op)
  intro b hb
  obtain ⟨e, he⟩ := mem_passed.mp hb
  exact mem_passed.mpr ⟨e, logged_mono t s o r io he⟩

/-- One request of a process that follows the protocol keeps the reservation. -/
theorem Reserved.step {t : ℕ} {o : IoOp} {K : IoOp.Res o → TxView → Prop} {s s' : TxState} {r : IoOp.Res o}
    (h : Reserved s) (hi : TxInv s) (hspec : txSpec o K (s.view t)) (hstep : txStep t o s = .done r s')
    (hb : s'.WithinBudget) : Reserved s' := by
  obtain ⟨io, hio, rfl⟩ := txStep_done hstep
  cases o with
  | bread b => exact h.same_log (bread_log hio)
  | bset b d =>
    cases hio
    exact h.same_log rfl
  | bwrite b =>
    have hio : s.io.bwrite t b = .done () io := hio
    exact h.same_log (held_log hio fun _ => rfl)
  | brelse b =>
    have hio : s.io.brelse t b = .done () io := hio
    exact h.same_log (held_log hio fun _ => rfl)
  | bunpin b =>
    cases hio
    exact h.same_log rfl
  | beginOp => exact Reserved.beginOp hi (beginOp_room hio) (view_outside hspec.1) (beginOp_done hio).2
  | endOp =>
    obtain ⟨op, hop⟩ := view_inside hspec.1
    rcases endOp_done hio with ⟨rfl, -, hlog⟩ | ⟨rfl, hlog⟩
    · exact h.endOp hop (x := .committing) (by simp) (by simp [TxState.note]) (by simp [TxState.note])
        (by simp [TxState.note, hlog])
    · exact h.endOp hop (x := .outside) (by simp) (by simp [TxState.note]) (by simp [TxState.note])
        (by simp [TxState.note, hlog])
  | commitDone =>
    obtain ⟨hph, -⟩ := view_committing hspec.1
    cases hio
    refine h.committing ?_ le_rfl
    intro u op hu
    rcases TxInv.phase_cases hu with ⟨-, hx⟩ | ⟨hut, hu⟩
    · cases hx
    · exact hut (hi.exclusive t u hph (by simp [hu]))
  | logCheck =>
    have hsame : io = s.io := by
      simp only [ioStep] at hio
      split at hio <;> cases hio
      rfl
    exact h.same_log (by rw [hsame])
  | logAppend b =>
    obtain ⟨op, hop⟩ := view_inside hspec.1
    cases hio
    have hnote : s.note t (.logAppend b) () (s.io.logAppend b) = { s with
        io := s.io.logAppend b, logged := (op, b, s.commits.length) :: s.logged } := by
      simp [TxState.note, hop]
    rw [hnote] at hb ⊢
    refine h.logAppend hi hop (logAppend_log b s.io) ?_
    simpa [passed] using hb op
  | logGet =>
    cases hio
    exact h
  | lhSet l =>
    obtain ⟨rfl, ⟨lh, hv⟩, -⟩ := hspec
    obtain ⟨hph, -⟩ := view_committing hv
    cases hio
    refine h.committing ?_ (Nat.zero_le _)
    intro u op hu
    have := hi.exclusive t u hph (by simp [show s.phase u = _ from hu])
    subst this
    rw [show s.phase u = _ from hu] at hph
    cases hph

theorem withinBudget_of_logged {s : TxState} (h : ∀ x ∈ s.logged, (s.passed x.1).card ≤ MAXOPBLOCKS) :
    s.WithinBudget := by
  intro op
  rcases (s.passed op).eq_empty_or_nonempty with hempty | ⟨b, hb⟩
  · simp [hempty]
  · obtain ⟨e, he⟩ := mem_passed.mp hb
    exact h _ he

/-- The run lemma: as long as all operations keep to their budgets, the reservation holds. -/
theorem TxReachable.reserved {P : Pool ioSig TxState} (h : TxReachable P) (hb : P.shared.WithinBudget) :
    Reserved P.shared := by
  induction h with
  | init hs => exact ⟨∅, by simp [hs.2.2.2.1], by simp [hs.2.2.1, unspent]⟩
  | @step P Q hP hstep ih =>
    cases hstep with
    | @request t o next r s ht hr =>
      have hsafe := TxReachable.safe hP
      have hwp := hsafe.thread t
      rw [ht] at hwp
      obtain ⟨io, -, hs⟩ := txStep_done hr
      have hbefore : P.shared.WithinBudget := WithinBudget.before (hs ▸ hb)
      exact (ih hbefore).step hsafe.inv hwp hr hb
    | start ht hp => exact ih hb

/-! ## The limit of `log_write` -/

/-- The block of the call of `log_write` that a process is about to make. -/
def pendingWrite : IoM Unit → Option ℕ
  | .call .logCheck next =>
    match next () with
    | .call (.logAppend b) _ => some b
    | _ => none
  | _ => none

theorem panics_of_pendingWrite {P : Pool ioSig TxState} {t b : ℕ} {msg : String}
    (h : pendingWrite (P.thread t) = some b) :
    P.Panics txStep t msg ↔ txStep t .logCheck P.shared = .panic msg := by
  obtain ⟨next, hp⟩ : ∃ next, P.thread t = .call .logCheck next := by
    generalize P.thread t = p at h
    unfold pendingWrite at h
    split at h
    · exact ⟨_, rfl⟩
    · cases h
  refine ⟨?_, fun hr => ⟨_, next, hp, hr⟩⟩
  rintro ⟨o, next', ht, hr⟩
  rw [hp] at ht
  cases ht
  exact hr

theorem txStep_too_big {t : ℕ} {s : TxState} (hsize : LOGSIZE + 1 ≤ s.io.log.size) :
    txStep t .logCheck s = .panic "too big a transaction" ↔ LOGSIZE ≤ s.io.log.lh.length := by
  unfold txStep
  simp only [ioStep, Log.check]
  by_cases hfull : LOGSIZE ≤ s.io.log.lh.length
  · simp [hfull]
  · have hsize' : ¬((s.io.log.size : ℤ) - 1 ≤ s.io.log.lh.length) := by omega
    by_cases hout : s.io.log.outstanding < 1
    · simp [hfull, hsize', hout]
    · simp [hfull, hsize', hout]

/-- In every state that any interleaving of operations within their budgets reaches, a call of
`log_write` panics with "too big a transaction" exactly if the log holds `LOGSIZE` blocks; the caller
has then used up its budget, and the block is one that it has logged before. -/
theorem log_write_too_big {P : Pool ioSig TxState} (h : TxReachable P)
    (hsize : LOGSIZE + 1 ≤ P.shared.io.log.size) (hb : P.shared.WithinBudget) {t op b : ℕ}
    (ht : pendingWrite (P.thread t) = some b) (hop : P.shared.phase t = .inside op)
    (hfit : (insert b (P.shared.passed op)).card ≤ MAXOPBLOCKS) :
    P.Panics txStep t "too big a transaction" ↔
      P.shared.io.log.lh.length = LOGSIZE ∧ (P.shared.passed op).card = MAXOPBLOCKS ∧ b ∈ P.shared.passed op := by
  obtain ⟨F, hF, hle⟩ := h.reserved hb
  rw [panics_of_pendingWrite ht, txStep_too_big hsize]
  refine ⟨?_, fun hfull => hfull.1.ge⟩
  intro hfull
  have htF : t ∈ F := (hF t).mpr ⟨op, hop⟩
  have hzero : P.shared.unspent F = 0 := by omega
  have hspent : MAXOPBLOCKS - P.shared.spent t = 0 := Finset.sum_eq_zero_iff.mp hzero t htF
  rw [spent_inside hop] at hspent
  have hcard : (P.shared.passed op).card = MAXOPBLOCKS := le_antisymm (hb op) (by omega)
  refine ⟨by omega, hcard, ?_⟩
  by_contra hnew
  rw [Finset.card_insert_of_notMem hnew, hcard] at hfit
  omega

/-- Read, log and release a block, as the functions of `fs.c` do. -/
def touch (b : ℕ) : IoM Unit := do
  let _ ← bread b
  logWrite b
  brelse b

theorem body_touch (l : List ℕ) : Body (Prog.each touch l) := by
  induction l with
  | nil => trivial
  | cons b l ih => exact ⟨trivial, fun _ => ⟨trivial, fun _ => ⟨trivial, fun _ => ⟨trivial, fun _ => ih⟩⟩⟩⟩

theorem transaction_touch (l : List ℕ) : Transaction (do beginOp; Prog.each touch l; endOp) :=
  ⟨_, body_touch l, rfl⟩

/-- Three operations are admitted. Processes 1 and 2 log ten blocks each, and process 0 is about to
make its first call of `log_write`. -/
def threeOps : Pool ioSig TxState :=
  let op (l : List ℕ) : IoM Unit := do beginOp; Prog.each touch l; endOp
  let P : Pool ioSig TxState := ⟨txStart, Function.update (Function.update (Function.update (fun _ => .ret ())
    0 (op (List.range' 100 10 ++ [100]))) 1 (op (List.range' 110 10))) 2 (op (List.range' 120 10))⟩
  let P := ((P.ahead txStep 0 1).ahead txStep 1 1).ahead txStep 2 1
  ((P.ahead txStep 1 40).ahead txStep 2 40).ahead txStep 0 1

theorem reachable_threeOps : TxReachable threeOps := by
  have h₀ : TxReachable ⟨txStart, fun _ => .ret ()⟩ :=
    .init ⟨rfl, rfl, rfl, fun _ => rfl, rfl, rfl, rfl, rfl⟩
  have h₁ := ((h₀.step (.start (t := 0) rfl (transaction_touch (List.range' 100 10 ++ [100])))).step
    (.start (t := 1) rfl (transaction_touch (List.range' 110 10)))).step
      (.start (t := 2) rfl (transaction_touch (List.range' 120 10)))
  exact ((((h₁.ahead 0 1).ahead 1 1).ahead 2 1).ahead 1 40).ahead 2 40 |>.ahead 0 1

/-- With twenty blocks in the log the first call of the third operation is within the limits. -/
theorem log_write_third_op : TxReachable threeOps ∧ threeOps.shared.io.log.lh.length = 20 ∧
    ¬threeOps.Panics txStep 0 "too big a transaction" := by
  have hlen : threeOps.shared.io.log.lh.length = 20 := by decide +kernel
  have hop : threeOps.shared.phase 0 = .inside 0 := rfl
  refine ⟨reachable_threeOps, hlen, ?_⟩
  rw [log_write_too_big reachable_threeOps (by decide +kernel) (withinBudget_of_logged (by decide +kernel))
    (show pendingWrite (threeOps.thread 0) = some 100 by decide +kernel) hop (by decide +kernel), hlen]
  exact fun hfull => absurd hfull.1 (by decide)

/-- Each of three operations has passed exactly ten distinct blocks to `log_write`. The first one now
passes block 100, which it has logged before, again. -/
theorem repeated_block_panics : ∃ P, TxReachable P ∧ P.shared.io.log.size = LOGSIZE + 1 ∧
    P.shared.WithinBudget ∧ pendingWrite (P.thread 0) = some 100 ∧
    (insert 100 (P.shared.passed 0)).card = MAXOPBLOCKS ∧ P.Panics txStep 0 "too big a transaction" := by
  have hw : pendingWrite ((threeOps.ahead txStep 0 40).thread 0) = some 100 := by decide +kernel
  refine ⟨threeOps.ahead txStep 0 40, reachable_threeOps.ahead 0 40, by decide +kernel,
    withinBudget_of_logged (by decide +kernel), hw, by decide +kernel, ?_⟩
  rw [panics_of_pendingWrite hw, txStep_too_big (by decide +kernel)]
  decide +kernel

end Xv6Arm

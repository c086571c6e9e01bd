import Xv6Arm.Log.TxInvariant

/-!
# Isolation of transactions

Every request of the instrumented machine conforms to the protocol, so the rule
for pools gives the invariant in every state that any interleaving reaches.
-/
namespace Xv6Arm
open Lib

/-! ## Every request conforms to the protocol -/

section Conforms
variable {s s' : TxState} {t u : ℕ}

theorem view_outside (h : s.view t = .outside) : s.phase t = .outside := by
  unfold TxState.view at h
  split at h <;> first | assumption | cases h

theorem view_inside (h : s.view t = .inside) : ∃ op, s.phase t = .inside op := by
  unfold TxState.view at h
  split at h
  · cases h
  · exact ⟨_, by assumption⟩
  · cases h

theorem view_committing {lh : List ℕ} (h : s.view t = .committing lh) :
    s.phase t = .committing ∧ s.io.log.lh = lh := by
  unfold TxState.view at h
  split at h
  · cases h
  · cases h
  · cases h
    exact ⟨by assumption, rfl⟩

/-- A process's view depends on its phase, and on the header only while it commits. -/
theorem view_congr (hph : s'.phase u = s.phase u)
    (hlh : s.phase u = .committing → s'.io.log.lh = s.io.log.lh) : s'.view u = s.view u := by
  unfold TxState.view
  rw [hph]
  split
  · rfl
  · rfl
  · rw [hlh (by assumption)]

theorem txStep_done {o : IoOp} {r : IoOp.Res o} (h : txStep t o s = .done r s') :
    ∃ io, ioStep t o s.io = .done r io ∧ s' = s.note t o r io := by
  unfold txStep at h
  split at h
  · cases h
    exact ⟨_, by assumption, rfl⟩
  · cases h
  · cases h

theorem bread_log {me b : ℕ} {d : Block} {io io' : IoState} (h : io.bread me b = .done d io') :
    io'.log = io.log := by
  unfold IoState.bread at h
  split at h
  · cases h
  · split at h
    · cases h
    · split at h
      · cases h
        rfl
      · cases h

theorem held_log {me b : ℕ} {msg : String} {f : Buf → IoState} {io io' : IoState}
    (h : io.held me b msg f = .done () io') (hf : ∀ x, (f x).log = io.log) : io'.log = io.log := by
  unfold IoState.held at h
  split at h
  · split at h
    · cases h
      exact hf _
    · cases h
  · cases h

/-- A request that leaves the log alone keeps every view. -/
theorem conforms_same_log {io : IoState} (h : TxInv s) (hlog : io.log = s.io.log) :
    TxInv { s with io } ∧ ∀ u, TxState.view u { s with io } = s.view u :=
  ⟨h.same_log hlog, fun _ => view_congr rfl fun _ => by rw [hlog]⟩

theorem beginOp_done {io : IoState} {l : IoState} (h : ioStep t .beginOp io = .done () l) :
    io.log.committing = false ∧ l.log = { io.log with outstanding := io.log.outstanding + 1 } := by
  simp only [ioStep, Log.beginOp] at h
  split at h
  · rename_i l' hl
    split at hl
    · cases hl
    · rename_i hc
      split at hl
      · cases hl
      · cases hl
        cases h
        exact ⟨by simpa using hc, rfl⟩
  · cases h

theorem endOp_done {io l : IoState} {r : Bool} (h : ioStep t .endOp io = .done r l) :
    (r = true ∧ io.log.outstanding - 1 = 0 ∧
      l.log = { io.log with outstanding := io.log.outstanding - 1, committing := true }) ∨
    (r = false ∧ l.log = { io.log with outstanding := io.log.outstanding - 1 }) := by
  simp only [ioStep, Log.endOp] at h
  split at h
  · rename_i r' l' hl
    split at hl
    · cases hl
    · split at hl
      · rename_i h0
        cases hl
        cases h
        exact .inl ⟨rfl, h0, rfl⟩
      · cases hl
        cases h
        exact .inr ⟨rfl, rfl⟩
  · cases h
  · cases h

theorem logAppend_log (b : ℕ) (io : IoState) : (io.logAppend b).log = io.log.append b := by
  unfold IoState.logAppend
  split <;> rfl

end Conforms

theorem txStep_conforms : Pool.Conforms txStep txSpec TxState.view TxInv := by
  intro t o K s r s' h hspec hstep
  obtain ⟨io, hio, rfl⟩ := txStep_done hstep
  cases o with
  | bread b =>
    obtain ⟨hi, hv⟩ := conforms_same_log h (bread_log hio)
    exact ⟨hi, (hv t).symm ▸ hspec r, fun u _ => hv u⟩
  | bset b d =>
    cases hio
    obtain ⟨hi, hv⟩ := conforms_same_log h (show (s.io.bset b d).log = _ from rfl)
    exact ⟨hi, (hv t).symm ▸ hspec, fun u _ => hv u⟩
  | bwrite b =>
    have hio : s.io.bwrite t b = .done () io := hio
    obtain ⟨hi, hv⟩ := conforms_same_log h (held_log hio fun _ => rfl)
    exact ⟨hi, (hv t).symm ▸ hspec, fun u _ => hv u⟩
  | brelse b =>
    have hio : s.io.brelse t b = .done () io := hio
    obtain ⟨hi, hv⟩ := conforms_same_log h (held_log hio fun _ => rfl)
    exact ⟨hi, (hv t).symm ▸ hspec, fun u _ => hv u⟩
  | bunpin b =>
    cases hio
    obtain ⟨hi, hv⟩ := conforms_same_log h (show (s.io.bunpin b).log = _ from rfl)
    exact ⟨hi, (hv t).symm ▸ hspec, fun u _ => hv u⟩
  | beginOp =>
    obtain ⟨hv, hK⟩ := hspec
    obtain ⟨hc, hlog⟩ := beginOp_done hio
    refine ⟨h.beginOp (view_outside hv) hc hlog, ?_, ?_⟩
    · simpa [TxState.view, TxState.note] using hK
    · exact fun u hu => view_congr (Function.update_of_ne hu _ _) fun _ => by simp [TxState.note, hlog]
  | endOp =>
    obtain ⟨hv, hfalse, htrue⟩ := hspec
    obtain ⟨op, hop⟩ := view_inside hv
    rcases endOp_done hio with ⟨rfl, h0, hlog⟩ | ⟨rfl, hlog⟩
    · have hnote : s.note t .endOp true io = { s with
          io, ended := op :: s.ended, phase := Function.update s.phase t .committing,
          commits := s.commits ++ [io.log.lh] } := by simp [TxState.note, hop]
      rw [hnote]
      refine ⟨h.endOp_commit hop h0 hlog, ?_, ?_⟩
      · simpa [TxState.view] using htrue io.log.lh
      · exact fun u hu => view_congr (Function.update_of_ne hu _ _) fun _ => by simp [hlog]
    · have hnote : s.note t .endOp false io = { s with
          io, ended := op :: s.ended, phase := Function.update s.phase t .outside } := by
        simp [TxState.note, hop]
      rw [hnote]
      refine ⟨h.endOp hop hlog, ?_, ?_⟩
      · simpa [TxState.view] using hfalse
      · exact fun u hu => view_congr (Function.update_of_ne hu _ _) fun _ => by simp [hlog]
  | commitDone =>
    obtain ⟨hv, hK⟩ := hspec
    obtain ⟨hph, hnil⟩ := view_committing hv
    cases hio
    refine ⟨h.commitDone hph hnil rfl, ?_, ?_⟩
    · simpa [TxState.view, TxState.note] using hK
    · exact fun u hu => view_congr (Function.update_of_ne hu _ _) fun _ => rfl
  | logCheck =>
    obtain ⟨hv, hK⟩ := hspec
    have hsame : io = s.io := by
      simp only [ioStep] at hio
      split at hio <;> cases hio
      rfl
    subst hsame
    exact ⟨h, by rw [← hv] at hK; exact hK, fun _ _ => rfl⟩
  | logAppend b =>
    obtain ⟨hv, hK⟩ := hspec
    obtain ⟨op, hop⟩ := view_inside hv
    cases hio
    have hnote : s.note t (.logAppend b) () (s.io.logAppend b) = { s with
        io := s.io.logAppend b, logged := (op, b, s.commits.length) :: s.logged } := by
      simp [TxState.note, hop]
    rw [hnote]
    refine ⟨h.logAppend hop b (logAppend_log b s.io), ?_, ?_⟩
    · simpa [TxState.view, hop] using hK
    · exact fun u _ => view_congr rfl fun hu => absurd hu (h.phase_ne (h.not_committing hop) u)
  | logGet =>
    obtain ⟨lh, hv, hK⟩ := hspec
    cases hio
    exact ⟨h, hK s.io.log (view_committing hv).2, fun _ _ => rfl⟩
  | lhSet l =>
    obtain ⟨rfl, ⟨lh, hv⟩, hK⟩ := hspec
    obtain ⟨hph, -⟩ := view_committing hv
    cases hio
    refine ⟨h.clear hph rfl, ?_, ?_⟩
    · simpa [TxState.view, TxState.note, hph] using hK
    · exact fun u hu => view_congr rfl fun hc => absurd (h.exclusive t u hph (by simp [hc])) hu

theorem txStep_panic {t : ℕ} {o : IoOp} {s : TxState} {msg : String} (h : txStep t o s = .panic msg) :
    ioStep t o s.io = .panic msg := by
  unfold txStep at h
  split at h
  · cases h
  · cases h
  · cases h
    assumption

theorem held_panic {me b : ℕ} {msg msg' : String} {f : Buf → IoState} {io : IoState}
    (h : io.held me b msg f = .panic msg') : msg' = msg := by
  unfold IoState.held at h
  split at h
  · split at h
    · cases h
    · cases h
      rfl
  · cases h
    rfl

/-- The panic `log.committing` is the one in `end_op`. -/
theorem panic_committing {t : ℕ} {o : IoOp} {io : IoState}
    (h : ioStep t o io = .panic "log.committing") : o = .endOp ∧ io.log.committing = true := by
  cases o with
  | bread b =>
    simp only [ioStep, IoState.bread] at h
    split at h
    · simp at h
    · split at h
      · cases h
      · split at h <;> cases h
  | bwrite b =>
    have h : io.bwrite t b = _ := h
    exact absurd (held_panic h) (by decide)
  | brelse b =>
    have h : io.brelse t b = _ := h
    exact absurd (held_panic h) (by decide)
  | beginOp =>
    simp only [ioStep] at h
    split at h <;> cases h
  | endOp =>
    refine ⟨rfl, ?_⟩
    simp only [ioStep, Log.endOp] at h
    by_contra hc
    rw [if_neg hc] at h
    split at h
    · cases h
    · cases h
    · split at * <;> contradiction
  | logCheck =>
    simp only [ioStep, Log.check] at h
    split at h
    · rename_i msg hm
      split at hm
      · cases hm
        simp at h
      · split at hm
        · cases hm
          simp at h
        · cases hm
    · cases h
  | bset b d => cases h
  | bunpin b => cases h
  | commitDone => cases h
  | logAppend b => cases h
  | logGet => cases h
  | lhSet l => cases h

theorem TxInv.init {s : TxState} (h : TxInit s) : TxInv s := by
  obtain ⟨hout, hc, hlh, hph, -, hended, hlogged, hcommits⟩ := h
  constructor <;> simp_all
  exact ⟨∅, by simp⟩

/-- In every reachable state the invariant holds and every process follows the protocol. -/
theorem TxReachable.safe {P : Pool ioSig TxState} (h : TxReachable P) :
    Pool.Safe txSpec TxState.view (· = .outside) TxInv P :=
  Pool.Reachable.safe txStep_conforms (fun _ _ hp hv => transaction_wp hp hv)
    (fun _ hs => ⟨TxInv.init hs, fun t => by simp [TxState.view, hs.2.2.2.1 t]⟩) h

/-- No process is about to log a block, or to enter or leave an operation, during a commit. -/
theorem TxReachable.requests_committing {P : Pool ioSig TxState} (h : TxReachable P)
    (hc : P.shared.io.log.committing = true) {t : ℕ} {o : IoOp} {next : IoOp.Res o → IoM Unit}
    (ht : P.thread t = .call o next) : (∀ b, o ≠ .logAppend b) ∧ o ≠ .endOp := by
  have hwp := h.safe.thread t
  rw [ht] at hwp
  have hno : P.shared.view t ≠ .inside := fun hv => by
    obtain ⟨op, hop⟩ := view_inside hv
    rw [h.safe.inv.not_committing hop] at hc
    cases hc
  refine ⟨?_, ?_⟩
  · rintro b rfl
    exact hno hwp.1
  · rintro rfl
    exact hno hwp.1

/-- Isolation of transactions, in every state that any interleaving of any operations reaches.
(a) During a commit no operation is in progress, nothing is logged and `log.lh` is what the commit
was given until `commit` itself clears it. (b) No process is about to run into the panic
`log.committing`. (c) What one operation logs goes to one commit; a commit contains exactly the
blocks logged since the one before, and only of operations that have reached `end_op`. (d) `log.lh`
has no duplicates. -/
theorem transaction_isolation {P : Pool ioSig TxState} (h : TxReachable P) :
    (P.shared.io.log.committing = true →
      P.shared.io.log.outstanding = 0 ∧ (∀ t op, P.shared.phase t ≠ .inside op) ∧
      (∀ t b next, P.thread t ≠ .call (.logAppend b) next) ∧
      (P.shared.io.log.lh = [] ∨ P.shared.commits.getLast? = some P.shared.io.log.lh)) ∧
    (∀ t o next, P.thread t = .call o next → txStep t o P.shared ≠ .panic "log.committing") ∧
    ((∀ op b e b' e', (op, b, e) ∈ P.shared.logged → (op, b', e') ∈ P.shared.logged → e = e') ∧
      (∀ e c, P.shared.commits[e]? = some c →
        (∀ b, b ∈ c ↔ ∃ op, (op, b, e) ∈ P.shared.logged) ∧
        ∀ op b, (op, b, e) ∈ P.shared.logged → op ∈ P.shared.ended)) ∧
    P.shared.io.log.lh.Nodup := by
  have hi := h.safe.inv
  refine ⟨?_, ?_, ⟨hi.one, ?_⟩, hi.nodup⟩
  · intro hc
    refine ⟨hi.outstanding_of_committing hc, ?_, ?_, (hi.quiet hc).2⟩
    · intro t op hop
      rw [hi.not_committing hop] at hc
      cases hc
    · intro t b next ht
      exact (h.requests_committing hc ht).1 b rfl
  · intro t o next ht hp
    obtain ⟨rfl, hc⟩ := panic_committing (txStep_panic hp)
    exact (h.requests_committing hc ht).2 rfl
  · intro e c hc
    refine ⟨hi.commit e c hc, ?_⟩
    intro op b hm
    rcases hi.pending op b e hm with ho | ⟨-, -, he⟩
    · exact ho
    · have := (List.getElem?_eq_some_iff.mp hc).1
      omega

/-- The state after `initlog`, with a zeroed disk. -/
def txStart : TxState where
  io := { disk := fun _ _ => 0, bcache := Bcache.binit,
          log := { start := 2, size := 31, outstanding := 0, committing := false, lh := [] } }
  phase := fun _ => .outside
  begun := 0
  ended := []
  logged := []
  commits := []

/-- Process 0 has logged block 40 and process 1 has begun and ended without logging anything;
process 0 ends last and is about to commit. -/
theorem transaction_isolation_two : ∃ P, TxReachable P ∧ P.shared.commits = [[40]] ∧
    P.shared.io.log.committing = true ∧ P.shared.io.log.outstanding = 0 := by
  have hjob : Transaction (do beginOp; io (.logAppend 40); endOp) :=
    ⟨io (.logAppend 40), ⟨trivial, fun _ => trivial⟩, rfl⟩
  have hjob' : Transaction (do beginOp; pure (); endOp) := ⟨.ret (), trivial, rfl⟩
  have h₀ : TxReachable ⟨txStart, fun _ => .ret ()⟩ :=
    .init ⟨rfl, rfl, rfl, fun _ => rfl, rfl, rfl, rfl, rfl⟩
  have h₁ := (h₀.step (.start (t := 0) rfl hjob)).step (.start (t := 1) rfl hjob')
  have h₂ := (h₁.step (.request (t := 0) rfl rfl)).step (.request (t := 1) rfl rfl)
  have h₃ := (h₂.step (.request (t := 0) rfl rfl)).step (.request (t := 1) rfl rfl)
  have h₄ := h₃.step (.request (t := 0) rfl rfl)
  exact ⟨_, h₄, rfl, rfl, ((transaction_isolation h₄).1 rfl).1⟩

end Xv6Arm

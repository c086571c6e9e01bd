import Xv6Arm.Log.Commit

/-!
# The block writes of `recover_from_log`

Recovery starts with no buffer in use and needs at most two at a time, so it
never runs out of buffers or waits: it returns, and it issues exactly one write
for each block the header lists, then the header with `n = 0`.
-/
namespace Xv6Arm
open Lib Bcache IoState

/-- Every buffer of the cache except those of the blocks `bs` is unused and unlocked. -/
def UnusedBut (bs : List ℕ) (c : List Buf) : Prop :=
  ∀ x ∈ c, (∀ b ∈ bs, ¬Buf.holds ROOTDEV b x) → x.refcnt = 0 ∧ x.lock = none

/-- A system at rest: no buffer in use, and every valid buffer agrees with the disk. -/
structure Rested (s : IoState) : Prop where
  distinct : Distinct s.bcache
  unused : UnusedBut [] s.bcache
  length : s.bcache.length = NBUF
  clean : ∀ b, s.Stored b (s.disk b)

variable {me start b c : ℕ} {s s' : IoState} {d : Block} {bs : List ℕ}

theorem find_of_mem {c : List Buf} (hd : Distinct c) {x : Buf} (hx : x ∈ c)
    (hb : Buf.holds ROOTDEV b x) : find b c = some x := by
  induction c with
  | nil => cases hx
  | cons y c ih =>
    obtain ⟨hy, hc⟩ := List.pairwise_cons.mp hd
    rcases List.mem_cons.mp hx with rfl | hx
    · simp [find, hb]
    · have hyb : Buf.holds ROOTDEV b y = false := by
        cases h : Buf.holds ROOTDEV b y with
        | false => rfl
        | true => exact absurd ⟨h, hb⟩ (hy x hx b)
      rw [find, List.find?_cons, hyb]
      exact ih hc hx

theorem mem_bread (h : s.bread me b = .done d s') {y : Buf} (hy : y ∈ s'.bcache) :
    y ∈ s.bcache ∨ Buf.holds ROOTDEV b y := by
  unfold IoState.bread at h
  cases hg : bget ROOTDEV b s.bcache with
  | none => simp [hg] at h
  | some c =>
    rw [hg] at h
    cases hx : find b c with
    | none => simp [hx] at h
    | some x =>
      simp only [hx] at h
      split at h
      · cases h
        rcases mem_modifyFirst hy with hy | ⟨z, hz, rfl⟩
        · unfold bget at hg
          split at hg
          · cases hg
            rcases mem_modifyFirst hy with hy | ⟨z, hz, rfl⟩
            · exact .inl hy
            · exact .inr (show Buf.holds ROOTDEV b z = true from List.find?_some hz)
          · rcases recycle_mem hg hy with hy | ⟨z, -, -, rfl⟩
            · exact .inl hy
            · exact .inr (by simp [Buf.holds])
        · exact .inr (show Buf.holds ROOTDEV b z = true from List.find?_some hz)
      · cases h

theorem unusedBut_bread (h : s.bread me b = .done d s') (hu : UnusedBut bs s.bcache) :
    UnusedBut (b :: bs) s'.bcache := by
  intro x hx hbs
  rcases mem_bread h hx with hx | hb
  · exact hu x hx fun b' hb' => hbs b' (List.mem_cons_of_mem _ hb')
  · exact absurd hb (hbs b List.mem_cons_self)

theorem unusedBut_bset (hu : UnusedBut (b :: bs) s.bcache) (d : Block) :
    UnusedBut (b :: bs) (s.bset b d).bcache := by
  intro x hx hbs
  rcases mem_modifyFirst hx with hx | ⟨z, hz, rfl⟩
  · exact hu x hx hbs
  · exact absurd (show Buf.holds ROOTDEV b _ = true from List.find?_some hz) (hbs b List.mem_cons_self)

/-- Releasing the last reference to a buffer leaves it unused. -/
theorem unusedBut_brelse {c : List Buf} {x : Buf} (hd : Distinct c) (hx : find b c = some x)
    (h1 : x.refcnt = 1) (hu : UnusedBut (b :: bs) c) : UnusedBut bs (Bcache.brelse ROOTDEV b c) := by
  intro y hy hbs
  by_cases hyb : Buf.holds ROOTDEV b y = true
  · have hf := find_of_mem (hd.brelse b) hy hyb
    rw [find_brelse hx] at hf
    cases hf
    simp [h1]
  · have hyc : y ∈ c := by
      unfold Bcache.brelse at hy
      rw [show c.find? (Buf.holds ROOTDEV b) = some x from hx] at hy
      dsimp only at hy
      split at hy
      · rcases List.mem_cons.mp hy with rfl | hy
        · exact absurd (List.find?_some hx) hyb
        · exact List.mem_of_mem_eraseP hy
      · rcases mem_modifyFirst hy with hy | ⟨z, -, rfl⟩
        · exact hy
        · exact absurd (List.find?_some hx) hyb
    refine hu y hyc ?_
    intro b' hb'
    rcases List.mem_cons.mp hb' with rfl | hb'
    · exact hyb
    · exact hbs b' hb'

/-- With at most one buffer in use another one can be had. -/
theorem exists_unused {c : List Buf} (hd : Distinct c) (hlen : 2 ≤ c.length) (hu : UnusedBut [b] c) :
    ∃ x ∈ c, x.refcnt = 0 := by
  match c, hlen with
  | x :: y :: c, _ =>
    by_cases hx : Buf.holds ROOTDEV b x = true
    · have hy : ¬Buf.holds ROOTDEV b y = true := fun h =>
        (List.pairwise_cons.mp hd).1 y List.mem_cons_self b ⟨hx, h⟩
      exact ⟨y, by simp, (hu y (by simp) (by simpa using hy)).1⟩
    · exact ⟨x, by simp, (hu x (by simp) (by simpa using hx)).1⟩

theorem Rested.bread_returns (hr : Rested s) (me b : ℕ) :
    ∃ s', s.bread me b = .done (s.disk b) s' ∧ AfterBread me b s (s.disk b) s' ∧
      UnusedBut [b] s'.bcache := by
  have hall : ∀ x ∈ s.bcache, x.refcnt = 0 ∧ x.lock = none := fun x hx => hr.unused x hx (by simp)
  obtain ⟨x, hx⟩ := List.exists_mem_of_length_pos (l := s.bcache) (by rw [hr.length]; simp)
  obtain ⟨s', h, ha⟩ := IoState.bread_returns me b hr.distinct
    ⟨x, hx, (hall x hx).1⟩ (fun y hy _ => (hall y hy).2)
    (fun y hy => (hall y (List.mem_of_find?_eq_some hy)).2)
  rw [view_eq_of_stored (hr.clean b)] at h ha
  exact ⟨s', h, ha, unusedBut_bread h hr.unused⟩

/-- A second buffer while the one of block `c` is held. -/
theorem bread_second {s₀ : IoState} {e : Block} (hr : Rested s₀) (ha : AfterBread me c s₀ e s)
    (hu : UnusedBut [c] s.bcache) (hcb : b ≠ c) :
    ∃ s', s.bread me b = .done (s₀.disk b) s' ∧ AfterBread me b s (s₀.disk b) s' ∧
      UnusedBut [b, c] s'.bcache ∧ s.refs b = 0 := by
  have hunused : ∀ x, find b s.bcache = some x → x.refcnt = 0 ∧ x.lock = none := by
    intro x hx
    refine hu x (List.mem_of_find?_eq_some hx) ?_
    intro b' hb'
    obtain rfl := List.mem_singleton.mp hb'
    rw [holds_other hcb.symm x (List.find?_some hx)]
    simp
  have hlock : ∀ x ∈ s.bcache, x.refcnt = 0 → x.lock = none := by
    intro x hx h0
    by_cases hxc : Buf.holds ROOTDEV c x = true
    · have := find_of_mem ha.distinct hx hxc
      rw [ha.found] at this
      cases this
      simp at h0
    · exact (hu x hx (by simpa using hxc)).2
  obtain ⟨s', h, ha'⟩ := IoState.bread_returns me b ha.distinct
    (exists_unused ha.distinct (by rw [ha.length, hr.length]; decide) hu) hlock
    (fun x hx => (hunused x hx).2)
  have hv : s.view b = s₀.disk b := view_eq_of_stored (ha.stored (hr.clean b))
  rw [hv] at h ha'
  refine ⟨s', h, ha', unusedBut_bread h hu, ?_⟩
  unfold refs
  cases hf : find b s.bcache with
  | none => rfl
  | some x => simp [hunused x hf]

theorem returns_bwrite {α : Type} {next : Unit → IoM α} {vs : List (ℕ × Block)}
    {Q : α → IoState → Prop} (hh : s.Held me b d)
    (h : Returns (ioStep me) ioEmit (next ()) { s with disk := Function.update s.disk b d } vs Q) :
    Returns (ioStep me) ioEmit (.call (S := ioSig) (.bwrite b) next) s ((b, d) :: vs) Q := by
  have := Returns.call (S := ioSig) (o := .bwrite b) (m := ioStep me) (bwrite_returns hh) h
  rwa [ioEmit_bwrite hh] at this

theorem refs_bread (hr : Rested s) (b : ℕ) : s.refs b = 0 := by
  unfold refs
  cases hf : find b s.bcache with
  | none => rfl
  | some x => simp [hr.unused x (List.mem_of_find?_eq_some hf) (by simp)]

/-- Step of `install_trans` in recovery: block `b` receives what the disk has in slot `c`. -/
theorem recoverSlot_returns {α : Type} {next : IoM α} {vs : List (ℕ × Block)}
    {Q : α → IoState → Prop} (hr : Rested s) (hcb : b ≠ c)
    (h : ∀ s', Rested s' → s'.log = s.log → s'.disk = Function.update s.disk b (s.disk c) →
      Returns (ioStep me) ioEmit next s' vs Q) :
    Returns (ioStep me) ioEmit (do
      let lbuf ← bread c
      let _ ← bread b
      bset b lbuf
      bwrite b
      if true = true then pure () else bunpin b
      brelse c
      brelse b
      next) s ((b, s.disk c) :: vs) Q := by
  obtain ⟨s₁, h₁, a₁, u₁⟩ := hr.bread_returns me c
  obtain ⟨s₂, h₂, a₂, u₂, hrefs⟩ := bread_second hr a₁ u₁ hcb
  have hb : (s₂.bset b (s.disk c)).Held me b (s.disk c) := held_bset a₂.held
  have hc : s₂.Held me c (s.disk c) := a₂.held_other hcb.symm a₁.held a₁.pinned_new
  have hc' : (s₂.bset b (s.disk c)).Held me c (s.disk c) := held_bset_other hcb.symm hc
  refine Returns.quiet rfl h₁ (Returns.quiet rfl h₂ (Returns.quiet rfl rfl ?_))
  refine returns_bwrite hb ?_
  refine Returns.quiet rfl (brelse_returns (d := s.disk c) (show IoState.Held me _ c _ from hc')) ?_
  refine Returns.quiet rfl (brelse_returns (d := s.disk c)
    (held_brelse_other hcb (show IoState.Held me _ b _ from hb))) ?_
  -- both buffers had exactly the reference just dropped
  have hfb : find b (s₂.bset b (s.disk c)).bcache = some
      { valid := true, dev := ROOTDEV, blockno := b, lock := some me, refcnt := 1, data := s.disk c } := by
    rw [find_bset, a₂.found, hrefs]
    rfl
  have hfc : find c (s₂.bset b (s.disk c)).bcache = some
      { valid := true, dev := ROOTDEV, blockno := c, lock := some me, refcnt := 1, data := s.disk c } := by
    rw [find_bset_other hcb.symm]
    rcases a₂.other c hcb.symm with h' | ⟨y, hy, h0, -⟩
    · rw [h', a₁.found, refs_bread hr c]
    · rw [a₁.found] at hy
      cases hy
      simp at h0
  have hdist := a₂.distinct.update (keeps_data (s.disk c)) b
  have hu : UnusedBut [b] (Bcache.brelse ROOTDEV c (s₂.bset b (s.disk c)).bcache) := by
    refine unusedBut_brelse hdist hfc rfl ?_
    intro x hx hbs
    exact unusedBut_bset u₂ _ x hx (fun b' hb' => hbs b' (by simp at hb' ⊢; tauto))
  have hfb' : find b (Bcache.brelse ROOTDEV c (s₂.bset b (s.disk c)).bcache) = some
      { valid := true, dev := ROOTDEV, blockno := b, lock := some me, refcnt := 1, data := s.disk c } := by
    rw [find_brelse_other hcb, hfb]
  apply h
  · refine ⟨(hdist.brelse c).brelse b, unusedBut_brelse (hdist.brelse c) hfb' rfl hu, ?_, ?_⟩
    · change (Bcache.brelse ROOTDEV b (Bcache.brelse ROOTDEV c _)).length = NBUF
      rw [length_brelse, length_brelse]
      simp [IoState.bset, update, a₂.length, a₁.length, hr.length]
    · intro b'
      have hs : IoState.Stored { s₂.bset b (s.disk c) with disk := Function.update s₂.disk b (s.disk c) }
          b' (Function.update s₂.disk b (s.disk c) b') := by
        by_cases hbb : b' = b
        · subst hbb
          rw [Function.update_self]
          exact stored_write hb
        · have hsame : Function.update s₂.disk b (s.disk c) b' = s.disk b' := by
            rw [Function.update_of_ne hbb, a₂.disk, a₁.disk]
          rw [hsame]
          exact stored_write_other hbb (stored_bset_other hbb (a₂.stored (a₁.stored (hr.clean b'))))
      exact stored_brelse (stored_brelse hs c) b
  · change s₂.log = s.log
    rw [a₂.log, a₁.log]
  · change Function.update s₂.disk b (s.disk c) = _
    rw [a₂.disk, a₁.disk]

/-- The writes of `install_trans` in recovery: each block gets what its slot has on the disk. -/
def installWrites (start : ℕ) (d : Disk) : ℕ → List ℕ → List (ℕ × Block)
  | _, [] => []
  | tail, b :: l => (b, d (start + tail + 1)) :: installWrites start d (tail + 1) l

theorem installWrites_congr {d e : Disk} {tail : ℕ} {l : List ℕ}
    (h : ∀ i, i < tail + l.length → d (start + i + 1) = e (start + i + 1)) :
    installWrites start d tail l = installWrites start e tail l := by
  induction l generalizing tail with
  | nil => rfl
  | cons b l ih =>
    rw [installWrites, installWrites, h tail (by simp), ih (fun i hi => h i (by simp; omega))]

theorem map_fst_installWrites (start : ℕ) (d : Disk) (tail : ℕ) (l : List ℕ) :
    (installWrites start d tail l).map Prod.fst = l := by
  induction l generalizing tail with
  | nil => rfl
  | cons b l ih => simp [installWrites, ih]

theorem installFrom_returns (me tail : ℕ) {l : List ℕ} (hr : Rested s)
    (hout : ∀ b ∈ l, ∀ i, i < tail + l.length → b ≠ start + i + 1) :
    Returns (ioStep me) ioEmit (installFrom true start tail l) s (installWrites start s.disk tail l)
      (fun _ s' => Rested s' ∧ s'.log = s.log ∧
        s'.disk = applyWrites (installWrites start s.disk tail l) s.disk) := by
  induction l generalizing s tail with
  | nil => exact Returns.ret ⟨hr, rfl, rfl⟩
  | cons b l ih =>
    refine recoverSlot_returns hr (hout b List.mem_cons_self tail (by simp)) ?_
    intro s' hr' hlog hdisk
    have hsame : installWrites start s'.disk (tail + 1) l = installWrites start s.disk (tail + 1) l := by
      apply installWrites_congr
      intro i hi
      rw [hdisk, Function.update_of_ne]
      exact (hout b List.mem_cons_self i (by simp; omega)).symm
    have h := ih (tail + 1) hr'
      (fun b' hb' i hi => hout b' (List.mem_cons_of_mem _ hb') i (by simp; omega))
    rw [hsame] at h
    refine h.mono ?_
    rintro - s'' ⟨hr'', hlog', hdisk'⟩
    refine ⟨hr'', hlog'.trans hlog, ?_⟩
    rw [hdisk', hdisk]
    rfl

theorem readHead_returns (me : ℕ) (hr : Rested s) :
    Returns (ioStep me) ioEmit readHead s []
      (fun _ s' => Rested s' ∧ s'.disk = s.disk ∧
        s'.log = { s.log with lh := getHeader (s.disk s.log.start) }) := by
  obtain ⟨s₁, h₁, a₁, u₁⟩ := hr.bread_returns me s.log.start
  refine Returns.quiet rfl rfl (Returns.quiet rfl h₁ (Returns.quiet rfl rfl ?_))
  refine Returns.quiet rfl (brelse_returns (d := s.disk s.log.start)
    (show IoState.Held me _ _ _ from a₁.held)) (Returns.ret ⟨⟨?_, ?_, ?_, ?_⟩, a₁.disk, ?_⟩)
  · exact a₁.distinct.brelse _
  · exact unusedBut_brelse a₁.distinct a₁.found (by simp [refs_bread hr]) u₁
  · change (Bcache.brelse _ _ _).length = NBUF
    rw [length_brelse, a₁.length, hr.length]
  · intro b'
    apply stored_brelse (s := { s₁ with log := _ })
    have := a₁.stored (hr.clean b')
    rw [← a₁.disk] at this
    exact this
  · change ({ s₁.log with lh := getHeader (s.disk s.log.start) } : Log) = _
    rw [a₁.log]

theorem writeHead_returns {x : Block} (hr : Rested s) (hs : s.log.start = start)
    (hx : s.disk start = x) :
    Returns (ioStep me) ioEmit writeHead s [(start, putHeader x s.log.lh)]
      (fun _ s' => s'.disk = Function.update s.disk start (putHeader x s.log.lh)) := by
  subst hs hx
  obtain ⟨s₁, h₁, a₁, u₁⟩ := hr.bread_returns me s.log.start
  have hh : (s₁.bset s.log.start (putHeader (s.disk s.log.start) s.log.lh)).Held me s.log.start
      (putHeader (s.disk s.log.start) s.log.lh) := held_bset a₁.held
  refine Returns.quiet rfl rfl (Returns.quiet rfl h₁ (Returns.quiet rfl rfl ?_))
  refine returns_bwrite hh ?_
  refine Returns.quiet rfl (brelse_returns (show IoState.Held me _ _ _ from hh)) (Returns.ret ?_)
  change Function.update s₁.disk _ _ = _
  rw [a₁.disk]

/-- The end of `recover_from_log`, after the header has been read. -/
theorem recoverTail_returns (me : ℕ) (hr : Rested s) (hs : s.log.start ∉ s.log.lh)
    (hout : ∀ b ∈ s.log.lh, ∀ i, i < s.log.lh.length → b ≠ s.log.start + i + 1) :
    Returns (ioStep me) ioEmit
      ((installTrans true).bind fun _ => .call (S := ioSig) (.lhSet []) fun _ => writeHead) s
      (installWrites s.log.start s.disk 0 s.log.lh ++
        [(s.log.start, putHeader (s.disk s.log.start) [])])
      (fun _ s' => s'.disk = applyWrites (installWrites s.log.start s.disk 0 s.log.lh ++
        [(s.log.start, putHeader (s.disk s.log.start) [])]) s.disk) := by
  have hinst : Returns (ioStep me) ioEmit (installTrans true) s _ _ :=
    Returns.quiet rfl rfl (installFrom_returns me 0 hr (fun b hb i hi => hout b hb i (by omega)))
  refine hinst.bind ?_
  rintro - s₂ ⟨hr₂, hlog₂, hdisk₂⟩
  -- the header block is none of the home blocks, so it is still the one recovery read
  have hhead : s₂.disk s.log.start = s.disk s.log.start := by
    rw [hdisk₂]
    apply applyWrites_other
    intro w hw e
    apply hs
    rw [← e, ← map_fst_installWrites s.log.start s.disk 0 s.log.lh]
    exact List.mem_map_of_mem hw
  have hr₃ : Rested { s₂ with log := { s₂.log with lh := [] } } :=
    ⟨hr₂.distinct, hr₂.unused, hr₂.length, hr₂.clean⟩
  have hstart : s₂.log.start = s.log.start := by rw [hlog₂]
  refine Returns.quiet rfl rfl ((writeHead_returns hr₃ hstart hhead).mono ?_)
  rintro - s₄ hdisk₄
  rw [hdisk₄, applyWrites_append, hdisk₂]
  rfl

/-- All the writes of a recovery from disk `d`. -/
def recoverWrites (start : ℕ) (d : Disk) : List (ℕ × Block) :=
  installWrites start d 0 (getHeader (d start)) ++ [(start, putHeader (d start) [])]

/-- Recovery returns and issues exactly `recoverWrites`. -/
theorem recoverFromLog_returns (hr : Rested s)
    (hout : ∀ b ∈ getHeader (s.disk s.log.start), b ≠ s.log.start ∧
      ∀ i, i < (getHeader (s.disk s.log.start)).length → b ≠ s.log.start + i + 1) :
    Returns (ioStep me) ioEmit recoverFromLog s (recoverWrites s.log.start s.disk)
      (fun _ s' => s'.disk = applyWrites (recoverWrites s.log.start s.disk) s.disk) := by
  have htail : ∀ (_ : Unit) (s₁ : IoState), Rested s₁ ∧ s₁.disk = s.disk ∧
      s₁.log = { s.log with lh := getHeader (s.disk s.log.start) } →
      Returns (ioStep me) ioEmit
        ((installTrans true).bind fun _ => .call (S := ioSig) (.lhSet []) fun _ => writeHead) s₁
        (recoverWrites s.log.start s.disk)
        (fun _ s' => s'.disk = applyWrites (recoverWrites s.log.start s.disk) s.disk) := by
    rintro - s₁ ⟨hr₁, hdisk₁, hlog₁⟩
    have h := recoverTail_returns me hr₁ (by rw [hlog₁]; exact fun h => (hout _ h).1 rfl)
      (by rw [hlog₁]; exact fun b hb => (hout b hb).2)
    rwa [hdisk₁, hlog₁] at h
  exact (readHead_returns me hr).bind htail

end Xv6Arm

import Xv6Arm.Lib.Writes
import Xv6Arm.Log.Requests

/-!
# The block writes of `commit`

However the run of `commit` ends, the block writes it has issued are a prefix of
one list: the log slots, the header with the block numbers, the home blocks, and
the header with none. The bytes of a header past its block numbers are whatever
the header buffer held, so they stay parameters of the list.
-/
namespace Xv6Arm
open Lib Bcache IoState

/-- The block write that a request issues to the disk. -/
def ioEmit : (o : IoOp) → IoState → List (ℕ × Block)
  | .bwrite b, s => ((find b s.bcache).map fun x => (b, x.data)).toList
  | _, _ => []

/-- The block writes of a run of `p` by process `me`, in the order issued. -/
def ioWrites {α : Type} (me : ℕ) (p : IoM α) (s : IoState) : List (ℕ × Block) :=
  p.emitted (ioStep me) ioEmit s

/-- The writes of `write_log` from entry `tail` on, for block contents `new`. -/
def slotWrites (start : ℕ) (new : ℕ → Block) : ℕ → List ℕ → List (ℕ × Block)
  | _, [] => []
  | tail, b :: l => (start + tail + 1, new b) :: slotWrites start new (tail + 1) l

/-- The writes of `install_trans` for block contents `new`. -/
def homeWrites (new : ℕ → Block) (l : List ℕ) : List (ℕ × Block) := l.map fun b => (b, new b)

/-- The writes of a whole `commit` of the blocks `l`; `x` and `y` are what the header buffer
held before each `write_head`. -/
def commitWrites (start : ℕ) (new : ℕ → Block) (l : List ℕ) (x y : Block) : List (ℕ × Block) :=
  slotWrites start new 0 l ++ (start, putHeader x l) :: (homeWrites new l ++ [(start, putHeader y [])])

theorem slotWrites_mem {start tail : ℕ} {new : ℕ → Block} {l : List ℕ} {w : ℕ × Block}
    (hw : w ∈ slotWrites start new tail l) :
    ∃ i, (tail ≤ i ∧ i < tail + l.length) ∧ w.1 = start + i + 1 := by
  induction l generalizing tail with
  | nil => cases hw
  | cons a l ih =>
    rcases List.mem_cons.mp hw with rfl | hw
    · exact ⟨tail, by simp, rfl⟩
    · obtain ⟨i, ⟨hi, hi'⟩, he⟩ := ih hw
      exact ⟨i, ⟨by omega, by simp; omega⟩, he⟩

/-- The cache while `all` is being committed: each of its blocks is pinned with its new contents. -/
structure Logged (all : List ℕ) (new : ℕ → Block) (s : IoState) : Prop where
  distinct : Distinct s.bcache
  pinned : ∀ b ∈ all, s.Pinned 1 b (new b)

variable {me start : ℕ} {new : ℕ → Block} {s s' : IoState}

theorem ioEmit_bwrite {b : ℕ} {d : Block} (h : s.Held me b d) : ioEmit (.bwrite b) s = [(b, d)] := by
  obtain ⟨x, hx, -, hd, -⟩ := h
  simp [ioEmit, hx, hd]

/-- `Emits` for the request `bwrite` of a held buffer. -/
theorem emits_bwrite {α : Type} {b : ℕ} {d : Block} {next : Unit → IoM α} {vs : List (ℕ × Block)}
    {Q : α → IoState → Prop} (hh : s.Held me b d)
    (h : Emits (ioStep me) ioEmit (next ()) { s with disk := Function.update s.disk b d } vs Q) :
    Emits (ioStep me) ioEmit (.call (S := ioSig) (.bwrite b) next) s ((b, d) :: vs) Q := by
  have hnext : ∀ (r : Unit) (s' : IoState), ioStep me (.bwrite b) s = .done r s' →
      Emits (ioStep me) ioEmit (next r) s' vs Q := by
    rintro ⟨⟩ s' hs'
    rw [bwrite_done hh hs']
    exact h
  have := Emits.call (S := ioSig) (o := .bwrite b) (m := ioStep me) (s := s) hnext
  rwa [ioEmit_bwrite hh] at this

/-- Step of `write_log`: slot `c` receives the contents of the pinned block `b`. -/
theorem writeSlot_emits {α : Type} {all : List ℕ} {b c : ℕ} {done : List (ℕ × Block)}
    {next : IoM α} {vs : List (ℕ × Block)} {Q : α → IoState → Prop} (hl : Logged all new s)
    (hb : b ∈ all) (hc : c ∉ all) (hdone : ∀ w ∈ done, s.Stored w.1 w.2 ∧ w.1 ≠ c)
    (h : ∀ s', Logged all new s' → s'.log = s.log →
      (∀ w ∈ (c, new b) :: done, s'.Stored w.1 w.2) → Emits (ioStep me) ioEmit next s' vs Q) :
    Emits (ioStep me) ioEmit (do
      let _ ← bread c
      let d ← bread b
      bset c d
      bwrite c
      brelse b
      brelse c
      next) s ((c, new b) :: vs) Q := by
  have hbc : b ≠ c := fun e => hc (e ▸ hb)
  apply Emits.quiet rfl
  intro d₁ s₁ h₁
  have a₁ := bread_done hl.distinct h₁
  apply Emits.quiet rfl
  intro d₂ s₂ h₂
  have a₂ := bread_done a₁.distinct h₂
  -- the pinned buffer cannot have been recycled, so it still has the new contents
  have hp₁ : ∀ b' ∈ all, s₁.Pinned 1 b' (new b') := fun b' hb' =>
    a₁.pinned_other (fun e => hc (e ▸ hb')) (hl.pinned b' hb')
  have hd₂ : d₂ = new b := a₂.data.trans (view_eq_of_pinned (hp₁ b hb))
  subst hd₂
  have hheld : s₂.Held me c d₁ := a₂.held_other hbc.symm a₁.held a₁.pinned_new
  apply Emits.quiet rfl
  rintro ⟨⟩ s₃ h₃
  cases h₃
  apply emits_bwrite (held_bset hheld)
  apply Emits.quiet rfl
  rintro ⟨⟩ s₄ h₄
  apply Emits.quiet rfl
  rintro ⟨⟩ s₅ h₅
  rw [brelse_done h₄] at h₅
  rw [brelse_done h₅]
  have hpin : ∀ b' ∈ all, s₂.Pinned (if b' = b then 2 else 1) b' (new b') := by
    intro b' hb'
    split
    · rename_i e
      subst e
      exact a₂.pinned_self (hp₁ b' hb')
    · rename_i e
      exact a₂.pinned_other e (hp₁ b' hb')
  apply h
  · refine ⟨((a₂.distinct.update (keeps_data _) c).brelse b).brelse c, ?_⟩
    intro b' hb'
    have hcb : b' ≠ c := fun e => hc (e ▸ hb')
    have hq := hpin b' hb'
    apply pinned_brelse_other hcb
    split at hq
    · rename_i e
      subst e
      exact pinned_brelse (pinned_bset_other hcb hq)
    · rename_i e
      exact pinned_brelse_other e (pinned_bset_other hcb hq)
  · change s₂.log = s.log
    rw [a₂.log, a₁.log]
  · intro w hw
    apply stored_brelse
    apply stored_brelse
    rcases List.mem_cons.mp hw with rfl | hw
    · exact stored_write (held_bset hheld)
    · obtain ⟨hst, hne⟩ := hdone w hw
      exact stored_write_other hne (stored_bset_other hne (a₂.stored (a₁.stored hst)))

theorem writeLogFrom_emits {all l : List ℕ} (tail : ℕ) (done : List (ℕ × Block))
    (hl : Logged all new s) (hsub : ∀ b ∈ l, b ∈ all)
    (hslot : ∀ i, start + i + 1 ∈ all → tail + l.length ≤ i)
    (hdone : ∀ w ∈ done, s.Stored w.1 w.2 ∧ w.1 < start + tail + 1) :
    Emits (ioStep me) ioEmit (writeLogFrom start tail l) s (slotWrites start new tail l)
      (fun _ s' => Logged all new s' ∧ s'.log = s.log ∧
        ∀ w ∈ done ++ slotWrites start new tail l, s'.Stored w.1 w.2) := by
  induction l generalizing s tail done with
  | nil =>
    refine Emits.ret ⟨hl, rfl, ?_⟩
    intro w hw
    exact (hdone w (by simpa [slotWrites] using hw)).1
  | cons b l ih =>
    have hc : start + tail + 1 ∉ all := fun e => by
      have := hslot tail e
      simp at this
    refine writeSlot_emits hl (hsub b List.mem_cons_self) hc
      (fun w hw => ⟨(hdone w hw).1, by have := (hdone w hw).2; omega⟩) ?_
    intro s' hl' hlog hst
    have := ih (tail + 1) ((start + tail + 1, new b) :: done) hl'
      (fun b' hb' => hsub b' (List.mem_cons_of_mem _ hb'))
      (fun i hi => by have := hslot i hi; simp at this; omega)
      (by
        intro w hw
        refine ⟨hst w hw, ?_⟩
        rcases List.mem_cons.mp hw with rfl | hw
        · omega
        · have := (hdone w hw).2
          omega)
    refine ⟨this.1, fun a s'' hr => ⟨(this.2 a s'' hr).1, ?_⟩⟩
    obtain ⟨hl'', hlog', hst'⟩ := (this.2 a s'' hr).2
    refine ⟨hl'', hlog'.trans hlog, ?_⟩
    intro w hw
    apply hst' w
    simp only [slotWrites, List.mem_append, List.mem_cons] at hw ⊢
    tauto

theorem writeLog_emits (me : ℕ) {all : List ℕ} (hl : Logged all new s) (hsub : ∀ b ∈ s.log.lh, b ∈ all)
    (hslot : ∀ i, s.log.start + i + 1 ∈ all → s.log.lh.length ≤ i) :
    Emits (ioStep me) ioEmit writeLog s (slotWrites s.log.start new 0 s.log.lh)
      (fun _ s' => Logged all new s' ∧ s'.log = s.log ∧
        ∀ w ∈ slotWrites s.log.start new 0 s.log.lh, s'.Stored w.1 w.2) := by
  apply Emits.quiet rfl
  intro l s₀ h₀
  cases h₀
  exact writeLogFrom_emits 0 [] hl hsub (by simpa using hslot) (by simp)

/-- `write_head` issues one write; what the header held past its block numbers stays. -/
theorem writeHead_emits (me : ℕ) {all : List ℕ} (hl : Logged all new s) (hs : s.log.start ∉ all) :
    Emits (ioStep me) ioEmit writeHead s
      [(s.log.start, putHeader (s.view s.log.start) s.log.lh)]
      (fun _ s' => Logged all new s' ∧ s'.log = s.log ∧
        ∀ b d, b ≠ s.log.start → s.Stored b d → s'.Stored b d) := by
  apply Emits.quiet rfl
  intro l s₀ h₀
  cases h₀
  apply Emits.quiet rfl
  intro d₁ s₁ h₁
  have a₁ := bread_done hl.distinct h₁
  obtain rfl := a₁.data
  apply Emits.quiet rfl
  rintro ⟨⟩ s₂ h₂
  cases h₂
  apply emits_bwrite (held_bset a₁.held)
  apply Emits.quiet rfl
  rintro ⟨⟩ s₃ h₃
  rw [brelse_done h₃]
  refine Emits.ret ⟨⟨(a₁.distinct.update (keeps_data _) _).brelse _, ?_⟩, a₁.log, ?_⟩
  · intro b hb
    have hne : b ≠ s.log.start := fun e => hs (e ▸ hb)
    exact pinned_brelse_other hne (pinned_bset_other hne (a₁.pinned_other hne (hl.pinned b hb)))
  · intro b d hne hst
    exact stored_brelse (stored_write_other hne (stored_bset_other hne (a₁.stored hst))) _

/-- Step of `install_trans` in a commit: block `b` receives the contents of slot `c`. -/
theorem installSlot_emits {α : Type} {b c : ℕ} {d : Block} {slots : List (ℕ × Block)}
    {next : IoM α} {vs : List (ℕ × Block)} {Q : α → IoState → Prop} (hd : Distinct s.bcache)
    (hc : s.Stored c d) (hslots : ∀ w ∈ slots, s.Stored w.1 w.2 ∧ w.1 ≠ b)
    (h : ∀ s', Distinct s'.bcache → s'.log = s.log → (∀ w ∈ slots, s'.Stored w.1 w.2) →
      Emits (ioStep me) ioEmit next s' vs Q) :
    Emits (ioStep me) ioEmit (do
      let lbuf ← bread c
      let _ ← bread b
      bset b lbuf
      bwrite b
      if false = true then pure () else bunpin b
      brelse c
      brelse b
      next) s ((b, d) :: vs) Q := by
  apply Emits.quiet rfl
  intro d₁ s₁ h₁
  have a₁ := bread_done hd h₁
  have hd₁ : d₁ = d := a₁.data.trans (view_eq_of_stored hc)
  subst hd₁
  apply Emits.quiet rfl
  intro d₂ s₂ h₂
  have a₂ := bread_done a₁.distinct h₂
  apply Emits.quiet rfl
  rintro ⟨⟩ s₃ h₃
  cases h₃
  apply emits_bwrite (held_bset a₂.held)
  apply Emits.quiet rfl
  rintro ⟨⟩ s₄ h₄
  cases h₄
  apply Emits.quiet rfl
  rintro ⟨⟩ s₅ h₅
  apply Emits.quiet rfl
  rintro ⟨⟩ s₆ h₆
  rw [brelse_done h₅] at h₆
  rw [brelse_done h₆]
  apply h
  · exact ((((a₂.distinct.update (keeps_data _) b).update (keeps_refcnt _) b).brelse c).brelse b)
  · change s₂.log = s.log
    rw [a₂.log, a₁.log]
  · intro w hw
    obtain ⟨hst, hne⟩ := hslots w hw
    apply stored_brelse
    apply stored_brelse
    apply stored_bunpin
    exact stored_write_other hne (stored_bset_other hne (a₂.stored (a₁.stored hst)))

theorem installFrom_emits {l : List ℕ} {tail : ℕ} (hd : Distinct s.bcache)
    (hst : ∀ w ∈ slotWrites start new tail l, s.Stored w.1 w.2)
    (hout : ∀ b ∈ l, ∀ i, i < tail + l.length → b ≠ start + i + 1) :
    Emits (ioStep me) ioEmit (installFrom false start tail l) s (homeWrites new l)
      (fun _ s' => Distinct s'.bcache ∧ s'.log = s.log) := by
  induction l generalizing s tail with
  | nil => exact Emits.ret ⟨hd, rfl⟩
  | cons b l ih =>
    have hslots : ∀ w ∈ slotWrites start new (tail + 1) l, s.Stored w.1 w.2 ∧ w.1 ≠ b := by
      intro w hw
      refine ⟨hst w (List.mem_cons_of_mem _ hw), ?_⟩
      obtain ⟨i, ⟨-, hi⟩, he⟩ := slotWrites_mem hw
      rw [he]
      exact (hout b List.mem_cons_self i (by simp; omega)).symm
    refine installSlot_emits hd (hst _ List.mem_cons_self) hslots ?_
    intro s' hd' hlog hst'
    have := ih hd' hst'
      (fun b' hb' i hi => hout b' (List.mem_cons_of_mem _ hb') i (by simp; omega))
    refine ⟨this.1, fun a s'' hr => ⟨(this.2 a s'' hr).1, ?_⟩⟩
    obtain ⟨hd'', hlog'⟩ := (this.2 a s'' hr).2
    exact ⟨hd'', hlog'.trans hlog⟩

theorem installTrans_emits (me : ℕ) (hd : Distinct s.bcache)
    (hst : ∀ w ∈ slotWrites s.log.start new 0 s.log.lh, s.Stored w.1 w.2)
    (hout : ∀ b ∈ s.log.lh, ∀ i, i < s.log.lh.length → b ≠ s.log.start + i + 1) :
    Emits (ioStep me) ioEmit (installTrans false) s (homeWrites new s.log.lh)
      (fun _ s' => Distinct s'.bcache ∧ s'.log = s.log) := by
  apply Emits.quiet rfl
  intro l s₀ h₀
  cases h₀
  exact installFrom_emits hd hst (by simpa using hout)

/-- The blocks `l` lie outside the log area of `nlog` blocks from `start` on. -/
def OutsideLog (start nlog : ℕ) (l : List ℕ) : Prop := ∀ b ∈ l, b < start ∨ start + nlog ≤ b

/-- The end of `commit`, after the header has been written: install the blocks, clear the header. -/
theorem commitTail_emits (me : ℕ) (hd : Distinct s.bcache)
    (hst : ∀ w ∈ slotWrites s.log.start new 0 s.log.lh, s.Stored w.1 w.2)
    (hout : ∀ b ∈ s.log.lh, ∀ i, i < s.log.lh.length → b ≠ s.log.start + i + 1) :
    ∃ y, Emits (ioStep me) ioEmit
      ((installTrans false).bind fun _ => (lhSet []).bind fun _ => writeHead) s
      (homeWrites new s.log.lh ++ [(s.log.start, putHeader y [])]) (fun _ _ => True) := by
  obtain ⟨vs, ⟨y, rfl⟩, h⟩ := Emits.bind_exists
    (f := fun _ => (lhSet []).bind fun _ => writeHead)
    (V := fun vs => ∃ y, vs = [(s.log.start, putHeader y [])]) (Q := fun _ _ => True)
    ⟨_, fun _ => 0, rfl⟩ (installTrans_emits me hd hst hout) (by
      rintro - s₁ ⟨hd₁, hlog₁⟩
      refine ⟨_, ⟨s₁.view s.log.start, rfl⟩, Emits.quiet rfl ?_⟩
      rintro ⟨⟩ s₂ h₂
      cases h₂
      have h := writeHead_emits me
        (show Logged [] new { s₁ with log := { s₁.log with lh := [] } } from ⟨hd₁, by simp⟩) (by simp)
      rw [show s.log.start = s₁.log.start by rw [hlog₁]]
      exact ⟨h.1, fun a s'' hr => ⟨(h.2 a s'' hr).1, trivial⟩⟩)
  exact ⟨y, h⟩

/-- Whatever becomes of the run, `commit` issues a prefix of `commitWrites`. -/
theorem commit_emits (me : ℕ) {nlog : ℕ} (hne : s.log.lh ≠ []) (hl : Logged s.log.lh new s)
    (hout : OutsideLog s.log.start nlog s.log.lh) (hlen : s.log.lh.length < nlog) :
    ∃ x y, Emits (ioStep me) ioEmit commit s (commitWrites s.log.start new s.log.lh x y)
      (fun _ _ => True) := by
  have hstart : s.log.start ∉ s.log.lh := fun h => by
    have := hout _ h
    omega
  have hslot : ∀ b ∈ s.log.lh, ∀ i, i < s.log.lh.length → b ≠ s.log.start + i + 1 := by
    intro b hb i hi e
    have := hout b hb
    omega
  have hlog : ∀ i, s.log.start + i + 1 ∈ s.log.lh → s.log.lh.length ≤ i := by
    intro i hi
    by_contra hlt
    exact hslot _ hi i (by omega) rfl
  obtain ⟨vs, ⟨x, y, rfl⟩, h⟩ := Emits.bind_exists
    (f := fun _ => writeHead.bind fun _ => (installTrans false).bind fun _ =>
      (lhSet []).bind fun _ => writeHead)
    (V := fun vs => ∃ x y, vs = (s.log.start, putHeader x s.log.lh) ::
      (homeWrites new s.log.lh ++ [(s.log.start, putHeader y [])])) (Q := fun _ _ => True)
    ⟨_, fun _ => 0, fun _ => 0, rfl⟩ (writeLog_emits me hl (fun _ h => h) hlog) (by
      rintro - s₁ ⟨hl₁, hlog₁, hst₁⟩
      obtain ⟨vs, ⟨y, rfl⟩, h⟩ := Emits.bind_exists
        (f := fun _ => (installTrans false).bind fun _ => (lhSet []).bind fun _ => writeHead)
        (V := fun vs => ∃ y, vs = homeWrites new s.log.lh ++ [(s.log.start, putHeader y [])])
        (Q := fun _ _ => True) ⟨_, fun _ => 0, rfl⟩
        (writeHead_emits me hl₁ (by rw [hlog₁]; exact hstart)) (by
          rintro - s₂ ⟨hl₂, hlog₂, hst₂⟩
          have hslots : ∀ w ∈ slotWrites s.log.start new 0 s.log.lh, s₂.Stored w.1 w.2 :=
            fun w hw => hst₂ w.1 w.2 (by
              obtain ⟨i, -, e⟩ := slotWrites_mem hw
              rw [e, hlog₁]
              omega) (hst₁ w hw)
          rw [hlog₁] at hlog₂
          obtain ⟨y, h⟩ := commitTail_emits me hl₂.distinct
            (show ∀ w ∈ slotWrites _ new 0 _, s₂.Stored w.1 w.2 by rw [hlog₂]; exact hslots) (by rw [hlog₂]; exact hslot)
          rw [hlog₂] at h
          exact ⟨_, ⟨y, rfl⟩, h⟩)
      rw [hlog₁] at h
      exact ⟨_, ⟨_, y, rfl⟩, h⟩)
  refine ⟨x, y, Emits.quiet rfl ?_⟩
  intro l s₀ h₀
  cases h₀
  have hpos : 0 < s.log.lh.length := List.length_pos_iff.mpr hne
  rw [Prog.ret_bind, if_pos hpos]
  exact h

end Xv6Arm

import Xv6Arm.Log.Model

/-!
# What one buffer request does

Each lemma describes the state after a request by what a search of the cache
finds and by the disk. The two facts about a block that survive the requests of
others are `Stored` (the disk has these bytes and so has every valid buffer) and
`Pinned` (a referenced buffer has them, so it cannot be recycled).
-/
namespace Xv6Arm.IoState
open Lib Bcache
variable {me b b' k : ℕ} {s s' : IoState} {d e : Block}

/-- The reference count of the buffer of block `b`. -/
def refs (s : IoState) (b : ℕ) : ℕ := ((find b s.bcache).map Buf.refcnt).getD 0

/-- The disk holds `d` in block `b`, and a valid buffer of `b` holds it too. -/
def Stored (s : IoState) (b : ℕ) (d : Block) : Prop :=
  s.disk b = d ∧ ∀ x, find b s.bcache = some x → x.valid = true → x.data = d

/-- A valid buffer of block `b` with at least `k` references holds `d`. -/
def Pinned (k : ℕ) (s : IoState) (b : ℕ) (d : Block) : Prop :=
  ∃ x, find b s.bcache = some x ∧ x.valid = true ∧ x.data = d ∧ k ≤ x.refcnt

/-- Process `me` holds the buffer of block `b`, which contains `d`. -/
def Held (me : ℕ) (s : IoState) (b : ℕ) (d : Block) : Prop :=
  ∃ x, find b s.bcache = some x ∧ x.valid = true ∧ x.data = d ∧ x.lock = some me

theorem view_eq_of_stored (h : s.Stored b d) : s.view b = d := by
  obtain ⟨hdisk, hbuf⟩ := h
  unfold view
  cases hf : find b s.bcache with
  | none => exact hdisk
  | some x =>
    cases hv : x.valid with
    | false => simpa [hv] using hdisk
    | true => simpa [hv] using hbuf x hf hv

theorem view_eq_of_pinned (h : s.Pinned k b d) : s.view b = d := by
  obtain ⟨x, hx, hv, hd, -⟩ := h
  simp [view, hx, hv, hd]

theorem holds_of_find {c : List Buf} {x : Buf} (h : find b c = some x) :
    x.dev = ROOTDEV ∧ x.blockno = b :=
  holds_iff.mp (List.find?_some h)

/-! ## `bread` -/

/-- The state after `bread b` by process `me`. -/
structure AfterBread (me b : ℕ) (s : IoState) (d : Block) (s' : IoState) : Prop where
  data : d = s.view b
  found : find b s'.bcache = some
    { valid := true, dev := ROOTDEV, blockno := b, lock := some me, refcnt := s.refs b + 1, data := d }
  other : ∀ b' ≠ b, find b' s'.bcache = find b' s.bcache ∨
    ∃ y, find b' s.bcache = some y ∧ y.refcnt = 0 ∧ find b' s'.bcache = none
  distinct : Distinct s'.bcache
  disk : s'.disk = s.disk
  log : s'.log = s.log
  length : s'.bcache.length = s.bcache.length

theorem keeps_lock (f : Buf → Block) :
    Keeps (fun x => { x with lock := some me, valid := true, data := f x }) := fun _ => ⟨rfl, rfl⟩

theorem bread_done (hd : Distinct s.bcache) (h : s.bread me b = .done d s') :
    AfterBread me b s d s' := by
  unfold bread at h
  cases hg : bget ROOTDEV b s.bcache with
  | none => simp [hg] at h
  | some c =>
    rw [hg] at h
    cases hx : find b c with
    | none => simp [hx] at h
    | some x =>
      simp only [hx] at h
      split at h
      · cases h
        have hdev := holds_of_find hx
        -- the buffer is the one found before, or a recycled one that is not valid
        have hview : (if x.valid = true then x.data else s.disk b) = s.view b ∧
            x.refcnt = s.refs b + 1 := by
          rcases find_bget hg with ⟨y, hy, hy'⟩ | ⟨hn, y, -, -, hy'⟩
          · rw [hx] at hy'
            cases hy'
            simp [view, refs, hy]
          · rw [hx] at hy'
            cases hy'
            simp [view, refs, hn]
        refine ⟨hview.1, ?_, ?_, (hd.bget hg).update (keeps_lock _) b, rfl, rfl, ?_⟩
        · dsimp only
          rw [find_update (keeps_lock _), hx]
          simp [hview.2, hdev.1, hdev.2]
        · intro b' hb
          dsimp only
          rw [find_update_other (keeps_lock _) hb]
          exact find_bget_other hb hd hg
        · simp [update, length_bget hg]
      · cases h

/-- `bread` returns as soon as a buffer can be had and nobody holds the one of block `b`. -/
theorem bread_returns (me b : ℕ) (hd : Distinct s.bcache) (hfree : ∃ x ∈ s.bcache, x.refcnt = 0)
    (hlock : ∀ x ∈ s.bcache, x.refcnt = 0 → x.lock = none)
    (hb : ∀ x, find b s.bcache = some x → x.lock = none) :
    ∃ s', s.bread me b = .done (s.view b) s' ∧ AfterBread me b s (s.view b) s' := by
  obtain ⟨c, hg⟩ := bget_isSome ROOTDEV b hfree
  have hx : ∃ x, find b c = some x ∧ x.lock = none := by
    rcases find_bget hg with ⟨y, hy, hy'⟩ | ⟨hn, y, hmem, h0, hy'⟩
    · exact ⟨_, hy', hb y hy⟩
    · exact ⟨_, hy', hlock y hmem h0⟩
  obtain ⟨x, hx, hxl⟩ := hx
  have hrun : ∃ d s', s.bread me b = .done d s' := by
    unfold bread
    simp [hg, hx, hxl]
  obtain ⟨d, s', h⟩ := hrun
  have hafter := bread_done hd h
  obtain rfl := hafter.data
  exact ⟨s', h, hafter⟩

namespace AfterBread

theorem held (h : AfterBread me b s d s') : s'.Held me b d := ⟨_, h.found, rfl, rfl, rfl⟩

theorem stored (h : AfterBread me b s d s') (hs : s.Stored b' e) : s'.Stored b' e := by
  refine ⟨by rw [h.disk]; exact hs.1, ?_⟩
  intro x hx hv
  by_cases hb : b' = b
  · subst hb
    rw [h.found] at hx
    cases hx
    rw [h.data]
    exact view_eq_of_stored hs
  · rcases h.other b' hb with h' | ⟨y, hy, -, h'⟩
    · exact hs.2 x (h' ▸ hx) hv
    · rw [h'] at hx
      cases hx

theorem pinned_self (h : AfterBread me b s d s') (hs : s.Pinned k b e) : s'.Pinned (k + 1) b e := by
  obtain ⟨x, hx, hv, hd, hk⟩ := hs
  refine ⟨_, h.found, rfl, ?_, ?_⟩
  · rw [h.data]
    simp [view, hx, hv, hd]
  · simpa [refs, hx] using hk

theorem pinned_other (h : AfterBread me b s d s') (hb : b' ≠ b) (hs : s.Pinned (k + 1) b' e) :
    s'.Pinned (k + 1) b' e := by
  obtain ⟨x, hx, hv, hd, hk⟩ := hs
  rcases h.other b' hb with h' | ⟨y, hy, h0, -⟩
  · exact ⟨x, h' ▸ hx, hv, hd, hk⟩
  · rw [hx] at hy
    cases hy
    omega

theorem held_other {me' : ℕ} (h : AfterBread me b s d s') (hb : b' ≠ b) (hs : s.Held me' b' e)
    (hp : s.Pinned 1 b' e) : s'.Held me' b' e := by
  obtain ⟨x, hx, hv, hd, hl⟩ := hs
  obtain ⟨y, hy, -, -, hk⟩ := hp
  rw [hx] at hy
  cases hy
  rcases h.other b' hb with h' | ⟨z, hz, h0, -⟩
  · exact ⟨x, h' ▸ hx, hv, hd, hl⟩
  · rw [hx] at hz
    cases hz
    omega

theorem pinned_new (h : AfterBread me b s d s') : s'.Pinned 1 b d := ⟨_, h.found, rfl, rfl, by simp⟩

end AfterBread

/-! ## `bset`, `bwrite`, `brelse`, `bunpin` -/

theorem keeps_data (d : Block) : Keeps (fun x => { x with data := d }) := fun _ => ⟨rfl, rfl⟩

theorem find_bset : find b (s.bset b d).bcache = (find b s.bcache).map fun x => { x with data := d } :=
  find_update (keeps_data d) b s.bcache

theorem find_bset_other (hb : b' ≠ b) : find b' (s.bset b d).bcache = find b' s.bcache :=
  find_update_other (keeps_data d) hb s.bcache

theorem held_bset (h : s.Held me b e) : (s.bset b d).Held me b d := by
  obtain ⟨x, hx, hv, -, hl⟩ := h
  exact ⟨{ x with data := d }, by rw [find_bset, hx]; rfl, hv, rfl, hl⟩

theorem pinned_bset_other (hb : b' ≠ b) (h : s.Pinned k b' e) : (s.bset b d).Pinned k b' e := by
  unfold Pinned
  rw [find_bset_other hb]
  exact h

theorem held_bset_other (hb : b' ≠ b) (h : s.Held me b' e) : (s.bset b d).Held me b' e := by
  unfold Held
  rw [find_bset_other hb]
  exact h

theorem stored_bset_other (hb : b' ≠ b) (h : s.Stored b' e) : (s.bset b d).Stored b' e := by
  unfold Stored
  rw [find_bset_other hb]
  exact h

theorem held_done {msg : String} {f : Buf → IoState} (h : s.held me b msg f = .done () s') :
    ∃ x, find b s.bcache = some x ∧ x.lock = some me ∧ s' = f x := by
  unfold IoState.held at h
  split at h
  · rename_i x hx
    split at h
    · rename_i hl
      cases h
      exact ⟨x, hx, hl, rfl⟩
    · cases h
  · cases h

/-- `bwrite` of a held buffer puts its bytes on the disk and changes nothing else. -/
theorem bwrite_done (hh : s.Held me b d) (h : s.bwrite me b = .done () s') :
    s' = { s with disk := Function.update s.disk b d } := by
  obtain ⟨x, hx, -, rfl⟩ := held_done h
  obtain ⟨y, hy, -, hd, -⟩ := hh
  rw [hx] at hy
  cases hy
  rw [hd]

theorem bwrite_returns (hh : s.Held me b d) :
    s.bwrite me b = .done () { s with disk := Function.update s.disk b d } := by
  obtain ⟨x, hx, -, hd, hl⟩ := hh
  simp [bwrite, IoState.held, hx, hl, hd]

theorem stored_write (h : s.Held me b d) :
    ({ s with disk := Function.update s.disk b d } : IoState).Stored b d := by
  obtain ⟨x, hx, -, hd, -⟩ := h
  refine ⟨by simp, ?_⟩
  intro y hy _
  rw [show find b s.bcache = some y from hy] at hx
  cases hx
  exact hd

theorem stored_write_other (hb : b' ≠ b) (h : s.Stored b' e) :
    ({ s with disk := Function.update s.disk b d } : IoState).Stored b' e :=
  ⟨by simpa [Function.update_of_ne hb] using h.1, h.2⟩

theorem brelse_done (h : s.brelse me b = .done () s') :
    s' = { s with bcache := Bcache.brelse ROOTDEV b s.bcache } := by
  obtain ⟨x, -, -, rfl⟩ := held_done h
  rfl

theorem brelse_returns (hh : s.Held me b d) :
    s.brelse me b = .done () { s with bcache := Bcache.brelse ROOTDEV b s.bcache } := by
  obtain ⟨x, hx, -, -, hl⟩ := hh
  simp [brelse, IoState.held, hx, hl]

theorem stored_brelse (h : s.Stored b' e) (b : ℕ) :
    ({ s with bcache := Bcache.brelse ROOTDEV b s.bcache } : IoState).Stored b' e := by
  refine ⟨h.1, ?_⟩
  intro x hx hv
  dsimp only at hx
  by_cases hb : b' = b
  · subst hb
    cases hf : find b' s.bcache with
    | none =>
      have : Bcache.brelse ROOTDEV b' s.bcache = s.bcache := by
        unfold Bcache.brelse
        rw [show s.bcache.find? _ = none from hf]
      rw [this, hf] at hx
      cases hx
    | some y =>
      rw [find_brelse hf] at hx
      cases hx
      exact h.2 y hf hv
  · rw [find_brelse_other hb] at hx
    exact h.2 x hx hv

theorem pinned_brelse (h : s.Pinned (k + 1) b e) :
    ({ s with bcache := Bcache.brelse ROOTDEV b s.bcache } : IoState).Pinned k b e := by
  obtain ⟨x, hx, hv, hd, hk⟩ := h
  exact ⟨_, find_brelse hx, hv, hd, by dsimp only; omega⟩

theorem pinned_brelse_other (hb : b' ≠ b) (h : s.Pinned k b' e) :
    ({ s with bcache := Bcache.brelse ROOTDEV b s.bcache } : IoState).Pinned k b' e := by
  unfold Pinned
  rw [find_brelse_other hb]
  exact h

theorem held_brelse_other (hb : b' ≠ b) (h : s.Held me b' e) :
    ({ s with bcache := Bcache.brelse ROOTDEV b s.bcache } : IoState).Held me b' e := by
  unfold Held
  rw [find_brelse_other hb]
  exact h

theorem find_bunpin : find b (s.bunpin b).bcache =
    (find b s.bcache).map fun x => { x with refcnt := x.refcnt - 1 } :=
  find_update (keeps_refcnt _) b s.bcache

theorem find_bunpin_other (hb : b' ≠ b) : find b' (s.bunpin b).bcache = find b' s.bcache :=
  find_update_other (keeps_refcnt _) hb s.bcache

theorem stored_bunpin (h : s.Stored b' e) (b : ℕ) : (s.bunpin b).Stored b' e := by
  refine ⟨h.1, ?_⟩
  intro x hx hv
  by_cases hb : b' = b
  · subst hb
    rw [find_bunpin] at hx
    obtain ⟨y, hy, rfl⟩ := Option.map_eq_some_iff.mp hx
    exact h.2 y hy hv
  · rw [find_bunpin_other hb] at hx
    exact h.2 x hx hv

end Xv6Arm.IoState

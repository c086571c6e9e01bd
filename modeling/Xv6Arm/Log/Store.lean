import Xv6Arm.Log.CommitBuffers
import Xv6Arm.Lib.Wp

/-!
# Blocks behind the buffer cache

What a process that runs alone needs to know of disk, buffers and log: the bytes
that each block has on disk and had in its last buffer, the buffers it holds, and
those that the log keeps. A buffer that was changed and given back without a
`log_write` may be recycled, so the next reader of its block gets the new bytes or
those of the disk.
-/
namespace Xv6Arm
open Lib Bcache IoState

/-- The blocks as a process that runs alone sees them. -/
structure Store where
  /-- The bytes of the last buffer of each block, or those on disk if it had none. -/
  blk : ℕ → Block
  disk : ℕ → Block
  held : Finset ℕ
  /-- The blocks whose buffers have a reference of the log. -/
  pinned : Finset ℕ
  log : Log

/-- The panics a run may end in, whether it may wait for ever, and what may be committed. -/
structure Mode where
  panics : String → Prop
  waits : Prop
  commits : List ℕ → Prop

namespace Store

/-- The blocks that may have other bytes in a buffer than on disk. -/
def unsaved (v : Store) : Set ℕ := { b | v.disk b ≠ v.blk b }

/-- The bytes of block `b` do not depend on a buffer that can be recycled. -/
def Settled (v : Store) (b : ℕ) : Prop := b ∉ v.unsaved ∨ b ∈ v.pinned

/-- A reader of block `b` may get the bytes `d`. -/
def Sees (v : Store) (b : ℕ) (d : Block) : Prop := d = v.blk b ∨ b ∉ v.pinned ∧ d = v.disk b

theorem Sees.eq {v : Store} {b : ℕ} {d : Block} (h : v.Sees b d) (hb : v.Settled b) : d = v.blk b := by
  rcases h with h | ⟨hp, h⟩
  · exact h
  · rw [h]
    exact not_not.mp (hb.resolve_right hp)

/-- There is a buffer for block `b`. -/
def Room (v : Store) (b : ℕ) : Prop := b ∈ v.pinned ∨ (v.held ∪ v.pinned).card < NBUF

def hold (b : ℕ) (d : Block) (v : Store) : Store :=
  { v with blk := Function.update v.blk b d, held := insert b v.held }

def bset (b : ℕ) (d : Block) (v : Store) : Store :=
  { v with blk := Function.update v.blk b d }

def save (b : ℕ) (v : Store) : Store := { v with disk := Function.update v.disk b (v.blk b) }

def brelse (b : ℕ) (v : Store) : Store := { v with held := v.held.erase b }

def bunpin (b : ℕ) (v : Store) : Store := { v with pinned := v.pinned.erase b }

def logAppend (b : ℕ) (v : Store) : Store :=
  { v with log := v.log.append b, pinned := insert b v.pinned }

section Fields
variable (b : ℕ) (d : Block) (v : Store)

@[simp] theorem hold_blk : (v.hold b d).blk = Function.update v.blk b d := rfl
@[simp] theorem hold_held : (v.hold b d).held = insert b v.held := rfl
@[simp] theorem hold_pinned : (v.hold b d).pinned = v.pinned := rfl
@[simp] theorem hold_disk : (v.hold b d).disk = v.disk := rfl
@[simp] theorem hold_log : (v.hold b d).log = v.log := rfl
@[simp] theorem bset_blk : (v.bset b d).blk = Function.update v.blk b d := rfl
@[simp] theorem bset_held : (v.bset b d).held = v.held := rfl
@[simp] theorem bset_pinned : (v.bset b d).pinned = v.pinned := rfl
@[simp] theorem bset_disk : (v.bset b d).disk = v.disk := rfl
@[simp] theorem bset_log : (v.bset b d).log = v.log := rfl
@[simp] theorem save_blk : (v.save b).blk = v.blk := rfl
@[simp] theorem save_held : (v.save b).held = v.held := rfl
@[simp] theorem save_pinned : (v.save b).pinned = v.pinned := rfl
@[simp] theorem save_disk : (v.save b).disk = Function.update v.disk b (v.blk b) := rfl
@[simp] theorem save_log : (v.save b).log = v.log := rfl
@[simp] theorem brelse_blk : (v.brelse b).blk = v.blk := rfl
@[simp] theorem brelse_held : (v.brelse b).held = v.held.erase b := rfl
@[simp] theorem brelse_pinned : (v.brelse b).pinned = v.pinned := rfl
@[simp] theorem brelse_disk : (v.brelse b).disk = v.disk := rfl
@[simp] theorem brelse_log : (v.brelse b).log = v.log := rfl
@[simp] theorem bunpin_blk : (v.bunpin b).blk = v.blk := rfl
@[simp] theorem bunpin_held : (v.bunpin b).held = v.held := rfl
@[simp] theorem bunpin_pinned : (v.bunpin b).pinned = v.pinned.erase b := rfl
@[simp] theorem bunpin_disk : (v.bunpin b).disk = v.disk := rfl
@[simp] theorem bunpin_log : (v.bunpin b).log = v.log := rfl
@[simp] theorem logAppend_blk : (v.logAppend b).blk = v.blk := rfl
@[simp] theorem logAppend_held : (v.logAppend b).held = v.held := rfl
@[simp] theorem logAppend_pinned : (v.logAppend b).pinned = insert b v.pinned := rfl
@[simp] theorem logAppend_disk : (v.logAppend b).disk = v.disk := rfl
@[simp] theorem logAppend_log : (v.logAppend b).log = v.log.append b := rfl

/-- Only the block whose buffer changes can become one with other bytes on disk. -/
theorem unsaved_of_ne {v w : Store} {b x : ℕ} (hblk : ∀ y ≠ b, w.blk y = v.blk y) (hdisk : ∀ y ≠ b, w.disk y = v.disk y)
    (hx : x ∈ w.unsaved) : x ∈ v.unsaved ∨ x = b := by
  by_cases hxb : x = b
  · exact .inr hxb
  · refine .inl fun he => hx ?_
    rw [hblk x hxb, hdisk x hxb, he]

/-- A block that was read and given back unchanged. -/
theorem brelse_hold (hb : b ∉ v.held) : (v.hold b (v.blk b)).brelse b = v := by
  simp [hold, brelse, Finset.erase_insert hb]

end Fields

/-- `bread` of a block that is not settled gives the bytes of its last buffer or those of the disk. -/
def breadSpec (M : Mode) (b : ℕ) (K : Block → Store → Prop) (v : Store) : Prop :=
  if b ∈ v.held then M.waits
  else (v.Room b ∨ M.panics "bget: no buffers") ∧ ∀ d, v.Sees b d → K d (v.hold b d)

def beginOpSpec (M : Mode) (K : Unit → Store → Prop) (v : Store) : Prop :=
  match v.log.beginOp with
  | some l => K () { v with log := l }
  | none => M.waits

def endOpSpec (M : Mode) (K : Bool → Store → Prop) (v : Store) : Prop :=
  M.commits v.log.lh ∧
    match v.log.endOp with
    | .done r l => K r { v with log := l }
    | .blocked => M.waits
    | .panic msg => M.panics msg

def logCheckSpec (M : Mode) (K : Unit → Store → Prop) (v : Store) : Prop :=
  match v.log.check with
  | .panic msg => M.panics msg
  | _ => K () v

/-- What each request does for a process that runs alone. -/
def spec (M : Mode) : OpSpec ioSig Store
  | .bread b, K, v => breadSpec M b K v
  | .bset b d, K, v => b ∈ v.held ∧ K () (v.bset b d)
  | .bwrite b, K, v => b ∈ v.held ∧ K () (v.save b)
  | .brelse b, K, v => b ∈ v.held ∧ K () (v.brelse b)
  | .bunpin b, K, v => (b ∈ v.held ∧ b ∈ v.pinned) ∧ K () (v.bunpin b)
  | .beginOp, K, v => beginOpSpec M K v
  | .endOp, K, v => endOpSpec M K v
  | .commitDone, K, v => K () { v with log := v.log.commitDone }
  | .logCheck, K, v => logCheckSpec M K v
  | .logAppend b, K, v => (b ∈ v.held ∧ (b ∈ v.log.lh ↔ b ∈ v.pinned)) ∧ K () (v.logAppend b)
  | .logGet, K, v => K v.log v
  | .lhSet l, K, v => K () { v with log := { v.log with lh := l } }

theorem spec_mono (M : Mode) : (spec M).Mono := by
  intro o K L v h hK
  cases o with
  | bread b =>
    change breadSpec M b K v at hK
    change breadSpec M b L v
    unfold breadSpec at hK ⊢
    by_cases hb : b ∈ v.held
    · simpa only [if_pos hb] using hK
    · rw [if_neg hb] at hK ⊢
      exact ⟨hK.1, fun d hd => h _ _ (hK.2 d hd)⟩
  | beginOp =>
    change beginOpSpec M K v at hK
    change beginOpSpec M L v
    unfold beginOpSpec at hK ⊢
    split at hK
    · exact h _ _ hK
    · exact hK
  | endOp =>
    change endOpSpec M K v at hK
    change endOpSpec M L v
    refine ⟨hK.1, ?_⟩
    have hK := hK.2
    split at hK
    · exact h _ _ hK
    · exact hK
    · exact hK
  | logCheck =>
    change logCheckSpec M K v at hK
    change logCheckSpec M L v
    unfold logCheckSpec at hK ⊢
    split at hK
    · exact hK
    · exact h _ _ hK
  | commitDone => exact h _ _ hK
  | logGet => exact h _ _ hK
  | lhSet l => exact h _ _ hK
  | bset b d => exact ⟨hK.1, h _ _ hK.2⟩
  | bwrite b => exact ⟨hK.1, h _ _ hK.2⟩
  | brelse b => exact ⟨hK.1, h _ _ hK.2⟩
  | bunpin b => exact ⟨hK.1, h _ _ hK.2⟩
  | logAppend b => exact ⟨hK.1, h _ _ hK.2⟩

def tally (F : Finset ℕ) (b : ℕ) : ℕ := if b ∈ F then 1 else 0

/-- The process that holds the buffer of block `b`, if `me` holds those of `F`. -/
def holder (me : ℕ) (F : Finset ℕ) (b : ℕ) : Option ℕ := if b ∈ F then some me else none

section Tally
variable {F : Finset ℕ} {me b x : ℕ}

theorem tally_pos (h : b ∈ F) : tally F b = 1 := if_pos h
theorem tally_neg (h : b ∉ F) : tally F b = 0 := if_neg h
theorem holder_pos (h : b ∈ F) : holder me F b = some me := if_pos h
theorem holder_neg (h : b ∉ F) : holder me F b = none := if_neg h

@[simp] theorem tally_insert : tally (insert b F) b = 1 := tally_pos (Finset.mem_insert_self b F)
@[simp] theorem tally_erase : tally (F.erase b) b = 0 := tally_neg (Finset.notMem_erase b F)
@[simp] theorem holder_insert : holder me (insert b F) b = some me := holder_pos (Finset.mem_insert_self b F)
@[simp] theorem holder_erase : holder me (F.erase b) b = none := holder_neg (Finset.notMem_erase b F)

theorem tally_congr {G : Finset ℕ} (h : x ∈ F ↔ x ∈ G) : tally F x = tally G x := by simp [tally, h]
theorem holder_congr {G : Finset ℕ} (h : x ∈ F ↔ x ∈ G) : holder me F x = holder me G x := by simp [holder, h]

theorem tally_insert_ne (h : x ≠ b) : tally (insert b F) x = tally F x := tally_congr (by simp [h])
theorem tally_erase_ne (h : x ≠ b) : tally (F.erase b) x = tally F x := tally_congr (by simp [h])
theorem holder_insert_ne (h : x ≠ b) : holder me (insert b F) x = holder me F x := holder_congr (by simp [h])
theorem holder_erase_ne (h : x ≠ b) : holder me (F.erase b) x = holder me F x := holder_congr (by simp [h])

end Tally

/-- The references and the holder of each block's buffer. -/
def use (me : ℕ) (v : Store) (b : ℕ) : ℕ × Option ℕ := (tally v.held b + tally v.pinned b, holder me v.held b)

theorem use_lock {v : Store} {me b : ℕ} (h : b ∈ v.held) : (v.use me b).2 = some me := if_pos h

/-- Disk, buffers and log hold what `v` says, and `me` is the only process that holds a buffer. -/
structure Backs (me : ℕ) (v : Store) (s : IoState) : Prop where
  usage : Usage (v.use me) s
  log : s.log = v.log
  valid : ∀ b x, find b s.bcache = some x → (b ∈ v.held ∨ b ∈ v.pinned) → x.valid = true
  data : ∀ b x, find b s.bcache = some x → x.valid = true → x.data = v.blk b
  disk : ∀ b, s.disk b = v.disk b

namespace Backs
variable {me b : ℕ} {v : Store} {s s' : IoState} {M : Mode}

/-- The bytes that a reader gets. -/
theorem sees (h : Backs me v s) (b : ℕ) : v.Sees b (s.view b) := by
  unfold view
  have hmiss : (∀ x, find b s.bcache = some x → x.valid = false) → v.Sees b (s.disk b) := by
    intro hx
    refine .inr ⟨fun hp => ?_, h.disk b⟩
    obtain ⟨x, hf⟩ := h.usage.found (b := b) (by simp [use, tally_pos hp])
    have hv := h.valid b x hf (.inr hp)
    rw [hx x hf] at hv
    cases hv
  cases hf : find b s.bcache with
  | none => exact hmiss (by simp [hf])
  | some x =>
    cases hv : x.valid with
    | true => exact .inl (by simpa [hv] using h.data b x hf hv)
    | false =>
      have := hmiss (by simp [hf, hv])
      simpa [hv] using this

/-! ## One request -/

theorem bread_held (h : Backs me v s) (hb : b ∈ v.held) : s.bread me b = .blocked := by
  obtain ⟨x, hx, hl⟩ := h.usage.held (use_lock hb)
  have hs : (s.bcache.find? (Buf.holds ROOTDEV b)).isSome = true := by
    rw [show s.bcache.find? (Buf.holds ROOTDEV b) = some x from hx]
    rfl
  obtain ⟨c, hg⟩ : ∃ c, bget ROOTDEV b s.bcache = some c := ⟨_, by rw [bget, if_pos hs]⟩
  rcases find_bget hg with ⟨y, hy, hy'⟩ | ⟨hn, -⟩
  · rw [hx] at hy
    cases hy
    simp [IoState.bread, hg, hy', hl]
  · rw [hx] at hn
    cases hn

theorem exists_free (h : Backs me v s) (hc : (v.held ∪ v.pinned).card < NBUF) :
    ∃ x ∈ s.bcache, x.refcnt = 0 := by
  refine h.usage.exists_free (F := v.held ∪ v.pinned) ?_ hc
  intro b hb
  by_contra hn
  simp only [Finset.mem_union, not_or] at hn
  simp [use, tally_neg hn.1, tally_neg hn.2] at hb

theorem use_hold (hb : b ∉ v.held) (d : Block) :
    (v.hold b d).use me = Function.update (v.use me) b ((v.use me b).1 + 1, some me) := by
  funext x
  by_cases hx : x = b
  · subst hx
    simp [use, tally_neg hb, Nat.add_comm]
  · simp [use, tally_insert_ne hx, holder_insert_ne hx, Function.update_of_ne hx]

/-- `bread` of a buffer that is not held: it returns, or there is no buffer. -/
theorem bread (h : Backs me v s) (hb : b ∉ v.held) :
    (∃ s', s.bread me b = .done (s.view b) s' ∧ Backs me (v.hold b (s.view b)) s') ∨
      (s.bread me b = .panic "bget: no buffers" ∧ ¬v.Room b) := by
  have hl : (v.use me b).2 = none := if_neg hb
  by_cases hroom : 0 < (v.use me b).1 ∨ ∃ x ∈ s.bcache, x.refcnt = 0
  · obtain ⟨d, s', hr, hu, hlog⟩ := h.usage.bread me hl hroom
    have ha := bread_done h.usage.distinct hr
    obtain rfl := ha.data
    refine .inl ⟨s', hr, ⟨by rwa [use_hold hb], hlog.trans h.log, ?_, ?_, ?_⟩⟩
    · intro b' x hx hmem
      by_cases hbb : b' = b
      · subst hbb
        rw [ha.found] at hx
        cases hx
        rfl
      · rcases ha.other b' hbb with he | ⟨y, -, -, he⟩
        · exact h.valid b' x (he ▸ hx) (by simpa [hbb] using hmem)
        · rw [he] at hx
          cases hx
    · intro b' x hx hv
      by_cases hbb : b' = b
      · subst hbb
        rw [ha.found] at hx
        cases hx
        simp
      · rcases ha.other b' hbb with he | ⟨y, -, -, he⟩
        · simpa [hbb] using h.data b' x (he ▸ hx) hv
        · rw [he] at hx
          cases hx
    · intro b'
      rw [ha.disk]
      exact h.disk b'
  · rw [not_or] at hroom
    have hmiss : find b s.bcache = none := by
      cases hf : find b s.bcache with
      | none => rfl
      | some x =>
        have hx := h.usage.of_find hf
        refine absurd ⟨x, List.mem_of_find?_eq_some hf, ?_⟩ hroom.2
        rw [(Prod.mk.inj hx).1]
        exact Nat.eq_zero_of_not_pos hroom.1
    refine .inr ⟨?_, ?_⟩
    · have hbget : bget ROOTDEV b s.bcache = none := by
        rw [bget, show s.bcache.find? _ = none from hmiss, if_neg (by simp)]
        exact recycle_eq_none fun x hx h0 => hroom.2 ⟨x, hx, h0⟩
      simp [IoState.bread, hbget]
    · rintro (hp | hc)
      · exact hroom.1 (by simp [use, tally_pos hp])
      · exact hroom.2 (h.exists_free hc)

theorem bset (h : Backs me v s) (hb : b ∈ v.held) (d : Block) : Backs me (v.bset b d) (s.bset b d) := by
  refine ⟨h.usage.bset me b (use_lock hb) d, h.log, ?_, ?_, ?_⟩
  · intro b' x hx hmem
    by_cases hbb : b' = b
    · subst hbb
      rw [find_bset, Option.map_eq_some_iff] at hx
      obtain ⟨y, hy, rfl⟩ := hx
      exact h.valid b' y hy hmem
    · rw [find_bset_other hbb] at hx
      exact h.valid b' x hx hmem
  · intro b' x hx hv
    by_cases hbb : b' = b
    · subst hbb
      rw [find_bset, Option.map_eq_some_iff] at hx
      obtain ⟨y, -, rfl⟩ := hx
      simp
    · rw [find_bset_other hbb] at hx
      simpa [hbb] using h.data b' x hx hv
  · exact h.disk

theorem bwrite (h : Backs me v s) (hb : b ∈ v.held) :
    ∃ s', s.bwrite me b = .done () s' ∧ Backs me (v.save b) s' := by
  obtain ⟨x, hx, hl⟩ := h.usage.held (use_lock hb)
  have hd := h.data b x hx (h.valid b x hx (.inl hb))
  refine ⟨{ s with disk := Function.update s.disk b x.data },
    by simp [IoState.bwrite, IoState.held, hx, hl], ?_⟩
  refine ⟨⟨h.usage.distinct, h.usage.length, h.usage.block, h.usage.unassigned, h.usage.free⟩, h.log,
    h.valid, h.data, ?_⟩
  intro b'
  by_cases hbb : b' = b
  · subst hbb
    simpa using hd
  · simpa [hbb] using h.disk b'

theorem brelse (h : Backs me v s) (hb : b ∈ v.held) :
    ∃ s', s.brelse me b = .done () s' ∧ Backs me (v.brelse b) s' := by
  obtain ⟨x, hx, hl⟩ := h.usage.held (use_lock hb)
  obtain ⟨s₁, hr, hu, hlog⟩ := h.usage.brelse me b (use_lock hb)
  refine ⟨s₁, hr, ?_⟩
  have hs : s₁ = { s with bcache := Bcache.brelse ROOTDEV b s.bcache } := by
    have : s.brelse me b = .done () { s with bcache := Bcache.brelse ROOTDEV b s.bcache } := by
      simp only [IoState.brelse, IoState.held, hx, hl, if_true]
    rw [this] at hr
    cases hr
    rfl
  subst hs
  refine ⟨?_, hlog.trans h.log, ?_, ?_, h.disk⟩
  · convert hu using 1
    funext y
    by_cases hy : y = b
    · subst hy
      simp [use, tally_pos hb]
    · simp [use, tally_erase_ne hy, holder_erase_ne hy, Function.update_of_ne hy]
  · intro b' y hy hmem
    by_cases hbb : b' = b
    · subst hbb
      rw [find_brelse hx] at hy
      cases hy
      exact h.valid b' x hx (.inl hb)
    · rw [find_brelse_other hbb] at hy
      exact h.valid b' y hy (by simpa [hbb] using hmem)
  · intro b' y hy hv
    by_cases hbb : b' = b
    · subst hbb
      rw [find_brelse hx] at hy
      cases hy
      exact h.data b' x hx hv
    · rw [find_brelse_other hbb] at hy
      exact h.data b' y hy hv

/-- `bpin` and `bunpin` of a held buffer: only the number of references changes. -/
theorem refcnt (h : Backs me v s) (hb : b ∈ v.held) (f : ℕ → ℕ) {P : Finset ℕ} {l : Log}
    (hs : s'.bcache = Bcache.update b (fun x => { x with refcnt := f x.refcnt }) s.bcache)
    (hdisk : s'.disk = s.disk) (hlog : s'.log = l) (hP : ∀ b' ≠ b, b' ∈ P ↔ b' ∈ v.pinned)
    (hf : f (v.use me b).1 = 1 + tally P b) :
    Backs me { v with pinned := P, log := l } s' := by
  have hfind : ∀ b' x, find b' s'.bcache = some x →
      ∃ y, find b' s.bcache = some y ∧ x.valid = y.valid ∧ x.data = y.data := by
    intro b' x hx
    rw [hs] at hx
    by_cases hbb : b' = b
    · subst hbb
      rw [find_update (keeps_refcnt fun x => f x.refcnt), Option.map_eq_some_iff] at hx
      obtain ⟨y, hy, rfl⟩ := hx
      exact ⟨y, hy, rfl, rfl⟩
    · rw [find_update_other (keeps_refcnt fun x => f x.refcnt) hbb] at hx
      exact ⟨x, hx, rfl, rfl⟩
  refine ⟨?_, hlog, ?_, ?_, ?_⟩
  · convert h.usage.refcnt me b (use_lock hb) f (by rw [hf]; omega) s' hs using 1
    funext y
    by_cases hy : y = b
    · subst hy
      rw [Function.update_self, hf]
      simp [use, tally_pos hb, holder_pos hb]
    · simp [use, Function.update_of_ne hy, tally_congr (hP y hy)]
  · intro b' x hx hmem
    obtain ⟨y, hy, hv, -⟩ := hfind b' x hx
    rw [hv]
    by_cases hbb : b' = b
    · subst hbb
      exact h.valid b' y hy (.inl hb)
    · exact h.valid b' y hy (by simpa [hP b' hbb] using hmem)
  · intro b' x hx hv
    obtain ⟨y, hy, hv', hd⟩ := hfind b' x hx
    rw [hd]
    rw [hv'] at hv
    exact h.data b' y hy hv
  · rw [hdisk]
    exact h.disk

theorem setLog (h : Backs me v s) (l : Log) : Backs me { v with log := l } { s with log := l } :=
  ⟨⟨h.usage.distinct, h.usage.length, h.usage.block, h.usage.unassigned, h.usage.free⟩, rfl, h.valid, h.data,
    h.disk⟩

theorem bunpin (h : Backs me v s) (hb : b ∈ v.held) (hp : b ∈ v.pinned) :
    Backs me (v.bunpin b) (s.bunpin b) := by
  have hs : (s.bunpin b).bcache = Bcache.update b (fun x => { x with refcnt := x.refcnt - 1 }) s.bcache := rfl
  exact h.refcnt hb (· - 1) (P := v.pinned.erase b) (l := v.log) hs rfl h.log
    (fun b' hbb => by simp [hbb]) (by simp [use, tally_pos hb, tally_pos hp])

theorem logAppend (h : Backs me v s) (hb : b ∈ v.held) (hp : b ∈ v.log.lh ↔ b ∈ v.pinned) :
    Backs me (v.logAppend b) (s.logAppend b) := by
  by_cases hm : b ∈ v.log.lh
  · have hpin : insert b v.pinned = v.pinned := Finset.insert_eq_self.mpr (hp.mp hm)
    have hs : s.logAppend b = { s with log := v.log.append b } := by
      unfold IoState.logAppend
      rw [if_pos (by rwa [h.log]), h.log]
    rw [hs, Store.logAppend, hpin]
    exact h.setLog _
  · have hs : (s.logAppend b).bcache = Bcache.update b (fun x => { x with refcnt := x.refcnt + 1 }) s.bcache := by
      unfold IoState.logAppend
      rw [if_neg (by rwa [h.log])]
      rfl
    have hdisk : (s.logAppend b).disk = s.disk := by
      unfold IoState.logAppend
      rw [if_neg (by rwa [h.log])]
      rfl
    have hlog : (s.logAppend b).log = v.log.append b := by rw [Xv6Arm.logAppend_log, h.log]
    exact h.refcnt hb (· + 1) (P := insert b v.pinned) hs hdisk hlog (fun b' hbb => by simp [hbb])
      (by simp [use, tally_pos hb, tally_neg fun hpb => hm (hp.mpr hpb)])

end Backs

/-- A process that runs alone sees the blocks as the specification has them. -/
theorem ioStep_simulates (me : ℕ) (M : Mode) :
    Machine.Simulates (ioStep me) (spec M) M.panics M.waits (Backs me) := by
  intro o K v s h hK
  cases o with
  | bread b =>
    change breadSpec M b K v at hK
    unfold breadSpec at hK
    by_cases hb : b ∈ v.held
    · rw [if_pos hb] at hK
      simpa only [ioStep, h.bread_held hb] using hK
    · rw [if_neg hb] at hK
      rcases h.bread hb with ⟨s', hr, h'⟩ | ⟨hr, hroom⟩
      · simp only [ioStep, hr]
        exact ⟨_, h', hK.2 _ (h.sees b)⟩
      · simp only [ioStep, hr]
        exact hK.1.resolve_left hroom
  | bset b d => exact ⟨_, h.bset hK.1 d, hK.2⟩
  | bwrite b =>
    obtain ⟨s', hr, h'⟩ := h.bwrite hK.1
    simp only [ioStep, hr]
    exact ⟨_, h', hK.2⟩
  | brelse b =>
    obtain ⟨s', hr, h'⟩ := h.brelse hK.1
    simp only [ioStep, hr]
    exact ⟨_, h', hK.2⟩
  | bunpin b => exact ⟨_, h.bunpin hK.1.1 hK.1.2, hK.2⟩
  | beginOp =>
    change beginOpSpec M K v at hK
    unfold beginOpSpec at hK
    simp only [ioStep, h.log]
    cases hl : v.log.beginOp with
    | some l =>
      rw [hl] at hK
      exact ⟨_, h.setLog l, hK⟩
    | none =>
      rw [hl] at hK
      exact hK
  | endOp =>
    change endOpSpec M K v at hK
    have hK := hK.2
    simp only [ioStep, h.log]
    cases hl : v.log.endOp with
    | done r l =>
      rw [hl] at hK
      exact ⟨_, h.setLog l, hK⟩
    | blocked | panic msg =>
      rw [hl] at hK
      exact hK
  | commitDone =>
    simp only [ioStep, h.log]
    exact ⟨_, h.setLog _, hK⟩
  | logCheck =>
    change logCheckSpec M K v at hK
    unfold logCheckSpec at hK
    simp only [ioStep, h.log]
    cases hl : v.log.check with
    | panic msg =>
      rw [hl] at hK
      exact hK
    | done r l | blocked =>
      rw [hl] at hK
      exact ⟨v, h, hK⟩
  | logAppend b => exact ⟨_, h.logAppend hK.1.1 hK.1.2, hK.2⟩
  | logGet =>
    simp only [ioStep, h.log]
    exact ⟨v, h, hK⟩
  | lhSet l =>
    simp only [ioStep, h.log]
    exact ⟨_, h.setLog _, hK⟩

end Store
end Xv6Arm

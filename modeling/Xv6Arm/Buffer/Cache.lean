import Xv6Arm.Lib.FirstMatch
import Xv6Arm.Param

/-!
# The buffer cache

`bcache` of `bio.c`. The circular list through `head` is kept as a Lean list from
`head.next`, the most recently released buffer, to `head.prev`, the least
recently released one.
-/
namespace Xv6Arm
open Lib

/-- `struct buf`; `lock` is the pid that holds the sleep-lock. -/
structure Buf where
  valid : Bool
  dev : ℕ
  blockno : ℕ
  lock : Option ℕ
  refcnt : ℕ
  data : Block

namespace Buf

def holds (dev blockno : ℕ) (x : Buf) : Bool := x.dev == dev && x.blockno == blockno

end Buf

namespace Bcache

/-- The buffers as `binit` links them: zeroed, so assigned to no device. -/
def binit : List Buf :=
  List.replicate NBUF
    { valid := false, dev := 0, blockno := 0, lock := none, refcnt := 0, data := fun _ => 0 }

/-- The second loop of `bget`: from `head.prev` on, the first unused buffer is reassigned. -/
def recycle (dev blockno : ℕ) : List Buf → Option (List Buf)
  | [] => none
  | x :: c =>
    match recycle dev blockno c with
    | some c' => some (x :: c')
    | none =>
      if x.refcnt = 0 then
        some ({ x with dev := dev, blockno := blockno, valid := false, refcnt := 1 } :: c)
      else none

/-- The part of `bget` under `bcache.lock`; `none` is the panic "bget: no buffers". -/
def bget (dev blockno : ℕ) (c : List Buf) : Option (List Buf) :=
  if (c.find? (Buf.holds dev blockno)).isSome then
    some (modifyFirst (Buf.holds dev blockno) (fun x => { x with refcnt := x.refcnt + 1 }) c)
  else recycle dev blockno c

/-- The part of `brelse` under `bcache.lock`: a buffer nobody else waits for moves to the front. -/
def brelse (dev blockno : ℕ) (c : List Buf) : List Buf :=
  match c.find? (Buf.holds dev blockno) with
  | none => c
  | some x =>
    let x' := { x with lock := none, refcnt := x.refcnt - 1 }
    if x'.refcnt = 0 then x' :: c.eraseP (Buf.holds dev blockno)
    else modifyFirst (Buf.holds dev blockno) (fun _ => x') c

/-- The buffer that a holder of block `b` of the root device works on. -/
def find (b : ℕ) (c : List Buf) : Option Buf := c.find? (Buf.holds ROOTDEV b)

def update (b : ℕ) (f : Buf → Buf) (c : List Buf) : List Buf := modifyFirst (Buf.holds ROOTDEV b) f c

/-- No two buffers are assigned to one block. -/
def Distinct (c : List Buf) : Prop :=
  c.Pairwise fun x y => ∀ b, ¬(Buf.holds ROOTDEV b x ∧ Buf.holds ROOTDEV b y)

/-- An update that leaves a buffer assigned to its block. -/
def Keeps (f : Buf → Buf) : Prop := ∀ x, (f x).dev = x.dev ∧ (f x).blockno = x.blockno

theorem holds_iff {dev b : ℕ} {x : Buf} : Buf.holds dev b x = true ↔ x.dev = dev ∧ x.blockno = b := by
  simp [Buf.holds]

theorem Keeps.holds {f : Buf → Buf} (hf : Keeps f) (dev b : ℕ) (x : Buf) :
    Buf.holds dev b (f x) = Buf.holds dev b x := by
  simp [Buf.holds, hf x]

theorem holds_other {b b' : ℕ} (h : b' ≠ b) (x : Buf) (hx : Buf.holds ROOTDEV b x) :
    Buf.holds ROOTDEV b' x = false := by
  rw [holds_iff] at hx
  simp [Buf.holds, hx, Ne.symm h]

theorem find_update {f : Buf → Buf} (hf : Keeps f) (b : ℕ) (c : List Buf) :
    find b (update b f c) = (find b c).map f :=
  find?_modifyFirst (fun x hx => by rw [hf.holds]; exact hx) c

theorem find_update_other {f : Buf → Buf} (hf : Keeps f) {b b' : ℕ} (h : b' ≠ b) (c : List Buf) :
    find b' (update b f c) = find b' c :=
  find?_modifyFirst_other (holds_other h) (fun x hx => by rw [hf.holds]; exact holds_other h x hx) c

theorem Distinct.update {f : Buf → Buf} (hf : Keeps f) {c : List Buf} (h : Distinct c) (b : ℕ) :
    Distinct (update b f c) := by
  apply pairwise_modifyFirst _ _ h
  · intro x y _ hxy b'
    rw [hf.holds]
    exact hxy b'
  · intro x y _ hxy b'
    rw [hf.holds]
    exact hxy b'

/-! ## What a search finds after `bget` -/

theorem recycle_mem {dev b : ℕ} {c c' : List Buf} (h : recycle dev b c = some c') {y : Buf}
    (hy : y ∈ c') : y ∈ c ∨ ∃ x ∈ c, x.refcnt = 0 ∧
      y = { x with dev := dev, blockno := b, valid := false, refcnt := 1 } := by
  induction c generalizing c' with
  | nil => cases h
  | cons x c ih =>
    unfold recycle at h
    cases hr : recycle dev b c with
    | some d =>
      simp only [hr, Option.some.injEq] at h
      subst h
      rcases List.mem_cons.mp hy with rfl | hy
      · exact .inl List.mem_cons_self
      · rcases ih hr hy with h | ⟨z, hz, h0, rfl⟩
        · exact .inl (List.mem_cons_of_mem _ h)
        · exact .inr ⟨z, List.mem_cons_of_mem _ hz, h0, rfl⟩
    | none =>
      simp only [hr] at h
      split at h
      · rename_i h0
        cases h
        rcases List.mem_cons.mp hy with rfl | hy
        · exact .inr ⟨x, List.mem_cons_self, h0, rfl⟩
        · exact .inl (List.mem_cons_of_mem _ hy)
      · cases h

/-- The shape of a recycling: one unused buffer is reassigned in place. -/
theorem recycle_split {dev b : ℕ} {c c' : List Buf} (h : recycle dev b c = some c') :
    ∃ l x r, c = l ++ x :: r ∧ x.refcnt = 0 ∧
      c' = l ++ { x with dev := dev, blockno := b, valid := false, refcnt := 1 } :: r := by
  induction c generalizing c' with
  | nil => cases h
  | cons x c ih =>
    unfold recycle at h
    cases hr : recycle dev b c with
    | some d =>
      simp only [hr, Option.some.injEq] at h
      subst h
      obtain ⟨l, z, r, rfl, h0, rfl⟩ := ih hr
      exact ⟨x :: l, z, r, rfl, h0, rfl⟩
    | none =>
      simp only [hr] at h
      split at h
      · rename_i h0
        cases h
        exact ⟨[], x, c, rfl, h0, rfl⟩
      · cases h

/-- A block other than `b` keeps its buffer through a recycling, unless that buffer was the
unused one taken. -/
theorem find_recycle_other {b b' : ℕ} (hb : b' ≠ b) {c c' : List Buf} (hd : Distinct c)
    (h : recycle ROOTDEV b c = some c') :
    find b' c' = find b' c ∨ ∃ y, find b' c = some y ∧ y.refcnt = 0 ∧ find b' c' = none := by
  obtain ⟨l, x, r, rfl, h0, rfl⟩ := recycle_split h
  have hnew : Buf.holds ROOTDEV b' { x with dev := ROOTDEV, blockno := b, valid := false, refcnt := 1 }
      = false := by simp [Buf.holds, Ne.symm hb]
  unfold find
  cases hx : Buf.holds ROOTDEV b' x with
  | false => exact .inl (by simp [List.find?_append, hx, hnew])
  | true =>
    right
    have hrel := List.pairwise_append.mp hd
    have hl : l.find? (Buf.holds ROOTDEV b') = none := by
      apply List.find?_eq_none.mpr
      intro z hz hzb
      exact hrel.2.2 z hz x List.mem_cons_self b' ⟨hzb, hx⟩
    have hr : r.find? (Buf.holds ROOTDEV b') = none := by
      apply List.find?_eq_none.mpr
      intro z hz hzb
      exact (List.pairwise_cons.mp hrel.2.1).1 z hz b' ⟨hx, hzb⟩
    exact ⟨x, by simp [List.find?_append, hl, hx], h0, by simp [List.find?_append, hl, hr, hnew]⟩

theorem find_recycle {b : ℕ} {c c' : List Buf} (hn : find b c = none)
    (h : recycle ROOTDEV b c = some c') :
    ∃ x ∈ c, x.refcnt = 0 ∧
      find b c' = some { x with dev := ROOTDEV, blockno := b, valid := false, refcnt := 1 } := by
  obtain ⟨l, x, r, rfl, h0, rfl⟩ := recycle_split h
  have hl : l.find? (Buf.holds ROOTDEV b) = none := by
    apply List.find?_eq_none.mpr
    intro z hz
    exact List.find?_eq_none.mp hn z (by simp [hz])
  exact ⟨x, by simp, h0, by simp [find, List.find?_append, hl, Buf.holds]⟩

theorem Distinct.recycle {b : ℕ} {c c' : List Buf} (hd : Distinct c) (hn : find b c = none)
    (h : recycle ROOTDEV b c = some c') : Distinct c' := by
  obtain ⟨l, x, r, rfl, -, rfl⟩ := recycle_split h
  have hfree := List.find?_eq_none.mp hn
  obtain ⟨hl, hxr, hlr⟩ := List.pairwise_append.mp hd
  obtain ⟨hx, hr⟩ := List.pairwise_cons.mp hxr
  -- the new assignment clashes with nobody, because block `b` was not cached
  have hnew : ∀ z ∈ l ++ r, ∀ b', ¬(Buf.holds ROOTDEV b' z ∧ Buf.holds ROOTDEV b'
      { x with dev := ROOTDEV, blockno := b, valid := false, refcnt := 1 }) := by
    rintro z hz b' ⟨hzb, hxb⟩
    obtain ⟨-, rfl⟩ := holds_iff.mp hxb
    have hmem : z ∈ l ++ x :: r := by
      rcases List.mem_append.mp hz with h | h <;> simp [h]
    exact hfree z hmem hzb
  refine List.pairwise_append.mpr ⟨hl, List.pairwise_cons.mpr ⟨?_, hr⟩, ?_⟩
  · intro z hz b' hb
    exact hnew z (by simp [hz]) b' hb.symm
  · intro z hz w hw b' hb
    rcases List.mem_cons.mp hw with rfl | hw
    · exact hnew z (by simp [hz]) b' hb
    · exact hlr z hz w (List.mem_cons_of_mem _ hw) b' hb

theorem keeps_refcnt (f : Buf → ℕ) : Keeps (fun x => { x with refcnt := f x }) := fun _ => ⟨rfl, rfl⟩

/-- What `bget` does to the buffer of the block it is asked for. -/
theorem find_bget {b : ℕ} {c c' : List Buf} (h : bget ROOTDEV b c = some c') :
    (∃ x, find b c = some x ∧ find b c' = some { x with refcnt := x.refcnt + 1 }) ∨
    (find b c = none ∧ ∃ x ∈ c, x.refcnt = 0 ∧
      find b c' = some { x with dev := ROOTDEV, blockno := b, valid := false, refcnt := 1 }) := by
  unfold bget at h
  split at h
  · rename_i hs
    obtain ⟨x, hx⟩ := Option.isSome_iff_exists.mp hs
    cases h
    refine .inl ⟨x, hx, ?_⟩
    have hu := find_update (keeps_refcnt fun x => x.refcnt + 1) b c
    rw [show find b c = some x from hx] at hu
    exact hu
  · rename_i hs
    have hn : find b c = none := Option.not_isSome_iff_eq_none.mp hs
    exact .inr ⟨hn, find_recycle hn h⟩

/-- What `bget` does to the buffers of the other blocks: an unused one may be taken. -/
theorem find_bget_other {b b' : ℕ} (hb : b' ≠ b) {c c' : List Buf} (hd : Distinct c)
    (h : bget ROOTDEV b c = some c') :
    find b' c' = find b' c ∨ ∃ y, find b' c = some y ∧ y.refcnt = 0 ∧ find b' c' = none := by
  unfold bget at h
  split at h
  · cases h
    exact .inl (find_update_other (keeps_refcnt _) hb c)
  · exact find_recycle_other hb hd h

theorem Distinct.bget {b : ℕ} {c c' : List Buf} (hd : Distinct c) (h : bget ROOTDEV b c = some c') :
    Distinct c' := by
  unfold Bcache.bget at h
  split at h
  · cases h
    exact hd.update (keeps_refcnt _) b
  · rename_i hs
    exact hd.recycle (by simpa [find] using hs) h

theorem length_bget {dev b : ℕ} {c c' : List Buf} (h : bget dev b c = some c') :
    c'.length = c.length := by
  unfold bget at h
  split at h
  · cases h
    simp
  · obtain ⟨l, x, r, rfl, -, rfl⟩ := recycle_split h
    simp

/-- `bget` finds a buffer as long as some buffer is unused. -/
theorem bget_isSome (dev b : ℕ) {c : List Buf} (h : ∃ x ∈ c, x.refcnt = 0) :
    ∃ c', bget dev b c = some c' := by
  unfold bget
  split
  · exact ⟨_, rfl⟩
  · clear * - h
    induction c with
    | nil => simp at h
    | cons x c ih =>
      unfold recycle
      cases hr : recycle dev b c with
      | some d => exact ⟨_, rfl⟩
      | none =>
        obtain ⟨y, hy, h0⟩ := h
        rcases List.mem_cons.mp hy with rfl | hy
        · simp [h0]
        · obtain ⟨c', hc'⟩ := ih ⟨y, hy, h0⟩
          rw [hr] at hc'
          cases hc'

/-! ## What a search finds after `brelse` -/

theorem find_brelse {b : ℕ} {c : List Buf} {x : Buf} (h : find b c = some x) :
    find b (brelse ROOTDEV b c) = some { x with lock := none, refcnt := x.refcnt - 1 } := by
  have hx := List.find?_some (show c.find? (Buf.holds ROOTDEV b) = some x from h)
  have hx' : Buf.holds ROOTDEV b { x with lock := none, refcnt := x.refcnt - 1 } = true := hx
  unfold brelse find
  rw [show c.find? (Buf.holds ROOTDEV b) = some x from h]
  dsimp only
  split
  · simp [hx']
  · rw [find?_modifyFirst (fun _ _ => hx'), show c.find? (Buf.holds ROOTDEV b) = some x from h]
    rfl

theorem find_brelse_other {b b' : ℕ} (hb : b' ≠ b) (c : List Buf) :
    find b' (brelse ROOTDEV b c) = find b' c := by
  unfold brelse find
  cases h : c.find? (Buf.holds ROOTDEV b) with
  | none => rfl
  | some x =>
    have hx' : Buf.holds ROOTDEV b' { x with lock := none, refcnt := x.refcnt - 1 } = false :=
      holds_other hb x (List.find?_some h)
    dsimp only
    split
    · simp only [List.find?_cons, hx']
      exact find?_eraseP_other (holds_other hb) c
    · exact find?_modifyFirst_other (holds_other hb) (fun _ _ => hx') c

theorem pairwise_eraseP_cons {R : Buf → Buf → Prop} (hs : ∀ x y, R x y → R y x) {p : Buf → Bool}
    {c : List Buf} {x : Buf} (hx : c.find? p = some x) (h : c.Pairwise R) :
    (x :: c.eraseP p).Pairwise R := by
  have hp := List.find?_some hx
  obtain ⟨l, r, hl, rfl⟩ : ∃ l r, (∀ z ∈ l, ¬p z = true) ∧ c = l ++ x :: r := by
    obtain ⟨-, l, r, rfl, hl⟩ := List.find?_eq_some_iff_append.mp hx
    exact ⟨l, r, fun z hz => by simpa using hl z hz, rfl⟩
  have he : (l ++ x :: r).eraseP p = l ++ r := by
    rw [List.eraseP_append_right _ hl, List.eraseP_cons_of_pos hp]
  rw [he]
  have hperm : (x :: (l ++ r)).Perm (l ++ x :: r) := List.perm_middle.symm
  exact hperm.symm.pairwise h (fun {a b} => hs a b)

theorem Distinct.brelse {c : List Buf} (hd : Distinct c) (b : ℕ) : Distinct (brelse ROOTDEV b c) := by
  unfold Bcache.brelse
  cases h : c.find? (Buf.holds ROOTDEV b) with
  | none => exact hd
  | some x =>
    have hx := holds_iff.mp (List.find?_some h)
    dsimp only
    split
    · have hp := pairwise_eraseP_cons (fun x y hxy b' hb => hxy b' hb.symm) h hd
      obtain ⟨h1, h2⟩ := List.pairwise_cons.mp hp
      exact List.pairwise_cons.mpr ⟨fun y hy b' hb => h1 y hy b' hb, h2⟩
    · refine pairwise_modifyFirst ?_ ?_ hd
      · rintro z y hz hzy b' ⟨hb1, hb2⟩
        refine hzy b' ⟨?_, hb2⟩
        rw [holds_iff] at hz hb1 ⊢
        exact ⟨hz.1, by rw [hz.2, ← hx.2]; exact hb1.2⟩
      · rintro z y hy hzy b' ⟨hb1, hb2⟩
        refine hzy b' ⟨hb1, ?_⟩
        rw [holds_iff] at hy hb2 ⊢
        exact ⟨hy.1, by rw [hy.2, ← hx.2]; exact hb2.2⟩

theorem length_brelse (dev b : ℕ) (c : List Buf) : (brelse dev b c).length = c.length := by
  unfold brelse
  cases h : c.find? (Buf.holds dev b) with
  | none => rfl
  | some x =>
    have hm := List.mem_of_find?_eq_some h
    dsimp only
    split
    · rw [List.length_cons, List.length_eraseP_of_mem hm (List.find?_some h)]
      have := List.length_pos_of_mem hm
      omega
    · simp

end Bcache
end Xv6Arm

import Xv6Arm.Log.Reservation
import Xv6Arm.Log.Recovery

/-!
# The buffers that `commit` needs

Every block that `log_write` has accepted keeps a buffer until `install_trans` has
written it home. `commit` needs one buffer more, for the log block or the header
it is working on, and `LOGSIZE` accepted blocks can be as many as there are
buffers. What the requests need to know of the cache is the number of references
and the holder of each block's buffer.
-/
namespace Xv6Arm
open Lib Bcache IoState

/-- The references to the buffer of block `b`, and who holds it. -/
def usage (c : List Buf) (b : ℕ) : ℕ × Option ℕ := ((find b c).map fun x => (x.refcnt, x.lock)).getD (0, none)

/-- The buffers are used as `u` says, and those of no block are free. -/
structure Usage (u : ℕ → ℕ × Option ℕ) (s : IoState) : Prop where
  distinct : Distinct s.bcache
  length : s.bcache.length = NBUF
  block : ∀ b, usage s.bcache b = u b
  unassigned : ∀ x ∈ s.bcache, x.dev ≠ ROOTDEV → x.refcnt = 0 ∧ x.lock = none
  /-- Only a referenced buffer is held. -/
  free : ∀ b, (u b).1 = 0 → (u b).2 = none

namespace Usage
variable {u : ℕ → ℕ × Option ℕ} {s : IoState} {me b : ℕ}

theorem of_find (h : Usage u s) {x : Buf} (hx : find b s.bcache = some x) : (x.refcnt, x.lock) = u b := by
  rw [← h.block b, usage, hx]
  rfl

theorem of_mem (h : Usage u s) {x : Buf} (hx : x ∈ s.bcache) (hdev : x.dev = ROOTDEV) :
    (x.refcnt, x.lock) = u x.blockno :=
  h.of_find (find_of_mem h.distinct hx (holds_iff.mpr ⟨hdev, rfl⟩))

theorem lock_of_refcnt (h : Usage u s) {x : Buf} (hx : x ∈ s.bcache) (h0 : x.refcnt = 0) : x.lock = none := by
  by_cases hdev : x.dev = ROOTDEV
  · have hu := h.of_mem hx hdev
    have := h.free x.blockno (by rw [← hu]; exact h0)
    rwa [← hu] at this
  · exact (h.unassigned x hx hdev).2

theorem found (h : Usage u s) (hb : u b ≠ (0, none)) : ∃ x, find b s.bcache = some x := by
  cases hf : find b s.bcache with
  | some x => exact ⟨x, rfl⟩
  | none =>
    refine absurd ?_ hb
    rw [← h.block b, usage, hf]
    rfl

/-- As long as fewer than `NBUF` blocks are in use, some buffer is not. -/
theorem exists_free (h : Usage u s) {F : Finset ℕ} (hF : ∀ b, 0 < (u b).1 → b ∈ F) (hcard : F.card < NBUF) :
    ∃ x ∈ s.bcache, x.refcnt = 0 := by
  by_contra hall
  have hpos : ∀ x ∈ s.bcache, x.dev = ROOTDEV ∧ x.blockno ∈ F := by
    intro x hx
    have h0 : x.refcnt ≠ 0 := fun h0 => hall ⟨x, hx, h0⟩
    have hdev : x.dev = ROOTDEV := by
      by_contra hdev
      exact h0 (h.unassigned x hx hdev).1
    refine ⟨hdev, hF _ ?_⟩
    rw [← h.of_mem hx hdev]
    exact Nat.pos_of_ne_zero h0
  have hnodup : (s.bcache.map Buf.blockno).Nodup := by
    rw [List.Nodup, List.pairwise_map]
    refine h.distinct.imp_of_mem ?_
    intro x y hx hy hxy he
    refine hxy x.blockno ⟨holds_iff.mpr ⟨(hpos x hx).1, rfl⟩, holds_iff.mpr ⟨(hpos y hy).1, he.symm⟩⟩
  have hsub : (s.bcache.map Buf.blockno).toFinset ⊆ F := by
    intro b hb
    obtain ⟨x, hx, rfl⟩ := List.mem_map.mp (List.mem_toFinset.mp hb)
    exact (hpos x hx).2
  have hle := Finset.card_le_card hsub
  rw [List.toFinset_card_of_nodup hnodup, List.length_map, h.length] at hle
  omega

/-- `bread` of a block that nobody holds returns if the block is in use or some buffer is free. -/
theorem bread (h : Usage u s) (me : ℕ) (hl : (u b).2 = none)
    (hroom : 0 < (u b).1 ∨ ∃ x ∈ s.bcache, x.refcnt = 0) :
    ∃ d s', s.bread me b = .done d s' ∧ Usage (Function.update u b ((u b).1 + 1, some me)) s' ∧
      s'.log = s.log := by
  obtain ⟨c, hg⟩ : ∃ c, bget ROOTDEV b s.bcache = some c := by
    rcases hroom with hpos | hfree
    · obtain ⟨x, hx⟩ := h.found (b := b) fun he => by rw [he] at hpos; exact lt_irrefl _ hpos
      have hs : (s.bcache.find? (Buf.holds ROOTDEV b)).isSome = true := by
        rw [show s.bcache.find? (Buf.holds ROOTDEV b) = some x from hx]
        rfl
      exact ⟨_, by rw [bget, if_pos hs]⟩
    · exact bget_isSome ROOTDEV b hfree
  obtain ⟨x, hx, hxl⟩ : ∃ x, find b c = some x ∧ x.lock = none := by
    rcases find_bget hg with ⟨y, hy, hy'⟩ | ⟨-, y, hmem, h0, hy'⟩
    · exact ⟨_, hy', by rw [← h.of_find hy] at hl; exact hl⟩
    · exact ⟨_, hy', show y.lock = none from h.lock_of_refcnt hmem h0⟩
  obtain ⟨d, s', hr⟩ : ∃ d s', s.bread me b = .done d s' := by
    unfold IoState.bread
    simp [hg, hx, hxl]
  have ha := bread_done h.distinct hr
  refine ⟨d, s', hr, ⟨ha.distinct, by rw [ha.length, h.length], ?_, ?_, ?_⟩, ha.log⟩
  · intro b'
    by_cases hb : b' = b
    · subst hb
      have hrefs : s.refs b' = (u b').1 := by
        rw [← h.block b', usage, refs]
        cases find b' s.bcache <;> rfl
      rw [usage, ha.found, Function.update_self, ← hrefs]
      rfl
    · rw [Function.update_of_ne hb]
      rcases ha.other b' hb with he | ⟨y, hy, h0, he⟩
      · rw [← h.block b', usage, he]
        rfl
      · have hu := h.of_find hy
        have hlock := h.lock_of_refcnt (List.mem_of_find?_eq_some hy) h0
        rw [usage, he, ← hu, h0, hlock]
        rfl
  · intro y hy hdev
    rcases mem_bread hr hy with hy | hb
    · exact h.unassigned y hy hdev
    · exact absurd (holds_iff.mp hb).1 hdev
  · intro b'
    by_cases hb : b' = b
    · subst hb
      simp
    · rw [Function.update_of_ne hb]
      exact h.free b'

theorem held (h : Usage u s) (hl : (u b).2 = some me) :
    ∃ x, find b s.bcache = some x ∧ x.lock = some me := by
  obtain ⟨x, hx⟩ := h.found (b := b) fun he => by
    rw [he] at hl
    cases hl
  exact ⟨x, hx, by rw [← h.of_find hx] at hl; exact hl⟩

theorem bwrite (h : Usage u s) (me b : ℕ) (hl : (u b).2 = some me) :
    ∃ s', s.bwrite me b = .done () s' ∧ Usage u s' ∧ s'.log = s.log := by
  obtain ⟨x, hx, hxl⟩ := h.held hl
  refine ⟨{ s with disk := Function.update s.disk b x.data }, by simp [IoState.bwrite, IoState.held, hx, hxl],
    ?_, rfl⟩
  exact ⟨h.distinct, h.length, h.block, h.unassigned, h.free⟩

/-- A change of the buffer of block `b` in place. -/
theorem update (h : Usage u s) {f : Buf → Buf} (hf : Keeps f) {v : ℕ × Option ℕ} {x : Buf}
    (hx : find b s.bcache = some x) (hv : ((f x).refcnt, (f x).lock) = v) (hv0 : v.1 = 0 → v.2 = none)
    {s' : IoState} (hs' : s'.bcache = Bcache.update b f s.bcache) :
    Usage (Function.update u b v) s' := by
  refine ⟨hs' ▸ h.distinct.update hf b, by rw [hs', ← h.length]; simp [Bcache.update], ?_, ?_, ?_⟩
  · intro b'
    by_cases hb : b' = b
    · subst hb
      rw [usage, hs', find_update hf, hx, Function.update_self]
      exact hv
    · rw [usage, hs', find_update_other hf hb, Function.update_of_ne hb]
      exact h.block b'
  · intro y hy hdev
    rw [hs'] at hy
    rcases mem_modifyFirst hy with hy | ⟨z, hz, rfl⟩
    · exact h.unassigned y hy hdev
    · exact absurd ((hf z).1.trans (holds_iff.mp (List.find?_some hz)).1) hdev
  · intro b'
    by_cases hb : b' = b
    · subst hb
      simpa using hv0
    · rw [Function.update_of_ne hb]
      exact h.free b'

theorem bset (h : Usage u s) (me b : ℕ) (hl : (u b).2 = some me) (d : Block) : Usage u (s.bset b d) := by
  obtain ⟨x, hx, -⟩ := h.held hl
  have hv : ({ x with data := d } : Buf).refcnt = x.refcnt ∧ ({ x with data := d } : Buf).lock = x.lock := ⟨rfl, rfl⟩
  have hu : Usage (Function.update u b (u b)) (s.bset b d) :=
    h.update (keeps_data d) hx (by rw [hv.1, hv.2]; exact h.of_find hx) (h.free b) rfl
  rwa [Function.update_eq_self] at hu

/-- `bpin` and `bunpin` of a held buffer. -/
theorem refcnt (h : Usage u s) (me b : ℕ) (hl : (u b).2 = some me) (f : ℕ → ℕ) (hf : 0 < f (u b).1)
    (s' : IoState)
    (hs' : s'.bcache = Bcache.update b (fun x => { x with refcnt := f x.refcnt }) s.bcache) :
    Usage (Function.update u b (f (u b).1, some me)) s' := by
  obtain ⟨x, hx, hxl⟩ := h.held hl
  refine h.update (keeps_refcnt fun x => f x.refcnt) hx ?_ (fun h0 => absurd h0 hf.ne') hs'
  rw [← h.of_find hx, hxl]

theorem brelse (h : Usage u s) (me b : ℕ) (hl : (u b).2 = some me) :
    ∃ s', s.brelse me b = .done () s' ∧ Usage (Function.update u b ((u b).1 - 1, none)) s' ∧
      s'.log = s.log := by
  obtain ⟨x, hx, hxl⟩ := h.held hl
  refine ⟨{ s with bcache := Bcache.brelse ROOTDEV b s.bcache },
    by simp only [IoState.brelse, IoState.held, hx, hxl, if_true], ?_, rfl⟩
  refine ⟨h.distinct.brelse b, by dsimp only; rw [length_brelse, h.length], ?_, ?_, ?_⟩
  · intro b'
    by_cases hb : b' = b
    · subst hb
      rw [usage, find_brelse hx, Function.update_self, ← h.of_find hx]
      rfl
    · rw [usage, find_brelse_other hb, Function.update_of_ne hb]
      exact h.block b'
  · intro y hy hdev
    dsimp only at hy
    unfold Bcache.brelse at hy
    rw [show s.bcache.find? (Buf.holds ROOTDEV b) = some x from hx] at hy
    have hxdev : x.dev = ROOTDEV := (holds_iff.mp (List.find?_some hx)).1
    dsimp only at hy
    split at hy
    · rcases List.mem_cons.mp hy with rfl | hy
      · exact absurd hxdev hdev
      · exact h.unassigned y (List.mem_of_mem_eraseP hy) hdev
    · rcases mem_modifyFirst hy with hy | ⟨z, -, rfl⟩
      · exact h.unassigned y hy hdev
      · exact absurd hxdev hdev
  · intro b'
    by_cases hb : b' = b
    · subst hb
      simp
    · rw [Function.update_of_ne hb]
      exact h.free b'

end Usage

theorem recycle_eq_none {dev b : ℕ} {c : List Buf} (h : ∀ x ∈ c, x.refcnt ≠ 0) : recycle dev b c = none := by
  induction c with
  | nil => rfl
  | cons x c ih =>
    rw [recycle, ih fun y hy => h y (List.mem_cons_of_mem _ hy)]
    simp [h x List.mem_cons_self]

/-! ## The loops of `commit` -/

/-- The blocks `l` have one reference each, and nobody holds a buffer. -/
def pins (l : List ℕ) (b : ℕ) : ℕ × Option ℕ := if b ∈ l then (1, none) else (0, none)

theorem pins_lock (l : List ℕ) (b : ℕ) : (pins l b).2 = none := by
  unfold pins
  split <;> rfl

theorem exists_free_of_pins {l : List ℕ} {s : IoState} (h : Usage (pins l) s) (hlen : l.length < NBUF) :
    ∃ x ∈ s.bcache, x.refcnt = 0 := by
  refine h.exists_free (F := l.toFinset) ?_ ((List.toFinset_card_le l).trans_lt hlen)
  intro b hb
  by_contra hn
  simp [pins, show b ∉ l by simpa using hn] at hb

section Turns
variable {α : Type} {next : IoM α} {l : List ℕ} {s : IoState} {me b c : ℕ} {Q : α → IoState → Prop}

/-- The buffer of a log block while nothing but the pins is in use. -/
theorem Usage.bread_slot (h : Usage (pins l) s) (hlen : l.length < NBUF) (hc : c ∉ l) (me : ℕ) :
    ∃ d s', s.bread me c = .done d s' ∧ Usage (Function.update (pins l) c (1, some me)) s' ∧ s'.log = s.log := by
  have hu : pins l c = (0, none) := by simp [pins, hc]
  simpa [hu] using h.bread me (b := c) (pins_lock l c) (.inr (exists_free_of_pins h hlen))

/-- One turn of `write_log` leaves the buffers used as they were. -/
theorem writeSlot_completes (h : Usage (pins l) s) (hlen : l.length < NBUF) (hc : c ∉ l) (hb : b ∈ l)
    (hnext : ∀ s', Usage (pins l) s' → s'.log = s.log → Completes (ioStep me) next s' Q) :
    Completes (ioStep me) (do
      let _ ← bread c
      let from_ ← bread b
      bset c from_
      bwrite c
      brelse b
      brelse c
      next) s Q := by
  have hbc : b ≠ c := fun he => hc (he ▸ hb)
  have hub : pins l b = (1, none) := by simp [pins, hb]
  have huc : pins l c = (0, none) := by simp [pins, hc]
  obtain ⟨d, s₁, r₁, h₁, l₁⟩ := h.bread_slot hlen hc me
  obtain ⟨e, s₂, r₂, h₂, l₂⟩ := h₁.bread me (b := b) (by simp [hbc, hub]) (.inl (by simp [hbc, hub]))
  have h₃ := h₂.bset me c (by simp [hbc.symm]) e
  obtain ⟨s₄, r₄, h₄, l₄⟩ := h₃.bwrite me c (by simp [hbc.symm])
  obtain ⟨s₅, r₅, h₅, l₅⟩ := h₄.brelse me b (by simp)
  obtain ⟨s₆, r₆, h₆, l₆⟩ := h₅.brelse me c (by simp [hbc.symm])
  refine Returns.quiet rfl r₁ (Returns.quiet rfl r₂ (Returns.quiet rfl rfl ?_))
  refine Returns.quiet rfl r₄ (Returns.quiet rfl r₅ (Returns.quiet rfl r₆ (hnext s₆ ?_ ?_)))
  · convert h₆ using 1
    funext x
    by_cases hxc : x = c
    · subst hxc
      simp [hbc.symm, huc]
    · by_cases hxb : x = b
      · subst hxb
        simp [hbc, hub]
      · simp [hxc, hxb]
  · rw [l₆, l₅, l₄]
    exact l₂.trans l₁

/-- One turn of `install_trans` gives up the pin of its block. -/
theorem installSlot_completes (h : Usage (pins (b :: l)) s) (hlen : (b :: l).length < NBUF) (hc : c ∉ b :: l)
    (hb : b ∉ l) (hnext : ∀ s', Usage (pins l) s' → s'.log = s.log → Completes (ioStep me) next s' Q) :
    Completes (ioStep me) (do
      let lbuf ← bread c
      let _ ← bread b
      bset b lbuf
      bwrite b
      if false = true then pure () else bunpin b
      brelse c
      brelse b
      next) s Q := by
  have hbc : b ≠ c := fun he => hc (by simp [he])
  have hub : pins (b :: l) b = (1, none) := by simp [pins]
  obtain ⟨d, s₁, r₁, h₁, l₁⟩ := h.bread_slot hlen hc me
  obtain ⟨e, s₂, r₂, h₂, l₂⟩ := h₁.bread me (b := b) (by simp [hbc, hub]) (.inl (by simp [hbc, hub]))
  have h₃ := h₂.bset me b (by simp) d
  obtain ⟨s₄, r₄, h₄, l₄⟩ := h₃.bwrite me b (by simp)
  have h₅ := h₄.refcnt me b (by simp) (· - 1) (by simp [hbc, hub]) (s₄.bunpin b) rfl
  obtain ⟨s₆, r₆, h₆, l₆⟩ := h₅.brelse me c (by simp [hbc.symm])
  obtain ⟨s₇, r₇, h₇, l₇⟩ := h₆.brelse me b (by simp [hbc])
  refine Returns.quiet rfl r₁ (Returns.quiet rfl r₂ (Returns.quiet rfl rfl ?_))
  refine Returns.quiet rfl r₄ (Returns.quiet rfl rfl ?_)
  refine Returns.quiet rfl r₆ (Returns.quiet rfl r₇ (hnext s₇ ?_ ?_))
  · convert h₇ using 1
    funext x
    by_cases hxb : x = b
    · subst hxb
      simp [pins, hb, hbc]
    · by_cases hxc : x = c
      · subst hxc
        have hxl : x ∉ l := fun hm => hc (List.mem_cons_of_mem _ hm)
        simp [pins, hxl, hxb]
      · simp [pins, hxc, hxb]
  · rw [l₇, l₆]
    exact l₄.trans (l₂.trans l₁)

end Turns

section Loops
variable {l : List ℕ} {s : IoState} {me : ℕ}

theorem writeLogFrom_completes (h : Usage (pins l) s) (hlen : l.length < NBUF) {start tail : ℕ} {m : List ℕ}
    (hm : ∀ b ∈ m, b ∈ l) (hslot : ∀ i < m.length, start + (tail + i) + 1 ∉ l) :
    Completes (ioStep me) (writeLogFrom start tail m) s fun _ s' => Usage (pins l) s' ∧ s'.log = s.log := by
  induction m generalizing s tail with
  | nil => exact Returns.ret ⟨h, rfl⟩
  | cons b m ih =>
    refine writeSlot_completes h hlen (hslot 0 (by simp)) (hm b List.mem_cons_self) ?_
    intro s' h' hlog
    refine (ih h' (fun b' hb' => hm b' (List.mem_cons_of_mem _ hb')) ?_).mono fun _ t ht => ⟨ht.1, ht.2.trans hlog⟩
    intro i hi
    rw [Nat.add_assoc tail 1 i, Nat.add_comm 1 i]
    exact hslot (i + 1) (by simpa using hi)

theorem installFrom_completes (h : Usage (pins l) s) (hlen : l.length < NBUF) (hnodup : l.Nodup) {start tail : ℕ}
    (hslot : ∀ i < l.length, start + (tail + i) + 1 ∉ l) :
    Completes (ioStep me) (installFrom false start tail l) s fun _ s' => Usage (pins []) s' ∧ s'.log = s.log := by
  induction l generalizing s tail with
  | nil => exact Returns.ret ⟨h, rfl⟩
  | cons b l ih =>
    obtain ⟨hb, hnodup⟩ := List.nodup_cons.mp hnodup
    refine installSlot_completes h hlen (hslot 0 (by simp)) hb ?_
    intro s' h' hlog
    refine (ih h' (Nat.lt_of_succ_lt hlen) hnodup ?_).mono fun _ t ht => ⟨ht.1, ht.2.trans hlog⟩
    intro i hi hm
    refine hslot (i + 1) (by simpa using hi) (List.mem_cons_of_mem _ ?_)
    rwa [Nat.add_comm i 1, ← Nat.add_assoc tail 1 i]

theorem writeHead_completes (h : Usage (pins l) s) (hlen : l.length < NBUF) (hs : s.log.start ∉ l) :
    Completes (ioStep me) writeHead s fun _ s' => Usage (pins l) s' ∧ s'.log = s.log := by
  have hu : pins l s.log.start = (0, none) := by simp [pins, hs]
  obtain ⟨d, s₁, r₁, h₁, l₁⟩ := h.bread_slot hlen hs me
  have h₂ := h₁.bset me s.log.start (by simp) (putHeader d s.log.lh)
  obtain ⟨s₃, r₃, h₃, l₃⟩ := h₂.bwrite me s.log.start (by simp)
  obtain ⟨s₄, r₄, h₄, l₄⟩ := h₃.brelse me s.log.start (by simp)
  refine Returns.quiet rfl rfl (Returns.quiet rfl r₁ (Returns.quiet rfl rfl ?_))
  refine Returns.quiet rfl r₃ (Returns.quiet rfl r₄ (Returns.ret ⟨?_, ?_⟩))
  · convert h₄ using 1
    rw [Function.update_idem]
    simp [hu]
  · rw [l₄, l₃]
    exact l₁

end Loops

/-! ## Whether `commit` completes -/

/-- The state in which `end_op` enters `commit`: the blocks that `log_write` has accepted are home
blocks, each of them is pinned, and no other buffer is referenced. -/
structure Accepted (s : IoState) : Prop where
  nodup : s.log.lh.Nodup
  limit : s.log.lh.length ≤ LOGSIZE ∧ s.log.lh.length ≤ s.log.size - 1
  home : OutsideLog s.log.start s.log.size s.log.lh
  usage : Usage (pins s.log.lh) s

namespace Accepted
variable {s : IoState}

theorem slot (h : Accepted s) (hne : 0 < s.log.lh.length) {i : ℕ} (hi : i ≤ s.log.lh.length) :
    s.log.start + i ∉ s.log.lh := by
  intro hm
  have hlim := h.limit.2
  rcases h.home _ hm with hlt | hle <;> omega

theorem completes (h : Accepted s) (me : ℕ) (hlen : s.log.lh.length < NBUF) : Completes (ioStep me) commit s fun _ _ => True := by
  refine Returns.quiet rfl rfl ?_
  change Completes (ioStep me) (if 0 < s.log.lh.length then _ else (.ret () : IoM Unit)) s _
  by_cases hne : 0 < s.log.lh.length
  · rw [if_pos hne]
    have hslot : ∀ i < s.log.lh.length, s.log.start + (0 + i) + 1 ∉ s.log.lh := by
      intro i hi
      rw [Nat.zero_add]
      exact h.slot hne (i := i + 1) hi
    have hhead : s.log.start ∉ s.log.lh := h.slot hne (i := 0) (Nat.zero_le _)
    have hwrite : Completes (ioStep me) writeLog s fun _ s' => Usage (pins s.log.lh) s' ∧ s'.log = s.log :=
      Returns.quiet rfl rfl (writeLogFrom_completes h.usage hlen (fun _ hb => hb) hslot)
    refine hwrite.bind_quiet ?_
    rintro - s₁ ⟨u₁, l₁⟩
    refine (writeHead_completes u₁ hlen (by rw [l₁]; exact hhead)).bind_quiet ?_
    rintro - s₂ ⟨u₂, l₂⟩
    have hlog : s₂.log = s.log := l₂.trans l₁
    have hinstall : Completes (ioStep me) (installTrans false) s₂ fun _ s' => Usage (pins []) s' ∧ s'.log = s₂.log := by
      refine Returns.quiet rfl rfl ?_
      rw [← hlog] at u₂ hlen hslot
      exact installFrom_completes u₂ hlen (by rw [hlog]; exact h.nodup) hslot
    refine hinstall.bind_quiet ?_
    rintro - s₃ ⟨u₃, -⟩
    have u₄ : Usage (pins []) { s₃ with log := { s₃.log with lh := [] } } :=
      ⟨u₃.distinct, u₃.length, u₃.block, u₃.unassigned, u₃.free⟩
    refine Returns.quiet rfl rfl ((writeHead_completes u₄ (by simp) (by simp)).mono fun _ _ _ => trivial)
  · rw [if_neg hne]
    exact Returns.ret trivial

/-- With `NBUF` blocks in the log every buffer is pinned. -/
theorem used (h : Accepted s) (hlen : s.log.lh.length = NBUF) : ∀ x ∈ s.bcache, x.refcnt ≠ 0 := by
  intro x hx h0
  have hsub : s.log.lh.toFinset ⊆ ((s.bcache.filter (·.refcnt ≠ 0)).map Buf.blockno).toFinset := by
    intro b hb
    have hpin : pins s.log.lh b = (1, none) := by simp [pins, List.mem_toFinset.mp hb]
    obtain ⟨y, hy⟩ := h.usage.found (b := b) (by rw [hpin]; simp)
    have hy1 := h.usage.of_find hy
    rw [hpin] at hy1
    have hblock := (holds_of_find hy).2
    simp only [List.mem_toFinset, List.mem_map, List.mem_filter, decide_eq_true_eq]
    exact ⟨y, ⟨List.mem_of_find?_eq_some hy, by simp [(Prod.mk.inj hy1).1]⟩, hblock⟩
  have hlt : (s.bcache.filter (·.refcnt ≠ 0)).length < s.bcache.length := by
    rw [List.length_filter_lt_length_iff_exists]
    exact ⟨x, hx, by simp [h0]⟩
  have hle := (Finset.card_le_card hsub).trans (List.toFinset_card_le _)
  rw [List.toFinset_card_of_nodup h.nodup, hlen, List.length_map] at hle
  rw [h.usage.length] at hlt
  omega

/-- With all buffers pinned there is none for the first log block. -/
theorem no_buffers (h : Accepted s) (me : ℕ) (hlen : s.log.lh.length = NBUF) :
    commit.run (ioStep me) s = .panic "bget: no buffers" := by
  have hne : 0 < s.log.lh.length := by rw [hlen]; decide
  have hslot : s.log.start + 0 + 1 ∉ s.log.lh := h.slot hne (i := 1) hne
  have hbget : bget ROOTDEV (s.log.start + 0 + 1) s.bcache = none := by
    have hmiss : find (s.log.start + 0 + 1) s.bcache = none := by
      cases hf : find (s.log.start + 0 + 1) s.bcache with
      | none => rfl
      | some x =>
        have hu := h.usage.of_find hf
        simp only [pins, hslot, if_false] at hu
        exact absurd (Prod.mk.inj hu).1 (h.used hlen x (List.mem_of_find?_eq_some hf))
    rw [bget, show s.bcache.find? _ = none from hmiss, if_neg (by simp)]
    exact recycle_eq_none (h.used hlen)
  have hbread : ioStep me (.bread (s.log.start + 0 + 1)) s = .panic "bget: no buffers" := by
    simp [ioStep, IoState.bread, hbget]
  obtain ⟨b, l, hlh⟩ := List.exists_cons_of_length_pos hne
  have hwrite : writeLog.run (ioStep me) s = .panic "bget: no buffers" := by
    change (writeLogFrom s.log.start 0 s.log.lh).run (ioStep me) s = _
    rw [hlh]
    exact Prog.run_call_panic _ hbread
  change (if 0 < s.log.lh.length then _ else (.ret () : IoM Unit)).run (ioStep me) s = _
  rw [if_pos hne, Prog.bind_eq, Prog.run_bind, hwrite]

/-- A call of `log_write` within its limits adds a block. -/
theorem touch (h : Accepted s) (me : ℕ) {b : ℕ} (hout : 1 ≤ s.log.outstanding) (hb : b ∉ s.log.lh)
    (hhome : b < s.log.start ∨ s.log.start + s.log.size ≤ b) (hroom : s.log.lh.length < LOGSIZE)
    (hsize : s.log.lh.length + 1 < s.log.size) :
    Completes (ioStep me) (touch b) s fun _ s' => Accepted s' ∧ s'.log = { s.log with lh := s.log.lh ++ [b] } := by
  obtain ⟨d, s₁, r₁, h₁, l₁⟩ := h.usage.bread_slot hroom hb me
  have hcheck : ioStep me .logCheck s₁ = .done () s₁ := by
    have hlim : ¬(LOGSIZE ≤ s₁.log.lh.length ∨ (s₁.log.size : ℤ) - 1 ≤ s₁.log.lh.length) := by
      rw [l₁]
      omega
    have hout₁ : ¬s₁.log.outstanding < 1 := by
      rw [l₁]
      omega
    simp only [ioStep, Log.check, if_neg hlim, if_neg hout₁]
  have hb₁ : b ∉ s₁.log.lh := by rwa [l₁]
  have hlog : (s₁.logAppend b).log = { s.log with lh := s.log.lh ++ [b] } := by
    rw [logAppend_log, l₁, Log.append, if_neg hb]
  have h₂ := h₁.refcnt me b (by simp) (· + 1) (by simp) (s₁.logAppend b)
    (by simp [IoState.logAppend, hb₁, IoState.bpin])
  obtain ⟨s₃, r₃, h₃, l₃⟩ := h₂.brelse me b (by simp)
  refine Returns.quiet rfl r₁ (Returns.quiet rfl hcheck (Returns.quiet rfl rfl (Returns.quiet rfl r₃ ?_)))
  have hlog₃ : s₃.log = { s.log with lh := s.log.lh ++ [b] } := l₃.trans hlog
  refine Returns.ret ⟨⟨?_, ?_, ?_, ?_⟩, hlog₃⟩
  · rw [hlog₃]
    exact List.nodup_append.mpr ⟨h.nodup, by simp, by simpa using fun a ha => ne_of_mem_of_not_mem ha hb⟩
  · rw [hlog₃]
    simp only [List.length_append, List.length_singleton]
    omega
  · rw [hlog₃]
    intro x hx
    rcases List.mem_append.mp hx with hx | hx
    · exact h.home x hx
    · rw [List.mem_singleton.mp hx]
      exact hhome
  · rw [hlog₃]
    convert h₃ using 1
    funext x
    by_cases hx : x = b
    · subst hx
      simp [pins]
    · simp [pins, hx]

/-- Any number of home blocks within the limits. -/
theorem each_touch (h : Accepted s) (me : ℕ) (hout : 1 ≤ s.log.outstanding) {l : List ℕ}
    (hnodup : (s.log.lh ++ l).Nodup) (hhome : OutsideLog s.log.start s.log.size l)
    (hroom : (s.log.lh ++ l).length ≤ LOGSIZE) (hsize : (s.log.lh ++ l).length < s.log.size) :
    Completes (ioStep me) (Prog.each Xv6Arm.touch l) s fun _ s' =>
      Accepted s' ∧ s'.log = { s.log with lh := s.log.lh ++ l } := by
  induction l generalizing s with
  | nil => exact Returns.ret ⟨h, by simp⟩
  | cons b l ih =>
    simp only [List.length_append, List.length_cons] at hroom hsize
    have hb : b ∉ s.log.lh := fun hm => (List.nodup_append.mp hnodup).2.2 b hm b List.mem_cons_self rfl
    refine (h.touch me hout hb (hhome b List.mem_cons_self) (by omega) (by omega)).bind_quiet ?_
    rintro - s₁ ⟨h₁, l₁⟩
    have happ : s₁.log.lh ++ l = s.log.lh ++ b :: l := by simp [l₁]
    refine (ih h₁ (by rw [l₁]; exact hout) (by rw [happ]; exact hnodup) ?_ ?_ ?_).mono ?_
    · rw [l₁]
      exact fun x hx => hhome x (List.mem_cons_of_mem _ hx)
    · rw [happ]
      simpa using hroom
    · rw [happ, l₁]
      simpa using hsize
    · rintro - s₂ ⟨h₂, l₂⟩
      exact ⟨h₂, by rw [l₂, happ, l₁]⟩

end Accepted

/-- `commit` completes exactly if the accepted blocks leave a buffer free; otherwise it stops with
"bget: no buffers". -/
theorem commit_completes_iff {s : IoState} (h : Accepted s) (me : ℕ) :
    ((∃ s', commit.run (ioStep me) s = .done () s') ↔ s.log.lh.length < NBUF) ∧
      (commit.run (ioStep me) s = .panic "bget: no buffers" ↔ s.log.lh.length = NBUF) := by
  rcases Nat.lt_or_ge s.log.lh.length NBUF with hlt | hge
  · obtain ⟨⟨⟩, s', hrun, -, -⟩ := h.completes me hlt
    simp [hrun, hlt, hlt.ne]
  · have hlen : s.log.lh.length = NBUF := le_antisymm h.limit.1 hge
    simp [h.no_buffers me hlen, hlen]

/-- One operation has begun on a disk with a log of `nlog` blocks. -/
def oneOp (nlog : ℕ) : IoState where
  disk := fun _ _ => 0
  bcache := Bcache.binit
  log := { start := 2, size := nlog, outstanding := 1, committing := false, lh := [] }

theorem accepted_oneOp (nlog : ℕ) : Accepted (oneOp nlog) := by
  refine ⟨List.nodup_nil, ⟨Nat.zero_le _, Nat.zero_le _⟩, by simp [OutsideLog, oneOp], ?_⟩
  have hbuf : ∀ x ∈ Bcache.binit, x.dev = 0 ∧ x.refcnt = 0 ∧ x.lock = none := by
    intro x hx
    rw [List.eq_of_mem_replicate hx]
    exact ⟨rfl, rfl, rfl⟩
  have hmiss : ∀ b, find b Bcache.binit = none := by
    intro b
    apply List.find?_eq_none.mpr
    intro x hx
    simp [Buf.holds, (hbuf x hx).1]
  refine ⟨?_, by simp [oneOp, Bcache.binit], ?_, fun x hx _ => (hbuf x hx).2, fun b _ => pins_lock _ b⟩
  · refine List.pairwise_iff_forall_sublist.mpr ?_
    intro x y hxy b hb
    have hx : x ∈ Bcache.binit := hxy.subset (by simp)
    simp [Buf.holds, (hbuf x hx).1] at hb
  · intro b
    simp [usage, oneOp, hmiss b, pins]

/-- The home blocks that fill a log of `LOGSIZE` blocks. -/
def homeBlocks : List ℕ := List.range' 100 LOGSIZE

/-- A log of 31 blocks takes 30 home blocks, and then there is no buffer to commit them with. -/
theorem commit_of_full_log_panics : ∃ s, (Prog.each touch homeBlocks).run (ioStep 0) (oneOp 31) = .done () s ∧
    Accepted s ∧ s.log.lh = homeBlocks ∧ commit.run (ioStep 0) s = .panic "bget: no buffers" := by
  obtain ⟨⟨⟩, s, hrun, -, h, hlog⟩ := (accepted_oneOp 31).each_touch 0 le_rfl (l := homeBlocks) (by decide)
    (by unfold OutsideLog; decide) (by decide) (by decide)
  have hlh : s.log.lh = homeBlocks := by rw [hlog]; rfl
  exact ⟨s, hrun, h, hlh, h.no_buffers 0 (by rw [hlh]; decide)⟩

/-- A log of 30 blocks takes one home block less, and the commit completes. -/
theorem commit_of_short_log : ∃ s, Accepted s ∧ s.log.size = 30 ∧ s.log.lh.length = 29 ∧
    ∃ s', commit.run (ioStep 0) s = .done () s' := by
  obtain ⟨⟨⟩, s, -, -, h, hlog⟩ := (accepted_oneOp 30).each_touch 0 le_rfl (l := homeBlocks.take 29) (by decide)
    (by unfold OutsideLog; decide) (by decide) (by decide)
  have hlen : s.log.lh.length = 29 := by rw [hlog]; rfl
  exact ⟨s, h, by rw [hlog]; rfl, hlen, (commit_completes_iff h 0).1.mpr (by rw [hlen]; decide)⟩

end Xv6Arm

import Xv6Arm.Fs.Edits

/-!
# Writing to a file

The loop of `writei`, what it takes of the log and of the free blocks, and the
change of the size that follows it.
-/
namespace Xv6Arm
open Lib

namespace Env
variable {E : Env} {v v' : View} {T : Finset ℕ} {t k i b : ℕ}

/-! ## What `t` turns of the loop log -/

/-- There is room in the log for `t` more blocks of file `i`, and for its indirect block. -/
structure Stock (E : Env) (T : Finset ℕ) (t i : ℕ) (v : View) : Prop where
  inOp : E.InOp v
  fits : E.Fits T (t + 2) v ∨ v.slot i .indirect ≠ 0 ∧ v.slot i .indirect ∈ T ∧ E.Fits T (t + 1) v

theorem Stock.less {u : ℕ} (h : E.Stock T t i v) (hu : u ≤ t) : E.Stock T u i v :=
  ⟨h.inOp, h.fits.imp (·.less (by omega)) fun ⟨h1, h2, h3⟩ => ⟨h1, h2, h3.less (by omega)⟩⟩

theorem Stock.fits_one (h : E.Stock T t i v) : E.Fits T (t + 1) v := by
  rcases h.fits with hf | ⟨-, -, hf⟩
  · exact hf.less (by omega)
  · exact hf

/-- A block is put on the list. -/
theorem Stock.widen (h : E.Stock T (t + 1) i v) (b : ℕ) : E.Stock (insert b T) t i v := by
  refine ⟨h.inOp, ?_⟩
  rcases h.fits with hf | ⟨hne, hmem, hf⟩
  · exact .inl (hf.widen b)
  · exact .inr ⟨hne, Finset.mem_insert_of_mem hmem, hf.widen b⟩

/-- The indirect block is put on the list. -/
theorem Stock.addIndirect (h : E.Stock T t i v) :
    ∃ T', T ⊆ T' ∧ v.slot i .indirect ∈ T' ∧ E.Fits T' (t + 1) v := by
  rcases h.fits with hf | ⟨-, hmem, hf⟩
  · exact ⟨_, Finset.subset_insert _ _, Finset.mem_insert_self _ _, hf.widen _⟩
  · exact ⟨T, subset_rfl, hmem, hf⟩

theorem Stock.entry {j : Fin NINDIRECT} (hne : v.slot i .indirect ≠ 0) (hmem : v.slot i .indirect ∈ T)
    (hin : E.InOp v) (hf : E.Fits T (t + 2) v) (hm : View.MapsEntry E.sb i j v b v') :
    ∃ T', T ⊆ T' ∧ b ∈ T' ∧ E.Stock T' t i v' := by
  refine ⟨insert b T, Finset.subset_insert _ _, Finset.mem_insert_self _ _, ?_⟩
  cases hm with
  | old _ => exact ⟨hin, .inr ⟨hne, Finset.mem_insert_of_mem hmem, hf.widen _⟩⟩
  | new b hz hff hd =>
    refine ⟨?_, .inr ⟨hne, Finset.mem_insert_of_mem hmem, (hf.alloc hff.lt).keep fun _ => ?_⟩⟩
    · simpa [InOp, View.linkEntry, View.alloc] using hin
    · intro y
      simp only [View.linkEntry, View.logWrite_held, View.bset_held, View.logWrite_log, View.bset_log, Log.toFinset_append,
        Finset.mem_union, Finset.mem_insert]
      rintro (hy | rfl | hy)
      · exact .inl (.inl hy)
      · exact .inr (.inr hmem)
      · exact .inl (.inr hy)

/-- One turn of the loop takes one block. -/
theorem Stock.maps {s : Slot} (hacct : Acct E.sb v) (hl : v.Live E.sb i) (hs : s ≠ .indirect)
    (h : E.Stock T (t + 1) i v) (hm : View.Maps E.sb i v s b v') :
    ∃ T', T ⊆ T' ∧ b ∈ T' ∧ E.Stock T' t i v' := by
  cases hm with
  | addr q hm =>
    refine ⟨insert b T, Finset.subset_insert _ _, Finset.mem_insert_self _ _, ?_⟩
    cases hm with
    | old _ => exact h.widen _
    | new b hz hff hd =>
      have hslot := View.linkAddr_slot (k := q) hacct hff.free hl hz .indirect
      rw [if_neg (Ne.symm hs)] at hslot
      refine ⟨?_, ?_⟩
      · simpa [InOp, View.linkAddr, View.alloc] using h.inOp
      · rw [hslot]
        rcases h.fits with hf | ⟨hne, hmem, hf⟩
        · exact .inl (hf.alloc hff.lt).setIno
        · exact .inr ⟨hne, Finset.mem_insert_of_mem hmem, (hf.alloc hff.lt).setIno⟩
  | @entry j a _ v₁ _ ha hm =>
    cases ha with
    | old hne =>
      obtain ⟨T', hsub, hmem, hf⟩ := h.addIndirect
      obtain ⟨T'', hsub', hb, hst⟩ := Stock.entry hne hmem h.inOp hf hm
      exact ⟨T'', hsub.trans hsub', hb, hst⟩
    | new _ hz hff hd =>
      have hslot := View.linkAddr_slot (k := Fin.last NDIRECT) hacct hff.free hl hz .indirect
      rw [if_pos rfl] at hslot
      have hf : E.Fits T (t + 1 + 2) v := h.fits.resolve_right fun hr => hr.1 hz
      obtain ⟨T'', hsub', hb, hst⟩ := Stock.entry (T := insert a T) (v := v.linkAddr E.sb i (Fin.last NDIRECT) a)
        (by rw [hslot]; exact hd.ne_zero) (by rw [hslot]; exact Finset.mem_insert_self _ _)
        (by simpa [InOp, View.linkAddr, View.alloc] using h.inOp) (hf.alloc hff.lt).setIno hm
      exact ⟨T'', (Finset.subset_insert _ _).trans hsub', hb, hst⟩

theorem Stock.write {d : Block} (h : E.Stock T t i v) (hb : b ∈ T) : E.Stock T t i (v.write b d) := by
  have hkeep : ∀ {n}, E.Fits T n v → E.Fits T n (v.write b d) := by
    intro n hf
    refine hf.keep fun _ => ?_
    intro y
    simp only [View.write_held, View.write_log, Log.toFinset_append, Finset.mem_union, Finset.mem_insert]
    rintro (hy | rfl | hy)
    · exact .inl (.inl hy)
    · exact .inr hb
    · exact .inl (.inr hy)
  refine ⟨by simpa [InOp] using h.inOp, ?_⟩
  exact h.fits.imp hkeep fun hr => ⟨hr.1, hr.2.1, hkeep hr.2.2⟩

/-! ## What they take of the free blocks -/

/-- The blocks that have to be linked before file `i` has the blocks `L`. -/
def needs (v : View) (i : ℕ) (L : List ℕ) : ℕ :=
  (L.filter fun bn => v.block i bn = 0).length + if v.slot i .indirect = 0 ∧ ∃ bn ∈ L, NDIRECT ≤ bn then 1 else 0

theorem needs_cons (v : View) (i bn : ℕ) (L : List ℕ) :
    needs v i L + (if v.block i bn = 0 then 1 else 0) ≤ needs v i (bn :: L) := by
  unfold needs
  have hflag : (if v.slot i .indirect = 0 ∧ ∃ bn ∈ L, NDIRECT ≤ bn then 1 else 0) ≤
      if v.slot i .indirect = 0 ∧ ∃ b' ∈ bn :: L, NDIRECT ≤ b' then 1 else 0 := by
    split
    · rename_i h
      obtain ⟨hz, b', hb', hle⟩ := h
      rw [if_pos ⟨hz, b', List.mem_cons_of_mem _ hb', hle⟩]
    · exact Nat.zero_le _
  by_cases hb : v.block i bn = 0
  · rw [if_pos hb, List.filter_cons_of_pos (by simpa using hb), List.length_cons]
    omega
  · rw [if_neg hb, List.filter_cons_of_neg (by simpa using hb)]
    omega

/-- With the indirect block linked, nothing more is needed for it. -/
theorem needs_indirect {bn : ℕ} {L : List ℕ} (hz : v.slot i .indirect = 0) (hbn : NDIRECT ≤ bn)
    (hle : ∀ b, v'.block i b = 0 → v.block i b = 0) (hne : v'.slot i .indirect ≠ 0) :
    needs v' i L + 1 + (if v.block i bn = 0 then 1 else 0) ≤ needs v i (bn :: L) := by
  have hf := (List.monotone_filter_right L (p := fun b => decide (v'.block i b = 0))
    (q := fun b => decide (v.block i b = 0)) (fun b hb => by simpa using hle b (by simpa using hb))).length_le
  have hv' : needs v' i L = (L.filter fun bn => v'.block i bn = 0).length := by
    rw [needs, if_neg fun h => hne h.1, Nat.add_zero]
  have hv : needs v i (bn :: L) = ((bn :: L).filter fun bn => v.block i bn = 0).length + 1 := by
    rw [needs, if_pos ⟨hz, bn, List.mem_cons_self, hbn⟩]
  rw [hv', hv]
  by_cases hb : v.block i bn = 0
  · rw [if_pos hb, List.filter_cons_of_pos (by simpa using hb), List.length_cons]
    omega
  · rw [if_neg hb, List.filter_cons_of_neg (by simpa using hb)]
    omega

theorem needs_le {L : List ℕ} (hle : ∀ b, v'.block i b = 0 → v.block i b = 0)
    (hi : v'.slot i .indirect = 0 → v.slot i .indirect = 0) : needs v' i L ≤ needs v i L := by
  have hf := (List.monotone_filter_right L (p := fun b => decide (v'.block i b = 0))
    (q := fun b => decide (v.block i b = 0)) (fun b hb => by simpa using hle b (by simpa using hb))).length_le
  unfold needs
  split
  · rename_i h
    rw [if_pos ⟨hi h.1, h.2⟩]
    omega
  · omega

theorem need_le_needs {s : Slot} {bn : ℕ} {L : List ℕ} (hs : Slot.of bn = some s) (hz : v.slot i s = 0) :
    need v i s ≤ needs v i (bn :: L) := by
  have hb : v.block i bn = 0 := (View.block_eq i hs).trans hz
  cases s with
  | addr q =>
    have := needs_cons v i bn L
    rw [if_pos hb] at this
    simp only [need]
    omega
  | entry j =>
    have hbn : NDIRECT ≤ bn := Slot.le_of_entry hs
    unfold need needs
    rw [List.filter_cons_of_pos (by simpa using hb), List.length_cons]
    by_cases hi : v.slot i .indirect = 0
    · simp only [if_pos hi]
      rw [if_pos ⟨hi, bn, List.mem_cons_self, hbn⟩]
      omega
    · simp only [if_neg hi]
      omega

/-- One turn of the loop takes what it needs. -/
theorem HasFree.maps {s : Slot} {bn : ℕ} {L : List ℕ} (hacct : Acct E.sb v) (hl : v.Live E.sb i)
    (hs : Slot.of bn = some s) (h : E.HasFree (needs v i (bn :: L)) v) (hm : View.Maps E.sb i v s b v') :
    E.HasFree (needs v' i L) v' := by
  obtain ⟨hg, hu⟩ := hm.grows E.layout hacct hl
  have hle : ∀ b', v'.block i b' = 0 → v.block i b' = 0 := by
    intro b' hb'
    by_contra hne
    cases ht : Slot.of b' with
    | none => exact hne (by simp [View.block, ht])
    | some t =>
      rw [View.block_eq i ht] at hb' hne
      exact hne ((hg.slot i t _ ⟨hl, rfl, hne⟩).symm.trans hb')
  have hi : v'.slot i .indirect = 0 → v.slot i .indirect = 0 := by
    intro hz
    by_contra hne
    exact hne ((hg.slot i .indirect _ ⟨hl, rfl, hne⟩).symm.trans hz)
  have hneeds := needs_le (L := L) hle hi
  have hcons := needs_cons v i bn L
  have hblock := View.block_eq (v := v) i hs
  cases hm with
  | addr q hm =>
    cases hm with
    | old _ => exact h.less (by omega)
    | new b hz hff hd =>
      rw [if_pos (hblock.trans hz)] at hcons
      exact (h.less (m := needs _ i L + 1) (by omega)).take rfl _ rfl
  | @entry j a _ v₁ _ ha hm =>
    cases ha with
    | old hne =>
      cases hm with
      | old _ => exact h.less (by omega)
      | new b hz hff hd =>
        rw [if_pos (hblock.trans hz)] at hcons
        exact (h.less (m := needs _ i L + 1) (by omega)).take rfl _ rfl
    | new _ hz hff hd =>
      have hne : v'.slot i .indirect ≠ 0 := by
        have hu := (View.uses_linkAddr hacct hd hff.free hl hz i .indirect a).mpr (.inr ⟨rfl, rfl, rfl⟩)
        have hgl := View.Grows.linkAddr hacct hl hz hff hd
        rw [(hm.grows E.layout hgl.acct ((hgl.live i).mpr hl) (by rw [hu.eq]; exact hd.ne_zero)).1.slot i .indirect a hu]
        exact hd.ne_zero
      have hind := needs_indirect (L := L) hz (Slot.le_of_entry hs) hle hne
      cases hm with
      | old _ => exact (h.less (m := needs _ i L + 1) (by omega)).take rfl _ rfl
      | new b hz' hff' hd' =>
        rw [if_pos (hblock.trans (View.slot_entry hz))] at hind
        have h₁ : E.HasFree (needs _ i L + 1) (v.linkAddr E.sb i (Fin.last NDIRECT) a) :=
          (h.less (m := needs _ i L + 1 + 1) (by omega)).take rfl _ rfl
        exact h₁.take rfl _ rfl

/-- The blocks stay as they are. -/
theorem HasFree.poke {w : View} {L : List ℕ} (h : E.HasFree (needs v i L) v) (hbit : w.bit = v.bit)
    (hb : ∀ bn, w.block i bn = v.block i bn) (hi : w.slot i .indirect = v.slot i .indirect) :
    E.HasFree (needs w i L) w := by
  have hle : needs w i L ≤ needs v i L := needs_le (fun b hz => hb b ▸ hz) fun hz => hi ▸ hz
  unfold HasFree
  rw [hbit]
  exact h.less hle

/-! ## The loop -/

/-- The number of blocks that `n` bytes from `off` on lie in. -/
def turns (off n : ℕ) : ℕ := if n = 0 then 0 else (off + n - 1) / BSIZE - off / BSIZE + 1

theorem turns_succ {off n : ℕ} (hn : n ≠ 0) :
    turns off n = turns (off + min n (BSIZE - off % BSIZE)) (n - min n (BSIZE - off % BSIZE)) + 1 := by
  unfold turns BSIZE
  rw [if_neg hn]
  split <;> omega

/-- The blocks that the loop works on. -/
def blocks (off n : ℕ) : List ℕ := List.range' (off / BSIZE) (turns off n)

theorem blocks_succ {off n : ℕ} (hn : n ≠ 0) :
    blocks off n = off / BSIZE :: blocks (off + min n (BSIZE - off % BSIZE)) (n - min n (BSIZE - off % BSIZE)) := by
  unfold blocks
  rw [turns_succ hn, List.range'_succ]
  by_cases hm : n - min n (BSIZE - off % BSIZE) = 0
  · rw [hm, turns, if_pos rfl]
    rfl
  · have hmod := Nat.mod_lt off (show 0 < BSIZE by decide)
    congr 2
    unfold BSIZE at *
    omega

theorem Opened.wrote {off : ℕ} {l : List UInt8} (ho : E.Opened k i v) (h : View.Wrote E.sb i off l v v') :
    E.Opened k i v' := by
  obtain ⟨m, he⟩ := ho.ent
  refine ⟨⟨m, by rw [h.ent, he]⟩, by rw [h.loaded]; exact ho.loaded, (h.live i).mpr ho.live, h.acct, fun a ha => ?_,
    by rw [h.held, ho.held]⟩
  rcases h.fresh _ _ _ ha with hu | hd
  · exact fun hm => ho.clean a hu (h.dirty hm)
  · exact hd

theorem wp_writeiFrom (D : Source E) {Φ : ℕ × Bool → Kernel Unit → View → Prop} {X : Kernel Unit} {fuel n off : ℕ}
    {src : Src} {l₀ : List UInt8} (hfuel : n ≤ fuel) (ho : E.Opened k i v) (hmax : off + n ≤ MAXFILE * BSIZE)
    (hst : E.Stock T (turns off n) i v) (hfree : E.HasFree (needs v i (blocks off n)) v) (hok : D.ok l₀ n src X.vm)
    (h : ∀ T' l v' vm src', T ⊆ T' → l.length = n → View.Wrote E.sb i off l v v' → E.Stock T' 0 i v' →
      D.ok (l₀ ++ l) 0 src' vm → Φ (off + n, true) { X with vm := vm } v')
    (hfail : ∀ T' l l' v' vm, T ⊆ T' → l.length + l'.length < n → l = [] ∨ (off + l.length) % BSIZE = 0 →
      l'.length < BSIZE - (off + l.length) % BSIZE → View.Broke E.sb i off l l' v v' → E.Stock T' 0 i v' →
      D.fails (l₀ ++ (l ++ l')) vm → Φ (off + l.length, false) { X with vm := vm } v') :
    E.wp (writeiFrom E.sb k fuel src off n) Φ X v := by
  induction fuel generalizing n off src l₀ X v T Φ with
  | zero =>
    obtain rfl : n = 0 := Nat.le_zero.mp hfuel
    exact wp_ret (h T [] v X.vm src subset_rfl rfl (.refl ho.acct) hst (by simpa using hok))
  | succ fuel ih =>
    unfold writeiFrom
    by_cases hn : n = 0
    · subst hn
      rw [if_pos rfl]
      exact wp_ret (h T [] v X.vm src subset_rfl rfl (.refl ho.acct) hst (by simpa using hok))
    rw [if_neg hn]
    rw [turns_succ hn] at hst
    rw [blocks_succ hn] at hfree
    have hlt : off / BSIZE < MAXFILE := by
      rw [Nat.div_lt_iff_lt_mul (by decide)]
      omega
    obtain ⟨s, hs⟩ := Slot.of_eq_some hlt
    obtain ⟨m, he⟩ := ho.ent
    refine wp_seq (wp_bmap (T := T) hs he ho.loaded ho.live ho.acct ho.clean ho.held hst.fits_one.reads
      (fun hz => ⟨hst.inOp, hst.fits_one.less (by omega), hfree.less (need_le_needs hs hz)⟩) fun b v' hm => ?_)
    obtain ⟨hg, hu⟩ := hm.grows E.layout ho.acct ho.live
    obtain ⟨T', hsub, hbT, hst'⟩ := hst.maps ho.acct ho.live (fun h => Slot.of_ne_indirect (h ▸ hs)) hm
    have hnh : b ∉ v'.held := by simp [hg.held, ho.held]
    refine wp_seq (wp_bread (hg.acct.range _ _ _ hu) (hg.acct.used hu) hnh hst'.fits_one.reads fun d hd => ?_)
    have hmod := Nat.mod_lt off (show 0 < BSIZE by decide)
    refine wp_seq (wp_eitherCopyin D hok (by omega) (Nat.min_le_left _ _) (fun l vm hlen hok' => ?_)
      fun l vm hlen hf => ?_)
    · have hw := View.Wrote.turn (l := l) E.layout hs hm ho.acct ho.live (by omega) hd
      have hin : E.InOp ((v'.hold b d).bset b (putBytes d (off % BSIZE) l)) := hst'.inOp
      have hfit : E.Fits T' 0 ((v'.hold b d).bset b (putBytes d (off % BSIZE) l)) := by
        refine (hst'.fits_one.less (Nat.zero_le _)).keep fun _ => ?_
        intro y
        simp only [View.bset_held, View.hold_held, View.bset_log, View.hold_log, Finset.mem_union, Finset.mem_insert]
        rintro ((rfl | hy) | hy)
        · exact .inr hbT
        · exact .inl (.inl hy)
        · exact .inl (.inr hy)
      refine wp_seq (wp_bset (by simp) ?_)
      rw [if_pos rfl]
      refine wp_seq (wp_logWrite (by simp) hin hfit (wp_seq (wp_brelse (by simp) ?_)))
      rw [View.write_eq hnh]
      have hfree' := (hfree.maps ho.acct ho.live hs hm).poke (w := v'.write b (putBytes d (off % BSIZE) l)) rfl
        (hm.block_poke E.layout hs ho.acct ho.live rfl rfl) rfl
      refine ih (X := { X with vm := vm }) (T := T') (by omega) (ho.wrote hw) (by omega) (hst'.write hbT) hfree' hok' ?_ ?_
      · intro T'' l' v'' vm' src' hsub' hlen' hw' hst'' hok''
        have := h T'' (l ++ l') v'' vm' src' (hsub.trans hsub') (by rw [List.length_append]; omega)
          (hw.trans ho.live (by rwa [hlen])) hst'' (by rwa [List.append_assoc] at hok'')
        rwa [Nat.add_assoc, Nat.add_sub_cancel' (Nat.min_le_left _ _)]
      · intro T'' l₁ l' v'' vm' hsub' hlen' hdiv hpart hbr hst'' hf
        -- the block of this turn was filled to its end
        have hfull : (off + l.length) % BSIZE = 0 := by
          unfold BSIZE at *
          omega
        rw [← hlen] at hdiv hpart hbr
        have := hfail T'' (l ++ l₁) l' v'' vm' (hsub.trans hsub') (by rw [List.length_append]; omega) ?_ ?_ ?_ hst''
          (by rwa [List.append_assoc, ← List.append_assoc l l₁ l'] at hf)
        · rwa [List.length_append, hlen, ← Nat.add_assoc] at this
        · right
          rw [List.length_append, ← Nat.add_assoc]
          rcases hdiv with rfl | hdiv
          · simpa using hfull
          · exact hdiv
        · rwa [List.length_append, ← Nat.add_assoc]
        · exact .after ho.live hw hbr
    · refine wp_seq (wp_bset (by simp) ?_)
      rw [if_neg (by simp)]
      refine wp_seq (wp_brelse (by simp) (wp_ret ?_))
      rw [View.smear_eq hnh]
      have hbr : View.Broke E.sb i off [] l v _ := .turn E.layout hs hm ho.acct ho.live (by omega) hd
      have hst'' := hst'.less (Nat.zero_le _)
      refine hfail T' [] l _ vm hsub (by simp; omega) (.inl rfl) (by simp; omega) hbr ⟨hst''.inOp, hst''.fits⟩ ?_
      simpa using hf

end Env

/-! ## The size -/

/-- The size is at least `off`. -/
def Dinode.reach (off : ℕ) (d : Dinode) : Dinode := if d.size < off then { d with size := off } else d

theorem Dinode.reach_eq (off : ℕ) (d : Dinode) : d.reach off = { d with size := max d.size off } := by
  unfold reach
  split
  · rw [max_eq_right (by omega)]
  · rw [max_eq_left (by omega)]

/-- The size of file `i` is at least `off`, and its inode is written. -/
def View.resize (sb : Superblock) (i off : ℕ) (v : View) : View :=
  (v.setIno i ((v.ino i).reach off)).iupdate sb i ((v.ino i).reach off)

/-- The view after `writei` of `n` bytes. -/
def View.written (sb : Superblock) (i off n : ℕ) (v : View) : View := if n = 0 then v else v.resize sb i (off + n)

namespace Env
variable {E : Env} {v v' : View} {T : Finset ℕ} {k i : ℕ}

theorem wp_resize {Φ : ℤ → Kernel Unit → View → Prop} {X : Kernel Unit} {n m off : ℕ} {r : ℤ}
    (he : v.ent k = some (i, m)) (hl : k ∈ v.loaded) (hi : i < E.sb.ninodes) (hin : E.InOp v) (hf : E.Fits T n v) (hoff : off < 2 ^ 32)
    (h : Φ r X (v.resize E.sb i off)) :
    E.wp (do
      modifyInode k fun d => if d.size < off then { d with size := off } else d
      iupdate E.sb k
      pure r) Φ X v := by
  refine wp_seq (wp_rep fun _ c _ hc => ?_)
  have hsm := hc.small i hi
  refine wp_modifyInode (f := Dinode.reach off) he hl ?_ ?_
  · rw [Dinode.reach_eq]
    exact ⟨max_lt hsm.size hoff, hsm.addrs⟩
  · refine wp_seq (wp_iupdate (v := v.setIno i ((v.ino i).reach off)) he hl hi hin hf.setIno (wp_ret ?_))
    simpa [View.resize] using h

theorem wp_writei (D : Source E) {Φ : ℤ → Kernel Unit → View → Prop} {X : Kernel Unit} {n off : ℕ} {src : Src}
    (ho : E.Opened k i v) (hn : n < 2 ^ 32)
    (hst : off ≤ (v.ino i).size → off + n ≤ MAXFILE * BSIZE → E.Stock T (turns off n) i v)
    (hfree : off ≤ (v.ino i).size → off + n ≤ MAXFILE * BSIZE → E.HasFree (needs v i (blocks off n)) v)
    (hok : D.ok [] n src X.vm)
    (hbad : (v.ino i).size < off ∨ MAXFILE * BSIZE < off + n → Φ (-1) X v)
    (h : ∀ T' l v' vm src', off ≤ (v.ino i).size → off + n ≤ MAXFILE * BSIZE → T ⊆ T' → l.length = n →
      View.Wrote E.sb i off l v v' → E.Stock T' 0 i v' → D.ok l 0 src' vm →
      Φ n { X with vm := vm } (View.written E.sb i off n v'))
    (hfail : ∀ T' l l' v' vm, off ≤ (v.ino i).size → off + n ≤ MAXFILE * BSIZE → T ⊆ T' → l.length + l'.length < n →
      l = [] ∨ (off + l.length) % BSIZE = 0 → l'.length < BSIZE - (off + l.length) % BSIZE →
      View.Broke E.sb i off l l' v v' → E.Stock T' 0 i v' → D.fails (l ++ l') vm →
      Φ (-1) { X with vm := vm } (v'.resize E.sb i (off + l.length))) :
    E.wp (writei E.sb k src off n) Φ X v := by
  obtain ⟨m, he⟩ := ho.ent
  refine wp_seq (wp_inodeGet he fun x _ _ hx => ?_)
  rw [hx ho.loaded]
  have hMAX : MAXFILE * BSIZE < 2 ^ 32 := by decide
  by_cases h1 : (v.ino i).size < off ∨ (off + n) % 2 ^ 32 < off
  · rw [if_pos h1]
    exact wp_ret (hbad (by omega))
  rw [if_neg h1]
  have hsum : (off + n) % 2 ^ 32 = off + n := by omega
  rw [hsum] at h1 ⊢
  by_cases h2 : MAXFILE * BSIZE < off + n
  · rw [if_pos h2]
    exact wp_ret (hbad (.inr h2))
  rw [if_neg h2]
  refine wp_seq (wp_writeiFrom D le_rfl ho (by omega) (hst (by omega) (by omega)) (hfree (by omega) (by omega)) hok ?_ ?_)
  · intro T' l v' vm src' hsub hlen hw hst' hok'
    have hΦ := h T' l v' vm src' (by omega) (by omega) hsub hlen hw hst' hok'
    have he' : v'.ent k = some (i, m) := by rw [hw.ent, he]
    have hl' : k ∈ v'.loaded := by rw [hw.loaded]; exact ho.loaded
    by_cases hz : n = 0
    · rw [View.written, if_pos hz] at hΦ
      dsimp only
      rw [if_neg (by simp [hz])]
      exact wp_ret hΦ
    · rw [View.written, if_neg hz] at hΦ
      dsimp only
      rw [if_pos (by omega)]
      exact wp_resize he' hl' ho.live.1 hst'.inOp hst'.fits_one (by omega) hΦ
  · intro T' l l' v' vm hsub hlen hdiv hpart hb hst' hf
    have hΦ := hfail T' l l' v' vm (by omega) (by omega) hsub hlen hdiv hpart hb hst' (by simpa using hf)
    have he' : v'.ent k = some (i, m) := by rw [hb.ent, he]
    have hl' : k ∈ v'.loaded := by rw [hb.loaded]; exact ho.loaded
    dsimp only
    rw [if_pos (by simp)]
    exact wp_resize he' hl' ho.live.1 hst'.inOp hst'.fits_one (by omega) hΦ

end Env
end Xv6Arm

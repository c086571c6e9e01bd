import Xv6Arm.Fs.Blocks

/-!
# Finding and adding blocks

What `bmap` does to the view: it finds the block, or it links a free block, and
for an entry of the indirect block maybe the indirect block before. Slots in use
and the bytes of the blocks they refer to stay as they are.
-/
namespace Xv6Arm
open Lib

/-- The blocks of the free map that are not in use. -/
def freeBlocks (sb : Superblock) (bit : ℕ → Bool) : Finset ℕ := (Finset.range sb.size).filter fun b => bit b = false

namespace View

/-- File `i` grows by blocks: what was there stays, and new blocks are zero. -/
structure Grows (sb : Superblock) (i : ℕ) (v v' : View) : Prop where
  acct : Acct sb v'
  ino : ∀ j ≠ i, v'.ino j = v.ino j
  self : v'.ino i = { v.ino i with addrs := (v'.ino i).addrs }
  slot : ∀ j s c, v.Uses sb j s c → v'.slot j s = c
  dat : ∀ j s c, v.Uses sb j s c → s ≠ .indirect → v'.dat c = v.dat c
  may : ∀ j s c, v.Uses sb j s c → s ≠ .indirect → v'.may c = v.may c
  fresh : ∀ j s c, v'.Uses sb j s c → v.Uses sb j s c ∨ c ∉ v'.dirty ∧ (s ≠ .indirect → v'.dat c = fun _ => 0)
  bit : ∀ b, v.bit b = true → v'.bit b = true
  dirty : v'.dirty ⊆ v.dirty
  dsk : v'.dsk = v.dsk
  held : v'.held = v.held
  outstanding : v'.log.outstanding = v.log.outstanding
  ent : v'.ent = v.ent
  locked : v'.locked = v.locked
  loaded : v'.loaded = v.loaded

namespace Grows
variable {sb : Superblock} {v v' v'' : View} {i b : ℕ}

theorem live (h : Grows sb i v v') (j : ℕ) : v'.Live sb j ↔ v.Live sb j := by
  by_cases hj : j = i
  · rw [Live, Live, hj, h.self]
  · rw [Live, Live, h.ino j hj]

theorem uses (h : Grows sb i v v') {j c : ℕ} {s : Slot} (hu : v.Uses sb j s c) : v'.Uses sb j s c :=
  ⟨(h.live j).mpr hu.live, h.slot j s c hu, hu.ne⟩

theorem refl (h : Acct sb v) : Grows sb i v v :=
  ⟨h, fun _ _ => rfl, rfl, fun _ _ _ hu => hu.eq, fun _ _ _ _ _ => rfl, fun _ _ _ _ _ => rfl, fun _ _ _ hu => .inl hu,
    fun _ => id, subset_rfl, rfl, rfl, rfl, rfl, rfl, rfl⟩

theorem trans (h : Grows sb i v v') (h' : Grows sb i v' v'') : Grows sb i v v'' := by
  refine ⟨h'.acct, ?_, ?_, ?_, ?_, ?_, ?_, fun b hb => h'.bit b (h.bit b hb), h'.dirty.trans h.dirty, h'.dsk.trans h.dsk,
    h'.held.trans h.held, h'.outstanding.trans h.outstanding, h'.ent.trans h.ent, h'.locked.trans h.locked,
    h'.loaded.trans h.loaded⟩
  · intro j hj
    rw [h'.ino j hj, h.ino j hj]
  · rw [h'.self, h.self]
  · intro j s c hu
    exact h'.slot j s c (h.uses hu)
  · intro j s c hu hs
    rw [h'.dat j s c (h.uses hu) hs, h.dat j s c hu hs]
  · intro j s c hu hs
    rw [h'.may j s c (h.uses hu) hs, h.may j s c hu hs]
  · intro j s c hu
    rcases h'.fresh j s c hu with hu' | hnew
    · rcases h.fresh j s c hu' with hu'' | ⟨hd, hz⟩
      · exact .inl hu''
      · exact .inr ⟨fun hm => hd (h'.dirty hm), fun hs => (h'.dat j s c hu' hs).trans (hz hs)⟩
    · exact .inr hnew

theorem linkAddr (h : Acct sb v) {k : Fin (NDIRECT + 1)} (hl : v.Live sb i) (hz : v.slot i (.addr k) = 0)
    (hf : FirstFree sb v.bit b) (hd : IsData sb b) : Grows sb i v (v.linkAddr sb i k b) := by
  have hu := uses_linkAddr (k := k) h hd hf.free hl hz
  have hne : ∀ {j s c}, v.Uses sb j s c → c ≠ b := by
    rintro j s c hc rfl
    have := h.used hc
    rw [hf.free] at this
    cases this
  refine ⟨acct_linkAddr h hd hf.free hl hz, fun j hj => linkAddr_ino_ne hj, ?_, ?_, ?_, ?_, ?_, ?_, Set.sdiff_subset, rfl,
    rfl, ?_, rfl, rfl, rfl⟩
  · rw [linkAddr_ino]
    rfl
  · intro j s c hc
    exact ((hu j s c).mpr (.inl hc)).eq
  · intro j s c hc _
    rw [linkAddr_dat, Function.update_of_ne (hne hc)]
  · intro j s c hc _
    exact Function.update_of_ne (hne hc) ..
  · intro j s c hc
    rcases (hu j s c).mp hc with hc | ⟨rfl, rfl, rfl⟩
    · exact .inl hc
    · refine .inr ⟨?_, fun _ => ?_⟩
      · simp [View.linkAddr, View.alloc]
      · rw [linkAddr_dat, Function.update_self]
  · intro c hc
    simp [View.linkAddr, View.alloc, Function.update_apply, hc]
  · simp [View.linkAddr, View.alloc]

theorem linkEntry (hL : Layout sb) (h : Acct sb v) {a : ℕ} {j : Fin NINDIRECT} (hl : v.Live sb i)
    (ha : v.slot i .indirect = a) (hne : a ≠ 0) (hz : v.slot i (.entry j) = 0) (hf : FirstFree sb v.bit b)
    (hd : IsData sb b) : Grows sb i v (v.linkEntry sb a j b) := by
  have hu := uses_linkEntry (j := j) h hd (hd.lt hL) hf.free hl ha hne hz
  have hua : v.Uses sb i .indirect a := ⟨hl, ha, hne⟩
  have hneb : ∀ {j s c}, v.Uses sb j s c → c ≠ b := by
    rintro j s c hc rfl
    have := h.used hc
    rw [hf.free] at this
    cases this
  have hnea : ∀ {j s c}, v.Uses sb j s c → s ≠ .indirect → c ≠ a := by
    rintro j s c hc hs rfl
    exact hs (h.inj _ _ _ _ _ hc hua).2
  refine ⟨acct_linkEntry h hd (hd.lt hL) hf.free hl ha hne hz, fun _ _ => rfl, rfl, ?_, ?_, ?_, ?_, ?_, ?_, rfl, rfl, ?_, rfl,
    rfl, rfl⟩
  · intro j' s c hc
    exact ((hu j' s c).mpr (.inl hc)).eq
  · intro j' s c hc hs
    rw [linkEntry_dat, Function.update_of_ne (hnea hc hs), Function.update_of_ne (hneb hc)]
  · intro j' s c hc hs
    simp [View.linkEntry, View.alloc, Function.update_of_ne (hnea hc hs), Function.update_of_ne (hneb hc)]
  · intro j' s c hc
    rcases (hu j' s c).mp hc with hc | ⟨rfl, rfl, rfl⟩
    · exact .inl hc
    · have hba : c ≠ a := fun hca => hneb hua hca.symm
      refine .inr ⟨?_, fun _ => ?_⟩
      · simp [View.linkEntry, View.alloc, hba]
      · rw [linkEntry_dat, Function.update_of_ne hba, Function.update_self]
  · intro c hc
    simp [View.linkEntry, View.alloc, Function.update_apply, hc]
  · intro c hc
    simp only [View.linkEntry, View.alloc, logWrite_dirty, bset_dirty, bzero_dirty, setBit_dirty, Set.mem_sdiff,
      Set.mem_insert_iff, Set.mem_singleton_iff] at hc
    exact (hc.1.resolve_left hc.2).1
  · simp [View.linkEntry, View.alloc]

end Grows

/-! ## The cases of `bmap` -/

/-- Element `k` of `addrs` is found or linked. -/
inductive MapsAddr (sb : Superblock) (i : ℕ) (k : Fin (NDIRECT + 1)) (v : View) : ℕ → View → Prop
  | old (hne : v.slot i (.addr k) ≠ 0) : MapsAddr sb i k v (v.slot i (.addr k)) v
  | new (b : ℕ) (hz : v.slot i (.addr k) = 0) (hf : FirstFree sb v.bit b) (hd : IsData sb b) :
    MapsAddr sb i k v b (v.linkAddr sb i k b)

/-- Entry `j` of the indirect block is found or linked. -/
inductive MapsEntry (sb : Superblock) (i : ℕ) (j : Fin NINDIRECT) (v : View) : ℕ → View → Prop
  | old (hne : v.slot i (.entry j) ≠ 0) : MapsEntry sb i j v (v.slot i (.entry j)) v
  | new (b : ℕ) (hz : v.slot i (.entry j) = 0) (hf : FirstFree sb v.bit b) (hd : IsData sb b) :
    MapsEntry sb i j v b (v.linkEntry sb (v.slot i .indirect) j b)

/-- Slot `s` of a file is found or linked: the block, and the view after it. -/
inductive Maps (sb : Superblock) (i : ℕ) (v : View) : Slot → ℕ → View → Prop
  | addr (k : Fin (NDIRECT + 1)) {b : ℕ} {v' : View} (h : MapsAddr sb i k v b v') : Maps sb i v (.addr k) b v'
  | entry (j : Fin NINDIRECT) {a b : ℕ} {v₁ v' : View} (ha : MapsAddr sb i (Fin.last NDIRECT) v a v₁)
    (h : MapsEntry sb i j v₁ b v') : Maps sb i v (.entry j) b v'

section Maps
variable {sb : Superblock} {v v' : View} {i b : ℕ}

theorem MapsAddr.grows {k : Fin (NDIRECT + 1)} (h : MapsAddr sb i k v b v') (hacct : Acct sb v) (hl : v.Live sb i) :
    Grows sb i v v' ∧ v'.Uses sb i (.addr k) b := by
  cases h with
  | old hne => exact ⟨.refl hacct, hl, rfl, hne⟩
  | new b hz hf hd =>
    refine ⟨.linkAddr hacct hl hz hf hd, (uses_linkAddr hacct hd hf.free hl hz i _ b).mpr (.inr ⟨rfl, rfl, rfl⟩)⟩

theorem MapsEntry.grows (hL : Layout sb) {j : Fin NINDIRECT} (h : MapsEntry sb i j v b v') (hacct : Acct sb v)
    (hl : v.Live sb i) (ha : v.slot i .indirect ≠ 0) : Grows sb i v v' ∧ v'.Uses sb i (.entry j) b := by
  cases h with
  | old hne => exact ⟨.refl hacct, hl, rfl, hne⟩
  | new b hz hf hd =>
    exact ⟨.linkEntry hL hacct hl rfl ha hz hf hd,
      (uses_linkEntry hacct hd (hd.lt hL) hf.free hl rfl ha hz i _ b).mpr (.inr ⟨rfl, rfl, rfl⟩)⟩

theorem Maps.grows (hL : Layout sb) {s : Slot} (h : Maps sb i v s b v') (hacct : Acct sb v) (hl : v.Live sb i) :
    Grows sb i v v' ∧ v'.Uses sb i s b := by
  cases h with
  | addr k h => exact h.grows hacct hl
  | entry j ha h =>
    obtain ⟨hg, hu⟩ := ha.grows hacct hl
    have hne : _ ≠ 0 := hu.eq ▸ hu.ne
    obtain ⟨hg', hu'⟩ := h.grows hL hg.acct hu.live hne
    exact ⟨hg.trans hg', hu'⟩

/-- A slot in use is found. -/
theorem Maps.of_uses {s : Slot} {c : ℕ} (hu : v.Uses sb i s c) (h : Maps sb i v s b v') : b = c ∧ v' = v := by
  cases h with
  | addr k h =>
    cases h with
    | old hne => exact ⟨hu.eq, rfl⟩
    | new b hz hf hd => exact absurd (hu.eq.symm.trans hz) hu.ne
  | entry j ha h =>
    have hne : v.slot i .indirect ≠ 0 := by
      intro hz
      have he := hu.eq
      have hz : (v.ino i).addrs (Fin.last NDIRECT) = 0 := hz
      rw [slot, if_pos hz] at he
      exact hu.ne he.symm
    cases ha with
    | old _ =>
      cases h with
      | old hne => exact ⟨hu.eq, rfl⟩
      | new b hz hf hd => exact absurd (hu.eq.symm.trans hz) hu.ne
    | new a hz hf hd => exact absurd hz hne

end Maps
end View

/-! ## The rules -/

namespace Env
variable {E : Env} {X : Kernel Unit} {v : View} {T : Finset ℕ} {n k i m : ℕ}

/-- There are `n` free blocks. -/
def HasFree (E : Env) (n : ℕ) (v : View) : Prop :=
  n ≤ (freeBlocks E.sb v.bit).card ∨ E.mode.panics "balloc: out of blocks"

theorem HasFree.exists {v : View} (h : E.HasFree (n + 1) v) :
    (∃ b < E.sb.size, v.bit b = false) ∨ E.mode.panics "balloc: out of blocks" := by
  refine h.imp_left fun hn => ?_
  obtain ⟨b, hb⟩ := Finset.card_pos.mp (Nat.lt_of_lt_of_le (Nat.succ_pos n) hn)
  simp only [freeBlocks, Finset.mem_filter, Finset.mem_range] at hb
  exact ⟨b, hb⟩

theorem HasFree.less {v : View} (h : E.HasFree n v) (hm : m ≤ n) : E.HasFree m v := h.imp_left hm.trans

/-- One free block is taken. -/
theorem HasFree.take {v : View} {b : ℕ} {bit : ℕ → Bool} (h : E.HasFree (n + 1) v)
    (hb : bit = Function.update v.bit b true) (v' : View) (hv : v'.bit = bit) : E.HasFree n v' := by
  refine h.imp_left fun hn => ?_
  have hsub : (freeBlocks E.sb v.bit).erase b ⊆ freeBlocks E.sb v'.bit := by
    intro c hc
    rw [Finset.mem_erase] at hc
    simp only [freeBlocks, Finset.mem_filter] at hc ⊢
    rw [hv, hb, Function.update_of_ne hc.1]
    exact hc.2
  have := Finset.card_le_card hsub
  have := Finset.pred_card_le_card_erase (s := freeBlocks E.sb v.bit) (a := b)
  omega

/-- The free blocks that are taken if slot `s` of file `i` has none. -/
def need (v : View) (i : ℕ) : Slot → ℕ
  | .addr _ => 1
  | .entry _ => if v.slot i .indirect = 0 then 2 else 1

/-- What is needed to link a block to slot `s`. -/
structure CanLink (E : Env) (T : Finset ℕ) (i : ℕ) (s : Slot) (v : View) : Prop where
  inOp : E.InOp v
  fits : E.Fits T 2 v
  free : E.HasFree (need v i s) v

theorem wp_bmapAddr {Φ : ℕ → Kernel Unit → View → Prop} {a : Fin (NDIRECT + 1)} (he : v.ent k = some (i, m))
    (hl : k ∈ v.loaded) (hi : i < E.sb.ninodes)
    (hz : v.slot i (.addr a) = 0 → E.InOp v ∧ E.Fits T n v ∧ E.HasFree (n + 1) v)
    (h : ∀ b v', View.MapsAddr E.sb i a v b v' → Φ b X v') : E.wp (bmapAddr E.sb k a) Φ X v := by
  refine wp_seq (wp_inodeGet he fun x _ _ hx => ?_)
  rw [hx hl, show (v.ino i).addrs a = v.slot i (.addr a) from rfl]
  by_cases hzero : v.slot i (.addr a) = 0
  · rw [if_pos hzero]
    obtain ⟨hin, hf, hfree⟩ := hz hzero
    refine wp_seq (wp_balloc hin hf hfree.exists fun b hff hd => ?_)
    refine wp_seq (wp_rep fun _ c _ hc => ?_)
    refine wp_modifyInode (v := (v.alloc E.sb b)) he hl ?_ (wp_ret (h b _ (.new b hzero hff hd)))
    have hsm := hc.small i hi
    refine ⟨hsm.size, fun j => ?_⟩
    by_cases hj : j = a
    · subst hj
      simpa [setAddr] using hd.lt E.layout
    · simpa [setAddr, hj] using hsm.addrs j
  · rw [if_neg hzero]
    exact wp_ret (h _ _ (.old hzero))

/-- Reading the indirect block, linking a block and writing its number back. -/
theorem linkEntry_eq {v : View} {sb : Superblock} {a b j : ℕ} (ha : a ∉ v.held) :
    (((((v.hold a (v.dat a)).alloc sb b).bset a (lePut (v.dat a) (4 * j) 4 b)).logWrite a).release a) =
      v.linkEntry sb a j b := by
  simp only [View.linkEntry, View.alloc, View.hold, View.bset, View.logWrite, View.release, View.setBit, View.bzero,
    Function.update_eq_self, Finset.erase_insert ha]

theorem wp_bmapEntry {Φ : ℕ → Kernel Unit → View → Prop} {a : ℕ} {j : Fin NINDIRECT} (hacct : Acct E.sb v)
    (hu : v.Uses E.sb i .indirect a) (hclean : a ∉ v.dirty) (hheld : v.held = ∅) (hr : E.Reads v)
    (hz : v.slot i (.entry j) = 0 → E.InOp v ∧ E.Fits T (n + 1) v ∧ a ∈ T ∧ E.HasFree (n + 1) v)
    (h : ∀ b v', View.MapsEntry E.sb i j v b v' → Φ b X v') :
    E.wp (do
      let bp ← bread a
      let b := leGet bp (4 * j) 4
      if b = 0 then do
        let b ← balloc E.sb
        bset a (lePut bp (4 * j) 4 b)
        logWrite a
        brelse a
        pure b
      else do
        brelse a
        pure b) Φ X v := by
  have hd := hacct.range _ _ _ hu
  have hnh : a ∉ v.held := by simp [hheld]
  have hslot : v.slot i (.entry j) = leGet (v.dat a) (4 * j) 4 := by
    have ha : (v.ino i).addrs (Fin.last NDIRECT) = a := hu.eq
    rw [View.slot, ha, if_neg hu.ne]
  refine wp_seq (wp_bread hd (hacct.used hu) hnh hr fun d hdat => ?_)
  obtain rfl := hdat.eq hclean
  dsimp only
  rw [← hslot]
  by_cases hzero : v.slot i (.entry j) = 0
  · rw [if_pos hzero]
    obtain ⟨hin, hf, haT, hfree⟩ := hz hzero
    have hf' : E.Fits T (n + 1) (v.hold a (v.dat a)) := by
      refine hf.keep fun _ => ?_
      intro y
      simp only [View.hold_held, View.hold_log, Finset.mem_union, Finset.mem_insert]
      rintro ((rfl | hy) | hy)
      · exact .inr haT
      · exact .inl (.inl hy)
      · exact .inl (.inr hy)
    refine wp_seq (wp_balloc hin hf' hfree.exists fun b hff hdb => ?_)
    have hf'' : E.Fits (insert b T) n (((v.hold a (v.dat a)).alloc E.sb b).bset a (lePut (v.dat a) (4 * j) 4 b)) :=
      (hf'.alloc hff.lt).keep fun _ => Finset.subset_union_left
    refine wp_seq (wp_bset (by simp [View.alloc]) (wp_seq (wp_logWrite (by simp [View.alloc]) ?_ hf'' ?_)))
    · simpa [InOp, View.alloc] using hin
    · refine wp_seq (wp_brelse (by simp [View.alloc]) (wp_ret ?_))
      have := h b _ (.new b hzero hff hdb)
      rw [hu.eq, ← linkEntry_eq hnh] at this
      exact this
  · rw [if_neg hzero]
    refine wp_seq (wp_brelse (by simp) (wp_ret ?_))
    rw [View.release_hold hnh]
    exact h _ _ (.old hzero)

theorem wp_bmap {Φ : ℕ → Kernel Unit → View → Prop} {bn : ℕ} {s : Slot} (hbn : Slot.of bn = some s)
    (he : v.ent k = some (i, m)) (hl : k ∈ v.loaded) (hlive : v.Live E.sb i) (hacct : Acct E.sb v)
    (hclean : ∀ a, v.Uses E.sb i .indirect a → a ∉ v.dirty) (hheld : v.held = ∅) (hr : E.Reads v)
    (hz : v.slot i s = 0 → E.CanLink T i s v)
    (h : ∀ b v', View.Maps E.sb i v s b v' → Φ b X v') : E.wp (bmap E.sb k bn) Φ X v := by
  unfold bmap
  unfold Slot.of at hbn
  split at hbn
  · rename_i hlt
    cases hbn
    rw [dif_pos hlt]
    refine wp_bmapAddr (n := 0) (T := T) he hl hlive.1 (fun h0 => ?_) fun b v' hm => h b v' (.addr _ hm)
    obtain ⟨hin, hf, hfree⟩ := hz h0
    exact ⟨hin, hf.less (Nat.zero_le _), hfree⟩
  · rename_i hlt
    rw [dif_neg hlt]
    split at hbn
    · rename_i hlt'
      cases hbn
      rw [if_pos hlt']
      -- without an indirect block the entry is 0
      have hz0 : v.slot i .indirect = 0 → v.slot i (.entry ⟨bn - NDIRECT, hlt'⟩) = 0 := by
        intro h0
        have h0 : (v.ino i).addrs (Fin.last NDIRECT) = 0 := h0
        rw [View.slot, if_pos h0]
      refine wp_seq (wp_bmapAddr (n := 1) (T := T) he hl hlive.1 (fun h0 => ?_) fun a v₁ hm => ?_)
      · obtain ⟨hin, hf, hfree⟩ := hz (hz0 h0)
        rw [need, if_pos h0] at hfree
        exact ⟨hin, hf.less (by omega), hfree⟩
      obtain ⟨hg, hu⟩ := hm.grows hacct hlive
      have hr₁ : E.Reads v₁ := by
        cases hm with
        | old hne => exact hr
        | new b h0 hff hd => exact ((hz (hz0 h0)).fits.alloc hff.lt).reads
      have hcl : a ∉ v₁.dirty := by
        rcases hg.fresh _ _ _ hu with hu | hnew
        · exact fun hm => hclean a hu (hg.dirty hm)
        · exact hnew.1
      refine wp_bmapEntry (v := v₁) (T := insert a T) (n := 0) (j := ⟨bn - NDIRECT, hlt'⟩) hg.acct hu hcl
        (by rw [hg.held, hheld]) hr₁ ?_ fun b v' hm' => h b v' (.entry _ hm hm')
      intro h0
      cases hm with
      | old hne =>
        obtain ⟨hin, hf, hfree⟩ := hz h0
        rw [need, if_neg hne] at hfree
        exact ⟨hin, hf.widen _, Finset.mem_insert_self .., hfree⟩
      | new b h0' hff hd =>
        obtain ⟨hin, hf, hfree⟩ := hz (hz0 h0')
        rw [need, if_pos h0'] at hfree
        exact ⟨by simpa [InOp, View.linkAddr, View.alloc] using hin, hf.alloc hff.lt, Finset.mem_insert_self ..,
          hfree.take rfl _ rfl⟩
    · cases hbn

end Env
end Xv6Arm

import Xv6Arm.Fs.Bmap

/-!
# Freeing blocks and inodes

`itrunc` frees the blocks of an inode slot by slot. While it runs the slots of
the indirect block still name blocks that are free already, so its loops are
described by the set of slots that are done.
-/
namespace Xv6Arm
open Lib

/-- The inode that `itrunc` leaves. -/
def Dinode.emptied (d : Dinode) : Dinode := { d with size := 0, addrs := fun _ => 0 }

namespace View

/-- The slots `S` of inode `i` are done. -/
structure Freed (sb : Superblock) (i : ℕ) (S : Set Slot) (v v' : View) : Prop where
  bit : ∀ b, v'.bit b = true ↔ v.bit b = true ∧ ∀ s ∈ S, ¬v.Uses sb i s b
  ino : ∀ j ≠ i, v'.ino j = v.ino j
  self : v'.ino i = { v.ino i with addrs := (v'.ino i).addrs }
  done : ∀ k, .addr k ∈ S → (v'.ino i).addrs k = 0
  todo : ∀ k, .addr k ∉ S → (v'.ino i).addrs k = (v.ino i).addrs k
  dsk : v'.dsk = v.dsk
  dat : v'.dat = v.dat
  dirty : v'.dirty = v.dirty
  outstanding : v'.log.outstanding = v.log.outstanding
  ent : v'.ent = v.ent
  locked : v'.locked = v.locked
  loaded : v'.loaded = v.loaded

/-- Inode `i` has given up its blocks. -/
structure Truncated (sb : Superblock) (i : ℕ) (v v' : View) : Prop where
  bit : ∀ b, v'.bit b = true ↔ v.bit b = true ∧ ∀ s, ¬v.Uses sb i s b
  ino : v'.ino = Function.update v.ino i (v.ino i).emptied
  dsk : v'.dsk = Function.update v.dsk i (v.ino i).emptied
  dat : v'.dat = v.dat
  dirty : v'.dirty = v.dirty
  held : v'.held = v.held
  outstanding : v'.log.outstanding = v.log.outstanding
  ent : v'.ent = v.ent
  locked : v'.locked = v.locked
  loaded : v'.loaded = v.loaded

namespace Freed
variable {sb : Superblock} {i b : ℕ} {S : Set Slot} {v v' : View}

theorem refl : Freed sb i ∅ v v :=
  ⟨by simp, fun _ _ => rfl, rfl, by simp, fun _ _ => rfl, rfl, rfl, rfl, rfl, rfl, rfl, rfl⟩

/-- A slot without a block. -/
theorem skip (h : Freed sb i S v v') {s : Slot} (hs : v.slot i s = 0) : Freed sb i (insert s S) v v' := by
  refine ⟨?_, h.ino, h.self, ?_, ?_, h.dsk, h.dat, h.dirty, h.outstanding, h.ent, h.locked, h.loaded⟩
  · intro b
    rw [h.bit b]
    refine and_congr_right fun _ => ⟨fun hb s' hs' => ?_, fun hb s' hs' => hb s' (.inr hs')⟩
    rcases hs' with rfl | hs'
    · rintro ⟨-, he, hne⟩
      exact hne (he.symm.trans hs)
    · exact hb s' hs'
  · rintro k (rfl | hk)
    · by_cases hk : .addr k ∈ S
      · exact h.done k hk
      · rw [h.todo k hk]
        exact hs
    · exact h.done k hk
  · intro k hk
    exact h.todo k fun hm => hk (.inr hm)

/-- The bit of the block of one more slot is cleared. -/
theorem bit_clear (h : Freed sb i S v v') {s : Slot} (hu : v.Uses sb i s b) (c : ℕ) :
    Function.update v'.bit b false c = true ↔ v.bit c = true ∧ ∀ t ∈ insert s S, ¬v.Uses sb i t c := by
  by_cases hcb : c = b
  · subst hcb
    simp only [Function.update_self, Bool.false_eq_true, false_iff, not_and]
    intro _ hn
    exact hn s (.inl rfl) hu
  · rw [Function.update_of_ne hcb, h.bit c]
    refine and_congr_right fun _ => ⟨fun hn t ht => ?_, fun hn t ht => hn t (.inr ht)⟩
    rcases ht with rfl | ht
    · intro hu'
      exact hcb (hu'.eq.symm.trans hu.eq)
    · exact hn t ht

theorem still_set (h : Freed sb i S v v') (hacct : Acct sb v) {s : Slot} (hu : v.Uses sb i s b) (hs : s ∉ S) :
    v'.bit b = true := by
  refine (h.bit b).mpr ⟨hacct.used hu, fun t ht hu' => hs ?_⟩
  rwa [(hacct.inj _ _ _ _ _ hu hu').2]

theorem freeAddr (h : Freed sb i S v v') {k : Fin (NDIRECT + 1)}
    (hu : v.Uses sb i (.addr k) b) :
    Freed sb i (insert (.addr k) S) v ((v'.setBit sb b false).setIno i (setAddr k 0 (v'.ino i))) := by
  refine ⟨h.bit_clear hu, ?_, ?_, ?_, ?_, h.dsk, h.dat, h.dirty, ?_, h.ent, h.locked, h.loaded⟩
  · intro j hj
    simp [hj, h.ino j hj]
  · simp only [setIno_ino, Function.update_self, setAddr]
    rw [h.self]
  · rintro k' (hk' | hk')
    · cases hk'
      simp [setAddr]
    · by_cases hkk : k' = k
      · simp [setAddr, hkk]
      · simpa [setAddr, hkk] using h.done k' hk'
  · intro k' hk'
    have hkk : k' ≠ k := fun h => hk' (.inl (by rw [h]))
    simpa [setAddr, hkk] using h.todo k' fun hm => hk' (.inr hm)
  · simpa using h.outstanding

theorem freeEntry (h : Freed sb i S v v') {j : Fin NINDIRECT} (hu : v.Uses sb i (.entry j) b) :
    Freed sb i (insert (.entry j) S) v (v'.setBit sb b false) := by
  refine ⟨h.bit_clear hu, h.ino, h.self, ?_, ?_, h.dsk, h.dat, h.dirty, ?_, h.ent, h.locked, h.loaded⟩
  · rintro k (hk | hk)
    · cases hk
    · exact h.done k hk
  · intro k hk
    exact h.todo k fun hm => hk (.inr hm)
  · simpa using h.outstanding

theorem hold_release (h : Freed sb i S v v') {d : Block} (hd : d = v'.dat b) : Freed sb i S v (v'.hold b d) :=
  ⟨h.bit, h.ino, h.self, h.done, h.todo, h.dsk, by simp [hd, h.dat], h.dirty, h.outstanding, h.ent, h.locked, h.loaded⟩

end Freed

namespace Truncated
variable {sb : Superblock} {i : ℕ} {v v' : View}

end Truncated
end View

/-! ## The loops of `itrunc` -/

namespace Env
variable {E : Env} {X : Kernel Unit} {v v' : View} {T : Finset ℕ} {n k i m : ℕ} {S : Set Slot}

theorem Fits.setIno {d : Dinode} (h : E.Fits T n v) : E.Fits T n (v.setIno i d) :=
  h.keep fun _ => Finset.subset_union_left

theorem wp_itruncDirect {Φ : Unit → Kernel Unit → View → Prop} {q : Fin NDIRECT} (hacct : Acct E.sb v)
    (hlive : v.Live E.sb i) (hfr : v.Freed E.sb i S v') (he : v'.ent k = some (i, m)) (hl : k ∈ v'.loaded)
    (hheld : v'.held = ∅) (hin : E.InOp v') (hf : E.Fits T n v')
    (h : ∀ v₁, v.Freed E.sb i (insert (.addr q.castSucc) S) v₁ → v₁.held = ∅ → E.Fits T n v₁ → Φ () X v₁) :
    E.wp (itruncDirect E.sb k q) Φ X v' := by
  refine wp_seq (wp_inodeGet he fun x _ _ hx => ?_)
  rw [hx hl]
  by_cases hz : (v'.ino i).addrs q.castSucc = 0
  · rw [if_neg (not_not.mpr hz)]
    by_cases hs : .addr q.castSucc ∈ S
    · rw [Set.insert_eq_of_mem hs] at h
      exact wp_ret (h v' hfr hheld hf)
    · exact wp_ret (h v' (hfr.skip ((hfr.todo _ hs).symm.trans hz)) hheld hf)
  · rw [if_pos hz]
    have hs : .addr q.castSucc ∉ S := fun hs => hz (hfr.done _ hs)
    have hu : v.Uses E.sb i (.addr q.castSucc) ((v'.ino i).addrs q.castSucc) := ⟨hlive, (hfr.todo _ hs).symm, hz⟩
    have hd := hacct.range _ _ _ hu
    refine wp_seq (wp_bfree hd (by simp [hheld]) (.inl (hfr.still_set hacct hu hs)) hin hf fun _ => ?_)
    refine wp_rep fun _ c _ hc => ?_
    have hsm := hc.small i hlive.1
    refine wp_modifyInode he hl ⟨hsm.size, fun j => ?_⟩ ?_
    · by_cases hj : j = q.castSucc
      · simp [setAddr, hj]
      · simpa [setAddr, hj] using hsm.addrs j
    · exact h _ (hfr.freeAddr hu) hheld (hf.setBit hd.2).setIno

theorem wp_eachDirect {Φ : Unit → Kernel Unit → View → Prop} {l : List (Fin NDIRECT)} (hacct : Acct E.sb v)
    (hlive : v.Live E.sb i) (hfr : v.Freed E.sb i S v') (he : v.ent k = some (i, m)) (hl : k ∈ v.loaded)
    (hheld : v'.held = ∅) (hin : E.InOp v) (hf : E.Fits T n v')
    (h : ∀ v₁, v.Freed E.sb i (S ∪ { s | ∃ q ∈ l, s = .addr q.castSucc }) v₁ → v₁.held = ∅ → E.Fits T n v₁ → Φ () X v₁) :
    E.wp (Prog.each (itruncDirect E.sb k) l) Φ X v' := by
  induction l generalizing S v' with
  | nil =>
    simp only [List.not_mem_nil, false_and, exists_false, Set.ofPred_false, Set.union_empty] at h
    exact wp_ret (h v' hfr hheld hf)
  | cons q l ih =>
    have hin' : E.InOp v' := by
      rw [InOp, hfr.outstanding]
      exact hin
    refine wp_seq (wp_itruncDirect hacct hlive hfr (by rw [hfr.ent]; exact he) (by rw [hfr.loaded]; exact hl) hheld hin' hf
      fun v₁ hfr₁ hheld₁ hf₁ => ih hfr₁ hheld₁ hf₁ fun v₂ hfr₂ => h v₂ ?_)
    have hset : (S ∪ { s | ∃ q' ∈ q :: l, s = Slot.addr (Fin.castSucc q') }) =
        insert (.addr q.castSucc) S ∪ { s | ∃ q ∈ l, s = .addr q.castSucc } := by
      ext s
      simp only [List.mem_cons, Set.mem_union, Set.mem_ofPred_eq, Set.mem_insert_iff, exists_eq_or_imp]
      tauto
    rwa [hset]

theorem wp_eachEntry {Φ : Unit → Kernel Unit → View → Prop} {l : List ℕ} {a : ℕ} (hacct : Acct E.sb v)
    (hu : v.Uses E.sb i .indirect a) (hfr : v.Freed E.sb i S v') (hheld : v'.held = {a}) (hin : E.InOp v)
    (hf : E.Fits T n v') (hl : ∀ q ∈ l, ∃ h : q < NINDIRECT, .entry ⟨q, h⟩ ∉ S) (hnodup : l.Nodup)
    (h : ∀ v₁, v.Freed E.sb i (S ∪ { s | ∃ j : Fin NINDIRECT, (j : ℕ) ∈ l ∧ s = .entry j }) v₁ → v₁.held = {a} →
      E.Fits T n v₁ → Φ () X v₁) : E.wp (Prog.each (itruncEntry E.sb (v.dat a)) l) Φ X v' := by
  induction l generalizing S v' with
  | nil =>
    simp only [List.not_mem_nil, false_and, exists_false, Set.ofPred_false, Set.union_empty] at h
    exact wp_ret (h v' hfr hheld hf)
  | cons q l ih =>
    obtain ⟨hq, hs⟩ := hl q List.mem_cons_self
    obtain ⟨hql, hnodup'⟩ := List.nodup_cons.mp hnodup
    have hslot : leGet (v.dat a) (4 * q) 4 = v.slot i (.entry ⟨q, hq⟩) := by
      have ha : (v.ino i).addrs (Fin.last NDIRECT) = a := hu.eq
      rw [View.slot, ha, if_neg hu.ne]
    have hrest : ∀ v₁, v.Freed E.sb i (insert (.entry ⟨q, hq⟩) S) v₁ → v₁.held = {a} → E.Fits T n v₁ →
        E.wp (Prog.each (itruncEntry E.sb (v.dat a)) l) Φ X v₁ := by
      intro v₁ hfr₁ hheld₁ hf₁
      refine ih hfr₁ hheld₁ hf₁ ?_ hnodup' fun v₂ hfr₂ => h v₂ ?_
      · intro q' hq'
        obtain ⟨hlt, hn⟩ := hl q' (List.mem_cons_of_mem _ hq')
        refine ⟨hlt, ?_⟩
        rintro (he | hm)
        · simp only [Slot.entry.injEq, Fin.mk.injEq] at he
          exact hql (he ▸ hq')
        · exact hn hm
      · have hset : (S ∪ { s | ∃ j : Fin NINDIRECT, (j : ℕ) ∈ q :: l ∧ s = .entry j }) =
            insert (.entry ⟨q, hq⟩) S ∪ { s | ∃ j : Fin NINDIRECT, (j : ℕ) ∈ l ∧ s = .entry j } := by
          ext s
          simp only [List.mem_cons, Set.mem_union, Set.mem_ofPred_eq, Set.mem_insert_iff]
          constructor
          · rintro (hs | ⟨j, rfl | hj, rfl⟩)
            · exact .inl (.inr hs)
            · exact .inl (.inl rfl)
            · exact .inr ⟨j, hj, rfl⟩
          · rintro ((rfl | hs) | ⟨j, hj, rfl⟩)
            · exact .inr ⟨⟨q, hq⟩, .inl rfl, rfl⟩
            · exact .inl hs
            · exact .inr ⟨j, .inr hj, rfl⟩
        rwa [hset]
    refine wp_seq ?_
    unfold itruncEntry
    rw [hslot]
    by_cases hz : v.slot i (.entry ⟨q, hq⟩) = 0
    · rw [if_neg (not_not.mpr hz)]
      exact wp_ret (hrest v' (hfr.skip hz) hheld hf)
    · rw [if_pos hz]
      have hue : v.Uses E.sb i (.entry ⟨q, hq⟩) (v.slot i (.entry ⟨q, hq⟩)) := ⟨hu.live, rfl, hz⟩
      have hd := hacct.range _ _ _ hue
      refine wp_bfree hd ?_ (.inl (hfr.still_set hacct hue hs)) ?_ hf fun _ => ?_
      · rw [hheld, Finset.mem_singleton]
        intro hea
        rw [hea] at hue
        cases (hacct.inj _ _ _ _ _ hue hu).2
      · rw [InOp, hfr.outstanding]
        exact hin
      · exact hrest _ (hfr.freeEntry hue) hheld (hf.setBit hd.2)

theorem wp_itruncIndirect {Φ : Unit → Kernel Unit → View → Prop} (hacct : Acct E.sb v) (hlive : v.Live E.sb i)
    (hclean : ∀ a, v.Uses E.sb i .indirect a → a ∉ v.dirty) (hfr : v.Freed E.sb i S v')
    (hS : ∀ s ∈ S, ∃ q : Fin NDIRECT, s = .addr q.castSucc) (he : v.ent k = some (i, m)) (hl : k ∈ v.loaded)
    (hheld : v'.held = ∅) (hin : E.InOp v) (hf : E.Fits T (n + 1) v')
    (h : ∀ v₁ T', v.Freed E.sb i (S ∪ { s | s = .indirect ∨ ∃ j, s = .entry j }) v₁ → v₁.held = ∅ → T ⊆ T' →
      E.Fits T' n v₁ → Φ () X v₁) : E.wp (itruncIndirect E.sb k) Φ X v' := by
  have he' : v'.ent k = some (i, m) := by rw [hfr.ent]; exact he
  have hl' : k ∈ v'.loaded := by rw [hfr.loaded]; exact hl
  have hin' : ∀ {v₁ S'}, v.Freed E.sb i S' v₁ → E.InOp v₁ := by
    intro v₁ S' hfr₁
    rw [InOp, hfr₁.outstanding]
    exact hin
  have hindS : Slot.indirect ∉ S := by
    intro hs
    obtain ⟨q, hq⟩ := hS _ hs
    simp only [Slot.addr.injEq, Fin.ext_iff, Fin.val_last, Fin.val_castSucc] at hq
    exact absurd q.isLt (by omega)
  have haddr : (v'.ino i).addrs (Fin.last NDIRECT) = v.slot i .indirect := hfr.todo _ hindS
  refine wp_seq (wp_inodeGet he' fun x _ _ hx => ?_)
  rw [hx hl', haddr]
  by_cases hz : v.slot i .indirect = 0
  · simp only [hz, ne_eq, not_true_eq_false, if_false]
    refine wp_ret (h v' T ?_ hheld subset_rfl (hf.less (Nat.le_succ n)))
    -- without an indirect block there are no entries
    have hzero : ∀ j, v.slot i (.entry j) = 0 := by
      intro j
      have hz : (v.ino i).addrs (Fin.last NDIRECT) = 0 := hz
      rw [View.slot, if_pos hz]
    refine ⟨fun b => ?_, hfr.ino, hfr.self, ?_, ?_, hfr.dsk, hfr.dat, hfr.dirty, hfr.outstanding, hfr.ent, hfr.locked,
      hfr.loaded⟩
    · rw [hfr.bit b]
      refine and_congr_right fun _ => ⟨fun hn s hs => ?_, fun hn s hs => hn s (.inl hs)⟩
      rcases hs with hs | rfl | ⟨j, rfl⟩
      · exact hn s hs
      · exact fun hu => hu.ne (hu.eq.symm.trans hz)
      · exact fun hu => hu.ne (hu.eq.symm.trans (hzero j))
    · rintro q (hq | hq | ⟨j, hj⟩)
      · exact hfr.done q hq
      · cases hq
        exact haddr.trans hz
      · cases hj
    · intro q hq
      exact hfr.todo q fun hs => hq (.inl hs)
  · simp only [ne_eq, hz, not_false_eq_true, if_true]
    have hu : v.Uses E.sb i .indirect (v.slot i .indirect) := ⟨hlive, rfl, hz⟩
    have hd := hacct.range _ _ _ hu
    have hnh : v.slot i .indirect ∉ v'.held := by simp [hheld]
    refine wp_seq (wp_bread hd (hfr.still_set hacct hu hindS) hnh hf.reads fun d hdat => ?_)
    obtain rfl := hdat.eq (by rw [hfr.dirty]; exact hclean _ hu)
    have hf₁ : E.Fits (insert (v.slot i .indirect) T) n (v'.hold (v.slot i .indirect) (v'.dat (v.slot i .indirect))) := by
      refine (hf.widen (v.slot i .indirect)).keep fun _ => ?_
      intro y
      simp only [View.hold_held, View.hold_log, Finset.mem_union, Finset.mem_insert]
      tauto
    rw [hfr.dat]
    rw [hfr.dat] at hf₁
    refine wp_seq (wp_eachEntry hacct hu (hfr.hold_release (b := v.slot i .indirect) (by rw [hfr.dat]))
      (by simp [hheld]) hin hf₁ ?_ List.nodup_range fun v₁ hfr₁ hheld₁ hf₂ => ?_)
    · intro q hq
      refine ⟨List.mem_range.mp hq, fun hs => ?_⟩
      obtain ⟨q', hq'⟩ := hS _ hs
      cases hq'
    refine wp_seq (wp_brelse (by simp [hheld₁]) ?_)
    have hfr₂ : v.Freed E.sb i (S ∪ { s | ∃ j : Fin NINDIRECT, (j : ℕ) ∈ List.range NINDIRECT ∧ s = .entry j })
        (v₁.release (v.slot i .indirect)) :=
      ⟨hfr₁.bit, hfr₁.ino, hfr₁.self, hfr₁.done, hfr₁.todo, hfr₁.dsk, hfr₁.dat, hfr₁.dirty, hfr₁.outstanding, hfr₁.ent,
        hfr₁.locked, hfr₁.loaded⟩
    have hheld₂ : (v₁.release (v.slot i .indirect)).held = ∅ := by simp [hheld₁]
    have hf₃ : E.Fits (insert (v.slot i .indirect) T) n (v₁.release (v.slot i .indirect)) :=
      hf₂.keep fun _ => (Finset.union_subset_union_left (Finset.erase_subset _ _)).trans Finset.subset_union_left
    refine wp_seq (wp_bfree hd (by simp) (.inl (hfr₂.still_set hacct hu ?_)) (hin' hfr₂) hf₃ fun _ => ?_)
    · rintro (hs | ⟨j, -, hj⟩)
      · exact hindS hs
      · cases hj
    refine wp_rep fun _ c _ hc => ?_
    have hsm := hc.small i hlive.1
    have he₂ : (v₁.release (v.slot i .indirect)).ent k = some (i, m) := by rw [hfr₂.ent]; exact he
    have hl₂ : k ∈ (v₁.release (v.slot i .indirect)).loaded := by rw [hfr₂.loaded]; exact hl
    refine wp_modifyInode he₂ hl₂ ⟨hsm.size, fun j => ?_⟩ ?_
    · by_cases hj : j = Fin.last NDIRECT
      · simp [setAddr, hj]
      · simpa [setAddr, hj] using hsm.addrs j
    · refine h _ _ ?_ hheld₂ (Finset.subset_insert _ _) (hf₃.setBit hd.2).setIno
      have hset : (S ∪ { s | s = Slot.indirect ∨ ∃ j, s = .entry j }) = insert .indirect
          (S ∪ { s | ∃ j : Fin NINDIRECT, (j : ℕ) ∈ List.range NINDIRECT ∧ s = .entry j }) := by
        ext s
        simp only [Set.mem_union, Set.mem_ofPred_eq, Set.mem_insert_iff, List.mem_range, Fin.is_lt, true_and]
        tauto
      rw [hset]
      exact hfr₂.freeAddr hu

theorem wp_itrunc {Φ : Unit → Kernel Unit → View → Prop} (hacct : Acct E.sb v) (hlive : v.Live E.sb i)
    (hclean : ∀ a, v.Uses E.sb i .indirect a → a ∉ v.dirty) (he : v.ent k = some (i, m)) (hl : k ∈ v.loaded)
    (hheld : v.held = ∅) (hin : E.InOp v) (hf : E.Fits T (n + 1) v) (hT : iblock E.sb i ∈ T)
    (h : ∀ v' T', v.Truncated E.sb i v' → T ⊆ T' → E.Fits T' n v' → Φ () X v') :
    E.wp (itrunc E.sb k) Φ X v := by
  refine wp_seq (wp_eachDirect hacct hlive .refl he hl hheld hin hf fun v₁ hfr₁ hheld₁ hf₁ => ?_)
  refine wp_seq (wp_itruncIndirect hacct hlive hclean hfr₁ ?_ he hl hheld₁ hin hf₁ fun v₂ T' hfr₂ hheld₂ hsub hf₂ => ?_)
  · rintro s (hs | ⟨q, -, rfl⟩)
    · cases hs
    · exact ⟨q, rfl⟩
  -- every slot is done
  have hall : ∀ s, s ∈ ∅ ∪ { s | ∃ q ∈ List.finRange NDIRECT, s = Slot.addr (Fin.castSucc q) } ∪
      { s | s = Slot.indirect ∨ ∃ j, s = .entry j } := by
    intro s
    cases s with
    | addr q =>
      by_cases hq : q = Fin.last NDIRECT
      · exact .inr (.inl (by rw [hq]))
      · exact .inl (.inr ⟨q.castPred hq, List.mem_finRange _, by simp⟩)
    | entry j => exact .inr (.inr ⟨j, rfl⟩)
  have he₂ : v₂.ent k = some (i, m) := by rw [hfr₂.ent]; exact he
  have hl₂ : k ∈ v₂.loaded := by rw [hfr₂.loaded]; exact hl
  have hino : { v₂.ino i with size := 0 } = (v.ino i).emptied := by
    rw [hfr₂.self]
    simp only [Dinode.emptied, Dinode.mk.injEq, true_and]
    funext q
    exact hfr₂.done q (hall _)
  refine wp_rep fun _ c _ hc => ?_
  refine wp_seq (wp_modifyInode he₂ hl₂ ⟨by simp, (hc.small i hlive.1).addrs⟩ ?_)
  refine wp_iupdate he₂ hl₂ hlive.1 ?_ hf₂.setIno ?_
  · simpa [InOp, hfr₂.outstanding] using hin
  refine h _ T' ⟨?_, ?_, ?_, hfr₂.dat, hfr₂.dirty, ?_, ?_, hfr₂.ent, hfr₂.locked, hfr₂.loaded⟩ hsub (hf₂.keep fun _ => ?_)
  · intro b
    refine (hfr₂.bit b).trans (and_congr_right fun _ => ⟨fun hn s => hn s (hall s), fun hn s _ => hn s⟩)
  · simp only [View.iupdate_ino, View.setIno_ino, hino]
    funext j
    by_cases hj : j = i
    · simp [hj]
    · simp [hj, hfr₂.ino j hj]
  · simp [hino, hfr₂.dsk]
  · simp [hheld₂, hheld]
  · simpa using hfr₂.outstanding
  · intro y
    simp only [View.iupdate_held, View.setIno_held, View.iupdate_log, View.setIno_log, Log.toFinset_append,
      Finset.mem_union, Finset.mem_insert]
    rintro (hy | rfl | hy)
    · exact .inl (.inl hy)
    · exact .inr (hsub hT)
    · exact .inl (.inr hy)

end Env

/-! ## Giving up a reference -/

/-- The inode that `iput` leaves of one that it frees. -/
def Dinode.released (d : Dinode) : Dinode := { d.emptied with type := 0 }

/-- The last reference to inode `i`, at entry `k`, is given up, and the inode is freed. -/
structure View.Released (sb : Superblock) (k i : ℕ) (v v' : View) : Prop where
  bit : ∀ b, v'.bit b = true ↔ v.bit b = true ∧ ∀ s, ¬v.Uses sb i s b
  ino : v'.ino = Function.update v.ino i (v.ino i).released
  dsk : v'.dsk = Function.update v.dsk i (v.ino i).released
  dat : v'.dat = v.dat
  dirty : v'.dirty = v.dirty
  held : v'.held = v.held
  outstanding : v'.log.outstanding = v.log.outstanding
  ent : v'.ent = Function.update v.ent k none
  locked : v'.locked = v.locked
  loaded : v'.loaded = v.loaded \ {k}

namespace View.Released
variable {sb : Superblock} {k i : ℕ} {v v' : View}

end View.Released

namespace Env
variable {E : Env} {X : Kernel Unit} {v : View} {T : Finset ℕ} {n k i m : ℕ}

/-- What `iput` needs to free an inode. -/
structure CanFree (E : Env) (T : Finset ℕ) (n i : ℕ) (v : View) : Prop where
  acct : Acct E.sb v
  live : v.Live E.sb i
  clean : ∀ a, v.Uses E.sb i .indirect a → a ∉ v.dirty
  held : v.held = ∅
  inOp : E.InOp v
  fits : E.Fits T (n + 1) v
  mem : iblock E.sb i ∈ T

theorem wp_iput {Φ : Unit → Kernel Unit → View → Prop} (he : v.ent k = some (i, m)) (hnl : m = 1 → k ∉ v.locked)
    (hs : m = 1 → v.ino i = v.dsk i) (hfree : m = 1 → (v.ino i).nlink = 0 → k ∈ v.loaded → E.CanFree T n i v)
    (h1 : ¬(m = 1 ∧ (v.ino i).nlink = 0 ∧ k ∈ v.loaded) → Φ () X (v.drop k))
    (h2 : m = 1 → (v.ino i).nlink = 0 → k ∈ v.loaded → ∀ v' T', v.Released E.sb k i v' → T ⊆ T' → E.Fits T' n v' →
      Φ () X v') : E.wp (iput E.sb k) Φ X v := by
  refine wp_seq (wp_iputTest he hnl hs (fun hm hnlink hload => ?_) fun hn => wp_ret (h1 hn))
  obtain ⟨hacct, hlive, hclean, hheld, hin, hf, hT⟩ := hfree hm hnlink hload
  have huses : ∀ {j s b}, (v.lock k).Uses E.sb j s b ↔ v.Uses E.sb j s b := View.uses_congr rfl rfl
  refine wp_seq (wp_itrunc (v := v.lock k) (hacct.congr rfl rfl rfl) hlive (fun a ha => hclean a (huses.mp ha)) he hload
    hheld hin (hf.keep fun _ => Finset.subset_union_left) hT fun v₁ T' htr hsub hf₁ => ?_)
  have he₁ : v₁.ent k = some (i, m) := by rw [htr.ent]; exact he
  have hload₁ : k ∈ v₁.loaded := by rw [htr.loaded]; exact hload
  have hino : { v₁.ino i with type := 0 } = (v.ino i).released := by
    simp [htr.ino, Dinode.released]
  refine wp_rep fun _ c _ hc => ?_
  refine wp_seq (wp_modifyInode he₁ hload₁ ⟨(hc.small i hlive.1).size, (hc.small i hlive.1).addrs⟩ ?_)
  refine wp_seq (wp_iupdate he₁ hload₁ hlive.1 ?_ hf₁.setIno ?_)
  · simpa [InOp, htr.outstanding] using hin
  refine wp_seq (wp_invalidate he₁ (by simp) (wp_seq (wp_releasesleep (by simp [he₁]) (wp_iputDrop he₁ (fun _ => by simp) (fun _ => by simp) ?_))))
  refine h2 hm hnlink hload _ T' ⟨?_, ?_, ?_, htr.dat, htr.dirty, htr.held, ?_, ?_, ?_, ?_⟩ hsub (hf₁.keep fun _ => ?_)
  · intro b
    refine (htr.bit b).trans (and_congr_right fun _ => ?_)
    exact forall_congr' fun s => not_congr huses
  · simp only [View.drop_ino, View.unlock_ino, View.unload_ino, View.iupdate_ino, View.setIno_ino, hino]
    simp [htr.ino]
  · simp [hino, htr.dsk]
  · simpa using htr.outstanding
  · simp [he₁, htr.ent, hm, View.dropEnt]
  · simp [htr.locked, Finset.erase_insert (hnl hm)]
  · ext l
    simp [he₁, hm, View.dropEnt, htr.loaded]
  · intro y
    simp only [View.drop_held, View.unlock_held, View.unload_held, View.iupdate_held, View.setIno_held, View.drop_log,
      View.unlock_log, View.unload_log, View.iupdate_log, View.setIno_log, Log.toFinset_append, Finset.mem_union,
      Finset.mem_insert]
    rintro (hy | rfl | hy)
    · exact .inl (.inl hy)
    · exact .inr (hsub hT)
    · exact .inl (.inr hy)

end Env
end Xv6Arm

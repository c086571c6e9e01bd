import Xv6Arm.Fs.Content

/-!
# Changes of the contents of a file

What `writei` does to the view, block after block: the bytes that were copied and
logged are the new contents, and those that a failed copy left in a buffer may be
seen or not. Other files, and the other bytes of this one, stay as they are.
-/
namespace Xv6Arm
open Lib

namespace View

/-- The bytes of block `b` are replaced and logged. -/
@[simps -fullyApplied] def write (b : ℕ) (d : Block) (v : View) : View :=
  { v with dat := Function.update v.dat b d, may := Function.update v.may b {d}, dirty := v.dirty \ {b},
           log := v.log.append b }

theorem write_eq {v : View} {b : ℕ} {d d' : Block} (hb : b ∉ v.held) :
    ((((v.hold b d).bset b d').logWrite b).release b) = v.write b d' := by
  simp [View.write, View.hold, View.bset, View.logWrite, View.release, Finset.erase_insert hb]

/-- The bytes of block `b` are replaced in its buffer only. -/
@[simps -fullyApplied] def smear (b : ℕ) (d : Block) (v : View) : View :=
  { v with dat := Function.update v.dat b d, may := Function.update v.may b (insert d (v.may b)),
           dirty := insert b v.dirty }

theorem smear_eq {v : View} {b : ℕ} {d d' : Block} (hb : b ∉ v.held) :
    (((v.hold b d).bset b d').release b) = v.smear b d' := by
  simp [View.smear, View.hold, View.bset, View.release, Finset.erase_insert hb]

/-- Bytes of file `i` may have changed and blocks may have been added to it; the rest is as it was. -/
structure Edits (sb : Superblock) (i : ℕ) (v v' : View) : Prop where
  acct : Acct sb v'
  ino : ∀ j ≠ i, v'.ino j = v.ino j
  self : v'.ino i = { v.ino i with addrs := (v'.ino i).addrs }
  slot : ∀ j s c, v.Uses sb j s c → v'.slot j s = c
  dat : ∀ j s c, j ≠ i → v.Uses sb j s c → s ≠ .indirect → v'.dat c = v.dat c
  may : ∀ j s c, j ≠ i → v.Uses sb j s c → s ≠ .indirect → v'.may c = v.may c
  bit : ∀ b, v.bit b = true → v'.bit b = true
  dsk : v'.dsk = v.dsk
  held : v'.held = v.held
  outstanding : v'.log.outstanding = v.log.outstanding
  ent : v'.ent = v.ent
  locked : v'.locked = v.locked
  loaded : v'.loaded = v.loaded

namespace Edits
variable {sb : Superblock} {i : ℕ} {v v' v'' : View}

theorem live (h : Edits sb i v v') (j : ℕ) : v'.Live sb j ↔ v.Live sb j := by
  by_cases hj : j = i
  · rw [Live, Live, hj, h.self]
  · rw [Live, Live, h.ino j hj]

theorem uses (h : Edits sb i v v') {j c : ℕ} {s : Slot} (hu : v.Uses sb j s c) : v'.Uses sb j s c :=
  ⟨(h.live j).mpr hu.live, h.slot j s c hu, hu.ne⟩

theorem block_eq (h : Edits sb i v v') {j bn : ℕ} (hl : v.Live sb j) (hb : v.block j bn ≠ 0) :
    v'.block j bn = v.block j bn := by
  cases hs : Slot.of bn with
  | none => exact absurd (by simp [View.block, hs]) hb
  | some s =>
    rw [View.block_eq j hs] at hb ⊢
    rw [View.block_eq j hs, h.slot j s _ ⟨hl, rfl, hb⟩]

theorem refl (h : Acct sb v) : Edits sb i v v :=
  ⟨h, fun _ _ => rfl, rfl, fun _ _ _ hu => hu.eq, fun _ _ _ _ _ _ => rfl, fun _ _ _ _ _ _ => rfl, fun _ => id, rfl, rfl, rfl,
    rfl, rfl, rfl⟩

theorem trans (h : Edits sb i v v') (h' : Edits sb i v' v'') : Edits sb i v v'' := by
  refine ⟨h'.acct, ?_, ?_, ?_, ?_, ?_, fun b hb => h'.bit b (h.bit b hb), h'.dsk.trans h.dsk, h'.held.trans h.held,
    h'.outstanding.trans h.outstanding, h'.ent.trans h.ent, h'.locked.trans h.locked, h'.loaded.trans h.loaded⟩
  · intro j hj
    rw [h'.ino j hj, h.ino j hj]
  · rw [h'.self, h.self]
  · intro j s c hu
    exact h'.slot j s c (h.uses hu)
  · intro j s c hj hu hs
    rw [h'.dat j s c hj (h.uses hu) hs, h.dat j s c hj hu hs]
  · intro j s c hj hu hs
    rw [h'.may j s c hj (h.uses hu) hs, h.may j s c hj hu hs]

end Edits

/-! ## A block of a file gets other bytes -/

section Poke
variable {sb : Superblock} {i off b : ℕ} {v v' w : View} {s : Slot} {e : Block}

theorem Maps.not_indirect (hL : Layout sb) (hs : Slot.of (off / BSIZE) = some s) (hm : Maps sb i v s b v')
    (hacct : Acct sb v) (hl : v.Live sb i) (j c : ℕ) (hc : v'.Uses sb j .indirect c) : c ≠ b := by
  rintro rfl
  obtain ⟨hg, hu⟩ := hm.grows hL hacct hl
  exact Slot.of_ne_indirect ((hg.acct.inj _ _ _ _ _ hu hc).2 ▸ hs)

theorem Maps.uses_poke (hL : Layout sb) (hs : Slot.of (off / BSIZE) = some s) (hm : Maps sb i v s b v')
    (hacct : Acct sb v) (hl : v.Live sb i) (hino : w.ino = v'.ino) (hdat : w.dat = Function.update v'.dat b e)
    (j : ℕ) (t : Slot) (c : ℕ) : w.Uses sb j t c ↔ v'.Uses sb j t c := by
  refine uses_same (fun j => by rw [hino]) (fun j => by rw [hino]) (fun j c hc => ?_) j t c
  rw [hdat, Function.update_of_ne (hm.not_indirect hL hs hacct hl j c hc)]

theorem Maps.slot_poke (hL : Layout sb) (hs : Slot.of (off / BSIZE) = some s) (hm : Maps sb i v s b v')
    (hacct : Acct sb v) (hl : v.Live sb i) (hino : w.ino = v'.ino) (hdat : w.dat = Function.update v'.dat b e)
    {j : ℕ} (hj : v.Live sb j) (t : Slot) : w.slot j t = v'.slot j t := by
  have hj' := ((hm.grows hL hacct hl).1.live j).mpr hj
  refine slot_congr (by rw [hino]) fun hz => ?_
  rw [hdat, Function.update_of_ne (hm.not_indirect hL hs hacct hl j _ ⟨hj', rfl, hz⟩)]

theorem Maps.block_poke (hL : Layout sb) (hs : Slot.of (off / BSIZE) = some s) (hm : Maps sb i v s b v')
    (hacct : Acct sb v) (hl : v.Live sb i) (hino : w.ino = v'.ino) (hdat : w.dat = Function.update v'.dat b e) (bn : ℕ) :
    w.block i bn = v'.block i bn := by
  cases ht : Slot.of bn with
  | none => simp [View.block, ht]
  | some t => rw [View.block_eq i ht, View.block_eq i ht, hm.slot_poke hL hs hacct hl hino hdat hl]

theorem Maps.edits (hL : Layout sb) (hs : Slot.of (off / BSIZE) = some s) (hm : Maps sb i v s b v')
    (hacct : Acct sb v) (hl : v.Live sb i) (hino : w.ino = v'.ino) (hdat : w.dat = Function.update v'.dat b e)
    (hmay : ∀ c ≠ b, w.may c = v'.may c) (hbit : w.bit = v'.bit) (hdsk : w.dsk = v'.dsk) (hheld : w.held = v'.held)
    (hout : w.log.outstanding = v'.log.outstanding) (hent : w.ent = v'.ent) (hlocked : w.locked = v'.locked)
    (hloaded : w.loaded = v'.loaded) : Edits sb i v w := by
  obtain ⟨hg, hu⟩ := hm.grows hL hacct hl
  have hother : ∀ {j t c}, j ≠ i → v.Uses sb j t c → c ≠ b := by
    rintro j t c hj hc rfl
    exact hj (hg.acct.inj _ _ _ _ _ (hg.uses hc) hu).1
  refine ⟨hg.acct.same (hm.uses_poke hL hs hacct hl hino hdat) hbit, ?_, ?_, ?_, ?_, ?_, ?_, hdsk.trans hg.dsk,
    hheld.trans hg.held, hout.trans hg.outstanding, hent.trans hg.ent, hlocked.trans hg.locked, hloaded.trans hg.loaded⟩
  · intro j hj
    rw [hino, hg.ino j hj]
  · rw [hino]
    exact hg.self
  · intro j t c hc
    rw [hm.slot_poke hL hs hacct hl hino hdat hc.live, hg.slot j t c hc]
  · intro j t c hj hc ht
    rw [hdat, Function.update_of_ne (hother hj hc), hg.dat j t c hc ht]
  · intro j t c hj hc ht
    rw [hmay c (hother hj hc), hg.may j t c hc ht]
  · rw [hbit]
    exact hg.bit

/-- A block that was there before: its bytes, and where the block that was looked up is. -/
theorem Maps.there (hL : Layout sb) (hs : Slot.of (off / BSIZE) = some s) (hm : Maps sb i v s b v')
    (hacct : Acct sb v) (hl : v.Live sb i) {bn : ℕ} (hb : v.block i bn ≠ 0) :
    v'.block i bn = v.block i bn ∧ v'.dat (v.block i bn) = v.dat (v.block i bn) ∧
      v'.may (v.block i bn) = v.may (v.block i bn) ∧ (v.block i bn = b → bn = off / BSIZE) := by
  obtain ⟨hg, hu⟩ := hm.grows hL hacct hl
  cases ht : Slot.of bn with
  | none => exact absurd (by simp [View.block, ht]) hb
  | some t =>
    have huv : v.Uses sb i t (v.block i bn) := ⟨hl, (View.block_eq i ht).symm, hb⟩
    have htne : t ≠ .indirect := fun h => Slot.of_ne_indirect (h ▸ ht)
    refine ⟨(View.block_eq i ht).trans (hg.slot i t _ huv), hg.dat i t _ huv htne, hg.may i t _ huv htne, fun he => ?_⟩
    have : t = s := (hg.acct.inj _ _ _ _ _ (hg.uses huv) (he ▸ hu)).2
    exact Slot.of_inj (this ▸ ht) hs

theorem Maps.block_off (hL : Layout sb) (hs : Slot.of (off / BSIZE) = some s) (hm : Maps sb i v s b v')
    (hacct : Acct sb v) (hl : v.Live sb i) : v'.block i (off / BSIZE) = b :=
  (View.block_eq i hs).trans (hm.grows hL hacct hl).2.eq

/-- The bytes in the window. -/
theorem putBytes_in {d : Block} {l : List UInt8} {q : ℕ} (hlen : l.length ≤ BSIZE - off % BSIZE) (hq : q < l.length) :
    (off + q) / BSIZE = off / BSIZE ∧ l[q]? = some (putBytes d (off % BSIZE) l ((off + q) % BSIZE)) := by
  obtain ⟨hdiv, hmod⟩ := in_block off (q := q) (by omega)
  refine ⟨hdiv, ?_⟩
  rw [hmod, putBytes, if_pos (by omega), Nat.add_sub_cancel_left]
  simp [hq]

/-- The bytes of the block outside the window. -/
theorem putBytes_out {d : Block} {l : List UInt8} {p : ℕ} (hp : p < off ∨ off + l.length ≤ p)
    (hdiv : p / BSIZE = off / BSIZE) : putBytes d (off % BSIZE) l (p % BSIZE) = d (p % BSIZE) := by
  refine putBytes_outside ?_
  have h1 := Nat.div_add_mod p BSIZE
  have h2 := Nat.div_add_mod off BSIZE
  rw [hdiv] at h1
  omega

end Poke

/-! ## Bytes of a file are replaced -/

/-- The bytes `l` have been written to file `i` from `off` on. -/
structure Wrote (sb : Superblock) (i off : ℕ) (l : List UInt8) (v v' : View) : Prop extends Edits sb i v v' where
  fresh : ∀ j s c, v'.Uses sb j s c → v.Uses sb j s c ∨ c ∉ v'.dirty
  block : ∀ p, off ≤ p → p < off + l.length → v'.block i (p / BSIZE) ≠ 0 ∧ v'.block i (p / BSIZE) ∉ v'.dirty
  new : ∀ q, q < l.length → l[q]? = some (v'.byte i (off + q))
  old : ∀ p, p < off ∨ off + l.length ≤ p → v.block i (p / BSIZE) ≠ 0 → v.block i (p / BSIZE) ∉ v.dirty →
    v'.byte i p = v.byte i p
  canNew : ∀ q, q < l.length → ∀ x ∈ v'.Can i (off + q), l[q]? = some x
  canOld : ∀ p, p < off ∨ off + l.length ≤ p → v.block i (p / BSIZE) ≠ 0 → v'.Can i p ⊆ v.Can i p
  dirty : v'.dirty ⊆ v.dirty

namespace Wrote
variable {sb : Superblock} {i off : ℕ} {l l' : List UInt8} {v v' v'' : View}

theorem refl (h : Acct sb v) : Wrote sb i off [] v v :=
  ⟨.refl h, fun _ _ _ hu => .inl hu, fun p h1 h2 => absurd h2 (by simp; omega), by simp, fun _ _ _ _ => rfl, by simp,
    fun _ _ _ => subset_rfl, subset_rfl⟩

theorem trans (hl : v.Live sb i) (h : Wrote sb i off l v v') (h' : Wrote sb i (off + l.length) l' v' v'') :
    Wrote sb i off (l ++ l') v v'' := by
  refine ⟨h.toEdits.trans h'.toEdits, ?_, ?_, ?_, ?_, ?_, ?_, h'.dirty.trans h.dirty⟩
  · intro j s c hu
    rcases h'.fresh j s c hu with hu' | hd
    · exact (h.fresh j s c hu').imp_right fun hd hm => hd (h'.dirty hm)
    · exact .inr hd
  · intro p hp hp'
    rw [List.length_append] at hp'
    by_cases hlt : p < off + l.length
    · obtain ⟨hb, hd⟩ := h.block p hp hlt
      rw [h'.block_eq ((h.live i).mpr hl) hb]
      exact ⟨hb, fun hm => hd (h'.dirty hm)⟩
    · exact h'.block p (by omega) (by omega)
  · intro q hq
    rw [List.length_append] at hq
    by_cases hlt : q < l.length
    · rw [List.getElem?_append_left hlt, h.new q hlt]
      obtain ⟨hb, hd⟩ := h.block (off + q) (by omega) (by omega)
      rw [h'.old (off + q) (.inl (by omega)) hb hd]
    · rw [List.getElem?_append_right (not_lt.mp hlt), h'.new (q - l.length) (by omega)]
      congr 2
      omega
  · intro p hp hb hd
    rw [List.length_append] at hp
    have hb' : v'.block i (p / BSIZE) = v.block i (p / BSIZE) := h.block_eq hl hb
    rw [h'.old p (by omega) (by rwa [hb']) (by rw [hb']; exact fun hm => hd (h.dirty hm)), h.old p (by omega) hb hd]
  · intro q hq x hx
    rw [List.length_append] at hq
    by_cases hlt : q < l.length
    · rw [List.getElem?_append_left hlt]
      exact h.canNew q hlt x (h'.canOld (off + q) (.inl (by omega)) (h.block (off + q) (by omega) (by omega)).1 hx)
    · rw [List.getElem?_append_right (not_lt.mp hlt)]
      refine h'.canNew (q - l.length) (by omega) x ?_
      rwa [show off + l.length + (q - l.length) = off + q by omega]
  · intro p hp hb
    rw [List.length_append] at hp
    have hb' : v'.block i (p / BSIZE) = v.block i (p / BSIZE) := h.block_eq hl hb
    exact (h'.canOld p (by omega) (by rwa [hb'])).trans (h.canOld p (by omega) hb)

/-- A block is found or linked, and bytes of it are replaced. -/
theorem turn (hL : Layout sb) {s : Slot} {b : ℕ} {d : Block} (hs : Slot.of (off / BSIZE) = some s)
    (hm : Maps sb i v s b v') (hacct : Acct sb v) (hl : v.Live sb i) (hlen : l.length ≤ BSIZE - off % BSIZE)
    (hd : v'.Sees b d) : Wrote sb i off l v (v'.write b (putBytes d (off % BSIZE) l)) := by
  obtain ⟨hg, hu⟩ := hm.grows hL hacct hl
  have huses := hm.uses_poke hL hs hacct hl (w := v'.write b (putBytes d (off % BSIZE) l)) rfl rfl
  have hblock := hm.block_poke hL hs hacct hl (w := v'.write b (putBytes d (off % BSIZE) l)) rfl rfl
  have hoff := hm.block_off hL hs hacct hl
  refine ⟨hm.edits hL hs hacct hl rfl rfl ?_ rfl rfl rfl ?_ rfl rfl rfl, ?_, ?_, ?_, ?_, ?_, ?_,
    Set.sdiff_subset.trans hg.dirty⟩
  · intro c hc
    rw [write_may, Function.update_of_ne hc]
  · simp
  · intro j t c hc
    exact (hg.fresh j t c ((huses j t c).mp hc)).imp_right fun hn hm => hn.1 hm.1
  · intro p hp hp'
    have hdiv := (putBytes_in (d := d) (q := p - off) hlen (by omega)).1
    rw [Nat.add_sub_cancel' hp] at hdiv
    rw [hblock, hdiv, hoff]
    exact ⟨hu.ne, fun hm => hm.2 rfl⟩
  · intro q hq
    obtain ⟨hdiv, hput⟩ := putBytes_in (d := d) hlen hq
    rw [View.byte, hblock, hdiv, hoff, write_dat, Function.update_self, hput]
  · intro p hp hb hdp
    obtain ⟨hb', hdat, -, hdiv⟩ := hm.there hL hs hacct hl hb
    rw [View.byte, hblock, hb', View.byte, write_dat]
    by_cases hpb : v.block i (p / BSIZE) = b
    · rw [hpb, Function.update_self, putBytes_out hp (hdiv hpb)]
      rw [hpb] at hdat hdp
      rw [← hdat, ← hd.eq fun hm => hdp (hg.dirty hm)]
    · rw [Function.update_of_ne hpb, hdat]
  · rintro q hq x ⟨e, he, rfl⟩
    obtain ⟨hdiv, hput⟩ := putBytes_in (d := d) hlen hq
    rw [hblock, hdiv, hoff, write_may, Function.update_self] at he
    rw [he, hput]
  · rintro p hp hb x ⟨e, he, rfl⟩
    obtain ⟨hb', -, hmay, hdiv⟩ := hm.there hL hs hacct hl hb
    rw [hblock, hb', write_may] at he
    by_cases hpb : v.block i (p / BSIZE) = b
    · rw [hpb, Function.update_self] at he
      rw [hpb] at hmay
      rw [he, putBytes_out hp (hdiv hpb)]
      exact ⟨d, by rw [hpb, ← hmay]; exact hd.may, rfl⟩
    · rw [Function.update_of_ne hpb, hmay] at he
      exact ⟨e, he, rfl⟩

end Wrote

/-- The bytes `l` have been written to file `i` from `off` on, and the next ones, `l'`, stored in a buffer only. -/
structure Broke (sb : Superblock) (i off : ℕ) (l l' : List UInt8) (v v' : View) : Prop extends Edits sb i v v' where
  fresh : ∀ j s c, v'.Uses sb j s c → v.Uses sb j s c ∨ c ∉ v'.dirty ∨ j = i ∧ s ≠ .indirect
  block : ∀ p, off ≤ p → p < off + l.length → v'.block i (p / BSIZE) ≠ 0
  canNew : ∀ q, q < l.length → ∀ x ∈ v'.Can i (off + q), l[q]? = some x
  canPart : ∀ q, q < l'.length → v.block i ((off + l.length + q) / BSIZE) ≠ 0 →
    ∀ x ∈ v'.Can i (off + l.length + q), l'[q]? = some x ∨ x ∈ v.Can i (off + l.length + q)
  canHit : ∀ q, q < l'.length → ∃ x ∈ v'.Can i (off + l.length + q), l'[q]? = some x
  canOld : ∀ p, p < off ∨ off + l.length + l'.length ≤ p → v.block i (p / BSIZE) ≠ 0 → v'.Can i p ⊆ v.Can i p
  dirty : ∀ c ∈ v'.dirty, c ∈ v.dirty ∨ ∃ s, s ≠ .indirect ∧ v'.Uses sb i s c

namespace Broke
variable {sb : Superblock} {i off : ℕ} {l l' : List UInt8} {v v' v'' : View}

/-- A block is found or linked, and bytes of it are replaced in its buffer. -/
theorem turn (hL : Layout sb) {s : Slot} {b : ℕ} {d : Block} (hs : Slot.of (off / BSIZE) = some s)
    (hm : Maps sb i v s b v') (hacct : Acct sb v) (hl : v.Live sb i) (hlen : l'.length ≤ BSIZE - off % BSIZE)
    (hd : v'.Sees b d) : Broke sb i off [] l' v (v'.smear b (putBytes d (off % BSIZE) l')) := by
  obtain ⟨hg, hu⟩ := hm.grows hL hacct hl
  have huses := hm.uses_poke hL hs hacct hl (w := v'.smear b (putBytes d (off % BSIZE) l')) rfl rfl
  have hblock := hm.block_poke hL hs hacct hl (w := v'.smear b (putBytes d (off % BSIZE) l')) rfl rfl
  have hoff := hm.block_off hL hs hacct hl
  have hne : s ≠ .indirect := fun h => Slot.of_ne_indirect (h ▸ hs)
  -- what a reader may get where there was a block
  have hcan : ∀ p x, v.block i (p / BSIZE) ≠ 0 → x ∈ (v'.smear b (putBytes d (off % BSIZE) l')).Can i p →
      (p / BSIZE = off / BSIZE ∧ d ∈ v.may (v.block i (p / BSIZE)) ∧ putBytes d (off % BSIZE) l' (p % BSIZE) = x) ∨
      x ∈ v.Can i p := by
    rintro p x hb ⟨e, he, rfl⟩
    obtain ⟨hb', -, hmay, hdiv⟩ := hm.there hL hs hacct hl hb
    rw [hblock, hb', smear_may] at he
    by_cases hpb : v.block i (p / BSIZE) = b
    · rw [hpb] at hmay ⊢
      rw [hpb, Function.update_self, Set.mem_insert_iff, hmay] at he
      rcases he with rfl | he
      · exact .inl ⟨hdiv hpb, hmay ▸ hd.may, rfl⟩
      · exact .inr ⟨e, by rwa [hpb], rfl⟩
    · rw [Function.update_of_ne hpb, hmay] at he
      exact .inr ⟨e, he, rfl⟩
  refine ⟨hm.edits hL hs hacct hl rfl rfl ?_ rfl rfl rfl rfl rfl rfl rfl, ?_, ?_, ?_, ?_, ?_, ?_, ?_⟩
  · intro c hc
    rw [smear_may, Function.update_of_ne hc]
  · intro j t c hc
    rcases hg.fresh j t c ((huses j t c).mp hc) with hc' | ⟨hn, -⟩
    · exact .inl hc'
    · by_cases hcb : c = b
      · subst hcb
        obtain ⟨rfl, rfl⟩ := hg.acct.inj _ _ _ _ _ ((huses j t c).mp hc) hu
        exact .inr (.inr ⟨rfl, hne⟩)
      · exact .inr (.inl fun hm => hm.elim hcb hn)
  · intro p hp hp'
    exact absurd hp' (by simp; omega)
  · simp
  · intro q hq hb x hx
    refine (hcan _ x hb hx).imp_left fun ⟨_, _, hput⟩ => ?_
    rw [← hput]
    exact (putBytes_in hlen hq).2
  · intro q hq
    obtain ⟨hdiv, hput⟩ := putBytes_in (d := d) hlen hq
    refine ⟨_, ⟨_, ?_, rfl⟩, hput⟩
    rw [List.length_nil, Nat.add_zero, hblock, hdiv, hoff, smear_may, Function.update_self]
    exact Set.mem_insert ..
  · intro p hp hb x hx
    rcases hcan p x hb hx with ⟨hdiv, hmem, hput⟩ | hx
    · rw [putBytes_out (by simpa using hp) hdiv] at hput
      exact ⟨d, hmem, hput⟩
    · exact hx
  · rintro c (rfl | hc)
    · exact .inr ⟨s, hne, (huses i s c).mpr hu⟩
    · exact .inl (hg.dirty hc)

/-- Bytes are written before. -/
theorem after {l₁ : List UInt8} (hl : v.Live sb i) (h : Wrote sb i off l v v')
    (h' : Broke sb i (off + l.length) l₁ l' v' v'') : Broke sb i off (l ++ l₁) l' v v'' := by
  have hstill : ∀ bn, v.block i bn ≠ 0 → v'.block i bn ≠ 0 := fun bn hb => by rwa [h.block_eq hl hb]
  have hlen : off + (l ++ l₁).length = off + l.length + l₁.length := by rw [List.length_append, Nat.add_assoc]
  refine ⟨h.toEdits.trans h'.toEdits, ?_, ?_, ?_, ?_, ?_, ?_, ?_⟩
  · intro j s c hu
    rcases h'.fresh j s c hu with hu' | hrest
    · rcases h.fresh j s c hu' with hu'' | hd
      · exact .inl hu''
      · by_cases hc : c ∈ v''.dirty
        · obtain ⟨s', hs', hu''⟩ := (h'.dirty c hc).resolve_left hd
          obtain ⟨rfl, rfl⟩ := h'.acct.inj _ _ _ _ _ hu hu''
          exact .inr (.inr ⟨rfl, hs'⟩)
        · exact .inr (.inl hc)
    · exact .inr hrest
  · intro p hp hp'
    rw [hlen] at hp'
    by_cases hlt : p < off + l.length
    · obtain ⟨hb, -⟩ := h.block p hp hlt
      rwa [h'.block_eq ((h.live i).mpr hl) hb]
    · exact h'.block p (not_lt.mp hlt) hp'
  · intro q hq x hx
    rw [List.length_append] at hq
    by_cases hlt : q < l.length
    · rw [List.getElem?_append_left hlt]
      exact h.canNew q hlt x (h'.canOld (off + q) (.inl (by omega)) (h.block (off + q) (by omega) (by omega)).1 hx)
    · rw [List.getElem?_append_right (not_lt.mp hlt)]
      refine h'.canNew (q - l.length) (by omega) x ?_
      rwa [show off + l.length + (q - l.length) = off + q by omega]
  · intro q hq hb x hx
    rw [hlen] at hb hx ⊢
    refine (h'.canPart q hq (hstill _ hb) x hx).imp_right fun hx => h.canOld _ (.inr (by omega)) hb hx
  · intro q hq
    rw [hlen]
    exact h'.canHit q hq
  · intro p hp hb x hx
    rw [hlen] at hp
    exact h.canOld p (by omega) hb (h'.canOld p (by omega) (hstill _ hb) hx)
  · intro c hc
    exact (h'.dirty c hc).imp_left fun hc => h.dirty hc

end Broke
end View
end Xv6Arm

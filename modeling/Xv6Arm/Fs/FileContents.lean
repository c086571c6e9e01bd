import Xv6Arm.Fs.Mount

/-!
# Files as sequences of bytes

`writei` replaces a part of the sequence or adds to it, `readi` returns a part of
it, and the sequences of the other files stay as they are.
-/
namespace Xv6Arm
open Lib

/-- `l` with the bytes from `off` on replaced by those of `new`. -/
def splice (l : List UInt8) (off : ℕ) (new : List UInt8) : List UInt8 :=
  l.take off ++ new ++ l.drop (off + new.length)

section Splice
variable {l new : List UInt8} {off : ℕ}

theorem length_splice (h : off ≤ l.length) : (splice l off new).length = max l.length (off + new.length) := by
  simp only [splice, List.length_append, List.length_take, List.length_drop]
  omega

theorem getElem?_splice (h : off ≤ l.length) (p : ℕ) :
    (splice l off new)[p]? = if off ≤ p ∧ p < off + new.length then new[p - off]? else l[p]? := by
  have htake : (l.take off).length = off := List.length_take_of_le h
  unfold splice
  by_cases h1 : p < off
  · rw [if_neg (by omega), List.getElem?_append_left (by rw [List.length_append]; omega),
      List.getElem?_append_left (by omega), List.getElem?_take_of_lt h1]
  · by_cases h2 : p < off + new.length
    · rw [if_pos (by omega), List.getElem?_append_left (by rw [List.length_append]; omega),
        List.getElem?_append_right (by omega), htake]
    · rw [if_neg (by omega), List.getElem?_append_right (by rw [List.length_append]; omega), List.length_append, htake,
        List.getElem?_drop]
      congr 1
      omega

end Splice

namespace View
variable {sb : Superblock} {v v' : View} {i j k off n : ℕ} {l : List UInt8}

theorem length_contents (v : View) (i : ℕ) : (v.contents i).length = (v.ino i).size := by simp [contents]

theorem getElem?_contents (v : View) (i p : ℕ) :
    (v.contents i)[p]? = if p < (v.ino i).size then some (v.byte i p) else none := by
  unfold contents
  split
  · simp [*]
  · simp
    omega

theorem contents_congr (hsize : (v'.ino i).size = (v.ino i).size)
    (hbyte : ∀ p < (v.ino i).size, v'.byte i p = v.byte i p) : v'.contents i = v.contents i := by
  unfold contents
  rw [hsize]
  exact List.map_congr_left fun p hp => hbyte p (List.mem_range.mp hp)

/-! ## The size of a file -/

@[simp] theorem resize_dat : (v.resize sb i off).dat = v.dat := rfl
@[simp] theorem resize_may : (v.resize sb i off).may = v.may := rfl
@[simp] theorem resize_bit : (v.resize sb i off).bit = v.bit := rfl
@[simp] theorem resize_dirty : (v.resize sb i off).dirty = v.dirty := rfl
@[simp] theorem resize_held : (v.resize sb i off).held = v.held := rfl
@[simp] theorem resize_ent : (v.resize sb i off).ent = v.ent := rfl
@[simp] theorem resize_locked : (v.resize sb i off).locked = v.locked := rfl
@[simp] theorem resize_loaded : (v.resize sb i off).loaded = v.loaded := rfl

theorem resize_self : (v.resize sb i off).ino i = { v.ino i with size := max (v.ino i).size off } := by
  simp [resize, Dinode.reach_eq]

theorem resize_ino (hj : j ≠ i) : (v.resize sb i off).ino j = v.ino j := by simp [resize, hj]

theorem resize_addrs (j : ℕ) : ((v.resize sb i off).ino j).addrs = (v.ino j).addrs := by
  by_cases hj : j = i
  · rw [hj, resize_self]
  · rw [resize_ino hj]

theorem resize_live (j : ℕ) : (v.resize sb i off).Live sb j ↔ v.Live sb j := by
  by_cases hj : j = i
  · rw [Live, Live, hj, resize_self]
  · rw [Live, Live, resize_ino hj]

theorem resize_slot (j : ℕ) (s : Slot) : (v.resize sb i off).slot j s = v.slot j s :=
  slot_congr (resize_addrs j) fun _ => rfl

theorem resize_block (j bn : ℕ) : (v.resize sb i off).block j bn = v.block j bn := by
  simp only [block]
  cases Slot.of bn with
  | none => rfl
  | some s => exact resize_slot j s

theorem resize_byte (j p : ℕ) : (v.resize sb i off).byte j p = v.byte j p := by
  rw [byte, byte, resize_block, resize_dat]

theorem resize_uses (j : ℕ) (s : Slot) (b : ℕ) : (v.resize sb i off).Uses sb j s b ↔ v.Uses sb j s b :=
  ⟨fun h => ⟨(resize_live j).mp h.live, (resize_slot j s).symm.trans h.eq, h.ne⟩,
    fun h => ⟨(resize_live j).mpr h.live, (resize_slot j s).trans h.eq, h.ne⟩⟩

/-! ## A file in order -/

/-- Entry `k` of the inode cache has a copy of the allocated inode `i`, whose blocks are those of no other
file, are there up to its size and have not been changed without a `log_write`. -/
structure Consistent (sb : Superblock) (v : View) (k i : ℕ) : Prop where
  ent : ∃ m, v.ent k = some (i, m)
  loaded : k ∈ v.loaded
  live : v.Live sb i
  acct : Acct sb v
  solid : v.Solid i
  clean : ∀ s b, v.Uses sb i s b → b ∉ v.dirty
  held : v.held = ∅

theorem Consistent.opened {E : Env} (h : v.Consistent E.sb k i) : E.Opened k i v :=
  ⟨h.ent, h.loaded, h.live, h.acct, h.clean .indirect, h.held⟩

theorem Consistent.block_clean (h : v.Consistent sb k i) {p : ℕ} (hp : p < (v.ino i).size) :
    v.block i (p / BSIZE) ∉ v.dirty := by
  have hb := h.solid.block hp
  cases hs : Slot.of (p / BSIZE) with
  | none => exact absurd (by simp [block, hs]) hb
  | some s => exact h.clean s _ ⟨h.live, (View.block_eq i hs).symm, hb⟩

theorem Consistent.size_le (h : v.Consistent sb k i) : (v.ino i).size ≤ MAXFILE * BSIZE := by
  by_contra hlt
  have hb := h.solid.block (p := MAXFILE * BSIZE) (not_le.mp hlt)
  rw [Nat.mul_div_cancel _ (by decide)] at hb
  exact hb (by simp [block, Slot.of, MAXFILE])

/-- What a reader gets of a file in order. -/
theorem Consistent.slice (h : v.Consistent sb k i) (hn : off + n ≤ (v.ino i).size) (hl : Env.Slice v i off n l) :
    l = ((v.contents i).drop off).take n := by
  apply List.ext_getElem?
  intro q
  by_cases hq : q < n
  · rw [List.getElem?_take_of_lt hq, List.getElem?_drop, getElem?_contents, if_pos (by omega)]
    exact hl.byte q hq (h.block_clean (by omega))
  · rw [List.getElem?_eq_none (by rw [hl.length]; omega), List.getElem?_eq_none (by simp; omega)]

theorem Wrote.size (h : Wrote sb i off l v v') : (v'.ino i).size = (v.ino i).size := by rw [h.self]

/-- The sequence of a file after `writei`. -/
theorem Wrote.contents (h : Wrote sb i off l v v') (hc : v.Consistent sb k i) (hoff : off ≤ (v.ino i).size)
    (hlen : l.length = n) : (v'.written sb i off n).contents i = splice (v.contents i) off l := by
  have hbytes : ∀ p, off ≤ p ∧ p < off + l.length ∨ p < (v.ino i).size →
      some (v'.byte i p) = (splice (v.contents i) off l)[p]? := by
    intro p hp
    rw [getElem?_splice (by rwa [length_contents])]
    by_cases hin : off ≤ p ∧ p < off + l.length
    · rw [if_pos hin, h.new (p - off) (by omega), Nat.add_sub_cancel' hin.1]
    · have hlt := hp.resolve_left hin
      rw [if_neg hin, getElem?_contents, if_pos hlt, h.old p (by omega) (hc.solid.block hlt) (hc.block_clean hlt)]
  have hsize : ((v'.written sb i off n).ino i).size = max (v.ino i).size (off + l.length) := by
    unfold written
    split
    · rw [h.size, max_eq_left (by omega)]
    · rw [resize_self, h.size, hlen]
  have hbyte : ∀ p, (v'.written sb i off n).byte i p = v'.byte i p := by
    intro p
    unfold written
    split
    · rfl
    · exact resize_byte i p
  apply List.ext_getElem?
  intro p
  rw [getElem?_contents, hsize, hbyte]
  split
  · exact hbytes p (by omega)
  · rw [List.getElem?_eq_none]
    rw [length_splice (by rwa [length_contents]), length_contents]
    omega

/-- The file is in order again. -/
theorem Wrote.consistent (h : Wrote sb i off l v v') (hc : v.Consistent sb k i) (hoff : off ≤ (v.ino i).size)
    (hlen : l.length = n) : (v'.written sb i off n).Consistent sb k i := by
  obtain ⟨m, he⟩ := hc.ent
  have hclean : ∀ s b, v'.Uses sb i s b → b ∉ v'.dirty := by
    intro s b hu
    rcases h.fresh i s b hu with hu' | hd
    · exact fun hm => hc.clean s b hu' (h.dirty hm)
    · exact hd
  have hsolid : ∀ bn, bn * BSIZE < max (v.ino i).size (off + l.length) → v'.block i bn ≠ 0 := by
    intro bn hbn
    by_cases hlt : bn * BSIZE < (v.ino i).size
    · rw [h.block_eq hc.live (hc.solid bn hlt)]
      exact hc.solid bn hlt
    · have := (h.block (bn * BSIZE) (by omega) (by omega)).1
      rwa [Nat.mul_div_cancel bn (by decide)] at this
  unfold written
  split
  · refine ⟨⟨m, by rw [h.ent, he]⟩, by rw [h.loaded]; exact hc.loaded, (h.live i).mpr hc.live, h.acct, ?_, hclean,
      by rw [h.held, hc.held]⟩
    intro bn hbn
    rw [h.size] at hbn
    exact hsolid bn (by omega)
  · refine ⟨⟨m, by rw [resize_ent, h.ent, he]⟩, by rw [resize_loaded, h.loaded]; exact hc.loaded,
      (resize_live i).mpr ((h.live i).mpr hc.live), h.acct.same resize_uses rfl, ?_, ?_, by rw [resize_held, h.held, hc.held]⟩
    · intro bn hbn
      rw [resize_self, h.size, ← hlen] at hbn
      rw [resize_block]
      exact hsolid bn hbn
    · intro s b hu
      exact hclean s b ((resize_uses i s b).mp hu)

theorem Edits.byte (h : Edits sb i v v') (hj : j ≠ i) (hl : v.Live sb j) {p : ℕ} (hb : v.block j (p / BSIZE) ≠ 0) :
    v'.byte j p = v.byte j p := by
  cases hs : Slot.of (p / BSIZE) with
  | none => exact absurd (by simp [View.block, hs]) hb
  | some s =>
    have hu : v.Uses sb j s (v.block j (p / BSIZE)) := ⟨hl, (View.block_eq j hs).symm, hb⟩
    rw [View.byte, View.byte, h.block_eq hl hb, h.dat j s _ hj hu fun hi => Slot.of_ne_indirect (hi ▸ hs)]

/-- The sequences of the other files after `writei`. -/
theorem Wrote.other (h : Wrote sb i off l v v') (hj : j ≠ i) (hl : v.Live sb j) (hs : v.Solid j) :
    (v'.written sb i off n).contents j = v.contents j := by
  have hc : v'.contents j = v.contents j :=
    contents_congr (by rw [h.ino j hj]) fun p hp => h.toEdits.byte hj hl (hs.block hp)
  unfold written
  split
  · exact hc
  · refine Eq.trans (contents_congr ?_ fun p _ => resize_byte j p) hc
    rw [resize_ino hj]

end View

/-! ## Sources and destinations -/

/-- The first bytes that can be read from the source are those of `l`. -/
def Src.Supplies (vm : Vm) (l : List UInt8) : Src → Prop
  | .kernel l₁ => l <+: l₁
  | .user pagetable va => ∀ q < l.length, vm.user pagetable (va + q) = l[q]?

/-- `n` bytes can be written to the destination. -/
def Dst.Writable (vm : Vm) (n : ℕ) : Dst → Prop
  | .kernel => True
  | .page _ _ => True
  | .user pagetable va => ∃ own sz, vm.mem.AddressSpace own pagetable sz ∧ ∀ q < n, Mapped sz (va + q)

/-- The destination has got the bytes `l`, and the rest of it is as it was. -/
def Dst.Got (vm : Vm) (l : List UInt8) (vm' : Vm) : Dst → Prop
  | .kernel => vm' = vm
  | .page pa off => vm' = vm.write pa off l
  | .user pagetable va =>
    ∀ x, vm'.user pagetable x = if dist va x < l.length then l[dist va x]? else vm.user pagetable x

theorem Src.Supplies.source (E : Env) {vm : Vm} {l : List UInt8} {src : Src} (h : src.Supplies vm l) :
    ∃ D : Source E, D.ok [] l.length src vm ∧
      (∀ l' src' vm', D.ok l' 0 src' vm' → l'.length = l.length → l' = l ∧ vm' = vm) ∧
      ∀ l' vm', D.fails l' vm' → l.length ≤ l'.length := by
  cases src with
  | kernel l₁ =>
    obtain ⟨l₂, rfl⟩ := h
    refine ⟨.kernel E l vm, ⟨l, l₂, rfl, rfl, rfl, rfl⟩, ?_, fun _ _ hf => hf.elim⟩
    rintro l' src' vm' ⟨l₁, l₂, -, rfl, hnil, rfl⟩ _
    simp [List.eq_nil_of_length_eq_zero hnil]
  | user pagetable va =>
    refine ⟨.user E pagetable va vm, ⟨rfl, ⟨va, rfl, rfl⟩, by simp⟩, ?_, ?_⟩
    · rintro l' src' vm' ⟨rfl, -, hbytes⟩ hlen
      refine ⟨List.ext_getElem? fun q => ?_, rfl⟩
      by_cases hq : q < l.length
      · rw [← hbytes q (by omega), h q hq]
      · rw [List.getElem?_eq_none (by omega), List.getElem?_eq_none (by omega)]
    · rintro l' vm' ⟨-, -, hnone⟩
      by_contra hlt
      rw [not_le] at hlt
      have := h l'.length hlt
      rw [hnone, List.getElem?_eq_getElem hlt] at this
      cases this

theorem Dst.Writable.sink (E : Env) {vm : Vm} {n : ℕ} {dst : Dst} (h : dst.Writable vm n) (hn : n < 2 ^ 32) :
    ∃ D : Sink E, D.ok [] n dst vm ∧ (∀ l dst' vm', D.ok l 0 dst' vm' → dst.Got vm l vm') ∧ ∀ vm', ¬D.fails vm' := by
  cases dst with
  | kernel => exact ⟨.kernel E vm, ⟨rfl, rfl⟩, fun _ _ _ h => h.2, fun _ => id⟩
  | page pa off =>
    refine ⟨.page E pa off vm, ⟨rfl, ?_⟩, fun _ _ _ h => h.2, fun _ => id⟩
    exact (Vm.write_nil vm pa off).symm
  | user pagetable va =>
    obtain ⟨own, sz, has, hmap⟩ := h
    refine ⟨.user E own pagetable sz va vm, ⟨has, ⟨va, rfl, rfl⟩, by simpa using hn.le, ?_, by simp⟩, ?_, fun _ => id⟩
    · simpa using hmap
    · rintro l dst' vm' ⟨-, -, -, -, huser⟩
      exact huser

/-! ## `writei` and `readi` -/

/-- The blocks in the log and those of the free map. -/
def View.logSet (sb : Superblock) (v : View) : Finset ℕ := v.log.lh.toFinset ∪ (Finset.range sb.size).image (bblock sb)

/-- The log has room for `t` blocks of a file, its indirect block, its inode and the free map. -/
def LogRoom (sb : Superblock) (v : View) (t : ℕ) : Prop :=
  (v.logSet sb).card + t + 2 < LOGSIZE ∧ (v.logSet sb).card + t + 3 < sb.nlog

/-- The panics of `writei` of `n` bytes at `off`. -/
def WriteiPanics (sb : Superblock) (v : View) (i off n : ℕ) (msg : String) : Prop :=
  (off ≤ (v.ino i).size ∧ off + n ≤ MAXFILE * BSIZE) ∧
    (msg = "balloc: out of blocks" ∧ (freeBlocks sb v.bit).card < Env.needs v i (Env.blocks off n) ∨
      msg = "log_write outside of trans" ∧ v.log.outstanding < 1 ∨
      (msg = "too big a transaction" ∨ msg = "bget: no buffers") ∧ ¬LogRoom sb v (Env.turns off n))

/-- Where these panics are allowed there is room. -/
theorem Env.room_of_panics {E : Env} {v : View} {i off n : ℕ}
    (hp : ∀ msg, WriteiPanics E.sb v i off n msg → E.mode.panics msg)
    (hcap : E.cap = (v.logSet E.sb).card + turns off n + 2) (hheld : v.held = ∅) (h1 : off ≤ (v.ino i).size)
    (h2 : off + n ≤ MAXFILE * BSIZE) :
    E.Stock (v.logSet E.sb) (turns off n) i v ∧ E.HasFree (needs v i (blocks off n)) v := by
  refine ⟨⟨?_, .inl ?_⟩, ?_⟩
  · by_cases ho : 1 ≤ v.log.outstanding
    · exact .inl ho
    · exact .inr (hp _ ⟨⟨h1, h2⟩, .inr (.inl ⟨rfl, by omega⟩)⟩)
  · by_cases hr : LogRoom E.sb v (turns off n)
    · refine .inl ⟨?_, fun b hb => ?_, by omega, by rw [hcap]; exact hr.1, by rw [hcap]; exact hr.2⟩
      · rw [hheld, Finset.empty_union]
        exact Finset.subset_union_left
      · exact Finset.mem_union_right _ (Finset.mem_image_of_mem _ (Finset.mem_range.mpr hb))
    · exact .inr ⟨hp _ ⟨⟨h1, h2⟩, .inr (.inr ⟨.inr rfl, hr⟩)⟩, hp _ ⟨⟨h1, h2⟩, .inr (.inr ⟨.inl rfl, hr⟩)⟩⟩
  · by_cases hle : needs v i (blocks off n) ≤ (freeBlocks E.sb v.bit).card
    · exact .inl hle
    · exact .inr (hp _ ⟨⟨h1, h2⟩, .inl ⟨rfl, by omega⟩⟩)

theorem Env.reads_of_panics {E : Env} {v : View} (hheld : v.held = ∅)
    (hp : NBUF ≤ v.log.lh.length → E.mode.panics "bget: no buffers") : E.Reads v := by
  by_cases hlt : v.log.lh.length < NBUF
  · refine .inl (lt_of_le_of_lt ?_ hlt)
    rw [hheld, Finset.empty_union]
    exact List.toFinset_card_le _
  · exact .inr (hp (by omega))

/-- What `writei` of the bytes `l` at `off` comes to. -/
def Writes (sb : Superblock) (me k i off : ℕ) (l : List UInt8) (X : Kernel Unit) (v : View) :
    Outcome ℤ KState → Prop
  | .done r t => ∃ v', Holds sb me X v' t ∧
    if off ≤ (v.ino i).size ∧ off + l.length ≤ MAXFILE * BSIZE then
      r = l.length ∧ v'.contents i = splice (v.contents i) off l ∧ v'.Consistent sb k i ∧
        ∀ j ≠ i, v.Live sb j → v.Solid j → v'.contents j = v.contents j
    else r = -1 ∧ v' = v
  | .panic msg => WriteiPanics sb v i off l.length msg
  | .blocked => False

/-- What `readi` of `n` bytes at `off` comes to. -/
def ReadsBack (sb : Superblock) (me i off n : ℕ) (dst : Dst) (X : Kernel Unit) (v : View) :
    Outcome (Option (List UInt8)) KState → Prop
  | .done r t => r = some (((v.contents i).drop off).take n) ∧ ∃ vm, Holds sb me { X with vm := vm } v t ∧
    dst.Got X.vm (((v.contents i).drop off).take n) vm
  | .panic msg => msg = "bget: no buffers" ∧ NBUF ≤ v.log.lh.length
  | .blocked => False

section Contents
variable {sb : Superblock} {me k i off : ℕ} {X : Kernel Unit} {v : View} {s : KState}

theorem writei_contents (hL : Layout sb) (hs : Holds sb me X v s) (hc : v.Consistent sb k i) {src : Src}
    {l : List UInt8} (hsrc : src.Supplies X.vm l) (hn : l.length < 2 ^ 32) :
    Writes sb me k i off l X v ((writei sb k src off l.length).run (kStep me) s) := by
  let E : Env := ⟨sb, hL, me, ⟨WriteiPanics sb v i off l.length, False, fun _ => True⟩,
    (v.logSet sb).card + Env.turns off l.length + 2⟩
  have hroom := fun h1 h2 => Env.room_of_panics (E := E) (fun _ => id) rfl hc.held h1 h2
  obtain ⟨D, hok, hall, hfail⟩ := hsrc.source E
  have hwp : E.wp (writei sb k src off l.length) (fun r Y v' => Y = X ∧
      if off ≤ (v.ino i).size ∧ off + l.length ≤ MAXFILE * BSIZE then
        r = l.length ∧ v'.contents i = splice (v.contents i) off l ∧ v'.Consistent sb k i ∧
          ∀ j ≠ i, v.Live sb j → v.Solid j → v'.contents j = v.contents j
      else r = -1 ∧ v' = v) X v := by
    refine Env.wp_writei D (View.Consistent.opened (E := E) hc) hn (fun h1 h2 => (hroom h1 h2).1)
      (fun h1 h2 => (hroom h1 h2).2) hok ?_ ?_ ?_
    · intro hbad
      rw [if_neg (by omega)]
      exact ⟨rfl, rfl, rfl⟩
    · intro T' l' v' vm src' h1 h2 _ hlen hw _ hok'
      obtain ⟨rfl, rfl⟩ := hall l' src' vm hok' hlen
      rw [if_pos ⟨h1, h2⟩]
      exact ⟨rfl, rfl, hw.contents hc h1 rfl, hw.consistent hc h1 rfl, fun j hj hl hsol => hw.other hj hl hsol⟩
    · intro T' l₁ l' v' vm h1 h2 _ hlen _ _ _ _ hf
      have := hfail _ _ hf
      rw [List.length_append] at this
      omega
  have hrun := E.run hwp hs
  generalize (writei sb k src off l.length).run (kStep me) s = o at hrun ⊢
  cases o with
  | done r t =>
    obtain ⟨Y, v', ht, rfl, hpost⟩ := hrun
    exact ⟨v', ht, hpost⟩
  | panic msg => exact hrun
  | blocked => exact hrun

theorem readi_contents (hL : Layout sb) (hs : Holds sb me X v s) (hc : v.Consistent sb k i) {dst : Dst} {n : ℕ}
    (hn : off + n < 2 ^ 32) (hdst : dst.Writable X.vm (min n ((v.ino i).size - off))) :
    ReadsBack sb me i off n dst X v ((readi sb k dst off n).run (kStep me) s) := by
  let E : Env := ⟨sb, hL, me, ⟨fun msg => msg = "bget: no buffers" ∧ NBUF ≤ v.log.lh.length, False, fun _ => True⟩, 0⟩
  have hr : E.Reads v := Env.reads_of_panics hc.held fun hle => ⟨rfl, hle⟩
  have hlen : Env.readLen (v.ino i).size off n = min n ((v.ino i).size - off) := if_pos hn
  obtain ⟨D, hok, hgot, hfail⟩ := hdst.sink E (by omega)
  have hwp : E.wp (readi sb k dst off n) (fun r Y v' => v' = v ∧ r = some (((v.contents i).drop off).take n) ∧
      ∃ vm, Y = { X with vm := vm } ∧ dst.Got X.vm (((v.contents i).drop off).take n) vm) X v := by
    refine Env.wp_readi D (View.Consistent.opened (E := E) hc) hr hc.solid (by omega) (by rwa [hlen]) ?_
      fun vm hf => absurd hf (hfail vm)
    intro l vm dst' hl hok'
    rw [hlen] at hl
    have hslice : l = ((v.contents i).drop off).take n := by
      by_cases hoff : off ≤ (v.ino i).size
      · rw [hc.slice (by omega) hl, List.take_eq_take_iff, List.length_drop, View.length_contents]
        omega
      · obtain rfl := List.eq_nil_of_length_eq_zero (hl.length.trans (by omega))
        rw [List.drop_eq_nil_of_le (by rw [View.length_contents]; omega), List.take_nil]
    have := hgot l dst' vm hok'
    rw [hslice] at this ⊢
    exact ⟨rfl, rfl, vm, rfl, this⟩
  have hrun := E.run hwp hs
  generalize (readi sb k dst off n).run (kStep me) s = o at hrun ⊢
  cases o with
  | done r t =>
    obtain ⟨Y, v', ht, rfl, rfl, vm, rfl, hpost⟩ := hrun
    exact ⟨rfl, vm, ht, hpost⟩
  | panic msg => exact hrun
  | blocked => exact hrun

/-- `writei` and `readi` on a file in order. -/
theorem file_contents (hL : Layout sb) (hs : Holds sb me X v s) (hc : v.Consistent sb k i) :
    (∀ off src l, Src.Supplies X.vm l src → l.length < 2 ^ 32 →
      Writes sb me k i off l X v ((writei sb k src off l.length).run (kStep me) s)) ∧
    ∀ off n dst, off + n < 2 ^ 32 → Dst.Writable X.vm (min n ((v.ino i).size - off)) dst →
      ReadsBack sb me i off n dst X v ((readi sb k dst off n).run (kStep me) s) :=
  ⟨fun _ _ _ hsrc hn => writei_contents hL hs hc hsrc hn, fun _ _ _ hn hdst => readi_contents hL hs hc hn hdst⟩

end Contents

/-! ### The empty file of the small disk -/

theorem small_file : (View.opened small smallDisk (only 0 2) 0).Consistent small 0 2 := by
  refine ⟨⟨1, rfl⟩, rfl, ⟨by decide, by decide +kernel⟩, smallDisk_acct.congr rfl rfl rfl, fun bn hbn => ?_,
    fun s b _ => id, rfl⟩
  have hsize : ((View.opened small smallDisk (only 0 2) 0).ino 2).size = 0 := by decide +kernel
  omega

theorem file_contents_small :
    Writes small 0 0 2 0 [7] bare (.opened small smallDisk (only 0 2) 0)
        ((writei small 0 (.kernel [7]) 0 1).run (kStep 0) (openState small smallDisk 0 (only 0 2) 0 bare)) ∧
      ReadsBack small 0 2 0 5 .kernel bare (.opened small smallDisk (only 0 2) 0)
        ((readi small 0 .kernel 0 5).run (kStep 0) (openState small smallDisk 0 (only 0 2) 0 bare)) := by
  obtain ⟨hw, hr⟩ := file_contents small_layout (holds_only 0 bare (by decide) smallDisk_used) small_file
  exact ⟨hw 0 (.kernel [7]) [7] (List.prefix_refl _) (by decide), hr 0 5 .kernel (by decide) trivial⟩

/-- A write of 29 blocks, which are free, does not fit in one transaction. -/
theorem writei_too_big : ∃ v s src l, Holds small 0 bare v s ∧ v.Consistent small 0 2 ∧ 1 ≤ v.log.outstanding ∧
    v.log.lh = [] ∧ Src.Supplies bare.vm l src ∧ 0 + l.length ≤ MAXFILE * BSIZE ∧
    Env.needs v 2 (Env.blocks 0 l.length) ≤ (freeBlocks small v.bit).card ∧
    (writei small 0 src 0 l.length).run (kStep 0) s = .panic "too big a transaction" := by
  refine ⟨_, _, .kernel (List.replicate (29 * 1024) 7), List.replicate (29 * 1024) 7,
    holds_only 0 bare (by decide) smallDisk_used, small_file, by decide, rfl, List.prefix_refl _, ?_, ?_, ?_⟩
  · rw [List.length_replicate]
    decide
  · rw [List.length_replicate]
    decide +kernel
  · rw [List.length_replicate]
    exact Outcome.eq_panic (by decide +kernel)

end Xv6Arm

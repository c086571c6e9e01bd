import Xv6Arm.Fs.Inode

/-!
# The format of the disk

Where `mkfs` puts things, and what one write to an inode block or to a block of
the free map does to the inodes and the bits of that block.
-/
namespace Xv6Arm
open Lib

/-! ## Areas -/

/-- The log, the inodes, the free map and the data blocks follow each other. -/
structure Layout (sb : Superblock) : Prop where
  log_le : sb.logstart + sb.nlog ≤ sb.inodestart
  inodes_lt : sb.inodestart + sb.ninodes / IPB < sb.bmapstart
  size_le : sb.size ≤ 2 ^ 32

/-- The first data block. -/
def datastart (sb : Superblock) : ℕ := sb.bmapstart + sb.size / BPB + 1

def IsData (sb : Superblock) (b : ℕ) : Prop := datastart sb ≤ b ∧ b < sb.size

section Areas
variable {sb : Superblock} {i b : ℕ}

theorem iblock_ge : sb.inodestart ≤ iblock sb i := Nat.le_add_left _ _

theorem Layout.iblock_lt (h : Layout sb) (hi : i < sb.ninodes) : iblock sb i < sb.bmapstart := by
  have hle : i / IPB ≤ sb.ninodes / IPB := Nat.div_le_div_right hi.le
  have := h.inodes_lt
  unfold iblock
  omega

theorem bblock_ge : sb.bmapstart ≤ bblock sb b := Nat.le_add_left _ _

theorem bblock_lt (hb : b < sb.size) : bblock sb b < datastart sb := by
  have hle : b / BPB ≤ sb.size / BPB := Nat.div_le_div_right hb.le
  unfold bblock datastart
  omega

theorem bmapstart_lt_datastart : sb.bmapstart < datastart sb := Nat.lt_succ_of_le (Nat.le_add_right _ _)

theorem IsData.ne_zero (hb : IsData sb b) : b ≠ 0 := by
  have := bmapstart_lt_datastart.trans_le hb.1
  omega

theorem IsData.lt (h : Layout sb) (hb : IsData sb b) : b < 2 ^ 32 := hb.2.trans_le h.size_le

theorem Layout.inodestart_le_bblock (h : Layout sb) : sb.inodestart ≤ bblock sb b :=
  ((Nat.le_add_right _ _).trans h.inodes_lt.le).trans bblock_ge

theorem Layout.inodestart_le_data (h : Layout sb) (hb : IsData sb b) : sb.inodestart ≤ b :=
  ((Nat.le_add_right _ _).trans h.inodes_lt.le).trans (bmapstart_lt_datastart.trans_le hb.1).le

end Areas

/-! ## Inodes in a block -/

/-- The values that the fields of a `struct dinode` can hold. -/
structure Small (x : Dinode) : Prop where
  size : x.size < 2 ^ 32
  addrs : ∀ j, x.addrs j < 2 ^ 32

theorem small_getDinode (d : Block) (k : ℕ) : Small (getDinode d k) where
  size := leGet_lt d _ 4
  addrs _ := leGet_lt d _ 4

theorem getShort_putShort (d : Block) (o : ℕ) (x : Int16) : getShort (putShort d o x) o = x := by
  have hx : Int16.ofNat x.toUInt16.toNat = ⟨UInt16.ofNat x.toUInt16.toNat⟩ := rfl
  rw [getShort, putShort, leGet_lePut_of_lt x.toUInt16.toNat_lt, hx, UInt16.ofNat_toNat]

theorem getShort_putShort_ne {d : Block} {o o' : ℕ} {x : Int16} (h : o' + 2 ≤ o ∨ o + 2 ≤ o') :
    getShort (putShort d o x) o' = getShort d o' := by
  rw [getShort, getShort, putShort, leGet_lePut_disjoint h]

theorem getShort_lePut {d : Block} {o o' w v : ℕ} (h : o' + 2 ≤ o ∨ o + w ≤ o') :
    getShort (lePut d o w v) o' = getShort d o' := by
  rw [getShort, getShort, leGet_lePut_disjoint h]

theorem getShort_lePuts {d : Block} {o o' w : ℕ} (l : List ℕ) (h : o' + 2 ≤ o ∨ o + w * l.length ≤ o') :
    getShort (lePuts d o w l) o' = getShort d o' := by
  rw [getShort, getShort]
  rcases h with h | h
  · rw [leGet_lePuts_before l h]
  · rw [leGet_lePuts_after l h]

theorem leGet_putShort {d : Block} {o o' w : ℕ} {x : Int16} (h : o' + w ≤ o ∨ o + 2 ≤ o') :
    leGet (putShort d o x) o' w = leGet d o' w := leGet_lePut_disjoint h

theorem getDinode_putDinode (d : Block) (k : ℕ) {x : Dinode} (hx : Small x) :
    getDinode (putDinode d k x) k = x := by
  have haddrs : (fun j : Fin (NDIRECT + 1) => leGet (putDinode d k x) (64 * k + 12 + 4 * j) 4) = x.addrs := by
    funext j
    have hlt : ∀ v ∈ List.ofFn x.addrs, v < 256 ^ 4 := by
      intro v hv
      obtain ⟨i, rfl⟩ := List.mem_ofFn.mp hv
      exact hx.addrs i
    rw [putDinode, leGet_lePuts hlt j (by simp), List.getElem_ofFn]
  have hlen : 64 * k + 12 + 4 * (List.ofFn x.addrs).length = 64 * k + 64 := by simp
  cases x
  simp only [getDinode, Dinode.mk.injEq]
  refine ⟨?_, ?_, ?_, ?_, ?_, haddrs⟩
  · rw [putDinode, getShort_lePuts _ (by omega), getShort_lePut (by omega), getShort_putShort_ne (by omega),
      getShort_putShort_ne (by omega), getShort_putShort_ne (by omega), getShort_putShort]
  · rw [putDinode, getShort_lePuts _ (by omega), getShort_lePut (by omega), getShort_putShort_ne (by omega),
      getShort_putShort_ne (by omega), getShort_putShort]
  · rw [putDinode, getShort_lePuts _ (by omega), getShort_lePut (by omega), getShort_putShort_ne (by omega),
      getShort_putShort]
  · rw [putDinode, getShort_lePuts _ (by omega), getShort_lePut (by omega), getShort_putShort]
  · rw [putDinode, leGet_lePuts_before _ (by omega), leGet_lePut_of_lt hx.size]

theorem leGet_putDinode_ne {d : Block} {k o w : ℕ} (x : Dinode) (h : o + w ≤ 64 * k ∨ 64 * k + 64 ≤ o) :
    leGet (putDinode d k x) o w = leGet d o w := by
  have hlen : 64 * k + 12 + 4 * (List.ofFn x.addrs).length = 64 * k + 64 := by simp
  rw [putDinode]
  rcases h with h | h
  · rw [leGet_lePuts_before _ (by omega), leGet_lePut_disjoint (by omega), leGet_putShort (by omega),
      leGet_putShort (by omega), leGet_putShort (by omega), leGet_putShort (by omega)]
  · rw [leGet_lePuts_after _ (by omega), leGet_lePut_disjoint (by omega), leGet_putShort (by omega),
      leGet_putShort (by omega), leGet_putShort (by omega), leGet_putShort (by omega)]

theorem getDinode_putDinode_ne (d : Block) {k k' : ℕ} (x : Dinode) (h : k' ≠ k) :
    getDinode (putDinode d k x) k' = getDinode d k' := by
  have haddrs : (fun j : Fin (NDIRECT + 1) => leGet (putDinode d k x) (64 * k' + 12 + 4 * j) 4) =
      fun j : Fin (NDIRECT + 1) => leGet d (64 * k' + 12 + 4 * j) 4 := by
    funext j
    have hj : (j : ℕ) < 13 := j.isLt
    exact leGet_putDinode_ne x (by omega)
  simp only [getDinode, getShort, Dinode.mk.injEq]
  refine ⟨?_, ?_, ?_, ?_, ?_, haddrs⟩
  · rw [leGet_putDinode_ne x (by omega)]
  · rw [leGet_putDinode_ne x (by omega)]
  · rw [leGet_putDinode_ne x (by omega)]
  · rw [leGet_putDinode_ne x (by omega)]
  · rw [leGet_putDinode_ne x (by omega)]

/-- Two inodes share a slot of a block only if they are the same. -/
theorem inum_eq {sb : Superblock} {i i' : ℕ} (hb : iblock sb i' = iblock sb i) (hk : i' % IPB = i % IPB) :
    i' = i := by
  unfold iblock at hb
  have h1 := Nat.div_add_mod i IPB
  have h2 := Nat.div_add_mod i' IPB
  have : i' / IPB = i / IPB := by omega
  rw [this, hk] at h2
  omega

/-! ## Bits of the free map -/

/-- Whether bit `bi` of a block of the free map is set. -/
def getBit (d : Block) (bi : ℕ) : Bool := decide (d (bi / 8) &&& bitMask bi ≠ 0)

theorem getBit_eq_false {d : Block} {bi : ℕ} : getBit d bi = false ↔ d (bi / 8) &&& bitMask bi = 0 := by
  simp [getBit]

theorem toBitVec_bit (i : Fin 8) : (1 <<< UInt8.ofNat i : UInt8).toBitVec = BitVec.twoPow 8 i := by
  revert i
  decide

theorem and_bit_ne_zero (y : UInt8) (j : Fin 8) : y &&& (1 <<< UInt8.ofNat j) ≠ 0 ↔ y.toBitVec.getLsbD j = true := by
  rw [ne_eq, ← UInt8.toBitVec_inj, UInt8.toBitVec_and, toBitVec_bit, BitVec.and_twoPow]
  have hpow : BitVec.twoPow 8 j ≠ 0#8 := by
    revert j
    decide
  cases y.toBitVec.getLsbD j <;> simp [hpow]

theorem byte_markBit : ∀ x : Fin 256, ∀ i j : Fin 8,
    (UInt8.ofNat x ||| 1 <<< UInt8.ofNat i) &&& (1 <<< UInt8.ofNat j) ≠ 0 ↔
      i = j ∨ UInt8.ofNat x &&& (1 <<< UInt8.ofNat j) ≠ 0 := by
  intro x i j
  rw [and_bit_ne_zero, and_bit_ne_zero, UInt8.toBitVec_or, BitVec.getLsbD_or, toBitVec_bit, BitVec.getLsbD_twoPow,
    Bool.or_eq_true, or_comm]
  simp [Fin.ext_iff]

theorem byte_clearBit : ∀ x : Fin 256, ∀ i j : Fin 8,
    (UInt8.ofNat x &&& ~~~(1 <<< UInt8.ofNat i)) &&& (1 <<< UInt8.ofNat j) ≠ 0 ↔
      i ≠ j ∧ UInt8.ofNat x &&& (1 <<< UInt8.ofNat j) ≠ 0 := by
  intro x i j
  rw [and_bit_ne_zero, and_bit_ne_zero, UInt8.toBitVec_and, BitVec.getLsbD_and, UInt8.toBitVec_not, BitVec.getLsbD_not,
    toBitVec_bit, BitVec.getLsbD_twoPow, Bool.and_eq_true, and_comm]
  simp [Fin.ext_iff]

section Bits
variable (d : Block) (bi bj : ℕ)

theorem getBit_markBit : getBit (markBit d bi) bj = (decide (bj = bi) || getBit d bj) := by
  by_cases h8 : bj / 8 = bi / 8
  · have hb := byte_markBit ⟨(d (bi / 8)).toNat, (d (bi / 8)).toNat_lt⟩ ⟨bi % 8, by omega⟩ ⟨bj % 8, by omega⟩
    simp only [UInt8.ofNat_toNat, Fin.mk.injEq] at hb
    have he : bi % 8 = bj % 8 ↔ bj = bi := by omega
    rw [he] at hb
    rw [getBit, getBit, markBit, h8, Function.update_self, bitMask, bitMask, ← Bool.decide_or]
    exact decide_eq_decide.mpr hb
  · have hne : bj ≠ bi := fun h => h8 (by rw [h])
    simp [getBit, markBit, Function.update_of_ne h8, hne]

theorem getBit_clearBit : getBit (clearBit d bi) bj = (decide (bj ≠ bi) && getBit d bj) := by
  by_cases h8 : bj / 8 = bi / 8
  · have hb := byte_clearBit ⟨(d (bi / 8)).toNat, (d (bi / 8)).toNat_lt⟩ ⟨bi % 8, by omega⟩ ⟨bj % 8, by omega⟩
    simp only [UInt8.ofNat_toNat, ne_eq, Fin.mk.injEq] at hb
    have he : bi % 8 = bj % 8 ↔ bj = bi := by omega
    rw [he] at hb
    rw [getBit, getBit, clearBit, h8, Function.update_self, bitMask, bitMask, ← Bool.decide_and]
    exact decide_eq_decide.mpr hb
  · have hne : bj ≠ bi := fun h => h8 (by rw [h])
    simp [getBit, clearBit, Function.update_of_ne h8, hne]

end Bits

/-- Two blocks share a bit of the free map only if they are the same. -/
theorem block_eq {sb : Superblock} {b b' : ℕ} (hb : bblock sb b' = bblock sb b) (hk : b' % BPB = b % BPB) :
    b' = b := by
  unfold bblock at hb
  have h1 := Nat.div_add_mod b BPB
  have h2 := Nat.div_add_mod b' BPB
  have : b' / BPB = b / BPB := by omega
  rw [this, hk] at h2
  omega

end Xv6Arm

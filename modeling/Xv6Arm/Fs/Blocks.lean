import Xv6Arm.Fs.Sections

/-!
# Block accounting

The slots of an inode that hold block numbers, and the invariant that ties them
to the free map: a data block is in use exactly if one slot refers to it. Each
change of a slot keeps the invariant together with the change of the free map
that goes with it.
-/
namespace Xv6Arm
open Lib

/-- A place that holds a block number: an element of `addrs`, or of the indirect block. -/
inductive Slot where
  | addr (k : Fin (NDIRECT + 1))
  | entry (j : Fin NINDIRECT)
  deriving DecidableEq

/-- The slot of the indirect block. -/
abbrev Slot.indirect : Slot := .addr (Fin.last NDIRECT)

/-- The slot for block `bn` of a file. -/
def Slot.of (bn : ℕ) : Option Slot :=
  if h : bn < NDIRECT then some (.addr ⟨bn, Nat.lt_succ_of_lt h⟩)
  else if h : bn - NDIRECT < NINDIRECT then some (.entry ⟨bn - NDIRECT, h⟩)
  else none

namespace Slot

theorem of_direct {bn : ℕ} (h : bn < NDIRECT) : Slot.of bn = some (.addr ⟨bn, Nat.lt_succ_of_lt h⟩) := dif_pos h

theorem of_indirect {bn : ℕ} (h : ¬bn < NDIRECT) (h' : bn - NDIRECT < NINDIRECT) :
    Slot.of bn = some (.entry ⟨bn - NDIRECT, h'⟩) := by rw [Slot.of, dif_neg h, dif_pos h']

theorem of_eq_some {bn : ℕ} (h : bn < MAXFILE) : ∃ s, Slot.of bn = some s := by
  by_cases h1 : bn < NDIRECT
  · exact ⟨_, of_direct h1⟩
  · exact ⟨_, of_indirect h1 (by unfold MAXFILE at h; omega)⟩

theorem of_inj {bn bn' : ℕ} {s : Slot} (h : Slot.of bn = some s) (h' : Slot.of bn' = some s) : bn = bn' := by
  unfold Slot.of at h h'
  split at h
  · split at h'
    · cases h
      simpa using h'.symm
    · split at h'
      · cases h
        cases h'
      · cases h'
  · split at h
    · split at h'
      · cases h
        cases h'
      · split at h'
        · cases h
          have := (Option.some.inj h')
          simp only [entry.injEq, Fin.mk.injEq] at this
          omega
        · cases h'
    · cases h

/-- No block of a file is the indirect block. -/
theorem le_of_entry {bn : ℕ} {j : Fin NINDIRECT} (h : Slot.of bn = some (.entry j)) : NDIRECT ≤ bn := by
  unfold Slot.of at h
  split at h
  · cases h
  · omega

theorem of_ne_indirect {bn : ℕ} : Slot.of bn ≠ some .indirect := by
  intro h
  unfold Slot.of at h
  split at h
  · rename_i hlt
    simp only [Option.some.injEq, addr.injEq, Fin.ext_iff, Fin.val_last] at h
    omega
  · split at h
    · cases h
    · cases h

end Slot

namespace View

/-- The block number in slot `s` of inode `i`. -/
def slot (v : View) (i : ℕ) : Slot → ℕ
  | .addr k => (v.ino i).addrs k
  | .entry j =>
    if (v.ino i).addrs (Fin.last NDIRECT) = 0 then 0
    else leGet (v.dat ((v.ino i).addrs (Fin.last NDIRECT))) (4 * j) 4

/-- The block of the disk with block `bn` of file `i`, or 0. -/
def block (v : View) (i bn : ℕ) : ℕ := ((Slot.of bn).map (v.slot i)).getD 0

theorem block_eq {v : View} {bn : ℕ} {s : Slot} (i : ℕ) (h : Slot.of bn = some s) : v.block i bn = v.slot i s := by
  simp [block, h]

def Live (sb : Superblock) (v : View) (i : ℕ) : Prop := i < sb.ninodes ∧ (v.ino i).type ≠ 0

/-- Slot `s` of the allocated inode `i` refers to block `b`. -/
structure Uses (sb : Superblock) (v : View) (i : ℕ) (s : Slot) (b : ℕ) : Prop where
  live : v.Live sb i
  eq : v.slot i s = b
  ne : b ≠ 0

variable {sb : Superblock} {v v' : View} {i b : ℕ} {s : Slot}

/-- Without an indirect block there is nothing behind it. -/
theorem slot_entry {j : Fin NINDIRECT} (h : v.slot i .indirect = 0) : v.slot i (.entry j) = 0 := by
  have h : (v.ino i).addrs (Fin.last NDIRECT) = 0 := h
  rw [slot, if_pos h]

theorem slot_congr (ha : (v'.ino i).addrs = (v.ino i).addrs)
    (hd : v.slot i .indirect ≠ 0 → v'.dat (v.slot i .indirect) = v.dat (v.slot i .indirect)) :
    v'.slot i s = v.slot i s := by
  cases s with
  | addr k => simp [slot, ha]
  | entry j =>
    simp only [slot, ha]
    split
    · rfl
    · rename_i h
      exact congrArg (leGet · (4 * j) 4) (hd h)

end View

/-- A data block is in use exactly if one slot refers to it. -/
structure Acct (sb : Superblock) (v : View) : Prop where
  range : ∀ i s b, v.Uses sb i s b → IsData sb b
  inj : ∀ i s j t b, v.Uses sb i s b → v.Uses sb j t b → i = j ∧ s = t
  bit : ∀ b, IsData sb b → (v.bit b = true ↔ ∃ i s, v.Uses sb i s b)

namespace Acct
variable {sb : Superblock} {v v' : View} {i b : ℕ} {s : Slot}

theorem used (h : Acct sb v) (hu : v.Uses sb i s b) : v.bit b = true := (h.bit b (h.range i s b hu)).mpr ⟨i, s, hu⟩

/-- The slots are the same, and so is the free map. -/
theorem same (h : Acct sb v) (hu : ∀ i s b, v'.Uses sb i s b ↔ v.Uses sb i s b) (hb : v'.bit = v.bit) :
    Acct sb v' := by
  refine ⟨?_, ?_, ?_⟩
  · intro i s b hb
    exact h.range i s b ((hu i s b).mp hb)
  · intro i s j t b hs ht
    exact h.inj i s j t b ((hu i s b).mp hs) ((hu j t b).mp ht)
  · intro b hd
    rw [hb, h.bit b hd]
    simp only [hu]

/-- A free block is put into a slot. -/
theorem link (h : Acct sb v) (hd : IsData sb b) (hfree : v.bit b = false)
    (hu : ∀ j t c, v'.Uses sb j t c ↔ v.Uses sb j t c ∨ j = i ∧ t = s ∧ c = b)
    (hb : v'.bit = Function.update v.bit b true) : Acct sb v' := by
  have hnew : ∀ j t, ¬v.Uses sb j t b := by
    intro j t ht
    have := h.used ht
    rw [hfree] at this
    cases this
  refine ⟨?_, ?_, ?_⟩
  · intro j t c hc
    rcases (hu j t c).mp hc with hc | ⟨-, -, rfl⟩
    · exact h.range j t c hc
    · exact hd
  · intro j t j' t' c hc hc'
    rcases (hu j t c).mp hc with hc | ⟨rfl, rfl, rfl⟩
    · rcases (hu j' t' c).mp hc' with hc' | ⟨-, -, rfl⟩
      · exact h.inj j t j' t' c hc hc'
      · exact absurd hc (hnew j t)
    · rcases (hu j' t' c).mp hc' with hc' | ⟨rfl, rfl, -⟩
      · exact absurd hc' (hnew j' t')
      · exact ⟨rfl, rfl⟩
  · intro c hc
    rw [hb]
    by_cases hcb : c = b
    · subst hcb
      simp only [Function.update_self, true_iff]
      exact ⟨i, s, (hu i s c).mpr (.inr ⟨rfl, rfl, rfl⟩)⟩
    · rw [Function.update_of_ne hcb, h.bit c hc]
      simp only [hu, hcb, and_false, or_false]

end Acct

/-! ## What each change does to the slots -/

namespace View
variable {sb : Superblock} {v v' : View} {i b : ℕ} {s : Slot}

/-- A change that keeps the addresses of all inodes and the indirect blocks. -/
theorem uses_same (htype : ∀ j, (v'.ino j).type ≠ 0 ↔ (v.ino j).type ≠ 0)
    (haddr : ∀ j, (v'.ino j).addrs = (v.ino j).addrs)
    (hdat : ∀ j b, v.Uses sb j .indirect b → v'.dat b = v.dat b) (i : ℕ) (s : Slot) (b : ℕ) :
    v'.Uses sb i s b ↔ v.Uses sb i s b := by
  have hlive : v'.Live sb i ↔ v.Live sb i := by rw [Live, Live, htype]
  have hslot : v.Live sb i → v'.slot i s = v.slot i s := fun hl =>
    slot_congr (haddr i) fun hne => hdat i _ ⟨hl, rfl, hne⟩
  constructor
  · rintro ⟨hl, he, hne⟩
    rw [hlive] at hl
    exact ⟨hl, (hslot hl).symm.trans he, hne⟩
  · rintro ⟨hl, he, hne⟩
    exact ⟨hlive.mpr hl, (hslot hl).trans he, hne⟩

theorem uses_congr (hi : v'.ino = v.ino) (hd : v'.dat = v.dat) : v'.Uses sb i s b ↔ v.Uses sb i s b :=
  uses_same (by simp [hi]) (by simp [hi]) (by simp [hd]) i s b

theorem leGet_zero (o w : ℕ) : leGet (fun _ => 0) o w = 0 := by
  induction w generalizing o with
  | zero => rfl
  | succ w ih => simp [leGet, ih]

/-- A free block is zeroed and put into an element of `addrs` that was 0. -/
def linkAddr (sb : Superblock) (i : ℕ) (k : Fin (NDIRECT + 1)) (b : ℕ) (v : View) : View :=
  (v.alloc sb b).setIno i (setAddr k b (v.ino i))

/-- A free block is zeroed and put into an entry of indirect block `a`. -/
def linkEntry (sb : Superblock) (a : ℕ) (j b : ℕ) (v : View) : View :=
  ((v.alloc sb b).bset a (lePut (v.dat a) (4 * j) 4 b)).logWrite a

theorem linkAddr_ino_ne {k : Fin (NDIRECT + 1)} {j : ℕ} (hj : j ≠ i) : (v.linkAddr sb i k b).ino j = v.ino j := by
  simp [linkAddr, alloc, hj]

theorem linkAddr_ino {k : Fin (NDIRECT + 1)} : (v.linkAddr sb i k b).ino i = setAddr k b (v.ino i) := by
  simp [linkAddr, alloc]

theorem linkAddr_dat {k : Fin (NDIRECT + 1)} :
    (v.linkAddr sb i k b).dat = Function.update v.dat b fun _ => 0 := rfl

theorem linkAddr_slot (h : Acct sb v) (hfree : v.bit b = false) {k : Fin (NDIRECT + 1)} (hl : v.Live sb i)
    (hz : v.slot i (.addr k) = 0) (t : Slot) :
    (v.linkAddr sb i k b).slot i t = if t = .addr k then b else v.slot i t := by
  have hind : v.slot i .indirect ≠ 0 → v.slot i .indirect ≠ b := by
    rintro hne rfl
    have := h.used ⟨hl, rfl, hne⟩
    rw [hfree] at this
    cases this
  cases t with
  | addr k' =>
    by_cases hk : k' = k
    · subst hk
      simp [slot, linkAddr_ino, setAddr]
    · simp [slot, linkAddr_ino, setAddr, hk]
  | entry j =>
    rw [if_neg (by simp)]
    simp only [slot, linkAddr_ino, linkAddr_dat, setAddr]
    by_cases hk : Fin.last NDIRECT = k
    · subst hk
      have hz : (v.ino i).addrs (Fin.last NDIRECT) = 0 := hz
      simp only [Function.update_self, hz, if_true]
      split
      · rfl
      · exact leGet_zero _ _
    · rw [Function.update_of_ne hk]
      split
      · rfl
      · rename_i hne
        have hnb : (v.ino i).addrs (Fin.last NDIRECT) ≠ b := hind hne
        rw [Function.update_of_ne hnb]

theorem linkAddr_slot_ne (h : Acct sb v) (hfree : v.bit b = false) {k : Fin (NDIRECT + 1)} {j : ℕ} (hj : j ≠ i)
    (hl : v.Live sb j) (t : Slot) : (v.linkAddr sb i k b).slot j t = v.slot j t := by
  refine slot_congr (by rw [linkAddr_ino_ne hj]) fun hne => ?_
  rw [linkAddr_dat, Function.update_of_ne]
  rintro rfl
  have := h.used ⟨hl, rfl, hne⟩
  rw [hfree] at this
  cases this

theorem linkAddr_live {k : Fin (NDIRECT + 1)} {j : ℕ} : (v.linkAddr sb i k b).Live sb j ↔ v.Live sb j := by
  by_cases hj : j = i
  · subst hj
    rw [Live, Live, linkAddr_ino]
    rfl
  · rw [Live, Live, linkAddr_ino_ne hj]

theorem uses_linkAddr (h : Acct sb v) (hd : IsData sb b) (hfree : v.bit b = false) {k : Fin (NDIRECT + 1)}
    (hl : v.Live sb i) (hz : v.slot i (.addr k) = 0) (j : ℕ) (t : Slot) (c : ℕ) :
    (v.linkAddr sb i k b).Uses sb j t c ↔ v.Uses sb j t c ∨ j = i ∧ t = .addr k ∧ c = b := by
  by_cases hj : j = i
  · subst hj
    have hslot := linkAddr_slot (k := k) h hfree hl hz t
    by_cases ht : t = .addr k
    · subst ht
      rw [if_pos rfl] at hslot
      constructor
      · rintro ⟨-, he, -⟩
        exact .inr ⟨rfl, rfl, by rw [← he, hslot]⟩
      · rintro (⟨-, he, hne⟩ | ⟨-, -, rfl⟩)
        · exact absurd (he.symm.trans hz) hne
        · exact ⟨linkAddr_live.mpr hl, hslot, hd.ne_zero⟩
    · rw [if_neg ht] at hslot
      simp only [ht, false_and, and_false, or_false]
      exact ⟨fun ⟨_, he, hne⟩ => ⟨hl, hslot ▸ he, hne⟩, fun ⟨_, he, hne⟩ => ⟨linkAddr_live.mpr hl, hslot.trans he, hne⟩⟩
  · simp only [hj, false_and, or_false]
    constructor
    · rintro ⟨hlj, he, hne⟩
      rw [linkAddr_live] at hlj
      exact ⟨hlj, (linkAddr_slot_ne h hfree hj hlj t).symm.trans he, hne⟩
    · rintro ⟨hlj, he, hne⟩
      exact ⟨linkAddr_live.mpr hlj, (linkAddr_slot_ne h hfree hj hlj t).trans he, hne⟩

theorem acct_linkAddr (h : Acct sb v) (hd : IsData sb b) (hfree : v.bit b = false) {k : Fin (NDIRECT + 1)}
    (hl : v.Live sb i) (hz : v.slot i (.addr k) = 0) : Acct sb (v.linkAddr sb i k b) :=
  h.link hd hfree (uses_linkAddr h hd hfree hl hz) rfl

/-! ### Entries of the indirect block -/

variable {a : ℕ} {j : Fin NINDIRECT}

theorem linkEntry_dat : (v.linkEntry sb a j b).dat =
    Function.update (Function.update v.dat b fun _ => 0) a (lePut (v.dat a) (4 * j) 4 b) := rfl

theorem linkEntry_ino : (v.linkEntry sb a j b).ino = v.ino := rfl

theorem linkEntry_slot (hb : b < 2 ^ 32) (ha : v.slot i .indirect = a) (hne : a ≠ 0) (t : Slot) :
    (v.linkEntry sb a j b).slot i t = if t = .entry j then b else v.slot i t := by
  have ha : (v.ino i).addrs (Fin.last NDIRECT) = a := ha
  cases t with
  | addr k => simp [slot, linkEntry_ino]
  | entry j' =>
    simp only [slot, linkEntry_ino, linkEntry_dat, ha, if_neg hne, Function.update_self, Slot.entry.injEq]
    by_cases hj : j' = j
    · subst hj
      rw [if_pos rfl, leGet_lePut_of_lt hb]
    · rw [if_neg hj, leGet_lePut_disjoint]
      have : (j' : ℕ) ≠ j := fun h => hj (Fin.ext h)
      omega

theorem linkEntry_slot_ne (h : Acct sb v) (hfree : v.bit b = false) (hl : v.Live sb i)
    (ha : v.slot i .indirect = a) (hne : a ≠ 0) {j' : ℕ} (hj : j' ≠ i) (hl' : v.Live sb j') (t : Slot) :
    (v.linkEntry sb a j b).slot j' t = v.slot j' t := by
  refine slot_congr rfl fun hne' => ?_
  have hu : v.Uses sb j' .indirect (v.slot j' .indirect) := ⟨hl', rfl, hne'⟩
  rw [linkEntry_dat, Function.update_of_ne, Function.update_of_ne]
  · intro hb
    have := h.used hu
    rw [hb, hfree] at this
    cases this
  · intro hb
    rw [hb] at hu
    exact hj (h.inj _ _ _ _ _ hu ⟨hl, ha, hne⟩).1

theorem uses_linkEntry (h : Acct sb v) (hd : IsData sb b) (hb : b < 2 ^ 32) (hfree : v.bit b = false)
    (hl : v.Live sb i) (ha : v.slot i .indirect = a) (hne : a ≠ 0) (hz : v.slot i (.entry j) = 0) (j' : ℕ) (t : Slot)
    (c : ℕ) : (v.linkEntry sb a j b).Uses sb j' t c ↔ v.Uses sb j' t c ∨ j' = i ∧ t = .entry j ∧ c = b := by
  by_cases hj : j' = i
  · subst hj
    have hslot : (v.linkEntry sb a j b).slot j' t = _ := linkEntry_slot hb ha hne t
    by_cases ht : t = .entry j
    · subst ht
      rw [if_pos rfl] at hslot
      constructor
      · rintro ⟨-, he, -⟩
        exact .inr ⟨rfl, rfl, by rw [← he, hslot]⟩
      · rintro (⟨-, he, hne⟩ | ⟨-, -, rfl⟩)
        · exact absurd (he.symm.trans hz) hne
        · exact ⟨hl, hslot, hd.ne_zero⟩
    · rw [if_neg ht] at hslot
      simp only [ht, false_and, and_false, or_false]
      exact ⟨fun ⟨_, he, hne⟩ => ⟨hl, hslot ▸ he, hne⟩, fun ⟨_, he, hne⟩ => ⟨hl, hslot.trans he, hne⟩⟩
  · simp only [hj, false_and, or_false]
    constructor
    · rintro ⟨hlj, he, hne'⟩
      exact ⟨hlj, (linkEntry_slot_ne h hfree hl ha hne hj hlj t).symm.trans he, hne'⟩
    · rintro ⟨hlj, he, hne'⟩
      exact ⟨hlj, (linkEntry_slot_ne h hfree hl ha hne hj hlj t).trans he, hne'⟩

theorem acct_linkEntry (h : Acct sb v) (hd : IsData sb b) (hb : b < 2 ^ 32) (hfree : v.bit b = false)
    (hl : v.Live sb i) (ha : v.slot i .indirect = a) (hne : a ≠ 0) (hz : v.slot i (.entry j) = 0) :
    Acct sb (v.linkEntry sb a j b) :=
  h.link hd hfree (uses_linkEntry h hd hb hfree hl ha hne hz) rfl

end View

theorem Acct.congr {sb : Superblock} {v v' : View} (h : Acct sb v) (hi : v'.ino = v.ino) (hd : v'.dat = v.dat)
    (hb : v'.bit = v.bit) : Acct sb v' :=
  h.same (fun _ _ _ => View.uses_congr hi hd) hb

end Xv6Arm

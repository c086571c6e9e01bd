import Xv6Arm.Vm.Model

/-!
# Table entries and indices

What the masks of `mmu.h` give on the entries that `walk` and `mappages` store,
and the three indices of an address as parts of its page number.
-/
namespace Xv6Arm
open Lib

variable {q c m ap va : ℕ}

/-- A page of physical memory. -/
structure IsPage (q : ℕ) : Prop where
  aligned : q % PGSIZE = 0
  start_le : PHYSTART ≤ q
  lt_stop : q < PHYSTOP

theorem IsPage.pos (h : IsPage q) : q ≠ 0 :=
  Nat.pos_iff_ne_zero.mp (lt_of_lt_of_le (by norm_num) h.start_le)

theorem IsPage.lt (h : IsPage q) : q < 2 ^ 48 := lt_trans h.lt_stop (by norm_num)

theorem testBit_pgAddrMask (i : ℕ) : PG_ADDR_MASK.testBit i = (decide (12 ≤ i) && decide (i < 48)) := by
  have h : PG_ADDR_MASK = (2 ^ 36 - 1) <<< 12 := by decide
  rw [h, Nat.testBit_shiftLeft, Nat.testBit_two_pow_sub_one]
  by_cases h1 : 12 ≤ i
  · simp only [h1, decide_true, Bool.true_and, decide_eq_decide]
    omega
  · simp [h1]

theorem testBit_of_lt {x n i : ℕ} (hx : x < 2 ^ n) (hi : n ≤ i) : x.testBit i = false :=
  Nat.testBit_lt_two_pow (lt_of_lt_of_le hx (Nat.pow_le_pow_right (by norm_num) hi))

theorem testBit_of_aligned {i : ℕ} (hq : q % PGSIZE = 0) (hi : i < 12) : q.testBit i = false := by
  change q % 4096 = 0 at hq
  obtain ⟨k, rfl⟩ : ∃ k, q = 2 ^ 12 * k := ⟨q / 4096, by omega⟩
  rw [Nat.testBit_two_pow_mul]
  simp [Nat.not_le_of_lt hi]

/-- The address bits of an entry are the page, whatever flags are in the low bits. -/
theorem mask_page (hq : q % PGSIZE = 0) (hlt : q < 2 ^ 48) (hc : c < 2 ^ 12) :
    PG_ADDR_MASK &&& (q ||| c) = q := by
  apply Nat.eq_of_testBit_eq
  intro i
  rw [Nat.testBit_and, testBit_pgAddrMask, Nat.testBit_or]
  by_cases h1 : 12 ≤ i
  · by_cases h2 : i < 48
    · simp [h1, h2, testBit_of_lt hc h1]
    · simp [h1, h2, testBit_of_lt hlt (show 48 ≤ i by omega)]
  · simp [h1, testBit_of_aligned hq (Nat.lt_of_not_le h1)]

/-- The low bits of an entry are its flags, whatever the page. -/
theorem page_or_and (hq : q % PGSIZE = 0) (hm : m < 2 ^ 12) : (q ||| c) &&& m = c &&& m := by
  apply Nat.eq_of_testBit_eq
  intro i
  rw [Nat.testBit_and, Nat.testBit_and, Nat.testBit_or]
  by_cases h1 : 12 ≤ i
  · simp [testBit_of_lt hm h1]
  · simp [testBit_of_aligned hq (Nat.lt_of_not_le h1)]

/-! ## Entries that point to a table -/

def tableEntry (q : ℕ) : ℕ := q ||| ENTRY_TABLE ||| ENTRY_VALID

theorem tableEntry_flags (hq : IsPage q) : tableEntry q &&& (ENTRY_VALID ||| ENTRY_TABLE) ≠ 0 := by
  rw [tableEntry, Nat.or_assoc, page_or_and hq.aligned (by decide)]
  decide

theorem tableEntry_valid (hq : IsPage q) : tableEntry q &&& ENTRY_VALID ≠ 0 := by
  rw [tableEntry, Nat.or_assoc, page_or_and hq.aligned (by decide)]
  decide

theorem tableEntry_page (hq : IsPage q) : PG_ADDR_MASK &&& tableEntry q = q := by
  rw [tableEntry, Nat.or_assoc, mask_page hq.aligned hq.lt (by decide)]

theorem tableEntry_lt (hq : IsPage q) : tableEntry q < 2 ^ 64 := by
  have h1 : q < 2 ^ 64 := lt_trans hq.lt (by norm_num)
  exact Nat.or_lt_two_pow (Nat.or_lt_two_pow h1 (by norm_num)) (by norm_num)

/-! ## Leaf entries -/

/-- The four values of the access permission field. -/
def IsAp (ap : ℕ) : Prop := ap = 0 ∨ ap = 1 <<< 6 ∨ ap = 2 <<< 6 ∨ ap = 3 <<< 6

/-- The flags of a leaf entry. -/
def leafFlags (ap : ℕ) : ℕ :=
  ACCESS_FLAG ||| SH_IN_SH ||| ap ||| ENTRY_NS ||| memAttrIdx 4 ||| ENTRY_PAGE ||| ENTRY_VALID

theorem leafEntry_eq (q ap : ℕ) : leafEntry q ap = q ||| leafFlags ap := by
  simp only [leafEntry, leafFlags, Nat.or_assoc]

theorem leafFlags_lt (ha : IsAp ap) : leafFlags ap < 2 ^ 12 := by
  rcases ha with rfl | rfl | rfl | rfl <;> decide

theorem leafEntry_flags (hq : IsPage q) (ha : IsAp ap) :
    leafEntry q ap &&& (ENTRY_PAGE ||| ENTRY_VALID) ≠ 0 := by
  rw [leafEntry_eq, page_or_and hq.aligned (by decide)]
  rcases ha with rfl | rfl | rfl | rfl <;> decide

theorem leafEntry_valid (hq : IsPage q) (ha : IsAp ap) : leafEntry q ap &&& ENTRY_VALID ≠ 0 := by
  rw [leafEntry_eq, page_or_and hq.aligned (by decide)]
  rcases ha with rfl | rfl | rfl | rfl <;> decide

theorem leafEntry_isPage (hq : IsPage q) (ha : IsAp ap) : leafEntry q ap &&& ENTRY_PAGE ≠ 0 := by
  rw [leafEntry_eq, page_or_and hq.aligned (by decide)]
  rcases ha with rfl | rfl | rfl | rfl <;> decide

theorem leafEntry_page (hq : IsPage q) (ha : IsAp ap) : leafEntry q ap &&& PG_ADDR_MASK = q := by
  rw [leafEntry_eq, Nat.and_comm, mask_page hq.aligned hq.lt (leafFlags_lt ha)]

theorem leafEntry_ap (hq : IsPage q) (ha : IsAp ap) : leafEntry q ap &&& AP_MASK = ap := by
  rw [leafEntry_eq, page_or_and hq.aligned (by decide)]
  rcases ha with rfl | rfl | rfl | rfl <;> decide

theorem leafEntry_lt (hq : IsPage q) (ha : IsAp ap) : leafEntry q ap < 2 ^ 64 := by
  rw [leafEntry_eq]
  have h1 : q < 2 ^ 64 := lt_trans hq.lt (by norm_num)
  exact Nat.or_lt_two_pow h1 (lt_trans (leafFlags_lt ha) (by norm_num))

/-! ## Page numbers -/

/-- The virtual page number of `va` as `walk` sees it: the page number modulo 4 GiB. -/
def vpn (va : ℕ) : ℕ := va / 4096 % 2 ^ 20

theorem vpn_lt (va : ℕ) : vpn va < 2 ^ 20 := Nat.mod_lt _ (by norm_num)

theorem pgdIdx_eq (va : ℕ) : pgdIdx va = vpn va / 2 ^ 18 := by
  rw [pgdIdx, Nat.shiftRight_eq_div_pow, show (3 : ℕ) = 2 ^ 2 - 1 from rfl,
    Nat.and_two_pow_sub_one_eq_mod, vpn]
  omega

theorem pmdIdx_eq (va : ℕ) : pmdIdx va = vpn va / 512 % 512 := by
  rw [pmdIdx, Nat.shiftRight_eq_div_pow, show (511 : ℕ) = 2 ^ 9 - 1 from rfl,
    Nat.and_two_pow_sub_one_eq_mod, vpn]
  omega

theorem pteIdx_eq (va : ℕ) : pteIdx va = vpn va % 512 := by
  rw [pteIdx, Nat.shiftRight_eq_div_pow, show (511 : ℕ) = 2 ^ 9 - 1 from rfl,
    Nat.and_two_pow_sub_one_eq_mod, vpn]
  omega

theorem pgdIdx_lt (va : ℕ) : pgdIdx va < 4 := by
  have := vpn_lt va
  rw [pgdIdx_eq]
  omega

theorem pmdIdx_lt (va : ℕ) : pmdIdx va < 512 := by
  rw [pmdIdx_eq]
  exact Nat.mod_lt _ (by norm_num)

theorem pteIdx_lt (va : ℕ) : pteIdx va < 512 := by
  rw [pteIdx_eq]
  exact Nat.mod_lt _ (by norm_num)

theorem vpn_of_idx (va : ℕ) : pgdIdx va * 2 ^ 18 + pmdIdx va * 512 + pteIdx va = vpn va := by
  rw [pgdIdx_eq, pmdIdx_eq, pteIdx_eq]
  omega

end Xv6Arm

import Mathlib

/-!
# Numerals

The digits of a number in a base, most significant first, with no zero in front
unless it is the only digit. The numeral is the shortest list of digits with its
value, and reading the characters of a digit table gives the value back.
-/
namespace Xv6Arm.Lib

/-- The digits of `n` in base `b`. -/
def numeral (b n : ℕ) : List ℕ := if n = 0 then [0] else (Nat.digits b n).reverse

/-- The number that a list of digits stands for. -/
def value (b : ℕ) (ds : List ℕ) : ℕ := ds.foldl (fun n d => b * n + d) 0

theorem value_concat (b : ℕ) (ds : List ℕ) (d : ℕ) : value b (ds ++ [d]) = b * value b ds + d := by
  simp [value]

theorem value_eq_ofDigits (b : ℕ) (ds : List ℕ) : value b ds = Nat.ofDigits b ds.reverse := by
  induction ds using List.reverseRecOn with
  | nil => rfl
  | append_singleton ds d ih =>
    rw [value_concat, ih, List.reverse_concat, Nat.ofDigits_cons]
    ring

theorem value_cons (b d : ℕ) (ds : List ℕ) : value b (d :: ds) = d * b ^ ds.length + value b ds := by
  rw [value_eq_ofDigits, value_eq_ofDigits, List.reverse_cons, Nat.ofDigits_append, List.length_reverse,
    Nat.ofDigits_singleton]
  ring

section Numeral
variable {b : ℕ}

/-- Digit lists of one length with one value are the same. -/
theorem eq_of_value_eq (hb : 1 < b) {ds ds' : List ℕ} (hlen : ds.length = ds'.length) (h : ∀ d ∈ ds, d < b)
    (h' : ∀ d ∈ ds', d < b) (hv : value b ds = value b ds') : ds = ds' := by
  rw [value_eq_ofDigits, value_eq_ofDigits] at hv
  apply List.reverse_injective
  exact Nat.ofDigits_inj_of_len_eq hb (by simpa using hlen) (fun d hd => h d (List.mem_reverse.mp hd))
    (fun d hd => h' d (List.mem_reverse.mp hd)) hv

theorem numeral_lt (hb : 1 < b) {n d : ℕ} (h : d ∈ numeral b n) : d < b := by
  unfold numeral at h
  split at h
  · rw [List.mem_singleton.mp h]
    omega
  · exact Nat.digits_lt_base hb (List.mem_reverse.mp h)

theorem numeral_ne_nil (b n : ℕ) : numeral b n ≠ [] := by
  unfold numeral
  split <;> rename_i h
  · exact List.cons_ne_nil _ _
  · simpa [Nat.digits_eq_nil_iff_eq_zero] using h

/-- Dividing off the last digit. -/
theorem numeral_eq (hb : 1 < b) (n : ℕ) :
    numeral b n = if n / b = 0 then [n % b] else numeral b (n / b) ++ [n % b] := by
  by_cases h0 : n = 0
  · simp [h0, numeral]
  · rw [numeral, if_neg h0, Nat.digits_def' hb (Nat.pos_of_ne_zero h0), List.reverse_cons]
    split <;> rename_i hq
    · simp [hq]
    · rw [numeral, if_neg hq]

theorem value_numeral (b n : ℕ) : value b (numeral b n) = n := by
  unfold numeral
  split <;> rename_i h
  · simp [value, h]
  · rw [value_eq_ofDigits, List.reverse_reverse, Nat.ofDigits_digits]

theorem value_lt (hb : 1 < b) {ds : List ℕ} (h : ∀ d ∈ ds, d < b) : value b ds < b ^ ds.length := by
  rw [value_eq_ofDigits, ← List.length_reverse]
  exact Nat.ofDigits_lt_base_pow_length hb fun d hd => h d (List.mem_reverse.mp hd)

theorem length_numeral_le (hb : 1 < b) {n k : ℕ} (hk : k ≠ 0) (h : n < b ^ k) : (numeral b n).length ≤ k := by
  unfold numeral
  split
  · exact Nat.one_le_iff_ne_zero.mpr hk
  · rw [List.length_reverse]
    exact (Nat.digits_length_le_iff hb n).mpr h

/-- No list of digits with this value is shorter. -/
theorem length_numeral_le_of_value (hb : 1 < b) {ds : List ℕ} (hne : ds ≠ []) (h : ∀ d ∈ ds, d < b) :
    (numeral b (value b ds)).length ≤ ds.length :=
  length_numeral_le hb (by simpa using hne) (value_lt hb h)

end Numeral

/-! ## Reading -/

/-- Read a digit string: every character has to be a digit of the table below the base. -/
def parseNat {α : Type} [DecidableEq α] (table : List α) (b : ℕ) (s : List α) : Option ℕ :=
  if s = [] then none
  else s.foldlM (fun n c => if table.idxOf c < b then some (b * n + table.idxOf c) else none) 0

section Parse
variable {α : Type} [DecidableEq α] {table : List α} {b : ℕ}

theorem foldlM_parse (hnd : table.Nodup) (hb : b ≤ table.length) (ds : List ℕ) (h : ∀ d ∈ ds, d < b) (n : ℕ)
    (s : List α) (hs : s.map some = ds.map (table[·]?)) :
    s.foldlM (fun n c => if table.idxOf c < b then some (b * n + table.idxOf c) else none) n =
      some (ds.foldl (fun n d => b * n + d) n) := by
  induction ds generalizing n s with
  | nil =>
    obtain rfl : s = [] := by simpa using hs
    rfl
  | cons d ds ih =>
    obtain ⟨c, s, rfl⟩ : ∃ c s', s = c :: s' := by
      cases s with
      | nil => simp at hs
      | cons c s => exact ⟨c, s, rfl⟩
    simp only [List.map_cons, List.cons.injEq] at hs
    have hd : d < b := h d List.mem_cons_self
    have hlt : d < table.length := hd.trans_le hb
    have hidx : table.idxOf c = d := by
      rw [List.getElem?_eq_getElem hlt, Option.some_inj] at hs
      rw [hs.1]
      exact hnd.idxOf_getElem d hlt
    rw [List.foldlM_cons, hidx, if_pos hd]
    exact ih (fun d' hd' => h d' (List.mem_cons_of_mem _ hd')) _ s hs.2

theorem parseNat_digits (hnd : table.Nodup) (hb : b ≤ table.length) {ds : List ℕ} (hne : ds ≠ [])
    (h : ∀ d ∈ ds, d < b) {s : List α} (hs : s.map some = ds.map (table[·]?)) :
    parseNat table b s = some (value b ds) := by
  have hs0 : s ≠ [] := by
    rintro rfl
    simp at hs
    exact hne hs
  rw [parseNat, if_neg hs0]
  exact foldlM_parse hnd hb ds h 0 s hs

end Parse

end Xv6Arm.Lib

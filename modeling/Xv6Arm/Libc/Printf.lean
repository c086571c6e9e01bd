import Xv6Arm.Lib.Numeral

/-!
# Printing numbers

`printfint` and `printptr` of the kernel's `printf.c` and `printint` and
`printptr` of the user library. They fill a buffer of 16 bytes with digits from
a table and send it backwards. The kernel's table lacks the letter `c`, so its
entries from 12 on are one place off and the last one is the NUL at its end.
-/
namespace Xv6Arm
open Lib

/-- The digits in the order of their values. -/
def hexTable : List Char := "0123456789abcdef".toList

/-- `digits` of the kernel's `printf.c` with the NUL that ends it. -/
def Kprintf.digits : List Char := "0123456789abdef".toList ++ ['\x00']

/-- `digits` of the user library's `printf.c`. -/
def Uprintf.digits : List Char := "0123456789ABCDEF".toList ++ ['\x00']

/-- The loop that stores the digits of `x` in a buffer with `room` places left: the characters in the order
in which they are stored, or `none` after an access past the end of the buffer or of the table. -/
def storeDigits (table : List Char) (base : ℕ) : ℕ → ℕ → Option (List Char)
  | 0, _ => none
  | room + 1, x => do
    let c ← table[x % base]?
    if x / base ≠ 0 then
      let l ← storeDigits table base room (x / base)
      pure (c :: l)
    else pure [c]

/-- Store the digits and the sign, and send the buffer from its end. -/
def sendDigits (table : List Char) (base x : ℕ) (neg : Bool) : Option (List Char) := do
  let buf ← storeDigits table base 16 x
  if neg then
    if buf.length < 16 then pure (buf ++ ['-']).reverse else none
  else pure buf.reverse

/-- `printfint`: the characters sent to the console. -/
def Kprintf.printfint (xx : BitVec 32) (base : ℕ) (sign : Bool) : Option (List Char) :=
  if sign && xx.slt 0 then sendDigits Kprintf.digits base (-xx).toNat true
  else sendDigits Kprintf.digits base xx.toNat (sign && xx.slt 0)

/-- `printint`: the characters written to the file. -/
def Uprintf.printint (xx : BitVec 32) (base : ℕ) (sgn : Bool) : Option (List Char) :=
  if sgn && xx.slt 0 then sendDigits Uprintf.digits base (-xx).toNat true
  else sendDigits Uprintf.digits base xx.toNat false

/-- The loop of both `printptr`, with `n` digits to go. -/
def ptrDigits (table : List Char) : ℕ → BitVec 64 → Option (List Char)
  | 0, _ => some []
  | n + 1, x => do
    let c ← table[(x >>> 60).toNat]?
    let l ← ptrDigits table n (x <<< 4)
    pure (c :: l)

def Kprintf.printptr (x : BitVec 64) : Option (List Char) :=
  (ptrDigits Kprintf.digits 16 x).map (['0', 'x'] ++ ·)

def Uprintf.printptr (x : BitVec 64) : Option (List Char) :=
  (ptrDigits Uprintf.digits 16 x).map (['0', 'x'] ++ ·)

/-! ## What the characters should be -/

def parseInt (b : ℕ) (s : List Char) : Option ℤ :=
  if s.head? = some '-' then (parseNat hexTable b s.tail).map fun n : ℕ => -(n : ℤ)
  else (parseNat hexTable b s).map fun n : ℕ => (n : ℤ)

def signText (x : ℤ) : List Char := if x < 0 then ['-'] else []

/-- The character of a digit. -/
def hexChar (d : ℕ) : Char := hexTable.getD d '0'

/-- `s` is the sign of `x` and its shortest numeral, and reading `s` gives `x`. -/
structure Denotes (b : ℕ) (x : ℤ) (s : List Char) : Prop where
  text : ∃ ds : List ℕ, s = signText x ++ ds.map hexChar ∧ (∀ d ∈ ds, d < b) ∧ value b ds = x.natAbs ∧
    ∀ ds' : List ℕ, ds' ≠ [] → (∀ d ∈ ds', d < b) → value b ds' = x.natAbs → ds.length ≤ ds'.length
  parse : parseInt b s = some x

/-- `s` is `0x` and sixteen digits, and reading them gives `x`. -/
structure DenotesPtr (x : ℕ) (s : List Char) : Prop where
  text : ∃ ds : List ℕ, s = ['0', 'x'] ++ ds.map hexChar ∧ ds.length = 16 ∧ (∀ d ∈ ds, d < 16) ∧ value 16 ds = x
  parse : parseNat hexTable 16 (s.drop 2) = some x

/-! ## The tables -/

def Kprintf.char (d : ℕ) : Char := Kprintf.digits.getD d '0'
def Uprintf.char (d : ℕ) : Char := Uprintf.digits.getD d '0'

theorem hexTable_nodup : hexTable.Nodup := by decide
theorem length_hexTable : hexTable.length = 16 := by decide

/-- The kernel's table has the right characters below 12 only. -/
theorem Kprintf.char_eq_iff {d : ℕ} (h : d < 16) : Kprintf.char d = hexChar d ↔ d < 12 := by
  interval_cases d <;> decide

theorem Uprintf.toLower_char {d : ℕ} (h : d < 16) : (Uprintf.char d).toLower = hexChar d := by
  interval_cases d <;> decide

theorem hexChar_ne_minus {d : ℕ} (h : d < 16) : hexChar d ≠ '-' := by
  interval_cases d <;> decide

theorem Kprintf.map_char_eq_iff {ds : List ℕ} (h : ∀ d ∈ ds, d < 16) :
    ds.map Kprintf.char = ds.map hexChar ↔ ∀ d ∈ ds, d < 12 := by
  rw [List.map_inj_left]
  exact forall₂_congr fun d hd => Kprintf.char_eq_iff (h d hd)

theorem Uprintf.map_toLower {ds : List ℕ} (h : ∀ d ∈ ds, d < 16) :
    (ds.map Uprintf.char).map Char.toLower = ds.map hexChar := by
  rw [List.map_map]
  exact List.map_congr_left fun d hd => Uprintf.toLower_char (h d hd)

theorem map_some_hexChar {ds : List ℕ} (h : ∀ d ∈ ds, d < 16) :
    (ds.map hexChar).map some = ds.map (hexTable[·]?) := by
  rw [List.map_map]
  refine List.map_congr_left fun d hd => ?_
  rw [Function.comp, hexChar, List.getD_eq_getElem?_getD, List.getElem?_eq_getElem (by rw [length_hexTable]; exact h d hd)]
  rfl

/-! ## What is sent -/

section Send
variable {table : List Char} {b : ℕ}

theorem storeDigits_eq (hb : 1 < b) (ht : b ≤ table.length) (room x : ℕ) (h : (numeral b x).length ≤ room) :
    storeDigits table b room x = some ((numeral b x).reverse.map (table.getD · '0')) := by
  induction room generalizing x with
  | zero => exact absurd h (by simpa using numeral_ne_nil b x)
  | succ room ih =>
    have hlt : x % b < table.length := (Nat.mod_lt x (by omega)).trans_le ht
    have hc : table[x % b]? = some (table.getD (x % b) '0') := by
      rw [List.getD_eq_getElem?_getD, List.getElem?_eq_getElem hlt]
      rfl
    rw [numeral_eq hb x] at h ⊢
    rw [storeDigits, hc]
    by_cases hq : x / b = 0
    · simp [hq]
    · rw [if_neg hq] at h ⊢
      have hlen : (numeral b (x / b)).length ≤ room := by simpa using h
      simp [hq, ih _ hlen]

theorem sendDigits_eq (hb : 1 < b) (ht : b ≤ table.length) {x : ℕ} (h : (numeral b x).length ≤ 15) (neg : Bool) :
    sendDigits table b x neg =
      some ((if neg then ['-'] else []) ++ (numeral b x).map (table.getD · '0')) := by
  rw [sendDigits, storeDigits_eq hb ht 16 x (by omega)]
  cases neg with
  | false => simp
  | true => simp [show (numeral b x).length < 16 by omega]

end Send

section Signed
variable (x : BitVec 32)

theorem natAbs_le : x.toInt.natAbs ≤ 2 ^ 31 := by
  have h1 := x.toInt_lt
  have h2 := x.le_toInt
  omega

theorem toNat_neg_of_slt (h : x.toInt < 0) : (-x).toNat = x.toInt.natAbs := by
  have hlt := x.isLt
  rw [BitVec.toNat_neg]
  rw [BitVec.toInt_eq_toNat_cond] at h ⊢
  split at h <;> rename_i hx
  · omega
  · rw [if_neg hx]
    omega

theorem toNat_of_not_slt (h : ¬x.toInt < 0) : x.toNat = x.toInt.natAbs := by
  have hlt := x.isLt
  rw [BitVec.toInt_eq_toNat_cond] at h ⊢
  split at h <;> rename_i hx
  · rw [if_pos hx]
    omega
  · omega

theorem length_numeral_int {b : ℕ} (hb : b = 10 ∨ b = 16) : (numeral b x.toInt.natAbs).length ≤ 10 := by
  have h := natAbs_le x
  rcases hb with rfl | rfl
  · exact length_numeral_le (by norm_num) (by norm_num) (by omega)
  · exact length_numeral_le (by norm_num) (by norm_num) (by omega)

theorem sendDigits_int {table : List Char} (ht : 16 ≤ table.length) {b : ℕ} (hb : b = 10 ∨ b = 16) :
    sendDigits table b x.toInt.natAbs (decide (x.toInt < 0)) =
      some (signText x.toInt ++ (numeral b x.toInt.natAbs).map (table.getD · '0')) := by
  have hlen := length_numeral_int x hb
  rw [sendDigits_eq (by omega) (by omega) (by omega), signText]
  simp only [decide_eq_true_eq]

theorem Kprintf.printfint_signed (b : ℕ) :
    Kprintf.printfint x b true = sendDigits Kprintf.digits b x.toInt.natAbs (decide (x.toInt < 0)) := by
  rw [Kprintf.printfint, Bool.true_and, BitVec.slt_eq_decide, BitVec.ofNat_eq_ofNat, BitVec.toInt_zero]
  by_cases h : x.toInt < 0
  · rw [decide_eq_true h, if_pos rfl, toNat_neg_of_slt x h]
  · rw [decide_eq_false h, if_neg Bool.false_ne_true, toNat_of_not_slt x h]

theorem Uprintf.printint_signed (b : ℕ) :
    Uprintf.printint x b true = sendDigits Uprintf.digits b x.toInt.natAbs (decide (x.toInt < 0)) := by
  rw [Uprintf.printint, Bool.true_and, BitVec.slt_eq_decide, BitVec.ofNat_eq_ofNat, BitVec.toInt_zero]
  by_cases h : x.toInt < 0
  · rw [decide_eq_true h, if_pos rfl, toNat_neg_of_slt x h]
  · rw [decide_eq_false h, if_neg Bool.false_ne_true, toNat_of_not_slt x h]

end Signed

/-! ## Signed numbers -/

section Int
variable {b : ℕ} (hb : b = 10 ∨ b = 16) (x : ℤ)
include hb

theorem numeral_lt_sixteen (n : ℕ) : ∀ d ∈ numeral b n, d < 16 := by
  intro d hd
  have := numeral_lt (by omega) hd
  omega

theorem parseInt_numeral : parseInt b (signText x ++ (numeral b x.natAbs).map hexChar) = some x := by
  have hlt := numeral_lt_sixteen hb x.natAbs
  have hparse : parseNat hexTable b ((numeral b x.natAbs).map hexChar) = some x.natAbs := by
    rw [parseNat_digits hexTable_nodup (by rw [length_hexTable]; omega) (numeral_ne_nil b x.natAbs)
      (fun d hd => numeral_lt (by omega) hd) (map_some_hexChar hlt), value_numeral]
  by_cases hx : x < 0
  · rw [signText, if_pos hx, parseInt, List.singleton_append, List.head?_cons, if_pos rfl, List.tail_cons, hparse,
      Option.map_some]
    congr 1
    omega
  · have hhead : ((numeral b x.natAbs).map hexChar).head? ≠ some '-' := by
      rw [List.head?_map]
      intro h
      obtain ⟨d, hd, hc⟩ := Option.map_eq_some_iff.mp h
      exact hexChar_ne_minus (hlt d (List.mem_of_mem_head? hd)) hc
    rw [signText, if_neg hx, List.nil_append, parseInt, if_neg hhead, hparse, Option.map_some]
    congr 1
    omega

theorem denotes_numeral : Denotes b x (signText x ++ (numeral b x.natAbs).map hexChar) := by
  refine ⟨⟨numeral b x.natAbs, rfl, fun d hd => numeral_lt (by omega) hd, value_numeral b _, ?_⟩,
    parseInt_numeral hb x⟩
  intro ds hne hlt hv
  rw [← hv]
  exact length_numeral_le_of_value (by omega) hne hlt

/-- What the kernel prints is right exactly if no digit is above 11. -/
theorem denotes_kernel_iff :
    Denotes b x (signText x ++ (numeral b x.natAbs).map Kprintf.char) ↔ ∀ d ∈ numeral b x.natAbs, d < 12 := by
  have hlt := numeral_lt_sixteen hb x.natAbs
  rw [← Kprintf.map_char_eq_iff hlt]
  constructor
  · intro h
    obtain ⟨ds, hs, hds, hv, -⟩ := h.text
    have hmap := List.append_cancel_left hs
    have hlen : (numeral b x.natAbs).length = ds.length := by simpa using congrArg List.length hmap
    rwa [← eq_of_value_eq (by omega) hlen (fun d hd => numeral_lt (by omega) hd) hds
      (by rw [value_numeral, hv])] at hmap
  · intro h
    rw [h]
    exact denotes_numeral hb x

theorem kernel_agrees_iff :
    (signText x ++ (numeral b x.natAbs).map Uprintf.char).map Char.toLower =
      signText x ++ (numeral b x.natAbs).map Kprintf.char ↔ ∀ d ∈ numeral b x.natAbs, d < 12 := by
  have hlt := numeral_lt_sixteen hb x.natAbs
  have hsign : (signText x).map Char.toLower = signText x := by
    unfold signText
    split
    · decide
    · rfl
  rw [List.map_append, hsign, Uprintf.map_toLower hlt, List.append_cancel_left_eq, ← Kprintf.map_char_eq_iff hlt,
    eq_comm]

end Int

/-! ## Pointers -/

/-- The sixteenths of `x` from the top, in the order in which `printptr` shifts them out. -/
def nibbles : ℕ → BitVec 64 → List ℕ
  | 0, _ => []
  | n + 1, x => (x >>> 60).toNat :: nibbles n (x <<< 4)

@[simp] theorem length_nibbles (n : ℕ) (x : BitVec 64) : (nibbles n x).length = n := by
  induction n generalizing x with
  | zero => rfl
  | succ n ih => rw [nibbles, List.length_cons, ih]

theorem top_lt (x : BitVec 64) : (x >>> 60).toNat < 16 := by
  have := x.isLt
  rw [BitVec.toNat_ushiftRight, Nat.shiftRight_eq_div_pow]
  omega

theorem nibbles_lt (n : ℕ) (x : BitVec 64) : ∀ d ∈ nibbles n x, d < 16 := by
  induction n generalizing x with
  | zero => simp [nibbles]
  | succ n ih =>
    rw [nibbles]
    exact List.forall_mem_cons.mpr ⟨top_lt x, ih _⟩

theorem value_nibbles (n : ℕ) (x : BitVec 64) (hn : n ≤ 16) :
    value 16 (nibbles n x) = x.toNat / 2 ^ (64 - 4 * n) := by
  induction n generalizing x with
  | zero => exact (Nat.div_eq_of_lt x.isLt).symm
  | succ n ih =>
    have hpow : 2 ^ 60 = 2 ^ (64 - 4 * (n + 1)) * 16 ^ n := by
      rw [show 16 = 2 ^ 4 from rfl, ← pow_mul, ← pow_add]
      congr 1
      omega
    have hpow' : 2 ^ (64 - 4 * n) = 2 ^ (64 - 4 * (n + 1)) * 2 ^ 4 := by
      rw [← pow_add]
      congr 1
      omega
    -- the top digit and the rest of the number
    have hx : x.toNat = x.toNat % 2 ^ 60 + 2 ^ (64 - 4 * (n + 1)) * (x.toNat / 2 ^ 60 * 16 ^ n) := by
      calc x.toNat = x.toNat % 2 ^ 60 + 2 ^ 60 * (x.toNat / 2 ^ 60) := (Nat.mod_add_div ..).symm
        _ = _ := by rw [hpow]; ring
    have hshift : (x <<< 4).toNat = x.toNat % 2 ^ 60 * 2 ^ 4 := by
      have := x.isLt
      rw [BitVec.toNat_shiftLeft, Nat.shiftLeft_eq]
      omega
    rw [nibbles, value_cons, ih _ (by omega), length_nibbles, hshift, hpow', Nat.mul_div_mul_right _ _ (by norm_num),
      BitVec.toNat_ushiftRight, Nat.shiftRight_eq_div_pow]
    conv_rhs => rw [hx, Nat.add_mul_div_left _ _ (by positivity)]
    ring

theorem ptrDigits_eq {table : List Char} (ht : 16 ≤ table.length) (n : ℕ) (x : BitVec 64) :
    ptrDigits table n x = some ((nibbles n x).map (table.getD · '0')) := by
  induction n generalizing x with
  | zero => rfl
  | succ n ih =>
    have hc : table[(x >>> 60).toNat]? = some (table.getD (x >>> 60).toNat '0') := by
      rw [List.getD_eq_getElem?_getD, List.getElem?_eq_getElem ((top_lt x).trans_le ht)]
      rfl
    rw [ptrDigits, hc, ih, nibbles, List.map_cons]
    rfl

theorem denotesPtr_kernel_iff (x : BitVec 64) :
    DenotesPtr x.toNat (['0', 'x'] ++ (nibbles 16 x).map Kprintf.char) ↔ ∀ d ∈ nibbles 16 x, d < 12 := by
  have hlt := nibbles_lt 16 x
  have hv : value 16 (nibbles 16 x) = x.toNat := by
    rw [value_nibbles 16 x le_rfl]
    simp
  rw [← Kprintf.map_char_eq_iff hlt]
  constructor
  · intro h
    obtain ⟨ds, hs, hlen, hds, hval⟩ := h.text
    have hmap := List.append_cancel_left hs
    rwa [← eq_of_value_eq (by norm_num) (by simp [hlen]) hlt hds (by rw [hv, hval])] at hmap
  · intro h
    rw [h]
    refine ⟨⟨nibbles 16 x, rfl, length_nibbles 16 x, hlt, hv⟩, ?_⟩
    rw [← hv]
    exact parseNat_digits hexTable_nodup (by rw [length_hexTable]) (by simp [nibbles]) hlt (map_some_hexChar hlt)

theorem kernel_agrees_ptr_iff (x : BitVec 64) :
    (['0', 'x'] ++ (nibbles 16 x).map Uprintf.char).map Char.toLower =
      ['0', 'x'] ++ (nibbles 16 x).map Kprintf.char ↔ ∀ d ∈ nibbles 16 x, d < 12 := by
  have hlt := nibbles_lt 16 x
  rw [List.map_append, Uprintf.map_toLower hlt, show ['0', 'x'].map Char.toLower = ['0', 'x'] by decide,
    List.append_cancel_left_eq, ← Kprintf.map_char_eq_iff hlt, eq_comm]

/-- No digit of `x` is one of those that the kernel's table has wrong. -/
def LowDigits (ds : List ℕ) : Prop := ∀ d ∈ ds, d < 12

/-- Both functions of the kernel stay inside the buffer and the table. What they send denotes the number, and
is what the library writes up to letter case, exactly if all digits are below 12. -/
theorem kernel_numerals_iff (x : BitVec 32) (y : BitVec 64) (b : ℕ) (hb : b = 10 ∨ b = 16) :
    (∃ s u, Kprintf.printfint x b true = some s ∧ Uprintf.printint x b true = some u ∧
      (Denotes b x.toInt s ↔ LowDigits (numeral b x.toInt.natAbs)) ∧
      (u.map Char.toLower = s ↔ LowDigits (numeral b x.toInt.natAbs))) ∧
    ∃ s u, Kprintf.printptr y = some s ∧ Uprintf.printptr y = some u ∧
      (DenotesPtr y.toNat s ↔ LowDigits (nibbles 16 y)) ∧ (u.map Char.toLower = s ↔ LowDigits (nibbles 16 y)) := by
  have hk : 16 ≤ Kprintf.digits.length := by decide
  have hu : 16 ≤ Uprintf.digits.length := by decide
  constructor
  · refine ⟨_, _, (Kprintf.printfint_signed x b).trans (sendDigits_int x hk hb),
      (Uprintf.printint_signed x b).trans (sendDigits_int x hu hb), denotes_kernel_iff hb _, kernel_agrees_iff hb _⟩
  · refine ⟨['0', 'x'] ++ (nibbles 16 y).map Kprintf.char, ['0', 'x'] ++ (nibbles 16 y).map Uprintf.char, ?_, ?_,
      denotesPtr_kernel_iff y, kernel_agrees_ptr_iff y⟩
    · rw [Kprintf.printptr, ptrDigits_eq hk]
      rfl
    · rw [Uprintf.printptr, ptrDigits_eq hu]
      rfl

/-- The most negative number in base 10. -/
theorem kernel_numerals_iff_minimum :
    ∃ s, Kprintf.printfint 0x80000000#32 10 true = some s ∧ Denotes 10 (-2147483648) s := by
  obtain ⟨s, -, hs, -, hd, -⟩ := (kernel_numerals_iff 0x80000000#32 0 10 (.inl rfl)).1
  refine ⟨s, hs, hd.mpr fun d hd => ?_⟩
  have := numeral_lt (by norm_num) hd
  omega

/-- Twelve in base 16 is printed as `d`, which reads as thirteen, and fifteen as a NUL. -/
theorem kernel_hex_digits_shifted :
    Kprintf.printfint 12#32 16 true = some ['d'] ∧ ¬Denotes 16 12 ['d'] ∧
      Kprintf.printfint 15#32 16 true = some ['\x00'] ∧ Uprintf.printint 15#32 16 true = some ['F'] := by
  refine ⟨by decide, fun h => ?_, by decide, by decide⟩
  exact absurd h.parse (by decide)

end Xv6Arm

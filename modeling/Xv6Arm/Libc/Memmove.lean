import Xv6Arm.Lib.LittleEndian

/-!
# The two `memmove`

`string.c` of the kernel and `ulib.c` of the user library each copy upwards or
downwards, and each decides by its own comparison of the pointers. Pointers are
64-bit numbers; the length is a `uint` in the kernel and an `int` in the library.
-/
namespace Xv6Arm
open Lib

/-- The loop `while(n-- > 0) *d++ = *s++`. -/
def copyUp (f : Bytes) : ℕ → ℕ → ℕ → Bytes
  | _, _, 0 => f
  | d, s, n + 1 => copyUp (Function.update f d (f s)) ((d + 1) % 2 ^ 64) ((s + 1) % 2 ^ 64) n

/-- The loop `while(n-- > 0) *--d = *--s`. -/
def copyDown (f : Bytes) : ℕ → ℕ → ℕ → Bytes
  | _, _, 0 => f
  | d, s, n + 1 =>
    let d := (d + (2 ^ 64 - 1)) % 2 ^ 64
    let s := (s + (2 ^ 64 - 1)) % 2 ^ 64
    copyDown (Function.update f d (f s)) d s n

/-- `memmove` of `string.c`: the pointer it returns and the memory it leaves. -/
def StringC.memmove (f : Bytes) (dst src n : ℕ) : ℕ × Bytes :=
  if src < dst ∧ dst < (src + n) % 2 ^ 64 then
    (dst, copyDown f ((dst + n) % 2 ^ 64) ((src + n) % 2 ^ 64) n)
  else (dst, copyUp f dst src n)

/-- `memmove` of `ulib.c`. -/
def Ulib.memmove (f : Bytes) (vdst vsrc : ℕ) (n : ℤ) : ℕ × Bytes :=
  if vdst < vsrc then (vdst, copyUp f vdst vsrc n.toNat)
  else (vdst, copyDown f ((vdst + n) % 2 ^ 64).toNat ((vsrc + n) % 2 ^ 64).toNat n.toNat)

/-- `g` is `f` with the `n` bytes from `src` on moved to `dst`. -/
structure Moved (f : Bytes) (dst src n : ℕ) (g : Bytes) : Prop where
  inside : ∀ i < n, g (dst + i) = f (src + i)
  outside : ∀ a, a < dst ∨ dst + n ≤ a → g a = f a

namespace Moved
variable {f g g' : Bytes} {dst src n : ℕ}

theorem unique (h : Moved f dst src n g) (h' : Moved f dst src n g') : g = g' := by
  funext a
  by_cases ha : a < dst ∨ dst + n ≤ a
  · rw [h.outside a ha, h'.outside a ha]
  · obtain ⟨i, rfl⟩ : ∃ i, a = dst + i := ⟨a - dst, by omega⟩
    rw [h.inside i (by omega), h'.inside i (by omega)]

/-- Copying the first byte and then the rest, which that did not touch. -/
theorem cons (hle : dst ≤ src ∨ src + n < dst)
    (h : Moved (Function.update f dst (f src)) (dst + 1) (src + 1) n g) : Moved f dst src (n + 1) g := by
  refine ⟨fun i hi => ?_, fun a ha => ?_⟩
  · cases i with
    | zero => rw [Nat.add_zero, h.outside dst (.inl (by omega)), Function.update_self, Nat.add_zero]
    | succ i =>
      have hi' := h.inside i (by omega)
      rw [Function.update_of_ne (by omega)] at hi'
      rwa [Nat.add_comm i 1, ← Nat.add_assoc, ← Nat.add_assoc]
  · rw [h.outside a (by omega), Function.update_of_ne (by omega)]

/-- Copying the last byte and then the ones before it. -/
theorem concat (hle : src ≤ dst)
    (h : Moved (Function.update f (dst + n) (f (src + n))) dst src n g) : Moved f dst src (n + 1) g := by
  refine ⟨fun i hi => ?_, fun a ha => ?_⟩
  · by_cases hlast : i = n
    · rw [hlast, h.outside _ (.inr le_rfl), Function.update_self]
    · rw [h.inside i (by omega), Function.update_of_ne (by omega)]
  · rw [h.outside a (by omega), Function.update_of_ne (by omega)]

end Moved

theorem copyUp_moved {dst src n : ℕ} (f : Bytes) (hs : src + n ≤ 2 ^ 64) (hd : dst + n ≤ 2 ^ 64)
    (hle : dst ≤ src ∨ src + n ≤ dst) : Moved f dst src n (copyUp f dst src n) := by
  induction n generalizing f dst src with
  | zero => exact ⟨fun i hi => absurd hi (Nat.not_lt_zero i), fun _ _ => rfl⟩
  | succ n ih =>
    refine .cons (hle.imp_right fun h => by omega) ?_
    cases n with
    | zero => exact ⟨fun i hi => absurd hi (Nat.not_lt_zero i), fun _ _ => rfl⟩
    | succ n =>
      rw [copyUp, Nat.mod_eq_of_lt (by omega), Nat.mod_eq_of_lt (by omega)]
      exact ih _ (by omega) (by omega) (by omega)

theorem copyDown_moved {dst src n : ℕ} (f : Bytes) (hs : src + n ≤ 2 ^ 64) (hd : dst + n ≤ 2 ^ 64)
    (hle : src ≤ dst) :
    Moved f dst src n (copyDown f ((dst + n) % 2 ^ 64) ((src + n) % 2 ^ 64) n) := by
  induction n generalizing f with
  | zero => exact ⟨fun i hi => absurd hi (Nat.not_lt_zero i), fun _ _ => rfl⟩
  | succ n ih =>
    have hpred : ∀ p, p + (n + 1) ≤ 2 ^ 64 → ((p + (n + 1)) % 2 ^ 64 + (2 ^ 64 - 1)) % 2 ^ 64 = p + n := by
      intro p hp
      omega
    have hlast : ∀ p, p + (n + 1) ≤ 2 ^ 64 → p + n = (p + n) % 2 ^ 64 :=
      fun p hp => (Nat.mod_eq_of_lt (by omega)).symm
    rw [copyDown, hpred dst hd, hpred src hs]
    refine .concat hle ?_
    have := ih (Function.update f (dst + n) (f (src + n))) (by omega) (by omega)
    rwa [← hlast dst hd, ← hlast src hs] at this

theorem StringC.memmove_moved {dst src n : ℕ} (f : Bytes) (hs : src + n ≤ 2 ^ 64) (hd : dst + n ≤ 2 ^ 64) :
    Moved f dst src n (StringC.memmove f dst src n).2 := by
  unfold StringC.memmove
  split <;> rename_i h
  · exact copyDown_moved f hs hd h.1.le
  · refine copyUp_moved f hs hd ?_
    -- with the source below the destination its end does not wrap
    by_contra hno
    have hmod : (src + n) % 2 ^ 64 = src + n := Nat.mod_eq_of_lt (by omega)
    rw [hmod] at h
    omega

theorem Ulib.memmove_moved {dst src n : ℕ} (f : Bytes) (hs : src + n ≤ 2 ^ 64) (hd : dst + n ≤ 2 ^ 64) :
    Moved f dst src n (Ulib.memmove f dst src n).2 := by
  unfold Ulib.memmove
  split <;> rename_i h
  · exact copyUp_moved f hs hd (.inl h.le)
  · exact copyDown_moved f hs hd (Nat.le_of_not_lt h)

/-- A negative length moves nothing. -/
theorem Ulib.memmove_neg (f : Bytes) (dst src : ℕ) {n : ℤ} (hn : n < 0) : (Ulib.memmove f dst src n).2 = f := by
  have h0 : n.toNat = 0 := by omega
  unfold Ulib.memmove
  rw [h0]
  split <;> rfl

theorem StringC.memmove_fst (f : Bytes) (dst src n : ℕ) : (StringC.memmove f dst src n).1 = dst := by
  unfold StringC.memmove
  split <;> rfl

theorem Ulib.memmove_fst (f : Bytes) (dst src : ℕ) (n : ℤ) : (Ulib.memmove f dst src n).1 = dst := by
  unfold Ulib.memmove
  split <;> rfl

/-- Whatever the overlap, the kernel moves every length that a `uint` holds, and the library does the same
for every length that an `int` holds. A length above that is negative for the library, which moves nothing. -/
theorem memmove_overlapping (f : Bytes) (dst src : ℕ) (n : BitVec 32) (hs : src + n.toNat ≤ 2 ^ 64)
    (hd : dst + n.toNat ≤ 2 ^ 64) :
    Moved f dst src n.toNat (StringC.memmove f dst src n.toNat).2 ∧
      (n.toNat < 2 ^ 31 → Moved f dst src n.toNat (Ulib.memmove f dst src n.toInt).2 ∧
        Ulib.memmove f dst src n.toInt = StringC.memmove f dst src n.toNat) ∧
      (2 ^ 31 ≤ n.toNat → (Ulib.memmove f dst src n.toInt).2 = f) := by
  have hkernel := StringC.memmove_moved f hs hd
  refine ⟨hkernel, fun hsmall => ?_, fun hlarge => ?_⟩
  · have hint : n.toInt = (n.toNat : ℤ) := by
      rw [BitVec.toInt_eq_toNat_cond, if_pos (by omega)]
    have huser := Ulib.memmove_moved f hs hd
    rw [hint]
    refine ⟨huser, Prod.ext ?_ (huser.unique hkernel)⟩
    rw [Ulib.memmove_fst, StringC.memmove_fst]
  · have hlt := n.isLt
    refine Ulib.memmove_neg f dst src ?_
    rw [BitVec.toInt_eq_toNat_cond, if_neg (by omega)]
    omega

/-- Three bytes moved up by one, onto two of themselves. -/
theorem memmove_overlapping_by_one :
    Moved (fun a => UInt8.ofNat a) 1 0 3 (Ulib.memmove (fun a => UInt8.ofNat a) 1 0 3).2 ∧
      Ulib.memmove (fun a => UInt8.ofNat a) 1 0 3 = StringC.memmove (fun a => UInt8.ofNat a) 1 0 3 :=
  (memmove_overlapping (fun a => UInt8.ofNat a) 1 0 3#32 (by decide) (by decide)).2.1 (by decide)

/-- Two gigabytes do not fit an `int`: the library leaves the destination as it was. -/
theorem ulib_memmove_two_gigabytes :
    ∃ f : Bytes, (0x80000000#32).toNat = 2 ^ 31 ∧
      ¬Moved f (2 ^ 31) 0 (2 ^ 31) (Ulib.memmove f (2 ^ 31) 0 (0x80000000#32).toInt).2 ∧
      Moved f (2 ^ 31) 0 (2 ^ 31) (StringC.memmove f (2 ^ 31) 0 (2 ^ 31)).2 := by
  refine ⟨fun a => if a = 0 then 1 else 0, by decide, fun h => ?_, StringC.memmove_moved _ (by norm_num) (by norm_num)⟩
  have hfirst := h.inside 0 (by norm_num)
  rw [Ulib.memmove_neg _ _ _ (by decide)] at hfirst
  simp at hfirst

end Xv6Arm

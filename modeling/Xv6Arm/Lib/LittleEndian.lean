import Mathlib

/-!
# Little-endian fields of byte arrays

Reading and overwriting a field of `w` bytes at an offset, and copying a run of
bytes. Each write has one lemma for the field it sets and one for every field it
does not touch.
-/
namespace Xv6Arm.Lib

/-- Bytes addressed from 0. -/
abbrev Bytes := ℕ → UInt8

/-- The number held in the `w` bytes from `o` on, least significant byte first. -/
def leGet (f : Bytes) : ℕ → ℕ → ℕ
  | _, 0 => 0
  | o, w + 1 => (f o).toNat + 256 * leGet f (o + 1) w

/-- Store the low `w` bytes of `v` from `o` on. -/
def lePut (f : Bytes) (o w v : ℕ) : Bytes := fun i =>
  if o ≤ i ∧ i < o + w then UInt8.ofNat (v / 256 ^ (i - o)) else f i

/-- The `n` bytes from `o` on. -/
def getBytes (f : Bytes) (o n : ℕ) : List UInt8 := (List.range n).map fun i => f (o + i)

/-- Overwrite the bytes from `o` on with `l`. -/
def putBytes (f : Bytes) (o : ℕ) (l : List UInt8) : Bytes := fun i =>
  if o ≤ i ∧ i < o + l.length then l.getD (i - o) 0 else f i

theorem leGet_congr {f g : Bytes} (o w : ℕ) (h : ∀ i, o ≤ i → i < o + w → f i = g i) :
    leGet f o w = leGet g o w := by
  induction w generalizing o with
  | zero => rfl
  | succ w ih =>
    rw [leGet, leGet, h o (by omega) (by omega)]
    rw [ih (o + 1) (fun i hi hw => h i (by omega) (by omega))]

theorem leGet_lt (f : Bytes) (o w : ℕ) : leGet f o w < 256 ^ w := by
  induction w generalizing o with
  | zero => simp [leGet]
  | succ w ih =>
    have hb := (f o).toNat_lt
    have hr := ih (o + 1)
    rw [leGet, pow_succ]
    omega

theorem lePut_outside {f : Bytes} {o w v i : ℕ} (h : i < o ∨ o + w ≤ i) : lePut f o w v i = f i := by
  rw [lePut, if_neg (by omega)]

theorem putBytes_outside {f : Bytes} {o i : ℕ} {l : List UInt8} (h : i < o ∨ o + l.length ≤ i) :
    putBytes f o l i = f i := by
  rw [putBytes, if_neg (by omega)]

theorem putBytes_inside {f : Bytes} {o i : ℕ} {l : List UInt8} (h : i < l.length) : putBytes f o l (o + i) = l.getD i 0 := by
  rw [putBytes, if_pos (by omega), Nat.add_sub_cancel_left]

theorem putBytes_nil (f : Bytes) (o : ℕ) : putBytes f o [] = f := by
  funext x
  exact if_neg (by simp)

/-- Two writes next to each other are one. -/
theorem putBytes_append (f : Bytes) (o : ℕ) (l l' : List UInt8) :
    putBytes (putBytes f o l) (o + l.length) l' = putBytes f o (l ++ l') := by
  funext x
  simp only [putBytes, List.length_append]
  by_cases h1 : o ≤ x ∧ x < o + l.length
  · rw [if_neg (by omega), if_pos h1, if_pos (by omega), List.getD_append _ _ _ _ (by omega)]
  · by_cases h2 : o + l.length ≤ x ∧ x < o + l.length + l'.length
    · rw [if_pos h2, if_pos (by omega), List.getD_append_right _ _ _ _ (by omega)]
      congr 1
      omega
    · rw [if_neg h2, if_neg h1, if_neg (by omega)]

theorem leGet_ofNat_div (f : Bytes) (o o' w v : ℕ) (ho : o ≤ o')
    (h : ∀ i, o' ≤ i → i < o' + w → f i = UInt8.ofNat (v / 256 ^ (i - o))) :
    leGet f o' w = v / 256 ^ (o' - o) % 256 ^ w := by
  induction w generalizing o' with
  | zero => simp [leGet, Nat.mod_one]
  | succ w ih =>
    have hdiv : v / 256 ^ (o' + 1 - o) = v / 256 ^ (o' - o) / 256 := by
      rw [Nat.div_div_eq_div_mul, ← pow_succ]
      congr 2
      omega
    rw [leGet, h o' le_rfl (by omega)]
    rw [ih (o' + 1) (by omega) (fun i hi hw => h i (by omega) (by omega)), hdiv]
    rw [pow_succ, mul_comm (256 ^ w) 256, Nat.mod_mul]
    simp

theorem leGet_lePut (f : Bytes) (o w v : ℕ) : leGet (lePut f o w v) o w = v % 256 ^ w := by
  have h := leGet_ofNat_div (lePut f o w v) o o w v le_rfl
    (fun i hi hw => by rw [lePut, if_pos ⟨hi, hw⟩])
  simpa using h

theorem leGet_lePut_of_lt {f : Bytes} {o w v : ℕ} (h : v < 256 ^ w) :
    leGet (lePut f o w v) o w = v := by
  rw [leGet_lePut, Nat.mod_eq_of_lt h]

theorem leGet_lePut_disjoint {f : Bytes} {o w v o' w' : ℕ} (h : o' + w' ≤ o ∨ o + w ≤ o') :
    leGet (lePut f o w v) o' w' = leGet f o' w' :=
  leGet_congr o' w' fun _ _ _ => lePut_outside (by omega)

@[simp] theorem length_getBytes (f : Bytes) (o n : ℕ) : (getBytes f o n).length = n := by
  simp [getBytes]

/-! ## Consecutive fields of one width -/

/-- Store the list `l` as consecutive `w`-byte fields from `o` on. -/
def lePuts (f : Bytes) (o w : ℕ) : List ℕ → Bytes
  | [] => f
  | v :: l => lePuts (lePut f o w v) (o + w) w l

/-- The `n` consecutive `w`-byte fields from `o` on. -/
def leGets (f : Bytes) (o w n : ℕ) : List ℕ := (List.range n).map fun i => leGet f (o + w * i) w

theorem leGet_lePuts_before {f : Bytes} {o w o' w' : ℕ} (l : List ℕ) (h : o' + w' ≤ o) :
    leGet (lePuts f o w l) o' w' = leGet f o' w' := by
  induction l generalizing f o with
  | nil => rfl
  | cons v l ih => rw [lePuts, ih (by omega), leGet_lePut_disjoint (by omega)]

theorem leGet_lePuts {f : Bytes} {o w : ℕ} {l : List ℕ} (h : ∀ v ∈ l, v < 256 ^ w) (i : ℕ)
    (hi : i < l.length) : leGet (lePuts f o w l) (o + w * i) w = l[i] := by
  induction l generalizing f o i with
  | nil => exact absurd hi (by simp)
  | cons v l ih =>
    cases i with
    | zero =>
      rw [lePuts, Nat.mul_zero, Nat.add_zero, leGet_lePuts_before l le_rfl]
      exact leGet_lePut_of_lt (h v (by simp))
    | succ i =>
      have ho : o + w * (i + 1) = o + w + w * i := by ring
      rw [lePuts, ho]
      exact ih (fun u hu => h u (by simp [hu])) i (by simpa using hi)

theorem leGet_lePuts_after {f : Bytes} {o w o' w' : ℕ} (l : List ℕ) (h : o + w * l.length ≤ o') :
    leGet (lePuts f o w l) o' w' = leGet f o' w' := by
  induction l generalizing f o with
  | nil => rfl
  | cons v l ih =>
    have hl : o + w + w * l.length ≤ o' := by
      rw [List.length_cons, Nat.mul_succ] at h
      omega
    rw [lePuts, ih hl, leGet_lePut_disjoint (.inr (by omega))]

theorem leGets_lePuts {f : Bytes} {o w : ℕ} {l : List ℕ} (h : ∀ v ∈ l, v < 256 ^ w) :
    leGets (lePuts f o w l) o w l.length = l := by
  apply List.ext_getElem
  · simp [leGets]
  · intro i hi hl
    simpa [leGets] using leGet_lePuts h i hl

end Xv6Arm.Lib

import Mathlib

/-!
# A ring buffer with free-running counters

`N` cells are addressed by counters that only grow and are kept modulo a word
size `W`. Since `N` divides `W`, a counter still names its cell after it has
wrapped. The elements in the ring form a queue: `put` adds at its end and `take`
removes at its front.
-/
namespace Xv6Arm.Lib
namespace Ring
variable {α : Type}

/-- How many elements there are between two counters modulo `W`. -/
def count (W rd wr : ℕ) : ℕ := (wr + (W - rd)) % W

/-- The elements in the ring, the oldest first. -/
def contents (N W : ℕ) (cells : ℕ → α) (rd wr : ℕ) : List α :=
  (List.range (count W rd wr)).map fun i => cells ((rd + i) % N)

/-- The ring holds the queue `xs`. -/
structure Holds (N W : ℕ) (cells : ℕ → α) (rd wr : ℕ) (xs : List α) : Prop where
  rd_lt : rd < W
  wr_eq : wr = (rd + xs.length) % W
  fits : xs.length ≤ N
  cell : ∀ i (h : i < xs.length), cells ((rd + i) % N) = xs[i]

variable {N W rd wr : ℕ} {cells : ℕ → α} {xs : List α}

theorem holds_nil (hrd : rd < W) : Holds N W cells rd rd [] where
  rd_lt := hrd
  wr_eq := (Nat.mod_eq_of_lt hrd).symm
  fits := Nat.zero_le N
  cell i h := absurd h (Nat.not_lt_zero i)

/-- Distinct positions less than `N` apart have distinct cells. -/
theorem cell_ne {a i j : ℕ} (hij : i < j) (hj : j < i + N) : (a + i) % N ≠ (a + j) % N := by
  intro h
  have hmod : a + i ≡ a + j [MOD N] := h
  have hdvd := (Nat.modEq_iff_dvd' (by omega)).mp hmod
  have hle := Nat.le_of_dvd (by omega) hdvd
  omega

section
variable (hd : N ∣ W) (hlt : N < W)

namespace Holds
variable (h : Holds N W cells rd wr xs)
include hlt h

theorem count_eq : count W rd wr = xs.length := by
  have hrd := h.rd_lt
  have hfits := h.fits
  rw [count, h.wr_eq, Nat.mod_add_mod]
  have hsum : rd + xs.length + (W - rd) = xs.length + W := by omega
  rw [hsum, Nat.add_mod_right, Nat.mod_eq_of_lt (by omega)]

theorem contents_eq : contents N W cells rd wr = xs := by
  rw [contents, h.count_eq hlt]
  apply List.ext_getElem
  · simp
  · intro i hi hx
    simpa using h.cell i hx

theorem empty_iff : rd = wr ↔ xs = [] := by
  constructor
  · rintro rfl
    have hc := h.count_eq hlt
    have hrd := h.rd_lt
    rw [count, Nat.add_sub_cancel' hrd.le, Nat.mod_self] at hc
    exact List.eq_nil_of_length_eq_zero hc.symm
  · rintro rfl
    rw [h.wr_eq, List.length_nil, Nat.add_zero, Nat.mod_eq_of_lt h.rd_lt]

theorem full_iff : wr = (rd + N) % W ↔ xs.length = N := by
  constructor
  · intro hwr
    have hc := h.count_eq hlt
    have hrd := h.rd_lt
    rw [count, hwr, Nat.mod_add_mod] at hc
    have hsum : rd + N + (W - rd) = N + W := by omega
    rw [hsum, Nat.add_mod_right, Nat.mod_eq_of_lt hlt] at hc
    exact hc.symm
  · intro hlen
    rw [h.wr_eq, hlen]

omit hlt in
include hd in
theorem put (hroom : xs.length ≠ N) (c : α) :
    Holds N W (Function.update cells (wr % N) c) rd ((wr + 1) % W) (xs ++ [c]) where
  rd_lt := h.rd_lt
  wr_eq := by
    rw [h.wr_eq, List.length_append, List.length_singleton, Nat.mod_add_mod, Nat.add_assoc]
  fits := by
    have hfits := h.fits
    rw [List.length_append, List.length_singleton]
    omega
  cell i hi := by
    have hfits := h.fits
    have hwr : wr % N = (rd + xs.length) % N := by rw [h.wr_eq, Nat.mod_mod_of_dvd _ hd]
    rw [List.length_append, List.length_singleton] at hi
    rw [hwr]
    by_cases hlast : i < xs.length
    · rw [Function.update_of_ne (cell_ne hlast (by omega)), h.cell i hlast,
        List.getElem_append_left hlast]
    · have heq : i = xs.length := by omega
      subst heq
      simp

end Holds

include hd in
/-- The oldest element comes out first. -/
theorem Holds.take {x : α} (h : Holds N W cells rd wr (x :: xs)) :
    cells (rd % N) = x ∧ Holds N W cells ((rd + 1) % W) wr xs := by
  have hlen : (x :: xs).length = xs.length + 1 := rfl
  have hfits := h.fits
  refine ⟨h.cell 0 (by simp), ?_⟩
  constructor
  · exact Nat.mod_lt _ (Nat.lt_of_le_of_lt (Nat.zero_le _) h.rd_lt)
  · rw [h.wr_eq, hlen, Nat.mod_add_mod, Nat.add_assoc, Nat.add_comm 1]
  · omega
  · intro i hi
    have hcell := h.cell (i + 1) (by omega)
    rw [List.getElem_cons_succ] at hcell
    rw [← hcell, Nat.add_mod, Nat.mod_mod_of_dvd _ hd, ← Nat.add_mod, Nat.add_assoc, Nat.add_comm 1]

include hd in
/-- The youngest element is taken back. -/
theorem Holds.unput {x : α} (h : Holds N W cells rd wr (xs ++ [x])) :
    cells ((wr + (W - 1)) % W % N) = x ∧ Holds N W cells rd ((wr + (W - 1)) % W) xs := by
  have hlen : (xs ++ [x]).length = xs.length + 1 := by simp
  have hfits := h.fits
  have hrd := h.rd_lt
  have hwr : (wr + (W - 1)) % W = (rd + xs.length) % W := by
    have hsum : rd + (xs.length + 1) + (W - 1) = rd + xs.length + W := by omega
    rw [h.wr_eq, hlen, Nat.mod_add_mod, hsum, Nat.add_mod_right]
  refine ⟨?_, h.rd_lt, hwr, by omega, ?_⟩
  · have hcell := h.cell xs.length (by omega)
    rw [hwr, Nat.mod_mod_of_dvd _ hd, hcell]
    simp
  · intro i hi
    rw [h.cell i (by omega), List.getElem_append_left hi]

include hd in
/-- The cell behind the youngest element may be written while there is room. -/
theorem Holds.write (h : Holds N W cells rd wr xs) (hroom : xs.length ≠ N) (c : α) :
    Holds N W (Function.update cells (wr % N) c) rd wr xs := by
  refine ⟨h.rd_lt, h.wr_eq, h.fits, ?_⟩
  intro i hi
  have hfits := h.fits
  have hwr : wr % N = (rd + xs.length) % N := by rw [h.wr_eq, Nat.mod_mod_of_dvd _ hd]
  rw [hwr, Function.update_of_ne (cell_ne hi (by omega)), h.cell i hi]

include hd in
/-- That cell becomes the youngest element. -/
theorem Holds.commit (h : Holds N W cells rd wr xs) (hroom : xs.length ≠ N) :
    Holds N W cells rd ((wr + 1) % W) (xs ++ [cells (wr % N)]) := by
  have hput := h.put hd hroom (cells (wr % N))
  rwa [Function.update_eq_self] at hput

end
end Ring
end Xv6Arm.Lib

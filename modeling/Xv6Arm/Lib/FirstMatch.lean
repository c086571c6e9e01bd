import Mathlib

/-!
# Searching and updating the first match of a list

A table kept as a list is searched from the front; an update changes the first
entry that matches. These lemmas say what a later search finds.
-/
namespace Xv6Arm.Lib
variable {α : Type}

/-- Apply `f` to the first element that satisfies `p`. -/
def modifyFirst (p : α → Bool) (f : α → α) : List α → List α
  | [] => []
  | x :: l => if p x then f x :: l else x :: modifyFirst p f l

@[simp] theorem length_modifyFirst (p : α → Bool) (f : α → α) (l : List α) :
    (modifyFirst p f l).length = l.length := by
  induction l with
  | nil => rfl
  | cons x l ih =>
    unfold modifyFirst
    split <;> simp [ih]

theorem find?_modifyFirst {p : α → Bool} {f : α → α} (hf : ∀ x, p x → p (f x)) (l : List α) :
    (modifyFirst p f l).find? p = (l.find? p).map f := by
  induction l with
  | nil => rfl
  | cons x l ih =>
    by_cases hx : p x = true
    · simp [modifyFirst, hx, hf x hx]
    · simp [modifyFirst, hx, ih]

theorem find?_modifyFirst_other {p q : α → Bool} {f : α → α} (hq : ∀ x, p x → q x = false)
    (hf : ∀ x, p x → q (f x) = false) (l : List α) :
    (modifyFirst p f l).find? q = l.find? q := by
  induction l with
  | nil => rfl
  | cons x l ih =>
    by_cases hx : p x = true
    · simp [modifyFirst, hx, hq x hx, hf x hx]
    · cases hqx : q x <;> simp [modifyFirst, hx, hqx, ih]

theorem mem_modifyFirst {p : α → Bool} {f : α → α} {l : List α} {y : α}
    (hy : y ∈ modifyFirst p f l) : y ∈ l ∨ ∃ x, l.find? p = some x ∧ y = f x := by
  induction l with
  | nil => cases hy
  | cons x l ih =>
    by_cases hx : p x = true
    · rw [modifyFirst, if_pos hx, List.mem_cons] at hy
      rcases hy with rfl | hy
      · exact .inr ⟨x, by simp [hx], rfl⟩
      · exact .inl (List.mem_cons_of_mem _ hy)
    · rw [modifyFirst, if_neg hx, List.mem_cons] at hy
      rcases hy with rfl | hy
      · exact .inl List.mem_cons_self
      · rcases ih hy with h | ⟨z, hz, rfl⟩
        · exact .inl (List.mem_cons_of_mem _ h)
        · exact .inr ⟨z, by simp [hx, hz], rfl⟩

theorem find?_eraseP_other {p q : α → Bool} (hq : ∀ x, p x → q x = false) (l : List α) :
    (l.eraseP p).find? q = l.find? q := by
  induction l with
  | nil => rfl
  | cons x l ih =>
    by_cases hx : p x = true
    · simp [hx, hq x hx]
    · cases hqx : q x <;> simp [hx, hqx, ih]

/-- A relation between any two entries survives an update that keeps it for the new entry. -/
theorem pairwise_modifyFirst {R : α → α → Prop} {p : α → Bool} {f : α → α}
    (hl : ∀ x y, p x → R x y → R (f x) y) (hr : ∀ x y, p y → R x y → R x (f y)) {l : List α}
    (h : l.Pairwise R) : (modifyFirst p f l).Pairwise R := by
  induction l with
  | nil => exact .nil
  | cons x l ih =>
    obtain ⟨hx, hl'⟩ := List.pairwise_cons.mp h
    by_cases hp : p x = true
    · rw [modifyFirst, if_pos hp]
      exact List.pairwise_cons.mpr ⟨fun y hy => hl x y hp (hx y hy), hl'⟩
    · rw [modifyFirst, if_neg hp]
      refine List.pairwise_cons.mpr ⟨fun y hy => ?_, ih hl'⟩
      rcases mem_modifyFirst hy with hy | ⟨z, hz, rfl⟩
      · exact hx y hy
      · exact hr x z (List.find?_some hz) (hx z (List.mem_of_find?_eq_some hz))

end Xv6Arm.Lib

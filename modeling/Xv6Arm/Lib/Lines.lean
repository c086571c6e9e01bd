import Mathlib

/-!
# Lines of a stream

The lines of a stream are what stands before each separator. Cutting the stream
in two leaves a line open at the cut, which the second part carries on.
-/
namespace Xv6Arm.Lib

section
variable {α : Type} [DecidableEq α] (sep : α)

/-- The lines of `s`, the first of which has begun with `acc` already. -/
def linesFrom (acc : List α) : List α → List (List α)
  | [] => []
  | c :: s => if c = sep then acc :: linesFrom [] s else linesFrom (acc ++ [c]) s

/-- What stands after the last separator. -/
def openLine (acc : List α) : List α → List α
  | [] => acc
  | c :: s => if c = sep then openLine [] s else openLine (acc ++ [c]) s

variable {sep} {acc a : List α}

theorem linesFrom_append (acc s t : List α) :
    linesFrom sep acc (s ++ t) = linesFrom sep acc s ++ linesFrom sep (openLine sep acc s) t := by
  induction s generalizing acc with
  | nil => rfl
  | cons c s ih =>
    simp only [List.cons_append, linesFrom, openLine]
    split
    · rw [ih, List.cons_append]
    · rw [ih]

theorem linesFrom_open (h : sep ∉ a) : linesFrom sep acc a = [] := by
  induction a generalizing acc with
  | nil => rfl
  | cons c a ih =>
    obtain ⟨hc, ha⟩ := not_or.mp (List.mem_cons.not.mp h)
    rw [linesFrom, if_neg (Ne.symm hc), ih ha]

theorem openLine_open (h : sep ∉ a) : openLine sep acc a = acc ++ a := by
  induction a generalizing acc with
  | nil => exact (List.append_nil acc).symm
  | cons c a ih =>
    obtain ⟨hc, ha⟩ := not_or.mp (List.mem_cons.not.mp h)
    rw [openLine, if_neg (Ne.symm hc), ih ha, List.append_assoc, List.singleton_append]

/-- A line and its separator, and then the rest. -/
theorem linesFrom_line (h : sep ∉ a) (s : List α) :
    linesFrom sep acc (a ++ sep :: s) = (acc ++ a) :: linesFrom sep [] s := by
  rw [linesFrom_append, linesFrom_open h, openLine_open h, List.nil_append, linesFrom, if_pos rfl]

theorem openLine_line (h : sep ∉ a) (s : List α) : openLine sep acc (a ++ sep :: s) = openLine sep [] s := by
  induction a generalizing acc with
  | nil => rw [List.nil_append, openLine, if_pos rfl]
  | cons c a ih =>
    obtain ⟨hc, ha⟩ := not_or.mp (List.mem_cons.not.mp h)
    rw [List.cons_append, openLine, if_neg (Ne.symm hc), ih ha]

/-- What has begun with `acc` is in front of what was read after it. -/
theorem linesFrom_acc (h : sep ∉ acc) (s : List α) : linesFrom sep acc s = linesFrom sep [] (acc ++ s) := by
  rw [linesFrom_append, linesFrom_open h, openLine_open h, List.nil_append, List.nil_append]

theorem not_mem_openLine (acc s : List α) (h : sep ∉ acc) : sep ∉ openLine sep acc s := by
  induction s generalizing acc with
  | nil => exact h
  | cons c s ih =>
    rw [openLine]
    split <;> rename_i hc
    · exact ih [] List.not_mem_nil
    · exact ih _ (by simpa [Ne.symm hc] using h)

/-- The first line is at least as long as what it has begun with. -/
theorem length_le_of_linesFrom {l : List α} {L : List (List α)} (s : List α) (h : linesFrom sep acc s = l :: L) :
    acc.length ≤ l.length := by
  induction s generalizing acc with
  | nil => cases h
  | cons c s ih =>
    rw [linesFrom] at h
    split at h
    · rw [(List.cons.inj h).1]
    · exact le_trans (by simp) (ih h)

/-- A line and its separator are no longer than the whole. -/
theorem length_lt_of_mem_linesFrom {l : List α} (s : List α) (h : l ∈ linesFrom sep acc s) :
    l.length < acc.length + s.length := by
  induction s generalizing acc with
  | nil => cases h
  | cons c s ih =>
    rw [linesFrom] at h
    rw [List.length_cons]
    split at h
    · rcases List.mem_cons.mp h with rfl | h
      · omega
      · have := ih h
        simp at this
        omega
    · have := ih h
      simp at this
      omega

end
end Xv6Arm.Lib

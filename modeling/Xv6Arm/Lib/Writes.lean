import Mathlib

/-!
# Sequences of single-cell writes

A store is changed by an ordered list of writes, each of one cell. A crash keeps
a prefix of the list. The facts here are the ones a redo log rests on: which
cells a list can change, and that redoing a whole list after any prefix of it
gives the same store as doing it once.
-/
namespace Xv6Arm.Lib
variable {K V : Type} [DecidableEq K]

/-- The store after the writes `ws`, in order. -/
def applyWrites (ws : List (K × V)) (d : K → V) : K → V :=
  ws.foldl (fun d w => Function.update d w.1 w.2) d

@[simp] theorem applyWrites_nil (d : K → V) : applyWrites [] d = d := rfl

@[simp] theorem applyWrites_cons (w : K × V) (ws : List (K × V)) (d : K → V) :
    applyWrites (w :: ws) d = applyWrites ws (Function.update d w.1 w.2) := rfl

theorem applyWrites_append (ws vs : List (K × V)) (d : K → V) :
    applyWrites (ws ++ vs) d = applyWrites vs (applyWrites ws d) := by
  simp [applyWrites]

theorem applyWrites_other {ws : List (K × V)} {d : K → V} {x : K} (h : ∀ w ∈ ws, w.1 ≠ x) :
    applyWrites ws d x = d x := by
  induction ws generalizing d with
  | nil => rfl
  | cons w ws ih =>
    rw [applyWrites_cons, ih (fun v hv => h v (List.mem_cons_of_mem _ hv))]
    exact Function.update_of_ne (h w List.mem_cons_self).symm _ _

/-- Two stores agree at a cell after `ws` if `ws` writes it or they agreed there before. -/
theorem applyWrites_congr {ws : List (K × V)} {d e : K → V} {x : K}
    (h : (∃ w ∈ ws, w.1 = x) ∨ d x = e x) : applyWrites ws d x = applyWrites ws e x := by
  induction ws generalizing d e with
  | nil => simpa using h
  | cons w ws ih =>
    rw [applyWrites_cons, applyWrites_cons]
    apply ih
    by_cases hw : w.1 = x
    · right
      rw [hw, Function.update_self, Function.update_self]
    · rcases h with ⟨v, hv, hvx⟩ | h
      · rcases List.mem_cons.mp hv with rfl | hv
        · exact absurd hvx hw
        · exact .inl ⟨v, hv, hvx⟩
      · exact .inr (by simpa [Function.update_of_ne (Ne.symm hw)] using h)

/-- Redoing a whole list after a prefix of it gives what doing it once gives. -/
theorem applyWrites_redo {ws vs : List (K × V)} (h : vs <+: ws) (d : K → V) :
    applyWrites ws (applyWrites vs d) = applyWrites ws d := by
  funext x
  apply applyWrites_congr
  by_cases hx : ∃ w ∈ ws, w.1 = x
  · exact .inl hx
  · right
    apply applyWrites_other
    intro w hw hwx
    exact hx ⟨w, h.subset hw, hwx⟩

/-- A prefix of `us ++ vs` ends inside `us` or goes on into `vs`. -/
theorem prefix_append_cases {α : Type} {ws us vs : List α} (h : ws <+: us ++ vs) :
    ws <+: us ∨ ∃ ts, ws = us ++ ts ∧ ts <+: vs := by
  rcases List.prefix_or_prefix_of_prefix h (List.prefix_append us vs) with h' | ⟨ts, rfl⟩
  · exact .inl h'
  · exact .inr ⟨ts, rfl, (List.prefix_append_right_inj us).mp h⟩

end Xv6Arm.Lib

import Mathlib

/-!
# Linked nodes

A list of nodes each of which is linked to the next one. A circular list is given
by its nodes from one of them on, with that one again at the end; changing the link
of a node leaves the others alone.
-/
namespace Xv6Arm.Lib

/-- Each node of the list is linked to the one after it. -/
def Follows {α : Type} (next : α → α) (l : List α) : Prop := l.IsChain fun a b => next a = b

namespace Follows
variable {α : Type} {next next' : α → α} {a b c : α} {l l' : List α}

theorem append_cons_cons : Follows next (l ++ a :: b :: l') ↔ Follows next (l ++ [a]) ∧ next a = b ∧ Follows next (b :: l') :=
  List.isChain_append_cons_cons

theorem cons_cons : Follows next (a :: b :: l) ↔ next a = b ∧ Follows next (b :: l) := List.isChain_cons_cons

theorem split : Follows next (l ++ a :: l') ↔ Follows next (l ++ [a]) ∧ Follows next (a :: l') := List.isChain_split

/-- What the last node is linked to does not matter. -/
theorem congr (h : Follows next l) (hn : ∀ x ∈ l.dropLast, next' x = next x) : Follows next' l := by
  induction l with
  | nil => exact .nil
  | cons a l ih =>
    cases l with
    | nil => exact List.IsChain.singleton a
    | cons b l =>
      obtain ⟨hab, h⟩ := cons_cons.mp h
      rw [List.dropLast_cons_cons] at hn
      refine cons_cons.mpr ⟨?_, ih h fun x hx => hn x (List.mem_cons_of_mem a hx)⟩
      rw [hn a List.mem_cons_self, hab]

theorem map_dropLast (h : Follows next l) : l.dropLast.map next = l.tail := by
  induction l with
  | nil => rfl
  | cons a l ih =>
    cases l with
    | nil => rfl
    | cons b l =>
      obtain ⟨hab, h⟩ := cons_cons.mp h
      rw [List.dropLast_cons_cons, List.map_cons, ih h, hab]
      rfl

/-- Two lists are joined by the link of the last node of the first one. -/
theorem relink [DecidableEq α] (hl : Follows next (l ++ [a])) (hr : Follows next (b :: l')) (ha : a ∉ l)
    (ha' : a ∉ (b :: l').dropLast) : Follows (Function.update next a b) (l ++ a :: b :: l') := by
  refine append_cons_cons.mpr ⟨hl.congr fun x hx => ?_, Function.update_self .., hr.congr fun x hx => ?_⟩
  · rw [List.dropLast_concat] at hx
    exact Function.update_of_ne (ne_of_mem_of_not_mem hx ha) ..
  · exact Function.update_of_ne (ne_of_mem_of_not_mem hx ha') ..

/-- Links to follow from a node that is not in the list. -/
theorem cons_update [DecidableEq α] (h : Follows next (b :: l)) (ha : a ∉ b :: l) :
    Follows (Function.update next a b) (a :: b :: l) := by
  refine cons_cons.mpr ⟨Function.update_self .., h.congr fun x hx => ?_⟩
  exact Function.update_of_ne (ne_of_mem_of_not_mem (List.mem_of_mem_dropLast hx) ha) ..

/-- In a circular list a node is the successor of one node only. -/
theorem unique (h : Follows next (a :: l ++ [a])) (hnd : (a :: l).Nodup) {x y : α} (hx : x ∈ a :: l) (hy : y ∈ a :: l)
    (he : next x = next y) : x = y := by
  have hmap := h.map_dropLast
  rw [List.dropLast_concat, List.cons_append, List.tail_cons] at hmap
  have hnd' : ((a :: l).map next).Nodup := by
    rw [hmap]
    exact (List.perm_append_singleton a l).nodup_iff.mpr hnd
  exact List.inj_on_of_nodup_map hnd' hx hy he

/-- The same circular list from another of its nodes on. -/
theorem rotate (h : Follows next (a :: l ++ [a])) (hb : b ∈ a :: l) :
    ∃ l', Follows next (b :: l' ++ [b]) ∧ (b :: l').Perm (a :: l) := by
  rcases List.mem_cons.mp hb with rfl | hb
  · exact ⟨l, h, .refl _⟩
  · obtain ⟨s, t, rfl⟩ := List.append_of_mem hb
    rw [List.cons_append, List.append_assoc, List.cons_append, ← List.cons_append, split] at h
    refine ⟨t ++ a :: s, ?_, ?_⟩
    · rw [show b :: (t ++ a :: s) ++ [b] = b :: t ++ a :: (s ++ [b]) by simp, split]
      exact ⟨h.2, h.1⟩
    · rw [← List.cons_append, ← List.cons_append]
      exact List.perm_append_comm

end Follows
end Xv6Arm.Lib

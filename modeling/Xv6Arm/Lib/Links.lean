import Mathlib

/-!
# Circular doubly linked lists

Nodes are linked by two pointers each, and one node is the head of a circular list
of the others. The pointer assignments of the usual operations are functions on the
links; what they do is stated about the list of nodes from the head on.
-/
namespace Xv6Arm.Lib

/-- The link fields of all nodes. -/
structure Links (α : Type) where
  next : α → α
  prev : α → α

namespace Links
variable {α : Type} [DecidableEq α]

/-- `a->next = b` -/
def setNext (L : Links α) (a b : α) : Links α := { L with next := Function.update L.next a b }

/-- `b->prev = a` -/
def setPrev (L : Links α) (b a : α) : Links α := { L with prev := Function.update L.prev b a }

/-- Take a node out of the list that it is in. -/
def unlink (L : Links α) (b : α) : Links α :=
  let L := L.setPrev (L.next b) (L.prev b)
  L.setNext (L.prev b) (L.next b)

/-- Put a node behind the head. -/
def pushFront (L : Links α) (h b : α) : Links α :=
  let L := L.setNext b (L.next h)
  let L := L.setPrev b h
  let L := L.setPrev (L.next h) b
  L.setNext h b

/-- Follow a link until the head comes up again or a node is found; `none` if neither has happened
after `fuel` nodes. -/
def walk (step : α → α) (h : α) (p : α → Bool) : ℕ → α → Option (Option α)
  | 0, _ => none
  | fuel + 1, a => if a = h then some none else if p a then some (some a) else walk step h p fuel (step a)

/-- From `a`, the list `l` and then `z` are linked in both directions. -/
def Seg (L : Links α) : α → List α → α → Prop
  | a, [], z => L.next a = z ∧ L.prev z = a
  | a, b :: l, z => L.next a = b ∧ L.prev b = a ∧ L.Seg b l z

/-- The nodes `l`, each exactly once, form a circular list through the head `h`. -/
structure Circular (L : Links α) (h : α) (l : List α) : Prop where
  seg : L.Seg h l h
  nodup : (h :: l).Nodup

variable {L M : Links α} {a b h z : α} {l l₁ l₂ : List α}

section
omit [DecidableEq α]

theorem seg_append : L.Seg a (l₁ ++ b :: l₂) z ↔ L.Seg a l₁ b ∧ L.Seg b l₂ z := by
  induction l₁ generalizing a with
  | nil => simp [Seg, and_assoc]
  | cons c l ih => simp [Seg, ih, and_assoc]

/-- Links elsewhere do not matter. -/
theorem Seg.congr (hs : L.Seg a l z) (hnext : ∀ x ∈ a :: l, M.next x = L.next x)
    (hprev : ∀ x ∈ l ++ [z], M.prev x = L.prev x) : M.Seg a l z := by
  induction l generalizing a with
  | nil =>
    refine ⟨?_, ?_⟩
    · rw [hnext a (by simp)]
      exact hs.1
    · rw [hprev z (by simp)]
      exact hs.2
  | cons b l ih =>
    obtain ⟨hn, hp, hs⟩ := hs
    refine ⟨?_, ?_, ih hs ?_ ?_⟩
    · rw [hnext a (by simp), hn]
    · rw [hprev b (by simp), hp]
    · intro x hx
      exact hnext x (List.mem_cons_of_mem a hx)
    · intro x hx
      exact hprev x (List.mem_cons_of_mem b hx)

theorem Seg.next_mem (hs : L.Seg a l z) : L.next a ∈ l ++ [z] := by
  cases l with
  | nil => simp [hs.1]
  | cons b l => simp [hs.1]

theorem Seg.prev_mem (hs : L.Seg a l z) : L.prev z ∈ a :: l := by
  induction l generalizing a with
  | nil => simp [hs.2]
  | cons b l ih => exact List.mem_cons_of_mem a (ih hs.2.2)

end

/-! ## Searching -/

theorem Seg.walk_next (hs : L.Seg a l z) (hz : z ∉ l) (p : α → Bool) {fuel : ℕ} (hf : l.length < fuel) :
    walk L.next z p fuel (L.next a) = some (l.find? p) := by
  induction l generalizing a fuel with
  | nil =>
    obtain ⟨n, rfl⟩ := Nat.exists_eq_add_of_lt hf
    simp [walk, hs.1]
  | cons b l ih =>
    obtain ⟨hn, -, hs⟩ := hs
    obtain ⟨hzb, hzl⟩ := not_or.mp (mt List.mem_cons.mpr hz)
    cases fuel with
    | zero => cases hf
    | succ fuel =>
      have hstep := ih hs hzl (Nat.lt_of_succ_lt_succ hf)
      rw [hn, walk, if_neg (Ne.symm hzb), List.find?_cons, hstep]
      cases p b <;> simp

theorem Seg.walk_prev (hs : L.Seg a l z) (ha : a ∉ l) (p : α → Bool) {fuel : ℕ} (hf : l.length < fuel) :
    walk L.prev a p fuel (L.prev z) = some (l.reverse.find? p) := by
  induction l using List.reverseRecOn generalizing z fuel with
  | nil =>
    obtain ⟨n, rfl⟩ := Nat.exists_eq_add_of_lt hf
    simp [walk, hs.2]
  | append_singleton l b ih =>
    obtain ⟨hs, -, hp⟩ := seg_append.mp hs
    obtain ⟨hal, hab⟩ := not_or.mp (mt List.mem_append.mpr ha)
    rw [List.length_append, List.length_singleton] at hf
    cases fuel with
    | zero => cases hf
    | succ fuel =>
      have hstep := ih hs hal (Nat.lt_of_succ_lt_succ hf)
      rw [hp, walk, if_neg (fun h => hab (by simp [h])), List.reverse_append, List.reverse_singleton,
        List.singleton_append, List.find?_cons, hstep]
      cases p b <;> simp

/-! ## The operations -/

@[simp] theorem setNext_next (L : Links α) (a b x : α) :
    (L.setNext a b).next x = if x = a then b else L.next x := Function.update_apply _ _ _ _

@[simp] theorem setNext_prev (L : Links α) (a b : α) : (L.setNext a b).prev = L.prev := rfl

@[simp] theorem setPrev_prev (L : Links α) (b a x : α) :
    (L.setPrev b a).prev x = if x = b then a else L.prev x := Function.update_apply _ _ _ _

@[simp] theorem setPrev_next (L : Links α) (b a : α) : (L.setPrev b a).next = L.next := rfl

/-- The two assignments of `unlink`, when the node is not its own successor. -/
theorem unlink_eq (hb : L.next b ≠ b) :
    L.unlink b = (L.setPrev (L.next b) (L.prev b)).setNext (L.prev b) (L.next b) := by
  simp [unlink, Ne.symm hb]

theorem Seg.bypass (h₁ : L.Seg a l₁ b) (h₂ : L.Seg b l₂ z) (hnodup : (a :: (l₁ ++ l₂)).Nodup)
    (hz : z ∉ l₁ ++ l₂) :
    ((L.setPrev (L.next b) (L.prev b)).setNext (L.prev b) (L.next b)).Seg a (l₁ ++ l₂) z := by
  induction l₁ generalizing a with
  | nil =>
    obtain ⟨-, hpb⟩ := h₁
    rw [List.nil_append] at hnodup hz ⊢
    obtain ⟨ha, hl⟩ := List.nodup_cons.mp hnodup
    cases l₂ with
    | nil =>
      obtain ⟨hnb, -⟩ := h₂
      simp [Seg, hpb, hnb]
    | cons c l =>
      obtain ⟨hnb, -, hs⟩ := h₂
      refine ⟨by simp [hpb, hnb], by simp [hpb, hnb], hs.congr ?_ ?_⟩
      · intro x hx
        have hxa : x ≠ a := fun h => ha (h ▸ hx)
        simp [hpb, hxa]
      · intro x hx
        have hxc : x ≠ c := by
          rintro rfl
          rcases List.mem_append.mp hx with hx | hx
          · exact (List.nodup_cons.mp hl).1 hx
          · exact hz (by simp [List.mem_singleton.mp hx])
        simp [hnb, hxc]
  | cons c l ih =>
    obtain ⟨hna, hpc, hs⟩ := h₁
    obtain ⟨ha, hl⟩ := List.nodup_cons.mp hnodup
    have hzc : z ≠ c := fun h => hz (by simp [h])
    have hrest := ih hs hl (fun h => hz (List.mem_cons_of_mem c h))
    have hpb : a ≠ L.prev b := by
      intro h
      have hmem := hs.prev_mem
      rw [← h] at hmem
      exact ha (List.mem_append_left l₂ hmem)
    have hnb : c ≠ L.next b := by
      intro h
      have hmem := h₂.next_mem
      rw [← h] at hmem
      rcases List.mem_append.mp hmem with hmem | hmem
      · exact (List.nodup_cons.mp hl).1 (List.mem_append_right l hmem)
      · exact hzc (List.mem_singleton.mp hmem).symm
    exact ⟨by simp [hpb, hna], by simp [hnb, hpc], hrest⟩

theorem Circular.unlink (hc : L.Circular h (l₁ ++ b :: l₂)) : (L.unlink b).Circular h (l₁ ++ l₂) := by
  obtain ⟨h₁, h₂⟩ := seg_append.mp hc.seg
  have hperm : (h :: (l₁ ++ b :: l₂)).Perm (b :: h :: (l₁ ++ l₂)) :=
    (List.Perm.cons h List.perm_middle).trans (List.Perm.swap b h _)
  obtain ⟨hb, hnodup⟩ := List.nodup_cons.mp (hperm.nodup_iff.mp hc.nodup)
  have hself : L.next b ≠ b := by
    intro heq
    have hmem := h₂.next_mem
    rw [heq] at hmem
    apply hb
    rcases List.mem_append.mp hmem with hmem | hmem
    · exact List.mem_cons_of_mem h (List.mem_append_right l₁ hmem)
    · exact List.mem_singleton.mp hmem ▸ List.mem_cons_self
  refine ⟨?_, hnodup⟩
  rw [unlink_eq hself]
  exact h₁.bypass h₂ hnodup (List.nodup_cons.mp hnodup).1

theorem Circular.pushFront (hc : L.Circular h l) (hb : b ∉ h :: l) : (L.pushFront h b).Circular h (b :: l) := by
  obtain ⟨hbh, hbl⟩ := not_or.mp (mt List.mem_cons.mpr hb)
  obtain ⟨hhl, hl⟩ := List.nodup_cons.mp hc.nodup
  have hnodup : (h :: b :: l).Nodup := by simp [hl, hhl, hbl, Ne.symm hbh]
  refine ⟨?_, hnodup⟩
  have hseg := hc.seg
  cases l with
  | nil =>
    obtain ⟨hn, hp⟩ := hseg
    simp [Seg, Links.pushFront, hn, hbh, Ne.symm hbh]
  | cons c l =>
    obtain ⟨hn, hp, hs⟩ := hseg
    have hbc : c ≠ b := fun heq => hbl (by simp [heq])
    have hhc : c ≠ h := fun heq => hhl (by simp [heq])
    refine ⟨by simp [Links.pushFront], ?_, ?_, ?_, hs.congr ?_ ?_⟩
    · simp [Links.pushFront, hn, Ne.symm hbh, Ne.symm hbc]
    · simp [Links.pushFront, hn, hbh]
    · simp [Links.pushFront, hn, Ne.symm hbh]
    · intro x hx
      have hxb : x ≠ b := fun heq => hbl (heq ▸ hx)
      have hxh : x ≠ h := fun heq => hhl (heq ▸ hx)
      simp [Links.pushFront, hxb, hxh]
    · intro x hx
      have hxc : x ≠ c := by
        rintro rfl
        rcases List.mem_append.mp hx with hx | hx
        · exact (List.nodup_cons.mp hl).1 hx
        · exact hhc (List.mem_singleton.mp hx)
      have hxb : x ≠ b := by
        rintro rfl
        rcases List.mem_append.mp hx with hx | hx
        · exact hbl (List.mem_cons_of_mem c hx)
        · exact hbh (List.mem_singleton.mp hx)
      simp [Links.pushFront, hn, Ne.symm hbh, hxc, hxb]

end Links
end Xv6Arm.Lib

import Mathlib.Data.List.Basic

/-!
# Tables of slots

A finite map kept in a sequence of slots that are empty or hold a key and a value.
The table is searched from its first slot on; an entry is put into the first empty
slot, or at the end, and taken out by emptying its slot.
-/
namespace Xv6Arm.Lib.Slots

variable {κ α β : Type} [DecidableEq κ]

/-- The value of the first slot with key `k`, and the position of the slot; the table starts at position `e`. -/
def lookup (k : κ) : List (Option (κ × α)) → ℕ → Option (α × ℕ)
  | [], _ => none
  | none :: s, e => lookup k s (e + 1)
  | some (k', a) :: s, e => if k = k' then some (a, e) else lookup k s (e + 1)

/-- The position of the first empty slot, or that of the end of the table. -/
def firstEmpty : List (Option β) → ℕ → ℕ
  | [], e => e
  | none :: _, e => e
  | some _ :: s, e => firstEmpty s (e + 1)

/-- Slot `e` gets the entry `x`; the slot after the last one is added. -/
def put (s : List (Option β)) (e : ℕ) (x : Option β) : List (Option β) := s.take e ++ x :: s.drop (e + 1)

/-- No two slots have the same key. -/
def Distinct (s : List (Option (κ × α))) : Prop :=
  ∀ (i j : ℕ) (k : κ) (a b : α), s[i]? = some (some (k, a)) → s[j]? = some (some (k, b)) → i = j

theorem lookup_some {k : κ} {s : List (Option (κ × α))} {e j : ℕ} {a : α} (h : lookup k s e = some (a, j)) :
    ∃ i, j = e + i ∧ s[i]? = some (some (k, a)) := by
  induction s generalizing e with
  | nil => cases h
  | cons x s ih =>
    cases x with
    | none =>
      obtain ⟨i, rfl, hi⟩ := ih h
      exact ⟨i + 1, by omega, by simpa using hi⟩
    | some x =>
      obtain ⟨k', b⟩ := x
      rw [lookup] at h
      split at h
      · rename_i hk
        cases h
        exact ⟨0, rfl, by simp [hk]⟩
      · obtain ⟨i, rfl, hi⟩ := ih h
        exact ⟨i + 1, by omega, by simpa using hi⟩

theorem lookup_none {k : κ} {s : List (Option (κ × α))} {e : ℕ} (h : lookup k s e = none) (i : ℕ) (a : α) :
    s[i]? ≠ some (some (k, a)) := by
  induction s generalizing e i with
  | nil => simp
  | cons x s ih =>
    cases i with
    | zero =>
      cases x with
      | none => simp
      | some x =>
        obtain ⟨k', b⟩ := x
        rw [lookup] at h
        split at h
        · cases h
        · rename_i hk
          simp only [List.getElem?_cons_zero, ne_eq, Option.some.injEq, Prod.mk.injEq, not_and]
          exact fun he => absurd he.symm hk
    | succ i =>
      rw [List.getElem?_cons_succ]
      cases x with
      | none => exact ih h i
      | some x =>
        obtain ⟨k', b⟩ := x
        rw [lookup] at h
        split at h
        · cases h
        · exact ih h i

/-- The table as a finite map. -/
theorem Distinct.lookup {s : List (Option (κ × α))} (hs : Distinct s) {k : κ} {a : α} {j : ℕ} :
    lookup k s 0 = some (a, j) ↔ s[j]? = some (some (k, a)) := by
  constructor
  · intro h
    obtain ⟨i, rfl, hi⟩ := lookup_some h
    rwa [Nat.zero_add]
  · intro h
    cases hl : Slots.lookup k s 0 with
    | none => exact absurd h (lookup_none hl j a)
    | some r =>
      obtain ⟨b, i⟩ := r
      obtain ⟨i, rfl, hi⟩ := lookup_some hl
      obtain rfl := hs _ _ _ _ _ h hi
      rw [h] at hi
      cases hi
      rw [Nat.zero_add]

theorem firstEmpty_le (s : List (Option β)) (e : ℕ) : e ≤ firstEmpty s e ∧ firstEmpty s e ≤ e + s.length := by
  induction s generalizing e with
  | nil => simp [firstEmpty]
  | cons x s ih =>
    cases x with
    | none => simp [firstEmpty]
    | some x =>
      have := ih (e + 1)
      simp only [firstEmpty, List.length_cons]
      omega

/-- The slot is empty, or there is none. -/
theorem getElem?_firstEmpty (s : List (Option β)) (e : ℕ) (x : β) : s[firstEmpty s e - e]? ≠ some (some x) := by
  induction s generalizing e with
  | nil => simp [firstEmpty]
  | cons y s ih =>
    cases y with
    | none => simp [firstEmpty]
    | some y =>
      have hle := (firstEmpty_le s (e + 1)).1
      rw [firstEmpty, show firstEmpty s (e + 1) - e = firstEmpty s (e + 1) - (e + 1) + 1 by omega,
        List.getElem?_cons_succ]
      exact ih (e + 1)

theorem getElem?_put {s : List (Option β)} {e : ℕ} (h : e ≤ s.length) (x : Option β) (j : ℕ) :
    (put s e x)[j]? = if j = e then some x else s[j]? := by
  have hlen : (s.take e).length = e := List.length_take_of_le h
  unfold put
  by_cases hlt : j < e
  · rw [if_neg (by omega), List.getElem?_append_left (by omega), List.getElem?_take_of_lt hlt]
  · rw [List.getElem?_append_right (by omega), hlen]
    by_cases he : j = e
    · simp [he]
    · rw [if_neg he, show j - e = j - (e + 1) + 1 by omega, List.getElem?_cons_succ, List.getElem?_drop]
      congr 1
      omega

section Update
variable {s : List (Option (κ × α))} {e : ℕ} {k k' : κ} {a : α}

theorem Distinct.put_some (hs : Distinct s) (he : e ≤ s.length) (hk : Slots.lookup k s 0 = none) :
    Distinct (put s e (some (k, a))) := by
  intro i j k₁ b c hi hj
  rw [getElem?_put he] at hi hj
  split at hi <;> split at hj
  · omega
  · cases hi
    exact absurd hj (lookup_none hk j c)
  · cases hj
    exact absurd hi (lookup_none hk i b)
  · exact hs i j k₁ b c hi hj

omit [DecidableEq κ] in
theorem Distinct.put_none (hs : Distinct s) (he : e ≤ s.length) : Distinct (put s e none) := by
  intro i j k₁ b c hi hj
  rw [getElem?_put he] at hi hj
  split at hi <;> split at hj
  · omega
  · cases hi
  · cases hj
  · exact hs i j k₁ b c hi hj

/-- An entry with a new key, in a slot that was empty or is new. -/
theorem Distinct.lookup_put_some (hs : Distinct s) (he : e ≤ s.length) (hk : Slots.lookup k s 0 = none)
    (hempty : ∀ x, s[e]? ≠ some (some x)) (k' : κ) :
    Slots.lookup k' (put s e (some (k, a))) 0 = if k' = k then some (a, e) else Slots.lookup k' s 0 := by
  have hs' : Distinct (put s e (some (k, a))) := hs.put_some he hk
  split
  · rename_i hkk
    rw [hs'.lookup, getElem?_put he, if_pos rfl, hkk]
  · rename_i hkk
    apply Option.ext
    rintro ⟨b, j⟩
    rw [hs'.lookup, hs.lookup, getElem?_put he]
    split
    · rename_i hj
      subst hj
      simp [Ne.symm hkk, hempty]
    · rfl

/-- The slot of an entry is emptied. -/
theorem Distinct.lookup_put_none (hs : Distinct s) (hk : Slots.lookup k s 0 = some (a, e)) (k' : κ) :
    Slots.lookup k' (put s e none) 0 = if k' = k then none else Slots.lookup k' s 0 := by
  have hat := hs.lookup.mp hk
  have he : e ≤ s.length := Nat.le_of_lt (List.getElem?_eq_some_iff.mp hat).1
  have hs' : Distinct (put s e none) := hs.put_none he
  apply Option.ext
  rintro ⟨b, j⟩
  rw [hs'.lookup, getElem?_put he]
  by_cases hj : j = e
  · subst hj
    rw [if_pos rfl]
    split
    · simp
    · rename_i hkk
      rw [hs.lookup, hat]
      simp [Ne.symm hkk]
  · rw [if_neg hj]
    split
    · rename_i hkk
      subst hkk
      simp only [reduceCtorEq, iff_false]
      exact fun hb => hj (hs _ _ _ _ _ hb hat)
    · exact hs.lookup.symm

end Update

end Xv6Arm.Lib.Slots

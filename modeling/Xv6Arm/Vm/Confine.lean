import Xv6Arm.Vm.Reach

/-!
# User pointers and user memory

When `copyin`, `copyout` and `copyinstr` stay inside the memory that the process
itself may access, and a process for which they do not.
-/
namespace Xv6Arm
open Lib Mem

variable {s : Vm} {own : ℕ → Place} {pagetable sz va len : ℕ} {P : ℕ → Prop}

/-- The byte at `va` belongs to the process and user mode may access it. -/
def Accessible (s : Vm) (pagetable sz va : ℕ) : Prop :=
  va < pgRoundUp sz ∧ va < 2 ^ 32 ∧ s.mem.leaf pagetable va &&& AP_1 ≠ 0

instance (s : Vm) (pagetable sz va : ℕ) : Decidable (Accessible s pagetable sz va) :=
  inferInstanceAs (Decidable (_ ∧ _))

/-- What is asked of a copy of the `len` bytes at `va` that goes on while `P` holds: it touches
accessible bytes only, and it fails if it comes to any other address. -/
def Confined {α : Type} (acc P : ℕ → Prop) (va len : ℕ) (p : VmM α) (failed : α → Prop) (s : Vm) : Prop :=
  (∀ a ∈ touched p s, acc a) ∧
    ((∃ i < len, ¬acc ((va + i) % 2 ^ 64) ∧ ∀ j < i, P ((va + j) % 2 ^ 64)) →
      ∃ r s', p.run vmStep s = .done r s' ∧ failed r)

/-- No address that the copy comes to before the first one that is unmapped modulo 4 GiB lies at or
above 4 GiB or in a page that user mode may not access. -/
def SafeRange (s : Vm) (pagetable sz : ℕ) (P : ℕ → Prop) (va len : ℕ) : Prop :=
  ∀ i < len, (∀ j ≤ i, (va + j) % 2 ^ 32 < pgRoundUp sz) → (∀ j < i, P ((va + j) % 2 ^ 64)) →
    (va + i) % 2 ^ 64 < 2 ^ 32 ∧ s.mem.leaf pagetable ((va + i) % 2 ^ 64) &&& AP_1 ≠ 0

theorem mapped_of_accessible {x : ℕ} (h : Accessible s pagetable sz (x % 2 ^ 64)) : Mapped sz x := by
  obtain ⟨h1, h2, -⟩ := h
  rw [Mapped, show x % 2 ^ 32 = x % 2 ^ 64 by omega]
  exact h1

/-- A copy that touches what it reaches and fails at the first unmapped address is confined exactly
on the safe ranges. -/
theorem confined_iff {α : Type} {p : VmM α} {failed : α → Prop}
    (htouch : ∀ a, a ∈ touched p s ↔ Reach sz P va len a)
    (hfail : ∀ i < len, ¬Mapped sz (va + i) → (∀ j < i, P ((va + j) % 2 ^ 64)) →
      ∃ r s', p.run vmStep s = .done r s' ∧ failed r) :
    Confined (Accessible s pagetable sz) P va len p failed s ↔ SafeRange s pagetable sz P va len := by
  constructor
  · rintro ⟨hacc, -⟩ i hi hm hP
    obtain ⟨-, h2, h3⟩ := hacc _ ((htouch _).mpr ⟨i, hi, hm, hP, rfl⟩)
    exact ⟨h2, h3⟩
  · intro hsafe
    have hacc : ∀ i < len, (∀ j ≤ i, Mapped sz (va + j)) → (∀ j < i, P ((va + j) % 2 ^ 64)) →
        Accessible s pagetable sz ((va + i) % 2 ^ 64) := by
      intro i hi hm hP
      obtain ⟨h2, h3⟩ := hsafe i hi hm hP
      refine ⟨?_, h2, h3⟩
      rw [show (va + i) % 2 ^ 64 = (va + i) % 2 ^ 32 by omega]
      exact hm i le_rfl
    refine ⟨?_, ?_⟩
    · intro a ha
      obtain ⟨i, hi, hm, hP, rfl⟩ := (htouch a).mp ha
      exact hacc i hi hm hP
    · rintro ⟨i, hi, hna, hP⟩
      -- the first inaccessible address is not mapped
      have hex : ∃ i, ¬Accessible s pagetable sz ((va + i) % 2 ^ 64) := ⟨i, hna⟩
      have hle : Nat.find hex ≤ i := Nat.find_min' hex hna
      have hbefore : ∀ j < Nat.find hex, Mapped sz (va + j) := fun j hj =>
        mapped_of_accessible (not_not.mp (Nat.find_min hex hj))
      refine hfail (Nat.find hex) (by omega) ?_ (fun j hj => hP j (by omega))
      intro hm
      refine Nat.find_spec hex (hacc _ (by omega) ?_ (fun j hj => hP j (by omega)))
      intro j hj
      rcases Nat.lt_or_eq_of_le hj with hj | rfl
      · exact hbefore j hj
      · exact hm

theorem copyin_confined (h : s.mem.AddressSpace own pagetable sz) (hva : va < 2 ^ 64) (len : ℕ) :
    Confined (Accessible s pagetable sz) (fun _ => True) va len (copyin pagetable va len)
      (fun r => r.2 = false) s ↔ SafeRange s pagetable sz (fun _ => True) va len := by
  obtain ⟨ws, hws, r, s', hrun, hemit, hr⟩ := copyinFrom_returns h hva (le_refl len)
  apply confined_iff
  · intro a
    rw [← hws, ← hemit]
    rfl
  · intro i hi hm _
    refine ⟨r, s', hrun, ?_⟩
    rw [← Bool.not_eq_true]
    exact fun ht => hm (hr.mp ht i hi)

theorem copyout_confined (h : s.mem.AddressSpace own pagetable sz) (hva : va < 2 ^ 64) (src : List UInt8) :
    Confined (Accessible s pagetable sz) (fun _ => True) va src.length (copyout pagetable va src)
      (fun r => r = false) s ↔ SafeRange s pagetable sz (fun _ => True) va src.length := by
  obtain ⟨ws, hws, r, s', hrun, hemit, hr⟩ := copyoutFrom_returns h hva (le_refl src.length)
  apply confined_iff
  · intro a
    rw [← hws, ← hemit]
    rfl
  · intro i hi hm _
    refine ⟨r, s', hrun, ?_⟩
    rw [← Bool.not_eq_true]
    exact fun ht => hm (hr.mp ht i hi)

theorem copyinstr_confined (h : s.mem.AddressSpace own pagetable sz) (hva : va < 2 ^ 64) (max : ℕ) :
    Confined (Accessible s pagetable sz) (fun x => userByte s pagetable x ≠ 0) va max
      (copyinstr pagetable va max) (fun r => r.2 = false) s ↔
      SafeRange s pagetable sz (fun x => userByte s pagetable x ≠ 0) va max := by
  obtain ⟨ws, hws, r, s', hrun, hemit, hr⟩ := copyinstrFrom_returns h hva (le_refl max)
  apply confined_iff
  · intro a
    rw [← hws, ← hemit]
    rfl
  · intro i hi hm hP
    refine ⟨r, s', hrun, ?_⟩
    rw [← Bool.not_eq_true]
    intro ht
    obtain ⟨a, ⟨i', -, hm', -, rfl⟩, h0⟩ := hr.mp ht
    have hlt : i' < i := by
      by_contra hge
      exact hm (hm' i (by omega))
    exact hP i' hlt h0

/-- When the kernel's accesses through user pointers stay inside user memory: for each of the three
functions, exactly when its range is safe. -/
theorem user_copy_confined (h : s.mem.AddressSpace own pagetable sz) (hva : va < 2 ^ 64) :
    (∀ len, Confined (Accessible s pagetable sz) (fun _ => True) va len (copyin pagetable va len)
      (fun r => r.2 = false) s ↔ SafeRange s pagetable sz (fun _ => True) va len) ∧
    (∀ src : List UInt8, Confined (Accessible s pagetable sz) (fun _ => True) va src.length
      (copyout pagetable va src) (fun r => r = false) s ↔
        SafeRange s pagetable sz (fun _ => True) va src.length) ∧
    (∀ max, Confined (Accessible s pagetable sz) (fun x => userByte s pagetable x ≠ 0) va max
      (copyinstr pagetable va max) (fun r => r.2 = false) s ↔
        SafeRange s pagetable sz (fun x => userByte s pagetable x ≠ 0) va max) :=
  ⟨copyin_confined h hva, copyout_confined h hva, copyinstr_confined h hva⟩

/-! ## A process with a guard page -/

/-- A table with its first entries set and the others zero. -/
def tableOf (l : List ℕ) : Bytes := lePuts (fun _ => 0) 0 8 l

/-- Two user pages: the second one is closed to user mode, as `exec` leaves the page below the
stack. -/
def guarded : Vm where
  freelist := []
  mem := fun p =>
    if p = 0x40001000 then tableOf [tableEntry 0x40002000]
    else if p = 0x40002000 then tableOf [tableEntry 0x40003000]
    else if p = 0x40003000 then tableOf [leafEntry 0x40004000 AP_1, leafEntry 0x40005000 0]
    else fun _ => 0

def guardedOwn (p : ℕ) : Place :=
  if p = 0x40001000 then .pgd 0x40001000
  else if p = 0x40002000 then .pmd 0x40001000 0
  else if p = 0x40003000 then .pte 0x40001000 0 0
  else if p = 0x40004000 then .user 0x40001000 0 AP_1
  else if p = 0x40005000 then .user 0x40001000 1 0
  else .outside

theorem entry_tableOf (s : Vm) {page : ℕ} {l : List ℕ} (hs : s.mem page = tableOf l)
    (hl : ∀ v ∈ l, v < 2 ^ 64) (i : ℕ) : s.mem.entry page i = l.getD i 0 := by
  rw [Mem.entry, hs, tableOf]
  by_cases hi : i < l.length
  · have := leGet_lePuts (f := fun _ => 0) (o := 0) (w := 8) (l := l) (by simpa using hl) i hi
    rw [Nat.zero_add] at this
    simp [this, hi]
  · rw [leGet_lePuts_after l (by omega)]
    simp [leGet, Nat.le_of_not_lt hi]

theorem guardedOwn_cases (p : ℕ) :
    (p = 0x40001000 ∧ guardedOwn p = .pgd 0x40001000) ∨
    (p = 0x40002000 ∧ guardedOwn p = .pmd 0x40001000 0) ∨
    (p = 0x40003000 ∧ guardedOwn p = .pte 0x40001000 0 0) ∨
    (p = 0x40004000 ∧ guardedOwn p = .user 0x40001000 0 AP_1) ∨
    (p = 0x40005000 ∧ guardedOwn p = .user 0x40001000 1 0) ∨ guardedOwn p = .outside := by
  unfold guardedOwn
  split_ifs <;> simp_all

theorem guarded_entries (i : ℕ) :
    guarded.mem.entry 0x40001000 i = [tableEntry 0x40002000].getD i 0 ∧
    guarded.mem.entry 0x40002000 i = [tableEntry 0x40003000].getD i 0 ∧
    guarded.mem.entry 0x40003000 i = [leafEntry 0x40004000 AP_1, leafEntry 0x40005000 0].getD i 0 :=
  ⟨entry_tableOf guarded rfl (by decide) i, entry_tableOf guarded rfl (by decide) i,
    entry_tableOf guarded rfl (by decide) i⟩

theorem guarded_owned : guarded.mem.Owned guardedOwn fun _ _ => False where
  page := by
    intro p hp
    rcases guardedOwn_cases p with ⟨rfl, -⟩ | ⟨rfl, -⟩ | ⟨rfl, -⟩ | ⟨rfl, -⟩ | ⟨rfl, -⟩ | h
    all_goals first | exact ⟨by decide, by decide, by decide⟩ | exact absurd h hp
  root := by
    intro p t hp
    rcases guardedOwn_cases p with ⟨rfl, h⟩ | ⟨-, h⟩ | ⟨-, h⟩ | ⟨-, h⟩ | ⟨-, h⟩ | h <;>
      simp_all
  inj := by
    intro p q hpq hn
    rcases guardedOwn_cases p with ⟨rfl, h⟩ | ⟨rfl, h⟩ | ⟨rfl, h⟩ | ⟨-, h⟩ | ⟨-, h⟩ | h <;>
      rcases guardedOwn_cases q with ⟨rfl, h'⟩ | ⟨rfl, h'⟩ | ⟨rfl, h'⟩ | ⟨-, h'⟩ | ⟨-, h'⟩ | h' <;>
      simp_all [Place.IsNode]
  down := by
    intro p i hs _
    rcases guardedOwn_cases p with ⟨rfl, h⟩ | ⟨rfl, h⟩ | ⟨rfl, h⟩ | ⟨-, h⟩ | ⟨-, h⟩ | h
    · rw [h] at hs ⊢
      rw [(guarded_entries i).1]
      rcases i with _ | i
      · exact .inr ⟨0x40002000, Link.pmd (by decide)⟩
      · exact .inl rfl
    · rw [h] at hs ⊢
      rw [(guarded_entries i).2.1]
      rcases i with _ | i
      · exact .inr ⟨0x40003000, Link.pte (by decide)⟩
      · exact .inl rfl
    · rw [h] at hs ⊢
      rw [(guarded_entries i).2.2]
      rcases i with _ | _ | i
      · exact .inr ⟨0x40004000, Link.user (i := 0) (j := 0) (k := 0) (by decide) (by decide) (.inr (.inl rfl))⟩
      · exact .inr ⟨0x40005000, Link.user (i := 0) (j := 0) (k := 1) (by decide) (by decide) (.inl rfl)⟩
      · exact .inl rfl
    all_goals rw [h] at hs; exact hs.elim
  up := by
    intro q hq
    rcases guardedOwn_cases q with ⟨rfl, h⟩ | ⟨rfl, h⟩ | ⟨rfl, h⟩ | ⟨rfl, h⟩ | ⟨rfl, h⟩ | h
    · rw [h] at hq; exact hq.elim
    · refine ⟨0x40001000, 0, id, ?_⟩
      rw [(guarded_entries 0).1]
      exact Link.pmd (by decide)
    · refine ⟨0x40002000, 0, id, ?_⟩
      rw [(guarded_entries 0).2.1]
      exact Link.pte (by decide)
    · refine ⟨0x40003000, 0, id, ?_⟩
      rw [(guarded_entries 0).2.2]
      exact Link.user (i := 0) (j := 0) (k := 0) (by decide) (by decide) (.inr (.inl rfl))
    · refine ⟨0x40003000, 1, id, ?_⟩
      rw [(guarded_entries 1).2.2]
      exact Link.user (i := 0) (j := 0) (k := 1) (by decide) (by decide) (.inl rfl)
    · rw [h] at hq; exact hq.elim

theorem guarded_space : guarded.mem.AddressSpace guardedOwn 0x40001000 0x2000 where
  owned := guarded_owned
  root := rfl
  sz_le := by norm_num
  mapped := by
    intro n
    constructor
    · rintro ⟨q, ap, hq⟩
      rcases guardedOwn_cases q with ⟨-, h⟩ | ⟨-, h⟩ | ⟨-, h⟩ | ⟨-, h⟩ | ⟨-, h⟩ | h <;>
        rw [h] at hq <;> cases hq <;> norm_num
    · intro hn
      obtain rfl | rfl : n = 0 ∨ n = 1 := by omega
      · exact ⟨0x40004000, AP_1, rfl⟩
      · exact ⟨0x40005000, 0, rfl⟩

/-- The kernel reads address `2 ^ 32`, which is page 0 again, and writes to the guard page. -/
theorem user_copy_escapes :
    guarded.mem.AddressSpace guardedOwn 0x40001000 0x2000 ∧
    ¬Confined (Accessible guarded 0x40001000 0x2000) (fun _ => True) (2 ^ 32) 1
      (copyin 0x40001000 (2 ^ 32) 1) (fun r => r.2 = false) guarded ∧
    ¬Confined (Accessible guarded 0x40001000 0x2000) (fun _ => True) 0x1000 1
      (copyout 0x40001000 0x1000 [7]) (fun r => r = false) guarded := by
  refine ⟨guarded_space, ?_, ?_⟩
  · intro h
    exact absurd (h.1 (2 ^ 32) (by decide)) (by decide)
  · intro h
    exact absurd (h.1 0x1000 (by decide)) (by decide)

theorem user_copy_confined_guarded :
    Confined (Accessible guarded 0x40001000 0x2000) (fun _ => True) 0 4 (copyin 0x40001000 0 4)
      (fun r => r.2 = false) guarded := by
  refine ((user_copy_confined guarded_space (by norm_num : 0 < 2 ^ 64)).1 4).mpr ?_
  intro i hi _ _
  interval_cases i <;> decide

end Xv6Arm

import Xv6Arm.Vm.Confine
import Xv6Arm.Vm.UserCopy

/-!
# The bytes that the three copies move

`copyin` and `copyinstr` only read user memory, so what they get is settled by
the page table as it is. `copyout` writes through it. If the range comes to one
physical byte twice, or to a page of the table itself, a later write undoes an
earlier one; in every other page table the copy is exact.
-/
namespace Xv6Arm
open Lib Mem

variable {s s' : Vm} {own : ℕ → Place} {pagetable sz va len fuel : ℕ}

/-! ## `copyinstr` -/

/-- The bytes `l` before the first NUL of the `max` bytes at `va`, and whether it was found. -/
structure TakenStr (s : Vm) (pagetable va max : ℕ) (l : List UInt8) (ok : Bool) : Prop where
  bytes : ∀ q < l.length, s.user pagetable (va + q) = l[q]?
  nonzero : (0 : UInt8) ∉ l
  le : l.length ≤ max
  found : ok = true → l.length < max ∧ s.user pagetable (va + l.length) = some 0
  stop : ok = false → l.length = max ∨ s.user pagetable (va + l.length) = none

theorem run_copyinstrPage (s : Vm) (page va off n : ℕ) :
    ∃ l ok, (copyinstrPage page va off n).run vmStep s = .done (l, ok) s ∧ (0 : UInt8) ∉ l ∧ l.length ≤ n ∧
      (∀ q < l.length, l[q]? = some (s.mem page (off + q))) ∧
      (ok = true → l.length < n ∧ s.mem page (off + l.length) = 0) ∧ (ok = false → l.length = n) := by
  induction n generalizing va off with
  | zero => exact ⟨[], false, rfl, by simp, by simp, by simp, by simp, by simp⟩
  | succ n ih =>
    have hbyte : getBytes (s.mem page) off 1 = [s.mem page off] := by simp [getBytes]
    by_cases h0 : s.mem page off = 0
    · refine ⟨[], true, ?_, by simp, by simp, by simp, fun _ => ⟨by simp, h0⟩, by simp⟩
      change (if getBytes (s.mem page) off 1 = [0] then (.ret ([], true) : VmM _) else _).run vmStep s = _
      rw [hbyte, h0, if_pos rfl]
      rfl
    · obtain ⟨l, ok, hrun, hz, hle, hl, hok, hno⟩ := ih (va + 1) (off + 1)
      have hassoc : ∀ q, off + 1 + q = off + (q + 1) := fun q => by omega
      refine ⟨s.mem page off :: l, ok, ?_, ?_, by simpa using hle, ?_, ?_, ?_⟩
      · change (if getBytes (s.mem page) off 1 = [0] then (.ret ([], true) : VmM _) else
          (copyinstrPage page (va + 1) (off + 1) n).bind _).run vmStep s = _
        rw [hbyte, if_neg (by simpa using h0), Prog.run_bind_done vmStep hrun]
        rfl
      · simpa using ⟨Ne.symm h0, hz⟩
      · intro q hq
        cases q with
        | zero => rfl
        | succ q =>
          rw [List.getElem?_cons_succ, hl q (by simpa using hq), hassoc]
      · intro h
        obtain ⟨h1, h2⟩ := hok h
        exact ⟨by simpa using h1, by rw [List.length_cons, ← hassoc]; exact h2⟩
      · intro h
        rw [List.length_cons, hno h]

theorem run_copyinstrFrom (s : Vm) (pagetable : ℕ) (hlen : len ≤ fuel) :
    ∃ l ok, (copyinstrFrom pagetable fuel va len).run vmStep s = .done (l, ok) s ∧
      TakenStr s pagetable va len l ok := by
  induction fuel generalizing va len with
  | zero =>
    obtain rfl := Nat.le_zero.mp hlen
    exact ⟨[], false, rfl, by simp, by simp, by simp, by simp, by simp⟩
  | succ fuel ih =>
    by_cases hz : len = 0
    · subst hz
      exact ⟨[], false, rfl, by simp, by simp, by simp, by simp, by simp⟩
    rw [copyinstrFrom, if_neg hz]
    simp only [Prog.bind_eq]
    rw [Prog.run_bind_done vmStep (run_walkaddr s pagetable _), addr_pgRoundDown]
    by_cases ha : s.mem.addr pagetable va = 0
    · rw [if_pos ha]
      exact ⟨[], false, rfl, by simp, by simp, by simp, by simp, fun _ => .inr (by simp [Vm.user, ha])⟩
    rw [if_neg ha]
    have hfirst : 0 < firstPart va len := firstPart_pos (Nat.pos_of_ne_zero hz)
    have hle : firstPart va len ≤ len := Nat.min_le_right _ _
    have huser : ∀ q < firstPart va len, s.user pagetable (va + q) =
        some (s.mem (s.mem.addr pagetable va) (va - pgRoundDown va + q)) := by
      intro q hq
      rw [user_firstPart s pagetable ha hq]
      simp [getBytes, hq]
    obtain ⟨l, ok, hrun, hz', hl, hbytes, hok, hno⟩ :=
      run_copyinstrPage s (s.mem.addr pagetable va) va (va - pgRoundDown va) (firstPart va len)
    change ∃ _ _, ((copyinstrPage (s.mem.addr pagetable va) va (va - pgRoundDown va) (firstPart va len)).bind
      _).run vmStep s = _ ∧ _
    rw [Prog.run_bind_done vmStep hrun]
    cases ok with
    | true =>
      obtain ⟨hlt, h0⟩ := hok rfl
      refine ⟨l, true, rfl, fun q hq => ?_, hz', by omega, fun _ => ⟨by omega, ?_⟩, by simp⟩
      · rw [huser q (by omega), hbytes q hq]
      · rw [huser _ hlt, h0]
    | false =>
      have hll := hno rfl
      obtain ⟨l', ok', hrun', ht⟩ := @ih (nextPage va) (len - firstPart va len) (by omega)
      have hnext : firstPart va len < len → ∀ q, s.user pagetable (va + (firstPart va len + q)) =
          s.user pagetable (nextPage va + q) := by
        intro hn q
        apply Vm.user_congr
        have := nextPage_add hn q
        omega
      refine ⟨l ++ l', ok', ?_, ?_, ?_, ?_, ?_, ?_⟩
      · change ((copyinstrFrom pagetable fuel (nextPage va) (len - firstPart va len)).bind _).run vmStep s = _
        rw [Prog.run_bind_done vmStep hrun']
        rfl
      · intro q hq
        rw [List.length_append] at hq
        by_cases hq' : q < l.length
        · rw [List.getElem?_append_left hq', huser q (by omega), hbytes q hq']
        · have hle' := ht.le
          have := hnext (by omega) (q - firstPart va len)
          rw [Nat.add_sub_cancel' (by omega)] at this
          rw [List.getElem?_append_right (by omega), this, hll]
          exact ht.bytes _ (by omega)
      · simpa using ⟨hz', ht.nonzero⟩
      · have := ht.le
        rw [List.length_append]
        omega
      · intro h
        obtain ⟨h1, h2⟩ := ht.found h
        rw [List.length_append, hll, hnext (by omega)]
        exact ⟨by omega, h2⟩
      · intro h
        rw [List.length_append, hll]
        by_cases hlt : firstPart va len < len
        · rw [hnext hlt]
          refine (ht.stop h).imp_left ?_
          omega
        · have := ht.le
          left
          omega

theorem run_copyinstr (s : Vm) (pagetable va max : ℕ) :
    ∃ l ok, (copyinstr pagetable va max).run vmStep s = .done (l, ok) s ∧ TakenStr s pagetable va max l ok :=
  run_copyinstrFrom s pagetable le_rfl

/-- A string is taken whole exactly if its NUL is in reach. -/
theorem TakenStr.ok_iff {max : ℕ} {l : List UInt8} {ok : Bool} (h : TakenStr s pagetable va max l ok) :
    ok = true ↔ ∃ k < max, s.user pagetable (va + k) = some 0 ∧ ∀ j < k, s.user pagetable (va + j) ≠ none := by
  constructor
  · intro hok
    obtain ⟨hlt, h0⟩ := h.found hok
    refine ⟨l.length, hlt, h0, fun j hj => ?_⟩
    rw [h.bytes j hj, List.getElem?_eq_getElem hj]
    simp
  · rintro ⟨k, hk, h0, hall⟩
    by_contra hno
    -- the copy went past the NUL
    have hlt : k < l.length := by
      by_contra hge
      rcases h.stop (Bool.not_eq_true _ ▸ hno) with hl | hl
      · omega
      · rcases Nat.lt_or_eq_of_le (Nat.le_of_not_lt hge) with hlt | heq
        · exact hall _ hlt hl
        · rw [heq, h0] at hl
          cases hl
    have hk0 := h.bytes k hlt
    rw [h0] at hk0
    exact h.nonzero (List.mem_of_getElem? hk0.symm)

/-- `copyin` gets everything exactly if every page translates. -/
theorem Taken.ok_iff {l : List UInt8} {ok : Bool} (h : Taken s pagetable va len l ok) :
    ok = true ↔ ∀ i < len, s.user pagetable (va + i) ≠ none := by
  cases ok with
  | true =>
    refine ⟨fun _ i hi => ?_, fun _ => rfl⟩
    rw [← h.all rfl] at hi
    rw [h.bytes i hi, List.getElem?_eq_getElem hi]
    simp
  | false =>
    obtain ⟨hlt, hnone⟩ := h.stop rfl
    exact ⟨by simp, fun hall => absurd hnone (hall _ hlt)⟩

/-! ## `copyout` -/

/-- The pages that `walk` reads for `va`. -/
def Mem.tables (m : Mem) (pagetable va : ℕ) : List ℕ :=
  match m.next pagetable (pgdIdx va) with
  | none => [pagetable]
  | some pmdtb =>
    match m.next pmdtb (pmdIdx va) with
    | none => [pagetable, pmdtb]
    | some ptetb => [pagetable, pmdtb, ptetb]

theorem tables_congr (m : Mem) (pagetable : ℕ) {x y : ℕ} (h : vpn x = vpn y) :
    m.tables pagetable x = m.tables pagetable y := by
  simp only [Mem.tables, pgdIdx_eq, pmdIdx_eq, h]

theorem next_of_eq {m m' : Mem} {p : ℕ} (h : m' p = m p) (i : ℕ) : m'.next p i = m.next p i := by
  rw [Mem.next, Mem.next, Mem.entry, Mem.entry, h]

/-- A translation depends on the pages of the walk only. -/
theorem leaf_of_tables {m m' : Mem} {x : ℕ} (h : ∀ p ∈ m.tables pagetable x, m' p = m p) :
    m'.leaf pagetable x = m.leaf pagetable x ∧ m'.tables pagetable x = m.tables pagetable x := by
  have hroot : m' pagetable = m pagetable := by
    apply h
    unfold Mem.tables
    split
    · simp
    · split <;> simp
  have h1 := next_of_eq hroot (pgdIdx x)
  unfold Mem.leaf Mem.leafSlot
  unfold Mem.tables at h ⊢
  rw [h1]
  cases hp : m.next pagetable (pgdIdx x) with
  | none => exact ⟨rfl, rfl⟩
  | some pmdtb =>
    rw [hp] at h
    dsimp only at h ⊢
    have hpmd : m' pmdtb = m pmdtb := by
      apply h
      split <;> simp
    rw [Option.bind_some, Option.bind_some, next_of_eq hpmd]
    cases hq : m.next pmdtb (pmdIdx x) with
    | none => exact ⟨rfl, rfl⟩
    | some ptetb =>
      rw [hq] at h
      refine ⟨?_, rfl⟩
      change m'.entry ptetb (pteIdx x) = m.entry ptetb (pteIdx x)
      rw [Mem.entry, Mem.entry, h ptetb (by simp)]

theorem addr_of_tables {m m' : Mem} {x : ℕ} (h : ∀ p ∈ m.tables pagetable x, m' p = m p) :
    m'.addr pagetable x = m.addr pagetable x := by
  rw [Mem.addr, Mem.addr, (leaf_of_tables h).1]

/-- No two of the `len` addresses from `va` on are one physical byte, and none is in a page of the table
that translates them. -/
structure Apart (s : Vm) (pagetable va len : ℕ) : Prop where
  inj : ∀ i < len, ∀ j < len, s.mem.addr pagetable (va + i) ≠ 0 →
    s.mem.addr pagetable (va + i) = s.mem.addr pagetable (va + j) → (va + i) % 4096 = (va + j) % 4096 → i = j
  tables : ∀ i < len, ∀ j < len, s.mem.addr pagetable (va + i) ≠ 0 →
    s.mem.addr pagetable (va + i) ∉ s.mem.tables pagetable (va + j)

/-- What `copyout` of `src` to `va` does, from `s` to `s'`. -/
structure Stored (s : Vm) (pagetable va : ℕ) (src : List UInt8) (ok : Bool) (s' : Vm) : Prop where
  ok_iff : ok = true ↔ ∀ i < src.length, s.mem.addr pagetable (va + i) ≠ 0
  bytes : ok = true → ∀ i < src.length, some (s'.mem (s.mem.addr pagetable (va + i)) ((va + i) % 4096)) = src[i]?
  frame : ∀ page off, (∀ i < src.length, s.mem.addr pagetable (va + i) ≠ 0 →
    ¬(page = s.mem.addr pagetable (va + i) ∧ off = (va + i) % 4096)) → s'.mem page off = s.mem page off
  freelist : s'.freelist = s.freelist

theorem Stored.nil (s : Vm) (pagetable va : ℕ) : Stored s pagetable va [] true s :=
  ⟨by simp, by simp, fun _ _ _ => rfl, rfl⟩

theorem write_other (s : Vm) (page off : ℕ) (l : List UInt8) {p : ℕ} (hp : p ≠ page) :
    (s.write page off l).mem p = s.mem p := by
  simp [Vm.write, Vm.setPage, Function.update_of_ne hp]

/-- The first part of a copy changes the translation of no address of the range. -/
theorem Apart.write (h : Apart s pagetable va len) (hlen : 0 < len) (ha : s.mem.addr pagetable va ≠ 0)
    (off : ℕ) (l : List UInt8) {i : ℕ} (hi : i < len) :
    (s.write (s.mem.addr pagetable va) off l).mem.addr pagetable (va + i) = s.mem.addr pagetable (va + i) ∧
      (s.write (s.mem.addr pagetable va) off l).mem.tables pagetable (va + i) =
        s.mem.tables pagetable (va + i) := by
  have hkeep : ∀ p ∈ s.mem.tables pagetable (va + i),
      (s.write (s.mem.addr pagetable va) off l).mem p = s.mem p := by
    intro p hp
    have hne : p ≠ s.mem.addr pagetable va := by
      rintro rfl
      exact h.tables 0 hlen i hi (by simpa using ha) (by simpa using hp)
    exact write_other s _ off l hne
  exact ⟨addr_of_tables hkeep, (leaf_of_tables hkeep).2⟩

theorem Apart.next (h : Apart s pagetable va len) (ha : s.mem.addr pagetable va ≠ 0) (off : ℕ) (l : List UInt8) :
    Apart (s.write (s.mem.addr pagetable va) off l) pagetable (nextPage va) (len - firstPart va len) := by
  have hstep : ∀ i < len - firstPart va len, vpn (nextPage va + i) = vpn (va + (firstPart va len + i)) ∧
      (nextPage va + i) % 4096 = (va + (firstPart va len + i)) % 4096 := by
    intro i hi
    have := @nextPage_add va len (by omega) i
    unfold vpn
    omega
  have haddr : ∀ i < len - firstPart va len,
      (s.write (s.mem.addr pagetable va) off l).mem.addr pagetable (nextPage va + i) =
        s.mem.addr pagetable (va + (firstPart va len + i)) := by
    intro i hi
    rw [addr_congr _ _ (hstep i hi).1, (h.write (by omega) ha off l (by omega)).1]
  refine ⟨?_, ?_⟩
  · intro i hi j hj hne he hmod
    rw [haddr i hi] at hne he
    rw [haddr j hj] at he
    rw [(hstep i hi).2, (hstep j hj).2] at hmod
    have := h.inj _ (by omega) _ (by omega) hne he hmod
    omega
  · intro i hi j hj hne
    rw [haddr i hi] at hne ⊢
    rw [tables_congr _ _ (hstep j hj).1, (h.write (by omega) ha off l (by omega)).2]
    exact h.tables _ (by omega) _ (by omega) hne

/-- The part of `copyout` in the first page, followed by the rest. -/
theorem Stored.cons {src : List UInt8} {ok : Bool} (hap : Apart s pagetable va src.length)
    (ha : s.mem.addr pagetable va ≠ 0) (hpos : 0 < src.length)
    (h : Stored (s.write (s.mem.addr pagetable va) (va % 4096) (src.take (firstPart va src.length))) pagetable
      (nextPage va) (src.drop (firstPart va src.length)) ok s') : Stored s pagetable va src ok s' := by
  have hpart := firstPart_eq va src.length
  set n := firstPart va src.length with hn
  set t := s.write (s.mem.addr pagetable va) (va % 4096) (src.take n) with ht
  have hlen : (src.drop n).length = src.length - n := List.length_drop
  have hfirst : ∀ i < n, s.mem.addr pagetable (va + i) = s.mem.addr pagetable va ∧
      (va + i) % 4096 = va % 4096 + i := by
    intro i hi
    refine ⟨addr_congr s pagetable ?_, by omega⟩
    unfold vpn
    omega
  have hrest : ∀ i, n ≤ i → i < src.length →
      t.mem.addr pagetable (nextPage va + (i - n)) = s.mem.addr pagetable (va + i) ∧
        (nextPage va + (i - n)) % 4096 = (va + i) % 4096 := by
    intro i hni hi
    have hstep := @nextPage_add va src.length (by omega) (i - n)
    rw [← hn, Nat.add_sub_cancel' hni] at hstep
    have hv : vpn (nextPage va + (i - n)) = vpn (va + i) := by
      unfold vpn
      omega
    exact ⟨by rw [addr_congr _ _ hv, (hap.write hpos ha _ _ hi).1], by omega⟩
  have hput : ∀ i < n, some (t.mem (s.mem.addr pagetable (va + i)) ((va + i) % 4096)) = src[i]? := by
    intro i hi
    rw [(hfirst i hi).1, (hfirst i hi).2]
    have hin : va % 4096 ≤ va % 4096 + i ∧ va % 4096 + i < va % 4096 + (src.take n).length := by
      rw [List.length_take]
      omega
    simp only [ht, Vm.write, Vm.setPage, Function.update_self, putBytes, if_pos hin]
    rw [Nat.add_sub_cancel_left, List.getD_eq_getElem?_getD, List.getElem?_take_of_lt hi,
      List.getElem?_eq_getElem (show i < src.length by omega), Option.getD_some]
  refine ⟨?_, ?_, ?_, ?_⟩
  · rw [h.ok_iff, hlen]
    constructor
    · intro hall i hi
      by_cases hin : i < n
      · rw [(hfirst i hin).1]
        exact ha
      · have := hall (i - n) (by omega)
        rw [(hrest i (by omega) hi).1] at this
        exact this
    · intro hall i hi
      have := (hrest (n + i) (by omega) (by omega)).1
      rw [Nat.add_sub_cancel_left] at this
      rw [this]
      exact hall _ (by omega)
  · intro hok i hi
    by_cases hin : i < n
    · -- the rest of the range is elsewhere
      rw [h.frame, hput i hin]
      rintro j hj hne ⟨he, hoff⟩
      obtain ⟨hr1, hr2⟩ := hrest (n + j) (by omega) (by omega)
      rw [Nat.add_sub_cancel_left] at hr1 hr2
      rw [hr1] at he
      rw [hr2] at hoff
      have := hap.inj i hi (n + j) (by omega) (by rw [(hfirst i hin).1]; exact ha) he hoff
      omega
    · have := h.bytes hok (i - n) (by omega)
      rw [(hrest i (by omega) hi).1, (hrest i (by omega) hi).2, List.getElem?_drop,
        Nat.add_sub_cancel' (by omega)] at this
      exact this
  · intro page off hout
    rw [h.frame page off]
    · simp only [ht, Vm.write, Vm.setPage]
      by_cases hp : page = s.mem.addr pagetable va
      · subst hp
        rw [Function.update_self, putBytes, if_neg]
        rintro ⟨h1, h2⟩
        rw [List.length_take] at h2
        refine hout (off - va % 4096) (by omega) ?_ ⟨?_, ?_⟩
        · rw [(hfirst _ (by omega)).1]
          exact ha
        · rw [(hfirst _ (by omega)).1]
        · rw [(hfirst _ (by omega)).2]
          omega
      · rw [Function.update_of_ne hp]
    · intro i hi hne he
      obtain ⟨hr1, hr2⟩ := hrest (n + i) (by omega) (by omega)
      rw [Nat.add_sub_cancel_left] at hr1 hr2
      rw [hr1] at hne he
      rw [hr2] at he
      exact hout (n + i) (by omega) hne he
  · rw [h.freelist]
    rfl

/-- One turn of the loop of `copyout`. -/
theorem run_copyoutFrom_turn {src : List UInt8} (hsrc : src ≠ []) (ha : s.mem.addr pagetable va ≠ 0) :
    (copyoutFrom pagetable (fuel + 1) va src).run vmStep s =
      (copyoutFrom pagetable fuel (nextPage va) (src.drop (firstPart va src.length))).run vmStep
        (s.write (s.mem.addr pagetable va) (va % 4096) (src.take (firstPart va src.length))) := by
  have hoff : va - pgRoundDown va = va % 4096 := by
    change va - va / 4096 * 4096 = _
    omega
  rw [copyoutFrom, if_neg hsrc]
  simp only [Prog.bind_eq]
  rw [Prog.run_bind_done vmStep (run_walkaddr s pagetable _), addr_pgRoundDown, if_neg ha, ← hoff]
  rfl

theorem run_copyoutFrom_apart {src : List UInt8} (hlen : src.length ≤ fuel) (h : Apart s pagetable va src.length) :
    ∃ ok s', (copyoutFrom pagetable fuel va src).run vmStep s = .done ok s' ∧ Stored s pagetable va src ok s' := by
  induction fuel generalizing s va src with
  | zero =>
    obtain rfl := List.eq_nil_of_length_eq_zero (Nat.le_zero.mp hlen)
    exact ⟨true, s, rfl, .nil s pagetable va⟩
  | succ fuel ih =>
    by_cases hnil : src = []
    · subst hnil
      exact ⟨true, s, rfl, .nil s pagetable va⟩
    have hpos : 0 < src.length := List.length_pos_of_ne_nil hnil
    by_cases ha : s.mem.addr pagetable va = 0
    · rw [copyoutFrom, if_neg hnil]
      simp only [Prog.bind_eq]
      rw [Prog.run_bind_done vmStep (run_walkaddr s pagetable _), addr_pgRoundDown, if_pos ha]
      refine ⟨false, s, rfl, ?_, by simp, fun _ _ _ => rfl, rfl⟩
      simp only [Bool.false_eq_true, false_iff]
      exact fun hall => hall 0 hpos ha
    · rw [run_copyoutFrom_turn hnil ha]
      have hfirst : 0 < firstPart va src.length := firstPart_pos hpos
      have hnext := h.next ha (va % 4096) (src.take (firstPart va src.length))
      rw [← List.length_drop] at hnext
      obtain ⟨ok, s', hrun, hs'⟩ := ih (by rw [List.length_drop]; omega) hnext
      exact ⟨ok, s', hrun, .cons h ha hpos hs'⟩

theorem Stored.user {src : List UInt8} (h : Stored s pagetable va src true s') (hap : Apart s pagetable va src.length)
    {i : ℕ} (hi : i < src.length) : s'.user pagetable (va + i) = src[i]? := by
  have hne := h.ok_iff.mp rfl
  have haddr : s'.mem.addr pagetable (va + i) = s.mem.addr pagetable (va + i) := by
    refine addr_of_tables fun p hp => ?_
    funext off
    refine h.frame p off ?_
    rintro j hj hj0 ⟨rfl, -⟩
    exact hap.tables j hj i hi hj0 hp
  rw [Vm.user, userByte, haddr, if_neg (hne i hi)]
  exact h.bytes rfl i hi

/-- The page table of a process: up to 4 GiB, a range never meets itself. -/
theorem Mem.AddressSpace.apart (h : s.mem.AddressSpace own pagetable sz) (hlen : len ≤ 2 ^ 32) :
    Apart s pagetable va len := by
  have hmap : ∀ x, s.mem.addr pagetable x ≠ 0 →
      ∃ ap, own (s.mem.addr pagetable x) = .user pagetable (vpn x) ap := by
    intro x hx
    by_cases hm : Mapped sz x
    · obtain ⟨q, ap, hq, he, -⟩ := h.addr_mapped hm
      exact ⟨ap, by rwa [he]⟩
    · exact absurd (h.addr_unmapped hm) hx
  refine ⟨?_, ?_⟩
  · intro i hi j hj hne he hmod
    obtain ⟨ap, ho⟩ := hmap _ hne
    obtain ⟨ap', ho'⟩ := hmap (va + j) (he ▸ hne)
    rw [he, ho'] at ho
    injection ho with _ hv _
    unfold vpn at hv
    omega
  · intro i hi j hj hne hmem
    obtain ⟨ap, ho⟩ := hmap _ hne
    have hnode : ∀ p ∈ s.mem.tables pagetable (va + j), (own p).IsNode := by
      intro p hp
      unfold Mem.tables at hp
      rcases h.owned.next_pgd h.root (pgdIdx_lt (va + j)) (fun hf => hf) with ⟨p₁, hp₁, hn₁⟩ | ⟨-, hn₁, -⟩
      · rw [hn₁] at hp
        rcases h.owned.next_pmd hp₁ (pmdIdx_lt (va + j)) (fun hf => hf) with ⟨p₂, hp₂, hn₂⟩ | ⟨-, hn₂, -⟩
        · simp only [hn₂, List.mem_cons, List.not_mem_nil, or_false] at hp
          rcases hp with rfl | rfl | rfl
          · rw [h.root]; trivial
          · rw [hp₁]; trivial
          · rw [hp₂]; trivial
        · simp only [hn₂, List.mem_cons, List.not_mem_nil, or_false] at hp
          rcases hp with rfl | rfl
          · rw [h.root]; trivial
          · rw [hp₁]; trivial
      · simp only [hn₁, List.mem_singleton] at hp
        rw [hp, h.root]; trivial
    have := hnode _ hmem
    rw [ho] at this
    exact this

/-! ## The three copies -/

/-- `walkaddr` gives an address for the page of `x`. -/
def Translates (s : Vm) (pagetable x : ℕ) : Prop :=
  ∃ pa, (walkaddr pagetable (pgRoundDown x)).run vmStep s = .done pa s ∧ pa ≠ 0

theorem translates_iff (s : Vm) (pagetable x : ℕ) : Translates s pagetable x ↔ s.mem.addr pagetable x ≠ 0 := by
  rw [Translates, run_walkaddr, addr_pgRoundDown]
  simp

theorem user_eq_none (s : Vm) (pagetable x : ℕ) : s.user pagetable x = none ↔ ¬Translates s pagetable x := by
  rw [translates_iff, Vm.user]
  simp

/-- What `copyinstr` stores at its destination: the NUL after the other bytes, if it finds one. -/
def storedStr (r : List UInt8 × Bool) : List UInt8 := if r.2 then r.1 ++ [0] else r.1

/-- The bytes that `copyin`, `copyinstr` and `copyout` move, and when they succeed. The first two hold for
every page table; the third for those in which the range does not meet itself or the table. -/
theorem user_copies_exact (s : Vm) (pagetable va : ℕ) :
    (∀ len, ∃ r, (copyin pagetable va len).run vmStep s = .done r s ∧
      (r.2 = true ↔ ∀ i < len, Translates s pagetable (va + i)) ∧
      (r.2 = true → r.1.length = len ∧ ∀ i < len, r.1[i]? = s.user pagetable (va + i))) ∧
    (∀ max, ∃ r, (copyinstr pagetable va max).run vmStep s = .done r s ∧ (storedStr r).length ≤ max ∧
      (r.2 = true ↔ ∃ k < max, s.user pagetable (va + k) = some 0 ∧ ∀ j ≤ k, Translates s pagetable (va + j)) ∧
      (r.2 = true → ∃ k, (storedStr r).length = k + 1 ∧ s.user pagetable (va + k) = some 0 ∧
        (∀ j < k, s.user pagetable (va + j) ≠ some 0) ∧
        ∀ i ≤ k, (storedStr r)[i]? = s.user pagetable (va + i))) ∧
    (∀ src : List UInt8, Apart s pagetable va src.length →
      ∃ ok s', (copyout pagetable va src).run vmStep s = .done ok s' ∧
        (ok = true ↔ ∀ i < src.length, Translates s pagetable (va + i)) ∧
        (ok = true → ∀ i < src.length, s'.user pagetable (va + i) = src[i]?) ∧
        (∀ page off, (∀ i < src.length, Translates s pagetable (va + i) →
          ¬(page = s.mem.addr pagetable (va + i) ∧ off = (va + i) % 4096)) → s'.mem page off = s.mem page off) ∧
        s'.freelist = s.freelist) := by
  have htrans : ∀ x, s.user pagetable x ≠ none ↔ Translates s pagetable x := fun x =>
    (user_eq_none s pagetable x).not.trans not_not
  refine ⟨fun len => ?_, fun max => ?_, fun src hap => ?_⟩
  · obtain ⟨l, ok, hrun, ht⟩ := run_copyin s pagetable va len
    refine ⟨(l, ok), hrun, ?_, fun hok => ?_⟩
    · simpa only [htrans] using ht.ok_iff
    · have hlen := ht.all hok
      exact ⟨hlen, fun i hi => (ht.bytes i (by omega)).symm⟩
  · obtain ⟨l, ok, hrun, ht⟩ := run_copyinstr s pagetable va max
    refine ⟨(l, ok), hrun, ?_, ?_, fun hok => ?_⟩
    · cases ok with
      | true => simpa [storedStr] using (ht.found rfl).1
      | false => simpa [storedStr] using ht.le
    · rw [ht.ok_iff]
      refine exists_congr fun k => and_congr_right fun _ => and_congr_right fun h0 => ?_
      simp only [htrans]
      refine ⟨fun h j hj => ?_, fun h j hj => h j hj.le⟩
      rcases Nat.lt_or_eq_of_le hj with hj | rfl
      · exact h j hj
      · exact (htrans _).mp (by rw [h0]; simp)
    · obtain rfl : ok = true := hok
      obtain ⟨-, h0⟩ := ht.found rfl
      refine ⟨l.length, by simp [storedStr], h0, fun j hj hz => ?_, fun i hi => ?_⟩
      · rw [ht.bytes j hj] at hz
        exact ht.nonzero (List.mem_of_getElem? hz)
      · change (l ++ [0])[i]? = _
        rcases Nat.lt_or_eq_of_le hi with hi | rfl
        · rw [List.getElem?_append_left hi, ht.bytes i hi]
        · rw [List.getElem?_append_right le_rfl, h0]
          simp
  · obtain ⟨ok, s', hrun, hs⟩ := run_copyoutFrom_apart le_rfl hap
    refine ⟨ok, s', hrun, ?_, ?_, ?_, hs.freelist⟩
    · simpa only [translates_iff] using hs.ok_iff
    · rintro rfl i hi
      exact hs.user hap hi
    · simpa only [translates_iff] using hs.frame

theorem user_copies_exact_guarded :
    ∃ ok s', (copyout 0x40001000 0xfff [1, 2]).run vmStep guarded = .done ok s' ∧
      (ok = true ↔ ∀ i < 2, Translates guarded 0x40001000 (0xfff + i)) ∧
      (ok = true → ∀ i < 2, s'.user 0x40001000 (0xfff + i) = [1, 2][i]?) := by
  obtain ⟨ok, s', hrun, hiff, hbytes, -⟩ :=
    (user_copies_exact guarded 0x40001000 0xfff).2.2 [1, 2] (guarded_space.apart (by norm_num))
  exact ⟨ok, s', hrun, hiff, hbytes⟩

/-! ## One page mapped twice -/

/-- Pages 0 and 1 of user memory are the same physical page. -/
def doubled : Vm where
  freelist := []
  mem := fun p =>
    if p = 0x40001000 then tableOf [tableEntry 0x40002000]
    else if p = 0x40002000 then tableOf [tableEntry 0x40003000]
    else if p = 0x40003000 then tableOf [leafEntry 0x40004000 AP_1, leafEntry 0x40004000 AP_1]
    else fun _ => 0

theorem doubled_walk {x : ℕ} (hx : x < 0x2000) : doubled.mem.addr 0x40001000 x = 0x40004000 ∧
    doubled.mem.tables 0x40001000 x = [0x40001000, 0x40002000, 0x40003000] := by
  have hv : vpn x = vpn 0 ∨ vpn x = vpn 0x1000 := by
    unfold vpn
    omega
  rcases hv with hv | hv
  · rw [addr_congr doubled _ hv, tables_congr _ _ hv]
    decide
  · rw [addr_congr doubled _ hv, tables_congr _ _ hv]
    decide

/-- Writing to the page does not change the table. -/
theorem doubled_addr (hs : ∀ p ≠ 0x40004000, s.mem p = doubled.mem p) {x : ℕ} (hx : x < 0x2000) :
    s.mem.addr 0x40001000 x = 0x40004000 := by
  refine (addr_of_tables fun p hp => hs p ?_).trans (doubled_walk hx).1
  rintro rfl
  rw [(doubled_walk hx).2] at hp
  exact absurd hp (by decide)

theorem run_copyout_doubled {l : List UInt8} (hl : l.length = 4096) (b : UInt8) :
    ∃ s', (copyout 0x40001000 0 (l ++ [b])).run vmStep doubled = .done true s' ∧
      s'.user 0x40001000 0 = some b := by
  have hpart : firstPart 0 (l ++ [b]).length = l.length := by
    rw [firstPart_eq, List.length_append, hl]
    rfl
  have hfuel : (l ++ [b]).length = 4096 + 1 := by
    rw [List.length_append, hl]
    rfl
  have hkeep : ∀ p ≠ 0x40004000, (doubled.write 0x40004000 0 l).mem p = doubled.mem p :=
    fun p hp => write_other doubled _ 0 l hp
  refine ⟨(doubled.write 0x40004000 0 l).write 0x40004000 0 [b], ?_, ?_⟩
  · have ha := (doubled_walk (x := 0) (by norm_num)).1
    have ha' := doubled_addr hkeep (x := 4096) (by norm_num)
    rw [copyout, hfuel, run_copyoutFrom_turn (by simp) (by rw [ha]; norm_num), hpart, ha, List.drop_left,
      List.take_left, show nextPage 0 = 4096 from rfl, Nat.zero_mod, show 4096 = 4095 + 1 from rfl,
      run_copyoutFrom_turn (by simp) (by rw [ha']; norm_num), ha']
    rfl
  · have ha : Mem.addr ((doubled.write 0x40004000 0 l).write 0x40004000 0 [b]).mem 0x40001000 0 = 0x40004000 :=
      doubled_addr (fun p hp => (write_other _ _ 0 [b] hp).trans (hkeep p hp)) (by norm_num)
    rw [Vm.user, userByte, ha, if_neg (by norm_num)]
    simp [Vm.write, Vm.setPage, putBytes]

/-- Every page of the range translates and the copy succeeds, but the last byte, which goes to the start of
the second page, takes the place of the first one. -/
theorem copyout_doubled :
    ∃ s', (copyout 0x40001000 0 (List.replicate 4096 1 ++ [2])).run vmStep doubled = .done true s' ∧
      (∀ i < 4097, Translates doubled 0x40001000 i) ∧ (List.replicate 4096 (1 : UInt8) ++ [2])[0]? = some 1 ∧
      s'.user 0x40001000 0 = some 2 := by
  obtain ⟨s', hrun, h0⟩ := run_copyout_doubled (List.length_replicate (n := 4096) (a := (1 : UInt8))) 2
  refine ⟨s', hrun, fun i hi => ?_, ?_, h0⟩
  · rw [translates_iff, (doubled_walk (by omega)).1]
    norm_num
  · rw [List.getElem?_append_left (by rw [List.length_replicate]; norm_num), List.getElem?_replicate,
      if_pos (by norm_num)]

end Xv6Arm

import Xv6Arm.Vm.Reach

/-!
# What a copy moves

The bytes that `copyin` gets and those that `copyout` leaves in user memory. A
copy stops at the first address whose page has no translation. User memory is
addressed modulo 4 GiB.
-/
namespace Xv6Arm
open Lib Mem

variable {s s' : Vm} {own : ℕ → Place} {pagetable sz va len fuel : ℕ}

theorem addr_congr (s : Vm) (pagetable : ℕ) {x y : ℕ} (h : vpn x = vpn y) :
    s.mem.addr pagetable x = s.mem.addr pagetable y := by
  simp only [Mem.addr, Mem.leaf, Mem.leafSlot, pgdIdx_eq, pmdIdx_eq, pteIdx_eq, h]

/-- The byte at a user address, if its page has a translation. -/
def Vm.user (s : Vm) (pagetable x : ℕ) : Option UInt8 :=
  if s.mem.addr pagetable x = 0 then none else some (userByte s pagetable x)

theorem Vm.user_congr (s : Vm) (pagetable : ℕ) {x y : ℕ} (h : x % 2 ^ 32 = y % 2 ^ 32) :
    s.user pagetable x = s.user pagetable y := by
  have hv : vpn x = vpn y := by
    unfold vpn
    omega
  have hmod : x % 4096 = y % 4096 := by omega
  rw [user, user, userByte, userByte, addr_congr s pagetable hv, hmod]

theorem Vm.write_nil (s : Vm) (page off : ℕ) : s.write page off [] = s := by
  simp [Vm.write, Vm.setPage, putBytes_nil]

theorem Vm.write_write (s : Vm) (page off : ℕ) (l l' : List UInt8) :
    (s.write page off l).write page (off + l.length) l' = s.write page off (l ++ l') := by
  simp [Vm.write, Vm.setPage, putBytes_append]

/-! ## `copyin` -/

/-- The bytes `l` that a copy of `len` bytes from `va` on got, and whether these are all. -/
structure Taken (s : Vm) (pagetable va len : ℕ) (l : List UInt8) (ok : Bool) : Prop where
  bytes : ∀ q < l.length, s.user pagetable (va + q) = l[q]?
  all : ok = true → l.length = len
  stop : ok = false → l.length < len ∧ s.user pagetable (va + l.length) = none

/-- The part of a copy that lies in the first page. -/
theorem user_firstPart (s : Vm) (pagetable : ℕ) (ha : s.mem.addr pagetable va ≠ 0) {q : ℕ} (hq : q < firstPart va len) :
    s.user pagetable (va + q) =
      (getBytes (s.mem (s.mem.addr pagetable va)) (va - pgRoundDown va) (firstPart va len))[q]? := by
  have hpart := firstPart_eq va len
  have haddr : s.mem.addr pagetable (va + q) = s.mem.addr pagetable va := by
    apply addr_congr
    unfold vpn
    omega
  have hoff : va - pgRoundDown va = va % 4096 := by
    change va - va / 4096 * 4096 = _
    omega
  have hmod : (va + q) % 4096 = va % 4096 + q := by omega
  rw [Vm.user, haddr, if_neg ha, userByte, haddr, hoff, hmod]
  simp [getBytes, hq]

theorem run_copyinFrom (s : Vm) (pagetable : ℕ) (hlen : len ≤ fuel) :
    ∃ l ok, (copyinFrom pagetable fuel va len).run vmStep s = .done (l, ok) s ∧ Taken s pagetable va len l ok := by
  induction fuel generalizing va len with
  | zero =>
    obtain rfl := Nat.le_zero.mp hlen
    exact ⟨[], true, rfl, by simp, by simp, by simp⟩
  | succ fuel ih =>
    by_cases hz : len = 0
    · subst hz
      exact ⟨[], true, rfl, by simp, by simp, by simp⟩
    rw [copyinFrom, if_neg hz]
    simp only [Prog.bind_eq]
    rw [Prog.run_bind_done vmStep (run_walkaddr s pagetable _), addr_pgRoundDown]
    by_cases ha : s.mem.addr pagetable va = 0
    · rw [if_pos ha]
      exact ⟨[], false, rfl, by simp, by simp, fun _ => ⟨by simpa using Nat.pos_of_ne_zero hz, by simp [Vm.user, ha]⟩⟩
    · rw [if_neg ha]
      have hfirst : 0 < firstPart va len := firstPart_pos (Nat.pos_of_ne_zero hz)
      have hle : firstPart va len ≤ len := Nat.min_le_right _ _
      obtain ⟨l, ok, hrun, ht⟩ := @ih (nextPage va) (len - firstPart va len) (by omega)
      refine ⟨getBytes (s.mem (s.mem.addr pagetable va)) (va - pgRoundDown va) (firstPart va len) ++ l, ok, ?_, ?_⟩
      · change ((copyinFrom pagetable fuel (nextPage va) (len - firstPart va len)).bind _).run vmStep s = _
        rw [Prog.run_bind_done vmStep hrun]
        rfl
      · have hnext : firstPart va len < len → ∀ q, s.user pagetable (va + (firstPart va len + q)) =
            s.user pagetable (nextPage va + q) := by
          intro hn q
          apply Vm.user_congr
          have := nextPage_add hn q
          omega
        refine ⟨?_, ?_, ?_⟩
        · intro q hq
          rw [List.length_append, length_getBytes] at hq
          by_cases hq' : q < firstPart va len
          · rw [List.getElem?_append_left (by rwa [length_getBytes])]
            exact user_firstPart s pagetable ha hq'
          · rw [List.getElem?_append_right (by rw [length_getBytes]; omega), length_getBytes]
            have hlt : firstPart va len < len := by
              cases ok with
              | true =>
                have := ht.all rfl
                omega
              | false =>
                have := (ht.stop rfl).1
                omega
            have := hnext hlt (q - firstPart va len)
            rw [Nat.add_sub_cancel' (by omega)] at this
            rw [this]
            exact ht.bytes _ (by omega)
        · intro hok
          have := ht.all hok
          rw [List.length_append, length_getBytes]
          omega
        · intro hok
          obtain ⟨hlt, hnone⟩ := ht.stop hok
          rw [List.length_append, length_getBytes]
          exact ⟨by omega, by rw [hnext (by omega)]; exact hnone⟩

theorem run_copyin (s : Vm) (pagetable va len : ℕ) :
    ∃ l ok, (copyin pagetable va len).run vmStep s = .done (l, ok) s ∧ Taken s pagetable va len l ok :=
  run_copyinFrom s pagetable le_rfl

/-! ## `copyout` -/

/-- How far `x` is after `va`. -/
def dist (va x : ℕ) : ℕ := (x + (2 ^ 32 - va % 2 ^ 32)) % 2 ^ 32

theorem Mem.AddressSpace.addr_eq (h : s.mem.AddressSpace own pagetable sz) (h' : s'.mem.AddressSpace own pagetable sz)
    (x : ℕ) : s'.mem.addr pagetable x = s.mem.addr pagetable x := by
  by_cases hx : Mapped sz x
  · obtain ⟨q, ap, hq, he, -⟩ := h.addr_mapped hx
    rw [he, h'.owned.addr_of_user hq]
  · rw [h.addr_unmapped hx, h'.addr_unmapped hx]

/-- Bytes are stored in one page. -/
theorem user_write (h : s.mem.AddressSpace own pagetable sz) (hm : Mapped sz va) {l : List UInt8}
    (hl : l.length ≤ 4096 - va % 4096) (x : ℕ) :
    (s.write (s.mem.addr pagetable va) (va % 4096) l).user pagetable x =
      if dist va x < l.length then l[dist va x]? else s.user pagetable x := by
  obtain ⟨q, ap, hq, haddr, hne⟩ := h.addr_mapped hm
  have h' := h.write hq (va % 4096) l
  rw [haddr, Vm.user, Vm.user, userByte, h.addr_eq h', userByte]
  have hv := vpn_lt x
  have hv' := vpn_lt va
  by_cases hvx : vpn x = vpn va
  · have hxq : s.mem.addr pagetable x = q := by rw [addr_congr s pagetable hvx, haddr]
    rw [hxq, if_neg hne, if_neg hne]
    simp only [Vm.write, Vm.setPage, Function.update_self, putBytes]
    unfold vpn at hvx
    by_cases hd : dist va x < l.length
    · have hin : va % 4096 ≤ x % 4096 ∧ x % 4096 < va % 4096 + l.length ∧ dist va x = x % 4096 - va % 4096 := by
        unfold dist at hd ⊢
        omega
      rw [if_pos hd, if_pos ⟨hin.1, hin.2.1⟩, ← hin.2.2]
      simp [hd]
    · rw [if_neg hd, if_neg]
      unfold dist at hd
      omega
  · have hd : ¬dist va x < l.length := by
      unfold vpn at hvx
      unfold dist
      omega
    rw [if_neg hd]
    by_cases hx : s.mem.addr pagetable x = 0
    · rw [if_pos hx, if_pos hx]
    · have hxq : s.mem.addr pagetable x ≠ q := by
        intro he
        by_cases hmx : Mapped sz x
        · obtain ⟨q', ap', hq', he', -⟩ := h.addr_mapped hmx
          rw [he'] at he
          rw [he, hq] at hq'
          injection hq' with _ hvpn _
          exact hvx hvpn.symm
        · exact hx (h.addr_unmapped hmx)
      rw [if_neg hx, if_neg hx]
      simp [Vm.write, Vm.setPage, Function.update_of_ne hxq]

/-- `copyout` returns whatever memory looks like. -/
theorem run_copyout_done (s : Vm) (pagetable va : ℕ) (src : List UInt8) :
    ∃ ok s', (copyout pagetable va src).run vmStep s = .done ok s' := by
  unfold copyout
  generalize src.length = fuel
  induction fuel generalizing s va src with
  | zero => exact ⟨true, s, rfl⟩
  | succ fuel ih =>
    rw [copyoutFrom]
    by_cases hnil : src = []
    · rw [if_pos hnil]
      exact ⟨true, s, rfl⟩
    rw [if_neg hnil]
    simp only [Prog.bind_eq]
    rw [Prog.run_bind_done vmStep (run_walkaddr s pagetable _)]
    by_cases ha : s.mem.addr pagetable (pgRoundDown va) = 0
    · rw [if_pos ha]
      exact ⟨false, s, rfl⟩
    · rw [if_neg ha]
      exact ih _ _ _

theorem run_copyoutFrom (h : s.mem.AddressSpace own pagetable sz) {src : List UInt8} (hlen : src.length ≤ fuel)
    (hsmall : src.length ≤ 2 ^ 32) (hm : ∀ i < src.length, Mapped sz (va + i)) :
    ∃ s', (copyoutFrom pagetable fuel va src).run vmStep s = .done true s' ∧ s'.mem.AddressSpace own pagetable sz ∧
      ∀ x, s'.user pagetable x = if dist va x < src.length then src[dist va x]? else s.user pagetable x := by
  induction fuel generalizing s va src with
  | zero =>
    obtain rfl := List.eq_nil_of_length_eq_zero (Nat.le_zero.mp hlen)
    exact ⟨s, rfl, h, by simp⟩
  | succ fuel ih =>
    by_cases hnil : src = []
    · subst hnil
      exact ⟨s, rfl, h, by simp⟩
    have hpos : 0 < src.length := List.length_pos_of_ne_nil hnil
    have hm₀ : Mapped sz va := hm 0 hpos
    obtain ⟨q, ap, hq, haddr, hne⟩ := h.addr_mapped hm₀
    have hoff : va - pgRoundDown va = va % 4096 := by
      change va - va / 4096 * 4096 = _
      omega
    have hpart := firstPart_eq va src.length
    have hfirst : 0 < firstPart va src.length := firstPart_pos hpos
    have htake : (src.take (firstPart va src.length)).length = firstPart va src.length := by
      rw [List.length_take]
      omega
    have hw := user_write h hm₀ (l := src.take (firstPart va src.length)) (by omega)
    obtain ⟨s', hrun, hs', huser⟩ := @ih _ (nextPage va)
      (h.write hq (va % 4096) (src.take (firstPart va src.length))) (src.drop (firstPart va src.length)) (by rw [List.length_drop]; omega)
      (by rw [List.length_drop]; omega)
      (by rw [List.length_drop]; exact (allMapped_page h.sz_le hm₀).mp hm)
    refine ⟨s', ?_, hs', fun x => ?_⟩
    · rw [copyoutFrom, if_neg hnil]
      simp only [Prog.bind_eq]
      rw [Prog.run_bind_done vmStep (run_walkaddr s pagetable _), addr_pgRoundDown, haddr, if_neg hne]
      change (copyoutFrom pagetable fuel (nextPage va) (src.drop (firstPart va src.length))).run vmStep
        (s.write q (va - pgRoundDown va) (src.take (firstPart va src.length))) = _
      rw [hoff]
      exact hrun
    · rw [haddr] at hw
      rw [huser, hw, htake, List.length_drop]
      by_cases hx : dist va x < firstPart va src.length
      · -- the rest of the range is elsewhere
        have hnot : ¬dist (nextPage va) x < src.length - firstPart va src.length := by
          have hnext := nextPage_eq va
          unfold dist at hx ⊢
          omega
        rw [if_neg hnot, if_pos hx, if_pos (by omega), List.getElem?_take_of_lt hx]
      · rw [if_neg hx]
        by_cases hlt : dist va x < src.length
        · have hdist : dist (nextPage va) x = dist va x - firstPart va src.length := by
            have hnext := nextPage_eq va
            unfold dist at hx hlt ⊢
            omega
          rw [if_pos hlt, if_pos (by omega), List.getElem?_drop, hdist, Nat.add_sub_cancel' (by omega)]
        · have hnot : ¬dist (nextPage va) x < src.length - firstPart va src.length := by
            have hnext := nextPage_eq va
            unfold dist at hx hlt ⊢
            omega
          rw [if_neg hnot, if_neg hlt]

end Xv6Arm

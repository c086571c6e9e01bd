import Xv6Arm.Vm.Copy
import Xv6Arm.Vm.Owner

/-!
# Which user addresses the kernel touches

`walk` looks at bits 12 to 31 of an address only, and `walkaddr` does not look at
the access permission of the leaf. So a copy goes on as long as the address
modulo 4 GiB is mapped. For each of the loops of `copyin`, `copyout` and
`copyinstr`: the addresses it touches, and when it succeeds.
-/
namespace Xv6Arm
open Lib Mem

/-- The user addresses whose bytes a request reads or writes. -/
def vmTouch : (o : VmOp) → Vm → List ℕ
  | .readUser va _ _ n, _ => (List.range n).map (va + ·)
  | .writeUser va _ _ l, _ => (List.range l.length).map (va + ·)
  | _, _ => []

def touched {α : Type} (p : VmM α) (s : Vm) : List ℕ := p.emitted vmStep vmTouch s

/-- Address `x` modulo 4 GiB is below the end of the last page. -/
def Mapped (sz x : ℕ) : Prop := x % 2 ^ 32 < pgRoundUp sz

variable {s : Vm} {own : ℕ → Place} {pagetable sz va len fuel : ℕ}

theorem pgRoundUp_eq (h : sz ≤ 2 ^ 32) : pgRoundUp sz = (sz + 4095) / 4096 * 4096 := by
  change (sz + 4095) % 2 ^ 64 / 4096 * 4096 = _
  rw [Nat.mod_eq_of_lt (by omega)]

theorem mapped_iff (h : sz ≤ 2 ^ 32) (x : ℕ) : Mapped sz x ↔ vpn x < (sz + 4095) / 4096 := by
  rw [Mapped, pgRoundUp_eq h, vpn]
  omega

/-! ## One page -/

theorem nextTable_quiet (table idx : ℕ) (alloc clear : Bool) :
    (nextTable table idx alloc clear).Quiet vmTouch := by
  refine ⟨fun _ => rfl, fun e => ?_⟩
  simp only [Prog.ret_bind]
  split
  · trivial
  · split
    · refine ⟨fun _ => rfl, fun r => ?_⟩
      cases r with
      | none => trivial
      | some page =>
        cases clear with
        | false => exact ⟨fun _ => rfl, fun _ => trivial⟩
        | true => exact ⟨fun _ => rfl, fun _ => ⟨fun _ => rfl, fun _ => trivial⟩⟩
    · trivial

theorem walk_quiet (pagetable va : ℕ) (alloc : Bool) : (walk pagetable va alloc).Quiet vmTouch := by
  refine (nextTable_quiet _ _ _ _).bind ?_
  rintro (_ | pmdtb)
  · trivial
  · refine (nextTable_quiet _ _ _ _).bind ?_
    rintro (_ | ptetb) <;> trivial

theorem walkaddr_quiet (pagetable va : ℕ) : (walkaddr pagetable va).Quiet vmTouch := by
  refine (walk_quiet _ _ _).bind ?_
  rintro (_ | slot)
  · trivial
  · refine ⟨fun _ => rfl, fun pte => ?_⟩
    simp only [Prog.ret_bind]
    split <;> trivial

theorem walkaddr_returns (s : Vm) (pagetable va : ℕ) :
    Returns vmStep vmTouch (walkaddr pagetable va) s [] (fun a s' => a = s.mem.addr pagetable va ∧ s' = s) :=
  Returns.of_run (run_walkaddr s pagetable va) (walkaddr_quiet pagetable va)

theorem Mem.AddressSpace.addr_mapped (h : s.mem.AddressSpace own pagetable sz) {x : ℕ} (hx : Mapped sz x) :
    ∃ q ap, own q = .user pagetable (vpn x) ap ∧ s.mem.addr pagetable x = q ∧ q ≠ 0 := by
  obtain ⟨q, ap, hq⟩ := (h.mapped (vpn x)).mpr ((mapped_iff h.sz_le x).mp hx)
  exact ⟨q, ap, hq, h.owned.addr_of_user hq, (h.owned.isPage_of hq (by simp)).pos⟩

theorem Mem.AddressSpace.addr_unmapped (h : s.mem.AddressSpace own pagetable sz) {x : ℕ}
    (hx : ¬Mapped sz x) : s.mem.addr pagetable x = 0 := by
  apply h.owned.addr_of_none h.root
  intro q ap hq
  exact hx ((mapped_iff h.sz_le x).mpr ((h.mapped (vpn x)).mp ⟨q, ap, hq⟩))

/-- The addresses of one page are mapped together. -/
theorem mapped_congr (h : sz ≤ 2 ^ 32) {x y : ℕ} (hxy : x / 4096 = y / 4096) : Mapped sz x ↔ Mapped sz y := by
  rw [mapped_iff h, mapped_iff h, vpn, vpn, hxy]

theorem mapped_wrap (sz x y : ℕ) : Mapped sz (x % 2 ^ 64 + y) ↔ Mapped sz (x + y) := by
  rw [Mapped, Mapped]
  have : (x % 2 ^ 64 + y) % 2 ^ 32 = (x + y) % 2 ^ 32 := by omega
  rw [this]

/-! ## The addresses a copy reaches -/

/-- Address `a` is in the range of `len` addresses from `va` on, and a copy that stops at the first
address that is not mapped, or after the first one where `P` fails, gets to it. -/
def Reach (sz : ℕ) (P : ℕ → Prop) (va len a : ℕ) : Prop :=
  ∃ i < len, (∀ j ≤ i, Mapped sz (va + j)) ∧ (∀ j < i, P ((va + j) % 2 ^ 64)) ∧ a = (va + i) % 2 ^ 64

/-- The number of bytes that the first turn of a loop moves. -/
def firstPart (va len : ℕ) : ℕ := min (PGSIZE - (va - pgRoundDown va)) len

/-- Where the second turn starts. -/
def nextPage (va : ℕ) : ℕ := (pgRoundDown va + PGSIZE) % 2 ^ 64

theorem firstPart_eq (va len : ℕ) : firstPart va len = min (4096 - va % 4096) len := by
  change min (4096 - (va - va / 4096 * 4096)) len = _
  congr 2
  omega

theorem nextPage_eq (va : ℕ) : nextPage va = (va / 4096 * 4096 + 4096) % 2 ^ 64 := rfl

variable {P : ℕ → Prop} {a : ℕ}

theorem Reach.nil : ¬Reach sz P va 0 a := by
  rintro ⟨i, hi, -⟩
  omega

theorem Reach.unmapped (h : ¬Mapped sz va) : ¬Reach sz P va len a := by
  rintro ⟨i, -, hm, -⟩
  exact h (hm 0 (Nat.zero_le i))

/-- The rest of a range after its first page. -/
theorem nextPage_add (hn : firstPart va len < len) (i : ℕ) :
    (nextPage va + i) % 2 ^ 64 = (va + (firstPart va len + i)) % 2 ^ 64 := by
  rw [firstPart_eq] at hn ⊢
  rw [nextPage_eq]
  omega

theorem mapped_nextPage (hn : firstPart va len < len) (i : ℕ) :
    Mapped sz (nextPage va + i) ↔ Mapped sz (va + (firstPart va len + i)) := by
  rw [← Nat.zero_add (nextPage va + i), Nat.zero_add, ← Nat.add_zero (nextPage va + i),
    ← mapped_wrap, nextPage_add hn, mapped_wrap, Nat.add_zero]

theorem mapped_firstPart (hsz : sz ≤ 2 ^ 32) (hm : Mapped sz va) {i : ℕ} (hi : i < firstPart va len) :
    Mapped sz (va + i) := by
  rw [firstPart_eq] at hi
  exact (mapped_congr hsz (by omega)).mpr hm

theorem firstPart_lt (hva : va < 2 ^ 64) {i : ℕ} (hi : i < firstPart va len) : va + i < 2 ^ 64 := by
  rw [firstPart_eq] at hi
  omega

/-- A copy reaches the bytes of the first page, and from there those of the following pages. -/
theorem reach_page (hsz : sz ≤ 2 ^ 32) (hva : va < 2 ^ 64) (hm : Mapped sz va) :
    Reach sz P va len a ↔ (∃ i < firstPart va len, (∀ j < i, P (va + j)) ∧ a = va + i) ∨
      ((∀ j < firstPart va len, P (va + j)) ∧
        Reach sz P (nextPage va) (len - firstPart va len) a) := by
  have hle : firstPart va len ≤ len := Nat.min_le_right _ _
  have hP : ∀ j < firstPart va len, P ((va + j) % 2 ^ 64) = P (va + j) := fun j hj => by
    rw [Nat.mod_eq_of_lt (firstPart_lt hva hj)]
  constructor
  · rintro ⟨i, hi, hmi, hPi, rfl⟩
    by_cases hfirst : i < firstPart va len
    · refine .inl ⟨i, hfirst, ?_, Nat.mod_eq_of_lt (firstPart_lt hva hfirst)⟩
      intro j hj
      rw [← hP j (by omega)]
      exact hPi j hj
    · refine .inr ⟨fun j hj => by rw [← hP j hj]; exact hPi j (by omega), ?_⟩
      have hn : firstPart va len < len := by omega
      refine ⟨i - firstPart va len, by omega, ?_, ?_, ?_⟩
      · intro j hj
        rw [mapped_nextPage hn]
        exact hmi _ (by omega)
      · intro j hj
        rw [nextPage_add hn]
        exact hPi _ (by omega)
      · rw [nextPage_add hn]
        congr 2
        omega
  · rintro (⟨i, hi, hPi, rfl⟩ | ⟨hall, i, hi, hmi, hPi, rfl⟩)
    · refine ⟨i, by omega, ?_, ?_, (Nat.mod_eq_of_lt (firstPart_lt hva hi)).symm⟩
      · exact fun j hj => mapped_firstPart hsz hm (lt_of_le_of_lt hj hi)
      · intro j hj
        rw [hP j (by omega)]
        exact hPi j hj
    · have hn : firstPart va len < len := by omega
      refine ⟨firstPart va len + i, by omega, ?_, ?_, nextPage_add hn i⟩
      · intro j hj
        by_cases hfirst : j < firstPart va len
        · exact mapped_firstPart hsz hm hfirst
        · have := hmi (j - firstPart va len) (by omega)
          rwa [mapped_nextPage hn, show firstPart va len + (j - firstPart va len) = j by omega] at this
      · intro j hj
        by_cases hfirst : j < firstPart va len
        · rw [hP j hfirst]
          exact hall j hfirst
        · have := hPi (j - firstPart va len) (by omega)
          rwa [nextPage_add hn, show firstPart va len + (j - firstPart va len) = j by omega] at this

/-- A range is mapped if its first page and the rest are. -/
theorem allMapped_page (hsz : sz ≤ 2 ^ 32) (hm : Mapped sz va) :
    (∀ i < len, Mapped sz (va + i)) ↔
      ∀ i < len - firstPart va len, Mapped sz (nextPage va + i) := by
  constructor
  · intro h i hi
    have hn : firstPart va len < len := by omega
    rw [mapped_nextPage hn]
    exact h _ (by omega)
  · intro h i hi
    by_cases hfirst : i < firstPart va len
    · exact mapped_firstPart hsz hm hfirst
    · have hn : firstPart va len < len := by omega
      have := h (i - firstPart va len) (by omega)
      rwa [mapped_nextPage hn, show firstPart va len + (i - firstPart va len) = i by omega] at this

theorem nextPage_lt (va : ℕ) : nextPage va < 2 ^ 64 := Nat.mod_lt _ (by norm_num)

theorem firstPart_pos (h : 0 < len) : 0 < firstPart va len := by
  rw [firstPart_eq]
  omega

/-! ## The loops -/

theorem vpn_pgRoundDown (va : ℕ) : vpn (pgRoundDown va) = vpn va := by
  change va / 4096 * 4096 / 4096 % 2 ^ 20 = va / 4096 % 2 ^ 20
  rw [Nat.mul_div_cancel _ (by norm_num)]

theorem mapped_pgRoundDown (hsz : sz ≤ 2 ^ 32) : Mapped sz (pgRoundDown va) ↔ Mapped sz va :=
  mapped_congr hsz (by change va / 4096 * 4096 / 4096 = _; omega)

theorem addr_pgRoundDown (s : Vm) (pagetable va : ℕ) :
    s.mem.addr pagetable (pgRoundDown va) = s.mem.addr pagetable va := by
  simp only [Mem.addr, Mem.leaf, Mem.leafSlot, pgdIdx_eq, pmdIdx_eq, pteIdx_eq, vpn_pgRoundDown]

/-- The first turn of a loop: the translation of the page, and what follows if there is one. -/
theorem firstPage_returns {α : Type} (h : s.mem.AddressSpace own pagetable sz) {ws : List ℕ}
    {Q : α → Vm → Prop} {fail : VmM α} {more : ℕ → VmM α}
    (hfail : ¬Mapped sz va → Returns vmStep vmTouch fail s ws Q)
    (hmore : Mapped sz va → Returns vmStep vmTouch (more (s.mem.addr pagetable va)) s ws Q) :
    Returns vmStep vmTouch ((walkaddr pagetable (pgRoundDown va)).bind fun pa0 =>
      if pa0 = 0 then fail else more pa0) s ws Q := by
  have hturn : ∀ pa0 s', pa0 = s.mem.addr pagetable (pgRoundDown va) ∧ s' = s →
      Returns vmStep vmTouch (if pa0 = 0 then fail else more pa0) s' ws Q := by
    rintro pa0 s' ⟨hpa, hs⟩
    rw [hpa, hs]
    by_cases hm : Mapped sz va
    · obtain ⟨q, ap, hq, haddr, hne⟩ := h.addr_mapped hm
      rw [addr_pgRoundDown, haddr, if_neg hne, ← haddr]
      exact hmore hm
    · rw [h.addr_unmapped (fun hm' => hm ((mapped_pgRoundDown h.sz_le).mp hm')), if_pos rfl]
      exact hfail hm
  exact (walkaddr_returns s pagetable (pgRoundDown va)).bind hturn

theorem copyinFrom_returns (h : s.mem.AddressSpace own pagetable sz) (hva : va < 2 ^ 64)
    (hlen : len ≤ fuel) :
    ∃ ws, (∀ a, a ∈ ws ↔ Reach sz (fun _ => True) va len a) ∧
      Returns vmStep vmTouch (copyinFrom pagetable fuel va len) s ws
        (fun r _ => r.2 = true ↔ ∀ i < len, Mapped sz (va + i)) := by
  induction fuel generalizing va len with
  | zero =>
    obtain rfl := Nat.le_zero.mp hlen
    exact ⟨[], by simp [Reach.nil], Returns.ret (by simp)⟩
  | succ fuel ih =>
    rcases Nat.eq_zero_or_pos len with rfl | hpos
    · exact ⟨[], by simp [Reach.nil], Returns.ret (by simp)⟩
    · rw [copyinFrom, if_neg (by omega)]
      by_cases hm : Mapped sz va
      · have hfirst : 0 < firstPart va len := firstPart_pos hpos
        obtain ⟨ws, hws, hrest⟩ := ih (nextPage_lt va) (show len - firstPart va len ≤ fuel by omega)
        refine ⟨(List.range (firstPart va len)).map (va + ·) ++ ws, ?_, ?_⟩
        · intro a
          rw [reach_page h.sz_le hva hm, List.mem_append, hws]
          simp [eq_comm]
        · refine firstPage_returns h (fun hn => absurd hm hn) ?_
          intro _
          refine Returns.call rfl (hrest.bind_ret ?_)
          rintro ⟨rest, ok⟩ - hok
          rw [allMapped_page h.sz_le hm]
          exact hok
      · refine ⟨[], by simp [Reach.unmapped hm], ?_⟩
        refine firstPage_returns h (fun _ => Returns.ret ?_) (fun hm' => absurd hm' hm)
        simp only [Bool.false_eq_true, false_iff]
        exact fun hall => hm (hall 0 hpos)

theorem Mem.AddressSpace.write (h : s.mem.AddressSpace own pagetable sz) {q n ap : ℕ}
    (hq : own q = .user pagetable n ap) (off : ℕ) (l : List UInt8) :
    (s.write q off l).mem.AddressSpace own pagetable sz :=
  ⟨h.owned.update_data (by rw [hq]; exact fun hf => hf) _, h.root, h.sz_le, h.mapped⟩

theorem copyoutFrom_returns (h : s.mem.AddressSpace own pagetable sz) (hva : va < 2 ^ 64)
    {src : List UInt8} (hlen : src.length ≤ fuel) :
    ∃ ws, (∀ a, a ∈ ws ↔ Reach sz (fun _ => True) va src.length a) ∧
      Returns vmStep vmTouch (copyoutFrom pagetable fuel va src) s ws
        (fun r _ => r = true ↔ ∀ i < src.length, Mapped sz (va + i)) := by
  induction fuel generalizing s va src with
  | zero =>
    obtain rfl := List.eq_nil_of_length_eq_zero (Nat.le_zero.mp hlen)
    exact ⟨[], by simp [Reach.nil], Returns.ret (by simp)⟩
  | succ fuel ih =>
    by_cases hnil : src = []
    · subst hnil
      exact ⟨[], by simp [Reach.nil], Returns.ret (by simp)⟩
    · rw [copyoutFrom, if_neg hnil]
      have hpos : 0 < src.length := List.length_pos_of_ne_nil hnil
      by_cases hm : Mapped sz va
      · have hfirst : 0 < firstPart va src.length := firstPart_pos hpos
        have hle : firstPart va src.length ≤ src.length := Nat.min_le_right _ _
        obtain ⟨q, ap, hq, rfl, -⟩ := h.addr_mapped hm
        have hdrop : (src.drop (firstPart va src.length)).length = src.length - firstPart va src.length :=
          List.length_drop
        have hwritten := h.write hq (va - pgRoundDown va) (src.take (firstPart va src.length))
        obtain ⟨ws, hws, hrest⟩ := ih hwritten (nextPage_lt va)
          (show (src.drop (firstPart va src.length)).length ≤ fuel by omega)
        refine ⟨(List.range (firstPart va src.length)).map (va + ·) ++ ws, ?_, ?_⟩
        · intro a
          rw [reach_page h.sz_le hva hm, List.mem_append, hws, hdrop]
          simp [eq_comm]
        · refine firstPage_returns h (fun hn => absurd hm hn) ?_
          intro _
          have hwrite : vmTouch (.writeUser va (s.mem.addr pagetable va) (va - pgRoundDown va)
              (src.take (firstPart va src.length))) s = (List.range (firstPart va src.length)).map (va + ·) := by
            simp [vmTouch, Nat.min_eq_left hle]
          rw [← hwrite]
          refine Returns.call (S := vmSig) rfl (hrest.mono ?_)
          intro r _ hr
          rw [allMapped_page h.sz_le hm, ← hdrop]
          exact hr
      · refine ⟨[], by simp [Reach.unmapped hm], ?_⟩
        refine firstPage_returns h (fun _ => Returns.ret ?_) (fun hm' => absurd hm' hm)
        simp only [Bool.false_eq_true, false_iff]
        exact fun hall => hm (hall 0 hpos)

/-- The byte at a user address. -/
def userByte (s : Vm) (pagetable x : ℕ) : UInt8 := s.mem (s.mem.addr pagetable x) (x % 4096)

/-- The inner loop of `copyinstr` stops after the first NUL. -/
theorem copyinstrPage_returns (s : Vm) (page va off n : ℕ) :
    ∃ ws, (∀ a, a ∈ ws ↔ ∃ i < n, (∀ j < i, s.mem page (off + j) ≠ 0) ∧ a = va + i) ∧
      Returns vmStep vmTouch (copyinstrPage page va off n) s ws
        (fun r s' => s' = s ∧ (r.2 = true ↔ ∃ i < n, s.mem page (off + i) = 0)) := by
  induction n generalizing va off with
  | zero => exact ⟨[], by simp, Returns.ret (by simp)⟩
  | succ n ih =>
    have hbyte : getBytes (s.mem page) off 1 = [s.mem page off] := by simp [getBytes]
    by_cases h0 : s.mem page off = 0
    · refine ⟨[va], ?_, ?_⟩
      · intro a
        constructor
        · intro ha
          exact ⟨0, by omega, by simp, by simpa using ha⟩
        · rintro ⟨i, -, hi, rfl⟩
          rcases Nat.eq_zero_or_pos i with rfl | hpos
          · simp
          · exact absurd h0 (hi 0 hpos)
      · change Returns vmStep vmTouch (copyinstrPage page va off (n + 1)) s ([va] ++ []) _
        refine Returns.call rfl ?_
        simp only [Prog.ret_bind, hbyte, h0, if_true]
        exact Returns.ret ⟨rfl, by simpa using ⟨0, by omega, h0⟩⟩
    · obtain ⟨ws, hws, hrest⟩ := ih (va + 1) (off + 1)
      refine ⟨va :: ws, ?_, ?_⟩
      · intro a
        rw [List.mem_cons, hws]
        constructor
        · rintro (rfl | ⟨i, hi, hne, rfl⟩)
          · exact ⟨0, by omega, by simp, rfl⟩
          · refine ⟨i + 1, by omega, ?_, by omega⟩
            intro j hj
            cases j with
            | zero => exact h0
            | succ j =>
              have := hne j (by omega)
              rwa [show off + 1 + j = off + (j + 1) by omega] at this
        · rintro ⟨i, hi, hne, rfl⟩
          cases i with
          | zero => exact .inl rfl
          | succ i =>
            refine .inr ⟨i, by omega, ?_, by omega⟩
            intro j hj
            rw [show off + 1 + j = off + (j + 1) by omega]
            exact hne (j + 1) (by omega)
      · change Returns vmStep vmTouch (copyinstrPage page va off (n + 1)) s ([va] ++ ws) _
        refine Returns.call rfl ?_
        simp only [Prog.ret_bind, hbyte, List.cons.injEq, h0, false_and, if_false]
        refine hrest.bind_ret ?_
        rintro ⟨rest, gotNull⟩ s' ⟨hs, hiff⟩
        refine ⟨hs, hiff.trans ?_⟩
        constructor
        · rintro ⟨i, hi, hz⟩
          exact ⟨i + 1, by omega, by rwa [show off + 1 + i = off + (i + 1) by omega] at hz⟩
        · rintro ⟨i, hi, hz⟩
          cases i with
          | zero => exact absurd hz h0
          | succ i => exact ⟨i, by omega, by rwa [show off + 1 + i = off + (i + 1) by omega]⟩

theorem userByte_firstPart (s : Vm) (pagetable : ℕ) {i : ℕ} (hi : i < firstPart va len) :
    userByte s pagetable (va + i) = s.mem (s.mem.addr pagetable va) (va - pgRoundDown va + i) := by
  rw [firstPart_eq] at hi
  have hpage : pgRoundDown (va + i) = pgRoundDown va := by
    change (va + i) / 4096 * 4096 = va / 4096 * 4096
    omega
  have hoff : (va + i) % 4096 = va - pgRoundDown va + i := by
    change (va + i) % 4096 = va - va / 4096 * 4096 + i
    omega
  rw [userByte, ← addr_pgRoundDown, hpage, addr_pgRoundDown, hoff]

theorem copyinstrFrom_returns (h : s.mem.AddressSpace own pagetable sz) (hva : va < 2 ^ 64)
    (hlen : len ≤ fuel) :
    ∃ ws, (∀ a, a ∈ ws ↔ Reach sz (fun x => userByte s pagetable x ≠ 0) va len a) ∧
      Returns vmStep vmTouch (copyinstrFrom pagetable fuel va len) s ws
        (fun r _ => r.2 = true ↔ ∃ a, Reach sz (fun x => userByte s pagetable x ≠ 0) va len a ∧
          userByte s pagetable a = 0) := by
  induction fuel generalizing va len with
  | zero =>
    obtain rfl := Nat.le_zero.mp hlen
    exact ⟨[], by simp [Reach.nil], Returns.ret (by simp [Reach.nil])⟩
  | succ fuel ih =>
    rcases Nat.eq_zero_or_pos len with rfl | hpos
    · exact ⟨[], by simp [Reach.nil], Returns.ret (by simp [Reach.nil])⟩
    · rw [copyinstrFrom, if_neg (by omega)]
      by_cases hm : Mapped sz va
      · have hfirst : 0 < firstPart va len := firstPart_pos hpos
        obtain ⟨us, hus, hpage⟩ := copyinstrPage_returns s (s.mem.addr pagetable va) va (va - pgRoundDown va)
          (firstPart va len)
        obtain ⟨ws, hws, hrest⟩ := ih (nextPage_lt va) (show len - firstPart va len ≤ fuel by omega)
        have hus' : ∀ a, a ∈ us ↔ ∃ i < firstPart va len,
            (∀ j < i, userByte s pagetable (va + j) ≠ 0) ∧ a = va + i := by
          intro a
          rw [hus]
          refine exists_congr fun i => and_congr_right fun hi => and_congr_left fun _ => ?_
          refine forall_congr' fun j => imp_congr_right fun hj => ?_
          rw [userByte_firstPart s pagetable (lt_trans hj hi)]
        have hnul : (∃ i < firstPart va len, s.mem (s.mem.addr pagetable va) (va - pgRoundDown va + i) = 0) ↔
            ∃ i < firstPart va len, userByte s pagetable (va + i) = 0 := by
          refine exists_congr fun i => and_congr_right fun hi => ?_
          rw [userByte_firstPart s pagetable hi]
        by_cases hz : ∃ i < firstPart va len, userByte s pagetable (va + i) = 0
        · refine ⟨us, ?_, ?_⟩
          · intro a
            rw [reach_page h.sz_le hva hm, hus', or_iff_left]
            rintro ⟨hall, -⟩
            obtain ⟨i, hi, h0⟩ := hz
            exact hall i hi h0
          · refine firstPage_returns h (fun hn => absurd hm hn) fun _ => ?_
            refine hpage.bind_quiet ?_
            rintro ⟨l, gotNull⟩ s' ⟨rfl, hgot⟩
            obtain rfl : gotNull = true := hgot.mpr (hnul.mpr hz)
            refine Returns.ret ?_
            simp only [true_iff]
            -- the first NUL is reached
            obtain ⟨hi, h0⟩ := Nat.find_spec hz
            refine ⟨va + Nat.find hz, ?_, h0⟩
            rw [reach_page h.sz_le hva hm]
            refine .inl ⟨Nat.find hz, hi, fun j hj hj0 => ?_, rfl⟩
            exact Nat.find_min hz hj ⟨lt_trans hj hi, hj0⟩
        · have hall : ∀ j < firstPart va len, userByte s pagetable (va + j) ≠ 0 :=
            fun j hj h0 => hz ⟨j, hj, h0⟩
          have hreach : ∀ a, Reach sz (fun x => userByte s pagetable x ≠ 0) va len a ↔ a ∈ us ∨
              Reach sz (fun x => userByte s pagetable x ≠ 0) (nextPage va) (len - firstPart va len) a := by
            intro a
            rw [reach_page h.sz_le hva hm, hus']
            exact or_congr_right (and_iff_right hall)
          refine ⟨us ++ ws, ?_, ?_⟩
          · intro a
            rw [hreach, List.mem_append, hws]
          · refine firstPage_returns h (fun hn => absurd hm hn) fun _ => ?_
            refine hpage.bind ?_
            rintro ⟨l, gotNull⟩ s' ⟨rfl, hgot⟩
            obtain rfl : gotNull = false := by
              rw [← Bool.not_eq_true]
              exact fun ht => hz (hnul.mp (hgot.mp ht))
            refine hrest.bind_ret ?_
            rintro ⟨rest, gotNull⟩ - hr
            refine hr.trans ⟨?_, ?_⟩
            · rintro ⟨a, ha, h0⟩
              exact ⟨a, (hreach a).mpr (.inr ha), h0⟩
            · rintro ⟨a, ha, h0⟩
              rcases (hreach a).mp ha with ha | ha
              · obtain ⟨i, hi, -, rfl⟩ := (hus' a).mp ha
                exact absurd h0 (hall i hi)
              · exact ⟨a, ha, h0⟩
      · refine ⟨[], by simp [Reach.unmapped hm], ?_⟩
        refine firstPage_returns h (fun _ => Returns.ret ?_) (fun hm' => absurd hm' hm)
        simp [Reach.unmapped hm]

end Xv6Arm

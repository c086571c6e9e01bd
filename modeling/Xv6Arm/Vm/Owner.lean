import Xv6Arm.Vm.Entry

/-!
# Who owns a page

An assignment of a place to every page that a part of the kernel is in charge of:
a node of a user page table, a page mapped by one, or a page held for some other
use. It is tied to the memory in both directions: an entry of a node points to
the page that has the place below it, and a page below a node is pointed to. A
page has one place, so no page is pointed to twice.
-/
namespace Xv6Arm
open Lib

/-- A page table is named by its root page `t`. In `user`, `n` is the virtual page number and `ap`
the access permission of the leaf entry. -/
inductive Place where
  /-- Somebody else's page, or a free one. -/
  | outside
  /-- A page that a running call has obtained and not placed yet. -/
  | loose
  /-- A page of `argv[]` of a running `sys_exec`. -/
  | argv
  | pgd (t : ℕ)
  | pmd (t i : ℕ)
  | pte (t i j : ℕ)
  | user (t n ap : ℕ)
  deriving DecidableEq

namespace Place

def IsNode : Place → Prop
  | .pgd _ | .pmd _ _ | .pte _ _ _ => True
  | _ => False

/-- The places an entry of a node points to. -/
def IsChild : Place → Prop
  | .pmd _ _ | .pte _ _ _ | .user _ _ _ => True
  | _ => False

/-- The entries of a node that the kernel uses. -/
def Slot : Place → ℕ → Prop
  | .pgd _, i => i < 4
  | .pmd _ _, j => j < 512
  | .pte _ _ _, k => k < 512
  | _, _ => False

end Place

/-- Entry number `i` of a page at the first place, with value `e`, points to page `q` at the second. -/
inductive Link : Place → ℕ → ℕ → Place → ℕ → Prop
  | pmd {t i q : ℕ} (hi : i < 4) : Link (.pgd t) i (tableEntry q) (.pmd t i) q
  | pte {t i j q : ℕ} (hj : j < 512) : Link (.pmd t i) j (tableEntry q) (.pte t i j) q
  | user {t i j k q ap : ℕ} (hj : j < 512) (hk : k < 512) (ha : IsAp ap) :
      Link (.pte t i j) k (leafEntry q ap) (.user t (i * 2 ^ 18 + j * 512 + k) ap) q

theorem Link.isNode {pl c : Place} {i e q : ℕ} (h : Link pl i e c q) : pl.IsNode := by
  cases h <;> trivial

/-- The indices of page number `i * 2 ^ 18 + j * 512 + k`. -/
theorem vpn_parts {i j k : ℕ} (hj : j < 512) (hk : k < 512) :
    (i * 2 ^ 18 + j * 512 + k) / 2 ^ 18 = i ∧ (i * 2 ^ 18 + j * 512 + k) / 512 % 512 = j ∧
      (i * 2 ^ 18 + j * 512 + k) % 512 = k := by
  omega

/-- The assignment `own` describes the memory, except for the entries in `X`, which are stale: they
still point to a page that has been freed. -/
structure Mem.Owned (m : Mem) (own : ℕ → Place) (X : ℕ → ℕ → Prop) : Prop where
  page : ∀ p, own p ≠ .outside → IsPage p
  root : ∀ p t, own p = .pgd t → p = t
  inj : ∀ p q, own p = own q → (own p).IsNode → p = q
  down : ∀ p i, (own p).Slot i → ¬X p i →
    m.entry p i = 0 ∨ ∃ q, Link (own p) i (m.entry p i) (own q) q
  up : ∀ q, (own q).IsChild → ∃ p i, ¬X p i ∧ Link (own p) i (m.entry p i) (own q) q

namespace Mem

/-! ## `walk` without allocation -/

/-- The table an entry points to, as `walk` decides it. -/
def next (m : Mem) (table idx : ℕ) : Option ℕ :=
  if m.entry table idx &&& (ENTRY_VALID ||| ENTRY_TABLE) ≠ 0 then
    some (PG_ADDR_MASK &&& m.entry table idx)
  else none

def leafSlot (m : Mem) (pagetable va : ℕ) : Option (ℕ × ℕ) :=
  (m.next pagetable (pgdIdx va)).bind fun pmdtb =>
    (m.next pmdtb (pmdIdx va)).map fun ptetb => (ptetb, pteIdx va)

/-- The leaf entry for `va`; 0 if there is no table for it. -/
def leaf (m : Mem) (pagetable va : ℕ) : ℕ :=
  match m.leafSlot pagetable va with
  | none => 0
  | some (ptetb, i) => m.entry ptetb i

def addr (m : Mem) (pagetable va : ℕ) : ℕ :=
  if m.leaf pagetable va &&& (ENTRY_PAGE ||| ENTRY_VALID) = 0 then 0
  else m.leaf pagetable va &&& PG_ADDR_MASK

theorem run_nextTable (s : Vm) (table idx : ℕ) (clear : Bool) :
    (nextTable table idx false clear).run vmStep s = .done (s.mem.next table idx) s := by
  change (if s.mem.entry table idx &&& (ENTRY_VALID ||| ENTRY_TABLE) ≠ 0 then
      (.ret (some (PG_ADDR_MASK &&& s.mem.entry table idx)) : VmM (Option ℕ)) else .ret none).run vmStep s = _
  rw [next]
  split <;> rfl

theorem run_walk (s : Vm) (pagetable va : ℕ) :
    (walk pagetable va false).run vmStep s = .done (s.mem.leafSlot pagetable va) s := by
  rw [walk, Prog.bind_eq, Prog.run_bind_done vmStep (run_nextTable s _ _ _), leafSlot]
  cases s.mem.next pagetable (pgdIdx va) with
  | none => rfl
  | some pmdtb =>
    dsimp only [Option.bind_some]
    rw [Prog.bind_eq, Prog.run_bind_done vmStep (run_nextTable s _ _ _)]
    cases s.mem.next pmdtb (pmdIdx va) with
    | none => rfl
    | some ptetb => rfl

theorem run_walkaddr (s : Vm) (pagetable va : ℕ) :
    (walkaddr pagetable va).run vmStep s = .done (s.mem.addr pagetable va) s := by
  rw [walkaddr, Prog.bind_eq, Prog.run_bind_done vmStep (run_walk s _ _), addr, leaf]
  cases s.mem.leafSlot pagetable va with
  | none => simp
  | some slot =>
    change (if s.mem.entry slot.1 slot.2 &&& (ENTRY_PAGE ||| ENTRY_VALID) = 0 then (.ret 0 : VmM ℕ)
      else .ret (s.mem.entry slot.1 slot.2 &&& PG_ADDR_MASK)).run vmStep s = _
    split <;> rfl

namespace Owned
variable {m : Mem} {own : ℕ → Place} {X : ℕ → ℕ → Prop} {p q t i j k n ap : ℕ}

/-! ## Following the entries -/

theorem entry_ne_zero {pl c : Place} {e : ℕ} (hl : Link pl i e c q) (hq : IsPage q) : e ≠ 0 := by
  intro he
  cases hl with
  | pmd hi => exact tableEntry_valid hq (by rw [he]; rfl)
  | pte hj => exact tableEntry_valid hq (by rw [he]; rfl)
  | user hj hk ha => exact leafEntry_valid hq ha (by rw [he]; rfl)

theorem next_of_tableEntry (he : m.entry p i = tableEntry q) (hq : IsPage q) : m.next p i = some q := by
  rw [next, he, if_pos (tableEntry_flags hq), tableEntry_page hq]

theorem next_of_zero (he : m.entry p i = 0) : m.next p i = none := by
  rw [next, he]
  rfl

theorem isPage_of (h : m.Owned own X) {pl : Place} (hq : own q = pl) (hpl : pl ≠ .outside) : IsPage q :=
  h.page q (by rw [hq]; exact hpl)

theorem up_pmd (h : m.Owned own X) (hq : own q = .pmd t i) :
    own t = .pgd t ∧ i < 4 ∧ ¬X t i ∧ m.entry t i = tableEntry q := by
  obtain ⟨p, i', hX, hl⟩ := h.up q (by rw [hq]; trivial)
  rw [hq] at hl
  generalize hp : own p = pl at hl
  generalize he : m.entry p i' = e at hl
  cases hl with
  | pmd hi =>
    obtain rfl := h.root p _ hp
    exact ⟨hp, hi, hX, he⟩

theorem up_pte (h : m.Owned own X) (hq : own q = .pte t i j) :
    ∃ p, own p = .pmd t i ∧ j < 512 ∧ ¬X p j ∧ m.entry p j = tableEntry q := by
  obtain ⟨p, j', hX, hl⟩ := h.up q (by rw [hq]; trivial)
  rw [hq] at hl
  generalize hp : own p = pl at hl
  generalize he : m.entry p j' = e at hl
  cases hl with
  | pte hj => exact ⟨p, hp, hj, hX, he⟩

theorem up_user (h : m.Owned own X) (hq : own q = .user t n ap) :
    n < 2 ^ 20 ∧ IsAp ap ∧ ∃ p, own p = .pte t (n / 2 ^ 18) (n / 512 % 512) ∧ ¬X p (n % 512) ∧
      m.entry p (n % 512) = leafEntry q ap := by
  obtain ⟨p, k, hX, hl⟩ := h.up q (by rw [hq]; trivial)
  rw [hq] at hl
  generalize hp : own p = pl at hl
  generalize he : m.entry p k = e at hl
  cases hl with
  | @user t i j k q ap hj hk ha =>
    obtain ⟨p', hp', -, -, -⟩ := h.up_pte hp
    obtain ⟨-, hi, -, -⟩ := h.up_pmd hp'
    obtain ⟨h1, h2, h3⟩ := vpn_parts (i := i) hj hk
    refine ⟨by omega, ha, p, ?_⟩
    rw [h1, h2, h3]
    exact ⟨hp, hX, he⟩

/-- What an entry of the root says. -/
theorem next_pgd (h : m.Owned own X) (ht : own t = .pgd t) (hi : i < 4) (hX : ¬X t i) :
    (∃ q, own q = .pmd t i ∧ m.next t i = some q) ∨
      (m.entry t i = 0 ∧ m.next t i = none ∧ ∀ q, own q ≠ .pmd t i) := by
  rcases h.down t i (by rw [ht]; exact hi) hX with h0 | ⟨q, hl⟩
  · refine .inr ⟨h0, next_of_zero h0, ?_⟩
    intro q hq
    obtain ⟨-, -, -, he⟩ := h.up_pmd hq
    exact tableEntry_valid (h.isPage_of hq (by simp)) (by rw [← he, h0]; rfl)
  · rw [ht] at hl
    generalize he : m.entry t i = e at hl
    generalize hq : own q = c at hl
    cases hl with
    | pmd _ => exact .inl ⟨q, hq, next_of_tableEntry he (h.isPage_of hq (by simp))⟩

/-- What an entry of a second-level table says. -/
theorem next_pmd (h : m.Owned own X) (hp : own p = .pmd t i) (hj : j < 512) (hX : ¬X p j) :
    (∃ q, own q = .pte t i j ∧ m.next p j = some q) ∨
      (m.entry p j = 0 ∧ m.next p j = none ∧ ∀ q, own q ≠ .pte t i j) := by
  rcases h.down p j (by rw [hp]; exact hj) hX with h0 | ⟨q, hl⟩
  · refine .inr ⟨h0, next_of_zero h0, ?_⟩
    intro q hq
    obtain ⟨p', hp', -, -, he⟩ := h.up_pte hq
    obtain rfl := h.inj p' p (by rw [hp', hp]) (by rw [hp']; trivial)
    exact tableEntry_valid (h.isPage_of hq (by simp)) (by rw [← he, h0]; rfl)
  · rw [hp] at hl
    generalize he : m.entry p j = e at hl
    generalize hq : own q = c at hl
    cases hl with
    | pte _ => exact .inl ⟨q, hq, next_of_tableEntry he (h.isPage_of hq (by simp))⟩

/-- What an entry of a leaf table says. -/
theorem entry_pte (h : m.Owned own X) (hp : own p = .pte t i j) (hk : k < 512) (hX : ¬X p k) :
    (∃ q ap, own q = .user t (i * 2 ^ 18 + j * 512 + k) ap ∧ IsAp ap ∧ m.entry p k = leafEntry q ap) ∨
      (m.entry p k = 0 ∧ ∀ q ap, own q ≠ .user t (i * 2 ^ 18 + j * 512 + k) ap) := by
  rcases h.down p k (by rw [hp]; exact hk) hX with h0 | ⟨q, hl⟩
  · refine .inr ⟨h0, ?_⟩
    intro q ap hq
    obtain ⟨-, ha, p', hp', -, he⟩ := h.up_user hq
    obtain ⟨p₂, hp₂, hj, -, -⟩ := h.up_pte hp
    obtain ⟨h1, h2, h3⟩ := vpn_parts (i := i) hj hk
    rw [h1, h2] at hp'
    rw [h3] at he
    obtain rfl := h.inj p' p (by rw [hp', hp]) (by rw [hp']; trivial)
    rw [h0] at he
    exact leafEntry_valid (h.isPage_of hq (by simp)) ha (by rw [← he]; rfl)
  · rw [hp] at hl
    generalize he : m.entry p k = e at hl
    generalize hq : own q = c at hl
    cases hl with
    | user _ _ ha => exact .inl ⟨q, _, hq, ha, rfl⟩

/-! ## Addresses -/

/-- The tables above a mapped page are found by `walk`. -/
theorem leafSlot_of_pte (h : m.Owned own X) {va : ℕ}
    (hp : own p = .pte t (vpn va / 2 ^ 18) (vpn va / 512 % 512)) :
    m.leafSlot t va = some (p, vpn va % 512) := by
  obtain ⟨p₂, hp₂, -, -, he₂⟩ := h.up_pte hp
  obtain ⟨-, -, -, he₁⟩ := h.up_pmd hp₂
  rw [leafSlot, pgdIdx_eq, next_of_tableEntry he₁ (h.isPage_of hp₂ (by simp)), Option.bind_some,
    pmdIdx_eq, next_of_tableEntry he₂ (h.isPage_of hp (by simp)), Option.map_some, pteIdx_eq]

theorem leaf_of_user (h : m.Owned own X) {va : ℕ} (hq : own q = .user t (vpn va) ap) :
    m.leaf t va = leafEntry q ap ∧ IsAp ap := by
  obtain ⟨-, ha, p, hp, -, he⟩ := h.up_user hq
  refine ⟨?_, ha⟩
  rw [leaf, h.leafSlot_of_pte hp]
  exact he

theorem addr_of_user (h : m.Owned own X) {va : ℕ} (hq : own q = .user t (vpn va) ap) :
    m.addr t va = q := by
  obtain ⟨hl, ha⟩ := h.leaf_of_user hq
  have hpage := h.isPage_of hq (by simp)
  rw [addr, hl, if_neg (leafEntry_flags hpage ha), leafEntry_page hpage ha]

/-- A table without stale entries has no address for a page that is not mapped. -/
theorem leaf_of_none (h : m.Owned own fun _ _ => False) (ht : own t = .pgd t) {va : ℕ}
    (hno : ∀ q ap, own q ≠ .user t (vpn va) ap) : m.leaf t va = 0 := by
  have hv := vpn_lt va
  rw [leaf, leafSlot, pgdIdx_eq]
  rcases h.next_pgd ht (show vpn va / 2 ^ 18 < 4 by omega) (fun hf => hf) with ⟨p, hp, hn⟩ | ⟨-, hn, -⟩
  · rw [hn, Option.bind_some, pmdIdx_eq]
    rcases h.next_pmd hp (show vpn va / 512 % 512 < 512 by omega) (fun hf => hf) with
      ⟨p₂, hp₂, hn₂⟩ | ⟨-, hn₂, -⟩
    · rw [hn₂, Option.map_some, pteIdx_eq]
      rcases h.entry_pte hp₂ (show vpn va % 512 < 512 by omega) (fun hf => hf) with
        ⟨q, ap, hq, -, -⟩ | ⟨h0, -⟩
      · exact absurd hq (by
          rw [show vpn va / 2 ^ 18 * 2 ^ 18 + vpn va / 512 % 512 * 512 + vpn va % 512 = vpn va by omega]
          exact hno q ap)
      · exact h0
    · rw [hn₂]
      rfl
  · rw [hn]
    rfl

theorem addr_of_none (h : m.Owned own fun _ _ => False) (ht : own t = .pgd t) {va : ℕ}
    (hno : ∀ q ap, own q ≠ .user t (vpn va) ap) : m.addr t va = 0 := by
  rw [addr, h.leaf_of_none ht hno]
  rfl

/-! ## Writing to a page that is not a table -/

theorem update_data (h : m.Owned own X) (hp : ¬(own p).IsNode) (f : Bytes) :
    Mem.Owned (Function.update m p f) own X := by
  have hentry : ∀ p' i, (own p').IsNode → Mem.entry (Function.update m p f) p' i = m.entry p' i := by
    intro p' i hn
    have hne : p' ≠ p := fun e => hp (e ▸ hn)
    simp [entry, Function.update_of_ne hne]
  refine ⟨h.page, h.root, h.inj, ?_, ?_⟩
  · intro p' i hs hX
    rw [hentry p' i (by revert hs; cases own p' <;> simp [Place.Slot, Place.IsNode])]
    exact h.down p' i hs hX
  · intro q hq
    obtain ⟨p', i, hX, hl⟩ := h.up q hq
    refine ⟨p', i, hX, ?_⟩
    rw [hentry p' i]
    · exact hl
    · exact hl.isNode

end Owned

/-- The address space of a process: the pages below `sz`, and only those, are mapped. -/
structure AddressSpace (m : Mem) (own : ℕ → Place) (pagetable sz : ℕ) : Prop where
  owned : m.Owned own fun _ _ => False
  root : own pagetable = .pgd pagetable
  sz_le : sz ≤ 2 ^ 32
  mapped : ∀ n, (∃ q ap, own q = .user pagetable n ap) ↔ n < (sz + 4095) / 4096

end Mem
end Xv6Arm

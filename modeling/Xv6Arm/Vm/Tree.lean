import Xv6Arm.Vm.Table

/-!
# The tree of a page table

The tables that `walk` can come to from the root, each by the indices that lead to
it. In a tree no page is reached twice, so a store to an entry changes what is found
by the indices of this entry only. The leaves are not looked at: they may point to
any page.
-/
namespace Xv6Arm
open Lib Mem

/-- A table by the indices that lead to it. -/
inductive TableNode where
  | root
  | pmd (i : Fin 4)
  | pte (i : Fin 4) (j : Fin 512)
deriving DecidableEq

/-- Entry `n` of the first table points to the second one. -/
inductive TableNode.Child : TableNode → ℕ → TableNode → Prop
  | pmd (i : Fin 4) : Child .root i (.pmd i)
  | pte (i : Fin 4) (j : Fin 512) : Child (.pmd i) j (.pte i j)

namespace TableNode
variable {c c' d d' : TableNode} {n n' : ℕ}

theorem Child.parent (h : Child c n d) (h' : Child c' n' d) : c = c' ∧ n = n' := by
  cases h <;> cases h' <;> exact ⟨rfl, rfl⟩

theorem Child.target (h : Child c n d) (h' : Child c n d') : d = d' := by
  cases h with
  | pmd i =>
    generalize hn : (i : ℕ) = n at h'
    cases h' with
    | pmd i' => rw [Fin.ext hn]
  | pte i j =>
    generalize hn : (j : ℕ) = n at h'
    cases h' with
    | pte _ j' => rw [Fin.ext hn]

theorem Child.ne (h : Child c n d) : d ≠ c := by
  cases h <;> nofun

/-- The leaf table for an address. -/
def of (va : ℕ) : TableNode := .pte ⟨pgdIdx va, pgdIdx_lt va⟩ ⟨pmdIdx va, pmdIdx_lt va⟩

theorem Child.ne_of (h : Child c n d) (va : ℕ) : of va ≠ c := by
  cases h <;> nofun

/-- Every table is reached from the root. -/
theorem induct {P : TableNode → Prop} (root : P .root) (child : ∀ c n d, Child c n d → P c → P d) (d : TableNode) : P d := by
  have hpmd : ∀ i, P (.pmd i) := fun i => child _ _ _ (.pmd i) root
  cases d with
  | root => exact root
  | pmd i => exact hpmd i
  | pte i j => exact child _ _ _ (.pte i j) (hpmd i)

end TableNode

open TableNode

namespace Mem
variable {m m' : Mem} {t p q n : ℕ} {c c' d : TableNode}

/-- The page of a table. -/
def table (m : Mem) (t : ℕ) : TableNode → Option ℕ
  | .root => some t
  | .pmd i => m.next t i
  | .pte i j => (m.next t i).bind fun pmdtb => m.next pmdtb j

theorem table_child (m : Mem) (t : ℕ) (h : Child c n d) : m.table t d = (m.table t c).bind fun q => m.next q n := by
  cases h <;> rfl

/-- No table page is reached twice, and every entry of a directory is 0, or valid and of table type. -/
structure IsTree (m : Mem) (t : ℕ) : Prop where
  once : ∀ c d q, m.table t c = some q → m.table t d = some q → c = d
  typed : ∀ c n d q, Child c n d → m.table t c = some q → m.entry q n ≠ 0 →
    m.entry q n &&& (ENTRY_VALID ||| ENTRY_TABLE) = ENTRY_VALID ||| ENTRY_TABLE

theorem leafSlot_eq (m : Mem) (t va : ℕ) : m.leafSlot t va = (m.table t (.of va)).map fun q => (q, pteIdx va) := by
  change ((m.next t (pgdIdx va)).bind fun q => (m.next q (pmdIdx va)).map fun q => (q, pteIdx va)) =
    Option.map _ ((m.next t (pgdIdx va)).bind fun q => m.next q (pmdIdx va))
  cases m.next t (pgdIdx va) <;> rfl

theorem leaf_eq (m : Mem) (t va : ℕ) : m.leaf t va = ((m.table t (.of va)).map fun q => m.entry q (pteIdx va)).getD 0 := by
  rw [leaf, leafSlot_eq]
  cases m.table t (.of va) <;> rfl

theorem next_congr (h : m'.entry q n = m.entry q n) : m'.next q n = m.next q n := by
  rw [next, next, h]

theorem next_eq_none (h : m.entry q n = 0) : m.next q n = none := by
  rw [next, h, Nat.zero_and]
  exact if_neg (not_not.mpr rfl)

/-! ## Stores outside the directories -/

/-- The entries of the directories are the same. -/
def SameDirs (m : Mem) (t : ℕ) (m' : Mem) : Prop :=
  ∀ c n d q, Child c n d → m.table t c = some q → m'.entry q n = m.entry q n

theorem SameDirs.table_eq (h : m.SameDirs t m') (d : TableNode) : m'.table t d = m.table t d := by
  induction d using TableNode.induct with
  | root => rfl
  | child c n d hc ih =>
    rw [table_child _ _ hc, table_child _ _ hc, ih]
    cases hq : m.table t c with
    | none => simp only [Option.bind_none]
    | some q => exact next_congr (h c n d q hc hq)

theorem IsTree.same (h : m.IsTree t) (hs : m.SameDirs t m') : m'.IsTree t := by
  refine ⟨fun c d q hc hd => ?_, fun c n d q hcd hq h0 => ?_⟩
  · rw [hs.table_eq] at hc hd
    exact h.once c d q hc hd
  · rw [hs.table_eq] at hq
    rw [hs c n d q hcd hq] at h0 ⊢
    exact h.typed c n d q hcd hq h0

/-- A page that is not a table. -/
theorem sameDirs_update {f : Bytes} (hp : ∀ c, m.table t c ≠ some p) : m.SameDirs t (Function.update m p f) := by
  intro c n d q _ hq
  refine entry_update_other ?_ n
  rintro rfl
  exact hp c hq

theorem leaf_update {f : Bytes} (hp : ∀ c, m.table t c ≠ some p) (va : ℕ) : leaf (Function.update m p f) t va = m.leaf t va := by
  rw [leaf_eq, leaf_eq, (sameDirs_update hp).table_eq]
  cases hq : m.table t (.of va) with
  | none => simp only [Option.map_none]
  | some q =>
    refine entry_update_other ?_ _
    rintro rfl
    exact hp _ hq

/-- An entry of a leaf table. -/
theorem IsTree.sameDirs_put (h : m.IsTree t) {va e : ℕ} (hp : m.table t (.of va) = some p) : m.SameDirs t (m.put p n e) := by
  intro c k d q hcd hq
  refine entry_put_other (.inl ?_)
  rintro rfl
  exact hcd.ne_of va (h.once _ _ _ hp hq)

theorem page_iff_of {va va' : ℕ} (hva : va < 2 ^ 32) (hva' : va' < 2 ^ 32) :
    va' / PGSIZE = va / PGSIZE ↔ TableNode.of va' = .of va ∧ pteIdx va' = pteIdx va := by
  have hvpn : ∀ x < 2 ^ 32, vpn x = x / 4096 := fun x hx => by
    unfold vpn
    omega
  change va' / 4096 = va / 4096 ↔ _
  rw [← hvpn va hva, ← hvpn va' hva']
  constructor
  · intro h
    simp only [TableNode.of, pgdIdx_eq, pmdIdx_eq, pteIdx_eq, h, and_self]
  · rintro ⟨h1, h2⟩
    rw [← vpn_of_idx va, ← vpn_of_idx va', h2]
    simp only [TableNode.of, TableNode.pte.injEq, Fin.mk.injEq] at h1
    rw [h1.1, h1.2]

theorem IsTree.leaf_put (h : m.IsTree t) {va va' e : ℕ} (hva : va < 2 ^ 32) (hva' : va' < 2 ^ 32) (he : e < 2 ^ 64)
    (hp : m.table t (.of va) = some p) :
    (m.put p (pteIdx va) e).leaf t va' = if va' / PGSIZE = va / PGSIZE then e else m.leaf t va' := by
  rw [leaf_eq, leaf_eq, (h.sameDirs_put hp).table_eq]
  split <;> rename_i hpage
  · obtain ⟨h1, h2⟩ := (page_iff_of hva hva').mp hpage
    rw [h1, h2, hp]
    exact entry_put_self m p _ he
  · cases hq : m.table t (.of va') with
    | none => simp only [Option.map_none]
    | some q =>
      refine entry_put_other ?_
      by_contra hno
      obtain ⟨rfl, h2⟩ := not_or.mp hno |>.imp not_not.mp not_not.mp
      exact hpage ((page_iff_of hva hva').mpr ⟨h.once _ _ _ hq hp, h2⟩)

/-! ## A new table -/

/-- The cleared page `q` as the table that entry `n` of `p` points to. -/
def hang (m : Mem) (q p n : ℕ) : Mem := put (Function.update m q fun _ => 0) p n (tableEntry q)

section Hang
variable (h : m.IsTree t) (hc : Child c n c') (hp : m.table t c = some p) (h0 : m.entry p n = 0)
  (hq : ∀ d, m.table t d ≠ some q) (hal : q % PGSIZE = 0) (hlt : q < 2 ^ 48)

theorem tableEntry_and (hal : q % PGSIZE = 0) :
    tableEntry q &&& (ENTRY_VALID ||| ENTRY_TABLE) = ENTRY_VALID ||| ENTRY_TABLE := by
  rw [tableEntry, Nat.or_assoc, page_or_and hal (by decide)]
  decide

include hp hq in
theorem entry_hang_new (k : ℕ) : (m.hang q p n).entry q k = 0 := by
  have hne : q ≠ p := by
    rintro rfl
    exact hq c hp
  rw [hang, entry_put_other (.inl hne), entry_zeroed]

include hlt in
theorem entry_hang_self : (m.hang q p n).entry p n = tableEntry q :=
  entry_put_self _ p n (Nat.or_lt_two_pow (Nat.or_lt_two_pow (hlt.trans (by norm_num)) (by norm_num)) (by norm_num))

include h hp hq in
/-- An entry of another table, or another entry. -/
theorem entry_hang_other {r k : ℕ} (hr : m.table t d = some r) (hne : d ≠ c ∨ k ≠ n) :
    (m.hang q p n).entry r k = m.entry r k := by
  have hrq : r ≠ q := by
    rintro rfl
    exact hq d hr
  have hslot : r ≠ p ∨ k ≠ n := hne.imp_left fun hd hrp => by
    subst hrp
    exact hd (h.once _ _ _ hr hp)
  rw [hang, entry_put_other hslot, entry_update_other hrq]

include hc hp h0 in
theorem table_none : m.table t c' = none := by
  rw [table_child _ _ hc, hp, Option.bind_some, next_eq_none h0]

include h hc hp h0 hq hal hlt in
/-- Only the new table is added. -/
theorem table_hang (d : TableNode) : (m.hang q p n).table t d = if d = c' then some q else m.table t d := by
  have hnone := table_none hc hp h0
  induction d using TableNode.induct with
  | root =>
    have hne : TableNode.root ≠ c' := by cases hc <;> nofun
    rw [if_neg hne]
    rfl
  | child e k d hd ih =>
    rw [table_child _ _ hd, ih, table_child m t hd]
    split <;> rename_i he
    · -- below the new table there is nothing
      subst he
      rw [if_neg hd.ne, hnone, Option.bind_some, next_eq_none (entry_hang_new hp hq k), Option.bind_none]
    · by_cases hdc : d = c'
      · subst hdc
        obtain ⟨rfl, rfl⟩ := hd.parent hc
        rw [if_pos rfl, hp, Option.bind_some, next, entry_hang_self hlt, tableEntry_and hal, if_pos (by decide), tableEntry,
          Nat.or_assoc, mask_page hal hlt (by decide)]
      · rw [if_neg hdc]
        cases hr : m.table t e with
        | none => simp only [Option.bind_none]
        | some r =>
          refine next_congr (entry_hang_other h hp hq hr ?_)
          by_contra hno
          obtain ⟨rfl, rfl⟩ := not_or.mp hno |>.imp not_not.mp not_not.mp
          exact hdc (hd.target hc)

include h hc hp h0 hq hal hlt in
theorem isTree_hang : (m.hang q p n).IsTree t := by
  have htab := table_hang h hc hp h0 hq hal hlt
  refine ⟨fun d e r hd he => ?_, fun d k e r hde hr hne => ?_⟩
  · rw [htab] at hd he
    split at hd <;> split at he
    · simp_all
    · rw [← hd] at he
      exact absurd he (hq e)
    · rw [← he] at hd
      exact absurd hd (hq d)
    · exact h.once d e r hd he
  · rw [htab] at hr
    split at hr
    · cases hr
      exact absurd (entry_hang_new hp hq k) hne
    · by_cases hslot : d = c ∧ k = n
      · obtain ⟨rfl, rfl⟩ := hslot
        obtain rfl : p = r := Option.some.inj (hp.symm.trans hr)
        rw [entry_hang_self hlt, tableEntry_and hal]
      · rw [entry_hang_other h hp hq hr (not_and_or.mp hslot)] at hne ⊢
        exact h.typed d k e r hde hr hne

include h hc hp h0 hq hal hlt in
theorem leaf_hang (va : ℕ) : (m.hang q p n).leaf t va = m.leaf t va := by
  rw [leaf_eq, leaf_eq, table_hang h hc hp h0 hq hal hlt]
  split <;> rename_i he
  · rw [he, table_none hc hp h0, Option.map_some, Option.getD_some, entry_hang_new hp hq]
    rfl
  · cases hr : m.table t (.of va) with
    | none => simp only [Option.map_none]
    | some r => exact entry_hang_other h hp hq hr (.inl (hc.ne_of va))

end Hang
end Mem
end Xv6Arm

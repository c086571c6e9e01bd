import Xv6Arm.Vm.Tree
import Xv6Arm.Vm.Confine

/-!
# `walk`, `mappages` and `uvmunmap` on a tree

What the calls do to the translations of a page table that is a tree. A table that
`walk` adds is empty, so nothing is translated by it; the store of `mappages` and
the stores of `uvmunmap` are to the leaves of their own pages. Freeing the pages
fills them, so none of them may be a table of the tree.
-/
namespace Xv6Arm
open Lib Mem TableNode

/-- The pages of the free list are different pages, and not tables of page table `t`. -/
structure Vm.Spare (s : Vm) (t : ℕ) : Prop where
  nodup : s.freelist.Nodup
  page : ∀ q ∈ s.freelist, q % PGSIZE = 0 ∧ q < 2 ^ 48
  apart : ∀ q ∈ s.freelist, ∀ c, s.mem.table t c ≠ some q

/-- `s'` has the tables of `s` and possibly more, and the same leaves. -/
structure Vm.Widens (s : Vm) (t : ℕ) (s' : Vm) : Prop where
  tree : s'.mem.IsTree t
  spare : s'.Spare t
  table : ∀ c q, s.mem.table t c = some q → s'.mem.table t c = some q
  leaf : ∀ va, s'.mem.leaf t va = s.mem.leaf t va

section Ops
variable {s s' s'' : Vm} {t p n va : ℕ} {c c' : TableNode}

theorem Vm.Widens.refl (h : s.mem.IsTree t) (hs : s.Spare t) : s.Widens t s := ⟨h, hs, fun _ _ => id, fun _ => rfl⟩

theorem Vm.Widens.trans (h : s.Widens t s') (h' : s'.Widens t s'') : s.Widens t s'' :=
  ⟨h'.tree, h'.spare, fun c q hq => h'.table c q (h.table c q hq), fun va => (h'.leaf va).trans (h.leaf va)⟩

/-! ## Allocation -/

section Requests
variable {α : Type}

theorem run_kalloc_bind_nil (hl : s.freelist = []) (f : Option ℕ → VmM α) :
    (kalloc >>= f).run vmStep s = (f none).run vmStep s := by
  change (f s.kalloc.1).run vmStep s.kalloc.2 = _
  rw [Vm.kalloc, hl]

theorem run_kalloc_bind_cons {q : ℕ} {l : List ℕ} (hl : s.freelist = q :: l) (f : Option ℕ → VmM α) :
    (kalloc >>= f).run vmStep s = (f (some q)).run vmStep ⟨l, Function.update s.mem q fun _ => 0⟩ := by
  change (f s.kalloc.1).run vmStep s.kalloc.2 = _
  rw [Vm.kalloc, hl]
  rfl

end Requests

/-! ## `walk` -/

/-- In a directory of a tree an entry without flags is 0. -/
theorem Mem.IsTree.entry_eq_zero {m : Mem} (h : m.IsTree t) (hc : Child c n c') (hp : m.table t c = some p)
    (hf : m.entry p n &&& (ENTRY_VALID ||| ENTRY_TABLE) = 0) : m.entry p n = 0 := by
  by_contra hne
  rw [h.typed c n c' p hc hp hne] at hf
  exact absurd hf (by decide)

/-- Clearing the new page again changes nothing. -/
theorem run_memset_new {α : Type} (q : ℕ) (l : List ℕ) (m : Mem) (f : Unit → VmM α) :
    (memset q 0 >>= f).run vmStep ⟨l, Function.update m q fun _ => 0⟩ =
      (f ()).run vmStep ⟨l, Function.update m q fun _ => 0⟩ := by
  change (f ()).run vmStep ⟨l, Function.update (Function.update m q fun _ => 0) q fun _ => 0⟩ = _
  rw [Function.update_idem]

theorem run_nextTable_alloc (h : s.mem.IsTree t) (hs : s.Spare t) (hc : Child c n c') (hp : s.mem.table t c = some p)
    (clear : Bool) :
    ∃ r s', (nextTable p n true clear).run vmStep s = .done r s' ∧ s.Widens t s' ∧ s'.mem.table t c' = r := by
  rw [nextTable, Prog.bind_eq, run_load_bind]
  by_cases hf : s.mem.entry p n &&& (ENTRY_VALID ||| ENTRY_TABLE) = 0
  · have h0 := h.entry_eq_zero hc hp hf
    rw [if_neg (not_not.mpr hf), if_pos rfl]
    cases hl : s.freelist with
    | nil =>
      rw [run_kalloc_bind_nil hl]
      exact ⟨none, s, rfl, .refl h hs, table_none hc hp h0⟩
    | cons q l =>
      have hqm : q ∈ s.freelist := hl ▸ List.mem_cons_self
      have hsub : ∀ r ∈ l, r ∈ s.freelist := fun r hr => hl ▸ List.mem_cons_of_mem q hr
      obtain ⟨hql, hnd⟩ := List.nodup_cons.mp (hl ▸ hs.nodup)
      obtain ⟨hal, hlt⟩ := hs.page q hqm
      have htab := table_hang h hc hp h0 (hs.apart q hqm) hal hlt
      rw [run_kalloc_bind_cons hl]
      refine ⟨some q, ⟨l, s.mem.hang q p n⟩, ?_, ⟨?_, ?_, ?_, ?_⟩, ?_⟩
      · cases clear with
        | false => rfl
        | true => exact run_memset_new q l s.mem _
      · exact isTree_hang h hc hp h0 (hs.apart q hqm) hal hlt
      · refine ⟨hnd, fun r hr => hs.page r (hsub r hr), fun r hr d hd => ?_⟩
        rw [htab] at hd
        split at hd
        · cases hd
          exact hql hr
        · exact hs.apart r (hsub r hr) d hd
      · intro d r hd
        rw [htab, if_neg ?_, hd]
        rintro rfl
        rw [table_none hc hp h0] at hd
        cases hd
      · exact leaf_hang h hc hp h0 (hs.apart q hqm) hal hlt
      · rw [htab, if_pos rfl]
  · rw [if_pos hf]
    refine ⟨_, s, rfl, .refl h hs, ?_⟩
    rw [table_child _ _ hc, hp, Option.bind_some, next, if_pos hf]

/-- `walk` with allocation finds the leaf table, or there is none. -/
theorem run_walk_alloc (h : s.mem.IsTree t) (hs : s.Spare t) (va : ℕ) :
    ∃ s', (walk t va true).run vmStep s = .done (s'.mem.leafSlot t va) s' ∧ s.Widens t s' := by
  obtain ⟨r, s₁, hrun, hw, hr⟩ := run_nextTable_alloc h hs (.pmd ⟨pgdIdx va, pgdIdx_lt va⟩) rfl false
  rw [walk, Prog.bind_eq, Prog.run_bind_done vmStep hrun]
  have hslot : ∀ s : Vm, s.mem.table t (.pmd ⟨pgdIdx va, pgdIdx_lt va⟩) = none → s.mem.leafSlot t va = none := by
    intro s hnone
    rw [leafSlot_eq, TableNode.of, table_child _ _ (.pte _ _), hnone]
    rfl
  cases r with
  | none =>
    refine ⟨s₁, ?_, hw⟩
    rw [hslot s₁ hr]
    rfl
  | some pmdtb =>
    obtain ⟨r', s₂, hrun', hw', hr'⟩ :=
      run_nextTable_alloc hw.tree hw.spare (.pte ⟨pgdIdx va, pgdIdx_lt va⟩ ⟨pmdIdx va, pmdIdx_lt va⟩) hr true
    refine ⟨s₂, ?_, hw.trans hw'⟩
    dsimp only
    rw [Prog.bind_eq, Prog.run_bind_done vmStep hrun', leafSlot_eq, TableNode.of, hr']
    cases r' <;> rfl

/-! ## `mappages` -/

theorem Vm.Spare.put (hs : s.Spare t) (h : s.mem.IsTree t) {i e : ℕ} (hp : s.mem.table t (.of va) = some p) :
    Vm.Spare { s with mem := s.mem.put p i e } t :=
  ⟨hs.nodup, hs.page, fun q hq c => by
    change (s.mem.put p i e).table t c ≠ some q
    rw [(h.sameDirs_put hp).table_eq]
    exact hs.apart q hq c⟩

/-- An address that is not mapped is mapped, or nothing is different. -/
theorem run_mapPage {pa ap : ℕ} (h : s.mem.IsTree t) (hs : s.Spare t) (hva : va < 2 ^ 32)
    (hfree : s.mem.leaf t va &&& (ENTRY_PAGE ||| ENTRY_VALID) = 0) (he : leafEntry pa ap < 2 ^ 64) :
    ∃ r s', (mapPage t va pa ap).run vmStep s = .done r s' ∧ s'.mem.IsTree t ∧ s'.Spare t ∧
      ∀ va' < 2 ^ 32, s'.mem.leaf t va' =
        if r = true ∧ va' / PGSIZE = va / PGSIZE then leafEntry pa ap else s.mem.leaf t va' := by
  obtain ⟨s₁, hrun, hw⟩ := run_walk_alloc h hs va
  rw [mapPage, Prog.bind_eq, Prog.run_bind_done vmStep hrun, leafSlot_eq]
  cases hp : s₁.mem.table t (.of va) with
  | none => exact ⟨false, s₁, rfl, hw.tree, hw.spare, fun va' _ => by simpa using hw.leaf va'⟩
  | some p =>
    have hleaf : s₁.mem.entry p (pteIdx va) = s.mem.leaf t va := by
      rw [← hw.leaf va, leaf_eq, hp]
      rfl
    dsimp only [Option.map_some]
    rw [Prog.bind_eq, run_load_bind, hleaf, if_neg (not_not.mpr hfree)]
    refine ⟨true, { s₁ with mem := s₁.mem.put p (pteIdx va) (leafEntry pa ap) }, rfl, ?_, ?_, fun va' hva' => ?_⟩
    · exact hw.tree.same (hw.tree.sameDirs_put hp)
    · exact hw.spare.put hw.tree hp
    · rw [hw.tree.leaf_put hva hva' he hp, hw.leaf]
      simp

/-! ## `uvmunmap` -/

/-- The mapping that the loop of `uvmunmap` asks for. -/
def Mem.HasPage (m : Mem) (t va : ℕ) : Prop :=
  m.leaf t va &&& ENTRY_VALID ≠ 0 ∧ m.leaf t va &&& ENTRY_PAGE ≠ 0

theorem and_mask_aligned (e : ℕ) : (e &&& PG_ADDR_MASK) % PGSIZE = 0 := by
  change (e &&& PG_ADDR_MASK) % 2 ^ 12 = 0
  apply Nat.eq_of_testBit_eq
  intro i
  rw [Nat.testBit_mod_two_pow, Nat.testBit_and, testBit_pgAddrMask, Nat.zero_testBit]
  by_cases hi : i < 12
  · simp [hi]
  · simp [hi]

theorem Mem.leaf_page (m : Mem) (t : ℕ) {va va' : ℕ} (hva : va < 2 ^ 32) (hva' : va' < 2 ^ 32)
    (h : va' / PGSIZE = va / PGSIZE) : m.leaf t va' = m.leaf t va := by
  obtain ⟨h1, h2⟩ := (page_iff_of hva hva').mp h
  rw [leaf_eq, leaf_eq, h1, h2]

/-- One turn of the loop. -/
theorem run_uvmunmapFrom_succ {free : Bool} {k : ℕ} (h : s.mem.IsTree t) (hva : va < 2 ^ 32) (hpage : s.mem.HasPage t va)
    (hout : free = true → ∀ c, s.mem.table t c ≠ some (s.mem.leaf t va &&& PG_ADDR_MASK)) :
    ∃ s', (uvmunmapFrom t free va (k + 1)).run vmStep s = (uvmunmapFrom t free (va + PGSIZE) k).run vmStep s' ∧
      s'.mem.IsTree t ∧ s'.mem.table t = s.mem.table t ∧
      ∀ va' < 2 ^ 32, s'.mem.leaf t va' = if va' / PGSIZE = va / PGSIZE then 0 else s.mem.leaf t va' := by
  obtain ⟨p, hp⟩ : ∃ p, s.mem.table t (.of va) = some p := by
    refine Option.ne_none_iff_exists'.mp fun hnone => hpage.1 ?_
    simp [leaf_eq, hnone]
  have hleaf : s.mem.entry p (pteIdx va) = s.mem.leaf t va := by
    rw [leaf_eq, hp]
    rfl
  have hput : ∀ s₁ : Vm, s₁.mem.IsTree t → s₁.mem.table t = s.mem.table t → (∀ va, s₁.mem.leaf t va = s.mem.leaf t va) →
      (s₁.mem.put p (pteIdx va) 0).IsTree t ∧ (s₁.mem.put p (pteIdx va) 0).table t = s.mem.table t ∧
        ∀ va' < 2 ^ 32, (s₁.mem.put p (pteIdx va) 0).leaf t va' =
          if va' / PGSIZE = va / PGSIZE then 0 else s.mem.leaf t va' := by
    intro s₁ h₁ htab hl
    have hp₁ : s₁.mem.table t (.of va) = some p := by rw [htab, hp]
    refine ⟨h₁.same (h₁.sameDirs_put hp₁), ?_, fun va' hva' => ?_⟩
    · rw [← htab]
      exact funext (h₁.sameDirs_put hp₁).table_eq
    · rw [h₁.leaf_put hva hva' (by norm_num) hp₁, hl]
  rw [uvmunmapFrom, Prog.bind_eq, Prog.run_bind_done vmStep (run_walk s t va), leafSlot_eq, hp]
  dsimp only [Option.map_some]
  rw [Prog.bind_eq, run_load_bind, hleaf, if_neg hpage.1, if_neg hpage.2]
  cases free with
  | false => exact ⟨_, rfl, hput s h rfl fun _ => rfl⟩
  | true =>
    have hsame := sameDirs_update (f := s.freedPage) (hout rfl)
    refine ⟨_, Prog.run_bind_done vmStep (run_kfree (and_mask_aligned _)), hput ⟨_, _⟩ (h.same hsame) (funext hsame.table_eq) ?_⟩
    exact leaf_update (hout rfl)

/-- A page that is not mapped ends the loop. -/
theorem run_uvmunmapFrom_panic {free : Bool} {k : ℕ} (hpage : ¬s.mem.HasPage t va) (r : Unit) (s' : Vm) :
    (uvmunmapFrom t free va (k + 1)).run vmStep s ≠ .done r s' := by
  rw [uvmunmapFrom, Prog.bind_eq, Prog.run_bind_done vmStep (run_walk s t va), leafSlot_eq]
  cases hp : s.mem.table t (.of va) with
  | none => nofun
  | some p =>
    have hleaf : s.mem.entry p (pteIdx va) = s.mem.leaf t va := by
      rw [leaf_eq, hp]
      rfl
    dsimp only [Option.map_some]
    rw [Prog.bind_eq, run_load_bind, hleaf]
    split <;> rename_i hv
    · nofun
    · rw [if_pos (not_not.mp fun hpg => hpage ⟨hv, hpg⟩)]
      nofun

/-- The pages of a range. -/
def PageIn (va k va' : ℕ) : Prop := va / PGSIZE ≤ va' / PGSIZE ∧ va' / PGSIZE < va / PGSIZE + k

instance (va k va' : ℕ) : Decidable (PageIn va k va') := inferInstanceAs (Decidable (_ ∧ _))

theorem pageIn_succ {k va' : ℕ} : PageIn va (k + 1) va' ↔ va' / PGSIZE = va / PGSIZE ∨ PageIn (va + PGSIZE) k va' := by
  unfold PageIn
  rw [Nat.add_div_right va (by decide : 0 < PGSIZE)]
  omega

/-- The loop of `uvmunmap` ends if the whole range is mapped, and removes the leaves of the range. -/
theorem run_uvmunmapFrom {free : Bool} {k : ℕ} (h : s.mem.IsTree t) (hva : va % PGSIZE = 0) (hk : va + k * PGSIZE ≤ 2 ^ 32)
    (hout : free = true → ∀ va' < 2 ^ 32, PageIn va k va' → ∀ c, s.mem.table t c ≠ some (s.mem.leaf t va' &&& PG_ADDR_MASK)) :
    ((∃ s', (uvmunmapFrom t free va k).run vmStep s = .done () s') ↔ ∀ va' < 2 ^ 32, PageIn va k va' → s.mem.HasPage t va') ∧
      ∀ s', (uvmunmapFrom t free va k).run vmStep s = .done () s' → s'.mem.IsTree t ∧
        ∀ va' < 2 ^ 32, s'.mem.leaf t va' = if PageIn va k va' then 0 else s.mem.leaf t va' := by
  induction k generalizing va s with
  | zero =>
    have hno : ∀ va', ¬PageIn va 0 va' := by
      intro va' hr
      unfold PageIn at hr
      omega
    refine ⟨⟨fun _ va' _ hr => absurd hr (hno va'), fun _ => ⟨s, rfl⟩⟩, ?_⟩
    rintro s' hrun
    cases hrun
    exact ⟨h, fun va' _ => (if_neg (hno va')).symm⟩
  | succ k ih =>
    change va % 4096 = 0 at hva
    change va + (k + 1) * 4096 ≤ 2 ^ 32 at hk
    have hlt : va < 2 ^ 32 := by omega
    have hhead : PageIn va (k + 1) va := pageIn_succ.mpr (.inl rfl)
    by_cases hpage : s.mem.HasPage t va
    · obtain ⟨s₁, hrun, htree, htab, hleaf⟩ :=
        run_uvmunmapFrom_succ (k := k) h hlt hpage fun hf => hout hf va hlt hhead
      have hrest : ∀ va' < 2 ^ 32, PageIn (va + PGSIZE) k va' →
          va' / PGSIZE ≠ va / PGSIZE ∧ s₁.mem.leaf t va' = s.mem.leaf t va' := by
        intro va' hva' hr
        have hne : va' / PGSIZE ≠ va / PGSIZE := by
          have := hr.1
          rw [Nat.add_div_right va (by decide : 0 < PGSIZE)] at this
          omega
        exact ⟨hne, by rw [hleaf va' hva', if_neg hne]⟩
      have hout₁ : free = true → ∀ va' < 2 ^ 32, PageIn (va + PGSIZE) k va' →
          ∀ c, s₁.mem.table t c ≠ some (s₁.mem.leaf t va' &&& PG_ADDR_MASK) := by
        intro hf va' hva' hr c
        rw [htab, (hrest va' hva' hr).2]
        exact hout hf va' hva' (pageIn_succ.mpr (.inr hr)) c
      obtain ⟨hiff, hdone⟩ := ih htree (by change (va + 4096) % 4096 = 0; omega)
        (by change va + 4096 + k * 4096 ≤ 2 ^ 32; omega) hout₁
      rw [hrun]
      refine ⟨hiff.trans ⟨fun hall va' hva' hr => ?_, fun hall va' hva' hr => ?_⟩, fun s' hs' => ?_⟩
      · rcases pageIn_succ.mp hr with he | hr
        · unfold HasPage
          rw [leaf_page _ _ hlt hva' he]
          exact hpage
        · have := hall va' hva' hr
          unfold HasPage at this
          rwa [(hrest va' hva' hr).2] at this
      · unfold HasPage
        rw [(hrest va' hva' hr).2]
        exact hall va' hva' (pageIn_succ.mpr (.inr hr))
      · obtain ⟨htree', hleaf'⟩ := hdone s' hs'
        refine ⟨htree', fun va' hva' => ?_⟩
        rw [hleaf' va' hva', hleaf va' hva']
        by_cases hr : PageIn (va + PGSIZE) k va'
        · rw [if_pos hr, if_pos (pageIn_succ.mpr (.inr hr))]
        · rw [if_neg hr]
          refine if_congr ?_ rfl rfl
          rw [pageIn_succ]
          exact ⟨.inl, fun h => h.resolve_right hr⟩
    · have hno := fun s' => @run_uvmunmapFrom_panic s t va free k hpage () s'
      exact ⟨⟨fun ⟨s', hs'⟩ => absurd hs' (hno s'), fun hall => absurd (hall va hlt hhead) hpage⟩,
        fun s' hs' => absurd hs' (hno s')⟩

end Ops

/-! ## Translations -/

theorem Mem.addr_of_leaf {m m' : Mem} {t va : ℕ} (h : m'.leaf t va = m.leaf t va) : m'.addr t va = m.addr t va := by
  rw [addr, addr, h]

theorem leafEntry_and (pa ap : ℕ) : leafEntry pa ap &&& (ENTRY_PAGE ||| ENTRY_VALID) ≠ 0 := by
  intro h0
  have hbit : (leafEntry pa ap &&& (ENTRY_PAGE ||| ENTRY_VALID)).testBit 0 = true := by
    simp [leafEntry]
  rw [h0] at hbit
  cases hbit

/-- The address in a leaf entry, whatever the access permission has outside the address bits. -/
theorem leafEntry_addr {pa ap : ℕ} (hal : pa % PGSIZE = 0) (hlt : pa < 2 ^ 48) (hap : ap &&& PG_ADDR_MASK = 0) :
    leafEntry pa ap &&& PG_ADDR_MASK = pa := by
  have hpa : pa &&& PG_ADDR_MASK = pa := by
    have := mask_page hal hlt (show 0 < 2 ^ 12 by norm_num)
    rwa [Nat.or_zero, Nat.and_comm] at this
  have hc : ACCESS_FLAG &&& PG_ADDR_MASK = 0 ∧ SH_IN_SH &&& PG_ADDR_MASK = 0 ∧ ENTRY_NS &&& PG_ADDR_MASK = 0 ∧
      memAttrIdx 4 &&& PG_ADDR_MASK = 0 ∧ ENTRY_PAGE &&& PG_ADDR_MASK = 0 ∧ ENTRY_VALID &&& PG_ADDR_MASK = 0 := by decide
  rw [leafEntry]
  simp only [Nat.and_or_distrib_right, hpa, hap, hc, Nat.or_zero]

theorem leafEntry_lt_of {pa ap : ℕ} (hlt : pa < 2 ^ 48) (hap : ap < 2 ^ 64) : leafEntry pa ap < 2 ^ 64 := by
  have hpa : pa < 2 ^ 64 := hlt.trans (by norm_num)
  rw [leafEntry]
  repeat refine Nat.or_lt_two_pow ?_ (by first | exact hap | decide)
  exact hpa

/-- `walkaddr` as a function, and the three calls on a page table that is a tree. -/
theorem page_table_walk_map (s : Vm) (t : ℕ) (htree : s.mem.IsTree t) (hspare : s.Spare t) :
    (∀ s va, (walkaddr t va).run vmStep s = .done (s.mem.addr t va) s) ∧
    (∀ va pa ap, va < 2 ^ 32 → va % PGSIZE = 0 → s.mem.leaf t va &&& (ENTRY_PAGE ||| ENTRY_VALID) = 0 →
      pa ≠ 0 → pa % PGSIZE = 0 → pa < 2 ^ 48 → ap < 2 ^ 64 → ap &&& PG_ADDR_MASK = 0 →
      ∃ r s', (mappages t va PGSIZE pa ap).run vmStep s = .done r s' ∧ s'.mem.IsTree t ∧
        (r = true → s'.mem.addr t va = pa ∧
          ∀ va' < 2 ^ 32, va' / PGSIZE ≠ va / PGSIZE → s'.mem.addr t va' = s.mem.addr t va') ∧
        (r = false → ∀ va' < 2 ^ 32, s'.mem.addr t va' = s.mem.addr t va')) ∧
    (∀ va, ∃ r, (walk t va false).run vmStep s = .done r s) ∧
    ∀ va n free, va % PGSIZE = 0 → va + n * PGSIZE ≤ 2 ^ 32 →
      (free = true → ∀ va' < 2 ^ 32, PageIn va n va' →
        ∀ c, s.mem.table t c ≠ some (s.mem.leaf t va' &&& PG_ADDR_MASK)) →
      ((∃ s', (uvmunmap t va n free).run vmStep s = .done () s') ↔ ∀ va' < 2 ^ 32, PageIn va n va' → s.mem.HasPage t va') ∧
      ∀ s', (uvmunmap t va n free).run vmStep s = .done () s' → s'.mem.IsTree t ∧
        ∀ va' < 2 ^ 32, s'.mem.addr t va' = if PageIn va n va' then 0 else s.mem.addr t va' := by
  refine ⟨fun s va => run_walkaddr s t va, ?_, fun va => ⟨_, run_walk s t va⟩, ?_⟩
  · intro va pa ap hva hal hfree _ hpal hplt hap hmask
    obtain ⟨r, s', hrun, htree', -, hleaf⟩ := run_mapPage htree hspare hva hfree (leafEntry_lt_of hplt hap)
    rw [mappages_page t pa ap hal]
    refine ⟨r, s', hrun, htree', ?_, ?_⟩
    · rintro rfl
      refine ⟨?_, fun va' hva' hne => ?_⟩
      · have hnew : s'.mem.leaf t va = leafEntry pa ap := (hleaf va hva).trans (if_pos ⟨rfl, rfl⟩)
        rw [addr, hnew, if_neg (leafEntry_and pa ap), leafEntry_addr hpal hplt hmask]
      · exact addr_of_leaf ((hleaf va' hva').trans (if_neg fun h => hne h.2))
    · rintro rfl va' hva'
      exact addr_of_leaf ((hleaf va' hva').trans (if_neg fun h => absurd h.1 (by decide)))
  · intro va n free hal hn hout
    obtain ⟨hiff, hdone⟩ := run_uvmunmapFrom htree hal hn hout
    rw [uvmunmap, if_neg (not_not.mpr hal)]
    refine ⟨hiff, fun s' hs' => ?_⟩
    obtain ⟨htree', hleaf⟩ := hdone s' hs'
    refine ⟨htree', fun va' hva' => ?_⟩
    split <;> rename_i hr
    · have hzero : s'.mem.leaf t va' = 0 := (hleaf va' hva').trans (if_pos hr)
      rw [addr, hzero]
      rfl
    · exact addr_of_leaf ((hleaf va' hva').trans (if_neg hr))

/-- A page table with one table at each level, and these entries in the leaf table. -/
def threeTables (leaves : List ℕ) : Vm where
  freelist := []
  mem := fun p =>
    if p = 0x40001000 then tableOf [tableEntry 0x40002000]
    else if p = 0x40002000 then tableOf [tableEntry 0x40003000]
    else if p = 0x40003000 then tableOf leaves
    else fun _ => 0

theorem threeTables_entries (leaves : List ℕ) (i : ℕ) :
    (threeTables leaves).mem.entry 0x40001000 i = [tableEntry 0x40002000].getD i 0 ∧
      (threeTables leaves).mem.entry 0x40002000 i = [tableEntry 0x40003000].getD i 0 :=
  ⟨entry_tableOf _ rfl (by decide) i, entry_tableOf _ rfl (by decide) i⟩

theorem threeTables_next (leaves : List ℕ) (i : ℕ) :
    (threeTables leaves).mem.next 0x40001000 i = (if i = 0 then some 0x40002000 else none) ∧
      (threeTables leaves).mem.next 0x40002000 i = if i = 0 then some 0x40003000 else none := by
  obtain ⟨h1, h2⟩ := threeTables_entries leaves i
  rw [next, next, h1, h2]
  cases i with
  | zero => exact ⟨by decide, by decide⟩
  | succ i => exact ⟨by simp, by simp⟩

theorem threeTables_table (leaves : List ℕ) (c : TableNode) {q : ℕ}
    (h : (threeTables leaves).mem.table 0x40001000 c = some q) :
    c = .root ∧ q = 0x40001000 ∨ c = .pmd 0 ∧ q = 0x40002000 ∨ c = .pte 0 0 ∧ q = 0x40003000 := by
  have hn := threeTables_next leaves
  cases c with
  | root => exact .inl ⟨rfl, (Option.some.inj h).symm⟩
  | pmd i =>
    rw [table, (hn i).1] at h
    split at h <;> rename_i hi
    · exact .inr (.inl ⟨by rw [Fin.val_eq_zero_iff.mp hi], (Option.some.inj h).symm⟩)
    · cases h
  | pte i j =>
    rw [table, (hn i).1] at h
    split at h <;> rename_i hi
    · rw [Option.bind_some, (hn j).2] at h
      split at h <;> rename_i hj
      · exact .inr (.inr ⟨by rw [Fin.val_eq_zero_iff.mp hi, Fin.val_eq_zero_iff.mp hj], (Option.some.inj h).symm⟩)
      · cases h
    · cases h

theorem threeTables_tree (leaves : List ℕ) : (threeTables leaves).mem.IsTree 0x40001000 := by
  refine ⟨fun c d q hc hd => ?_, fun c n d q hcd hq hne => ?_⟩
  · rcases threeTables_table leaves c hc with ⟨rfl, rfl⟩ | ⟨rfl, rfl⟩ | ⟨rfl, rfl⟩ <;>
      rcases threeTables_table leaves d hd with ⟨rfl, h⟩ | ⟨rfl, h⟩ | ⟨rfl, h⟩ <;> first | rfl | (norm_num at h)
  · obtain ⟨h1, h2⟩ := threeTables_entries leaves n
    rcases threeTables_table leaves c hq with ⟨rfl, rfl⟩ | ⟨rfl, rfl⟩ | ⟨rfl, rfl⟩
    · rw [h1] at hne ⊢
      cases n with
      | zero => decide
      | succ n => exact absurd (by simp) hne
    · rw [h2] at hne ⊢
      cases n with
      | zero => decide
      | succ n => exact absurd (by simp) hne
    · cases hcd

theorem threeTables_spare (leaves : List ℕ) : (threeTables leaves).Spare 0x40001000 :=
  ⟨List.nodup_nil, fun _ h => absurd h List.not_mem_nil, fun _ h => absurd h List.not_mem_nil⟩

/-- A third page is mapped beside two others, and the first one is removed and freed. -/
theorem page_table_walk_map_guarded :
    (∃ r s', (mappages 0x40001000 0x2000 PGSIZE 0x40006000 AP_1).run vmStep guarded = .done r s' ∧
      s'.mem.IsTree 0x40001000 ∧ (r = true → s'.mem.addr 0x40001000 0x2000 = 0x40006000 ∧
        ∀ va' < 2 ^ 32, va' / PGSIZE ≠ 0x2000 / PGSIZE → s'.mem.addr 0x40001000 va' = guarded.mem.addr 0x40001000 va') ∧
      (r = false → ∀ va' < 2 ^ 32, s'.mem.addr 0x40001000 va' = guarded.mem.addr 0x40001000 va')) ∧
    ∃ s', (uvmunmap 0x40001000 0 1 true).run vmStep guarded = .done () s' ∧ s'.mem.IsTree 0x40001000 := by
  obtain ⟨-, hmap, -, hunmap⟩ :=
    page_table_walk_map guarded 0x40001000 (threeTables_tree _) (threeTables_spare [leafEntry 0x40004000 AP_1, leafEntry 0x40005000 0])
  have hfirst : ∀ va' < 2 ^ 32, PageIn 0 1 va' → guarded.mem.leaf 0x40001000 va' = leafEntry 0x40004000 AP_1 := by
    intro va' hva' hr
    have hpage : va' / PGSIZE = 0 / PGSIZE := by
      have hlt : va' / 4096 < 0 / 4096 + 1 := hr.2
      change va' / 4096 = 0 / 4096
      omega
    rw [leaf_page _ _ (by norm_num) hva' hpage]
    decide
  refine ⟨hmap 0x2000 0x40006000 AP_1 (by norm_num) rfl (by decide) (by norm_num) rfl (by norm_num) (by decide) (by decide), ?_⟩
  obtain ⟨hiff, hdone⟩ := hunmap 0 1 true rfl (by norm_num) fun _ va' hva' hr c hc => by
    rw [hfirst va' hva' hr] at hc
    rcases threeTables_table _ c hc with ⟨-, h⟩ | ⟨-, h⟩ | ⟨-, h⟩ <;> exact absurd h (by decide)
  obtain ⟨s', hs'⟩ := hiff.mpr fun va' hva' hr => by
    unfold HasPage
    rw [hfirst va' hva' hr]
    decide
  exact ⟨s', hs', (hdone s' hs').1⟩

/-- A leaf that points to a table of the same page table: freeing its page destroys the tree. -/
theorem uvmunmap_frees_own_table :
    (threeTables [leafEntry 0x40002000 AP_1]).mem.IsTree 0x40001000 ∧
    ∃ s', (uvmunmap 0x40001000 0 1 true).run vmStep (threeTables [leafEntry 0x40002000 AP_1]) = .done () s' ∧
      ¬s'.mem.IsTree 0x40001000 := by
  refine ⟨threeTables_tree _, _, rfl, fun h => ?_⟩
  -- entry 0 is the end of the free list, entry 1 is all ones
  exact absurd (h.typed (.pmd 0) 1 (.pte 0 1) 0x40002000 (.pte 0 1) (by decide) (by decide)) (by decide)

end Xv6Arm

import Xv6Arm.Vm.Boot

/-!
# The kernel table before `page_init`

What `init_PGD_table` and `init_boot_pgtbl` leave in the second-level tables of
the kernel, and which pages `pre_free4kpt` makes available.
-/
namespace Xv6Arm
open Lib Mem

/-! ## The blocks of `start.c` -/

section Layout
variable (b : KernelImage) {i j : ℕ}

theorem kL2_isPage (hi : i < 4) : IsPage (b.kL2 i) := by
  have h0 := b.aligned
  have h1 := b.tables_le
  have h2 := b.top_le
  have h3 := b.start_le
  change b.top ≤ 0x40200000 at h2
  change b.kernelPgtbl % 4096 = 0 at h0
  rw [KernelImage.kL2]
  exact ⟨by change _ % 4096 = 0; omega, by omega, by change _ < 0x48000000; omega⟩

theorem uL2_isPage (hi : i < 4) : IsPage (b.uL2 i) := by
  have h0 := b.aligned
  have h1 := b.tables_le
  have h2 := b.top_le
  have h3 := b.start_le
  change b.top ≤ 0x40200000 at h2
  change b.kernelPgtbl % 4096 = 0 at h0
  rw [KernelImage.uL2]
  exact ⟨by change _ % 4096 = 0; omega, by omega, by change _ < 0x48000000; omega⟩

/-- A table of the boot image lies below every page that is free after boot. -/
theorem kL2_lt_top (hi : i < 4) : b.kL2 i < b.top := by
  have := b.tables_le
  rw [KernelImage.kL2]
  omega

end Layout

/-- The roots point to the second-level tables, and the kernel's second-level tables contain `f`. -/
structure BootTables (b : KernelImage) (f : ℕ → ℕ → ℕ) (m : Mem) : Prop where
  kernel : ∀ i < 4, m.entry b.kernelPgtbl i = tableEntry (b.kL2 i)
  user : ∀ i < 4, m.entry b.userPgtbl i = tableEntry (b.uL2 i)
  block : ∀ i < 4, ∀ j < 512, m.entry (b.kL2 i) j = f i j

/-- Only blocks that deny access to EL0, and none where `page_init` will map pages. -/
def BootBlocks (f : ℕ → ℕ → ℕ) : Prop :=
  ∀ i j, f i j = 0 ∨ f i j &&& 3 = 1 ∧ f i j &&& AP_MASK = 0 ∧ ¬(i = 1 ∧ 1 ≤ j ∧ j < 64)

theorem pmdMask_and {pa m : ℕ} (hm : m < 2 ^ 12) : pa &&& PMD_MASK &&& m = 0 := by
  have hz : PMD_MASK &&& m = 0 := by
    apply Nat.eq_of_testBit_eq
    intro i
    have h : PMD_MASK = (2 ^ 43 - 1) <<< 21 := by decide
    rw [Nat.testBit_and, h, Nat.testBit_shiftLeft, Nat.zero_testBit]
    by_cases hi : 21 ≤ i
    · rw [testBit_of_lt hm (by omega), Bool.and_false]
    · simp [hi]
  rw [Nat.and_assoc, hz, Nat.and_zero]

theorem blockEntry_and (pa : ℕ) (devMem : Bool) {m : ℕ} (hm : m < 2 ^ 12) :
    blockEntry pa devMem &&& m = blockEntry 0 devMem &&& m := by
  cases devMem <;>
    simp only [blockEntry, Bool.false_eq_true, if_true, if_false, Nat.and_or_distrib_right, pmdMask_and hm]

theorem blockEntry_type (pa : ℕ) (devMem : Bool) : blockEntry pa devMem &&& 3 = 1 := by
  rw [blockEntry_and pa devMem (by norm_num)]
  cases devMem <;> decide

theorem blockEntry_ap (pa : ℕ) (devMem : Bool) : blockEntry pa devMem &&& AP_MASK = 0 := by
  rw [blockEntry_and pa devMem (by decide)]
  cases devMem <;> decide

theorem blockEntry_lt (pa : ℕ) (devMem : Bool) : blockEntry pa devMem < 2 ^ 64 := by
  have h : pa &&& PMD_MASK < 2 ^ 64 := Nat.and_lt_two_pow pa (by decide)
  cases devMem
  · exact Nat.or_lt_two_pow h (by decide)
  · exact Nat.or_lt_two_pow h (by decide)

section Run
variable {b : KernelImage} {f : ℕ → ℕ → ℕ} {s : Vm}

/-- A store outside the kernel's tables changes nothing there. -/
theorem BootTables.put_other (h : BootTables b f s.mem) {p j e : ℕ} (hk : p ≠ b.kernelPgtbl)
    (hu : p ≠ b.userPgtbl) (hl : ∀ i < 4, p ≠ b.kL2 i) : BootTables b f (s.mem.put p j e) := by
  refine ⟨?_, ?_, ?_⟩
  · intro i hi
    rw [entry_put_other (Or.inl hk.symm), h.kernel i hi]
  · intro i hi
    rw [entry_put_other (Or.inl hu.symm), h.user i hi]
  · intro i hi j hj
    rw [entry_put_other (Or.inl (hl i hi).symm), h.block i hi j hj]

theorem BootTables.put_block (h : BootTables b f s.mem) {i j e : ℕ} (hi : i < 4) (he : e < 2 ^ 64) :
    BootTables b (Function.update f i (Function.update (f i) j e)) (s.mem.put (b.kL2 i) j e) := by
  refine ⟨?_, ?_, ?_⟩
  · intro i' hi'
    rw [entry_put_other (Or.inl (by rw [KernelImage.kL2]; omega)), h.kernel i' hi']
  · intro i' hi'
    rw [entry_put_other (Or.inl (by rw [KernelImage.kL2, KernelImage.userPgtbl]; omega)), h.user i' hi']
  · intro i' hi' j' hj'
    by_cases hii : i' = i
    · subst hii
      by_cases hjj : j' = j
      · subst hjj
        rw [entry_put_self _ _ _ he, Function.update_self, Function.update_self]
      · rw [entry_put_other (Or.inr hjj), Function.update_self, Function.update_of_ne hjj, h.block i' hi' j' hj']
    · rw [entry_put_other (Or.inl (by simp only [KernelImage.kL2]; omega)), Function.update_of_ne hii,
        h.block i' hi' j' hj']

theorem BootBlocks.update (hf : BootBlocks f) {i j : ℕ} (pa : ℕ) (devMem : Bool)
    (hij : ¬(i = 1 ∧ 1 ≤ j ∧ j < 64)) :
    BootBlocks (Function.update f i (Function.update (f i) j (blockEntry pa devMem))) := by
  intro i' j'
  by_cases hi : i' = i
  · subst hi
    rw [Function.update_self]
    by_cases hj : j' = j
    · subst hj
      rw [Function.update_self]
      exact Or.inr ⟨blockEntry_type pa devMem, blockEntry_ap pa devMem, hij⟩
    · rw [Function.update_of_ne hj]
      exact hf i' j'
  · rw [Function.update_of_ne hi]
    exact hf i' j'

/-- What the code between `init_PGD_table` and `page_init` keeps. -/
def Booted (b : KernelImage) (s : Vm) : Prop := ∃ f, BootBlocks f ∧ BootTables b f s.mem

theorem run_bvmmapBlock (h : Booted b s) (va pa : ℕ) (devMem : Bool)
    (hva : ¬(pgdIdx va = 1 ∧ 1 ≤ pmdIdx va ∧ pmdIdx va < 64)) :
    ∃ s', (bvmmapBlock b va pa devMem).run vmStep s = .done () s' ∧ s'.freelist = s.freelist ∧ Booted b s' := by
  obtain ⟨f, hf, ht⟩ := h
  have hi := pgdIdx_lt va
  have h1 := ht.put_block (j := pmdIdx va) hi (blockEntry_lt pa devMem)
  have hk : s.mem.entry b.kernelPgtbl (pgdIdx va) &&& PG_ADDR_MASK = b.kL2 (pgdIdx va) := by
    rw [ht.kernel _ hi, Nat.and_comm, tableEntry_page (kL2_isPage b hi)]
  have hu : (s.mem.put (b.kL2 (pgdIdx va)) (pmdIdx va) (blockEntry pa devMem)).entry b.userPgtbl (pgdIdx va) &&&
      PG_ADDR_MASK = b.uL2 (pgdIdx va) := by
    rw [h1.user _ hi, Nat.and_comm, tableEntry_page (uL2_isPage b hi)]
  refine ⟨⟨s.freelist, (s.mem.put (b.kL2 (pgdIdx va)) (pmdIdx va) (blockEntry pa devMem)).put
    (b.uL2 (pgdIdx va)) (pmdIdx va) (blockEntry pa devMem)⟩, ?_, rfl, _, hf.update pa devMem hva, ?_⟩
  · simp only [bvmmapBlock, Prog.bind_eq]
    rw [run_load_bind, hk, Prog.run_bind_done vmStep (run_store ..), run_load_bind, hu, run_store]
  · refine BootTables.put_other (s := ⟨s.freelist, _⟩) h1 ?_ ?_ ?_
    · rw [KernelImage.uL2]
      omega
    · rw [KernelImage.uL2, KernelImage.userPgtbl]
      omega
    · intro i hi'
      rw [KernelImage.uL2, KernelImage.kL2]
      omega

theorem run_each {β : Type} {body : β → VmM Unit} {I : Vm → Prop} (l : List β)
    (hbody : ∀ x ∈ l, ∀ s, I s → ∃ s', (body x).run vmStep s = .done () s' ∧ I s') (s : Vm) (h : I s) :
    ∃ s', (Prog.each body l).run vmStep s = .done () s' ∧ I s' := by
  induction l generalizing s with
  | nil => exact ⟨s, rfl, h⟩
  | cons x l ih =>
    obtain ⟨s1, hr1, h1⟩ := hbody x (List.mem_cons_self ..) s h
    obtain ⟨s2, hr2, h2⟩ := ih (fun y hy => hbody y (List.mem_cons_of_mem x hy)) s1 h1
    exact ⟨s2, by rw [Prog.each, Prog.bind_eq, Prog.run_bind_done vmStep hr1, hr2], h2⟩

theorem run_bvmmap (va pa sz : ℕ) (devMem : Bool)
    (hva : ∀ k < max 1 ((sz + (PMD_SZ - 1)) / PMD_SZ), ¬(pgdIdx (va + k * PMD_SZ) = 1 ∧
      1 ≤ pmdIdx (va + k * PMD_SZ) ∧ pmdIdx (va + k * PMD_SZ) < 64))
    (h : Booted b s ∧ s.freelist = []) :
    ∃ s', (bvmmap b va pa sz devMem).run vmStep s = .done () s' ∧ Booted b s' ∧ s'.freelist = [] := by
  refine run_each (I := fun s => Booted b s ∧ s.freelist = []) _ ?_ s h
  rintro k hk s ⟨hs, hfree⟩
  obtain ⟨s', hr, hfree', hs'⟩ :=
    run_bvmmapBlock hs (va + k * PMD_SZ) (pa + k * PMD_SZ) devMem (hva k (List.mem_range.mp hk))
  exact ⟨s', hr, hs', hfree'.trans hfree⟩

end Run

/-- The memory as the boot loader leaves it: no page is free and the tables are clear. -/
structure Loaded (b : KernelImage) (s : Vm) : Prop where
  free : s.freelist = []
  clear : ∀ i < 4, ∀ j < 512, s.mem.entry (b.kL2 i) j = 0

section Boot
variable {b : KernelImage} {s : Vm}

/-- Filling entries of one table. -/
theorem run_each_store (p : ℕ) (e : ℕ → ℕ) (l : List ℕ) (he : ∀ i ∈ l, e i < 2 ^ 64) (s : Vm) :
    ∃ s', (Prog.each (fun i => store p i (e i)) l).run vmStep s = .done () s' ∧ s'.freelist = s.freelist ∧
      (∀ i ∈ l, s'.mem.entry p i = e i) ∧
      ∀ q i, q ≠ p ∨ i ∉ l → s'.mem.entry q i = s.mem.entry q i := by
  induction l generalizing s with
  | nil => exact ⟨s, rfl, rfl, fun i hi => absurd hi List.not_mem_nil, fun _ _ _ => rfl⟩
  | cons x l ih =>
    obtain ⟨s', hr, hfree, hin, hout⟩ := ih (fun i hi => he i (List.mem_cons_of_mem x hi))
      { s with mem := s.mem.put p x (e x) }
    refine ⟨s', ?_, hfree, ?_, ?_⟩
    · rw [Prog.each, Prog.bind_eq, Prog.run_bind_done vmStep (run_store ..), hr]
    · intro i hi
      by_cases hil : i ∈ l
      · exact hin i hil
      · obtain rfl : i = x := (List.mem_cons.mp hi).resolve_right hil
        rw [hout p i (Or.inr hil), entry_put_self _ _ _ (he i (List.mem_cons_self ..))]
    · rintro q i (hq | hi)
      · rw [hout q i (Or.inl hq), entry_put_other (Or.inl hq)]
      · rw [List.mem_cons, not_or] at hi
        rw [hout q i (Or.inr hi.2), entry_put_other (Or.inr hi.1)]

theorem run_initPGDTable (h : Loaded b s) :
    ∃ s', (initPGDTable b).run vmStep s = .done () s' ∧ Booted b s' ∧ s'.freelist = [] := by
  have he : ∀ q, q ||| (ENTRY_VALID ||| ENTRY_TABLE) = tableEntry q := by
    intro q
    rw [tableEntry, Nat.or_assoc, Nat.or_comm ENTRY_VALID]
  obtain ⟨s1, hr1, hfree1, hin1, hout1⟩ := run_each_store b.kernelPgtbl (fun i => tableEntry (b.kL2 i))
    (List.range 4) (fun i hi => tableEntry_lt (kL2_isPage b (List.mem_range.mp hi))) s
  obtain ⟨s2, hr2, hfree2, hin2, hout2⟩ := run_each_store b.userPgtbl (fun i => tableEntry (b.uL2 i))
    (List.range 4) (fun i hi => tableEntry_lt (uL2_isPage b (List.mem_range.mp hi))) s1
  refine ⟨s2, ?_, ⟨fun _ _ => 0, fun _ _ => Or.inl rfl, ?_, ?_, ?_⟩, ?_⟩
  · simp only [initPGDTable, he, Prog.bind_eq]
    rw [Prog.run_bind_done vmStep hr1, hr2]
  · intro i hi
    rw [hout2 _ _ (Or.inl (by rw [KernelImage.userPgtbl]; omega)), hin1 i (List.mem_range.mpr hi)]
  · exact fun i hi => hin2 i (List.mem_range.mpr hi)
  · intro i hi j hj
    rw [hout2 _ _ (Or.inl (by rw [KernelImage.userPgtbl, KernelImage.kL2]; omega)),
      hout1 _ _ (Or.inl (by rw [KernelImage.kL2]; omega)), h.clear i hi j hj]
  · rw [hfree2, hfree1, h.free]

theorem run_initBootPgtbl (h : Booted b s ∧ s.freelist = []) :
    ∃ s', (initBootPgtbl b).run vmStep s = .done () s' ∧ Booted b s' ∧ s'.freelist = [] := by
  obtain ⟨s1, hr1, h1⟩ := run_bvmmap PHYSTART PHYSTART KERN_SZ false (by decide) h
  obtain ⟨s2, hr2, h2⟩ := run_bvmmap (KERNBASE + PHYSTART) PHYSTART KERN_SZ false (by decide) h1
  obtain ⟨s3, hr3, h3⟩ := run_bvmmap UARTBASE UARTBASE DEV_SZ true (by decide) h2
  obtain ⟨s4, hr4, h4⟩ := run_bvmmap VIRTIOBASE VIRTIOBASE DEV_SZ true (by decide) h3
  obtain ⟨s5, hr5, h5⟩ := run_bvmmap (KERNBASE + GICBASE) GICBASE DEV_SZ true (by decide) h4
  obtain ⟨s6, hr6, h6⟩ := run_bvmmap (KERNBASE + UARTBASE) UARTBASE DEV_SZ true (by decide) h5
  obtain ⟨s7, hr7, h7⟩ := run_bvmmap (KERNBASE + VIRTIOBASE) VIRTIOBASE DEV_SZ true (by decide) h6
  refine ⟨s7, ?_, h7⟩
  rw [initBootPgtbl]
  simp only [Prog.bind_eq]
  rw [Prog.run_bind_done vmStep hr1, Prog.run_bind_done vmStep hr2, Prog.run_bind_done vmStep hr3,
    Prog.run_bind_done vmStep hr4, Prog.run_bind_done vmStep hr5, Prog.run_bind_done vmStep hr6, hr7]

/-- The pages `page_init` may use for its tables: distinct, and above the image. -/
structure SparePages (b : KernelImage) (F : List ℕ) : Prop where
  nodup : F.Nodup
  page : ∀ p ∈ F, IsPage p
  above : ∀ p ∈ F, b.top ≤ p

theorem BootTables.memset {f : ℕ → ℕ → ℕ} (h : BootTables b f s.mem) {p : ℕ} (hp : b.top ≤ p) (c : Bytes) :
    BootTables b f (Function.update s.mem p c) := by
  have ht := b.tables_le
  refine ⟨?_, ?_, ?_⟩
  · intro i hi
    rw [entry_update_other (by omega), h.kernel i hi]
  · intro i hi
    rw [entry_update_other (by rw [KernelImage.userPgtbl]; omega), h.user i hi]
  · intro i hi j hj
    rw [entry_update_other (by rw [KernelImage.kL2]; omega), h.block i hi j hj]

/-- Freeing pages one after another puts them on the list in the opposite order. -/
theorem run_each_kfree (l : List ℕ) (hl : ∀ p ∈ l, p % PGSIZE = 0 ∧ b.top ≤ p) (s : Vm) (h : Booted b s) :
    ∃ s', (Prog.each kfree l).run vmStep s = .done () s' ∧ Booted b s' ∧
      s'.freelist = l.reverse ++ s.freelist := by
  induction l generalizing s with
  | nil => exact ⟨s, rfl, h, rfl⟩
  | cons p l ih =>
    obtain ⟨hal, htop⟩ := hl p (List.mem_cons_self ..)
    obtain ⟨f, hf, ht⟩ := h
    obtain ⟨s', hr, hs', hfree⟩ := ih (fun q hq => hl q (List.mem_cons_of_mem p hq))
      ⟨p :: s.freelist, Function.update s.mem p s.freedPage⟩ ⟨f, hf, ht.memset htop _⟩
    refine ⟨s', ?_, hs', ?_⟩
    · rw [Prog.each, Prog.bind_eq, Prog.run_bind_done vmStep (run_kfree hal), hr]
    · rw [hfree, List.reverse_cons, List.append_assoc]
      rfl

/-- The pages between the image and the first mapping of `page_init`, as `pre_free4kpt` frees them. -/
theorem run_preFree4kpt (h : Booted b s ∧ s.freelist = []) :
    ∃ s', (preFree4kpt b.top INIT_KERNTOP).run vmStep s = .done () s' ∧ Booted b s' ∧
      SparePages b s'.freelist ∧ s'.freelist.length = (INIT_KERNTOP - b.top) / PGSIZE := by
  have ht := b.top_le
  have ha := b.top_aligned
  have hs := b.tables_le
  have hk := b.start_le
  change b.top ≤ 0x40200000 at ht
  change b.top % 4096 = 0 at ha
  have hround : pgRoundUp b.top = b.top := by
    rw [pgRoundUp]
    change (b.top + 4095) % 2 ^ 64 / 4096 * 4096 = b.top
    omega
  have hn : (INIT_KERNTOP - b.top + (PGSIZE - 1)) / PGSIZE = (INIT_KERNTOP - b.top) / PGSIZE := by
    change (0x40200000 - b.top + 4095) / 4096 = (0x40200000 - b.top) / 4096
    omega
  obtain ⟨s', hr, hs', hfree⟩ := run_each_kfree
    ((List.range ((INIT_KERNTOP - b.top) / PGSIZE)).map fun n => b.top + n * PGSIZE) (by
      intro p hp
      obtain ⟨n, -, rfl⟩ := List.mem_map.mp hp
      exact ⟨by change (b.top + n * 4096) % 4096 = 0; omega, Nat.le_add_right ..⟩) s h.1
  rw [h.2, List.append_nil] at hfree
  refine ⟨s', ?_, hs', ⟨?_, ?_, ?_⟩, ?_⟩
  · rw [preFree4kpt, hround, hn, hr]
  · rw [hfree, List.nodup_reverse]
    refine List.Nodup.map ?_ List.nodup_range
    intro x y hxy
    change b.top + x * 4096 = b.top + y * 4096 at hxy
    omega
  · intro p hp
    rw [hfree, List.mem_reverse] at hp
    obtain ⟨n, hlt, rfl⟩ := List.mem_map.mp hp
    have hlt := List.mem_range.mp hlt
    change n < (0x40200000 - b.top) / 4096 at hlt
    exact ⟨by change (b.top + n * 4096) % 4096 = 0; omega, by omega,
      by change b.top + n * 4096 < 0x48000000; omega⟩
  · intro p hp
    rw [hfree, List.mem_reverse] at hp
    obtain ⟨n, -, rfl⟩ := List.mem_map.mp hp
    exact Nat.le_add_right ..
  · rw [hfree, List.length_reverse, List.length_map, List.length_range]

end Boot

end Xv6Arm

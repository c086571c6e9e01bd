import Xv6Arm.Vm.BootTable

/-!
# Who may use the kernel's mappings

The state of the kernel table after each page that `page_init` maps, and from it
the access permission behind every address that the finished table translates.
-/
namespace Xv6Arm
open Lib Mem

/-! ## One page after another -/

/-- The state when `page_init` has hung in `c` third-level tables and mapped `k` pages: the tables
are the first pages of `F`, and everything else in the second-level tables is as `f` says. -/
structure KernelMap (b : KernelImage) (F : List ℕ) (f : ℕ → ℕ → ℕ) (c k : ℕ) (s : Vm) : Prop where
  free : s.freelist = F.drop c
  enough : c ≤ F.length
  root : ∀ i < 4, s.mem.entry b.kernelPgtbl i = tableEntry (b.kL2 i)
  table : ∀ n < c, s.mem.entry (b.kL2 1) (n + 1) = tableEntry (F.getD n 0)
  block : ∀ i < 4, ∀ j < 512, ¬(i = 1 ∧ 1 ≤ j ∧ j ≤ c) → s.mem.entry (b.kL2 i) j = f i j
  leaf : ∀ n < c, ∀ x < 512, s.mem.entry (F.getD n 0) x =
    if n * 512 + x < k then leafEntry (INIT_KERNTOP + (n * 512 + x) * PGSIZE) AP_1 else 0

/-- The number of pages that `page_init` is to map. -/
def linearPages : ℕ := (PHYSTOP - INIT_KERNTOP) / PGSIZE

theorem linearPages_eq : linearPages = 32256 := rfl

/-- The `k`-th page of the linear map. -/
def linearVa (k : ℕ) : ℕ := p2v INIT_KERNTOP + k * PGSIZE

theorem linearVa_idx {k : ℕ} (hk : k < linearPages) :
    pgdIdx (linearVa k) = 1 ∧ pmdIdx (linearVa k) = k / 512 + 1 ∧ pteIdx (linearVa k) = k % 512 := by
  rw [linearPages_eq] at hk
  have h : vpn (linearVa k) = 0x40200 + k := by
    rw [vpn, linearVa, p2v]
    change (0x40200000 + 0xFFFFFFFF00000000 + k * 4096) / 4096 % 2 ^ 20 = _
    omega
  rw [pgdIdx_eq, pmdIdx_eq, pteIdx_eq, h]
  omega

section PageInit
variable {b : KernelImage} {F : List ℕ} {f : ℕ → ℕ → ℕ} {c k : ℕ} {s : Vm}

theorem run_nextTable_present (alloc clear : Bool) {p i q : ℕ} (hq : IsPage q)
    (h : s.mem.entry p i = tableEntry q) : (nextTable p i alloc clear).run vmStep s = .done (some q) s := by
  change (if s.mem.entry p i &&& (ENTRY_VALID ||| ENTRY_TABLE) ≠ 0 then
      (.ret (some (PG_ADDR_MASK &&& s.mem.entry p i)) : VmM (Option ℕ)) else _).run vmStep s = _
  rw [h, if_pos (tableEntry_flags hq), tableEntry_page hq]
  rfl

theorem run_nextTable_full (clear : Bool) {p i : ℕ} (h : s.mem.entry p i = 0) (hfree : s.freelist = []) :
    (nextTable p i true clear).run vmStep s = .done none s := by
  obtain ⟨l, m⟩ := s
  obtain rfl : l = [] := hfree
  change (if Mem.entry m p i &&& (ENTRY_VALID ||| ENTRY_TABLE) ≠ 0 then
      (.ret (some (PG_ADDR_MASK &&& Mem.entry m p i)) : VmM (Option ℕ)) else _).run vmStep _ = _
  rw [if_neg (by rw [show Mem.entry m p i = 0 from h]; decide)]
  rfl

/-- A missing table is taken from the free list, cleared and hung into the entry. -/
theorem run_nextTable_fresh {p i q : ℕ} {l : List ℕ} (h : s.mem.entry p i = 0) (hfree : s.freelist = q :: l) :
    (nextTable p i true true).run vmStep s =
      .done (some q) ⟨l, Mem.put (Function.update s.mem q fun _ => 0) p i (tableEntry q)⟩ := by
  obtain ⟨fl, m⟩ := s
  obtain rfl : fl = q :: l := hfree
  change (if Mem.entry m p i &&& (ENTRY_VALID ||| ENTRY_TABLE) ≠ 0 then
      (.ret (some (PG_ADDR_MASK &&& Mem.entry m p i)) : VmM (Option ℕ)) else _).run vmStep _ = _
  rw [if_neg (by rw [show Mem.entry m p i = 0 from h]; decide)]
  have hm : Function.update (Function.update m q fun _ => 0) q (fun _ => 0) =
      Function.update m q fun _ => (0 : UInt8) := Function.update_idem _ _ _
  change Outcome.done (some q) (Vm.mk l (Mem.put (Function.update (Function.update m q fun _ => 0) q fun _ => 0)
    p i (tableEntry q))) = _
  rw [hm]

theorem SparePages.getD (hF : SparePages b F) {n : ℕ} (hn : n < F.length) :
    IsPage (F.getD n 0) ∧ b.top ≤ F.getD n 0 := by
  rw [List.getD_eq_getElem _ _ hn]
  exact ⟨hF.page _ (List.getElem_mem hn), hF.above _ (List.getElem_mem hn)⟩

theorem SparePages.getD_inj (hF : SparePages b F) {n m : ℕ} (hn : n < F.length) (hm : m < F.length)
    (h : F.getD n 0 = F.getD m 0) : n = m := by
  rw [List.getD_eq_getElem _ _ hn, List.getD_eq_getElem _ _ hm] at h
  exact (hF.nodup.getElem_inj_iff).mp h

/-- A new third-level table, still empty. -/
theorem KernelMap.addTable (h : KernelMap b F f c k s) (hF : SparePages b F) (hk : k ≤ c * 512)
    (hc : c < F.length) : KernelMap b F f (c + 1) k ⟨F.drop (c + 1),
      Mem.put (Function.update s.mem (F.getD c 0) fun _ => 0) (b.kL2 1) (c + 1) (tableEntry (F.getD c 0))⟩ := by
  obtain ⟨hpage, htop⟩ := hF.getD hc
  have hl2 : ∀ i < 4, b.kL2 i ≠ F.getD c 0 := fun i hi => (lt_of_lt_of_le (kL2_lt_top b hi) htop).ne
  have hroot : b.kernelPgtbl ≠ F.getD c 0 := by
    have := b.tables_le
    omega
  have hput : ∀ p i, p ≠ b.kL2 1 ∨ i ≠ c + 1 → p ≠ F.getD c 0 →
      (Mem.put (Function.update s.mem (F.getD c 0) fun _ => 0) (b.kL2 1) (c + 1) (tableEntry (F.getD c 0))).entry
        p i = s.mem.entry p i := by
    intro p i hp hq
    rw [entry_put_other hp, entry_update_other hq]
  refine ⟨rfl, hc, ?_, ?_, ?_, ?_⟩
  · intro i hi
    rw [hput _ _ (Or.inl (by rw [KernelImage.kL2]; omega)) hroot, h.root i hi]
  · intro n hn
    by_cases hnc : n = c
    · subst hnc
      exact entry_put_self _ _ _ (tableEntry_lt hpage)
    · rw [hput _ _ (Or.inr (by omega)) (hl2 1 (by norm_num)), h.table n (by omega)]
  · intro i hi j hj hij
    rw [hput _ _ ?_ (hl2 i hi), h.block i hi j hj (by omega)]
    by_cases hi1 : i = 1
    · exact Or.inr (by omega)
    · exact Or.inl (by simp only [KernelImage.kL2]; omega)
  · intro n hn x hx
    have hne : F.getD n 0 ≠ b.kL2 1 := by
      have h1 := kL2_lt_top b (i := 1) (by norm_num)
      have h2 := (hF.getD (n := n) (by omega)).2
      omega
    by_cases hnc : n = c
    · subst hnc
      rw [entry_put_other (Or.inl hne), entry_zeroed, if_neg (by omega)]
    · rw [hput _ _ (Or.inl hne) (fun he => hnc (hF.getD_inj (by omega) hc he)), h.leaf n (by omega) x hx]

theorem isPage_linear (hk : k < linearPages) : IsPage (INIT_KERNTOP + k * PGSIZE) := by
  rw [linearPages_eq] at hk
  exact ⟨by change (0x40200000 + k * 4096) % 4096 = 0; omega, by change 0x40000000 ≤ 0x40200000 + k * 4096; omega,
    by change 0x40200000 + k * 4096 < 0x48000000; omega⟩

/-- The next page is entered into the last table. -/
theorem KernelMap.addLeaf (h : KernelMap b F f c k s) (hF : SparePages b F) (hk : k < linearPages)
    (hc : k / 512 < c) : KernelMap b F f c (k + 1) { s with
      mem := s.mem.put (F.getD (k / 512) 0) (k % 512) (leafEntry (INIT_KERNTOP + k * PGSIZE) AP_1) } := by
  have hlen := h.enough
  obtain ⟨hpage, htop⟩ := hF.getD (n := k / 512) (by omega)
  have hl2 : ∀ i < 4, b.kL2 i ≠ F.getD (k / 512) 0 := fun i hi => (lt_of_lt_of_le (kL2_lt_top b hi) htop).ne
  have hroot : b.kernelPgtbl ≠ F.getD (k / 512) 0 := by
    have := b.tables_le
    omega
  refine ⟨h.free, h.enough, ?_, ?_, ?_, ?_⟩
  · intro i hi
    rw [entry_put_other (Or.inl hroot), h.root i hi]
  · intro n hn
    rw [entry_put_other (Or.inl (hl2 1 (by norm_num))), h.table n hn]
  · intro i hi j hj hij
    rw [entry_put_other (Or.inl (hl2 i hi)), h.block i hi j hj hij]
  · intro n hn x hx
    by_cases hnx : n * 512 + x = k
    · obtain ⟨rfl, rfl⟩ : n = k / 512 ∧ x = k % 512 := by omega
      rw [entry_put_self _ _ _ (leafEntry_lt (isPage_linear hk) (Or.inr (Or.inl rfl))), if_pos (by omega), hnx]
    · rw [entry_put_other, h.leaf n hn x hx]
      · simp only [show n * 512 + x < k ↔ n * 512 + x < k + 1 by omega]
      · by_cases hn' : n = k / 512
        · exact Or.inr (by omega)
        · exact Or.inl fun he => hn' (hF.getD_inj (by omega) (by omega) he)

/-- The rest of a turn of `mappages` once the table for the page is there. -/
theorem KernelMap.run_leaf (h : KernelMap b F f c k s) (hF : SparePages b F) (hk : k < linearPages)
    (hc : k / 512 < c) {s₀ : Vm}
    (hw : (walk b.kernelPgtbl (linearVa k) true).run vmStep s₀ = .done (some (F.getD (k / 512) 0, k % 512)) s) :
    ∃ s', (mapPage b.kernelPgtbl (linearVa k) (INIT_KERNTOP + k * PGSIZE) AP_1).run vmStep s₀ = .done true s' ∧
      KernelMap b F f c (k + 1) s' := by
  refine ⟨_, ?_, h.addLeaf hF hk hc⟩
  rw [mapPage, Prog.bind_eq, Prog.run_bind_done vmStep hw]
  change (if s.mem.entry (F.getD (k / 512) 0) (k % 512) &&& (ENTRY_PAGE ||| ENTRY_VALID) ≠ 0 then
    (.panic "remap" : VmM Bool) else _).run vmStep s = _
  have hzero : s.mem.entry (F.getD (k / 512) 0) (k % 512) = 0 := by
    rw [h.leaf _ hc _ (Nat.mod_lt _ (by norm_num)), if_neg (by omega)]
  rw [hzero, if_neg (by decide)]
  rfl

/-- One turn of `mappages`: it maps the next page, or a table is needed and no page is free. -/
theorem KernelMap.mapPage (h : KernelMap b F f c k s) (hF : SparePages b F) (hf : BootBlocks f)
    (hk : k < linearPages) (hkc : k ≤ c * 512) (hck : c * 512 < k + 512) :
    (k = F.length * 512 ∧
      (mapPage b.kernelPgtbl (linearVa k) (INIT_KERNTOP + k * PGSIZE) AP_1).run vmStep s = .done false s) ∨
    ∃ c' s', (mapPage b.kernelPgtbl (linearVa k) (INIT_KERNTOP + k * PGSIZE) AP_1).run vmStep s = .done true s' ∧
      KernelMap b F f c' (k + 1) s' ∧ k + 1 ≤ c' * 512 ∧ c' * 512 < k + 1 + 512 := by
  obtain ⟨hi, hj, hx⟩ := linearVa_idx hk
  have hkn : k < 32256 := linearPages_eq ▸ hk
  have hpgd : (nextTable b.kernelPgtbl (pgdIdx (linearVa k)) true false).run vmStep s =
      .done (some (b.kL2 1)) s := by
    rw [hi]
    exact run_nextTable_present _ _ (kL2_isPage b (by norm_num)) (h.root 1 (by norm_num))
  have hwalk : (walk b.kernelPgtbl (linearVa k) true).run vmStep s =
      match (nextTable (b.kL2 1) (k / 512 + 1) true true).run vmStep s with
      | .done r s' => .done (r.map fun q => (q, k % 512)) s'
      | .blocked => .blocked
      | .panic msg => .panic msg := by
    rw [walk, Prog.bind_eq, Prog.run_bind_done vmStep hpgd]
    dsimp only
    rw [Prog.bind_eq, Prog.run_bind, hj, hx]
    cases (nextTable (b.kL2 1) (k / 512 + 1) true true).run vmStep s with
    | done r s' => cases r <;> rfl
    | blocked => rfl
    | panic msg => rfl
  by_cases hmod : k % 512 = 0
  · have hc : c = k / 512 := by omega
    have h1 : k + 1 ≤ (k / 512 + 1) * 512 := by omega
    have h2 : (k / 512 + 1) * 512 < k + 1 + 512 := by
      clear hkc hck
      omega
    have hzero : s.mem.entry (b.kL2 1) (k / 512 + 1) = 0 := by
      rw [h.block 1 (by norm_num) _ (by omega) (by omega)]
      rcases hf 1 (k / 512 + 1) with h0 | ⟨-, -, hn⟩
      · exact h0
      · omega
    by_cases hlen : c < F.length
    · have hfree : s.freelist = F.getD (k / 512) 0 :: F.drop (c + 1) := by
        rw [h.free, List.drop_eq_getElem_cons hlen, ← hc, List.getD_eq_getElem _ _ hlen]
      have hrun := run_nextTable_fresh hzero hfree
      simp only [hrun, Option.map_some] at hwalk
      have hadd := h.addTable hF hkc hlen
      rw [hc] at hadd hwalk
      obtain ⟨s', hr, hs'⟩ := hadd.run_leaf hF hk (by omega) hwalk
      exact Or.inr ⟨k / 512 + 1, s', hr, hs', h1, h2⟩
    · have hlen' := h.enough
      left
      refine ⟨by omega, ?_⟩
      rw [run_nextTable_full true hzero (by rw [h.free, List.drop_eq_nil_of_le (by omega)])] at hwalk
      rw [Xv6Arm.mapPage, Prog.bind_eq, Prog.run_bind_done vmStep hwalk]
      rfl
  · have hc : k / 512 < c := by omega
    have hlen := h.enough
    have hrun := run_nextTable_present true true (hF.getD (n := k / 512) (by omega)).1 (h.table (k / 512) hc)
    rw [hrun] at hwalk
    obtain ⟨s', hr, hs'⟩ := h.run_leaf hF hk hc hwalk
    exact Or.inr ⟨c, s', hr, hs', by omega, by omega⟩

/-- The loop of `mappages`: it stops after the last page, or when the spare pages are used up. -/
theorem KernelMap.mappagesFrom (n : ℕ) (h : KernelMap b F f c k s) (hF : SparePages b F) (hf : BootBlocks f)
    (hn : k + n < linearPages) (hkc : k ≤ c * 512) (hck : c * 512 < k + 512) :
    ∃ ok s' c' k', (mappagesFrom b.kernelPgtbl AP_1 (linearVa k) (INIT_KERNTOP + k * PGSIZE) n).run vmStep s =
      .done ok s' ∧ KernelMap b F f c' k' s' ∧ k' ≤ linearPages ∧ k' ≤ c' * 512 ∧
        k ≤ k' ∧ (k < F.length * 512 → k < k') := by
  induction n generalizing c k s with
  | zero =>
    rcases h.mapPage hF hf hn hkc hck with ⟨hlast, hr⟩ | ⟨c', s', hr, hs', hc', -⟩
    · exact ⟨_, _, c, k, hr, h, hn.le, hkc, le_rfl, by omega⟩
    · exact ⟨_, _, c', k + 1, hr, hs', hn, hc', by omega, by omega⟩
  | succ n ih =>
    rcases h.mapPage hF hf (by omega) hkc hck with ⟨hlast, hr⟩ | ⟨c', s', hr, hs', h1, h2⟩
    · refine ⟨false, s, c, k, ?_, h, by omega, hkc, le_rfl, by omega⟩
      rw [Xv6Arm.mappagesFrom, Prog.bind_eq, Prog.run_bind_done vmStep hr]
      rfl
    · obtain ⟨ok, s'', c'', k'', hr', hs'', hle, hc'', hlt, -⟩ := ih hs' (by omega) h1 h2
      refine ⟨ok, s'', c'', k'', ?_, hs'', hle, hc'', by omega, by omega⟩
      rw [Xv6Arm.mappagesFrom, Prog.bind_eq, Prog.run_bind_done vmStep hr, if_pos rfl]
      have e1 : linearVa k + PGSIZE = linearVa (k + 1) := by
        rw [linearVa, linearVa]
        ring
      have e2 : INIT_KERNTOP + k * PGSIZE + PGSIZE = INIT_KERNTOP + (k + 1) * PGSIZE := by ring
      rw [e1, e2, hr']

theorem BootTables.kernelMap (ht : BootTables b f s.mem) : KernelMap b s.freelist f 0 0 s :=
  ⟨rfl, Nat.zero_le _, ht.kernel, fun n hn => absurd hn (Nat.not_lt_zero n),
    fun i hi j hj _ => ht.block i hi j hj, fun n hn => absurd hn (Nat.not_lt_zero n)⟩

/-- The whole set-up of the kernel table: it ends without a panic in one of the states above. -/
theorem run_bootMemory (h : Loaded b s) :
    ∃ s' F f c k, (bootMemory b).run vmStep s = .done () s' ∧ SparePages b F ∧ BootBlocks f ∧
      KernelMap b F f c k s' ∧ k ≤ linearPages ∧ k ≤ c * 512 ∧ (b.top < INIT_KERNTOP → 0 < k) := by
  obtain ⟨s1, hr1, h1⟩ := run_initPGDTable h
  obtain ⟨s2, hr2, h2⟩ := run_initBootPgtbl h1
  obtain ⟨s3, hr3, ⟨f, hf, ht⟩, hF, hlen⟩ := run_preFree4kpt h2
  obtain ⟨ok, s4, c, k, hr4, h4, hk, hkc, -, hpos⟩ := ht.kernelMap.mappagesFrom 32255 hF hf (by decide) (by decide)
    (by decide)
  refine ⟨s4, s3.freelist, f, c, k, ?_, hF, hf, h4, hk, hkc, ?_⟩
  · have hmap : mappages b.kernelPgtbl (p2v INIT_KERNTOP) (PHYSTOP - INIT_KERNTOP) INIT_KERNTOP AP_1 =
        Xv6Arm.mappagesFrom b.kernelPgtbl AP_1 (linearVa 0) (INIT_KERNTOP + 0 * PGSIZE) 32255 := by
      rw [mappages, show pgRoundDown (p2v INIT_KERNTOP) = linearVa 0 by decide, Nat.zero_mul, Nat.add_zero]
      congr 1
    rw [bootMemory]
    simp only [Prog.bind_eq]
    rw [Prog.run_bind_done vmStep hr1, Prog.run_bind_done vmStep hr2, Prog.run_bind_done vmStep hr3, pageInit,
      Prog.bind_eq, hmap, Prog.run_bind_done vmStep hr4]
    rfl
  · intro htop
    refine hpos ?_
    have ha := b.top_aligned
    have hle := b.top_le
    change b.top % 4096 = 0 at ha
    change b.top < 0x40200000 at htop
    change s3.freelist.length = (0x40200000 - b.top) / 4096 at hlen
    omega

/-! ## Access permissions -/

theorem tableEntry_type {q : ℕ} (hq : IsPage q) : tableEntry q &&& 3 = 3 := by
  rw [tableEntry, Nat.or_assoc, page_or_and hq.aligned (by norm_num)]
  decide

theorem leafEntry_type {q : ℕ} (hq : IsPage q) : leafEntry q AP_1 &&& 3 = 3 := by
  rw [leafEntry_eq, page_or_and hq.aligned (by norm_num)]
  decide

theorem not_deniesEl0_leaf {q : ℕ} (hq : IsPage q) : ¬DeniesEl0 (leafEntry q AP_1) :=
  fun h => h.2 (leafEntry_ap hq (Or.inr (Or.inl rfl)))

theorem deniesEl0_of_ap_zero {e : ℕ} (h : e &&& AP_MASK = 0) : DeniesEl0 e := by
  refine ⟨?_, ?_⟩
  · rintro (he | he) <;> rw [h] at he <;> exact absurd he (by decide)
  · intro he
    rw [El0Writes, h] at he
    exact absurd he (by decide)

theorem vpn_kernel {va : ℕ} (h1 : KERNBASE ≤ va) (h2 : va < 2 ^ 64) : vpn va = (va - KERNBASE) / 4096 := by
  rw [vpn]
  change 0xFFFFFFFF00000000 ≤ va at h1
  change _ = (va - 0xFFFFFFFF00000000) / 4096
  omega

theorem inLinearMap_iff {va : ℕ} (h1 : KERNBASE ≤ va) (h2 : va < 2 ^ 64) :
    InLinearMap va ↔ 0x40200 ≤ vpn va ∧ vpn va < 0x48000 := by
  rw [vpn_kernel h1 h2, InLinearMap, p2v, p2v]
  change 0xFFFFFFFF00000000 ≤ va at h1
  change 0x40200000 + 0xFFFFFFFF00000000 ≤ va ∧ va < 0x48000000 + 0xFFFFFFFF00000000 ↔
    0x40200 ≤ (va - 0xFFFFFFFF00000000) / 4096 ∧ (va - 0xFFFFFFFF00000000) / 4096 < 0x48000
  omega

/-- The second-level entry the processor finds for `va`. -/
theorem KernelMap.mapping_eq (h : KernelMap b F f c k s) (va : ℕ) :
    s.mem.mapping b.kernelPgtbl va =
      let e := s.mem.entry (b.kL2 (pgdIdx va)) (pmdIdx va)
      if e &&& 3 ≠ 3 then if e &&& 3 = 1 then some e else none
      else
        let e := s.mem.entry (e &&& PG_ADDR_MASK) (pteIdx va)
        if e &&& 3 = 3 then some e else none := by
  have hq := kL2_isPage b (pgdIdx_lt va)
  rw [Mem.mapping, h.root _ (pgdIdx_lt va)]
  dsimp only
  rw [if_neg (not_not.mpr (tableEntry_type hq)), Nat.and_comm (tableEntry _), tableEntry_page hq]

/-- Behind a block of `start.c`. -/
theorem KernelMap.denies_block (h : KernelMap b F f c k s) (hf : BootBlocks f) {va e : ℕ}
    (h1 : KERNBASE ≤ va) (h2 : va < 2 ^ 64) (hb : ¬(pgdIdx va = 1 ∧ 1 ≤ pmdIdx va ∧ pmdIdx va ≤ c))
    (he : s.mem.mapping b.kernelPgtbl va = some e) : DeniesEl0 e ∧ ¬InLinearMap va := by
  rw [h.mapping_eq, h.block _ (pgdIdx_lt va) _ (pmdIdx_lt va) hb] at he
  rcases hf (pgdIdx va) (pmdIdx va) with h0 | ⟨htype, hap, hout⟩
  · rw [h0] at he
    cases he
  · dsimp only at he
    rw [htype, if_pos (by decide), if_pos rfl] at he
    cases he
    refine ⟨deniesEl0_of_ap_zero hap, ?_⟩
    rw [inLinearMap_iff h1 h2]
    rw [pgdIdx_eq, pmdIdx_eq] at hout
    omega

/-- Behind a page of `page_init`. -/
theorem KernelMap.not_denies_page (h : KernelMap b F f c k s) (hF : SparePages b F) (hk : k ≤ linearPages)
    {va e : ℕ} (h1 : KERNBASE ≤ va) (h2 : va < 2 ^ 64) (hb : pgdIdx va = 1 ∧ 1 ≤ pmdIdx va ∧ pmdIdx va ≤ c)
    (he : s.mem.mapping b.kernelPgtbl va = some e) : ¬DeniesEl0 e ∧ InLinearMap va := by
  rw [linearPages_eq] at hk
  obtain ⟨hi, hj1, hjc⟩ := hb
  have hlen := h.enough
  have hq := (hF.getD (n := pmdIdx va - 1) (by omega)).1
  have htab := h.table (pmdIdx va - 1) (by omega)
  rw [show pmdIdx va - 1 + 1 = pmdIdx va by omega] at htab
  rw [h.mapping_eq, hi, htab] at he
  dsimp only at he
  rw [if_neg (not_not.mpr (tableEntry_type hq)), Nat.and_comm (tableEntry _), tableEntry_page hq,
    h.leaf _ (by omega) _ (pteIdx_lt va)] at he
  by_cases hlt : (pmdIdx va - 1) * 512 + pteIdx va < k
  · have hpage := isPage_linear (k := (pmdIdx va - 1) * 512 + pteIdx va) (by rw [linearPages_eq]; omega)
    rw [if_pos hlt, if_pos (leafEntry_type hpage)] at he
    cases he
    refine ⟨not_deniesEl0_leaf hpage, ?_⟩
    rw [inLinearMap_iff h1 h2, ← vpn_of_idx va, hi]
    omega
  · rw [if_neg hlt] at he
    cases he

/-- The first page of the linear map is open to EL0. -/
theorem KernelMap.mapping_first (h : KernelMap b F f c k s) (hF : SparePages b F) (hk : 0 < k) (hkc : k ≤ c * 512) :
    s.mem.mapping b.kernelPgtbl (p2v INIT_KERNTOP) = some (leafEntry INIT_KERNTOP AP_1) := by
  have hlen := h.enough
  have hq := (hF.getD (n := 0) (by omega)).1
  have htab := h.table 0 (by omega)
  have hleaf := h.leaf 0 (by omega) 0 (by norm_num)
  rw [if_pos (by omega), Nat.zero_mul, Nat.add_zero] at hleaf
  have hpage : IsPage INIT_KERNTOP := isPage_linear (k := 0) (by decide)
  rw [h.mapping_eq, show pgdIdx (p2v INIT_KERNTOP) = 1 by decide, show pmdIdx (p2v INIT_KERNTOP) = 0 + 1 by decide,
    htab]
  dsimp only
  rw [if_neg (not_not.mpr (tableEntry_type hq)), Nat.and_comm (tableEntry _), tableEntry_page hq,
    show pteIdx (p2v INIT_KERNTOP) = 0 by decide, hleaf, if_pos (leafEntry_type hpage)]

end PageInit

/-- After boot an address that the kernel table translates is closed to EL0 exactly if it is not in
the part that `page_init` mapped. -/
theorem kernel_mapping_denies_el0_iff (b : KernelImage) (s : Vm) (h : Loaded b s) :
    ∃ s', (bootMemory b).run vmStep s = .done () s' ∧
      ∀ va e, KERNBASE ≤ va → va < 2 ^ 64 → s'.mem.mapping b.kernelPgtbl va = some e →
        (DeniesEl0 e ↔ ¬InLinearMap va) := by
  obtain ⟨s', F, f, c, k, hr, hF, hf, hm, hk, -, -⟩ := run_bootMemory h
  refine ⟨s', hr, ?_⟩
  intro va e h1 h2 he
  by_cases hb : pgdIdx va = 1 ∧ 1 ≤ pmdIdx va ∧ pmdIdx va ≤ c
  · obtain ⟨hd, hl⟩ := hm.not_denies_page hF hk h1 h2 hb he
    exact iff_of_false hd (not_not.mpr hl)
  · obtain ⟨hd, hl⟩ := hm.denies_block hf h1 h2 hb he
    exact iff_of_true hd hl

/-- An image whose tables start at 0x40013000 and which ends at 0x40100000. -/
def sampleImage : KernelImage := ⟨0x40013000, 0x40100000, by decide, by decide, by decide, by decide, by decide⟩

theorem loaded_sample : Loaded sampleImage ⟨[], fun _ _ => 0⟩ := by
  refine ⟨rfl, ?_⟩
  intro i _ j _
  simp [Mem.entry, leGet]

theorem kernel_mapping_denies_el0_iff_sample :
    ∃ s', (bootMemory sampleImage).run vmStep ⟨[], fun _ _ => 0⟩ = .done () s' ∧
      ∀ va e, KERNBASE ≤ va → va < 2 ^ 64 → s'.mem.mapping sampleImage.kernelPgtbl va = some e →
        (DeniesEl0 e ↔ ¬InLinearMap va) :=
  kernel_mapping_denies_el0_iff sampleImage _ loaded_sample

/-- The first page that `page_init` maps is translated, and EL0 may read and write it. -/
theorem linear_map_open_to_el0 :
    ∃ s' e, (bootMemory sampleImage).run vmStep ⟨[], fun _ _ => 0⟩ = .done () s' ∧
      s'.mem.mapping sampleImage.kernelPgtbl (p2v INIT_KERNTOP) = some e ∧ El0Reads e ∧ El0Writes e := by
  obtain ⟨s', F, f, c, k, hr, hF, -, hm, -, hkc, hpos⟩ := run_bootMemory loaded_sample
  have hap : leafEntry INIT_KERNTOP AP_1 &&& AP_MASK = AP_1 := by decide
  exact ⟨s', _, hr, hm.mapping_first hF (hpos (by decide)) hkc, Or.inl hap, hap⟩

end Xv6Arm

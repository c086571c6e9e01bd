import Xv6Arm.Vm.View

/-!
# Growing and searching a page table

`walk` and `mappages` in terms of places: which nodes they add, when they fail,
and that everything else stays as it was.
-/
namespace Xv6Arm
open Lib Mem

/-- The place is a node of table `t`. -/
def Place.NodeOf (t : ℕ) (c : Place) : Prop := c.IsNode ∧ c.table = some t

/-- `v'` is `v` with the nodes `N` of table `t` added, and possibly other entries in its nodes. -/
structure VmView.Ext (exact : Prop) (t : ℕ) (N : List Place) (v v' : VmView) : Prop where
  old : ∀ p, v.own p ≠ .outside → v'.own p = v.own p
  new : ∀ p, v.own p = .outside → v'.own p ≠ .outside → v'.own p ∈ N
  node : ∀ c ∈ N, c.NodeOf t ∧ (∃ p, v'.own p = c) ∧ ∀ p, v.own p ≠ c
  mem : ∀ p, v.own p ≠ .outside → ¬(v.own p).NodeOf t → v'.mem p = v.mem p
  free : exact → v'.free + N.length = v.free

namespace VmView.Ext
variable {exact : Prop} {t : ℕ} {N N' : List Place} {v v' v'' : VmView}

theorem refl (exact : Prop) (t : ℕ) (v : VmView) : Ext exact t [] v v :=
  ⟨fun _ _ => rfl, fun _ h h' => absurd h h', fun _ h => absurd h List.not_mem_nil, fun _ _ _ => rfl,
    fun _ => rfl⟩

theorem trans (h : Ext exact t N v v') (h' : Ext exact t N' v' v'') : Ext exact t (N ++ N') v v'' := by
  have hkeep : ∀ p, v.own p ≠ .outside → v''.own p = v.own p := by
    intro p hp
    rw [h'.old p (by rwa [h.old p hp]), h.old p hp]
  refine ⟨hkeep, ?_, ?_, ?_, ?_⟩
  · intro p hp hp''
    by_cases hp' : v'.own p = .outside
    · exact List.mem_append_right N (h'.new p hp' hp'')
    · rw [h'.old p hp']
      exact List.mem_append_left N' (h.new p hp hp')
  · intro c hc
    rcases List.mem_append.mp hc with hc | hc
    · obtain ⟨hn, ⟨p, hp⟩, habs⟩ := h.node c hc
      refine ⟨hn, ⟨p, ?_⟩, habs⟩
      rw [h'.old p, hp]
      rintro ho
      rw [ho] at hp
      rw [← hp] at hn
      exact hn.1
    · obtain ⟨hn, hp, habs⟩ := h'.node c hc
      refine ⟨hn, hp, ?_⟩
      rintro p rfl
      by_cases ho : v.own p = .outside
      · rw [ho] at hn
        exact hn.1
      · exact habs p (h.old p ho)
  · intro p hp hn
    rw [h'.mem p (by rwa [h.old p hp]) (by rwa [h.old p hp]), h.mem p hp hn]
  · intro he
    have h1 := h.free he
    have h2 := h'.free he
    rw [List.length_append]
    omega

end VmView.Ext

open Classical in
/-- The places of `l` that no page has. -/
noncomputable def missing (own : ℕ → Place) (l : List Place) : List Place :=
  l.filter fun c => decide (∀ p, own p ≠ c)

section Wp
variable {α : Type} {exact : Prop} {E : String → VmView → Prop} {v : VmView} {X : ℕ → ℕ → Prop}
  {p q t i va ap : ℕ} {c : Place}

/-! ## One request -/

theorem wp_load {f : ℕ → VmM α} {Q : α → VmView → Prop} (hI : v.Good) (hp : v.own p ≠ .outside)
    (h : (f (v.mem.entry p i)).wp (vmSpec exact) E Q v) :
    (load p i >>= f).wp (vmSpec exact) E Q v := ⟨hI, hp, h⟩

theorem wp_store {e : ℕ} {f : Unit → VmM α} {Q : α → VmView → Prop} (hI : v.Good)
    (hp : v.own p ≠ .outside) {o : ℕ → Place} (ho : Relabel v.own o)
    (h : (f ()).wp (vmSpec exact) E Q ⟨o, v.mem.put p i e, v.free⟩) :
    (store p i e >>= f).wp (vmSpec exact) E Q v := ⟨hI, hp, o, ho, h⟩

theorem wp_kfree {f : Unit → VmM α} {Q : α → VmView → Prop} (hI : v.Good) (hpage : IsPage p)
    (hp : v.own p ≠ .outside) (h : (f ()).wp (vmSpec exact) E Q (v.give p)) :
    (kfree p >>= f).wp (vmSpec exact) E Q v := ⟨hI, hpage, hp, h⟩

theorem wp_kalloc {f : Option ℕ → VmM α} {Q : α → VmView → Prop} (hI : v.Good)
    (hnone : (exact → v.free = 0) → (f none).wp (vmSpec exact) E Q v)
    (hsome : ∀ p, (exact → 0 < v.free) → IsPage p → v.own p = .outside →
      ∃ c, c ≠ .outside ∧ (f (some p)).wp (vmSpec exact) E Q (v.take p c)) :
    (kalloc >>= f).wp (vmSpec exact) E Q v := ⟨hI, hnone, hsome⟩

theorem wp_memset {b : UInt8} {f : Unit → VmM α} {Q : α → VmView → Prop} (hI : v.Good)
    (hp : v.own p ≠ .outside) (h : (f ()).wp (vmSpec exact) E Q (v.setPage p fun _ => b)) :
    (memset p b >>= f).wp (vmSpec exact) E Q v := ⟨hI, hp, h⟩

/-- Clearing a page that `kalloc` has just cleared. -/
theorem setPage_take (v : VmView) (p : ℕ) (c : Place) : (v.take p c).setPage p (fun _ => 0) = v.take p c := by
  simp [VmView.take, VmView.setPage]

/-! ## One level of `walk` -/

theorem wp_nextTable_read {clear : Bool} {Q : Option ℕ → VmView → Prop} (hI : v.Good)
    (hp : v.own p ≠ .outside) (h : Q (v.mem.next p i) v) :
    (nextTable p i false clear).wp (vmSpec exact) E Q v := by
  refine wp_load hI hp ?_
  rw [Mem.next] at h
  split at h <;> rename_i hf
  · rw [if_pos hf]
    exact h
  · rw [if_neg hf]
    exact h

/-- `v` with the fresh page `q` as the table that entry `i` of `p` points to. -/
def VmView.install (v : VmView) (q p i : ℕ) (c : Place) : VmView :=
  ⟨Function.update v.own q c, put (Function.update v.mem q fun _ => 0) p i (tableEntry q), v.free - 1⟩

theorem sound_install (h : v.Sound) (hq : v.own q = .outside) (hpage : IsPage q)
    (h0 : v.mem.entry p i = 0) (hl : Link (v.own p) i (tableEntry q) c q) : (v.install q p i c).Sound := by
  have hpq : p ≠ q := by
    rintro rfl
    rw [hq] at hl
    exact hl.isNode
  have htake := Owned.take h hq hpage (c := .loose) (.inl rfl)
  have := htake.link (c := c) (e := tableEntry q) (p := p) (i := i) (Function.update_self ..)
    (fun _ i => entry_zeroed v.mem q i) (by rw [entry_update_other hpq, h0]) (fun hf => hf)
    (tableEntry_lt hpage) (by rwa [Function.update_of_ne hpq])
  rwa [Function.update_idem] at this

theorem ext_install (hq : v.own q = .outside) (hn : (v.own p).NodeOf t) (hc : c.NodeOf t)
    (habs : ∀ p, v.own p ≠ c) (hfree : exact → 0 < v.free) : v.Ext exact t [c] (v.install q p i c) := by
  have hpq : p ≠ q := by
    rintro rfl
    rw [hq] at hn
    exact hn.1
  refine ⟨?_, ?_, ?_, ?_, ?_⟩
  · intro p' hp'
    have hne : p' ≠ q := by
      rintro rfl
      exact hp' hq
    exact Function.update_of_ne hne ..
  · intro p' hp' hnew
    by_cases he : p' = q
    · subst he
      simp [VmView.install]
    · refine absurd ?_ hnew
      rw [← hp']
      exact Function.update_of_ne he ..
  · intro c' hc'
    obtain rfl := List.mem_singleton.mp hc'
    exact ⟨hc, ⟨q, Function.update_self ..⟩, habs⟩
  · intro p' hp' hn'
    have hne : p' ≠ q := by
      rintro rfl
      exact hp' hq
    have hne' : p' ≠ p := by
      rintro rfl
      exact hn' hn
    change put _ p i _ p' = _
    rw [put, Function.update_of_ne hne', Function.update_of_ne hne]
  · intro he
    have := hfree he
    change v.free - 1 + 1 = v.free
    omega

/-- One level with allocation: the table at place `c` is there, cannot be had, or is new. -/
theorem wp_nextTable_alloc {clear : Bool} {Q : Option ℕ → VmView → Prop} (h : v.Sound)
    (hl : ∀ q, Link (v.own p) i (tableEntry q) c q)
    (hcase : (∃ q, v.own q = c ∧ v.mem.next p i = some q) ∨
      (v.mem.entry p i = 0 ∧ v.mem.next p i = none ∧ ∀ q, v.own q ≠ c))
    (hold : ∀ q, v.own q = c → Q (some q) v)
    (hnone : (∀ q, v.own q ≠ c) → (exact → v.free = 0) → Q none v)
    (hnew : ∀ q, v.own q = .outside → (∀ q, v.own q ≠ c) → (exact → 0 < v.free) →
      (v.install q p i c).Sound → Q (some q) (v.install q p i c)) :
    (nextTable p i true clear).wp (vmSpec exact) E Q v := by
  have hp : v.own p ≠ .outside := by
    intro ho
    have := hl 0
    rw [ho] at this
    exact this.isNode
  refine wp_load h.good hp ?_
  rcases hcase with ⟨q, hq, hnext⟩ | ⟨h0, -, habs⟩
  · rw [Mem.next] at hnext
    split at hnext <;> rename_i hf
    · rw [if_pos hf]
      cases hnext
      exact hold _ hq
    · cases hnext
  · rw [h0, if_neg (by decide), if_pos rfl]
    refine wp_kalloc h.good (hnone habs) ?_
    intro q hfree hpage hq
    refine ⟨.loose, by simp, ?_⟩
    have hgood := (h.take hq hpage (c := .loose) (.inl rfl)).good
    have hne : p ≠ q := by
      rintro rfl
      exact hp hq
    have hstore : (store p i (tableEntry q) >>= fun _ => (pure (some q) : VmM (Option ℕ))).wp (vmSpec exact) E Q
        (v.take q .loose) := by
      refine wp_store (o := Function.update v.own q c) hgood ?_ ?_ ?_
      · change Function.update v.own q _ p ≠ _
        rwa [Function.update_of_ne hne]
      · have hc : c ≠ .outside := by
          rintro rfl
          exact (hl q).isChild
        have hr : Relabel (Function.update v.own q .loose) (Function.update (Function.update v.own q .loose) q c) :=
          Relabel.update (by simp) hc
        rwa [Function.update_idem] at hr
      · exact hnew q hq habs hfree (sound_install h hq hpage h0 (hl q))
    cases clear with
    | false => exact hstore
    | true =>
      refine wp_memset hgood (by simp [VmView.take]) ?_
      rw [setPage_take]
      exact hstore

/-! ## `walk` -/

theorem wp_walk_read {Q : Option (ℕ × ℕ) → VmView → Prop} (h : v.Sound) (ht : v.own t = .pgd t)
    (hsome : ∀ p, v.own p = .pte t (pgdIdx va) (pmdIdx va) → Q (some (p, pteIdx va)) v)
    (hnone : (∀ p, v.own p ≠ .pte t (pgdIdx va) (pmdIdx va)) → Q none v) :
    (walk t va false).wp (vmSpec exact) E Q v := by
  rw [walk, Prog.bind_eq, Prog.wp_bind]
  refine wp_nextTable_read h.good (by rw [ht]; simp) ?_
  rcases Owned.next_pgd h ht (pgdIdx_lt va) (fun hf => hf) with ⟨p₁, hp₁, hn₁⟩ | ⟨-, hn₁, habs⟩
  · rw [hn₁]
    dsimp only
    rw [Prog.bind_eq, Prog.wp_bind]
    refine wp_nextTable_read h.good (by rw [hp₁]; simp) ?_
    rcases Owned.next_pmd h hp₁ (pmdIdx_lt va) (fun hf => hf) with ⟨p₂, hp₂, hn₂⟩ | ⟨-, hn₂, habs⟩
    · rw [hn₂]
      exact hsome p₂ hp₂
    · rw [hn₂]
      exact hnone habs
  · rw [hn₁]
    refine hnone ?_
    intro p hp
    obtain ⟨p₁, hp₁, -⟩ := Owned.up_pte h hp
    exact habs p₁ hp₁

/-- The nodes that `walk` has to add for `va`. -/
noncomputable def pathMissing (own : ℕ → Place) (t va : ℕ) : List Place :=
  missing own [.pmd t (pgdIdx va), .pte t (pgdIdx va) (pmdIdx va)]

theorem missing_of_present {own : ℕ → Place} {l : List Place} (h : own p = c) :
    missing own (c :: l) = missing own l := by
  classical
  rw [missing, List.filter_cons_of_neg]
  · rfl
  · simpa using ⟨p, h⟩

theorem missing_of_absent {own : ℕ → Place} {l : List Place} (h : ∀ p, own p ≠ c) :
    missing own (c :: l) = c :: missing own l := by
  classical
  rw [missing, List.filter_cons_of_pos]
  · rfl
  · simpa using h

theorem missing_nil (own : ℕ → Place) : missing own [] = [] := rfl

/-- `walk` with allocation: either all missing nodes are added, or memory runs out before. -/
theorem wp_walk_alloc {Q : Option (ℕ × ℕ) → VmView → Prop} (h : v.Sound) (ht : v.own t = .pgd t)
    (hsome : ∀ v' p, v.Ext exact t (pathMissing v.own t va) v' → v'.Sound →
      v'.own p = .pte t (pgdIdx va) (pmdIdx va) → Q (some (p, pteIdx va)) v')
    (hnone : ∀ v' N, v.Ext exact t N v' → N.length < (pathMissing v.own t va).length → v'.Sound →
      (exact → v'.free = 0) → Q none v') :
    (walk t va true).wp (vmSpec exact) E Q v := by
  -- the second level, from a view in which the first one is there
  have hsecond : ∀ v' N p₁, v.Ext exact t N v' → v'.Sound → v'.own p₁ = .pmd t (pgdIdx va) →
      pathMissing v.own t va = N ++ missing v'.own [.pte t (pgdIdx va) (pmdIdx va)] →
      (nextTable p₁ (pmdIdx va) true true).wp (vmSpec exact) E (fun r w => Q (r.map fun ptetb => (ptetb, pteIdx va)) w) v' := by
    intro v' N p₁ hext hs hp₁ hmiss
    refine wp_nextTable_alloc hs (fun q => ?_) (Owned.next_pmd hs hp₁ (pmdIdx_lt va) (fun hf => hf)) ?_ ?_ ?_
    · rw [hp₁]
      exact .pte (pmdIdx_lt va)
    · intro q hq
      rw [missing_of_present hq, missing_nil, List.append_nil] at hmiss
      exact hsome v' q (hmiss ▸ hext) hs hq
    · intro habs hfree
      rw [missing_of_absent habs, missing_nil] at hmiss
      exact hnone v' N hext (by rw [hmiss]; simp) hs hfree
    · intro q hq habs hfree hs'
      rw [missing_of_absent habs, missing_nil] at hmiss
      refine hsome _ q ?_ hs' (Function.update_self ..)
      rw [hmiss]
      exact hext.trans (ext_install hq (by rw [hp₁]; exact ⟨trivial, rfl⟩) ⟨trivial, rfl⟩ habs hfree)
  rw [walk, Prog.bind_eq, Prog.wp_bind]
  refine wp_nextTable_alloc h (fun q => ?_) (Owned.next_pgd h ht (pgdIdx_lt va) (fun hf => hf)) ?_ ?_ ?_
  · rw [ht]
    exact .pmd (pgdIdx_lt va)
  · intro q hq
    dsimp only
    rw [Prog.bind_eq, Prog.wp_bind]
    refine Prog.wp_mono (vmSpec_mono exact) (hsecond v [] q (.refl exact t v) h hq ?_) fun r w hw => ?_
    · rw [pathMissing, missing_of_present hq, List.nil_append]
    · cases r <;> exact hw
  · intro habs hfree
    refine hnone v [] (.refl exact t v) ?_ h hfree
    rw [pathMissing, missing_of_absent habs]
    simp
  · intro q hq habs hfree hs
    have hext := ext_install (i := pgdIdx va) hq (show (v.own t).NodeOf t by rw [ht]; exact ⟨trivial, rfl⟩)
      (c := .pmd t (pgdIdx va)) ⟨trivial, rfl⟩ habs hfree
    dsimp only
    rw [Prog.bind_eq, Prog.wp_bind]
    refine Prog.wp_mono (vmSpec_mono exact) (hsecond _ _ q hext hs (Function.update_self ..) ?_) fun r w hw => ?_
    swap
    · cases r <;> exact hw
    -- the new first-level node says nothing about the second level
    have hno : ∀ p, v.own p ≠ .pte t (pgdIdx va) (pmdIdx va) := by
      intro p hp
      obtain ⟨p₁, hp₁, -⟩ := Owned.up_pte h hp
      exact habs p₁ hp₁
    have hno' : ∀ p, (v.install q t (pgdIdx va) (.pmd t (pgdIdx va))).own p ≠
        .pte t (pgdIdx va) (pmdIdx va) := by
      intro p
      by_cases hp : p = q
      · subst hp
        simp [VmView.install]
      · change Function.update v.own q _ p ≠ _
        rw [Function.update_of_ne hp]
        exact hno p
    rw [pathMissing, missing_of_absent habs, missing_of_absent hno, missing_of_absent hno']
    rfl

/-! ## `mappages` -/

/-- Another place for one page. -/
def VmView.label (v : VmView) (q : ℕ) (c : Place) : VmView := { v with own := Function.update v.own q c }

/-- A growing table does not get new user pages. -/
theorem VmView.Ext.user_old {v' : VmView} {N : List Place} (h : v.Ext exact t N v') {t' n : ℕ}
    (hq : v'.own q = .user t' n ap) : v.own q = .user t' n ap := by
  by_cases ho : v.own q = .outside
  · have hnew := h.new q ho (by rw [hq]; simp)
    rw [hq] at hnew
    exact (h.node _ hnew).1.1.elim
  · rw [← h.old q ho, hq]

theorem VmView.Ext.map_leaf {v' : VmView} {N : List Place} (h : v.Ext exact t N v') (hq : v.own q = .loose)
    (hp : (v'.own p).NodeOf t) {e : ℕ} (hc : ¬c.IsNode) :
    (v.label q c).Ext exact t N ⟨Function.update v'.own q c, v'.mem.put p i e, v'.free⟩ := by
  have hq' : v'.own q = .loose := by rw [h.old q (by rw [hq]; simp), hq]
  have hpq : p ≠ q := by
    rintro rfl
    rw [hq'] at hp
    exact hp.1
  have hout : ∀ p', p' ≠ q → (v.label q c).own p' = v.own p' := fun p' hne => Function.update_of_ne hne ..
  refine ⟨?_, ?_, ?_, ?_, h.free⟩
  · intro p' hp'
    by_cases he : p' = q
    · subst he
      simp [VmView.label]
    · rw [hout p' he] at hp' ⊢
      change Function.update v'.own q c p' = _
      rw [Function.update_of_ne he, h.old p' hp']
  · intro p' hp' hnew
    change Function.update v'.own q c p' ≠ _ at hnew
    change Function.update v'.own q c p' ∈ N
    by_cases he : p' = q
    · subst he
      change Function.update v.own p' c p' = _ at hp'
      rw [Function.update_self] at hp' hnew
      exact absurd hp' hnew
    · rw [hout p' he] at hp'
      rw [Function.update_of_ne he] at hnew ⊢
      exact h.new p' hp' hnew
  · intro c' hc'
    obtain ⟨hn, ⟨p', hp'⟩, habs⟩ := h.node c' hc'
    refine ⟨hn, ⟨p', ?_⟩, ?_⟩
    · have hne : p' ≠ q := by
        rintro rfl
        rw [hq'] at hp'
        rw [← hp'] at hn
        exact hn.1
      change Function.update v'.own q c p' = c'
      rw [Function.update_of_ne hne, hp']
    · intro p'' hp''
      by_cases he : p'' = q
      · subst he
        change Function.update v.own p'' c p'' = c' at hp''
        rw [Function.update_self] at hp''
        rw [← hp''] at hn
        exact hc hn.1
      · rw [hout p'' he] at hp''
        exact habs p'' hp''
  · intro p' hp' hn
    change put v'.mem p i e p' = v.mem p'
    by_cases he : p' = q
    · subst he
      rw [put, Function.update_of_ne hpq.symm, h.mem p' (by rw [hq]; simp) (by rw [hq]; exact fun hf => hf.1)]
    · rw [hout p' he] at hp' hn
      have hne : p' ≠ p := by
        rintro rfl
        rw [h.old p' hp'] at hp
        exact hn hp
      rw [put, Function.update_of_ne hne, h.mem p' hp' hn]

/-- `mappages` of one page: `q` is mapped, or memory runs out, or the page was mapped before. -/
theorem wp_mapPage {Q : Bool → VmView → Prop} (h : v.Sound) (ht : v.own t = .pgd t)
    (hq : v.own q = .loose) (ha : IsAp ap)
    (hremap : ∀ q' ap' v', v.own q' = .user t (vpn va) ap' → E "remap" v')
    (hok : ∀ v', (v.label q (.user t (vpn va) ap)).Ext exact t (pathMissing v.own t va) v' →
      v'.Sound → Q true v')
    (hfail : ∀ v' N, v.Ext exact t N v' → N.length < (pathMissing v.own t va).length → v'.Sound →
      (exact → v'.free = 0) → Q false v') :
    (mapPage t va q ap).wp (vmSpec exact) E Q v := by
  rw [mapPage, Prog.bind_eq, Prog.wp_bind]
  refine wp_walk_alloc h ht ?_ hfail
  intro v' p hext hs hp
  refine wp_load hs.good (by rw [hp]; simp) ?_
  rcases Owned.entry_pte hs hp (pteIdx_lt va) (fun hf => hf) with ⟨q', ap', hq', ha', he⟩ | ⟨h0, -⟩
  · rw [vpn_of_idx] at hq'
    rw [he, if_pos (leafEntry_flags (Owned.isPage_of hs hq' (by simp)) ha')]
    exact hremap q' ap' v' (hext.user_old hq')
  · rw [h0, if_neg (by decide)]
    have hq' : v'.own q = .loose := by rw [hext.old q (by rw [hq]; simp), hq]
    have hpage := Owned.isPage_of hs hq' (by simp)
    have hlink : Link (v'.own p) (pteIdx va) (leafEntry q ap) (.user t (vpn va) ap) q := by
      rw [hp, ← vpn_of_idx]
      exact .user (pmdIdx_lt va) (pteIdx_lt va) ha
    refine wp_store hs.good (by rw [hp]; simp)
      (Relabel.update (q := q) (c := .user t (vpn va) ap) (by rw [hq']; simp) (by simp)) ?_
    refine hok _ (hext.map_leaf hq (by rw [hp]; exact ⟨trivial, rfl⟩) (fun hf => hf)) ?_
    exact Owned.link hs hq' (fun hf => hf.elim) h0 (fun hf => hf) (leafEntry_lt hpage ha) hlink

theorem mappages_page (t q ap : ℕ) (hva : va % PGSIZE = 0) : mappages t va PGSIZE q ap = mapPage t va q ap := by
  change va % 4096 = 0 at hva
  have h1 : pgRoundDown va = va := by
    change va / 4096 * 4096 = va
    omega
  have h2 : (pgRoundDown ((va + PGSIZE + (2 ^ 64 - 1)) % 2 ^ 64) + 2 ^ 64 - va % 2 ^ 64) % 2 ^ 64 / PGSIZE = 0 := by
    change ((va + 4096 + (2 ^ 64 - 1)) % 2 ^ 64 / 4096 * 4096 + 2 ^ 64 - va % 2 ^ 64) % 2 ^ 64 / 4096 = 0
    omega
  rw [mappages, h1, h2]
  rfl

end Wp
end Xv6Arm

import Xv6Arm.Vm.Table

/-!
# Taking a page table apart

`uvmunmap` frees a page while an entry still points to it, so its intermediate views
have stale entries; when it is done there are none.
-/
namespace Xv6Arm
open Lib Mem

theorem Link.table_eq {pl c : Place} {i e q : ℕ} (h : Link pl i e c q) : pl.table = c.table := by
  cases h <;> rfl

/-- `v'` is `v` without the pages of table `t` whose page number is in `S`. -/
structure VmView.Unmaps (t : ℕ) (S : ℕ → Prop) (v v' : VmView) : Prop where
  gone : ∀ p n ap, v.own p = .user t n ap → S n → v'.own p = .outside
  kept : ∀ p, (∀ n ap, v.own p = .user t n ap → ¬S n) → v'.own p = v.own p
  mem : ∀ p, v'.own p ≠ .outside → ¬(v.own p).NodeOf t → v'.mem p = v.mem p

theorem VmView.Unmaps.none {t : ℕ} {S : ℕ → Prop} {v : VmView} (h : ∀ n, ¬S n) : v.Unmaps t S v :=
  ⟨fun _ n _ _ hS => absurd hS (h n), fun _ _ => rfl, fun _ _ _ => rfl⟩

theorem VmView.Unmaps.trans {t : ℕ} {S S' S'' : ℕ → Prop} {v v' v'' : VmView} (h : v.Unmaps t S v')
    (h' : v'.Unmaps t S' v'') (hS : ∀ n, S'' n ↔ S n ∨ S' n) : v.Unmaps t S'' v'' := by
  have hkept : ∀ p, (∀ n ap, v.own p = .user t n ap → ¬S'' n) →
      v'.own p = v.own p ∧ v''.own p = v'.own p := by
    intro p hp
    have h1 := h.kept p fun n ap hn hs => hp n ap hn ((hS n).mpr (.inl hs))
    refine ⟨h1, h'.kept p fun n ap hn hs => ?_⟩
    rw [h1] at hn
    exact hp n ap hn ((hS n).mpr (.inr hs))
  have hgone : ∀ p, v'.own p = .outside → v''.own p = .outside := by
    intro p hp
    rw [h'.kept p (by intro n ap hn; rw [hp] at hn; cases hn), hp]
  refine ⟨?_, ?_, ?_⟩
  · intro p n ap hn hs
    by_cases h1 : S n
    · exact hgone p (h.gone p n ap hn h1)
    · have hp : v'.own p = v.own p := by
        apply h.kept
        intro n' ap' hn' hs'
        rw [hn] at hn'
        cases hn'
        exact h1 hs'
      exact h'.gone p n ap (by rw [hp, hn]) (((hS n).mp hs).resolve_left h1)
  · intro p hp
    rw [(hkept p hp).2, (hkept p hp).1]
  · intro p hp hn
    have h1 : v'.own p ≠ .outside := fun ho => hp (hgone p ho)
    have h2 : v'.own p = v.own p := by
      by_contra hne
      apply h1
      by_cases hex : ∃ n ap, v.own p = .user t n ap ∧ S n
      · obtain ⟨n, ap, hu, hs⟩ := hex
        exact h.gone p n ap hu hs
      · push Not at hex
        exact absurd (h.kept p fun n ap hu hs => hex n ap hu hs) hne
    rw [h'.mem p hp (by rwa [h2]), h.mem p h1 hn]

section Wp
variable {α : Type} {exact : Prop} {E : String → VmView → Prop} {v : VmView} {p q t n k ap : ℕ}

/-! ## `uvmunmap` -/

/-- The view after a user page has been freed and before its entry is cleared. -/
theorem good_give_user (h : v.Sound) (hq : v.own q = .user t n ap) : (v.give q).Good := by
  refine ⟨_, t, Owned.drop (q := q) h (by rw [hq]; trivial) ?_, ?_⟩
  · intro i q' _ hl
    rw [hq] at hl
    exact hl.isNode
  · rintro p i (hf | hl) hnode
    · exact hf.elim
    · have htable := hl.table_eq
      rw [hq] at htable
      have hpq : p ≠ q := by
        rintro rfl
        rw [hq] at hl
        exact hl.isNode
      change (Function.update v.own q _ p).table = _
      rw [Function.update_of_ne hpq]
      exact htable

/-- Freeing a user page and clearing its entry. -/
theorem sound_unmap (h : v.Sound) (hq : v.own q = .user t n ap)
    (hp : v.own p = .pte t (n / 2 ^ 18) (n / 512 % 512)) :
    VmView.Sound ⟨Function.update v.own q .outside, v.mem.put p (n % 512) 0, v.free + 1⟩ := by
  have hn : n < 2 ^ 20 := (Owned.up_user h hq).1
  have ha := (Owned.up_user h hq).2.1
  -- the entry that points to the page is entry `n % 512` of `p`
  have hslot : ∀ p' i', Link (v.own p') i' (v.mem.entry p' i') (v.own q) q ↔ p' = p ∧ i' = n % 512 := by
    obtain ⟨p₁, hp₁, -, he₁⟩ := (Owned.up_user h hq).2.2
    obtain rfl := Owned.inj h p₁ p (by rw [hp₁, hp]) (by rw [hp₁]; trivial)
    have hl : Link (v.own p₁) (n % 512) (v.mem.entry p₁ (n % 512)) (v.own q) q := by
      rw [hp, hq, he₁]
      have := Link.user (t := t) (i := n / 2 ^ 18) (j := n / 512 % 512) (k := n % 512) (q := q)
        (Nat.mod_lt _ (by norm_num)) (Nat.mod_lt _ (by norm_num)) ha
      rwa [show n / 2 ^ 18 * 2 ^ 18 + n / 512 % 512 * 512 + n % 512 = n by omega] at this
    intro p' i'
    refine ⟨fun hl' => ?_, ?_⟩
    · obtain ⟨hpl, hi⟩ := hl.parent_eq hl'
      exact ⟨Owned.inj h p' p₁ hpl hl'.isNode, hi⟩
    · rintro ⟨rfl, rfl⟩
      exact hl
  have hdrop := Owned.drop (q := q) h (by rw [hq]; trivial) (by
    intro i q' _ hl
    rw [hq] at hl
    exact hl.isNode)
  refine hdrop.clear (p := p) (i := n % 512) (.inr ((hslot p _).mpr ⟨rfl, rfl⟩)) ?_
  intro p' i'
  simp [hslot]

theorem unmaps_one (h : v.Sound) (hq : v.own q = .user t n ap)
    (hp : v.own p = .pte t (n / 2 ^ 18) (n / 512 % 512)) :
    v.Unmaps t (· = n) ⟨Function.update v.own q .outside, v.mem.put p (n % 512) 0, v.free + 1⟩ := by
  refine ⟨?_, ?_, ?_⟩
  · rintro p' n' ap' hp' rfl
    -- one page for each page number
    have hn : vpn (n' * 4096) = n' := by
      rw [vpn, Nat.mul_div_cancel _ (by norm_num), Nat.mod_eq_of_lt (Owned.up_user h hq).1]
    have ha := (Owned.leaf_of_user h (hn.symm ▸ hq)).1
    have ha' := (Owned.leaf_of_user h (hn.symm ▸ hp')).1
    have hpages : p' = q := by
      rw [← leafEntry_page (Owned.isPage_of h hp' (by simp)) (Owned.up_user h hp').2.1, ← ha', ha,
        leafEntry_page (Owned.isPage_of h hq (by simp)) (Owned.up_user h hq).2.1]
    subst hpages
    exact Function.update_self ..
  · intro p' hp'
    have hne : p' ≠ q := by
      rintro rfl
      exact hp' n ap hq rfl
    exact Function.update_of_ne hne ..
  · intro p' _ hn
    have hne : p' ≠ p := by
      rintro rfl
      rw [hp] at hn
      exact hn ⟨trivial, rfl⟩
    change put v.mem p _ 0 p' = _
    rw [put, Function.update_of_ne hne]

/-- The loop of `uvmunmap` over pages that are all mapped. -/
theorem wp_uvmunmapFrom {Q : Unit → VmView → Prop} (h : v.Sound) (hlt : n + k ≤ 2 ^ 20)
    (hmap : ∀ j, n ≤ j → j < n + k → ∃ q ap, v.own q = .user t j ap)
    (hQ : ∀ v', v'.Sound → v.Unmaps t (fun j => n ≤ j ∧ j < n + k) v' → Q () v') :
    (uvmunmapFrom t true (n * PGSIZE) k).wp (vmSpec exact) E Q v := by
  induction k generalizing n v with
  | zero => exact hQ v h (.none fun j => by omega)
  | succ k ih =>
    obtain ⟨q, ap, hq⟩ := hmap n le_rfl (by omega)
    obtain ⟨-, ha, p, hp, -, he⟩ := Owned.up_user h hq
    obtain ⟨p₂, hp₂, -⟩ := Owned.up_pte h hp
    obtain ⟨ht, -⟩ := Owned.up_pmd h hp₂
    have hpage := Owned.isPage_of h hq (by simp)
    have hvpn : vpn (n * PGSIZE) = n := by
      rw [vpn, Nat.mul_div_cancel _ (by norm_num), Nat.mod_eq_of_lt (by omega)]
    rw [uvmunmapFrom, Prog.bind_eq, Prog.wp_bind]
    refine wp_walk_read h ht ?_ ?_
    · intro p' hp'
      rw [pgdIdx_eq, pmdIdx_eq, hvpn] at hp'
      obtain rfl := Owned.inj h p' p (by rw [hp, hp']) (by rw [hp']; trivial)
      rw [pteIdx_eq, hvpn]
      refine wp_load h.good (by rw [hp]; simp) ?_
      rw [he, if_neg (leafEntry_valid hpage ha), if_neg (leafEntry_isPage hpage ha), if_pos rfl,
        leafEntry_page hpage ha]
      refine wp_kfree h.good hpage (by rw [hq]; simp) ?_
      have hpq : p' ≠ q := by
        rintro rfl
        rw [hq] at hp
        cases hp
      refine wp_store (o := Function.update v.own q .outside) (good_give_user h hq) ?_ (.refl _) ?_
      · change Function.update v.own q _ p' ≠ _
        rw [Function.update_of_ne hpq, hp]
        simp
      · have hs := sound_unmap h hq hp
        have hun := unmaps_one h hq hp
        have hnext : n * PGSIZE + PGSIZE = (n + 1) * PGSIZE := by ring
        rw [hnext]
        refine ih hs (by omega) ?_ ?_
        · intro j hj hjk
          obtain ⟨q', ap', hq'⟩ := hmap j (by omega) (by omega)
          refine ⟨q', ap', ?_⟩
          rw [hun.kept q', hq']
          rintro n' ap'' hn rfl
          rw [hq'] at hn
          cases hn
          omega
        · intro v' hs' hun'
          refine hQ v' hs' (hun.trans hun' ?_)
          intro j
          omega
    · intro hno
      exact absurd hp (by rw [← hvpn, ← pgdIdx_eq, ← pmdIdx_eq]; exact hno p)

end Wp
end Xv6Arm

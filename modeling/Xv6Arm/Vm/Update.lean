import Xv6Arm.Vm.Owner

/-!
# Changing places

What a store to a table or a change of hands of a page does to the assignment of
places. Each step of `kalloc.c` and `vm.c` is one of these: a page is taken, hung
into an empty entry, dropped while its entry still points to it, or an entry is
cleared.
-/
namespace Xv6Arm
open Lib

/-- Store a 64-bit entry. -/
def Mem.put (m : Mem) (p i e : ℕ) : Mem := Function.update m p (lePut (m p) (8 * i) 8 e)

namespace Mem
variable {m : Mem} {own : ℕ → Place} {X : ℕ → ℕ → Prop} {p q t i e : ℕ} {c : Place}

theorem entry_put_self (m : Mem) (p i : ℕ) (he : e < 2 ^ 64) : (m.put p i e).entry p i = e := by
  rw [entry, put, Function.update_self, leGet_lePut_of_lt (by simpa using he)]

theorem entry_put_other {p' i' : ℕ} (h : p' ≠ p ∨ i' ≠ i) : (m.put p i e).entry p' i' = m.entry p' i' := by
  by_cases hp : p' = p
  · subst hp
    have hi : i' ≠ i := h.resolve_left fun hn => hn rfl
    rw [entry, entry, put, Function.update_self, leGet_lePut_disjoint (by omega)]
  · rw [entry, entry, put, Function.update_of_ne hp]

theorem entry_update_other {f : Bytes} {p' : ℕ} (h : p' ≠ p) (i : ℕ) :
    entry (Function.update m p f) p' i = m.entry p' i := by
  rw [entry, entry, Function.update_of_ne h]

theorem entry_zeroed (m : Mem) (p i : ℕ) : entry (Function.update m p fun _ => 0) p i = 0 := by
  simp [entry, leGet]

end Mem

/-! ## Runs of single requests -/

theorem run_store (s : Vm) (p i e : ℕ) :
    (store p i e).run vmStep s = .done () { s with mem := s.mem.put p i e } := rfl

theorem run_load_bind {α : Type} (s : Vm) (p i : ℕ) (f : ℕ → VmM α) :
    ((load p i).bind f).run vmStep s = (f (s.mem.entry p i)).run vmStep s := rfl

theorem run_kfree {s : Vm} {p : ℕ} (hp : p % PGSIZE = 0) :
    (kfree p).run vmStep s = .done () ⟨p :: s.freelist, Function.update s.mem p s.freedPage⟩ := by
  have h : vmStep (.kfree p) s = .done () ⟨p :: s.freelist, Function.update s.mem p s.freedPage⟩ := by
    change s.kfree p = _
    rw [Vm.kfree, if_neg (not_not.mpr hp)]
    rfl
  exact Prog.run_call_done vmStep h

/-! ## Places -/

theorem Place.Slot.isNode {c : Place} {i : ℕ} (h : c.Slot i) : c.IsNode := by
  cases c <;> trivial

theorem Link.isChild {pl c : Place} {i e q : ℕ} (h : Link pl i e c q) : c.IsChild := by
  cases h <;> trivial

/-- A place below a node has one entry that may point to it. -/
theorem Link.parent_eq {pl pl' c : Place} {n n' e e' q q' : ℕ} (h : Link pl n e c q)
    (h' : Link pl' n' e' c q') : pl' = pl ∧ n' = n := by
  generalize hc : c = c' at h'
  cases h with
  | pmd hi =>
    cases h' <;> cases hc
    exact ⟨rfl, rfl⟩
  | pte hj =>
    cases h' <;> cases hc
    exact ⟨rfl, rfl⟩
  | @user t i j _ _ ap hj hk ha =>
    cases h' with
    | pmd => cases hc
    | pte => cases hc
    | @user t' i' j' _ _ ap' hj' hk' ha' =>
      injection hc with ht hn hap
      obtain ⟨h1, h2, h3⟩ := vpn_parts (i := i) hj hk
      obtain ⟨h1', h2', h3'⟩ := vpn_parts (i := i') hj' hk'
      rw [hn] at h1 h2 h3
      have e1 : i' = i := h1'.symm.trans h1
      have e2 : j' = j := h2'.symm.trans h2
      rw [ht, e1, e2]
      exact ⟨rfl, h3'.symm.trans h3⟩

/-- An entry points to one page. -/
theorem Link.target_eq {pl c c' : Place} {n e q q' : ℕ} (h : Link pl n e c q) (hq : IsPage q)
    (h' : Link pl n e c' q') (hq' : IsPage q') : q = q' := by
  generalize he : e = e' at h'
  cases h with
  | pmd hi =>
    cases h'
    rw [← tableEntry_page hq, he, tableEntry_page hq']
  | pte hj =>
    cases h'
    rw [← tableEntry_page hq, he, tableEntry_page hq']
  | user hj hk ha =>
    cases h' with
    | user hj' hk' ha' => rw [← leafEntry_page hq ha, he, leafEntry_page hq' ha']

namespace Mem.Owned
variable {m : Mem} {own : ℕ → Place} {X : ℕ → ℕ → Prop} {p q t i e : ℕ} {c : Place}

/-- Take a page that nobody is in charge of. -/
theorem take (h : m.Owned own X) (hp : own p = .outside) (hpage : IsPage p)
    (hc : c = .loose ∨ c = .argv ∨ c = .pgd p) :
    Owned (Function.update m p fun _ => 0) (Function.update own p c) X := by
  have hchild : ¬c.IsChild := by
    rcases hc with rfl | rfl | rfl <;> exact fun hf => hf
  have hlink : ∀ {p' i' q'}, Link (own p') i' (m.entry p' i') (own q') q' →
      Link (Function.update own p c p') i' (entry (Function.update m p fun _ => 0) p' i')
        (Function.update own p c q') q' := by
    intro p' i' q' hl
    have hp' : p' ≠ p := by
      rintro rfl
      rw [hp] at hl
      exact hl.isNode
    have hq' : q' ≠ p := by
      rintro rfl
      rw [hp] at hl
      exact hl.isChild
    rwa [Function.update_of_ne hp', Function.update_of_ne hq', entry_update_other hp']
  refine ⟨?_, ?_, ?_, ?_, ?_⟩
  · intro p' hp'
    by_cases he : p' = p
    · exact he ▸ hpage
    · rw [Function.update_of_ne he] at hp'
      exact h.page p' hp'
  · intro p' t' hp'
    by_cases he : p' = p
    · subst he
      rw [Function.update_self] at hp'
      rcases hc with rfl | rfl | rfl <;> cases hp'
      rfl
    · rw [Function.update_of_ne he] at hp'
      exact h.root p' t' hp'
  · intro p' q' hpq hn
    by_cases hp' : p' = p <;> by_cases hq' : q' = p
    · rw [hp', hq']
    · subst hp'
      rw [Function.update_self, Function.update_of_ne hq'] at hpq
      rw [Function.update_self] at hn
      rcases hc with rfl | rfl | rfl
      · exact hn.elim
      · exact hn.elim
      · exact (h.root q' p' hpq.symm).symm
    · subst hq'
      rw [Function.update_of_ne hp', Function.update_self] at hpq
      rw [Function.update_of_ne hp', hpq] at hn
      rcases hc with rfl | rfl | rfl
      · exact hn.elim
      · exact hn.elim
      · exact h.root p' q' hpq
    · rw [Function.update_of_ne hp', Function.update_of_ne hq'] at hpq
      rw [Function.update_of_ne hp'] at hn
      exact h.inj p' q' hpq hn
  · intro p' i' hs hX
    by_cases he : p' = p
    · subst he
      exact .inl (entry_zeroed m p' i')
    · rw [Function.update_of_ne he] at hs
      rcases h.down p' i' hs hX with h0 | ⟨q', hl⟩
      · exact .inl (by rw [entry_update_other he, h0])
      · exact .inr ⟨q', hlink hl⟩
  · intro q' hq'
    by_cases he : q' = p
    · subst he
      rw [Function.update_self] at hq'
      exact absurd hq' hchild
    · rw [Function.update_of_ne he] at hq'
      obtain ⟨p', i', hX, hl⟩ := h.up q' hq'
      exact ⟨p', i', hX, hlink hl⟩

/-- Hang a loose page into an empty entry. A page that becomes a table has to be clear. -/
theorem link (h : m.Owned own X) (hq : own q = .loose) (hzero : c.IsNode → ∀ i, m.entry q i = 0)
    (h0 : m.entry p i = 0) (hX : ¬X p i) (he : e < 2 ^ 64) (hl : Link (own p) i e c q) :
    Owned (m.put p i e) (Function.update own q c) X := by
  have hpq : p ≠ q := by
    rintro rfl
    rw [hq] at hl
    exact hl.isNode
  -- no page had the place before: the entry for it is empty
  have hfree : ∀ q', own q' ≠ c := by
    rintro q' rfl
    obtain ⟨p', i', -, hl'⟩ := h.up q' hl.isChild
    obtain ⟨hpl, rfl⟩ := hl.parent_eq hl'
    obtain rfl := h.inj p' p hpl hl'.isNode
    rw [h0] at hl'
    exact entry_ne_zero hl' (h.page q' (by intro ho; rw [ho] at hl'; exact hl'.isChild)) rfl
  have hkeep : ∀ {p' i' q'}, Link (own p') i' (m.entry p' i') (own q') q' →
      Link (Function.update own q c p') i' ((m.put p i e).entry p' i') (Function.update own q c q') q' := by
    intro p' i' q' hl'
    have hp' : p' ≠ q := by
      rintro rfl
      rw [hq] at hl'
      exact hl'.isNode
    have hq' : q' ≠ q := by
      rintro rfl
      rw [hq] at hl'
      exact hl'.isChild
    have hne : p' ≠ p ∨ i' ≠ i := by
      by_contra hcon
      push Not at hcon
      obtain ⟨rfl, rfl⟩ := hcon
      rw [h0] at hl'
      exact entry_ne_zero hl' (h.page q' (by intro ho; rw [ho] at hl'; exact hl'.isChild)) rfl
    rwa [Function.update_of_ne hp', Function.update_of_ne hq', entry_put_other hne]
  have hnew : Link (Function.update own q c p) i ((m.put p i e).entry p i) (Function.update own q c q) q := by
    rwa [Function.update_of_ne hpq, Function.update_self, entry_put_self m p i he]
  refine ⟨?_, ?_, ?_, ?_, ?_⟩
  · intro p' hp'
    by_cases heq : p' = q
    · exact heq ▸ h.page q (by rw [hq]; simp)
    · rw [Function.update_of_ne heq] at hp'
      exact h.page p' hp'
  · intro p' t' hp'
    by_cases heq : p' = q
    · subst heq
      rw [Function.update_self] at hp'
      have := hl.isChild
      rw [hp'] at this
      exact this.elim
    · rw [Function.update_of_ne heq] at hp'
      exact h.root p' t' hp'
  · intro p' q' hpq' hn
    by_cases hp' : p' = q <;> by_cases hq' : q' = q
    · rw [hp', hq']
    · subst hp'
      rw [Function.update_self, Function.update_of_ne hq'] at hpq'
      exact absurd hpq'.symm (hfree q')
    · subst hq'
      rw [Function.update_of_ne hp', Function.update_self] at hpq'
      exact absurd hpq' (hfree p')
    · rw [Function.update_of_ne hp', Function.update_of_ne hq'] at hpq'
      rw [Function.update_of_ne hp'] at hn
      exact h.inj p' q' hpq' hn
  · intro p' i' hs hX'
    by_cases heq : p' = q
    · subst heq
      rw [Function.update_self] at hs
      exact .inl (by rw [entry_put_other (.inl hpq.symm), hzero hs.isNode])
    · rw [Function.update_of_ne heq] at hs
      by_cases hslot : p' = p ∧ i' = i
      · obtain ⟨rfl, rfl⟩ := hslot
        exact .inr ⟨q, hnew⟩
      · rcases h.down p' i' hs hX' with h0' | ⟨q', hl'⟩
        · refine .inl ?_
          rw [entry_put_other (not_and_or.mp hslot), h0']
        · exact .inr ⟨q', hkeep hl'⟩
  · intro q' hq'
    by_cases heq : q' = q
    · subst heq
      exact ⟨p, i, hX, hnew⟩
    · rw [Function.update_of_ne heq] at hq'
      obtain ⟨p', i', hX', hl'⟩ := h.up q' hq'
      exact ⟨p', i', hX', hkeep hl'⟩

/-- Give up a page that is in no table. -/
theorem release (h : m.Owned own X) (hn : ¬(own q).IsNode) (hc : ¬(own q).IsChild) :
    m.Owned (Function.update own q .outside) X := by
  have hlink : ∀ {p' i' q'}, Link (own p') i' (m.entry p' i') (own q') q' →
      Link (Function.update own q .outside p') i' (m.entry p' i') (Function.update own q .outside q') q' := by
    intro p' i' q' hl
    have hp' : p' ≠ q := by
      rintro rfl
      exact hn hl.isNode
    have hq' : q' ≠ q := by
      rintro rfl
      exact hc hl.isChild
    rwa [Function.update_of_ne hp', Function.update_of_ne hq']
  have hout : ∀ p', Function.update own q .outside p' ≠ .outside → p' ≠ q := by
    rintro p' hp' rfl
    exact hp' (Function.update_self ..)
  have hne : ∀ p', Function.update own q .outside p' ≠ .outside →
      Function.update own q .outside p' = own p' := fun p' hp' => Function.update_of_ne (hout p' hp') ..
  refine ⟨?_, ?_, ?_, ?_, ?_⟩
  · intro p' hp'
    rw [hne p' hp'] at hp'
    exact h.page p' hp'
  · intro p' t' hp'
    rw [hne p' (by rw [hp']; simp)] at hp'
    exact h.root p' t' hp'
  · intro p' q' hpq hnode
    have hp' : Function.update own q .outside p' ≠ .outside := by
      intro ho
      rw [ho] at hnode
      exact hnode
    rw [hne p' hp'] at hpq hnode
    rw [hne q' (by rw [← hpq]; rwa [hne p' hp'] at hp')] at hpq
    exact h.inj p' q' hpq hnode
  · intro p' i' hs hX
    have hp' : Function.update own q .outside p' ≠ .outside := by
      intro ho
      rw [ho] at hs
      exact hs
    have hs' := hs
    rw [hne p' hp'] at hs'
    rcases h.down p' i' hs' hX with h0 | ⟨q', hl⟩
    · exact .inl h0
    · exact .inr ⟨q', hlink hl⟩
  · intro q' hq'
    have hp' : Function.update own q .outside q' ≠ .outside := by
      intro ho
      rw [ho] at hq'
      exact hq'
    rw [hne q' hp'] at hq'
    obtain ⟨p', i', hX, hl⟩ := h.up q' hq'
    exact ⟨p', i', hX, hlink hl⟩

/-- One page for each place below a node. -/
theorem inj_child (h : m.Owned own X) {q' : ℕ} (hqq : own q' = own q) (hc : (own q).IsChild) : q' = q := by
  obtain ⟨p, i, -, hl⟩ := h.up q hc
  obtain ⟨p', i', -, hl'⟩ := h.up q' (hqq ▸ hc)
  rw [hqq] at hl'
  obtain ⟨hpl, rfl⟩ := hl.parent_eq hl'
  obtain rfl := h.inj p' p hpl hl'.isNode
  have hout : own q ≠ .outside := by
    intro ho
    rw [ho] at hc
    exact hc
  exact hl'.target_eq (h.page q' (by rwa [hqq])) hl (h.page q hout)

open Classical in
/-- Give up all pages at places in `D`. The entries that point to them become stale; what is below
a page that is given up has to be given up too. -/
theorem without (h : m.Owned own X) {D : Place → Prop}
    (hD : ∀ p i q, ¬X p i → Link (own p) i (m.entry p i) (own q) q → D (own p) → D (own q)) :
    m.Owned (fun p => if D (own p) then .outside else own p)
      (fun p i => X p i ∨ ∃ q, D (own q) ∧ Link (own p) i (m.entry p i) (own q) q) := by
  have hkeep : ∀ {p}, ¬D (own p) → (if D (own p) then .outside else own p) = own p := fun hd => if_neg hd
  have hgone : ∀ {p}, D (own p) → (if D (own p) then .outside else own p) = Place.outside :=
    fun hd => if_pos hd
  refine ⟨?_, ?_, ?_, ?_, ?_⟩
  · intro p hp
    by_cases hd : D (own p)
    · exact absurd (hgone hd) hp
    · exact h.page p (by rwa [hkeep hd] at hp)
  · intro p t hp
    by_cases hd : D (own p)
    · rw [hgone hd] at hp
      cases hp
    · exact h.root p t (by rwa [hkeep hd] at hp)
  · intro p q hpq hn
    by_cases hd : D (own p)
    · rw [hgone hd] at hn
      exact hn.elim
    · rw [hkeep hd] at hpq hn
      by_cases hd' : D (own q)
      · rw [hgone hd'] at hpq
        rw [hpq] at hn
        exact hn.elim
      · rw [hkeep hd'] at hpq
        exact h.inj p q hpq hn
  · intro p i hs hX
    by_cases hd : D (own p)
    · rw [hgone hd] at hs
      exact hs.elim
    · rw [hkeep hd] at hs ⊢
      rcases h.down p i hs fun hx => hX (.inl hx) with h0 | ⟨q, hl⟩
      · exact .inl h0
      · refine .inr ⟨q, ?_⟩
        rwa [hkeep fun hd' => hX (.inr ⟨q, hd', hl⟩)]
  · intro q hq
    by_cases hd : D (own q)
    · rw [hgone hd] at hq
      exact hq.elim
    · rw [hkeep hd] at hq ⊢
      obtain ⟨p, i, hX, hl⟩ := h.up q hq
      have hp : ¬D (own p) := fun hd' => hd (hD p i q hX hl hd')
      refine ⟨p, i, ?_, by rwa [hkeep hp]⟩
      rintro (hx | ⟨q', hd', hl'⟩)
      · exact hX hx
      · -- one entry cannot point to two pages
        have hpage := h.page q (by intro ho; rw [ho] at hq; exact hq)
        have hpage' := h.page q' (by intro ho; rw [ho] at hl'; exact hl'.isChild)
        obtain rfl := hl.target_eq hpage hl' hpage'
        exact hd hd'

/-- Give up one page that has no pages below it. -/
theorem drop (h : m.Owned own X) (hc : (own q).IsChild)
    (hbelow : ∀ i q', ¬X q i → ¬Link (own q) i (m.entry q i) (own q') q') :
    m.Owned (Function.update own q .outside)
      (fun p i => X p i ∨ Link (own p) i (m.entry p i) (own q) q) := by
  have hw := h.without (D := (· = own q)) (by
    rintro p i q' hX hl hp
    obtain rfl := h.inj p q hp hl.isNode
    exact absurd hl (hbelow i q' hX))
  convert hw using 1
  · funext p
    by_cases hp : p = q
    · simp [hp]
    · rw [Function.update_of_ne hp, if_neg fun he => hp (h.inj_child he hc)]
  · funext p i
    refine propext (or_congr_right ⟨fun hl => ⟨q, rfl, hl⟩, ?_⟩)
    rintro ⟨q', he, hl⟩
    obtain rfl := h.inj_child he hc
    exact hl

/-- Clear a stale entry. -/
theorem clear (h : m.Owned own X) (hX : X p i) {Y : ℕ → ℕ → Prop}
    (hY : ∀ p' i', Y p' i' ↔ X p' i' ∧ ¬(p' = p ∧ i' = i)) : (m.put p i 0).Owned own Y := by
  refine ⟨h.page, h.root, h.inj, ?_, ?_⟩
  · intro p' i' hs hYp
    by_cases hslot : p' = p ∧ i' = i
    · obtain ⟨rfl, rfl⟩ := hslot
      exact .inl (entry_put_self m _ _ (by norm_num))
    · have hX' : ¬X p' i' := fun hx => hYp ((hY p' i').mpr ⟨hx, hslot⟩)
      rw [entry_put_other (not_and_or.mp hslot)]
      exact h.down p' i' hs hX'
  · intro q' hq'
    obtain ⟨p', i', hX', hl⟩ := h.up q' hq'
    have hne : p' ≠ p ∨ i' ≠ i := by
      by_contra hcon
      push Not at hcon
      obtain ⟨rfl, rfl⟩ := hcon
      exact hX' hX
    refine ⟨p', i', fun hy => hX' ((hY p' i').mp hy).1, ?_⟩
    rwa [entry_put_other hne]

end Mem.Owned
end Xv6Arm

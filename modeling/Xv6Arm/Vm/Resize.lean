import Xv6Arm.Vm.Unmap
import Xv6Arm.Vm.UserCopy

/-!
# Growing and shrinking an address space

`uvmalloc` and `uvmdealloc`. The pages of an address space are those below a page
number. Growing adds zero pages above; if memory runs out on the way, the pages
added so far are taken away again and only empty tables remain. There are fewer
than `2 ^ 15` pages of physical memory, so a page number never wraps.
-/
namespace Xv6Arm
open Lib Mem

/-- The pages of table `t` are those below page number `N`. -/
structure VmView.Space (v : VmView) (t N : ℕ) : Prop where
  sound : v.Sound
  root : v.own t = .pgd t
  pages : ∀ n, (∃ q ap, v.own q = .user t n ap) ↔ n < N

/-- From `v` to `v'`, nothing changes but table `t`: what was owned still is, and what is new belongs to it. -/
structure VmView.Keeps (t : ℕ) (v v' : VmView) : Prop where
  old : ∀ p, v.own p ≠ .outside → v'.own p = v.own p
  new : ∀ p, v.own p = .outside → v'.own p ≠ .outside → (v'.own p).table = some t
  mem : ∀ p, v.own p ≠ .outside → ¬(v.own p).NodeOf t → v'.mem p = v.mem p

/-- Table `t` has grown from `N` to `N'` pages, the new ones open to the user and zero. -/
structure VmView.Grown (t N N' : ℕ) (v v' : VmView) : Prop where
  space : v'.Space t N'
  keeps : v.Keeps t v'
  fresh : ∀ q n ap, v'.own q = .user t n ap → N ≤ n → ap = AP_1 ∧ v'.mem q = fun _ => 0

namespace VmView
variable {exact : Prop} {v v' v'' : VmView} {t N M n q : ℕ} {L : List Place} {S : ℕ → Prop}

/-! ## How many pages there can be -/

theorem page_mem_range {q : ℕ} (h : IsPage q) :
    q ∈ (Finset.range (2 ^ 15)).image fun k => PHYSTART + 4096 * k := by
  have h1 := h.aligned
  have h2 := h.start_le
  have h3 := h.lt_stop
  unfold PGSIZE at h1
  unfold PHYSTOP at h3
  unfold PHYSTART at *
  refine Finset.mem_image.mpr ⟨(q - 0x40000000) / 4096, Finset.mem_range.mpr ?_, ?_⟩ <;> omega

/-- The pages of an address space and its root are different pages of memory. -/
theorem Space.lt (h : v.Space t N) : N < 2 ^ 15 := by
  classical
  have hex : ∀ n, ∃ q, n < N → ∃ ap, v.own q = .user t n ap := by
    intro n
    by_cases hn : n < N
    · obtain ⟨q, ap, hq⟩ := (h.pages n).mpr hn
      exact ⟨q, fun _ => ⟨ap, hq⟩⟩
    · exact ⟨0, fun hn' => absurd hn' hn⟩
  choose f hf using hex
  have hinj : Set.InjOn f (Finset.range N) := by
    intro n hn m hm he
    obtain ⟨ap, ha⟩ := hf n (Finset.mem_range.mp hn)
    obtain ⟨ap', ha'⟩ := hf m (Finset.mem_range.mp hm)
    rw [he, ha'] at ha
    injection ha with _ hnm
    exact hnm.symm
  have hnot : t ∉ (Finset.range N).image f := by
    intro ht
    obtain ⟨n, hn, rfl⟩ := Finset.mem_image.mp ht
    obtain ⟨ap, ha⟩ := hf n (Finset.mem_range.mp hn)
    rw [h.root] at ha
    cases ha
  have hsub : insert t ((Finset.range N).image f) ⊆
      (Finset.range (2 ^ 15)).image fun k => PHYSTART + 4096 * k := by
    intro q hq
    apply page_mem_range
    rcases Finset.mem_insert.mp hq with rfl | hq
    · exact h.sound.page q (by rw [h.root]; simp)
    · obtain ⟨n, hn, rfl⟩ := Finset.mem_image.mp hq
      obtain ⟨ap, ha⟩ := hf n (Finset.mem_range.mp hn)
      exact h.sound.page _ (by rw [ha]; simp)
  have hcard := Finset.card_le_card hsub
  rw [Finset.card_insert_of_notMem hnot, Finset.card_image_of_injOn hinj, Finset.card_range] at hcard
  have := hcard.trans Finset.card_image_le
  rw [Finset.card_range] at this
  omega

theorem Space.vpn_eq (h : v.Space t n) : vpn (n * PGSIZE) = n := by
  have := h.lt
  rw [vpn, Nat.mul_div_cancel _ (by norm_num), Nat.mod_eq_of_lt (by omega)]

/-! ## What is kept -/

theorem Keeps.refl (t : ℕ) (v : VmView) : v.Keeps t v :=
  ⟨fun _ _ => rfl, fun _ h h' => absurd h h', fun _ _ _ => rfl⟩

theorem Keeps.trans (h : v.Keeps t v') (h' : v'.Keeps t v'') : v.Keeps t v'' := by
  have hold : ∀ p, v.own p ≠ .outside → v'.own p ≠ .outside := fun p hp => by rwa [h.old p hp]
  refine ⟨?_, ?_, ?_⟩
  · intro p hp
    rw [h'.old p (hold p hp), h.old p hp]
  · intro p hp hp''
    by_cases hp' : v'.own p = .outside
    · exact h'.new p hp' hp''
    · rw [h'.old p hp']
      exact h.new p hp hp'
  · intro p hp hn
    rw [h'.mem p (hold p hp) (by rwa [h.old p hp]), h.mem p hp hn]

theorem Ext.keeps (h : v.Ext exact t L v') : v.Keeps t v' :=
  ⟨h.old, fun p hp hp' => (h.node _ (h.new p hp hp')).1.2, h.mem⟩

/-- A fresh page for table `t`. -/
theorem keeps_take (hq : v.own q = .outside) {c : Place} (hc : c.table = some t) : v.Keeps t (v.take q c) := by
  have hne : ∀ p, v.own p ≠ .outside → p ≠ q := by
    rintro p hp rfl
    exact hp hq
  refine ⟨?_, ?_, ?_⟩
  · intro p hp
    exact Function.update_of_ne (hne p hp) ..
  · intro p hp hp'
    change Function.update v.own q c p ≠ _ at hp'
    change (Function.update v.own q c p).table = _
    by_cases he : p = q
    · rw [he, Function.update_self, hc]
    · rw [Function.update_of_ne he] at hp'
      exact absurd hp hp'
  · intro p hp _
    exact Function.update_of_ne (hne p hp) ..

/-- A page that was obtained and given back. -/
theorem Ext.keeps_give (hq : v.own q = .outside) (h : (v.take q .loose).Ext exact t L v') :
    v.Keeps t (v'.give q) := by
  have htake : ∀ p, p ≠ q → (v.take q .loose).own p = v.own p := fun p hp => Function.update_of_ne hp ..
  have hgive : ∀ p, p ≠ q → (v'.give q).own p = v'.own p := fun p hp => Function.update_of_ne hp ..
  have hne : ∀ p, v.own p ≠ .outside → p ≠ q := by
    rintro p hp rfl
    exact hp hq
  refine ⟨?_, ?_, ?_⟩
  · intro p hp
    rw [hgive p (hne p hp), h.old p (by rwa [htake p (hne p hp)]), htake p (hne p hp)]
  · intro p hp hp'
    have hpq : p ≠ q := by
      rintro rfl
      exact hp' (Function.update_self ..)
    rw [hgive p hpq] at hp' ⊢
    exact (h.node _ (h.new p (by rwa [htake p hpq]) hp')).1.2
  · intro p hp hn
    change v'.mem p = _
    rw [h.mem p (by rwa [htake p (hne p hp)]) (by rwa [htake p (hne p hp)])]
    exact Function.update_of_ne (hne p hp) ..

/-! ## How the pages change -/

/-- One more page. -/
theorem Space.next (h : v.Space t n) (hq : v.own q = .outside) {ap : ℕ}
    (he : (v.take q (.user t n ap)).Ext exact t L v') (hs : v'.Sound) : v'.Space t (n + 1) := by
  have htake : ∀ p, p ≠ q → (v.take q (.user t n ap)).own p = v.own p := fun p hp => Function.update_of_ne hp ..
  have hself : (v.take q (.user t n ap)).own q = .user t n ap := Function.update_self ..
  have hold : ∀ p, v.own p ≠ .outside → v'.own p = v.own p := by
    intro p hp
    have hpq : p ≠ q := by
      rintro rfl
      exact hp hq
    rw [he.old p (by rwa [htake p hpq]), htake p hpq]
  refine ⟨hs, by rw [hold t (by rw [h.root]; simp), h.root], fun m => ⟨?_, fun hm => ?_⟩⟩
  · rintro ⟨p, ap', hp⟩
    have hp' := he.user_old hp
    by_cases hpq : p = q
    · rw [hpq, hself] at hp'
      injection hp' with _ hm
      omega
    · rw [htake p hpq] at hp'
      have := (h.pages m).mp ⟨p, ap', hp'⟩
      omega
  · rcases Nat.lt_or_eq_of_le (Nat.lt_succ_iff.mp hm) with hlt | rfl
    · obtain ⟨p, ap', hp⟩ := (h.pages m).mpr hlt
      exact ⟨p, ap', by rw [hold p (by rw [hp]; simp), hp]⟩
    · exact ⟨q, ap, by rw [he.old q (by rw [hself]; simp), hself]⟩

/-- A view that keeps everything and has no new page of `t`. -/
theorem Space.keep (h : v.Space t N) (hk : v.Keeps t v') (hs : v'.Sound)
    (hnew : ∀ p n ap, v.own p = .outside → v'.own p ≠ .user t n ap) : v'.Space t N := by
  refine ⟨hs, by rw [hk.old t (by rw [h.root]; simp), h.root], fun n => Iff.trans ?_ (h.pages n)⟩
  constructor
  · rintro ⟨p, ap, hp⟩
    have ho : v.own p ≠ .outside := fun ho => hnew p n ap ho hp
    exact ⟨p, ap, by rw [← hk.old p ho, hp]⟩
  · rintro ⟨p, ap, hp⟩
    exact ⟨p, ap, by rw [hk.old p (by rw [hp]; simp), hp]⟩

theorem Unmaps.own_eq (h : v.Unmaps t S v') (p : ℕ) (hp : v'.own p ≠ .outside) : v'.own p = v.own p := by
  apply h.kept
  intro n ap hn hs
  exact hp (h.gone p n ap hn hs)

theorem Space.unmaps (h : v.Space t N) (hM : M ≤ N) (hu : v.Unmaps t (fun j => M ≤ j ∧ j < N) v')
    (hs : v'.Sound) : v'.Space t M := by
  have hroot : v'.own t = .pgd t := by
    rw [hu.kept t (by intro n ap hn; rw [h.root] at hn; cases hn), h.root]
  refine ⟨hs, hroot, fun n => ⟨?_, fun hn => ?_⟩⟩
  · rintro ⟨p, ap, hp⟩
    have hp' := hu.own_eq p (by rw [hp]; simp)
    rw [hp] at hp'
    have hlt := (h.pages n).mp ⟨p, ap, hp'.symm⟩
    by_contra hge
    have := hu.gone p n ap hp'.symm ⟨by omega, hlt⟩
    rw [hp] at this
    cases this
  · obtain ⟨p, ap, hp⟩ := (h.pages n).mpr (by omega)
    refine ⟨p, ap, ?_⟩
    rw [hu.kept p, hp]
    intro n' ap' hn' hS
    rw [hp] at hn'
    cases hn'
    omega

/-- Growing and then unmapping what is new. -/
theorem Keeps.unmaps (hk : v.Keeps t v') (h : v.Space t N) (hu : v'.Unmaps t (fun j => N ≤ j ∧ j < M) v'') :
    v.Keeps t v'' := by
  have hkept : ∀ p, v.own p ≠ .outside → v''.own p = v'.own p := by
    intro p hp
    apply hu.kept
    intro n ap hn hS
    rw [hk.old p hp] at hn
    have := (h.pages n).mp ⟨p, ap, hn⟩
    omega
  refine ⟨?_, ?_, ?_⟩
  · intro p hp
    rw [hkept p hp, hk.old p hp]
  · intro p hp hp''
    have he := hu.own_eq p hp''
    rw [he] at hp'' ⊢
    exact hk.new p hp hp''
  · intro p hp hn
    rw [hu.mem p (by rwa [hkept p hp, hk.old p hp]) (by rwa [hk.old p hp]), hk.mem p hp hn]

theorem Grown.refl (h : v.Space t N) : v.Grown t N N v := by
  refine ⟨h, .refl t v, fun q n ap hq hn => ?_⟩
  have := (h.pages n).mp ⟨q, ap, hq⟩
  omega

theorem Grown.next {v₀ : VmView} (h : v₀.Grown t N n v) (hq : v.own q = .outside)
    (he : (v.take q (.user t n AP_1)).Ext exact t L v') (hs : v'.Sound) : v₀.Grown t N (n + 1) v' := by
  have hself : (v.take q (.user t n AP_1)).own q = .user t n AP_1 := Function.update_self ..
  refine ⟨h.space.next hq he hs, h.keeps.trans ((keeps_take hq rfl).trans he.keeps), fun p m ap hp hm => ?_⟩
  have hp' := he.user_old hp
  have hmem : v'.mem p = (v.take q (.user t n AP_1)).mem p := by
    apply he.mem p (by rw [hp']; simp)
    rw [hp']
    exact fun hf => hf.1
  by_cases hpq : p = q
  · subst hpq
    rw [hself] at hp'
    cases hp'
    exact ⟨rfl, hmem.trans (Function.update_self ..)⟩
  · change Function.update v.own q _ p = _ at hp'
    rw [Function.update_of_ne hpq] at hp'
    obtain ⟨ha, hz⟩ := h.fresh p m ap hp' hm
    exact ⟨ha, hmem.trans ((Function.update_of_ne hpq ..).trans hz)⟩

end VmView

/-! ## `uvmdealloc` and `uvmalloc` -/

section Wp
variable {exact : Prop} {E : String → VmView → Prop} {v v₀ : VmView} {t N n k oldsz newsz : ℕ}

theorem wp_uvmdealloc {Q : ℕ → VmView → Prop} (h : v.Space t N) (hN : (oldsz + 4095) / 4096 = N)
    (hsame : oldsz ≤ newsz → Q oldsz v)
    (hless : newsz < oldsz → ∀ v', v'.Space t ((newsz + 4095) / 4096) →
      v.Unmaps t (fun j => (newsz + 4095) / 4096 ≤ j ∧ j < N) v' → Q newsz v') :
    (uvmdealloc t oldsz newsz).wp (vmSpec exact) E Q v := by
  have hlt := h.lt
  rw [uvmdealloc]
  split
  · exact hsame ‹_›
  · rename_i hno
    have hround : ∀ x ≤ oldsz, pgRoundUp x = (x + 4095) / 4096 * PGSIZE := by
      intro x hx
      change (x + 4095) % 2 ^ 64 / 4096 * 4096 = (x + 4095) / 4096 * 4096
      rw [Nat.mod_eq_of_lt (by omega)]
    rw [hround _ le_rfl, hround newsz (by omega), hN]
    have hM : (newsz + 4095) / 4096 ≤ N := by omega
    split
    · rename_i hmore
      have hmod : (newsz + 4095) / 4096 * PGSIZE % PGSIZE = 0 := Nat.mul_mod_left _ _
      have hcount : (N * PGSIZE - (newsz + 4095) / 4096 * PGSIZE) / PGSIZE = N - (newsz + 4095) / 4096 := by
        rw [← Nat.sub_mul, Nat.mul_div_cancel _ (by norm_num)]
      rw [Prog.bind_eq, Prog.wp_bind, uvmunmap, if_neg (by rw [hmod]; simp), hcount]
      refine wp_uvmunmapFrom h.sound (by omega) ?_ ?_
      · intro j _ hj
        exact (h.pages j).mpr (by omega)
      · intro v' hs hu
        rw [Nat.add_sub_cancel' hM] at hu
        exact hless (by omega) v' (h.unmaps hM hu hs) hu
    · rename_i hnone
      have hMN : (newsz + 4095) / 4096 = N := by
        change ¬_ * 4096 < _ * 4096 at hnone
        omega
      refine hless (by omega) v (by rwa [hMN]) ?_
      rw [hMN]
      exact .none fun j => by omega

/-- Giving up a growth that started in `v₀`: the pages that were added are unmapped. -/
theorem wp_uvmalloc_undo {Q : ℕ → VmView → Prop} (h₀ : v₀.Space t N) (h : v.Space t n) (hk : v₀.Keeps t v)
    (hn : N ≤ n) (hfail : ∀ v', v'.Space t N → v₀.Keeps t v' → Q 0 v') :
    (uvmdealloc t (n * PGSIZE) (N * PGSIZE) >>= fun _ => (pure 0 : VmM ℕ)).wp (vmSpec exact) E Q v := by
  have hpages : ∀ x, (x * PGSIZE + 4095) / 4096 = x := by
    intro x
    change (x * 4096 + 4095) / 4096 = x
    omega
  rw [Prog.bind_eq, Prog.wp_bind]
  refine wp_uvmdealloc h (hpages n) ?_ ?_
  · intro hle
    obtain rfl : n = N := by
      change n * 4096 ≤ N * 4096 at hle
      omega
    exact hfail v h hk
  · intro _ v' h' hu
    rw [hpages] at h' hu
    exact hfail v' h' (hk.unmaps h₀ hu)

/-- The loop of `uvmalloc`, which started in `v₀` with `N` pages. -/
theorem wp_uvmallocFrom {Q : ℕ → VmView → Prop} (h₀ : v₀.Space t N) (hg : v₀.Grown t N n v) (hn : N ≤ n)
    (hok : ∀ v', v₀.Grown t N (n + k) v' → Q newsz v')
    (hfail : ∀ v', v'.Space t N → v₀.Keeps t v' → Q 0 v') :
    (uvmallocFrom t (N * PGSIZE) newsz (n * PGSIZE) k).wp (vmSpec exact) E Q v := by
  induction k generalizing n v with
  | zero => exact hok v hg
  | succ k ih =>
    have hsound := hg.space.sound
    rw [uvmallocFrom]
    refine wp_kalloc hsound.good (fun _ => wp_uvmalloc_undo h₀ hg.space hg.keeps hn hfail) ?_
    intro q _ hpage hq
    refine ⟨.loose, by simp, ?_⟩
    have hloose : (v.take q .loose).own q = .loose := Function.update_self ..
    have hs := hsound.take hq hpage (c := .loose) (.inl rfl)
    refine wp_memset hs.good (by rw [hloose]; simp) ?_
    rw [setPage_take, mappages_page t q AP_1 (Nat.mul_mod_left _ _), Prog.bind_eq, Prog.wp_bind]
    have htq : t ≠ q := by
      rintro rfl
      rw [hg.space.root] at hq
      cases hq
    have hroot : (v.take q .loose).own t = .pgd t := by
      rw [← hg.space.root]
      exact Function.update_of_ne htq ..
    refine wp_mapPage hs hroot hloose (.inr (.inl rfl)) ?_ ?_ ?_
    · -- page number `n` is not mapped yet
      intro q' ap' v' hq'
      rw [hg.space.vpn_eq] at hq'
      have hne : q' ≠ q := by
        rintro rfl
        rw [hloose] at hq'
        cases hq'
      change Function.update v.own q _ q' = _ at hq'
      rw [Function.update_of_ne hne] at hq'
      exact absurd ((hg.space.pages n).mp ⟨q', ap', hq'⟩) (lt_irrefl n)
    · intro v' he hs'
      rw [hg.space.vpn_eq, show (v.take q .loose).label q (.user t n AP_1) = v.take q (.user t n AP_1) by
        simp [VmView.label, VmView.take]] at he
      have hnext : n * PGSIZE + PGSIZE = (n + 1) * PGSIZE := by ring
      rw [if_pos rfl, hnext]
      refine ih (hg.next hq he hs') (by omega) fun v'' hv'' => hok v'' ?_
      rwa [show n + 1 + k = n + (k + 1) by omega] at hv''
    · intro v' L he _ hs' _
      have hq' : v'.own q = .loose := by rw [he.old q (by rw [hloose]; simp), hloose]
      rw [if_neg (by simp)]
      refine wp_kfree hs'.good hpage (by rw [hq']; simp) ?_
      have hk : v.Keeps t (v'.give q) := he.keeps_give hq
      refine wp_uvmalloc_undo h₀ (hg.space.keep hk ?_ ?_) (hg.keeps.trans hk) hn hfail
      · exact Mem.Owned.release hs' (by rw [hq']; exact fun hf => hf) (by rw [hq']; exact fun hf => hf)
      · intro p m ap hp hp'
        have hpq : p ≠ q := by
          rintro rfl
          rw [show (v'.give p).own p = .outside from Function.update_self ..] at hp'
          cases hp'
        change Function.update v'.own q _ p = _ at hp'
        rw [Function.update_of_ne hpq] at hp'
        have hold := he.user_old hp'
        change Function.update v.own q _ p = _ at hold
        rw [Function.update_of_ne hpq, hp] at hold
        cases hold

theorem wp_uvmalloc {Q : ℕ → VmView → Prop} (h : v.Space t N) (hN : (oldsz + 4095) / 4096 = N)
    (hless : newsz < oldsz → Q oldsz v)
    (hok : oldsz ≤ newsz → ∀ v', v.Grown t N ((newsz + 4095) / 4096) v' → Q newsz v')
    (hfail : oldsz ≤ newsz → ∀ v', v'.Space t N → v.Keeps t v' → Q 0 v') :
    (uvmalloc t oldsz newsz).wp (vmSpec exact) E Q v := by
  have hlt := h.lt
  rw [uvmalloc]
  split
  · exact hless ‹_›
  · rename_i hle
    have hround : pgRoundUp oldsz = N * PGSIZE := by
      change (oldsz + 4095) % 2 ^ 64 / 4096 * 4096 = N * 4096
      rw [Nat.mod_eq_of_lt (by omega), hN]
    have hcount : N + (newsz - N * PGSIZE + (PGSIZE - 1)) / PGSIZE = (newsz + 4095) / 4096 := by
      change N + (newsz - N * 4096 + 4095) / 4096 = _
      omega
    dsimp only
    rw [hround]
    refine wp_uvmallocFrom h (.refl h) le_rfl ?_ (hfail (by omega))
    rw [hcount]
    exact hok (by omega)

end Wp

/-! ## What the process sees -/

/-- The view of state `s` in which the pages have the places `own`. -/
def Vm.view (s : Vm) (own : ℕ → Place) : VmView := ⟨own, s.mem, s.freelist.length⟩

section User
variable {v : VmView} {s : Vm} {own : ℕ → Place} {t N sz q ap x : ℕ}

theorem Mem.AddressSpace.space (h : s.mem.AddressSpace own t sz) : (s.view own).Space t ((sz + 4095) / 4096) :=
  ⟨h.owned, h.root, h.mapped⟩

/-- Places only speak of the pages that have one. -/
theorem Mem.Owned.congr {m m' : Mem} {X : ℕ → ℕ → Prop} (h : m.Owned own X)
    (hm : ∀ p, own p ≠ .outside → m' p = m p) : m'.Owned own X := by
  have hentry : ∀ p i, (own p).IsNode → m'.entry p i = m.entry p i := by
    intro p i hn
    rw [Mem.entry, Mem.entry, hm p]
    intro ho
    rw [ho] at hn
    exact hn
  refine ⟨h.page, h.root, h.inj, ?_, ?_⟩
  · intro p i hs hX
    rw [hentry p i hs.isNode]
    exact h.down p i hs hX
  · intro q hq
    obtain ⟨p, i, hX, hl⟩ := h.up q hq
    exact ⟨p, i, hX, by rwa [hentry p i hl.isNode]⟩

theorem VmView.Space.owned (h : v.Space t N) (ha : v.Abstracts s) : s.mem.Owned v.own fun _ _ => False :=
  Mem.Owned.congr h.sound fun p hp => ha.mem p hp

/-- The byte of a page that is there. -/
theorem VmView.Space.user_eq (h : v.Space t N) (ha : v.Abstracts s) (hq : v.own q = .user t (vpn x) ap) :
    s.user t x = some (v.mem q (x % 4096)) := by
  have hne := (h.sound.page q (by rw [hq]; simp)).pos
  rw [Vm.user, userByte, (h.owned ha).addr_of_user hq, if_neg hne, ha.mem q (by rw [hq]; simp)]

theorem VmView.Space.user_none (h : v.Space t N) (ha : v.Abstracts s) (hx : N ≤ vpn x) : s.user t x = none := by
  have haddr : s.mem.addr t x = 0 := by
    refine (h.owned ha).addr_of_none h.root fun q ap hq => ?_
    have := (h.pages (vpn x)).mp ⟨q, ap, hq⟩
    omega
  rw [Vm.user, if_pos haddr]

theorem VmView.Space.user_eq_none_iff (h : v.Space t N) (ha : v.Abstracts s) : s.user t x = none ↔ N ≤ vpn x := by
  constructor
  · intro hnone
    by_contra hin
    obtain ⟨q, ap, ho⟩ := (h.pages _).mpr (Nat.lt_of_not_le hin)
    rw [h.user_eq ha ho] at hnone
    cases hnone
  · exact h.user_none ha

variable {v' : VmView} {s' : Vm} {N' : ℕ}

/-- A page of the process that keeps its place and its contents. -/
theorem VmView.Space.user_same (h : v.Space t N) (h' : v'.Space t N') (ha : v.Abstracts s) (ha' : v'.Abstracts s')
    (hx : vpn x < N) (hq : ∀ q ap, v.own q = .user t (vpn x) ap → v'.own q = .user t (vpn x) ap ∧ v'.mem q = v.mem q) :
    s'.user t x = s.user t x := by
  obtain ⟨q, ap, ho⟩ := (h.pages _).mpr hx
  obtain ⟨ho', hm⟩ := hq q ap ho
  rw [h.user_eq ha ho, h'.user_eq ha' ho', hm]

theorem VmView.Keeps.user_same (hk : v.Keeps t v') (h : v.Space t N) (h' : v'.Space t N') (ha : v.Abstracts s)
    (ha' : v'.Abstracts s') (hx : vpn x < N) : s'.user t x = s.user t x := by
  refine h.user_same h' ha ha' hx fun q ap ho => ⟨?_, ?_⟩
  · rw [hk.old q (by rw [ho]; simp), ho]
  · exact hk.mem q (by rw [ho]; simp) (by rw [ho]; exact fun hf => hf.1)

theorem VmView.Unmaps.user_same {S : ℕ → Prop} (hu : v.Unmaps t S v') (h : v.Space t N) (h' : v'.Space t N')
    (ha : v.Abstracts s) (ha' : v'.Abstracts s') (hx : vpn x < N) (hS : ¬S (vpn x)) : s'.user t x = s.user t x := by
  refine h.user_same h' ha ha' hx fun q ap ho => ?_
  have ho' : v'.own q = .user t (vpn x) ap := by
    rw [hu.kept q, ho]
    rintro n ap' hn
    rw [ho] at hn
    cases hn
    exact hS
  exact ⟨ho', hu.mem q (by rw [ho']; simp) (by rw [ho]; exact fun hf => hf.1)⟩

/-- The new pages read as zero. -/
theorem VmView.Grown.user_zero (h : v.Grown t N N' v') (ha : v'.Abstracts s') (hN : N ≤ vpn x) (hx : vpn x < N') :
    s'.user t x = some 0 := by
  obtain ⟨q, ap, ho⟩ := (h.space.pages _).mpr hx
  rw [h.space.user_eq ha ho, (h.fresh q _ ap ho hN).2]

end User
end Xv6Arm

import Xv6Arm.Vm.Update

/-!
# What one kernel thread knows about memory

A thread is in charge of some pages: it knows what they are for and what is in
them, and nobody else touches them. Of the free pages it knows at most how many
there are. The specification of the requests is in these terms, so it holds in
any interleaving with other threads, and it covers a `kalloc` that fails at any
point; where the thread runs alone, `exact` ties failure to an empty free list.
-/
namespace Xv6Arm
open Lib

/-- The page table a place belongs to. -/
def Place.table : Place → Option ℕ
  | .pgd t | .pmd t _ | .pte t _ _ | .user t _ _ => some t
  | _ => none

/-- The pages a thread is in charge of, their contents, and the number of free pages. -/
structure VmView where
  own : ℕ → Place
  mem : Mem
  free : ℕ

namespace VmView

def take (v : VmView) (p : ℕ) (c : Place) : VmView :=
  ⟨Function.update v.own p c, Function.update v.mem p fun _ => 0, v.free - 1⟩

def give (v : VmView) (p : ℕ) : VmView := ⟨Function.update v.own p .outside, v.mem, v.free + 1⟩

def setPage (v : VmView) (p : ℕ) (f : Bytes) : VmView := { v with mem := Function.update v.mem p f }

/-- Stale entries occur in the nodes of one page table only. -/
def StaleIn (own : ℕ → Place) (X : ℕ → ℕ → Prop) (t : ℕ) : Prop :=
  ∀ p i, X p i → (own p).IsNode → (own p).table = some t

/-- The places describe the memory, apart from stale entries of a table that is being unmapped. -/
def Good (v : VmView) : Prop := ∃ X t, v.mem.Owned v.own X ∧ StaleIn v.own X t

/-- The places describe the memory, and no entry is stale. -/
def Sound (v : VmView) : Prop := v.mem.Owned v.own fun _ _ => False

theorem Sound.good {v : VmView} (h : v.Sound) : v.Good := ⟨_, 0, h, fun _ _ hf => hf.elim⟩

theorem Sound.take {v : VmView} (h : v.Sound) {p : ℕ} (hp : v.own p = .outside) (hpage : IsPage p)
    {c : Place} (hc : c = .loose ∨ c = .argv ∨ c = .pgd p) : (v.take p c).Sound :=
  Mem.Owned.take h hp hpage hc

end VmView

/-- Other places for the same pages. -/
def Relabel (own own' : ℕ → Place) : Prop := ∀ p, own' p = .outside ↔ own p = .outside

theorem Relabel.refl (own : ℕ → Place) : Relabel own own := fun _ => Iff.rfl

theorem Relabel.update {own : ℕ → Place} {q : ℕ} {c : Place} (hq : own q ≠ .outside) (hc : c ≠ .outside) :
    Relabel own (Function.update own q c) := by
  intro p
  by_cases h : p = q
  · subst h
    simp [hq, hc]
  · rw [Function.update_of_ne h]

/-- The requests of a thread on its own pages. -/
def vmSpec (exact : Prop) : OpSpec vmSig VmView := fun o K v =>
  v.Good ∧
  match o, K with
  | .kalloc, K => ((exact → v.free = 0) → K none v) ∧
      ∀ p, (exact → 0 < v.free) → IsPage p → v.own p = .outside → ∃ c, c ≠ .outside ∧ K (some p) (v.take p c)
  | .kfree p, K => IsPage p ∧ v.own p ≠ .outside ∧ K () (v.give p)
  | .load p i, K => v.own p ≠ .outside ∧ K (v.mem.entry p i) v
  | .store p i e, K => v.own p ≠ .outside ∧ ∃ own', Relabel v.own own' ∧ K () ⟨own', v.mem.put p i e, v.free⟩
  | .memset p c, K => v.own p ≠ .outside ∧ K () (v.setPage p fun _ => c)
  | .writePage p off l, K => v.own p ≠ .outside ∧ K () (v.setPage p (putBytes (v.mem p) off l))
  | .readUser _ p off n, K => v.own p ≠ .outside ∧ K (getBytes (v.mem p) off n) v
  | .writeUser _ p off l, K => v.own p ≠ .outside ∧ K () (v.setPage p (putBytes (v.mem p) off l))

theorem vmSpec_mono (exact : Prop) : (vmSpec exact).Mono := by
  rintro o K L v h ⟨hI, hK⟩
  refine ⟨hI, ?_⟩
  cases o with
  | kalloc =>
    refine ⟨fun h0 => h _ _ (hK.1 h0), ?_⟩
    intro p hp hpage ho
    obtain ⟨c, hc, hKc⟩ := hK.2 p hp hpage ho
    exact ⟨c, hc, h _ _ hKc⟩
  | kfree p => exact ⟨hK.1, hK.2.1, h _ _ hK.2.2⟩
  | load p i => exact ⟨hK.1, h _ _ hK.2⟩
  | store p i e =>
    obtain ⟨hp, own', ho, hKo⟩ := hK
    exact ⟨hp, own', ho, h _ _ hKo⟩
  | memset p c => exact ⟨hK.1, h _ _ hK.2⟩
  | writePage p off l => exact ⟨hK.1, h _ _ hK.2⟩
  | readUser va p off n => exact ⟨hK.1, h _ _ hK.2⟩
  | writeUser va p off l => exact ⟨hK.1, h _ _ hK.2⟩

/-! ## A thread that runs alone -/

/-- The view `v` is right about the state `s` of the machine. -/
structure VmView.Abstracts (v : VmView) (s : Vm) : Prop where
  nodup : s.freelist.Nodup
  free : s.freelist.length = v.free
  outside : ∀ p ∈ s.freelist, v.own p = .outside ∧ IsPage p
  mem : ∀ p, v.own p ≠ .outside → s.mem p = v.mem p

namespace VmView.Abstracts
variable {v : VmView} {s : Vm}

theorem setPage (h : v.Abstracts s) {p : ℕ} {f : Bytes} : (v.setPage p f).Abstracts (s.setPage p f) := by
  refine ⟨h.nodup, h.free, h.outside, ?_⟩
  intro q hq
  by_cases hpq : q = p
  · subst hpq
    simp [Vm.setPage, VmView.setPage]
  · simpa [Vm.setPage, VmView.setPage, Function.update_of_ne hpq] using h.mem q hq

theorem relabel (h : v.Abstracts s) {own' : ℕ → Place} (ho : Relabel v.own own') :
    VmView.Abstracts ⟨own', v.mem, v.free⟩ s :=
  ⟨h.nodup, h.free, fun p hp => ⟨(ho p).mpr (h.outside p hp).1, (h.outside p hp).2⟩,
    fun p hp => h.mem p fun hf => hp ((ho p).mpr hf)⟩

theorem entry (h : v.Abstracts s) {p : ℕ} (hp : v.own p ≠ .outside) (i : ℕ) :
    s.mem.entry p i = v.mem.entry p i := by
  rw [Mem.entry, Mem.entry, h.mem p hp]

/-- `kalloc` takes the first page of the free list. -/
theorem take (h : v.Abstracts s) {r : ℕ} {l : List ℕ} (hs : s.freelist = r :: l) {c : Place} :
    (v.take r c).Abstracts ({ s with freelist := l }.setPage r fun _ => 0) := by
  have hnd := h.nodup
  rw [hs, List.nodup_cons] at hnd
  refine ⟨hnd.2, ?_, ?_, ?_⟩
  · have := h.free
    rw [hs, List.length_cons] at this
    change l.length = v.free - 1
    omega
  · intro p hp
    have hpr : p ≠ r := fun e => hnd.1 (e ▸ hp)
    change Function.update v.own r c p = _ ∧ _
    rw [Function.update_of_ne hpr]
    exact h.outside p (by rw [hs]; exact List.mem_cons_of_mem r hp)
  · intro p hp
    change Function.update v.own r c p ≠ _ at hp
    change Function.update s.mem r _ p = Function.update v.mem r _ p
    by_cases hpr : p = r
    · subst hpr
      simp
    · rw [Function.update_of_ne hpr] at hp
      rw [Function.update_of_ne hpr, Function.update_of_ne hpr]
      exact h.mem p hp

theorem give (h : v.Abstracts s) {p : ℕ} (hp : v.own p ≠ .outside) (hpage : IsPage p) :
    (v.give p).Abstracts ({ s with freelist := p :: s.freelist }.setPage p s.freedPage) := by
  refine ⟨?_, ?_, ?_, ?_⟩
  · exact List.nodup_cons.mpr ⟨fun hf => hp (h.outside p hf).1, h.nodup⟩
  · change (p :: s.freelist).length = v.free + 1
    rw [List.length_cons, h.free]
  · intro q hq
    change Function.update v.own p .outside q = _ ∧ _
    rcases List.mem_cons.mp hq with rfl | hmem
    · exact ⟨Function.update_self .., hpage⟩
    · have hne : q ≠ p := by
        rintro rfl
        exact hp (h.outside q hmem).1
      rw [Function.update_of_ne hne]
      exact h.outside q hmem
  · intro q hq
    change Function.update v.own p .outside q ≠ _ at hq
    have hne : q ≠ p := by
      rintro rfl
      exact hq (Function.update_self ..)
    rw [Function.update_of_ne hne] at hq
    change Function.update s.mem p _ q = v.mem q
    rw [Function.update_of_ne hne]
    exact h.mem q hq

end VmView.Abstracts

/-- The machine keeps to the exact specification, for any relation between views and states that the
requests preserve. -/
theorem vmStep_refines_of {R : VmView → Vm → Prop} (E : String → VmView → Prop)
    (habs : ∀ {v s}, R v s → v.Abstracts s)
    (hset : ∀ {v s}, R v s → ∀ p f, R (v.setPage p f) (s.setPage p f))
    (hrel : ∀ {v s own'}, R v s → Relabel v.own own' → R ⟨own', v.mem, v.free⟩ s)
    (htake : ∀ {v s r l c}, R v s → s.freelist = r :: l → c ≠ Place.outside →
      R (v.take r c) ({ s with freelist := l }.setPage r fun _ => 0))
    (hgive : ∀ {v s p}, R v s → v.own p ≠ .outside → IsPage p →
      R (v.give p) ({ s with freelist := p :: s.freelist }.setPage p s.freedPage)) :
    Machine.Refines vmStep (vmSpec True) E R := by
  rintro o K v s hR ⟨-, hK⟩
  have habsR := habs hR
  cases o with
  | kalloc =>
    rw [show vmStep .kalloc s = .done s.kalloc.1 s.kalloc.2 from rfl, Vm.kalloc]
    cases hl : s.freelist with
    | nil =>
      refine ⟨v, hR, hK.1 fun _ => ?_⟩
      rw [← habsR.free, hl]
      rfl
    | cons r l =>
      have hr := habsR.outside r (by rw [hl]; exact List.mem_cons_self ..)
      have hpos : 0 < v.free := by
        rw [← habsR.free, hl]
        exact Nat.succ_pos _
      obtain ⟨c, hc, hKc⟩ := hK.2 r (fun _ => hpos) hr.2 hr.1
      exact ⟨_, htake hR hl hc, hKc⟩
  | kfree p =>
    obtain ⟨hpage, hp, hKp⟩ := hK
    rw [show vmStep (.kfree p) s = s.kfree p from rfl, Vm.kfree, if_neg (not_not.mpr hpage.aligned)]
    exact ⟨_, hgive hR hp hpage, hKp⟩
  | load p i =>
    refine ⟨v, hR, ?_⟩
    rw [habsR.entry hK.1]
    exact hK.2
  | store p i e =>
    obtain ⟨hp, own', ho, hKo⟩ := hK
    refine ⟨_, ?_, hKo⟩
    change R _ (s.setPage p (lePut (s.mem p) (8 * i) 8 e))
    rw [habsR.mem p hp]
    exact hrel (hset hR p _) ho
  | memset p c => exact ⟨_, hset hR p _, hK.2⟩
  | writePage p off l =>
    refine ⟨_, ?_, hK.2⟩
    rw [← habsR.mem p hK.1]
    exact hset hR p _
  | readUser va p off n =>
    refine ⟨v, hR, ?_⟩
    rw [habsR.mem p hK.1]
    exact hK.2
  | writeUser va p off l =>
    refine ⟨_, ?_, hK.2⟩
    rw [← habsR.mem p hK.1]
    exact hset hR p _

theorem vmStep_refines (E : String → VmView → Prop) :
    Machine.Refines vmStep (vmSpec True) E VmView.Abstracts :=
  vmStep_refines_of E id (fun h _ _ => h.setPage) (fun h ho => h.relabel ho) (fun h hs _ => h.take hs)
    (fun h hp hpage => h.give hp hpage)

/-! ## Runs -/

/-- No request of `vm.c` waits. -/
theorem run_vm_ne_blocked {α : Type} (p : VmM α) (s : Vm) : p.run vmStep s ≠ .blocked := by
  induction p generalizing s with
  | ret a => simp [Prog.run]
  | panic msg => simp [Prog.run]
  | call o next ih =>
    rw [Prog.run]
    cases o with
    | kfree pa =>
      rw [show vmStep (.kfree pa) s = s.kfree pa from rfl, Vm.kfree]
      by_cases hpa : pa % PGSIZE ≠ 0
      · rw [if_pos hpa]
        simp
      · rw [if_neg hpa]
        exact ih _ _
    | _ => exact ih _ _

/-- What a precondition in terms of views says about a run, in a state that the view is right about. -/
theorem run_vm_of_refines {α : Type} {R : VmView → Vm → Prop}
    (hm : Machine.Refines vmStep (vmSpec True) (fun _ _ => False) R) {p : VmM α} {Q : α → VmView → Prop}
    {v : VmView} {s : Vm} (hv : R v s) (h : p.wp (vmSpec True) (fun _ _ => False) Q v) :
    ∃ a s' v', p.run vmStep s = .done a s' ∧ R v' s' ∧ Q a v' := by
  have hrun := hm.run hv h
  cases hp : p.run vmStep s with
  | done a s' =>
    rw [hp] at hrun
    obtain ⟨v', hv', hQ⟩ := hrun
    exact ⟨a, s', v', rfl, hv', hQ⟩
  | panic msg =>
    rw [hp] at hrun
    obtain ⟨w, hw⟩ := hrun
    exact hw.elim
  | blocked => exact absurd hp (run_vm_ne_blocked p s)

theorem run_vm_of_wp {α : Type} {p : VmM α} {Q : α → VmView → Prop} {v : VmView} {s : Vm} (hv : v.Abstracts s)
    (h : p.wp (vmSpec True) (fun _ _ => False) Q v) :
    ∃ a s' v', p.run vmStep s = .done a s' ∧ v'.Abstracts s' ∧ Q a v' :=
  run_vm_of_refines (vmStep_refines _) hv h

end Xv6Arm

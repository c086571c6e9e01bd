import Xv6Arm.Proc.Proc
import Xv6Arm.Vm.Confine
import Xv6Arm.Vm.Resize
import Xv6Arm.Fs.Mount

/-!
# `sbrk`

`growproc` adds a signed number to a 32-bit copy of the size of the process. A
request to shrink below zero wraps to a size above the old one, which
`uvmdealloc` takes for nothing to do, and `growproc` reports success.
-/
namespace Xv6Arm
open Lib Mem

/-- What is asked of `growproc`: it changed the memory of the process, of size `sz` under page table `t`,
from `s` to `s'`, and the size to `sz'`, and returned `r`. -/
structure Resized (t : ℕ) (n r : ℤ) (s : Vm) (sz : ℕ) (s' : Vm) (sz' : ℕ) : Prop where
  value : r = 0 ∨ r = -1
  size : r = 0 → (sz' : ℤ) = sz + n
  kept : r = 0 → ∀ x < min sz sz', s'.user t x = s.user t x
  present : r = 0 → ∀ x < sz', s'.user t x ≠ none
  /-- A page that was not mapped is zero, also behind the end of the process. -/
  zero : r = 0 → ∀ x, s.user t x = none → s'.user t x ≠ none → s'.user t x = some 0
  failed : r = -1 → sz' = sz ∧ ∀ x, s'.user t x = s.user t x

section Run
variable {ι : Type} {own : ℕ → Place} {X : Kernel ι} {p me : ℕ}

/-- The state with another memory and another size of process `p`. -/
def Kernel.resize (X : Kernel ι) (p : ℕ) (s : Vm) (sz : ℕ) : Kernel ι :=
  { X with vm := s }.modifyProc p (ProcField.sz sz).apply

/-- A call of `vm.c` in the middle of kernel code. -/
theorem Kernel.run_vm_bind {α β : Type} (m : Machine ioSig ι) (me : ℕ) {c : VmM α} {f : α → KM β} {a : α} {s : Vm}
    (h : c.run vmStep X.vm = .done a s) :
    ((liftM c : KM α) >>= f).run (Kernel.step m me) X = (f a).run (Kernel.step m me) { X with vm := s } := by
  have hc : (inVm c).run (Kernel.step m me) X = .done a { X with vm := s } := by
    rw [Kernel.run_inVm, h]
    rfl
  exact Prog.run_bind_done _ hc

theorem Kernel.run_get_bind {β : Type} (m : Machine ioSig ι) (me p : ℕ) (f : Proc → KM β) :
    (proc (.get p) >>= f).run (Kernel.step m me) X = (f (X.procs p)).run (Kernel.step m me) X := rfl

theorem run_growproc_more (m : Machine ioSig ι) {n : ℤ} (hn : 0 < n) {s : Vm} {r : ℕ}
    (h : (uvmalloc (X.procs p).pagetable ((X.procs p).sz % 2 ^ 32)
      (toUint (((X.procs p).sz % 2 ^ 32 : ℕ) + n))).run vmStep X.vm = .done r s) :
    (growproc p n).run (Kernel.step m me) X =
      if r % 2 ^ 32 = 0 then .done (-1) { X with vm := s } else .done 0 (X.resize p s (r % 2 ^ 32)) := by
  rw [growproc, Kernel.run_get_bind]
  dsimp only
  rw [if_pos hn, Kernel.run_vm_bind m me h]
  split <;> rfl

theorem run_growproc_less (m : Machine ioSig ι) {n : ℤ} (hn : n < 0) {s : Vm} {r : ℕ}
    (h : (uvmdealloc (X.procs p).pagetable ((X.procs p).sz % 2 ^ 32)
      (toUint (((X.procs p).sz % 2 ^ 32 : ℕ) + n))).run vmStep X.vm = .done r s) :
    (growproc p n).run (Kernel.step m me) X = .done 0 (X.resize p s (r % 2 ^ 32)) := by
  rw [growproc, Kernel.run_get_bind]
  dsimp only
  rw [if_neg (by omega), if_pos hn, Kernel.run_vm_bind m me h]
  rfl

theorem run_growproc_zero (m : Machine ioSig ι) :
    (growproc p 0).run (Kernel.step m me) X = .done 0 (X.resize p X.vm ((X.procs p).sz % 2 ^ 32)) := rfl

end Run

/-! ## What the calls do to the memory of the process -/

section Memory
variable {own : ℕ → Place} {s : Vm} {t sz k x : ℕ}

/-- The pages of a process are different pages of memory, so it is not large. -/
theorem Mem.AddressSpace.sz_lt (h : s.mem.AddressSpace own t sz) : sz < 2 ^ 27 := by
  have := h.space.lt
  omega

theorem vpn_of_lt (hx : x < 2 ^ 32) : vpn x = x / 4096 := by
  unfold vpn
  omega

/-- Below the size there is a byte. -/
theorem Mem.AddressSpace.user_ne_none (h : s.mem.AddressSpace own t sz) (hx : x < sz) : s.user t x ≠ none := by
  have hlt := h.sz_lt
  obtain ⟨q, ap, -, ha, hq⟩ := h.addr_mapped (x := x) (by
    rw [mapped_iff h.sz_le, vpn_of_lt (by omega)]
    omega)
  simp [Vm.user, ha, hq]

theorem Resized.refl (h : s.mem.AddressSpace own t sz) : Resized t 0 0 s sz s sz :=
  ⟨.inl rfl, fun _ => by simp, fun _ _ _ => rfl, fun _ _ hx => h.user_ne_none hx,
    fun _ _ hnone hne => absurd hnone hne, by simp⟩

theorem run_uvmalloc_resized (h : s.mem.AddressSpace own t sz) (hf : (s.view own).Abstracts s) (hk : 0 < k) :
    ∃ r s', (uvmalloc t sz (sz + k)).run vmStep s = .done r s' ∧
      (r = sz + k ∧ sz + k < 2 ^ 32 ∧ Resized t k 0 s sz s' (sz + k) ∨ r = 0 ∧ Resized t k (-1) s sz s' sz) := by
  have hspace := h.space
  have hlt := h.sz_lt
  let Q : ℕ → VmView → Prop := fun r v' =>
    (r = sz + k ∧ (s.view own).Grown t ((sz + 4095) / 4096) ((sz + k + 4095) / 4096) v') ∨
      (r = 0 ∧ v'.Space t ((sz + 4095) / 4096) ∧ (s.view own).Keeps t v')
  obtain ⟨r, s', v', hrun, ha, hQ⟩ := run_vm_of_wp (Q := Q) hf
    (wp_uvmalloc hspace rfl (fun hno => by omega) (fun _ v' hv => .inl ⟨rfl, hv⟩) (fun _ v' hv hk => .inr ⟨rfl, hv, hk⟩))
  refine ⟨r, s', hrun, hQ.imp ?_ ?_⟩
  · rintro ⟨rfl, hg⟩
    have hlt' := hg.space.lt
    have hvpn : ∀ x < sz + k, vpn x = x / 4096 := fun x hx => vpn_of_lt (by omega)
    refine ⟨rfl, by omega, .inl rfl, ?_, ?_, ?_, ?_, by simp⟩
    · intro _
      push_cast
      ring
    · intro _ x hx
      refine hg.keeps.user_same hspace hg.space hf ha ?_
      rw [hvpn x (by omega)]
      omega
    · intro _ x hx hnone
      have hout := (hg.space.user_eq_none_iff ha).mp hnone
      rw [hvpn x hx] at hout
      omega
    · intro _ x hnone hne
      refine hg.user_zero ha ((hspace.user_eq_none_iff hf).mp hnone) ?_
      exact Nat.lt_of_not_le fun hout => hne (hg.space.user_none ha hout)
  · rintro ⟨rfl, hs, hk⟩
    refine ⟨rfl, .inr rfl, by simp, by simp, by simp, by simp, fun _ => ⟨rfl, fun x => ?_⟩⟩
    by_cases hx : vpn x < (sz + 4095) / 4096
    · exact hk.user_same hspace hs hf ha hx
    · rw [hspace.user_none hf (Nat.le_of_not_lt hx), hs.user_none ha (Nat.le_of_not_lt hx)]

theorem run_uvmdealloc_resized (h : s.mem.AddressSpace own t sz) (hf : (s.view own).Abstracts s) (hk : 0 < k)
    (hle : k ≤ sz) :
    ∃ s', (uvmdealloc t sz (sz - k)).run vmStep s = .done (sz - k) s' ∧ Resized t (-k) 0 s sz s' (sz - k) := by
  have hspace := h.space
  have hlt := h.sz_lt
  let Q : ℕ → VmView → Prop := fun r v' => r = sz - k ∧ v'.Space t ((sz - k + 4095) / 4096) ∧
    (s.view own).Unmaps t (fun j => (sz - k + 4095) / 4096 ≤ j ∧ j < (sz + 4095) / 4096) v'
  obtain ⟨r, s', v', hrun, ha, rfl, hs, hu⟩ := run_vm_of_wp (Q := Q) hf
    (wp_uvmdealloc hspace rfl (fun hno => by omega) (fun _ v' hv hu => ⟨rfl, hv, hu⟩))
  have hkept : ∀ x < sz - k, s'.user t x = s.user t x := by
    intro x hx
    have hvpn : vpn x = x / 4096 := vpn_of_lt (by omega)
    refine hu.user_same hspace hs hf ha ?_ ?_
    · rw [hvpn]
      omega
    · rw [hvpn]
      omega
  refine ⟨s', hrun, .inl rfl, fun _ => by push_cast [hle]; ring, fun _ x hx => hkept x (by omega), ?_, ?_, by simp⟩
  · intro _ x hx
    rw [hkept x hx]
    exact h.user_ne_none (by omega)
  · -- what was not mapped before is not mapped now
    intro _ x hnone hne
    have hout := (hspace.user_eq_none_iff hf).mp hnone
    exact absurd (hs.user_none ha (by omega)) hne

end Memory

/-! ## `growproc` -/

section Growproc
variable {ι : Type} {own : ℕ → Place}

theorem Kernel.resize_sz (X : Kernel ι) (p : ℕ) (s : Vm) (sz : ℕ) : ((X.resize p s sz).procs p).sz = sz := by
  simp [Kernel.resize, Kernel.modifyProc, ProcField.apply]

/-- `growproc` resizes the process, or has nothing to do where the new size would be negative. -/
theorem run_growproc (m : Machine ioSig ι) (me p : ℕ) {n : ℤ} (hlo : -2 ^ 31 ≤ n) (hhi : n < 2 ^ 31) (X : Kernel ι)
    (h : X.vm.mem.AddressSpace own (X.procs p).pagetable (X.procs p).sz) (hf : (X.vm.view own).Abstracts X.vm) :
    ∃ r X', (growproc p n).run (Kernel.step m me) X = .done r X' ∧
      (0 ≤ (X.procs p).sz + n ∧ (r = -1 → 0 < n) ∧
          Resized (X.procs p).pagetable n r X.vm (X.procs p).sz X'.vm (X'.procs p).sz ∨
        (X.procs p).sz + n < 0 ∧ r = 0 ∧ (X'.procs p).sz = (X.procs p).sz) := by
  have hlt := h.sz_lt
  have hmod : (X.procs p).sz % 2 ^ 32 = (X.procs p).sz := Nat.mod_eq_of_lt (by omega)
  rcases lt_trichotomy n 0 with hneg | rfl | hpos
  · by_cases hok : 0 ≤ (X.procs p).sz + n
    · obtain ⟨k, rfl⟩ : ∃ k : ℕ, n = -k := ⟨(-n).toNat, by omega⟩
      obtain ⟨s', hrun, hr⟩ := run_uvmdealloc_resized h hf (k := k) (by omega) (by omega)
      have hint : toUint (((X.procs p).sz % 2 ^ 32 : ℕ) + -(k : ℤ)) = (X.procs p).sz - k := by
        unfold toUint
        omega
      refine ⟨0, _, run_growproc_less m hneg (by rw [hint, hmod]; exact hrun), .inl ⟨hok, by simp, ?_⟩⟩
      rw [Kernel.resize_sz, Nat.mod_eq_of_lt (by omega)]
      exact hr
    · -- the sum wraps around to a larger size
      have hint : (X.procs p).sz ≤ toUint (((X.procs p).sz % 2 ^ 32 : ℕ) + n) := by
        unfold toUint
        omega
      refine ⟨0, _, run_growproc_less m hneg (s := X.vm) (r := (X.procs p).sz) ?_, .inr ⟨by omega, rfl, ?_⟩⟩
      · rw [hmod] at hint ⊢
        rw [uvmdealloc, if_pos hint]
        rfl
      · rw [Kernel.resize_sz, hmod]
  · refine ⟨0, _, run_growproc_zero m, .inl ⟨by omega, by simp, ?_⟩⟩
    rw [Kernel.resize_sz, hmod]
    exact .refl h
  · obtain ⟨k, rfl⟩ : ∃ k : ℕ, n = k := ⟨n.toNat, by omega⟩
    obtain ⟨r, s', hrun, hr⟩ := run_uvmalloc_resized h hf (k := k) (by omega)
    have hint : toUint (((X.procs p).sz % 2 ^ 32 : ℕ) + (k : ℤ)) = (X.procs p).sz + k := by
      unfold toUint
      omega
    have hgrow := @run_growproc_more ι X p me m k hpos s' r (by rw [hint, hmod]; exact hrun)
    rcases hr with ⟨rfl, hsmall, hr⟩ | ⟨rfl, hr⟩
    · rw [Nat.mod_eq_of_lt hsmall, if_neg (by omega)] at hgrow
      refine ⟨0, _, hgrow, .inl ⟨by omega, by simp, ?_⟩⟩
      rw [Kernel.resize_sz]
      exact hr
    · rw [if_pos (by norm_num)] at hgrow
      exact ⟨-1, _, hgrow, .inl ⟨by omega, fun _ => hpos, hr⟩⟩

/-- `growproc` does what it reports exactly if the new size is not negative. -/
theorem growproc_resizes_iff (m : Machine ioSig ι) (me p : ℕ) (n : Int32) (X : Kernel ι)
    (h : X.vm.mem.AddressSpace own (X.procs p).pagetable (X.procs p).sz) (hf : (X.vm.view own).Abstracts X.vm) :
    ∃ r X', (growproc p n.toInt).run (Kernel.step m me) X = .done r X' ∧
      (Resized (X.procs p).pagetable n.toInt r X.vm (X.procs p).sz X'.vm (X'.procs p).sz ↔
        0 ≤ (X.procs p).sz + n.toInt) := by
  obtain ⟨r, X', hrun, ⟨hok, -, hr⟩ | ⟨hneg, rfl, hsz⟩⟩ := run_growproc m me p n.le_toInt n.toInt_lt X h hf
  · exact ⟨r, X', hrun, fun _ => hok, fun _ => hr⟩
  · refine ⟨0, X', hrun, fun hr => ?_, fun hok => absurd hok (by omega)⟩
    have := hr.size rfl
    omega

/-- `sbrk` returns what `growproc` leaves it to: the old size, or -1. -/
theorem run_sysSbrk_of_growproc (m : Machine ioSig ι) {me p : ℕ} {n r : ℤ} {X X' : Kernel ι}
    (h : X.vm.mem.AddressSpace own (X.procs p).pagetable (X.procs p).sz)
    (hrun : (growproc p n).run (Kernel.step m me) X = .done r X') :
    (sysSbrk p n).run (Kernel.step m me) X = .done (if r < 0 then -1 else ((X.procs p).sz : ℤ)) X' := by
  have haddr : (BitVec.ofNat 32 (X.procs p).sz).toInt = (X.procs p).sz := by
    have hlt := h.sz_lt
    rw [BitVec.toInt_ofNat', Int.bmod_def]
    push_cast
    omega
  rw [sysSbrk, Kernel.run_get_bind]
  dsimp only
  rw [haddr]
  refine (Prog.run_bind_done _ hrun).trans ?_
  split <;> rfl

/-- `sbrk` returns the old size, or -1 where there is no memory to grow. -/
theorem run_sysSbrk (m : Machine ioSig ι) (me p : ℕ) {n : ℤ} (hlo : -2 ^ 31 ≤ n) (hhi : n < 2 ^ 31) (X : Kernel ι)
    (h : X.vm.mem.AddressSpace own (X.procs p).pagetable (X.procs p).sz) (hf : (X.vm.view own).Abstracts X.vm) :
    ∃ r X', (sysSbrk p n).run (Kernel.step m me) X = .done r X' ∧
      (r = -1 ∧ 0 < n ∧ (X'.procs p).sz = (X.procs p).sz ∨
        r = (X.procs p).sz ∧ ((X'.procs p).sz = (X.procs p).sz + n ∨
          (X.procs p).sz + n < 0 ∧ (X'.procs p).sz = (X.procs p).sz)) := by
  obtain ⟨r, X', hrun, hr⟩ := run_growproc m me p hlo hhi X h hf
  have hsbrk := run_sysSbrk_of_growproc m h hrun
  rcases hr with ⟨-, hn, hr⟩ | ⟨hneg, rfl, hsz⟩
  · rcases hr.value with rfl | rfl
    · exact ⟨_, X', hsbrk, .inr ⟨rfl, .inl (hr.size rfl)⟩⟩
    · exact ⟨_, X', hsbrk, .inl ⟨rfl, hn rfl, (hr.failed rfl).1⟩⟩
  · exact ⟨_, X', hsbrk, .inr ⟨rfl, .inr ⟨hneg, hsz⟩⟩⟩

/-- `sbrk` fails exactly if it is to grow the process and `uvmalloc` finds no memory for that. -/
theorem sysSbrk_fails_iff (m : Machine ioSig ι) (me p : ℕ) {n : ℤ} (hlo : -2 ^ 31 ≤ n) (hhi : n < 2 ^ 31) (X : Kernel ι)
    (h : X.vm.mem.AddressSpace own (X.procs p).pagetable (X.procs p).sz) (hf : (X.vm.view own).Abstracts X.vm) :
    (∃ X', (sysSbrk p n).run (Kernel.step m me) X = .done (-1) X') ↔
      0 < n ∧ ∃ s, (uvmalloc (X.procs p).pagetable (X.procs p).sz ((X.procs p).sz + n.toNat)).run vmStep X.vm = .done 0 s := by
  have hlt := h.sz_lt
  obtain ⟨r, Y, hrun, hr⟩ := run_sysSbrk m me p hlo hhi X h hf
  by_cases hn : 0 < n
  · obtain ⟨k, rfl⟩ : ∃ k : ℕ, n = k := ⟨n.toNat, by omega⟩
    obtain ⟨a, s, halloc, ha⟩ := run_uvmalloc_resized h hf (k := k) (by omega)
    have hint : toUint (((X.procs p).sz % 2 ^ 32 : ℕ) + (k : ℤ)) = (X.procs p).sz + k := by
      unfold toUint
      omega
    have hgrow := @run_growproc_more ι X p me m k hn s a
      (by rw [hint, Nat.mod_eq_of_lt (by omega)]; exact halloc)
    rw [Int.toNat_natCast, halloc]
    rcases ha with ⟨rfl, hsmall, -⟩ | ⟨rfl, -⟩
    · rw [Nat.mod_eq_of_lt hsmall, if_neg (by omega)] at hgrow
      rw [run_sysSbrk_of_growproc m h hgrow, if_neg (by omega)]
      constructor
      · rintro ⟨X', hX⟩
        injection hX with hv
        omega
      · rintro ⟨-, s', hs⟩
        injection hs with hv
        omega
    · rw [if_pos (by norm_num)] at hgrow
      rw [run_sysSbrk_of_growproc m h hgrow, if_pos (by omega)]
      exact ⟨fun _ => ⟨hn, s, rfl⟩, fun _ => ⟨_, rfl⟩⟩
  · refine ⟨fun ⟨X', hX⟩ => ?_, fun hs => absurd hs.1 hn⟩
    rw [hrun] at hX
    injection hX with hv
    omega

end Growproc

/-- Process 0 with the two pages of `guarded`. -/
def twoPages : Kernel Unit :=
  { bare with
    vm := guarded
    procs := fun i => { bare.procs i with sz := 0x2000, pagetable := 0x40001000 } }

theorem twoPages_free : (twoPages.vm.view guardedOwn).Abstracts twoPages.vm :=
  ⟨List.nodup_nil, rfl, fun _ hp => absurd hp List.not_mem_nil, fun _ _ => rfl⟩

theorem growproc_resizes_iff_shrink :
    ∃ r X', (growproc 0 (-0x1000 : Int32).toInt).run (Kernel.step Kernel.idle 0) twoPages = .done r X' ∧
      Resized 0x40001000 (-0x1000) r twoPages.vm 0x2000 X'.vm (X'.procs 0).sz := by
  obtain ⟨r, X', hrun, hiff⟩ :=
    growproc_resizes_iff Kernel.idle 0 0 (-0x1000 : Int32) twoPages guarded_space twoPages_free
  exact ⟨r, X', hrun, hiff.mpr (by decide)⟩

/-- Shrinking a process of two pages by three pages is reported as a success, and nothing has changed. -/
theorem growproc_shrinks_too_much :
    ∃ X', (growproc 0 (-0x3000)).run (Kernel.step Kernel.idle 0) twoPages = .done 0 X' ∧ X'.vm = guarded ∧
      (X'.procs 0).sz = 0x2000 ∧ ¬Resized 0x40001000 (-0x3000) 0 twoPages.vm 0x2000 X'.vm (X'.procs 0).sz := by
  refine ⟨twoPages.resize 0 guarded 0x2000, rfl, rfl, rfl, fun hr => ?_⟩
  have hsize := hr.size rfl
  exact absurd hsize (by decide)

end Xv6Arm

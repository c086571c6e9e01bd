import Xv6Arm.Fs.Dir
import Xv6Arm.Lib.Frame
import Xv6Arm.Pipe.Delivery

/-!
# Which user addresses a system call touches

A system call reaches user memory through `copyin`, `copyout` and `copyinstr` only.
For a run that returns: its result, the state it leaves, and the user addresses
it has touched; for one that waits or panics, the addresses it has touched until
then. Requests on disk, log, inodes, pipes and console touch none.
-/
namespace Xv6Arm
open Lib Mem

variable {ι α : Type} {m : Machine ioSig ι} {me : ℕ} {X X' : Kernel ι} {own : ℕ → Place} {pagetable sz va n : ℕ}

/-- The user addresses that a request of the kernel reads or writes. -/
def kTouch : (o : KOp) → Kernel ι → List ℕ
  | .vm o, X => vmTouch o X.vm
  | _, _ => []

/-- The user addresses that a run of process `me` touches. -/
def Kernel.touched (m : Machine ioSig ι) (me : ℕ) (p : KM α) (X : Kernel ι) : List ℕ :=
  p.emitted (Kernel.step m me) kTouch X

/-- The addresses are among the `n` from `va` on. -/
def InRange (va n : ℕ) (ws : List ℕ) : Prop := ∀ a ∈ ws, ∃ i < n, a = (va + i) % 2 ^ 64

theorem InRange.nil : InRange va n [] := fun _ ha => absurd ha List.not_mem_nil

theorem InRange.mono {n' : ℕ} {ws : List ℕ} (h : InRange va n ws) (hn : n ≤ n') : InRange va n' ws := by
  intro a ha
  obtain ⟨i, hi, rfl⟩ := h a ha
  exact ⟨i, hi.trans_le hn, rfl⟩

theorem InRange.append {k : ℕ} {ws vs : List ℕ} (h : InRange va k ws) (h' : InRange ((va + k) % 2 ^ 64) (n - k) vs)
    (hk : k ≤ n) : InRange va n (ws ++ vs) := by
  intro a ha
  rcases List.mem_append.mp ha with ha | ha
  · exact h.mono hk a ha
  · obtain ⟨i, hi, rfl⟩ := h' a ha
    exact ⟨k + i, by omega, by omega⟩

/-- The result of a run that returns. -/
def Outcome.value {ρ σ : Type} : Outcome ρ σ → Option ρ
  | .done r _ => some r
  | _ => none

theorem Outcome.eq_done {ρ σ : Type} {o : Outcome ρ σ} {r : ρ} (h : value o = some r) : ∃ s, o = .done r s := by
  cases o with
  | done r' s =>
    cases h
    exact ⟨s, rfl⟩
  | blocked => cases h
  | panic msg => cases h

/-! ## Requests that touch no user memory -/

/-- A request on anything but memory, open files and processes. -/
def Aside : KOp → Prop
  | .vm _ => False
  | .file _ => False
  | .proc _ => False
  | _ => True

theorem aside_inIo (p : IoM α) : (inIo p).Only Aside := by
  refine Prog.Only.lift ?_ p
  exact fun o => ⟨trivial, fun _ => trivial⟩

theorem aside_inode (o : InodeOp) : (inode o).Only Aside := ⟨trivial, fun _ => trivial⟩
theorem aside_pipe (o : PipeOp) : (pipe o).Only Aside := ⟨trivial, fun _ => trivial⟩
theorem aside_cons (o : ConsOp) : (cons o).Only Aside := ⟨trivial, fun _ => trivial⟩

/-- The parts of the state that such a request leaves alone. -/
def Kernel.rest (X : Kernel ι) : Vm × (ℕ → File) × (ℕ → Proc) := (X.vm, X.ftable, X.procs)

theorem map_eq_done {ρ σ τ : Type} {f : σ → τ} {o : Outcome ρ σ} {r : ρ} {t : τ} (h : o.map f = .done r t) : ∃ s, f s = t := by
  cases o with
  | done r' s =>
    cases h
    exact ⟨s, rfl⟩
  | blocked => cases h
  | panic msg => cases h

theorem rest_of_aside {p : KM α} {a : α} (h : p.Only Aside) (hr : p.run (Kernel.step m me) X = .done a X') :
    X'.rest = X.rest := by
  refine Prog.Only.run (g := Kernel.rest) ?_ h hr
  intro o ho s r s' hs
  cases o with
  | io o =>
    simp only [Kernel.step] at hs
    obtain ⟨t, rfl⟩ := map_eq_done hs
    rfl
  | inode o =>
    simp only [Kernel.step] at hs
    obtain ⟨t, rfl⟩ := map_eq_done hs
    rfl
  | pipe o =>
    cases o with
    | init pi | release pi | get pi | put pi c | take pi =>
      cases hs
      rfl
    | close pi w =>
      simp only [Kernel.step, Kernel.pipeStep, Kernel.pipeClose] at hs
      split at hs <;> cases hs
      rfl
    | acquire pi | sleepWrite pi | sleepRead pi =>
      simp only [Kernel.step, Kernel.pipeStep, Kernel.pipeSleep] at hs
      split at hs <;> cases hs
      rfl
  | cons o =>
    cases o with
    | putc c | unget c =>
      cases hs
      rfl
    | getc =>
      simp only [Kernel.step, Kernel.consStep] at hs
      split at hs
      · cases hs
        rfl
      · split at hs <;> cases hs
        rfl
  | vm o | file o | proc o => exact ho.elim

theorem touched_of_aside {p : KM α} (h : p.Only Aside) (X : Kernel ι) : Kernel.touched m me p X = [] := by
  refine (Prog.Only.quiet ?_ h).emitted _ X
  intro o ho s
  cases o with
  | io o | inode o | pipe o | cons o => rfl
  | vm o | file o | proc o => exact ho.elim

theorem aside_modifyInode (ip : ℕ) (f : Dinode → Dinode) : (modifyInode ip f).Only Aside :=
  (aside_inode _).bind fun _ => aside_inode _

theorem aside_bmapAddr (sb : Superblock) (ip : ℕ) (k : Fin (NDIRECT + 1)) : (bmapAddr sb ip k).Only Aside := by
  refine (aside_inode _).bind fun x => .ite ?_ trivial
  exact (aside_inIo _).bind fun addr => (aside_modifyInode _ _).bind fun _ => trivial

theorem aside_bmap (sb : Superblock) (ip bn : ℕ) : (bmap sb ip bn).Only Aside := by
  unfold bmap
  split
  · exact aside_bmapAddr _ _ _
  · refine .ite ?_ trivial
    refine (aside_bmapAddr _ _ _).bind fun addr => (aside_inIo _).bind fun bp => .ite ?_ ?_
    · exact (aside_inIo _).bind fun a => (aside_inIo _).bind fun _ => (aside_inIo _).bind fun _ =>
        (aside_inIo _).bind fun _ => trivial
    · exact (aside_inIo _).bind fun _ => trivial

theorem aside_ilock (sb : Superblock) (ip : ℕ) : (ilock sb ip).Only Aside := by
  refine (aside_inode _).bind fun _ => (aside_inode _).bind fun x => .ite trivial ?_
  exact (aside_inIo _).bind fun bp => (aside_inode _).bind fun _ => (aside_inIo _).bind fun _ =>
    (aside_inode _).bind fun _ => .ite trivial trivial

/-! ## Copies -/

theorem touched_inVm (p : VmM α) (X : Kernel ι) : Kernel.touched m me (inVm p) X = p.emitted vmStep vmTouch X.vm := by
  induction p generalizing X with
  | ret a => rfl
  | panic msg => rfl
  | call o next ih =>
    change (Prog.call (S := kSig) (.vm o) fun r => inVm (next r)).emitted (Kernel.step m me) kTouch X = _
    simp only [Prog.emitted, Kernel.step]
    cases vmStep o X.vm with
    | done r t =>
      simp only [Outcome.map]
      exact congrArg (kTouch (.vm o) X ++ ·) (ih r { X with vm := t })
    | blocked => rfl
    | panic msg => rfl

/-- A copy writes to user pages only. -/
theorem copyoutFrom_space {s s' : Vm} {fuel : ℕ} {src : List UInt8} {ok : Bool}
    (h : s.mem.AddressSpace own pagetable sz) (hr : (copyoutFrom pagetable fuel va src).run vmStep s = .done ok s') :
    s'.mem.AddressSpace own pagetable sz := by
  induction fuel generalizing s va src with
  | zero =>
    cases hr
    exact h
  | succ fuel ih =>
    rw [copyoutFrom] at hr
    by_cases hnil : src = []
    · rw [if_pos hnil] at hr
      cases hr
      exact h
    · rw [if_neg hnil] at hr
      simp only [Prog.bind_eq] at hr
      rw [Prog.run_bind_done vmStep (run_walkaddr s pagetable _), addr_pgRoundDown] at hr
      by_cases hm : Mapped sz va
      · obtain ⟨q, ap, hq, haddr, hne⟩ := h.addr_mapped hm
        rw [haddr, if_neg hne] at hr
        exact ih (h.write hq _ _) hr
      · rw [h.addr_unmapped hm, if_pos rfl] at hr
        cases hr
        exact h

/-- What a copy of some bytes to `va` comes to. -/
theorem copyout_touches (h : X.vm.mem.AddressSpace own pagetable sz) (hva : va < 2 ^ 64) {src : List UInt8}
    (hsrc : src ≠ []) :
    ∃ ok vm, (inVm (copyout pagetable va src)).run (Kernel.step m me) X = .done ok { X with vm := vm } ∧
      vm.mem.AddressSpace own pagetable sz ∧
      InRange va src.length (Kernel.touched m me (inVm (copyout pagetable va src)) X) ∧
      (Kernel.touched m me (inVm (copyout pagetable va src)) X ≠ [] ↔ Mapped sz va) ∧ (ok = true → Mapped sz va) := by
  have hpos := List.length_pos_of_ne_nil hsrc
  obtain ⟨ws, hws, ok, vm, hrun, hemit, hok⟩ := copyoutFrom_returns h hva (le_refl src.length)
  have hrun' : (copyout pagetable va src).run vmStep X.vm = .done ok vm := hrun
  refine ⟨ok, vm, by rw [Kernel.run_inVm, hrun']; rfl, copyoutFrom_space h hrun, ?_⟩
  rw [touched_inVm]
  change InRange va src.length ((copyoutFrom pagetable src.length va src).emitted vmStep vmTouch X.vm) ∧
    ((copyoutFrom pagetable src.length va src).emitted vmStep vmTouch X.vm ≠ [] ↔ _) ∧ _
  rw [hemit]
  refine ⟨fun a ha => ?_, ⟨fun hne => ?_, fun hm => ?_⟩, fun ht => ?_⟩
  · obtain ⟨i, hi, -, -, rfl⟩ := (hws a).mp ha
    exact ⟨i, hi, rfl⟩
  · obtain ⟨a, ha⟩ := List.exists_mem_of_ne_nil ws hne
    obtain ⟨i, -, hm, -⟩ := (hws a).mp ha
    exact hm 0 (Nat.zero_le i)
  · refine List.ne_nil_of_mem ((hws _).mpr ⟨0, hpos, ?_, ?_, rfl⟩)
    · intro j hj
      obtain rfl := Nat.le_zero.mp hj
      exact hm
    · exact fun j hj => trivial
  · exact hok.mp ht 0 hpos

/-! ## Results and touched addresses of a run -/

/-- If the run returns, `Φ` holds of the result, the state and the user addresses it has touched. If it waits or
panics, `R` holds of the addresses touched until then. -/
structure Kernel.Ends (m : Machine ioSig ι) (me : ℕ) (R : List ℕ → Prop) (p : KM α) (X : Kernel ι)
    (Φ : α → Kernel ι → List ℕ → Prop) : Prop where
  returns : ∀ a X', p.run (Kernel.step m me) X = .done a X' → Φ a X' (Kernel.touched m me p X)
  stops : (∀ a X', p.run (Kernel.step m me) X ≠ .done a X') → R (Kernel.touched m me p X)

namespace Kernel.Ends
variable {β : Type} {R : List ℕ → Prop} {p : KM α} {f : α → KM β} {Φ : α → Kernel ι → List ℕ → Prop}

/-- A run that is known to return. -/
theorem done {a : α} (hr : p.run (Kernel.step m me) X = .done a X') (h : Φ a X' (Kernel.touched m me p X)) :
    Kernel.Ends m me R p X Φ := by
  refine ⟨fun b Y hb => ?_, fun hne => absurd hr (hne a X')⟩
  rw [hr] at hb
  cases hb
  exact h

theorem ret {a : α} (h : Φ a X []) : Kernel.Ends m me R (pure a) X Φ := done rfl h

theorem panic {msg : String} (h : R []) : Kernel.Ends m me R (.panic msg : KM α) X Φ := by
  refine ⟨fun a X' hr => ?_, fun _ => h⟩
  cases hr

theorem bind {Ψ : β → Kernel ι → List ℕ → Prop}
    (h : Kernel.Ends m me R p X fun a Y ws =>
      Kernel.Ends m me (fun vs => R (ws ++ vs)) (f a) Y fun b Z vs => Ψ b Z (ws ++ vs)) :
    Kernel.Ends m me R (p >>= f) X Ψ := by
  constructor
  · intro b Z hr
    obtain ⟨a, Y, ha, hb⟩ := Prog.run_bind_eq_done hr
    have := (h.returns a Y ha).returns b Z hb
    rwa [Kernel.touched, Kernel.touched, ← Prog.emitted_bind_done ha] at this
  · intro hne
    have he : Kernel.touched m me (p >>= f) X = _ := Prog.emitted_bind (Kernel.step m me) kTouch p f X
    rw [he]
    cases hr : p.run (Kernel.step m me) X with
    | done a Y =>
      refine (h.returns a Y hr).stops fun b Z hb => hne b Z ?_
      exact (Prog.run_bind_done _ hr).trans hb
    | blocked | panic msg =>
      rw [List.append_nil]
      refine h.stops fun a Y ha => ?_
      cases hr.symm.trans ha

theorem mono {Ψ : α → Kernel ι → List ℕ → Prop} {R' : List ℕ → Prop} (h : Kernel.Ends m me R p X Φ)
    (hR : ∀ ws, R ws → R' ws) (hi : ∀ a Y ws, Φ a Y ws → Ψ a Y ws) : Kernel.Ends m me R' p X Ψ :=
  ⟨fun a Y hr => hi a Y _ (h.returns a Y hr), fun hne => hR _ (h.stops hne)⟩

theorem aside (hp : p.Only Aside) (hR : R []) (h : ∀ a Y, Y.rest = X.rest → Φ a Y []) : Kernel.Ends m me R p X Φ := by
  constructor
  · intro a Y hr
    rw [touched_of_aside hp]
    exact h a Y (rest_of_aside hp hr)
  · intro _
    rwa [touched_of_aside hp]

/-- What follows such requests. -/
theorem seq_aside {Ψ : β → Kernel ι → List ℕ → Prop} (hp : p.Only Aside) (hR : R [])
    (h : ∀ a Y, Y.rest = X.rest → Kernel.Ends m me R (f a) Y Ψ) : Kernel.Ends m me R (p >>= f) X Ψ :=
  bind (aside hp hR h)

/-- What follows a request on a table that is answered at once. -/
theorem seq_op {o : KOp} {g : o.Res → KM β} {r : o.Res} {Y : Kernel ι} {Ψ : β → Kernel ι → List ℕ → Prop}
    (ho : Kernel.step m me o X = .done r Y) (ht : kTouch o X = []) (h : Kernel.Ends m me R (g r) Y Ψ) :
    Kernel.Ends m me R (.op (S := kSig) o >>= g) X Ψ := by
  have hemit : Kernel.touched m me (.op (S := kSig) o) X = [] := by
    simp only [Kernel.touched, Prog.op, Prog.emitted, ho, ht, List.append_nil]
  refine bind (done (Prog.run_call_done _ ho) ?_)
  rw [hemit]
  exact h

end Kernel.Ends

end Xv6Arm

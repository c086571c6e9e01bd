import Xv6Arm.Kernel.State
import Xv6Arm.Log.StoreWp

/-!
# A system call that runs alone

The requests of the kernel over the store of blocks instead of disk, buffers and
log. The tables are the same ones: no request on a table looks at the state below.
-/
namespace Xv6Arm
open Lib

/-- The outcome is one that the mode allows, and if it is a result, `K` holds. -/
def Mode.Allows (M : Mode) {ρ σ : Type} (K : ρ → σ → Prop) : Outcome ρ σ → Prop
  | .done r t => K r t
  | .panic msg => M.panics msg
  | .blocked => M.waits

section Allows
variable {M : Mode} {ρ σ τ : Type} {K : ρ → σ → Prop}

@[simp] theorem allows_done (r : ρ) (t : σ) : M.Allows K (.done r t) = K r t := rfl
@[simp] theorem allows_panic (msg : String) : M.Allows K (.panic msg) = M.panics msg := rfl
@[simp] theorem allows_blocked : M.Allows K .blocked = M.waits := rfl

theorem Mode.Allows.mono {L : ρ → σ → Prop} {o : Outcome ρ σ} (h : M.Allows K o) (hKL : ∀ r t, K r t → L r t) :
    M.Allows L o := by
  cases o with
  | done r t => exact hKL r t h
  | panic msg => exact h
  | blocked => exact h

theorem allows_map {f : τ → σ} {o : Outcome ρ τ} : M.Allows K (o.map f) = M.Allows (fun r t => K r (f t)) o := by
  cases o <;> rfl

end Allows

namespace Kernel
variable {ι κ : Type}

/-- The same tables over another state of disk, buffers and log and another inode cache. -/
def conc (X : Kernel ι) (io : κ) (c : ℕ → Inode) : Kernel κ where
  io := io
  vm := X.vm
  icache := c
  ftable := X.ftable
  pipes := X.pipes
  procs := X.procs
  nextpid := X.nextpid
  initproc := X.initproc
  cons := X.cons

/-- A request on a table other than the inode cache. -/
def OnTables : KOp → Prop
  | .io _ => False
  | .inode _ => False
  | _ => True

theorem pipeSleep_conc (X : Kernel ι) (io : κ) (c : ℕ → Inode) (me pi : ℕ) (ready : Pipe → Bool) :
    (X.conc io c).pipeSleep me pi ready = (X.pipeSleep me pi ready).map (·.conc io c) := by
  unfold pipeSleep
  rw [apply_ite (Outcome.map _)]
  rfl

theorem step_conc (m : Machine ioSig ι) (m' : Machine ioSig κ) (me : ℕ) (X : Kernel ι) (io : κ) (c : ℕ → Inode)
    {o : KOp} (ho : OnTables o) : step m' me o (X.conc io c) = (step m me o X).map (·.conc io c) := by
  cases o with
  | io o => exact ho.elim
  | inode o => exact ho.elim
  | vm o =>
    simp only [step, conc]
    cases vmStep o X.vm <;> rfl
  | file o =>
    simp only [step, conc]
    cases fileStep X.ftable o <;> rfl
  | pipe o =>
    cases o with
    | close pi w =>
      simp only [step, pipeStep, pipeClose]
      rw [apply_ite (Outcome.map _)]
      rfl
    | acquire pi =>
      simp only [step, pipeStep]
      exact pipeSleep_conc X io c me pi _
    | sleepWrite pi =>
      simp only [step, pipeStep]
      exact pipeSleep_conc X io c me pi _
    | sleepRead pi =>
      simp only [step, pipeStep]
      exact pipeSleep_conc X io c me pi _
    | init pi => rfl
    | release pi => rfl
    | get pi => rfl
    | put pi b => rfl
    | take pi => rfl
  | proc o =>
    cases o with
    | tryAlloc i =>
      simp only [step, procStep, tryAlloc]
      rw [apply_ite (Outcome.map _), apply_ite (Outcome.map _)]
      rfl
    | waitChild p =>
      simp only [step, procStep, waitChild, conc]
      cases firstIndex NPROC fun i => (X.procs i).parent == some p && (X.procs i).state == .zombie with
      | some i =>
        dsimp only
        rw [apply_ite (Outcome.map _)]
        rfl
      | none =>
        dsimp only
        rw [apply_ite (Outcome.map _)]
        rfl
    | kill pid =>
      simp only [step, procStep, kill, conc]
      cases firstIndex NPROC fun i => (X.procs i).pid == pid <;> rfl
    | get i => rfl
    | set i x => rfl
    | allocpid => rfl
    | release i => rfl
    | reparent p => rfl
    | zombie p status => rfl
    | initproc => rfl
  | cons o =>
    cases o with
    | putc b => rfl
    | unget b => rfl
    | getc =>
      simp only [step, consStep, conc]
      cases X.cons.input with
      | cons b l => rfl
      | nil =>
        dsimp only
        rw [apply_ite (Outcome.map _)]
        rfl

/-- A request on the tables leaves the rest alone. -/
theorem step_rest {m : Machine ioSig ι} {me : ℕ} {X Y : Kernel ι} {o : KOp} (ho : OnTables o) {r : o.Res}
    (h : step m me o X = .done r Y) : Y.io = X.io ∧ Y.icache = X.icache := by
  have hc := step_conc m m me X X.io X.icache ho
  rw [show X.conc X.io X.icache = X from rfl, h] at hc
  injection hc with _ hY
  rw [hY]
  exact ⟨rfl, rfl⟩

/-- A machine for tables only. -/
def idle : Machine ioSig ι := fun _ _ => .blocked

/-- The requests of process `me` over the store. -/
def spec (M : Mode) (me : ℕ) : OpSpec kSig (Kernel Store)
  | .io o, K, s => Store.spec M o (fun r w => K r { s with io := w }) s.io
  | o, K, s => M.Allows K (step idle me o s)

theorem spec_mono (M : Mode) (me : ℕ) : (spec M me).Mono := by
  intro o K L s h hK
  cases o with
  | io o => exact Store.spec_mono M o _ _ _ (fun r w => h r _) hK
  | vm o | inode o | file o | pipe o | proc o | cons o => exact Mode.Allows.mono hK h

/-- The kernel's state `s` has the tables of `S`, and below them what the store of `S` says. -/
def Backs (me : ℕ) (S : Kernel Store) (s : KState) : Prop :=
  ∃ io, s = S.conc io S.icache ∧ Store.Backs me S.io io

theorem kStep_simulates (me : ℕ) (M : Mode) :
    Machine.Simulates (kStep me) (spec M me) M.panics M.waits (Backs me) := by
  rintro o K S s ⟨io, rfl, h⟩ hK
  cases o with
  | io o =>
    have ho := Store.ioStep_simulates me M o _ S.io io h hK
    have hk : kStep me (.io o) (S.conc io S.icache) = (ioStep me o io).map (S.conc · S.icache) := rfl
    rw [hk]
    cases hr : ioStep me o io with
    | done r t =>
      rw [hr] at ho
      obtain ⟨w, hw, hK⟩ := ho
      exact ⟨{ S with io := w }, ⟨t, rfl, hw⟩, hK⟩
    | panic msg =>
      rw [hr] at ho
      exact ho
    | blocked =>
      rw [hr] at ho
      exact ho
  | inode o =>
    simp only [spec, step, allows_map] at hK
    have hk : kStep me (.inode o) (S.conc io S.icache) = (inodeStep me S.icache o).map (S.conc io) := rfl
    rw [hk]
    cases hr : inodeStep me S.icache o with
    | done r t =>
      rw [hr] at hK
      exact ⟨{ S with icache := t }, ⟨io, rfl, h⟩, hK⟩
    | panic msg =>
      rw [hr] at hK
      exact hK
    | blocked =>
      rw [hr] at hK
      exact hK
  | vm o | file o | pipe o | proc o | cons o =>
    simp only [spec] at hK
    rw [kStep, step_conc idle (ioStep me) me S io S.icache (by exact trivial)]
    unfold Mode.Allows at hK
    split at hK
    · rename_i r t hr
      obtain ⟨hio, hc⟩ := step_rest (m := idle) (X := S) (by exact trivial) hr
      rw [hr]
      exact ⟨t, ⟨io, by rw [hc], by rwa [hio]⟩, hK⟩
    · rename_i msg hr
      rw [hr]
      exact hK
    · rename_i hr
      rw [hr]
      exact hK

end Kernel
end Xv6Arm

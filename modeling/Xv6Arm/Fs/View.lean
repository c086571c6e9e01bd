import Xv6Arm.Fs.Format
import Xv6Arm.Kernel.Alone

/-!
# The file system as a system call that runs alone sees it

Inodes, free map and data blocks instead of encoded blocks, and the inode cache
as a table of references. A locked inode may be ahead of its copy on disk; all
others agree with it, whether they are cached or not.
-/
namespace Xv6Arm
open Lib

structure View where
  /-- The inodes: the cached copy if there is a valid one. -/
  ino : ℕ → Dinode
  /-- The inodes as the inode blocks hold them. -/
  dsk : ℕ → Dinode
  bit : ℕ → Bool
  dat : ℕ → Block
  /-- The bytes that a reader of each data block may get. -/
  may : ℕ → Set Block
  /-- The data blocks that were changed without a `log_write`. -/
  dirty : Set ℕ
  held : Finset ℕ
  log : Log
  /-- The inode number and the references of each entry of the inode cache in use. -/
  ent : ℕ → Option (ℕ × ℕ)
  locked : Finset ℕ
  /-- The entries in use whose copy of the inode is valid. -/
  loaded : Set ℕ

/-- Disk, buffers and log hold the inodes, bits and data blocks of `v`. -/
structure DiskRep (sb : Superblock) (v : View) (w : Store) : Prop where
  dsk : ∀ i < sb.ninodes, getDinode (w.blk (iblock sb i)) (i % IPB) = v.dsk i
  bit : ∀ b < sb.size, getBit (w.blk (bblock sb b)) (b % BPB) = v.bit b
  dat : ∀ b, IsData sb b → b ∈ v.held ∨ b ∉ v.dirty → w.blk b = v.dat b
  may : ∀ b, IsData sb b → w.blk b ∈ v.may b ∧ (b ∈ w.pinned ∨ w.disk b ∈ v.may b)
  dirty : ∀ b ∈ w.unsaved, b ∈ w.pinned ∨ IsData sb b ∧ b ∈ v.dirty
  /-- Nothing before the data blocks is ever free. -/
  used : ∀ b < datastart sb, v.bit b = true
  held : w.held = v.held
  heldData : ∀ b ∈ v.held, IsData sb b ∧ v.bit b = true
  log : w.log = v.log
  start : v.log.start = sb.logstart ∧ v.log.size = sb.nlog
  committing : v.log.committing = false
  pinned : w.pinned = v.log.lh.toFinset
  nodup : v.log.lh.Nodup
  home : ∀ b ∈ v.log.lh, sb.inodestart ≤ b
  limit : 0 < v.log.lh.length → v.log.lh.length + 1 ≤ v.log.size

/-- The entry of the inode cache as a table of references has it. -/
def Inode.entry (x : Inode) : Option (ℕ × ℕ) := if 0 < x.ref then some (x.inum, x.ref.toNat) else none

/-- The inode cache `c` has the entries of `v`, and `me` is the only process that holds a lock. -/
structure CacheRep (sb : Superblock) (me : ℕ) (v : View) (c : ℕ → Inode) : Prop where
  ref : ∀ k < NINODE, 0 ≤ (c k).ref
  ent : ∀ k < NINODE, v.ent k = (c k).entry
  out : ∀ k, NINODE ≤ k → v.ent k = none
  lock : ∀ k < NINODE, (c k).lock = Store.holder me v.locked k
  locked : ∀ k ∈ v.locked, v.ent k ≠ none
  unique : ∀ k l i n m, v.ent k = some (i, n) → v.ent l = some (i, m) → k = l
  loaded : ∀ k ∈ v.loaded, v.ent k ≠ none
  valid : ∀ k i n, v.ent k = some (i, n) → ((c k).valid = true ↔ k ∈ v.loaded)
  cached : ∀ k i n, v.ent k = some (i, n) → k ∈ v.loaded → (c k).d = v.ino i
  fresh : ∀ i, (∀ k n, v.ent k = some (i, n) → k ∉ v.loaded) → v.ino i = v.dsk i
  small : ∀ i < sb.ninodes, Small (v.ino i)

/-- The disk, the process that runs, what may happen besides a result, and how many blocks an
operation may log. -/
structure Env where
  sb : Superblock
  layout : Layout sb
  me : ℕ
  mode : Mode
  cap : ℕ

namespace Env
variable (E : Env)

/-- The state `s` has the tables of `X` and, below them, what the view `v` says. -/
def Rep (X : Kernel Unit) (v : View) (s : Kernel Store) : Prop :=
  ∃ w c, s = X.conc w c ∧ DiskRep E.sb v w ∧ CacheRep E.sb E.me v c

/-- From tables `X` and view `v`, the program does nothing that the mode forbids, and if it returns,
`Φ` holds. -/
def wp {α : Type} (p : KM α) (Φ : α → Kernel Unit → View → Prop) (X : Kernel Unit) (v : View) : Prop :=
  ∀ s, E.Rep X v s → p.wp (Kernel.spec E.mode E.me) (fun msg _ => E.mode.panics msg)
    (fun a t => ∃ Y v', E.Rep Y v' t ∧ Φ a Y v') s

section Rules
variable {E} {α β : Type} {X : Kernel Unit} {v : View}

theorem wp_ret {a : α} {Φ : α → Kernel Unit → View → Prop} (h : Φ a X v) : E.wp (pure a) Φ X v :=
  fun _ hs => ⟨X, v, hs, h⟩

theorem wp_panic {msg : String} {Φ : α → Kernel Unit → View → Prop} (h : E.mode.panics msg) :
    E.wp (.panic msg) Φ X v := fun _ _ => h

theorem wp_seq {p : KM α} {f : α → KM β} {Φ : β → Kernel Unit → View → Prop}
    (h : E.wp p (fun a Y v => E.wp (f a) Φ Y v) X v) : E.wp (p >>= f) Φ X v := by
  intro s hs
  rw [Prog.bind_eq, Prog.wp_bind]
  refine Prog.wp_mono (Kernel.spec_mono _ _) (h s hs) ?_
  rintro a t ⟨Y, v', hY, hw⟩
  exact hw t hY

/-- A view that says less about the same state. -/
theorem wp_forget {p : KM α} {Φ : α → Kernel Unit → View → Prop} {v' : View}
    (hv : ∀ s, E.Rep X v s → E.Rep X v' s) (h : E.wp p Φ X v') : E.wp p Φ X v := fun s hs => h s (hv s hs)

/-- What the representation says may be used. -/
theorem wp_rep {p : KM α} {Φ : α → Kernel Unit → View → Prop}
    (h : ∀ w c, DiskRep E.sb v w → CacheRep E.sb E.me v c → E.wp p Φ X v) : E.wp p Φ X v := by
  rintro s ⟨w, c, hs, hw, hc⟩
  exact h w c hw hc s ⟨w, c, hs, hw, hc⟩

/-- A request on a table other than the inode cache. -/
theorem wp_table {o : KOp} (ho : Kernel.OnTables o) {Φ : o.Res → Kernel Unit → View → Prop}
    (h : E.mode.Allows (fun r Y => Φ r Y v) (Kernel.step Kernel.idle E.me o X)) :
    E.wp (.op (S := kSig) o) Φ X v := by
  rintro s ⟨w, c, rfl, hw, hc⟩
  have hspec : ∀ K : o.Res → Kernel Store → Prop, E.mode.Allows K (Kernel.step Kernel.idle E.me o (X.conc w c)) →
      Kernel.spec E.mode E.me o K (X.conc w c) := by
    intro K hK
    cases o with
    | io o => exact ho.elim
    | _ => exact hK
  refine hspec _ ?_
  rw [Kernel.step_conc Kernel.idle Kernel.idle E.me X w c ho, allows_map]
  exact h.mono fun r Y hΦ => ⟨Y, v, ⟨w, c, rfl, hw, hc⟩, hΦ⟩

theorem wp_proc {o : ProcOp} {Φ : o.Res → Kernel Unit → View → Prop}
    (h : E.mode.Allows (fun r Y => Φ r Y v) (X.procStep E.me o)) : E.wp (proc o) Φ X v :=
  wp_table (o := .proc o) trivial h

theorem wp_pipe {o : PipeOp} {Φ : o.Res → Kernel Unit → View → Prop}
    (h : E.mode.Allows (fun r Y => Φ r Y v) (X.pipeStep E.me o)) : E.wp (pipe o) Φ X v :=
  wp_table (o := .pipe o) trivial h

theorem wp_cons {o : ConsOp} {Φ : o.Res → Kernel Unit → View → Prop}
    (h : E.mode.Allows (fun r Y => Φ r Y v) (X.consStep E.me o)) : E.wp (cons o) Φ X v :=
  wp_table (o := .cons o) trivial h

theorem wp_file {o : FileOp} {Φ : o.Res → Kernel Unit → View → Prop}
    (h : E.mode.Allows (fun r t => Φ r { X with ftable := t } v) (fileStep X.ftable o)) : E.wp (file o) Φ X v := by
  refine wp_table (o := .file o) trivial ?_
  rw [Kernel.step, allows_map]
  exact h

theorem wp_vmOp {o : VmOp} {Φ : o.Res → Kernel Unit → View → Prop}
    (h : E.mode.Allows (fun r t => Φ r { X with vm := t } v) (vmStep o X.vm)) :
    E.wp (.op (S := kSig) (.vm o)) Φ X v := by
  refine wp_table (o := .vm o) trivial ?_
  rw [Kernel.step, allows_map]
  exact h

/-- A program on memory runs as it does on memory alone. -/
theorem wp_vm {p : VmM α} {Φ : α → Kernel Unit → View → Prop}
    (h : E.mode.Allows (fun a t => Φ a { X with vm := t } v) (p.run vmStep X.vm)) : E.wp (inVm p) Φ X v := by
  induction p generalizing X with
  | ret a => exact wp_ret h
  | panic msg => exact wp_panic h
  | call o next ih =>
    refine wp_seq (p := .op (S := kSig) (.vm o)) (wp_vmOp ?_)
    rw [Prog.run] at h
    cases hr : vmStep o X.vm with
    | done r t =>
      rw [hr] at h
      exact ih r (X := { X with vm := t }) h
    | panic msg =>
      rw [hr] at h
      exact h
    | blocked =>
      rw [hr] at h
      exact h

theorem wp_inIo {p : IoM α} {Q : α → Kernel Store → Prop} {s : Kernel Store} {M : Mode} {me : ℕ}
    (h : M.wp p (fun a w => Q a { s with io := w }) s.io) :
    (inIo p).wp (Kernel.spec M me) (fun msg _ => M.panics msg) Q s := by
  induction p generalizing s with
  | ret a => exact h
  | panic msg => exact h
  | call o next ih =>
    refine Store.spec_mono M o _ _ _ (fun r w hw => ?_) h
    exact ih r (s := { s with io := w }) hw

/-- A program on blocks: it turns the view into one that goes with the same inode cache. -/
theorem wp_io {p : IoM α} {Φ : α → Kernel Unit → View → Prop}
    (h : ∀ w, DiskRep E.sb v w → E.mode.wp p (fun a w' => ∃ v', DiskRep E.sb v' w' ∧
      (∀ c, CacheRep E.sb E.me v c → CacheRep E.sb E.me v' c) ∧ Φ a X v') w) : E.wp (inIo p) Φ X v := by
  rintro s ⟨w, c, rfl, hw, hc⟩
  refine wp_inIo (Xv6Arm.wp_conseq (h w hw) ?_)
  rintro a w' ⟨v', hv, hcache, hΦ⟩
  exact ⟨X, v', ⟨w', c, rfl, hv, hcache c hc⟩, hΦ⟩

/-- A request on the inode cache: it turns the view into one that goes with the same disk. -/
theorem wp_inode {o : InodeOp} {Φ : o.Res → Kernel Unit → View → Prop}
    (h : ∀ c, CacheRep E.sb E.me v c → E.mode.Allows (fun r c' => ∃ v', CacheRep E.sb E.me v' c' ∧
      (∀ w, DiskRep E.sb v w → DiskRep E.sb v' w) ∧ Φ r X v') (inodeStep E.me c o)) :
    E.wp (inode o) Φ X v := by
  rintro s ⟨w, c, rfl, hw, hc⟩
  have hspec : ∀ K : o.Res → Kernel Store → Prop, E.mode.Allows K ((inodeStep E.me c o).map (X.conc w)) →
      Kernel.spec E.mode E.me (.inode o) K (X.conc w c) := fun K hK => hK
  refine hspec _ ?_
  rw [allows_map]
  refine (h c hc).mono ?_
  rintro r c' ⟨v', hv, hdisk, hΦ⟩
  exact ⟨X, v', ⟨w, c', rfl, hdisk w hw, hv⟩, hΦ⟩

end Rules
end Env
end Xv6Arm

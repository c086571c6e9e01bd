import Xv6Arm.Fs.Writei
import Xv6Arm.Fs.Dir

/-!
# Runs on the machine

A precondition over views speaks about the runs of the kernel's own machine: the
state it starts from is one that tables and a view describe, and so is the state
it ends in. A disk that has just been mounted is described by what is on it.
-/
namespace Xv6Arm
open Lib

/-- The message of a panic. -/
def Outcome.message {ρ σ : Type} : Outcome ρ σ → Option String
  | .panic msg => some msg
  | _ => none

theorem Outcome.eq_panic {ρ σ : Type} {o : Outcome ρ σ} {msg : String} (h : message o = some msg) : o = .panic msg := by
  cases o with
  | panic msg' =>
    cases h
    rfl
  | done r s => cases h
  | blocked => cases h

/-- The state `s` of the kernel is what the tables `X` and the view `v` describe, and `me` is the process
that runs. -/
def Holds (sb : Superblock) (me : ℕ) (X : Kernel Unit) (v : View) (s : KState) : Prop :=
  ∃ w io c, s = X.conc io c ∧ Store.Backs me w io ∧ DiskRep sb v w ∧ CacheRep sb me v c

/-- A run from a state that `X` and `v` describe. -/
theorem Env.run {E : Env} {α : Type} {p : KM α} {Φ : α → Kernel Unit → View → Prop} {X : Kernel Unit} {v : View}
    {s : KState} (h : E.wp p Φ X v) (hs : Holds E.sb E.me X v s) :
    match p.run (kStep E.me) s with
    | .done a t => ∃ Y v', Holds E.sb E.me Y v' t ∧ Φ a Y v'
    | .panic msg => E.mode.panics msg
    | .blocked => E.mode.waits := by
  obtain ⟨w, io, c, rfl, hb, hw, hc⟩ := hs
  have hrun := (Kernel.kStep_simulates E.me E.mode).run (s := X.conc io c) ⟨io, rfl, hb⟩ (h _ ⟨w, c, rfl, hw, hc⟩)
  generalize p.run (kStep E.me) (X.conc io c) = o at hrun ⊢
  cases o with
  | done a t =>
    obtain ⟨_, ⟨io', rfl, hb'⟩, Y, v', ⟨w', c', rfl, hw', hc'⟩, hΦ⟩ := hrun
    exact ⟨Y, v', ⟨w', io', c', rfl, hb', hw', hc'⟩, hΦ⟩
  | panic msg => exact hrun
  | blocked => exact hrun

/-! ## A mounted disk -/

/-- The file system on the disk `d`, with nothing cached. -/
def View.ofDisk (sb : Superblock) (d : Disk) : View where
  ino i := getDinode (d (iblock sb i)) (i % IPB)
  dsk i := getDinode (d (iblock sb i)) (i % IPB)
  bit b := getBit (d (bblock sb b)) (b % BPB)
  dat := d
  may b := {d b}
  dirty := ∅
  held := ∅
  log := { start := sb.logstart, size := sb.nlog, outstanding := 0, committing := false, lh := [] }
  ent _ := none
  locked := ∅
  loaded := ∅

/-- Disk, buffers and log after `binit` and `initlog`, with nothing to recover. -/
def mounted (sb : Superblock) (d : Disk) : IoState where
  disk := d
  bcache := Bcache.binit
  log := { start := sb.logstart, size := sb.nlog, outstanding := 0, committing := false, lh := [] }

/-- The inode cache after `iinit`. -/
def iinit : ℕ → Inode := fun _ =>
  { inum := 0, ref := 0, lock := none, valid := false, d := View.blank 0 }

theorem backs_mounted (sb : Superblock) (me : ℕ) (d : Disk) :
    Store.Backs me { blk := d, disk := d, held := ∅, pinned := ∅, log := (mounted sb d).log } (mounted sb d) := by
  have hbuf : ∀ x ∈ Bcache.binit, x.dev = 0 ∧ x.refcnt = 0 ∧ x.lock = none := by
    intro x hx
    rw [List.eq_of_mem_replicate hx]
    exact ⟨rfl, rfl, rfl⟩
  have hmiss : ∀ b, Bcache.find b Bcache.binit = none := by
    intro b
    apply List.find?_eq_none.mpr
    intro x hx
    simp [Buf.holds, (hbuf x hx).1]
  refine ⟨⟨?_, by simp [mounted, Bcache.binit], ?_, fun x hx _ => (hbuf x hx).2, ?_⟩, rfl, ?_, ?_, fun _ => rfl⟩
  · refine List.pairwise_iff_forall_sublist.mpr ?_
    intro x y hxy b hb
    have hx : x ∈ Bcache.binit := hxy.subset (by simp)
    simp [Buf.holds, (hbuf x hx).1] at hb
  · intro b
    simp [usage, mounted, hmiss b, Store.use, Store.tally, Store.holder]
  · intro b _
    simp [Store.use, Store.holder]
  · intro b x hx
    rw [show (mounted sb d).bcache = Bcache.binit from rfl, hmiss b] at hx
    cases hx
  · intro b x hx
    rw [show (mounted sb d).bcache = Bcache.binit from rfl, hmiss b] at hx
    cases hx

theorem holds_mounted {sb : Superblock} {d : Disk} (me : ℕ) (X : Kernel Unit)
    (hused : ∀ b < datastart sb, getBit (d (bblock sb b)) (b % BPB) = true) :
    Holds sb me X (.ofDisk sb d) (X.conc (mounted sb d) iinit) := by
  refine ⟨_, _, _, rfl, backs_mounted sb me d, ?_, ?_⟩
  · exact ⟨fun _ _ => rfl, fun _ _ => rfl, fun _ _ _ => rfl, fun _ _ => ⟨rfl, .inr rfl⟩, fun b hb => absurd rfl hb, hused, rfl,
      by simp [View.ofDisk], rfl, ⟨rfl, rfl⟩, rfl, rfl, List.nodup_nil, by simp [View.ofDisk], by simp [View.ofDisk]⟩
  · exact ⟨fun _ _ => le_rfl, fun _ _ => rfl, fun _ _ => rfl, fun _ _ => rfl, by simp [View.ofDisk], by simp [View.ofDisk],
      by simp [View.ofDisk], by simp [View.ofDisk], by simp [View.ofDisk], fun _ _ => rfl, fun i _ => small_getDinode _ _⟩

/-! ## A file that is open -/

/-- In a transaction, with the inodes `f` in the inode cache, of which entry `k` is locked. -/
def View.opened (sb : Superblock) (d : Disk) (f : ℕ → Option ℕ) (k : ℕ) : View :=
  { (View.ofDisk sb d).beginOp with ent := fun l => (f l).map (·, 1), locked := {k}, loaded := {k} }

/-- The inode cache that goes with it, for process `me`. -/
def openCache (sb : Superblock) (d : Disk) (me : ℕ) (f : ℕ → Option ℕ) (k : ℕ) : ℕ → Inode := fun l =>
  match f l with
  | none => iinit l
  | some i => { inum := i, ref := 1, lock := if l = k then some me else none, valid := decide (l = k),
                d := getDinode (d (iblock sb i)) (i % IPB) }

/-- The state of the kernel with tables `X`. -/
def openState (sb : Superblock) (d : Disk) (me : ℕ) (f : ℕ → Option ℕ) (k : ℕ) (X : Kernel Unit) : KState :=
  X.conc { mounted sb d with log := { (mounted sb d).log with outstanding := 1 } } (openCache sb d me f k)

theorem holds_opened {sb : Superblock} {d : Disk} (me : ℕ) (X : Kernel Unit) {f : ℕ → Option ℕ} {k : ℕ} (hk : f k ≠ none)
    (hlt : ∀ l, f l ≠ none → l < NINODE) (hinj : ∀ l l' i, f l = some i → f l' = some i → l = l')
    (hused : ∀ b < datastart sb, getBit (d (bblock sb b)) (b % BPB) = true) :
    Holds sb me X (.opened sb d f k) (openState sb d me f k X) := by
  have hent : ∀ {l j n}, (View.opened sb d f k).ent l = some (j, n) → f l = some j ∧ n = 1 := by
    intro l j n hl
    obtain ⟨i, hi, he⟩ := Option.map_eq_some_iff.mp hl
    cases he
    exact ⟨hi, rfl⟩
  refine ⟨_, _, _, rfl, (backs_mounted sb me d).setLog _, ?_, ?_⟩
  · exact ⟨fun _ _ => rfl, fun _ _ => rfl, fun _ _ _ => rfl, fun _ _ => ⟨rfl, .inr rfl⟩, fun b hb => absurd rfl hb, hused, rfl,
      by simp [View.opened, View.ofDisk], rfl, ⟨rfl, rfl⟩, rfl, rfl, List.nodup_nil, by simp [View.opened, View.ofDisk],
      by simp [View.opened, View.ofDisk]⟩
  · refine ⟨?_, ?_, ?_, ?_, ?_, ?_, ?_, ?_, ?_, fun _ _ => rfl, fun i _ => small_getDinode _ _⟩
    · intro l _
      cases hf : f l <;> simp [openCache, hf, iinit]
    · intro l _
      cases hf : f l <;> simp [View.opened, openCache, hf, iinit, Inode.entry]
    · intro l hl
      cases hf : f l with
      | none => simp [View.opened, hf]
      | some i => exact absurd (hlt l (by simp [hf])) (by omega)
    · intro l _
      cases hf : f l with
      | none =>
        have : l ≠ k := fun he => hk (he ▸ hf)
        simp [openCache, hf, iinit, View.opened, Store.holder, this]
      | some i => simp [openCache, hf, View.opened, Store.holder]
    · intro l hl
      obtain rfl := Finset.mem_singleton.mp hl
      simpa [View.opened] using hk
    · intro l l' j n m h1 h2
      exact hinj l l' j (hent h1).1 (hent h2).1
    · intro l hl
      obtain rfl : l = k := hl
      simpa [View.opened] using hk
    · intro l j n hl
      simp [openCache, (hent hl).1, View.opened]
    · intro l j n hl _
      simp [openCache, (hent hl).1, View.opened, View.ofDisk]

/-- Only inode `i` is in the cache, at entry `k`. -/
def only (k i : ℕ) : ℕ → Option ℕ := Function.update (fun _ => none) k (some i)

theorem holds_only {sb : Superblock} {d : Disk} (me : ℕ) (X : Kernel Unit) {k i : ℕ} (hk : k < NINODE)
    (hused : ∀ b < datastart sb, getBit (d (bblock sb b)) (b % BPB) = true) :
    Holds sb me X (.opened sb d (only k i) k) (openState sb d me (only k i) k X) := by
  have honly : ∀ {l}, only k i l ≠ none → l = k := by
    intro l hl
    by_contra hne
    exact hl (Function.update_of_ne hne _ _)
  refine holds_opened me X (by simp [only]) (fun l hl => honly hl ▸ hk) (fun l l' j h1 h2 => ?_) hused
  rw [honly (l := l) (by simp [h1]), honly (l := l') (by simp [h2])]

/-! ## A small disk -/

/-- The tables of a kernel that nothing runs on. -/
def bare : Kernel Unit where
  io := ()
  vm := { freelist := [], mem := fun _ _ => 0 }
  icache := iinit
  ftable _ :=
    { type := .none, ref := 0, readable := false, writable := false, pipe := 0, ip := 0, off := 0, major := 0 }
  pipes _ := { lock := none, data := fun _ => 0, nread := 0, nwrite := 0, readopen := false, writeopen := false }
  procs _ :=
    { lock := none, state := .unused, parent := none, killed := false, xstate := 0, pid := 0, sz := 0, pagetable := 0,
      ofile := fun _ => none, cwd := none, tf := ⟨0, 0, 0, 0⟩, name := [] }
  nextpid := 1
  initproc := 0
  cons := ⟨[], []⟩

/-- A disk of 100 blocks. -/
def small : Superblock :=
  { size := 100, ninodes := 64, nlog := 31, logstart := 2, inodestart := 33, bmapstart := 38 }

theorem small_layout : Layout small := ⟨by decide, by decide, by decide⟩

/-- The root directory, with its entries in block 39, and one empty file named `a`. -/
def smallDisk : Disk := fun b =>
  if b = 33 then
    putDinode (putDinode (fun _ => 0) 1
      { type := T_DIR, major := 0, minor := 0, nlink := 1, size := 48, addrs := fun j => if j = 0 then 39 else 0 })
      2 { type := T_FILE, major := 0, minor := 0, nlink := 1, size := 0, addrs := fun _ => 0 }
  else if b = 38 then fun j => if j < 5 then 255 else 0
  else if b = 39 then putBytes (fun _ => 0) 0 (mkDirent [46] 1 ++ mkDirent [46, 46] 1 ++ mkDirent [97] 2)
  else fun _ => 0

theorem smallDisk_used : ∀ b < datastart small, getBit (smallDisk (bblock small b)) (b % BPB) = true := by decide +kernel

/-- The only block in use is that of the root. -/
theorem smallDisk_uses (i : ℕ) (s : Slot) (b : ℕ) :
    (View.ofDisk small smallDisk).Uses small i s b ↔ i = 1 ∧ s = .addr 0 ∧ b = 39 := by
  have hlive : ∀ i < 64, (getDinode (smallDisk (iblock small i)) (i % IPB)).type ≠ 0 → i = 1 ∨ i = 2 := by decide +kernel
  have h1 : ∀ j, (getDinode (smallDisk (iblock small 1)) (1 % IPB)).addrs j = if j = 0 then 39 else 0 := by decide +kernel
  have h2 : ∀ j, (getDinode (smallDisk (iblock small 2)) (2 % IPB)).addrs j = 0 := by decide +kernel
  constructor
  · rintro ⟨⟨hi, ht⟩, he, hne⟩
    rcases hlive i hi ht with rfl | rfl
    · cases s with
      | addr j =>
        have hj : (if j = 0 then 39 else 0) = b := (h1 j).symm.trans he
        split at hj
        · rename_i h0
          exact ⟨rfl, by rw [h0], hj.symm⟩
        · exact absurd hj.symm hne
      | entry j => exact absurd (he.symm.trans (View.slot_entry ((h1 _).trans (if_neg (by decide))))) hne
    · cases s with
      | addr j => exact absurd (he.symm.trans (h2 j)) hne
      | entry j => exact absurd (he.symm.trans (View.slot_entry (h2 _))) hne
  · rintro ⟨rfl, rfl, rfl⟩
    exact ⟨⟨by decide, by decide +kernel⟩, h1 0, by decide⟩

theorem smallDisk_acct : Acct small (View.ofDisk small smallDisk) := by
  have hbit : ∀ b < 100, 39 ≤ b → (getBit (smallDisk (bblock small b)) (b % BPB) = true ↔ b = 39) := by decide +kernel
  refine ⟨?_, ?_, ?_⟩
  · intro i s b hu
    obtain ⟨-, -, rfl⟩ := (smallDisk_uses i s b).mp hu
    exact ⟨by decide, by decide⟩
  · intro i s j t b hu hu'
    obtain ⟨rfl, rfl, -⟩ := (smallDisk_uses i s b).mp hu
    obtain ⟨rfl, rfl, -⟩ := (smallDisk_uses j t b).mp hu'
    exact ⟨rfl, rfl⟩
  · intro b hb
    refine (hbit b hb.2 hb.1).trans ⟨?_, ?_⟩
    · rintro rfl
      exact ⟨1, .addr 0, (smallDisk_uses _ _ _).mpr ⟨rfl, rfl, rfl⟩⟩
    · rintro ⟨i, s, hu⟩
      exact ((smallDisk_uses i s b).mp hu).2.2

end Xv6Arm

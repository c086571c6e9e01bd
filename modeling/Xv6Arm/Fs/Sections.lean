import Xv6Arm.Fs.Icache

/-!
# Sections on blocks

The parts of the file system that read or change one block, between `bread` and
`brelse`: what each does to the view. A block of the log area is never touched by
them, so all of them work on home blocks.
-/
namespace Xv6Arm
open Lib

namespace View

/-- `bread` of a data block that had the bytes `d`. -/
@[simps -fullyApplied] def hold (b : ℕ) (d : Block) (v : View) : View :=
  { v with dat := Function.update v.dat b d, held := insert b v.held }

@[simps -fullyApplied] def bset (b : ℕ) (d : Block) (v : View) : View :=
  { v with dat := Function.update v.dat b d, may := Function.update v.may b (insert d (v.may b)), dirty := insert b v.dirty }

@[simps -fullyApplied] def logWrite (b : ℕ) (v : View) : View :=
  { v with may := Function.update v.may b {v.dat b}, dirty := v.dirty \ {b}, log := v.log.append b }

@[simps -fullyApplied] def release (b : ℕ) (v : View) : View := { v with held := v.held.erase b }

/-- The bit of block `b` is written to the free map. -/
@[simps -fullyApplied] def setBit (sb : Superblock) (b : ℕ) (x : Bool) (v : View) : View :=
  { v with bit := Function.update v.bit b x, log := v.log.append (bblock sb b) }

@[simps -fullyApplied] def bzero (b : ℕ) (v : View) : View :=
  { v with dat := Function.update v.dat b fun _ => 0, may := Function.update v.may b {fun _ => 0},
           dirty := v.dirty \ {b}, log := v.log.append b }

/-- Block `b` is marked as used and zeroed. -/
def alloc (sb : Superblock) (b : ℕ) (v : View) : View := (v.setBit sb b true).bzero b

/-- Inode `i` is written to its block. -/
@[simps -fullyApplied] def iupdate (sb : Superblock) (i : ℕ) (d : Dinode) (v : View) : View :=
  { v with dsk := Function.update v.dsk i d, log := v.log.append (iblock sb i) }

/-- The inode that `ialloc` writes. -/
def blank (type : Int16) : Dinode where
  type := type
  major := 0
  minor := 0
  nlink := 0
  size := 0
  addrs := fun _ => 0

@[simps -fullyApplied] def beginOp (v : View) : View := { v with log := { v.log with outstanding := 1 } }

/-- A reader of block `b` may get the bytes `d`. -/
structure Sees (v : View) (b : ℕ) (d : Block) : Prop where
  may : d ∈ v.may b
  eq : b ∉ v.dirty → d = v.dat b

/-- A block that was read and given back unchanged. -/
theorem release_hold {v : View} {b : ℕ} (hb : b ∉ v.held) : (v.hold b (v.dat b)).release b = v := by
  simp [hold, release, Finset.erase_insert hb]

end View

/-- The first block of the free map that is not in use. -/
structure FirstFree (sb : Superblock) (bit : ℕ → Bool) (b : ℕ) : Prop where
  lt : b < sb.size
  free : bit b = false
  first : ∀ b' < b, bit b' = true

/-! ## Room for buffers and in the log -/

namespace Env
variable {E : Env} {T : Finset ℕ} {n : ℕ} {v : View}

/-- There is a buffer to read one more block. -/
def Reads (E : Env) (v : View) : Prop :=
  (v.held ∪ v.log.lh.toFinset).card < NBUF ∨ E.mode.panics "bget: no buffers"

/-- The blocks of `T` and `n` more can be logged; all blocks in use and the free map are among them. -/
def Fits (E : Env) (T : Finset ℕ) (n : ℕ) (v : View) : Prop :=
  (v.held ∪ v.log.lh.toFinset ⊆ T ∧ (∀ b < E.sb.size, bblock E.sb b ∈ T) ∧ T.card + n ≤ E.cap ∧
    E.cap < LOGSIZE ∧ E.cap + 1 < E.sb.nlog) ∨
  (E.mode.panics "bget: no buffers" ∧ E.mode.panics "too big a transaction")

def InOp (E : Env) (v : View) : Prop := 1 ≤ v.log.outstanding ∨ E.mode.panics "log_write outside of trans"

theorem Fits.reads (h : E.Fits T n v) : E.Reads v := by
  rcases h with ⟨hsub, -, hcard, hcap, -⟩ | ⟨hbuf, -⟩
  · have := Finset.card_le_card hsub
    exact .inl (lt_of_le_of_lt (this.trans (by omega)) hcap)
  · exact .inr hbuf

/-- One of the `n` blocks is chosen. -/
theorem Fits.widen (b : ℕ) (h : E.Fits T (n + 1) v) : E.Fits (insert b T) n v := by
  rcases h with ⟨hsub, hmap, hcard, hcap⟩ | hlax
  · refine .inl ⟨hsub.trans (Finset.subset_insert b T), fun b' hb' => Finset.mem_insert_of_mem (hmap b' hb'), ?_, hcap⟩
    have := Finset.card_insert_le b T
    omega
  · exact .inr hlax

theorem Fits.less {m : ℕ} (h : E.Fits T n v) (hm : m ≤ n) : E.Fits T m v := by
  rcases h with ⟨hsub, hmap, hcard, hcap⟩ | hlax
  · exact .inl ⟨hsub, hmap, by omega, hcap⟩
  · exact .inr hlax

/-- The budget after more of the blocks of `T` are held or logged. -/
theorem Fits.keep {v' : View} (h : E.Fits T n v)
    (hv : (∀ b < E.sb.size, bblock E.sb b ∈ T) → v'.held ∪ v'.log.lh.toFinset ⊆ v.held ∪ v.log.lh.toFinset ∪ T) :
    E.Fits T n v' := by
  rcases h with ⟨hsub, hmap, hrest⟩ | hlax
  · exact .inl ⟨(hv hmap).trans (Finset.union_subset hsub subset_rfl), hmap, hrest⟩
  · exact .inr hlax

end Env

@[simp] theorem Log.toFinset_append (b : ℕ) (l : Log) : (l.append b).lh.toFinset = insert b l.lh.toFinset := by
  unfold Log.append
  by_cases hb : b ∈ l.lh
  · rw [if_pos hb]
    exact (Finset.insert_eq_self.mpr (List.mem_toFinset.mpr hb)).symm
  · rw [if_neg hb]
    ext x
    simp

theorem Log.mem_append {b x : ℕ} {l : Log} : x ∈ (l.append b).lh ↔ x ∈ l.lh ∨ x = b := by
  rw [← List.mem_toFinset, Log.toFinset_append]
  simp [or_comm]

theorem Log.append_rest (b : ℕ) (l : Log) : (l.append b).start = l.start ∧ (l.append b).size = l.size ∧
    (l.append b).outstanding = l.outstanding ∧ (l.append b).committing = l.committing := by
  unfold Log.append
  split <;> exact ⟨rfl, rfl, rfl, rfl⟩

@[simp] theorem Log.append_outstanding (b : ℕ) (l : Log) : (l.append b).outstanding = l.outstanding :=
  (Log.append_rest b l).2.2.1

theorem Log.append_length (b : ℕ) (l : Log) :
    (l.append b).lh.length = l.lh.length ∨ (l.append b).lh.length = l.lh.length + 1 := by
  unfold Log.append
  split
  · exact .inl rfl
  · exact .inr (by simp)

theorem Log.nodup_append {b : ℕ} {l : Log} (h : l.lh.Nodup) : (l.append b).lh.Nodup := by
  unfold Log.append
  by_cases hb : b ∈ l.lh
  · rwa [if_pos hb]
  · rw [if_neg hb]
    exact List.nodup_append.mpr ⟨h, by simp, by simpa using fun x hx (hxb : x = b) => hb (hxb ▸ hx)⟩

/-! ## One block changes -/

namespace DiskRep
variable {sb : Superblock} {v v' : View} {w w' : Store} {b : ℕ}

theorem settled (h : DiskRep sb v w) (hb : ¬IsData sb b ∨ b ∉ v.dirty) : w.Settled b := by
  by_cases hu : b ∈ w.unsaved
  · rcases h.dirty b hu with hp | hd
    · exact .inr hp
    · exact absurd hd (by tauto)
  · exact .inl hu

theorem notHeld (h : DiskRep sb v w) (hb : ¬IsData sb b ∨ v.bit b = false) : b ∉ w.held := by
  rw [h.held]
  intro hm
  obtain ⟨hd, hbit⟩ := h.heldData b hm
  rcases hb with hb | hb
  · exact hb hd
  · rw [hbit] at hb
    cases hb

theorem pin (h : DiskRep sb v w) : b ∈ w.log.lh ↔ b ∈ w.pinned := by
  rw [h.log, h.pinned, List.mem_toFinset]

/-- A home block gets new bytes and is logged. -/
theorem logged (h : DiskRep sb v w) (hb : sb.inodestart ≤ b) (hlen : w.log.lh.length + 1 < w.log.size)
    (hblk : ∀ x ≠ b, w'.blk x = w.blk x) (hdisk : w'.disk = w.disk) (hheld : w'.held = w.held)
    (hpin : w'.pinned = insert b w.pinned) (hlog : w'.log = w.log.append b)
    (hdsk : ∀ i < sb.ninodes, getDinode (w'.blk (iblock sb i)) (i % IPB) = v'.dsk i)
    (hbit : ∀ x < sb.size, getBit (w'.blk (bblock sb x)) (x % BPB) = v'.bit x)
    (hdat : ∀ x, IsData sb x → x ∈ v'.held ∨ x ∉ v'.dirty → w'.blk x = v'.dat x)
    (hmayb : IsData sb b → w'.blk b ∈ v'.may b) (hmay : ∀ x ≠ b, v'.may x = v.may x)
    (hused : ∀ x < datastart sb, v'.bit x = true) (hvheld : v'.held = v.held)
    (hvbit : ∀ x ∈ v.held, v'.bit x = true) (hdirty : ∀ x ∈ v.dirty, x ≠ b → x ∈ v'.dirty)
    (hvlog : v'.log = v.log.append b) : DiskRep sb v' w' := by
  obtain ⟨hstart, hsize, -, hcom⟩ := Log.append_rest b v.log
  refine ⟨hdsk, hbit, hdat, ?_, ?_, hused, ?_, ?_, ?_, ?_, ?_, ?_, ?_, ?_, ?_⟩
  · intro x hx
    rw [hpin]
    by_cases hxb : x = b
    · subst hxb
      exact ⟨hmayb hx, .inl (Finset.mem_insert_self ..)⟩
    · obtain ⟨hb', hd'⟩ := h.may x hx
      rw [hblk x hxb, hdisk, hmay x hxb]
      exact ⟨hb', hd'.imp_left Finset.mem_insert_of_mem⟩
  · intro x hx
    rw [hpin]
    by_cases hxb : x = b
    · exact .inl (by simp [hxb])
    · rcases h.dirty x ((Store.unsaved_of_ne hblk (fun y _ => by rw [hdisk]) hx).resolve_right hxb) with hp | ⟨hd, hm⟩
      · exact .inl (Finset.mem_insert_of_mem hp)
      · exact .inr ⟨hd, hdirty x hm hxb⟩
  · rw [hheld, hvheld, h.held]
  · intro x hx
    rw [hvheld] at hx
    exact ⟨(h.heldData x hx).1, hvbit x hx⟩
  · rw [hlog, hvlog, h.log]
  · rw [hvlog, hstart, hsize]
    exact h.start
  · rw [hvlog, hcom]
    exact h.committing
  · rw [hpin, hvlog, Log.toFinset_append, h.pinned]
  · rw [hvlog]
    exact Log.nodup_append h.nodup
  · intro x hx
    rw [hvlog, Log.mem_append] at hx
    rcases hx with hx | rfl
    · exact h.home x hx
    · exact hb
  · intro _
    have hl := Log.append_length b v.log
    rw [h.log] at hlen
    rw [hvlog, hsize]
    omega

theorem getDinode_update (h : DiskRep sb v w) (hL : Layout sb) {d : Block} {i : ℕ} (hi : i < sb.ninodes)
    (hb : sb.bmapstart ≤ b) : getDinode (Function.update w.blk b d (iblock sb i)) (i % IPB) = v.dsk i := by
  rw [Function.update_of_ne ((hL.iblock_lt hi).trans_le hb).ne]
  exact h.dsk i hi

theorem getBit_update (h : DiskRep sb v w) {d : Block} {x : ℕ} (hx : x < sb.size)
    (hb : b < sb.bmapstart ∨ datastart sb ≤ b) : getBit (Function.update w.blk b d (bblock sb x)) (x % BPB) = v.bit x := by
  have h1 : sb.bmapstart ≤ bblock sb x := bblock_ge
  have h2 := bblock_lt hx
  rw [Function.update_of_ne (by omega)]
  exact h.bit x hx

theorem dat_update (h : DiskRep sb v w) {d : Block} {x : ℕ} (hx : IsData sb x) (hm : x ∈ v.held ∨ x ∉ v.dirty)
    (hb : b < datastart sb) : Function.update w.blk b d x = v.dat x := by
  rw [Function.update_of_ne (by have := hx.1; omega)]
  exact h.dat x hx hm

end DiskRep

/-! ## The sections -/

namespace Env
variable {E : Env} {X : Kernel Unit} {v : View} {T : Finset ℕ} {n b : ℕ}

section Store
variable {v : View} {w : Store}

theorem Reads.room (h : E.Reads v) (hw : DiskRep E.sb v w) : w.Room b ∨ E.mode.panics "bget: no buffers" := by
  refine h.imp_left fun hc => .inr ?_
  rwa [hw.held, hw.pinned]

theorem Fits.logs (h : E.Fits T n v) (hin : E.InOp v) (hw : DiskRep E.sb v w) : E.mode.Logs w.log := by
  rw [hw.log]
  refine ⟨?_, hin⟩
  rcases h with ⟨hsub, -, hcard, hcap, hnlog⟩ | ⟨-, hbig⟩
  · have hc : v.log.lh.toFinset.card ≤ T.card := Finset.card_le_card (Finset.union_subset_right hsub)
    rw [List.toFinset_card_of_nodup hw.nodup] at hc
    have := hw.start.2
    exact .inl ⟨by omega, by omega⟩
  · exact .inr hbig

/-- The section that replaces the bytes of a block that nobody holds and logs it. -/
theorem wp_rewrite {f : Block → Block} {Q : Unit → Store → Prop} (hw : DiskRep E.sb v w) (hb : b ∉ w.held)
    (hr : E.Reads v) (hl : E.mode.Logs w.log)
    (hQ : ∀ d w', w.Sees b d → w.log.lh.length + 1 < w.log.size →
      w'.blk = Function.update w.blk b (f d) → w'.disk = w.disk → w'.held = w.held → w'.pinned = insert b w.pinned →
      w'.log = w.log.append b → Q () w') :
    E.mode.wp (bread b >>= fun d => bset b (f d) >>= fun _ => Xv6Arm.logWrite b >>= fun _ => brelse b) Q w := by
  refine Xv6Arm.wp_seq (wp_bread hb (hr.room hw) fun d hd => ?_)
  refine Xv6Arm.wp_seq (wp_bset (by simp) (Xv6Arm.wp_seq (wp_logWrite (by simp) ?_ hl fun hlen => ?_)))
  · exact hw.pin
  · refine wp_brelse (by simp) (hQ d _ hd hlen ?_ rfl ?_ rfl rfl)
    · simp
    · simp [Finset.erase_insert hb]

end Store

theorem wp_bread {Φ : Block → Kernel Unit → View → Prop} (hb : IsData E.sb b) (hbit : v.bit b = true)
    (hnh : b ∉ v.held) (hr : E.Reads v)
    (h : ∀ d, v.Sees b d → Φ d X (v.hold b d)) :
    E.wp (inIo (bread b)) Φ X v := by
  refine wp_io fun w hw => Xv6Arm.wp_bread (by rwa [hw.held]) (hr.room hw) fun d hd => ?_
  have hmay : d ∈ v.may b := by
    obtain ⟨hblk, hdisk⟩ := hw.may b hb
    rcases hd with rfl | ⟨hp, rfl⟩
    · exact hblk
    · exact hdisk.resolve_left hp
  refine ⟨v.hold b d, ?_, fun c hc => hc.of_eq rfl rfl rfl rfl rfl, h d ⟨hmay, fun hm => ?_⟩⟩
  · refine ⟨?_, ?_, ?_, ?_, ?_, hw.used, ?_, ?_, hw.log, hw.start, hw.committing, hw.pinned, hw.nodup, hw.home,
      hw.limit⟩
    · intro i hi
      exact hw.getDinode_update E.layout hi (bmapstart_lt_datastart.le.trans hb.1)
    · intro x hx
      exact hw.getBit_update hx (.inr hb.1)
    · intro x hx hm
      by_cases hxb : x = b
      · subst hxb
        simp [View.hold]
      · simp only [View.hold, Finset.mem_insert, hxb, false_or] at hm
        simpa [View.hold, hxb] using hw.dat x hx hm
    · intro x hx
      by_cases hxb : x = b
      · subst hxb
        exact ⟨by simpa using hmay, (hw.may x hx).2⟩
      · simpa [hxb] using hw.may x hx
    · intro x hx
      refine hw.dirty x fun he => hx ?_
      by_cases hxb : x = b
      · subst hxb
        rcases hd with rfl | ⟨-, rfl⟩
        · simpa using he
        · simp
      · simpa [hxb] using he
    · simp [View.hold, hw.held]
    · intro x hx
      rcases Finset.mem_insert.mp hx with rfl | hx
      · exact ⟨hb, hbit⟩
      · exact hw.heldData x hx
  · rw [hd.eq (hw.settled (.inr hm)), hw.dat b hb (.inr hm)]

theorem wp_bset {Φ : Unit → Kernel Unit → View → Prop} {d : Block} (hb : b ∈ v.held)
    (h : Φ () X (v.bset b d)) : E.wp (inIo (bset b d)) Φ X v := by
  refine wp_io fun w hw => Xv6Arm.wp_bset (by rwa [hw.held]) ⟨v.bset b d, ?_, fun c hc => hc.of_eq rfl rfl rfl rfl rfl, h⟩
  have hd := (hw.heldData b hb).1
  refine ⟨?_, ?_, ?_, ?_, ?_, hw.used, hw.held, hw.heldData, hw.log, hw.start, hw.committing, hw.pinned, hw.nodup,
    hw.home, hw.limit⟩
  · intro i hi
    exact hw.getDinode_update E.layout hi (bmapstart_lt_datastart.le.trans hd.1)
  · intro x hx
    exact hw.getBit_update hx (.inr hd.1)
  · intro x hx hm
    by_cases hxb : x = b
    · subst hxb
      simp [View.bset]
    · simp only [View.bset, Set.mem_insert_iff, hxb, false_or] at hm
      simpa [View.bset, hxb] using hw.dat x hx hm
  · intro x hx
    by_cases hxb : x = b
    · subst hxb
      exact ⟨by simp, (hw.may x hx).2.imp_right fun h => by simp [h]⟩
    · simpa [hxb] using hw.may x hx
  · intro x hx
    rcases Store.unsaved_of_ne (v := w) (w := w.bset b d) (b := b) (fun y hy => by simp [hy]) (fun _ _ => rfl) hx with hx | rfl
    · exact (hw.dirty x hx).imp_right fun h => ⟨h.1, .inr h.2⟩
    · exact .inr ⟨hd, .inl rfl⟩

theorem wp_logWrite {Φ : Unit → Kernel Unit → View → Prop} (hb : b ∈ v.held) (hin : E.InOp v)
    (hf : E.Fits T n v) (h : Φ () X (v.logWrite b)) : E.wp (inIo (logWrite b)) Φ X v := by
  refine wp_io fun w hw => Xv6Arm.wp_logWrite (by rwa [hw.held]) hw.pin (hf.logs hin hw) fun hlen => ?_
  have hd := (hw.heldData b hb).1
  refine ⟨v.logWrite b, ?_, fun c hc => hc.of_eq rfl rfl rfl rfl rfl, h⟩
  have hblk := hw.dat b hd (.inl hb)
  refine hw.logged (b := b) (E.layout.inodestart_le_data hd) hlen (fun _ _ => rfl) rfl rfl rfl rfl hw.dsk hw.bit ?_
    (fun _ => by simp [hblk]) (fun x hx => by simp [hx]) hw.used rfl (fun x hx => (hw.heldData x hx).2) (fun x hx hxb => ⟨hx, hxb⟩) rfl
  intro x hx hm
  by_cases hxb : x = b
  · subst hxb
    exact hw.dat x hx (.inl hb)
  · refine hw.dat x hx (hm.imp_right fun hm hmem => hm ⟨hmem, hxb⟩)

theorem wp_brelse {Φ : Unit → Kernel Unit → View → Prop} (hb : b ∈ v.held) (h : Φ () X (v.release b)) :
    E.wp (inIo (brelse b)) Φ X v := by
  refine wp_io fun w hw => Xv6Arm.wp_brelse (by rwa [hw.held])
    ⟨v.release b, ?_, fun c hc => hc.of_eq rfl rfl rfl rfl rfl, h⟩
  refine ⟨hw.dsk, hw.bit, ?_, hw.may, hw.dirty, hw.used, ?_, ?_, hw.log, hw.start, hw.committing, hw.pinned, hw.nodup, hw.home,
    hw.limit⟩
  · intro x hx hm
    exact hw.dat x hx (hm.imp_left Finset.mem_of_mem_erase)
  · simp [View.release, hw.held]
  · intro x hx
    exact hw.heldData x (Finset.mem_of_mem_erase hx)

/-- The bytes of a dirty block that nobody holds are not known. -/
theorem wp_undo {α : Type} {p : KM α} {Φ : α → Kernel Unit → View → Prop} {v : View} {d : Block} (hb : b ∉ v.held)
    (hd : v.Sees b d) (h : E.wp p Φ X v) : E.wp p Φ X ((v.hold b d).release b) := by
  refine wp_forget ?_ h
  rintro s ⟨w, c, rfl, hw, hc⟩
  refine ⟨w, c, rfl, ?_, hc.of_eq rfl rfl rfl rfl rfl⟩
  have hheld : ((v.hold b d).release b).held = v.held := by simp [View.hold, View.release, Finset.erase_insert hb]
  refine ⟨hw.dsk, hw.bit, ?_, hw.may, hw.dirty, hw.used, by rw [hw.held]; exact hheld, ?_, hw.log, hw.start, hw.committing,
    hw.pinned, hw.nodup, hw.home, hw.limit⟩
  · intro x hx hm
    have hx' := hw.dat x hx (by rwa [hheld])
    by_cases hxb : x = b
    · subst hxb
      rw [hx']
      simp [View.hold, View.release, hd.eq (hm.resolve_left hb)]
    · simpa [View.hold, View.release, hxb] using hx'
  · intro x hx
    exact hw.heldData x (by rwa [hheld])

/-! ## The free map -/

theorem freeBit_some {sb : Superblock} {bp : Block} {b bi n bj : ℕ} (h : freeBit sb bp b bi n = some bj) :
    bi ≤ bj ∧ bj < bi + n ∧ b + bj < sb.size ∧ getBit bp bj = false ∧ ∀ x, bi ≤ x → x < bj → getBit bp x = true := by
  induction n generalizing bi with
  | zero => cases h
  | succ n ih =>
    rw [freeBit] at h
    split at h
    · rename_i hlt
      split at h
      · rename_i hz
        cases h
        exact ⟨le_rfl, by omega, hlt, getBit_eq_false.mpr hz, fun x h1 h2 => by omega⟩
      · rename_i hz
        obtain ⟨h1, h2, h3, h4, h5⟩ := ih h
        refine ⟨by omega, by omega, h3, h4, fun x hx hx' => ?_⟩
        by_cases hxb : x = bi
        · subst hxb
          simpa using mt getBit_eq_false.mp hz
        · exact h5 x (by omega) hx'
    · cases h

theorem freeBit_none {sb : Superblock} {bp : Block} {b bi n : ℕ} (h : freeBit sb bp b bi n = none) (x : ℕ)
    (hx : bi ≤ x) (hx' : x < bi + n) (hs : b + x < sb.size) : getBit bp x = true := by
  induction n generalizing bi with
  | zero => omega
  | succ n ih =>
    rw [freeBit, if_pos (by omega)] at h
    split at h
    · cases h
    · rename_i hz
      by_cases hxb : x = bi
      · subst hxb
        simpa using mt getBit_eq_false.mp hz
      · exact ih h (by omega) (by omega)

/-- The view after one bit of the free map was set and its block logged. -/
theorem mark_rep {sb : Superblock} (hL : Layout sb) {v : View} {w w' : Store} {x : Bool} {d : Block}
    (hw : DiskRep sb v w) (hb : IsData sb b) (hnh : b ∉ v.held)
    (hd : ∀ y, getBit d y = if y = b % BPB then x else getBit (w.blk (bblock sb b)) y)
    (hlen : w.log.lh.length + 1 < w.log.size) (hblk : w'.blk = Function.update w.blk (bblock sb b) d)
    (hdisk : w'.disk = w.disk) (hheld : w'.held = w.held) (hpin : w'.pinned = insert (bblock sb b) w.pinned)
    (hlog : w'.log = w.log.append (bblock sb b)) : DiskRep sb (v.setBit sb b x) w' := by
  have hbb := bblock_lt hb.2
  refine hw.logged hL.inodestart_le_bblock hlen (fun y hy => by rw [hblk, Function.update_of_ne hy]) hdisk hheld hpin hlog
    ?_ ?_ ?_ (fun hd => absurd hd.1 hbb.not_ge) (fun _ _ => rfl) ?_ rfl ?_ (fun y hy _ => hy) rfl
  · intro i hi
    rw [hblk]
    exact hw.getDinode_update hL hi bblock_ge
  · intro y hy
    rw [hblk]
    by_cases hyb : bblock sb y = bblock sb b
    · rw [hyb, Function.update_self, hd]
      by_cases hmod : y % BPB = b % BPB
      · obtain rfl := block_eq hyb hmod
        simp
      · rw [if_neg hmod, ← hyb, hw.bit y hy, View.setBit_bit, Function.update_of_ne (fun h => hmod (by rw [h]))]
    · rw [Function.update_of_ne hyb, hw.bit y hy, View.setBit_bit, Function.update_of_ne (fun h => hyb (by rw [h]))]
  · intro y hy hm
    rw [hblk]
    exact hw.dat_update hy hm hbb
  · intro y hy
    rw [View.setBit_bit, Function.update_of_ne (by have := hb.1; omega)]
    exact hw.used y hy
  · intro y hy
    rw [View.setBit_bit, Function.update_of_ne (fun h : y = b => hnh (h ▸ hy))]
    exact (hw.heldData y hy).2

theorem wp_bzero {v : View} {w : Store} {Q : Unit → Store → Prop} (hw : DiskRep E.sb v w) (hb : IsData E.sb b)
    (hnh : b ∉ v.held) (hin : E.InOp v) (hf : E.Fits T n v)
    (hQ : ∀ w', DiskRep E.sb (v.bzero b) w' → Q () w') :
    E.mode.wp (bzero b) Q w := by
  refine wp_rewrite (f := fun _ _ => 0) hw (by rwa [hw.held]) hf.reads (hf.logs hin hw) ?_
  intro d w' _ hlen hblk hdisk hheld hpin hlog
  refine hQ w' (hw.logged (E.layout.inodestart_le_data hb) hlen (fun y hy => by rw [hblk, Function.update_of_ne hy]) hdisk
    hheld hpin hlog ?_ ?_ ?_ (fun _ => by simp [hblk]) (fun x hx => by simp [hx]) hw.used rfl
    (fun x hx => (hw.heldData x hx).2) (fun x hx hxb => ⟨hx, hxb⟩) rfl)
  · intro i hi
    rw [hblk]
    exact hw.getDinode_update E.layout hi (bmapstart_lt_datastart.le.trans hb.1)
  · intro x hx
    rw [hblk]
    exact hw.getBit_update hx (.inr hb.1)
  · intro x hx hm
    rw [hblk]
    by_cases hxb : x = b
    · subst hxb
      simp
    · simpa [hxb] using hw.dat x hx (hm.imp_right fun hm hmem => hm ⟨hmem, hxb⟩)

theorem Fits.setBit {v : View} {x : Bool} (h : E.Fits T n v) (hb : b < E.sb.size) : E.Fits T n (v.setBit E.sb b x) := by
  refine h.keep fun hmap => ?_
  have := hmap b hb
  intro y
  simp only [View.setBit_held, View.setBit_log, Log.toFinset_append, Finset.mem_union, Finset.mem_insert]
  rintro (hy | rfl | hy)
  · exact .inl (.inl hy)
  · exact .inr this
  · exact .inl (.inr hy)

theorem Fits.alloc {v : View} (h : E.Fits T (n + 1) v) (hb : b < E.sb.size) :
    E.Fits (insert b T) n (v.alloc E.sb b) := by
  refine ((h.setBit (x := true) hb).widen b).keep fun _ => ?_
  intro y
  simp only [View.alloc, View.bzero_held, View.bzero_log, Log.toFinset_append, Finset.mem_union, Finset.mem_insert]
  tauto

theorem wp_ballocFrom {v : View} {w : Store} {Q : ℕ → Store → Prop} {b₀ m : ℕ} (hw : DiskRep E.sb v w)
    (hb₀ : b₀ % BPB = 0) (hm : E.sb.size ≤ b₀ + m * BPB) (hlt : b₀ + m * BPB < E.sb.size + BPB)
    (hfirst : ∀ x < b₀, x < E.sb.size → v.bit x = true) (hin : E.InOp v) (hf : E.Fits T n v)
    (hfree : (∃ b < E.sb.size, v.bit b = false) ∨ E.mode.panics "balloc: out of blocks")
    (hQ : ∀ b w', FirstFree E.sb v.bit b → IsData E.sb b → DiskRep E.sb (v.alloc E.sb b) w' → Q b w') :
    E.mode.wp (ballocFrom E.sb b₀ m) Q w := by
  induction m generalizing b₀ with
  | zero =>
    refine hfree.resolve_left ?_
    rintro ⟨b, hb, hbit⟩
    have := hfirst b (by omega) hb
    rw [hbit] at this
    cases this
  | succ m ih =>
    have hlt₀ : b₀ < E.sb.size := by rw [Nat.succ_mul] at hlt; omega
    have hnd : ¬IsData E.sb (bblock E.sb b₀) := fun hd => (bblock_lt hlt₀).not_ge hd.1
    have hnh := hw.notHeld (.inl hnd)
    -- the bits of this block of the free map
    have hbits : ∀ y < BPB, b₀ + y < E.sb.size → getBit (w.blk (bblock E.sb b₀)) y = v.bit (b₀ + y) := by
      intro y hy hs
      have hdiv : bblock E.sb (b₀ + y) = bblock E.sb b₀ := by
        unfold bblock
        rw [Nat.add_div_of_dvd_right (Nat.dvd_of_mod_eq_zero hb₀), Nat.div_eq_of_lt hy, Nat.add_zero]
      have hmod : (b₀ + y) % BPB = y := by rw [Nat.add_mod, hb₀, Nat.zero_add, Nat.mod_mod, Nat.mod_eq_of_lt hy]
      rw [← hw.bit _ hs, hdiv, hmod]
    refine Xv6Arm.wp_seq (Xv6Arm.wp_bread hnh (hf.reads.room hw) fun d hd => ?_)
    obtain rfl := hd.eq (hw.settled (.inl hnd))
    cases hfb : freeBit E.sb (w.blk (bblock E.sb b₀)) b₀ 0 BPB with
    | some bj =>
      obtain ⟨-, hbj, hs, hz, hones⟩ := freeBit_some hfb
      rw [Nat.zero_add] at hbj
      have hdiv : bblock E.sb (b₀ + bj) = bblock E.sb b₀ := by
        unfold bblock
        rw [Nat.add_div_of_dvd_right (Nat.dvd_of_mod_eq_zero hb₀), Nat.div_eq_of_lt hbj, Nat.add_zero]
      have hmod : (b₀ + bj) % BPB = bj := by rw [Nat.add_mod, hb₀, Nat.zero_add, Nat.mod_mod, Nat.mod_eq_of_lt hbj]
      have hff : FirstFree E.sb v.bit (b₀ + bj) := by
        refine ⟨hs, by rw [← hbits bj hbj hs, hz], fun x hx => ?_⟩
        by_cases hxb : x < b₀
        · exact hfirst x hxb (by omega)
        · have := hones (x - b₀) (Nat.zero_le _) (by omega)
          rwa [hbits (x - b₀) (by omega) (by omega), Nat.add_sub_cancel' (by omega)] at this
      have hdata : IsData E.sb (b₀ + bj) := by
        refine ⟨?_, hs⟩
        by_contra hlt
        have := hw.used _ (not_le.mp hlt)
        rw [hff.free] at this
        cases this
      have hnb : b₀ + bj ∉ v.held := by
        have := hw.notHeld (.inr hff.free)
        rwa [hw.held] at this
      refine Xv6Arm.wp_seq (Xv6Arm.wp_bset (by simp) (Xv6Arm.wp_seq (Xv6Arm.wp_logWrite (by simp) hw.pin
        (by simpa using hf.logs hin hw) fun hlen => ?_)))
      refine Xv6Arm.wp_seq (Xv6Arm.wp_brelse (by simp) ?_)
      refine Xv6Arm.wp_seq (wp_bzero (mark_rep E.layout (b := b₀ + bj) (x := true)
        (d := markBit (w.blk (bblock E.sb b₀)) bj) hw hdata hnb ?_ hlen ?_ ?_ ?_ ?_ ?_) hdata hnb ?_
        (hf.setBit hs) fun w' hw' => hQ _ w' hff hdata hw')
      · intro y
        rw [getBit_markBit, hmod, hdiv]
        by_cases hy : y = bj <;> simp [hy]
      · simp [hdiv]
      · rfl
      · simp [Finset.erase_insert hnh]
      · rw [hdiv]
        rfl
      · rw [hdiv]
        rfl
      · simpa [InOp] using hin
    | none =>
      refine Xv6Arm.wp_seq (Xv6Arm.wp_brelse (by simp) ?_)
      rw [Store.brelse_hold _ _ hnh]
      refine ih (by simp [hb₀]) ?_ ?_ ?_
      · rw [Nat.succ_mul] at hm
        omega
      · rw [Nat.succ_mul] at hlt
        omega
      · intro x hx hs
        by_cases hxb : x < b₀
        · exact hfirst x hxb hs
        · have := freeBit_none hfb (x - b₀) (Nat.zero_le _) (by omega) (by omega)
          rwa [hbits (x - b₀) (by omega) (by omega), Nat.add_sub_cancel' (by omega)] at this

theorem wp_balloc {Φ : ℕ → Kernel Unit → View → Prop} (hin : E.InOp v) (hf : E.Fits T n v)
    (hfree : (∃ b < E.sb.size, v.bit b = false) ∨ E.mode.panics "balloc: out of blocks")
    (h : ∀ b, FirstFree E.sb v.bit b → IsData E.sb b → Φ b X (v.alloc E.sb b)) :
    E.wp (inIo (balloc E.sb)) Φ X v := by
  refine wp_io fun w hw => wp_ballocFrom hw rfl ?_ ?_ (by simp) hin hf hfree fun b w' hff hd hw' => ?_
  · have := Nat.div_add_mod (E.sb.size + (BPB - 1)) BPB
    have := Nat.mod_lt (E.sb.size + (BPB - 1)) (show 0 < BPB by decide)
    rw [Nat.mul_comm]
    omega
  · have := Nat.div_mul_le_self (E.sb.size + (BPB - 1)) BPB
    have : 0 < BPB := by decide
    omega
  · exact ⟨_, hw', fun c hc => hc.of_eq rfl rfl rfl rfl rfl, h b hff hd⟩

theorem wp_bfree {Φ : Unit → Kernel Unit → View → Prop} (hb : IsData E.sb b) (hnh : b ∉ v.held)
    (hbit : v.bit b = true ∨ E.mode.panics "freeing free block") (hin : E.InOp v) (hf : E.Fits T n v)
    (h : v.bit b = true → Φ () X (v.setBit E.sb b false)) : E.wp (inIo (bfree E.sb b)) Φ X v := by
  refine wp_io fun w hw => ?_
  have hnd : ¬IsData E.sb (bblock E.sb b) := fun hd => (bblock_lt hb.2).not_ge hd.1
  have hnhb := hw.notHeld (.inl hnd)
  refine Xv6Arm.wp_seq (Xv6Arm.wp_bread hnhb (hf.reads.room hw) fun d hd => ?_)
  obtain rfl := hd.eq (hw.settled (.inl hnd))
  have hbit' := hw.bit b hb.2
  by_cases hz : w.blk (bblock E.sb b) (b % BPB / 8) &&& bitMask (b % BPB) = 0
  · have hfalse : v.bit b = false := by rw [← hbit', getBit_eq_false.mpr hz]
    simp only [if_pos hz]
    exact hbit.resolve_left (by simp [hfalse])
  · have htrue : v.bit b = true := by
      rw [← hbit']
      simpa using mt getBit_eq_false.mp hz
    simp only [if_neg hz]
    refine Xv6Arm.wp_seq (Xv6Arm.wp_bset (by simp) (Xv6Arm.wp_seq (Xv6Arm.wp_logWrite (by simp) hw.pin
      (by simpa using hf.logs hin hw) fun hlen => ?_)))
    refine Xv6Arm.wp_brelse (by simp) ⟨_, mark_rep E.layout (x := false)
      (d := clearBit (w.blk (bblock E.sb b)) (b % BPB)) hw hb hnh ?_ hlen ?_ rfl ?_ rfl rfl,
      fun c hc => hc.of_eq rfl rfl rfl rfl rfl, h htrue⟩
    · intro y
      rw [getBit_clearBit]
      by_cases hy : y = b % BPB <;> simp [hy]
    · simp
    · simp [Finset.erase_insert hnhb]

/-! ## Inode blocks -/

theorem iblock_notData {sb : Superblock} (hL : Layout sb) {i : ℕ} (hi : i < sb.ninodes) : ¬IsData sb (iblock sb i) :=
  fun hd => ((hL.iblock_lt hi).trans bmapstart_lt_datastart).not_ge hd.1

/-- The view after an inode was written to its block. -/
theorem iupdate_rep {sb : Superblock} (hL : Layout sb) {v : View} {w w' : Store} {i : ℕ} {d : Dinode}
    (hw : DiskRep sb v w) (hi : i < sb.ninodes) (hd : Small d) (hlen : w.log.lh.length + 1 < w.log.size)
    (hblk : w'.blk = Function.update w.blk (iblock sb i) (putDinode (w.blk (iblock sb i)) (i % IPB) d))
    (hdisk : w'.disk = w.disk) (hheld : w'.held = w.held) (hpin : w'.pinned = insert (iblock sb i) w.pinned)
    (hlog : w'.log = w.log.append (iblock sb i)) : DiskRep sb (v.iupdate sb i d) w' := by
  have hlt := hL.iblock_lt hi
  refine hw.logged iblock_ge hlen (fun y hy => by rw [hblk, Function.update_of_ne hy]) hdisk hheld hpin hlog ?_ ?_ ?_
    (fun hd => absurd hd.1 (hlt.trans bmapstart_lt_datastart).not_ge) (fun _ _ => rfl) hw.used rfl (fun y hy => (hw.heldData y hy).2)
    (fun y hy _ => hy) rfl
  · intro j hj
    rw [hblk]
    by_cases hji : iblock sb j = iblock sb i
    · rw [hji, Function.update_self]
      by_cases hmod : j % IPB = i % IPB
      · obtain rfl := inum_eq hji hmod
        rw [getDinode_putDinode _ _ hd]
        simp
      · rw [getDinode_putDinode_ne _ _ hmod, ← hji, hw.dsk j hj, View.iupdate_dsk,
          Function.update_of_ne (fun h : j = i => hmod (by rw [h]))]
    · rw [Function.update_of_ne hji, hw.dsk j hj, View.iupdate_dsk,
        Function.update_of_ne (fun h : j = i => hji (by rw [h]))]
  · intro y hy
    rw [hblk]
    exact hw.getBit_update hy (.inl hlt)
  · intro y hy hm
    rw [hblk]
    exact hw.dat_update hy hm (hlt.trans bmapstart_lt_datastart)

theorem wp_iupdate {Φ : Unit → Kernel Unit → View → Prop} {k i m : ℕ} (he : v.ent k = some (i, m)) (hl : k ∈ v.loaded)
    (hi : i < E.sb.ninodes) (hin : E.InOp v) (hf : E.Fits T n v)
    (h : Φ () X (v.iupdate E.sb i (v.ino i))) : E.wp (iupdate E.sb k) Φ X v := by
  refine wp_seq (wp_inodeGet he fun x hx _ hxd => ?_)
  rw [hx, hxd hl]
  refine wp_rep fun _ c _ hc => ?_
  refine wp_io (p := bread (iblock E.sb i) >>= fun bp =>
    bset (iblock E.sb i) (putDinode bp (i % IPB) (v.ino i)) >>= fun _ =>
    Xv6Arm.logWrite (iblock E.sb i) >>= fun _ => brelse (iblock E.sb i)) fun w hw => ?_
  have hnd := iblock_notData E.layout hi
  refine wp_rewrite (f := fun bp => putDinode bp (i % IPB) (v.ino i)) hw (hw.notHeld (.inl hnd)) hf.reads
    (hf.logs hin hw) fun d w' hd hlen hblk hdisk hheld hpin hlog => ?_
  obtain rfl := hd.eq (hw.settled (.inl hnd))
  refine ⟨_, iupdate_rep E.layout hw hi (hc.small i hi) hlen hblk hdisk hheld hpin hlog, fun c' hc' => ?_, h⟩
  refine ⟨hc'.ref, hc'.ent, hc'.out, hc'.lock, hc'.locked, hc'.unique, hc'.loaded, hc'.valid, hc'.cached, ?_, hc'.small⟩
  intro j hj
  by_cases hji : j = i
  · subst hji
    exact absurd hl (hj k m he)
  · rw [View.iupdate_dsk, Function.update_of_ne hji]
    exact hc'.fresh j hj

section Both
variable {α β : Type} {f : α → KM β} {Q : β → Kernel Store → Prop} {s : Kernel Store}

theorem seq_inIo {p : IoM α}
    (h : E.mode.wp p (fun a w => (f a).wp (Kernel.spec E.mode E.me) (fun msg _ => E.mode.panics msg) Q
      { s with io := w }) s.io) :
    (inIo p >>= f).wp (Kernel.spec E.mode E.me) (fun msg _ => E.mode.panics msg) Q s := by
  rw [Prog.bind_eq, Prog.wp_bind]
  exact wp_inIo h

theorem seq_inode {o : InodeOp} {f : o.Res → KM β}
    (h : E.mode.Allows (fun r c => (f r).wp (Kernel.spec E.mode E.me) (fun msg _ => E.mode.panics msg) Q
      { s with icache := c }) (inodeStep E.me s.icache o)) :
    (inode o >>= f).wp (Kernel.spec E.mode E.me) (fun msg _ => E.mode.panics msg) Q s := by
  rw [Prog.bind_eq, Prog.wp_bind]
  change E.mode.Allows _ ((inodeStep E.me s.icache o).map _)
  rw [allows_map]
  exact h

end Both

/-- The part of `ilock` that reads the inode. The inode block is held while the copy is assigned, so this
part is followed on blocks and cache at once. -/
theorem wp_load {Φ : Unit → Kernel Unit → View → Prop} {k i m : ℕ} (he : v.ent k = some (i, m)) (hl : k ∉ v.loaded)
    (hi : i < E.sb.ninodes) (hr : E.Reads v)
    (htype : (v.ino i).type ≠ 0 ∨ E.mode.panics "ilock: no type")
    (h : (v.ino i).type ≠ 0 → Φ () X (v.load k)) :
    E.wp (do
      let bp ← bread (iblock E.sb i)
      inode (.set k (getDinode bp (i % IPB)))
      brelse (iblock E.sb i)
      inode (.setValid k true)
      if (getDinode bp (i % IPB)).type = 0 then .panic "ilock: no type" else pure ()) Φ X v := by
  rintro s ⟨w, c, rfl, hw, hc⟩
  have hnd := iblock_notData E.layout hi
  have hnh := hw.notHeld (.inl hnd)
  have hino : v.ino i = v.dsk i := by
    refine hc.fresh i fun l n hl' hmem => hl ?_
    rwa [hc.unique k l i m n he hl']
  refine seq_inIo (Xv6Arm.wp_bread hnh (hr.room hw) fun d hd => seq_inode ?_)
  obtain rfl : d = w.blk (iblock E.sb i) := hd.eq (hw.settled (.inl hnd))
  have hdin : getDinode (w.blk (iblock E.sb i)) (i % IPB) = v.ino i := by rw [hino, hw.dsk i hi]
  refine seq_inIo (Xv6Arm.wp_brelse (by simp [Kernel.conc]) (seq_inode ?_))
  rw [hdin]
  by_cases ht : (v.ino i).type = 0
  · simp only [inodeStep, allows_done, if_pos ht]
    exact htype.resolve_left (not_not.mpr ht)
  · simp only [inodeStep, allows_done, if_neg ht]
    refine ⟨X, v.load k, ⟨w, _, ?_, hw.of_eq rfl rfl rfl rfl rfl rfl rfl, hc.validate he hdin⟩, h ht⟩
    simp [Kernel.conc, Store.brelse_hold _ _ hnh, Icache.modify, hdin]

theorem wp_ilock {Φ : Unit → Kernel Unit → View → Prop} {k i m : ℕ} (he : v.ent k = some (i, m)) (hi : i < E.sb.ninodes)
    (hl : k ∉ v.locked ∨ E.mode.waits) (hr : E.Reads v)
    (htype : k ∈ v.loaded ∨ (v.ino i).type ≠ 0 ∨ E.mode.panics "ilock: no type")
    (h : k ∉ v.locked → (k ∈ v.loaded ∨ (v.ino i).type ≠ 0) →
      Φ () X ((v.lock k).load k)) : E.wp (ilock E.sb k) Φ X v := by
  refine wp_seq (wp_acquire he hl fun hnl => wp_seq (wp_inodeGet (by exact he) fun x hx hval _ => ?_))
  rw [hx]
  by_cases hmem : k ∈ v.loaded
  · rw [if_pos (hval.mpr hmem)]
    have hload : (v.lock k).load k = v.lock k := by simp [View.load, View.lock, Set.insert_eq_of_mem hmem]
    have hΦ := h hnl (.inl hmem)
    rw [hload] at hΦ
    exact wp_ret hΦ
  · rw [if_neg fun hv => hmem (hval.mp hv)]
    exact wp_load (v := (v.lock k)) he hmem hi hr (htype.resolve_left hmem) fun ht => h hnl (.inr ht)

end Env
end Xv6Arm

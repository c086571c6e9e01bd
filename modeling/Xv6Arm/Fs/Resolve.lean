import Xv6Arm.Fs.Names

/-!
# Path resolution

`namei` and `nameiparent` on a tree that nobody changes meanwhile. The path stands
for the list of its elements; the walk is a fold of the search in a directory over
that list. Besides the reference that is returned, no reference and no lock is
left, and no table of the kernel differs. The walk ends in a panic instead if the
inode cache or the buffer cache is too full for it.
-/
namespace Xv6Arm
open Lib

/-- A tree in order from whose inode `i` process `p` walks along `path`. -/
structure Walkable (sb : Superblock) (p : ℕ) (path : List UInt8) (X : Kernel Unit) (v : View) (i : ℕ) : Prop where
  files : v.Sound sb ∅
  closed : v.Closed sb
  locked : v.locked = ∅
  starts : Env.Starts X v p path i
  live : v.Live sb i

/-- The panics of a walk, with what is missing. -/
def View.Crowded (v : View) (msg : String) : Prop :=
  msg = "iget: no inodes" ∧ ¬v.Spare ∨ msg = "bget: no buffers" ∧ NBUF ≤ v.log.lh.length

/-- The result `r` of a walk that ends at inode `o`, with the state it leaves: one reference more to that
inode, or none. Inodes that were read on the way may stay loaded. -/
def Reached (sb : Superblock) (me : ℕ) (X : Kernel Unit) (v : View) (o r : Option ℕ) (t : KState) : Prop :=
  ∃ L, v.loaded ⊆ L ∧
    ((o = none ∧ r = none ∧ Holds sb me X (v.reload L) t) ∨
      ∃ j k, o = some j ∧ r = some k ∧ v.Gets j k ∧ Holds sb me X ((v.take k j).reload L) t)

/-- A walk does not wait. It returns as `Φ` says, or panics for want of entries or buffers. -/
def Walks {α : Type} (v : View) (Φ : α → KState → Prop) : Outcome α KState → Prop
  | .done r t => Φ r t
  | .panic msg => v.Crowded msg
  | .blocked => False

theorem Walks.done {α : Type} {v : View} {Φ : α → KState → Prop} {o : Outcome α KState} (h : Walks v Φ o)
    (hroom : ∀ msg, ¬v.Crowded msg) : ∃ r t, o = .done r t ∧ Φ r t := by
  cases o with
  | done r t => exact ⟨r, t, rfl, h⟩
  | panic msg => exact absurd h (hroom msg)
  | blocked => exact h.elim

section Machine
variable {sb : Superblock} {me p i : ℕ} {X : Kernel Unit} {v : View} {s : KState} {path : List UInt8}

/-- `namex` returns the inode that the walk along the elements leads to. -/
theorem Walkable.namex (hL : Layout sb) (hs : Holds sb me X v s) (h : Walkable sb p path X v i) (parent : Bool) :
    Walks v (fun r t => Reached sb me X v (v.target parent i (elems path)) (r.map Prod.fst) t ∧
      (parent = true → ∀ k name, r = some (k, name) → (elems path).getLast? = some name))
      ((namex sb p path parent).run (kStep me) s) := by
  let E : Env := ⟨sb, hL, me, ⟨v.Crowded, False, fun _ => True⟩, 0⟩
  have hspare : E.Spare v := or_iff_not_imp_left.mpr fun hfull => .inl ⟨rfl, hfull⟩
  have hreads : E.Reads v := Env.reads_of_panics h.files.held fun hle => .inr ⟨rfl, hle⟩
  have hwp : E.wp (Xv6Arm.namex sb p path parent) (fun r Y v' => Y = X ∧
      (∃ L, v.loaded ⊆ L ∧ ((v.target parent i (elems path) = none ∧ r.map Prod.fst = none ∧ v' = v.reload L) ∨
        ∃ j k, v.target parent i (elems path) = some j ∧ r.map Prod.fst = some k ∧ v.Gets j k ∧
          v' = (v.take k j).reload L)) ∧
      (parent = true → ∀ k name, r = some (k, name) → (elems path).getLast? = some name)) X v := by
    refine Env.wp_namex (E := E) h.files h.locked hreads hspare (.inl h.closed) h.starts h.live.1 (.inl h.live) ?_ ?_
    · exact fun hnone L hL => ⟨rfl, ⟨L, hL.more, .inl ⟨hnone, rfl, rfl⟩⟩, fun _ k name he => by cases he⟩
    · intro j k name L hsome hlast hg hb
      refine ⟨rfl, ⟨L, hb.more, .inr ⟨j, k, hsome, rfl, hg, rfl⟩⟩, fun hp k' name' he => ?_⟩
      cases he
      exact hlast hp
  have hrun := E.run hwp hs
  cases hr : (Xv6Arm.namex sb p path parent).run (kStep me) s with
  | done r t =>
    rw [hr] at hrun
    obtain ⟨Y, v', ht, rfl, ⟨L, hL', hend⟩, hlast⟩ := hrun
    refine ⟨⟨L, hL', ?_⟩, hlast⟩
    rcases hend with ⟨h1, h2, rfl⟩ | ⟨j, k, h1, h2, h3, rfl⟩
    · exact .inl ⟨h1, h2, ht⟩
    · exact .inr ⟨j, k, h1, h2, h3, ht⟩
  | panic msg =>
    rw [hr] at hrun
    exact hrun
  | blocked =>
    rw [hr] at hrun
    exact hrun

/-- `namei` returns the inode at the end of the walk along the elements of the path, and 0 if there is none;
`nameiparent` that of the walk along all but the last element, if it is a directory, and the last element. -/
theorem path_resolution (hL : Layout sb) (hs : Holds sb me X v s) (h : Walkable sb p path X v i) :
    Walks v (Reached sb me X v (v.walk i (elems path))) ((namei sb p path).run (kStep me) s) ∧
    Walks v (fun r t =>
      Reached sb me X v (if elems path = [] then none else
        (v.walk i (elems path).dropLast).filter fun d => (v.ino d).type = T_DIR) (r.map Prod.fst) t ∧
      ∀ k name, r = some (k, name) → (elems path).getLast? = some name) ((nameiparent sb p path).run (kStep me) s) := by
  constructor
  · have hwalk := h.namex hL hs false
    have hnamei : (namei sb p path).run (kStep me) s = _ := Prog.run_bind (kStep me) (namex sb p path false) _ s
    rw [hnamei]
    generalize (namex sb p path false).run (kStep me) s = o at hwalk ⊢
    cases o with
    | done r t =>
      cases r <;> exact hwalk.1
    | panic msg => exact hwalk
    | blocked => exact hwalk
  · have hwalk := h.namex hL hs true
    change Walks v _ ((nameiparent sb p path).run (kStep me) s) at hwalk
    generalize (nameiparent sb p path).run (kStep me) s = o at hwalk ⊢
    cases o with
    | done r t => exact ⟨hwalk.1, hwalk.2 rfl⟩
    | panic msg => exact hwalk
    | blocked => exact hwalk

end Machine

/-! ## A disk with a file -/

/-- The root directory, with its entries in block 39, and a file in block 40 under the name `a`. -/
def fileDisk : Disk := fun b =>
  if b = 33 then
    putDinode (putDinode (fun _ => 0) 1
      { type := T_DIR, major := 0, minor := 0, nlink := 1, size := 48, addrs := fun j => if j.val = 0 then 39 else 0 })
      2 { type := T_FILE, major := 0, minor := 0, nlink := 1, size := 124, addrs := fun j => if j.val = 0 then 40 else 0 }
  else if b = 38 then fun j => if j < 5 then 255 else if j = 5 then 1 else 0
  else if b = 39 then putBytes (fun _ => 0) 0 (mkDirent [46] 1 ++ mkDirent [46, 46] 1 ++ mkDirent [97] 2)
  else fun _ => 0

/-- The disk after it has been mounted. -/
def fileView : View := .ofDisk small fileDisk

/-- The bitmap, the inodes and the root directory of the disk. -/
theorem fileView_table :
    (∀ b < datastart small, getBit (fileDisk (bblock small b)) (b % BPB) = true) ∧
    (∀ b < 100, 39 ≤ b → (fileView.bit b = true ↔ b = 39 ∨ b = 40)) ∧
    (∀ i < 64, (fileView.ino i).type ≠ 0 → i = 1 ∨ i = 2) ∧
    (∀ i < 3, 0 < i → (fileView.ino i).type ≠ 0 ∧ (fileView.ino i).nlink ≠ 0 ∧ (fileView.ino i).size ≤ 124 ∧
      fileView.block i 0 ≠ 0 ∧ ∀ j, (fileView.ino i).addrs j = if j = 0 then 38 + i else 0) ∧
    (fileView.ino 2).type ≠ T_DIR ∧ (fileView.ino 1).size % DESIZE = 0 ∧
    fileView.dir 1 = [some ([46], 1), some ([46, 46], 1), some ([97], 2)] := by
  refine ⟨?_, ?_, ?_, ?_, ?_, ?_, ?_⟩ <;> decide +kernel

theorem fileView_live {i : ℕ} : fileView.Live small i ↔ i = 1 ∨ i = 2 := by
  obtain ⟨-, -, hlive, hfiles, -⟩ := fileView_table
  constructor
  · exact fun h => hlive i h.1 h.2
  · intro hi
    exact ⟨by change i < 64; omega, (hfiles i (by omega) (by omega)).1⟩

theorem fileView_uses (i : ℕ) (s : Slot) (b : ℕ) :
    fileView.Uses small i s b ↔ (i = 1 ∨ i = 2) ∧ s = .addr 0 ∧ b = 38 + i := by
  obtain ⟨-, -, -, hfiles, -⟩ := fileView_table
  have haddrs : i = 1 ∨ i = 2 → ∀ j, (fileView.ino i).addrs j = if j = 0 then 38 + i else 0 :=
    fun hi => (hfiles i (by omega) (by omega)).2.2.2.2
  constructor
  · rintro ⟨hl, he, hne⟩
    have hi := fileView_live.mp hl
    refine ⟨hi, ?_⟩
    cases s with
    | addr j =>
      have hj : (if j = 0 then 38 + i else 0) = b := (haddrs hi j).symm.trans he
      split at hj
      · rename_i h0
        exact ⟨by rw [h0], hj.symm⟩
      · exact absurd hj.symm hne
    | entry j => exact absurd (he.symm.trans (View.slot_entry ((haddrs hi _).trans (if_neg (by decide))))) hne
  · rintro ⟨hi, rfl, rfl⟩
    exact ⟨fileView_live.mpr hi, haddrs hi 0, by omega⟩

theorem fileView_acct : Acct small fileView := by
  obtain ⟨-, hbit, -⟩ := fileView_table
  refine ⟨?_, ?_, ?_⟩
  · intro i s b hu
    obtain ⟨rfl | rfl, -, rfl⟩ := (fileView_uses i s b).mp hu
    · exact ⟨by decide, by decide⟩
    · exact ⟨by decide, by decide⟩
  · intro i s j t b hu hu'
    obtain ⟨-, rfl, hb⟩ := (fileView_uses i s b).mp hu
    obtain ⟨-, rfl, hb'⟩ := (fileView_uses j t b).mp hu'
    exact ⟨by omega, rfl⟩
  · intro b hb
    refine (hbit b hb.2 hb.1).trans ⟨fun h => ?_, ?_⟩
    · exact ⟨b - 38, .addr 0, (fileView_uses _ _ _).mpr ⟨by omega, rfl, by omega⟩⟩
    · rintro ⟨i, s, hu⟩
      obtain ⟨hi, -, hb⟩ := (fileView_uses i s b).mp hu
      omega

theorem fileView_entry {e j : ℕ} {key : List UInt8} (h : (fileView.dir 1)[e]? = some (some (key, j))) :
    (e = 0 ∧ key = [46] ∧ j = 1) ∨ (e = 1 ∧ key = [46, 46] ∧ j = 1) ∨ (e = 2 ∧ key = [97] ∧ j = 2) := by
  obtain ⟨-, -, -, -, -, -, hdir⟩ := fileView_table
  rw [hdir] at h
  rcases e with _ | _ | _ | e
  · simp at h
    simp [h]
  · simp at h
    simp [h]
  · simp at h
    simp [h]
  · simp at h

theorem fileView_sound : fileView.Sound small ∅ := by
  obtain ⟨-, -, -, hfiles, hfile, hwhole, hentries⟩ := fileView_table
  have hof : ∀ {i}, fileView.Live small i → i < 3 ∧ 0 < i := by
    intro i hl
    have hi := fileView_live.mp hl
    omega
  have hdir : ∀ {i}, fileView.Live small i → (fileView.ino i).type = T_DIR → i = 1 := by
    intro i hl ht
    rcases fileView_live.mp hl with rfl | rfl
    · rfl
    · exact absurd ht hfile
  refine ⟨⟨fileView_acct, ?_, fun _ _ _ => id, fun _ _ _ _ _ => id, ?_, ?_⟩,
    ⟨?_, ?_, fun _ => rfl, fun _ _ => rfl, ?_⟩, rfl⟩
  · intro i hl bn hbn
    obtain ⟨-, -, hsize, hblock, -⟩ := hfiles i (hof hl).1 (hof hl).2
    obtain rfl : bn = 0 := by
      change bn * 1024 < _ at hbn
      omega
    exact hblock
  · intro i hl ht
    obtain rfl := hdir hl ht
    refine ⟨hwhole, ?_, ?_⟩
    · intro e e' key a b h h'
      have hkey := fileView_entry h
      have hkey' := fileView_entry h'
      clear h h'
      grind
    · intro e key j h
      rcases fileView_entry h with ⟨-, rfl, rfl⟩ | ⟨-, rfl, rfl⟩ | ⟨-, rfl, rfl⟩ <;> decide
  · intro i hl ht _
    obtain rfl := hdir hl ht
    exact ⟨by rw [hentries]; rfl, 1, by rw [hentries]; rfl⟩
  · intro k i n h
    cases h
  · intro k i n h
    cases h
  · intro i hl h0
    exact absurd h0 (hfiles i (hof hl).1 (hof hl).2).2.1

theorem fileView_closed : fileView.Closed small := by
  obtain ⟨-, -, -, -, hfile, -⟩ := fileView_table
  intro i hl ht e key j h
  rcases fileView_live.mp hl with rfl | rfl
  · rcases fileView_entry h with ⟨-, -, rfl⟩ | ⟨-, -, rfl⟩ | ⟨-, -, rfl⟩
    · exact hl
    · exact hl
    · exact fileView_live.mpr (.inr rfl)
  · exact absurd ht hfile

/-- Any process can walk along an absolute path on the disk as it was mounted. -/
theorem fileView_walkable (p : ℕ) (X : Kernel Unit) (path : List UInt8) :
    Walkable small p (SLASH :: path) X fileView 1 :=
  ⟨fileView_sound, fileView_closed, rfl, by rw [Env.Starts, List.head?_cons, if_pos rfl], fileView_live.mpr (.inl rfl)⟩

theorem fileView_not_crowded (msg : String) : ¬fileView.Crowded msg := by
  rintro (⟨-, h⟩ | ⟨-, h⟩)
  · exact h ⟨0, 1, by decide, by decide, by decide, rfl, rfl⟩
  · exact absurd h (by decide)

/-- The path `/a` leads to inode 2, and the parent of `/a` is the root. -/
theorem path_resolution_small :
    (∃ r t, (namei small 0 [47, 97]).run (kStep 0) (bare.conc (mounted small fileDisk) iinit) = .done r t ∧
      Reached small 0 bare fileView (some 2) r t) ∧
    ∃ r t, (nameiparent small 0 [47, 97]).run (kStep 0) (bare.conc (mounted small fileDisk) iinit) = .done r t ∧
      Reached small 0 bare fileView (some 1) (r.map Prod.fst) t := by
  have hwalk : fileView.walk 1 (elems [47, 97]) = some 2 := by decide +kernel
  have hparent : (fileView.walk 1 (elems [47, 97]).dropLast).filter (fun d => (fileView.ino d).type = T_DIR) = some 1 := by
    decide +kernel
  obtain ⟨h, h'⟩ :=
    path_resolution small_layout (holds_mounted 0 bare fileView_table.1) (fileView_walkable 0 bare [97])
  obtain ⟨r, t, hrun, hr⟩ := h.done fileView_not_crowded
  obtain ⟨r', t', hrun', hr', -⟩ := h'.done fileView_not_crowded
  refine ⟨⟨r, t, hrun, hwalk ▸ hr⟩, r', t', hrun', ?_⟩
  rw [if_neg (by decide)] at hr'
  exact hparent ▸ hr'

/-! ## A full inode cache -/

/-- All entries of the inode cache are in use, one of them for the root and none for the file. -/
def fullView : View := (View.opened small fileDisk fullCache 0).unlock 0

def fullState : KState :=
  bare.conc (openState small fileDisk 0 fullCache 0 bare).io
    (Icache.modify (openCache small fileDisk 0 fullCache 0) 0 fun x => { x with lock := none })

theorem fullState_holds : Holds small 0 bare fullView fullState := by
  obtain ⟨w, io, c, hs, hb, hw, hc⟩ := @holds_fullCache fileDisk fileView_table.1
  have hio : (openState small fileDisk 0 fullCache 0 bare).io = io := by rw [hs]; rfl
  have hcache : openCache small fileDisk 0 fullCache 0 = c := congrArg Kernel.icache hs
  rw [fullState, hio, hcache]
  exact ⟨w, io, _, rfl, hb, hw.of_eq rfl rfl rfl rfl rfl rfl rfl, Env.setLock_none hc (by decide)⟩

theorem fullView_walkable : Walkable small 0 [47, 97] bare fullView 1 := by
  have hent : ∀ {k i n}, fullView.ent k = some (i, n) → k < NINODE ∧ i < 64 ∧ (k = 0 → i = 1) := by
    intro k i n he
    obtain ⟨j, hj, heq⟩ := Option.map_eq_some_iff.mp he
    cases heq
    unfold fullCache at hj
    have hmax : NINODE = 50 := rfl
    grind
  have hino : fullView.ino = fileView.ino := rfl
  have hlive : ∀ {i}, fullView.Live small i ↔ i = 1 ∨ i = 2 := fileView_live
  obtain ⟨-, -, -, hfiles, -⟩ := fileView_table
  refine ⟨⟨fileView_sound.files.congr rfl rfl rfl rfl, ⟨?_, ?_, fun _ => rfl, fun _ _ => rfl, ?_⟩, rfl⟩, ?_, rfl, ?_, ?_⟩
  · exact fun k i n he => (hent he).2.1
  · intro k i n he hk
    rw [hino, (hent he).2.2 hk]
    exact (hfiles 1 (by decide) (by decide)).1
  · intro i hl hz
    have hi := hlive.mp hl
    rw [hino] at hz
    exact absurd hz (hfiles i (by omega) (by omega)).2.1
  · intro i hl ht e key j h
    have hdir : fullView.dir i = fileView.dir i := View.dir_eq hino rfl i
    rw [hdir] at h
    rw [hino] at ht
    exact hlive.mpr (fileView_live.mp (fileView_closed i (fileView_live.mpr (hlive.mp hl)) ht e key j h))
  · rw [Env.Starts, List.head?_cons, if_pos rfl]
  · exact hlive.mpr (.inl rfl)

/-- On a tree in order with a full inode cache, `namei` of a file that is there panics. -/
theorem namei_cache_full : ∃ v s, Holds small 0 bare v s ∧ Walkable small 0 [47, 97] bare v 1 ∧ v.log.lh = [] ∧
    v.walk 1 (elems [47, 97]) = some 2 ∧ (namei small 0 [47, 97]).run (kStep 0) s = .panic "iget: no inodes" :=
  ⟨fullView, fullState, fullState_holds, fullView_walkable, rfl, by decide +kernel, Outcome.eq_panic (by decide +kernel)⟩

end Xv6Arm

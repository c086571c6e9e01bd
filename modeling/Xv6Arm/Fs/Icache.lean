import Xv6Arm.Fs.View
import Mathlib.Tactic.Simps.Basic

/-!
# The inode cache as a table of references

One rule for each request on the inode cache. A change of one entry is described
once, in `CacheRep.change`; the rules say which entry changes and how.
-/
namespace Xv6Arm
open Lib

namespace View

@[simps -fullyApplied] def lock (k : ℕ) (v : View) : View := { v with locked := insert k v.locked }
@[simps -fullyApplied] def unlock (k : ℕ) (v : View) : View := { v with locked := v.locked.erase k }
@[simps -fullyApplied] def load (k : ℕ) (v : View) : View := { v with loaded := insert k v.loaded }
@[simps -fullyApplied] def unload (k : ℕ) (v : View) : View := { v with loaded := v.loaded \ {k} }
@[simps -fullyApplied] def setIno (i : ℕ) (d : Dinode) (v : View) : View := { v with ino := Function.update v.ino i d }

/-- The references that entry `k` has. -/
def refs (v : View) (k : ℕ) : ℕ := ((v.ent k).map Prod.snd).getD 0

/-- One more reference to inode `i` at entry `k`. -/
@[simps -fullyApplied] def take (k i : ℕ) (v : View) : View := { v with ent := Function.update v.ent k (some (i, v.refs k + 1)) }

/-- What giving up one reference leaves of an entry. -/
def dropEnt : Option (ℕ × ℕ) → Option (ℕ × ℕ)
  | some (i, n + 2) => some (i, n + 1)
  | _ => none

/-- One reference less at entry `k`. -/
@[simps -fullyApplied] def drop (k : ℕ) (v : View) : View :=
  { v with
    ent := Function.update v.ent k (dropEnt (v.ent k))
    loaded := { l | l ∈ v.loaded ∧ (l = k → dropEnt (v.ent k) ≠ none) } }

/-- Entry `k` is where `iget` finds or puts inode `i`. -/
def Gets (v : View) (i k : ℕ) : Prop :=
  (∃ n, v.ent k = some (i, n)) ∨ v.ent k = none ∧ k < NINODE ∧ ∀ l n, v.ent l ≠ some (i, n)

end View

theorem firstIndex_some {n l : ℕ} {P : ℕ → Bool} (h : firstIndex n P = some l) : l < n ∧ P l = true :=
  ⟨List.mem_range.mp (List.mem_of_find?_eq_some h), List.find?_some (p := P) h⟩

theorem firstIndex_none {n l : ℕ} {P : ℕ → Bool} (h : firstIndex n P = none) (hl : l < n) : ¬ P l = true :=
  List.find?_eq_none.mp h l (List.mem_range.mpr hl)

/-! ## Changes of the cache -/

theorem DiskRep.of_eq {sb : Superblock} {v v' : View} {w : Store} (h : DiskRep sb v w) (hd : v'.dsk = v.dsk)
    (hb : v'.bit = v.bit) (ht : v'.dat = v.dat) (hm : v'.may = v.may) (hy : v'.dirty = v.dirty)
    (hh : v'.held = v.held) (hl : v'.log = v.log) : DiskRep sb v' w := by
  refine ⟨?_, ?_, ?_, ?_, ?_, ?_, ?_, ?_, ?_, ?_, ?_, ?_, ?_, ?_, ?_⟩
  · rw [hd]; exact h.dsk
  · rw [hb]; exact h.bit
  · rw [ht, hy, hh]; exact h.dat
  · rw [hm]; exact h.may
  · rw [hy]; exact h.dirty
  · rw [hb]; exact h.used
  · rw [hh]; exact h.held
  · rw [hb, hh]; exact h.heldData
  · rw [hl]; exact h.log
  · rw [hl]; exact h.start
  · rw [hl]; exact h.committing
  · rw [hl]; exact h.pinned
  · rw [hl]; exact h.nodup
  · rw [hl]; exact h.home
  · rw [hl]; exact h.limit

namespace CacheRep
variable {sb : Superblock} {me k i n : ℕ} {v v' : View} {c : ℕ → Inode}

/-- A view of the same cache that differs elsewhere. -/
theorem of_eq (h : CacheRep sb me v c) (hi : v'.ino = v.ino) (hd : v'.dsk = v.dsk) (he : v'.ent = v.ent)
    (hl : v'.locked = v.locked) (ho : v'.loaded = v.loaded) : CacheRep sb me v' c := by
  refine ⟨h.ref, ?_, ?_, ?_, ?_, ?_, ?_, ?_, ?_, ?_, ?_⟩
  · rw [he]; exact h.ent
  · rw [he]; exact h.out
  · rw [hl]; exact h.lock
  · rw [hl, he]; exact h.locked
  · rw [he]; exact h.unique
  · rw [he, ho]; exact h.loaded
  · rw [he, ho]; exact h.valid
  · rw [he, ho, hi]; exact h.cached
  · rw [he, ho, hi, hd]; exact h.fresh
  · rw [hi]; exact h.small

theorem lt (h : CacheRep sb me v c) (he : v.ent k ≠ none) : k < NINODE := by
  by_contra hk
  exact he (h.out k (not_lt.mp hk))

theorem entry (h : CacheRep sb me v c) (he : v.ent k = some (i, n)) :
    0 < (c k).ref ∧ (c k).inum = i ∧ (c k).ref = n := by
  have hc := h.ent k (h.lt (k := k) (by simp [he]))
  rw [he, Inode.entry] at hc
  split at hc
  · rename_i hpos
    simp only [Option.some.injEq, Prod.mk.injEq] at hc
    exact ⟨hpos, hc.1.symm, by omega⟩
  · cases hc

theorem pos (h : CacheRep sb me v c) (he : v.ent k = some (i, n)) : 0 < n := by
  have := h.entry he
  omega

theorem refs_eq (he : v.ent k = some (i, n)) : v.refs k = n := by simp [View.refs, he]

theorem ref_zero (h : CacheRep sb me v c) (hk : k < NINODE) (he : v.ent k = none) : (c k).ref = 0 := by
  have hc := h.ent k hk
  rw [he, Inode.entry] at hc
  split at hc
  · cases hc
  · have := h.ref k hk
    omega

theorem alone (h : CacheRep sb me v c) (he : v.ent k = some (i, n)) (l m : ℕ) (hlk : l ≠ k) :
    v.ent l ≠ some (i, m) := fun hl => hlk (h.unique l k i m n hl he)

/-- One entry of the cache changes. The inode it had a copy of, if any, is still there or on disk. -/
theorem change (h : CacheRep sb me v c) (hk : k < NINODE) {x : Inode} (hino : v'.ino = v.ino)
    (hdsk : v'.dsk = v.dsk) (hent : ∀ l ≠ k, v'.ent l = v.ent l)
    (hlock : ∀ l ≠ k, l ∈ v'.locked ↔ l ∈ v.locked) (hload : ∀ l ≠ k, l ∈ v'.loaded ↔ l ∈ v.loaded)
    (href : 0 ≤ x.ref) (hx : v'.ent k = x.entry) (hxl : x.lock = Store.holder me v'.locked k)
    (hkl : k ∈ v'.locked → v'.ent k ≠ none) (hkd : k ∈ v'.loaded → v'.ent k ≠ none)
    (hnew : ∀ i n, v'.ent k = some (i, n) → (∀ l m, l ≠ k → v.ent l ≠ some (i, m)) ∧
      (x.valid = true ↔ k ∈ v'.loaded) ∧ (k ∈ v'.loaded → x.d = v.ino i))
    (hold : ∀ i n, v.ent k = some (i, n) → k ∈ v.loaded →
      (∃ m, v'.ent k = some (i, m) ∧ k ∈ v'.loaded) ∨ v.ino i = v.dsk i) :
    CacheRep sb me v' (Function.update c k x) := by
  have hother : ∀ l ≠ k, Function.update c k x l = c l := fun l hl => Function.update_of_ne hl _ _
  refine ⟨?_, ?_, ?_, ?_, ?_, ?_, ?_, ?_, ?_, ?_, ?_⟩
  · intro l hl
    by_cases hlk : l = k
    · subst hlk
      rwa [Function.update_self]
    · rw [hother l hlk]
      exact h.ref l hl
  · intro l hl
    by_cases hlk : l = k
    · subst hlk
      rwa [Function.update_self]
    · rw [hother l hlk, hent l hlk]
      exact h.ent l hl
  · intro l hl
    have hlk : l ≠ k := by omega
    rw [hent l hlk]
    exact h.out l hl
  · intro l hl
    by_cases hlk : l = k
    · subst hlk
      rwa [Function.update_self]
    · rw [hother l hlk, h.lock l hl]
      exact Store.holder_congr (hlock l hlk).symm
  · intro l hl
    by_cases hlk : l = k
    · subst hlk
      exact hkl hl
    · rw [hent l hlk]
      exact h.locked l ((hlock l hlk).mp hl)
  · intro l l' j m m' hl hl'
    by_cases hlk : l = k
    · subst hlk
      by_contra hne
      rw [hent l' (Ne.symm hne)] at hl'
      exact (hnew j m hl).1 l' m' (Ne.symm hne) hl'
    · by_cases hlk' : l' = k
      · subst hlk'
        rw [hent l hlk] at hl
        exact absurd hl ((hnew j m' hl').1 l m hlk)
      · rw [hent l hlk] at hl
        rw [hent l' hlk'] at hl'
        exact h.unique l l' j m m' hl hl'
  · intro l hl
    by_cases hlk : l = k
    · subst hlk
      exact hkd hl
    · rw [hent l hlk]
      exact h.loaded l ((hload l hlk).mp hl)
  · intro l j m hl
    by_cases hlk : l = k
    · subst hlk
      rw [Function.update_self]
      exact (hnew j m hl).2.1
    · rw [hent l hlk] at hl
      rw [hother l hlk, hload l hlk]
      exact h.valid l j m hl
  · intro l j m hl hmem
    rw [hino]
    by_cases hlk : l = k
    · subst hlk
      rw [Function.update_self]
      exact (hnew j m hl).2.2 hmem
    · rw [hent l hlk] at hl
      rw [hother l hlk]
      exact h.cached l j m hl ((hload l hlk).mp hmem)
  · intro j hj
    rw [hino, hdsk]
    by_cases hk' : ∃ m, v.ent k = some (j, m) ∧ k ∈ v.loaded
    · obtain ⟨m, hm, hmem⟩ := hk'
      rcases hold j m hm hmem with ⟨m', hm', hmem'⟩ | hs
      · exact absurd hmem' (hj k m' hm')
      · exact hs
    · refine h.fresh j ?_
      intro l m hl
      by_cases hlk : l = k
      · subst hlk
        exact fun hmem => hk' ⟨m, hl, hmem⟩
      · have := hj l m (by rw [hent l hlk]; exact hl)
        rwa [hload l hlk] at this
  · rw [hino]
    exact h.small

/-- A change of the lock only. -/
theorem setLock (h : CacheRep sb me v c) (he : v.ent k ≠ none) {L : Finset ℕ} (hL : ∀ l ≠ k, l ∈ L ↔ l ∈ v.locked) :
    CacheRep sb me { v with locked := L } (Icache.modify c k fun x => { x with lock := Store.holder me L k }) := by
  have hk := h.lt he
  refine h.change hk rfl rfl (fun _ _ => rfl) hL (fun _ _ => Iff.rfl) (h.ref k hk) (h.ent k hk) rfl (fun _ => he)
    (h.loaded k) ?_ ?_
  · intro j m hm
    exact ⟨h.alone hm, h.valid k j m hm, h.cached k j m hm⟩
  · intro j m hm hval
    exact .inl ⟨m, hm, hval⟩

/-- A new number of references, of an entry that stays in use. -/
theorem setRef (h : CacheRep sb me v c) (he : v.ent k = some (i, n)) {r : ℤ} (hr : 0 < r) :
    CacheRep sb me { v with ent := Function.update v.ent k (some (i, r.toNat)) }
      (Icache.modify c k fun x => { x with ref := r }) := by
  have hk := h.lt (k := k) (by simp [he])
  have hent := h.entry he
  refine h.change hk rfl rfl (fun l hl => Function.update_of_ne hl _ _) (fun _ _ => Iff.rfl) (fun _ _ => Iff.rfl)
    hr.le ?_ (h.lock k hk) (by simp) (by simp) ?_ ?_
  · simp [Inode.entry, hr, hent.2.1]
  · intro j m hm
    simp only [Function.update_self, Option.some.injEq, Prod.mk.injEq] at hm
    obtain ⟨rfl, -⟩ := hm
    exact ⟨h.alone he, h.valid k i n he, h.cached k i n he⟩
  · intro j m hm hval
    rw [he] at hm
    cases hm
    exact .inl ⟨_, Function.update_self .., hval⟩

/-- An entry gives up its last reference: its inode has to be on disk. -/
theorem vacate (h : CacheRep sb me v c) (he : v.ent k = some (i, n)) (hl : k ∉ v.locked) (hs : v.ino i = v.dsk i) :
    CacheRep sb me { v with ent := Function.update v.ent k none, loaded := v.loaded \ {k} }
      (Icache.modify c k fun x => { x with ref := 0 }) := by
  have hk := h.lt (k := k) (by simp [he])
  refine h.change hk rfl rfl (fun l hl => Function.update_of_ne hl _ _) (fun _ _ => Iff.rfl)
    (fun l hl => by simp [hl]) le_rfl (by simp [Inode.entry]) (h.lock k hk) (fun hm => absurd hm hl) (by simp)
    (by simp) ?_
  intro j m hm _
  rw [he] at hm
  cases hm
  exact .inr hs

/-- A free entry is assigned to an inode that has none. -/
theorem assign (h : CacheRep sb me v c) (hk : k < NINODE) (he : v.ent k = none)
    (hnew : ∀ l n, v.ent l ≠ some (i, n)) :
    CacheRep sb me { v with ent := Function.update v.ent k (some (i, 1)) }
      (Icache.modify c k fun x => { x with inum := i, ref := 1, valid := false }) := by
  have hnl : k ∉ v.loaded := fun hm => h.loaded k hm he
  refine h.change hk rfl rfl (fun l hl => Function.update_of_ne hl _ _) (fun _ _ => Iff.rfl) (fun _ _ => Iff.rfl)
    (by simp) (by simp [Inode.entry]) (h.lock k hk) (by simp) (by simp) ?_ (by simp [he])
  intro j m hm
  simp only [Function.update_self, Option.some.injEq, Prod.mk.injEq] at hm
  obtain ⟨rfl, -⟩ := hm
  exact ⟨fun l m' _ => hnew l m', by simp [hnl], fun hm => absurd hm hnl⟩

/-- The copy in the entry is given up: it has to be on disk. -/
theorem invalidate (h : CacheRep sb me v c) (he : v.ent k = some (i, n)) (hs : v.ino i = v.dsk i) :
    CacheRep sb me (v.unload k) (Icache.modify c k fun x => { x with valid := false }) := by
  have hk := h.lt (k := k) (by simp [he])
  refine h.change hk rfl rfl (fun _ _ => rfl) (fun _ _ => Iff.rfl) (fun l hl => by simp [View.unload, hl])
    (h.ref k hk) (h.ent k hk) (h.lock k hk) (fun _ => by simp [View.unload, he]) (by simp [View.unload]) ?_ ?_
  · intro j m hm
    exact ⟨h.alone hm, by simp [View.unload], by simp [View.unload]⟩
  · intro j m hm _
    rw [he] at hm
    cases hm
    exact .inr hs

/-- The entry gets a copy of its inode. -/
theorem validate (h : CacheRep sb me v c) (he : v.ent k = some (i, n)) {d : Dinode} (hd : d = v.ino i) :
    CacheRep sb me (v.load k) (Function.update c k { c k with d := d, valid := true }) := by
  have hk := h.lt (k := k) (by simp [he])
  refine h.change hk rfl rfl (fun _ _ => rfl) (fun _ _ => Iff.rfl) (fun l hlk => by simp [View.load, hlk])
    (h.ref k hk) (h.ent k hk) (h.lock k hk) (fun _ => by simp [View.load, he]) (fun _ => by simp [View.load, he]) ?_ ?_
  · intro j m hm
    refine ⟨h.alone hm, by simp [View.load], fun _ => ?_⟩
    have hm : v.ent k = some (j, m) := hm
    rw [he] at hm
    cases hm
    exact hd
  · intro j m hm _
    exact .inl ⟨m, hm, by simp [View.load]⟩

/-- An assignment to the copy of a valid entry. -/
theorem assignIno (h : CacheRep sb me v c) (he : v.ent k = some (i, n)) (hv : k ∈ v.loaded) {d : Dinode}
    (hd : Small d) : CacheRep sb me (v.setIno i d) (Icache.modify c k fun x => { x with d := d }) := by
  have hc : ∀ l, (Icache.modify c k (fun x => { x with d := d }) l).ref = (c l).ref ∧
      (Icache.modify c k (fun x => { x with d := d }) l).inum = (c l).inum ∧
      (Icache.modify c k (fun x => { x with d := d }) l).lock = (c l).lock ∧
      (Icache.modify c k (fun x => { x with d := d }) l).valid = (c l).valid := by
    intro l
    by_cases hlk : l = k
    · subst hlk
      simp [Icache.modify]
    · simp [Icache.modify, hlk]
  refine ⟨?_, ?_, h.out, ?_, h.locked, h.unique, h.loaded, ?_, ?_, ?_, ?_⟩
  · intro l hl
    rw [(hc l).1]
    exact h.ref l hl
  · intro l hl
    rw [Inode.entry, (hc l).1, (hc l).2.1]
    exact h.ent l hl
  · intro l hl
    rw [(hc l).2.2.1]
    exact h.lock l hl
  · intro l j m hl
    rw [(hc l).2.2.2]
    exact h.valid l j m hl
  · intro l j m hl hmem
    by_cases hlk : l = k
    · subst hlk
      have hl : v.ent l = some (j, m) := hl
      rw [he] at hl
      cases hl
      simp [Icache.modify, View.setIno]
    · have hji : j ≠ i := by
        rintro rfl
        exact h.alone he l m hlk hl
      rw [Icache.modify, Function.update_of_ne hlk, View.setIno_ino, Function.update_of_ne hji]
      exact h.cached l j m hl hmem
  · intro j hj
    have hji : j ≠ i := by
      rintro rfl
      exact hj k n he hv
    rw [View.setIno_ino, Function.update_of_ne hji]
    exact h.fresh j hj
  · intro j hj
    by_cases hji : j = i
    · subst hji
      simpa [View.setIno] using hd
    · simpa [View.setIno, hji] using h.small j hj

end CacheRep

/-! ## One rule for each request -/

namespace Env
variable {E : Env} {X : Kernel Unit} {v : View} {k i n : ℕ}

theorem wp_inodeGet {Φ : Inode → Kernel Unit → View → Prop} (he : v.ent k = some (i, n))
    (h : ∀ x : Inode, x.inum = i → (x.valid = true ↔ k ∈ v.loaded) → (k ∈ v.loaded → x.d = v.ino i) →
      Φ x X v) : E.wp (inode (.get k)) Φ X v :=
  wp_inode fun c hc => ⟨v, hc, fun _ hw => hw, h (c k) (hc.entry he).2.1 (hc.valid k i n he) (hc.cached k i n he)⟩

theorem wp_inodeSet {Φ : Unit → Kernel Unit → View → Prop} {d : Dinode} (he : v.ent k = some (i, n))
    (hl : k ∈ v.loaded) (hd : Small d) (h : Φ () X (v.setIno i d)) :
    E.wp (inode (.set k d)) Φ X v := by
  refine wp_inode fun c hc => ⟨_, hc.assignIno he hl hd, ?_, h⟩
  exact fun w hw => hw.of_eq rfl rfl rfl rfl rfl rfl rfl

theorem wp_modifyInode {Φ : Unit → Kernel Unit → View → Prop} {f : Dinode → Dinode} (he : v.ent k = some (i, n))
    (hl : k ∈ v.loaded) (hd : Small (f (v.ino i))) (h : Φ () X (v.setIno i (f (v.ino i)))) :
    E.wp (modifyInode k f) Φ X v := by
  refine wp_seq (wp_inodeGet he ?_)
  intro x _ _ hx
  rw [hx hl]
  exact wp_inodeSet he hl hd h

theorem wp_acquire {Φ : Unit → Kernel Unit → View → Prop} (he : v.ent k = some (i, n))
    (hl : k ∉ v.locked ∨ E.mode.waits) (h : k ∉ v.locked → Φ () X (v.lock k)) :
    E.wp (inode (.acquire k)) Φ X v := by
  refine wp_inode fun c hc => ?_
  have hk := hc.lt (k := k) (by simp [he])
  have hpos := (hc.entry he).1
  simp only [inodeStep, Icache.acquire]
  rw [if_neg (by omega)]
  by_cases hm : k ∈ v.locked
  · rw [if_neg (by rw [hc.lock k hk, Store.holder_pos hm]; simp)]
    exact hl.resolve_left (not_not.mpr hm)
  · rw [if_pos (by rw [hc.lock k hk, Store.holder_neg hm])]
    refine ⟨v.lock k, ?_, fun w hw => hw.of_eq rfl rfl rfl rfl rfl rfl rfl, h hm⟩
    have := hc.setLock (k := k) (by simp [he]) (L := insert k v.locked) (fun l hl => by simp [hl])
    rwa [Store.holder_insert] at this

theorem setLock_none {sb : Superblock} {me : ℕ} {v : View} {c : ℕ → Inode} (hc : CacheRep sb me v c)
    (he : v.ent k ≠ none) :
    CacheRep sb me (v.unlock k) (Icache.modify c k fun x => { x with lock := none }) := by
  have := hc.setLock he (L := v.locked.erase k) (fun l hl => by simp [hl])
  rwa [Store.holder_erase] at this

theorem wp_iunlock {Φ : Unit → Kernel Unit → View → Prop} (he : v.ent k = some (i, n)) (hl : k ∈ v.locked)
    (h : Φ () X (v.unlock k)) : E.wp (iunlock k) Φ X v := by
  refine wp_inode (o := .iunlock k) fun c hc => ?_
  have hk := hc.lt (k := k) (by simp [he])
  have hpos := (hc.entry he).1
  have hlock : (c k).lock = some E.me := by rw [hc.lock k hk, Store.holder_pos hl]
  simp only [inodeStep, Icache.iunlock]
  rw [if_neg (by rw [hlock]; simp; omega)]
  exact ⟨v.unlock k, setLock_none hc (by simp [he]), fun w hw => hw.of_eq rfl rfl rfl rfl rfl rfl rfl, h⟩

theorem wp_releasesleep {Φ : Unit → Kernel Unit → View → Prop} (he : v.ent k ≠ none)
    (h : Φ () X (v.unlock k)) : E.wp (inode (.releasesleep k)) Φ X v :=
  wp_inode fun _ hc => ⟨v.unlock k, setLock_none hc he, fun _ hw => hw.of_eq rfl rfl rfl rfl rfl rfl rfl, h⟩

theorem wp_invalidate {Φ : Unit → Kernel Unit → View → Prop} (he : v.ent k = some (i, n))
    (hs : v.ino i = v.dsk i) (h : Φ () X (v.unload k)) :
    E.wp (inode (.setValid k false)) Φ X v :=
  wp_inode fun _ hc => ⟨v.unload k, hc.invalidate he hs, fun _ hw => hw.of_eq rfl rfl rfl rfl rfl rfl rfl, h⟩

theorem take_rep {sb : Superblock} {me : ℕ} {v : View} {c : ℕ → Inode} (hc : CacheRep sb me v c)
    (he : v.ent k = some (i, n)) :
    CacheRep sb me (v.take k i) (Icache.modify c k fun x => { x with ref := x.ref + 1 }) := by
  have hent := hc.entry he
  have := hc.setRef he (r := (c k).ref + 1) (by omega)
  have hn : ((c k).ref + 1).toNat = v.refs k + 1 := by
    rw [CacheRep.refs_eq he, hent.2.2]
    omega
  rw [hn] at this
  exact this

theorem wp_idup {Φ : Unit → Kernel Unit → View → Prop} (he : v.ent k = some (i, n))
    (h : Φ () X (v.take k i)) : E.wp (idup k) Φ X v :=
  wp_inode (o := .idup k) fun _ hc =>
    ⟨v.take k i, take_rep hc he, fun _ hw => hw.of_eq rfl rfl rfl rfl rfl rfl rfl, h⟩

/-- `iget` has an entry to return. -/
def HasEntry (E : Env) (v : View) (i : ℕ) : Prop :=
  (∃ k, v.Gets i k) ∨ E.mode.panics "iget: no inodes"

theorem wp_iget {Φ : ℕ → Kernel Unit → View → Prop} (hroom : E.HasEntry v i)
    (h : ∀ k, v.Gets i k → Φ k X (v.take k i)) : E.wp (iget i) Φ X v := by
  refine wp_inode (o := .iget i) fun c hc => ?_
  simp only [inodeStep, Icache.iget]
  have hentry : ∀ l < NINODE, (0 < (c l).ref && (c l).inum == i) = true ↔ ∃ n, v.ent l = some (i, n) := by
    intro l hl
    rw [hc.ent l hl, Inode.entry]
    constructor
    · intro hb
      simp only [Bool.and_eq_true, decide_eq_true_eq, beq_iff_eq] at hb
      exact ⟨_, by rw [if_pos hb.1, hb.2]⟩
    · rintro ⟨n, hn⟩
      split at hn
      · simp only [Option.some.injEq, Prod.mk.injEq] at hn
        simp_all
      · cases hn
  cases hfind : firstIndex NINODE fun l => 0 < (c l).ref && (c l).inum == i with
  | some l =>
    obtain ⟨hl, hp⟩ := firstIndex_some hfind
    obtain ⟨n, hn⟩ := (hentry l hl).mp hp
    exact ⟨v.take l i, take_rep hc hn, fun w hw => hw.of_eq rfl rfl rfl rfl rfl rfl rfl, h l (.inl ⟨n, hn⟩)⟩
  | none =>
    have hnone : ∀ l n, v.ent l ≠ some (i, n) := by
      intro l n hl
      have hlt := hc.lt (k := l) (by simp [hl])
      exact firstIndex_none hfind hlt ((hentry l hlt).mpr ⟨n, hl⟩)
    cases hfree : firstIndex NINODE fun l => (c l).ref == 0 with
    | some l =>
      obtain ⟨hl, hp⟩ := firstIndex_some hfree
      have href : (c l).ref = 0 := by simpa using hp
      have he : v.ent l = none := by rw [hc.ent l hl, Inode.entry, if_neg (by omega)]
      refine ⟨v.take l i, ?_, fun w hw => hw.of_eq rfl rfl rfl rfl rfl rfl rfl, h l (.inr ⟨he, hl, hnone⟩)⟩
      have := hc.assign hl he hnone
      rwa [View.take, View.refs, he]
    | none =>
      refine hroom.resolve_left ?_
      rintro ⟨l, ⟨n, hn⟩ | ⟨he, hl, -⟩⟩
      · exact hnone l n hn
      · have := firstIndex_none hfree hl
        simp [hc.ref_zero hl he] at this

theorem drop_rep {sb : Superblock} {me : ℕ} {v : View} {c : ℕ → Inode} (hc : CacheRep sb me v c)
    (he : v.ent k = some (i, n)) (hl : n = 1 → k ∉ v.locked) (hs : n = 1 → v.ino i = v.dsk i) :
    CacheRep sb me (v.drop k) (Icache.modify c k fun x => { x with ref := x.ref - 1 }) := by
  have hent := hc.entry he
  match n, he with
  | 0, he => exact absurd (hc.pos he) (lt_irrefl 0)
  | 1, he =>
    have hr : (c k).ref - 1 = 0 := by
      rw [hent.2.2]
      rfl
    have hv : v.drop k = { v with ent := Function.update v.ent k none, loaded := v.loaded \ {k} } := by
      simp only [View.drop, he, View.dropEnt]
      congr 1
      exact Set.ext fun l => by simp
    have := hc.vacate he (hl rfl) (hs rfl)
    rw [Icache.modify] at this ⊢
    rwa [hr, hv]
  | n + 2, he =>
    have := hc.setRef he (r := (c k).ref - 1) (by rw [hent.2.2]; omega)
    have hn : ((c k).ref - 1).toNat = n + 1 := by
      rw [hent.2.2]
      omega
    have hv : v.drop k = { v with ent := Function.update v.ent k (some (i, n + 1)) } := by
      simp [View.drop, he, View.dropEnt]
    rw [hn] at this
    rwa [hv]

theorem wp_iputDrop {Φ : Unit → Kernel Unit → View → Prop} (he : v.ent k = some (i, n)) (hl : n = 1 → k ∉ v.locked)
    (hs : n = 1 → v.ino i = v.dsk i) (h : Φ () X (v.drop k)) : E.wp (inode (.iputDrop k)) Φ X v :=
  wp_inode fun _ hc => ⟨v.drop k, drop_rep hc he hl hs, fun _ hw => hw.of_eq rfl rfl rfl rfl rfl rfl rfl, h⟩

/-- The first section of `iput`: it locks the last reference to an inode without links, and gives up
any other. -/
theorem wp_iputTest {Φ : Bool → Kernel Unit → View → Prop} (he : v.ent k = some (i, n)) (hl : n = 1 → k ∉ v.locked)
    (hs : n = 1 → v.ino i = v.dsk i)
    (h1 : n = 1 → (v.ino i).nlink = 0 → k ∈ v.loaded → Φ true X (v.lock k))
    (h2 : ¬(n = 1 ∧ (v.ino i).nlink = 0 ∧ k ∈ v.loaded) → Φ false X (v.drop k)) :
    E.wp (inode (.iputTest k)) Φ X v := by
  refine wp_inode fun c hc => ?_
  have hk := hc.lt (k := k) (by simp [he])
  have hent := hc.entry he
  have hval := hc.valid k i n he
  simp only [inodeStep, Icache.iputTest]
  by_cases hfree : (c k).ref = 1 ∧ (c k).valid = true ∧ (c k).d.nlink = 0
  · have hmem := hval.mp hfree.2.1
    have hd := hc.cached k i n he hmem
    rw [if_pos hfree, if_pos (by rw [hc.lock k hk, Store.holder_neg (hl (by omega))])]
    refine ⟨v.lock k, ?_, fun w hw => hw.of_eq rfl rfl rfl rfl rfl rfl rfl, ?_⟩
    · have := hc.setLock (k := k) (by simp [he]) (L := insert k v.locked) (fun l hl => by simp [hl])
      rwa [Store.holder_insert] at this
    · exact h1 (by omega) (by rw [← hd]; exact hfree.2.2) hmem
  · rw [if_neg hfree]
    refine ⟨v.drop k, drop_rep hc he hl hs, fun w hw => hw.of_eq rfl rfl rfl rfl rfl rfl rfl, h2 ?_⟩
    rintro ⟨hn, hnl, hmem⟩
    have hd := hc.cached k i n he hmem
    exact hfree ⟨by omega, hval.mpr hmem, by rw [hd]; exact hnl⟩

end Env
end Xv6Arm

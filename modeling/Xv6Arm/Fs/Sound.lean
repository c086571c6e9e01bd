import Xv6Arm.Fs.Dirs

/-!
# The file system in order

What holds of the files, and of the inode cache, between the steps of a system
call: every block has one owner, files have no holes, directories are tables of
proper names, and an inode that is not locked is as it is on disk. Taking, locking
and giving back inodes keeps that.
-/
namespace Xv6Arm
open Lib

/-- The names "." and "..". -/
abbrev DOT : List UInt8 := [46]
abbrev DOTDOT : List UInt8 := [46, 46]

namespace View

/-- A directory is made of whole entries, with distinct and proper names, for inodes that there are. -/
structure DirOk (sb : Superblock) (v : View) (i : ℕ) : Prop where
  whole : (v.ino i).size % DESIZE = 0
  distinct : Slots.Distinct (v.dir i)
  entry : ∀ (e : ℕ) key j, (v.dir i)[e]? = some (some (key, j)) → j < sb.ninodes ∧ key ≠ [] ∧ SLASH ∉ key

/-- The first two entries of a directory. -/
structure HasDots (v : View) (i : ℕ) : Prop where
  dot : (v.dir i)[0]? = some (some (DOT, i))
  dotdot : ∃ j, (v.dir i)[1]? = some (some (DOTDOT, j))

/-- The files are in order; the directories of `N` may still be without their first entries. -/
structure FilesOk (sb : Superblock) (N : Set ℕ) (v : View) : Prop where
  acct : Acct sb v
  solid : ∀ i, v.Live sb i → v.Solid i
  clean : ∀ i a, v.Uses sb i .indirect a → a ∉ v.dirty
  dirClean : ∀ i s b, (v.ino i).type = T_DIR → v.Uses sb i s b → b ∉ v.dirty
  dirs : ∀ i, v.Live sb i → (v.ino i).type = T_DIR → v.DirOk sb i
  dots : ∀ i, v.Live sb i → (v.ino i).type = T_DIR → i ∉ N → v.HasDots i

/-- The inode cache is in order: what is not locked is as on disk, and an inode without links is allocated
only as long as the cache has it. -/
structure CacheOk (sb : Superblock) (v : View) : Prop where
  ents : ∀ k i n, v.ent k = some (i, n) → i < sb.ninodes
  typed : ∀ k i n, v.ent k = some (i, n) → k ∈ v.loaded → (v.ino i).type ≠ 0
  types : ∀ i, (v.ino i).type = (v.dsk i).type
  saved : ∀ i, (∀ k n, v.ent k = some (i, n) → k ∉ v.locked) → v.ino i = v.dsk i
  orphans : ∀ i, v.Live sb i → (v.ino i).nlink = 0 → ∃ k n, v.ent k = some (i, n) ∧ k ∈ v.loaded

structure Sound (sb : Superblock) (N : Set ℕ) (v : View) : Prop where
  files : v.FilesOk sb N
  cache : v.CacheOk sb
  held : v.held = ∅

section Same
variable {sb : Superblock} {N : Set ℕ} {v v' : View} {i j : ℕ}

theorem slot_same (ha : (v'.ino j).addrs = (v.ino j).addrs) (hd : v'.dat = v.dat) (s : Slot) : v'.slot j s = v.slot j s :=
  slot_congr ha fun _ => by rw [hd]

theorem block_same (ha : (v'.ino j).addrs = (v.ino j).addrs) (hd : v'.dat = v.dat) (bn : ℕ) :
    v'.block j bn = v.block j bn := by
  simp only [block]
  cases Slot.of bn with
  | none => rfl
  | some s => exact slot_same ha hd s

theorem contents_same (ha : (v'.ino j).addrs = (v.ino j).addrs) (hs : (v'.ino j).size = (v.ino j).size)
    (hd : v'.dat = v.dat) : v'.contents j = v.contents j :=
  contents_congr hs fun p _ => by rw [byte, byte, block_same ha hd, hd]

theorem dir_congr (h : v'.contents j = v.contents j) : v'.dir j = v.dir j := by rw [dir, dir, h]

theorem DirOk.same (h : v.DirOk sb j) (hs : (v'.ino j).size = (v.ino j).size) (hd : v'.dir j = v.dir j) :
    v'.DirOk sb j := ⟨by rw [hs]; exact h.whole, by rw [hd]; exact h.distinct, by rw [hd]; exact h.entry⟩

theorem HasDots.same (h : v.HasDots j) (hd : v'.dir j = v.dir j) : v'.HasDots j :=
  ⟨by rw [hd]; exact h.dot, by rw [hd]; exact h.dotdot⟩

/-- Inodes change, but not in what makes up their files. -/
theorem FilesOk.same (h : v.FilesOk sb N) (ht : ∀ j, (v'.ino j).type = (v.ino j).type)
    (ha : ∀ j, (v'.ino j).addrs = (v.ino j).addrs) (hs : ∀ j, (v'.ino j).size = (v.ino j).size) (hd : v'.dat = v.dat)
    (hb : v'.bit = v.bit) (hdirty : v'.dirty = v.dirty) : v'.FilesOk sb N := by
  have hlive : ∀ j, v'.Live sb j ↔ v.Live sb j := fun j => by rw [Live, Live, ht]
  have huses : ∀ j s b, v'.Uses sb j s b ↔ v.Uses sb j s b := uses_same (fun j => by rw [ht]) ha fun _ _ _ => by rw [hd]
  have hdir : ∀ j, v'.dir j = v.dir j := fun j => dir_congr (contents_same (ha j) (hs j) hd)
  refine ⟨h.acct.same huses hb, ?_, ?_, ?_, ?_, ?_⟩
  · intro j hl bn hbn
    rw [block_same (ha j) hd]
    exact h.solid j ((hlive j).mp hl) bn (by rwa [← hs j])
  · intro j a hu
    rw [hdirty]
    exact h.clean j a ((huses j _ a).mp hu)
  · intro j s b hT hu
    rw [hdirty]
    exact h.dirClean j s b (by rwa [← ht j]) ((huses j s b).mp hu)
  · intro j hl hT
    exact (h.dirs j ((hlive j).mp hl) (by rwa [← ht j])).same (hs j) (hdir j)
  · intro j hl hT hN
    exact (h.dots j ((hlive j).mp hl) (by rwa [← ht j]) hN).same (hdir j)

theorem FilesOk.congr (h : v.FilesOk sb N) (hi : v'.ino = v.ino) (hd : v'.dat = v.dat) (hb : v'.bit = v.bit)
    (hdirty : v'.dirty = v.dirty) : v'.FilesOk sb N :=
  h.same (fun _ => by rw [hi]) (fun _ => by rw [hi]) (fun _ => by rw [hi]) hd hb hdirty

end Same

/-! ## Directories -/

section Dirs
variable {sb : Superblock} {N : Set ℕ} {v : View} {i k : ℕ}

theorem FilesOk.isDir (h : v.FilesOk sb N) (he : ∃ m, v.ent k = some (i, m)) (hload : k ∈ v.loaded) (hl : v.Live sb i)
    (ht : (v.ino i).type = T_DIR) (hheld : v.held = ∅) : v.IsDir sb k i :=
  ⟨⟨he, hload, hl, h.acct, h.solid i hl, fun s b => h.dirClean i s b ht, hheld⟩, ht, (h.dirs i hl ht).whole⟩

end Dirs

/-! ## The inode cache changes -/

section Cache
variable {sb : Superblock} {N : Set ℕ} {v v' : View} {i k m me : ℕ} {c : ℕ → Inode}

theorem CacheOk.take (h : v.CacheOk sb) (hload : ∀ l ∈ v.loaded, v.ent l ≠ none) (hg : v.Gets i k)
    (hi : i < sb.ninodes) : (v.take k i).CacheOk sb := by
  have hent : ∀ {l j n}, (v.take k i).ent l = some (j, n) → l = k ∧ j = i ∨ l ≠ k ∧ v.ent l = some (j, n) := by
    intro l j n hl
    by_cases hlk : l = k
    · subst hlk
      simp only [take_ent, Function.update_self, Option.some.injEq, Prod.mk.injEq] at hl
      exact .inl ⟨rfl, hl.1.symm⟩
    · exact .inr ⟨hlk, by simpa [hlk] using hl⟩
  have hkeep : ∀ {l j n}, v.ent l = some (j, n) → ∃ n', (v.take k i).ent l = some (j, n') := by
    intro l j n hl
    by_cases hlk : l = k
    · subst hlk
      rcases hg with ⟨n', hn'⟩ | ⟨hnone, -, -⟩
      · rw [hl] at hn'
        cases hn'
        exact ⟨_, Function.update_self _ _ _⟩
      · rw [hl] at hnone
        cases hnone
    · exact ⟨n, by simpa [hlk] using hl⟩
  refine ⟨?_, ?_, h.types, ?_, ?_⟩
  · intro l j n hl
    rcases hent hl with ⟨-, rfl⟩ | ⟨-, hl⟩
    · exact hi
    · exact h.ents l j n hl
  · intro l j n hl hm
    rcases hent hl with ⟨rfl, rfl⟩ | ⟨-, hl⟩
    · rcases hg with ⟨n', hn'⟩ | ⟨hnone, -, -⟩
      · exact h.typed l j n' hn' hm
      · exact absurd hnone (hload l hm)
    · exact h.typed l j n hl hm
  · intro j hj
    refine h.saved j fun l n hl => ?_
    obtain ⟨n', hn'⟩ := hkeep hl
    exact hj l n' hn'
  · intro j hl hz
    obtain ⟨l, n, he, hload⟩ := h.orphans j hl hz
    obtain ⟨n', hn'⟩ := hkeep he
    exact ⟨l, n', hn', hload⟩

/-- What is left of the entries after one reference to inode `i` at `k` is given up. -/
theorem drop_ent_cases (he : v.ent k = some (i, m)) {l j n : ℕ} (hl : (v.drop k).ent l = some (j, n)) :
    l ≠ k ∧ v.ent l = some (j, n) ∨ l = k ∧ j = i ∧ m ≠ 1 := by
  by_cases hlk : l = k
  · subst hlk
    rw [drop_ent, Function.update_self, he] at hl
    match m with
    | 0 => cases hl
    | 1 => cases hl
    | m + 2 =>
      cases hl
      exact .inr ⟨rfl, rfl, by omega⟩
  · exact .inl ⟨hlk, by simpa [hlk] using hl⟩

theorem drop_ent_self (he : v.ent k = some (i, m)) (hm : 1 < m) : (v.drop k).ent k = some (i, m - 1) := by
  obtain ⟨n, rfl⟩ := Nat.exists_eq_add_of_le' hm
  simp [he, dropEnt]

/-- An entry is kept if other references are left. -/
theorem mem_drop_loaded (he : v.ent k = some (i, m)) {l : ℕ} (hl : l ∈ v.loaded) (hm : l = k → 1 < m) :
    l ∈ (v.drop k).loaded := by
  refine ⟨hl, fun hlk => ?_⟩
  have := drop_ent_self he (hm hlk)
  rw [drop_ent, Function.update_self] at this
  simp [this]

theorem CacheOk.drop (h : v.CacheOk sb) (hc : CacheRep sb me v c) (he : v.ent k = some (i, m))
    (hk : m = 1 → k ∉ v.locked) (hz : ¬(m = 1 ∧ (v.ino i).nlink = 0 ∧ k ∈ v.loaded)) : (v.drop k).CacheOk sb := by
  have hpos := hc.pos he
  refine ⟨?_, ?_, h.types, ?_, ?_⟩
  · intro l j n hl
    rcases drop_ent_cases he hl with ⟨-, hl⟩ | ⟨-, rfl, -⟩
    · exact h.ents l j n hl
    · exact h.ents k j m he
  · intro l j n hl hload
    rcases drop_ent_cases he hl with ⟨-, hl⟩ | ⟨rfl, rfl, -⟩
    · exact h.typed l j n hl hload.1
    · exact h.typed l j m he hload.1
  · intro j hj
    refine h.saved j fun l n hl => ?_
    by_cases hlk : l = k
    · subst hlk
      rw [he] at hl
      cases hl
      by_cases hm : m = 1
      · exact hk hm
      · exact hj l _ (drop_ent_self he (by omega))
    · exact hj l n (by simpa [hlk] using hl)
  · intro j hl hj
    obtain ⟨l, n, hel, hload⟩ := h.orphans j hl hj
    by_cases hlk : l = k
    · subst hlk
      rw [he] at hel
      cases hel
      have hm : 1 < m := by
        by_contra hm
        exact hz ⟨by omega, hj, hload⟩
      exact ⟨l, _, drop_ent_self he hm, mem_drop_loaded he hload fun _ => hm⟩
    · exact ⟨l, n, by simpa [hlk] using hel, mem_drop_loaded he hload fun h => absurd h hlk⟩

/-- `ilock`. -/
theorem CacheOk.lock (h : v.CacheOk sb) (he : v.ent k = some (i, m)) (ht : (v.ino i).type ≠ 0) :
    ((v.lock k).load k).CacheOk sb := by
  refine ⟨h.ents, ?_, h.types, ?_, ?_⟩
  · rintro l j n hl (rfl | hload)
    · have hl : v.ent l = some (j, n) := hl
      rw [he] at hl
      cases hl
      exact ht
    · exact h.typed l j n hl hload
  · exact fun j hj => h.saved j fun l n hl hm => hj l n hl (Finset.mem_insert_of_mem hm)
  · intro j hl hz
    obtain ⟨l, n, hel, hload⟩ := h.orphans j hl hz
    exact ⟨l, n, hel, .inr hload⟩

/-- `iunlock` of an inode that has been written back. -/
theorem CacheOk.unlock (h : v.CacheOk sb) (he : v.ent k = some (i, m)) (hs : v.ino i = v.dsk i) :
    (v.unlock k).CacheOk sb := by
  refine ⟨h.ents, h.typed, h.types, fun j hj => ?_, h.orphans⟩
  by_cases hji : j = i
  · rw [hji]
    exact hs
  · refine h.saved j fun l n hl hm => hj l n hl (Finset.mem_erase.mpr ⟨?_, hm⟩)
    rintro rfl
    rw [he] at hl
    cases hl
    exact hji rfl

end Cache
end View
end Xv6Arm

import Xv6Arm.Fs.Sound

/-!
# Names

A path stands for the list of its elements, and `namex` folds the search in a
directory over them. On its way it holds one reference and at most one lock; what
is left in the end is the reference to the inode that it returns.
-/
namespace Xv6Arm
open Lib

/-! ## The elements of a path -/

/-- The maximal runs of a path without a slash, cut to the length of a name. -/
def elems (path : List UInt8) : List (List UInt8) := ((path.splitOn SLASH).filter (· ≠ [])).map (·.take DIRSIZ)

theorem elems_nil : elems [] = [] := rfl

theorem elems_slash (p : List UInt8) : elems (SLASH :: p) = elems p := by
  simp [elems, List.splitOn_cons_eq_if_modifyHead]

theorem elems_dropWhile (p : List UInt8) : elems (p.dropWhile (· == SLASH)) = elems p := by
  induction p with
  | nil => rfl
  | cons a p ih =>
    by_cases ha : a = SLASH
    · rw [ha, List.dropWhile_cons_of_pos (by simp), ih, elems_slash]
    · rw [List.dropWhile_cons_of_neg (by simpa using ha)]

/-- A run that comes first. -/
theorem elems_append {w : List UInt8} (hw : ∀ a ∈ w, a ≠ SLASH) (hne : w ≠ []) (p : List UInt8)
    (hp : p = [] ∨ p.head? = some SLASH) : elems (w ++ p) = w.take DIRSIZ :: elems p := by
  have hno : ∀ a ∈ w, (a == SLASH) = false := fun a ha => by simpa using hw a ha
  rcases hp with rfl | hp
  · rw [List.append_nil, elems, List.splitOn_eq_splitOnP, List.splitOnP_eq_singleton hno]
    simp [hne, elems_nil]
  · obtain ⟨p, rfl⟩ : ∃ q, p = SLASH :: q := by
      cases p with
      | nil => cases hp
      | cons a q =>
        cases hp
        exact ⟨q, rfl⟩
    rw [elems_slash, elems, List.splitOn_eq_splitOnP, List.splitOnP_append_cons_of_forall_mem hno SLASH (by simp)]
    simp [hne, elems, List.splitOn_eq_splitOnP]

theorem head?_dropWhile_slash (p : List UInt8) : (p.dropWhile (· == SLASH)).head? ≠ some SLASH := by
  intro h
  have := List.head?_dropWhile_not (· == SLASH) p
  rw [h] at this
  simp at this

theorem dropWhile_run (s : List UInt8) :
    s.dropWhile (· != SLASH) = [] ∨ (s.dropWhile (· != SLASH)).head? = some SLASH := by
  have := List.head?_dropWhile_not (· != SLASH) s
  cases h : s.dropWhile (· != SLASH) with
  | nil => exact .inl rfl
  | cons a t =>
    rw [h] at this
    exact .inr (by simpa using this)

theorem elems_run {s : List UInt8} (hs : s ≠ []) (hhead : s.head? ≠ some SLASH) :
    elems s = (s.takeWhile (· != SLASH)).take DIRSIZ :: elems (s.dropWhile (· != SLASH)) := by
  have hne : s.takeWhile (· != SLASH) ≠ [] := by
    cases s with
    | nil => exact absurd rfl hs
    | cons a s =>
      have ha : a ≠ SLASH := fun h => hhead (by rw [h]; rfl)
      simp [ha]
  have hall : ∀ a ∈ s.takeWhile (· != SLASH), a ≠ SLASH := fun a ha => by simpa using List.mem_takeWhile_imp ha
  conv_lhs => rw [← List.takeWhile_append_dropWhile (p := (· != SLASH)) (l := s)]
  exact elems_append hall hne _ (dropWhile_run s)

theorem skipelem_none {path : List UInt8} (h : skipelem path = none) : elems path = [] := by
  unfold skipelem at h
  simp only at h
  split at h
  · rename_i hs
    rw [← elems_dropWhile, hs, elems_nil]
  · cases h

/-- `skipelem` takes off the first element, and the slashes after it. -/
theorem skipelem_some {path rest name : List UInt8} (h : skipelem path = some (rest, name)) :
    elems path = name :: elems rest ∧ (elems rest = [] ↔ rest = []) ∧ rest.length < path.length := by
  unfold skipelem at h
  simp only at h
  split at h
  · cases h
  · rename_i hs
    cases h
    have hhead := head?_dropWhile_slash path
    generalize hs' : path.dropWhile (· == SLASH) = s at hs hhead ⊢
    refine ⟨?_, ⟨fun he => ?_, fun he => by rw [he, elems_nil]⟩, ?_⟩
    · rw [← elems_dropWhile, hs', elems_run hs hhead, elems_dropWhile]
    · by_contra hne
      rw [elems_run hne (head?_dropWhile_slash _)] at he
      cases he
    · have h1 := (List.dropWhile_suffix (· == SLASH) (l := path)).length_le
      have h2 := (List.dropWhile_suffix (· == SLASH) (l := s.dropWhile (· != SLASH))).length_le
      rw [hs'] at h1
      cases s with
      | nil => exact absurd rfl hs
      | cons a s =>
        have ha : a ≠ SLASH := fun h => hhead (by rw [h]; rfl)
        have h3 := (List.dropWhile_suffix (· != SLASH) (l := s)).length_le
        rw [List.dropWhile_cons_of_pos (by simpa using ha)] at h2 ⊢
        rw [List.length_cons] at h1
        omega

/-! ## Folding the search -/

namespace View

/-- The inode that directory `j` has under `name`; anything else has none. -/
def look (v : View) (j : ℕ) (name : List UInt8) : Option ℕ :=
  if (v.ino j).type = T_DIR then (Slots.lookup (nameKey name) (v.dir j) 0).map Prod.fst else none

/-- The inode at the end of a list of names. -/
def walk (v : View) (j : ℕ) (cs : List (List UInt8)) : Option ℕ := cs.foldlM v.look j

/-- The inode that `namex` is to return: that of all the names, or the directory of the last one. -/
def target (v : View) (parent : Bool) (j : ℕ) (cs : List (List UInt8)) : Option ℕ :=
  if parent then
    if cs = [] then none else (v.walk j cs.dropLast).filter fun d => (v.ino d).type = T_DIR
  else v.walk j cs

variable {v : View} {j : ℕ} {c : List UInt8} {cs : List (List UInt8)}

theorem target_nil (v : View) (parent : Bool) (j : ℕ) : v.target parent j [] = if parent then none else some j := by
  cases parent <;> rfl

theorem target_cons (h : cs ≠ []) (parent : Bool) :
    v.target parent j (c :: cs) = (v.look j c).bind fun d => v.target parent d cs := by
  cases parent with
  | false => simp [target, walk]
  | true =>
    simp only [target, walk, if_true, if_neg h, if_neg (List.cons_ne_nil c cs), List.dropLast_cons_of_ne_nil h,
      List.foldlM_cons, Option.bind_eq_bind]
    cases v.look j c <;> rfl

theorem target_walk (parent : Bool) (h : parent = false ∨ cs ≠ []) :
    v.target parent j (c :: cs) = (v.look j c).bind fun d => v.target parent d cs := by
  rcases h with rfl | h
  · simp [target, walk]
  · exact target_cons h parent

theorem target_parent (v : View) (j : ℕ) (c : List UInt8) :
    v.target true j [c] = if (v.ino j).type = T_DIR then some j else none := by
  simp [target, walk, Option.filter]

/-! ## What the walk holds -/

/-- Other inodes have been read. -/
@[simps -fullyApplied] def reload (L : Set ℕ) (v : View) : View := { v with loaded := L }

/-- Nothing but inodes read on the way distinguishes the view from `v`. -/
structure Back (sb : Superblock) (N : Set ℕ) (v : View) (L : Set ℕ) : Prop where
  more : v.loaded ⊆ L
  sound : (v.reload L).Sound sb N

/-- No name is that of an inode that is not allocated. -/
def Closed (sb : Superblock) (v : View) : Prop :=
  ∀ i, v.Live sb i → (v.ino i).type = T_DIR → ∀ (e : ℕ) key j, (v.dir i)[e]? = some (some (key, j)) → v.Live sb j

/-- Two entries of the inode cache are free: `namex` holds one directory while it gets the next inode. -/
def Spare (v : View) : Prop := ∃ k l, k < NINODE ∧ l < NINODE ∧ k ≠ l ∧ v.ent k = none ∧ v.ent l = none

variable {sb : Superblock} {N : Set ℕ} {k k' j' : ℕ}

theorem Sound.live (h : v.Sound sb N) {n : ℕ} (he : v.ent k = some (j, n)) (hk : k ∈ v.loaded) : v.Live sb j :=
  ⟨h.cache.ents k j n he, h.cache.typed k j n he hk⟩

theorem dir_eq {v' : View} (hi : v'.ino = v.ino) (hd : v'.dat = v.dat) (j : ℕ) : v'.dir j = v.dir j :=
  dir_congr (contents_same (by rw [hi]) (by rw [hi]) hd)

/-- With one more reference at `k`, `iget` still finds the same entries. -/
theorem Gets.of_take (h : v.Gets j k) (h' : (v.take k j).Gets j' k') : v.Gets j' k' := by
  rcases h' with ⟨n, hn⟩ | ⟨hnone, hlt, hno⟩
  · by_cases hk : k' = k
    · subst hk
      simp only [take_ent, Function.update_self, Option.some.injEq, Prod.mk.injEq] at hn
      rwa [← hn.1]
    · exact .inl ⟨n, by simpa [hk] using hn⟩
  · have hk : k' ≠ k := by
      rintro rfl
      simp at hnone
    refine .inr ⟨by simpa [hk] using hnone, hlt, fun l n hl => ?_⟩
    by_cases hlk : l = k
    · subst hlk
      rcases h with ⟨m, hm⟩ | ⟨hnone', -, -⟩
      · rw [hl] at hm
        cases hm
        exact hno l _ (Function.update_self _ _ _)
      · rw [hl] at hnone'
        cases hnone'
    · exact hno l n (by simpa [hlk] using hl)

theorem Gets.same_entry (h : (v.take k j).Gets j' k) : j' = j := by
  rcases h with ⟨n, hn⟩ | ⟨hnone, -, -⟩
  · simp only [take_ent, Function.update_self, Option.some.injEq, Prod.mk.injEq] at hn
    exact hn.1.symm
  · simp at hnone

/-- Two references can be taken in either order. -/
theorem Gets.swap (h : v.Gets j k) (h' : (v.take k j).Gets j' k') :
    (v.take k j).take k' j' = (v.take k' j').take k j ∧ (v.take k' j').Gets j k := by
  by_cases hk : k' = k
  · subst hk
    obtain rfl := h'.same_entry
    exact ⟨rfl, .inl ⟨_, Function.update_self _ _ _⟩⟩
  · have hrefs : (v.take k j).refs k' = v.refs k' ∧ (v.take k' j').refs k = v.refs k := by
      simp [refs, hk, Ne.symm hk]
    refine ⟨?_, ?_⟩
    · simp only [take, refs] at hrefs ⊢
      rw [hrefs.1, hrefs.2, Function.update_comm (Ne.symm hk)]
    · rcases h with ⟨n, hn⟩ | ⟨hnone, hlt, hno⟩
      · exact .inl ⟨n, by simpa [Ne.symm hk] using hn⟩
      · refine .inr ⟨by simpa [Ne.symm hk] using hnone, hlt, fun l n hl => ?_⟩
        by_cases hlk : l = k'
        · subst hlk
          simp only [take_ent, Function.update_self, Option.some.injEq, Prod.mk.injEq] at hl
          obtain ⟨rfl, -⟩ := hl
          -- `iget` would have found the entry at `k`
          rcases h' with ⟨n', hn'⟩ | ⟨-, -, hno'⟩
          · exact hno l n' (by simpa [hk] using hn')
          · exact hno' k _ (Function.update_self _ _ _)
        · exact hno l n (by simpa [hlk] using hl)

end View

namespace Env
variable {E : Env} {X : Kernel Unit} {v w : View} {N : Set ℕ} {k k' j j' : ℕ} {L : Set ℕ}

/-- The inode cache has entries for two more inodes, or `iget` may panic. -/
def Spare (E : Env) (v : View) : Prop := v.Spare ∨ E.mode.panics "iget: no inodes"

theorem HasEntry.of_free (h : (∃ k < NINODE, v.ent k = none) ∨ E.mode.panics "iget: no inodes") (j : ℕ) :
    E.HasEntry v j := by
  rcases h with ⟨k, hk, hnone⟩ | hp
  · left
    by_cases hex : ∃ l n, v.ent l = some (j, n)
    · obtain ⟨l, hl⟩ := hex
      exact ⟨l, .inl hl⟩
    · exact ⟨k, .inr ⟨hnone, hk, fun l n hl => hex ⟨l, n, hl⟩⟩⟩
  · exact .inr hp

theorem Spare.entry (h : E.Spare v) (j : ℕ) : E.HasEntry v j :=
  .of_free (h.imp_left fun ⟨k, _, hk, _, _, hnone, _⟩ => ⟨k, hk, hnone⟩) j

theorem Spare.take (h : E.Spare v) (j' : ℕ) : E.HasEntry (v.take k j) j' := by
  refine .of_free (h.imp_left ?_) j'
  rintro ⟨l, l', hl, hl', hne, hnone, hnone'⟩
  by_cases hlk : l = k
  · exact ⟨l', hl', by simpa [show l' ≠ k from fun h => hne (hlk.trans h.symm)] using hnone'⟩
  · exact ⟨l, hl, by simpa [hlk] using hnone⟩

/-- A reference to an inode that others may have read in the meantime is given up. -/
theorem wp_iput_back {Φ : Unit → Kernel Unit → View → Prop} (hw : w.CacheOk E.sb) (hg : w.Gets j k)
    (hself : View.dropEnt (some (j, w.refs k + 1)) = w.ent k) (hload : ∀ l ∈ w.loaded, w.ent l ≠ none)
    (hlocked : w.locked = ∅) (hb : (w.take k j).Back E.sb N L)
    (h : ∀ L', w.Back E.sb N L' → Φ () X (w.reload L')) : E.wp (iput E.sb k) Φ X ((w.take k j).reload L) := by
  have he : ((w.take k j).reload L).ent k = some (j, w.refs k + 1) := by simp
  -- an inode without links has an entry already, so this is not the last reference to it
  have hkeep : ¬(w.refs k + 1 = 1 ∧ (w.ino j).nlink = 0 ∧ k ∈ L) := by
    rintro ⟨hz, hnl, hm⟩
    have hz : w.refs k = 0 := by omega
    obtain ⟨l, n, hel, -⟩ := hw.orphans j (hb.sound.live he hm) hnl
    rcases hg with ⟨m, hm'⟩ | ⟨-, -, hno⟩
    · rw [hz, hm'] at hself
      cases hself
    · exact hno l n hel
  refine wp_rep fun _ c _ hc => wp_iput (T := ∅) (n := 0) he (fun _ => by simp [hlocked])
    (fun _ => hb.sound.cache.saved j fun l n _ => by simp [hlocked]) (fun h1 h2 h3 => absurd ⟨h1, h2, h3⟩ hkeep) (fun _ => ?_)
    fun h1 h2 h3 => absurd ⟨h1, h2, h3⟩ hkeep
  have heq : ((w.take k j).reload L).drop k = w.reload { l | l ∈ L ∧ (l = k → w.ent k ≠ none) } := by
    simp only [View.drop, View.reload, View.take, Function.update_self, Function.update_idem, hself, Function.update_eq_self]
  rw [heq]
  refine h _ ⟨fun l hl => ⟨hb.more hl, fun hlk => hlk ▸ hload l hl⟩, hb.sound.files.congr rfl rfl rfl rfl, ?_, hb.sound.held⟩
  rw [← heq]
  exact hb.sound.cache.drop hc he (fun _ => by simp [hlocked]) hkeep

/-- `ilock` and `iunlock` leave the inode read. -/
theorem unlock_load (hlocked : w.locked = ∅) :
    (((w.reload L).lock k).load k).unlock k = w.reload (insert k L) := by
  simp [View.unlock, View.load, View.lock, View.reload, hlocked]

/-- The same, with another reference taken under the lock. -/
theorem unlock_take (hlocked : w.locked = ∅) :
    ((((w.reload L).lock k).load k).take k' j').unlock k = (w.take k' j').reload (insert k L) := by
  simp [View.unlock, View.load, View.lock, View.reload, View.take, View.refs, hlocked]

theorem Back.load {n : ℕ} (hb : w.Back E.sb N L) (he : w.ent k = some (j, n)) (ht : (w.ino j).type ≠ 0) (hlocked : w.locked = ∅) :
    w.Back E.sb N (insert k L) := by
  have hlock := hb.sound.cache.lock (k := k) he ht
  refine ⟨hb.more.trans (Set.subset_insert k L), hb.sound.files.congr rfl rfl rfl rfl, ?_, hb.sound.held⟩
  rw [← unlock_load hlocked]
  exact hlock.unlock he (hb.sound.cache.saved j fun l m _ => by simp [hlocked])

/-- The loop of `namex` folds the search over the elements of the path. -/
theorem wp_namexFrom {Φ : Option (ℕ × List UInt8) → Kernel Unit → View → Prop} {parent : Bool} {fuel : ℕ}
    {path name : List UInt8} {c : ℕ → Inode} (hv : v.Sound E.sb N) (hc : CacheRep E.sb E.me v c) (hlocked : v.locked = ∅)
    (hr : E.Reads v) (hsp : E.Spare v) (hcl : v.Closed E.sb ∨ E.mode.panics "ilock: no type")
    (hlive : v.Live E.sb j ∨ E.mode.panics "ilock: no type") (hg : v.Gets j k) (hb : (v.take k j).Back E.sb N L)
    (hfuel : path.length < fuel)
    (hnone : v.target parent j (elems path) = none → ∀ L', v.Back E.sb N L' → Φ none X (v.reload L'))
    (hsome : ∀ j' k' name' L', v.target parent j (elems path) = some j' →
      (parent = true → (elems path).getLast? = some name') → v.Gets j' k' → (v.take k' j').Back E.sb N L' →
      Φ (some (k', name')) X ((v.take k' j').reload L')) :
    E.wp (namexFrom E.sb parent fuel k path name) Φ X ((v.take k j).reload L) := by
  induction fuel generalizing j k path name L with
  | zero => exact absurd hfuel (Nat.not_lt_zero _)
  | succ fuel ih =>
    have hload : ∀ l ∈ v.loaded, v.ent l ≠ none := hc.loaded
    rw [namexFrom]
    cases hsk : skipelem path with
    | none =>
      rw [skipelem_none hsk, View.target_nil] at hnone hsome
      cases parent with
      | false => exact wp_ret (hsome j k name L rfl (fun h => by cases h) hg hb)
      | true =>
        exact wp_seq (wp_iput_back hv.cache hg (dropEnt_take hg hc) hload hlocked hb fun L' hL' => wp_ret (hnone rfl L' hL'))
    | some r =>
      obtain ⟨rest, elem⟩ := r
      obtain ⟨helems, hrest, hlen⟩ := skipelem_some hsk
      rw [helems] at hnone hsome
      have he : ((v.take k j).reload L).ent k = some (j, v.refs k + 1) := by simp
      have hi : j < E.sb.ninodes := hb.sound.cache.ents k j _ he
      refine wp_seq (wp_ilock he hi (.inl (by simp [hlocked])) hr ?_ fun _ hty => ?_)
      · rcases hlive with hlive | hp
        · exact .inr (.inl hlive.2)
        · exact .inr (.inr hp)
      have ht : (v.ino j).type ≠ 0 := hty.elim (fun hm => hb.sound.cache.typed k j _ he hm) id
      have hb' := Back.load hb (k := k) he ht hlocked
      refine wp_rep fun _ c₀ _ hc₀ => ?_
      refine wp_seq (wp_inodeGet he fun x _ _ hx => ?_)
      have hx : x.d.type = (v.ino j).type := congrArg Dinode.type (hx (.inl rfl))
      rw [hx]
      -- the exits that give up the reference and return 0
      have hexit : v.target parent j (elem :: elems rest) = none →
          E.wp (iunlockput E.sb k >>= fun _ => pure none) Φ X ((((v.take k j).reload L).lock k).load k) := by
        intro htarget
        refine wp_seq (wp_seq (wp_iunlock he (by simp) ?_))
        rw [unlock_load (w := v.take k j) hlocked]
        exact wp_iput_back hv.cache hg (dropEnt_take hg hc) hload hlocked hb' fun L' hL' =>
          wp_ret (hnone htarget L' hL')
      have hwalk : ¬(parent = true ∧ rest = []) → v.target parent j (elem :: elems rest) =
          (v.look j elem).bind fun d => v.target parent d (elems rest) := by
        intro hlast
        apply View.target_walk
        cases parent with
        | false => exact .inl rfl
        | true => exact .inr fun hr => hlast ⟨rfl, hrest.mp hr⟩
      by_cases hdir : (v.ino j).type = T_DIR
      · rw [if_neg (not_not.mpr hdir)]
        by_cases hlast : parent = true ∧ rest = []
        · rw [if_pos hlast]
          obtain ⟨rfl, rfl⟩ := hlast
          refine wp_seq (wp_iunlock he (by simp) (wp_ret ?_))
          rw [unlock_load (w := v.take k j) hlocked]
          rw [elems_nil, View.target_parent, if_pos hdir] at hsome
          exact hsome j k elem _ rfl (fun _ => rfl) hg hb'
        · rw [if_neg hlast]
          have htarget := hwalk hlast
          have hfiles : ((((v.take k j).reload L).lock k).load k).FilesOk E.sb N :=
            hb'.sound.files.congr rfl rfl rfl rfl
          have hD := hfiles.isDir ⟨_, he⟩ (.inl rfl) ⟨hi, ht⟩ hdir hb.sound.held
          have hsame : ((((v.take k j).reload L).lock k).load k).dir j = v.dir j := View.dir_eq rfl rfl j
          refine wp_seq (wp_dirlookup hD hr (fun j' e _ => hsp.take j') (fun hno => ?_) fun j' e k' hyes hg' => ?_)
          · rw [hsame] at hno
            exact hexit (by rw [htarget, View.look, if_pos hdir, hno]; rfl)
          · rw [hsame] at hyes
            have hlook : v.look j elem = some j' := by rw [View.look, if_pos hdir, hyes]; rfl
            rw [htarget, hlook] at hnone hsome
            have hg' : (v.take k j).Gets j' k' := hg'
            obtain ⟨hswap, hgk⟩ := hg.swap hg'
            have hgv := hg.of_take hg'
            have hdirOk := hv.files.dirs j ⟨hi, ht⟩ hdir
            have hat := hdirOk.distinct.lookup.mp hyes
            have hj' := (hdirOk.entry e _ j' hat).1
            -- the reference to the next inode is kept, the one to this one given up
            have hcache : (v.take k' j').CacheOk E.sb := hv.cache.take hload hgv hj'
            have hself : View.dropEnt (some (j, (v.take k' j').refs k + 1)) = (v.take k' j').ent k := by
              by_cases hk : k' = k
              · subst hk
                obtain rfl := hg'.same_entry
                simp [View.refs, View.dropEnt]
              · simpa [View.refs, Ne.symm hk] using dropEnt_take hg hc
            obtain ⟨n, hn⟩ : ∃ n, ((v.take k j).take k' j').ent k = some (j, n) := by
              by_cases hk : k' = k
              · subst hk
                obtain rfl := hg'.same_entry
                exact ⟨_, Function.update_self ..⟩
              · exact ⟨_, by simp [Ne.symm hk]; rfl⟩
            refine wp_seq (wp_seq (wp_iunlock hn (by simp) ?_))
            rw [unlock_take (w := v.take k j) hlocked, hswap]
            refine wp_iput_back (N := N) hcache hgk hself ?_ hlocked ⟨hb'.more, ?_, ?_, hb.sound.held⟩ fun L' hL' => ?_
            · intro l hl
              by_cases hlk : l = k'
              · subst hlk
                simp
              · simpa [hlk] using hload l hl
            · exact hb'.sound.files.congr rfl rfl rfl rfl
            · rw [← hswap]
              exact hb'.sound.cache.take hc₀.loaded hg' hj'
            · refine ih (hcl.imp_left fun hcl => hcl j ⟨hi, ht⟩ hdir e _ j' hat) hgv hL' (by omega) hnone
                fun a b name' L' ht hname => hsome a b name' L' ht fun hp => ?_
              rw [List.getLast?_cons, hname hp]
              rfl
      · rw [if_pos hdir]
        refine hexit ?_
        by_cases hlast : parent = true ∧ rest = []
        · rw [hlast.1, hlast.2, elems_nil, View.target_parent, if_neg hdir]
        · rw [hwalk hlast, View.look, if_neg hdir]
          rfl

/-! ## `namex` -/

/-- Inode `j` is where a walk along `path` by process `p` begins. -/
def Starts (X : Kernel Unit) (v : View) (p : ℕ) (path : List UInt8) (j : ℕ) : Prop :=
  if path.head? = some SLASH then j = ROOTINO else ∃ k n, (X.procs p).cwd = some k ∧ v.ent k = some (j, n)

theorem wp_namex {Φ : Option (ℕ × List UInt8) → Kernel Unit → View → Prop} {parent : Bool} {p : ℕ} {path : List UInt8}
    (hv : v.Sound E.sb N) (hlocked : v.locked = ∅) (hr : E.Reads v) (hsp : E.Spare v)
    (hcl : v.Closed E.sb ∨ E.mode.panics "ilock: no type") (hst : Starts X v p path j) (hj : j < E.sb.ninodes)
    (hlive : v.Live E.sb j ∨ E.mode.panics "ilock: no type")
    (hnone : v.target parent j (elems path) = none → ∀ L, v.Back E.sb N L → Φ none X (v.reload L))
    (hsome : ∀ j' k' name L, v.target parent j (elems path) = some j' →
      (parent = true → (elems path).getLast? = some name) → v.Gets j' k' → (v.take k' j').Back E.sb N L →
      Φ (some (k', name)) X ((v.take k' j').reload L)) :
    E.wp (namex E.sb p path parent) Φ X v := by
  refine wp_rep fun _ c _ hc => ?_
  -- the walk from entry `k`, where the start is
  have hfrom : ∀ k, v.Gets j k → E.wp (namexFrom E.sb parent (path.length + 1) k path []) Φ X (v.take k j) := by
    intro k hg
    have hb : (v.take k j).Back E.sb N v.loaded :=
      ⟨subset_rfl, hv.files.congr rfl rfl rfl rfl, hv.cache.take hc.loaded hg hj, hv.held⟩
    exact wp_namexFrom hv hc hlocked hr hsp hcl hlive hg hb (Nat.lt_succ_self _) hnone hsome
  rw [namex]
  unfold Starts at hst
  split at hst
  · rename_i hslash
    subst hst
    rw [if_pos hslash]
    exact wp_seq (wp_iget (hsp.entry _) hfrom)
  · rename_i hslash
    obtain ⟨k, n, hcwd, hk⟩ := hst
    rw [if_neg hslash]
    refine wp_seq (wp_proc ?_)
    rw [Kernel.procStep, allows_done]
    dsimp only
    rw [hcwd]
    exact wp_seq (wp_idup hk (wp_seq (wp_ret (hfrom k (.inl ⟨n, hk⟩)))))

end Env

end Xv6Arm

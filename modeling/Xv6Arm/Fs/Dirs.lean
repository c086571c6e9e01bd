import Xv6Arm.Fs.FileContents
import Xv6Arm.Lib.Slots

/-!
# Directories as finite maps

A directory is a table of slots: a `struct dirent` with inode number 0 is empty,
and any other holds an inode number under a key, which is the name cut at its
first NUL or after `DIRSIZ` bytes. `dirlookup` searches the table and `dirlink`
adds to it.
-/
namespace Xv6Arm
open Lib

/-! ## Names -/

/-- The bytes of a string of at most `n` bytes, before the first NUL. -/
def cut (n : ℕ) (p : List UInt8) : List UInt8 := (p.take n).takeWhile (· ≠ 0)

/-- What two equal names have in common. -/
def nameKey (name : List UInt8) : List UInt8 := cut DIRSIZ name

theorem cut_succ (n : ℕ) (p : List UInt8) :
    cut (n + 1) p = if p.headD 0 = 0 then [] else p.headD 0 :: cut n p.tail := by
  cases p with
  | nil => simp [cut]
  | cons c p => by_cases hc : c = 0 <;> simp [cut, hc]

theorem strncmp_eq_zero (p q : List UInt8) (n : ℕ) : strncmp p q n = 0 ↔ cut n p = cut n q := by
  induction n generalizing p q with
  | zero => simp [strncmp, cut]
  | succ n ih =>
    rw [strncmp, cut_succ, cut_succ]
    generalize p.headD 0 = c
    generalize q.headD 0 = d
    by_cases hcd : c ≠ 0 ∧ c = d
    · obtain ⟨hc, rfl⟩ := hcd
      simp [hc, ih]
    · simp only [if_neg hcd]
      have hzero : (c.toNat : ℤ) - d.toNat = 0 ↔ c = d := by
        rw [sub_eq_zero, Nat.cast_inj, UInt8.toNat_inj]
      rw [hzero]
      by_cases hc : c = 0
      · subst hc
        by_cases hd : d = 0
        · simp [hd]
        · simp [hd, Ne.symm hd]
      · have hne : c ≠ d := fun he => hcd ⟨hc, he⟩
        by_cases hd : d = 0 <;> simp [hc, hd, hne]

theorem namecmp_eq_zero (s t : List UInt8) : namecmp s t = 0 ↔ nameKey s = nameKey t := strncmp_eq_zero s t DIRSIZ

theorem length_strncpy (t : List UInt8) (n : ℕ) : (strncpy t n).length = n := by
  induction n generalizing t with
  | zero => rfl
  | succ n ih =>
    rw [strncpy]
    split
    · simp
    · simp [ih]

theorem cut_strncpy (t : List UInt8) (n : ℕ) : cut n (strncpy t n) = cut n t := by
  induction n generalizing t with
  | zero => simp [cut]
  | succ n ih =>
    rw [cut_succ n t, strncpy]
    split
    · simp [cut]
    · rename_i hc
      rw [cut_succ, List.headD_cons, if_neg hc, List.tail_cons, ih]

/-! ## Entries -/

/-- What the bytes of a `struct dirent` stand for. -/
def parseDirent (de : List UInt8) : Option (List UInt8 × ℕ) :=
  if direntInum de = 0 then none else some (nameKey (direntName de), direntInum de)

theorem length_mkDirent (name : List UInt8) (inum : ℕ) : (mkDirent name inum).length = DESIZE := by
  simp [mkDirent, length_strncpy]

theorem parseDirent_mkDirent {inum : ℕ} (name : List UInt8) (hz : inum ≠ 0) (hlt : inum < 65536) :
    parseDirent (mkDirent name inum) = some (nameKey name, inum) := by
  have hinum : direntInum (mkDirent name inum) = inum := by
    simp only [direntInum, mkDirent, List.getD_cons_zero, List.getD_cons_succ, UInt8.toNat_ofNat']
    omega
  rw [parseDirent, hinum, if_neg hz]
  exact congrArg (fun x => some (x, inum)) (cut_strncpy name DIRSIZ)

theorem parseDirent_zero : parseDirent (List.replicate DESIZE 0) = none := by decide

/-- The slots of a directory with the bytes `l`. -/
def slots (l : List UInt8) : List (Option (List UInt8 × ℕ)) :=
  (List.range (l.length / DESIZE)).map fun e => parseDirent ((l.drop (DESIZE * e)).take DESIZE)

theorem length_slots (l : List UInt8) : (slots l).length = l.length / DESIZE := by simp [slots]

theorem getElem?_slots (l : List UInt8) (e : ℕ) :
    (slots l)[e]? = if e < l.length / DESIZE then some (parseDirent ((l.drop (DESIZE * e)).take DESIZE)) else none := by
  unfold slots
  split
  · simp [*]
  · simp
    omega

/-- One `struct dirent` is replaced or added. -/
theorem slots_splice {l de : List UInt8} {e : ℕ} (hl : l.length % DESIZE = 0) (he : DESIZE * e ≤ l.length)
    (hde : de.length = DESIZE) : slots (splice l (DESIZE * e) de) = Slots.put (slots l) e (parseDirent de) := by
  have hlen : (splice l (DESIZE * e) de).length = max l.length (DESIZE * e + DESIZE) := by
    rw [length_splice he, hde]
  have hes : e ≤ (slots l).length := by
    rw [length_slots]
    unfold DESIZE at *
    omega
  apply List.ext_getElem?
  intro j
  rw [Slots.getElem?_put hes, getElem?_slots, getElem?_slots, hlen]
  unfold DESIZE at *
  by_cases hj : j = e
  · subst hj
    rw [if_pos rfl, if_pos (by omega)]
    congr 2
    apply List.ext_getElem?
    intro q
    by_cases hq : q < 16
    · rw [List.getElem?_take_of_lt hq, List.getElem?_drop, getElem?_splice he, if_pos (by omega), Nat.add_sub_cancel_left]
    · rw [List.getElem?_eq_none (by rw [List.length_take]; omega), List.getElem?_eq_none (by omega)]
  · rw [if_neg hj]
    by_cases hlt : j < l.length / 16
    · rw [if_pos hlt, if_pos (by omega)]
      congr 2
      apply List.ext_getElem?
      intro q
      by_cases hq : q < 16
      · rw [List.getElem?_take_of_lt hq, List.getElem?_take_of_lt hq, List.getElem?_drop, List.getElem?_drop,
          getElem?_splice he, if_neg (by omega)]
      · rw [List.getElem?_eq_none (by rw [List.length_take]; omega),
          List.getElem?_eq_none (by rw [List.length_take]; omega)]
    · rw [if_neg hlt, if_neg (by omega)]

/-- The slots of directory `i`. -/
def View.dir (v : View) (i : ℕ) : List (Option (List UInt8 × ℕ)) := slots (v.contents i)

/-- A directory in order: it consists of whole entries. -/
structure View.IsDir (sb : Superblock) (v : View) (k i : ℕ) : Prop extends v.Consistent sb k i where
  type : (v.ino i).type = T_DIR
  whole : (v.ino i).size % DESIZE = 0

theorem View.length_dir (v : View) (i : ℕ) : (v.dir i).length = (v.ino i).size / DESIZE := by
  rw [View.dir, length_slots, View.length_contents]

/-- The directory after one entry has been written. -/
theorem View.Wrote.isDir {sb : Superblock} {v v' : View} {k i e : ℕ} {de : List UInt8}
    (h : View.Wrote sb i (DESIZE * e) de v v') (hd : v.IsDir sb k i) (he : e ≤ (v.dir i).length)
    (hde : de.length = DESIZE) : (v'.written sb i (DESIZE * e) DESIZE).IsDir sb k i ∧
      (v'.written sb i (DESIZE * e) DESIZE).dir i = Slots.put (v.dir i) e (parseDirent de) := by
  have hwhole := hd.whole
  have hoff : DESIZE * e ≤ (v.ino i).size := by
    rw [View.length_dir] at he
    unfold DESIZE at *
    omega
  have hself : (v'.written sb i (DESIZE * e) DESIZE).ino i =
      { v'.ino i with size := max (v.ino i).size (DESIZE * e + DESIZE) } := by
    rw [View.written, if_neg (by decide), View.resize_self, h.size]
  refine ⟨⟨h.consistent hd.toConsistent hoff hde, ?_, ?_⟩, ?_⟩
  · rw [hself, h.self]
    exact hd.type
  · rw [hself]
    unfold DESIZE at *
    simp only
    omega
  · rw [View.dir, h.contents hd.toConsistent hoff hde, slots_splice ?_ ?_ hde]
    · rfl
    · rw [View.length_contents]
      exact hwhole
    · rwa [View.length_contents]

/-! ## Searching -/

namespace Env
variable {E : Env} {v : View} {k i : ℕ} {X : Kernel Unit}

theorem wp_readDirent {Φ : List UInt8 → Kernel Unit → View → Prop} {off : ℕ} {msg : String} (hd : v.IsDir E.sb k i)
    (hr : E.Reads v) (hoff : off + DESIZE ≤ (v.ino i).size)
    (h : Φ (((v.contents i).drop off).take DESIZE) X v) : E.wp (readDirent E.sb k off msg) Φ X v := by
  refine wp_rep fun _ c _ hc => ?_
  have hsize := (hc.small i hd.live.1).size
  have hlen : readLen (v.ino i).size off DESIZE = DESIZE := by
    unfold readLen
    rw [if_pos (by omega)]
    omega
  refine wp_seq (wp_readi (.kernel E X.vm) hd.toConsistent.opened hr hd.solid (by decide) ⟨rfl, rfl⟩ ?_ fun _ hf => hf.elim)
  rintro l vm dst' hl ⟨-, rfl⟩
  rw [hlen] at hl
  rw [hd.toConsistent.slice hoff hl]
  dsimp only
  rw [if_pos (by rw [List.length_take, List.length_drop, View.length_contents]; omega)]
  exact wp_ret h

/-- The slot at `e`, and the bytes that are read for it. -/
theorem dir_drop {e : ℕ} (hd : v.IsDir E.sb k i) (he : e < (v.dir i).length) :
    DESIZE * e + DESIZE ≤ (v.ino i).size ∧ (v.dir i).drop e =
      parseDirent (((v.contents i).drop (DESIZE * e)).take DESIZE) :: (v.dir i).drop (e + 1) := by
  have hlen := View.length_dir v i
  have hwhole := hd.whole
  refine ⟨by unfold DESIZE at *; omega, ?_⟩
  have hget : (v.dir i)[e]? = some (parseDirent (((v.contents i).drop (DESIZE * e)).take DESIZE)) := by
    rw [View.dir, getElem?_slots, if_pos (by rwa [View.length_contents, ← hlen])]
  rw [List.drop_eq_getElem_cons he]
  rw [List.getElem?_eq_getElem he] at hget
  rw [Option.some.inj hget]

theorem wp_dirlookupFrom {Φ : Option (ℕ × ℕ) → Kernel Unit → View → Prop} {name : List UInt8} {n e : ℕ}
    (hd : v.IsDir E.sb k i) (hr : E.Reads v) (hn : e + n = (v.dir i).length)
    (hent : ∀ j e', Slots.lookup (nameKey name) ((v.dir i).drop e) e = some (j, e') → E.HasEntry v j)
    (hnone : Slots.lookup (nameKey name) ((v.dir i).drop e) e = none → Φ none X v)
    (hsome : ∀ j e' k', Slots.lookup (nameKey name) ((v.dir i).drop e) e = some (j, e') → v.Gets j k' →
      Φ (some (k', DESIZE * e')) X (v.take k' j)) :
    E.wp (dirlookupFrom E.sb k name (DESIZE * e) n) Φ X v := by
  induction n generalizing e with
  | zero =>
    rw [List.drop_eq_nil_of_le (by omega)] at hnone
    exact wp_ret (hnone rfl)
  | succ n ih =>
    obtain ⟨hoff, hdrop⟩ := dir_drop hd (show e < (v.dir i).length by omega)
    rw [hdrop] at hent hnone hsome
    refine wp_seq (wp_readDirent hd hr hoff ?_)
    generalize ((v.contents i).drop (DESIZE * e)).take DESIZE = de at hent hnone hsome ⊢
    unfold parseDirent at hent hnone hsome
    by_cases hz : direntInum de = 0
    · rw [if_pos hz] at hent hnone hsome ⊢
      exact ih (by omega) hent hnone hsome
    · rw [if_neg hz] at hent hnone hsome ⊢
      simp only [Slots.lookup] at hent hnone hsome
      by_cases hname : namecmp name (direntName de) = 0
      · have hkey := (namecmp_eq_zero _ _).mp hname
        rw [if_pos hkey] at hent hsome
        rw [if_pos hname]
        exact wp_seq (wp_iget (hent _ _ rfl) fun k' hg => wp_ret (hsome _ _ k' rfl hg))
      · have hkey : ¬nameKey name = nameKey (direntName de) := fun hk => hname ((namecmp_eq_zero _ _).mpr hk)
        rw [if_neg hkey] at hnone
        simp only [if_neg hkey] at hent hsome
        rw [if_neg hname]
        exact ih (by omega) hent hnone hsome

/-- `dirlookup` searches the table for the key of `name`. -/
theorem wp_dirlookup {Φ : Option (ℕ × ℕ) → Kernel Unit → View → Prop} {name : List UInt8} (hd : v.IsDir E.sb k i)
    (hr : E.Reads v) (hent : ∀ j e, Slots.lookup (nameKey name) (v.dir i) 0 = some (j, e) → E.HasEntry v j)
    (hnone : Slots.lookup (nameKey name) (v.dir i) 0 = none → Φ none X v)
    (hsome : ∀ j e k', Slots.lookup (nameKey name) (v.dir i) 0 = some (j, e) → v.Gets j k' →
      Φ (some (k', DESIZE * e)) X (v.take k' j)) :
    E.wp (dirlookup E.sb k name) Φ X v := by
  obtain ⟨m, he⟩ := hd.ent
  refine wp_seq (wp_inodeGet he fun x _ _ hx => ?_)
  rw [hx hd.loaded, if_neg (not_not.mpr hd.type)]
  have hcount : ((v.ino i).size + (DESIZE - 1)) / DESIZE = (v.dir i).length := by
    have := hd.whole
    rw [View.length_dir]
    unfold DESIZE at *
    omega
  rw [hcount]
  exact wp_dirlookupFrom (e := 0) hd hr (by omega) hent hnone hsome

theorem wp_emptyDirentFrom {Φ : ℕ → Kernel Unit → View → Prop} {n e : ℕ} (hd : v.IsDir E.sb k i) (hr : E.Reads v)
    (hn : e + n = (v.dir i).length) (h : Φ (DESIZE * Slots.firstEmpty ((v.dir i).drop e) e) X v) :
    E.wp (emptyDirentFrom E.sb k (DESIZE * e) n) Φ X v := by
  induction n generalizing e with
  | zero =>
    rw [List.drop_eq_nil_of_le (by omega)] at h
    exact wp_ret h
  | succ n ih =>
    obtain ⟨hoff, hdrop⟩ := dir_drop hd (show e < (v.dir i).length by omega)
    rw [hdrop] at h
    refine wp_seq (wp_readDirent hd hr hoff ?_)
    generalize ((v.contents i).drop (DESIZE * e)).take DESIZE = de at h ⊢
    unfold parseDirent at h
    by_cases hz : direntInum de = 0
    · rw [if_pos hz] at h ⊢
      exact wp_ret h
    · rw [if_neg hz] at h ⊢
      exact ih (by omega) h

/-! ## Adding an entry -/

theorem dropEnt_take {j k' : ℕ} {c : ℕ → Inode} (hg : v.Gets j k') (hc : CacheRep E.sb E.me v c) :
    View.dropEnt (some (j, v.refs k' + 1)) = v.ent k' := by
  rcases hg with ⟨n, hn⟩ | ⟨hnone, -, -⟩
  · rw [CacheRep.refs_eq hn, hn]
    obtain ⟨n, rfl⟩ := Nat.exists_eq_succ_of_ne_zero (hc.pos hn).ne'
    rfl
  · simp [View.refs, hnone, View.dropEnt]

theorem drop_take {j k' : ℕ} {c : ℕ → Inode} (hc : CacheRep E.sb E.me v c) (hg : v.Gets j k') :
    (v.take k' j).drop k' = v := by
  have hload : { l | l ∈ v.loaded ∧ (l = k' → v.ent k' ≠ none) } = v.loaded := by
    ext l
    refine ⟨fun hl => hl.1, fun hl => ⟨hl, ?_⟩⟩
    rintro rfl
    exact hc.loaded l hl
  simp only [View.drop, View.take, Function.update_self, Function.update_idem, dropEnt_take hg hc, Function.update_eq_self, hload]

/-- A reference that has just been taken is given up again. -/
theorem wp_iput_take {Φ : Unit → Kernel Unit → View → Prop} {j k' : ℕ} {c : ℕ → Inode} (hc : CacheRep E.sb E.me v c)
    (hg : v.Gets j k') (h : Φ () X v) : E.wp (iput E.sb k') Φ X (v.take k' j) := by
  have he : (v.take k' j).ent k' = some (j, v.refs k' + 1) := by simp
  -- the last reference is one to an entry that was not in use
  have hnew : v.refs k' + 1 = 1 → v.ent k' = none ∧ ∀ l n, v.ent l ≠ some (j, n) := by
    intro hz
    rcases hg with ⟨n, hn⟩ | ⟨hnone, -, hno⟩
    · have := hc.pos hn
      rw [CacheRep.refs_eq hn] at hz
      omega
    · exact ⟨hnone, hno⟩
  have hidle : v.refs k' + 1 = 1 → k' ∉ v.loaded := fun hz hm => hc.loaded k' hm (hnew hz).1
  refine wp_iput (T := ∅) (n := 0) he (fun hz hm => hc.locked k' hm (hnew hz).1)
    (fun hz => hc.fresh j fun l n hl => absurd hl ((hnew hz).2 l n)) (fun hz _ hm => absurd hm (hidle hz)) (fun _ => ?_)
    fun hz _ hm => absurd hm (hidle hz)
  rwa [drop_take hc hg]

theorem turns_dirent (e : ℕ) : turns (DESIZE * e) DESIZE = 1 := by
  unfold turns BSIZE DESIZE
  rw [if_neg (by decide)]
  omega

/-- One entry is written. -/
theorem wp_writeDirent {Φ : ℤ → Kernel Unit → View → Prop} {T : Finset ℕ} {e : ℕ} {de : List UInt8}
    (hd : v.IsDir E.sb k i) (he : e ≤ (v.dir i).length) (hde : de.length = DESIZE) (hst : E.Stock T 1 i v)
    (hfree : E.HasFree (needs v i (blocks (DESIZE * e) DESIZE)) v)
    (hbad : MAXFILE * BSIZE < DESIZE * e + DESIZE → Φ (-1) X v)
    (h : ∀ T' v', T ⊆ T' → View.Wrote E.sb i (DESIZE * e) de v v' → E.Stock T' 0 i v' →
      Φ DESIZE X (v'.written E.sb i (DESIZE * e) DESIZE)) :
    E.wp (writei E.sb k (.kernel de) (DESIZE * e) DESIZE) Φ X v := by
  have hoff : DESIZE * e ≤ (v.ino i).size := by
    rw [View.length_dir] at he
    unfold DESIZE at *
    omega
  refine wp_writei (T := T) (.kernel E de X.vm) hd.toConsistent.opened (by decide) (fun _ _ => ?_) (fun _ _ => hfree)
    ⟨de, [], by rw [List.append_nil], rfl, hde, rfl⟩ (fun hb => hbad (by omega)) ?_ ?_
  · rw [turns_dirent]
    exact hst
  · rintro T' l v' vm src' - - hsub - hw hst' ⟨l₁, l₂, -, hl, hnil, rfl⟩
    rw [List.eq_nil_of_length_eq_zero hnil, List.append_nil] at hl
    subst hl
    exact h T' v' hsub hw hst'
  · rintro T' l l' v' vm - - - - - - - - hf
    exact hf.elim

/-- `dirlink` adds an entry if the key is not there yet. -/
theorem wp_dirlink {Φ : Bool → Kernel Unit → View → Prop} {T : Finset ℕ} {name : List UInt8} {inum : ℕ}
    (hd : v.IsDir E.sb k i) (hr : E.Reads v)
    (hent : ∀ j e, Slots.lookup (nameKey name) (v.dir i) 0 = some (j, e) → E.HasEntry v j)
    (hst : Slots.lookup (nameKey name) (v.dir i) 0 = none → E.Stock T 1 i v)
    (hfree : Slots.lookup (nameKey name) (v.dir i) 0 = none →
      E.HasFree (needs v i (blocks (DESIZE * Slots.firstEmpty (v.dir i) 0) DESIZE)) v)
    (hroom : DESIZE * Slots.firstEmpty (v.dir i) 0 + DESIZE ≤ MAXFILE * BSIZE ∨ E.mode.panics "dirlink")
    (hold : ∀ r, Slots.lookup (nameKey name) (v.dir i) 0 = some r → Φ false X v)
    (hnew : ∀ T' v', Slots.lookup (nameKey name) (v.dir i) 0 = none → T ⊆ T' →
      View.Wrote E.sb i (DESIZE * Slots.firstEmpty (v.dir i) 0) (mkDirent name inum) v v' → E.Stock T' 0 i v' →
      Φ true X (v'.written E.sb i (DESIZE * Slots.firstEmpty (v.dir i) 0) DESIZE)) :
    E.wp (dirlink E.sb k name inum) Φ X v := by
  refine wp_rep fun _ c _ hc => wp_seq (wp_dirlookup hd hr hent (fun hnone => ?_) fun j e k' hsome hg => ?_)
  · obtain ⟨m, he⟩ := hd.ent
    refine wp_seq (wp_inodeGet he fun x _ _ hx => ?_)
    rw [hx hd.loaded]
    have hcount : ((v.ino i).size + (DESIZE - 1)) / DESIZE = (v.dir i).length := by
      have := hd.whole
      rw [View.length_dir]
      unfold DESIZE at *
      omega
    rw [hcount]
    refine wp_seq (wp_emptyDirentFrom (e := 0) hd hr (by omega) ?_)
    rw [List.drop_zero]
    have hle : Slots.firstEmpty (v.dir i) 0 ≤ (v.dir i).length := by simpa using (Slots.firstEmpty_le (v.dir i) 0).2
    refine wp_seq (wp_writeDirent hd hle (length_mkDirent name inum) (hst hnone) (hfree hnone) (fun hbad => ?_)
      fun T' v' hsub hw hst' => ?_)
    · rw [if_pos (by decide)]
      exact wp_panic (hroom.resolve_left (by omega))
    · rw [if_neg (by simp)]
      exact wp_ret (hnew T' v' hnone hsub hw hst')
  · exact wp_seq (wp_iput_take hc hg (wp_ret (hold _ hsome)))

end Env

/-! ## Directories on the machine -/

/-- The panics of a search in directory `i` for a key. -/
def LookupPanics (v : View) (i : ℕ) (key : List UInt8) (msg : String) : Prop :=
  msg = "bget: no buffers" ∧ NBUF ≤ v.log.lh.length ∨
    msg = "iget: no inodes" ∧ ∃ j e, Slots.lookup key (v.dir i) 0 = some (j, e) ∧ ∀ k, ¬v.Gets j k

/-- What `dirlookup` of `name` in directory `i` comes to. -/
def LooksUp (sb : Superblock) (me i : ℕ) (name : List UInt8) (X : Kernel Unit) (v : View) :
    Outcome (Option (ℕ × ℕ)) KState → Prop
  | .done none t => Slots.lookup (nameKey name) (v.dir i) 0 = none ∧ Holds sb me X v t
  | .done (some (ip, off)) t => ∃ j e, Slots.lookup (nameKey name) (v.dir i) 0 = some (j, e) ∧ off = DESIZE * e ∧
      v.Gets j ip ∧ Holds sb me X (v.take ip j) t
  | .panic msg => LookupPanics v i (nameKey name) msg
  | .blocked => False

/-- What `dirlink` of `name` in directory `i` comes to. -/
def Links (sb : Superblock) (me k i : ℕ) (name : List UInt8) (inum : ℕ) (X : Kernel Unit) (v : View) :
    Outcome Bool KState → Prop
  | .done r t =>
    if Slots.lookup (nameKey name) (v.dir i) 0 = none then
      r = true ∧ ∃ v', Holds sb me X v' t ∧ v'.IsDir sb k i ∧ Slots.Distinct (v'.dir i) ∧
        (∀ key, Slots.lookup key (v'.dir i) 0 = if key = nameKey name then some (inum, Slots.firstEmpty (v.dir i) 0)
          else Slots.lookup key (v.dir i) 0) ∧
        ∀ j ≠ i, v.Live sb j → v.Solid j → v'.contents j = v.contents j
    else r = false ∧ Holds sb me X v t
  | .panic msg => LookupPanics v i (nameKey name) msg ∨ Slots.lookup (nameKey name) (v.dir i) 0 = none ∧
      WriteiPanics sb v i (DESIZE * Slots.firstEmpty (v.dir i) 0) DESIZE msg
  | .blocked => False

/-- What writing zeros over entry `e` of directory `i`, which has the key `key`, comes to. -/
def Unlinks (sb : Superblock) (me k i e : ℕ) (key : List UInt8) (X : Kernel Unit) (v : View) : Outcome ℤ KState → Prop
  | .done r t => r = DESIZE ∧ ∃ v', Holds sb me X v' t ∧ v'.IsDir sb k i ∧ Slots.Distinct (v'.dir i) ∧
      (∀ key', Slots.lookup key' (v'.dir i) 0 = if key' = key then none else Slots.lookup key' (v.dir i) 0) ∧
      ∀ j ≠ i, v.Live sb j → v.Solid j → v'.contents j = v.contents j
  | .panic msg => WriteiPanics sb v i (DESIZE * e) DESIZE msg
  | .blocked => False

section Machine
variable {sb : Superblock} {me k i : ℕ} {X : Kernel Unit} {v : View} {s : KState}

theorem Env.hasEntry_of_panics {E : Env} {j : ℕ} (hp : (∀ k, ¬v.Gets j k) → E.mode.panics "iget: no inodes") :
    E.HasEntry v j := by
  by_cases hk : ∃ k, v.Gets j k
  · exact .inl hk
  · exact .inr (hp (not_exists.mp hk))

theorem dirlookup_looksUp (hL : Layout sb) (hs : Holds sb me X v s) (hd : v.IsDir sb k i) (name : List UInt8) :
    LooksUp sb me i name X v ((dirlookup sb k name).run (kStep me) s) := by
  let E : Env := ⟨sb, hL, me, ⟨LookupPanics v i (nameKey name), False, fun _ => True⟩, 0⟩
  have hr : E.Reads v := Env.reads_of_panics hd.held fun hle => .inl ⟨rfl, hle⟩
  have hwp : E.wp (dirlookup sb k name) (fun r Y v' => Y = X ∧
      (r = none ∧ Slots.lookup (nameKey name) (v.dir i) 0 = none ∧ v' = v ∨
        ∃ ip j e, r = some (ip, DESIZE * e) ∧ Slots.lookup (nameKey name) (v.dir i) 0 = some (j, e) ∧
          v.Gets j ip ∧ v' = v.take ip j)) X v := by
    refine Env.wp_dirlookup (E := E) hd hr ?_ (fun hnone => ⟨rfl, .inl ⟨rfl, hnone, rfl⟩⟩)
      fun j e k' hsome hg => ⟨rfl, .inr ⟨k', j, e, rfl, hsome, hg, rfl⟩⟩
    exact fun j e hsome => Env.hasEntry_of_panics fun hk => .inr ⟨rfl, j, e, hsome, hk⟩
  have hrun := E.run hwp hs
  generalize (dirlookup sb k name).run (kStep me) s = o at hrun ⊢
  cases o with
  | done r t =>
    obtain ⟨Y, v', ht, rfl, ⟨rfl, hnone, rfl⟩ | ⟨ip, j, e, rfl, hsome, hg, rfl⟩⟩ := hrun
    · exact ⟨hnone, ht⟩
    · exact ⟨j, e, hsome, rfl, hg, ht⟩
  | panic msg => exact hrun
  | blocked => exact hrun

theorem dirlink_links (hL : Layout sb) (hs : Holds sb me X v s) (hd : v.IsDir sb k i) (hdist : Slots.Distinct (v.dir i))
    (hroom : DESIZE * Slots.firstEmpty (v.dir i) 0 + DESIZE ≤ MAXFILE * BSIZE) (name : List UInt8) {inum : ℕ}
    (hz : inum ≠ 0) (hlt : inum < 65536) :
    Links sb me k i name inum X v ((dirlink sb k name inum).run (kStep me) s) := by
  let e := Slots.firstEmpty (v.dir i) 0
  let E : Env := ⟨sb, hL, me, ⟨fun msg => LookupPanics v i (nameKey name) msg ∨
    Slots.lookup (nameKey name) (v.dir i) 0 = none ∧ WriteiPanics sb v i (DESIZE * e) DESIZE msg, False, fun _ => True⟩,
    (v.logSet sb).card + Env.turns (DESIZE * e) DESIZE + 2⟩
  have hr : E.Reads v := Env.reads_of_panics hd.held fun hle => .inl (.inl ⟨rfl, hle⟩)
  have hle : e ≤ (v.dir i).length := by simpa using (Slots.firstEmpty_le (v.dir i) 0).2
  have hoff : DESIZE * e ≤ (v.ino i).size := by
    rw [View.length_dir] at hle
    unfold DESIZE at *
    omega
  have hst := fun hnone => Env.room_of_panics (E := E) (i := i) (fun _ hp => .inr ⟨hnone, hp⟩) rfl hd.held hoff hroom
  have hwp : E.wp (dirlink sb k name inum) (fun r Y v' => Y = X ∧
      if Slots.lookup (nameKey name) (v.dir i) 0 = none then
        r = true ∧ v'.IsDir sb k i ∧ Slots.Distinct (v'.dir i) ∧
          (∀ key, Slots.lookup key (v'.dir i) 0 = if key = nameKey name then some (inum, e)
            else Slots.lookup key (v.dir i) 0) ∧ ∀ j ≠ i, v.Live sb j → v.Solid j → v'.contents j = v.contents j
      else r = false ∧ v' = v) X v := by
    refine Env.wp_dirlink (E := E) (T := v.logSet sb) hd hr ?_ (fun hnone => ?_) (fun hnone => (hst hnone).2)
      (.inl hroom) (fun r hsome => ?_) ?_
    · exact fun j e hsome => Env.hasEntry_of_panics fun hk => .inl (.inr ⟨rfl, j, e, hsome, hk⟩)
    · rw [← Env.turns_dirent e]
      exact (hst hnone).1
    · rw [if_neg (by rw [hsome]; simp)]
      exact ⟨rfl, rfl, rfl⟩
    · intro T' v' hnone _ hw _
      obtain ⟨hd', hdir⟩ := hw.isDir hd hle (length_mkDirent name inum)
      rw [parseDirent_mkDirent name hz hlt] at hdir
      rw [if_pos hnone]
      refine ⟨rfl, rfl, hd', ?_, fun key => ?_, fun j hj hl hsol => hw.other hj hl hsol⟩
      · rw [hdir]
        exact hdist.put_some hle hnone
      · rw [hdir]
        exact hdist.lookup_put_some hle hnone (Slots.getElem?_firstEmpty (v.dir i) 0) key
  have hrun := E.run hwp hs
  generalize (dirlink sb k name inum).run (kStep me) s = o at hrun ⊢
  cases o with
  | done r t =>
    obtain ⟨Y, v', ht, rfl, hpost⟩ := hrun
    by_cases hnone : Slots.lookup (nameKey name) (v.dir i) 0 = none
    · rw [if_pos hnone] at hpost
      simp only [Links, if_pos hnone]
      exact ⟨hpost.1, v', ht, hpost.2⟩
    · rw [if_neg hnone] at hpost
      obtain ⟨rfl, rfl⟩ := hpost
      simp only [Links, if_neg hnone]
      exact ⟨trivial, ht⟩
  | panic msg => exact hrun
  | blocked => exact hrun

theorem zero_unlinks (hL : Layout sb) (hs : Holds sb me X v s) (hd : v.IsDir sb k i) (hdist : Slots.Distinct (v.dir i))
    {key : List UInt8} {j e : ℕ} (he : Slots.lookup key (v.dir i) 0 = some (j, e)) :
    Unlinks sb me k i e key X v
      ((writei sb k (.kernel (List.replicate DESIZE 0)) (DESIZE * e) DESIZE).run (kStep me) s) := by
  let E : Env := ⟨sb, hL, me, ⟨WriteiPanics sb v i (DESIZE * e) DESIZE, False, fun _ => True⟩,
    (v.logSet sb).card + Env.turns (DESIZE * e) DESIZE + 2⟩
  have hlt : e < (v.dir i).length := (List.getElem?_eq_some_iff.mp (hdist.lookup.mp he)).1
  have hwhole := hd.whole
  have hin : DESIZE * e + DESIZE ≤ (v.ino i).size := by
    rw [View.length_dir] at hlt
    unfold DESIZE at *
    omega
  have hmax : (v.ino i).size ≤ MAXFILE * BSIZE := hd.toConsistent.size_le
  obtain ⟨hst, hfree⟩ := Env.room_of_panics (E := E) (i := i) (fun _ => id) rfl hd.held (by omega)
    (show DESIZE * e + DESIZE ≤ MAXFILE * BSIZE by omega)
  rw [Env.turns_dirent] at hst
  have hwp : E.wp (writei sb k (.kernel (List.replicate DESIZE 0)) (DESIZE * e) DESIZE) (fun r Y v' => Y = X ∧
      r = DESIZE ∧ v'.IsDir sb k i ∧ Slots.Distinct (v'.dir i) ∧
      (∀ key', Slots.lookup key' (v'.dir i) 0 = if key' = key then none else Slots.lookup key' (v.dir i) 0) ∧
      ∀ j ≠ i, v.Live sb j → v.Solid j → v'.contents j = v.contents j) X v := by
    refine Env.wp_writeDirent (E := E) hd hlt.le List.length_replicate hst hfree (fun hbad => absurd hbad (by omega)) ?_
    intro T' v' _ hw _
    obtain ⟨hd', hdir⟩ := hw.isDir hd hlt.le List.length_replicate
    rw [parseDirent_zero] at hdir
    refine ⟨rfl, rfl, hd', ?_, fun key' => ?_, fun j hj hl hsol => hw.other hj hl hsol⟩
    · rw [hdir]
      exact hdist.put_none hlt.le
    · rw [hdir]
      exact hdist.lookup_put_none he key'
  have hrun := E.run hwp hs
  generalize (writei sb k (.kernel (List.replicate DESIZE 0)) (DESIZE * e) DESIZE).run (kStep me) s = o at hrun ⊢
  cases o with
  | done r t =>
    obtain ⟨Y, v', ht, rfl, hr, hpost⟩ := hrun
    exact ⟨hr, v', ht, hpost⟩
  | panic msg => exact hrun
  | blocked => exact hrun

/-- A directory is a finite map: `dirlookup` finds the entry with the key, `dirlink` adds one, and writing
zeros over an entry takes it out. -/
theorem directory_map (hL : Layout sb) (hs : Holds sb me X v s) (hd : v.IsDir sb k i)
    (hdist : Slots.Distinct (v.dir i)) (hroom : DESIZE * Slots.firstEmpty (v.dir i) 0 + DESIZE ≤ MAXFILE * BSIZE)
    (name : List UInt8) :
    LooksUp sb me i name X v ((dirlookup sb k name).run (kStep me) s) ∧
    (∀ j e, Slots.lookup (nameKey name) (v.dir i) 0 = some (j, e) ↔ (v.dir i)[e]? = some (some (nameKey name, j))) ∧
    (∀ inum, inum ≠ 0 → inum < 65536 →
      Links sb me k i name inum X v ((dirlink sb k name inum).run (kStep me) s)) ∧
    ∀ j e, Slots.lookup (nameKey name) (v.dir i) 0 = some (j, e) → Unlinks sb me k i e (nameKey name) X v
      ((writei sb k (.kernel (List.replicate DESIZE 0)) (DESIZE * e) DESIZE).run (kStep me) s) :=
  ⟨dirlookup_looksUp hL hs hd name, fun _ _ => hdist.lookup,
    fun _ hz hlt => dirlink_links hL hs hd hdist hroom name hz hlt, fun _ _ he => zero_unlinks hL hs hd hdist he⟩

end Machine

/-! ### The root of the small disk -/

theorem small_dir (f : ℕ → Option ℕ) (k : ℕ) :
    (View.opened small smallDisk f k).dir 1 = [some ([46], 1), some ([46, 46], 1), some ([97], 2)] := by
  have : (View.ofDisk small smallDisk).dir 1 = [some ([46], 1), some ([46, 46], 1), some ([97], 2)] := by decide +kernel
  exact this

theorem small_distinct (f : ℕ → Option ℕ) (k : ℕ) : Slots.Distinct ((View.opened small smallDisk f k).dir 1) := by
  rw [small_dir]
  intro i j key a b hi hj
  match i, j with
  | 0, 0 | 1, 1 | 2, 2 => rfl
  | 0, 1 | 0, 2 | 1, 0 | 1, 2 | 2, 0 | 2, 1 => simp at hi hj; grind
  | i + 3, _ => simp at hi
  | _, j + 3 => simp at hj

theorem small_isDir {f : ℕ → Option ℕ} {k : ℕ} (hf : f k = some 1) : (View.opened small smallDisk f k).IsDir small k 1 := by
  have hsize : ((View.ofDisk small smallDisk).ino 1).size = 48 := by decide +kernel
  have hblock : (View.ofDisk small smallDisk).block 1 0 = 39 := by decide +kernel
  have htype : ((View.ofDisk small smallDisk).ino 1).type = T_DIR := by decide +kernel
  refine ⟨⟨⟨1, by simp [View.opened, hf]⟩, rfl, ⟨by decide, ?_⟩, smallDisk_acct.congr rfl rfl rfl, fun bn hbn => ?_,
    fun s b _ => id, rfl⟩, htype, ?_⟩
  · change ((View.ofDisk small smallDisk).ino 1).type ≠ 0
    rw [htype]
    decide
  · change bn * 1024 < ((View.ofDisk small smallDisk).ino 1).size at hbn
    obtain rfl : bn = 0 := by omega
    change (View.ofDisk small smallDisk).block 1 0 ≠ 0
    rw [hblock]
    decide
  · change ((View.ofDisk small smallDisk).ino 1).size % 16 = 0
    rw [hsize]

theorem directory_map_small :
    LooksUp small 0 1 [97] bare (.opened small smallDisk (only 0 1) 0)
        ((dirlookup small 0 [97]).run (kStep 0) (openState small smallDisk 0 (only 0 1) 0 bare)) ∧
      Links small 0 0 1 [98] 2 bare (.opened small smallDisk (only 0 1) 0)
        ((dirlink small 0 [98] 2).run (kStep 0) (openState small smallDisk 0 (only 0 1) 0 bare)) ∧
      Unlinks small 0 0 1 2 [97] bare (.opened small smallDisk (only 0 1) 0)
        ((writei small 0 (.kernel (List.replicate DESIZE 0)) 32 DESIZE).run (kStep 0)
          (openState small smallDisk 0 (only 0 1) 0 bare)) := by
  have hmap := directory_map small_layout (holds_only 0 bare (k := 0) (i := 1) (by decide) smallDisk_used)
    (small_isDir rfl) (small_distinct _ _) (by rw [small_dir]; decide)
  exact ⟨(hmap [97]).1, (hmap [98]).2.2.1 2 (by decide) (by decide), (hmap [97]).2.2.2 2 2 (by rw [small_dir]; rfl)⟩

/-- Every entry of the inode cache is in use, and none of them for inode 2. -/
def fullCache : ℕ → Option ℕ := fun k => if k = 0 then some 1 else if k < NINODE then some (k + 2) else none

theorem holds_fullCache {d : Disk} (hused : ∀ b < datastart small, getBit (d (bblock small b)) (b % BPB) = true) :
    Holds small 0 bare (.opened small d fullCache 0) (openState small d 0 fullCache 0 bare) := by
  refine holds_opened 0 bare (by decide) (fun l hl => ?_) (fun l l' i h1 h2 => ?_) hused
  · unfold fullCache at hl
    split at hl
    · rename_i h0
      rw [h0]
      decide
    · split at hl
      · assumption
      · exact absurd rfl hl
  · unfold fullCache at h1 h2
    split at h1 <;> split at h2 <;> grind

/-- With the inode cache full, `dirlookup` of a name that is there panics. -/
theorem dirlookup_cache_full : ∃ v s, Holds small 0 bare v s ∧ v.IsDir small 0 1 ∧ Slots.Distinct (v.dir 1) ∧
    DESIZE * Slots.firstEmpty (v.dir 1) 0 + DESIZE ≤ MAXFILE * BSIZE ∧ v.log.lh = [] ∧
    Slots.lookup (nameKey [97]) (v.dir 1) 0 = some (2, 2) ∧
    (dirlookup small 0 [97]).run (kStep 0) s = .panic "iget: no inodes" :=
  ⟨.opened small smallDisk fullCache 0, openState small smallDisk 0 fullCache 0 bare, holds_fullCache smallDisk_used,
    small_isDir rfl, small_distinct _ _, by rw [small_dir]; decide, rfl, by rw [small_dir]; rfl,
    Outcome.eq_panic (by decide +kernel)⟩

end Xv6Arm

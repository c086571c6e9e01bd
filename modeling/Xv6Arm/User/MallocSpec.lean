import Xv6Arm.User.FreeList

/-!
# What `malloc` and `free` do

`free` puts a block at its place in the list, `malloc` takes the end of the first
block that is large enough, and a new block from `sbrk` is the last one. All of
this is stated for a memory of `V` bytes, which is the size of the process as the
allocator believes it to be; if this is not true, some access may be a fault.
-/
namespace Xv6Arm.Umalloc
open Lib

variable {K : Type} {S : System K} {F : Prop} {base V n : ℕ} {h : Heap K} {fl live L R : List Block} {b x : Block}

/-- The heap has these free blocks and these blocks in use. -/
structure Holds (base V : ℕ) (h : Heap K) (fl live : List Block) : Prop where
  layout : Layout base V fl live
  ring : Ring base h.freep h.next h.units fl

/-- The headers below `V` can be accessed. -/
def Reach (S : System K) (F : Prop) (V : ℕ) (h : Heap K) : Prop := F ∨ V ≤ S.top h

theorem Reach.ok {a : ℕ} (hr : Reach S F V h) (ha : a + 16 ≤ V) : Ok S F h a := hr.imp_right ha.trans

/-! ## Taking a block -/

theorem ends_takeBlock {A B : List Block} {nunits prev : ℕ} {Q : ℕ → Heap K → Prop} (hh : Holds base V h (A ++ x :: B) live)
    (hr : Reach S F V h) (hprev : prev ∈ nodes base (A ++ x :: B)) (hnext : h.next prev = x.addr) (hn : 0 < nunits)
    (hle : nunits ≤ x.units)
    (hq : ∀ (c : Block) fl' (h' : Heap K), c.units = nunits → c.stop = x.stop → Holds base V h' fl' (c :: live) →
      h'.sys = h.sys → Q (c.addr + 16) h') :
    Ends S F (takeBlock nunits prev x.addr (h.units x.addr)) Q h := by
  have hx : x ∈ A ++ x :: B := List.mem_append_right _ List.mem_cons_self
  have hxu : h.units x.addr = x.units := hh.ring.sizes x hx
  have hxin := hh.layout.inside x (List.mem_append_left _ hx)
  have hnd := hh.layout.nodup
  have hxn : x.addr ∈ nodes base (A ++ x :: B) := List.mem_cons_of_mem _ (List.mem_map_of_mem hx)
  rw [takeBlock, hxu]
  split <;> rename_i heq
  · refine ends_ptr (hr.ok (hh.layout.node_le hxn)) (ends_setPtr (hr.ok (hh.layout.node_le hprev)) (ends_setFreep ?_))
    apply ends_pure
    apply hq x (A ++ B)
    · exact heq
    · rfl
    · refine ⟨hh.layout.take, ?_⟩
      simpa using hh.ring.unlink hnd hprev hnext
    · rfl
  · have hlt : nunits < x.units := lt_of_le_of_ne hle (Ne.symm heq)
    have hxs : x.stop = x.addr + 16 * x.units := rfl
    refine ends_setSize (hr.ok (hh.layout.node_le hxn)) (ends_setSize (hr.ok (by omega)) (ends_setFreep ?_))
    apply ends_pure
    apply hq ⟨x.addr + 16 * (x.units - nunits), nunits⟩ (A ++ ⟨x.addr, x.units - nunits⟩ :: B)
    · rfl
    · simp only [Block.stop]
      omega
    · refine ⟨hh.layout.takeEnd hn hlt, ?_⟩
      rw [freep_setFreep, next_setFreep, next_setSize, next_setSize, units_setFreep, units_setSize, units_setSize]
      refine hh.ring.resize hnd hprev ?_ fun a ha hne => ?_
      · rw [Function.update_of_ne (by omega), Function.update_self]
      · have := hh.layout.outside ha hne
        rw [Function.update_of_ne (by omega), Function.update_of_ne hne]
    · rfl

/-! ## Putting a block back -/

/-- What ends the loop of `free` at `p`. -/
def Stops (bp p q : ℕ) : Prop := p < bp ∧ bp < q ∨ q ≤ p ∧ (p < bp ∨ bp < q)

/-- Each node of an ascending list is below the one it is linked to. -/
theorem follows_lt {next : ℕ → ℕ} {s t : List ℕ} {a c : ℕ} (hf : Follows next (s ++ a :: c :: t))
    (hs : (s ++ a :: c :: t).Pairwise (· < ·)) : next a = c ∧ a < c := by
  refine ⟨(Follows.append_cons_cons.mp hf).2.1, ?_⟩
  exact (List.pairwise_cons.mp (List.pairwise_append.mp hs).2.1).1 c List.mem_cons_self

/-- The loop ends exactly at the last node below the block. -/
theorem stops_iff {p a : ℕ} {next size : ℕ → ℕ} {f : ℕ} (hlay : Layout base V (L ++ R) (b :: live))
    (hring : Ring base f next size (L ++ R)) (hL : ∀ x ∈ L, x.Before b) (hR : ∀ x ∈ R, b.Before x)
    (hp : (nodes base L).getLast? = some p) (ha : a ∈ nodes base (L ++ R)) : Stops b.addr a (next a) ↔ a = p := by
  have hbpos : 0 < b.units := hlay.pos b (by simp)
  have hbase : base < b.addr := by
    have := hlay.above b List.mem_cons_self
    omega
  have hlow : ∀ c ∈ nodes base L, c < b.addr := by
    intro c hc
    rcases List.mem_cons.mp hc with rfl | hc
    · exact hbase
    · obtain ⟨x, hx, rfl⟩ := List.mem_map.mp hc
      have h1 := hL x hx
      have h2 := hlay.pos x (by simp [hx])
      unfold Block.Before Block.stop at h1
      omega
  have hhigh : ∀ c ∈ R.map Block.addr, b.addr < c := by
    intro c hc
    obtain ⟨x, hx, rfl⟩ := List.mem_map.mp hc
    have h1 := hR x hx
    unfold Block.Before Block.stop at h1
    omega
  have hasc := hlay.ascending
  obtain ⟨p', z, D, hp', hD, hleft, hpz, hright⟩ := hring.cut
  obtain rfl : p' = p := by simpa [hp'] using hp
  obtain ⟨C, y, hC⟩ := exists_last base L
  obtain rfl : y = p' := by simpa [hC] using hp'
  have hy : y ∈ nodes base L := by simp [hC]
  rw [nodes_append] at ha hasc
  obtain ⟨hascL, hascR, hLR⟩ := List.pairwise_append.mp hasc
  unfold Stops
  rcases List.mem_append.mp ha with ha | ha
  · by_cases hay : a = y
    · subst hay
      refine iff_of_true ?_ rfl
      rw [hpz]
      have hlt := hlow a hy
      cases R with
      | nil =>
        obtain rfl : base = z := (List.cons.inj hD).1
        have hle : base ≤ a := by
          rcases List.mem_cons.mp hy with rfl | h
          · exact le_rfl
          · exact ((List.pairwise_cons.mp hascL).1 a h).le
        exact .inr ⟨hle, .inl hlt⟩
      | cons r R =>
        obtain rfl : r.addr = z := (List.cons.inj hD).1
        exact .inl ⟨hlt, hhigh _ (by simp)⟩
    · -- a node before the last one is linked to another node below the block
      refine iff_of_false ?_ hay
      rw [hC] at ha hleft hascL
      obtain ⟨s, t, rfl⟩ := List.append_of_mem ((List.mem_append.mp ha).resolve_right (by simpa using hay))
      obtain ⟨c, t', ht⟩ : ∃ c t', t ++ [y] = c :: t' := List.exists_cons_of_ne_nil (by simp)
      rw [List.append_assoc, List.cons_append, ht] at hleft hascL hC
      obtain ⟨hac, hlt⟩ := follows_lt hleft hascL
      have hcb : c < b.addr := hlow c (by rw [hC]; simp)
      rw [hac]
      omega
  · have hb := hhigh a ha
    have hay : a ≠ y := (hLR y hy a ha).ne'
    refine iff_of_false ?_ hay
    obtain ⟨s, t, hst⟩ := List.append_of_mem ha
    rw [← hD, hst, List.append_assoc, List.cons_append] at hright
    cases t with
    | nil =>
      have hab : next a = base := (Follows.append_cons_cons.mp hright).2.1
      rw [hab]
      omega
    | cons c t =>
      have hac : next a = c := (Follows.append_cons_cons.mp hright).2.1
      rw [hst] at hascR
      have hlt : a < c := (List.pairwise_cons.mp (List.pairwise_append.mp hascR).2.1).1 c List.mem_cons_self
      rw [hac]
      omega

/-- The loop of `free` follows the links to the node where it ends. -/
theorem ends_seek {p a bp : ℕ} {l : List ℕ} {Q : ℕ → Heap K → Prop} (hf : Follows h.next (a :: l)) (hp : p ∈ a :: l)
    (hok : ∀ c ∈ a :: l, Ok S F h c) (hstop : ∀ c ∈ a :: l, Stops bp c (h.next c) ↔ c = p) (hn : l.length < n)
    (hq : Q p h) : Ends S F (seek bp n a) Q h := by
  induction n generalizing a l with
  | zero => exact absurd hn (Nat.not_lt_zero _)
  | succ n ih =>
    rw [seek]
    refine ends_ptr (hok a List.mem_cons_self) ?_
    have ha := hstop a List.mem_cons_self
    unfold Stops at ha
    by_cases hap : a = p
    · subst hap
      rcases ha.mpr rfl with h1 | h2
      · rw [if_pos h1]
        exact ends_pure hq
      · rw [if_pos h2]
        split <;> exact ends_pure hq
    · obtain ⟨h1, h2⟩ := not_or.mp (mt ha.mp hap)
      rw [if_neg h1, if_neg h2]
      have hpl : p ∈ l := (List.mem_cons.mp hp).resolve_left (Ne.symm hap)
      obtain ⟨c, l, rfl⟩ : ∃ c l', l = c :: l' := List.exists_cons_of_ne_nil (List.ne_nil_of_mem hpl)
      obtain ⟨hac, hf⟩ := Follows.cons_cons.mp hf
      rw [hac]
      exact ih hf hpl (fun c hc => hok c (List.mem_cons_of_mem _ hc)) (fun c hc => hstop c (List.mem_cons_of_mem _ hc))
        (by simpa using hn)

/-- The sizes of two neighbours add up without overflow. -/
theorem add_units_lt {x y : Block} (hV : V < 2 ^ 36) (ht : x.stop = y.addr) (hy : y.stop ≤ V) :
    x.units + y.units < 2 ^ 32 := by
  unfold Block.stop at ht hy
  omega

/-- The new block is in the list up to its place: `m` is the block itself or has the block after it as well. -/
theorem ends_joinNext {p f : ℕ} {Q : Unit → Heap K → Prop} (hlay : Layout base V (L ++ R) (b :: live))
    (hring : Ring base f h.next h.units (L ++ R)) (hu : h.units b.addr = b.units) (hr : Reach S F V h) (hV : V < 2 ^ 36)
    (hL : ∀ x ∈ L, x.Before b) (hR : ∀ x ∈ R, b.Before x) (hp : (nodes base L).getLast? = some p)
    (hq : ∀ (m : Block) R' (h' : Heap K), m.addr = b.addr → b.units ≤ m.units → (∀ x ∈ R', x ∈ R) →
      (R = [] → m.stop = b.stop) → Layout base V (L ++ m :: R') live → Half base p h'.next h'.units L m R' →
      h'.sys = h.sys → Q () h') :
    Ends S F (joinNext b.addr (h.next p)) Q h := by
  have hbpos : 0 < b.units := hlay.pos b (by simp)
  have hbV := hlay.inside b (by simp)
  have hbs : b.stop = b.addr + 16 * b.units := rfl
  have hrel := hlay.release hL hR
  have hbn : b.addr ∉ nodes base (L ++ R) := by
    intro hb
    have hsub : nodes base (L ++ b :: R) = nodes base L ++ b.addr :: R.map Block.addr := nodes_append ..
    have hnd := hrel.nodup
    rw [hsub, List.nodup_middle, ← nodes_append] at hnd
    exact (List.nodup_cons.mp hnd).1 hb
  have hokb : Ok S F h b.addr := hr.ok (by omega)
  obtain ⟨p', z, D, hp', hD, -, hpz, -⟩ := hring.cut
  obtain rfl : p' = p := by simpa [hp'] using hp
  rw [joinNext]
  refine ends_size hokb ?_
  rw [hu]
  split <;> rename_i ht
  · rw [hpz] at ht ⊢
    cases R with
    | nil =>
      have := hlay.above b List.mem_cons_self
      obtain rfl : base = z := (List.cons.inj hD).1
      omega
    | cons r R =>
      obtain rfl : r.addr = z := (List.cons.inj hD).1
      have hr' : r ∈ L ++ r :: R := List.mem_append_right _ List.mem_cons_self
      have hrn : r.addr ∈ nodes base (L ++ r :: R) := List.mem_cons_of_mem _ (List.mem_map_of_mem hr')
      have hlt := add_units_lt hV (x := b) (y := r) ht (hlay.inside r (List.mem_append_left _ hr'))
      have hokr : Ok S F h r.addr := hr.ok (hlay.node_le hrn)
      refine ends_size hokr (ends_setSize hokb (ends_ptr hokr (ends_setPtr (f := pure) hokb (ends_pure ?_))))
      apply hq ⟨b.addr, b.units + r.units⟩ R
      · rfl
      · exact Nat.le_add_right ..
      · exact fun x hx => List.mem_cons_of_mem _ hx
      · exact fun h => absurd h (List.cons_ne_nil _ _)
      · exact hrel.join ht
      · rw [hring.sizes r hr', Nat.mod_eq_of_lt hlt]
        simpa using hring.halfJoin hbn hp
      · rfl
  · refine ends_setPtr (f := pure) hokb (ends_pure ?_)
    apply hq b R
    · rfl
    · exact le_rfl
    · exact fun x hx => hx
    · exact fun _ => rfl
    · exact hrel
    · simpa using hring.half hbn hu hp
    · rfl

/-- The block before the new one is linked to it or has it as well. -/
theorem ends_joinPrev {p : ℕ} {m : Block} {Q : Unit → Heap K → Prop} (hlay : Layout base V (L ++ m :: R) live)
    (hhalf : Half base p h.next h.units L m R) (hr : Reach S F V h) (hV : V < 2 ^ 36)
    (hq : ∀ A (c : Block) (h' : Heap K), (∀ x ∈ A, x ∈ L) → m.units ≤ c.units → c.stop = m.stop →
      Holds base V h' (A ++ c :: R) live → h'.sys = h.sys → Q () h') :
    Ends S F (joinPrev p m.addr >>= fun _ => setFreep p) Q h := by
  have hm : m ∈ L ++ m :: R := List.mem_append_right _ List.mem_cons_self
  have hmn : m.addr ∈ nodes base (L ++ m :: R) := List.mem_cons_of_mem _ (List.mem_map_of_mem hm)
  have hpn : p ∈ nodes base (L ++ m :: R) := by
    rw [nodes_append]
    exact List.mem_append_left _ (List.mem_of_getLast? hhalf.last)
  have hokp : Ok S F h p := hr.ok (hlay.node_le hpn)
  have hokm : Ok S F h m.addr := hr.ok (hlay.node_le hmn)
  refine ends_bind ?_
  rw [joinPrev]
  refine ends_size hokp ?_
  split <;> rename_i ht
  · rcases List.eq_nil_or_concat L with rfl | ⟨L, l, rfl⟩
    · -- the static header has size 0 and does not touch any block
      obtain rfl : base = p := by simpa [nodes] using hhalf.last
      have := hlay.base_before hm
      rw [hhalf.base_size] at ht
      omega
    · rw [List.concat_eq_append] at *
      obtain rfl : l.addr = p := by simpa [nodes_append] using hhalf.last
      have hl : l ∈ L ++ [l] ++ m :: R := by simp
      have hlu := hhalf.sizes l hl
      have hmu := hhalf.sizes m hm
      rw [hlu] at ht
      have hlt := add_units_lt hV (x := l) (y := m) ht (hlay.inside m (List.mem_append_left _ hm))
      have hne : m.addr ≠ l.addr := by
        have := hlay.pos l (List.mem_append_left _ hl)
        omega
      refine ends_size hokm (ends_setSize hokp (ends_ptr hokm (ends_setPtr (f := pure) hokp (ends_pure ?_))))
      refine ends_setFreep (f := pure) (ends_pure ?_)
      apply hq L ⟨l.addr, l.units + m.units⟩
      · exact fun x hx => List.mem_append_left _ hx
      · exact Nat.le_add_left ..
      · simp only [Block.stop]
        omega
      · have hj : Layout base V (L ++ ⟨l.addr, l.units + m.units⟩ :: R) live := by
          rw [List.append_assoc, List.singleton_append] at hlay
          exact hlay.join ht
        rw [hlu, hmu, Nat.mod_eq_of_lt hlt]
        exact ⟨hj, by simpa [Function.update_of_ne hne] using hhalf.join hlay.nodup⟩
      · rfl
  · refine ends_setPtr (f := pure) hokp (ends_pure (ends_setFreep (f := pure) (ends_pure ?_)))
    apply hq L m
    · exact fun x hx => hx
    · exact le_rfl
    · rfl
    · exact ⟨hlay, by simpa using hhalf.link hlay.nodup⟩
    · rfl

/-- `free` of a block in use: it is part of a free block `m`, and the other free blocks are as they were. -/
theorem ends_free {Q : Unit → Heap K → Prop} (hh : Holds base V h fl (b :: live)) (hu : h.units b.addr = b.units)
    (hr : Reach S F V h) (hV : V < 2 ^ 36) (hn : fl.length < n)
    (hq : ∀ A (m : Block) B (h' : Heap K), (∀ x ∈ A ++ B, x ∈ fl) → b.units ≤ m.units →
      ((∀ x ∈ fl, x.Before b) → B = [] ∧ m.stop = b.stop) → Holds base V h' (A ++ m :: B) live → h'.sys = h.sys → Q () h') :
    Ends S F (free n (b.addr + 16)) Q h := by
  obtain ⟨L, R, rfl, hL, hR⟩ := hh.layout.place
  obtain ⟨p, hp⟩ : ∃ p, (nodes base L).getLast? = some p := ⟨_, List.getLast?_eq_some_getLast (List.cons_ne_nil _ _)⟩
  obtain ⟨l, hfol, hperm⟩ := Follows.rotate hh.ring.follows hh.ring.freep_mem
  have hmem : ∀ c ∈ h.freep :: l, c ∈ nodes base (L ++ R) := fun c hc => hperm.mem_iff.mp hc
  have hbpos : 0 < b.units := hh.layout.pos b (by simp)
  rw [free, Nat.add_sub_cancel]
  refine ends_freep (ends_bind (ends_seek (p := p) (l := l) ?_ ?_ ?_ ?_ ?_ ?_))
  · exact List.IsChain.left_of_append hfol
  · rw [hperm.mem_iff, ← nodes, nodes_append]
    exact List.mem_append_left _ (List.mem_of_getLast? hp)
  · exact fun c hc => hr.ok (hh.layout.node_le (hmem c hc))
  · exact fun c hc => stops_iff hh.layout hh.ring hL hR hp (hmem c hc)
  · have hlen := hperm.length_eq
    simp only [List.length_cons, List.length_map] at hlen
    omega
  · have hpn : p ∈ nodes base (L ++ R) := by
      rw [nodes_append]
      exact List.mem_append_left _ (List.mem_of_getLast? hp)
    refine ends_ptr (hr.ok (hh.layout.node_le hpn)) (ends_bind ?_)
    refine ends_joinNext hh.layout hh.ring hu hr hV hL hR hp fun m R' h₁ hma hmu hR' hmR hlay hhalf hsys => ?_
    have hr₁ : Reach S F V h₁ := by
      unfold Reach System.top
      rw [hsys]
      exact hr
    rw [← hma]
    refine ends_joinPrev hlay hhalf hr₁ hV fun A c h₂ hA hcu hcs hh₂ hsys₂ => ?_
    apply hq A c R'
    · intro x hx
      rcases List.mem_append.mp hx with hx | hx
      · exact List.mem_append_left _ (hA x hx)
      · exact List.mem_append_right _ (hR' x hx)
    · exact hmu.trans hcu
    · intro hall
      have hnil : R = [] := by
        refine List.eq_nil_iff_forall_not_mem.mpr fun x hx => ?_
        have h1 := hR x hx
        have h2 := hall x (List.mem_append_right _ hx)
        have h3 := hh.layout.pos x (by simp [hx])
        simp only [Block.Before, Block.stop] at h1 h2
        omega
      refine ⟨List.eq_nil_iff_forall_not_mem.mpr fun x hx => ?_, hcs.trans (hmR hnil)⟩
      have := hR' x hx
      rw [hnil] at this
      exact absurd this List.not_mem_nil
    · exact hh₂
    · exact hsys₂.trans hsys

end Xv6Arm.Umalloc

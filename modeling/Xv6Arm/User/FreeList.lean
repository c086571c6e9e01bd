import Xv6Arm.User.Umalloc
import Xv6Arm.Lib.Chain

/-!
# The free list

The free blocks lie in the order of their addresses above the static header, and
are linked in this order in a circle through it. They do not overlap each other or
a block that is in use. What `malloc` and `free` do to the list is taking a block
from it, putting a block back and making one block of two neighbours.
-/
namespace Xv6Arm.Umalloc
open Lib

/-- A block with its header: an address and a number of units of 16 bytes. -/
structure Block where
  addr : ℕ
  units : ℕ

namespace Block

def stop (b : Block) : ℕ := b.addr + 16 * b.units

def Apart (b c : Block) : Prop := b.stop ≤ c.addr ∨ c.stop ≤ b.addr

/-- One block lies before the other. -/
def Before (b c : Block) : Prop := b.stop ≤ c.addr

end Block

/-- The free blocks `fl` and the blocks in use `live` in the first `V` bytes, with the header at `base`. -/
structure Layout (base V : ℕ) (fl live : List Block) : Prop where
  sorted : (⟨base, 1⟩ :: fl).Pairwise Block.Before
  pos : ∀ b ∈ fl ++ live, 0 < b.units
  base_le : base + 16 ≤ V
  inside : ∀ b ∈ fl ++ live, b.stop ≤ V
  above : ∀ b ∈ live, base + 16 ≤ b.addr
  apart : ∀ b ∈ fl, ∀ c ∈ live, b.Apart c
  disjoint : live.Pairwise Block.Apart

/-- The nodes of the free list. -/
def nodes (base : ℕ) (fl : List Block) : List ℕ := base :: fl.map Block.addr

/-- The headers, by their links `next` and their sizes, link the free blocks in a circle. -/
structure Ring (base freep : ℕ) (next size : ℕ → ℕ) (fl : List Block) : Prop where
  follows : Follows next (nodes base fl ++ [base])
  freep_mem : freep ∈ nodes base fl
  base_size : size base = 0
  sizes : ∀ b ∈ fl, size b.addr = b.units

/-- The list while a block `b` is put into it: it is linked to the blocks after it, but the block `p` before
it is not linked to it. -/
structure Half (base p : ℕ) (next size : ℕ → ℕ) (L : List Block) (b : Block) (R : List Block) : Prop where
  left : Follows next (nodes base L)
  last : (nodes base L).getLast? = some p
  right : Follows next (b.addr :: (R.map Block.addr ++ [base]))
  base_size : size base = 0
  sizes : ∀ x ∈ L ++ b :: R, size x.addr = x.units

namespace Layout
variable {base V : ℕ} {fl live A B : List Block} {b c x y : Block}

theorem base_before (h : Layout base V fl live) (hb : b ∈ fl) : base + 16 ≤ b.addr :=
  (List.pairwise_cons.mp h.sorted).1 b hb

theorem ascending (h : Layout base V fl live) : (nodes base fl).Pairwise (· < ·) := by
  rw [nodes, show base = (⟨base, 1⟩ : Block).addr from rfl, ← List.map_cons, List.pairwise_map]
  refine h.sorted.imp_of_mem fun {b c} hb _ hbc => ?_
  have hpos : 0 < b.units := by
    rcases List.mem_cons.mp hb with rfl | hb
    · exact Nat.one_pos
    · exact h.pos b (List.mem_append_left _ hb)
  unfold Block.Before Block.stop at hbc
  omega

theorem nodup (h : Layout base V fl live) : (nodes base fl).Nodup := h.ascending.imp fun hlt => hlt.ne

/-- Every header of the list is in memory. -/
theorem node_le (h : Layout base V fl live) {a : ℕ} (ha : a ∈ nodes base fl) : a + 16 ≤ V := by
  rcases List.mem_cons.mp ha with rfl | ha
  · exact h.base_le
  · obtain ⟨b, hb, rfl⟩ := List.mem_map.mp ha
    have hpos := h.pos b (List.mem_append_left _ hb)
    have hin := h.inside b (List.mem_append_left _ hb)
    unfold Block.stop at hin
    omega

/-- No header of the list lies inside another free block. -/
theorem outside (h : Layout base V (A ++ x :: B) live) {a : ℕ} (ha : a ∈ nodes base (A ++ x :: B)) (hne : a ≠ x.addr) :
    a < x.addr ∨ x.stop ≤ a := by
  obtain ⟨-, hs, hA⟩ := List.pairwise_append.mp (List.pairwise_cons.mp h.sorted).2
  have hx : x ∈ A ++ x :: B := List.mem_append_right _ List.mem_cons_self
  rcases List.mem_cons.mp ha with rfl | ha
  · have := h.base_before hx
    exact .inl (by omega)
  · obtain ⟨b, hb, rfl⟩ := List.mem_map.mp ha
    rcases List.mem_append.mp hb with hbA | hbB
    · have hpos := h.pos b (List.mem_append_left _ hb)
      have := hA b hbA x List.mem_cons_self
      unfold Block.Before Block.stop at this
      exact .inl (by omega)
    · rcases List.mem_cons.mp hbB with rfl | hbB
      · exact absurd rfl hne
      · exact .inr ((List.pairwise_cons.mp hs).1 b hbB)

/-- A block of the list is used. -/
theorem take (h : Layout base V (A ++ x :: B) live) : Layout base V (A ++ B) (x :: live) := by
  have hsub : A ++ B ⊆ A ++ x :: B := (List.sublist_cons_self x B).append_left A |>.subset
  have hx : x ∈ A ++ x :: B := List.mem_append_right _ List.mem_cons_self
  have hperm : (A ++ B ++ x :: live).Perm (A ++ x :: B ++ live) := by
    rw [List.append_assoc, List.append_assoc, List.cons_append]
    exact List.Perm.append_left A List.perm_middle
  refine ⟨?_, fun b hb => h.pos b (hperm.mem_iff.mp hb), h.base_le, fun b hb => h.inside b (hperm.mem_iff.mp hb), ?_, ?_,
    List.pairwise_cons.mpr ⟨fun c hc => h.apart x hx c hc, h.disjoint⟩⟩
  · exact h.sorted.sublist (((List.sublist_cons_self x B).append_left A).cons_cons _)
  · intro b hb
    rcases List.mem_cons.mp hb with rfl | hb
    · exact h.base_before hx
    · exact h.above b hb
  · intro b hb c hc
    rcases List.mem_cons.mp hc with rfl | hc
    · have hs := List.pairwise_append.mp (List.pairwise_cons.mp h.sorted).2
      rcases List.mem_append.mp hb with hb | hb
      · exact .inl (hs.2.2 b hb _ List.mem_cons_self)
      · exact .inr ((List.pairwise_cons.mp hs.2.1).1 b hb)
    · exact h.apart b (hsub hb) c hc

/-- A block in use goes back to its place in the list. -/
theorem release (h : Layout base V (A ++ B) (x :: live)) (hA : ∀ b ∈ A, b.Before x) (hB : ∀ b ∈ B, x.Before b) :
    Layout base V (A ++ x :: B) live := by
  have hperm : (A ++ B ++ x :: live).Perm (A ++ x :: B ++ live) := by
    rw [List.append_assoc, List.append_assoc, List.cons_append]
    exact List.Perm.append_left A List.perm_middle
  have hx : x ∈ x :: live := List.mem_cons_self
  obtain ⟨hbase, hs⟩ := List.pairwise_cons.mp h.sorted
  obtain ⟨hsA, hsB, hsAB⟩ := List.pairwise_append.mp hs
  obtain ⟨hxl, hl⟩ := List.pairwise_cons.mp h.disjoint
  refine ⟨List.pairwise_cons.mpr ⟨?_, List.pairwise_append.mpr ⟨hsA, List.pairwise_cons.mpr ⟨hB, hsB⟩, ?_⟩⟩,
    fun b hb => h.pos b (hperm.mem_iff.mpr hb), h.base_le, fun b hb => h.inside b (hperm.mem_iff.mpr hb),
    fun b hb => h.above b (List.mem_cons_of_mem _ hb), ?_, hl⟩
  · intro b hb
    rcases List.mem_append.mp hb with hb | hb
    · exact hbase b (List.mem_append_left _ hb)
    · rcases List.mem_cons.mp hb with rfl | hb
      · exact h.above b hx
      · exact hbase b (List.mem_append_right _ hb)
  · intro b hb c hc
    rcases List.mem_cons.mp hc with rfl | hc
    · exact hA b hb
    · exact hsAB b hb c hc
  · intro b hb c hc
    rcases List.mem_append.mp hb with hb | hb
    · exact h.apart b (List.mem_append_left _ hb) c (List.mem_cons_of_mem _ hc)
    · rcases List.mem_cons.mp hb with rfl | hb
      · exact hxl c hc
      · exact h.apart b (List.mem_append_right _ hb) c (List.mem_cons_of_mem _ hc)

/-- Other free blocks in the place of `M`: whatever was on one side of all of `M` is so of each of them. -/
theorem replace {M N : List Block} (h : Layout base V (A ++ (M ++ B)) live) (hN : N.Pairwise Block.Before)
    (hpos : ∀ c ∈ N, 0 < c.units) (hle : ∀ z : Block, (∀ b ∈ M, z.Before b) → ∀ c ∈ N, z.Before c)
    (hge : ∀ z : Block, (∀ b ∈ M, b.Before z) → ∀ c ∈ N, c.Before z)
    (hap : ∀ z : Block, 0 < z.units → (∀ b ∈ M, b.Apart z) → ∀ c ∈ N, c.Apart z) :
    Layout base V (A ++ (N ++ B)) live := by
  obtain ⟨hbase, hs⟩ := List.pairwise_cons.mp h.sorted
  obtain ⟨hsA, hs, hAM⟩ := List.pairwise_append.mp hs
  obtain ⟨-, hsB, hMB⟩ := List.pairwise_append.mp hs
  have hM : ∀ b ∈ M, b ∈ A ++ (M ++ B) := fun b hb => List.mem_append_right _ (List.mem_append_left _ hb)
  -- a free block is an old one or one of the new ones
  have hmem : ∀ {P : Block → Prop}, (∀ b ∈ A ++ (M ++ B), P b) → (∀ c ∈ N, P c) → ∀ b ∈ A ++ (N ++ B), P b := by
    intro P hold hnew b hb
    rcases List.mem_append.mp hb with hb | hb
    · exact hold b (List.mem_append_left _ hb)
    · rcases List.mem_append.mp hb with hb | hb
      · exact hnew b hb
      · exact hold b (List.mem_append_right _ (List.mem_append_right _ hb))
  have hlive : ∀ {P : Block → Prop}, (∀ b ∈ A ++ (N ++ B), P b) → (∀ b ∈ live, P b) →
      ∀ b ∈ A ++ (N ++ B) ++ live, P b :=
    fun hfree hl b hb => (List.mem_append.mp hb).elim (hfree b) (hl b)
  refine ⟨List.pairwise_cons.mpr ⟨hmem hbase (hle _ fun b hb => hbase b (hM b hb)), ?_⟩, hlive ?_ ?_, h.base_le,
    hlive ?_ ?_, h.above, ?_, h.disjoint⟩
  · refine List.pairwise_append.mpr ⟨hsA, List.pairwise_append.mpr ⟨hN, hsB, fun c hc b hb => ?_⟩, fun a ha b hb => ?_⟩
    · exact hge b (fun m hm => hMB m hm b hb) c hc
    · rcases List.mem_append.mp hb with hb | hb
      · exact hle a (fun m hm => hAM a ha m (List.mem_append_left _ hm)) b hb
      · exact hAM a ha b (List.mem_append_right _ hb)
  · exact hmem (fun b hb => h.pos b (List.mem_append_left _ hb)) hpos
  · exact fun b hb => h.pos b (List.mem_append_right _ hb)
  · refine hmem (fun b hb => h.inside b (List.mem_append_left _ hb)) ?_
    exact hge ⟨V, 1⟩ fun b hb => h.inside b (List.mem_append_left _ (hM b hb))
  · exact fun b hb => h.inside b (List.mem_append_right _ hb)
  · refine fun b hb c hc => hmem (P := (·.Apart c)) (fun b hb => h.apart b hb c hc) ?_ b hb
    exact hap c (h.pos c (List.mem_append_right _ hc)) fun m hm => h.apart m (hM m hm) c hc

/-- Two free blocks that touch become one. -/
theorem join (h : Layout base V (A ++ x :: y :: B) live) (ht : x.stop = y.addr) :
    Layout base V (A ++ ⟨x.addr, x.units + y.units⟩ :: B) live := by
  have hx := h.pos x (by simp)
  simp only [Block.stop] at ht
  refine replace (M := [x, y]) (N := [⟨x.addr, x.units + y.units⟩]) h (List.pairwise_singleton _ _) ?_ ?_ ?_ ?_ <;>
    simp only [List.mem_cons, List.not_mem_nil, or_false, forall_eq, forall_eq_or_imp, Block.Before, Block.Apart, Block.stop]
  · omega
  · omega
  · omega
  · omega

/-- A free block becomes two. -/
theorem cut (h : Layout base V (A ++ x :: B) live) {n : ℕ} (hn : 0 < n) (hlt : n < x.units) :
    Layout base V (A ++ ⟨x.addr, x.units - n⟩ :: ⟨x.addr + 16 * (x.units - n), n⟩ :: B) live := by
  refine replace (M := [x]) (N := [⟨x.addr, x.units - n⟩, ⟨x.addr + 16 * (x.units - n), n⟩]) h ?_ ?_ ?_ ?_ ?_
  · simp [Block.Before, Block.stop]
  all_goals
    simp only [List.mem_cons, List.not_mem_nil, or_false, forall_eq, forall_eq_or_imp, Block.Before, Block.Apart, Block.stop]
  · omega
  · omega
  · omega
  · omega

/-- The end of a free block is used. -/
theorem takeEnd (h : Layout base V (A ++ x :: B) live) {n : ℕ} (hn : 0 < n) (hlt : n < x.units) :
    Layout base V (A ++ ⟨x.addr, x.units - n⟩ :: B) (⟨x.addr + 16 * (x.units - n), n⟩ :: live) := by
  have hcut := h.cut hn hlt
  rw [← List.singleton_append, ← List.append_assoc] at hcut ⊢
  exact hcut.take

/-- More memory at the end, in one block. -/
theorem extend (h : Layout base V fl live) {n : ℕ} (hn : 0 < n) : Layout base (V + 16 * n) fl (⟨V, n⟩ :: live) := by
  have hperm : ∀ {P : Block → Prop}, (∀ b ∈ fl ++ live, P b) → P ⟨V, n⟩ → ∀ b ∈ fl ++ ⟨V, n⟩ :: live, P b := by
    intro P hold hnew b hb
    rcases List.mem_cons.mp (List.perm_middle.mem_iff.mp hb) with rfl | hb
    · exact hnew
    · exact hold b hb
  have hin : ∀ b ∈ fl ++ live, b.stop ≤ V := h.inside
  refine ⟨h.sorted, hperm h.pos hn, h.base_le.trans (Nat.le_add_right ..),
    hperm (fun b hb => (hin b hb).trans (Nat.le_add_right ..)) le_rfl, List.forall_mem_cons.mpr ⟨h.base_le, h.above⟩, ?_, ?_⟩
  · exact fun b hb => List.forall_mem_cons.mpr ⟨.inl (hin b (List.mem_append_left _ hb)), h.apart b hb⟩
  · exact List.pairwise_cons.mpr ⟨fun c hc => .inr (hin c (List.mem_append_right _ hc)), h.disjoint⟩

/-- The place of a block in the list. -/
theorem place (h : Layout base V fl (x :: live)) :
    ∃ A B, fl = A ++ B ∧ (∀ b ∈ A, b.Before x) ∧ ∀ b ∈ B, x.Before b := by
  have hx := h.pos x (by simp)
  have hap : ∀ b ∈ fl, b.Apart x := fun b hb => h.apart b hb x List.mem_cons_self
  have hs := (List.pairwise_cons.mp h.sorted).2
  have hpos : ∀ b ∈ fl, 0 < b.units := fun b hb => h.pos b (List.mem_append_left _ hb)
  clear h
  induction fl with
  | nil => exact ⟨[], [], rfl, by simp, by simp⟩
  | cons b fl ih =>
    obtain ⟨hb, hfl⟩ := List.pairwise_cons.mp hs
    rcases hap b List.mem_cons_self with hbx | hxb
    · obtain ⟨A, B, rfl, hA, hB⟩ := ih (fun c hc => hap c (List.mem_cons_of_mem _ hc)) hfl
        fun c hc => hpos c (List.mem_cons_of_mem _ hc)
      exact ⟨b :: A, B, rfl, List.forall_mem_cons.mpr ⟨hbx, hA⟩, hB⟩
    · refine ⟨[], b :: fl, rfl, by simp, List.forall_mem_cons.mpr ⟨hxb, fun c hc => ?_⟩⟩
      have hbc := hb c hc
      have := hpos b List.mem_cons_self
      simp only [Block.Before, Block.stop] at hxb hbc ⊢
      omega

end Layout

/-! ## Links -/

section Links
variable {base freep p : ℕ} {next size : ℕ → ℕ} {A B L R : List Block} {b x : Block}

theorem nodes_append (base : ℕ) (A B : List Block) : nodes base (A ++ B) = nodes base A ++ B.map Block.addr := by
  simp [nodes]

theorem exists_last (base : ℕ) (A : List Block) : ∃ C y, nodes base A = C ++ [y] := by
  rcases List.eq_nil_or_concat (nodes base A) with h | ⟨C, y, h⟩
  · exact absurd h (List.cons_ne_nil _ _)
  · exact ⟨C, y, by rw [h, List.concat_eq_append]⟩

/-- The nodes up to `A`, the last of which is `p`, and those of `B`, are different. -/
theorem last_not_mem {C : List ℕ} (hnd : (nodes base (A ++ B)).Nodup) (hC : nodes base A = C ++ [p]) :
    p ∉ C ∧ p ∉ B.map Block.addr := by
  rw [nodes_append, hC] at hnd
  obtain ⟨hndC, -, hdisj⟩ := List.nodup_append.mp hnd
  exact ⟨fun h => (List.nodup_append.mp hndC).2.2 _ h _ (List.mem_singleton_self _) rfl,
    fun h => hdisj _ (by simp) _ h rfl⟩

/-- A block is taken out of the circle by the block before it. -/
theorem Ring.unlink (h : Ring base freep next size (A ++ x :: B)) (hnd : (nodes base (A ++ x :: B)).Nodup)
    (hp : p ∈ nodes base (A ++ x :: B)) (hx : next p = x.addr) :
    Ring base p (Function.update next p (next x.addr)) size (A ++ B) := by
  obtain ⟨C, y, hC⟩ := exists_last base A
  obtain ⟨z, D, hD⟩ : ∃ z D, B.map Block.addr ++ [base] = z :: D := List.exists_cons_of_ne_nil (by simp)
  have hnodes : nodes base (A ++ x :: B) ++ [base] = C ++ y :: x.addr :: z :: D := by
    rw [nodes_append, hC, List.map_cons, List.append_assoc, List.cons_append, hD]
    simp
  have hf := h.follows
  rw [hnodes] at hf
  obtain ⟨hleft, hyx, hright⟩ := Follows.append_cons_cons.mp hf
  obtain ⟨hxz, hright⟩ := Follows.cons_cons.mp hright
  have hy : y ∈ nodes base A := by simp [hC]
  obtain rfl : p = y := by
    refine Follows.unique h.follows hnd hp ?_ (hx.trans hyx.symm)
    rw [← nodes, nodes_append]
    exact List.mem_append_left _ hy
  obtain ⟨hpC, hpB⟩ := last_not_mem hnd hC
  refine ⟨?_, ?_, h.base_size, fun b hb => h.sizes b (((List.sublist_cons_self x B).append_left A).subset hb)⟩
  · rw [nodes_append, hC, List.append_assoc, hD, List.append_assoc, List.singleton_append, hxz]
    refine hleft.relink hright hpC ?_
    rw [← hD, List.dropLast_concat]
    exact fun h => hpB (List.mem_cons_of_mem _ h)
  · rw [nodes_append]
    exact List.mem_append_left _ hy

/-- A block of another size at the same place of the list. -/
theorem Ring.resize (h : Ring base freep next size (A ++ x :: B)) (hnd : (nodes base (A ++ x :: B)).Nodup) {f n : ℕ}
    (hf : f ∈ nodes base (A ++ x :: B)) {size' : ℕ → ℕ} (hx : size' x.addr = n)
    (ho : ∀ a ∈ nodes base (A ++ x :: B), a ≠ x.addr → size' a = size a) :
    Ring base f next size' (A ++ ⟨x.addr, n⟩ :: B) := by
  have hnodes : nodes base (A ++ ⟨x.addr, n⟩ :: B) = nodes base (A ++ x :: B) := by simp [nodes]
  have hndx : x.addr ∉ base :: A.map Block.addr ∧ x.addr ∉ B.map Block.addr := by
    rw [nodes_append, List.map_cons] at hnd
    obtain ⟨-, hB, hd⟩ := List.nodup_append.mp hnd
    exact ⟨fun h => hd _ h _ List.mem_cons_self rfl, (List.nodup_cons.mp hB).1⟩
  refine ⟨by rw [hnodes]; exact h.follows, by rwa [hnodes], ?_, fun b hb => ?_⟩
  · rw [ho base (by simp [nodes]) fun he => hndx.1 (he ▸ List.mem_cons_self), h.base_size]
  · have hother : ∀ b ∈ A ++ B, size' b.addr = b.units := by
      intro b hb
      have hb' : b ∈ A ++ x :: B := ((List.sublist_cons_self x B).append_left A).subset hb
      rw [ho b.addr (List.mem_cons_of_mem _ (List.mem_map_of_mem hb')) ?_, h.sizes b hb']
      intro he
      rcases List.mem_append.mp hb with hb | hb
      · exact hndx.1 (he ▸ List.mem_cons_of_mem _ (List.mem_map_of_mem hb))
      · exact hndx.2 (he ▸ List.mem_map_of_mem hb)
    rcases List.mem_append.mp hb with hb | hb
    · exact hother b (List.mem_append_left _ hb)
    · rcases List.mem_cons.mp hb with rfl | hb
      · exact hx
      · exact hother b (List.mem_append_right _ hb)

/-! ## Putting a block into the list -/

/-- The block after which another one is to be put is linked to the block after that one. -/
theorem Ring.cut (h : Ring base freep next size (L ++ R)) :
    ∃ p z D, (nodes base L).getLast? = some p ∧ R.map Block.addr ++ [base] = z :: D ∧ Follows next (nodes base L) ∧
      next p = z ∧ Follows next (z :: D) := by
  obtain ⟨C, p, hC⟩ := exists_last base L
  obtain ⟨z, D, hD⟩ : ∃ z D, R.map Block.addr ++ [base] = z :: D := List.exists_cons_of_ne_nil (by simp)
  have hf := h.follows
  rw [nodes_append, hC, List.append_assoc, hD, List.append_assoc, List.singleton_append] at hf
  obtain ⟨hleft, hpz, hright⟩ := Follows.append_cons_cons.mp hf
  exact ⟨p, z, D, by simp [hC], hD, by rwa [hC], hpz, hright⟩

/-- The new block is linked to the one after it. -/
theorem Ring.half (h : Ring base freep next size (L ++ R)) (hb : b.addr ∉ nodes base (L ++ R)) (hs : size b.addr = b.units)
    (hp : (nodes base L).getLast? = some p) : Half base p (Function.update next b.addr (next p)) size L b R := by
  obtain ⟨p', z, D, hp', hD, hleft, hpz, hright⟩ := h.cut
  obtain rfl : p' = p := by simpa [hp'] using hp
  rw [nodes_append, List.mem_append, not_or] at hb
  refine ⟨hleft.congr fun a ha => ?_, hp, ?_, h.base_size, fun x hx => ?_⟩
  · exact Function.update_of_ne (ne_of_mem_of_not_mem (List.mem_of_mem_dropLast ha) hb.1) ..
  · rw [hD, hpz]
    refine hright.cons_update ?_
    rw [← hD, List.mem_append, not_or, List.mem_singleton]
    exact ⟨hb.2, fun he => hb.1 (he ▸ List.mem_cons_self)⟩
  · rcases List.mem_cons.mp (List.perm_middle.mem_iff.mp hx) with rfl | hx
    · exact hs
    · exact h.sizes x hx

/-- The new block and the one after it become one. -/
theorem Ring.halfJoin {r : Block} (h : Ring base freep next size (L ++ r :: R)) (hb : b.addr ∉ nodes base (L ++ r :: R))
    (hp : (nodes base L).getLast? = some p) :
    Half base p (Function.update next b.addr (next r.addr)) (Function.update size b.addr (b.units + r.units)) L
      ⟨b.addr, b.units + r.units⟩ R := by
  obtain ⟨p', z, D, hp', hD, hleft, hpz, hright⟩ := h.cut
  obtain ⟨w, E, hE⟩ : ∃ w E, R.map Block.addr ++ [base] = w :: E := List.exists_cons_of_ne_nil (by simp)
  obtain ⟨rfl, rfl⟩ : r.addr = z ∧ w :: E = D := by simpa [hE] using hD
  obtain ⟨hrw, hright⟩ := Follows.cons_cons.mp hright
  rw [nodes_append, List.map_cons, List.mem_append, List.mem_cons, not_or, not_or] at hb
  have hbase : b.addr ≠ base := fun he => hb.1 (he ▸ List.mem_cons_self)
  refine ⟨hleft.congr fun a ha => ?_, hp, ?_, ?_, fun x hx => ?_⟩
  · exact Function.update_of_ne (ne_of_mem_of_not_mem (List.mem_of_mem_dropLast ha) hb.1) ..
  · rw [hE, hrw]
    refine hright.cons_update ?_
    rw [← hE, List.mem_append, not_or, List.mem_singleton]
    exact ⟨hb.2.2, hbase⟩
  · rw [Function.update_of_ne hbase.symm, h.base_size]
  · rcases List.mem_cons.mp (List.perm_middle.mem_iff.mp hx) with rfl | hx
    · exact Function.update_self ..
    · have hx' : x ∈ L ++ r :: R := ((List.sublist_cons_self r R).append_left L).subset hx
      rw [Function.update_of_ne, h.sizes x hx']
      intro he
      rcases List.mem_append.mp hx with hx | hx
      · exact hb.1 (he ▸ List.mem_cons_of_mem _ (List.mem_map_of_mem hx))
      · exact hb.2.2 (he ▸ List.mem_map_of_mem hx)

/-- The block before is linked to the new one. -/
theorem Half.link (h : Half base p next size L b R) (hnd : (nodes base (L ++ b :: R)).Nodup) :
    Ring base p (Function.update next p b.addr) size (L ++ b :: R) := by
  obtain ⟨C, y, hC⟩ := exists_last base L
  obtain rfl : y = p := by simpa [hC] using h.last
  obtain ⟨hyC, hyR⟩ := last_not_mem hnd hC
  refine ⟨?_, ?_, h.base_size, h.sizes⟩
  · rw [nodes_append, hC, List.append_assoc, List.append_assoc, List.singleton_append, List.map_cons, List.cons_append]
    refine Follows.relink (by rw [← hC]; exact h.left) h.right hyC ?_
    rwa [← List.cons_append, List.dropLast_concat]
  · rw [nodes_append, hC]
    simp

/-- The block before and the new one become one. -/
theorem Half.join {l : Block} (h : Half base l.addr next size (L ++ [l]) b R)
    (hnd : (nodes base (L ++ [l] ++ b :: R)).Nodup) :
    Ring base l.addr (Function.update next l.addr (next b.addr)) (Function.update size l.addr (l.units + b.units))
      (L ++ ⟨l.addr, l.units + b.units⟩ :: R) := by
  obtain ⟨z, D, hD⟩ : ∃ z D, R.map Block.addr ++ [base] = z :: D := List.exists_cons_of_ne_nil (by simp)
  have hright := h.right
  rw [hD] at hright
  obtain ⟨hbz, hright⟩ := Follows.cons_cons.mp hright
  have hC : nodes base (L ++ [l]) = nodes base L ++ [l.addr] := nodes_append ..
  obtain ⟨hlC, hlR⟩ := last_not_mem hnd hC
  rw [List.map_cons, List.mem_cons, not_or] at hlR
  refine ⟨?_, ?_, ?_, fun x hx => ?_⟩
  · rw [nodes_append, List.map_cons, List.append_assoc, List.cons_append, hD, hbz]
    refine Follows.relink (by rw [← hC]; exact h.left) hright hlC ?_
    rw [← hD, List.dropLast_concat]
    exact hlR.2
  · rw [nodes_append]
    simp
  · rw [Function.update_of_ne (ne_of_mem_of_not_mem (show base ∈ nodes base L from List.mem_cons_self) hlC), h.base_size]
  · rcases List.mem_cons.mp (List.perm_middle.mem_iff.mp hx) with rfl | hx
    · exact Function.update_self ..
    · rw [Function.update_of_ne, h.sizes x]
      · rcases List.mem_append.mp hx with hx | hx <;> simp [hx]
      · intro he
        rcases List.mem_append.mp hx with hx | hx
        · exact hlC (he ▸ List.mem_cons_of_mem _ (List.mem_map_of_mem hx))
        · exact hlR.2 (he ▸ List.mem_map_of_mem hx)

end Links
end Xv6Arm.Umalloc

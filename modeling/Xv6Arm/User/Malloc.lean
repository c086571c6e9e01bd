import Xv6Arm.User.MallocSpec
import Xv6Arm.Proc.Grow

/-!
# `malloc` on the kernel's `sbrk`

The loop of `malloc` goes once around the list. If it found no block it asks for
more memory, and then finds the block that it was given. The size it asks for is
a product of 64 bits that `sbrk` takes as an `int`, so a large request is one to
shrink the process, and the block that is then put into the list does not exist.
-/
namespace Xv6Arm.Umalloc
open Lib

variable {K : Type} {S : System K} {F : Prop} {base V n turns nunits : ℕ} {h : Heap K} {fl live : List Block} {b x : Block}

/-- The nodes are above the static header. -/
theorem Layout.le_node (hlay : Layout base V fl live) {a : ℕ} (ha : a ∈ nodes base fl) : base ≤ a := by
  rcases List.mem_cons.mp ha with rfl | ha
  · exact le_rfl
  · obtain ⟨x, hx, rfl⟩ := List.mem_map.mp ha
    exact (Nat.le_add_right ..).trans (hlay.base_before hx)

/-! ## The loop -/

/-- What the loop does when it is back at `freep`, with `k` turns left. -/
def askMore (turns nunits k : ℕ) : HM ℕ := do
  let c ← morecore turns nunits
  if c = 0 then pure 0
  else do
    let q ← ptr c
    search turns nunits k c q

/-- A node with a size is a free block. -/
theorem Holds.block_of_units (hh : Holds base V h fl live) {a : ℕ} (ha : a ∈ nodes base fl) (hn : 0 < nunits)
    (hle : nunits ≤ h.units a) : ∃ x ∈ fl, x.addr = a ∧ nunits ≤ x.units := by
  rcases List.mem_cons.mp ha with rfl | ha
  · rw [hh.ring.base_size] at hle
    omega
  · obtain ⟨x, hx, rfl⟩ := List.mem_map.mp ha
    exact ⟨x, hx, rfl, (hh.ring.sizes x hx).symm ▸ hle⟩

/-- The loop along the nodes `l` up to `freep`. -/
theorem ends_scan {prev : ℕ} {l : List ℕ} {Q : ℕ → Heap K → Prop} (hh : Holds base V h fl live) (hr : Reach S F V h)
    (hn : 0 < nunits) (hf : Follows h.next (prev :: l ++ [h.freep])) (hl : ∀ c ∈ prev :: l, c ∈ nodes base fl)
    (hnot : h.freep ∉ l) (hturns : l.length < n)
    (hfound : ∀ x ∈ fl, nunits ≤ x.units → ∀ (c : Block) fl' (h' : Heap K), c.units = nunits → c.stop = x.stop →
      Holds base V h' fl' (c :: live) → h'.sys = h.sys → Q (c.addr + 16) h')
    (hmore : (∀ c ∈ l ++ [h.freep], h.units c < nunits) → ∀ k, n = k + l.length + 1 →
      Ends S F (askMore turns nunits k) Q h) :
    Ends S F (search turns nunits n prev (h.next prev)) Q h := by
  have htake : ∀ {prev a : ℕ}, prev ∈ nodes base fl → a ∈ nodes base fl → h.next prev = a → nunits ≤ h.units a →
      Ends S F (takeBlock nunits prev a (h.units a)) Q h := by
    intro prev a hprev ha hnext hle
    obtain ⟨x, hx, rfl, hxu⟩ := hh.block_of_units ha hn hle
    obtain ⟨A, B, rfl⟩ := List.append_of_mem hx
    exact ends_takeBlock hh hr hprev hnext hn hxu (hfound x hx hxu)
  induction l generalizing prev n with
  | nil =>
    obtain ⟨n, rfl⟩ : ∃ k, n = k + 1 := ⟨n - 1, by simp only [List.length_nil] at hturns; omega⟩
    have hnext : h.next prev = h.freep := (Follows.cons_cons.mp hf).1
    have hfm := hh.ring.freep_mem
    rw [search, hnext]
    refine ends_size (hr.ok (hh.layout.node_le hfm)) ?_
    split <;> rename_i hle
    · exact htake (hl prev List.mem_cons_self) hfm hnext hle
    · refine ends_freep ?_
      rw [if_pos rfl]
      refine hmore (fun c hc => ?_) n rfl
      obtain rfl : c = h.freep := by simpa using hc
      exact Nat.lt_of_not_le hle
  | cons a l ih =>
    obtain ⟨n, rfl⟩ : ∃ k, n = k + 1 := ⟨n - 1, by simp only [List.length_cons] at hturns; omega⟩
    obtain ⟨hnext, hf⟩ := Follows.cons_cons.mp hf
    obtain ⟨hne, hnot⟩ := not_or.mp (List.mem_cons.not.mp hnot)
    have ham : a ∈ nodes base fl := hl a (List.mem_cons_of_mem _ List.mem_cons_self)
    have hok := hr.ok (hh.layout.node_le ham)
    rw [search, hnext]
    refine ends_size hok ?_
    split <;> rename_i hle
    · exact htake (hl prev List.mem_cons_self) ham hnext hle
    · refine ends_freep ?_
      rw [if_neg (Ne.symm hne)]
      refine ends_ptr hok (ih hf (fun c hc => hl c (List.mem_cons_of_mem _ hc)) hnot (by simpa using hturns) ?_)
      intro hall k hk
      refine hmore ?_ k (by simp only [List.length_cons]; omega)
      exact List.forall_mem_cons.mpr ⟨Nat.lt_of_not_le hle, hall⟩

/-- The loop from `freep` finds a block that is large enough, if there is one. -/
theorem ends_search {Q : ℕ → Heap K → Prop} (hh : Holds base V h fl live) (hr : Reach S F V h) (hn : 0 < nunits)
    (hturns : fl.length < n)
    (hfound : ∀ x ∈ fl, nunits ≤ x.units → ∀ (c : Block) fl' (h' : Heap K), c.units = nunits → c.stop = x.stop →
      Holds base V h' fl' (c :: live) → h'.sys = h.sys → Q (c.addr + 16) h')
    (hmore : (∀ b ∈ fl, b.units < nunits) → ∀ k, n = k + fl.length + 1 → Ends S F (askMore turns nunits k) Q h) :
    Ends S F (search turns nunits n h.freep (h.next h.freep)) Q h := by
  obtain ⟨l, hf, hperm⟩ := Follows.rotate hh.ring.follows hh.ring.freep_mem
  have hlen : l.length = fl.length := by simpa using hperm.length_eq
  have hnd : (h.freep :: l).Nodup := hperm.nodup_iff.mpr hh.layout.nodup
  refine ends_scan hh hr hn hf (fun c hc => hperm.mem_iff.mp hc) (List.nodup_cons.mp hnd).1 (by omega) hfound ?_
  intro hall k hk
  refine hmore (fun b hb => ?_) k (by omega)
  have hb' : b.addr ∈ h.freep :: l := hperm.mem_iff.mpr (List.mem_cons_of_mem _ (List.mem_map_of_mem hb))
  rw [← hh.ring.sizes b hb]
  exact hall _ ((List.perm_append_singleton h.freep l).mem_iff.mpr hb')

/-! ## More memory -/

/-- The size of the block that `morecore` makes. -/
def coreUnits (nunits : ℕ) : ℕ := if nunits < 4096 then 4096 else nunits

theorem le_coreUnits (nunits : ℕ) : nunits ≤ coreUnits nunits ∧ 4096 ≤ coreUnits nunits := by
  unfold coreUnits
  split <;> omega

/-- A header above all the nodes is not part of the list. -/
theorem Ring.setSize_above {f v : ℕ} {next size : ℕ → ℕ} (hring : Ring base f next size fl) (hlay : Layout base V fl live) :
    Ring base f next (Function.update size V v) fl := by
  have hne : ∀ a ∈ nodes base fl, a ≠ V := fun a ha => by
    have := hlay.node_le ha
    omega
  refine ⟨hring.follows, hring.freep_mem, ?_, fun b hb => ?_⟩
  · rw [Function.update_of_ne (hne base List.mem_cons_self)]
    exact hring.base_size
  · rw [Function.update_of_ne (hne _ (List.mem_cons_of_mem _ (List.mem_map_of_mem hb)))]
    exact hring.sizes b hb

/-- If there is no block that is large enough, `malloc` has no result or takes the end of the memory that the
allocator believes it was given. -/
theorem ends_askMore {k : ℕ} {r : ℤ} {t : K} {Q : ℕ → Heap K → Prop} (hh : Holds base V h fl live) (hbase : 0 < base)
    (hn : 0 < nunits) (hsmall : ∀ b ∈ fl, b.units < nunits) (hV : V + 16 * coreUnits nunits < 2 ^ 36)
    (hturns : fl.length < turns) (hk : fl.length + 1 < k)
    (hs : S.sbrk (toInt (coreUnits nunits * 16)) h.sys = .done r t)
    (hr : r = -1 ∨ r = V ∧ (F ∨ V + 16 * coreUnits nunits ≤ pgRoundUp (S.size t)))
    (hfail : r = -1 → Q 0 (h.setSys t))
    (hgot : r = V → ∀ (c : Block) fl' (h' : Heap K), c.units = nunits → c.stop = V + 16 * coreUnits nunits →
      Holds base (V + 16 * coreUnits nunits) h' fl' (c :: live) → h'.sys = t → Q (c.addr + 16) h') :
    Ends S F (askMore turns nunits k) Q h := by
  obtain ⟨hle, hcore⟩ := le_coreUnits nunits
  rw [askMore]
  refine ends_bind ?_
  rw [morecore]
  refine ends_sbrk hs ?_
  rcases hr with rfl | ⟨rfl, hreach⟩
  · rw [if_pos rfl]
    refine ends_pure ?_
    rw [if_pos rfl]
    exact ends_pure (hfail rfl)
  · rw [if_neg (by omega), Int.toNat_natCast]
    change Ends S F (setSize V (coreUnits nunits) >>= _) _ _
    have hr₁ : ∀ {h' : Heap K}, h'.sys = t → Reach S F (V + 16 * coreUnits nunits) h' := by
      rintro h' rfl
      exact hreach
    have hnew : Holds base (V + 16 * coreUnits nunits) ((h.setSys t).setSize V (coreUnits nunits)) fl
        (⟨V, coreUnits nunits⟩ :: live) :=
      ⟨hh.layout.extend (by omega), by simpa using hh.ring.setSize_above hh.layout⟩
    refine ends_setSize ((hr₁ rfl).ok (by omega)) (ends_bind ?_)
    refine ends_free (b := ⟨V, coreUnits nunits⟩) hnew (by simp) (hr₁ rfl) hV hturns ?_
    intro A m B h₂ hold hmu hlast hh₂ hsys
    have hsys₂ : h₂.sys = t := hsys
    obtain ⟨rfl, hstop⟩ := hlast fun x hx => hh.layout.inside x (List.mem_append_left _ hx)
    have hfm := hh₂.ring.freep_mem
    have hpos : h₂.freep ≠ 0 := (hbase.trans_le (hh₂.layout.le_node hfm)).ne'
    have hlen : A.length ≤ fl.length := by
      have hnd : (A.map Block.addr).Nodup := by
        have := (List.nodup_cons.mp hh₂.layout.nodup).2
        rw [List.map_append] at this
        exact this.of_append_left
      refine (List.subperm_of_subset hnd.of_map fun x hx => hold x ?_).length_le
      simpa using hx
    refine ends_freep (f := pure) (ends_pure ?_)
    rw [if_neg hpos]
    refine ends_ptr ((hr₁ hsys₂).ok (hh₂.layout.node_le hfm)) (ends_search hh₂ (hr₁ hsys₂) hn ?_ ?_ ?_)
    · simp only [List.length_append, List.length_cons, List.length_nil]
      omega
    · -- the block that is found is the new one: the others are too small
      intro x hx hxu c fl' h₃ hcu hcs hh₃ hsys₃
      obtain rfl : x = m := by
        rcases List.mem_append.mp hx with hx | hx
        · have := hsmall x (hold x (by simpa using hx))
          omega
        · simpa using hx
      exact hgot rfl c fl' h₃ hcu (hcs.trans hstop) hh₃ (hsys₃.trans hsys₂)
    · intro hall
      have := hall m (by simp)
      have hmu' : coreUnits nunits ≤ m.units := hmu
      omega

/-! ## The whole call -/

/-- A state of the heap between two calls: the list is set up at the first call. -/
structure Started (base V : ℕ) (h : Heap K) (fl live : List Block) : Prop where
  layout : Layout base V fl live
  ring : h.freep = 0 ∧ fl = [] ∨ Ring base h.freep h.next h.units fl

theorem unitsFor_eq {nbytes : ℕ} (hb : nbytes < 2 ^ 32) :
    unitsFor nbytes = (nbytes + 15) / 16 + 1 ∧ 0 < unitsFor nbytes ∧ nbytes ≤ 16 * (unitsFor nbytes - 1) ∧
      unitsFor nbytes ≤ 2 ^ 28 + 1 := by
  unfold unitsFor
  omega

theorem ends_malloc {nbytes : ℕ} {r : ℤ} {t : K} {Q : ℕ → Heap K → Prop} (hh : Started base V h fl live) (hbase : 0 < base)
    (hreach : V ≤ S.top h) (hb : nbytes < 2 ^ 32) (hV : V + 16 * coreUnits (unitsFor nbytes) < 2 ^ 36)
    (hturns : 2 * fl.length + 2 < n)
    (hs : S.sbrk (toInt (coreUnits (unitsFor nbytes) * 16)) h.sys = .done r t)
    (hr : (∀ x ∈ fl, x.units < unitsFor nbytes) →
      r = -1 ∨ r = V ∧ (F ∨ V + 16 * coreUnits (unitsFor nbytes) ≤ pgRoundUp (S.size t)))
    (hfound : ∀ x ∈ fl, unitsFor nbytes ≤ x.units → ∀ (c : Block) fl' (h' : Heap K), c.units = unitsFor nbytes →
      c.stop = x.stop → Holds base V h' fl' (c :: live) → h'.sys = h.sys → Q (c.addr + 16) h')
    (hfail : (∀ x ∈ fl, x.units < unitsFor nbytes) → r = -1 → ∀ h' : Heap K, Holds base V h' fl live → h'.sys = t → Q 0 h')
    (hgot : (∀ x ∈ fl, x.units < unitsFor nbytes) → r = V → ∀ (c : Block) fl' (h' : Heap K), c.units = unitsFor nbytes →
      c.stop = V + 16 * coreUnits (unitsFor nbytes) →
      Holds base (V + 16 * coreUnits (unitsFor nbytes)) h' fl' (c :: live) → h'.sys = t → Q (c.addr + 16) h') :
    Ends S F (malloc base n nbytes) Q h := by
  obtain ⟨-, hpos, -, -⟩ := unitsFor_eq hb
  have hloop : ∀ h' : Heap K, Holds base V h' fl live → h'.sys = h.sys →
      Ends S F (search n (unitsFor nbytes) n h'.freep (h'.next h'.freep)) Q h' := by
    intro h' hh' hsys
    have hr' : Reach S F V h' := by
      unfold Reach System.top
      rw [hsys]
      exact .inr hreach
    refine ends_search hh' hr' hpos (by omega) ?_ ?_
    · intro x hx hxu c fl' h₂ hcu hcs hh₂ hsys₂
      exact hfound x hx hxu c fl' h₂ hcu hcs hh₂ (hsys₂.trans hsys)
    · intro hsmall k hk
      refine ends_askMore hh' hbase hpos hsmall hV (by omega) (by omega) (hsys ▸ hs) (hr hsmall) ?_ ?_
      · exact fun hr => hfail hsmall hr _ ⟨hh'.layout, hh'.ring⟩ rfl
      · exact fun hr => hgot hsmall hr
  have hokb : Ok S F h base := .inr (hh.layout.base_le.trans hreach)
  rw [malloc]
  refine ends_freep ?_
  rcases hh.ring with ⟨hf, rfl⟩ | hring
  · rw [if_pos hf]
    refine ends_setFreep (ends_setPtr hokb (ends_setSize hokb (ends_ptr hokb ?_)))
    refine hloop (((h.setFreep base).setPtr base base).setSize base 0) ⟨hh.layout, ?_⟩ rfl
    refine ⟨Follows.cons_cons.mpr ⟨?_, List.IsChain.singleton _⟩, List.mem_cons_self, ?_, by simp⟩
    · simp
    · simp
  · have hne : h.freep ≠ 0 := (hbase.trans_le (hh.layout.le_node hring.freep_mem)).ne'
    rw [if_neg hne]
    exact ends_ptr (.inr ((hh.layout.node_le hring.freep_mem).trans hreach)) (hloop h ⟨hh.layout, hring⟩ rfl)

/-! ## On the kernel -/

/-- Process `p` on the kernel. -/
def kernelSystem {ι : Type} (m : Machine ioSig ι) (me p : ℕ) : System (Kernel ι) where
  size X := (X.procs p).sz
  sbrk n X := (sysSbrk p n).run (Kernel.step m me) X

/-- What is asked of a call of `malloc`: it does not shrink the process and returns 0, or `nbytes` bytes inside
the process and outside the blocks in use. -/
def Honest (S : System K) (nbytes : ℕ) (live : List Block) (h : Heap K) : Outcome ℕ (Heap K) → Prop
  | .done r h' => S.size h.sys ≤ S.size h'.sys ∧
      (r = 0 ∨ r + nbytes ≤ S.size h'.sys ∧ ∀ c ∈ live, r + nbytes ≤ c.addr ∨ c.stop ≤ r)
  | _ => False

/-- A block that was taken is what was asked for. -/
theorem Holds.honest {nbytes : ℕ} {c : Block} {h' : Heap K} (hh : Holds base V h' fl (c :: live)) (hb : nbytes < 2 ^ 32)
    (hcu : c.units = unitsFor nbytes) (hV : V = S.size h'.sys) (hsz : S.size h.sys ≤ S.size h'.sys) :
    Honest S nbytes live h (.done (c.addr + 16) h') := by
  obtain ⟨-, hpos, hbytes, -⟩ := unitsFor_eq hb
  have hin := hh.layout.inside c (by simp)
  have hap := (List.pairwise_cons.mp hh.layout.disjoint).1
  have hcs : c.stop = c.addr + 16 * c.units := rfl
  refine ⟨hsz, .inr ⟨by omega, fun d hd => ?_⟩⟩
  have hcd : c.stop ≤ d.addr ∨ d.stop ≤ c.addr := hap d hd
  omega

/-- The number that `sbrk` is given for a block of `nu` units. -/
theorem toInt_units {nu : ℕ} (hle : nu ≤ 2 ^ 28 + 1) :
    toInt (nu * 16) = if nu < 2 ^ 27 then (16 * nu : ℤ) else 16 * nu - 2 ^ 32 := by
  rw [toInt, BitVec.toInt_ofNat', Int.bmod_def]
  push_cast
  split <;> split <;> omega

theorem coreUnits_lt_iff {nbytes : ℕ} (hb : nbytes < 2 ^ 32) :
    coreUnits (unitsFor nbytes) < 2 ^ 27 ↔ nbytes ≤ 2 ^ 31 - 32 := by
  obtain ⟨heq, -, -, -⟩ := unitsFor_eq hb
  unfold coreUnits
  split <;> omega

section Claim
variable {ι : Type} {own : ℕ → Place}

/-- `malloc` is honest exactly if a free block is large enough, or the request for more memory is positive as an
`int`, or the kernel has no memory. -/
theorem malloc_honest_iff_sbrk (m : Machine ioSig ι) (me p base : ℕ) {nb : ℕ} (hb : nb < 2 ^ 32) (h : Heap (Kernel ι))
    (fl live : List Block)
    (hspace : h.sys.vm.mem.AddressSpace own (h.sys.procs p).pagetable (h.sys.procs p).sz)
    (hfree : (h.sys.vm.view own).Abstracts h.sys.vm) (hbase : 0 < base)
    (hh : Started base (h.sys.procs p).sz h fl live) :
    ∃ N, ∀ n ≥ N,
      (Honest (kernelSystem m me p) nb live h ((malloc base n nb).run (heapStep (kernelSystem m me p)) h) ↔
        (∃ b ∈ fl, unitsFor nb ≤ b.units) ∨ nb ≤ 2 ^ 31 - 32 ∨
          ∃ X', (sysSbrk p (toInt (coreUnits (unitsFor nb) * 16))).run (Kernel.step m me) h.sys = .done (-1) X') := by
  have hlt := hspace.sz_lt
  obtain ⟨-, hpos, -, hmax⟩ := unitsFor_eq hb
  have hcore : coreUnits (unitsFor nb) ≤ 2 ^ 28 + 1 := by
    unfold coreUnits
    split <;> omega
  have hint := toInt_units hcore
  have hsmall := coreUnits_lt_iff hb
  obtain ⟨r, X', hrun, hr⟩ := run_sysSbrk m me p (n := toInt (coreUnits (unitsFor nb) * 16))
    (by rw [hint]; split <;> omega) (by rw [hint]; split <;> omega) h.sys hspace hfree
  have htop : (h.sys.procs p).sz ≤ (kernelSystem m me p).top h := by
    simp only [System.top, kernelSystem, pgRoundUp, PGSIZE]
    omega
  refine ⟨2 * fl.length + 3, fun n hn => ⟨fun hon => ?_, fun hc => ?_⟩⟩
  · -- otherwise the block found is the one that does not exist, or an access to it is a fault
    by_contra hc
    obtain ⟨hnone, hbig, hno⟩ : (∀ b ∈ fl, b.units < unitsFor nb) ∧ ¬nb ≤ 2 ^ 31 - 32 ∧ r ≠ -1 := by
      refine ⟨fun b hb => ?_, fun hs => hc (.inr (.inl hs)), fun hr => hc (.inr (.inr ⟨X', hr ▸ hrun⟩))⟩
      by_contra hle
      exact hc (.inl ⟨b, hb, Nat.le_of_not_lt hle⟩)
    obtain ⟨hr, hsz⟩ := hr.resolve_left fun h => hno h.1
    have hnu : coreUnits (unitsFor nb) = unitsFor nb := if_neg (by rw [(unitsFor_eq hb).1]; omega)
    rw [hint, if_neg (mt hsmall.mp hbig)] at hsz
    have hends : Ends (kernelSystem m me p) True (malloc base n nb)
        (fun r h' => ¬Honest (kernelSystem m me p) nb live h (.done r h')) h := by
      refine ends_malloc hh hbase htop hb (by omega) (by omega) hrun (fun _ => .inr ⟨hr, .inl trivial⟩) ?_ ?_ ?_
      · exact fun x hx hle => absurd (hnone x hx) (Nat.not_lt.mpr hle)
      · exact fun _ h => absurd h hno
      · intro _ _ c fl' h' hcu hcs _ hsys hhon
        have hcs' : c.addr + 16 * c.units = (h.sys.procs p).sz + 16 * coreUnits (unitsFor nb) := hcs
        obtain ⟨-, h0 | ⟨hin, -⟩⟩ := hhon
        · omega
        · simp only [kernelSystem, hsys] at hin
          omega
    revert hon
    unfold Ends at hends
    split at hends <;> rename_i heq <;> rw [heq]
    · exact hends
    · exact id
    · exact id
  · -- more memory is asked for only if it is given, and then the new size is what the allocator believes
    have hmore : (∀ x ∈ fl, x.units < unitsFor nb) → r = -1 ∨ r = (h.sys.procs p).sz ∧
        ((X'.procs p).sz : ℤ) = (h.sys.procs p).sz + 16 * coreUnits (unitsFor nb) := by
      intro hnone
      rcases hc with ⟨b, hbm, hle⟩ | hs | ⟨Y, hY⟩
      · exact absurd (hnone b hbm) (Nat.not_lt.mpr hle)
      · rw [hint, if_pos (hsmall.mpr hs)] at hr
        omega
      · rw [hrun] at hY
        cases hY
        exact .inl rfl
    clear hc
    have hends : Ends (kernelSystem m me p) False (malloc base n nb)
        (fun r h' => Honest (kernelSystem m me p) nb live h (.done r h')) h := by
      refine ends_malloc hh hbase htop hb (by omega) (by omega) hrun (fun hnone => ?_) ?_ ?_ ?_
      · refine (hmore hnone).imp_right fun hgot => ⟨hgot.1, .inr ?_⟩
        simp only [kernelSystem, pgRoundUp, PGSIZE]
        omega
      · intro x hx _ c fl' h' hcu _ hh' hsys
        refine hh'.honest hb hcu ?_ ?_ <;> rw [hsys]
        · rfl
      · intro _ h1 h' _ hsys
        have hsame : (X'.procs p).sz = (h.sys.procs p).sz := by omega
        refine ⟨?_, .inl rfl⟩
        simp only [kernelSystem, hsys]
        omega
      · intro hnone hV c fl' h' hcu _ hh' hsys
        have hsz := (hmore hnone).resolve_left (by omega)
        refine hh'.honest hb hcu ?_ ?_ <;> simp only [kernelSystem, hsys] <;> omega
    unfold Ends at hends
    split at hends <;> rename_i heq <;> rw [heq]
    · exact hends
    · exact hends.2.elim
    · exact hends.elim

/-- The number that `sbrk` is given for a large request is negative, or 0, or 16. -/
theorem toInt_coreUnits {nb : ℕ} (hb : nb < 2 ^ 32) (hbig : ¬nb ≤ 2 ^ 31 - 32) :
    toInt (coreUnits (unitsFor nb) * 16) ≤ 16 ∧ -2 ^ 31 ≤ toInt (coreUnits (unitsFor nb) * 16) ∧
      (0 < toInt (coreUnits (unitsFor nb) * 16) ↔ 2 ^ 32 - 16 < nb) ∧
      (0 < toInt (coreUnits (unitsFor nb) * 16) → toInt (coreUnits (unitsFor nb) * 16) = 16) := by
  obtain ⟨heq, -, -, hmax⟩ := unitsFor_eq hb
  have hnu : coreUnits (unitsFor nb) = unitsFor nb := if_neg (by omega)
  rw [hnu, toInt_units hmax, if_neg (by omega)]
  omega

/-- `malloc` is honest exactly if a free block is large enough, or the request for more memory is positive as an
`int`, or, where `sbrk` is asked for 16 bytes instead of `2 ^ 32 + 16`, there is no memory for these. -/
theorem malloc_honest_iff (m : Machine ioSig ι) (me p base : ℕ) (nbytes : UInt32) (h : Heap (Kernel ι))
    (fl live : List Block)
    (hspace : h.sys.vm.mem.AddressSpace own (h.sys.procs p).pagetable (h.sys.procs p).sz)
    (hfree : (h.sys.vm.view own).Abstracts h.sys.vm) (hbase : 0 < base)
    (hh : Started base (h.sys.procs p).sz h fl live) :
    ∃ N, ∀ n ≥ N,
      (Honest (kernelSystem m me p) nbytes.toNat live h
          ((malloc base n nbytes.toNat).run (heapStep (kernelSystem m me p)) h) ↔
        (∃ b ∈ fl, unitsFor nbytes.toNat ≤ b.units) ∨ nbytes.toNat ≤ 2 ^ 31 - 32 ∨
          2 ^ 32 - 16 < nbytes.toNat ∧ ∃ s, (uvmalloc (h.sys.procs p).pagetable (h.sys.procs p).sz
            ((h.sys.procs p).sz + 16)).run vmStep h.sys.vm = .done 0 s) := by
  have hb := nbytes.toNat_lt
  generalize nbytes.toNat = nb at *
  obtain ⟨N, hN⟩ := malloc_honest_iff_sbrk m me p base hb h fl live hspace hfree hbase hh
  refine ⟨N, fun n hn => (hN n hn).trans (or_congr_right ?_)⟩
  by_cases hbig : nb ≤ 2 ^ 31 - 32
  · simp only [hbig, true_or]
  · obtain ⟨hle, hge, hpos, heq⟩ := toInt_coreUnits hb hbig
    simp only [hbig, false_or]
    rw [sysSbrk_fails_iff m me p hge (by omega) h.sys hspace hfree, hpos]
    refine and_congr_right fun hlarge => ?_
    rw [heq (hpos.mpr hlarge)]
    rfl

end Claim

/-- Process 0 with two pages, the second one not used to its end, and a free block of ten units. -/
def smallHeap : Heap (Kernel Unit) where
  freep := 0x100
  hdr a := if a = 0x100 then ⟨0x200, 0⟩ else ⟨0x100, 10⟩
  sys := { twoPages with procs := fun i => { twoPages.procs i with sz := 0x1800 } }

theorem smallHeap_space : smallHeap.sys.vm.mem.AddressSpace guardedOwn 0x40001000 0x1800 :=
  { guarded_space with sz_le := by norm_num }

theorem smallHeap_started : Started 0x100 0x1800 smallHeap [⟨0x200, 10⟩] [] := by
  refine ⟨⟨?_, ?_, ?_, ?_, ?_, ?_, ?_⟩, .inr ⟨?_, ?_, ?_, ?_⟩⟩ <;>
    simp [Block.Before, Block.stop, nodes, smallHeap, Heap.next, Heap.units, Follows]

theorem malloc_honest_iff_small :
    ∃ N, ∀ n ≥ N, Honest (kernelSystem Kernel.idle 0 0) 100 [] smallHeap
      ((malloc 0x100 n 100).run (heapStep (kernelSystem Kernel.idle 0 0)) smallHeap) := by
  obtain ⟨N, hN⟩ := malloc_honest_iff Kernel.idle 0 0 0x100 100 smallHeap [⟨0x200, 10⟩] [] smallHeap_space
    twoPages_free (by norm_num) smallHeap_started
  exact ⟨N, fun n hn => (hN n hn).mpr (.inl ⟨_, List.mem_cons_self, by decide⟩)⟩

/-- A request for `2 ^ 32 - 32` bytes takes 16 bytes from the process and returns an address beyond its end. -/
theorem malloc_shrinks :
    Started 0x100 0x1800 smallHeap [⟨0x200, 10⟩] [] ∧
    ∃ h', (malloc 0x100 9 4294967264).run (heapStep (kernelSystem Kernel.idle 0 0)) smallHeap = .done 0x1810 h' ∧
      (h'.sys.procs 0).sz = 0x17f0 :=
  ⟨smallHeap_started, _, rfl, rfl⟩

end Xv6Arm.Umalloc

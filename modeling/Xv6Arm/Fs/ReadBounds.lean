import Xv6Arm.Fs.Dirs
import Xv6Arm.Fs.Touch

/-!
# How much a read transfers

The user addresses that `fileread` writes to and the number it returns, for each
kind of file, and those that it has written to when it waits or panics. `readi` takes the length as a `uint`, so that a negative one passes
its test for overflow if it is not made up for by the offset.
-/
namespace Xv6Arm
open Lib Mem

variable {ι α : Type} {m : Machine ioSig ι} {me : ℕ} {X X' : Kernel ι} {own : ℕ → Place} {pagetable sz va n : ℕ}

/-! ## The loop of `readi` -/

/-- What `readi` of `n` bytes to `va` touches and returns. -/
structure Transfers (sz va n : ℕ) (r : Option (List UInt8)) (ws : List ℕ) : Prop where
  range : InRange va n ws
  first : 0 < n → (ws ≠ [] ↔ Mapped sz va)
  some_mapped : 0 < n → r ≠ none → Mapped sz va
  length : ∀ l, r = some l → l.length = n

theorem Transfers.none_left : Transfers sz va 0 (some []) [] :=
  ⟨.nil, fun h => absurd h (Nat.lt_irrefl 0), fun h => absurd h (Nat.lt_irrefl 0), by simp⟩

/-- What `readi` of `n` bytes to `va` has touched when it panics. -/
structure Within (sz va n : ℕ) (ws : List ℕ) : Prop where
  range : InRange va n ws
  mapped : ws ≠ [] → Mapped sz va

theorem Within.nil : Within sz va n [] := ⟨.nil, fun h => absurd rfl h⟩

theorem Transfers.within {r : Option (List UInt8)} {ws : List ℕ} (h : Transfers sz va n r ws) : Within sz va n ws := by
  refine ⟨h.range, fun hne => ?_⟩
  obtain ⟨a, ha⟩ := List.exists_mem_of_ne_nil ws hne
  obtain ⟨i, hi, -⟩ := h.range a ha
  exact (h.first (by omega)).mp hne

theorem readiFrom_ends {sb : Superblock} {ip fuel off : ℕ} (hfuel : n ≤ fuel)
    (h : X.vm.mem.AddressSpace own pagetable sz) (hva : va < 2 ^ 64) :
    Kernel.Ends m me (Within sz va n) (readiFrom sb ip fuel (.user pagetable va) off n) X fun r Y ws =>
      Transfers sz va n r ws ∧ Y.ftable = X.ftable ∧ Y.procs = X.procs := by
  induction fuel generalizing n va off X with
  | zero =>
    obtain rfl := Nat.le_zero.mp hfuel
    exact .ret ⟨.none_left, rfl, rfl⟩
  | succ fuel ih =>
    rw [readiFrom]
    by_cases hz : n = 0
    · subst hz
      rw [if_pos rfl]
      exact .ret ⟨.none_left, rfl, rfl⟩
    rw [if_neg hz]
    refine .seq_aside (aside_bmap sb ip _) .nil fun b X₁ h₁ => ?_
    refine .seq_aside (aside_inIo (bread b)) .nil fun bp X₂ h₂ => ?_
    have hrest : X₂.rest = X.rest := h₂.trans h₁
    have hvm : X₂.vm = X.vm := congrArg Prod.fst hrest
    have htab : X₂.ftable = X.ftable ∧ X₂.procs = X.procs := Prod.ext_iff.mp (congrArg Prod.snd hrest)
    have hk : 0 < min n (BSIZE - off % BSIZE) := by
      have := Nat.mod_lt off (show 0 < BSIZE by decide)
      omega
    generalize hkd : min n (BSIZE - off % BSIZE) = k at hk ⊢
    have hkn : k ≤ n := hkd ▸ Nat.min_le_left _ _
    have hlen : (getBytes bp (off % BSIZE) k).length = k := length_getBytes _ _ _
    have hne : getBytes bp (off % BSIZE) k ≠ [] := List.ne_nil_of_length_pos (by rwa [hlen])
    obtain ⟨ok, vm, hrun, hspace, hrange, hfirst, hok⟩ :=
      @copyout_touches ι m me X₂ own pagetable sz va (by rw [hvm]; exact h) hva _ hne
    rw [hlen] at hrange
    generalize hws : Kernel.touched m me (inVm (copyout pagetable va (getBytes bp (off % BSIZE) k))) X₂ = ws
      at hrange hfirst
    have hstop : Within sz va n (ws ++ []) := by
      rw [List.append_nil]
      exact ⟨hrange.mono hkn, hfirst.mp⟩
    refine .bind (.done hrun ?_)
    change Kernel.Ends m me (fun vs => Within sz va n (Kernel.touched m me (inVm _) X₂ ++ vs)) _ _
      fun b Z vs => Transfers sz va n b (Kernel.touched m me (inVm _) X₂ ++ vs) ∧ _ ∧ _
    rw [hws]
    cases ok with
    | false =>
      rw [if_neg (by simp)]
      refine .seq_aside (aside_inIo (brelse b)) hstop fun _ Z hZ => .ret ?_
      obtain ⟨hf, hp⟩ := Prod.ext_iff.mp (congrArg Prod.snd hZ)
      refine ⟨⟨hstop.range, fun _ => ?_, fun _ hne => absurd rfl hne, by simp⟩, hf.trans htab.1, hp.trans htab.2⟩
      rwa [List.append_nil]
    | true =>
      rw [if_pos rfl]
      refine .seq_aside (aside_inIo (brelse b)) hstop fun _ Z hZ => ?_
      obtain ⟨hf, hp⟩ := Prod.ext_iff.mp (congrArg Prod.snd hZ)
      have hvmZ : Z.vm = vm := congrArg Prod.fst hZ
      have hm := hok rfl
      refine .bind ((ih (show n - k ≤ fuel by omega) (by rw [hvmZ]; exact hspace)
        (Nat.mod_lt (va + k) (by decide))).mono ?_ fun r Y vs hY => ?_)
      · exact fun vs hvs => ⟨hrange.append hvs.range hkn, fun _ => hm⟩
      obtain ⟨htr, hYf, hYp⟩ := hY
      have hnil : ws ++ (vs ++ []) ≠ [] ↔ Mapped sz va :=
        ⟨fun _ => hm, fun _ => List.append_ne_nil_of_left_ne_nil (hfirst.mpr hm) _⟩
      have hr : InRange va n (ws ++ (vs ++ [])) := by
        rw [List.append_nil]
        exact hrange.append htr.range hkn
      cases r with
      | none =>
        exact .ret ⟨⟨hr, fun _ => hnil, fun _ hne => absurd rfl hne, by simp⟩, (hYf.trans hf).trans htab.1,
          (hYp.trans hp).trans htab.2⟩
      | some rest =>
        refine .ret ⟨⟨hr, fun _ => hnil, fun _ _ => hm, fun l hl => ?_⟩, (hYf.trans hf).trans htab.1,
          (hYp.trans hp).trans htab.2⟩
        cases hl
        rw [List.length_append, hlen, htr.length rest rfl]
        omega

/-! ## The three kinds of file -/

/-- What the result and the touched addresses of a loop that has done `i` bytes and has `n` to go are
bounded by. -/
structure Upto (base n i : ℕ) (r : ℤ) (ws : List ℕ) : Prop where
  range : InRange base n ws
  value : r = -1 ∨ i ≤ r ∧ r ≤ i + n

theorem Upto.stop {base i : ℕ} : Upto base n i i [] := ⟨.nil, .inr ⟨le_rfl, by omega⟩⟩

/-- One byte is copied, and if that succeeds the loop goes on. -/
theorem copy_byte_ends {p addr i : ℕ} {c : UInt8} {next : KM ℤ} {stop : KM ℤ}
    (h : X.vm.mem.AddressSpace own (X.procs p).pagetable sz) (hstop : stop.Only Aside)
    (hval : ∀ r Y Z, stop.run (Kernel.step m me) Y = .done r Z → r = i)
    (hnext : ∀ Y : Kernel ι, Y.procs = X.procs → Y.vm.mem.AddressSpace own (X.procs p).pagetable sz →
      Kernel.Ends m me (InRange ((addr + (i + 1)) % 2 ^ 64) n) next Y fun r _ ws =>
        Upto ((addr + (i + 1)) % 2 ^ 64) n (i + 1) r ws) :
    Kernel.Ends m me (InRange ((addr + i) % 2 ^ 64) (n + 1)) (do
      let pr ← proc (.get p)
      if ← copyout pr.pagetable ((addr + i) % 2 ^ 64) [c] then next else stop) X fun r _ ws =>
        Upto ((addr + i) % 2 ^ 64) (n + 1) i r ws := by
  refine .seq_op (o := .proc (.get p)) rfl rfl ?_
  obtain ⟨ok, vm, hrun, hspace, hrange, -, -⟩ :=
    @copyout_touches ι m me X own _ sz _ h (Nat.mod_lt (addr + i) (show 0 < 2 ^ 64 by decide)) [c] (by simp)
  generalize hws : Kernel.touched m me (inVm (copyout (X.procs p).pagetable ((addr + i) % 2 ^ 64) [c])) X = ws at hrange
  have happend : ∀ vs, InRange ((addr + (i + 1)) % 2 ^ 64) n vs → InRange ((addr + i) % 2 ^ 64) (n + 1) (ws ++ vs) := by
    intro vs hvs
    refine hrange.append ?_ (by simp)
    have hbase : ((addr + i) % 2 ^ 64 + [c].length) % 2 ^ 64 = (addr + (i + 1)) % 2 ^ 64 := by
      simp only [List.length_singleton]
      omega
    rwa [hbase]
  refine .bind (.done hrun ?_)
  change Kernel.Ends m me
    (fun vs => InRange _ _ (Kernel.touched m me (inVm (copyout (X.procs p).pagetable ((addr + i) % 2 ^ 64) [c])) X ++ vs)) _ _
    fun r Z vs => Upto _ _ _ r (Kernel.touched m me (inVm (copyout (X.procs p).pagetable ((addr + i) % 2 ^ 64) [c])) X ++ vs)
  rw [hws]
  cases ok with
  | true =>
    rw [if_pos rfl]
    refine (hnext { X with vm := vm } rfl hspace).mono happend fun r Z vs hvs => ⟨happend vs hvs.range, ?_⟩
    rcases hvs.value with hv | hv
    · exact .inl hv
    · exact .inr (by omega)
  | false =>
    rw [if_neg (by simp)]
    constructor
    · intro r Z hr
      rw [touched_of_aside hstop, hval r _ Z hr]
      exact ⟨happend [] .nil, .inr (by omega)⟩
    · intro _
      rw [touched_of_aside hstop]
      exact happend [] .nil

theorem pipereadFrom_ends {p pi addr i : ℕ} (h : X.vm.mem.AddressSpace own (X.procs p).pagetable sz) :
    Kernel.Ends m me (InRange ((addr + i) % 2 ^ 64) n) (pipereadFrom p pi addr n i) X fun r _ ws =>
      Upto ((addr + i) % 2 ^ 64) n i r ws := by
  induction n generalizing i X with
  | zero => exact .seq_aside (aside_pipe _) .nil fun _ Y _ => .ret .stop
  | succ n ih =>
    refine .seq_aside (aside_pipe _) .nil fun x Y hY => ?_
    split
    · exact .seq_aside (aside_pipe _) .nil fun _ Z _ => .ret .stop
    · refine .seq_aside (aside_pipe _) .nil fun c Z hZ => ?_
      have hrest : Z.rest = X.rest := hZ.trans hY
      have hvm : Z.vm = X.vm := congrArg Prod.fst hrest
      have hprocs : Z.procs = X.procs := congrArg (·.2.2) hrest
      have hspace : Z.vm.mem.AddressSpace own (Z.procs p).pagetable sz := by rwa [hvm, hprocs]
      refine copy_byte_ends hspace ((aside_pipe _).bind fun _ => trivial) ?_ ?_
      · intro r Y' Z' hr
        cases hr
        rfl
      · intro Y' hprocs' hspace'
        exact ih (X := Y') (by rwa [hprocs'])

theorem piperead_ends {p pi addr : ℕ} {n : ℤ} (h : X.vm.mem.AddressSpace own (X.procs p).pagetable sz)
    (haddr : addr < 2 ^ 64) :
    Kernel.Ends m me (InRange addr n.toNat) (piperead p pi addr n) X fun r _ ws => Upto addr n.toNat 0 r ws := by
  have hafter : ∀ Y : Kernel ι, Y.rest = X.rest → Kernel.Ends m me (InRange addr n.toNat) (do
      let x ← pipe (.get pi)
      if x.nread = x.nwrite ∧ x.writeopen = true then do
        pipe (.release pi)
        pure (-1)
      else pipereadFrom p pi addr n.toNat 0) Y fun r _ ws => Upto addr n.toNat 0 r ws := by
    intro Y hY
    refine .seq_aside (aside_pipe _) .nil fun x Z hZ => ?_
    split
    · exact .seq_aside (aside_pipe _) .nil fun _ _ _ => .ret ⟨.nil, .inl rfl⟩
    · have hrest := hZ.trans hY
      have hvm : Z.vm = X.vm := congrArg Prod.fst hrest
      have hprocs : Z.procs = X.procs := congrArg (·.2.2) hrest
      have hloop := @pipereadFrom_ends ι m me Z own sz n.toNat p pi addr 0 (by rwa [hvm, hprocs])
      rwa [Nat.add_zero, Nat.mod_eq_of_lt haddr] at hloop
  refine .seq_aside (aside_pipe _) .nil fun _ Y hY => .seq_aside (aside_pipe _) .nil fun x Z hZ => ?_
  refine .seq_op (o := .proc (.get p)) rfl rfl ?_
  split
  · refine .seq_aside (aside_pipe _) .nil fun _ U hU => .seq_aside (aside_pipe _) .nil fun _ V hV => ?_
    exact hafter V (hV.trans (hU.trans (hZ.trans hY)))
  · exact hafter Z (hZ.trans hY)

/-- The bytes that have been copied when the console runs dry and the read waits for more are counted too. -/
theorem consolereadFrom_ends {p dst i : ℕ} (h : X.vm.mem.AddressSpace own (X.procs p).pagetable sz) :
    Kernel.Ends m me (InRange ((dst + i) % 2 ^ 64) n) (consolereadFrom p dst n i) X fun r _ ws =>
      Upto ((dst + i) % 2 ^ 64) n i r ws := by
  induction n generalizing i X with
  | zero => exact .ret .stop
  | succ n ih =>
    refine .seq_aside (aside_cons _) .nil fun x Y hY => ?_
    have hvm : Y.vm = X.vm := congrArg Prod.fst hY
    have hprocs : Y.procs = X.procs := congrArg (·.2.2) hY
    cases x with
    | none => exact .ret ⟨.nil, .inl rfl⟩
    | some c =>
      dsimp only
      split
      · split
        · exact .seq_aside (aside_cons _) .nil fun _ _ _ => .ret .stop
        · exact .ret .stop
      · refine copy_byte_ends (by rwa [hvm, hprocs]) trivial ?_ ?_
        · intro r Y' Z' hr
          cases hr
          rfl
        · intro Y' hprocs' hspace'
          split
          · exact .ret ⟨.nil, .inr (by omega)⟩
          · exact ih (X := Y') (by rwa [hprocs'])

theorem readi_ends {sb : Superblock} {ip off size : ℕ} (hsize : (X.icache ip).d.size = size) (hn : n < 2 ^ 32)
    (h : X.vm.mem.AddressSpace own pagetable sz) (hva : va < 2 ^ 64) :
    Kernel.Ends m me (Within sz va (Env.readLen size off n)) (readi sb ip (.user pagetable va) off n) X fun r Y ws =>
      Transfers sz va (Env.readLen size off n) r ws ∧ Y.ftable = X.ftable ∧ Y.procs = X.procs := by
  refine .seq_op (o := .inode (.get ip)) rfl rfl ?_
  rw [hsize]
  by_cases hlt : size < off ∨ (off + n) % 2 ^ 32 < off
  · rw [if_pos hlt]
    have hz : Env.readLen size off n = 0 := by
      unfold Env.readLen
      split <;> omega
    rw [hz]
    exact .ret ⟨.none_left, rfl, rfl⟩
  · rw [if_neg hlt]
    have hlen : (if size < (off + n) % 2 ^ 32 then size - off else n) = Env.readLen size off n := by
      unfold Env.readLen
      split <;> split <;> omega
    dsimp only
    rw [hlen]
    exact readiFrom_ends le_rfl h hva

/-! ## `fileread` -/

/-- At most `max n 0` bytes from `addr` on are touched, and the result is -1 or at most as many. -/
structure ReadBounded (addr : ℕ) (n r : ℤ) (ws : List ℕ) : Prop where
  value : r = -1 ∨ 0 ≤ r ∧ r ≤ max n 0
  range : InRange addr n.toNat ws

theorem Upto.bounded {addr : ℕ} {n r : ℤ} {ws : List ℕ} (h : Upto addr n.toNat 0 r ws) : ReadBounded addr n r ws := by
  refine ⟨?_, h.range⟩
  rcases h.value with hr | hr
  · exact .inl hr
  · exact .inr (by omega)

/-- `readi` is given the length as a `uint`. That is more than was asked for only if the length is negative and the
offset does not make up for it. -/
theorem readLen_toUint_le (off size : ℕ) {n : ℤ} (hn : -2 ^ 31 ≤ n) (hn' : n < 2 ^ 31) :
    Env.readLen size off (toUint n) ≤ n.toNat ↔ ¬(n < 0 ∧ off + n < 0 ∧ off < size) := by
  have hlen : Env.readLen size off (toUint n) =
      if off + (toUint n : ℤ) < 2 ^ 32 then min (toUint n) (size - off) else 0 := by
    unfold Env.readLen
    split <;> split <;> omega
  have hu : (toUint n : ℤ) = n % 2 ^ 32 := Int.toNat_of_nonneg (by omega)
  rw [hlen]
  split <;> omega

theorem Within.bounded {addr off size : ℕ} {n : ℤ} {ws : List ℕ} (hn : -2 ^ 31 ≤ n) (hn' : n < 2 ^ 31)
    (h : Within sz addr (Env.readLen size off (toUint n)) ws)
    (hc : ¬(n < 0 ∧ off + n < 0 ∧ off < size ∧ Mapped sz addr)) : InRange addr n.toNat ws := by
  by_cases hz : Env.readLen size off (toUint n) ≤ n.toNat
  · exact h.range.mono hz
  · -- more than was asked for: then there is no page to write to
    have hneg := not_not.mp (mt (readLen_toUint_le off size hn hn').mpr hz)
    have hnil : ws = [] := by
      by_contra hne
      exact hc ⟨hneg.1, hneg.2.1, hneg.2.2, h.mapped hne⟩
    rw [hnil]
    exact .nil

theorem Transfers.bounded_iff {addr off size : ℕ} {n : ℤ} {o : Option (List UInt8)} {ws : List ℕ}
    (hn : -2 ^ 31 ≤ n) (hn' : n < 2 ^ 31) (h : Transfers sz addr (Env.readLen size off (toUint n)) o ws) :
    ReadBounded addr n (o.elim (-1) fun l => (l.length : ℤ)) ws ↔
      ¬(n < 0 ∧ off + n < 0 ∧ off < size ∧ Mapped sz addr) := by
  have hle := readLen_toUint_le off size hn hn'
  constructor
  · rintro hb ⟨h0, h1, h2, hm⟩
    have hpos : 0 < Env.readLen size off (toUint n) := by
      by_contra hz
      exact hle.mp (by omega) ⟨h0, h1, h2⟩
    obtain ⟨a, ha⟩ := List.exists_mem_of_ne_nil ws ((h.first hpos).mpr hm)
    obtain ⟨i, hi, -⟩ := hb.range a ha
    omega
  · intro hc
    refine ⟨?_, h.within.bounded hn hn' hc⟩
    cases o with
    | none => exact .inl rfl
    | some l =>
      have hlen := h.length l rfl
      refine .inr ⟨Int.natCast_nonneg _, ?_⟩
      by_cases hz : Env.readLen size off (toUint n) ≤ n.toNat
      · simp only [Option.elim]
        omega
      · have hneg := not_not.mp (mt hle.mpr hz)
        exact absurd ⟨hneg.1, hneg.2.1, hneg.2.2, h.some_mapped (by omega) (by simp)⟩ hc

/-- The read is from an inode with a negative length that the offset does not make up for, and there is a byte to
read and a page to put it. -/
def Kernel.Overread (X : Kernel ι) (p f addr size : ℕ) (n : ℤ) : Prop :=
  (X.ftable f).readable = true ∧ (X.ftable f).type = .inode ∧ n < 0 ∧ (X.ftable f).off + n < 0 ∧
    (X.ftable f).off < size ∧ X.vm.user (X.procs p).pagetable addr ≠ none

/-- Reads of anything but an inode are bounded, also those that wait. -/
theorem fileread_other_ends {sb : Superblock} {p f addr : ℕ} {n : ℤ}
    (hother : ¬((X.ftable f).readable = true ∧ (X.ftable f).type = .inode))
    (h : X.vm.mem.AddressSpace own (X.procs p).pagetable sz) (haddr : addr < 2 ^ 64) :
    Kernel.Ends m me (InRange addr n.toNat) (fileread sb p f addr n) X fun r _ ws => ReadBounded addr n r ws := by
  refine .seq_op (o := .file (.get f)) (Y := X) rfl rfl ?_
  cases hread : (X.ftable f).readable with
  | false => exact .ret ⟨.inl rfl, .nil⟩
  | true =>
    rw [if_neg (by simp)]
    cases htype : (X.ftable f).type with
    | none => exact .panic .nil
    | pipe => exact (piperead_ends h haddr).mono (fun _ => id) fun r _ ws hr => hr.bounded
    | device =>
      dsimp only
      split
      · have hloop := @consolereadFrom_ends ι m me _ own sz n.toNat _ addr 0 h
        rw [Nat.add_zero, Nat.mod_eq_of_lt haddr] at hloop
        exact hloop.mono (fun _ => id) fun r _ ws hr => hr.bounded
      · exact .ret ⟨.inl rfl, .nil⟩
    | inode => exact absurd ⟨hread, htype⟩ hother

theorem fileread_inode_ends {sb : Superblock} {p f addr size : ℕ} {n : ℤ} (htype : (X.ftable f).type = .inode)
    (hread : (X.ftable f).readable = true) (h : X.vm.mem.AddressSpace own (X.procs p).pagetable sz)
    (haddr : addr < 2 ^ 64)
    (hlock : ∀ Y, (ilock sb (X.ftable f).ip).run (Kernel.step m me) X = .done () Y →
      (Y.icache (X.ftable f).ip).d.size = size) :
    Kernel.Ends m me (Within sz addr (Env.readLen size (X.ftable f).off (toUint n))) (fileread sb p f addr n) X
      fun r _ ws => ∃ o, Transfers sz addr (Env.readLen size (X.ftable f).off (toUint n)) o ws ∧
        r = o.elim (-1) fun l => (l.length : ℤ) := by
  refine .seq_op (o := .file (.get f)) rfl rfl ?_
  rw [if_neg (by simp [hread]), htype]
  dsimp only
  refine .bind ⟨fun _ Y hr => ?_, fun _ => ?_⟩
  swap
  · rw [touched_of_aside (aside_ilock _ _)]
    exact .nil
  have hsize := hlock Y hr
  have hrest := rest_of_aside (aside_ilock _ _) hr
  have hvm : Y.vm = X.vm := congrArg Prod.fst hrest
  have hf : Y.ftable = X.ftable := congrArg (·.2.1) hrest
  have hp : Y.procs = X.procs := congrArg (·.2.2) hrest
  rw [touched_of_aside (aside_ilock _ _)]
  refine .seq_op (o := .proc (.get p)) (Y := Y) rfl rfl (.seq_op (o := .file (.get f)) (Y := Y) rfl rfl ?_)
  rw [hf, hp]
  have hu : toUint n < 2 ^ 32 := by
    unfold toUint
    omega
  refine .bind ((readi_ends hsize hu (by rwa [hvm]) haddr).mono (fun _ => id) fun o Z ws hZ => ?_)
  have hend : ∀ (r : ℤ) (U : Kernel ι), r = o.elim (-1) (fun l => (l.length : ℤ)) →
      Kernel.Ends m me (fun vs => Within sz addr (Env.readLen size (X.ftable f).off (toUint n)) ([] ++ (ws ++ vs))) (do
        let r ← pure r
        iunlock (X.ftable f).ip
        pure r) U fun r _ vs => ∃ o,
          Transfers sz addr (Env.readLen size (X.ftable f).off (toUint n)) o ([] ++ (ws ++ vs)) ∧
            r = o.elim (-1) fun l => (l.length : ℤ) := by
    intro r U hr
    refine .bind (.ret (.seq_aside (aside_inode _) ?_ fun _ _ _ => .ret ⟨o, ?_, hr⟩)) <;>
      rw [List.nil_append, List.nil_append, List.append_nil]
    · exact hZ.1.within
    · exact hZ.1
  cases o with
  | none => exact hend (-1) Z rfl
  | some l =>
    dsimp only
    split
    · exact .seq_op (o := .file (.setOff f _)) rfl rfl (hend _ _ rfl)
    · exact hend _ Z rfl

/-- Both kinds of read together. -/
theorem fileread_ends {sb : Superblock} {p f addr size : ℕ} {n : ℤ}
    (h : X.vm.mem.AddressSpace own (X.procs p).pagetable sz) (haddr : addr < 2 ^ 64) (hn : -2 ^ 31 ≤ n) (hn' : n < 2 ^ 31)
    (hlock : (X.ftable f).type = .inode → ∀ Y, (ilock sb (X.ftable f).ip).run (Kernel.step m me) X = .done () Y →
      (Y.icache (X.ftable f).ip).d.size = size) :
    Kernel.Ends m me (fun ws => ¬X.Overread p f addr size n → InRange addr n.toNat ws) (fileread sb p f addr n) X
      fun r _ ws => ReadBounded addr n r ws ↔ ¬X.Overread p f addr size n := by
  by_cases hin : (X.ftable f).readable = true ∧ (X.ftable f).type = .inode
  · obtain ⟨hread, htype⟩ := hin
    have hover : X.Overread p f addr size n ↔
        n < 0 ∧ (X.ftable f).off + n < 0 ∧ (X.ftable f).off < size ∧ Mapped sz addr := by
      rw [Kernel.Overread, user_ne_none_iff h]
      simp only [hread, htype, true_and]
    rw [hover]
    refine (fileread_inode_ends htype hread h haddr (hlock htype)).mono ?_ ?_
    · exact fun ws hws => hws.bounded hn hn'
    · rintro r Y ws ⟨o, htr, rfl⟩
      exact htr.bounded_iff hn hn'
  · refine (fileread_other_ends hin h haddr).mono ?_ ?_
    · exact fun ws hws _ => hws
    · exact fun r Y ws hb => ⟨fun _ hall => hin ⟨hall.1, hall.2.1⟩, fun _ => hb⟩

/-! ## What a call can do besides returning -/

namespace Env
variable {E : Env} {v : View}

theorem wp_pipe_any {o : PipeOp} {Φ : o.Res → Kernel Unit → View → Prop} {X : Kernel Unit} (hw : E.mode.waits)
    (h : ∀ r Y, Φ r Y v) : E.wp (pipe o) Φ X v := by
  refine wp_pipe ?_
  cases o with
  | init pi | release pi | get pi | put pi c | take pi => exact h _ _
  | close pi w =>
    simp only [Kernel.pipeStep, Kernel.pipeClose]
    split
    · exact hw
    · exact h _ _
  | acquire pi | sleepWrite pi | sleepRead pi =>
    simp only [Kernel.pipeStep, Kernel.pipeSleep]
    split
    · exact h _ _
    · exact hw

theorem wp_cons_any {o : ConsOp} {Φ : o.Res → Kernel Unit → View → Prop} {X : Kernel Unit} (hw : E.mode.waits)
    (h : ∀ r Y, Φ r Y v) : E.wp (cons o) Φ X v := by
  refine wp_cons ?_
  cases o with
  | putc c | unget c => exact h _ _
  | getc =>
    simp only [Kernel.consStep]
    split
    · exact h _ _
    · split
      · exact h _ _
      · exact hw

theorem wp_copyout_any {Φ : Bool → Kernel Unit → View → Prop} {X : Kernel Unit} (pagetable va : ℕ) (src : List UInt8)
    (h : ∀ ok Y, Φ ok Y v) : E.wp (inVm (copyout pagetable va src)) Φ X v := by
  refine wp_vm ?_
  obtain ⟨ok, vm, hrun⟩ := run_copyout_done X.vm pagetable va src
  rw [hrun]
  exact h _ _

theorem wp_piperead_any {X : Kernel Unit} (hw : E.mode.waits) (p pi addr : ℕ) (n : ℤ) :
    E.wp (piperead p pi addr n) (fun _ _ _ => True) X v := by
  have hloop : ∀ (k i : ℕ) (Y : Kernel Unit), E.wp (pipereadFrom p pi addr k i) (fun _ _ _ => True) Y v := by
    intro k
    induction k with
    | zero => exact fun i Y => wp_seq (wp_pipe_any hw fun _ _ => wp_ret trivial)
    | succ k ih =>
      intro i Y
      refine wp_seq (wp_pipe_any hw fun x _ => ?_)
      split
      · exact wp_seq (wp_pipe_any hw fun _ _ => wp_ret trivial)
      · refine wp_seq (wp_pipe_any hw fun c _ => wp_seq (wp_proc ?_))
        refine wp_seq (wp_copyout_any _ _ _ fun ok Z => ?_)
        split
        · exact ih (i + 1) Z
        · exact wp_seq (wp_pipe_any hw fun _ _ => wp_ret trivial)
  have hafter : ∀ Y : Kernel Unit, E.wp (do
      let x ← pipe (.get pi)
      if x.nread = x.nwrite ∧ x.writeopen = true then do
        pipe (.release pi)
        pure (-1)
      else pipereadFrom p pi addr n.toNat 0) (fun _ _ _ => True) Y v := by
    intro Y
    refine wp_seq (wp_pipe_any hw fun x Z => ?_)
    split
    · exact wp_seq (wp_pipe_any hw fun _ _ => wp_ret trivial)
    · exact hloop _ _ Z
  refine wp_seq (wp_pipe_any hw fun _ _ => wp_seq (wp_pipe_any hw fun x _ => wp_seq (wp_proc ?_)))
  rw [Kernel.procStep, allows_done]
  dsimp only
  split
  · exact wp_seq (wp_pipe_any hw fun _ _ => wp_seq (wp_pipe_any hw fun _ Z => hafter Z))
  · exact hafter _

theorem wp_consoleread_any {X : Kernel Unit} (hw : E.mode.waits) (p dst : ℕ) (n : ℤ) :
    E.wp (consoleread p dst n) (fun _ _ _ => True) X v := by
  suffices hloop : ∀ (k i : ℕ) (Y : Kernel Unit), E.wp (consolereadFrom p dst k i) (fun _ _ _ => True) Y v from hloop _ _ _
  intro k
  induction k with
  | zero => exact fun i Y => wp_ret trivial
  | succ k ih =>
    intro i Y
    refine wp_seq (wp_cons_any hw fun c Z => ?_)
    cases c with
    | none => exact wp_ret trivial
    | some c =>
      dsimp only
      split
      · split
        · exact wp_seq (wp_cons_any hw fun _ _ => wp_ret trivial)
        · exact wp_ret trivial
      · refine wp_seq (wp_proc (wp_seq (wp_copyout_any _ _ _ fun ok U => ?_)))
        split
        · split
          · exact wp_ret trivial
          · exact ih (i + 1) U
        · exact wp_ret trivial

/-- A read of a file in order returns; other reads may wait. -/
theorem wp_fileread_any {X : Kernel Unit} {f i : ℕ} (addr : ℕ) (n : ℤ)
    (hnone : (X.ftable f).type = .none → E.mode.panics "fileread")
    (hwait : (X.ftable f).type = .pipe ∨ (X.ftable f).type = .device → E.mode.waits)
    (hfile : (X.ftable f).type = .inode → E.Reads v ∧ (X.ftable f).ip ∉ v.locked ∧
      ((v.lock (X.ftable f).ip).load (X.ftable f).ip).Consistent E.sb (X.ftable f).ip i) :
    E.wp (fileread E.sb E.me f addr n) (fun _ _ _ => True) X v := by
  refine wp_seq (wp_file ?_)
  rw [fileStep, allows_done]
  split
  · exact wp_ret trivial
  cases htype : (X.ftable f).type with
  | none => exact wp_panic (hnone htype)
  | pipe => exact wp_piperead_any (hwait (.inl htype)) _ _ _ _
  | device =>
    dsimp only
    split
    · exact wp_consoleread_any (hwait (.inr htype)) _ _ _
    · exact wp_ret trivial
  | inode =>
    obtain ⟨hreads, hlock, hc⟩ := hfile htype
    obtain ⟨k, he⟩ := hc.ent
    refine wp_seq (wp_ilock he hc.live.1 (.inl hlock) hreads (.inr (.inl hc.live.2)) fun _ _ => ?_)
    refine wp_seq (wp_proc (wp_seq (wp_file ?_)))
    rw [fileStep, allows_done]
    have hu : toUint n < 2 ^ 32 := by
      unfold toUint
      omega
    have hend : ∀ (r : ℤ) (Y : Kernel Unit), E.wp (do
        let r ← pure r
        iunlock (X.ftable f).ip
        pure r) (fun _ _ _ => True) Y ((v.lock (X.ftable f).ip).load (X.ftable f).ip) := by
      intro r Y
      exact wp_seq (wp_ret (wp_seq (wp_iunlock he (Finset.mem_insert_self _ _) (wp_ret trivial))))
    refine wp_seq (wp_readi (.any E) hc.opened hreads hc.solid hu trivial (fun l vm _ _ _ => ?_) fun vm _ => hend _ _)
    dsimp only
    split
    · exact wp_seq (wp_file (hend _ _))
    · exact hend _ _

end Env

/-- When a read transfers no more than was asked for: always, except from an inode with a negative length
that the offset does not make up for, if there is a byte to read and a page to put it. A read that waits or panics has
not transferred more until then either. -/
theorem fileread_bounded_iff {sb : Superblock} (hL : Layout sb) {me f addr i : ℕ} {n : ℤ} {X : Kernel Unit} {v : View}
    {s : KState} (hs : Holds sb me X v s) (has : X.vm.mem.AddressSpace own (X.procs me).pagetable sz)
    (haddr : addr < 2 ^ 64) (hn : -2 ^ 31 ≤ n) (hn' : n < 2 ^ 31)
    (hfile : (X.ftable f).type = .inode → (X.ftable f).ip ∉ v.locked ∧
      ((v.lock (X.ftable f).ip).load (X.ftable f).ip).Consistent sb (X.ftable f).ip i) :
    match (fileread sb me f addr n).run (kStep me) s with
    | .done r _ =>
      ReadBounded addr n r (Kernel.touched (ioStep me) me (fileread sb me f addr n) s) ↔
        ¬X.Overread me f addr (v.ino i).size n
    | .panic msg =>
      (msg = "fileread" ∧ (X.ftable f).type = .none ∨ msg = "bget: no buffers" ∧ NBUF ≤ v.log.lh.length) ∧
        (¬X.Overread me f addr (v.ino i).size n →
          InRange addr n.toNat (Kernel.touched (ioStep me) me (fileread sb me f addr n) s))
    | .blocked =>
      ((X.ftable f).type = .pipe ∨ (X.ftable f).type = .device) ∧
        InRange addr n.toNat (Kernel.touched (ioStep me) me (fileread sb me f addr n) s) := by
  let E : Env := ⟨sb, hL, me, ⟨fun msg => msg = "fileread" ∧ (X.ftable f).type = .none ∨
    msg = "bget: no buffers" ∧ NBUF ≤ v.log.lh.length, (X.ftable f).type = .pipe ∨ (X.ftable f).type = .device,
    fun _ => True⟩, 0⟩
  have hreads : (X.ftable f).type = .inode → E.Reads v := fun htype =>
    Env.reads_of_panics (hfile htype).2.held fun hle => .inr ⟨rfl, hle⟩
  have hrun := E.run (Env.wp_fileread_any (E := E) (f := f) (i := i) addr n (fun h => .inl ⟨rfl, h⟩) id
    fun htype => ⟨hreads htype, hfile htype⟩) hs
  have htabs : s.vm = X.vm ∧ s.ftable = X.ftable ∧ s.procs = X.procs := by
    obtain ⟨w, io, c, rfl, -⟩ := hs
    exact ⟨rfl, rfl, rfl⟩
  obtain ⟨hvm, hft, hprocs⟩ := htabs
  have hover : s.Overread me f addr (v.ino i).size n = X.Overread me f addr (v.ino i).size n := by
    simp only [Kernel.Overread, hvm, hft, hprocs]
  have hsize : (s.ftable f).type = .inode → ∀ t, (ilock sb (s.ftable f).ip).run (kStep me) s = .done () t →
      (t.icache (s.ftable f).ip).d.size = (v.ino i).size := by
    rw [hft]
    intro htype t ht
    obtain ⟨hlock, hc⟩ := hfile htype
    obtain ⟨k, he⟩ := hc.ent
    have hl := E.run (Env.wp_ilock (E := E) (v := v) (Φ := fun _ Y v' => v' = (v.lock (X.ftable f).ip).load (X.ftable f).ip)
      he hc.live.1 (.inl hlock) (hreads htype) (.inr (.inl hc.live.2)) fun _ _ => rfl) hs
    have ht' : (ilock E.sb (X.ftable f).ip).run (kStep E.me) s = .done () t := ht
    rw [ht'] at hl
    obtain ⟨Y, v', ⟨w, io, c, rfl, -, -, hcr⟩, rfl⟩ := hl
    exact congrArg Dinode.size (hcr.cached _ i k he (Set.mem_insert _ _))
  have hends := @fileread_ends _ (ioStep me) me s own sz sb me f addr _ n (by rwa [hvm, hprocs]) haddr hn hn' hsize
  rw [hover] at hends
  cases hr : (fileread sb me f addr n).run (kStep me) s with
  | done r t => exact hends.returns r t hr
  | panic msg =>
    rw [hr] at hrun
    refine ⟨hrun, hends.stops fun r t h => ?_⟩
    cases hr.symm.trans h
  | blocked =>
    rw [hr] at hrun
    have hends' := hends.stops fun r t h => by cases hr.symm.trans h
    refine ⟨hrun, hends' fun hall => ?_⟩
    rcases hrun with ht | ht <;> cases ht.symm.trans hall.2.1

/-! ### A directory that is open for reading -/

/-- Process 0 has the two pages of `guarded`, and file 0 is the inode at entry 0 of the cache. -/
def dirReader : Kernel Unit :=
  { bare with
    vm := guarded
    ftable := fun _ =>
      { type := .inode, ref := 1, readable := true, writable := false, pipe := 0, ip := 0, off := 0, major := 0 }
    procs := fun i => { bare.procs i with sz := 0x2000, pagetable := 0x40001000 } }

/-- The root of the small disk is at that entry, and nobody has it locked. -/
def readState : KState :=
  dirReader.conc (openState small smallDisk 0 (only 0 1) 0 dirReader).io
    (Icache.modify (openCache small smallDisk 0 (only 0 1) 0) 0 fun x => { x with lock := none })

def readView : View := (View.opened small smallDisk (only 0 1) 0).unlock 0

theorem readState_holds : Holds small 0 dirReader readView readState := by
  obtain ⟨w, io, c, hs, hb, hw, hc⟩ := @holds_only small smallDisk 0 dirReader 0 1 (by decide) smallDisk_used
  have hio : (openState small smallDisk 0 (only 0 1) 0 dirReader).io = io := by rw [hs]; rfl
  have hcache : openCache small smallDisk 0 (only 0 1) 0 = c := congrArg Kernel.icache hs
  rw [readState, hio, hcache]
  exact ⟨w, io, _, rfl, hb, hw.of_eq rfl rfl rfl rfl rfl rfl rfl, Env.setLock_none hc (by decide)⟩

theorem readView_consistent : ((readView.lock 0).load 0).Consistent small 0 1 := by
  have hview : (readView.lock 0).load 0 = View.opened small smallDisk (only 0 1) 0 := by
    simp [readView, View.lock, View.load, View.unlock, View.opened]
  rw [hview]
  exact (small_isDir (f := only 0 1) (k := 0) rfl).toConsistent

/-- A read of five bytes. -/
theorem fileread_bounded_iff_dir :
    match (fileread small 0 0 0x1000 5).run (kStep 0) readState with
    | .done r _ => ReadBounded 0x1000 5 r (Kernel.touched (ioStep 0) 0 (fileread small 0 0 0x1000 5) readState)
    | _ => False := by
  have h := @fileread_bounded_iff guardedOwn 0x2000 small small_layout 0 0 0x1000 1 5 dirReader readView readState
    readState_holds guarded_space (by decide)
    (by decide) (by decide) fun _ => ⟨by decide, readView_consistent⟩
  generalize (fileread small 0 0 0x1000 5).run (kStep 0) readState = o at h ⊢
  cases o with
  | done r t => exact h.mpr (by simp [Kernel.Overread])
  | panic msg =>
    rcases h.1 with ⟨-, h⟩ | ⟨-, h⟩
    · cases h
    · exact absurd h (by decide)
  | blocked =>
    rcases h.1 with h | h <;> cases h

/-- With length -1 the whole directory is read. -/
theorem fileread_negative_length : ∃ t, (fileread small 0 0 0x1000 (-1)).run (kStep 0) readState = .done 48 t ∧
    ¬ReadBounded 0x1000 (-1) 48 (Kernel.touched (ioStep 0) 0 (fileread small 0 0 0x1000 (-1)) readState) := by
  have hval : Outcome.value ((fileread small 0 0 0x1000 (-1)).run (kStep 0) readState) = some 48 := by decide +kernel
  obtain ⟨t, ht⟩ := Outcome.eq_done hval
  refine ⟨t, ht, fun hb => ?_⟩
  have := hb.value
  omega

end Xv6Arm

import Xv6Arm.Fs.File
import Xv6Arm.Fs.Mount
import Xv6Arm.Lib.Ring
import Xv6Arm.Vm.Confine
import Xv6Arm.Vm.UserCopy

/-!
# What a read takes from a pipe and what it delivers

`piperead` takes each byte out of the ring before it copies it to user memory.
A copy that fails ends the call, and the byte is in neither place.
-/
namespace Xv6Arm
open Lib Mem

section OneByte
variable {s : Vm} {own : ℕ → Place} {pagetable sz : ℕ}

theorem user_ne_none_iff (h : s.mem.AddressSpace own pagetable sz) (x : ℕ) : s.user pagetable x ≠ none ↔ Mapped sz x := by
  by_cases hx : Mapped sz x
  · obtain ⟨q, ap, -, ha, hq⟩ := h.addr_mapped hx
    simp [Vm.user, ha, hq, hx]
  · simp [Vm.user, h.addr_unmapped hx, hx]

/-- A byte with no place to go. -/
theorem run_copyout_unmapped (h : s.mem.AddressSpace own pagetable sz) {va : ℕ} (hva : ¬Mapped sz va) (c : UInt8) :
    (copyout pagetable va [c]).run vmStep s = .done false s := by
  rw [copyout, List.length_singleton, copyoutFrom, if_neg (List.cons_ne_nil c [])]
  simp only [Prog.bind_eq]
  rw [Prog.run_bind_done vmStep (run_walkaddr s pagetable _), addr_pgRoundDown, h.addr_unmapped hva, if_pos rfl]
  rfl

theorem dist_wrap (x a : ℕ) : dist (x % 2 ^ 64) a = dist x a := by
  unfold dist
  omega

theorem dist_succ {x a : ℕ} : dist (x + 1) a = if dist x a = 0 then 2 ^ 32 - 1 else dist x a - 1 := by
  unfold dist
  split <;> omega

end OneByte

variable {ι : Type} {own : ℕ → Place} {p pi addr sz : ℕ}

/-- The bytes in the ring. -/
def Pipe.fill (x : Pipe) : ℕ := Ring.count (2 ^ 32) x.nread x.nwrite

/-- The bytes that were taken from `x` when `x'` is what is left. -/
def Pipe.removed (x x' : Pipe) : List UInt8 := Ring.contents PIPESIZE (2 ^ 32) x.data x.nread x'.nread

/-- Every byte that was taken is in user memory from `addr` on, no other byte there has changed, and `r`
is their number, or -1 if there are none. -/
structure Delivered (p pi addr : ℕ) (X X' : Kernel ι) (r : ℤ) : Prop where
  stored : ∀ a, X'.vm.user (X.procs p).pagetable a =
    if dist addr a < ((X.pipes pi).removed (X'.pipes pi)).length then ((X.pipes pi).removed (X'.pipes pi))[dist addr a]?
    else X.vm.user (X.procs p).pagetable a
  value : r ≠ -1 → r = ((X.pipes pi).removed (X'.pipes pi)).length
  failed : r = -1 → (X.pipes pi).removed (X'.pipes pi) = []

/-- The loop with `n` bytes to go has stored `k` bytes from `base` on and has taken `t` from the ring. -/
structure ReadLoop (pi base pagetable sz n : ℕ) (X X' : Kernel ι) (k t : ℕ) : Prop where
  nread : (X'.pipes pi).nread = ((X.pipes pi).nread + t) % 2 ^ 32
  user : ∀ a, X'.vm.user pagetable a =
    if dist base a < k then some ((X.pipes pi).data (((X.pipes pi).nread + dist base a) % PIPESIZE))
    else X.vm.user pagetable a
  mapped : ∀ j < k, Mapped sz (base + j)
  le : k ≤ min n (X.pipes pi).fill
  all : k = min n (X.pipes pi).fill → t = k
  fault : k < min n (X.pipes pi).fill → t = k + 1 ∧ ¬Mapped sz (base + k)

/-- Nothing is taken because nothing is asked for or there is nothing. -/
theorem ReadLoop.stop {base pagetable n : ℕ} {X X' : Kernel ι} (hr : (X.pipes pi).nread < 2 ^ 32)
    (hn : min n (X.pipes pi).fill = 0) (hpipe : (X'.pipes pi).nread = (X.pipes pi).nread) (hvm : X'.vm = X.vm) :
    ReadLoop pi base pagetable sz n X X' 0 0 where
  nread := by rw [hpipe]; omega
  user a := by rw [hvm, if_neg (Nat.not_lt_zero _)]
  mapped j hj := absurd hj (Nat.not_lt_zero j)
  le := Nat.zero_le _
  all _ := rfl
  fault hlt := by omega

theorem Pipe.fill_take {x : Pipe} (hr : x.nread < 2 ^ 32) (hw : x.nwrite < 2 ^ 32) (hne : x.nread ≠ x.nwrite) :
    x.fill = Ring.count (2 ^ 32) ((x.nread + 1) % 2 ^ 32) x.nwrite + 1 := by
  unfold Pipe.fill Ring.count
  omega

/-- One byte is taken and stored, and the loop goes on. -/
theorem ReadLoop.next {base pagetable n k t : ℕ} {X Y X' : Kernel ι} (hn : n + 1 < 2 ^ 32)
    (hfill : (X.pipes pi).fill = (Y.pipes pi).fill + 1) (hdata : (Y.pipes pi).data = (X.pipes pi).data)
    (hnread : (Y.pipes pi).nread = ((X.pipes pi).nread + 1) % 2 ^ 32) (hm : Mapped sz base)
    (huser : ∀ a, Y.vm.user pagetable a =
      if dist base a < 1 then some ((X.pipes pi).data ((X.pipes pi).nread % PIPESIZE)) else X.vm.user pagetable a)
    (h : ReadLoop pi (base + 1) pagetable sz n Y X' k t) : ReadLoop pi base pagetable sz (n + 1) X X' (k + 1) (t + 1) where
  nread := by
    rw [h.nread, hnread]
    omega
  user a := by
    have hle := h.le
    rw [h.user, huser, hdata, hnread, dist_succ]
    by_cases hz : dist base a = 0
    · rw [if_pos hz, if_neg (by omega), if_pos (by omega), if_pos (by omega), hz, Nat.add_zero]
    · rw [if_neg hz]
      by_cases hk : dist base a < k + 1
      · have hidx : (((X.pipes pi).nread + 1) % 2 ^ 32 + (dist base a - 1)) % PIPESIZE =
            ((X.pipes pi).nread + dist base a) % PIPESIZE := by
          unfold PIPESIZE
          omega
        rw [if_pos (by omega), if_pos hk, hidx]
      · rw [if_neg (by omega), if_neg (by omega), if_neg hk]
  mapped j hj := by
    cases j with
    | zero => exact hm
    | succ j =>
      have := h.mapped j (by omega)
      rwa [Nat.add_assoc, Nat.add_comm 1] at this
  le := by
    have := h.le
    omega
  all hk := by
    have := h.all (by omega)
    omega
  fault hk := by
    obtain ⟨ht, hout⟩ := h.fault (by omega)
    refine ⟨by omega, ?_⟩
    rwa [Nat.add_assoc, Nat.add_comm 1] at hout

theorem run_pipereadFrom (m : Machine ioSig ι) {n : ℕ} (hn : n < 2 ^ 32) (i : ℕ) {X : Kernel ι}
    (h : X.vm.mem.AddressSpace own (X.procs p).pagetable sz) (hr : (X.pipes pi).nread < 2 ^ 32)
    (hw : (X.pipes pi).nwrite < 2 ^ 32) :
    ∃ k t X', (pipereadFrom p pi addr n i).run (Kernel.step m p) X = .done ((i + k : ℕ) : ℤ) X' ∧
      ReadLoop pi (addr + i) (X.procs p).pagetable sz n X X' k t := by
  induction n generalizing i X with
  | zero =>
    exact ⟨0, 0, _, rfl, .stop hr (Nat.zero_min _) (by simp [Kernel.modifyPipe]) rfl⟩
  | succ n ih =>
    by_cases he : (X.pipes pi).nread = (X.pipes pi).nwrite
    · have hfill : (X.pipes pi).fill = 0 := by
        unfold Pipe.fill Ring.count
        omega
      refine ⟨0, 0, X.modifyPipe pi fun x => { x with lock := none }, ?_,
        .stop hr (by rw [hfill, Nat.min_zero]) (by simp [Kernel.modifyPipe]) rfl⟩
      change (if (X.pipes pi).nread = (X.pipes pi).nwrite then _ else _ : KM ℤ).run (Kernel.step m p) X = _
      rw [if_pos he]
      rfl
    · -- the byte is out of the ring before it is copied
      obtain ⟨c, hc⟩ : ∃ c, c = (X.pipes pi).data ((X.pipes pi).nread % PIPESIZE) := ⟨_, rfl⟩
      let X₁ := X.modifyPipe pi fun x => { x with nread := (x.nread + 1) % 2 ^ 32 }
      have hfill := Pipe.fill_take hr hw he
      have hpipe : X₁.pipes pi = { X.pipes pi with nread := ((X.pipes pi).nread + 1) % 2 ^ 32 } := by
        simp [X₁, Kernel.modifyPipe]
      have hstart : (pipereadFrom p pi addr (n + 1) i).run (Kernel.step m p) X =
          ((inVm (copyout (X.procs p).pagetable ((addr + i) % 2 ^ 64) [c])).bind fun ok =>
            if ok then pipereadFrom p pi addr n (i + 1) else (pipe (.release pi)).bind fun _ => .ret (i : ℤ)).run
            (Kernel.step m p) X₁ := by
        rw [hc]
        change (if (X.pipes pi).nread = (X.pipes pi).nwrite then _ else _ : KM ℤ).run (Kernel.step m p) X = _
        rw [if_neg he]
        rfl
      by_cases hm : Mapped sz (addr + i)
      · have hm' : ∀ j < [c].length, Mapped sz ((addr + i) % 2 ^ 64 + j) := by
          intro j hj
          obtain rfl : j = 0 := by simpa using hj
          exact (mapped_wrap sz (addr + i) 0).mpr hm
        obtain ⟨s', hrun, hs', huser⟩ := run_copyoutFrom h le_rfl (by simp) hm'
        have hcopy : (inVm (copyout (X.procs p).pagetable ((addr + i) % 2 ^ 64) [c])).run (Kernel.step m p) X₁ =
            .done true { X₁ with vm := s' } := by
          rw [Kernel.run_inVm]
          exact congrArg (Outcome.map _) hrun
        obtain ⟨k, t, X', hrest, hloop⟩ := @ih (by omega) (i + 1) { X₁ with vm := s' } hs'
          (by rw [hpipe]; exact Nat.mod_lt _ (by decide)) (by rw [hpipe]; exact hw)
        refine ⟨k + 1, t + 1, X', ?_, ?_⟩
        · rw [hstart, Prog.run_bind_done _ hcopy, if_pos rfl, hrest]
          congr 2
          omega
        · refine .next hn (by rw [hfill]; simp only [hpipe, Pipe.fill]) (by simp only [hpipe]) (by simp only [hpipe]) hm
            (fun a => ?_) hloop
          rw [huser a, dist_wrap, List.length_singleton, hc]
          by_cases hd : dist (addr + i) a < 1
          · obtain hz : dist (addr + i) a = 0 := by omega
            rw [if_pos hd, if_pos hd, hz]
            rfl
          · rw [if_neg hd, if_neg hd]
      · have hm' : ¬Mapped sz ((addr + i) % 2 ^ 64) := by
          rwa [← Nat.add_zero ((addr + i) % 2 ^ 64), mapped_wrap]
        have hcopy : (inVm (copyout (X.procs p).pagetable ((addr + i) % 2 ^ 64) [c])).run (Kernel.step m p) X₁ =
            .done false X₁ := by
          rw [Kernel.run_inVm]
          exact congrArg (Outcome.map _) (run_copyout_unmapped h hm' c)
        refine ⟨0, 1, X₁.modifyPipe pi fun x => { x with lock := none }, ?_, ?_⟩
        · rw [hstart, Prog.run_bind_done _ hcopy]
          rfl
        · constructor
          · simp [Kernel.modifyPipe, X₁]
          · intro a
            rw [if_neg (Nat.not_lt_zero _)]
            rfl
          · exact fun j hj => absurd hj (Nat.not_lt_zero j)
          · exact Nat.zero_le _
          · intro hzero
            omega
          · exact fun _ => ⟨rfl, hm⟩

/-! ## The whole call -/

theorem ReadLoop.length_removed {base pagetable n k t : ℕ} {X X' : Kernel ι} (hn : n < 2 ^ 31)
    (hr : (X.pipes pi).nread < 2 ^ 32) (h : ReadLoop pi base pagetable sz n X X' k t) :
    ((X.pipes pi).removed (X'.pipes pi)).length = t := by
  have hle := h.le
  have ht : t ≤ k + 1 := by
    rcases Nat.lt_or_eq_of_le hle with hlt | heq
    · exact (h.fault hlt).1.le
    · exact (h.all heq).le.trans (Nat.le_succ k)
  rw [Pipe.removed, Ring.contents, List.length_map, List.length_range, Ring.count, h.nread]
  omega

/-- The bytes are all delivered if none of those that the loop takes has an address without a page. -/
theorem ReadLoop.delivered_iff {n k t : ℕ} {X X' : Kernel ι} (hn : n < 2 ^ 31) (hr : (X.pipes pi).nread < 2 ^ 32)
    (hs : X.vm.mem.AddressSpace own (X.procs p).pagetable sz)
    (h : ReadLoop pi addr (X.procs p).pagetable sz n X X' k t) :
    Delivered p pi addr X X' k ↔
      ∀ i < min n (X.pipes pi).fill, X.vm.user (X.procs p).pagetable (addr + i) ≠ none := by
  have hlen := h.length_removed hn hr
  constructor
  · intro hd i hi
    have hval := hd.value (by omega)
    rw [hlen] at hval
    have hall : k = min n (X.pipes pi).fill := by
      by_contra hne
      have := (h.fault (lt_of_le_of_ne h.le hne)).1
      omega
    exact (user_ne_none_iff hs _).mpr (h.mapped i (by omega))
  · intro hall
    have hk : k = min n (X.pipes pi).fill := by
      by_contra hne
      have hlt := lt_of_le_of_ne h.le hne
      exact (h.fault hlt).2 ((user_ne_none_iff hs _).mp (hall k hlt))
    have ht := h.all hk
    refine ⟨fun a => ?_, fun _ => by omega, fun hk' => by omega⟩
    rw [h.user, hlen, ht]
    by_cases hd : dist addr a < k
    · have hget : dist addr a < ((X.pipes pi).removed (X'.pipes pi)).length := by omega
      rw [if_pos hd, if_pos hd, List.getElem?_eq_getElem hget]
      simp [Pipe.removed, Ring.contents]
    · rw [if_neg hd, if_neg hd]

/-- A call waits, is ended by `kill`, or runs the loop. -/
theorem run_piperead (m : Machine ioSig ι) {n : ℤ} (hn : n < 2 ^ 31) {X : Kernel ι}
    (hfree : (X.pipes pi).lock = none) (hr : (X.pipes pi).nread < 2 ^ 32) (hw : (X.pipes pi).nwrite < 2 ^ 32)
    (hs : X.vm.mem.AddressSpace own (X.procs p).pagetable sz) :
    ((piperead p pi addr n).run (Kernel.step m p) X = .blocked ∧ (X.pipes pi).nread = (X.pipes pi).nwrite ∧
        (X.pipes pi).writeopen = true ∧ (X.procs p).killed = false) ∨
      (∃ X', (piperead p pi addr n).run (Kernel.step m p) X = .done (-1) X' ∧ X'.vm = X.vm ∧
        (X'.pipes pi).nread = (X.pipes pi).nread ∧ (X.pipes pi).nread = (X.pipes pi).nwrite) ∨
      ∃ k t X', (piperead p pi addr n).run (Kernel.step m p) X = .done ((k : ℕ) : ℤ) X' ∧
        ReadLoop pi addr (X.procs p).pagetable sz n.toNat X X' k t := by
  let X₀ := X.modifyPipe pi fun x => { x with lock := some p }
  have hpipe : X₀.pipes pi = { X.pipes pi with lock := some p } := by simp [X₀, Kernel.modifyPipe]
  have hacq : Kernel.step m p (.pipe (.acquire pi)) X = .done () X₀ := by
    simp [Kernel.step, Kernel.pipeStep, Kernel.pipeSleep, hfree, X₀]
  -- what is left of the call once it need not sleep
  let after : KM ℤ := (pipe (.get pi)).bind fun x =>
    if x.nread = x.nwrite ∧ x.writeopen = true then (pipe (.release pi)).bind fun _ => .ret (-1)
    else pipereadFrom p pi addr n.toNat 0
  have hstart : (piperead p pi addr n).run (Kernel.step m p) X =
      (if (X₀.pipes pi).nread = (X₀.pipes pi).nwrite ∧ (X₀.pipes pi).writeopen = true ∧ (X₀.procs p).killed = false then
        (pipe (.release pi)).bind fun _ => (pipe (.sleepRead pi)).bind fun _ => after
      else after).run (Kernel.step m p) X₀ := by
    change (Prog.call (S := kSig) (.pipe (.acquire pi)) _).run (Kernel.step m p) X = _
    rw [Prog.run_call_done _ hacq]
    rfl
  rw [hstart]
  have hkilled : (X₀.procs p).killed = (X.procs p).killed := rfl
  simp only [hpipe, hkilled]
  by_cases hwait : (X.pipes pi).nread = (X.pipes pi).nwrite ∧ (X.pipes pi).writeopen = true
  · cases hk : (X.procs p).killed with
    | false =>
      refine .inl ⟨?_, hwait.1, hwait.2, rfl⟩
      rw [if_pos ⟨hwait.1, hwait.2, rfl⟩]
      -- the sleeper is not ready, since the pipe is as it was
      have hsleep : Kernel.step m p (.pipe (.sleepRead pi)) (X₀.modifyPipe pi fun x => { x with lock := none }) =
          .blocked := by
        simp [Kernel.step, Kernel.pipeStep, Kernel.pipeSleep, Kernel.modifyPipe, X₀, hwait, hk]
      change Prog.run _ (.call (S := kSig) (.pipe (.sleepRead pi)) _) _ = _
      rw [Prog.run]
      simp only [hsleep]
    | true =>
      refine .inr (.inl ⟨X₀.modifyPipe pi fun x => { x with lock := none }, ?_, rfl, by simp [Kernel.modifyPipe, X₀],
        hwait.1⟩)
      rw [if_neg (by simp)]
      change (if (X₀.pipes pi).nread = (X₀.pipes pi).nwrite ∧ (X₀.pipes pi).writeopen = true then _ else _ : KM ℤ).run
        (Kernel.step m p) X₀ = _
      rw [hpipe, if_pos hwait]
      rfl
  · obtain ⟨k, t, X', hrun, hloop⟩ := @run_pipereadFrom ι own p pi addr sz m n.toNat (by omega) 0 X₀ hs
      (by rw [hpipe]; exact hr) (by rw [hpipe]; exact hw)
    refine .inr (.inr ⟨k, t, X', ?_, ?_⟩)
    · rw [if_neg (fun hc => hwait ⟨hc.1, hc.2.1⟩)]
      change (if (X₀.pipes pi).nread = (X₀.pipes pi).nwrite ∧ (X₀.pipes pi).writeopen = true then _ else _ : KM ℤ).run
        (Kernel.step m p) X₀ = _
      rw [hpipe, if_neg hwait, hrun, Nat.zero_add]
    · obtain ⟨h₁, h₂, h₃, h₄, h₅, h₆⟩ := hloop
      simp only [hpipe, Pipe.fill] at h₁ h₂ h₄ h₅ h₆
      exact ⟨h₁, h₂, h₃, h₄, h₅, h₆⟩

/-- A read that does not have to wait delivers what it takes exactly if every byte that is there for it
has an address with a page. -/
theorem piperead_delivers_iff (m : Machine ioSig ι) (p pi addr : ℕ) (n : ℤ) (hn : n < 2 ^ 31) (X : Kernel ι)
    (hfree : (X.pipes pi).lock = none) (hr : (X.pipes pi).nread < 2 ^ 32) (hw : (X.pipes pi).nwrite < 2 ^ 32)
    (hs : X.vm.mem.AddressSpace own (X.procs p).pagetable sz) :
    ((piperead p pi addr n).run (Kernel.step m p) X = .blocked ∧ (X.pipes pi).nread = (X.pipes pi).nwrite ∧
        (X.pipes pi).writeopen = true ∧ (X.procs p).killed = false) ∨
      ∃ r X', (piperead p pi addr n).run (Kernel.step m p) X = .done r X' ∧
        (Delivered p pi addr X X' r ↔
          ∀ i < min n.toNat (X.pipes pi).fill, X.vm.user (X.procs p).pagetable (addr + i) ≠ none) := by
  rcases @run_piperead ι own p pi addr sz m n hn X hfree hr hw hs with hwait | ⟨X', hrun, hvm, hnread, he⟩ | ⟨k, t, X', hrun, hloop⟩
  · exact .inl hwait
  · have hfill : (X.pipes pi).fill = 0 := by
      unfold Pipe.fill Ring.count
      omega
    have hnil : (X.pipes pi).removed (X'.pipes pi) = [] := by
      have hcount : Ring.count (2 ^ 32) (X.pipes pi).nread (X'.pipes pi).nread = 0 := by
        unfold Ring.count
        omega
      rw [Pipe.removed, Ring.contents, hcount]
      rfl
    refine .inr ⟨-1, X', hrun, ⟨fun _ i hi => by omega, fun _ => ⟨fun a => ?_, fun hne => absurd rfl hne, fun _ => hnil⟩⟩⟩
    rw [hnil, hvm, List.length_nil, if_neg (Nat.not_lt_zero _)]
  · exact .inr ⟨k, X', hrun, hloop.delivered_iff (by omega) hr hs⟩

/-- Process 0 with the two pages of `guarded`, and a pipe that holds one byte. -/
def oneByte : Kernel Unit :=
  { bare with
    vm := guarded
    pipes := fun _ => { lock := none, data := fun _ => 7, nread := 0, nwrite := 1, readopen := true, writeopen := true }
    procs := fun i => { bare.procs i with sz := 0x2000, pagetable := 0x40001000 } }

theorem piperead_delivers_iff_one_byte :
    ∃ r X', (piperead 0 0 0x1000 1).run (Kernel.step Kernel.idle 0) oneByte = .done r X' ∧
      Delivered 0 0 0x1000 oneByte X' r := by
  rcases @piperead_delivers_iff Unit guardedOwn 0x2000 Kernel.idle 0 0 0x1000 1 (by decide) oneByte rfl
    (by decide) (by decide) guarded_space with ⟨-, he, -⟩ | ⟨r, X', hrun, hiff⟩
  · exact absurd he (by decide)
  · refine ⟨r, X', hrun, hiff.mpr fun i hi => ?_⟩
    have hi : i < 1 := lt_of_lt_of_le hi (Nat.min_le_left _ _)
    refine (user_ne_none_iff guarded_space _).mpr ?_
    obtain rfl : i = 0 := by omega
    exact (by decide : 0x1000 % 2 ^ 32 < pgRoundUp 0x2000)

/-- The byte is gone: the read returns 0, and the pipe is empty. -/
theorem piperead_loses_byte :
    ∃ X', (piperead 0 0 0x2000 1).run (Kernel.step Kernel.idle 0) oneByte = .done 0 X' ∧ (X'.pipes 0).nread = 1 ∧
      (∀ a, X'.vm.user 0x40001000 a = oneByte.vm.user 0x40001000 a) ∧ ¬Delivered 0 0 0x2000 oneByte X' 0 := by
  have hout : ¬Mapped 0x2000 (0x2000 + 0) := by
    rw [Mapped]
    decide
  rcases @run_piperead Unit guardedOwn 0 0 0x2000 0x2000 Kernel.idle 1 (by decide) oneByte
    rfl (by decide) (by decide) guarded_space with ⟨-, he, -⟩ | ⟨X', -, -, -, he⟩ | ⟨k, t, X', hrun, hloop⟩
  · exact absurd he (by decide)
  · exact absurd he (by decide)
  · have hmin : min (1 : ℤ).toNat (oneByte.pipes 0).fill = 1 := by decide
    have hle := hloop.le
    rw [hmin] at hle
    have hk : k = 0 := by
      by_contra hne
      exact hout (hloop.mapped 0 (by omega))
    subst hk
    obtain ⟨rfl, -⟩ := hloop.fault (by rw [hmin]; exact Nat.one_pos)
    refine ⟨X', hrun, hloop.nread, fun a => ?_, fun hd => ?_⟩
    · have huser := hloop.user a
      rwa [if_neg (Nat.not_lt_zero _)] at huser
    · have hlen := hloop.length_removed (by decide) (by decide)
      have hval := hd.value (by decide)
      rw [hlen] at hval
      exact absurd hval (by decide)

end Xv6Arm

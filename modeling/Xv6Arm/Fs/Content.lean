import Xv6Arm.Fs.Itrunc
import Xv6Arm.Vm.UserCopy

/-!
# Reading the contents of a file

A file is the sequence of its bytes, block after block, and `readi` returns a part
of it. What the other end of the copy does is described by a sink or a source.
-/
namespace Xv6Arm
open Lib

namespace View

/-- Byte `p` of file `i`. -/
def byte (v : View) (i p : ℕ) : UInt8 := v.dat (v.block i (p / BSIZE)) (p % BSIZE)

/-- The values that a reader of byte `p` of file `i` may get. -/
def Can (v : View) (i p : ℕ) : Set UInt8 := { x | ∃ d ∈ v.may (v.block i (p / BSIZE)), d (p % BSIZE) = x }

/-- File `i` as a sequence of bytes. -/
def contents (v : View) (i : ℕ) : List UInt8 := (List.range (v.ino i).size).map (v.byte i)

/-- File `i` has a block for each of its bytes. -/
def Solid (v : View) (i : ℕ) : Prop := ∀ bn, bn * BSIZE < (v.ino i).size → v.block i bn ≠ 0

theorem Solid.block {v : View} {i p : ℕ} (h : v.Solid i) (hp : p < (v.ino i).size) : v.block i (p / BSIZE) ≠ 0 :=
  h _ (lt_of_le_of_lt (Nat.div_mul_le_self p BSIZE) hp)

end View

theorem in_block (off : ℕ) {q : ℕ} (h : q < BSIZE - off % BSIZE) :
    (off + q) / BSIZE = off / BSIZE ∧ (off + q) % BSIZE = off % BSIZE + q := by
  unfold BSIZE at *
  omega

/-! ## The other end -/

/-- `either_copyout` as a program on memory. -/
def copyoutProg : Dst → List UInt8 → VmM Bool
  | .kernel, _ => pure true
  | .page pa off, l => do
    .op (S := vmSig) (.writePage pa off l)
    pure true
  | .user pagetable va, l => copyout pagetable va l

theorem eitherCopyout_eq (dst : Dst) (l : List UInt8) : eitherCopyout dst l = inVm (copyoutProg dst l) := by
  cases dst <;> rfl

/-- `either_copyin` as a program on memory. -/
def copyinProg : Src → ℕ → VmM (List UInt8 × Bool)
  | .kernel l, m => pure (l.take m, true)
  | .user pagetable va, m => copyin pagetable va m

theorem eitherCopyin_eq (src : Src) (m : ℕ) : eitherCopyin src m = inVm (copyinProg src m) := by
  cases src <;> rfl

/-- What is known of a destination: `ok l n dst vm` if the bytes `l` have been stored and `n` more go to
`dst`, and `fails` after a copy that failed. -/
structure Sink (E : Env) where
  ok : List UInt8 → ℕ → Dst → Vm → Prop
  fails : Vm → Prop
  step : ∀ {l₀ n dst vm} {l : List UInt8}, ok l₀ n dst vm → 0 < l.length → l.length ≤ n →
    E.mode.Allows (fun b vm' => if b then ok (l₀ ++ l) (n - l.length) (dst.add l.length) vm' else fails vm')
      ((copyoutProg dst l).run vmStep vm)

/-- What is known of a source: `ok l n src vm` if the bytes `l` have been taken and `n` more come from
`src`, and `fails l` after a copy that failed, when `l` have been taken. -/
structure Source (E : Env) where
  ok : List UInt8 → ℕ → Src → Vm → Prop
  fails : List UInt8 → Vm → Prop
  step : ∀ {l₀ n src vm m}, ok l₀ n src vm → 0 < m → m ≤ n →
    E.mode.Allows (fun r vm' => if r.2 then r.1.length = m ∧ ok (l₀ ++ r.1) (n - m) (src.add m) vm'
      else r.1.length < m ∧ fails (l₀ ++ r.1) vm') ((copyinProg src m).run vmStep vm)

/-- A variable of the kernel. -/
def Sink.kernel (E : Env) (vm : Vm) : Sink E where
  ok _ _ dst vm' := dst = .kernel ∧ vm' = vm
  fails _ := False
  step := by
    rintro l₀ n dst vm' l ⟨rfl, rfl⟩ _ _
    exact ⟨rfl, rfl⟩

/-- The bytes `l` and more in a variable of the kernel. -/
def Source.kernel (E : Env) (l : List UInt8) (vm : Vm) : Source E where
  ok l₀ n src vm' := ∃ l₁ l₂, src = .kernel (l₁ ++ l₂) ∧ l₀ ++ l₁ = l ∧ l₁.length = n ∧ vm' = vm
  fails _ _ := False
  step := by
    rintro l₀ n src vm' m ⟨l₁, l₂, rfl, rfl, rfl, rfl⟩ _ hm
    change (List.take m (l₁ ++ l₂)).length = m ∧ _
    rw [List.take_append_of_le_length hm]
    refine ⟨List.length_take_of_le hm, l₁.drop m, l₂, ?_, ?_, List.length_drop, rfl⟩
    · rw [Src.add, List.drop_append_of_le_length hm]
    · rw [List.append_assoc, List.take_append_drop]

/-- User memory: the bytes from `va` on, up to the first address that has no translation. -/
def Source.user (E : Env) (pagetable va : ℕ) (vm : Vm) : Source E where
  ok l _ src vm' := vm' = vm ∧ (∃ va', src = .user pagetable va' ∧ va' % 2 ^ 32 = (va + l.length) % 2 ^ 32) ∧
    ∀ q < l.length, vm.user pagetable (va + q) = l[q]?
  fails l vm' := vm' = vm ∧ (∀ q < l.length, vm.user pagetable (va + q) = l[q]?) ∧
    vm.user pagetable (va + l.length) = none
  step := by
    rintro l₀ n src vm' m ⟨rfl, ⟨va', rfl, hva⟩, hl₀⟩ _ _
    obtain ⟨l, ok, hrun, ht⟩ := run_copyin vm' pagetable va' m
    have hnext : ∀ q, vm'.user pagetable (va' + q) = vm'.user pagetable (va + (l₀.length + q)) :=
      fun q => Vm.user_congr vm' pagetable (by omega)
    have hbytes : ∀ q < (l₀ ++ l).length, vm'.user pagetable (va + q) = (l₀ ++ l)[q]? := by
      intro q hq
      by_cases hlt : q < l₀.length
      · rw [List.getElem?_append_left hlt]
        exact hl₀ q hlt
      · rw [List.length_append] at hq
        rw [List.getElem?_append_right (not_lt.mp hlt), ← ht.bytes _ (by omega), hnext]
        congr 2
        omega
    change E.mode.Allows _ ((copyin pagetable va' m).run vmStep vm')
    rw [hrun, allows_done]
    cases ok with
    | true =>
      refine ⟨ht.all rfl, rfl, ⟨(va' + m) % 2 ^ 64, rfl, ?_⟩, hbytes⟩
      have hlen : l.length = m := ht.all rfl
      rw [List.length_append, hlen]
      omega
    | false =>
      obtain ⟨hlt, hnone⟩ := ht.stop rfl
      refine ⟨hlt, rfl, hbytes, ?_⟩
      rw [List.length_append, ← hnext]
      exact hnone

/-- User memory that is mapped from `va` on: it gets the bytes, and the rest of it stays as it was. -/
def Sink.user (E : Env) (own : ℕ → Place) (pagetable sz va : ℕ) (vm : Vm) : Sink E where
  ok l n dst vm' := vm'.mem.AddressSpace own pagetable sz ∧
    (∃ va', dst = .user pagetable va' ∧ va' % 2 ^ 32 = (va + l.length) % 2 ^ 32) ∧ l.length + n ≤ 2 ^ 32 ∧
    (∀ q < n, Mapped sz (va + (l.length + q))) ∧
    ∀ x, vm'.user pagetable x = if dist va x < l.length then l[dist va x]? else vm.user pagetable x
  fails _ := False
  step := by
    rintro l₀ n dst vm' l ⟨has, ⟨va', rfl, hva⟩, hsum, hmap, huser⟩ _ hle
    have hm : ∀ q < l.length, Mapped sz (va' + q) := by
      intro q hq
      have := hmap q (by omega)
      unfold Mapped at this ⊢
      rwa [show (va' + q) % 2 ^ 32 = (va + (l₀.length + q)) % 2 ^ 32 by omega]
    obtain ⟨vm₁, hrun, has₁, huser₁⟩ := run_copyoutFrom has (le_refl l.length) (by omega) hm
    change E.mode.Allows _ ((copyoutFrom pagetable l.length va' l).run vmStep vm')
    rw [hrun, allows_done]
    refine ⟨has₁, ⟨(va' + l.length) % 2 ^ 64, rfl, ?_⟩, ?_, ?_, ?_⟩
    · rw [List.length_append]
      omega
    · rw [List.length_append]
      omega
    · intro q hq
      have := hmap (l.length + q) (by omega)
      rwa [List.length_append, Nat.add_assoc]
    · intro x
      rw [huser₁, huser, List.length_append]
      by_cases h1 : dist va x < l₀.length
      · have h2 : ¬dist va' x < l.length := by
          unfold dist at h1 ⊢
          omega
        rw [if_neg h2, if_pos h1, if_pos (by omega), List.getElem?_append_left h1]
      · by_cases h2 : dist va' x < l.length
        · have h3 : dist va' x = dist va x - l₀.length := by
            unfold dist at h1 h2 ⊢
            omega
          rw [if_pos h2, if_pos (by omega), List.getElem?_append_right (not_lt.mp h1), h3]
        · have h3 : ¬dist va x < l₀.length + l.length := by
            unfold dist at h1 h2 ⊢
            omega
          rw [if_neg h2, if_neg h1, if_neg h3]

/-- A page of physical memory, from `off` on. -/
def Sink.page (E : Env) (pa off : ℕ) (vm : Vm) : Sink E where
  ok l _ dst vm' := dst = .page pa (off + l.length) ∧ vm' = vm.write pa off l
  fails _ := False
  step := by
    rintro l₀ n dst vm' l ⟨rfl, rfl⟩ _ _
    refine ⟨?_, Vm.write_write vm pa off l₀ l⟩
    rw [Dst.add, List.length_append, Nat.add_assoc]

/-- Any destination. -/
def Sink.any (E : Env) : Sink E where
  ok _ _ _ _ := True
  fails _ := True
  step := by
    rintro l₀ n dst vm l - - -
    cases dst with
    | kernel => exact trivial
    | page pa off => exact trivial
    | user pagetable va =>
      obtain ⟨ok, vm', hrun⟩ := run_copyout_done vm pagetable va l
      change E.mode.Allows _ ((copyout pagetable va l).run vmStep vm)
      rw [hrun, allows_done]
      split <;> exact trivial

/-! ## Reading -/

namespace Env
variable {E : Env} {v : View} {k i m : ℕ}

theorem wp_eitherCopyout (D : Sink E) {Φ : Bool → Kernel Unit → View → Prop} {X : Kernel Unit} {l₀ l : List UInt8}
    {n : ℕ} {dst : Dst} (hok : D.ok l₀ n dst X.vm) (hpos : 0 < l.length) (hle : l.length ≤ n)
    (h : ∀ vm, D.ok (l₀ ++ l) (n - l.length) (dst.add l.length) vm → Φ true { X with vm := vm } v)
    (hfail : ∀ vm, D.fails vm → Φ false { X with vm := vm } v) : E.wp (eitherCopyout dst l) Φ X v := by
  rw [eitherCopyout_eq]
  refine wp_vm ((D.step hok hpos hle).mono fun b vm hb => ?_)
  cases b with
  | true => exact h vm hb
  | false => exact hfail vm hb

theorem wp_eitherCopyin (D : Source E) {Φ : List UInt8 × Bool → Kernel Unit → View → Prop} {X : Kernel Unit}
    {l₀ : List UInt8} {n m : ℕ} {src : Src} (hok : D.ok l₀ n src X.vm) (hpos : 0 < m) (hle : m ≤ n)
    (h : ∀ l vm, l.length = m → D.ok (l₀ ++ l) (n - m) (src.add m) vm → Φ (l, true) { X with vm := vm } v)
    (hfail : ∀ l vm, l.length < m → D.fails (l₀ ++ l) vm → Φ (l, false) { X with vm := vm } v) :
    E.wp (eitherCopyin src m) Φ X v := by
  rw [eitherCopyin_eq]
  refine wp_vm ((D.step hok hpos hle).mono fun r vm hr => ?_)
  obtain ⟨l, b⟩ := r
  cases b with
  | true => exact h l vm hr.1 hr.2
  | false => exact hfail l vm hr.1 hr.2

/-- What `readi` and `writei` need to know of a file. -/
structure Opened (E : Env) (k i : ℕ) (v : View) : Prop where
  ent : ∃ m, v.ent k = some (i, m)
  loaded : k ∈ v.loaded
  live : v.Live E.sb i
  acct : Acct E.sb v
  clean : ∀ a, v.Uses E.sb i .indirect a → a ∉ v.dirty
  held : v.held = ∅

/-- The bytes that a reader of `n` bytes from `off` on gets: those of blocks that are not dirty are known. -/
structure Slice (v : View) (i off n : ℕ) (l : List UInt8) : Prop where
  length : l.length = n
  byte : ∀ q < n, v.block i ((off + q) / BSIZE) ∉ v.dirty → l[q]? = some (v.byte i (off + q))
  can : ∀ q < n, ∃ x ∈ v.Can i (off + q), l[q]? = some x

theorem slice_nil {off : ℕ} : Slice v i off 0 [] := ⟨rfl, by simp, by simp⟩

theorem slice_append {off n₁ n₂ : ℕ} {l₁ l₂ : List UInt8} (h₁ : Slice v i off n₁ l₁)
    (h₂ : Slice v i (off + n₁) n₂ l₂) : Slice v i off (n₁ + n₂) (l₁ ++ l₂) := by
  have hleft : ∀ q < n₁, (l₁ ++ l₂)[q]? = l₁[q]? := by
    intro q hq
    rw [List.getElem?_append_left (by rw [h₁.length]; exact hq)]
  have hright : ∀ q, n₁ ≤ q → (l₁ ++ l₂)[q]? = l₂[q - n₁]? := by
    intro q hq
    rw [List.getElem?_append_right (by rw [h₁.length]; exact hq), h₁.length]
  have hsub : ∀ q, n₁ ≤ q → off + n₁ + (q - n₁) = off + q := by omega
  refine ⟨by rw [List.length_append, h₁.length, h₂.length], fun q hq hd => ?_, fun q hq => ?_⟩
  · by_cases hq₁ : q < n₁
    · rw [hleft q hq₁]
      exact h₁.byte q hq₁ hd
    · rw [hright q (not_lt.mp hq₁), ← hsub q (not_lt.mp hq₁)]
      exact h₂.byte (q - n₁) (by omega) (by rw [hsub q (not_lt.mp hq₁)]; exact hd)
  · by_cases hq₁ : q < n₁
    · rw [hleft q hq₁]
      exact h₁.can q hq₁
    · rw [hright q (not_lt.mp hq₁), ← hsub q (not_lt.mp hq₁)]
      exact h₂.can (q - n₁) (by omega)

theorem slice_getBytes {off n : ℕ} {d : Block} (hn : n ≤ BSIZE - off % BSIZE)
    (hd : v.Sees (v.block i (off / BSIZE)) d) : Slice v i off n (getBytes d (off % BSIZE) n) := by
  have hget : ∀ q < n, (getBytes d (off % BSIZE) n)[q]? = some (d (off % BSIZE + q)) := by
    intro q hq
    simp [getBytes, hq]
  refine ⟨length_getBytes _ _ _, fun q hq hdirty => ?_, fun q hq => ?_⟩
  · obtain ⟨hdiv, hmod⟩ := in_block off (q := q) (by omega)
    rw [hdiv] at hdirty
    rw [View.byte, hdiv, hmod, ← hd.eq hdirty, hget q hq]
  · obtain ⟨hdiv, hmod⟩ := in_block off (q := q) (by omega)
    exact ⟨_, ⟨d, by rw [hdiv]; exact hd.may, by rw [hmod]⟩, hget q hq⟩

theorem wp_readiFrom (D : Sink E) {Φ : Option (List UInt8) → Kernel Unit → View → Prop} {X : Kernel Unit} {fuel n off : ℕ}
    {dst : Dst} {l₀ : List UInt8} (hfuel : n ≤ fuel) (ho : E.Opened k i v) (hr : E.Reads v)
    (hsolid : ∀ p, off ≤ p → p < off + n → v.block i (p / BSIZE) ≠ 0) (hok : D.ok l₀ n dst X.vm)
    (h : ∀ l vm dst', Slice v i off n l → D.ok (l₀ ++ l) 0 dst' vm → Φ (some l) { X with vm := vm } v)
    (hfail : ∀ vm, D.fails vm → Φ none { X with vm := vm } v) : E.wp (readiFrom E.sb k fuel dst off n) Φ X v := by
  induction fuel generalizing n off dst l₀ X Φ with
  | zero =>
    obtain rfl : n = 0 := Nat.le_zero.mp hfuel
    exact wp_ret (h [] X.vm dst slice_nil (by simpa using hok))
  | succ fuel ih =>
    unfold readiFrom
    by_cases hn : n = 0
    · subst hn
      rw [if_pos rfl]
      exact wp_ret (h [] X.vm dst slice_nil (by simpa using hok))
    · rw [if_neg hn]
      have hb := hsolid off le_rfl (by omega)
      obtain ⟨s, hs⟩ : ∃ s, Slot.of (off / BSIZE) = some s := by
        cases hs : Slot.of (off / BSIZE) with
        | none => exact absurd (by simp [View.block, hs]) hb
        | some s => exact ⟨s, rfl⟩
      have hu : v.Uses E.sb i s (v.block i (off / BSIZE)) := ⟨ho.live, (View.block_eq i hs).symm, hb⟩
      obtain ⟨m, he⟩ := ho.ent
      refine wp_seq (wp_bmap (T := ∅) hs he ho.loaded ho.live ho.acct ho.clean ho.held hr
        (fun hz => absurd (hu.eq.symm.trans hz) hb) fun b v' hm => ?_)
      obtain ⟨rfl, rfl⟩ := hm.of_uses hu
      have hnh : v'.block i (off / BSIZE) ∉ v'.held := by simp [ho.held]
      refine wp_seq (wp_bread (ho.acct.range _ _ _ hu) (ho.acct.used hu) hnh hr fun d hd => ?_)
      have hpos : 0 < min n (BSIZE - off % BSIZE) := by
        have := Nat.mod_lt off (show 0 < BSIZE by decide)
        omega
      have hsl : Slice v' i off (min n (BSIZE - off % BSIZE)) _ := slice_getBytes (Nat.min_le_right n _) hd
      refine wp_seq (wp_eitherCopyout D hok (by rwa [length_getBytes]) (by rw [length_getBytes]; omega) ?_ ?_)
      · intro vm hok'
        rw [length_getBytes] at hok'
        refine wp_seq (wp_brelse (by simp) (wp_undo hnh hd (wp_seq ?_)))
        refine ih (X := { X with vm := vm }) (by omega) (fun p hp hp' => hsolid p (by omega) (by omega)) hok' ?_ ?_
        · intro l vm' dst' hl hok''
          refine wp_ret (h _ vm' dst' ?_ (by rwa [List.append_assoc] at hok''))
          have := slice_append hsl hl
          rwa [Nat.add_sub_cancel' (Nat.min_le_left n _)] at this
        · intro vm' hf
          exact wp_ret (hfail vm' hf)
      · intro vm hf
        refine wp_seq (wp_brelse (by simp) (wp_undo hnh hd (wp_ret (hfail vm hf))))

/-- The number of bytes that `readi` of `n` bytes from `off` on returns. -/
def readLen (size off n : ℕ) : ℕ := if off + n < 2 ^ 32 then min n (size - off) else 0

theorem wp_readi (D : Sink E) {Φ : Option (List UInt8) → Kernel Unit → View → Prop} {X : Kernel Unit} {n off : ℕ}
    {dst : Dst} (ho : E.Opened k i v) (hr : E.Reads v) (hsolid : v.Solid i) (hn : n < 2 ^ 32)
    (hok : D.ok [] (readLen (v.ino i).size off n) dst X.vm)
    (h : ∀ l vm dst', Slice v i off (readLen (v.ino i).size off n) l → D.ok l 0 dst' vm →
      Φ (some l) { X with vm := vm } v)
    (hfail : ∀ vm, D.fails vm → Φ none { X with vm := vm } v) : E.wp (readi E.sb k dst off n) Φ X v := by
  obtain ⟨m, he⟩ := ho.ent
  refine wp_seq (wp_inodeGet he fun x _ _ hx => ?_)
  rw [hx ho.loaded]
  by_cases hlt : (v.ino i).size < off ∨ (off + n) % 2 ^ 32 < off
  · rw [if_pos hlt]
    have hz : readLen (v.ino i).size off n = 0 := by
      unfold readLen
      split
      · rename_i hsum
        rw [Nat.mod_eq_of_lt hsum] at hlt
        omega
      · rfl
    rw [hz] at h hok
    exact wp_ret (h [] X.vm dst slice_nil hok)
  · rw [if_neg hlt]
    have hsum : off + n < 2 ^ 32 := by omega
    have hlen : (if (v.ino i).size < (off + n) % 2 ^ 32 then (v.ino i).size - off else n) =
        readLen (v.ino i).size off n := by
      unfold readLen
      rw [Nat.mod_eq_of_lt hsum, if_pos hsum]
      split <;> omega
    dsimp only
    rw [hlen]
    refine wp_readiFrom D le_rfl ho hr (fun p hp hp' => hsolid.block ?_) hok h hfail
    unfold readLen at hp'
    rw [if_pos hsum] at hp'
    omega

end Env
end Xv6Arm

import Xv6Arm.Lib.Prog
import Xv6Arm.Vm.Model

/-!
# The allocator of the user library

`free`, `morecore` and `malloc` of `umalloc.c`. The memory of the program is seen
as headers of 16 bytes at any address; an access outside the mapped pages ends the
program with a fault. What `sbrk` does is left to the system below. The loops
follow pointers, so they are given a number of turns.
-/
namespace Xv6Arm.Umalloc
open Lib

/-- `Header`: the link of a free block, and a size in units of a header. -/
structure Header where
  ptr : ℕ
  size : ℕ

/-- The variable `freep`, the memory, and the system with the process in it. -/
structure Heap (K : Type) where
  freep : ℕ
  hdr : ℕ → Header
  sys : K

/-- The system seen from the program: the size of the process, and the system call. -/
structure System (K : Type) where
  size : K → ℕ
  sbrk : ℤ → K → Outcome ℤ K

inductive HeapOp where
  | ptr (a : ℕ)
  | size (a : ℕ)
  | setPtr (a v : ℕ)
  | setSize (a v : ℕ)
  | freep
  | setFreep (a : ℕ)
  | sbrk (n : ℤ)

abbrev HeapOp.Res : HeapOp → Type
  | .ptr _ | .size _ | .freep => ℕ
  | .sbrk _ => ℤ
  | _ => Unit

abbrev heapSig : Signature := ⟨HeapOp, HeapOp.Res⟩

section Machine
variable {K : Type}

def Heap.setPtr (h : Heap K) (a v : ℕ) : Heap K :=
  { h with hdr := Function.update h.hdr a { h.hdr a with ptr := v } }

def Heap.setSize (h : Heap K) (a v : ℕ) : Heap K :=
  { h with hdr := Function.update h.hdr a { h.hdr a with size := v } }

def Heap.setFreep (h : Heap K) (a : ℕ) : Heap K := { h with freep := a }

def Heap.setSys (h : Heap K) (k : K) : Heap K := { h with sys := k }

/-- Where the mapped pages of the process end. -/
def System.top (S : System K) (h : Heap K) : ℕ := pgRoundUp (S.size h.sys)

/-- The link of a header is in its first eight bytes, the size in the four after them. -/
def heapStep (S : System K) : Machine heapSig (Heap K)
  | .ptr a, h => if a + 8 ≤ S.top h then .done (h.hdr a).ptr h else .panic "fault"
  | .size a, h => if a + 12 ≤ S.top h then .done (h.hdr a).size h else .panic "fault"
  | .setPtr a v, h => if a + 8 ≤ S.top h then .done () (h.setPtr a v) else .panic "fault"
  | .setSize a v, h => if a + 12 ≤ S.top h then .done () (h.setSize a v) else .panic "fault"
  | .freep, h => .done h.freep h
  | .setFreep a, h => .done () (h.setFreep a)
  | .sbrk n, h => (S.sbrk n h.sys).map h.setSys

end Machine

/-! ## Programs -/

abbrev HM := Prog heapSig

def ptr (a : ℕ) : HM ℕ := .op (S := heapSig) (.ptr a)
def size (a : ℕ) : HM ℕ := .op (S := heapSig) (.size a)
def setPtr (a v : ℕ) : HM Unit := .op (S := heapSig) (.setPtr a v)
def setSize (a v : ℕ) : HM Unit := .op (S := heapSig) (.setSize a v)
def freep : HM ℕ := .op (S := heapSig) .freep
def setFreep (a : ℕ) : HM Unit := .op (S := heapSig) (.setFreep a)
def sbrk (n : ℤ) : HM ℤ := .op (S := heapSig) (.sbrk n)

/-- The loop of `free`: the free block after which `bp` belongs. -/
def seek (bp : ℕ) : ℕ → ℕ → HM ℕ
  | 0, _ => .panic "turns"
  | n + 1, p => do
    let q ← ptr p
    if p < bp ∧ bp < q then pure p
    else if q ≤ p ∧ (p < bp ∨ bp < q) then pure p
    else seek bp n q

/-- Link `bp` to the block `q` after it, or make one block of the two. -/
def joinNext (bp q : ℕ) : HM Unit := do
  let bs ← size bp
  if bp + 16 * bs = q then do
    let qs ← size q
    setSize bp ((bs + qs) % 2 ^ 32)
    let r ← ptr q
    setPtr bp r
  else setPtr bp q

/-- Link `p` to the block `bp` after it, or make one block of the two. -/
def joinPrev (p bp : ℕ) : HM Unit := do
  let ps ← size p
  if p + 16 * ps = bp then do
    let bs ← size bp
    setSize p ((ps + bs) % 2 ^ 32)
    let r ← ptr bp
    setPtr p r
  else setPtr p bp

/-- `free`, with at most `n` turns of its loop. -/
def free (n ap : ℕ) : HM Unit := do
  let bp := ap - 16
  let start ← freep
  let p ← seek bp n start
  let q ← ptr p
  joinNext bp q
  joinPrev p bp
  setFreep p

/-- The conversion to `int` of a 64-bit number. -/
def toInt (x : ℕ) : ℤ := (BitVec.ofNat 32 x).toInt

/-- `morecore`; 0 if there is no memory. -/
def morecore (n nu : ℕ) : HM ℕ := do
  let nu := if nu < 4096 then 4096 else nu
  let p ← sbrk (toInt (nu * 16))
  if p = -1 then pure 0
  else do
    setSize p.toNat nu
    free n (p.toNat + 16)
    freep

/-- The body of `malloc` for a block `p` that is large enough, after `prevp` and of size `s`. -/
def takeBlock (nunits prevp p s : ℕ) : HM ℕ :=
  if s = nunits then do
    let q ← ptr p
    setPtr prevp q
    setFreep prevp
    pure (p + 16)
  else do
    setSize p (s - nunits)
    setSize (p + 16 * (s - nunits)) nunits
    setFreep prevp
    pure (p + 16 * (s - nunits) + 16)

/-- The loop of `malloc`, for at most `n` turns; `turns` is for the loop of `free`. -/
def search (turns nunits : ℕ) : ℕ → ℕ → ℕ → HM ℕ
  | 0, _, _ => .panic "turns"
  | n + 1, prevp, p => do
    let s ← size p
    if nunits ≤ s then takeBlock nunits prevp p s
    else do
      let f ← freep
      if p = f then do
        let c ← morecore turns nunits
        if c = 0 then pure 0
        else do
          let q ← ptr c
          search turns nunits n c q
      else do
        let q ← ptr p
        search turns nunits n p q

/-- The number of units for a request: the block and its header. -/
def unitsFor (nbytes : ℕ) : ℕ := ((nbytes + 16 - 1) / 16 + 1) % 2 ^ 32

/-- `malloc`, with the static header at `base` and at most `n` turns of each loop. -/
def malloc (base n nbytes : ℕ) : HM ℕ := do
  let start ← freep
  if start = 0 then do
    setFreep base
    setPtr base base
    setSize base 0
    let p ← ptr base
    search n (unitsFor nbytes) n base p
  else do
    let p ← ptr start
    search n (unitsFor nbytes) n start p

/-! ## The headers as links and sizes -/

section Headers
variable {K : Type}

def Heap.next (h : Heap K) (a : ℕ) : ℕ := (h.hdr a).ptr
def Heap.units (h : Heap K) (a : ℕ) : ℕ := (h.hdr a).size

@[simp] theorem next_setPtr (h : Heap K) (a v : ℕ) : (h.setPtr a v).next = Function.update h.next a v := by
  funext c
  by_cases hc : c = a
  · subst hc
    simp [Heap.next, Heap.setPtr]
  · simp [Heap.next, Heap.setPtr, Function.update_of_ne hc]

@[simp] theorem units_setPtr (h : Heap K) (a v : ℕ) : (h.setPtr a v).units = h.units := by
  funext c
  by_cases hc : c = a
  · subst hc
    simp [Heap.units, Heap.setPtr]
  · simp [Heap.units, Heap.setPtr, Function.update_of_ne hc]

@[simp] theorem next_setSize (h : Heap K) (a v : ℕ) : (h.setSize a v).next = h.next := by
  funext c
  by_cases hc : c = a
  · subst hc
    simp [Heap.next, Heap.setSize]
  · simp [Heap.next, Heap.setSize, Function.update_of_ne hc]

@[simp] theorem units_setSize (h : Heap K) (a v : ℕ) : (h.setSize a v).units = Function.update h.units a v := by
  funext c
  by_cases hc : c = a
  · subst hc
    simp [Heap.units, Heap.setSize]
  · simp [Heap.units, Heap.setSize, Function.update_of_ne hc]

@[simp] theorem next_setFreep (h : Heap K) (a : ℕ) : (h.setFreep a).next = h.next := rfl
@[simp] theorem units_setFreep (h : Heap K) (a : ℕ) : (h.setFreep a).units = h.units := rfl
@[simp] theorem freep_setFreep (h : Heap K) (a : ℕ) : (h.setFreep a).freep = a := rfl
@[simp] theorem next_setSys (h : Heap K) (k : K) : (h.setSys k).next = h.next := rfl
@[simp] theorem units_setSys (h : Heap K) (k : K) : (h.setSys k).units = h.units := rfl
@[simp] theorem freep_setSys (h : Heap K) (k : K) : (h.setSys k).freep = h.freep := rfl
@[simp] theorem freep_setPtr (h : Heap K) (a v : ℕ) : (h.setPtr a v).freep = h.freep := rfl
@[simp] theorem freep_setSize (h : Heap K) (a v : ℕ) : (h.setSize a v).freep = h.freep := rfl

end Headers

/-! ## Rules -/

section Rules
variable {K α : Type} {S : System K} {F : Prop} {h : Heap K} {Q : α → Heap K → Prop} {a v : ℕ}

/-- The program from `h` ends in a result that satisfies `Q`, or with a fault if `F`. -/
def Ends (S : System K) (F : Prop) (p : HM α) (Q : α → Heap K → Prop) (h : Heap K) : Prop :=
  match p.run (heapStep S) h with
  | .done a t => Q a t
  | .panic msg => msg = "fault" ∧ F
  | .blocked => False

theorem ends_bind {β : Type} {p : HM α} {f : α → HM β} {Q : β → Heap K → Prop}
    (hp : Ends S F p (fun a t => Ends S F (f a) Q t) h) : Ends S F (p >>= f) Q h := by
  rw [Ends, Prog.bind_eq, Prog.run_bind]
  unfold Ends at hp
  cases hrun : p.run (heapStep S) h with
  | done a t =>
    rw [hrun] at hp
    exact hp
  | panic msg =>
    rw [hrun] at hp
    exact hp
  | blocked =>
    rw [hrun] at hp
    exact hp

theorem ends_pure {x : α} (hq : Q x h) : Ends S F (pure x) Q h := hq

/-- The header at `a` is mapped, or a fault is allowed. -/
def Ok (S : System K) (F : Prop) (h : Heap K) (a : ℕ) : Prop := F ∨ a + 16 ≤ S.top h

theorem ends_access {β : Type} {o : HeapOp} {f : heapSig.Res o → HM β} {Q : β → Heap K → Prop} {r : heapSig.Res o}
    {t : Heap K} {c : Prop} [Decidable c] (hstep : heapStep S o h = if c then .done r t else .panic "fault")
    (hc : F ∨ c) (hf : Ends S F (f r) Q t) : Ends S F (.call o f) Q h := by
  rw [Ends, Prog.run, hstep]
  by_cases h : c
  · rw [if_pos h]
    exact hf
  · rw [if_neg h]
    exact ⟨rfl, hc.resolve_right h⟩

theorem ends_ptr {f : ℕ → HM α} (ha : Ok S F h a) (hf : Ends S F (f (h.next a)) Q h) :
    Ends S F (ptr a >>= f) Q h :=
  ends_access (S := S) rfl (ha.imp_right fun _ => by omega) hf

theorem ends_size {f : ℕ → HM α} (ha : Ok S F h a) (hf : Ends S F (f (h.units a)) Q h) :
    Ends S F (size a >>= f) Q h :=
  ends_access (S := S) rfl (ha.imp_right fun _ => by omega) hf

theorem ends_setPtr {f : Unit → HM α} (ha : Ok S F h a) (hf : Ends S F (f ()) Q (h.setPtr a v)) :
    Ends S F (setPtr a v >>= f) Q h :=
  ends_access (S := S) rfl (ha.imp_right fun _ => by omega) hf

theorem ends_setSize {f : Unit → HM α} (ha : Ok S F h a) (hf : Ends S F (f ()) Q (h.setSize a v)) :
    Ends S F (setSize a v >>= f) Q h :=
  ends_access (S := S) rfl (ha.imp_right fun _ => by omega) hf

theorem ends_freep {f : ℕ → HM α} (hf : Ends S F (f h.freep) Q h) : Ends S F (freep >>= f) Q h := hf

theorem ends_setFreep {f : Unit → HM α} (hf : Ends S F (f ()) Q (h.setFreep a)) :
    Ends S F (setFreep a >>= f) Q h := hf

theorem ends_sbrk {f : ℤ → HM α} {n r : ℤ} {k : K} (hs : S.sbrk n h.sys = .done r k)
    (hf : Ends S F (f r) Q (h.setSys k)) : Ends S F (sbrk n >>= f) Q h := by
  change Ends S F (.call (.sbrk n) f) Q h
  rw [Ends, Prog.run, heapStep, hs]
  exact hf

end Rules
end Xv6Arm.Umalloc

import Xv6Arm.Virtio.Model

/-!
# What each thread knows about the disk driver

A thread that holds `vdisk_lock` knows everything that only the driver writes. A
call of `virtio_disk_rw` goes from descriptors of its own over a published chain
back to descriptors of its own, and the interrupt handler takes one element of the
used ring after the other. All code keeps to the specification of the requests.
-/
namespace Xv6Arm.Virtio
open Lib

/-- The arguments of a call of `virtio_disk_rw`. -/
structure Req where
  b : ℕ
  write : Bool
  blockno : ℕ

/-- A call and the three descriptors of its chain. -/
structure Chain where
  req : Req
  i : ℕ
  j : ℕ
  k : ℕ

def Chain.own (c : Chain) : List ℕ := [c.k, c.j, c.i]

/-- The descriptors, the command and `info` say what the call asks for. -/
structure Formatted (D : Disk) (c : Chain) : Prop where
  op : D.ops c.i = ⟨if c.req.write then VIRTIO_BLK_T_OUT else VIRTIO_BLK_T_IN, 0, sectorOf c.req.blockno⟩
  head : D.desc c.i = ⟨.op c.i, 16, VRING_DESC_F_NEXT, c.j⟩
  body : D.desc c.j = ⟨.data c.req.b, BSIZE,
    if c.req.write then VRING_DESC_F_NEXT else VRING_DESC_F_NEXT ||| VRING_DESC_F_WRITE, c.k⟩
  tail : D.desc c.k = ⟨.status c.i, 1, VRING_DESC_F_WRITE, 0⟩
  buf : D.infoB c.i = some c.req.b

/-- Distinct descriptors that are not free. -/
structure Owned (D : Disk) (own : List ℕ) : Prop where
  nodup : own.Nodup
  lt : ∀ i ∈ own, i < NUM
  taken : ∀ i ∈ own, D.free i = false

/-- Too few descriptors are free for a request. -/
def FewFree (D : Disk) : Prop := ((Finset.range NUM).filter fun i => D.free i = true).card < 3

/-- How far the handler is with an element of the used ring. -/
inductive Hand where
  | enter
  /-- The interrupt is acknowledged and `used->idx` will be read again. -/
  | sweep
  | found
  | got (id : ℕ)
  | clean (id : ℕ)
  | cleared (id b : ℕ)
  | woken (id : ℕ)
  /-- The device has reported an error. -/
  | bad
  | done

inductive View where
  /-- No call, and nothing held. -/
  | out
  | called (r : Req)
  /-- The lock is held and the descriptors `own` are the call's own; `owe` says that `wakeup(&free[0])` is
  to come, `served` that the device has carried out the request. -/
  | work (D : Disk) (r : Req) (own : List ℕ) (owe served : Bool)
  /-- The lock is held and the chain is published; `ring` says that the device is still to be notified. -/
  | wait (D : Disk) (c : Chain) (ring : Bool)
  | napFree (r : Req)
  | nap (c : Chain)
  /-- Everything is given back and the call is about to return. -/
  | back (r : Req)
  | hand (D : Disk) (h : Hand)

namespace View

def held : View → Option Disk
  | .work D _ _ _ _ | .wait D _ _ | .hand D _ => some D
  | .out | .called _ | .napFree _ | .nap _ | .back _ => none

/-- What holds whenever the driver's memory is read. -/
def Facts : View → Prop
  | .work D _ own _ _ => Owned D own
  | .wait D c _ => Formatted D c ∧ Owned D c.own
  | .hand D (.clean id) => ∃ b, D.infoB id = some b
  | _ => True

end View

namespace Store

/-- What a thread with descriptors `own` may store on the way to its request. -/
def May (D : Disk) (r : Req) (own : List ℕ) : Store → Prop
  | .opType i _ | .opReserved i _ | .opSector i _ | .descAddr i _ | .descLen i _ | .descFlags i _
  | .descNext i _ | .infoB i _ => i ∈ own
  | .bufDisk b v => b = r.b ∧ v = true
  | .availRing i h => i = D.avail.idx % NUM ∧ h ∈ own
  | .availIdx _ | .usedIdx _ => False
  | .free i v => if v then i ∈ own else i < NUM ∧ D.free i = true

/-- The descriptors that the thread has afterwards. -/
def own (own : List ℕ) : Store → List ℕ
  | .free i v => if v then own.erase i else i :: own
  | _ => own

/-- Sleepers on `&free[0]` have to be woken. -/
def frees : Store → Bool
  | .free _ v => v
  | _ => false

end Store

/-- A store on the way to a request, or on the way back from it. -/
def workSpec (w : Store) (K : Unit → View → Prop) (v : View) : Prop :=
  ∃ D r own owe served, v = .work D r own owe served ∧ w.May D r own ∧
    K () (.work (D.store w) r (w.own own) (owe || w.frees) served)

def storeSpec : Store → (Unit → View → Prop) → View → Prop
  | .availIdx n, K, v => ∃ D c, v = .work D c.req c.own false false ∧ Formatted D c ∧
      D.bufDisk c.req.b = true ∧ D.avail.ring (D.avail.idx % NUM) = c.i ∧ n = (D.avail.idx + 1) % 2 ^ 16 ∧
      K () (.wait (D.store (.availIdx n)) c true)
  | .usedIdx n, K, v => ∃ D id, v = .hand D (.woken id) ∧ n = (D.usedIdx + 1) % 2 ^ 16 ∧
      K () (.hand (D.store (.usedIdx n)) .sweep)
  | .bufDisk b false, K, v => ∃ D id, v = .hand D (.clean id) ∧ D.infoB id = some b ∧
      K () (.hand (D.store (.bufDisk b false)) (.cleared id b))
  | .infoB i none, K, v => ∃ D c, v = .wait D c false ∧ i = c.i ∧ D.bufDisk c.req.b = false ∧
      K () (.work (D.store (.infoB i none)) c.req c.own false true)
  | w, K, v => workSpec w K v

/-- What a request needs of the view of the thread, and what it makes of it. -/
def diskSpec : OpSpec diskSig View
  | .acquire, K, v => (∃ r, v = .called r ∧ ∀ D, K () (.work D r [] false false)) ∨
      v = .out ∧ ∀ D, K () (.hand D .enter)
  | .release, K, v => (∃ D r, v = .work D r [] false true ∧ K () (.back r)) ∨
      ∃ D, v = .hand D .done ∧ K () .out
  | .disk, K, v => ∃ D, v.held = some D ∧ (v.Facts → K D v)
  | .set w, K, v => storeSpec w K v
  | .blockno b, K, v => ∃ r, v = .called r ∧ b = r.b ∧ K r.blockno v
  | .usedIdx, K, v => ∃ D, v = .hand D .sweep ∧ K D.usedIdx (.hand D .done) ∧
      ∀ u, u ≠ D.usedIdx → K u (.hand D .found)
  | .usedId i, K, v => ∃ D, v = .hand D .found ∧ i = D.usedIdx % NUM ∧ ∀ id, K id (.hand D (.got id))
  | .status i, K, v => ∃ D, v = .hand D (.got i) ∧ K 0 (.hand D (.clean i)) ∧
      ∀ st, st ≠ 0 → K st (.hand D .bad)
  | .setStatus i _, K, v => ∃ D r own owe served, v = .work D r own owe served ∧ i ∈ own ∧ K () v
  | .notify, K, v => ∃ D c, v = .wait D c true ∧ K () (.wait D c false)
  | .interruptStatus, K, v => ∃ D, v = .hand D .enter ∧ ∀ st, K st v
  | .interruptAck _, K, v => ∃ D, v = .hand D .enter ∧ K () (.hand D .sweep)
  | .doze .free, K, v => ∃ D r, v = .work D r [] false false ∧ FewFree D ∧ K () (.napFree r)
  | .doze (.buf b), K, v => ∃ D c, v = .wait D c false ∧ b = c.req.b ∧ D.bufDisk b = true ∧ K () (.nap c)
  | .resume, K, v => (∃ r, v = .napFree r ∧ ∀ D, K () (.work D r [] false false)) ∨
      ∃ c, v = .nap c ∧ ∀ D, K () (.wait D c false)
  | .wakeup .free, K, v => ∃ D r own owe served, v = .work D r own owe served ∧
      K () (.work D r own false served)
  | .wakeup (.buf b), K, v => ∃ D id, v = .hand D (.cleared id b) ∧ K () (.hand D (.woken id))
  | .panic msg, _, v => msg = "virtio_disk_intr status" ∧ ∃ D, v = .hand D .bad
  -- Only the loops that wait for something can go on for ever, and they check for it with the lock.
  | .hang, _, v => ∃ D, v.held = some D ∧ ∀ r own owe, v ≠ .work D r own owe true
  | .finish b, K, v => ∃ r, v = .back r ∧ b = r.b ∧ K () .out

theorem workSpec_mono {w : Store} {K L : Unit → View → Prop} {v : View} (hKL : ∀ r v, K r v → L r v)
    (h : workSpec w K v) : workSpec w L v := by
  obtain ⟨D, r, own, owe, served, hv, hw, hK⟩ := h
  exact ⟨D, r, own, owe, served, hv, hw, hKL _ _ hK⟩

theorem storeSpec_mono {w : Store} {K L : Unit → View → Prop} {v : View} (hKL : ∀ r v, K r v → L r v)
    (h : storeSpec w K v) : storeSpec w L v := by
  cases w with
  | availIdx n =>
    obtain ⟨D, c, hv, hf, hb, hr, hn, hK⟩ := h
    exact ⟨D, c, hv, hf, hb, hr, hn, hKL _ _ hK⟩
  | usedIdx n =>
    obtain ⟨D, id, hv, hn, hK⟩ := h
    exact ⟨D, id, hv, hn, hKL _ _ hK⟩
  | bufDisk b x =>
    cases x with
    | true => exact workSpec_mono hKL h
    | false =>
      obtain ⟨D, id, hv, hb, hK⟩ := h
      exact ⟨D, id, hv, hb, hKL _ _ hK⟩
  | infoB i b =>
    cases b with
    | some b => exact workSpec_mono hKL h
    | none =>
      obtain ⟨D, c, hv, hi, hb, hK⟩ := h
      exact ⟨D, c, hv, hi, hb, hKL _ _ hK⟩
  | _ => exact workSpec_mono hKL h

theorem diskSpec_mono : diskSpec.Mono := by
  intro o K L v hKL h
  cases o with
  | acquire =>
    rcases h with ⟨r, hv, h⟩ | ⟨hv, h⟩
    · exact .inl ⟨r, hv, fun D => hKL _ _ (h D)⟩
    · exact .inr ⟨hv, fun D => hKL _ _ (h D)⟩
  | release =>
    rcases h with ⟨D, r, hv, h⟩ | ⟨D, hv, h⟩
    · exact .inl ⟨D, r, hv, hKL _ _ h⟩
    · exact .inr ⟨D, hv, hKL _ _ h⟩
  | disk =>
    obtain ⟨D, hD, h⟩ := h
    exact ⟨D, hD, fun hf => hKL _ _ (h hf)⟩
  | set w => exact storeSpec_mono hKL h
  | blockno b =>
    obtain ⟨r, hv, hb, h⟩ := h
    exact ⟨r, hv, hb, hKL _ _ h⟩
  | usedIdx =>
    obtain ⟨D, hv, h, hu⟩ := h
    exact ⟨D, hv, hKL _ _ h, fun u hne => hKL _ _ (hu u hne)⟩
  | usedId i =>
    obtain ⟨D, hv, hi, h⟩ := h
    exact ⟨D, hv, hi, fun id => hKL _ _ (h id)⟩
  | status i =>
    obtain ⟨D, hv, h, hst⟩ := h
    exact ⟨D, hv, hKL _ _ h, fun st hne => hKL _ _ (hst st hne)⟩
  | setStatus i st =>
    obtain ⟨D, r, own, owe, served, hv, hi, h⟩ := h
    exact ⟨D, r, own, owe, served, hv, hi, hKL _ _ h⟩
  | notify =>
    obtain ⟨D, c, hv, h⟩ := h
    exact ⟨D, c, hv, hKL _ _ h⟩
  | interruptStatus =>
    obtain ⟨D, hv, h⟩ := h
    exact ⟨D, hv, fun st => hKL _ _ (h st)⟩
  | interruptAck st =>
    obtain ⟨D, hv, h⟩ := h
    exact ⟨D, hv, hKL _ _ h⟩
  | doze ch =>
    cases ch with
    | free =>
      obtain ⟨D, r, hv, hf, h⟩ := h
      exact ⟨D, r, hv, hf, hKL _ _ h⟩
    | buf b =>
      obtain ⟨D, c, hv, hb, hd, h⟩ := h
      exact ⟨D, c, hv, hb, hd, hKL _ _ h⟩
  | resume =>
    rcases h with ⟨r, hv, h⟩ | ⟨c, hv, h⟩
    · exact .inl ⟨r, hv, fun D => hKL _ _ (h D)⟩
    · exact .inr ⟨c, hv, fun D => hKL _ _ (h D)⟩
  | wakeup ch =>
    cases ch with
    | free =>
      obtain ⟨D, r, own, owe, served, hv, h⟩ := h
      exact ⟨D, r, own, owe, served, hv, hKL _ _ h⟩
    | buf b =>
      obtain ⟨D, id, hv, h⟩ := h
      exact ⟨D, id, hv, hKL _ _ h⟩
  | panic msg => exact h
  | hang => exact h
  | finish b =>
    obtain ⟨r, hv, hb, h⟩ := h
    exact ⟨r, hv, hb, hKL _ _ h⟩

/-! ## The code keeps to the specification -/

section
variable {α β : Type}

/-- From view `v` the program keeps to the specification; `Q` holds if it returns. -/
abbrev Meets (p : DM α) (v : View) (Q : α → View → Prop) : Prop := p.wp diskSpec Threads.anyPanic Q v

theorem meets_bind {p : DM α} {f : α → DM β} {v : View} {Q : β → View → Prop}
    (h : Meets p v fun a w => Meets (f a) w Q) : Meets (p.bind f) v Q := by
  rw [Meets, Prog.wp_bind]
  exact h

theorem Meets.mono {p : DM α} {v : View} {P Q : α → View → Prop} (h : Meets p v P)
    (hPQ : ∀ a w, P a w → Q a w) : Meets p v Q :=
  Prog.wp_mono diskSpec_mono h hPQ

theorem meets_req {o : Op} {f : o.Res → DM α} {v : View} {Q : α → View → Prop}
    (h : diskSpec o (fun r w => Meets (f r) w Q) v) : Meets (req o >>= f) v Q := h

theorem meets_disk {f : Disk → DM α} {v : View} {D : Disk} {Q : α → View → Prop} (hv : v.held = some D)
    (h : v.Facts → Meets (f D) v Q) : Meets (req .disk >>= f) v Q := ⟨D, hv, h⟩

variable {D : Disk} {r : Req} {own : List ℕ} {owe served : Bool}

/-- The stores that need nothing but descriptors of the call's own. -/
def Store.plain : Store → Bool
  | .opType _ _ | .opReserved _ _ | .opSector _ _ | .descAddr _ _ | .descLen _ _ | .descFlags _ _
  | .descNext _ _ | .infoB _ (some _) | .bufDisk _ true | .availRing _ _ => true
  | _ => false

theorem meets_set {w : Store} {f : Unit → DM α} {Q : α → View → Prop} (hp : w.plain = true) (hw : w.May D r own)
    (h : Meets (f ()) (.work (D.store w) r own owe served) Q) :
    Meets (req (.set w) >>= f) (.work D r own owe served) Q := by
  have hspec : workSpec w (fun r w => Meets (f r) w Q) (.work D r own owe served) := by
    refine ⟨D, r, own, owe, served, rfl, hw, ?_⟩
    cases w with
    | free i v => cases hp
    | _ => simpa only [Store.own, Store.frees, Bool.or_false] using h
  cases w with
  | availIdx n => cases hp
  | usedIdx n => cases hp
  | free i v => cases hp
  | bufDisk b x =>
    cases x with
    | true => exact hspec
    | false => cases hp
  | infoB i b =>
    cases b with
    | some b => exact hspec
    | none => cases hp
  | _ => exact hspec

theorem meets_take {i : ℕ} {f : Unit → DM α} {Q : α → View → Prop} (hi : i < NUM) (hfree : D.free i = true)
    (h : Meets (f ()) (.work (D.store (.free i false)) r (i :: own) owe served) Q) :
    Meets (req (.set (.free i false)) >>= f) (.work D r own owe served) Q := by
  refine ⟨D, r, own, owe, served, rfl, ⟨hi, hfree⟩, ?_⟩
  simpa [Store.own, Store.frees] using h

theorem meets_setStatus {i : ℕ} {st : UInt8} {f : Unit → DM α} {Q : α → View → Prop} (hi : i ∈ own)
    (h : Meets (f ()) (.work D r own owe served) Q) :
    Meets (req (.setStatus i st) >>= f) (.work D r own owe served) Q :=
  ⟨D, r, own, owe, served, rfl, hi, h⟩

/-! ### Allocation -/

/-- What `alloc_desc` gives back. -/
def Allocated (D : Disk) (r : Req) (own : List ℕ) (owe served : Bool) (res : Option ℕ) (v : View) : Prop :=
  match res with
  | none => v = .work D r own owe served ∧ ∀ i < NUM, D.free i = false
  | some i => v = .work (D.store (.free i false)) r (i :: own) owe served ∧ i < NUM

theorem allocFrom_meets (n i : ℕ) (hn : n + i = NUM) (hi : ∀ j < i, D.free j = false) :
    Meets (allocFrom n i) (.work D r own owe served) (Allocated D r own owe served) := by
  induction n generalizing i with
  | zero =>
    rw [Nat.zero_add] at hn
    exact ⟨rfl, hn ▸ hi⟩
  | succ n ih =>
    apply meets_disk rfl
    intro _
    have hlt : i < NUM := by omega
    split
    · next hfree => exact meets_take hlt hfree ⟨rfl, hlt⟩
    · next hfree =>
      apply ih (i + 1) (by omega)
      intro j hj
      rcases Nat.lt_succ_iff_lt_or_eq.mp hj with hj | rfl
      · exact hi j hj
      · simpa using hfree

theorem allocDesc_meets : Meets allocDesc (.work D r own owe served) (Allocated D r own owe served) :=
  allocFrom_meets NUM 0 rfl fun _ hj => absurd hj (Nat.not_lt_zero _)

/-- `free_desc` on a descriptor of one's own. -/
theorem freeDesc_meets {i : ℕ} (hi : i ∈ own) (hlt : i < NUM) :
    Meets (freeDesc i) (.work D r own owe served) fun _ v => ∃ D', v = .work D' r (own.erase i) false served ∧
      D'.free = Function.update D.free i true ∧ ∀ l, l ≠ i → D'.desc l = D.desc l := by
  rw [freeDesc, if_neg (Nat.not_le.mpr hlt)]
  apply meets_disk rfl
  intro hown
  rw [if_neg (by simp [hown.taken i hi])]
  apply meets_set rfl (by exact hi)
  apply meets_set rfl (by exact hi)
  apply meets_set rfl (by exact hi)
  apply meets_set rfl (by exact hi)
  refine ⟨_, r, own, owe, served, rfl, hi, _, r, own.erase i, _, served, rfl, _, rfl, rfl, ?_⟩
  intro l hl
  simp [Disk.store, Disk.setDesc, hl]

/-- Among no more than two descriptors too few are free. -/
theorem fewFree_of_subset {D : Disk} {l : List ℕ} (hl : l.length ≤ 2)
    (h : ∀ i < NUM, D.free i = true → i ∈ l) : FewFree D := by
  have hsub : ((Finset.range NUM).filter fun i => D.free i = true) ⊆ l.toFinset := by
    intro i hi
    rw [Finset.mem_filter, Finset.mem_range] at hi
    rw [List.mem_toFinset]
    exact h i hi.1 hi.2
  calc ((Finset.range NUM).filter fun i => D.free i = true).card
      ≤ l.toFinset.card := Finset.card_le_card hsub
    _ ≤ l.length := l.toFinset_card_le
    _ < 3 := by omega

/-- What `alloc3_desc` gives back: three descriptors, or none because there are too few. -/
def Allocated3 (r : Req) (res : Option (ℕ × ℕ × ℕ)) (v : View) : Prop :=
  match res with
  | none => ∃ D, v = .work D r [] false false ∧ FewFree D
  | some (i, j, k) => ∃ D, v = .work D r [k, j, i] false false

theorem alloc3Desc_meets : Meets alloc3Desc (.work D r [] false false) (Allocated3 r) := by
  apply meets_bind
  apply allocDesc_meets.mono
  intro i v hi
  cases i with
  | none =>
    obtain ⟨rfl, hnone⟩ := hi
    exact ⟨D, rfl, fewFree_of_subset (l := []) (by simp) fun i hi hf => by simp [hnone i hi] at hf⟩
  | some i =>
    obtain ⟨rfl, hilt⟩ := hi
    apply meets_bind
    apply allocDesc_meets.mono
    intro j v hj
    cases j with
    | none =>
      obtain ⟨rfl, hnone⟩ := hj
      apply meets_bind
      apply (freeDesc_meets (by simp) hilt).mono
      rintro - v ⟨D', rfl, hfree, -⟩
      refine ⟨D', by rw [List.erase_cons_head], fewFree_of_subset (l := [i]) (by simp) ?_⟩
      intro l hl hf
      by_contra hne
      rw [hfree, Function.update_of_ne (by simpa using hne), hnone l hl] at hf
      cases hf
    | some j =>
      obtain ⟨rfl, hjlt⟩ := hj
      apply meets_bind
      apply allocDesc_meets.mono
      intro k v hk
      cases k with
      | none =>
        obtain ⟨rfl, hnone⟩ := hk
        apply meets_bind
        apply (freeDesc_meets (by simp) hilt).mono
        rintro - v ⟨D', rfl, hfree, -⟩
        have herase : [j, i].erase i = [j] := by
          by_cases hji : j = i
          · simp [hji]
          · simp [List.erase_cons_tail, hji]
        rw [herase]
        apply meets_bind
        apply (freeDesc_meets (by simp) hjlt).mono
        rintro - v ⟨D'', rfl, hfree', -⟩
        refine ⟨D'', by rw [List.erase_cons_head], fewFree_of_subset (l := [i, j]) (by simp) ?_⟩
        intro l hl hf
        by_contra hne
        have hli : l ≠ i ∧ l ≠ j := by simpa using hne
        rw [hfree', Function.update_of_ne hli.2, hfree, Function.update_of_ne hli.1, hnone l hl] at hf
        cases hf
      | some k =>
        obtain ⟨rfl, -⟩ := hk
        exact ⟨_, rfl⟩

theorem sleepFree_meets (hD : FewFree D) :
    Meets (sleep .free) (.work D r [] false false) fun _ v => ∃ D', v = .work D' r [] false false :=
  ⟨D, r, rfl, hD, .inl ⟨r, rfl, fun D' => ⟨D', rfl⟩⟩⟩

theorem allocLoop_meets (fuel : ℕ) (D : Disk) :
    Meets (allocLoop fuel) (.work D r [] false false) fun idx v =>
      ∃ D', v = .work D' r [idx.2.2, idx.2.1, idx.1] false false := by
  induction fuel generalizing D with
  | zero =>
    refine ⟨D, rfl, ?_⟩
    intro r' own owe h
    cases h
  | succ fuel ih =>
    apply meets_bind
    apply alloc3Desc_meets.mono
    intro res v hres
    cases res with
    | none =>
      obtain ⟨D', rfl, hfew⟩ := hres
      apply meets_bind
      apply (sleepFree_meets hfew).mono
      rintro - v ⟨D'', rfl⟩
      exact ih D''
    | some idx => exact hres

/-! ### The request -/

theorem formatHead_meets {write : Bool} {sector i j : ℕ} (hi : i ∈ own) :
    Meets (formatHead write sector i j) (.work D r own owe served) fun _ v => ∃ D',
      v = .work D' r own owe served ∧ D'.desc i = ⟨.op i, 16, VRING_DESC_F_NEXT, j⟩ ∧
      D'.ops i = ⟨if write then VIRTIO_BLK_T_OUT else VIRTIO_BLK_T_IN, 0, sector⟩ := by
  apply meets_set rfl (by exact hi)
  apply meets_set rfl (by exact hi)
  apply meets_set rfl (by exact hi)
  apply meets_set rfl (by exact hi)
  apply meets_set rfl (by exact hi)
  apply meets_set rfl (by exact hi)
  apply meets_set rfl (by exact hi)
  refine ⟨_, rfl, ?_, ?_⟩ <;> simp [Disk.store, Disk.setDesc, Disk.setOp]

theorem formatBody_meets {b : ℕ} {write : Bool} {j k : ℕ} (hj : j ∈ own) :
    Meets (formatBody b write j k) (.work D r own owe served) fun _ v => ∃ D',
      v = .work D' r own owe served ∧ D'.desc j = ⟨.data b, BSIZE,
        if write then VRING_DESC_F_NEXT else VRING_DESC_F_NEXT ||| VRING_DESC_F_WRITE, k⟩ ∧
      (∀ l, l ≠ j → D'.desc l = D.desc l) ∧ D'.ops = D.ops := by
  apply meets_set rfl (by exact hj)
  apply meets_set rfl (by exact hj)
  apply meets_set rfl (by exact hj)
  cases write with
  | true =>
    apply meets_set rfl (by exact hj)
    refine ⟨_, rfl, ?_, ?_, rfl⟩
    · simp [Disk.store, Disk.setDesc]
    · intro l hl
      simp [Disk.store, Disk.setDesc, hl]
  | false =>
    apply meets_disk rfl
    intro _
    apply meets_set rfl (by exact hj)
    apply meets_set rfl (by exact hj)
    refine ⟨_, rfl, ?_, ?_, rfl⟩
    · simp [Disk.store, Disk.setDesc]
    · intro l hl
      simp [Disk.store, Disk.setDesc, hl]

theorem formatTail_meets {i k : ℕ} (hi : i ∈ own) (hk : k ∈ own) :
    Meets (formatTail i k) (.work D r own owe served) fun _ v => ∃ D',
      v = .work D' r own owe served ∧ D'.desc k = ⟨.status i, 1, VRING_DESC_F_WRITE, 0⟩ ∧
      (∀ l, l ≠ k → D'.desc l = D.desc l) ∧ D'.ops = D.ops := by
  apply meets_setStatus hi
  apply meets_set rfl (by exact hk)
  apply meets_set rfl (by exact hk)
  apply meets_set rfl (by exact hk)
  apply meets_set rfl (by exact hk)
  refine ⟨_, rfl, ?_, ?_, rfl⟩
  · simp [Disk.store, Disk.setDesc]
  · intro l hl
    simp [Disk.store, Disk.setDesc, hl]

/-- Everything but `avail` is in place, provided that the three descriptors are distinct. -/
theorem format_meets (c : Chain) :
    Meets (format c.req.b c.req.write (sectorOf c.req.blockno) c.i c.j c.k) (.work D c.req c.own false false)
      fun _ v => ∃ D', v = .work D' c.req c.own false false ∧ (c.own.Nodup → Formatted D' c) ∧
        D'.bufDisk c.req.b = true := by
  have hi : c.i ∈ c.own := by simp [Chain.own]
  have hj : c.j ∈ c.own := by simp [Chain.own]
  have hk : c.k ∈ c.own := by simp [Chain.own]
  apply meets_bind
  apply (formatHead_meets hi).mono
  rintro - v ⟨D₁, rfl, hhead, hop⟩
  apply meets_bind
  apply (formatBody_meets hj).mono
  rintro - v ⟨D₂, rfl, hbody, hother₂, hops₂⟩
  apply meets_bind
  apply (formatTail_meets hi hk).mono
  rintro - v ⟨D₃, rfl, htail, hother₃, hops₃⟩
  apply meets_set rfl (by exact ⟨rfl, rfl⟩)
  apply meets_set rfl (by exact hi)
  refine ⟨_, rfl, ?_, Function.update_self _ _ _⟩
  intro hnodup
  have hne : (c.k ≠ c.j ∧ c.k ≠ c.i) ∧ c.j ≠ c.i := by simpa [Chain.own] using hnodup
  constructor
  · exact (congrFun (hops₃.trans hops₂) c.i).trans hop
  · exact ((hother₃ _ hne.1.2.symm).trans (hother₂ _ hne.2.symm)).trans hhead
  · exact (hother₃ _ hne.1.1.symm).trans hbody
  · exact htail
  · exact Function.update_self _ _ _

theorem publish_meets {c : Chain} (hfmt : c.own.Nodup → Formatted D c) (hbuf : D.bufDisk c.req.b = true) :
    Meets (publish c.i) (.work D c.req c.own false false) fun _ v => ∃ D', v = .wait D' c false := by
  apply meets_disk rfl
  intro hown
  apply meets_set rfl (by exact ⟨rfl, by simp [Chain.own]⟩)
  apply meets_disk rfl
  intro _
  have hf := hfmt hown.nodup
  refine ⟨_, c, rfl, ⟨hf.op, hf.head, hf.body, hf.tail, hf.buf⟩, hbuf, Function.update_self _ _ _, rfl, ?_⟩
  exact ⟨_, c, rfl, _, rfl⟩

theorem waitLoop_meets (c : Chain) (fuel : ℕ) (D : Disk) :
    Meets (waitLoop c.req.b fuel) (.wait D c false) fun _ v => ∃ D', v = .wait D' c false ∧
      D'.bufDisk c.req.b = false ∧ Formatted D' c := by
  induction fuel generalizing D with
  | zero =>
    refine ⟨D, rfl, ?_⟩
    intro r own owe h
    cases h
  | succ fuel ih =>
    apply meets_disk rfl
    intro hfacts
    split
    · next hbuf =>
      refine ⟨D, c, rfl, rfl, hbuf, .inr ⟨c, rfl, ?_⟩⟩
      intro D'
      exact ih D'
    · next hbuf => exact ⟨D, rfl, by simpa using hbuf, hfacts.1⟩

theorem freeChain_round {fuel i : ℕ} {Q : Unit → View → Prop} (hi : i ∈ own)
    (h : own.Nodup → ∀ D', (∀ l, l ≠ i → D'.desc l = D.desc l) →
      Meets (if (D.desc i).flags &&& VRING_DESC_F_NEXT ≠ 0 then freeChain fuel (D.desc i).next else pure ())
        (.work D' r (own.erase i) false served) Q) :
    Meets (freeChain (fuel + 1) i) (.work D r own owe served) Q := by
  apply meets_disk rfl
  intro hown
  apply meets_disk rfl
  intro _
  apply meets_bind
  apply (freeDesc_meets hi (hown.lt i hi)).mono
  rintro - v ⟨D', rfl, -, hother⟩
  exact h hown.nodup D' hother

/-- The chain is given back, and the loop of `free_chain` ends after three rounds. -/
theorem freeChain_meets {c : Chain} {D₀ : Disk} (hf : Formatted D₀ c) (hdesc : D.desc = D₀.desc) :
    Meets (freeChain NUM c.i) (.work D c.req c.own false true) fun _ v => ∃ D', v = .work D' c.req [] false true := by
  have hi : c.i ∈ c.own := by simp [Chain.own]
  apply freeChain_round hi
  intro hnodup D₁ h₁
  have hne : (c.k ≠ c.j ∧ c.k ≠ c.i) ∧ c.j ≠ c.i := by simpa [Chain.own] using hnodup
  have herase : c.own.erase c.i = [c.k, c.j] := by
    simp [Chain.own, List.erase_cons_tail, hne.1.2, hne.2]
  have hbody : D₁.desc c.j = D₀.desc c.j := (h₁ _ hne.2).trans (congrFun hdesc _)
  rw [hdesc, hf.head, herase, if_pos (show VRING_DESC_F_NEXT &&& VRING_DESC_F_NEXT ≠ 0 by decide)]
  apply freeChain_round (by simp)
  intro _ D₂ h₂
  have hflags : (D₁.desc c.j).flags &&& VRING_DESC_F_NEXT ≠ 0 := by
    rw [hbody, hf.body]
    cases c.req.write
    · exact show (VRING_DESC_F_NEXT ||| VRING_DESC_F_WRITE) &&& VRING_DESC_F_NEXT ≠ 0 by decide
    · exact show VRING_DESC_F_NEXT &&& VRING_DESC_F_NEXT ≠ 0 by decide
  have hnext : (D₁.desc c.j).next = c.k := by rw [hbody, hf.body]
  have htail : D₂.desc c.k = D₀.desc c.k :=
    ((h₂ _ hne.1.1).trans (h₁ _ hne.1.2)).trans (congrFun hdesc _)
  rw [if_pos hflags, hnext, List.erase_cons_tail (by simpa using hne.1.1), List.erase_cons_head]
  apply freeChain_round (by simp)
  intro _ D₃ _
  rw [htail, hf.tail, if_neg (show ¬ VRING_DESC_F_WRITE &&& VRING_DESC_F_NEXT ≠ 0 by decide),
    List.erase_cons_head]
  exact ⟨D₃, rfl⟩

theorem virtioDiskRw_meets (fuel : ℕ) (r : Req) :
    Meets (virtioDiskRw fuel r.b r.write) (.called r) fun _ v => v = .out := by
  refine meets_req ⟨r, rfl, rfl, meets_req (.inl ⟨r, rfl, ?_⟩)⟩
  intro D
  apply meets_bind
  apply (allocLoop_meets fuel D).mono
  rintro ⟨i, j, k⟩ v ⟨D₁, rfl⟩
  apply meets_bind
  apply (format_meets ⟨r, i, j, k⟩).mono
  rintro - v ⟨D₂, rfl, hfmt, hbuf⟩
  apply meets_bind
  apply (publish_meets hfmt hbuf).mono
  rintro - v ⟨D₃, rfl⟩
  apply meets_bind
  apply (waitLoop_meets ⟨r, i, j, k⟩ fuel D₃).mono
  rintro - v ⟨D₄, rfl, hdone, hf⟩
  refine meets_req ⟨D₄, ⟨r, i, j, k⟩, rfl, rfl, hdone, ?_⟩
  apply meets_bind
  apply (freeChain_meets (D := D₄.store (.infoB i none)) hf rfl).mono
  rintro - v ⟨D₅, rfl⟩
  exact .inl ⟨D₅, r, rfl, r, rfl, rfl, rfl⟩

/-! ### The handler -/

theorem meets_usedIdx {f : ℕ → DM α} {Q : α → View → Prop} (h : Meets (f D.usedIdx) (.hand D .done) Q)
    (hne : ∀ u, D.usedIdx ≠ u → Meets (f u) (.hand D .found) Q) : Meets (req .usedIdx >>= f) (.hand D .sweep) Q :=
  ⟨D, rfl, h, fun u hu => hne u hu.symm⟩

theorem meets_status {id : ℕ} {f : UInt8 → DM α} {Q : α → View → Prop} (h : Meets (f 0) (.hand D (.clean id)) Q)
    (hne : ∀ st, st ≠ 0 → Meets (f st) (.hand D .bad) Q) : Meets (req (.status id) >>= f) (.hand D (.got id)) Q :=
  ⟨D, rfl, h, hne⟩

theorem intrLoop_meets (fuel : ℕ) (D : Disk) :
    Meets (intrLoop fuel) (.hand D .sweep) fun _ v => ∃ D', v = .hand D' .done := by
  induction fuel generalizing D with
  | zero =>
    refine ⟨D, rfl, ?_⟩
    intro r own owe h
    cases h
  | succ fuel ih =>
    apply meets_disk rfl
    intro _
    apply meets_usedIdx
    · rw [if_neg (not_not.mpr rfl)]
      exact ⟨D, rfl⟩
    · intro u hu
      rw [if_pos hu]
      apply meets_disk rfl
      intro _
      refine meets_req ⟨D, rfl, rfl, ?_⟩
      intro id
      apply meets_status
      · rw [if_neg (not_not.mpr rfl)]
        apply meets_disk rfl
        rintro ⟨b, hb⟩
        simp only [hb]
        refine meets_req ⟨D, id, rfl, hb, meets_req ⟨_, id, rfl, ?_⟩⟩
        apply meets_disk rfl
        intro _
        exact meets_req ⟨_, id, rfl, rfl, ih _⟩
      · intro st hst
        rw [if_pos hst]
        exact ⟨rfl, D, rfl⟩

theorem virtioDiskIntr_meets (fuel : ℕ) : Meets (virtioDiskIntr fuel) .out fun _ v => v = .out := by
  refine meets_req (.inr ⟨rfl, ?_⟩)
  intro D
  refine meets_req ⟨D, rfl, ?_⟩
  intro st
  refine meets_req ⟨D, rfl, ?_⟩
  apply meets_bind
  apply (intrLoop_meets fuel D).mono
  rintro - v ⟨D', rfl⟩
  exact .inr ⟨D', rfl, rfl⟩

end
end Xv6Arm.Virtio

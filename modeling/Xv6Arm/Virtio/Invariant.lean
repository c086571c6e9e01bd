import Xv6Arm.Virtio.Protocol
import Xv6Arm.Lib.Ring

/-!
# The invariant of the disk driver

Every descriptor that is not free belongs to one call. Every published chain whose
buffer is still marked is in exactly one place: in the avail ring, with the device,
or in the used ring. Whoever sleeps has a reason to or is about to be woken, and an
entry that nobody has looked at yet has an interrupt or a notification under way.
-/
namespace Xv6Arm.Virtio
open Lib

namespace View

def req : View → Option Req
  | .called r | .work _ r _ _ _ | .napFree r | .back r => some r
  | .wait _ c _ | .nap c => some c.req
  | .out | .hand _ _ => none

def own : View → List ℕ
  | .work _ _ own _ _ => own
  | .wait _ c _ | .nap c => c.own
  | _ => []

def chain : View → Option Chain
  | .wait _ c _ | .nap c => some c
  | _ => none

/-- How often the request has been carried out, where the thread knows it. -/
def turns : View → Option ℕ
  | .called _ | .napFree _ => some 0
  | .work _ _ _ _ served => some served.toNat
  | .back _ => some 1
  | _ => none

def bed : View → Option Chan
  | .napFree _ => some .free
  | .nap c => some (.buf c.req.b)
  | _ => none

/-- The channel that the thread is about to call `wakeup` on. -/
def owes : View → Option Chan
  | .work _ _ _ true _ => some .free
  | .hand _ (.cleared _ b) => some (.buf b)
  | _ => none

def phase : View → Option Hand
  | .hand _ h => some h
  | _ => none

/-- The device is still to be notified. -/
def rings : View → Bool
  | .wait _ _ ring => ring
  | _ => false

theorem req_of_chain {v : View} {c : Chain} (hc : v.chain = some c) : v.req = some c.req := by
  cases v with
  | wait D c' ring | nap c' =>
    cases hc
    rfl
  | _ => cases hc

end View

/-- The handler will read `used->idx` again, or stop the system. -/
def Hand.sweeps : Hand → Bool
  | .enter | .done => false
  | _ => true

/-- The elements of the used ring that are dealt with although `used_idx` has not moved yet. -/
def Hand.reaped : Hand → List ℕ
  | .cleared id _ | .woken id => [id]
  | _ => []

/-- What the handler has found out about the elements `u` of the used ring. -/
def Hand.Ok (u : List ℕ) (s : Sys) : Hand → Prop
  | .found => u ≠ []
  | .got id => ∃ l, u = id :: l
  | .clean id => (∃ l, u = id :: l) ∧ s.status id = 0
  | .bad => s.failed = true
  | _ => True

/-- What the device makes of a chain. -/
def Chain.fetched (c : Chain) (stage : Stage) : Fetched :=
  ⟨c.i, c.req.write, sectorOf c.req.blockno, c.req.b, BSIZE, c.i, stage⟩

section
variable (s : Sys) (t : ℕ) (c : Chain)

/-- Call `c` of thread `t` has been carried out `n` times. -/
def Served (n : ℕ) : Prop := s.calls c.req.b = some ⟨t, c.req.write, n⟩

/-- `st` is the right answer to the call. -/
def Answer (st : UInt8) : Prop := st = 0 ∧ Served s t c 1 ∨ st ≠ 0 ∧ s.failed = true

def Stage.Ok : Stage → Prop
  | .taken => Served s t c 0
  | .answered st => Answer s t c st
  | .stamped => Answer s t c (s.status c.i)

end

structure Mutex (known : ℕ → Option Disk) (s : Sys) : Prop where
  held : ∀ t D, known t = some D → s.disk = D ∧ s.lock = some t
  holder : ∀ t, s.lock = some t → ∃ D, known t = some D

structure Callers (req : ℕ → Option Req) (count : ℕ → Option ℕ) (s : Sys) : Prop where
  call : ∀ t r, req t = some r → ∃ n, s.calls r.b = some ⟨t, r.write, n⟩
  blockno : ∀ t r, req t = some r → s.blockno r.b = r.blockno
  caller : ∀ b c, s.calls b = some c → ∃ r, req c.thread = some r ∧ r.b = b
  turns : ∀ t r n, req t = some r → count t = some n → s.calls r.b = some ⟨t, r.write, n⟩
  small : ∀ b, s.blockno b < MAXBLOCK

structure Owners (own : ℕ → List ℕ) (chain : ℕ → Option Chain) (d : Disk) : Prop where
  owned : ∀ t, Owned d (own t)
  disj : ∀ t u i, i ∈ own t → i ∈ own u → t = u
  cover : ∀ i < NUM, d.free i = false → ∃ t, i ∈ own t
  format : ∀ t c, chain t = some c → own t = c.own ∧ Formatted d c

/-- Every head that is somewhere between the driver and the device: in the avail ring `q`, with the
device, or in the used ring `u`. -/
def line (s : Sys) (q u : List ℕ) : List ℕ :=
  q ++ (s.dev.flight.map Fetched.head ++ (s.dev.out.toList ++ u))

/-- `p` are the elements of the used ring that the handler has dealt with. -/
structure Flow (chain : ℕ → Option Chain) (q p u : List ℕ) (s : Sys) : Prop where
  avail : Ring.Holds NUM (2 ^ 16) s.disk.avail.ring s.dev.last s.disk.avail.idx q
  used : Ring.Holds NUM (2 ^ 16) s.used.ring s.disk.usedIdx s.used.idx (p ++ u)
  out : ∀ h, s.dev.out = some h → s.used.ring (s.used.idx % NUM) = h
  seen : ∃ n ≤ q.length, s.dev.seen = (s.dev.last + n) % 2 ^ 16
  nodup : (line s q (p ++ u)).Nodup
  queued : ∀ h ∈ q, ∃ t c, chain t = some c ∧ c.i = h ∧ s.disk.bufDisk c.req.b = true ∧ Served s t c 0
  flying : ∀ f ∈ s.dev.flight, ∃ t c, chain t = some c ∧ f = c.fetched f.stage ∧
    s.disk.bufDisk c.req.b = true ∧ f.stage.Ok s t c
  landed : ∀ h ∈ s.dev.out.toList ++ u, ∃ t c, chain t = some c ∧ c.i = h ∧
    s.disk.bufDisk c.req.b = true ∧ Answer s t c (s.status c.i)
  reaped : ∀ h ∈ p, ∃ t c, chain t = some c ∧ c.i = h ∧ s.disk.bufDisk c.req.b = false
  waiting : ∀ t c, chain t = some c → s.disk.bufDisk c.req.b = true → c.i ∈ line s q u
  done : ∀ t c, chain t = some c → s.disk.bufDisk c.req.b = false → Served s t c 1

/-- The handler's knowledge, and `p`, which is empty while nobody is in the handler. -/
structure Hands (phase : ℕ → Option Hand) (p u : List ℕ) (s : Sys) : Prop where
  ok : ∀ t h, phase t = some h → h.Ok u s ∧ p = h.reaped
  idle : (∀ t, phase t = none) → p = []

/-- What a process has to find in order to go to sleep on a channel. -/
def Reason (d : Disk) : Chan → Prop
  | .free => FewFree d
  | .buf b => d.bufDisk b = true

structure Naps (lies owes : ℕ → Option Chan) (s : Sys) : Prop where
  bed : ∀ t ch, s.asleep t = some ch → lies t = some ch
  reason : ∀ t ch, s.asleep t = some ch → Reason s.disk ch ∨ ∃ u, owes u = some ch

structure Bells (phase : ℕ → Option Hand) (rings : ℕ → Bool) (s : Sys) : Prop where
  notify : s.dev.seen ≠ s.disk.avail.idx → s.notified = true ∨ ∃ t, rings t = true
  interrupt : s.disk.usedIdx ≠ s.used.idx →
    s.isr &&& 1 ≠ 0 ∨ s.dev.raising = true ∨ ∃ t h, phase t = some h ∧ h.sweeps = true

/-- The invariant, for given contents of the two rings. -/
structure InvOf (vs : ℕ → View) (s : Sys) (q p u : List ℕ) : Prop where
  mutex : Mutex (fun t => (vs t).held) s
  callers : Callers (fun t => (vs t).req) (fun t => (vs t).turns) s
  owners : Owners (fun t => (vs t).own) (fun t => (vs t).chain) s.disk
  flow : Flow (fun t => (vs t).chain) q p u s
  hands : Hands (fun t => (vs t).phase) p u s
  naps : Naps (fun t => (vs t).bed) (fun t => (vs t).owes) s
  bells : Bells (fun t => (vs t).phase) (fun t => (vs t).rings) s
  broken : s.broken = false

def Inv (vs : ℕ → View) (s : Sys) : Prop := ∃ q p u, InvOf vs s q p u

/-- A part of the views that one thread does not change. -/
theorem proj_update {α : Type} {vs : ℕ → View} {t : ℕ} {w : View} (f : View → α) (h : f w = f (vs t)) :
    (fun u => f (Function.update vs t w u)) = fun u => f (vs u) := by
  funext u
  rw [Function.update_apply]
  split
  · next hu => rw [h, hu]
  · rfl

theorem proj_update_self {α : Type} {vs : ℕ → View} {t : ℕ} {w : View} (f : View → α) :
    (fun u => f (Function.update vs t w u)) = Function.update (fun u => f (vs u)) t (f w) := by
  funext u
  simp only [Function.update_apply]
  split <;> rfl

/-! ## Parts of the state that the invariant does not mention -/

section
variable {s s' : Sys}

theorem Callers.congr {req : ℕ → Option Req} {count : ℕ → Option ℕ} (h : Callers req count s)
    (hcalls : s'.calls = s.calls) (hblk : s'.blockno = s.blockno) : Callers req count s' := by
  obtain ⟨h1, h2, h3, h4, h5⟩ := h
  constructor <;> simpa only [hcalls, hblk]

theorem Hands.congr {phase : ℕ → Option Hand} {p u : List ℕ} (h : Hands phase p u s)
    (hstatus : s'.status = s.status) (hfailed : s'.failed = s.failed) : Hands phase p u s' := by
  refine ⟨?_, h.idle⟩
  intro t x hx
  obtain ⟨hok, hp⟩ := h.ok t x hx
  refine ⟨?_, hp⟩
  cases x <;> simp only [Hand.Ok, hstatus, hfailed] at hok ⊢ <;> exact hok

/-- The places of the chains depend on the memory of the driver only where the chains are. -/
theorem Flow.congr {chain : ℕ → Option Chain} {q p u : List ℕ} (h : Flow chain q p u s)
    (hdev : s'.dev = s.dev) (hused : s'.used = s.used) (hfailed : s'.failed = s.failed)
    (hidx : s'.disk.usedIdx = s.disk.usedIdx)
    (havail : Ring.Holds NUM (2 ^ 16) s'.disk.avail.ring s.dev.last s'.disk.avail.idx q)
    (hchain : ∀ t c, chain t = some c → s'.disk.bufDisk c.req.b = s.disk.bufDisk c.req.b ∧
      s'.calls c.req.b = s.calls c.req.b ∧ s'.status c.i = s.status c.i) : Flow chain q p u s' := by
  have hserved : ∀ t c n, chain t = some c → Served s t c n → Served s' t c n := by
    intro t c n hc hn
    rwa [Served, (hchain t c hc).2.1]
  have hanswer : ∀ t c st, chain t = some c → Answer s t c st → Answer s' t c st := by
    rintro t c st hc (⟨hst, hn⟩ | ⟨hst, hf⟩)
    · exact .inl ⟨hst, hserved t c 1 hc hn⟩
    · exact .inr ⟨hst, hfailed.trans hf⟩
  constructor
  · rwa [hdev]
  · rw [hused, hidx]
    exact h.used
  · rw [hdev, hused]
    exact h.out
  · rw [hdev]
    exact h.seen
  · rw [line, hdev]
    exact h.nodup
  · intro i hi
    obtain ⟨t, c, hc, hci, hb, hn⟩ := h.queued i hi
    exact ⟨t, c, hc, hci, (hchain t c hc).1.trans hb, hserved t c 0 hc hn⟩
  · intro f hf
    rw [hdev] at hf
    obtain ⟨t, c, hc, hfc, hb, hst⟩ := h.flying f hf
    refine ⟨t, c, hc, hfc, (hchain t c hc).1.trans hb, ?_⟩
    cases hstage : f.stage with
    | taken =>
      rw [hstage] at hst
      exact hserved t c 0 hc hst
    | answered st =>
      rw [hstage] at hst
      exact hanswer t c st hc hst
    | stamped =>
      rw [hstage] at hst
      rw [Stage.Ok, (hchain t c hc).2.2]
      exact hanswer t c _ hc hst
  · intro i hi
    rw [hdev] at hi
    obtain ⟨t, c, hc, hci, hb, hst⟩ := h.landed i hi
    refine ⟨t, c, hc, hci, (hchain t c hc).1.trans hb, ?_⟩
    rw [(hchain t c hc).2.2]
    exact hanswer t c _ hc hst
  · intro i hi
    obtain ⟨t, c, hc, hci, hb⟩ := h.reaped i hi
    exact ⟨t, c, hc, hci, (hchain t c hc).1.trans hb⟩
  · intro t c hc hb
    rw [line, hdev]
    exact h.waiting t c hc ((hchain t c hc).1.symm.trans hb)
  · intro t c hc hb
    exact hserved t c 1 hc (h.done t c hc ((hchain t c hc).1.symm.trans hb))

theorem Naps.congr {lies owes : ℕ → Option Chan} (h : Naps lies owes s) (hasleep : s'.asleep = s.asleep)
    (hdisk : s'.disk = s.disk) : Naps lies owes s' := by
  obtain ⟨h1, h2⟩ := h
  constructor <;> simpa only [hasleep, hdisk]

theorem Bells.congr {phase : ℕ → Option Hand} {rings : ℕ → Bool} (h : Bells phase rings s)
    (hdev : s'.dev = s.dev) (hused : s'.used = s.used) (hnotified : s'.notified = s.notified)
    (hisr : s'.isr = s.isr) (havail : s'.disk.avail = s.disk.avail)
    (hidx : s'.disk.usedIdx = s.disk.usedIdx) : Bells phase rings s' := by
  obtain ⟨h1, h2⟩ := h
  constructor <;> simpa only [hdev, hused, hnotified, hisr, havail, hidx]

end

/-! ## Consequences -/

/-- Heads that are pairwise different are no more than `NUM`. -/
theorem length_le_NUM {l : List ℕ} (hnodup : l.Nodup) (hlt : ∀ i ∈ l, i < NUM) : l.length ≤ NUM := by
  have hsub : l ⊆ List.range NUM := fun i hi => List.mem_range.mpr (hlt i hi)
  simpa using (hnodup.subperm hsub).length_le

/-- A buffer belongs to one call. -/
theorem Callers.unique {req : ℕ → Option Req} {count : ℕ → Option ℕ} {s : Sys} (h : Callers req count s) {t v : ℕ}
    {r r' : Req} (hr : req t = some r) (hr' : req v = some r') (hb : r.b = r'.b) : t = v := by
  obtain ⟨n, hn⟩ := h.call t r hr
  obtain ⟨n', hn'⟩ := h.call v r' hr'
  rw [hb, hn'] at hn
  exact (congrArg Call.thread (Option.some.inj hn)).symm

namespace InvOf
variable {vs : ℕ → View} {s : Sys} {q p u : List ℕ} {t : ℕ}

theorem chain_own (h : InvOf vs s q p u) {c : Chain} (hc : (vs t).chain = some c) : c.i ∈ (vs t).own := by
  have hown : (vs t).own = c.own := (h.owners.format t c hc).1
  rw [hown]
  simp [Chain.own]

/-- A head belongs to one chain. -/
theorem chain_unique (h : InvOf vs s q p u) {v : ℕ} {c c' : Chain} (hc : (vs t).chain = some c)
    (hc' : (vs v).chain = some c') (hi : c.i = c'.i) : t = v ∧ c = c' := by
  have hown := h.chain_own hc
  rw [hi] at hown
  have htv : t = v := h.owners.disj t v _ hown (h.chain_own hc')
  subst htv
  rw [hc] at hc'
  exact ⟨rfl, Option.some.inj hc'⟩

theorem req_unique (h : InvOf vs s q p u) {v : ℕ} {r r' : Req} (hr : (vs t).req = some r)
    (hr' : (vs v).req = some r') (hb : r.b = r'.b) : t = v :=
  h.callers.unique hr hr' hb

/-- Every head on the way, the ones just dealt with included, is that of a chain. -/
theorem mem_line (h : InvOf vs s q p u) {i : ℕ} (hi : i ∈ line s q (p ++ u)) :
    ∃ t c, (vs t).chain = some c ∧ c.i = i := by
  simp only [line, List.mem_append, List.mem_map] at hi
  rcases hi with hi | ⟨f, hf, rfl⟩ | hi | hi | hi
  · obtain ⟨t, c, hc, hci, -⟩ := h.flow.queued i hi
    exact ⟨t, c, hc, hci⟩
  · obtain ⟨t, c, hc, hfc, -⟩ := h.flow.flying f hf
    refine ⟨t, c, hc, ?_⟩
    rw [hfc]
    rfl
  · obtain ⟨t, c, hc, hci, -⟩ := h.flow.landed i (List.mem_append_left _ hi)
    exact ⟨t, c, hc, hci⟩
  · obtain ⟨t, c, hc, hci, -⟩ := h.flow.reaped i hi
    exact ⟨t, c, hc, hci⟩
  · obtain ⟨t, c, hc, hci, -⟩ := h.flow.landed i (List.mem_append_right _ hi)
    exact ⟨t, c, hc, hci⟩

theorem line_length (h : InvOf vs s q p u) : (line s q (p ++ u)).length ≤ NUM := by
  apply length_le_NUM h.flow.nodup
  intro i hi
  obtain ⟨t, c, hc, rfl⟩ := h.mem_line hi
  exact (h.owners.owned t).lt _ (h.chain_own hc)

end InvOf
end Xv6Arm.Virtio

import Xv6Arm.Virtio.Safety

/-!
# The disk driver as a block device

Seen from its callers the driver is a device that reads or writes one block of the
medium in one step, some time between the call and the return. The chains, the two
rings, the lock, the sleeping and the interrupts refine that device.
-/
namespace Xv6Arm.Virtio
open Lib

/-- A medium, the buffers, and the operations on buffers that have begun. -/
structure BlockDevice where
  media : ℕ → UInt8
  blockno : ℕ → ℕ
  data : ℕ → Block
  /-- For a buffer with an operation on it: whether it is a write, and whether it has taken place. -/
  pending : ℕ → Option (Bool × Bool)

namespace BlockDevice

def readBlock (m : ℕ → UInt8) (n : ℕ) (x : Block) : Block :=
  fun i => if i < BSIZE then m (n * BSIZE + i) else x i

def writeBlock (m : ℕ → UInt8) (n : ℕ) (x : Block) : ℕ → UInt8 :=
  fun a => if a / BSIZE = n then x (a % BSIZE) else m a

inductive Step : BlockDevice → BlockDevice → Prop
  | begin (d : BlockDevice) (b : ℕ) (write : Bool) (h : d.pending b = none) :
      Step d { d with pending := Function.update d.pending b (some (write, false)) }
  | read (d : BlockDevice) (b : ℕ) (h : d.pending b = some (false, false)) :
      Step d { d with
        data := Function.update d.data b (readBlock d.media (d.blockno b) (d.data b))
        pending := Function.update d.pending b (some (false, true)) }
  | write (d : BlockDevice) (b : ℕ) (h : d.pending b = some (true, false)) :
      Step d { d with
        media := writeBlock d.media (d.blockno b) (d.data b)
        pending := Function.update d.pending b (some (true, true)) }
  /-- An operation ends only after it has taken place. -/
  | finish (d : BlockDevice) (b : ℕ) (write : Bool) (h : d.pending b = some (write, true)) :
      Step d { d with pending := Function.update d.pending b none }
  /-- A buffer without an operation is changed by whoever holds it. -/
  | edit (d : BlockDevice) (b n : ℕ) (x : Block) (h : d.pending b = none) :
      Step d { d with
        blockno := Function.update d.blockno b n
        data := Function.update d.data b x }

end BlockDevice

/-- What the callers see of the system. -/
def Sys.blockDevice (s : Sys) : BlockDevice where
  media := s.media
  blockno := s.blockno
  data := s.data
  pending b := (s.calls b).map fun c => (c.write, c.served != 0)

/-! ## Sectors and blocks -/

theorem sectorOf_eq {n : ℕ} (h : n < MAXBLOCK) : sectorOf n = 2 * n := by
  change n * 2 % 2 ^ 32 = 2 * n
  change n < 2 ^ 31 at h
  omega

theorem mediaRead_eq (m : ℕ → UInt8) {n : ℕ} (h : n < MAXBLOCK) (x : Block) :
    mediaRead m (sectorOf n) BSIZE x = BlockDevice.readBlock m n x := by
  funext i
  have haddr : 2 * n * 512 + i = n * BSIZE + i := by
    change 2 * n * 512 + i = n * 1024 + i
    omega
  rw [mediaRead, BlockDevice.readBlock, sectorOf_eq h, haddr]

theorem mediaWrite_eq (m : ℕ → UInt8) {n : ℕ} (h : n < MAXBLOCK) (x : Block) :
    mediaWrite m (sectorOf n) BSIZE x = BlockDevice.writeBlock m n x := by
  funext a
  rw [mediaWrite, BlockDevice.writeBlock, sectorOf_eq h]
  change (if 2 * n * 512 ≤ a ∧ a < 2 * n * 512 + 1024 then _ else _) = if a / 1024 = n then _ else _
  by_cases hin : a / 1024 = n
  · have hoff : a - 2 * n * 512 = a % 1024 := by omega
    rw [if_pos hin, if_pos (by omega), hoff]
  · rw [if_neg hin, if_neg (by omega)]

/-! ## The refinement -/

/-- A change of the call on one buffer, as the callers see it. -/
theorem pending_update (calls : ℕ → Option Call) (b : ℕ) (x : Option Call) :
    (fun i => (Function.update calls b x i).map fun c => (c.write, c.served != 0)) =
      Function.update (fun i => (calls i).map fun c => (c.write, c.served != 0)) b
        (x.map fun c => (c.write, c.served != 0)) := by
  funext i
  simp only [Function.update_apply]
  split <;> rfl

section
variable {vs : ℕ → View} {s s' : Sys}

/-- A request carried out by the device is the block operation of the call on its buffer. -/
theorem Inv.serve_refines (h : Inv vs s) {l r : List Fetched} {f : Fetched} (hl : s.dev.flight = l ++ f :: r)
    (hf : f.stage = .taken) : BlockDevice.Step s.blockDevice (s.serve f).blockDevice := by
  obtain ⟨q, p, u, h⟩ := h
  obtain ⟨t, c, hc, hfc, -, hst⟩ := h.flow.flying f (by rw [hl]; simp)
  have hserved : s.calls c.req.b = some ⟨t, c.req.write, 0⟩ := by
    rw [hf] at hst
    exact hst
  have hreq := View.req_of_chain hc
  have hblk : s.blockno c.req.b = c.req.blockno := h.callers.blockno t c.req hreq
  have hsmall : c.req.blockno < MAXBLOCK := by
    rw [← hblk]
    exact h.callers.small _
  rw [hfc, Sys.serve, Sys.blockDevice, Sys.blockDevice]
  simp only [Chain.fetched, pending_update, hserved, Option.map_some]
  rcases Bool.eq_false_or_eq_true c.req.write with hw | hw
  · simp only [hw, if_true]
    rw [mediaWrite_eq s.media hsmall, ← hblk]
    exact .write s.blockDevice c.req.b (by simp [Sys.blockDevice, hserved, hw])
  · simp only [hw, Bool.false_eq_true, if_false]
    rw [mediaRead_eq s.media hsmall, ← hblk]
    exact .read s.blockDevice c.req.b (by simp [Sys.blockDevice, hserved, hw])

theorem Inv.device_refines (h : Inv vs s) (hd : DevStep s s') :
    BlockDevice.Step s.blockDevice s'.blockDevice ∨ s'.blockDevice = s.blockDevice := by
  cases hd with
  | serve l r f hl hf => exact .inl (h.serve_refines hl hf)
  | _ => exact .inr rfl

theorem Inv.finish_refines (h : Inv vs s) {t : ℕ} {r : Req} (hv : vs t = .back r) :
    BlockDevice.Step s.blockDevice
      ({ s with calls := Function.update s.calls r.b none } : Sys).blockDevice := by
  obtain ⟨q, p, u, h⟩ := h
  have hturn : s.calls r.b = some ⟨t, r.write, 1⟩ := h.callers.turns t r 1 (by rw [hv]; rfl) (by rw [hv]; rfl)
  have hstep := BlockDevice.Step.finish s.blockDevice r.b r.write (by simp [Sys.blockDevice, hturn])
  simpa only [Sys.blockDevice, pending_update, Option.map_none] using hstep

theorem call_refines (t b : ℕ) (write : Bool) (hb : s.calls b = none) :
    BlockDevice.Step s.blockDevice
      ({ s with calls := Function.update s.calls b (some ⟨t, write, 0⟩) } : Sys).blockDevice := by
  have hstep := BlockDevice.Step.begin s.blockDevice b write (by simp [Sys.blockDevice, hb])
  rw [Sys.blockDevice, Sys.blockDevice, pending_update]
  exact hstep

end

/-- Every step of every run is a step of the block device or leaves what the callers see unchanged, and
a thread that has returned has no operation pending. -/
theorem virtio_refines_block_device {C D : Threads.Config diskSig Sys ℕ} (hC : DiskReachable C)
    (hstep : diskThreads.Step C D) :
    (BlockDevice.Step C.shared.blockDevice D.shared.blockDevice ∨
      D.shared.blockDevice = C.shared.blockDevice) ∧
    ∀ b c, C.shared.calls b = some c → C.thread c.thread ≠ .ret () := by
  obtain ⟨vs, h, hkeep⟩ := disk_safe hC
  refine ⟨?_, ?_⟩
  · cases hstep with
    | @request t o next r s ht hr =>
      have hwp := hkeep t
      change C.thread t = .call o next at ht
      change diskStep t o C.shared = .done r s at hr
      rw [ht] at hwp
      cases o with
      | finish b =>
        obtain ⟨r', hv, rfl, -⟩ := hwp
        cases hr
        exact .inl (h.finish_refines hv)
      | acquire | resume =>
        rw [diskStep] at hr
        split at hr <;> cases hr
        exact .inr rfl
      | panic msg | hang => cases hr
      | _ =>
        cases hr
        exact .inr rfl
    | @event t s p hev =>
      change Event t C.shared (C.thread t) s p at hev
      generalize C.thread t = p₀ at hev
      generalize C.shared = s₀ at h hev
      cases hev with
      | call fuel b write hb => exact .inl (call_refines t b write hb)
      | interrupt fuel => exact .inr rfl
      | edit _ b n x hb hn => exact .inl (.edit s₀.blockDevice b n x (by simp [Sys.blockDevice, hb]))
      | wake _ v => exact .inr rfl
      | device _ _ hd => exact h.device_refines hd
  · intro b c hc hret
    obtain ⟨q, p, u, h⟩ := h
    obtain ⟨r, hr, -⟩ := h.callers.caller b c hc
    have hout := hkeep c.thread
    rw [hret] at hout
    rw [show vs c.thread = .out from hout] at hr
    cases hr

/-- The sleeping call, with its request in the hands of the device. -/
def oneTaken : Threads.Config diskSig Sys ℕ :=
  ⟨{ oneSleeper.shared with
      dev.seen := oneSleeper.shared.disk.avail.idx
      notified := false
      dev.last := (oneSleeper.shared.dev.last + 1) % 2 ^ 16
      dev.flight := oneSleeper.shared.dev.flight ++ [⟨0, true, 10, 0, BSIZE, 0, .taken⟩] }, oneSleeper.thread⟩

theorem oneTaken_reachable : DiskReachable oneTaken := by
  obtain ⟨-, -, -, -, hne, hfetch, -⟩ := oneSleeper_state
  have hlook := Relation.ReflTransGen.single (DevStep.look oneSleeper.shared)
  exact oneSleeper_reachable.devices (hlook.tail (.fetch _ _ hne hfetch))

/-- The request has been carried out. -/
def oneWritten : Threads.Config diskSig Sys ℕ :=
  ⟨{ oneTaken.shared.serve ⟨0, true, 10, 0, BSIZE, 0, .taken⟩ with
      dev.flight := [⟨0, true, 10, 0, BSIZE, 0, .answered 0⟩] }, oneSleeper.thread⟩

theorem virtio_refines_block_device_written : oneTaken.shared.media 5120 = 0 ∧ oneWritten.shared.media 5120 = 7 ∧
    (BlockDevice.Step oneTaken.shared.blockDevice oneWritten.shared.blockDevice ∨
      oneWritten.shared.blockDevice = oneTaken.shared.blockDevice) := by
  have hserve : DevStep oneTaken.shared oneWritten.shared :=
    .serve _ [] [] ⟨0, true, 10, 0, BSIZE, 0, .taken⟩ (by decide +kernel) rfl
  have hstep : diskThreads.Step oneTaken oneWritten := by
    have hev := Threads.Step.event (T := diskThreads) (C := oneTaken) (c := 0) (Event.device _ _ _ hserve)
    rwa [Function.update_eq_self] at hev
  exact ⟨by decide +kernel, by decide +kernel, (virtio_refines_block_device oneTaken_reachable hstep).1⟩

end Xv6Arm.Virtio

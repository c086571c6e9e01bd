import Xv6Arm.Virtio.Runs

/-!
# What can never happen in the disk driver

Requests on their way never share a descriptor, the device never reads a chain that
is no request, and the only panic that can be reached is the one for an error that
the device has reported.
-/
namespace Xv6Arm.Virtio
open Lib

/-- The heads of all requests between the driver and the device, as the two rings and the device have
them. -/
def Sys.heads (s : Sys) : List ℕ :=
  line s (Ring.contents NUM (2 ^ 16) s.disk.avail.ring s.dev.last s.disk.avail.idx)
    (Ring.contents NUM (2 ^ 16) s.used.ring s.disk.usedIdx s.used.idx)

/-- The three descriptors that the `next` fields lead to. -/
def Disk.chain (d : Disk) (i : ℕ) : List ℕ := [i, (d.desc i).next, (d.desc (d.desc i).next).next]

/-- Only calls have descriptors. -/
theorem View.own_of_req {v : View} (h : v.req = none) : v.own = [] := by
  cases v with
  | work D r own owe served => cases h
  | wait D c ring => cases h
  | nap c => cases h
  | _ => rfl

section
variable {vs : ℕ → View} {s : Sys} {q p u : List ℕ}

theorem InvOf.heads_eq (h : InvOf vs s q p u) : s.heads = line s q (p ++ u) := by
  rw [Sys.heads, h.flow.avail.contents_eq (by decide), h.flow.used.contents_eq (by decide)]

theorem Formatted.chain_perm {d : Disk} {c : Chain} (h : Formatted d c) : (d.chain c.i).Perm c.own := by
  rw [Disk.chain, h.head, h.body]
  exact (List.reverse_perm [c.i, c.j, c.k]).symm

end

/-! ## A run with one call -/

/-- The driver after `virtio_disk_init`; every buffer is for block 5 and holds 7s. -/
def freshSys : Sys where
  disk := ⟨fun _ => ⟨.null, 0, 0, 0⟩, ⟨0, fun _ => 0⟩, fun _ => true, 0, fun _ => none, fun _ => ⟨0, 0, 0⟩,
    fun _ => false⟩
  used := ⟨0, fun _ => 0⟩
  status _ := 0
  blockno _ := 5
  data _ _ := 7
  isr := 0
  notified := false
  lock := none
  dev := ⟨0, 0, [], none, false⟩
  media _ := 0
  asleep _ := none
  calls _ := none
  failed := false
  broken := false

/-- Thread 0 has called `virtio_disk_rw(b, 1)` for buffer 0. -/
def oneCall : Threads.Config diskSig Sys ℕ :=
  ⟨{ freshSys with calls := Function.update freshSys.calls 0 (some ⟨0, true, 0⟩) },
    Function.update (fun _ => .ret ()) 0 (virtioDiskRw 1 0 true)⟩

/-- It has published its request and sleeps. -/
def oneSleeper : Threads.Config diskSig Sys ℕ := diskThreads.ahead 0 36 oneCall

theorem oneSleeper_reachable : DiskReachable oneSleeper := by
  have hfresh : Fresh ⟨freshSys, fun _ => .ret ()⟩ := by
    refine ⟨rfl, fun _ _ => rfl, rfl, rfl, rfl, ?_, rfl, fun _ => rfl, fun _ => rfl, rfl, rfl, fun _ => rfl⟩
    intro b
    change 5 < 2 ^ 31
    decide
  have hinit : DiskReachable ⟨freshSys, fun _ => .ret ()⟩ := .init hfresh
  have hcall : DiskReachable oneCall := hinit.step (.event (c := 0) (Event.call _ 1 0 true rfl))
  exact hcall.ahead 0 36

/-- The request is in the queue, its caller sleeps, and nobody else does anything. -/
theorem oneSleeper_state :
    oneSleeper.shared.heads = [0] ∧ oneSleeper.shared.disk.chain 0 = [0, 1, 2] ∧
    oneSleeper.shared.dev.flight = [] ∧ oneSleeper.shared.dev.out = none ∧
    oneSleeper.shared.dev.last ≠ oneSleeper.shared.disk.avail.idx ∧
    fetch oneSleeper.shared.disk (oneSleeper.shared.disk.avail.ring (oneSleeper.shared.dev.last % NUM)) =
      some ⟨0, true, 10, 0, BSIZE, 0, .taken⟩ ∧
    oneSleeper.shared.asleep 0 = some (.buf 0) ∧ oneSleeper.shared.lock = none ∧
    oneSleeper.shared.calls 0 = some ⟨0, true, 0⟩ ∧ Threads.idle (oneSleeper.thread 1) = true := by
  refine ⟨?_, ?_, ?_, ?_, ?_, ?_, ?_, ?_, ?_, ?_⟩ <;> decide +kernel

/-- What the device does on its own is part of a run. -/
theorem DiskReachable.devices {C : Threads.Config diskSig Sys ℕ} {s : Sys} (hC : DiskReachable C)
    (h : Relation.ReflTransGen DevStep C.shared s) : DiskReachable ⟨s, C.thread⟩ := by
  induction h with
  | refl => exact hC
  | tail _ hstep ih =>
    have hnext := Threads.Reachable.step ih (.event (c := 0) (Event.device _ _ _ hstep))
    rwa [Function.update_eq_self] at hnext

/-- The device takes the next request, answers it with an error and records that, all at once. -/
def Sys.refuse (s : Sys) (f : Fetched) (st : UInt8) : Sys :=
  { s with
    dev := ⟨(s.dev.last + 1) % 2 ^ 16, s.disk.avail.idx, [], none, true⟩
    notified := false
    failed := true
    status := Function.update s.status f.statusAt st
    used := ⟨(s.used.idx + 1) % 2 ^ 16, Function.update s.used.ring (s.used.idx % NUM) f.head⟩ }

theorem Sys.refuse_steps {s : Sys} (f : Fetched) (st : UInt8) (hflight : s.dev.flight = []) (hout : s.dev.out = none)
    (hne : s.dev.last ≠ s.disk.avail.idx) (hf : fetch s.disk (s.disk.avail.ring (s.dev.last % NUM)) = some f)
    (htaken : f.stage = .taken) (hst : st ≠ 0) : Relation.ReflTransGen DevStep s (s.refuse f st) := by
  have hlook := Relation.ReflTransGen.single (DevStep.look s)
  have hfetch := hlook.tail (.fetch _ f hne hf)
  have hfail := hfetch.tail (.fail _ [] [] f st (by simp [hflight]) htaken hst)
  have hstamp := hfail.tail (.stamp _ [] [] _ st rfl rfl)
  have hrecord := hstamp.tail (.record _ [] [] _ rfl rfl hout)
  exact hrecord.tail (.advance _ f.head rfl)

/-- The requests under way are apart from each other and from the free descriptors, and each is what the
call on its buffer has asked for. Nothing stays behind when no call is in progress. -/
theorem virtio_requests_apart {C : Threads.Config diskSig Sys ℕ} (hC : DiskReachable C) :
    C.shared.heads.Nodup ∧
    (∀ i ∈ C.shared.heads, (C.shared.disk.chain i).Nodup ∧
      (∀ j ∈ C.shared.disk.chain i, j < NUM ∧ C.shared.disk.free j = false) ∧
      ∃ b c, C.shared.disk.infoB i = some b ∧ C.shared.calls b = some c ∧
        fetch C.shared.disk i = some ⟨i, c.write, sectorOf (C.shared.blockno b), b, BSIZE, i, .taken⟩) ∧
    (∀ i ∈ C.shared.heads, ∀ j ∈ C.shared.heads, i ≠ j →
      (C.shared.disk.chain i).Disjoint (C.shared.disk.chain j)) ∧
    C.shared.broken = false ∧
    ((∀ b, C.shared.calls b = none) → C.shared.heads = [] ∧ ∀ i < NUM, C.shared.disk.free i = true) := by
  obtain ⟨vs, ⟨q, p, u, h⟩, -⟩ := disk_safe hC
  rw [h.heads_eq]
  refine ⟨h.flow.nodup, ?_, ?_, h.broken, ?_⟩
  · intro i hi
    obtain ⟨t, c, hc, rfl⟩ := h.mem_line hi
    obtain ⟨hown, hfmt⟩ := h.owners.format t c hc
    have howned := h.owners.owned t
    rw [hown] at howned
    obtain ⟨n, hn⟩ := h.callers.call t c.req (View.req_of_chain hc)
    refine ⟨hfmt.chain_perm.nodup_iff.mpr howned.nodup, ?_, c.req.b, _, hfmt.buf, hn, ?_⟩
    · intro j hj
      have hj' := hfmt.chain_perm.mem_iff.mp hj
      exact ⟨howned.lt j hj', howned.taken j hj'⟩
    · rw [fetch_formatted hfmt, h.callers.blockno t c.req (View.req_of_chain hc)]
      rfl
  · intro i hi j hj hne a hai haj
    obtain ⟨t, c, hc, rfl⟩ := h.mem_line hi
    obtain ⟨t', c', hc', rfl⟩ := h.mem_line hj
    obtain ⟨hown, hfmt⟩ := h.owners.format t c hc
    obtain ⟨hown', hfmt'⟩ := h.owners.format t' c' hc'
    have hta := hown ▸ hfmt.chain_perm.mem_iff.mp hai
    have hta' := hown' ▸ hfmt'.chain_perm.mem_iff.mp haj
    have htt : t = t' := h.owners.disj t t' a hta hta'
    subst htt
    rw [hc] at hc'
    cases hc'
    exact hne rfl
  · intro hnone
    have hidle : ∀ t, (vs t).req = none := by
      intro t
      cases hr : (vs t).req with
      | none => rfl
      | some r =>
        obtain ⟨n, hn⟩ := h.callers.call t r hr
        rw [hnone] at hn
        cases hn
    refine ⟨?_, ?_⟩
    · rw [List.eq_nil_iff_forall_not_mem]
      intro i hi
      obtain ⟨t, c, hc, -⟩ := h.mem_line hi
      exact absurd (View.req_of_chain hc) (by simp [hidle t])
    · intro i hi
      by_contra hfree
      obtain ⟨t, ht⟩ := h.owners.cover i hi (by simpa using hfree)
      rw [View.own_of_req (hidle t)] at ht
      cases ht

/-- Thread 1 has called `virtio_disk_rw` for buffer 1 in the meantime and sleeps too. -/
def twoSleepers : Threads.Config diskSig Sys ℕ :=
  diskThreads.ahead 1 60 ⟨{ oneSleeper.shared with calls := Function.update oneSleeper.shared.calls 1 (some ⟨1, false, 0⟩) },
    Function.update oneSleeper.thread 1 (virtioDiskRw 1 1 false)⟩

theorem virtio_requests_apart_twoSleepers : twoSleepers.shared.heads = [0, 3] ∧
    (twoSleepers.shared.disk.chain 0).Disjoint (twoSleepers.shared.disk.chain 3) ∧
    twoSleepers.shared.disk.chain 3 = [3, 4, 5] := by
  have hcalls : oneSleeper.shared.calls 1 = none ∧ Threads.idle (oneSleeper.thread 1) = true := by decide +kernel
  have hC : DiskReachable twoSleepers := by
    refine (oneSleeper_reachable.step (.event (c := 1) ?_)).ahead 1 60
    change Event 1 _ (oneSleeper.thread 1) _ _
    rw [Threads.eq_ret_of_idle hcalls.2]
    exact Event.call _ 1 1 false hcalls.1
  have hheads : twoSleepers.shared.heads = [0, 3] ∧ twoSleepers.shared.disk.chain 3 = [3, 4, 5] := by decide +kernel
  obtain ⟨-, -, hdisj, -⟩ := virtio_requests_apart hC
  exact ⟨hheads.1, hdisj 0 (by simp [hheads.1]) 3 (by simp [hheads.1]) (by decide), hheads.2⟩

/-- The message of the `panic` that a program is about to call. -/
def panicOf : DM Unit → Option String
  | .call (.panic msg) _ => some msg
  | _ => none

/-- A thread is about to panic only in the handler, and only if the device has reported an error. -/
theorem virtio_panic_only_on_error {C : Threads.Config diskSig Sys ℕ} (hC : DiskReachable C) {t : ℕ} {msg : String}
    (ht : panicOf (C.thread t) = some msg) : msg = "virtio_disk_intr status" ∧ C.shared.failed = true := by
  obtain ⟨vs, ⟨q, p, u, h⟩, hkeep⟩ := disk_safe hC
  have hwp := hkeep t
  cases hp : C.thread t with
  | ret a =>
    rw [hp] at ht
    cases ht
  | panic msg' =>
    rw [hp] at ht
    cases ht
  | call o next =>
    cases o with
    | panic msg' =>
      rw [hp] at ht hwp
      cases ht
      obtain ⟨hmsg, D, hv⟩ := hwp
      exact ⟨hmsg, (h.hands.ok t .bad (by rw [hv]; rfl)).1⟩
    | _ =>
      rw [hp] at ht
      cases ht

/-- The device has refused the request, and the handler has read the status. -/
def oneRefused : Threads.Config diskSig Sys ℕ :=
  diskThreads.ahead 1 9 ⟨oneSleeper.shared.refuse ⟨0, true, 10, 0, BSIZE, 0, .taken⟩ 1,
    Function.update oneSleeper.thread 1 (virtioDiskIntr 1)⟩

theorem virtio_panic_only_on_error_refused : panicOf (oneRefused.thread 1) = some "virtio_disk_intr status" ∧
    oneRefused.shared.failed = true := by
  obtain ⟨-, -, hflight, hout, hne, hfetch, -, -, -, hidle⟩ := oneSleeper_state
  have hrefuse := oneSleeper_reachable.devices (Sys.refuse_steps _ 1 hflight hout hne hfetch rfl (by decide))
  have hintr : DiskReachable oneRefused := by
    refine Threads.Reachable.ahead (hrefuse.step (.event (c := 1) ?_)) 1 9
    change Event 1 _ (oneSleeper.thread 1) _ _
    rw [Threads.eq_ret_of_idle hidle]
    exact Event.interrupt _ 1
  have ht : panicOf (oneRefused.thread 1) = some "virtio_disk_intr status" := by decide +kernel
  exact ⟨ht, (virtio_panic_only_on_error hintr ht).2⟩

end Xv6Arm.Virtio

import Xv6Arm.Virtio.Device
import Xv6Arm.Lib.Steady

/-!
# Every run of the disk driver

The invariant holds in every state of every run, whatever the device does and in
whatever order it answers.
-/
namespace Xv6Arm.Virtio
open Lib

theorem InvOf.facts {vs : ℕ → View} {s : Sys} {q p u : List ℕ} {t : ℕ} (h : InvOf vs s q p u) : (vs t).Facts := by
  cases hv : vs t with
  | work D r own owe served =>
    obtain ⟨rfl, -⟩ := h.mutex.held t D (by rw [hv]; rfl)
    have hown := h.owners.owned t
    rw [hv] at hown
    exact hown
  | wait D c ring =>
    obtain ⟨rfl, -⟩ := h.mutex.held t D (by rw [hv]; rfl)
    have hown := h.owners.owned t
    rw [hv] at hown
    exact ⟨(h.owners.format t c (by rw [hv]; rfl)).2, hown⟩
  | hand D x =>
    cases x with
    | clean i =>
      obtain ⟨rfl, -⟩ := h.mutex.held t D (by rw [hv]; rfl)
      obtain ⟨⟨⟨l, rfl⟩, -⟩, -⟩ := h.hands.ok t (.clean i) (by rw [hv]; rfl)
      obtain ⟨v, c, hc, rfl, -⟩ := h.flow.landed i (List.mem_append_right _ (List.mem_cons_self ..))
      exact ⟨c.req.b, (h.owners.format v c hc).2.buf⟩
    | _ => trivial
  | _ => trivial

theorem storeSpec_conforms {vs : ℕ → View} {s : Sys} {t : ℕ} (h : Inv vs s) (w : Store) {K : Unit → View → Prop}
    (hspec : storeSpec w K (vs t)) :
    ∃ v, Inv (Function.update vs t v) { s with disk := s.disk.store w } ∧ K () v := by
  have hwork : workSpec w K (vs t) →
      ∃ v, Inv (Function.update vs t v) { s with disk := s.disk.store w } ∧ K () v := by
    rintro ⟨D, r, own, owe, served, hv, hw, hK⟩
    exact ⟨_, h.work hv hw, hK⟩
  cases w with
  | availIdx n =>
    obtain ⟨D, c, hv, hf, hb, hr, rfl, hK⟩ := hspec
    exact ⟨_, h.publish hv hf hb hr, hK⟩
  | usedIdx n =>
    obtain ⟨D, id, hv, rfl, hK⟩ := hspec
    exact ⟨_, h.advance hv, hK⟩
  | bufDisk b x =>
    cases x with
    | true => exact hwork hspec
    | false =>
      obtain ⟨D, id, hv, hb, hK⟩ := hspec
      exact ⟨_, h.clear hv hb, hK⟩
  | infoB i b =>
    cases b with
    | some b => exact hwork hspec
    | none =>
      obtain ⟨D, c, hv, rfl, hb, hK⟩ := hspec
      exact ⟨_, h.reclaim hv hb, hK⟩
  | _ => exact hwork hspec

theorem disk_conforms : diskThreads.Conforms (fun _ => diskSpec) (fun _ v => v = .out) Inv := by
  intro t o K vs s r s' h hspec hr
  -- Only the view of the thread itself changes.
  suffices hv : ∃ v, Inv (Function.update vs t v) s' ∧ K r v by
    obtain ⟨v, hinv, hK⟩ := hv
    refine ⟨Function.update vs t v, hinv, ?_, ?_⟩
    · change K r (Function.update vs t v t)
      rwa [Function.update_self]
    · intro u hu
      change Function.update vs t v u = vs u
      exact Function.update_of_ne hu v vs
  change diskSpec o K (vs t) at hspec
  change diskStep t o s = .done r s' at hr
  have hsame : Inv (Function.update vs t (vs t)) s := by rwa [Function.update_eq_self]
  cases o with
  | acquire =>
    rw [diskStep] at hr
    split at hr
    · next hl =>
      cases hr
      rcases hspec with ⟨r, hv, hK⟩ | ⟨hv, hK⟩
      · exact ⟨_, h.acquireCall hv hl, hK _⟩
      · exact ⟨_, h.acquireHand hv hl, hK _⟩
    · cases hr
  | release =>
    cases hr
    rcases hspec with ⟨D, r, hv, hK⟩ | ⟨D, hv, hK⟩
    · exact ⟨_, h.releaseCall hv, hK⟩
    · exact ⟨_, h.releaseHand hv, hK⟩
  | disk =>
    cases hr
    obtain ⟨D, hD, hK⟩ := hspec
    obtain ⟨q, p, u, h⟩ := h
    obtain ⟨rfl, -⟩ := h.mutex.held t D hD
    exact ⟨vs t, hsame, hK h.facts⟩
  | set w =>
    cases hr
    exact storeSpec_conforms h w hspec
  | blockno b =>
    cases hr
    obtain ⟨r, hv, rfl, hK⟩ := hspec
    obtain ⟨q, p, u, h⟩ := h
    have hblk : s.blockno r.b = r.blockno := h.callers.blockno t r (by rw [hv]; rfl)
    exact ⟨vs t, hsame, by rwa [hblk]⟩
  | usedIdx =>
    cases hr
    obtain ⟨D, hv, hK, hne⟩ := hspec
    by_cases heq : s.used.idx = D.usedIdx
    · refine ⟨_, h.sweepDone hv heq, ?_⟩
      rwa [heq]
    · exact ⟨_, h.sweepFound hv heq, hne _ heq⟩
  | usedId i =>
    cases hr
    obtain ⟨D, hv, rfl, hK⟩ := hspec
    exact ⟨_, h.getId hv, hK _⟩
  | status i =>
    cases hr
    obtain ⟨D, hv, hK, hne⟩ := hspec
    by_cases hst : s.status i = 0
    · refine ⟨_, h.statusClean hv hst, ?_⟩
      rwa [hst]
    · exact ⟨_, h.statusBad hv hst, hne _ hst⟩
  | setStatus i st =>
    cases hr
    obtain ⟨D, r, own, owe, served, hv, hi, hK⟩ := hspec
    exact ⟨vs t, by rw [Function.update_eq_self]; exact h.setStatus st hv hi, hK⟩
  | notify =>
    cases hr
    obtain ⟨D, c, hv, hK⟩ := hspec
    exact ⟨_, h.notify hv, hK⟩
  | interruptStatus =>
    cases hr
    obtain ⟨D, hv, hK⟩ := hspec
    exact ⟨vs t, hsame, hK _⟩
  | interruptAck st =>
    cases hr
    obtain ⟨D, hv, hK⟩ := hspec
    exact ⟨_, h.ack hv st, hK⟩
  | doze ch =>
    cases hr
    cases ch with
    | free =>
      obtain ⟨D, r, hv, hf, hK⟩ := hspec
      exact ⟨_, h.dozeFree hv hf, hK⟩
    | buf b =>
      obtain ⟨D, c, hv, rfl, hb, hK⟩ := hspec
      exact ⟨_, h.dozeBuf hv hb, hK⟩
  | resume =>
    rw [diskStep] at hr
    split at hr
    · next hl =>
      cases hr
      rcases hspec with ⟨r, hv, hK⟩ | ⟨c, hv, hK⟩
      · exact ⟨_, h.resumeFree hv hl.2 hl.1, hK _⟩
      · exact ⟨_, h.resumeBuf hv hl.2 hl.1, hK _⟩
    · cases hr
  | wakeup ch =>
    cases hr
    cases ch with
    | free =>
      obtain ⟨D, r, own, owe, served, hv, hK⟩ := hspec
      exact ⟨_, h.wakeupFree hv, hK⟩
    | buf b =>
      obtain ⟨D, id, hv, hK⟩ := hspec
      exact ⟨_, h.wakeupBuf hv, hK⟩
  | panic msg => cases hr
  | hang => cases hr
  | finish b =>
    cases hr
    obtain ⟨r, hv, rfl, hK⟩ := hspec
    exact ⟨_, h.finish hv, hK⟩

theorem disk_absorbs : diskThreads.Absorbs (fun _ => diskSpec) (fun _ v => v = .out) Inv := by
  intro t vs s s' p p' h hev hkeep
  change Event t s p s' p' at hev
  change Meets p (vs t) _ at hkeep
  have hsame : ∀ {s'}, Inv vs s' → Inv (Function.update vs t (vs t)) s' := by
    intro s' h
    rwa [Function.update_eq_self]
  cases hev with
  | call fuel b write hb =>
    have hv : vs t = .out := hkeep
    exact ⟨_, h.call hv write hb, virtioDiskRw_meets fuel ⟨b, write, s.blockno b⟩⟩
  | interrupt fuel =>
    have hv : vs t = .out := hkeep
    refine ⟨vs t, hsame h, ?_⟩
    rw [hv]
    exact virtioDiskIntr_meets fuel
  | edit _ b n x hb hn => exact ⟨vs t, hsame (h.edit x hb hn), hkeep⟩
  | wake _ v => exact ⟨vs t, hsame (h.wake v), hkeep⟩
  | device _ _ hd => exact ⟨vs t, hsame (h.device hd), hkeep⟩

theorem Fresh.inv {C : Threads.Config diskSig Sys ℕ} (h : Fresh C) : InvOf (fun _ => .out) C.shared [] [] [] where
  mutex := by
    refine ⟨by rintro t D ⟨⟩, ?_⟩
    intro t ht
    rw [h.lock] at ht
    cases ht
  callers := by
    refine ⟨by rintro t r ⟨⟩, by rintro t r ⟨⟩, ?_, by rintro t r n ⟨⟩, h.blockno⟩
    intro b c hc
    rw [h.calls] at hc
    cases hc
  owners := by
    refine ⟨fun t => ⟨List.nodup_nil, by rintro i ⟨⟩, by rintro i ⟨⟩⟩, by rintro t v i ⟨⟩, ?_, by rintro t c ⟨⟩⟩
    intro i hi hfree
    rw [h.free i hi] at hfree
    cases hfree
  flow := by
    have hline : line C.shared [] [] = [] := by simp [line, h.dev]
    have hdev : C.shared.dev.flight = [] ∧ C.shared.dev.out = none := by simp [h.dev]
    refine ⟨?_, ?_, ?_, ⟨0, le_rfl, by simp [h.dev]⟩, by rw [List.append_nil, hline]; exact List.nodup_nil,
      by rintro i ⟨⟩, ?_, ?_, by rintro i ⟨⟩, by rintro t c ⟨⟩, by rintro t c ⟨⟩⟩
    · rw [h.avail, h.dev]
      exact Ring.holds_nil (by decide)
    · rw [h.usedIdx, h.used]
      exact Ring.holds_nil (by decide)
    · intro i hi
      rw [hdev.2] at hi
      cases hi
    · intro f hf
      rw [hdev.1] at hf
      cases hf
    · intro i hi
      rw [hdev.2] at hi
      cases hi
  hands := ⟨by rintro t x ⟨⟩, fun _ => rfl⟩
  naps := by
    refine ⟨?_, ?_⟩
    · intro t ch ht
      rw [h.asleep] at ht
      cases ht
    · intro t ch ht
      rw [h.asleep] at ht
      cases ht
  bells := by
    refine ⟨fun hne => ?_, fun hne => ?_⟩
    · exact absurd (by simp [h.dev, h.avail]) hne
    · exact absurd (h.usedIdx.trans h.used.symm) hne
  broken := h.broken

theorem disk_safe {C : Threads.Config diskSig Sys ℕ} (h : DiskReachable C) :
    ∃ vs, Inv vs C.shared ∧ ∀ t, Meets (C.thread t) (vs t) fun _ v => v = .out := by
  refine Threads.Reachable.safe disk_conforms disk_absorbs ?_ h
  intro C hC
  refine ⟨fun _ => .out, ⟨[], [], [], hC.inv⟩, ?_⟩
  intro t
  rw [hC.idle t]
  rfl

end Xv6Arm.Virtio

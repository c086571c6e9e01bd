import Xv6Arm.Smp.Freeing
import Xv6Arm.Smp.Handlers

/-!
# Every run of the kernel keeps the invariant

The requests of the threads, the traps and the first state, put together with the
invariant rule.
-/
namespace Xv6Arm.Smp
open Lib

variable {ip : Slot} {strict : Prop} {vs : Thread → View} {s : Sys} {c : ℕ} {p : Slot} {jobs : List SysOp → Prop}

/-- Every system call that a user program may make meets the condition. -/
def Jobs (strict : Prop) (jobs : List SysOp → Prop) : Prop := ∀ body, jobs body → ∀ k ∈ body, k.Meets strict

theorem jobs_any (jobs : List SysOp → Prop) : Jobs False jobs := by
  intro body _ k _
  cases k <;> first | trivial | exact False.elim

/-! ## Requests -/

theorem kernel_conforms (jobs : List SysOp → Prop) :
    (kernel jobs).Conforms (storeSpec ip strict) StoreResting (StoreInv ip strict) := by
  rintro c o K vs _ r s' ⟨s, g, rfl, hinv, hl⟩ hspec hstep
  change storeSpec ip strict (s.exec c) o K (vs (s.exec c)) at hspec
  change storeStep c o { s with proc := g } = .done r s' at hstep
  change ∃ vs', StoreInv ip strict vs' s' ∧ K r (vs' (s.exec c)) ∧ ∀ u, u ≠ s.exec c → _
  unfold storeSpec at hspec
  cases hn : (vs (s.exec c)).left with
  | some x =>
    rw [hn] at hspec
    obtain ⟨f, l, hx, rfl, hK⟩ := hspec
    cases hstep
    refine ⟨_, hl.store hinv (hn.trans (by rw [← hx])), ?_, fun u hu => Function.update_of_ne hu ..⟩
    rw [Function.update_self]
    exact hK ()
  | none =>
    rw [hn] at hspec
    obtain ⟨hpre, hK⟩ := hspec (hinv.exec.wf_exec c)
    cases o with
    | freeproc p =>
      cases hstep
      refine ⟨_, hl.freeproc hinv hn hpre rfl s, ?_, fun u hu => Function.update_of_ne hu ..⟩
      rw [Function.update_self]
      exact hK c () s trivial
    | resetContext p =>
      cases hstep
      obtain ⟨-, -, x, hx, -⟩ := id hpre
      obtain ⟨-, hne, -⟩ := hinv.snap_exec hx
      have hinv' := hl.resetContext hinv hn hpre rfl
      refine ⟨_, hinv', ?_, fun u hu => ?_⟩
      · rw [Function.update_of_ne hne, Function.update_self]
        exact hK c () s trivial
      · cases u with
        | scheduler d => exact (Function.update_of_ne Thread.noConfusion ..).trans (Function.update_of_ne hu ..)
        | proc q =>
          by_cases hqp : q = p
          · subst hqp
            simp only [kernel, if_true, Function.update_self]
            exact wp_inlined (wp_forkret rfl)
          · simp only [kernel, if_neg hqp]
            exact (Function.update_of_ne (fun hf => hqp (Thread.proc.inj hf)) ..).trans (Function.update_of_ne hu ..)
    | _ =>
      obtain ⟨hok, hinv'⟩ := hl.request hinv hn hpre (fun _ => SmpOp.noConfusion) (fun _ => SmpOp.noConfusion) hstep
      refine ⟨_, hinv', ?_, fun u hu => Function.update_of_ne hu ..⟩
      rw [Function.update_self]
      exact hK c r s' hok

/-! ## Traps -/

theorem Inv.home_of_resting (h : Inv ip strict vs s) (hheld : (vs (s.exec c)).core.held = ∅) :
    (vs (s.exec c)).core.mode = (s.exec c).home := by
  cases hc : s.exec c with
  | proc p => exact h.exec.live c p hc
  | scheduler d =>
    obtain rfl := h.exec.home c d hc
    rw [hc] at hheld
    cases ht : (vs (.scheduler d)).core.mode.target with
    | some p =>
      have := ((h.exec.sched d).target ht).1
      rw [hheld] at this
      exact absurd this (Finset.notMem_empty _)
    | none =>
      have hs := h.exec.sched d
      rw [SchedOk] at hs
      cases hm : (vs (.scheduler d)).core.mode with
      | idle => rfl
      | live =>
        rw [hm] at hs
        exact hs.elim
      | _ =>
        rw [hm] at ht
        cases ht

/-- A thread that can be interrupted holds no lock and is in no system call. -/
theorem Inv.resting_of_irq (h : Inv ip strict vs s) (hirq : (s.cpu c).irq = true) :
    Resting (s.exec c) (vs (s.exec c)) := by
  have hwf := h.exec.wf_exec c
  rw [h.cpu.irq] at hirq
  have hheld : (vs (s.exec c)).core.held = ∅ := by
    by_contra hne
    rw [hwf.masked (Finset.nonempty_iff_ne_empty.mpr hne)] at hirq
    cases hirq
  refine ⟨hheld, h.home_of_resting hheld, ?_⟩
  by_contra hw
  have hframe := hwf.frame (by rw [hwf.window hw]; exact hw)
  rw [hframe] at hirq
  cases hirq

theorem kernel_absorbs (hj : Jobs strict jobs) :
    (kernel jobs).Absorbs (storeSpec ip strict) StoreResting (StoreInv ip strict) := by
  rintro c vs _ s' m m' ⟨s, g, rfl, hinv, hl⟩ hev hkeep
  change Arrives jobs c { s with proc := g } m s' m' at hev
  change Threads.Keeps (storeSpec ip strict) StoreResting (s.exec c) m (vs (s.exec c)) at hkeep
  change ∃ v, StoreInv ip strict (Function.update vs (s.exec c) v) s' ∧
    Threads.Keeps (storeSpec ip strict) StoreResting (s.exec c) m' v
  cases hev with
  | @svc p hx tf body hb hbal close =>
    change s.exec c = .proc p at hx
    obtain ⟨hn, hr⟩ : StoreResting (s.exec c) (vs (s.exec c)) := hkeep
    refine ⟨_, hl.mask hn (hinv.mask c), wp_inlined ?_⟩
    rw [hx] at hr ⊢
    exact wp_swiHandler (hj body hb) hbal ⟨hr.held, hr.mode, hr.window⟩ rfl
  | @abort p hx close =>
    change s.exec c = .proc p at hx
    obtain ⟨hn, hr⟩ : StoreResting (s.exec c) (vs (s.exec c)) := hkeep
    refine ⟨_, hl.mask hn (hinv.mask c), wp_inlined ?_⟩
    rw [hx] at hr ⊢
    exact wp_abortHandler ⟨hr.held, hr.mode, hr.window⟩
  | @irq h tf gic hbal timer close =>
    have hr := hinv.resting_of_irq h
    have hn := hl.left_none hinv hr.held
    refine ⟨_, hl.mask hn (hinv.mask c), ?_⟩
    rw [Threads.Keeps, Prog.wp_bind]
    refine Prog.wp_mono (storeSpec_mono ip strict (s.exec c)) (wp_inlined (Q := fun _ v =>
      Threads.Keeps (storeSpec ip strict) StoreResting (s.exec c) m ⟨v, none⟩) ?_) ?_
    · refine wp_irqHandler hbal (hinv.exec.wf_exec c) hr ((hinv.cpu.irq c).symm.trans h) ?_
      rw [← hn]
      exact hkeep
    · rintro _ ⟨v, l⟩ ⟨rfl, hv⟩
      exact hv
  | @turn d hx =>
    change s.exec c = .scheduler d at hx
    obtain ⟨hn, hr⟩ : StoreResting (s.exec c) (vs (s.exec c)) := hkeep
    refine ⟨vs (s.exec c), ?_, ?_⟩
    · rw [Function.update_eq_self]
      exact ⟨s, g, rfl, hinv, hl⟩
    · rw [hx] at hr hn ⊢
      rw [show vs (.scheduler d) = ⟨(vs (.scheduler d)).view, none⟩ from hn ▸ rfl]
      exact wp_inlined (wp_scheduler hr)

/-! ## The first state -/

/-- The views with which the kernel starts; `pid` is the first process's. -/
def bootViews (ip : Slot) (pid : ℤ) : Thread → View
  | .scheduler _ => entering
  | .proc p => if p = ip then born p pid else { entering with core.mode := .live }

theorem bootViews_init (ip : Slot) (n : ℤ) : bootViews ip n (.proc ip) = born ip n := if_pos rfl

theorem wf_entering (c : ℕ) : Wf (.scheduler c) entering :=
  ⟨fun hf => absurd hf Finset.not_nonempty_empty, fun _ => rfl, fun _ hf => (nomatch hf), fun _ hf => absurd rfl hf,
    fun _ hf => (nomatch hf), fun hf => absurd rfl hf, fun hf => absurd rfl hf⟩

section Boot
variable {C : Threads.Config smpSig Sys Thread} (h : Boot C)
include h

theorem Boot.thread {p : Slot} : C.shared.hist.thread p = true ↔ p = C.shared.initproc := by
  rw [h.hist]
  exact decide_eq_true_iff

theorem Boot.state (p : Slot) : p = C.shared.initproc ∧ (C.shared.proc p).state = .runnable ∨
    p ≠ C.shared.initproc ∧ C.shared.proc p = Proc.zero := by
  by_cases hp : p = C.shared.initproc
  · exact Or.inl ⟨hp, hp ▸ h.first.1⟩
  · exact Or.inr ⟨hp, h.others p hp⟩

theorem Boot.state_ne {p : Slot} {st : ProcState} (h1 : st ≠ .runnable) (h2 : st ≠ .unused) :
    (C.shared.proc p).state ≠ st := by
  rcases h.state p with ⟨-, hs⟩ | ⟨-, hs⟩ <;> rw [hs]
  · exact h1.symm
  · exact h2.symm

theorem Boot.parent (p : Slot) : (C.shared.proc p).parent = none := by
  rcases h.state p with ⟨rfl, -⟩ | ⟨-, hs⟩
  · exact h.first.2.2
  · rw [hs]
    rfl

theorem Boot.exec (c : ℕ) : C.shared.exec c = .scheduler c := by rw [Sys.exec, h.cpu]

theorem boot_exec (n : ℤ) : ExecInv (bootViews C.shared.initproc n) C.shared := by
  have hno : ∀ c p, C.shared.exec c ≠ .proc p := fun c p hf => by
    rw [h.exec] at hf
    cases hf
  refine ⟨fun c d hd => ?_, fun c _ p hc => absurd hc (hno c p), fun c => ⟨h.exec c, by rw [h.cpu]⟩,
    fun c p hc => absurd hc (hno c p), fun c p hc => absurd hc (hno c p), fun c p hc => absurd hc (hno c p),
    fun c p hc => absurd hc (hno c p), fun p hp _ => ?_, fun p hp => ?_, fun p hp => ?_, fun t ht => ?_⟩
  · rw [h.exec] at hd
    exact (Thread.scheduler.inj hd).symm
  · obtain rfl := h.thread.mp hp
    rw [bootViews_init]
    exact parked_born _ n
  · exact absurd hp (h.state_ne ProcState.noConfusion ProcState.noConfusion)
  · rcases h.state p with ⟨rfl, -⟩ | ⟨-, hs⟩
    · exact h.thread.mpr rfl
    · rw [hs] at hp
      exact absurd rfl hp
  · cases t with
    | scheduler c => exact wf_entering c
    | proc p =>
      obtain rfl := h.thread.mp ht
      rw [bootViews_init]
      exact wf_born _ n

theorem boot_table : TableInv C.shared.initproc strict
    (bootViews C.shared.initproc (C.shared.proc C.shared.initproc).pid) C.shared := by
  have hview : ∀ t, C.shared.Has t → (bootViews C.shared.initproc (C.shared.proc C.shared.initproc).pid t).built = none ∧
      ∀ i, (bootViews C.shared.initproc (C.shared.proc C.shared.initproc).pid t).snap i = none := by
    rintro (c | p) ht
    · exact ⟨rfl, fun _ => rfl⟩
    · obtain rfl := h.thread.mp ht
      rw [bootViews_init]
      exact ⟨rfl, fun _ => rfl⟩
  refine ⟨fun t ht p x hx => ?_, fun p hp => ?_, fun p hp => ?_, fun t ht p hp => ?_, fun p hp hu => ?_, fun p _ hu => ?_,
    fun p hz => ?_, rfl, fun k hk => ?_⟩
  · rw [(hview t ht).2] at hx
    cases hx
  · obtain rfl := h.thread.mp hp
    rw [bootViews_init]
    exact OwnOk.born h.first.2.1 rfl
  · obtain rfl := h.thread.mp hp
    rw [bootViews_init, h.hist]
    rfl
  · rw [(hview t ht).1] at hp
    cases hp
  · obtain rfl := h.thread.mp hp
    rw [h.first.1] at hu
    cases hu
  · rcases h.state p with ⟨rfl, hs⟩ | ⟨-, hs⟩
    · rw [hs] at hu
      cases hu
    · rw [hs]
      exact ⟨rfl, rfl, rfl, rfl, rfl, fun _ => rfl, rfl, fun _ => rfl⟩
  · exact absurd hz (h.state_ne ProcState.noConfusion ProcState.noConfusion)
  · rw [h.hist] at hk
    cases hk

theorem boot_inv : Inv C.shared.initproc strict
    (bootViews C.shared.initproc (C.shared.proc C.shared.initproc).pid) C.shared := by
  have hno : ∀ p, (C.shared.proc p).state ≠ .sleeping ∧ (C.shared.proc p).state ≠ .zombie := fun p =>
    ⟨h.state_ne ProcState.noConfusion ProcState.noConfusion, h.state_ne ProcState.noConfusion ProcState.noConfusion⟩
  refine ⟨?_, boot_exec h _, boot_table h, ⟨?_, fun p hp => ?_⟩, ?_, ?_⟩
  · refine ⟨fun l c => ?_, fun c => ?_, fun c => ?_, fun c b hb => ?_⟩
    · rw [h.lock, h.exec]
      exact ⟨fun hf => absurd hf (Option.some_ne_none c).symm, fun hf => absurd hf (Finset.notMem_empty l)⟩
    · rw [h.exec, h.cpu]
      rfl
    · rw [h.exec, h.cpu]
      rfl
    · rw [h.exec] at hb
      cases hb
  · refine ⟨fun i q hi => ?_, fun i hi hne => ?_, ?_, fun p _ hs => absurd hs.1 (hno p).1⟩
    · rw [h.parent] at hi
      cases hi
    · rw [h.others i hne] at hi
      exact absurd rfl hi
    · rw [Sys.Alive, h.first.1]
      exact ⟨ProcState.noConfusion, ProcState.noConfusion⟩
  · obtain rfl := h.thread.mp hp
    rw [bootViews_init]
    refine ⟨fun i hi => absurd hi (Finset.notMem_empty i), fun hne => absurd rfl hne,
      fun i hi => absurd hi (Finset.notMem_empty i), fun q hq => absurd hq (Option.some_ne_none q).symm⟩
  · refine ⟨fun p hp ch lk hd => ?_, fun p hs => absurd hs (hno p).1, fun p n q hp => ?_, fun p hp => ?_, fun t ht => ?_⟩
    · obtain rfl := h.thread.mp hp
      rw [bootViews_init] at hd
      cases hd
    · rw [h.hist] at hp
      cases hp
    · rw [h.hist] at hp
      cases hp
    · rw [h.hist]
      cases t with
      | scheduler c => exact List.Forall₂.nil
      | proc p =>
        obtain rfl := h.thread.mp ht
        rw [bootViews_init]
        exact List.Forall₂.nil
  · have hholds : ∀ x n, ¬Holds C.shared x n := by
      intro x n hx
      cases hx with
      | zombie hz => exact (hno _).2 hz
      | wait hw =>
        rw [h.hist] at hw
        cases hw
    refine ⟨fun p hz => absurd hz (hno p).2, fun x n hx => absurd hx (hholds x n), fun x _ n hx => absurd hx (hholds x n),
      fun x n hx => absurd hx (hholds x n), ?_, fun rep hrep => ?_, fun p hp => ?_⟩
    · rw [h.hist]
      exact List.nodup_nil
    · rw [h.hist] at hrep
      cases hrep
    · obtain rfl := h.thread.mp hp
      rw [bootViews_init, h.hist]
      trivial

theorem boot_safe : Threads.Safe (storeSpec C.shared.initproc strict) StoreResting (StoreInv C.shared.initproc strict) C := by
  have hlags : Lags (fun t => ⟨bootViews C.shared.initproc (C.shared.proc C.shared.initproc).pid t, none⟩) C.shared
      C.shared.proc := ⟨fun _ _ => rfl, fun _ _ _ hf => (nomatch hf), fun _ hf => absurd rfl hf⟩
  refine ⟨_, ⟨_, _, rfl, boot_inv h, hlags⟩, fun t => ?_⟩
  cases t with
  | scheduler c =>
    rw [h.scheduler]
    exact ⟨rfl, rfl, rfl, rfl⟩
  | proc p =>
    by_cases hp : p = C.shared.initproc
    · subst hp
      obtain ⟨fsinit, hl, hf⟩ := h.forkret
      rw [bootViews_init, hf]
      exact wp_inlined (wp_forkret hl)
    · rw [h.idle p hp, bootViews, if_neg hp]
      exact ⟨rfl, rfl, rfl, rfl⟩

end Boot

/-! ## Runs -/

/-- In every state that a run comes to, the invariant holds for some views, and every thread keeps to
its specification from its view on. -/
theorem Reachable.inv {C : Threads.Config smpSig Sys Thread} (hj : Jobs strict jobs) (hC : Reachable jobs C) :
    ∃ vs, StoreInv C.shared.initproc strict vs C.shared ∧
      ∀ t, Threads.Keeps (storeSpec C.shared.initproc strict) StoreResting t (C.thread t) (vs t) := by
  have hsafe : ∃ ip, Threads.Safe (storeSpec ip strict) StoreResting (StoreInv ip strict) C := by
    induction hC with
    | init h => exact ⟨_, boot_safe h⟩
    | step _ hstep ih =>
      obtain ⟨ip, hs⟩ := ih
      exact ⟨ip, hs.step (kernel_conforms jobs) (kernel_absorbs hj) hstep⟩
  obtain ⟨ip, vs, hinv, hkeep⟩ := hsafe
  obtain rfl : C.shared.initproc = ip := by
    obtain ⟨s, g, hs, hinv, -⟩ := hinv
    rw [hs]
    exact hinv.table.init
  exact ⟨vs, hinv, hkeep⟩

/-- A thread that is about to make a request has what the specification asks for, or is freeing a slot. -/
theorem pre_of_pending {ip : Slot} {vs : Thread → StoreView} {m : SmpM Unit} {o : SmpOp} {next : o.Res → SmpM Unit}
    (hinv : Inv ip strict (fun t => (vs t).view) s)
    (hkeep : Threads.Keeps (storeSpec ip strict) StoreResting (s.exec c) m (vs (s.exec c)))
    (hp : m = .call (S := smpSig) o next) :
    (vs (s.exec c)).left = none ∧ Pre ip strict (s.exec c) (vs (s.exec c)).view o ∨
      ∃ p f l, (vs (s.exec c)).left = some (p, f :: l) ∧ o = .put p f := by
  subst hp
  have hk : storeSpec ip strict (s.exec c) o _ (vs (s.exec c)) := hkeep
  unfold storeSpec at hk
  cases hn : (vs (s.exec c)).left with
  | none =>
    rw [hn] at hk
    exact Or.inl ⟨rfl, (hk (hinv.exec.wf_exec c)).1⟩
  | some x =>
    rw [hn] at hk
    obtain ⟨f, l, hx, ho, -⟩ := hk
    exact Or.inr ⟨x.1, f, l, by rw [← hx], ho⟩

theorem storeStep_cpu_ne {s' : Sys} {o : SmpOp} {r : o.Res} {d : ℕ} (h : storeStep c o s = .done r s') (hd : d ≠ c) :
    s'.cpu d = s.cpu d := by
  by_cases ho : ∃ p, o = .freeproc p
  · obtain ⟨p, rfl⟩ := ho
    cases h
    rfl
  · have heq : storeStep c o s = smpStep c o s := by
      cases o with
      | freeproc p => exact absurd ⟨p, rfl⟩ ho
      | _ => rfl
    exact step_cpu_ne (heq.symm.trans h) hd

/-- Requests on one processor leave the others alone. -/
theorem ahead_cpu_ne {C : Threads.Config smpSig Sys Thread} {d : ℕ} (hd : d ≠ c) (n : ℕ) :
    ((kernel jobs).ahead c n C).shared.cpu d = C.shared.cpu d := by
  induction n generalizing C with
  | zero => rfl
  | succ n ih =>
    rw [Threads.ahead]
    split
    · split
      · next hr => rw [ih, storeStep_cpu_ne hr hd]
      · rfl
    · rfl

section Events
variable {C : Threads.Config smpSig Sys Thread} {d : ℕ} (hC : Reachable jobs C)
include hC

theorem Reachable.turn (hx : C.shared.exec c = .scheduler d) (hm : Threads.idle (C.thread (.scheduler d)) = true) :
    Reachable jobs ⟨C.shared, Function.update C.thread (.scheduler d) (inlined scheduler)⟩ := by
  rw [← hx] at hm ⊢
  refine .step hC (.event (T := kernel jobs) (c := c) ?_)
  change Arrives jobs c C.shared (C.thread (C.shared.exec c)) _ _
  rw [Threads.eq_ret_of_idle hm]
  exact .turn hx

theorem Reachable.svc (hx : C.shared.exec c = .proc p) (hm : Threads.idle (C.thread (.proc p)) = true) (tf : ℕ)
    {body : List SysOp} (hb : jobs body) (hl : Balanced body) (close : Closing) :
    Reachable jobs ⟨C.shared.mask c, Function.update C.thread (.proc p) (inlined (swiHandler tf body close))⟩ := by
  rw [← hx] at hm ⊢
  refine .step hC (.event (T := kernel jobs) (c := c) ?_)
  change Arrives jobs c C.shared (C.thread (C.shared.exec c)) _ _
  rw [Threads.eq_ret_of_idle hm]
  exact .svc hx tf hb hl close

theorem Reachable.irq {t : Thread} (hx : C.shared.exec c = t) (hi : (C.shared.cpu c).irq = true) (tf : ℕ) {gic : List Call}
    (hl : leavesAll gic ∅ = ∅) (timer : Bool) (close : Closing) :
    Reachable jobs ⟨C.shared.mask c,
      Function.update C.thread t ((inlined (irqHandler tf gic timer close)).bind fun _ => C.thread t)⟩ := by
  subst hx
  exact .step hC (.event (T := kernel jobs) (c := c) (.irq hi tf hl timer close _))

end Events

/-! ## A first run -/

/-- One way the kernel can start: the first process is in slot 0. -/
def firstConfig : Threads.Config smpSig Sys Thread where
  shared :=
    { lock := fun _ => none
      proc := Function.update (fun _ => Proc.zero) 0 { Proc.zero with
        state := .runnable, pid := 1, sz := 4096, pagetable := 1, trapframe := topFrame 0, cwd := 1 }
      cpu := fun c => ⟨none, 0, false, false, .scheduler c⟩
      nextpid := 2
      initproc := 0
      hist := { History.zero with thread := fun p => decide (p = 0) } }
  thread
    | .scheduler _ => .ret ()
    | .proc p => if p = 0 then inlined (forkret []) else .ret ()

theorem boot_firstConfig : Boot firstConfig where
  lock _ := rfl
  cpu _ := rfl
  first := ⟨rfl, rfl, rfl⟩
  others p hp := by
    have hp' : p ≠ 0 := hp
    simp only [firstConfig]
    rw [Function.update_of_ne hp']
  hist := rfl
  scheduler _ := rfl
  forkret := ⟨[], rfl, rfl⟩
  idle _ hp := if_neg hp

/-- The scheduler of processor 0 has begun a turn. -/
def firstTurn : Threads.Config smpSig Sys Thread :=
  ⟨firstConfig.shared, Function.update firstConfig.thread (.scheduler 0) (inlined scheduler)⟩

theorem reachable_firstTurn (jobs : List SysOp → Prop) : Reachable jobs firstTurn :=
  Reachable.turn (c := 0) (.init boot_firstConfig) rfl rfl

/-- The first process has come to user mode on processor 0. -/
def firstUser (jobs : List SysOp → Prop) : Threads.Config smpSig Sys Thread := (kernel jobs).ahead 0 9 firstTurn

/-- It has made a system call. -/
def firstCall (jobs : List SysOp → Prop) (body : List SysOp) : Threads.Config smpSig Sys Thread :=
  ⟨(firstUser jobs).shared.mask 0,
    Function.update (firstUser jobs).thread (.proc 0) (inlined (swiHandler 0 body ⟨fun _ => [], []⟩))⟩

theorem reachable_firstCall (body : List SysOp) (hb : jobs body) (hl : Balanced body) :
    Reachable jobs (firstCall jobs body) :=
  Reachable.svc ((reachable_firstTurn jobs).ahead 0 9) rfl rfl 0 hb hl _

/-- The first process has gone to sleep in `sleep(9, 5)`. -/
def sampleAsleep : Threads.Config smpSig Sys Thread :=
  (kernel fun _ => True).ahead 0 20
    (firstCall (fun _ => True) [.call (.acquire 5), .call (.sleep 9 5), .call (.release 5)])

/-- Processor 1 can be interrupted. -/
def sampleOther : Threads.Config smpSig Sys Thread :=
  (kernel fun _ => True).ahead 1 1
    ⟨sampleAsleep.shared, Function.update sampleAsleep.thread (.scheduler 1) (inlined scheduler)⟩

/-- The interrupt handler there has taken lock 5 and called `wakeup(9)`. -/
def sampleWoken : Threads.Config smpSig Sys Thread :=
  (kernel fun _ => True).ahead 1 197 ⟨sampleOther.shared.mask 1, Function.update sampleOther.thread (.scheduler 1)
    ((inlined (irqHandler 0 [.acquire 5, .wakeup 9, .release 5] false ⟨fun _ => [], []⟩)).bind fun _ =>
      sampleOther.thread (.scheduler 1))⟩

theorem reachable_sampleWoken : Reachable (fun _ => True) sampleWoken := by
  have h1 : Reachable (fun _ => True) sampleAsleep := (reachable_firstCall _ trivial (by exact rfl)).ahead 0 20
  have h2 : Reachable (fun _ => True) sampleOther :=
    (Reachable.turn (c := 1) h1 (by decide +kernel) (by decide +kernel)).ahead 1 1
  exact (Reachable.irq (c := 1) h2 (by decide +kernel) (by decide +kernel) 0 rfl false _).ahead 1 197

end Xv6Arm.Smp

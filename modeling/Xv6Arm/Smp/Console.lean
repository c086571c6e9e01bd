import Xv6Arm.Smp.Held

/-!
# Console output

`consolewrite` keeps `cons.lock` while it passes its bytes to `uartputc`, which
sleeps under `uart_tx_lock` when the transmit ring is full. The code of `proc.c`
runs here next to the ring and the UART, whose transmit-full flag may answer each
read in any way.
-/
namespace Xv6Arm.Smp
open Lib

abbrev UART_TX_BUF_SIZE : ℕ := 32

/-- `cons.lock` and `uart_tx_lock`, and the channel `&uart_tx_r`. -/
abbrev consLock : Lock := .obj 0
abbrev uartTxLock : Lock := .obj 1
abbrev uartTxR : Chan := .obj 1

/-- `uart_tx_buf`, `uart_tx_w`, `uart_tx_r`, and the device. -/
structure Uart where
  buf : ℕ → UInt8
  w : ℕ
  r : ℕ
  /-- The flag `UARTFR_TXFF` at the next read of the flag register, the one after it, ... -/
  txff : ℕ → Bool
  /-- What has been written to the data register. -/
  sent : List UInt8

/-- The ring with the rest of the kernel; `user` is what `copyin` finds at an address, if anything. -/
structure ConsState where
  sys : Sys
  uart : Uart
  user : ℕ → Option UInt8

inductive UartOp where
  | smp (o : SmpOp)
  | copyin (addr : ℕ)
  | ring
  | readFlag
  | put (c : UInt8)
  | take
  | send (c : UInt8)

abbrev UartOp.Res : UartOp → Type
  | .smp o => o.Res
  | .copyin _ => Option UInt8
  | .ring => ℕ × ℕ
  | .readFlag => Bool
  | .take => UInt8
  | _ => Unit

abbrev uartSig : Signature := ⟨UartOp, UartOp.Res⟩

namespace Uart

def put (u : Uart) (c : UInt8) : Uart :=
  { u with buf := Function.update u.buf u.w c, w := (u.w + 1) % UART_TX_BUF_SIZE }

def take (u : Uart) : Uart := { u with r := (u.r + 1) % UART_TX_BUF_SIZE }

def readFlag (u : Uart) : Uart := { u with txff := fun k => u.txff (k + 1) }

/-- The number of characters in the ring. -/
def count (u : Uart) : ℕ := (u.w + UART_TX_BUF_SIZE - u.r) % UART_TX_BUF_SIZE

end Uart

def uartStep (c : ℕ) : Machine uartSig ConsState
  | .smp o, s => (smpStep c o s.sys).map fun t => { s with sys := t }
  | .copyin addr, s => .done (s.user addr) s
  | .ring, s => .done (s.uart.w, s.uart.r) s
  | .readFlag, s => .done (s.uart.txff 0) { s with uart := s.uart.readFlag }
  | .put ch, s => .done () { s with uart := s.uart.put ch }
  | .take, s => .done (s.uart.buf s.uart.r) { s with uart := s.uart.take }
  | .send ch, s => .done () { s with uart := { s.uart with sent := s.uart.sent ++ [ch] } }

abbrev UartM := Prog uartSig

def inSmp {α : Type} (p : SmpM α) : UartM α := p.lift fun o => .op (S := uartSig) (.smp o)
def uart (o : UartOp) : UartM o.Res := .op (S := uartSig) o
def copyinByte (addr : ℕ) : UartM (Option UInt8) := uart (.copyin addr)

/-- The loop of `uartstart`. Every turn takes a character out, so `UART_TX_BUF_SIZE` turns are enough. -/
def uartstartFrom : ℕ → UartM Unit
  | 0 => pure ()
  | fuel + 1 => do
    let (w, r) ← uart .ring
    if w = r then pure ()
    else if ← uart .readFlag then pure ()
    else do
      let c ← uart .take
      inSmp (wakeup uartTxR)
      uart (.send c)
      uartstartFrom fuel

def uartstart : UartM Unit := uartstartFrom UART_TX_BUF_SIZE

/-- The loop of `uartputc`, for at most `fuel` turns. -/
def uartputcLoop (c : UInt8) : ℕ → UartM Unit
  | 0 => inSmp hang
  | fuel + 1 => do
    let (w, r) ← uart .ring
    if (w + 1) % UART_TX_BUF_SIZE = r then do
      inSmp (sleep uartTxR uartTxLock)
      uartputcLoop c fuel
    else do
      uart (.put c)
      uartstart
      inSmp (release uartTxLock)

def uartputc (fuel : ℕ) (c : UInt8) : UartM Unit := do
  inSmp (acquire uartTxLock)
  uartputcLoop c fuel

/-- The loop of `consolewrite` with `n` bytes to go after `i`. -/
def consolewriteFrom (fuel src : ℕ) : ℕ → ℕ → UartM ℕ
  | 0, i => do
    inSmp (release consLock)
    pure i
  | n + 1, i => do
    match ← copyinByte ((src + i) % 2 ^ 64) with
    | none => do
      inSmp (release consLock)
      pure i
    | some c => do
      uartputc fuel c
      consolewriteFrom fuel src n (i + 1)

/-- `consolewrite` of user memory; `fuel` bounds the turns of the loop in each `uartputc`. -/
def consolewrite (fuel src : ℕ) (n : ℤ) : UartM ℕ := do
  inSmp (acquire consLock)
  consolewriteFrom fuel src n.toNat 0

/-! ## The ring -/

/-- What is left of `k` characters after `uartstart`, and the answers of the flag register after it. -/
def drain : ℕ → (ℕ → Bool) → ℕ × (ℕ → Bool)
  | 0, txff => (0, txff)
  | k + 1, txff => if txff 0 then (k + 1, fun j => txff (j + 1)) else drain k fun j => txff (j + 1)

/-- Whether some character of the `n` bytes at `src + i` finds the ring full, which holds `k` characters
before the first of them. -/
def overflows (user : ℕ → Option UInt8) (src : ℕ) : ℕ → ℕ → ℕ → (ℕ → Bool) → Bool
  | 0, _, _, _ => false
  | n + 1, i, k, txff =>
    match user ((src + i) % 2 ^ 64) with
    | none => false
    | some _ =>
      if k + 1 = UART_TX_BUF_SIZE then true
      else overflows user src n (i + 1) (drain (k + 1) txff).1 (drain (k + 1) txff).2

/-- The indices are inside the ring. -/
def Uart.Ok (u : Uart) : Prop := u.w < UART_TX_BUF_SIZE ∧ u.r < UART_TX_BUF_SIZE

namespace Uart
variable {u : Uart}

theorem count_lt (u : Uart) : u.count < UART_TX_BUF_SIZE := Nat.mod_lt _ (by decide)

theorem count_eq_zero (h : u.Ok) : u.w = u.r ↔ u.count = 0 := by
  unfold Ok UART_TX_BUF_SIZE at *
  unfold count UART_TX_BUF_SIZE
  omega

theorem full_iff (h : u.Ok) : (u.w + 1) % UART_TX_BUF_SIZE = u.r ↔ u.count + 1 = UART_TX_BUF_SIZE := by
  unfold Ok UART_TX_BUF_SIZE at *
  unfold count UART_TX_BUF_SIZE
  omega

theorem count_put (h : u.Ok) (hk : u.count + 1 ≠ UART_TX_BUF_SIZE) (c : UInt8) :
    (u.put c).Ok ∧ (u.put c).count = u.count + 1 := by
  unfold Ok count put UART_TX_BUF_SIZE at *
  dsimp only at *
  omega

theorem count_take (h : u.Ok) (hk : u.count ≠ 0) : u.take.Ok ∧ u.take.count + 1 = u.count := by
  unfold Ok count take UART_TX_BUF_SIZE at *
  dsimp only at *
  omega

end Uart

theorem run_inSmp {α : Type} (c : ℕ) (p : SmpM α) (s : ConsState) :
    (inSmp p).run (uartStep c) s = (p.run (smpStep c) s.sys).map fun t => { s with sys := t } := by
  refine Prog.run_lift (g := ConsState.sys) (k := fun t s => { s with sys := t }) ?_ (fun _ _ => rfl)
    (fun _ _ _ => rfl) (fun _ => rfl) p s
  intro o t
  change Prog.run (uartStep c) (.call (S := uartSig) (.smp o) .ret) t = _
  rw [Prog.run]
  simp only [uartStep]
  cases smpStep c o t.sys <;> rfl

/-- A single request of `proc.c`. -/
theorem run_inSmp_op {c : ℕ} {o : SmpOp} {r : o.Res} {s : ConsState} {t : Sys} (h : smpStep c o s.sys = .done r t) :
    (inSmp (.op (S := smpSig) o)).run (uartStep c) s = .done r { s with sys := t } := by
  rw [run_inSmp, Prog.op, Prog.run_call_done _ h]
  rfl

theorem completes_inSmp {α : Type} {c : ℕ} {p : SmpM α} {s : ConsState} {Q : α → Sys → Prop}
    (h : Completes (smpStep c) p s.sys Q) :
    Completes (uartStep c) (inSmp p) s fun a s' => Q a s'.sys ∧ s'.uart = s.uart ∧ s'.user = s.user := by
  obtain ⟨a, t, hr, hQ⟩ := completes_iff.mp h
  rw [completes_iff, run_inSmp, hr]
  exact ⟨a, _, rfl, hQ, rfl, rfl⟩

section Run
variable {c : ℕ} {p : Slot} {s : ConsState}

/-- `uartstart` returns and leaves what the flag register does not let it send. -/
theorem uartstartFrom_completes (fuel : ℕ) (h : Solo c p [uartTxLock, consLock] s.sys) (hok : s.uart.Ok)
    (hfuel : s.uart.count ≤ fuel) :
    Completes (uartStep c) (uartstartFrom fuel) s fun _ s' =>
      Solo c p [uartTxLock, consLock] s'.sys ∧ s'.uart.Ok ∧ s'.user = s.user ∧
        (s'.uart.count, s'.uart.txff) = drain s.uart.count s.uart.txff := by
  induction fuel generalizing s with
  | zero =>
    have h0 : s.uart.count = 0 := Nat.le_zero.mp hfuel
    exact Returns.ret ⟨h, hok, rfl, by rw [h0]; rfl⟩
  | succ fuel ih =>
    refine Returns.quiet rfl rfl ?_
    change Completes (uartStep c) (if s.uart.w = s.uart.r then _ else _ : UartM Unit) s _
    by_cases hempty : s.uart.w = s.uart.r
    · rw [if_pos hempty]
      rw [Uart.count_eq_zero hok] at hempty
      exact Returns.ret ⟨h, hok, rfl, by rw [hempty]; rfl⟩
    · rw [if_neg hempty]
      rw [Uart.count_eq_zero hok] at hempty
      obtain ⟨k, hk⟩ := Nat.exists_eq_succ_of_ne_zero hempty
      refine Returns.quiet rfl rfl ?_
      change Completes (uartStep c) (if s.uart.txff 0 = true then _ else _ : UartM Unit) _ _
      by_cases hfull : s.uart.txff 0 = true
      · rw [if_pos hfull]
        refine Returns.ret ⟨h, hok, rfl, ?_⟩
        rw [hk, drain, if_pos hfull]
        exact Prod.ext hk rfl
      · rw [if_neg hfull]
        obtain ⟨hok', hcount⟩ := Uart.count_take (u := s.uart.readFlag) hok hempty
        refine Returns.quiet rfl rfl ?_
        have hwake := (h.wakeup uartTxR (by simp) (by decide))
        refine (completes_inSmp (s := { s with uart := s.uart.readFlag.take }) hwake).bind_quiet ?_
        rintro - s₁ ⟨h₁, hu₁, huser₁⟩
        refine Returns.quiet rfl rfl ?_
        have hcount₁ : s₁.uart.count = k := by
          rw [hu₁]
          exact Nat.succ_injective (hcount.trans hk)
        refine (ih (s := { s₁ with uart := { s₁.uart with sent := s₁.uart.sent ++ [_] } }) h₁
          (by rw [hu₁]; exact hok') (hcount₁.le.trans (by omega))).mono ?_
        rintro - s₂ ⟨h₂, hok₂, huser₂, hdrain⟩
        refine ⟨h₂, hok₂, huser₂.trans huser₁, ?_⟩
        rw [hdrain, hk, drain, if_neg hfull]
        change drain s₁.uart.count s₁.uart.txff = _
        rw [hcount₁, hu₁]
        rfl

/-- `uartputc` with room in the ring. -/
theorem uartputc_completes (fuel : ℕ) (ch : UInt8) (h : Solo c p [consLock] s.sys) (hok : s.uart.Ok)
    (hroom : s.uart.count + 1 ≠ UART_TX_BUF_SIZE) :
    Completes (uartStep c) (uartputc (fuel + 1) ch) s fun _ s' =>
      Solo c p [consLock] s'.sys ∧ s'.uart.Ok ∧ s'.user = s.user ∧
        (s'.uart.count, s'.uart.txff) = drain (s.uart.count + 1) s.uart.txff := by
  obtain ⟨t, r₁, h₁⟩ := h.acquire (l := uartTxLock) (by decide)
  have hacquire : Completes (smpStep c) (acquire uartTxLock) s.sys fun _ t => Solo c p [uartTxLock, consLock] t :=
    Returns.quiet rfl r₁ (Returns.ret h₁)
  refine (completes_inSmp hacquire).bind_quiet ?_
  rintro - s₁ ⟨h₁, hu₁, huser₁⟩
  refine Returns.quiet rfl rfl ?_
  change Completes (uartStep c) (if (s₁.uart.w + 1) % UART_TX_BUF_SIZE = s₁.uart.r then _ else _ : UartM Unit) s₁ _
  rw [← hu₁] at hok hroom
  rw [if_neg fun hfull => hroom ((Uart.full_iff hok).mp hfull)]
  obtain ⟨hok₂, hcount₂⟩ := Uart.count_put hok hroom ch
  refine Returns.quiet rfl rfl ?_
  refine (uartstartFrom_completes UART_TX_BUF_SIZE (s := { s₁ with uart := s₁.uart.put ch }) h₁ hok₂
    (Uart.count_lt _).le).bind_quiet ?_
  rintro - s₃ ⟨h₃, hok₃, huser₃, hdrain⟩
  obtain ⟨t', r₄, h₄⟩ := h₃.release (l := uartTxLock) (by simp) (by decide)
  have hrelease : Completes (smpStep c) (release uartTxLock) s₃.sys fun _ t => Solo c p [consLock] t :=
    Returns.quiet rfl r₄ (Returns.ret h₄)
  refine (completes_inSmp hrelease).mono ?_
  rintro - s₄ ⟨h₄, hu₄, huser₄⟩
  refine ⟨h₄, hu₄ ▸ hok₃, huser₄.trans (huser₃.trans huser₁), ?_⟩
  rw [hu₄, hdrain, ← hu₁]
  change drain (s₁.uart.put ch).count _ = _
  rw [hcount₂]
  rfl

/-- `uartputc` on a full ring, with `cons.lock` held. -/
theorem uartputc_panics (fuel : ℕ) (ch : UInt8) (h : Solo c p [consLock] s.sys) (hok : s.uart.Ok)
    (hfull : s.uart.count + 1 = UART_TX_BUF_SIZE) :
    (uartputc (fuel + 1) ch).run (uartStep c) s = .panic "sched locks" := by
  obtain ⟨t, r₁, h₁⟩ := h.acquire (l := uartTxLock) (by decide)
  refine (Prog.run_bind_done _ (run_inSmp_op r₁)).trans ?_
  refine (Prog.run_call_done _ rfl).trans ?_
  change Prog.run (uartStep c) (if (s.uart.w + 1) % UART_TX_BUF_SIZE = s.uart.r then _ else _ : UartM Unit) _ = _
  rw [if_pos ((Uart.full_iff hok).mpr hfull), Prog.bind_eq, Prog.run_bind, run_inSmp]
  rw [Solo.sleep_panics h₁ uartTxR (by simp) (by simp) (by decide)]
  rfl

/-- The loop of `consolewrite` panics in the first `uartputc` that finds the ring full, and returns if
there is none. -/
theorem consolewriteFrom_run (fuel src n i : ℕ) (h : Solo c p [consLock] s.sys) (hok : s.uart.Ok) :
    (overflows s.user src n i s.uart.count s.uart.txff = true →
      (consolewriteFrom (fuel + 1) src n i).run (uartStep c) s = .panic "sched locks") ∧
    (overflows s.user src n i s.uart.count s.uart.txff = false →
      ∃ j s', (consolewriteFrom (fuel + 1) src n i).run (uartStep c) s = .done j s') := by
  have hend : ∀ (i : ℕ) (s : ConsState), Solo c p [consLock] s.sys → ∃ j s', Prog.run (uartStep c)
      (do inSmp (release consLock); pure i : UartM ℕ) s = .done j s' := by
    intro i s h
    obtain ⟨t, r, -⟩ := h.release (l := consLock) (by simp) (by decide)
    exact ⟨i, { s with sys := t }, Prog.run_bind_done _ (run_inSmp_op r)⟩
  induction n generalizing s i with
  | zero => exact ⟨fun hov => (by cases hov), fun _ => hend i s h⟩
  | succ n ih =>
    rw [overflows, consolewriteFrom]
    cases hc : s.user ((src + i) % 2 ^ 64) with
    | none =>
      refine ⟨fun hov => (by cases hov), fun _ => ?_⟩
      obtain ⟨j, s', hr⟩ := hend i s h
      refine ⟨j, s', ?_⟩
      refine (Prog.run_call_done _ (congrArg (Outcome.done · s) hc)).trans ?_
      exact hr
    | some ch =>
      have hstep : ∀ x, (copyinByte ((src + i) % 2 ^ 64) >>= x : UartM ℕ).run (uartStep c) s =
          (x (some ch)).run (uartStep c) s :=
        fun x => Prog.run_call_done _ (congrArg (Outcome.done · s) hc)
      rw [hstep]
      by_cases hfull : s.uart.count + 1 = UART_TX_BUF_SIZE
      · simp only [if_pos hfull]
        refine ⟨fun _ => ?_, fun hov => (by cases hov)⟩
        rw [Prog.bind_eq, Prog.run_bind, uartputc_panics fuel ch h hok hfull]
      · simp only [if_neg hfull]
        obtain ⟨⟨⟩, s₁, hr, h₁, hok₁, huser₁, hdrain⟩ :=
          completes_iff.mp (uartputc_completes fuel ch h hok hfull)
        rw [Prog.bind_eq, Prog.run_bind_done _ hr]
        have hcount : s₁.uart.count = (drain (s.uart.count + 1) s.uart.txff).1 := congrArg Prod.fst hdrain
        have htxff : s₁.uart.txff = (drain (s.uart.count + 1) s.uart.txff).2 := congrArg Prod.snd hdrain
        rw [← hcount, ← htxff, ← huser₁]
        exact ih (i + 1) h₁ hok₁

theorem consolewrite_run (fuel src : ℕ) (n : ℤ) (h : Solo c p [] s.sys) (hok : s.uart.Ok) :
    (overflows s.user src n.toNat 0 s.uart.count s.uart.txff = true →
      (consolewrite (fuel + 1) src n).run (uartStep c) s = .panic "sched locks") ∧
    (overflows s.user src n.toNat 0 s.uart.count s.uart.txff = false →
      ∃ i s', (consolewrite (fuel + 1) src n).run (uartStep c) s = .done i s') := by
  obtain ⟨t, r, h₁⟩ := h.acquire (l := consLock) (by simp)
  have hrun : (consolewrite (fuel + 1) src n).run (uartStep c) s =
      (consolewriteFrom (fuel + 1) src n.toNat 0).run (uartStep c) { s with sys := t } :=
    Prog.run_bind_done _ (run_inSmp_op r)
  rw [hrun]
  exact consolewriteFrom_run (s := { s with sys := t }) fuel src n.toNat 0 h₁ hok

end Run

/-- A console write that starts with no lock held runs into the panic "sched locks" exactly if one of
its characters finds the transmit ring full; otherwise it returns. -/
theorem consolewrite_sched_locks {c : ℕ} {p : Slot} {s : ConsState} (h : Solo c p [] s.sys) (hok : s.uart.Ok)
    (fuel src : ℕ) (n : ℤ) :
    ((consolewrite (fuel + 1) src n).run (uartStep c) s = .panic "sched locks" ↔
      overflows s.user src n.toNat 0 s.uart.count s.uart.txff = true) ∧
    ((∃ i s', (consolewrite (fuel + 1) src n).run (uartStep c) s = .done i s') ↔
      overflows s.user src n.toNat 0 s.uart.count s.uart.txff = false) := by
  obtain ⟨hpanic, hdone⟩ := consolewrite_run fuel src n h hok
  cases hov : overflows s.user src n.toNat 0 s.uart.count s.uart.txff with
  | true => simp [hpanic hov]
  | false =>
    obtain ⟨j, s', hr⟩ := hdone hov
    simp [hr]

/-- Process 0 in a system call on processor 0, an empty ring, and a UART that takes no character. -/
def stalledUart : ConsState where
  sys :=
    { lock := fun _ => none
      proc := fun q => if q = 0 then { Proc.zero with state := .running, pid := 1 } else Proc.zero
      cpu := fun _ => ⟨some 0, 0, false, false, .proc 0⟩
      nextpid := 2
      initproc := 0
      hist := History.zero }
  uart := { buf := fun _ => 0, w := 0, r := 0, txff := fun _ => true, sent := [] }
  user := fun _ => some 97

theorem solo_stalledUart : Solo 0 0 [] stalledUart.sys := ⟨rfl, rfl, rfl, by simp, fun _ => by simp [stalledUart]⟩

theorem ok_stalledUart : stalledUart.uart.Ok := by
  unfold Uart.Ok
  decide

/-- The ring takes 31 characters. -/
theorem consolewrite_stalled_31 : ∃ i s', (consolewrite 1 0 31).run (uartStep 0) stalledUart = .done i s' :=
  (consolewrite_sched_locks solo_stalledUart ok_stalledUart 0 0 31).2.mpr (by decide)

/-- The 32nd character puts the writer to sleep with `cons.lock` held. -/
theorem consolewrite_stalled_32 :
    (consolewrite 1 0 32).run (uartStep 0) stalledUart = .panic "sched locks" :=
  (consolewrite_run 0 0 32 solo_stalledUart ok_stalledUart).1 (by decide)

end Xv6Arm.Smp

import Xv6Arm.Console.Input

/-!
# The line discipline

What the console input is for: a queue of committed bytes that readers take from,
and a line of pending bytes that can still be edited. Every run of interrupts and
readers on the ring is a run on these two lists.
-/
namespace Xv6Arm
open Lib

/-- The committed bytes, the oldest first, and the pending ones. -/
structure Line where
  committed : List UInt8
  pending : List UInt8

/-- What a reader has got, and whether it waits for up to `left` more bytes. -/
inductive Request where
  | waits (left : ℕ) (got : List UInt8)
  | ends (got : List UInt8)

namespace Line

/-- The number of bytes held in total. -/
def held (l : Line) : ℕ := l.committed.length + l.pending.length

/-- An ordinary byte is added, and the line is committed at its end or when nothing more fits. -/
def add (c : UInt8) (l : Line) : Line :=
  if c = LF ∨ c = CTRL_D ∨ l.held + 1 = INPUT_BUF then ⟨l.committed ++ (l.pending ++ [c]), []⟩
  else ⟨l.committed, l.pending ++ [c]⟩

def input (c : UInt8) (l : Line) : Line :=
  if c = CTRL_P then l
  else if c = CTRL_U then { l with pending := [] }
  else if c = CTRL_H ∨ c = DEL then { l with pending := l.pending.dropLast }
  else if c ≠ 0 ∧ l.held < INPUT_BUF then l.add (if c = CR then LF else c)
  else l

/-- A reader that has got `got` takes up to `n` more committed bytes: to the end of a line, or to a `^D`,
which it takes only if it has got nothing. -/
def take : ℕ → List UInt8 → List UInt8 → List UInt8 × Request
  | 0, got, cs => (cs, .ends got)
  | n + 1, got, [] => ([], .waits (n + 1) got)
  | n + 1, got, c :: cs =>
    if c = CTRL_D then (if got = [] then cs else c :: cs, .ends got)
    else if c = LF then (cs, .ends (got ++ [c]))
    else take n (got ++ [c]) cs

end Line

/-- The line with the readers that wait, and the reads that have ended, the last one first. -/
structure LineTty where
  line : Line
  waits : ℕ → Option (ℕ × List UInt8)
  done : List (ℕ × List UInt8)

namespace LineTty

def settle (s : LineTty) (p : ℕ) : List UInt8 × Request → LineTty
  | (cs, .waits left got) => { s with line := { s.line with committed := cs }, waits := Function.update s.waits p (some (left, got)) }
  | (cs, .ends got) =>
    { line := { s.line with committed := cs }, waits := Function.update s.waits p none, done := (p, got) :: s.done }

def step (s : LineTty) : ConsEvent → LineTty
  | .intr c => { s with line := s.line.input c }
  | .read p _ n _ =>
    match s.waits p with
    | none => s.settle p (Line.take n.toNat [] s.line.committed)
    | some _ => s
  | .wake p _ =>
    match s.waits p with
    | none => s
    | some (left, got) => s.settle p (Line.take left got s.line.committed)

def init : LineTty := { line := ⟨[], []⟩, waits := fun _ => none, done := [] }

def run (es : List ConsEvent) : LineTty := es.foldl step init

end LineTty

/-! ## The ring holds the line -/

/-- The ring holds the committed bytes and then the pending ones, which `w` divides. -/
structure Cons.Holds (s : Cons) (l : Line) : Prop where
  ring : Ring.Holds INPUT_BUF (2 ^ 32) s.buf s.r s.e (l.committed ++ l.pending)
  w : s.w = (s.r + l.committed.length) % 2 ^ 32
  line : LF ∉ l.pending
  full : l.held = INPUT_BUF → l.pending = []

namespace Cons.Holds
variable {s : Cons} {l : Line} {c : UInt8}

theorem dvd : INPUT_BUF ∣ 2 ^ 32 := by decide
theorem lt : INPUT_BUF < 2 ^ 32 := by decide

theorem held_eq (h : s.Holds l) : Ring.count (2 ^ 32) s.r s.e = l.held := by
  rw [h.ring.count_eq lt, List.length_append, Line.held]

theorem held_le (h : s.Holds l) : l.held ≤ INPUT_BUF := by
  have := h.ring.fits
  rwa [List.length_append] at this

/-- The pending bytes are those between `w` and `e`. -/
theorem pending_eq (h : s.Holds l) : Ring.count (2 ^ 32) s.w s.e = l.pending.length := by
  have hle := h.held_le
  have hr := h.ring.rd_lt
  rw [Line.held] at hle
  rw [Ring.count, h.w, h.ring.wr_eq, List.length_append]
  unfold INPUT_BUF at hle
  omega

theorem edited_iff (h : s.Holds l) : s.e ≠ s.w ↔ l.pending ≠ [] := by
  have hc := h.pending_eq
  have hle := h.held_le
  have hr := h.ring.rd_lt
  have he := h.ring.wr_eq
  rw [List.length_append] at he
  rw [Line.held] at hle
  rw [← List.length_pos_iff_ne_nil, h.w, he]
  unfold INPUT_BUF at hle
  omega

theorem committed_iff (h : s.Holds l) : s.r = s.w ↔ l.committed = [] := by
  have hle := h.held_le
  have hr := h.ring.rd_lt
  rw [Line.held] at hle
  rw [h.w, ← List.length_eq_zero_iff]
  unfold INPUT_BUF at hle
  omega

/-- The last pending byte is erased. -/
theorem erase (h : s.Holds l) (hne : l.pending ≠ []) :
    s.buf ((s.e + (2 ^ 32 - 1)) % 2 ^ 32 % INPUT_BUF) = l.pending.getLast hne ∧
      s.erase.Holds { l with pending := l.pending.dropLast } := by
  have hring := h.ring
  rw [← List.dropLast_concat_getLast hne, ← List.append_assoc] at hring
  obtain ⟨hlast, hrest⟩ := hring.unput dvd
  have hlen : l.pending.dropLast.length + 1 = l.pending.length := by
    rw [List.length_dropLast]
    have := List.length_pos_of_ne_nil hne
    omega
  refine ⟨hlast, ⟨?_, ?_, fun hm => h.line (List.mem_of_mem_dropLast hm), fun hfull => ?_⟩⟩
  · rw [erase_buf, erase_r, erase_e]
    exact hrest
  · rw [erase_w, erase_r]
    exact h.w
  · have hle := h.held_le
    simp only [Line.held] at hfull hle
    omega

/-- `^U` goes back to the start of the line. -/
theorem killLine (h : s.Holds l) {n : ℕ} (hn : l.pending.length = n) : (s.killLine n).Holds { l with pending := [] } := by
  induction n generalizing s l with
  | zero =>
    rw [Cons.killLine]
    rw [List.length_eq_zero_iff] at hn
    rw [← hn]
    exact h
  | succ n ih =>
    have hne : l.pending ≠ [] := fun h0 => by simp [h0] at hn
    obtain ⟨hlast, herase⟩ := h.erase hne
    have hgo : s.e ≠ s.w ∧ s.buf ((s.e + (2 ^ 32 - 1)) % 2 ^ 32 % INPUT_BUF) ≠ LF := by
      refine ⟨h.edited_iff.mpr hne, ?_⟩
      rw [hlast]
      exact fun hl => h.line (hl ▸ List.getLast_mem hne)
    rw [Cons.killLine, if_pos hgo]
    exact ih (l := { l with pending := l.pending.dropLast }) herase (by rw [List.length_dropLast]; omega)

theorem store (h : s.Holds l) (hroom : l.held < INPUT_BUF) : (s.store c).Holds (l.add c) := by
  have hput := h.ring.put dvd (by rw [List.length_append]; exact hroom.ne) c
  have hfull : (s.e + 1) % 2 ^ 32 = (s.r + INPUT_BUF) % 2 ^ 32 ↔ l.held + 1 = INPUT_BUF := by
    rw [hput.full_iff lt, List.length_append, List.length_append, List.length_singleton, Line.held]
  rw [List.append_assoc] at hput
  simp only [Cons.store, Line.add, hfull]
  split
  · refine ⟨by rw [List.append_nil]; exact hput, ?_, List.not_mem_nil, fun _ => rfl⟩
    exact hput.wr_eq
  · rename_i hgo
    push Not at hgo
    refine ⟨hput, h.w, ?_, fun hl => ?_⟩
    · rw [List.mem_append, List.mem_singleton, not_or]
      exact ⟨h.line, Ne.symm hgo.1⟩
    · simp only [Line.held, List.length_append, List.length_singleton] at hl hgo
      omega

/-- An interrupt does to the ring what it does to the line. -/
theorem consoleintr (h : s.Holds l) (c : UInt8) : (s.consoleintr c).Holds (l.input c) := by
  simp only [Cons.consoleintr, Line.input]
  by_cases hP : c = CTRL_P
  · rw [if_pos hP, if_pos hP]
    exact h
  rw [if_neg hP, if_neg hP]
  by_cases hU : c = CTRL_U
  · rw [if_pos hU, if_pos hU]
    exact h.killLine h.pending_eq.symm
  rw [if_neg hU, if_neg hU]
  by_cases hH : c = CTRL_H ∨ c = DEL
  · rw [if_pos hH, if_pos hH]
    by_cases hne : l.pending = []
    · rw [if_neg (fun he => h.edited_iff.mp he hne), hne, List.dropLast_nil, ← hne]
      exact h
    · rw [if_pos (h.edited_iff.mpr hne)]
      exact (h.erase hne).2
  rw [if_neg hH, if_neg hH, h.held_eq]
  by_cases hc : c ≠ 0 ∧ l.held < INPUT_BUF
  · rw [if_pos hc, if_pos hc]
    exact h.store hc.2
  · rw [if_neg hc, if_neg hc]
    exact h

/-- The oldest committed byte is read. -/
theorem next {cs : List UInt8} (h : s.Holds l) (hl : l.committed = c :: cs) :
    s.buf (s.r % INPUT_BUF) = c ∧ Cons.Holds { s with r := (s.r + 1) % 2 ^ 32 } { l with committed := cs } := by
  have hring := h.ring
  rw [hl, List.cons_append] at hring
  obtain ⟨hc, hrest⟩ := hring.take dvd
  refine ⟨hc, hrest, ?_, h.line, fun hfull => ?_⟩
  · have hw := h.w
    rw [hl, List.length_cons] at hw
    rw [hw]
    simp only
    omega
  · have hle := h.held_le
    simp only [Line.held, hl, List.length_cons] at hfull hle
    omega

end Cons.Holds

/-! ## Readers -/

/-- The bytes from `dst` on that are still to be stored can be stored. -/
def Stores (writable : UInt64 → Bool) (dst : UInt64) (n : ℕ) : Prop := ∀ i < n, writable (dst + UInt64.ofNat i) = true

theorem Stores.tail {writable : UInt64 → Bool} {dst : UInt64} {n : ℕ} (h : Stores writable dst (n + 1)) :
    writable dst = true ∧ Stores writable (dst + 1) n := by
  refine ⟨by simpa using h 0 (by omega), fun i hi => ?_⟩
  have := h (i + 1) (by omega)
  rwa [UInt64.ofNat_add, UInt64.add_comm (UInt64.ofNat i), ← UInt64.add_assoc] at this

/-- The reader has got what the request has, and returns how much that is. -/
def Reading.Is (writable : UInt64 → Bool) : Reading → Request → Prop
  | .asleep target n dst out, .waits left got => left = n ∧ got = out ∧ n + out.length = target ∧ Stores writable dst n
  | .returned value out, .ends got => got = out ∧ value = out.length
  | _, _ => False

/-- A section of `consoleread` takes from the ring what a reader takes from the queue. -/
theorem Cons.Holds.consolereadFrom {s : Cons} {l : Line} {writable : UInt64 → Bool} {target n : ℕ} {dst : UInt64}
    {out : List UInt8} (h : s.Holds l) (hn : n + out.length = target) (hok : Stores writable dst n) :
    (s.consolereadFrom false writable target n dst out).1.Holds { l with committed := (Line.take n out l.committed).1 } ∧
      (s.consolereadFrom false writable target n dst out).2.Is writable (Line.take n out l.committed).2 := by
  induction n generalizing s l dst out with
  | zero => exact ⟨h, rfl, by simp [← hn]⟩
  | succ n ih =>
    cases hl : l.committed with
    | nil =>
      rw [Cons.consolereadFrom, if_pos (h.committed_iff.mpr hl), Line.take, ← hl]
      exact ⟨h, rfl, rfl, hn, hok⟩
    | cons c cs =>
      have hr : ¬s.r = s.w := fun hr => by simp [h.committed_iff.mp hr] at hl
      obtain ⟨hc, hnext⟩ := h.next hl
      have hlt := h.ring.rd_lt
      rw [Cons.consolereadFrom, if_neg hr, Line.take]
      simp only [hc]
      by_cases hD : c = CTRL_D
      · rw [if_pos hD, if_pos hD]
        refine ⟨?_, rfl, by omega⟩
        by_cases hout : out = []
        · rw [if_pos hout, if_neg (by simp [hout] at hn; omega)]
          exact hnext
        · have hpos := List.length_pos_of_ne_nil hout
          have hback : ((s.r + 1) % 2 ^ 32 + (2 ^ 32 - 1)) % 2 ^ 32 = s.r := by omega
          rw [if_neg hout, if_pos (by omega), ← hl]
          simpa only [hback] using h
      rw [if_neg hD, if_neg hD]
      obtain ⟨hdst, htail⟩ := hok.tail
      rw [if_neg (by rw [hdst]; simp)]
      by_cases hLF : c = LF
      · rw [if_pos hLF, if_pos hLF]
        refine ⟨hnext, rfl, ?_⟩
        simp only [List.length_append, List.length_singleton]
        omega
      · rw [if_neg hLF, if_neg hLF]
        exact ih hnext (by simp only [List.length_append, List.length_singleton]; omega) htail

/-! ## Whole runs -/

/-- The event is not one of a process that has been killed, asks for a length and gives a place for it. -/
def ConsEvent.Good (writable : ℕ → UInt64 → Bool) : ConsEvent → Prop
  | .intr _ => True
  | .read p dst n killed => 0 ≤ n ∧ killed = false ∧ Stores (writable p) dst n.toNat
  | .wake _ killed => killed = false

/-- The ring and its readers stand where the line and its readers stand. -/
structure Tty.Is (writable : ℕ → UInt64 → Bool) (s : Tty) (t : LineTty) : Prop where
  line : s.cons.Holds t.line
  idle : ∀ p, s.sleeps p = none ↔ t.waits p = none
  wait : ∀ p target n dst out, s.sleeps p = some (target, n, dst, out) →
    t.waits p = some (n, out) ∧ n + out.length = target ∧ Stores (writable p) dst n
  done : s.done = t.done.map fun (p, out) => (p, (out.length : ℤ), out)

namespace Tty.Is
variable {writable : ℕ → UInt64 → Bool} {s : Tty} {t : LineTty}

theorem init : Tty.Is writable .init .init where
  line := ⟨Ring.holds_nil (by decide), rfl, List.not_mem_nil, fun _ => rfl⟩
  idle _ := ⟨fun _ => rfl, fun _ => rfl⟩
  wait _ _ _ _ _ h := by cases h
  done := rfl

theorem settle (h : s.Is writable t) (p : ℕ) {cons : Cons} {cs : List UInt8} {x : Reading} {y : Request}
    (hl : cons.Holds { t.line with committed := cs }) (hx : x.Is (writable p) y) :
    (s.settle p (cons, x)).Is writable (t.settle p (cs, y)) := by
  cases x with
  | asleep target n dst out =>
    cases y with
    | ends got => exact hx.elim
    | waits left got =>
      obtain ⟨rfl, rfl, hn, hok⟩ := hx
      refine ⟨hl, fun q => ?_, fun q target' n' dst' out' hq => ?_, h.done⟩
      · by_cases hqp : q = p
        · simp [Tty.settle, LineTty.settle, hqp]
        · simpa [Tty.settle, LineTty.settle, hqp] using h.idle q
      · by_cases hqp : q = p
        · subst hqp
          simp only [Tty.settle, Function.update_self, Option.some.injEq, Prod.mk.injEq] at hq
          obtain ⟨rfl, rfl, rfl, rfl⟩ := hq
          exact ⟨by simp [LineTty.settle], hn, hok⟩
        · have hq : s.sleeps q = some (target', n', dst', out') := by simpa [Tty.settle, hqp] using hq
          simpa [LineTty.settle, hqp] using h.wait q _ _ _ _ hq
  | returned value out =>
    cases y with
    | waits left got => exact hx.elim
    | ends got =>
      obtain ⟨rfl, rfl⟩ := hx
      refine ⟨hl, fun q => ?_, fun q target' n' dst' out' hq => ?_, ?_⟩
      · by_cases hqp : q = p
        · simp [Tty.settle, LineTty.settle, hqp]
        · simpa [Tty.settle, LineTty.settle, hqp] using h.idle q
      · by_cases hqp : q = p
        · simp [Tty.settle, hqp] at hq
        · have hq : s.sleeps q = some (target', n', dst', out') := by simpa [Tty.settle, hqp] using hq
          simpa [LineTty.settle, hqp] using h.wait q _ _ _ _ hq
      · simp [Tty.settle, LineTty.settle, h.done]

theorem step (h : s.Is writable t) {e : ConsEvent} (he : e.Good writable) : (s.step writable e).Is writable (t.step e) := by
  cases e with
  | intr c => exact ⟨h.line.consoleintr c, h.idle, h.wait, h.done⟩
  | read p dst n killed =>
    obtain ⟨-, rfl, hok⟩ := he
    cases hs : s.sleeps p with
    | none =>
      have ht := (h.idle p).mp hs
      obtain ⟨hl, hx⟩ := h.line.consolereadFrom (show n.toNat + ([] : List UInt8).length = n.toNat from Nat.add_zero _) hok
      simp only [Tty.step, LineTty.step, hs, ht]
      exact h.settle p hl hx
    | some x =>
      obtain ⟨target, m, dst', out⟩ := x
      simp only [Tty.step, LineTty.step, hs, (h.wait p _ _ _ _ hs).1]
      exact h
  | wake p killed =>
    obtain rfl : killed = false := he
    cases hs : s.sleeps p with
    | none =>
      simp only [Tty.step, LineTty.step, hs, (h.idle p).mp hs]
      exact h
    | some x =>
      obtain ⟨target, m, dst', out⟩ := x
      obtain ⟨ht, hn, hok⟩ := h.wait p _ _ _ _ hs
      obtain ⟨hl, hx⟩ := h.line.consolereadFrom hn hok
      simp only [Tty.step, LineTty.step, hs, ht]
      exact h.settle p hl hx

theorem run {es : List ConsEvent} (hes : ∀ e ∈ es, e.Good writable) : (Tty.run writable es).Is writable (LineTty.run es) := by
  suffices hfold : ∀ s t, s.Is writable t → (es.foldl (Tty.step writable) s).Is writable (es.foldl LineTty.step t) from
    hfold _ _ init
  induction es with
  | nil => exact fun _ _ h => h
  | cons e es ih =>
    intro s t h
    exact ih (fun e' he' => hes e' (List.mem_cons_of_mem _ he')) _ _ (h.step (hes e List.mem_cons_self))

end Tty.Is

/-- The indices are in order: `r ≤ w ≤ e ≤ r + INPUT_BUF` modulo `2 ^ 32`, and nothing is pending in a full ring. -/
structure Cons.Ordered (s : Cons) : Prop where
  r_w : Ring.count (2 ^ 32) s.r s.w ≤ Ring.count (2 ^ 32) s.r s.e
  e_r : Ring.count (2 ^ 32) s.r s.e ≤ INPUT_BUF
  full : Ring.count (2 ^ 32) s.r s.e = INPUT_BUF → s.w = s.e

theorem Cons.Holds.ordered {s : Cons} {l : Line} (h : s.Holds l) : s.Ordered := by
  have hle := h.held_le
  have hr := h.ring.rd_lt
  refine ⟨?_, by rwa [h.held_eq], fun hfull => ?_⟩
  · rw [h.held_eq, Ring.count, h.w, Line.held]
    rw [Line.held] at hle
    unfold INPUT_BUF at hle
    omega
  · rw [h.held_eq] at hfull
    by_contra hne
    exact h.edited_iff.mp (Ne.symm hne) (h.full hfull)

/-- Interrupts and readers in any order keep the indices in order and do to the ring what they do to the line. -/
theorem console_line_discipline (writable : ℕ → UInt64 → Bool) (es : List ConsEvent) (hes : ∀ e ∈ es, e.Good writable) :
    (Tty.run writable es).cons.Ordered ∧ (Tty.run writable es).Is writable (LineTty.run es) :=
  ⟨(Tty.Is.run hes).line.ordered, Tty.Is.run hes⟩

/-- A line is typed with a correction while a reader waits for it. -/
theorem console_line_discipline_typed :
    (Tty.run (fun _ _ => true) [.read 1 0 10 false, .intr 97, .intr 98, .intr 127, .intr 13, .wake 1 false]).done =
      [(1, 2, [97, 10])] := by
  have h := (console_line_discipline (fun _ _ => true)
    [.read 1 0 10 false, .intr 97, .intr 98, .intr 127, .intr 13, .wake 1 false]
    (by simp [ConsEvent.Good, Stores])).2.done
  exact h.trans (by decide)

end Xv6Arm

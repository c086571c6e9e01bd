import Xv6Arm.Lib.Pool
import Xv6Arm.Log.Model

/-!
# Processes and the log

Any number of processes run operations `begin_op(); body; end_op()` over the one
log, with the requests of all of them interleaved. The machine of `log.c` is
instrumented with a record of which operation logged which block before which
commit, and of what each commit was given. Each process follows a protocol that
only speaks of its own phase.
-/
namespace Xv6Arm
open Lib

/-! ## The instrumented machine -/

/-- Where a process is with respect to the log. -/
inductive TxPhase where
  | outside
  | inside (op : ℕ)
  | committing

structure TxState where
  io : IoState
  phase : ℕ → TxPhase
  /-- The number of operations begun so far; they are numbered in that order. -/
  begun : ℕ
  /-- The operations that have passed the first section of `end_op`. -/
  ended : List ℕ
  /-- `(op, b, e)`: operation `op` has logged block `b` after `e` commits. -/
  logged : List (ℕ × ℕ × ℕ)
  /-- `log.lh` of each `commit()`, in the order they were entered. -/
  commits : List (List ℕ)

namespace TxState

/-- Enter process `t`'s request `o` with answer `r` into the record. -/
def note (t : ℕ) (s : TxState) : (o : IoOp) → IoOp.Res o → IoState → TxState
  | .beginOp, _, io =>
    { s with io, begun := s.begun + 1, phase := Function.update s.phase t (.inside s.begun) }
  | .endOp, doCommit, io =>
    let ended := match s.phase t with
      | .inside op => op :: s.ended
      | _ => s.ended
    if doCommit then
      { s with io, ended, phase := Function.update s.phase t .committing,
               commits := s.commits ++ [io.log.lh] }
    else { s with io, ended, phase := Function.update s.phase t .outside }
  | .commitDone, _, io => { s with io, phase := Function.update s.phase t .outside }
  | .logAppend b, _, io =>
    let logged := match s.phase t with
      | .inside op => (op, b, s.commits.length) :: s.logged
      | _ => s.logged
    { s with io, logged }
  | _, _, io => { s with io }

end TxState

def txStep (t : ℕ) : Machine ioSig TxState := fun o s =>
  match ioStep t o s.io with
  | .done r io => .done r (s.note t o r io)
  | .blocked => .blocked
  | .panic msg => .panic msg

/-- The requests a file system operation makes of the block layer inside a transaction. -/
def BodyOp : IoOp → Prop
  | .bread _ | .bset _ _ | .brelse _ | .logCheck | .logAppend _ => True
  | _ => False

def Body : IoM Unit → Prop
  | .call o next => BodyOp o ∧ ∀ r, Body (next r)
  | _ => True

/-- The programs processes run: one operation with any body. -/
def Transaction (p : IoM Unit) : Prop :=
  ∃ body, Body body ∧ p = (do beginOp; body; endOp)

/-- After `initlog`: no operation is in progress and the in-memory header is empty. -/
def TxInit (s : TxState) : Prop :=
  s.io.log.outstanding = 0 ∧ s.io.log.committing = false ∧ s.io.log.lh = [] ∧
    (∀ t, s.phase t = .outside) ∧ s.begun = 0 ∧ s.ended = [] ∧ s.logged = [] ∧ s.commits = []

abbrev TxReachable := Pool.Reachable txStep Transaction TxInit

/-! ## The protocol each process follows -/

/-- A process's view of the log: its phase, and `lh` as long as it is the one committing. -/
inductive TxView where
  | outside
  | inside
  | committing (lh : List ℕ)

def TxState.view (t : ℕ) (s : TxState) : TxView :=
  match s.phase t with
  | .outside => .outside
  | .inside _ => .inside
  | .committing => .committing s.io.log.lh

/-- From which view a request is made, and the views and answers it leads to. -/
def txSpec : OpSpec ioSig TxView
  | .beginOp, K, v => v = .outside ∧ K () .inside
  | .endOp, K, v => v = .inside ∧ K false .outside ∧ ∀ lh, K true (.committing lh)
  | .commitDone, K, v => v = .committing [] ∧ K () .outside
  | .logCheck, K, v => v = .inside ∧ K () .inside
  | .logAppend _, K, v => v = .inside ∧ K () .inside
  | .logGet, K, v => ∃ lh, v = .committing lh ∧ ∀ l : Log, l.lh = lh → K l v
  | .lhSet l, K, v => l = [] ∧ (∃ lh, v = .committing lh) ∧ K () (.committing [])
  | .bread _, K, v => ∀ d, K d v
  | .bset _ _, K, v => K () v
  | .bwrite _, K, v => K () v
  | .brelse _, K, v => K () v
  | .bunpin _, K, v => K () v

theorem writeLogFrom_wp (start tail : ℕ) (l : List ℕ) {Q : Unit → TxView → Prop} {v : TxView}
    (h : Q () v) : (writeLogFrom start tail l).wp txSpec (fun _ _ => True) Q v := by
  induction l generalizing tail with
  | nil => exact h
  | cons b l ih => exact fun _ _ => ih (tail + 1)

theorem installFrom_wp (start tail : ℕ) (l : List ℕ) {Q : Unit → TxView → Prop} {v : TxView}
    (h : Q () v) : (installFrom false start tail l).wp txSpec (fun _ _ => True) Q v := by
  induction l generalizing tail with
  | nil => exact h
  | cons b l ih => exact fun _ _ => ih (tail + 1)

theorem writeHead_wp {Q : Unit → TxView → Prop} {lh : List ℕ} (h : Q () (.committing lh)) :
    writeHead.wp txSpec (fun _ _ => True) Q (.committing lh) :=
  ⟨lh, rfl, fun _ _ _ => h⟩

/-- `commit` leaves `log.lh` empty, whatever it was. -/
theorem commit_wp {Q : Unit → TxView → Prop} {lh : List ℕ} (h : Q () (.committing [])) :
    commit.wp txSpec (fun _ _ => True) Q (.committing lh) := by
  refine ⟨lh, rfl, ?_⟩
  intro l hl
  change (if 0 < l.lh.length then _ else (.ret () : IoM Unit)).wp txSpec (fun _ _ => True) Q _
  by_cases hlen : 0 < l.lh.length
  · rw [if_pos hlen]
    simp only [Prog.bind_eq, Prog.wp_bind]
    refine ⟨lh, rfl, fun _ _ => writeLogFrom_wp _ _ _ (writeHead_wp ⟨lh, rfl, fun _ _ => ?_⟩)⟩
    exact installFrom_wp _ _ _ ⟨rfl, ⟨lh, rfl⟩, writeHead_wp h⟩
  · rw [if_neg hlen]
    have hnil : lh = [] := by
      rw [← hl]
      exact List.eq_nil_of_length_eq_zero (by omega)
    subst hnil
    exact h

theorem body_wp {p : IoM Unit} (hp : Body p) {Q : Unit → TxView → Prop} (h : Q () .inside) :
    p.wp txSpec (fun _ _ => True) Q .inside := by
  induction p with
  | ret a => exact h
  | panic msg => trivial
  | call o next ih =>
    obtain ⟨ho, hnext⟩ := hp
    cases o with
    | bread b => exact fun d => ih d (hnext d)
    | bset b d => exact ih () (hnext ())
    | brelse b => exact ih () (hnext ())
    | logCheck => exact ⟨rfl, ih () (hnext ())⟩
    | logAppend b => exact ⟨rfl, ih () (hnext ())⟩
    | bwrite b => exact ho.elim
    | bunpin b => exact ho.elim
    | beginOp => exact ho.elim
    | endOp => exact ho.elim
    | commitDone => exact ho.elim
    | logGet => exact ho.elim
    | lhSet l => exact ho.elim

/-- Every operation follows the protocol and ends outside. -/
theorem transaction_wp {p : IoM Unit} {v : TxView} (hp : Transaction p) (hv : v = .outside) :
    p.wp txSpec (fun _ _ => True) (fun _ w => w = .outside) v := by
  obtain ⟨body, hbody, rfl⟩ := hp
  subst hv
  refine ⟨rfl, ?_⟩
  change (body.bind fun _ => endOp).wp txSpec (fun _ _ => True) _ _
  rw [Prog.wp_bind]
  refine body_wp hbody ⟨rfl, rfl, fun lh => ?_⟩
  change (commit.bind fun _ => io .commitDone).wp txSpec (fun _ _ => True) _ _
  rw [Prog.wp_bind]
  exact commit_wp ⟨rfl, rfl⟩

end Xv6Arm

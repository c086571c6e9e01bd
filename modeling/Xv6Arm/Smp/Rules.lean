import Xv6Arm.Smp.View

/-!
# Rules for the requests of a kernel thread

For each request, what has to be known before it and what the thread goes on
with. A lock that is taken and given back leaves the view as it was.
-/
namespace Xv6Arm.Smp
open Lib

/-- The program keeps to the specification of thread `t` from view `v` on, and `Q` holds if it returns. -/
abbrev WP (ip : Slot) (strict : Prop) (t : Thread) {α : Type} (m : SmpM α) (Q : α → View → Prop) (v : View) :
    Prop := m.wp (smpSpec ip strict t) Threads.anyPanic Q v

variable {ip : Slot} {strict : Prop} {t : Thread} {α β : Type} {Q : α → View → Prop} {v : View} {p q : Slot}

theorem WP.mono {m : SmpM α} {P : α → View → Prop} (h : WP ip strict t m P v) (hPQ : ∀ a w, P a w → Q a w) :
    WP ip strict t m Q v := Prog.wp_mono (smpSpec_mono ip strict t) h hPQ

theorem WP.bind {m : SmpM β} {f : β → SmpM α} {P : β → View → Prop} (h : WP ip strict t m P v)
    (hf : ∀ b w, P b w → WP ip strict t (f b) Q w) : WP ip strict t (m.bind f) Q v := by
  rw [WP, Prog.wp_bind]
  exact h.mono hf

theorem WP.seq {m : SmpM β} {f : β → SmpM α} (h : WP ip strict t m (fun b w => WP ip strict t (f b) Q w) v) :
    WP ip strict t (m.bind f) Q v := by
  rw [WP, Prog.wp_bind]
  exact h

/-- A loop over a list that keeps `I`, which may depend on the rest of the list. -/
theorem WP.each {body : β → SmpM Unit} {I : List β → View → Prop} {l : List β} (h : I l v)
    (hbody : ∀ x l v, I (x :: l) v → WP ip strict t (body x) (fun _ w => I l w) v) :
    WP ip strict t (Prog.each body l) (fun _ w => I [] w) v := by
  induction l generalizing v with
  | nil => exact h
  | cons x l ih => exact WP.bind (hbody x l v h) fun _ w hw => ih hw

theorem View.setSnap_setSnap (v : View) (p : Slot) (x y : Option Proc) :
    (v.setSnap p x).setSnap p y = v.setSnap p y := by
  simp only [View.setSnap, Function.update_idem]

theorem Thread.home_cases (t : Thread) : t.home = .live ∨ t.home = .idle := by
  cases t with
  | proc p => exact Or.inl rfl
  | scheduler c => exact Or.inr rfl

-- The equations of `Next`, before the rules below ask for them side by side.
section
attribute [local simp] Next
end

/-! ## Single requests -/

/-- A thread that makes a request can rely on `Wf`. -/
theorem wp_wf {o : SmpOp} {f : o.Res → SmpM α} (h : Wf t v → WP ip strict t (.call (S := smpSig) o f) Q v) :
    WP ip strict t (.call (S := smpSig) o f) Q v := fun hwf => h hwf hwf

theorem wp_curproc {f : Slot → SmpM α} (ht : t = .proc p) (hm : v.core.mode = .live)
    (h : WP ip strict t (f p) Q v) : WP ip strict t (curproc.bind f) Q v := by
  subst ht
  refine fun _ => ⟨Or.inl hm, fun c r s' hr => ?_⟩
  obtain rfl : r = some p := hr
  exact h

theorem wp_myproc {f : Option Slot → SmpM α} (hm : v.core.mode = t.home)
    (h : WP ip strict t (f t.slot) Q v) : WP ip strict t (myproc.bind f) Q v := by
  refine fun _ => ⟨t.home_cases.imp hm.trans hm.trans, fun c r s' hr => ?_⟩
  obtain rfl : r = t.slot := hr
  exact h

theorem wp_holding {l : Lock} {f : Bool → SmpM α} (h : WP ip strict t (f (decide (l ∈ v.core.held))) Q v) :
    WP ip strict t ((holding l).bind f) Q v := by
  refine fun _ => ⟨trivial, fun c r s' hr => ?_⟩
  obtain rfl : r = decide (l ∈ v.core.held) := hr
  exact h

theorem wp_getNoff {f : ℕ → SmpM α} (h : WP ip strict t (f v.core.held.card) Q v) :
    WP ip strict t (getNoff.bind f) Q v := by
  refine fun _ => ⟨trivial, fun c r s' hr => ?_⟩
  obtain rfl : r = v.core.held.card := hr
  exact h

theorem wp_intrGet {f : Bool → SmpM α} (h : WP ip strict t (f v.core.irq) Q v) :
    WP ip strict t (intrGet.bind f) Q v := by
  refine fun _ => ⟨trivial, fun c r s' hr => ?_⟩
  obtain rfl : r = v.core.irq := hr
  exact h

theorem wp_getInitproc {f : Slot → SmpM α} (h : WP ip strict t (f ip) Q v) :
    WP ip strict t (getInitproc.bind f) Q v := by
  refine fun _ => ⟨trivial, fun c r s' hr => ?_⟩
  obtain rfl : r = ip := hr
  exact h

theorem wp_getNextpid {f : ℤ → SmpM α} (h : ∀ n, WP ip strict t (f n) Q v) :
    WP ip strict t (getNextpid.bind f) Q v :=
  fun _ => ⟨trivial, fun _ n _ _ => h n⟩

theorem wp_setNextpid {n : ℤ} {f : Unit → SmpM α} (h : WP ip strict t (f ()) Q v) :
    WP ip strict t ((setNextpid n).bind f) Q v :=
  fun _ => ⟨trivial, fun _ _ _ _ => h⟩

theorem wp_getOfile {fd : Fd} {f : ℕ → SmpM α}
    (h : ∀ n, WP ip strict t (f n) Q (if t = .proc p ∧ n = 0 then
      { v with own.closed := Function.update v.own.closed fd True } else v)) :
    WP ip strict t ((getOfile p fd).bind f) Q v :=
  fun _ => ⟨trivial, fun _ n _ _ => h n⟩

theorem wp_get {f : Proc → SmpM α} (h : ∀ r, Sees t v p r → WP ip strict t (f r) Q v) :
    WP ip strict t ((get p).bind f) Q v :=
  fun _ => ⟨trivial, fun _ r _ hr => h r hr⟩

theorem wp_getParent {f : Option Slot → SmpM α}
    (h : ∀ x, SeesParent ip t v p x → WP ip strict t (f x) Q { v with
      tree := { v.tree with
        kids := if x.map Thread.proc = some t then insert p v.tree.kids else v.tree.kids
        par := if t = .proc p then x else v.tree.par } }) :
    WP ip strict t ((getParent p).bind f) Q v :=
  fun _ => ⟨trivial, fun _ x _ hx => h x hx⟩

theorem wp_note {e : Event} {f : Unit → SmpM α} (hp : PreNote strict t v e)
    (h : WP ip strict t (f ()) Q (NextNote v e)) : WP ip strict t ((note e).bind f) Q v :=
  fun _ => ⟨hp, fun _ _ _ _ => h⟩

theorem wp_putOwn {fl : Field} {f : Unit → SmpM α} (ht : t = .proc p) (hs : v.core.state = .running)
    (hp : PreOwn ip p v fl) (h : WP ip strict t (f ()) Q (NextOwn v fl)) :
    WP ip strict t ((put p fl).bind f) Q v := by
  refine fun _ => ⟨?_, fun c r s' _ => ?_⟩
  · change if t = .proc p then _ else _
    rw [if_pos ht]
    exact ⟨hs, hp⟩
  · change WP ip strict t (f ()) Q (if t = .proc p then _ else _)
    rw [if_pos ht]
    exact h

theorem wp_putOther {fl : Field} {f : Unit → SmpM α} {r : Proc} (ht : t ≠ .proc p) (hr : v.snap p = some r)
    (hp : PreOther ip strict t p v r fl) (h : WP ip strict t (f ()) Q (NextOther t p v r fl)) :
    WP ip strict t ((put p fl).bind f) Q v := by
  refine fun _ => ⟨?_, fun c _ s' _ => ?_⟩
  · change if t = .proc p then _ else _
    rw [if_neg ht]
    exact ⟨r, hr, hp⟩
  · have hnext : Next t c v s' (.put p fl) () = NextOther t p v r fl := by
      change (if t = .proc p then _ else _) = _
      rw [if_neg ht, hr]
    rw [hnext]
    exact h

/-- The view after `freeproc` of a process that was as in `r`. -/
def View.free (v : View) (p : Slot) (r : Proc) : View := { v.setSnap p (some r.freed) with
  tree := { v.tree with kids := v.tree.kids.erase p, calm := v.tree.calm.erase p }
  reap := if r.state = .zombie then some (some (r.pid, r.xstate)) else v.reap
  built := if v.built = some p then none else v.built }

theorem wp_freeproc {f : Unit → SmpM α} {r : Proc} (hr : v.snap p = some r)
    (hp : r.state = .zombie ∧ (∃ q, t = .proc q) ∧ p ∈ v.tree.kids ∧ v.reap = some none ∨
      r.state = .unused ∧ r.parent = none)
    (h : WP ip strict t (f ()) Q (v.free p r)) : WP ip strict t ((freeproc p).bind f) Q v := by
  refine fun _ => ⟨⟨r, hr, hp⟩, fun c _ s' _ => ?_⟩
  have hn : Next t c v s' (.freeproc p) () = v.free p r := by
    simp only [Next, hr]
    rfl
  exact hn ▸ h

theorem wp_resetContext {f : Unit → SmpM α} {r : Proc} (ht : t = .proc q) (hb : v.built = none)
    (hr : v.snap p = some r) (hs : r.state = .unused) (hc : r.chan = none)
    (h : WP ip strict t (f ()) Q { v with built := some p }) :
    WP ip strict t ((resetContext p).bind f) Q v :=
  fun _ => ⟨⟨⟨q, ht⟩, hb, r, hr, hs, hc⟩, fun _ _ _ _ => h⟩

/-! ## Locks -/

/-- A lock that is no process's. -/
def Lock.Plain (l : Lock) : Prop := ∀ p, l ≠ .proc p

theorem plain_obj (a : ℕ) : (Lock.obj a).Plain := fun _ => Lock.noConfusion

theorem plain_pid : Lock.pid.Plain := fun _ => Lock.noConfusion

/-- In a trap, giving up the locks does not enable IRQs. -/
def View.Masked (v : View) : Prop :=
  v.own.trapframe ≠ none → v.core.held.Nonempty → v.core.intena = some false

/-- The view after taking a lock that is not another process's. -/
def View.acq (v : View) (l : Lock) : View := { v with
  core := { v.core with
    held := insert l v.core.held
    irq := false
    intena := if v.core.held = ∅ then some v.core.irq else v.core.intena } }

/-- The locks and flags after giving up `l`; `b` is what `pop_off` makes of the IRQ mask. -/
def CoreView.rel (u : CoreView) (l : Lock) (b : Bool) : CoreView := { u with
  held := u.held.erase l
  irq := if u.held = {l} then b else false
  intena := if u.held = {l} then none else u.intena }

/-- What is known of the IRQ mask after giving up `l`. -/
def CoreView.Restores (u : CoreView) (l : Lock) (b : Bool) : Prop :=
  ∀ b', u.intena = some b' → u.held = {l} → b = b'

theorem View.Masked.acq {l : Lock} (h : v.Masked) (hwf : Wf t v) : (v.acq l).Masked := by
  intro hf _
  change (if v.core.held = ∅ then some v.core.irq else v.core.intena) = some false
  split_ifs with he
  · rw [hwf.frame hf]
  · exact h hf (Finset.nonempty_iff_ne_empty.mpr he)

theorem View.Masked.rel {l : Lock} {b : Bool} (h : v.Masked) : View.Masked { v with core := v.core.rel l b } := by
  intro hf hne
  have hnl : v.core.held ≠ {l} := by
    rintro he
    obtain ⟨x, hx⟩ := hne
    obtain ⟨hxl, hx⟩ := Finset.mem_erase.mp hx
    exact hxl (Finset.mem_singleton.mp (he ▸ hx))
  change (if v.core.held = {l} then none else v.core.intena) = some false
  rw [if_neg hnl]
  exact h hf (hne.mono (Finset.erase_subset _ _))

/-- Giving up a lock just taken. -/
theorem Wf.rel_acq {l : Lock} {b : Bool} (hwf : Wf t v) (hl : l ∉ v.core.held)
    (hb : (v.acq l).core.Restores l b) : (v.acq l).core.rel l b = v.core := by
  by_cases he : v.core.held = ∅
  · have hb : b = v.core.irq := hb _ (if_pos he) (by change insert l v.core.held = _; rw [he]; rfl)
    have hi := hwf.intena he
    simp [View.acq, CoreView.rel, he, hb, ← hi]
    rw [← he]
  · have hne : insert l v.core.held ≠ {l} := by
      intro h
      obtain ⟨x, hx⟩ := Finset.nonempty_iff_ne_empty.mpr he
      have := Finset.mem_singleton.mp (h ▸ Finset.mem_insert_of_mem hx)
      exact hl (this ▸ hx)
    have hi := hwf.masked (Finset.nonempty_iff_ne_empty.mpr he)
    simp [View.acq, CoreView.rel, he, hne, hl, ← hi]

theorem wp_acquire_plain {l : Lock} {f : Unit → SmpM α} (hp : l.Plain)
    (h : Wf t v → l ∉ v.core.held → WP ip strict t (f ()) Q (v.acq l)) :
    WP ip strict t ((acquire l).bind f) Q v := by
  refine fun hwf => ⟨trivial, fun c r s' hok => ?_⟩
  have hn : Next t c v s' (.acquire l) r = v.acq l := by
    cases l with
    | proc p => exact absurd rfl (hp p)
    | _ => rfl
  exact hn ▸ h hwf hok.1

theorem wp_acquire_self {f : Unit → SmpM α} (ht : t = .proc p)
    (h : Wf t v → Lock.proc p ∉ v.core.held → WP ip strict t (f ()) Q (v.acq (.proc p))) :
    WP ip strict t ((acquire (.proc p)).bind f) Q v := by
  refine fun hwf => ⟨trivial, fun c r s' hok => ?_⟩
  have hn : Next t c v s' (.acquire (.proc p)) r = v.acq (.proc p) := by
    simp only [Next, View.acq, if_pos ht]
  exact hn ▸ h hwf hok.1

theorem wp_acquire_other {f : Unit → SmpM α} (ht : t ≠ .proc p)
    (h : Wf t v → Lock.proc p ∉ v.core.held → ∀ r, Enters strict t v p r →
      WP ip strict t (f ()) Q ((v.acq (.proc p)).setSnap p (some r))) :
    WP ip strict t ((acquire (.proc p)).bind f) Q v := by
  refine fun hwf => ⟨trivial, fun c _ s' hok => ?_⟩
  have hn : Next t c v s' (.acquire (.proc p)) () = (v.acq (.proc p)).setSnap p (some (s'.proc p)) := by
    simp only [Next, View.acq, View.setSnap, if_neg ht]
  exact hn ▸ h hwf hok.1 _ (hok.2 p rfl ht)

theorem wp_release_plain {l : Lock} {f : Unit → SmpM α} (hp : l.Plain) (hm : ∀ p, v.core.mode ≠ .back p)
    (hw : v.Masked)
    (h : ∀ b, l ∈ v.core.held → v.core.Restores l b → WP ip strict t (f ()) Q { v with core := v.core.rel l b }) :
    WP ip strict t ((release l).bind f) Q v := by
  refine fun _ => ⟨fun hl => ⟨fun hf _ => hw hf ⟨l, hl⟩, fun p h => absurd h (hp p)⟩, fun c _ s' hok => ?_⟩
  have hn : Next t c v s' (.release l) () = { v with core := v.core.rel l (s'.cpu c).irq } := by
    cases l with
    | proc p => exact absurd rfl (hp p)
    | _ =>
      simp only [Next, CoreView.rel]
      cases hmode : v.core.mode with
      | back p => exact absurd hmode (hm p)
      | _ => rfl
  exact hn ▸ h _ hok.1 hok.2

theorem wp_release_self {f : Unit → SmpM α} (ht : t = .proc p) (hm : v.core.mode = .live)
    (hs : v.core.state = .running) (hd : v.nap.due = none) (hc : v.own.chan = none) (hw : v.Masked)
    (h : ∀ b, Lock.proc p ∈ v.core.held → v.core.Restores (.proc p) b →
      WP ip strict t (f ()) Q { v with core := v.core.rel (.proc p) b, tree.calm := ∅ }) :
    WP ip strict t ((release (.proc p)).bind f) Q v := by
  subst ht
  refine fun hwf => ⟨fun hl => ⟨fun hf _ => hw hf ⟨_, hl⟩, fun q hq => ?_⟩, fun c _ s' hok => ?_⟩
  · cases hq
    rw [if_pos rfl]
    exact ⟨hs, hd, hc⟩
  · have hsnap : v.snap p = none := by
      by_contra hne
      exact (hwf.snap p hne).2 rfl
    have hupd : Function.update v.snap p none = v.snap := by rw [← hsnap, Function.update_eq_self]
    have hwake : ∀ l, markDone p (v.awakeAfter p) l = l := by
      intro l
      cases l with
      | nil => rfl
      | cons w l => simp [markDone, View.awakeAfter, hsnap]
    have hn : Next (.proc p) c v s' (.release (.proc p)) () =
        { v with core := v.core.rel (.proc p) (s'.cpu c).irq, tree.calm := ∅ } := by
      simp only [Next, CoreView.rel, hm, hupd, hwake, calmAfter, hsnap, if_true]
    exact hn ▸ h _ hok.1 hok.2

/-- The view after giving up the lock of another process. -/
def View.relOther (t : Thread) (v : View) (p : Slot) (b : Bool) : View := { v with
  core := v.core.rel (.proc p) b
  snap := Function.update v.snap p none
  tree.calm := calmAfter t v p
  nap.wake := markDone p (v.awakeAfter p) v.nap.wake }

theorem wp_release_other {f : Unit → SmpM α} {r : Proc} (ht : t ≠ .proc p)
    (hm : v.core.mode = .live ∨ v.core.mode = .idle) (hb : v.built ≠ some p) (hr : v.snap p = some r)
    (hc : r.state = .unused → Clean strict r) (hw : v.Masked)
    (h : ∀ b, v.core.Restores (.proc p) b → WP ip strict t (f ()) Q (v.relOther t p b)) :
    WP ip strict t ((release (.proc p)).bind f) Q v := by
  refine fun _ => ⟨fun hl => ⟨fun hf _ => hw hf ⟨_, hl⟩, fun q hq => ?_⟩, fun c _ s' hok => ?_⟩
  · cases hq
    rw [if_neg ht]
    exact ⟨hb, Or.inr ⟨hm, r, hr, hc⟩⟩
  · have hn : Next t c v s' (.release (.proc p)) () = v.relOther t p (s'.cpu c).irq := by
      rcases hm with hm | hm <;> simp only [Next, View.relOther, CoreView.rel, hm]
    exact hn ▸ h _ hok.2

/-! ## Visits to other processes -/

theorem Wf.snap_none (hwf : Wf t v) (hl : Lock.proc p ∉ v.core.held) : v.snap p = none := by
  by_contra hne
  exact hl (hwf.snap p hne).1

theorem Wf.built_ne (hwf : Wf t v) (hl : Lock.proc p ∉ v.core.held) : v.built ≠ some p :=
  fun hb => hwf.built p hb (hwf.snap_none hl)

/-- The view after `p`, left as in `r`, has been let go of again. -/
def View.visited (t : Thread) (v : View) (p : Slot) (r : Proc) : View := { v with
  tree.calm :=
    match t with
    | .proc q => if r.state ≠ .zombie ∧ p ∈ v.tree.kids ∧ .proc q ∈ v.core.held then insert p v.tree.calm
      else v.tree.calm
    | .scheduler _ => v.tree.calm
  nap.wake := markDone p (fun ch => !decide (r.SleepsOn ch)) v.nap.wake }

/-- Taking the lock of another process, changing it to `r`, and giving the lock up. -/
theorem Wf.relOther_acq {r : Proc} {b : Bool} (hwf : Wf t v) (ht : t ≠ .proc p) (hl : Lock.proc p ∉ v.core.held)
    (hb : (v.acq (.proc p)).core.Restores (.proc p) b) :
    ((v.acq (.proc p)).setSnap p (some r)).relOther t p b = v.visited t p r := by
  have hcore := hwf.rel_acq hl hb
  have hsnap : Function.update v.snap p none = v.snap := by rw [← hwf.snap_none hl, Function.update_eq_self]
  have hcalm : calmAfter t ((v.acq (.proc p)).setSnap p (some r)) p = (v.visited t p r).tree.calm := by
    cases t with
    | scheduler c => rfl
    | proc q =>
      have hq : q ≠ p := fun h => ht (h ▸ rfl)
      simp [calmAfter, View.visited, View.setSnap, View.acq, hq]
  have hwake : ((v.acq (.proc p)).setSnap p (some r)).awakeAfter p = fun ch => !decide (r.SleepsOn ch) := by
    funext ch
    simp [View.awakeAfter, View.setSnap]
  simp only [View.relOther, hcalm, hwake]
  simp only [View.visited, View.setSnap, Function.update_idem, hcore]
  simp only [View.acq, hsnap]

/-- Giving up the own lock, just taken. -/
theorem wp_release_own {f : Unit → SmpM α} (ht : t = .proc p) (hm : v.core.mode = .live) (hwf : Wf t v)
    (hl : Lock.proc p ∉ v.core.held) (hw : v.Masked) (h : WP ip strict t (f ()) Q v) :
    WP ip strict t ((release (.proc p)).bind f) Q (v.acq (.proc p)) := by
  obtain ⟨hs, hcalm, hdue, hc⟩ := hwf.self p ht hl
  refine wp_release_self ht hm hs hdue hc (hw.acq hwf) fun b _ hb => ?_
  rw [hwf.rel_acq hl hb]
  change WP ip strict t (f ()) Q { v with tree := { v.tree with calm := ∅ } }
  rw [← hcalm]
  exact h

/-- Giving up the lock of another process, just taken. -/
theorem wp_release_visited {f : Unit → SmpM α} {r : Proc} (ht : t ≠ .proc p) (hm : v.core.mode = t.home)
    (hwf : Wf t v) (hl : Lock.proc p ∉ v.core.held) (hw : v.Masked) (hc : r.state = .unused → Clean strict r)
    (h : WP ip strict t (f ()) Q (v.visited t p r)) :
    WP ip strict t ((release (.proc p)).bind f) Q ((v.acq (.proc p)).setSnap p (some r)) := by
  refine wp_release_other ht ?_ (hwf.built_ne hl) (Function.update_self ..) hc (hw.acq hwf) fun b hb => ?_
  · exact t.home_cases.imp hm.trans hm.trans
  · rw [hwf.relOther_acq ht hl hb]
    exact h

end Xv6Arm.Smp

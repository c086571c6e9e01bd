import Xv6Arm.Smp.InvSlots

/-!
# Exits and reports

Every exit is with the zombie it comes from, then with the call of `wait` that
frees the zombie, and then in the report of that call. So no exit is reported
twice, and each report has the pid and the status of its exit.
-/
namespace Xv6Arm.Smp
open Lib

variable {ip : Slot} {strict : Prop} {vs vs' : Thread → View} {s s' : Sys} {c : ℕ} {o : SmpOp} {r : o.Res} {v : View}
  {p : Slot}

/-- An exit may move from one holder to another. -/
theorem ReapInv.move (h : ReapInv vs s) (σ : Slot ⊕ Slot → Slot ⊕ Slot) (hexits : s'.hist.exits = s.hist.exits)
    (hreports : s'.hist.reports = s.hist.reports)
    (hexit : ∀ p, (s'.proc p).state = .zombie → (s.proc p).state = .zombie ∧ s'.hist.zombie p = s.hist.zombie p ∧
      (s'.proc p).pid = (s.proc p).pid ∧ (s'.proc p).xstate = (s.proc p).xstate)
    (hσ : ∀ x n, Holds s' x n → Holds s (σ x) n)
    (hinj : ∀ x y n, Holds s' x n → Holds s' y n → σ x = σ y → x = y)
    (hview : ∀ p, s'.hist.thread p = true → ReapOk s.hist.exits (s'.hist.waiting p) (vs' (.proc p)).reap) :
    ReapInv vs' s' := by
  refine ⟨fun p hp => ?_, fun x n hx => ?_, fun x y n hx hy => ?_, fun x n hx => ?_, ?_, fun rep hrep => ?_, fun p hp => ?_⟩
  · obtain ⟨hz, h1, h2, h3⟩ := hexit p hp
    rw [hexits, h1, h2, h3]
    exact h.exit p hz
  · rw [hexits]
    exact h.bound _ n (hσ x n hx)
  · exact hinj x y n hx hy (h.unique _ _ n (hσ x n hx) (hσ y n hy))
  · rw [hreports]
    exact h.fresh _ n (hσ x n hx)
  · rw [hreports]
    exact h.nodup
  · rw [hexits]
    exact h.report rep (hreports ▸ hrep)
  · rw [hexits]
    exact hview p hp

theorem ReapInv.keep (h : ReapInv vs s) (hexits : s'.hist.exits = s.hist.exits)
    (hreports : s'.hist.reports = s.hist.reports)
    (hexit : ∀ p, (s'.proc p).state = .zombie → (s.proc p).state = .zombie ∧ s'.hist.zombie p = s.hist.zombie p ∧
      (s'.proc p).pid = (s.proc p).pid ∧ (s'.proc p).xstate = (s.proc p).xstate)
    (hwait : ∀ q n, s'.hist.waiting q = some (some n) → s.hist.waiting q = some (some n))
    (hview : ∀ p, s'.hist.thread p = true → ReapOk s.hist.exits (s'.hist.waiting p) (vs' (.proc p)).reap) :
    ReapInv vs' s' := by
  refine h.move id hexits hreports hexit (fun x n hx => ?_) (fun _ _ _ _ _ hxy => hxy) hview
  cases hx with
  | zombie hz =>
    rw [(hexit _ hz).2.1]
    exact .zombie (hexit _ hz).1
  | wait hw => exact .wait (hwait _ _ hw)

theorem update_reap {u : Thread} {w : View} (hw : w.reap = (vs u).reap) (t : Thread) :
    (Function.update vs u w t).reap = (vs t).reap := by
  by_cases ht : t = u
  · rw [ht, Function.update_self, hw]
  · rw [Function.update_of_ne ht]

/-! ## Requests that leave the table alone -/

theorem ReapOk.none_of {l : List (ℤ × ℤ)} {w : Option (Option ℕ)} (h : ReapOk l w (some none)) : w = some none := by
  rcases w with - | - | n
  · exact h.elim
  · rfl
  · exact h.elim

theorem ReapInv.waitCall (h : Inv ip strict vs s) (hc : s.exec c = .proc p) :
    ReapInv (Function.update vs (s.exec c) (NextNote (vs (s.exec c)) .waitCall)) (s.note c .waitCall) := by
  have hs' : s.note c .waitCall =
      { s with hist := { s.hist with waiting := Function.update s.hist.waiting p (some none) } } := by
    unfold Sys.note
    rw [show (s.cpu c).exec = .proc p from hc]
  rw [hs', hc]
  refine h.reap.keep rfl rfl (fun i hi => ⟨hi, rfl, rfl, rfl⟩) (fun q n hq => ?_) fun i hi => ?_
  · change Function.update s.hist.waiting p (some none) q = _ at hq
    by_cases hqp : q = p
    · rw [hqp, Function.update_self] at hq
      cases hq
    · rwa [Function.update_of_ne hqp] at hq
  · change ReapOk _ (Function.update s.hist.waiting p (some none) i) _
    by_cases hip : i = p
    · rw [hip, Function.update_self, Function.update_self]
      trivial
    · rw [Function.update_of_ne hip, Function.update_of_ne fun hf => hip (Thread.proc.inj hf)]
      exact h.reap.view i hi

/-- What a call of `wait` reports. -/
theorem reportOk_of_reap {l : List (ℤ × ℤ)} {w : Option (Option ℕ)} {addr : ℕ} {pid : ℤ} {status : Option ℤ} {t : Thread}
    (h : ReapOk l w v.reap) (hpre : PreNote strict t v (.waitRet addr pid status)) :
    ReportOk l ⟨w.getD none, addr, pid, status⟩ := by
  simp only [PreNote] at hpre
  rcases hv : v.reap with - | - | ⟨n, x⟩
  · rw [hv] at hpre
    exact hpre.elim
  · rw [hv] at h hpre
    rw [h.none_of]
    exact hpre
  · rw [hv] at h hpre
    rcases w with - | - | m
    · exact h.elim
    · exact h.elim
    · exact ⟨(n, x), h, hpre.1, hpre.2⟩

theorem ReapInv.waitRet (h : Inv ip strict vs s) {addr : ℕ} {pid : ℤ} {status : Option ℤ} (hc : s.exec c = .proc p)
    (hpre : PreNote strict (s.exec c) (vs (s.exec c)) (.waitRet addr pid status)) :
    ReapInv (Function.update vs (s.exec c) (NextNote (vs (s.exec c)) (.waitRet addr pid status)))
      (s.note c (.waitRet addr pid status)) := by
  have hs' : s.note c (.waitRet addr pid status) = { s with hist := s.hist.waitRet p addr pid status } := by
    unfold Sys.note
    rw [show (s.cpu c).exec = .proc p from hc]
  rw [hs', hc]
  rw [hc] at hpre
  have hrep := reportOk_of_reap (h.reap.view p (h.exec.thread_of_exec hc)) hpre
  have hold : ∀ x n, Holds { s with hist := s.hist.waitRet p addr pid status } x n → Holds s x n ∧ x ≠ .inr p := by
    intro x n hx
    cases hx with
    | zombie hz => exact ⟨.zombie hz, Sum.inl_ne_inr⟩
    | @wait q _ hw =>
      change Function.update s.hist.waiting p none q = _ at hw
      by_cases hqp : q = p
      · rw [hqp, Function.update_self] at hw
        cases hw
      · rw [Function.update_of_ne hqp] at hw
        exact ⟨.wait hw, fun hf => hqp (Sum.inr.inj hf)⟩
  have hlist : (s.hist.waitRet p addr pid status).reports.filterMap Report.exit =
      ((s.hist.waiting p).getD none).toList ++ s.hist.reports.filterMap Report.exit := by
    change List.filterMap Report.exit (⟨(s.hist.waiting p).getD none, addr, pid, status⟩ :: s.hist.reports) = _
    cases (s.hist.waiting p).getD none <;> rfl
  have hmine : ∀ n ∈ ((s.hist.waiting p).getD none).toList, Holds s (.inr p) n := by
    intro n hn
    rw [Option.mem_toList] at hn
    cases hw : s.hist.waiting p with
    | none =>
      rw [hw] at hn
      cases hn
    | some m =>
      rw [hw, Option.getD_some] at hn
      exact .wait (hw.trans (congrArg some hn))
  refine ⟨h.reap.exit, fun x n hx => h.reap.bound x n (hold x n hx).1,
    fun x y n hx hy => h.reap.unique x y n (hold x n hx).1 (hold y n hy).1, fun x n hx => ?_, ?_, fun rep hmem => ?_,
    fun i hi => ?_⟩
  · obtain ⟨hx, hne⟩ := hold x n hx
    rw [hlist, List.mem_append, not_or]
    exact ⟨fun hm => hne (h.reap.unique x _ n hx (hmine n hm)), h.reap.fresh x n hx⟩
  · rw [hlist, List.nodup_append]
    refine ⟨?_, h.reap.nodup, ?_⟩
    · cases (s.hist.waiting p).getD none with
      | none => exact List.nodup_nil
      | some n => exact List.nodup_singleton n
    · rintro n hn m hm rfl
      exact h.reap.fresh _ n (hmine n hn) hm
  · rcases List.mem_cons.mp hmem with rfl | hmem
    · exact hrep
    · exact h.reap.report rep hmem
  · change ReapOk _ (Function.update s.hist.waiting p none i) _
    by_cases hip : i = p
    · rw [hip, Function.update_self, Function.update_self]
      trivial
    · rw [Function.update_of_ne hip, Function.update_of_ne fun hf => hip (Thread.proc.inj hf)]
      exact h.reap.view i hi

/-- A request that no exit and no report has to do with. -/
theorem ReapInv.same (h : Inv ip strict vs s) (hproc : s'.proc = s.proc) (hthread : s'.hist.thread = s.hist.thread)
    (hhist : s'.hist.exits = s.hist.exits ∧ s'.hist.zombie = s.hist.zombie ∧ s'.hist.waiting = s.hist.waiting ∧
      s'.hist.reports = s.hist.reports)
    (hview : ∀ p, (vs' (.proc p)).reap = (vs (.proc p)).reap) : ReapInv vs' s' := by
  obtain ⟨h1, h2, h3, h4⟩ := hhist
  refine h.reap.keep h1 h4 (fun i hi => ?_) (fun q n hq => h3 ▸ hq) fun i hi => ?_
  · rw [hproc] at hi ⊢
    exact ⟨hi, by rw [h2], rfl, rfl⟩
  · rw [h3, hview]
    exact h.reap.view i (hthread ▸ hi)

theorem ReapInv.note (h : Inv ip strict vs s) {e : Event} (hpre : PreNote strict (s.exec c) (vs (s.exec c)) e) :
    ReapInv (Function.update vs (s.exec c) (NextNote (vs (s.exec c)) e)) (s.note c e) := by
  obtain ⟨-, -, -, hproc, hthread⟩ := note_frame (c := c) s e
  -- A scheduler leaves no trace here, whatever it does.
  cases hc : s.exec c with
  | scheduler d =>
    refine ReapInv.same h hproc hthread ?_ fun p => by rw [Function.update_of_ne Thread.noConfusion]
    unfold Sys.note
    rw [show (s.cpu c).exec = .scheduler d from hc]
    cases e with
    | wakeupRet =>
      dsimp only
      unfold History.wakeupRet
      split <;> exact ⟨rfl, rfl, rfl, rfl⟩
    | _ => exact ⟨rfl, rfl, rfl, rfl⟩
  | proc p =>
    rw [← hc]
    cases e with
    | waitCall => exact ReapInv.waitCall h hc
    | waitRet addr pid status => exact ReapInv.waitRet h hc hpre
    | wakeupRet =>
      refine ReapInv.same h hproc hthread ?_ fun i => update_reap (by rfl) _
      unfold Sys.note
      rw [show (s.cpu c).exec = .proc p from hc]
      dsimp only
      unfold History.wakeupRet
      split <;> exact ⟨rfl, rfl, rfl, rfl⟩
    | _ =>
      refine ReapInv.same h hproc hthread ?_ fun i => update_reap (by rfl) _
      unfold Sys.note
      rw [show (s.cpu c).exec = .proc p from hc]
      exact ⟨rfl, rfl, rfl, rfl⟩

theorem ReapInv.plain (h : Inv ip strict vs s) (ho : ¬o.Writes) (hs : ¬o.Spawns)
    (hpre : Pre ip strict (s.exec c) (vs (s.exec c)) o) (hstep : smpStep c o s = .done r s') :
    ReapInv (Function.update vs (s.exec c) (Next (s.exec c) c (vs (s.exec c)) s' o r)) s' := by
  have hproc := step_proc ho hstep
  have hthread := step_thread hs hstep
  cases o with
  | put | freeproc => exact absurd trivial ho
  | resetContext => exact absurd trivial hs
  | note e =>
    cases hstep
    exact ReapInv.note h hpre
  | acquire l =>
    refine ReapInv.same h hproc hthread ?_ fun i => update_reap (by rfl) _
    rw [(acquire_done hstep).2]
    exact ⟨rfl, rfl, rfl, rfl⟩
  | release l =>
    refine ReapInv.same h hproc hthread ?_ fun i => update_reap (by rfl) _
    rw [(release_done hstep).2.2]
    exact ⟨rfl, rfl, rfl, rfl⟩
  | myproc =>
    refine ReapInv.same h hproc hthread ?_ fun i => update_reap (by rfl) _
    rw [(myproc_done hstep).2]
    exact ⟨rfl, rfl, rfl, rfl⟩
  | getOfile q fd =>
    cases hstep
    refine ReapInv.same h rfl rfl ⟨rfl, rfl, rfl, rfl⟩ fun i => update_reap ?_ _
    simp only [Next]
    split_ifs <;> rfl
  | hang => cases hstep
  | _ =>
    cases hstep
    exact ReapInv.same h rfl rfl ⟨rfl, rfl, rfl, rfl⟩ fun i => update_reap (by rfl) _

/-! ## Assignments -/

theorem put_reap (s : Sys) (p : Slot) {f : Field} (hf : f ≠ .state .zombie) : (s.put p f).hist = s.hist := by
  unfold Sys.put
  split
  · exact absurd rfl hf
  · rfl

theorem nextOther_reap (t : Thread) (v : View) (x : Proc) (f : Field) : (NextOther t p v x f).reap = v.reap := by
  cases f with
  | state st => cases st <;> rfl
  | _ => rfl

/-- An assignment to a process that is not a zombie and does not become one. -/
theorem ReapInv.put (h : Inv ip strict vs s) {f : Field} (hf : f ≠ .state .zombie)
    (hz : (f.apply (s.proc p)).state = .zombie → (s.proc p).state = .zombie ∧ (f.apply (s.proc p)).pid = (s.proc p).pid ∧
      (f.apply (s.proc p)).xstate = (s.proc p).xstate)
    (hview : ∀ i, (vs' (.proc i)).reap = (vs (.proc i)).reap) : ReapInv vs' (s.put p f) := by
  have hhist := put_reap s p hf
  refine h.reap.keep (by rw [hhist]) (by rw [hhist]) (fun i hi => ?_) (fun q n hq => by rwa [hhist] at hq) fun i hi => ?_
  · rw [put_proc] at hi ⊢
    by_cases hip : i = p
    · subst hip
      rw [Function.update_self] at hi ⊢
      exact ⟨(hz hi).1, by rw [hhist], (hz hi).2.1, (hz hi).2.2⟩
    · rw [Function.update_of_ne hip] at hi ⊢
      exact ⟨hi, by rw [hhist], rfl, rfl⟩
  · rw [hhist, hview]
    exact h.reap.view i (hhist ▸ hi)

/-- The process becomes a zombie. -/
theorem ReapInv.put_zombie (h : Inv ip strict vs s) (hc : s.exec c = .proc p) (hrun : (s.proc p).state = .running)
    (hpre : PreOwn ip p (vs (s.exec c)) (.state .zombie)) (hview : ∀ i, (vs' (.proc i)).reap = (vs (.proc i)).reap) :
    ReapInv vs' (s.put p (.state .zombie)) := by
  have hown := h.table.own p (h.exec.thread_of_exec hc)
  obtain ⟨-, -, -, -, -, -, ⟨x, hexit, hxstate⟩, -⟩ := hpre
  rw [hc] at hexit hxstate
  have hval : (s.proc p).xstate = s.hist.exiting p := (hown.xstate x hxstate).trans (hown.exit x hexit).symm
  let l := s.hist.exits ++ [((s.proc p).pid, s.hist.exiting p)]
  have hget : ∀ {n y}, s.hist.exits[n]? = some y → l[n]? = some y := fun {n y} hn => by
    rw [List.getElem?_append_left (List.getElem?_eq_some_iff.mp hn).1]
    exact hn
  have hother : ∀ i, i ≠ p → (s.put p (.state .zombie)).proc i = s.proc i := fun i hi => by
    rw [put_proc, Function.update_of_ne hi]
  have hself : (s.put p (.state .zombie)).proc p = { s.proc p with state := .zombie } := by
    rw [put_proc, Function.update_self]; rfl
  have hold : ∀ y n, Holds (s.put p (.state .zombie)) y n → y = .inl p ∧ n = s.hist.exits.length ∨ Holds s y n := by
    intro y n hy
    cases hy with
    | @zombie i hz =>
      by_cases hip : i = p
      · subst hip
        exact Or.inl ⟨rfl, Function.update_self ..⟩
      · have : (s.put p (.state .zombie)).hist.zombie i = s.hist.zombie i := Function.update_of_ne hip ..
        rw [this]
        exact Or.inr (.zombie (hother i hip ▸ hz))
    | wait hw => exact Or.inr (.wait hw)
  refine ⟨fun i hi => ?_, fun y n hy => ?_, fun y z n hy hz => ?_, fun y n hy => ?_, h.reap.nodup, fun rep hrep => ?_,
    fun i hi => ?_⟩
  · change l[Function.update s.hist.zombie p s.hist.exits.length i]? = _
    by_cases hip : i = p
    · rw [hip, hself, Function.update_self]
      change l[s.hist.exits.length]? = some ((s.proc p).pid, (s.proc p).xstate)
      rw [List.getElem?_concat_length, hval]
    · rw [hother i hip] at hi ⊢
      rw [Function.update_of_ne hip]
      exact hget (h.reap.exit i hi)
  · change n < (s.hist.exits ++ [_]).length
    rw [List.length_append, List.length_singleton]
    rcases hold y n hy with ⟨-, rfl⟩ | hy
    · exact Nat.lt_succ_self _
    · exact Nat.lt_succ_of_lt (h.reap.bound y n hy)
  · rcases hold y n hy with ⟨rfl, hn⟩ | hy <;> rcases hold z n hz with ⟨rfl, hm⟩ | hz
    · rfl
    · exact absurd (h.reap.bound z n hz) (hn ▸ lt_irrefl _)
    · exact absurd (h.reap.bound y n hy) (hm ▸ lt_irrefl _)
    · exact h.reap.unique y z n hy hz
  · rcases hold y n hy with ⟨-, rfl⟩ | hy
    · intro hm
      obtain ⟨rep, hrep, hn⟩ := List.mem_filterMap.mp hm
      have hok := h.reap.report rep hrep
      rw [ReportOk, hn] at hok
      obtain ⟨w, hw, -⟩ := hok
      exact lt_irrefl _ (List.getElem?_eq_some_iff.mp hw).1
    · exact h.reap.fresh y n hy
  · have hok := h.reap.report rep hrep
    rw [ReportOk] at hok ⊢
    cases hn : rep.exit with
    | none =>
      rw [hn] at hok
      exact hok
    | some n =>
      rw [hn] at hok
      obtain ⟨w, hw, hr⟩ := hok
      exact ⟨w, hget hw, hr⟩
  · have hok := h.reap.view i hi
    rw [hview]
    change ReapOk l (s.hist.waiting i) _
    rcases hw : s.hist.waiting i with - | - | n <;> rcases hv : (vs (.proc i)).reap with - | - | w <;> rw [hw, hv] at hok
    all_goals first | exact hok.elim | trivial | exact hget hok

theorem ReapInv.put_own (h : Inv ip strict vs s) {f : Field} (hc : s.exec c = .proc p)
    (hrun : (s.proc p).state = .running) (hpre : PreOwn ip p (vs (s.exec c)) f) :
    ReapInv (Function.update vs (s.exec c) (NextOwn (vs (s.exec c)) f)) (s.put p f) := by
  have hview : ∀ i, (Function.update vs (s.exec c) (NextOwn (vs (s.exec c)) f) (.proc i)).reap = (vs (.proc i)).reap :=
    fun i => update_reap (nextOwn_rest ..).2.2.2.2.2 _
  by_cases hf : f = .state .zombie
  · subst hf
    exact ReapInv.put_zombie h hc hrun hpre hview
  · refine ReapInv.put h hf (fun hz => ?_) hview
    rcases apply_state f (s.proc p) with he | ⟨st, rfl, he⟩
    · rw [he, hrun] at hz
      cases hz
    · rw [he] at hz
      exact absurd (congrArg Field.state hz) hf

theorem ReapInv.put_other (h : Inv ip strict vs s) {f : Field} {x : Proc} (hx : (vs (s.exec c)).snap p = some x)
    (hpre : PreOther ip strict (s.exec c) p (vs (s.exec c)) x f) :
    ReapInv (Function.update vs (s.exec c) (NextOther (s.exec c) p (vs (s.exec c)) x f)) (s.put p f) := by
  obtain ⟨-, -, hag⟩ := h.snap_exec hx
  have hf : f ≠ .state .zombie := by
    rintro rfl
    exact hpre
  refine ReapInv.put h hf (fun hz => ?_) fun i => update_reap (nextOther_reap ..) _
  rcases hpre.state_cases hag.state with he | ⟨rfl, -⟩ | ⟨rfl, -⟩ | ⟨rfl, -⟩
  · rw [he] at hz
    refine ⟨hz, ?_⟩
    cases f with
    | pid n =>
      have := hag.state.symm.trans hz
      rw [hpre.1] at this
      cases this
    | xstate => exact hpre.elim
    | _ => exact ⟨rfl, rfl⟩
  all_goals cases hz

/-! ## `freeproc` and new threads -/

/-- A zombie is freed by its parent, in `wait`. -/
theorem ReapInv.freeproc_zombie (h : Inv ip strict vs s) {q : Slot} {x : Proc} (hq : s.exec c = .proc q)
    (hx : (vs (s.exec c)).snap p = some x) (hz : x.state = .zombie) (hreap : (vs (s.exec c)).reap = some none) :
    ReapInv
      (Function.update vs (s.exec c) (Next (s.exec c) c (vs (s.exec c)) (s.freeproc c p) (.freeproc p) ()))
      (s.freeproc c p) := by
  obtain ⟨-, hne, hag⟩ := h.snap_exec hx
  have hzp : (s.proc p).state = .zombie := hag.state.trans hz
  have hs' : s.freeproc c p = { s.setProc p (s.proc p).freed with hist := s.hist.reaped q p } := by
    unfold Sys.freeproc
    rw [show (s.cpu c).exec = .proc q from hq, hzp]
  have hqp : q ≠ p := fun hf => hne (hf ▸ hq)
  have hwait : s.hist.waiting q = some none := by
    have hok := h.reap.view q (h.exec.thread_of_exec hq)
    rw [← hq, hreap] at hok
    exact hok.none_of
  rw [next_free hx, hs', hq]
  have hzombie : ∀ i, (Function.update s.proc p (s.proc p).freed i).state = .zombie → i ≠ p ∧ (s.proc i).state = .zombie := by
    intro i hi
    by_cases hip : i = p
    · rw [hip, Function.update_self] at hi
      cases hi
    · rw [Function.update_of_ne hip] at hi
      exact ⟨hip, hi⟩
  have hσ : ∀ y n, Holds { s.setProc p (s.proc p).freed with hist := s.hist.reaped q p } y n →
      y = .inr q ∧ Holds s (.inl p) n ∨ y ≠ .inr q ∧ y ≠ .inl p ∧ Holds s y n := by
    intro y n hy
    cases hy with
    | @zombie i hi =>
      exact Or.inr ⟨Sum.inl_ne_inr, fun hf => (hzombie i hi).1 (Sum.inl.inj hf), .zombie (hzombie i hi).2⟩
    | @wait j n hw =>
      change Function.update s.hist.waiting q (some (some (s.hist.zombie p))) j = _ at hw
      by_cases hjq : j = q
      · subst hjq
        rw [Function.update_self] at hw
        cases hw
        exact Or.inl ⟨rfl, .zombie hzp⟩
      · rw [Function.update_of_ne hjq] at hw
        exact Or.inr ⟨fun hf => hjq (Sum.inr.inj hf), Sum.inr_ne_inl, .wait hw⟩
  refine h.reap.move (fun y => if y = .inr q then .inl p else y) rfl rfl (fun i hi => ?_) (fun y n hy => ?_)
    (fun y z n hy hz' hyz => ?_) fun i hi => ?_
  · have hip := (hzombie i hi).1
    refine ⟨(hzombie i hi).2, rfl, ?_, ?_⟩
    · exact congrArg Proc.pid (Function.update_of_ne hip ..)
    · exact congrArg Proc.xstate (Function.update_of_ne hip ..)
  · rcases hσ y n hy with ⟨rfl, hh⟩ | ⟨hne, -, hh⟩
    · rwa [if_pos rfl]
    · rwa [if_neg hne]
  · rcases hσ y n hy with ⟨rfl, -⟩ | ⟨h1, h2, -⟩ <;> rcases hσ z n hz' with ⟨rfl, -⟩ | ⟨h3, h4, -⟩
    · rfl
    · rw [if_pos rfl, if_neg h3] at hyz
      exact absurd hyz.symm h4
    · rw [if_neg h1, if_pos rfl] at hyz
      exact absurd hyz h2
    · rwa [if_neg h1, if_neg h3] at hyz
  · change Function.update s.hist.thread p false i = true at hi
    have hip : i ≠ p := by
      rintro rfl
      rw [Function.update_self] at hi
      cases hi
    rw [Function.update_of_ne hip] at hi
    change ReapOk _ (Function.update s.hist.waiting q (some (some (s.hist.zombie p))) i) _
    by_cases hiq : i = q
    · rw [hiq, Function.update_self, Function.update_self]
      simp only [hz, if_true]
      rw [ReapOk, h.reap.exit p hzp, hag.pid, hag.xstate]
    · rw [Function.update_of_ne hiq, Function.update_of_ne fun hf => hiq (Thread.proc.inj hf)]
      exact h.reap.view i hi

theorem ReapInv.freeproc (h : Inv ip strict vs s) (hpre : Pre ip strict (s.exec c) (vs (s.exec c)) (.freeproc p)) :
    ReapInv
      (Function.update vs (s.exec c) (Next (s.exec c) c (vs (s.exec c)) (s.freeproc c p) (.freeproc p) ()))
      (s.freeproc c p) := by
  obtain ⟨x, hx, ⟨hz, ⟨q, hq⟩, -, hreap⟩ | ⟨hu, -⟩⟩ := hpre
  · exact ReapInv.freeproc_zombie h hq hx hz hreap
  · obtain ⟨-, -, hag⟩ := h.snap_exec hx
    have hs' : s.freeproc c p = { s.setProc p (s.proc p).freed with hist := s.hist.freed p } := by
      unfold Sys.freeproc
      rw [hag.state.trans hu]
      cases (s.cpu c).exec <;> rfl
    have hreap : (Next (s.exec c) c (vs (s.exec c)) (s.freeproc c p) (.freeproc p) ()).reap = (vs (s.exec c)).reap := by
      rw [next_free hx]
      exact if_neg (by rw [hu]; exact ProcState.noConfusion)
    generalize Next (s.exec c) c (vs (s.exec c)) (s.freeproc c p) (.freeproc p) () = w at hreap ⊢
    rw [hs']
    refine h.reap.keep rfl rfl (fun i hi => ?_) (fun _ _ hw => hw) fun i hi => ?_
    · change (Function.update s.proc p (s.proc p).freed i).state = .zombie at hi
      have hip : i ≠ p := by
        rintro rfl
        rw [Function.update_self] at hi
        cases hi
      change _ ∧ _ ∧ (Function.update s.proc p (s.proc p).freed i).pid = _ ∧
        (Function.update s.proc p (s.proc p).freed i).xstate = _
      rw [Function.update_of_ne hip] at hi ⊢
      exact ⟨hi, rfl, rfl, rfl⟩
    · rw [update_reap hreap]
      refine h.reap.view i ?_
      change Function.update s.hist.thread p false i = true at hi
      by_cases hip : i = p
      · rw [hip, Function.update_self] at hi
        cases hi
      · rwa [Function.update_of_ne hip] at hi

theorem ReapInv.resetContext (h : Inv ip strict vs s)
    (hpre : Pre ip strict (s.exec c) (vs (s.exec c)) (.resetContext p)) :
    ReapInv (spawned vs (s.exec c) p (s.proc p).pid) { s with hist := s.hist.reset p } := by
  obtain ⟨-, -, x, hx, -⟩ := hpre
  obtain ⟨-, hne, -⟩ := h.snap_exec hx
  refine h.reap.keep rfl rfl (fun i hi => ⟨hi, rfl, rfl, rfl⟩) (fun q n hq => ?_) fun i hi => ?_
  · change Function.update s.hist.waiting p none q = _ at hq
    by_cases hqp : q = p
    · rw [hqp, Function.update_self] at hq
      cases hq
    · rwa [Function.update_of_ne hqp] at hq
  · change ReapOk _ (Function.update s.hist.waiting p none i) _
    by_cases hip : i = p
    · rw [hip, Function.update_self, spawned_self]
      trivial
    · have hip' : Thread.proc i ≠ .proc p := fun hf => hip (Thread.proc.inj hf)
      have hok := h.reap.view i (Has.of_reset (t := .proc i) hi hip')
      rw [Function.update_of_ne hip]
      by_cases hic : Thread.proc i = s.exec c
      · rw [hic, spawned_exec _ hne, ← hic]
        exact hok
      · rw [spawned_of_ne _ hip' hic]
        exact hok

end Xv6Arm.Smp

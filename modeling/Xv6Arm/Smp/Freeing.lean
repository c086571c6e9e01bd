import Xv6Arm.Smp.InvStep

/-!
# Freeing a slot, one assignment after the other

The invariant is about `smpStep`, where `freeproc` clears a slot at once. On the
processors the assignments of `freeproc` come one by one. All that time the thread
that makes them holds `p->lock` and nobody executes the process. Its slot is then
behind the table that the invariant is about, by the assignments that are left.
-/
namespace Xv6Arm.Smp
open Lib

variable {ip : Slot} {strict : Prop} {c d : ℕ} {p i : Slot} {t : Thread} {o : SmpOp}

/-! ## The specification of the requests -/

structure StoreView where
  view : View
  /-- The slot that the thread is freeing, with the assignments that are left. -/
  left : Option (Slot × List Field)

/-- What a call leaves to be assigned. -/
def SmpOp.leaves : SmpOp → Option (Slot × List Field)
  | .freeproc p => some (p, freeStores)
  | _ => none

/-- While a thread is freeing a slot it makes the next assignment. -/
def storeSpec (ip : Slot) (strict : Prop) (t : Thread) : OpSpec smpSig StoreView := fun o K w =>
  match w.left with
  | none => smpSpec ip strict t o (fun r v => K r ⟨v, o.leaves⟩) w.view
  | some (p, fs) => ∃ f l, fs = f :: l ∧ o = .put p f ∧ ∀ r, K r ⟨w.view, if l = [] then none else some (p, l)⟩

theorem storeSpec_mono (ip : Slot) (strict : Prop) (t : Thread) : (storeSpec ip strict t).Mono := by
  intro o K L w h hK
  unfold storeSpec at hK ⊢
  split at hK
  · exact smpSpec_mono ip strict t o _ _ _ (fun r v => h r _) hK
  · obtain ⟨f, l, hfs, ho, hK⟩ := hK
    exact ⟨f, l, hfs, ho, fun r => h r _ (hK r)⟩

/-- Nothing is going on in the thread. -/
def StoreResting (t : Thread) (w : StoreView) : Prop := w.left = none ∧ Resting t w.view

theorem wp_stores {v : View} {k : SmpM Unit} {Q : Unit → StoreView → Prop}
    (h : k.wp (storeSpec ip strict t) Threads.anyPanic Q ⟨v, none⟩) {fs : List Field} (hfs : fs ≠ []) :
    ((Prog.each (put p) fs).bind fun _ => k).wp (storeSpec ip strict t) Threads.anyPanic Q ⟨v, some (p, fs)⟩ := by
  induction fs with
  | nil => exact absurd rfl hfs
  | cons f l ih =>
    refine ⟨f, l, rfl, rfl, fun _ => ?_⟩
    by_cases hl : l = []
    · subst hl
      exact h
    · rw [if_neg hl]
      exact ih hl

/-- A program that keeps to the specification of `smpStep` keeps to this one with the assignments in it. -/
theorem wp_inlined {m : SmpM Unit} {v : View} {Q : Unit → View → Prop}
    (h : m.wp (smpSpec ip strict t) Threads.anyPanic Q v) :
    (inlined m).wp (storeSpec ip strict t) Threads.anyPanic (fun a w => w.left = none ∧ Q a w.view) ⟨v, none⟩ := by
  induction m generalizing v with
  | ret a => exact ⟨rfl, h⟩
  | panic msg => trivial
  | call o next ih =>
    have hnext := smpSpec_mono ip strict t o _ _ v (fun r w => ih r) h
    cases o with
    | freeproc p =>
      exact smpSpec_mono ip strict t (.freeproc p) _ _ v
        (fun r w hw => wp_stores (p := p) hw (List.cons_ne_nil _ _)) hnext
    | _ => exact hnext

/-! ## How far a slot is behind -/

/-- Thread `t`, with view `v`, is freeing slot `p`, which is `r` and will be `r₀` when the assignments `fs`
are made. -/
structure Lag (t : Thread) (v : View) (p : Slot) (fs : List Field) (r r₀ : Proc) : Prop where
  stores : fs ⊆ freeStores
  left : fs.foldl (fun x f => f.apply x) r = r₀
  snap : v.snap p = some r₀
  unused : r₀.state = .unused
  orphan : r₀.parent = none
  /-- A zombie is freed by a call of `wait` that has taken its exit. -/
  state : r.state = .unused ∨ r.state = .zombie ∧ ∃ q x, t = .proc q ∧ v.reap = some (some x)
  parent : ∀ q, r.parent = some q → t = .proc q ∧ v.core.state ≠ .zombie

/-- Some processor is freeing slot `p`. -/
def Freeing (vs : Thread → StoreView) (s : Sys) (p : Slot) : Prop := ∃ c fs, (vs (s.exec c)).left = some (p, fs)

/-- The table `g` is the one of `s`, but for the slots that are being freed. -/
structure Lags (vs : Thread → StoreView) (s : Sys) (g : Slot → Proc) : Prop where
  same : ∀ p, ¬Freeing vs s p → g p = s.proc p
  lag : ∀ c p fs, (vs (s.exec c)).left = some (p, fs) →
    Lag (s.exec c) (vs (s.exec c)).view p fs (g p) (s.proc p)
  exec : ∀ t, (vs t).left ≠ none → ∃ c, s.exec c = t

/-- The invariant for processors that make the assignments one by one. -/
def StoreInv (ip : Slot) (strict : Prop) (vs : Thread → StoreView) (s : Sys) : Prop :=
  ∃ s₀ g, s = { s₀ with proc := g } ∧ Inv ip strict (fun t => (vs t).view) s₀ ∧ Lags vs s₀ g

variable {vs vs' : Thread → StoreView} {s s' : Sys} {g g' : Slot → Proc}

section Slots
variable (hinv : Inv ip strict (fun t => (vs t).view) s) (hl : Lags vs s g)
include hinv hl

/-- The slot is locked by the thread that is freeing it. -/
theorem Lags.locked {fs : List Field} (h : (vs (s.exec c)).left = some (p, fs)) : s.lock (.proc p) = some c :=
  (hinv.cpu.lock _ c).mpr (hinv.snap_exec (hl.lag c p fs h).snap).1

theorem Lags.not_exec (hd : s.exec d = .proc p) : ¬Freeing vs s p := by
  rintro ⟨c, fs, h⟩
  exact hinv.exec.used d p hd (hl.lag c p fs h).unused

theorem Lags.not_free (hf : s.lock (.proc p) = none) : ¬Freeing vs s p := by
  rintro ⟨c, fs, h⟩
  cases (hl.locked hinv h).symm.trans hf

theorem Lags.not_snap (hn : (vs (s.exec c)).left = none) (hx : (vs (s.exec c)).view.snap p ≠ none) :
    ¬Freeing vs s p := by
  rintro ⟨d, fs, h⟩
  have hy : (vs (s.exec d)).view.snap p ≠ none := by
    rw [(hl.lag d p fs h).snap]
    exact Option.some_ne_none _
  have he : s.exec d = s.exec c := hinv.snap_unique (c := c) hx (hinv.exec.has d) hy
  rw [he, hn] at h
  cases h

/-- A thread without locks is not freeing anything. -/
theorem Lags.left_none (hheld : (vs (s.exec c)).view.core.held = ∅) : (vs (s.exec c)).left = none := by
  cases h : (vs (s.exec c)).left with
  | none => rfl
  | some x =>
    have hmem : Lock.proc x.1 ∈ (vs (s.exec c)).view.core.held := (hinv.snap_exec (hl.lag c x.1 x.2 h).snap).1
    rw [hheld] at hmem
    exact absurd hmem (Finset.notMem_empty _)

/-- Nor does the thread assign to a slot that another thread is freeing. -/
theorem Lags.not_put {f : Field} (hn : (vs (s.exec c)).left = none)
    (hpre : Pre ip strict (s.exec c) (vs (s.exec c)).view (.put p f)) : ¬Freeing vs s p := by
  rcases hinv.put_cases hpre with ⟨hc, -⟩ | ⟨-, x, hx, -⟩
  · exact hl.not_exec hinv hc
  · exact hl.not_snap hinv hn (by rw [hx]; exact Option.some_ne_none x)

end Slots

/-- A slot being freed is unused or a zombie. -/
theorem Lags.cases (hl : Lags vs s g) (p : Slot) : g p = s.proc p ∨
    (s.proc p).state = .unused ∧ ((g p).state = .unused ∨ (g p).state = .zombie) := by
  by_cases hp : Freeing vs s p
  · obtain ⟨c, fs, h⟩ := hp
    exact Or.inr ⟨(hl.lag c p fs h).unused, (hl.lag c p fs h).state.imp_right And.left⟩
  · exact Or.inl (hl.same p hp)

/-- Steps that leave the slots being freed as they are, and the thread of the processor not freeing any. -/
theorem Lags.keep (hl : Lags vs s g) (hn : (vs (s.exec c)).left = none) (hn' : (vs' (s.exec c)).left = none)
    (hne : ∀ d, d ≠ c → s'.exec d = s.exec d) (hinj : ∀ d, s'.exec d = s'.exec c → d = c)
    (hvs : ∀ u, u ≠ s.exec c → vs' u = vs u ∨ (vs u).left = none ∧ (vs' u).left = none)
    (hsame : ∀ i, ¬Freeing vs s i → g' i = s'.proc i)
    (hlag : ∀ i, Freeing vs s i → g' i = g i ∧ s'.proc i = s.proc i) : Lags vs' s' g' := by
  have hkeep : ∀ u, (vs u).left ≠ none → vs' u = vs u ∧ ∃ d, s.exec d = u ∧ s'.exec d = u := fun u hu => by
    obtain ⟨d, rfl⟩ := hl.exec u hu
    have hd : d ≠ c := by
      rintro rfl
      exact hu hn
    refine ⟨(hvs _ fun he => hu (by rw [he, hn])).resolve_right fun h => hu h.1, d, rfl, hne d hd⟩
  have hback : ∀ u, (vs' u).left ≠ none → vs' u = vs u := fun u hu =>
    (hvs u fun he => hu (by rw [he, hn'])).resolve_right fun h => hu h.2
  have hexec : ∀ d, (vs' (s'.exec d)).left ≠ none → s'.exec d = s.exec d := fun d hd => by
    obtain ⟨-, e, he, he'⟩ := hkeep (s'.exec d) (by rw [← hback _ hd]; exact hd)
    by_cases hdc : d = c
    · subst hdc
      obtain rfl := hinj e he'
      exact he.symm
    · exact hne d hdc
  have hfree : ∀ i, Freeing vs s i → Freeing vs' s' i := by
    rintro i ⟨d, fs, h⟩
    obtain ⟨hv, e, he, he'⟩ := hkeep (s.exec d) (by rw [h]; exact Option.some_ne_none _)
    exact ⟨e, fs, by rw [he', hv, h]⟩
  refine ⟨fun i hi => hsame i fun h => hi (hfree i h), fun d i fs h => ?_, fun u hu => ?_⟩
  · have hu : (vs' (s'.exec d)).left ≠ none := by rw [h]; exact Option.some_ne_none _
    rw [hback _ hu, hexec d hu] at h ⊢
    obtain ⟨h1, h2⟩ := hlag i ⟨d, fs, h⟩
    rw [h1, h2]
    exact hl.lag d i fs h
  · obtain ⟨-, e, -, he'⟩ := hkeep u (by rw [← hback u hu]; exact hu)
    exact ⟨e, he'⟩

/-! ## Requests that do not free a slot -/

/-- Requests that do not look at the process table. -/
def SmpOp.Apart : SmpOp → Prop
  | .get _ | .getParent _ | .getOfile _ _ | .put _ _ | .freeproc _ | .note (.killHit _ _) => False
  | _ => True

theorem smpStep_apart (ho : o.Apart) (s : Sys) (g : Slot → Proc) :
    smpStep c o { s with proc := g } = (smpStep c o s).map fun s' => { s' with proc := g } := by
  cases o with
  | get | getParent | getOfile | put | freeproc => exact ho.elim
  | acquire l =>
    simp only [smpStep, Sys.acquire]
    cases s.lock l with
    | none => rfl
    | some d =>
      dsimp only
      split_ifs <;> rfl
  | release l =>
    simp only [smpStep, Sys.release]
    split_ifs
    · rfl
    · cases (s.cpu c).popOff <;> rfl
  | myproc =>
    simp only [smpStep, Sys.myproc]
    cases (s.cpu c).pushOff.popOff <;> rfl
  | note e =>
    cases e with
    | killHit => exact ho.elim
    | _ => cases he : (s.cpu c).exec <;> simp only [smpStep, Sys.note, he, Outcome.map]
  | _ => rfl

theorem step_apart {r : o.Res} (ho : o.Apart) (h : smpStep c o { s with proc := g } = .done r s') :
    ∃ s₁, smpStep c o s = .done r s₁ ∧ s' = { s₁ with proc := g } := by
  rw [smpStep_apart ho] at h
  cases hs : smpStep c o s with
  | done r' s₁ =>
    rw [hs] at h
    cases h
    exact ⟨s₁, rfl, rfl⟩
  | _ =>
    rw [hs] at h
    cases h

theorem Ok.apart {v : View} {r : o.Res} (h : Ok ip strict t c v s o r)
    (ha : ∀ p, o = .acquire (.proc p) → g p = s.proc p) (ho : o.Apart) :
    Ok ip strict t c v { s with proc := g } o r := by
  cases o with
  | acquire l =>
    refine ⟨h.1, fun p hp ht => ?_⟩
    change Enters strict t v p (g p)
    rw [ha p (by rw [hp])]
    exact h.2 p hp ht
  | get | getParent => exact ho.elim
  | _ => exact h

theorem next_apart {v : View} {r : o.Res} (ha : ∀ p, o = .acquire (.proc p) → g p = s.proc p) :
    Next t c v { s with proc := g } o r = Next t c v s o r := by
  cases o with
  | acquire l =>
    cases l with
    | proc p => simp only [Next, ha p rfl]
    | _ => rfl
  | _ => rfl

/-- What reading a slot that another thread is freeing can give. -/
theorem Lags.seesParent (hinv : Inv ip strict (fun t => (vs t).view) s) (hl : Lags vs s g)
    (hn : (vs (s.exec c)).left = none) (hp : Freeing vs s p) :
    SeesParent ip (s.exec c) (vs (s.exec c)).view p (g p).parent ∧ (g p).parent.map Thread.proc ≠ some (s.exec c) ∧
      s.exec c ≠ .proc p ∧ (s.proc p).parent = none := by
  obtain ⟨d, fs, h⟩ := id hp
  have hlag := hl.lag d p fs h
  have hown : s.exec c ≠ .proc p := fun hc => hl.not_exec hinv hc hp
  have hother : ∀ q, (g p).parent = some q → s.exec c ≠ .proc q := fun q hq hc => by
    rw [hc, ← (hlag.parent q hq).1, h] at hn
    cases hn
  have hsees := hinv.seesParent (c := c) p
  rw [hlag.orphan] at hsees
  refine ⟨⟨fun q hq hk => ?_, fun q hq _ hx => absurd hq (hother q hx), fun hc => absurd hc hown⟩, fun hx => ?_, hown,
    hlag.orphan⟩
  · cases hsees.kid q hq hk
  · obtain ⟨q, hq, hc⟩ := Option.map_eq_some_iff.mp hx
    exact hother q hq hc.symm

/-- The request `o` comes out on the table `g` as it does on the table of `s`. -/
def Follows (ip : Slot) (strict : Prop) (vs : Thread → StoreView) (s : Sys) (g : Slot → Proc) (c : ℕ) (o : SmpOp)
    (r : o.Res) (s' : Sys) : Prop :=
  ∃ r₁ s₁ g', smpStep c o s = .done r₁ s₁ ∧ s' = { s₁ with proc := g' } ∧
    Ok ip strict (s.exec c) c (vs (s.exec c)).view s' o r ∧
    Next (s.exec c) c (vs (s.exec c)).view s' o r = Next (s.exec c) c (vs (s.exec c)).view s₁ o r₁ ∧
    (∀ i, ¬Freeing vs s i → g' i = s₁.proc i) ∧ ∀ i, Freeing vs s i → g' i = g i ∧ s₁.proc i = s.proc i

section Follows
variable {r : o.Res} (hinv : Inv ip strict (fun t => (vs t).view) s) (hl : Lags vs s g)
  (hn : (vs (s.exec c)).left = none) (hpre : Pre ip strict (s.exec c) (vs (s.exec c)).view o)
include hinv hl hpre

theorem Lags.follow_apart (ho : o.Apart) (hacq : ∀ p, o = .acquire (.proc p) → ¬Freeing vs s p)
    (hstep : smpStep c o { s with proc := g } = .done r s') : Follows ip strict vs s g c o r s' := by
  obtain ⟨s₁, hs₁, rfl⟩ := step_apart ho hstep
  have hproc : s₁.proc = s.proc := step_proc (by cases o <;> first | exact id | exact ho.elim) hs₁
  have hacq' : ∀ p, o = .acquire (.proc p) → g p = s₁.proc p := fun p hp => by
    rw [hproc]
    exact hl.same p (hacq p hp)
  exact ⟨r, s₁, g, hs₁, rfl, (hinv.ok hpre hs₁).apart hacq' ho, next_apart hacq', fun i hi => by rw [hproc, hl.same i hi],
    fun i _ => ⟨rfl, by rw [hproc]⟩⟩

include hn

theorem Lags.follow (ho : ∀ p, o ≠ .freeproc p) (hstep : smpStep c o { s with proc := g } = .done r s') :
    Follows ip strict vs s g c o r s' := by
  cases o with
  | freeproc p => exact absurd rfl (ho p)
  | acquire l =>
    have hfree := (acquire_done hstep).1
    refine hl.follow_apart hinv hpre trivial (fun p hp => ?_) hstep
    cases hp
    exact hl.not_free hinv hfree
  | get p =>
    cases hstep
    have hown : s.exec c = .proc p → g p = s.proc p := fun hc => hl.same p (hl.not_exec hinv hc)
    have hsnap : (vs (s.exec c)).view.snap p ≠ none → g p = s.proc p := fun hx => hl.same p (hl.not_snap hinv hn hx)
    have hsees := hinv.sees (c := c) p
    refine ⟨_, s, g, rfl, rfl, ⟨fun hc => ?_, fun x hx => ?_⟩, rfl, hl.same, fun i _ => ⟨rfl, rfl⟩⟩
    · change (g p).state = _ ∧ (g p).chan = _ ∧ (g p).pid = _
      rw [hown hc]
      exact hsees.own hc
    · change Agree x (g p)
      rw [hsnap (by rw [hx]; exact Option.some_ne_none x)]
      exact hsees.snap x hx
  | getParent p =>
    cases hstep
    refine ⟨_, s, g, rfl, rfl, ?_, ?_, hl.same, fun i _ => ⟨rfl, rfl⟩⟩
    · change SeesParent ip (s.exec c) (vs (s.exec c)).view p (g p).parent
      by_cases hp : Freeing vs s p
      · exact (hl.seesParent hinv hn hp).1
      · rw [hl.same p hp]
        exact hinv.seesParent p
    · change Next _ _ _ _ (.getParent p) (g p).parent = Next _ _ _ _ (.getParent p) (s.proc p).parent
      by_cases hp : Freeing vs s p
      · obtain ⟨-, h1, h2, h3⟩ := hl.seesParent hinv hn hp
        simp only [Next, if_neg h1, if_neg h2, h3, Option.map_none, reduceCtorEq, if_false]
      · rw [hl.same p hp]
        rfl
  | getOfile p fd =>
    cases hstep
    refine ⟨_, s, g, rfl, rfl, trivial, ?_, hl.same, fun i _ => ⟨rfl, rfl⟩⟩
    change Next _ _ _ _ (.getOfile p fd) ((g p).ofile fd) = Next _ _ _ _ (.getOfile p fd) ((s.proc p).ofile fd)
    by_cases hc : s.exec c = .proc p
    · rw [hl.same p (hl.not_exec hinv hc)]
      rfl
    · simp only [Next, hc, false_and, if_false]
  | put p f =>
    cases hstep
    have hp := hl.not_put hinv hn hpre
    have hsame := hl.same p hp
    refine ⟨(), s.put p f, Function.update g p (f.apply (s.proc p)), rfl, ?_, trivial, rfl, fun i hi => ?_, fun i hi => ?_⟩
    · simp only [Sys.put, Sys.setProc, hsame]
      split <;> rfl
    · rw [put_proc]
      by_cases hip : i = p
      · rw [hip, Function.update_self, Function.update_self]
      · rw [Function.update_of_ne hip, Function.update_of_ne hip, hl.same i hi]
    · have hip : i ≠ p := fun he => hp (he ▸ hi)
      rw [put_proc, Function.update_of_ne hip, Function.update_of_ne hip]
      exact ⟨rfl, rfl⟩
  | note e =>
    cases e with
    | killHit pid p =>
      cases hstep
      have hp : ¬Freeing vs s p := by
        rcases hpre with ⟨hc, -⟩ | ⟨x, hx, -⟩
        · exact hl.not_exec hinv hc
        · exact hl.not_snap hinv hn (by rw [hx]; exact Option.some_ne_none x)
      have hproc : (s.note c (.killHit pid p)).proc = s.proc := (note_frame s _).2.2.2.1
      refine ⟨(), s.note c (.killHit pid p), g, rfl, ?_, trivial, rfl, fun i hi => ?_, fun i _ => ⟨rfl, by rw [hproc]⟩⟩
      · simp only [Sys.note, hl.same p hp]
      · rw [hproc, hl.same i hi]
    | _ => exact hl.follow_apart hinv hpre trivial (fun p hp => by cases hp) hstep
  | _ => exact hl.follow_apart hinv hpre trivial (fun p hp => by cases hp) hstep

end Follows

/-! ## One request -/

theorem view_update (vs : Thread → StoreView) (t : Thread) (w : StoreView) :
    (fun u => (Function.update vs t w u).view) = Function.update (fun u => (vs u).view) t w.view := by
  funext u
  by_cases hu : u = t
  · rw [hu, Function.update_self, Function.update_self]
  · rw [Function.update_of_ne hu, Function.update_of_ne hu]

theorem apply_freeStores {f : Field} (hf : f ∈ freeStores) (x : Proc) :
    ((f.apply x).state = x.state ∨ (f.apply x).state = .unused) ∧
      ((f.apply x).parent = x.parent ∨ (f.apply x).parent = none) ∧ f ≠ .state .zombie := by
  simp only [freeStores, List.mem_cons, List.not_mem_nil, or_false] at hf
  rcases hf with rfl | rfl | rfl | rfl | rfl | rfl | rfl | rfl | rfl <;> simp [Field.apply]

theorem Lag.step {v : View} {f : Field} {l : List Field} {x y : Proc} (h : Lag t v p (f :: l) x y) :
    Lag t v p l (f.apply x) y := by
  obtain ⟨hs, hp, -⟩ := apply_freeStores (h.stores List.mem_cons_self) x
  refine ⟨fun _ hm => h.stores (List.mem_cons_of_mem f hm), h.left, h.snap, h.unused, h.orphan, ?_, fun q hq => ?_⟩
  · rcases hs with hs | hs
    · rw [hs]
      exact h.state
    · exact Or.inl hs
  · rcases hp with hp | hp
    · exact h.parent q (hp.symm.trans hq)
    · cases hp.symm.trans hq

/-- What the call of `freeproc` leaves to be done. -/
theorem Inv.lag_freeproc {ws : Thread → View} (h : Inv ip strict ws s)
    (hpre : Pre ip strict (s.exec c) (ws (s.exec c)) (.freeproc p)) (s' : Sys) :
    Lag (s.exec c) (Next (s.exec c) c (ws (s.exec c)) s' (.freeproc p) ()) p freeStores (s.proc p)
      ((s.freeproc c p).proc p) := by
  obtain ⟨x, hx, hcase⟩ := hpre
  have hdead : x.Dead := hcase.elim (fun h => Or.inr h.1) fun h => Or.inl h.1
  have hsx : s.proc p = x := (h.snap_exec hx).2.2.dead hdead
  have hfreed : (s.freeproc c p).proc p = x.freed := by rw [freeproc_proc, Function.update_self, hsx]
  simp only [Next, hx]
  rw [hfreed, hsx]
  refine ⟨List.Subset.refl _, rfl, Function.update_self .., rfl, rfl, ?_, fun q hq => ?_⟩
  · rcases hcase with ⟨hz, ⟨q, hq⟩, -⟩ | ⟨hu, -⟩
    · exact Or.inr ⟨hz, q, _, hq, if_pos hz⟩
    · exact Or.inl hu
  · rcases hcase with ⟨-, ⟨q', hq'⟩, hkid, -⟩ | ⟨-, hp⟩
    · rw [hq'] at hkid
      have hpar := (h.tree.kids q' (h.exec.thread_of_exec hq')).kids p hkid
      obtain rfl : q' = q := Option.some.inj (hpar.symm.trans (hsx ▸ hq))
      refine ⟨hq', fun hz => (h.tree.forest.parent p q' hpar).2 ?_⟩
      rw [hq'] at hz
      exact (h.exec.state c q' hq').trans hz
    · cases hp.symm.trans hq

/-- Steps of the thread of processor `c` that change slot `p` only, which nobody else is freeing. -/
theorem Lags.assign (hl : Lags vs s g) {w : StoreView} (hexec : ∀ d, s'.exec d = s.exec d)
    (hown : ∀ x, (vs (s.exec c)).left = some x → x.1 = p)
    (hother : ∀ d fs, s.exec d ≠ s.exec c → (vs (s.exec d)).left ≠ some (p, fs))
    (hne : ∀ i, i ≠ p → g' i = g i ∧ s'.proc i = s.proc i) (hnone : w.left = none → g' p = s'.proc p)
    (hsome : ∀ x, w.left = some x → x.1 = p ∧ Lag (s.exec c) w.view p x.2 (g' p) (s'.proc p)) :
    Lags (Function.update vs (s.exec c) w) s' g' := by
  refine ⟨fun i hi => ?_, fun d i fs hd => ?_, fun u hu => ?_⟩
  · by_cases hip : i = p
    · subst hip
      refine hnone (Option.eq_none_iff_forall_ne_some.mpr fun x hx => hi ⟨c, x.2, ?_⟩)
      rw [hexec, Function.update_self, hx, ← (hsome x hx).1]
    · rw [(hne i hip).1, (hne i hip).2]
      refine hl.same i ?_
      rintro ⟨d, fs, hd⟩
      by_cases hdc : s.exec d = s.exec c
      · exact hip (hown _ (hdc ▸ hd))
      · exact hi ⟨d, fs, by rw [hexec, Function.update_of_ne hdc, hd]⟩
  · rw [hexec] at hd ⊢
    by_cases hdc : s.exec d = s.exec c
    · rw [hdc, Function.update_self] at hd ⊢
      obtain ⟨rfl, hlag⟩ := hsome _ hd
      exact hlag
    · rw [Function.update_of_ne hdc] at hd ⊢
      have hip : i ≠ p := fun he => hother d fs hdc (he ▸ hd)
      rw [(hne i hip).1, (hne i hip).2]
      exact hl.lag d i fs hd
  · by_cases huc : u = s.exec c
    · exact ⟨c, by rw [hexec, huc]⟩
    · rw [Function.update_of_ne huc] at hu
      obtain ⟨d, hd⟩ := hl.exec u hu
      exact ⟨d, (hexec d).trans hd⟩

section Requests
variable (hinv : Inv ip strict (fun t => (vs t).view) s) (hl : Lags vs s g)
include hinv hl

/-- The next assignment of `freeproc`. -/
theorem Lags.store {f : Field} {l : List Field} (h : (vs (s.exec c)).left = some (p, f :: l)) :
    StoreInv ip strict
      (Function.update vs (s.exec c) ⟨(vs (s.exec c)).view, if l = [] then none else some (p, l)⟩)
      (Sys.put { s with proc := g } p f) := by
  have hlag := hl.lag c p _ h
  have hput : Sys.put { s with proc := g } p f = { s with proc := Function.update g p (f.apply (g p)) } := by
    unfold Sys.put
    split
    · exact absurd rfl (apply_freeStores (hlag.stores List.mem_cons_self) (g p)).2.2
    · rfl
  refine ⟨s, _, hput, ?_, hl.assign (p := p) (fun _ => rfl) (fun x hx => ?_) (fun d fs hd hi => ?_) (fun i hi => ?_)
    (fun hnone => ?_) fun x hx => ?_⟩
  · rw [view_update, Function.update_eq_self]
    exact hinv
  · cases h.symm.trans hx
    rfl
  · have hdc := Option.some.inj ((hl.locked hinv hi).symm.trans (hl.locked hinv h))
    exact hd (by rw [hdc])
  · exact ⟨Function.update_of_ne hi .., rfl⟩
  · have hnil : l = [] := by
      by_contra hne
      rw [if_neg hne] at hnone
      cases hnone
    rw [Function.update_self, ← hlag.left, hnil]
    rfl
  · by_cases hnil : l = []
    · rw [if_pos hnil] at hx
      cases hx
    · rw [if_neg hnil] at hx
      cases hx
      rw [Function.update_self]
      exact ⟨rfl, hlag.step⟩

variable (hn : (vs (s.exec c)).left = none) (hpre : Pre ip strict (s.exec c) (vs (s.exec c)).view o)
include hn hpre

/-- The call of `freeproc`: the slot is as before, and behind by all the assignments. -/
theorem Lags.freeproc (ho : o = .freeproc p) (s' : Sys) :
    StoreInv ip strict (Function.update vs (s.exec c)
        ⟨Next (s.exec c) c (vs (s.exec c)).view s' (.freeproc p) (), some (p, freeStores)⟩)
      { s with proc := g, hist := (Sys.freeproc { s with proc := g } c p).hist } := by
  subst ho
  have hinv' := hinv.step (r := ()) hpre rfl fun _ => SmpOp.noConfusion
  have hlag := hinv.lag_freeproc hpre s'
  have hp : ¬Freeing vs s p := by
    obtain ⟨x, hx, -⟩ := hpre
    exact hl.not_snap hinv hn (by rw [hx]; exact Option.some_ne_none x)
  refine ⟨s.freeproc c p, g, ?_, ?_, hl.assign (p := p) (fun d => ?_) (fun x hx => ?_) (fun d fs _ hd => hp ⟨d, fs, hd⟩)
    (fun i hi => ⟨rfl, ?_⟩) (fun hf => by cases hf) fun x hx => ?_⟩
  · simp only [Sys.freeproc, Sys.setProc, hl.same p hp]
    cases (s.cpu c).exec <;> cases (s.proc p).state <;> rfl
  · rw [view_update]
    exact hinv'
  · exact congrArg (fun f => (f d).exec) (freeproc_cpu s p).1
  · cases hn.symm.trans hx
  · rw [freeproc_proc, Function.update_of_ne hi]
  · cases hx
    rw [hl.same p hp]
    exact ⟨rfl, hlag⟩

theorem Lags.resetContext (ho : o = .resetContext p) :
    StoreInv ip strict (Function.update (Function.update vs (s.exec c) ⟨{ (vs (s.exec c)).view with built := some p }, none⟩)
      (.proc p) ⟨born p (s.proc p).pid, none⟩) { s with proc := g, hist := s.hist.reset p } := by
  subst ho
  have hinv' := hinv.resetContext hpre
  obtain ⟨-, -, x, hx, hu, -⟩ := hpre
  obtain ⟨hheld, hne, hag⟩ := hinv.snap_exec hx
  have hno : ∀ d, s.exec d ≠ .proc p := hinv.still hheld hne (by rw [hag.state, hu]; exact ProcState.noConfusion)
  refine ⟨{ s with hist := s.hist.reset p }, g, rfl, ?_, ?_⟩
  · rw [view_update, view_update]
    exact hinv'
  · refine hl.keep hn ?_ (fun _ _ => rfl) (fun d hd => hinv.exec.exec_inj hd) (fun u hu => ?_) hl.same fun _ _ => ⟨rfl, rfl⟩
    · rw [Function.update_of_ne hne, Function.update_self]
    · by_cases hup : u = .proc p
      · subst hup
        refine Or.inr ⟨?_, by rw [Function.update_self]⟩
        by_contra hleft
        obtain ⟨d, hd⟩ := hl.exec _ hleft
        exact hno d hd
      · exact Or.inl (by rw [Function.update_of_ne hup, Function.update_of_ne hu])

/-- Any other request. -/
theorem Lags.request {r : o.Res} (ho : ∀ p, o ≠ .freeproc p) (ho' : ∀ p, o ≠ .resetContext p)
    (hstep : smpStep c o { s with proc := g } = .done r s') :
    Ok ip strict (s.exec c) c (vs (s.exec c)).view s' o r ∧ StoreInv ip strict
      (Function.update vs (s.exec c) ⟨Next (s.exec c) c (vs (s.exec c)).view s' o r, none⟩) s' := by
  obtain ⟨r₁, s₁, g', hs₁, rfl, hok, hnext, hsame, hlag⟩ := hl.follow hinv hn hpre ho hstep
  have hinv' := hinv.step hpre hs₁ ho'
  refine ⟨hok, s₁, g', rfl, ?_, ?_⟩
  · rw [view_update, hnext]
    exact hinv'
  · refine hl.keep hn (by rw [Function.update_self]) (fun d hd => by rw [Sys.exec, step_cpu_ne hs₁ hd])
      (fun d hd => hinv'.exec.exec_inj hd) (fun u hu => Or.inl (Function.update_of_ne hu ..)) hsame hlag

end Requests

/-- A trap. -/
theorem Lags.mask (hl : Lags vs s g) (hn : (vs (s.exec c)).left = none) {v : View}
    (hinv : Inv ip strict (Function.update (fun t => (vs t).view) (s.exec c) v) (s.mask c)) :
    StoreInv ip strict (Function.update vs (s.exec c) ⟨v, none⟩) (Sys.mask { s with proc := g } c) := by
  refine ⟨s.mask c, g, rfl, by rw [view_update]; exact hinv, ?_⟩
  refine hl.keep hn (by rw [Function.update_self]) (fun d hd => ?_) (fun d hd => hinv.exec.exec_inj hd)
    (fun u hu => Or.inl (Function.update_of_ne hu ..)) hl.same fun _ _ => ⟨rfl, rfl⟩
  exact congrArg Cpu.exec (setCpu_ne s _ hd)

end Xv6Arm.Smp

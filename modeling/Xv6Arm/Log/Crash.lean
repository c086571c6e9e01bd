import Xv6Arm.Log.Recovery

/-!
# Crash atomicity of the redo log

A crash keeps a prefix of the block writes issued so far and loses the memory;
after it the system boots and runs `recover_from_log`, which may be cut off
itself. What a disk will look like once recovery has gone through to its end is
a function of the disk alone, `replayed`, and neither a cut of recovery nor the
next write of `commit` other than the committing one changes it.
-/
namespace Xv6Arm
open Lib Bcache IoState

/-- The state in which `initlog` runs `recover_from_log`. -/
def boot (start size : ℕ) (d : Disk) : IoState where
  disk := d
  bcache := binit
  log := { start, size, outstanding := 0, committing := false, lh := [] }

/-- The disk left by a recovery that is cut off after `c` of its block writes. -/
def recoverCut (me start size : ℕ) (d : Disk) (c : ℕ) : Disk :=
  applyWrites ((ioWrites me recoverFromLog (boot start size d)).take c) d

/-- The blocks the log header on disk `d` lists. -/
def homes (start : ℕ) (d : Disk) : List ℕ := getHeader (d start)

/-- Disk `d` with the logged blocks installed. -/
def replayed (start : ℕ) (d : Disk) : Disk := applyWrites (installWrites start d 0 (homes start d)) d

/-- The header on disk `d` lists blocks outside the log area, no more than fit in it. -/
structure GoodLog (start nlog : ℕ) (d : Disk) : Prop where
  outside : OutsideLog start nlog (homes start d)
  fits : (homes start d).length < nlog

variable {me start nlog b : ℕ} {d : Disk} {x : Block} {l : List ℕ}

/-! ## The log header -/

theorem getHeader_putHeader (hl : l.length < 2 ^ 31) (hb : ∀ b ∈ l, b < 2 ^ 32) :
    getHeader (putHeader x l) = l := by
  have hn : leGet (putHeader x l) 0 4 = l.length := by
    rw [putHeader, leGet_lePuts_before l (by norm_num)]
    exact leGet_lePut_of_lt (by omega)
  rw [getHeader, hn, if_pos hl, putHeader]
  exact leGets_lePuts (fun v hv => by simpa using hb v hv)

theorem getHeader_of_zero (h : leGet x 0 4 = 0) : getHeader x = [] := by
  simp [getHeader, h, leGets]

theorem leGet_putHeader_nil (x : Block) : leGet (putHeader x []) 0 4 = 0 := by
  rw [putHeader, lePuts]
  exact leGet_lePut_of_lt (by norm_num)

theorem GoodLog.of_zero (hn : 0 < nlog) (h : leGet (d start) 0 4 = 0) : GoodLog start nlog d := by
  have hh : homes start d = [] := getHeader_of_zero h
  refine ⟨?_, by simpa [hh] using hn⟩
  intro b hb
  rw [hh] at hb
  cases hb

theorem replayed_of_zero (h : leGet (d start) 0 4 = 0) : replayed start d = d := by
  have hh : homes start d = [] := getHeader_of_zero h
  rw [replayed, hh]
  rfl

/-! ## Writes to home blocks -/

/-- Writes to the blocks `l` leave the log area alone. -/
theorem applyWrites_log {ws : List (ℕ × Block)} (hws : ∀ w ∈ ws, w.1 ∈ l)
    (hout : OutsideLog start nlog l) {i : ℕ} (hi : i < nlog) :
    applyWrites ws d (start + i) = d (start + i) := by
  apply applyWrites_other
  intro w hw e
  have := hout w.1 (hws w hw)
  omega

theorem mem_installWrites {w : ℕ × Block} {tail : ℕ} (hw : w ∈ installWrites start d tail l) :
    w.1 ∈ l := by
  rw [← map_fst_installWrites start d tail l]
  exact List.mem_map_of_mem hw

/-- Writing some of the blocks the header lists changes neither the header nor the slots. -/
theorem homes_applyWrites {ws : List (ℕ × Block)} (hg : GoodLog start nlog d)
    (hws : ∀ w ∈ ws, w.1 ∈ homes start d) :
    homes start (applyWrites ws d) = homes start d ∧
      installWrites start (applyWrites ws d) 0 (homes start d) =
        installWrites start d 0 (homes start d) := by
  refine ⟨?_, ?_⟩
  · have := applyWrites_log (d := d) hws hg.outside (i := 0) (by have := hg.fits; omega)
    rw [homes, homes, show start = start + 0 from rfl, this]
  · apply installWrites_congr
    intro i hi
    exact applyWrites_log hws hg.outside (i := i + 1) (by have := hg.fits; omega)

/-- Installing the blocks again after some of them have been installed changes nothing. -/
theorem replayed_prefix {ws : List (ℕ × Block)} (hg : GoodLog start nlog d)
    (hws : ws <+: installWrites start d 0 (homes start d)) :
    GoodLog start nlog (applyWrites ws d) ∧
      replayed start (applyWrites ws d) = replayed start d := by
  obtain ⟨hh, hi⟩ := homes_applyWrites hg fun w hw => mem_installWrites (hws.subset hw)
  refine ⟨⟨by rw [hh]; exact hg.outside, by rw [hh]; exact hg.fits⟩, ?_⟩
  rw [replayed, hh, hi, applyWrites_redo hws]
  rfl

/-! ## Recovery -/

theorem rested_boot (start size : ℕ) (d : Disk) : Rested (boot start size d) where
  distinct := List.pairwise_of_forall_mem_list fun x hx y _ b h => by
    obtain rfl := List.eq_of_mem_replicate hx
    exact absurd h.1 (by simp [Buf.holds])
  unused := fun x hx _ => by
    obtain rfl := List.eq_of_mem_replicate hx
    exact ⟨rfl, rfl⟩
  length := by simp [boot, binit]
  clean := fun b => ⟨rfl, fun x hx hv => by
    obtain rfl := List.eq_of_mem_replicate (List.mem_of_find?_eq_some hx)
    cases hv⟩

/-- Recovery goes through and issues `recoverWrites`. -/
theorem recover_boot (me : ℕ) (hg : GoodLog start nlog d) (size : ℕ) :
    Returns (ioStep me) ioEmit recoverFromLog (boot start size d) (recoverWrites start d)
      (fun _ s' => s'.disk = applyWrites (recoverWrites start d) d) := by
  apply recoverFromLog_returns (rested_boot start size d)
  intro b hb
  have hout := hg.outside b hb
  have hfits : (getHeader (d start)).length < nlog := hg.fits
  refine ⟨?_, ?_⟩
  · change b ≠ start
    omega
  · intro i hi
    change i < (getHeader (d start)).length at hi
    change b ≠ start + i + 1
    omega

theorem applyWrites_recoverWrites (start : ℕ) (d : Disk) : applyWrites (recoverWrites start d) d =
    Function.update (replayed start d) start (putHeader (d start) []) := by
  rw [recoverWrites, applyWrites_append]
  rfl

/-- A recovery cut off anywhere leaves a disk that will be recovered to the same blocks. -/
theorem replayed_recoverCut (me : ℕ) (hg : GoodLog start nlog d) (size c : ℕ) :
    GoodLog start nlog (recoverCut me start size d c) ∧
      ∀ b, b ≠ start → replayed start (recoverCut me start size d c) b = replayed start d b := by
  obtain ⟨-, -, -, hw, -⟩ := recover_boot me hg size
  have hcut : recoverCut me start size d c = applyWrites ((recoverWrites start d).take c) d :=
    congrArg (fun ws => applyWrites (List.take c ws) d) hw
  rw [hcut]
  by_cases hc : c ≤ (installWrites start d 0 (homes start d)).length
  · -- the header has not been cleared
    have htake : (recoverWrites start d).take c = (installWrites start d 0 (homes start d)).take c :=
      List.take_append_of_le_length hc
    rw [htake]
    obtain ⟨hg', hr⟩ := replayed_prefix hg (List.take_prefix c (installWrites start d 0 (homes start d)))
    exact ⟨hg', fun b _ => congrFun hr b⟩
  · -- recovery had issued all its writes
    have hall : (recoverWrites start d).take c = recoverWrites start d := by
      apply List.take_of_length_le
      rw [recoverWrites, List.length_append, List.length_singleton]
      exact Nat.lt_of_not_le hc
    have hz : leGet (applyWrites (recoverWrites start d) d start) 0 4 = 0 := by
      rw [applyWrites_recoverWrites, Function.update_self]
      exact leGet_putHeader_nil _
    rw [hall]
    refine ⟨GoodLog.of_zero (Nat.zero_lt_of_lt hg.fits) hz, ?_⟩
    intro b hb
    rw [replayed_of_zero hz, applyWrites_recoverWrites, Function.update_of_ne hb]

/-- The run lemma: any number of recoveries that are cut off. -/
theorem replayed_recoverCuts (me : ℕ) (hg : GoodLog start nlog d) (size : ℕ) (cuts : List ℕ) :
    GoodLog start nlog (cuts.foldl (recoverCut me start size) d) ∧
      ∀ b, b ≠ start → replayed start (cuts.foldl (recoverCut me start size) d) b = replayed start d b := by
  induction cuts generalizing d with
  | nil => exact ⟨hg, fun _ _ => rfl⟩
  | cons c cuts ih =>
    obtain ⟨hg', hr⟩ := replayed_recoverCut me hg size c
    obtain ⟨hg'', hr'⟩ := ih hg'
    exact ⟨hg'', fun b hb => (hr' b hb).trans (hr b hb)⟩

/-- A recovery that is not cut off ends with an empty header and the logged blocks installed. -/
theorem recover_replays (me : ℕ) (hg : GoodLog start nlog d) (size : ℕ) :
    ∃ s', recoverFromLog.run (ioStep me) (boot start size d) = .done () s' ∧
      leGet (s'.disk start) 0 4 = 0 ∧ ∀ b, b ≠ start → s'.disk b = replayed start d b := by
  obtain ⟨⟨⟩, s', hrun, -, hdisk⟩ := recover_boot me hg size
  rw [applyWrites_recoverWrites] at hdisk
  refine ⟨s', hrun, ?_, ?_⟩
  · rw [hdisk, Function.update_self]
    exact leGet_putHeader_nil _
  · intro b hb
    rw [hdisk, Function.update_of_ne hb]

/-! ## What a prefix of the writes of `commit` is recovered to -/

section Prefix
variable {new : ℕ → Block} {y : Block}

theorem applyWrites_homeWrites (b : ℕ) :
    applyWrites (homeWrites new l) d b = if b ∈ l then new b else d b := by
  induction l generalizing d with
  | nil => rfl
  | cons a l ih =>
    rw [homeWrites, List.map_cons, applyWrites_cons]
    refine (ih (d := Function.update d a (new a))).trans ?_
    by_cases hb : b ∈ l
    · simp [hb]
    · by_cases hab : b = a
      · simp [hab]
      · simp [hb, hab]

/-- The slots hold the new contents once `write_log` has written them. -/
theorem applyWrites_slotWrites (start tail : ℕ) (d : Disk) :
    installWrites start (applyWrites (slotWrites start new tail l) d) tail l = homeWrites new l := by
  induction l generalizing tail d with
  | nil => rfl
  | cons b l ih =>
    rw [installWrites, slotWrites, applyWrites_cons, ih]
    refine congrArg (fun e => (b, e) :: homeWrites new l) ?_
    rw [applyWrites_other, Function.update_self]
    intro w hw e
    obtain ⟨i, hi, he⟩ := slotWrites_mem hw
    omega

theorem length_slotWrites (tail : ℕ) : (slotWrites start new tail l).length = l.length := by
  induction l generalizing tail with
  | nil => rfl
  | cons b l ih => simp [slotWrites, ih]

theorem applyWrites_slots_other {ws : List (ℕ × Block)} (hws : ws <+: slotWrites start new 0 l)
    (hlen : l.length < nlog) (hb : b ≤ start ∨ start + nlog ≤ b) : applyWrites ws d b = d b := by
  apply applyWrites_other
  intro w hw e
  obtain ⟨i, hi, he⟩ := slotWrites_mem (hws.subset hw)
  omega

/-- Before the committing write the header is still empty: the old contents come back. -/
theorem replayed_before {ws : List (ℕ × Block)} (hz : leGet (d start) 0 4 = 0)
    (hlen : l.length < nlog) (hws : ws <+: slotWrites start new 0 l) :
    GoodLog start nlog (applyWrites ws d) ∧
      ∀ b, b < start ∨ start + nlog ≤ b → replayed start (applyWrites ws d) b = d b := by
  have hz' : leGet (applyWrites ws d start) 0 4 = 0 := by
    rw [applyWrites_slots_other hws hlen (.inl le_rfl)]
    exact hz
  refine ⟨GoodLog.of_zero (Nat.zero_lt_of_lt hlen) hz', ?_⟩
  intro b hb
  rw [replayed_of_zero hz', applyWrites_slots_other hws hlen (by omega)]

/-- The disk right after the committing write. -/
def committed (start : ℕ) (new : ℕ → Block) (l : List ℕ) (x : Block) (d : Disk) : Disk :=
  Function.update (applyWrites (slotWrites start new 0 l) d) start (putHeader x l)

theorem homes_committed (hl : l.length ≤ LOGSIZE) (hb : ∀ b ∈ l, b < 2 ^ 32) :
    homes start (committed start new l x d) = l := by
  rw [homes, committed, Function.update_self]
  exact getHeader_putHeader (lt_of_le_of_lt hl (by norm_num)) hb

theorem goodLog_committed (hl : l.length ≤ LOGSIZE) (hb : ∀ b ∈ l, b < 2 ^ 32)
    (hout : OutsideLog start nlog l) (hlen : l.length < nlog) :
    GoodLog start nlog (committed start new l x d) := by
  refine ⟨?_, ?_⟩ <;> rw [homes_committed hl hb] <;> assumption

theorem installWrites_committed :
    installWrites start (committed start new l x d) 0 l = homeWrites new l := by
  rw [← applyWrites_slotWrites start 0 d]
  apply installWrites_congr
  intro i _
  exact Function.update_of_ne (by omega) _ _

theorem replayed_committed (hl : l.length ≤ LOGSIZE) (hb : ∀ b ∈ l, b < 2 ^ 32)
    (hlen : l.length < nlog) {b : ℕ} (hout : b < start ∨ start + nlog ≤ b) :
    replayed start (committed start new l x d) b = if b ∈ l then new b else d b := by
  rw [replayed, homes_committed hl hb, installWrites_committed, applyWrites_homeWrites, committed,
    Function.update_of_ne (by omega), applyWrites_slots_other List.prefix_rfl hlen (by omega)]

/-- From the committing write on all the new contents come back. -/
theorem replayed_after {ws : List (ℕ × Block)} (hl : l.length ≤ LOGSIZE)
    (hb : ∀ b ∈ l, b < 2 ^ 32) (hout : OutsideLog start nlog l) (hlen : l.length < nlog)
    (hws : ws <+: homeWrites new l ++ [(start, putHeader y [])]) :
    GoodLog start nlog (applyWrites ws (committed start new l x d)) ∧
      ∀ b, b < start ∨ start + nlog ≤ b →
        replayed start (applyWrites ws (committed start new l x d)) b = if b ∈ l then new b else d b := by
  have hg : GoodLog start nlog (committed start new l x d) := goodLog_committed hl hb hout hlen
  have hi : installWrites start (committed start new l x d) 0 (homes start (committed start new l x d))
      = homeWrites new l := by
    rw [homes_committed hl hb, installWrites_committed]
  rcases List.prefix_concat_iff.mp hws with rfl | hws
  · -- the header has been cleared again, so recovery has nothing left to install
    rw [applyWrites_append]
    have hz : leGet (applyWrites [(start, putHeader y [])]
        (applyWrites (homeWrites new l) (committed start new l x d)) start) 0 4 = 0 := by
      rw [applyWrites_cons, applyWrites_nil, Function.update_self]
      exact leGet_putHeader_nil _
    refine ⟨GoodLog.of_zero (Nat.zero_lt_of_lt hlen) hz, ?_⟩
    intro b hb'
    rw [replayed_of_zero hz, applyWrites_cons, applyWrites_nil, Function.update_of_ne (by omega), ← hi]
    exact replayed_committed hl hb hlen hb'
  · obtain ⟨hg', hr⟩ := replayed_prefix hg (hi ▸ hws)
    refine ⟨hg', ?_⟩
    intro b hb'
    rw [hr, replayed_committed hl hb hlen hb']

end Prefix

theorem commit_nil {s : IoState} (h : s.log.lh = []) : commit.emitted (ioStep me) ioEmit s = [] := by
  change (if 0 < s.log.lh.length then _ else (.ret () : IoM Unit)).emitted (ioStep me) ioEmit s = []
  rw [h]
  rfl

/-- The blocks that a crash after the writes `ws` of `commit` is recovered to. -/
theorem replayed_commit {s : IoState} {new : ℕ → Block} {ws : List (ℕ × Block)}
    (hz : leGet (s.disk s.log.start) 0 4 = 0) (hl : s.log.lh.length ≤ LOGSIZE)
    (hlen : s.log.lh.length < nlog) (hb : ∀ b ∈ s.log.lh, b < 2 ^ 32)
    (hout : OutsideLog s.log.start nlog s.log.lh) (hlog : Logged s.log.lh new s)
    (hws : ws <+: ioWrites me commit s) :
    GoodLog s.log.start nlog (applyWrites ws s.disk) ∧
      ∀ b, b < s.log.start ∨ s.log.start + nlog ≤ b →
        replayed s.log.start (applyWrites ws s.disk) b =
          if s.log.lh.length < ws.length ∧ b ∈ s.log.lh then new b else s.disk b := by
  by_cases hne : s.log.lh = []
  · -- `commit` does nothing
    have hnil : ws = [] := by
      rw [ioWrites, commit_nil hne] at hws
      exact List.prefix_nil.mp hws
    subst hnil
    refine ⟨GoodLog.of_zero (Nat.zero_lt_of_lt hlen) hz, ?_⟩
    intro b _
    rw [applyWrites_nil, replayed_of_zero hz]
    simp
  · obtain ⟨x, y, hE⟩ := commit_emits me hne hlog hout hlen
    have hpre : ws <+: commitWrites s.log.start new s.log.lh x y := hws.trans hE.1
    rcases prefix_append_cases hpre with h | ⟨vs, rfl, hvs⟩
    · obtain ⟨hg, hr⟩ := replayed_before hz hlen h
      have hle := h.length_le
      rw [length_slotWrites] at hle
      exact ⟨hg, fun b hb' => by rw [hr b hb', if_neg (by omega)]⟩
    · rcases List.prefix_cons_iff.mp hvs with rfl | ⟨us, rfl, hus⟩
      · -- exactly the slots have been written
        rw [List.append_nil]
        obtain ⟨hg, hr⟩ := replayed_before hz hlen
          (List.prefix_refl (slotWrites s.log.start new 0 s.log.lh))
        exact ⟨hg, fun b hb' => by rw [hr b hb', length_slotWrites, if_neg (by omega)]⟩
      · obtain ⟨hg, hr⟩ := replayed_after (x := x) (d := s.disk) hl hb hout hlen hus
        rw [applyWrites_append, applyWrites_cons]
        refine ⟨hg, fun b hb' => (hr b hb').trans ?_⟩
        rw [List.length_append, List.length_cons, length_slotWrites]
        simp [show s.log.lh.length < s.log.lh.length + (us.length + 1) by omega]

/-- Crash atomicity. `commit` is run on a disk with an empty log header, for the logged blocks
`lh`, all outside the log area, that the cache holds with contents `new`. The power fails when
`ws` has reached the disk, and again during each of the recoveries `cuts`. The recovery that is
not cut off returns with an empty header; outside the log area the disk is the old one if `ws`
ends before the committing write, which is write number `lh.length + 1`, and otherwise the old one
with all the logged blocks replaced. -/
theorem commit_crash_atomic (me nlog : ℕ) (s : IoState) (new : ℕ → Block)
    (hz : leGet (s.disk s.log.start) 0 4 = 0) (hl : s.log.lh.length ≤ LOGSIZE)
    (hlen : s.log.lh.length < nlog) (hb : ∀ b ∈ s.log.lh, b < 2 ^ 32)
    (hout : OutsideLog s.log.start nlog s.log.lh) (hlog : Logged s.log.lh new s)
    (ws : List (ℕ × Block)) (hws : ws <+: ioWrites me commit s) (cuts : List ℕ) :
    ∃ s', recoverFromLog.run (ioStep me) (boot s.log.start nlog
          (cuts.foldl (recoverCut me s.log.start nlog) (applyWrites ws s.disk))) = .done () s' ∧
      leGet (s'.disk s.log.start) 0 4 = 0 ∧
      ∀ b, b < s.log.start ∨ s.log.start + nlog ≤ b →
        s'.disk b = if s.log.lh.length < ws.length ∧ b ∈ s.log.lh then new b else s.disk b := by
  obtain ⟨hg, hr⟩ := replayed_commit hz hl hlen hb hout hlog hws
  obtain ⟨hg', hr'⟩ := replayed_recoverCuts me hg nlog cuts
  obtain ⟨s', hrun, hz', hdisk⟩ := recover_replays me hg' nlog
  refine ⟨s', hrun, hz', ?_⟩
  intro b hb'
  rw [hdisk b (by omega), hr' b (by omega), hr b hb']

/-- A zeroed disk and a cache that holds blocks 100 and 101, logged, with every byte 7 and 8. -/
def twoLogged : IoState where
  disk := fun _ _ => 0
  bcache := ⟨true, ROOTDEV, 100, none, 1, fun _ => 7⟩ :: ⟨true, ROOTDEV, 101, none, 1, fun _ => 8⟩ :: binit.tail.tail
  log := { start := 2, size := 31, outstanding := 0, committing := true, lh := [100, 101] }

theorem logged_twoLogged : Logged twoLogged.log.lh (fun b _ => if b = 100 then 7 else 8) twoLogged where
  distinct := by
    have hrest : ∀ y ∈ binit.tail.tail, ∀ b, ¬Buf.holds ROOTDEV b y := fun y hy b h => by
      obtain rfl := List.eq_of_mem_replicate (List.mem_of_mem_tail (List.mem_of_mem_tail hy))
      exact absurd h (by simp [Buf.holds])
    refine List.pairwise_cons.mpr ⟨fun y hy b h => ?_, List.pairwise_cons.mpr ⟨fun y hy b h => hrest y hy b h.2, ?_⟩⟩
    · rcases List.mem_cons.mp hy with rfl | hy
      · simp only [Buf.holds] at h
        grind
      · exact hrest y hy b h.2
    · exact (rested_boot 0 0 (fun _ _ => 0)).distinct.sublist ((List.tail_sublist _).trans (List.tail_sublist _))
  pinned := by
    intro b hb
    rcases List.mem_pair.mp hb with rfl | rfl <;> exact ⟨_, rfl, rfl, rfl, le_rfl⟩

/-- The power fails when the first of the two blocks is in its place, and again in three recoveries. -/
theorem commit_crash_atomic_twoLogged :
    (ioWrites 1 commit twoLogged).length = 6 ∧
      ∃ s', recoverFromLog.run (ioStep 1) (boot 2 31 ([0, 1, 0].foldl (recoverCut 1 2 31)
          (applyWrites ((ioWrites 1 commit twoLogged).take 4) twoLogged.disk))) = .done () s' ∧
        leGet (s'.disk 2) 0 4 = 0 ∧
        ∀ b, b < 2 ∨ 2 + 31 ≤ b → s'.disk b =
          if 2 < ((ioWrites 1 commit twoLogged).take 4).length ∧ b ∈ [100, 101] then fun _ => if b = 100 then 7 else 8
          else fun _ => 0 :=
  ⟨by decide, commit_crash_atomic 1 31 twoLogged (fun b _ => if b = 100 then 7 else 8) (by decide) (by decide) (by decide)
    (by decide) (by intro b hb; rcases List.mem_pair.mp hb with rfl | rfl <;> decide) logged_twoLogged _
    (List.take_prefix _ _) _⟩

end Xv6Arm

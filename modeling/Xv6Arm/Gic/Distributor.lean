import Mathlib

/-!
# The interrupt distributor

`gic_dist_switch` and `gic_dist_config` of `gic.c` read, change and write back
one word of three register arrays, with two bits, one bit and eight bits for
each interrupt. The mask for the two configuration bits is `~0x3 << bitoff`,
which has no ones below them, so the fields of all lower interrupts of the word
are cleared as well.
-/
namespace Xv6Arm.Gic

abbrev GICD_ISENABLERn : ℕ := 0x100
abbrev GICD_ITARGETSRn : ℕ := 0x800
abbrev GICD_ICFGRn : ℕ := 0xc00

/-- The registers of the distributor by their offset. -/
abbrev Regs := ℕ → BitVec 32

def gicDistSwitch (r : Regs) (num : ℕ) (enable : BitVec 32) : Regs :=
  let bitoff := num % 32
  let reg := GICD_ISENABLERn + num / 32 * 4
  if enable ≠ 0 then Function.update r reg (r reg ||| 1#32 <<< bitoff)
  else Function.update r reg (r reg &&& ~~~(1#32 <<< bitoff))

/-- The word of the configuration registers that `gic_dist_config` writes. -/
def cfgWord (val : BitVec 32) (bitoff : ℕ) (edge : BitVec 32) : BitVec 32 :=
  let val := val &&& (~~~3#32 <<< bitoff)
  if edge ≠ 0 then val ||| 2#32 <<< bitoff else val

def gicDistConfig (r : Regs) (num : ℕ) (edge target : BitVec 32) : Regs :=
  let cfg := GICD_ICFGRn + num / 16 * 4
  let r := Function.update r cfg (cfgWord (r cfg) (num % 16 * 2) edge)
  let r := gicDistSwitch r num 1
  let reg := GICD_ITARGETSRn + num / 4 * 4
  Function.update r reg (r reg ||| target <<< (num % 4 * 8))

/-! ## The fields of one interrupt -/

def configOf (r : Regs) (num : ℕ) : BitVec 2 := (r (GICD_ICFGRn + num / 16 * 4)).extractLsb' (num % 16 * 2) 2

def enabledOf (r : Regs) (num : ℕ) : Bool := (r (GICD_ISENABLERn + num / 32 * 4)).getLsbD (num % 32)

def targetOf (r : Regs) (num : ℕ) : BitVec 8 := (r (GICD_ITARGETSRn + num / 4 * 4)).extractLsb' (num % 4 * 8) 8

/-- The two bits for a trigger mode. -/
def modeBits (edge : BitVec 32) : BitVec 2 := if edge ≠ 0 then 2 else 0

/-- What is asked of a call for `num` that took the registers from `r` to `r'`. -/
structure ConfiguresOnly (r : Regs) (num : Fin 1020) (edge : BitVec 32) (r' : Regs) : Prop where
  mode : configOf r' num = modeBits edge
  enabled : enabledOf r' num = true
  config : ∀ j : Fin 1020, j ≠ num → configOf r' j = configOf r j
  enable : ∀ j : Fin 1020, j ≠ num → enabledOf r' j = enabledOf r j
  target : ∀ j : Fin 1020, j ≠ num → targetOf r' j = targetOf r j

/-- Nothing is lost by a call for `num`: the lower fields of its configuration word are clear, and the
bits of `target` above a byte, if there are any, are set already in the interrupts they belong to. -/
structure Harmless (r : Regs) (num : Fin 1020) (target : BitVec 32) : Prop where
  lower : ∀ j < num, j.val / 16 = num.val / 16 → configOf r j = 0
  above : ∀ j > num, j.val / 4 = num.val / 4 →
    targetOf r j ||| target.extractLsb' ((j - num.val) * 8) 8 = targetOf r j

/-! ## Words -/

theorem getLsbD_two (j : ℕ) : (2#32).getLsbD j = decide (j = 1) := by
  match j with
  | 0 => rfl
  | 1 => rfl
  | j + 2 => simp [BitVec.getLsbD_ofNat, Nat.testBit_succ]

theorem getLsbD_three (j : ℕ) : (3#32).getLsbD j = decide (j < 2) := by
  match j with
  | 0 => rfl
  | 1 => rfl
  | j + 2 => simp [BitVec.getLsbD_ofNat, Nat.testBit_succ]

theorem getLsbD_modeBits (edge : BitVec 32) (j : ℕ) :
    (modeBits edge).getLsbD j = (decide (j = 1) && decide (edge ≠ 0)) := by
  unfold modeBits
  split <;> rename_i h
  · match j with
    | 0 => simp
    | 1 => simpa using h
    | j + 2 => simp
  · simpa using fun _ => not_not.mp h

/-- The mask keeps the bits above the field, the new bit is the upper one of the field. -/
theorem getLsbD_cfgWord (val edge : BitVec 32) {k i : ℕ} (hi : i < 32) :
    (cfgWord val (k * 2) edge).getLsbD i =
      (decide (k < i / 2) && val.getLsbD i || decide (i = k * 2 + 1) && decide (edge ≠ 0)) := by
  have hmask : (~~~3#32 <<< (k * 2)).getLsbD i = decide (k < i / 2) := by
    rw [BitVec.getLsbD_shiftLeft, BitVec.getLsbD_not, getLsbD_three]
    by_cases h : k < i / 2 <;> simp [h] <;> omega
  have hnew : (2#32 <<< (k * 2)).getLsbD i = decide (i = k * 2 + 1) := by
    rw [BitVec.getLsbD_shiftLeft, getLsbD_two]
    by_cases h : i = k * 2 + 1
    · simp [h]
      omega
    · simp [h]
      omega
  unfold cfgWord
  split <;> rename_i h
  · rw [BitVec.getLsbD_or, BitVec.getLsbD_and, hmask, hnew, decide_eq_true h, Bool.and_true, Bool.and_comm]
  · rw [BitVec.getLsbD_and, hmask, decide_eq_false h, Bool.and_false, Bool.or_false, Bool.and_comm]

/-- Below the field everything is cleared; the field and what is above it are as they should be. -/
theorem extract_cfgWord (val edge : BitVec 32) {j k : ℕ} (hj : j < 16) :
    (cfgWord val (k * 2) edge).extractLsb' (j * 2) 2 =
      if j < k then 0 else if j = k then modeBits edge else val.extractLsb' (j * 2) 2 := by
  apply BitVec.eq_of_getLsbD_eq
  intro i hi
  rw [BitVec.getLsbD_extractLsb', getLsbD_cfgWord val edge (by omega)]
  have hdiv : (j * 2 + i) / 2 = j := by omega
  rw [hdiv, decide_eq_true hi, Bool.true_and]
  rcases lt_trichotomy j k with h | rfl | h
  · simp [h, Nat.not_lt_of_lt h]
    omega
  · simp [getLsbD_modeBits]
  · rw [if_neg (Nat.not_lt_of_lt h), if_neg h.ne', BitVec.getLsbD_extractLsb']
    simp [h, hi]
    omega

/-! ## What a call does to each field -/

theorem cfg_ne_enable (j num : Fin 1020) : GICD_ICFGRn + j.val / 16 * 4 ≠ GICD_ISENABLERn + num.val / 32 * 4 := by
  simp only [GICD_ICFGRn, GICD_ISENABLERn]
  omega

theorem cfg_ne_target (j num : Fin 1020) : GICD_ICFGRn + j.val / 16 * 4 ≠ GICD_ITARGETSRn + num.val / 4 * 4 := by
  simp only [GICD_ICFGRn, GICD_ITARGETSRn]
  omega

theorem target_ne_enable (j num : Fin 1020) :
    GICD_ITARGETSRn + j.val / 4 * 4 ≠ GICD_ISENABLERn + num.val / 32 * 4 := by
  simp only [GICD_ISENABLERn, GICD_ITARGETSRn]
  omega

section Fields
variable (r : Regs) (num j : Fin 1020) (edge target : BitVec 32)

theorem configOf_gicDistConfig :
    configOf (gicDistConfig r num edge target) j =
      if j.val / 16 = num.val / 16 ∧ j < num then 0 else if j = num then modeBits edge else configOf r j := by
  have hword : gicDistConfig r num edge target (GICD_ICFGRn + j.val / 16 * 4) =
      if j.val / 16 = num.val / 16 then cfgWord (r (GICD_ICFGRn + j.val / 16 * 4)) (num.val % 16 * 2) edge
      else r (GICD_ICFGRn + j.val / 16 * 4) := by
    simp only [gicDistConfig, gicDistSwitch]
    rw [if_pos (by decide), Function.update_of_ne (cfg_ne_target j num), Function.update_of_ne (cfg_ne_enable j num)]
    split <;> rename_i h
    · rw [h, Function.update_self]
    · rw [Function.update_of_ne (by omega)]
  rw [configOf, hword]
  by_cases hsame : j.val / 16 = num.val / 16
  · rw [if_pos hsame, extract_cfgWord _ _ (Nat.mod_lt _ (by norm_num))]
    have hlt : j.val % 16 < num.val % 16 ↔ j.val < num.val := by omega
    have heq : j.val % 16 = num.val % 16 ↔ j.val = num.val := by omega
    simp only [hlt, heq, hsame, true_and, Fin.lt_def, Fin.ext_iff]
    rw [configOf, hsame]
  · rw [if_neg hsame, if_neg (fun h => hsame h.1), if_neg (fun h => hsame (by rw [h]))]
    rfl

theorem enabledOf_gicDistConfig :
    enabledOf (gicDistConfig r num edge target) j = (decide (j = num) || enabledOf r j) := by
  have hword : gicDistConfig r num edge target (GICD_ISENABLERn + j.val / 32 * 4) =
      if j.val / 32 = num.val / 32 then r (GICD_ISENABLERn + j.val / 32 * 4) ||| 1#32 <<< (num.val % 32)
      else r (GICD_ISENABLERn + j.val / 32 * 4) := by
    simp only [gicDistConfig, gicDistSwitch]
    rw [if_pos (by decide), Function.update_of_ne (target_ne_enable num j).symm]
    split <;> rename_i h
    · rw [h, Function.update_self, Function.update_of_ne (cfg_ne_enable num num).symm]
    · rw [Function.update_of_ne (by omega), Function.update_of_ne (cfg_ne_enable num j).symm]
  rw [enabledOf, hword]
  by_cases hsame : j.val / 32 = num.val / 32
  · have hbit : (1#32 <<< (num.val % 32)).getLsbD (j.val % 32) = decide (j = num) := by
      rw [BitVec.getLsbD_shiftLeft, BitVec.getLsbD_one]
      by_cases h : j = num
      · simp [h, Nat.mod_lt]
      · have : j.val ≠ num.val := fun h' => h (Fin.ext h')
        simp [h]
        omega
    rw [if_pos hsame, BitVec.getLsbD_or, hbit, Bool.or_comm]
    rfl
  · rw [if_neg hsame, decide_eq_false (fun h => hsame (by rw [h])), Bool.false_or]
    rfl

theorem targetOf_gicDistConfig :
    targetOf (gicDistConfig r num edge target) j =
      if j.val / 4 = num.val / 4 ∧ num ≤ j then
        targetOf r j ||| target.extractLsb' ((j - num.val) * 8) 8
      else targetOf r j := by
  have hword : gicDistConfig r num edge target (GICD_ITARGETSRn + j.val / 4 * 4) =
      if j.val / 4 = num.val / 4 then r (GICD_ITARGETSRn + j.val / 4 * 4) ||| target <<< (num.val % 4 * 8)
      else r (GICD_ITARGETSRn + j.val / 4 * 4) := by
    simp only [gicDistConfig, gicDistSwitch]
    rw [if_pos (by decide)]
    split <;> rename_i h
    · rw [h, Function.update_self, Function.update_of_ne (target_ne_enable num num),
        Function.update_of_ne (cfg_ne_target num num).symm]
    · rw [Function.update_of_ne (by omega), Function.update_of_ne (target_ne_enable j num),
        Function.update_of_ne (cfg_ne_target num j).symm]
  rw [targetOf, hword]
  by_cases hsame : j.val / 4 = num.val / 4
  · rw [if_pos hsame]
    simp only [hsame, true_and, Fin.le_def]
    apply BitVec.eq_of_getLsbD_eq
    intro i hi
    rw [targetOf, hsame]
    have hlt : j.val % 4 * 8 + i < 32 := by omega
    rw [BitVec.getLsbD_extractLsb', BitVec.getLsbD_or, BitVec.getLsbD_shiftLeft, decide_eq_true hi, decide_eq_true hlt]
    split <;> rename_i h
    · have hoff : j.val % 4 * 8 + i - num.val % 4 * 8 = (j.val - num.val) * 8 + i := by omega
      have hge : ¬j.val % 4 * 8 + i < num.val % 4 * 8 := by omega
      rw [BitVec.getLsbD_or, BitVec.getLsbD_extractLsb', BitVec.getLsbD_extractLsb', hoff, decide_eq_false hge,
        decide_eq_true hi]
      simp
    · have hlow : j.val % 4 * 8 + i < num.val % 4 * 8 := by omega
      rw [BitVec.getLsbD_extractLsb', decide_eq_true hlow, decide_eq_true hi]
      simp
  · rw [if_neg hsame, if_neg (fun h => hsame h.1)]
    rfl

/-- Everything that a call for `num` should do and leave alone. -/
theorem configuresOnly_iff :
    ConfiguresOnly r num edge (gicDistConfig r num edge target) ↔ Harmless r num target := by
  constructor
  · intro h
    refine ⟨fun j hj hw => ?_, fun j hj hw => ?_⟩
    · rw [← h.config j hj.ne, configOf_gicDistConfig, if_pos ⟨hw, hj⟩]
    · have := h.target j hj.ne'
      rwa [targetOf_gicDistConfig, if_pos ⟨hw, hj.le⟩] at this
  · intro h
    refine ⟨?_, ?_, fun j hj => ?_, fun j hj => ?_, fun j hj => ?_⟩
    · rw [configOf_gicDistConfig, if_neg (fun h => lt_irrefl _ h.2), if_pos rfl]
    · rw [enabledOf_gicDistConfig, decide_eq_true rfl, Bool.true_or]
    · rw [configOf_gicDistConfig, if_neg hj]
      split <;> rename_i hlow
      · exact (h.lower j hlow.2 hlow.1).symm
      · rfl
    · rw [enabledOf_gicDistConfig, decide_eq_false hj, Bool.false_or]
    · rw [targetOf_gicDistConfig]
      split <;> rename_i hup
      · exact h.above j (lt_of_le_of_ne hup.2 hj.symm) hup.1
      · rfl

end Fields

/-! ## Sequences of calls -/

/-- The arguments of a call of `gic_dist_config`. -/
structure Call where
  num : Fin 1020
  edge : BitVec 32
  target : BitVec 32
  deriving DecidableEq

def Call.run (r : Regs) (c : Call) : Regs := gicDistConfig r c.num c.edge c.target

/-- What a call does to one register depends on this register only. -/
theorem Call.run_apply (r : Regs) (c : Call) (reg : ℕ) :
    c.run r reg = if reg = GICD_ITARGETSRn + c.num.val / 4 * 4 then r reg ||| c.target <<< (c.num.val % 4 * 8)
      else if reg = GICD_ISENABLERn + c.num.val / 32 * 4 then r reg ||| 1#32 <<< (c.num.val % 32)
      else if reg = GICD_ICFGRn + c.num.val / 16 * 4 then cfgWord (r reg) (c.num.val % 16 * 2) c.edge
      else r reg := by
  have h1 := cfg_ne_target c.num c.num
  have h2 := cfg_ne_enable c.num c.num
  have h3 := target_ne_enable c.num c.num
  simp only [Call.run, gicDistConfig, gicDistSwitch]
  rw [if_pos (by decide)]
  simp only [Function.update_apply]
  split
  · subst reg
    rw [if_neg h1.symm]
  · split
    · subst reg
      rw [if_neg h2.symm]
    · split
      · subst reg
        rfl
      · rfl

/-- Two fields of one word, the lower one level-triggered. -/
theorem cfgWord_comm (val edge : BitVec 32) {k m : ℕ} (h : k < m) :
    cfgWord (cfgWord val (k * 2) 0) (m * 2) edge = cfgWord (cfgWord val (m * 2) edge) (k * 2) 0 := by
  apply BitVec.eq_of_getLsbD_eq
  intro i hi
  simp only [getLsbD_cfgWord _ _ hi, ne_eq, not_true_eq_false, decide_false, Bool.and_false, Bool.or_false]
  by_cases hm : m < i / 2
  · have hk : k < i / 2 := h.trans hm
    simp [hm, hk]
  · by_cases hi : i = m * 2 + 1
    · have hk : k < i / 2 := by omega
      simp [hi, show k < (m * 2 + 1) / 2 by omega]
    · simp [hm, hi]

theorem Call.run_comm (r : Regs) {a b : Call} (hlt : a.num < b.num)
    (hlow : a.num.val / 16 = b.num.val / 16 → a.edge = 0) : b.run (a.run r) = a.run (b.run r) := by
  funext reg
  simp only [Call.run_apply, GICD_ICFGRn, GICD_ISENABLERn, GICD_ITARGETSRn]
  -- only a register of one array can be written by both
  split_ifs <;> first | omega | rfl | skip
  · rw [BitVec.or_assoc, BitVec.or_comm (_ <<< _), BitVec.or_assoc]
  · rw [BitVec.or_assoc, BitVec.or_comm (_ <<< _), BitVec.or_assoc]
  · rw [hlow (by omega)]
    exact cfgWord_comm _ _ (by omega)

def runAll (l : List Call) (r : Regs) : Regs := l.foldl Call.run r

/-- In no word does a lower edge-triggered interrupt stand below another one of the list. -/
def LowerLevel (l : List Call) : Prop :=
  ∀ a ∈ l, ∀ b ∈ l, a.num < b.num → a.num.val / 16 = b.num.val / 16 → a.edge = 0

theorem runAll_perm {l l' : List Call} (r : Regs) (hl : (l.map Call.num).Nodup) (hlow : LowerLevel l)
    (hp : l.Perm l') : runAll l' r = runAll l r := by
  refine (hp.foldl_eq' (fun a ha b hb r => ?_) r).symm
  rcases lt_trichotomy a.num b.num with h | h | h
  · exact Call.run_comm r h (hlow a ha b hb h)
  · rw [List.inj_on_of_nodup_map hl ha hb h]
  · exact (Call.run_comm r h (hlow b hb a ha h)).symm

/-- The last of two calls for one word decides what is left of the lower interrupt. -/
theorem edge_of_run_comm (r : Regs) {a b : Call} (hlt : a.num < b.num) (hw : a.num.val / 16 = b.num.val / 16)
    (h : b.run (a.run r) = a.run (b.run r)) : a.edge = 0 := by
  have hcfg := congrArg (configOf · a.num) h
  simp only [Call.run, configOf_gicDistConfig] at hcfg
  rw [if_pos ⟨hw, hlt⟩, if_neg (fun h => lt_irrefl _ h.2), if_pos trivial] at hcfg
  by_contra hne
  rw [modeBits, if_pos hne] at hcfg
  exact absurd hcfg (by decide)

theorem lowerLevel_of_perm {l : List Call} (r : Regs) (h : ∀ l', l.Perm l' → runAll l' r = runAll l r) :
    LowerLevel l := by
  intro a ha b hb hlt hw
  have hb' : b ∈ l.erase a := (List.mem_erase_of_ne (fun he => hlt.ne (by rw [he]))).mpr hb
  have hsplit : l.Perm (((l.erase a).erase b) ++ [a, b]) :=
    ((List.perm_cons_erase ha).trans ((List.perm_cons_erase hb').cons a)).trans
      (@List.perm_append_comm _ [a, b] _)
  have hswap : l.Perm (((l.erase a).erase b) ++ [b, a]) :=
    hsplit.trans ((List.Perm.swap b a []).append_left _)
  refine edge_of_run_comm (runAll ((l.erase a).erase b) r) hlt hw ?_
  have := (h _ hsplit).trans (h _ hswap).symm
  simpa [runAll] using this

/-- A call does what is asked of it, and nothing else, exactly if the lower fields of its configuration word
are clear (and `target` has no new bits above its byte). Calls for distinct interrupts can be reordered
exactly if no edge-triggered interrupt has a higher one in its configuration word. -/
theorem gic_config_alone_iff (r : Regs) (num : Fin 1020) (edge target : BitVec 32) (l : List Call)
    (hl : (l.map Call.num).Nodup) :
    (ConfiguresOnly r num edge (gicDistConfig r num edge target) ↔ Harmless r num target) ∧
      ((∀ l', l.Perm l' → runAll l' r = runAll l r) ↔ LowerLevel l) :=
  ⟨configuresOnly_iff r num edge target, lowerLevel_of_perm r, fun hlow _ hp => runAll_perm r hl hlow hp⟩

/-- The calls of `gic_init`. -/
def gicInit : List Call := [⟨30, 0, 1⟩, ⟨33, 0, 0x11⟩, ⟨48, 1, 0x11⟩]

theorem gic_config_alone_iff_init : runAll gicInit.reverse (fun _ => 0) = runAll gicInit fun _ => 0 := by
  refine (gic_config_alone_iff (fun _ => 0) 30 0 1 gicInit (by decide)).2.mpr ?_ _ (List.reverse_perm _).symm
  unfold LowerLevel gicInit
  decide

/-- Interrupt 33 is edge-triggered; configuring 34 makes it level-triggered. -/
theorem gic_config_clears_lower :
    let r : Regs := fun _ => 0x8
    configOf r 33 = 2 ∧ configOf (gicDistConfig r 34 1 1) 33 = 0 ∧
      ¬ConfiguresOnly r 34 1 (gicDistConfig r 34 1 1) ∧
      runAll [⟨33, 1, 1⟩, ⟨34, 1, 1⟩] r ≠ runAll [⟨34, 1, 1⟩, ⟨33, 1, 1⟩] r := by
  refine ⟨by decide, by decide, fun h => ?_, fun h => ?_⟩
  · exact absurd (h.config 33 (by decide)) (by decide)
  · exact absurd (congrArg (configOf · 33) h) (by decide)

end Xv6Arm.Gic

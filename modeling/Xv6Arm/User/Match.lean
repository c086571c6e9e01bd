import Mathlib

/-!
# The matcher of `grep`

`match`, `matchhere` and `matchstar` of `grep.c`. A string in memory is given by
its characters before the NUL, and a pointer into it by the characters from
there on. A pattern is read as a list of items, each of which stands for a
language; the matcher decides whether the text has a part in their product.
-/
namespace Xv6Arm.Grep

abbrev Str := List UInt8

abbrev caret : UInt8 := '^'.toUInt8
abbrev dot : UInt8 := '.'.toUInt8
abbrev star : UInt8 := '*'.toUInt8
abbrev dollar : UInt8 := '$'.toUInt8

/-- `matchstar`: search for `c*re` at the beginning of the text, where `here` is the search for `re`. -/
def matchstar (here : Str → Bool) (c : UInt8) : Str → Bool
  | [] => here []
  | t :: text => here (t :: text) || (t == c || c == dot) && matchstar here c text

/-- The last test of `matchhere`: one character, and then the search for what follows it in the pattern. -/
def matchone (here : Str → Bool) (c : UInt8) : Str → Bool
  | [] => false
  | t :: text => (c == dot || c == t) && here text

/-- `matchhere`: search for `re` at the beginning of the text. -/
def matchhere : Str → Str → Bool
  | [], _ => true
  | [c], text => if c == dollar then text.isEmpty else matchone (matchhere []) c text
  | c :: d :: re, text =>
    if d == star then matchstar (matchhere re) c text else matchone (matchhere (d :: re)) c text

/-- The loop of `match`, which looks at the empty rest of the text as well. -/
def matchFrom (re : Str) : Str → Bool
  | [] => matchhere re []
  | t :: text => matchhere re (t :: text) || matchFrom re text

/-- `match`. -/
def matchRe (re text : Str) : Bool :=
  if re.head? = some caret then matchhere re.tail text else matchFrom re text

/-! ## Patterns -/

/-- One character, or any number of them; the dot stands for every character. -/
inductive Item where
  | one (c : UInt8)
  | many (c : UInt8)

def Item.accepts (c t : UInt8) : Prop := c = dot ∨ c = t

/-- The strings of one character that `c` stands for. -/
def single (c : UInt8) : Language UInt8 := {w | ∃ t, Item.accepts c t ∧ w = [t]}

def Item.lang : Item → Language UInt8
  | .one c => single c
  | .many c => KStar.kstar (single c)

/-- What a pattern asks for. -/
structure Pattern where
  anchored : Bool
  items : List Item
  atEnd : Bool

/-- The items of a pattern, read from the left, and whether it ends with a `$` of its own. -/
def readItems : Str → List Item × Bool
  | [] => ([], false)
  | [c] => if c = dollar then ([], true) else ([.one c], false)
  | c :: d :: re =>
    if d = star then (.many c :: (readItems re).1, (readItems re).2)
    else (.one c :: (readItems (d :: re)).1, (readItems (d :: re)).2)

def Pattern.read (re : Str) : Pattern :=
  let rest := if re.head? = some caret then re.tail else re
  ⟨decide (re.head? = some caret), (readItems rest).1, (readItems rest).2⟩

def langOf (items : List Item) : Language UInt8 := (items.map Item.lang).prod

/-- Some part of the text, at its beginning or its end if asked for, is a concatenation of strings that the
items stand for. -/
def Pattern.Matches (p : Pattern) (text : Str) : Prop :=
  ∃ pre mid post, text = pre ++ mid ++ post ∧ (p.anchored → pre = []) ∧ (p.atEnd → post = []) ∧ mid ∈ langOf p.items

/-! ## Languages of items -/

theorem mem_single {c : UInt8} {w : Str} : w ∈ single c ↔ ∃ t, Item.accepts c t ∧ w = [t] := Iff.rfl

theorem mem_many {c : UInt8} {w : Str} : w ∈ Item.lang (.many c) ↔ ∀ t ∈ w, Item.accepts c t := by
  rw [Item.lang, Language.mem_kstar]
  constructor
  · rintro ⟨L, rfl, hL⟩ t ht
    obtain ⟨w, hw, ht⟩ := List.mem_flatten.mp ht
    obtain ⟨t', ha, rfl⟩ := mem_single.mp (hL w hw)
    rwa [List.mem_singleton.mp ht]
  · intro h
    refine ⟨w.map fun t => [t], ?_, ?_⟩
    · induction w with
      | nil => rfl
      | cons t w ih =>
        rw [List.map_cons, List.flatten_cons, ← ih fun t ht => h t (List.mem_cons_of_mem _ ht)]
        rfl
    · intro y hy
      obtain ⟨t, ht, rfl⟩ := List.mem_map.mp hy
      exact ⟨t, h t ht, rfl⟩

theorem mem_langOf_cons {i : Item} {items : List Item} {w : Str} :
    w ∈ langOf (i :: items) ↔ ∃ a ∈ i.lang, ∃ b ∈ langOf items, a ++ b = w := by
  rw [langOf, List.map_cons, List.prod_cons, Language.mem_mul]
  rfl

/-! ## Correctness -/

/-- The text begins with a concatenation of strings for the items, which is all of it if `atEnd`. -/
def StartsWith (p : List Item × Bool) (text : Str) : Prop :=
  ∃ mid post, text = mid ++ post ∧ (p.2 → post = []) ∧ mid ∈ langOf p.1

theorem matchstar_iff (here : Str → Bool) (c : UInt8) (text : Str) :
    matchstar here c text ↔ ∃ w rest, text = w ++ rest ∧ (∀ t ∈ w, Item.accepts c t) ∧ here rest := by
  induction text with
  | nil =>
    constructor
    · exact fun h => ⟨[], [], rfl, by simp, h⟩
    · rintro ⟨w, rest, he, -, h⟩
      obtain ⟨rfl, rfl⟩ := List.append_eq_nil_iff.mp he.symm
      exact h
  | cons t text ih =>
    rw [matchstar, Bool.or_eq_true, Bool.and_eq_true, ih]
    have haccept : (t == c || c == dot) = true ↔ Item.accepts c t := by
      rw [Bool.or_eq_true, beq_iff_eq, beq_iff_eq, Item.accepts, or_comm, eq_comm (a := t)]
    rw [haccept]
    constructor
    · rintro (h | ⟨ha, w, rest, rfl, hw, h⟩)
      · exact ⟨[], _, rfl, by simp, h⟩
      · exact ⟨t :: w, rest, rfl, List.forall_mem_cons.mpr ⟨ha, hw⟩, h⟩
    · rintro ⟨w, rest, he, hw, h⟩
      cases w with
      | nil =>
        rw [List.nil_append] at he
        exact .inl (he ▸ h)
      | cons t' w =>
        obtain ⟨rfl, rfl⟩ := List.cons.inj he
        obtain ⟨ha, hw⟩ := List.forall_mem_cons.mp hw
        exact .inr ⟨ha, w, rest, rfl, hw, h⟩

theorem matchone_iff (here : Str → Bool) (c : UInt8) (text : Str) :
    matchone here c text ↔ ∃ t rest, text = t :: rest ∧ Item.accepts c t ∧ here rest := by
  cases text with
  | nil => simp [matchone]
  | cons t text =>
    rw [matchone, Bool.and_eq_true, Bool.or_eq_true, beq_iff_eq, beq_iff_eq]
    constructor
    · exact fun ⟨ha, h⟩ => ⟨t, text, rfl, ha, h⟩
    · rintro ⟨t', rest, he, ha, h⟩
      obtain ⟨rfl, rfl⟩ := List.cons.inj he
      exact ⟨ha, h⟩

/-- An item in front: a string for it and then the rest. -/
theorem startsWith_cons {i : Item} {p : List Item × Bool} {text : Str} :
    StartsWith (i :: p.1, p.2) text ↔ ∃ w rest, text = w ++ rest ∧ w ∈ i.lang ∧ StartsWith p rest := by
  constructor
  · rintro ⟨mid, post, rfl, hend, hmid⟩
    obtain ⟨a, ha, b, hb, rfl⟩ := mem_langOf_cons.mp hmid
    exact ⟨a, b ++ post, List.append_assoc .., ha, b, post, rfl, hend, hb⟩
  · rintro ⟨w, rest, rfl, hw, mid, post, rfl, hend, hmid⟩
    exact ⟨w ++ mid, post, (List.append_assoc ..).symm, hend, mem_langOf_cons.mpr ⟨w, hw, mid, hmid, rfl⟩⟩

theorem startsWith_many {c : UInt8} {p : List Item × Bool} {text : Str} {here : Str → Bool}
    (h : ∀ text, here text ↔ StartsWith p text) :
    matchstar here c text ↔ StartsWith (.many c :: p.1, p.2) text := by
  rw [matchstar_iff, startsWith_cons]
  simp only [mem_many, h]

theorem startsWith_one {c : UInt8} {p : List Item × Bool} {text : Str} {here : Str → Bool}
    (h : ∀ text, here text ↔ StartsWith p text) :
    matchone here c text ↔ StartsWith (.one c :: p.1, p.2) text := by
  rw [matchone_iff, startsWith_cons]
  constructor
  · rintro ⟨t, rest, rfl, ha, hr⟩
    exact ⟨[t], rest, rfl, ⟨t, ha, rfl⟩, (h rest).mp hr⟩
  · rintro ⟨w, rest, rfl, ⟨t, ha, rfl⟩, hr⟩
    exact ⟨t, rest, rfl, ha, (h rest).mpr hr⟩

theorem startsWith_nil (text : Str) : StartsWith ([], false) text :=
  ⟨[], text, rfl, by simp, rfl⟩

theorem matchhere_iff (re text : Str) : matchhere re text ↔ StartsWith (readItems re) text := by
  induction re using readItems.induct generalizing text with
  | case1 => simpa [matchhere, readItems] using startsWith_nil text
  | case2 =>
    rw [matchhere, readItems, if_pos rfl, if_pos (beq_self_eq_true _), List.isEmpty_iff]
    constructor
    · rintro rfl
      exact ⟨[], [], rfl, fun _ => rfl, rfl⟩
    · rintro ⟨mid, post, rfl, hend, rfl⟩
      exact hend rfl
  | case3 c hc =>
    rw [matchhere, readItems, if_neg hc, if_neg (by simpa using hc)]
    exact startsWith_one (p := ([], false)) fun text => by simpa [matchhere] using startsWith_nil text
  | case4 c re ih =>
    rw [matchhere, readItems, if_pos rfl, if_pos (beq_self_eq_true _)]
    exact startsWith_many ih
  | case5 c d re hd ih =>
    rw [matchhere, readItems, if_neg hd, if_neg (by simpa using hd)]
    exact startsWith_one ih

theorem matchFrom_iff (re text : Str) :
    matchFrom re text ↔ ∃ pre rest, text = pre ++ rest ∧ StartsWith (readItems re) rest := by
  induction text with
  | nil =>
    rw [matchFrom, matchhere_iff]
    constructor
    · exact fun h => ⟨[], [], rfl, h⟩
    · rintro ⟨pre, rest, he, h⟩
      obtain ⟨rfl, rfl⟩ := List.append_eq_nil_iff.mp he.symm
      exact h
  | cons t text ih =>
    rw [matchFrom, Bool.or_eq_true, matchhere_iff, ih]
    constructor
    · rintro (h | ⟨pre, rest, rfl, h⟩)
      · exact ⟨[], _, rfl, h⟩
      · exact ⟨t :: pre, rest, rfl, h⟩
    · rintro ⟨pre, rest, he, h⟩
      cases pre with
      | nil =>
        rw [List.nil_append] at he
        exact .inl (he ▸ h)
      | cons t' pre =>
        obtain ⟨rfl, rfl⟩ := List.cons.inj he
        exact .inr ⟨pre, rest, rfl, h⟩

/-- The matcher decides whether the pattern matches the text. -/
theorem matchRe_iff (re text : Str) : matchRe re text = true ↔ (Pattern.read re).Matches text := by
  unfold matchRe Pattern.read Pattern.Matches
  by_cases h : re.head? = some caret
  · simp only [h, if_true, decide_true, forall_const, matchhere_iff]
    constructor
    · rintro ⟨mid, post, rfl, hend, hmid⟩
      exact ⟨[], mid, post, rfl, rfl, hend, hmid⟩
    · rintro ⟨pre, mid, post, rfl, rfl, hend, hmid⟩
      exact ⟨mid, post, rfl, hend, hmid⟩
  · simp only [h, if_false, decide_false, Bool.false_eq_true, false_implies, true_and, matchFrom_iff]
    constructor
    · rintro ⟨pre, rest, rfl, mid, post, rfl, hend, hmid⟩
      exact ⟨pre, mid, post, (List.append_assoc ..).symm, hend, hmid⟩
    · rintro ⟨pre, mid, post, rfl, hend, hmid⟩
      exact ⟨pre, mid ++ post, List.append_assoc .., mid, post, rfl, hend, hmid⟩

/-- The bytes of an ASCII string. -/
def ascii (s : String) : Str := s.toList.map Char.toUInt8

example : matchRe (ascii "^a*$") (ascii "aaa") = true := by decide
example : matchRe (ascii "b.*$") (ascii "ab") = true := by decide
example : matchRe (ascii "a$b") (ascii "ab") = false := by decide

end Xv6Arm.Grep

import Xv6Arm.User.Match
import Xv6Arm.Libc.Memmove
import Xv6Arm.Lib.Lines

/-!
# The loop of `grep`

`grep` of `grep.c` reads into a buffer of 1024 bytes, looks for complete lines in
it, writes those that match and moves the line that is still open to the front.
When 1023 bytes of one line are in the buffer there is no room to read more; the
`read` of no bytes returns 0, which `grep` takes for the end of the input.

Pointers into `buf` are offsets from its start. A scan that ran past the end of
the buffer would be the outcome `none`.
-/
namespace Xv6Arm
open Lib

/-- `strchr` over at most `n` bytes: `none` if no NUL is among them before the character is found. -/
def Ulib.strchr (f : Bytes) (c : UInt8) : ℕ → ℕ → Option (Option ℕ)
  | 0, _ => none
  | n + 1, s => if f s = 0 then some none else if f s = c then some (some s) else strchr f c n (s + 1)

/-- The string at `s`, if there is a NUL among the next `n` bytes. -/
def cstr (f : Bytes) : ℕ → ℕ → Option (List UInt8)
  | 0, _ => none
  | n + 1, s => if f s = 0 then some [] else (cstr f n (s + 1)).map (f s :: ·)

namespace Grep

abbrev newline : UInt8 := '\n'.toUInt8
abbrev bufSize : ℕ := 1024

/-- `read` with `asked` bytes of room: what comes next of the input, at least one byte and at most `asked`.
How much it is depends on `split`, which is given what is left of the input. -/
def readChunk (split : ℕ → ℕ) (rest : Str) (asked : ℕ) : Str :=
  rest.take (min (max 1 (split rest.length)) asked)

/-- The inner loop of `grep` at `p`, for at most `n` lines: the buffer and `p` after it, and what was written. -/
def scanLines (pattern : Str) : ℕ → Bytes → ℕ → Option (Bytes × ℕ × List Str)
  | 0, _, _ => none
  | n + 1, f, p => do
    match ← Ulib.strchr f newline (bufSize - p) p with
    | none => pure (f, p, [])
    | some q => do
      let f := Function.update f q 0
      let text ← cstr f (bufSize - p) p
      if matchRe pattern text then
        let f := Function.update f q newline
        let (f', p', out) ← scanLines pattern n f (q + 1)
        pure (f', p', getBytes f p (q + 1 - p) :: out)
      else scanLines pattern n f (q + 1)

/-- The outer loop of `grep` for at most `n` reads, with `m` bytes in the buffer: what is written. -/
def grepLoop (pattern : Str) (split : ℕ → ℕ) : ℕ → Bytes → ℕ → Str → Option (List Str)
  | 0, _, _, _ => none
  | n + 1, f, m, rest =>
    if bufSize ≤ m then none
    else
      let chunk := readChunk split rest (bufSize - m - 1)
      if chunk = [] then some []
      else do
        let f := putBytes f m chunk
        let m := m + chunk.length
        let f := Function.update f m 0
        let (f, p, out) ← scanLines pattern bufSize f 0
        let (f, m) := if 0 < m then ((Ulib.memmove f 0 p (m - p : ℕ)).2, m - p) else (f, m)
        let more ← grepLoop pattern split n f m (rest.drop chunk.length)
        pure (out ++ more)

/-- `grep` on an input, with the buffer of zeros that the program starts with. -/
def grep (pattern : Str) (split : ℕ → ℕ) (input : Str) : Option (List Str) :=
  grepLoop pattern split (input.length + 1) (fun _ => 0) 0 input

/-! ## Strings in the buffer -/

/-- The bytes from `p` on are those of `l`. -/
def At (f : Bytes) (p : ℕ) (l : Str) : Prop := ∀ i < l.length, f (p + i) = l.getD i 0

section Memory
variable {f g : Bytes} {p n : ℕ} {a b l : Str} {c : UInt8}

theorem At.congr (h : At f p l) (hg : ∀ x, p ≤ x → x < p + l.length → g x = f x) : At g p l := by
  intro i hi
  rw [hg (p + i) (by omega) (by omega), h i hi]

theorem At.head (h : At f p (c :: l)) : f p = c := h 0 (by simp)

theorem At.tail (h : At f p (c :: l)) : At f (p + 1) l := by
  intro i hi
  have := h (i + 1) (by simpa using hi)
  rwa [Nat.add_assoc, Nat.add_comm 1 i]

theorem At.right (h : At f p (a ++ b)) : At f (p + a.length) b := by
  intro i hi
  have := h (a.length + i) (by simpa using hi)
  rwa [← Nat.add_assoc, List.getD_append_right _ _ _ _ (by omega), Nat.add_sub_cancel_left] at this

theorem At.left (h : At f p (a ++ b)) : At f p a := by
  intro i hi
  rw [h i (by rw [List.length_append]; omega), List.getD_append _ _ _ _ hi]

theorem At.append (ha : At f p a) (hb : At f (p + a.length) b) : At f p (a ++ b) := by
  intro i hi
  by_cases hlt : i < a.length
  · rw [ha i hlt, List.getD_append _ _ _ _ hlt]
  · rw [List.length_append] at hi
    have := hb (i - a.length) (by omega)
    rw [List.getD_append_right _ _ _ _ (by omega), ← this]
    congr 1
    omega

theorem At.getBytes_eq (h : At f p l) : getBytes f p l.length = l := by
  apply List.ext_getElem (by simp)
  intro i hi hl
  have := h i hl
  rw [List.getD_eq_getElem _ _ hl] at this
  simpa [getBytes] using this

theorem strchr_found (ha : At f p (a ++ [c])) (hc : c ∉ a) (h0 : 0 ∉ a) (hc0 : c ≠ 0) (hn : a.length < n) :
    Ulib.strchr f c n p = some (some (p + a.length)) := by
  induction a generalizing p n with
  | nil =>
    obtain ⟨n, rfl⟩ : ∃ m, n = m + 1 := ⟨n - 1, by omega⟩
    rw [Ulib.strchr, ha.head, if_neg hc0, if_pos rfl]
    rfl
  | cons x a ih =>
    obtain ⟨n, rfl⟩ : ∃ m, n = m + 1 := ⟨n - 1, by omega⟩
    obtain ⟨hcx, hca⟩ := not_or.mp (List.mem_cons.not.mp hc)
    obtain ⟨h0x, h0a⟩ := not_or.mp (List.mem_cons.not.mp h0)
    rw [List.cons_append] at ha
    rw [Ulib.strchr, ha.head, if_neg (Ne.symm h0x), if_neg (Ne.symm hcx), ih ha.tail hca h0a (by simpa using hn),
      List.length_cons]
    congr 2
    omega

theorem strchr_none (ha : At f p (a ++ [0])) (hc : c ∉ a) (h0 : 0 ∉ a) (hn : a.length < n) :
    Ulib.strchr f c n p = some none := by
  induction a generalizing p n with
  | nil =>
    obtain ⟨n, rfl⟩ : ∃ m, n = m + 1 := ⟨n - 1, by omega⟩
    rw [Ulib.strchr, ha.head, if_pos rfl]
  | cons x a ih =>
    obtain ⟨n, rfl⟩ : ∃ m, n = m + 1 := ⟨n - 1, by omega⟩
    obtain ⟨hcx, hca⟩ := not_or.mp (List.mem_cons.not.mp hc)
    obtain ⟨h0x, h0a⟩ := not_or.mp (List.mem_cons.not.mp h0)
    rw [List.cons_append] at ha
    rw [Ulib.strchr, ha.head, if_neg (Ne.symm h0x), if_neg (Ne.symm hcx), ih ha.tail hca h0a (by simpa using hn)]

theorem cstr_eq (ha : At f p (a ++ [0])) (h0 : 0 ∉ a) (hn : a.length < n) : cstr f n p = some a := by
  induction a generalizing p n with
  | nil =>
    obtain ⟨n, rfl⟩ : ∃ m, n = m + 1 := ⟨n - 1, by omega⟩
    rw [cstr, ha.head, if_pos rfl]
  | cons x a ih =>
    obtain ⟨n, rfl⟩ : ∃ m, n = m + 1 := ⟨n - 1, by omega⟩
    obtain ⟨h0x, h0a⟩ := not_or.mp (List.mem_cons.not.mp h0)
    rw [List.cons_append] at ha
    rw [cstr, ha.head, if_neg (Ne.symm h0x), ih ha.tail h0a (by simpa using hn)]
    rfl

end Memory

/-! ## One buffer of lines -/

/-- What is written for a list of lines. -/
def written (pattern : Str) (lines : List Str) : List Str :=
  (lines.filter fun l => matchRe pattern l).map (· ++ [newline])

theorem written_append (pattern : Str) (L L' : List Str) :
    written pattern (L ++ L') = written pattern L ++ written pattern L' := by
  simp [written]

/-- The inner loop writes the lines that match and stops at the line that is still open. -/
theorem scanLines_eq (pattern : Str) {l : Str} {n : ℕ} {f : Bytes} {p : ℕ} (hl : At f p (l ++ [0])) (h0 : 0 ∉ l)
    (hroom : p + l.length < bufSize) (hn : l.length < n) :
    ∃ g q, scanLines pattern n f p = some (g, q, written pattern (linesFrom newline [] l)) ∧
      q + (openLine newline [] l).length = p + l.length ∧ At g q (openLine newline [] l) := by
  induction n generalizing f p l with
  | zero => exact absurd hn (Nat.not_lt_zero _)
  | succ n ih =>
    by_cases hnl : newline ∈ l
    · obtain ⟨a, b, rfl, hna⟩ := List.eq_append_cons_of_mem hnl
      have ha0 : 0 ∉ a := fun h => h0 (List.mem_append_left _ h)
      have hb0 : 0 ∉ b := fun h => h0 (List.mem_append_right _ (List.mem_cons_of_mem _ h))
      rw [List.length_append, List.length_cons] at hroom hn
      have hline : At f p (a ++ [newline]) := by
        rw [List.append_assoc, List.cons_append, ← List.singleton_append, ← List.append_assoc] at hl
        exact hl.left
      have hrest : At f (p + a.length + 1) (b ++ [0]) := by
        rw [List.append_assoc, List.cons_append] at hl
        exact hl.right.tail
      have hfound := @strchr_found f p (bufSize - p) a newline hline hna ha0 (by decide) (by omega)
      have hclosed : At (Function.update f (p + a.length) 0) p (a ++ [0]) := by
        refine (hline.left.congr fun x _ hx => ?_).append fun i hi => ?_
        · exact Function.update_of_ne (by omega) ..
        · obtain rfl : i = 0 := by simpa using hi
          simp
      -- the rest of the buffer, whether or not the newline has been put back
      have hnext : ∀ c, ∃ g q, scanLines pattern n (Function.update f (p + a.length) c) (p + a.length + 1) =
            some (g, q, written pattern (linesFrom newline [] b)) ∧
          q + (openLine newline [] b).length = p + a.length + 1 + b.length ∧ At g q (openLine newline [] b) := by
        intro c
        refine ih (hrest.congr fun x hx _ => Function.update_of_ne (by omega) ..) hb0 (by omega) (by omega)
      rw [scanLines, hfound, linesFrom_line hna, openLine_line hna, List.nil_append, List.length_append,
        List.length_cons]
      simp only [Option.bind_eq_bind, Option.bind_some, cstr_eq hclosed ha0 (show a.length < bufSize - p by omega)]
      by_cases hmatch : matchRe pattern a
      · obtain ⟨g, q, hg, hq, hat⟩ := hnext newline
        rw [if_pos hmatch, Function.update_idem, hg]
        have hwrite : getBytes (Function.update f (p + a.length) newline) p (p + a.length + 1 - p) = a ++ [newline] := by
          have hup : Function.update f (p + a.length) newline = f := by
            rw [Function.update_eq_self_iff]
            exact hline.right.head.symm
          have hlen : p + a.length + 1 - p = (a ++ [newline]).length := by
            rw [List.length_append, List.length_singleton]
            omega
          rw [hup, hlen]
          exact hline.getBytes_eq
        refine ⟨g, q, ?_, by omega, hat⟩
        simp [written, hmatch, hwrite]
      · obtain ⟨g, q, hg, hq, hat⟩ := hnext 0
        rw [if_neg hmatch, hg]
        refine ⟨g, q, ?_, by omega, hat⟩
        simp [written, hmatch]
    · have hnone := @strchr_none f p (bufSize - p) l newline hl hnl h0 (by omega)
      rw [scanLines, hnone, linesFrom_open hnl, openLine_open hnl]
      exact ⟨f, p, rfl, rfl, hl.left⟩

/-! ## The whole input -/

/-- A line that fits into the buffer with its newline. -/
def fits (l : Str) : Bool := decide (l.length + 1 < bufSize)

theorem takeWhile_fits (L L' : List Str) (h : ∀ l ∈ L, fits l) : (L ++ L').takeWhile fits = L ++ L'.takeWhile fits :=
  List.takeWhile_append_of_pos h

theorem readChunk_append (split : ℕ → ℕ) (rest : Str) (asked : ℕ) :
    readChunk split rest asked ++ rest.drop (readChunk split rest asked).length = rest := by
  unfold readChunk
  generalize min (max 1 (split rest.length)) asked = k
  rw [List.length_take]
  by_cases h : k ≤ rest.length
  · rw [min_eq_left h, List.take_append_drop]
  · rw [List.take_of_length_le (by omega), min_eq_right (by omega), List.drop_length, List.append_nil]

theorem length_readChunk_le (split : ℕ → ℕ) (rest : Str) (asked : ℕ) :
    (readChunk split rest asked).length ≤ asked := by
  rw [readChunk, List.length_take]
  omega

theorem readChunk_eq_nil {split : ℕ → ℕ} {rest : Str} {asked : ℕ} :
    readChunk split rest asked = [] ↔ rest = [] ∨ asked = 0 := by
  have h : min (max 1 (split rest.length)) asked = 0 ↔ asked = 0 := by omega
  rw [readChunk, List.take_eq_nil_iff, h, or_comm]

/-- The buffer after a read, with the NUL behind what is in it. -/
theorem At.read {f : Bytes} {acc : Str} (h : At f 0 acc) (chunk : Str) :
    At (Function.update (putBytes f acc.length chunk) (acc.length + chunk.length) 0) 0 (acc ++ chunk ++ [0]) := by
  refine (At.append (h.congr fun x _ hx => ?_) fun i hi => ?_).append fun i hi => ?_
  · rw [Function.update_of_ne (by omega), putBytes_outside (by omega)]
  · rw [Nat.zero_add, Function.update_of_ne (by omega), putBytes_inside hi]
  · obtain rfl : i = 0 := by simpa using hi
    simp

theorem openLine_mem {c : UInt8} (acc s : Str) (h : c ∈ openLine newline acc s) : c ∈ acc ++ s := by
  induction s generalizing acc with
  | nil => simpa [openLine] using h
  | cons x s ih =>
    rw [openLine] at h
    split at h
    · have := ih [] h
      simp at this
      simp [this]
    · simpa using ih _ h

/-- From a buffer that holds the open line `acc`, `grep` writes the lines that match, up to the first one that
does not fit. -/
theorem grepLoop_eq (pattern : Str) (split : ℕ → ℕ) {n : ℕ} {f : Bytes} {acc rest : Str} (hf : At f 0 acc)
    (hacc : acc.length < bufSize) (hnl : newline ∉ acc) (h0 : 0 ∉ acc) (hr : 0 ∉ rest) (hn : rest.length < n) :
    grepLoop pattern split n f acc.length rest =
      some (written pattern ((linesFrom newline acc rest).takeWhile fits)) := by
  induction n generalizing f acc rest with
  | zero => exact absurd hn (Nat.not_lt_zero _)
  | succ n ih =>
    rw [grepLoop, if_neg (by omega)]
    by_cases hnil : readChunk split rest (bufSize - acc.length - 1) = []
    · rw [if_pos hnil]
      rcases readChunk_eq_nil.mp hnil with rfl | hfull
      · rfl
      · -- the buffer is full of one line
        cases hL : linesFrom newline acc rest with
        | nil => rfl
        | cons l L =>
          have hlen := length_le_of_linesFrom rest hL
          rw [List.takeWhile_cons_of_neg]
          · rfl
          · simp only [fits, decide_eq_true_eq]
            omega
    · rw [if_neg hnil]
      have happ := readChunk_append split rest (bufSize - acc.length - 1)
      have hlen := length_readChunk_le split rest (bufSize - acc.length - 1)
      generalize readChunk split rest (bufSize - acc.length - 1) = chunk at *
      generalize rest.drop chunk.length = rest' at *
      subst happ
      have hpos : 0 < chunk.length := List.length_pos_iff.mpr hnil
      have hl0 : 0 ∉ acc ++ chunk := fun h =>
        (List.mem_append.mp h).elim h0 fun h => hr (List.mem_append_left _ h)
      have hll : (acc ++ chunk).length = acc.length + chunk.length := List.length_append ..
      obtain ⟨g, q, hg, hq, hat⟩ := scanLines_eq pattern (hf.read chunk) hl0
        (show 0 + (acc ++ chunk).length < bufSize by omega) (show (acc ++ chunk).length < bufSize by omega)
      have h64 : bufSize < 2 ^ 64 := by decide
      have hmove := @Ulib.memmove_moved 0 q (acc.length + chunk.length - q) g (by omega) (by omega)
      have hsize : acc.length + chunk.length - q = (openLine newline [] (acc ++ chunk)).length := by omega
      rw [hsize] at hmove
      have hat' : At (Ulib.memmove g 0 q (openLine newline [] (acc ++ chunk)).length).2 0
          (openLine newline [] (acc ++ chunk)) := by
        intro i hi
        rw [hmove.inside i hi, hat i hi]
      have hnext := @ih _ _ rest' hat' (by omega) (not_mem_openLine [] _ List.not_mem_nil)
        (fun h => hl0 (by simpa using openLine_mem [] _ h)) (fun h => hr (List.mem_append_right _ h))
        (by rw [List.length_append] at hn; omega)
      rw [linesFrom_acc hnl, ← List.append_assoc, linesFrom_append, takeWhile_fits _ _ fun l hl => ?_, written_append]
      · simp only [hg, Option.bind_eq_bind, Option.bind_some, if_pos (show 0 < acc.length + chunk.length by omega), hsize,
          hnext]
        rfl
      · have := length_lt_of_mem_linesFrom _ hl
        simp only [fits, decide_eq_true_eq]
        simp only [List.length_nil] at this
        omega

/-- The lines of an input that end with a newline. -/
def lines (input : Str) : List Str := linesFrom newline [] input

theorem grep_eq (pattern : Str) (split : ℕ → ℕ) {input : Str} (h0 : 0 ∉ input) :
    grep pattern split input = some (written pattern ((lines input).takeWhile fits)) :=
  @grepLoop_eq pattern split _ _ [] _ (fun i hi => absurd hi (Nat.not_lt_zero i)) (by decide) List.not_mem_nil
    List.not_mem_nil h0 (Nat.lt_succ_self _)

/-- However the input is split, `grep` writes the same: all the lines that match, exactly if none of them is at
or after the first line of 1023 or more characters. -/
theorem grep_writes_matching_iff (pattern : Str) (split : ℕ → ℕ) (input : Str) (h0 : 0 ∉ input) :
    ∃ out, grep pattern split input = some out ∧ (∀ split', grep pattern split' input = some out) ∧
      (out = written pattern (lines input) ↔ ∀ l ∈ (lines input).dropWhile fits, matchRe pattern l = false) := by
  refine ⟨_, grep_eq pattern split h0, fun split' => grep_eq pattern split' h0, ?_⟩
  have hsplit : written pattern (lines input) =
      written pattern ((lines input).takeWhile fits) ++ written pattern ((lines input).dropWhile fits) := by
    rw [← written_append, List.takeWhile_append_dropWhile]
  rw [hsplit, List.self_eq_append_right]
  simp [written]

theorem grep_writes_matching_iff_two_lines :
    ∃ out, grep (ascii "b") (fun _ => 2) (ascii "ab\ncd\n") = some out ∧
      out = written (ascii "b") (lines (ascii "ab\ncd\n")) := by
  obtain ⟨out, hout, -, hiff⟩ := grep_writes_matching_iff (ascii "b") (fun _ => 2) (ascii "ab\ncd\n") (by decide)
  exact ⟨out, hout, hiff.mpr (by decide)⟩

/-- A line of 1023 characters matches the empty pattern, and nothing is written. -/
theorem grep_drops_long_line :
    ∃ input : Str, 0 ∉ input ∧ lines input = [List.replicate 1023 97] ∧ matchRe [] (List.replicate 1023 97) = true ∧
      ∀ split, grep [] split input = some [] := by
  have h0 : (0 : UInt8) ∉ List.replicate 1023 97 ++ [newline] := by
    intro h
    rcases List.mem_append.mp h with h | h
    · exact absurd (List.eq_of_mem_replicate h) (by decide)
    · exact absurd (List.mem_singleton.mp h) (by decide)
  have hlines : lines (List.replicate 1023 97 ++ [newline]) = [List.replicate 1023 97] := by
    have hnl : newline ∉ List.replicate 1023 97 := fun h => absurd (List.eq_of_mem_replicate h) (by decide)
    rw [lines, linesFrom_line hnl]
    rfl
  refine ⟨List.replicate 1023 97 ++ [newline], h0, hlines, ?_, fun split => ?_⟩
  · rfl
  · rw [grep_eq [] split h0, hlines, List.takeWhile_cons_of_neg]
    · rfl
    · rw [fits, List.length_replicate]
      decide

end Grep
end Xv6Arm

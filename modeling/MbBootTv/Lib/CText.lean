import Mathlib.Algebra.Order.Ring.Nat

/-!
# Reading C text

A text of C, byte by byte, as far as declarations of numbers and strings need it: lines are
spliced, the text is cut into tokens, escape sequences are replaced, and adjacent string literals
are joined. There are no trigraphs. The reader gives up on what it does not know (comments,
character constants, prefixed literals, other operators), so a text that it accepts means what C
says it means.
-/

namespace MbBootTv.CText

/-! ## Characters -/

/-- The value of an octal digit. -/
def octalDigit (c : UInt8) : Option Nat :=
  if 48 ≤ c ∧ c ≤ 55 then some (c.toNat - 48) else none

/-- The value of a decimal digit. -/
def decimalDigit (c : UInt8) : Option Nat :=
  if 48 ≤ c ∧ c ≤ 57 then some (c.toNat - 48) else none

/-- The value of a hexadecimal digit. -/
def hexDigit (c : UInt8) : Option Nat :=
  if 48 ≤ c ∧ c ≤ 57 then some (c.toNat - 48)
  else if 65 ≤ c ∧ c ≤ 70 then some (c.toNat - 55)
  else if 97 ≤ c ∧ c ≤ 102 then some (c.toNat - 87)
  else none

/-- Letters, digits and the underscore: what identifiers and integer constants are made of. -/
def isWord (c : UInt8) : Bool :=
  (48 ≤ c && c ≤ 57) || (65 ≤ c && c ≤ 90) || (97 ≤ c && c ≤ 122) || c = 95

/-- The punctuators `,`, `;`, `=`, the brackets and the braces. -/
def isPunct (c : UInt8) : Bool :=
  c = 44 || c = 59 || c = 61 || c = 91 || c = 93 || c = 123 || c = 125

/-- What a simple escape sequence stands for: a quote, a question mark or a backslash for itself,
and one of `a`, `b`, `f`, `n`, `r`, `t`, `v`. -/
def simpleEscape (c : UInt8) : Option UInt8 :=
  if c = 34 ∨ c = 39 ∨ c = 63 ∨ c = 92 then some c
  else if c = 97 then some 7
  else if c = 98 then some 8
  else if c = 102 then some 12
  else if c = 110 then some 10
  else if c = 114 then some 13
  else if c = 116 then some 9
  else if c = 118 then some 11
  else none

/-! ## Tokens -/

/-- A token, or a line that is a directive. A string literal comes with its bytes. -/
inductive Tok
  | word (w : List UInt8)
  | str (s : List UInt8)
  | punct (c : UInt8)
  | directive (d : List UInt8)
  deriving DecidableEq, Repr

/-- Where in a token the reader is, with what it has of it. -/
inductive Mode
  /-- Between tokens; `true` when the line has only had blanks. -/
  | gap (start : Bool)
  | word (w : List UInt8)
  | directive (d : List UInt8)
  | str (s : List UInt8)
  /-- Behind the backslash. -/
  | escape (s : List UInt8)
  /-- Behind `k` octal digits with the value `v`. -/
  | octal (s : List UInt8) (v k : Nat)
  /-- Behind hexadecimal digits with the value `v`, if any. -/
  | hex (s : List UInt8) (v : Option Nat)
  deriving DecidableEq, Repr

/-- The value of an octal or hexadecimal escape sequence has to fit in a byte. -/
def charValue (v : Nat) : Option UInt8 := if v < 256 then some (UInt8.ofNat v) else none

/-- A character between tokens. -/
def stepGap (start : Bool) (c : UInt8) : Option (List Tok × Mode) :=
  if c = 10 then some ([], .gap true)
  else if c = 32 ∨ c = 9 then some ([], .gap start)
  else if c = 34 then some ([], .str [])
  else if isWord c then some ([], .word [c])
  else if isPunct c then some ([.punct c], .gap false)
  else if c = 35 ∧ start then some ([], .directive [])
  else none

/-- A character of a string literal. -/
def stepStr (s : List UInt8) (c : UInt8) : Option (List Tok × Mode) :=
  if c = 34 then some ([.str s], .gap false)
  else if c = 92 then some ([], .escape s)
  else if c = 10 then none
  else some ([], .str (s ++ [c]))

/-- One character: the tokens it completes, and where the reader is then. An octal escape sequence
ends behind its third digit, a hexadecimal one before the first character that is no digit. -/
def step : Mode → UInt8 → Option (List Tok × Mode)
  | .gap start, c => stepGap start c
  | .word w, c =>
    if isWord c then some ([], .word (w ++ [c]))
    else if c = 34 then none
    else (stepGap false c).map fun r => (.word w :: r.1, r.2)
  | .directive d, c =>
    if c = 10 then some ([.directive d], .gap true)
    else if c = 34 ∨ c = 39 ∨ c = 47 then none
    else some ([], .directive (d ++ [c]))
  | .str s, c => stepStr s c
  | .escape s, c =>
    match octalDigit c with
    | some d => some ([], .octal s d 1)
    | none =>
      if c = 120 then some ([], .hex s none)
      else (simpleEscape c).map fun v => ([], .str (s ++ [v]))
  | .octal s v k, c =>
    match octalDigit c with
    | some d =>
      if k = 2 then (charValue (v * 8 + d)).map fun b => ([], .str (s ++ [b]))
      else some ([], .octal s (v * 8 + d) (k + 1))
    | none => (charValue v).bind fun b => stepStr (s ++ [b]) c
  | .hex s v, c =>
    match hexDigit c with
    | some d => some ([], .hex s (some (v.getD 0 * 16 + d)))
    | none => (v.bind charValue).bind fun b => stepStr (s ++ [b]) c

/-- A text from a mode on. -/
def run : Mode → List UInt8 → Option (List Tok × Mode)
  | m, [] => some ([], m)
  | m, c :: cs => (step m c).bind fun r => (run r.2 cs).map fun q => (r.1 ++ q.1, q.2)

/-- Lines that end in a backslash go on in the next line. -/
def splice : List UInt8 → List UInt8
  | [] => []
  | [c] => [c]
  | c :: d :: cs => if c = 92 ∧ d = 10 then splice cs else c :: splice (d :: cs)

/-- The tokens of a text; nothing when a literal does not end. -/
def lex (text : List UInt8) : Option (List Tok) := do
  let (ts, m) ← run (.gap true) (splice text)
  match m with
  | .gap _ => return ts
  | .word w => return ts ++ [.word w]
  | .directive d => return ts ++ [.directive d]
  | _ => none

/-- A literal before the tokens `us`. -/
def attach : Tok → List Tok → List Tok
  | .str a, .str b :: us => .str (a ++ b) :: us
  | t, us => t :: us

/-- Adjacent string literals are one. -/
def joinStrs : List Tok → List Tok
  | [] => []
  | t :: ts => attach t (joinStrs ts)

/-! ## Integer constants -/

/-- The number with these digits, from `v` on. -/
def digits (digit : UInt8 → Option Nat) (base : Nat) : Nat → List UInt8 → Option Nat
  | v, [] => some v
  | v, c :: cs => (digit c).bind fun d => digits digit base (v * base + d) cs

/-- An integer constant without a suffix: decimal, octal behind a zero, hexadecimal behind `0x`. -/
def constant : List UInt8 → Option Nat
  | [] => none
  | [c] => decimalDigit c
  | c :: d :: cs =>
    if c ≠ 48 then digits decimalDigit 10 0 (c :: d :: cs)
    else if d = 120 ∨ d = 88 then if cs = [] then none else digits hexDigit 16 0 cs
    else digits octalDigit 8 0 (d :: cs)

/-! ## Runs of the reader -/

/-- **A text is read piece by piece.** -/
theorem run_append {m m' m'' : Mode} {cs ds : List UInt8} {ts us : List Tok}
    (h : run m cs = some (ts, m')) (h' : run m' ds = some (us, m'')) :
    run m (cs ++ ds) = some (ts ++ us, m'') := by
  induction cs generalizing m ts with
  | nil =>
    simp only [run, Option.some.injEq, Prod.mk.injEq] at h
    obtain ⟨rfl, rfl⟩ := h
    exact h'
  | cons c cs ih =>
    simp only [run, Option.bind_eq_some_iff, Option.map_eq_some_iff, Prod.exists,
      Prod.mk.injEq] at h
    obtain ⟨ts₀, m₀, hc, ts₁, m₁, hcs, rfl, rfl⟩ := h
    simp only [List.cons_append, run, hc, Option.bind_some, ih hcs, Option.map_some,
      List.append_assoc]

theorem run_singleton {m m' : Mode} {c : UInt8} {ts : List Tok} (h : step m c = some (ts, m')) :
    run m [c] = some (ts, m') := by
  simp [run, h]

/-- Behind the first character of a word, the rest of it is read. -/
theorem run_word {w cs : List UInt8} (h : ∀ c ∈ cs, isWord c = true) :
    run (.word w) cs = some ([], .word (w ++ cs)) := by
  induction cs generalizing w with
  | nil => rw [List.append_nil, run]
  | cons c cs ih =>
    have hc : step (.word w) c = some ([], .word (w ++ [c])) := if_pos (h c List.mem_cons_self)
    have hcs := ih (w := w ++ [c]) fun d hd => h d (List.mem_cons_of_mem c hd)
    rw [List.append_assoc] at hcs
    exact run_append (run_singleton hc) hcs

/-- A word between blanks or punctuators. -/
theorem run_gap_word {start : Bool} {c : UInt8} {cs : List UInt8}
    (h : ∀ d ∈ c :: cs, isWord d = true) :
    run (.gap start) (c :: cs) = some ([], .word (c :: cs)) := by
  have hc := h c List.mem_cons_self
  have hfirst : step (.gap start) c = some ([], .word [c]) := by
    have hne : c ≠ 10 ∧ c ≠ 32 ∧ c ≠ 9 ∧ c ≠ 34 := by
      refine ⟨?_, ?_, ?_, ?_⟩ <;> rintro rfl <;> exact absurd hc (by decide)
    simp only [step, stepGap, if_neg hne.1, hne.2.1, hne.2.2.1, or_self, if_neg hne.2.2.2, hc,
      if_true, if_false]
  exact run_append (run_singleton hfirst) (run_word fun d hd => h d (List.mem_cons_of_mem c hd))

/-! ## String literals -/

/-- **A character that is not the quote, the backslash or the end of the line** stands for
itself. -/
theorem run_str_self {s : List UInt8} {c : UInt8} (hq : c ≠ 34) (hb : c ≠ 92) (hn : c ≠ 10) :
    run (.str s) [c] = some ([], .str (s ++ [c])) := by
  apply run_singleton
  simp only [step, stepStr, if_neg hq, if_neg hb, if_neg hn]

/-- **Three octal digits** stand for one byte, whatever comes behind them. -/
theorem run_str_octal {s : List UInt8} {x y z : UInt8} {a b d : Nat} (hx : octalDigit x = some a)
    (hy : octalDigit y = some b) (hz : octalDigit z = some d) (hfits : (a * 8 + b) * 8 + d < 256) :
    run (.str s) [92, x, y, z] =
      some ([], .str (s ++ [UInt8.ofNat ((a * 8 + b) * 8 + d)])) := by
  have hopen : step (.str s) 92 = some ([], .escape s) := rfl
  have hfirst : step (.escape s) x = some ([], .octal s a 1) := by
    simp only [step, hx]
  have hsecond : step (.octal s a 1) y = some ([], .octal s (a * 8 + b) 2) := by
    simp [step, hy]
  have hthird : step (.octal s (a * 8 + b) 2) z =
      some ([], .str (s ++ [UInt8.ofNat ((a * 8 + b) * 8 + d)])) := by
    simp only [step, hz, if_true, charValue, if_pos hfits, Option.map_some]
  have hfront := run_append (run_singleton hopen) (run_singleton hfirst)
  exact run_append hfront (run_append (run_singleton hsecond) (run_singleton hthird))

/-- A literal that is closed at the end of a line and opened again in the next one. -/
theorem run_str_reopen {s : List UInt8} : run (.str s) [34, 10, 34] = some ([.str s], .str []) :=
  rfl

@[simp] theorem joinStrs_nil : joinStrs [] = [] := rfl

@[simp] theorem joinStrs_word (w : List UInt8) (ts : List Tok) :
    joinStrs (.word w :: ts) = .word w :: joinStrs ts := rfl

@[simp] theorem joinStrs_punct (c : UInt8) (ts : List Tok) :
    joinStrs (.punct c :: ts) = .punct c :: joinStrs ts := rfl

@[simp] theorem joinStrs_directive (d : List UInt8) (ts : List Tok) :
    joinStrs (.directive d :: ts) = .directive d :: joinStrs ts := rfl

/-- **Literals in a row** are one literal, with the bytes of all of them. -/
theorem joinStrs_strs (ps : List (List UInt8)) (p : List UInt8) (c : UInt8) (ts : List Tok) :
    joinStrs (ps.map .str ++ .str p :: .punct c :: ts) =
      .str (ps.flatten ++ p) :: .punct c :: joinStrs ts := by
  induction ps with
  | nil => rfl
  | cons q ps ih =>
    rw [List.map_cons, List.cons_append, joinStrs, ih, List.flatten_cons, List.append_assoc]
    rfl

/-! ## Splicing -/

/-- Two texts, when no line of the first goes on in the second. -/
theorem splice_append {cs ds : List UInt8} (h : ∀ c ∈ cs.getLast?, c ≠ 92) :
    splice (cs ++ ds) = splice cs ++ splice ds := by
  fun_induction splice cs with
  | case1 => rfl
  | case2 c =>
    have hc : c ≠ 92 := h c rfl
    cases ds with
    | nil => rfl
    | cons d ds =>
      rw [List.singleton_append, splice, if_neg fun hcd => hc hcd.1]
      rfl
  | case3 c d cs hcd ih =>
    rw [List.cons_append, List.cons_append, splice, if_pos hcd]
    cases cs with
    | nil => rfl
    | cons e es => exact ih h
  | case4 c d cs hcd ih =>
    rw [List.cons_append, List.cons_append, splice, if_neg hcd, List.cons_append]
    exact congrArg (c :: ·) (ih h)

/-- A text of whole lines and pieces of lines: nothing in it is spliced, nor is its end. -/
structure Whole (cs : List UInt8) : Prop where
  splice_eq : splice cs = cs
  last : ∀ c ∈ cs.getLast?, c ≠ 92

namespace Whole

theorem nil : Whole [] := ⟨rfl, fun c hc => by simp at hc⟩

theorem append {cs ds : List UInt8} (h : Whole cs) (h' : Whole ds) : Whole (cs ++ ds) where
  splice_eq := by rw [splice_append h.last, h.splice_eq, h'.splice_eq]
  last := by
    intro c hc
    rw [List.getLast?_append] at hc
    cases hd : ds.getLast? with
    | none => exact h.last c (by simpa [hd] using hc)
    | some d => exact h'.last c (by simpa [hd] using hc)

/-- A character that is no backslash. -/
theorem singleton {c : UInt8} (h : c ≠ 92) : Whole [c] := by
  refine ⟨rfl, fun d hd => ?_⟩
  obtain rfl : c = d := by simpa using hd
  exact h

/-- A text without backslashes. -/
theorem of_not_mem {cs : List UInt8} (h : 92 ∉ cs) : Whole cs := by
  induction cs with
  | nil => exact nil
  | cons c cs ih =>
    simp only [List.mem_cons, not_or] at h
    exact (singleton (Ne.symm h.1)).append (ih h.2)

theorem flatMap {α : Type} {f : α → List UInt8} (h : ∀ a, Whole (f a)) (l : List α) :
    Whole (l.flatMap f) := by
  induction l with
  | nil => exact nil
  | cons a l ih =>
    rw [List.flatMap_cons]
    exact (h a).append ih

end Whole

/-- The tokens of a text that ends behind a line. -/
theorem lex_of_run {text : List UInt8} (h : Whole text) {ts : List Tok} {start : Bool}
    (hrun : run (.gap true) text = some (ts, .gap start)) : lex text = some ts := by
  unfold lex
  rw [h.splice_eq, hrun]
  rfl

/-! ## Integer constants -/

theorem digits_append {digit : UInt8 → Option Nat} {base v : Nat} {cs ds : List UInt8} {u : Nat}
    (h : digits digit base v cs = some u) :
    digits digit base v (cs ++ ds) = digits digit base u ds := by
  induction cs generalizing v with
  | nil =>
    simp only [digits, Option.some.injEq] at h
    rw [h, List.nil_append]
  | cons c cs ih =>
    obtain ⟨d, hd, hcs⟩ := Option.bind_eq_some_iff.mp h
    rw [List.cons_append, digits, hd, Option.bind_some, ih hcs]

/-- A constant that does not begin with a zero is decimal. -/
theorem constant_decimal {c : UInt8} {cs : List UInt8} {n : Nat} (h0 : c ≠ 48)
    (h : digits decimalDigit 10 0 (c :: cs) = some n) : constant (c :: cs) = some n := by
  cases cs with
  | nil =>
    simp only [digits, Nat.zero_mul, Nat.zero_add] at h
    rw [constant]
    cases hd : decimalDigit c with
    | none => simp [hd] at h
    | some d => simpa [hd] using h
  | cons d cs => rw [constant, if_pos h0, h]

end MbBootTv.CText

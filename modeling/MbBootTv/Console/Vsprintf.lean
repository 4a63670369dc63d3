import MbBootTv.Lib.Except
import MbBootTv.Strings
import Mathlib.Data.Nat.Digits.Defs

/-!
# Formatted text (`vsprintf.c`)

A format and a string are the bytes in front of their NUL. `vsprintf` gives the bytes that it
writes in front of the NUL with which it ends; `long` and `int` are 32 bits wide. A number in a
format is taken to fit an `int`.
-/

namespace MbBootTv

/-! ## Reading numbers -/

/-- `isdigit` -/
def isDigit (c : UInt8) : Bool := '0'.toUInt8 ≤ c && c ≤ '9'.toUInt8

/-- `isxdigit` -/
def isXDigit (c : UInt8) : Bool :=
  isDigit c || ('a'.toUInt8 ≤ c && c ≤ 'f'.toUInt8) || ('A'.toUInt8 ≤ c && c ≤ 'F'.toUInt8)

/-- `islower` -/
def isLower (c : UInt8) : Bool := 'a'.toUInt8 ≤ c && c ≤ 'z'.toUInt8

/-- `toupper` -/
def toUpper (c : UInt8) : UInt8 := if isLower c then c - ('a'.toUInt8 - 'A'.toUInt8) else c

/-- The value of a digit. -/
def digitValue (c : UInt8) : UInt32 :=
  if isDigit c then (c - '0'.toUInt8).toUInt32 else (toUpper c - 'A'.toUInt8 + 10).toUInt32

/-- `while (isxdigit (*cp) && value < base)`, from `result` on: the number, and what is left of the
string. -/
def strtoulLoop (base : UInt32) : List UInt8 → UInt32 → UInt32 × List UInt8
  | [], result => (result, [])
  | c :: cp, result =>
    if isXDigit c && digitValue c < base then
      strtoulLoop base cp (result * base + digitValue c)
    else (result, c :: cp)

/-- `simple_strtoul`, with the string at `*endp`. -/
def simpleStrtoul (cp : List UInt8) (base : UInt32) : UInt32 × List UInt8 :=
  if base ≠ 0 then strtoulLoop base cp 0
  else if cp.head? = some '0'.toUInt8 then
    if cp.tail.head? = some 'x'.toUInt8 && cp.tail.tail.head?.any isXDigit then
      strtoulLoop 16 cp.tail.tail 0
    else strtoulLoop 8 cp.tail 0
  else strtoulLoop 10 cp 0

/-! ## Writing numbers -/

/-- `flags`: `ZEROPAD`, `SIGN`, `PLUS`, `SPACE`, `LEFT`, `SPECIAL` and `LARGE`. -/
structure Flags where
  zeropad : Bool := false
  sign : Bool := false
  plus : Bool := false
  space : Bool := false
  left : Bool := false
  special : Bool := false
  large : Bool := false
  deriving DecidableEq

/-- `digits` -/
def numberDigits (large : Bool) : List UInt8 :=
  if large then ascii "0123456789ABCDEFGHIJKLMNOPQRSTUVWXYZ"
  else ascii "0123456789abcdefghijklmnopqrstuvwxyz"

/-- `tmp`: the last digit comes first. -/
def tmpDigits (digits : List UInt8) (num : UInt32) (base : Nat) : List UInt8 :=
  if num = 0 then ['0'.toUInt8]
  else (Nat.digits base num.toNat).map fun d => digits.getD d 0

/-- `sign`, and the number that is left. -/
def signOf (type : Flags) (num : UInt32) : List UInt8 × UInt32 :=
  if type.sign then
    if num.toInt32 < 0 then (['-'.toUInt8], -num)
    else if type.plus then (['+'.toUInt8], num)
    else if type.space then ([' '.toUInt8], num)
    else ([], num)
  else ([], num)

/-- What `SPECIAL` puts in front of the digits. -/
def specialOf (type : Flags) (digits : List UInt8) (base : Nat) : List UInt8 :=
  if type.special then
    if base = 8 then ['0'.toUInt8]
    else if base = 16 then ['0'.toUInt8, digits.getD 33 0]
    else []
  else []

/-- `number`; nothing stands for the null pointer. -/
def number (num : UInt32) (base : Nat) (size precision : Int) (type : Flags) :
    Option (List UInt8) :=
  let digits := numberDigits type.large
  let type := if type.left then { type with zeropad := false } else type
  if base < 2 || 36 < base then none
  else
    let c := if type.zeropad then '0'.toUInt8 else ' '.toUInt8
    let (sign, num) := signOf type num
    let special := specialOf type digits base
    let tmp := tmpDigits digits num base
    let size := size - sign.length - special.length
    let precision := max precision tmp.length
    let size := size - precision
    let spaces := if type.zeropad || type.left then 0 else size.toNat
    let size := size - spaces
    let pad := if type.left then 0 else size.toNat
    let size := size - pad
    some (List.replicate spaces ' '.toUInt8 ++ sign ++ special ++ List.replicate pad c ++
      List.replicate (precision - tmp.length).toNat '0'.toUInt8 ++ tmp.reverse ++
      List.replicate size.toNat ' '.toUInt8)

/-! ## Formats -/

/-- What `va_arg` takes. -/
inductive Arg
  /-- A word. -/
  | word (v : UInt32)
  /-- The address of bytes; nothing is the null pointer. -/
  | str (s : Option (List UInt8))
  deriving DecidableEq

/-- What has been written: the text, and what `%n` has put at which address. -/
structure Printed where
  text : List UInt8
  counts : List (UInt32 × UInt32)
  deriving DecidableEq

/-- `*str++ = …` -/
def Printed.put (out : Printed) (s : List UInt8) : Printed := { out with text := out.text ++ s }

/-- What a directive says in front of its conversion. -/
structure Directive where
  flags : Flags
  fieldWidth : Int
  precision : Int
  qualifier : Option UInt8

/-- `va_arg (args, int)` -/
def nextWord : List Arg → Except Fault (UInt32 × List Arg)
  | .word v :: args => .ok (v, args)
  | _ => .error .outOfBounds

/-- `va_arg (args, char *)` -/
def nextString : List Arg → Except Fault (Option (List UInt8) × List Arg)
  | .str s :: args => .ok (s, args)
  | _ => .error .outOfBounds

/-- `repeat` -/
def parseFlags : List UInt8 → Flags → Flags × List UInt8
  | [], flags => (flags, [])
  | c :: fmt, flags =>
    if c = '-'.toUInt8 then parseFlags fmt { flags with left := true }
    else if c = '+'.toUInt8 then parseFlags fmt { flags with plus := true }
    else if c = ' '.toUInt8 then parseFlags fmt { flags with space := true }
    else if c = '#'.toUInt8 then parseFlags fmt { flags with special := true }
    else if c = '0'.toUInt8 then parseFlags fmt { flags with zeropad := true }
    else (flags, c :: fmt)

/-- `skip_atoi`, from `i` on. -/
def skipAtoi : List UInt8 → Int → Int × List UInt8
  | [], i => (i, [])
  | c :: s, i =>
    if isDigit c then skipAtoi s (i * 10 + (c - '0'.toUInt8).toNat) else (i, c :: s)

/-- The field width, which may be an argument. -/
def parseWidth (fmt : List UInt8) (args : List Arg) (flags : Flags) :
    Except Fault (Int × Flags × List UInt8 × List Arg) :=
  if fmt.head?.any isDigit then
    let (i, fmt) := skipAtoi fmt 0
    .ok (i, flags, fmt, args)
  else if fmt.head? = some '*'.toUInt8 then do
    let (v, args) ← nextWord args
    let i := v.toInt32.toInt
    if i < 0 then return (-i, { flags with left := true }, fmt.tail, args)
    else return (i, flags, fmt.tail, args)
  else .ok (-1, flags, fmt, args)

/-- The precision, which may be an argument. -/
def parsePrecision (fmt : List UInt8) (args : List Arg) :
    Except Fault (Int × List UInt8 × List Arg) :=
  if fmt.head? = some '.'.toUInt8 then
    let fmt := fmt.tail
    if fmt.head?.any isDigit then
      let (i, fmt) := skipAtoi fmt 0
      .ok (max i 0, fmt, args)
    else if fmt.head? = some '*'.toUInt8 then do
      let (v, args) ← nextWord args
      return (max v.toInt32.toInt 0, fmt.tail, args)
    else .ok (0, fmt, args)
  else .ok (-1, fmt, args)

/-- `qualifier` -/
def parseQualifier : List UInt8 → Option UInt8 × List UInt8
  | [] => (none, [])
  | c :: fmt =>
    if c = 'h'.toUInt8 || c = 'l'.toUInt8 || c = 'L'.toUInt8 then (some c, fmt)
    else (none, c :: fmt)

/-- The directive behind a `%`, and what is left of the format and of the arguments. -/
def parseDirective (fmt : List UInt8) (args : List Arg) :
    Except Fault (Directive × List UInt8 × List Arg) := do
  let (flags, fmt) := parseFlags fmt {}
  let (fieldWidth, flags, fmt, args) ← parseWidth fmt args flags
  let (precision, fmt, args) ← parsePrecision fmt args
  let (qualifier, fmt) := parseQualifier fmt
  return (⟨flags, fieldWidth, precision, qualifier⟩, fmt, args)

/-- A field of the text `s`, which is padded to `n` bytes. -/
def field (flags : Flags) (n : Int) (s : List UInt8) : List UInt8 :=
  let pad := List.replicate (n - s.length).toNat ' '.toUInt8
  if flags.left then s ++ pad else pad ++ s

/-- The base of an integer conversion, with the flags that it sets. -/
def integerBase (c : UInt8) (flags : Flags) : Option (Nat × Flags) :=
  if c = 'o'.toUInt8 then some (8, flags)
  else if c = 'X'.toUInt8 then some (16, { flags with large := true })
  else if c = 'x'.toUInt8 then some (16, flags)
  else if c = 'd'.toUInt8 || c = 'i'.toUInt8 then some (10, { flags with sign := true })
  else if c = 'u'.toUInt8 then some (10, flags)
  else none

/-- `num`, by the qualifier. -/
def integerArg (qualifier : Option UInt8) (sign : Bool) (v : UInt32) : UInt32 :=
  if qualifier = some 'h'.toUInt8 then
    if sign then v.toUInt16.toInt16.toInt32.toUInt32 else v.toUInt16.toUInt32
  else v

/-- `str = number (…)` -/
def putNumber (out : Printed) (s : Option (List UInt8)) : Except Fault Printed :=
  match s with
  | none => .error .outOfBounds
  | some s => .ok (out.put s)

/-- Numbers with a separator behind each but the last. -/
def putNumbers (out : Printed) (vs : List UInt8) (base : Nat) (size : Int) (flags : Flags)
    (separator : UInt8) : Except Fault Printed := do
  let out ← vs.foldlM (fun out v => do
    let out ← putNumber out (number v.toUInt32 base size (-1) flags)
    return out.put [separator]) out
  return { out with text := out.text.dropLast }

/-- The conversion `c` of a directive. -/
def convert (c : UInt8) (d : Directive) (args : List Arg) (out : Printed) :
    Except Fault (Printed × List Arg) :=
  if c = 'c'.toUInt8 then do
    let (v, args) ← nextWord args
    return (out.put (field d.flags d.fieldWidth [v.toUInt8]), args)
  else if c = 's'.toUInt8 then do
    let (s, args) ← nextString args
    -- A precision of -1 is the largest `unsigned int`.
    let s := (s.getD (ascii "<NULL>")).take (d.precision % 2 ^ 32).toNat
    return (out.put (field d.flags d.fieldWidth s), args)
  else if c = 'p'.toUInt8 then do
    let (v, args) ← nextWord args
    let out ← if d.fieldWidth = -1 then
        putNumber out (number v 16 8 d.precision { d.flags with zeropad := true })
      else putNumber out (number v 16 d.fieldWidth d.precision d.flags)
    return (out, args)
  else if c = 'n'.toUInt8 then do
    let (p, args) ← nextWord args
    return ({ out with counts := out.counts ++ [(p, UInt32.ofNat out.text.length)] }, args)
  else if c = '%'.toUInt8 then return (out.put ['%'.toUInt8], args)
  else if c = '@'.toUInt8 then do
    let (v, args) ← nextWord args
    let bytes := [v.toUInt8, (v >>> 8).toUInt8, (v >>> 16).toUInt8, (v >>> 24).toUInt8]
    return (← putNumbers out bytes 10 (-1) { sign := true } '.'.toUInt8, args)
  else if c = '!'.toUInt8 then do
    let (p, args) ← nextString args
    let bytes := (p.getD []).take 6
    if bytes.length < 6 then .error .outOfBounds
    else return (← putNumbers out bytes 16 2 { zeropad := true, large := true } ':'.toUInt8, args)
  else
    match integerBase c d.flags with
    | none => return (out.put ['%'.toUInt8, c], args)
    | some (base, flags) => do
      let (v, args) ← nextWord args
      let num := integerArg d.qualifier flags.sign v
      return (← putNumber out (number num base d.fieldWidth d.precision flags), args)

/-- The loop of `vsprintf`. -/
def vsprintfLoop : Nat → List UInt8 → List Arg → Printed → Except Fault Printed
  | 0, _, _, _ => .error .fuel
  | _ + 1, [], _, out => .ok out
  | n + 1, c :: fmt, args, out =>
    if c ≠ '%'.toUInt8 then vsprintfLoop n fmt args (out.put [c])
    else do
      let (d, fmt, args) ← parseDirective fmt args
      match fmt with
      | [] => return out.put ['%'.toUInt8]
      | c :: fmt => do
        let (out, args) ← convert c d args out
        vsprintfLoop n fmt args out

/-- `vsprintf`, behind what has been written. -/
def vsprintfFrom (fmt : List UInt8) (args : List Arg) (out : Printed) : Except Fault Printed :=
  vsprintfLoop (fmt.length + 1) fmt args out

/-- `vsprintf` -/
def vsprintf (fmt : List UInt8) (args : List Arg) : Except Fault Printed :=
  vsprintfFrom fmt args ⟨[], []⟩

/-! ## Numbers in decimal -/

theorem ascii_append (s t : String) : ascii (s ++ t) = ascii s ++ ascii t := by
  unfold ascii
  rw [String.toList_append, List.map_append]

theorem ascii_digitChar {d : Nat} (h : d < 10) (large : Bool) :
    ascii (String.singleton (Nat.digitChar d)) = [(numberDigits large).getD d 0] := by
  have hall : ∀ large, ∀ d < 10,
      ascii (String.singleton (Nat.digitChar d)) = [(numberDigits large).getD d 0] := by decide
  exact hall large d h

/-- **The digits of a number** are those of its decimal representation, in the other order. -/
theorem tmpDigits_ten (num : UInt32) (large : Bool) :
    (tmpDigits (numberDigits large) num 10).reverse = ascii (Nat.repr num.toNat) := by
  have hdigits : ∀ n, n ≠ 0 →
      ((Nat.digits 10 n).map fun d => (numberDigits large).getD d 0).reverse =
        ascii (Nat.repr n) := by
    intro n
    induction n using Nat.strong_induction_on with
    | _ n ih =>
      intro h0
      rw [Nat.digits_def' (by decide) (Nat.pos_of_ne_zero h0), List.map_cons, List.reverse_cons]
      by_cases hn : n < 10
      · rw [Nat.div_eq_of_lt hn, Nat.mod_eq_of_lt hn, Nat.repr_of_lt hn, ascii_digitChar hn large]
        rfl
      · rw [ih (n / 10) (by omega) (by omega), Nat.repr_of_ge (n := n) (by omega), ascii_append,
          ascii_digitChar (Nat.mod_lt n (by decide)) large]
  unfold tmpDigits
  by_cases h0 : num = 0
  · rw [if_pos h0, h0]
    decide
  · rw [if_neg h0]
    exact hdigits _ fun h => h0 (UInt32.toNat_inj.mp h)

/-- Without a field and without flags, `number` writes the digits behind the sign. -/
theorem number_plain (num : UInt32) (sign : Bool) :
    number num 10 (-1) (-1) { sign := sign } =
      some ((signOf { sign := sign } num).1 ++
        ascii (Nat.repr (signOf { sign := sign } num).2.toNat)) := by
  unfold number
  dsimp only
  rw [if_neg (by decide), if_neg Bool.false_ne_true, ← tmpDigits_ten _ false]
  generalize (tmpDigits (numberDigits false) (signOf { sign := sign } num).2 10) = tmp
  generalize (signOf { sign := sign } num).1 = s
  have hsize : ((-1 : Int) - s.length - ([] : List UInt8).length -
      max (-1) (tmp.length : Int)).toNat = 0 := by
    rw [List.length_nil]
    omega
  have hprec : (max (-1) (tmp.length : Int) - tmp.length).toNat = 0 := by omega
  have hspecial : specialOf { sign := sign } (numberDigits false) 10 = [] := rfl
  simp only [hspecial, Bool.or_self, if_neg Bool.false_ne_true]
  rw [hsize, hprec]
  simp

/-- **`%d`** writes that of the number as a signed one. -/
theorem number_signed (num : UInt32) :
    number num 10 (-1) (-1) { sign := true } = some (ascii (toString num.toInt32.toInt)) := by
  have hlt := num.toNat_lt
  rw [number_plain num true]
  unfold signOf
  have hneg : num.toInt32 < 0 ↔ 2 ^ 31 ≤ num.toNat := by
    rw [Int32.lt_iff_toInt_lt, toInt_toInt32, Int32.toInt_zero]
    split_ifs <;> omega
  rw [if_pos rfl, toInt_toInt32]
  by_cases hsmall : num.toNat < 2 ^ 31
  · rw [if_pos hsmall, if_neg (by rw [hneg]; omega)]
    rfl
  · rw [if_neg hsmall, if_pos (hneg.mpr (by omega))]
    obtain ⟨k, hk⟩ : ∃ k : Nat, (num.toNat : Int) - 2 ^ 32 = Int.negSucc k :=
      ⟨2 ^ 32 - num.toNat - 1, by omega⟩
    have hnum : (-num).toNat = k + 1 := by
      have hsize : UInt32.size = 2 ^ 32 := rfl
      rw [UInt32.toNat_neg, hsize]
      omega
    rw [hk]
    show some (['-'.toUInt8] ++ ascii (Nat.repr (-num).toNat)) =
      some (ascii ("-" ++ Nat.repr (k + 1)))
    rw [hnum, ascii_append]
    rfl

/-- `simple_strtoul` reads the decimal representation of a number, and what follows it. -/
theorem strtoulLoop_repr (n : Nat) (rest : List UInt8) :
    strtoulLoop 10 (ascii (Nat.repr n) ++ rest) 0 = strtoulLoop 10 rest (UInt32.ofNat n) := by
  have hdigit : ∀ d < 10, isXDigit ((numberDigits false).getD d 0) = true ∧
      digitValue ((numberDigits false).getD d 0) = UInt32.ofNat d ∧
        UInt32.ofNat d < 10 := by decide
  have hstep : ∀ d < 10, ∀ rest result,
      strtoulLoop 10 (ascii (String.singleton (Nat.digitChar d)) ++ rest) result =
        strtoulLoop 10 rest (result * 10 + UInt32.ofNat d) := by
    intro d hd rest result
    obtain ⟨hx, hv, hlt⟩ := hdigit d hd
    rw [ascii_digitChar hd false, List.singleton_append, strtoulLoop, hx, hv,
      decide_eq_true hlt, Bool.and_self, if_pos rfl]
  induction n using Nat.strong_induction_on generalizing rest with
  | _ n ih =>
    by_cases hn : n < 10
    · rw [Nat.repr_of_lt hn, hstep n hn, UInt32.zero_mul, UInt32.zero_add]
    · rw [Nat.repr_of_ge (n := n) (by omega), ascii_append, List.append_assoc,
        ih (n / 10) (by omega), hstep _ (Nat.mod_lt n (by decide))]
      have hsum : UInt32.ofNat (n / 10) * 10 + UInt32.ofNat (n % 10) = UInt32.ofNat n := by
        rw [show (10 : UInt32) = UInt32.ofNat 10 from rfl, ← UInt32.ofNat_mul, ← UInt32.ofNat_add,
          Nat.div_add_mod']
      rw [hsum]

/-- A byte that is no digit ends the number. -/
theorem strtoulLoop_end {c : UInt8} (h : isXDigit c = false) (rest : List UInt8)
    (result base : UInt32) : strtoulLoop base (c :: rest) result = (result, c :: rest) := by
  rw [strtoulLoop, h, Bool.false_and, if_neg Bool.false_ne_true]

/-! ## The run over a format -/

section Format

variable {fmt fmt' : List UInt8} {args args' : List Arg} {out : Printed} {c : UInt8}
  {d : Directive} {n n' : Nat}

@[simp] theorem Printed.put_put (s t : List UInt8) : (out.put s).put t = out.put (s ++ t) := by
  unfold Printed.put
  rw [List.append_assoc]

theorem parseFlags_length (fmt : List UInt8) (flags : Flags) :
    (parseFlags fmt flags).2.length ≤ fmt.length := by
  induction fmt generalizing flags with
  | nil => exact le_rfl
  | cons c fmt ih =>
    unfold parseFlags
    split_ifs
    · exact (ih _).trans (Nat.le_succ _)
    · exact (ih _).trans (Nat.le_succ _)
    · exact (ih _).trans (Nat.le_succ _)
    · exact (ih _).trans (Nat.le_succ _)
    · exact (ih _).trans (Nat.le_succ _)
    · exact le_rfl

theorem skipAtoi_length (s : List UInt8) (i : Int) : (skipAtoi s i).2.length ≤ s.length := by
  induction s generalizing i with
  | nil => exact le_rfl
  | cons c s ih =>
    unfold skipAtoi
    split_ifs
    · exact (ih _).trans (Nat.le_succ _)
    · exact le_rfl

theorem tail_length_le (l : List UInt8) : l.tail.length ≤ l.length := by
  rw [List.length_tail]
  exact Nat.sub_le _ _

theorem parseWidth_length {flags flags' : Flags} {i : Int}
    (h : parseWidth fmt args flags = .ok (i, flags', fmt', args')) :
    fmt'.length ≤ fmt.length := by
  unfold parseWidth at h
  split_ifs at h
  · cases h
    exact skipAtoi_length _ _
  · obtain ⟨⟨v, args₁⟩, -, h⟩ := bind_eq_ok.mp h
    dsimp only at h
    split_ifs at h
    all_goals
      cases h
      exact tail_length_le _
  · cases h
    exact le_rfl

theorem parsePrecision_length {i : Int} (h : parsePrecision fmt args = .ok (i, fmt', args')) :
    fmt'.length ≤ fmt.length := by
  unfold parsePrecision at h
  dsimp only at h
  split_ifs at h
  · cases h
    exact (skipAtoi_length _ _).trans (tail_length_le _)
  · obtain ⟨⟨v, args₁⟩, -, h⟩ := bind_eq_ok.mp h
    cases h
    exact (tail_length_le _).trans (tail_length_le _)
  · cases h
    exact tail_length_le _
  · cases h
    exact le_rfl

theorem parseQualifier_length (fmt : List UInt8) :
    (parseQualifier fmt).2.length ≤ fmt.length := by
  cases fmt with
  | nil => exact le_rfl
  | cons c fmt =>
    rw [parseQualifier]
    split_ifs
    · exact Nat.le_succ _
    · exact le_rfl

/-- A directive is taken from the format. -/
theorem parseDirective_length (h : parseDirective fmt args = .ok (d, fmt', args')) :
    fmt'.length ≤ fmt.length := by
  unfold parseDirective at h
  obtain ⟨⟨i, flags, fmt₁, args₁⟩, hwidth, h⟩ := bind_eq_ok.mp h
  obtain ⟨⟨j, fmt₂, args₂⟩, hprec, h⟩ := bind_eq_ok.mp h
  cases h
  calc (parseQualifier fmt₂).2.length ≤ fmt₂.length := parseQualifier_length fmt₂
    _ ≤ fmt₁.length := parsePrecision_length hprec
    _ ≤ (parseFlags fmt {}).2.length := parseWidth_length hwidth
    _ ≤ fmt.length := parseFlags_length fmt {}

/-- A turn of the loop for each byte of the format is enough. -/
theorem vsprintfLoop_enough (hn : fmt.length < n) (hn' : fmt.length < n') :
    vsprintfLoop n fmt args out = vsprintfLoop n' fmt args out := by
  induction n generalizing n' fmt args out with
  | zero => exact absurd hn (Nat.not_lt_zero _)
  | succ n ih =>
    cases n' with
    | zero => exact absurd hn' (Nat.not_lt_zero _)
    | succ n' =>
      cases fmt with
      | nil => rfl
      | cons c fmt =>
        rw [List.length_cons] at hn hn'
        unfold vsprintfLoop
        split_ifs with hc
        · exact ih (by omega) (by omega)
        · refine bind_congr_ok fun r hr => ?_
          obtain ⟨d, rest, args₁⟩ := r
          have hlen := parseDirective_length hr
          cases rest with
          | nil => rfl
          | cons c rest =>
            rw [List.length_cons] at hlen
            exact bind_congr_ok fun r _ => ih (by omega) (by omega)

@[simp] theorem vsprintfFrom_nil : vsprintfFrom [] args out = .ok out := rfl

/-- Text is copied. -/
theorem vsprintfFrom_text {text : List UInt8} (h : '%'.toUInt8 ∉ text) :
    vsprintfFrom (text ++ fmt) args out = vsprintfFrom fmt args (out.put text) := by
  induction text generalizing out with
  | nil => rw [List.nil_append, Printed.put, List.append_nil]
  | cons c text ih =>
    rw [List.mem_cons, not_or] at h
    have hstep : vsprintfFrom (c :: text ++ fmt) args out =
        vsprintfFrom (text ++ fmt) args (out.put [c]) := by
      unfold vsprintfFrom
      rw [List.cons_append, List.length_cons, vsprintfLoop, if_pos (Ne.symm h.1)]
    rw [hstep, ih h.2, Printed.put_put, List.singleton_append]

/-- A directive is carried out. -/
theorem vsprintfFrom_directive (h : parseDirective fmt args = .ok (d, c :: fmt', args')) :
    vsprintfFrom ('%'.toUInt8 :: fmt) args out = (do
      let (out, args) ← convert c d args' out
      vsprintfFrom fmt' args out) := by
  have hlen := parseDirective_length h
  rw [List.length_cons] at hlen
  unfold vsprintfFrom
  rw [List.length_cons, vsprintfLoop, if_neg (not_not.mpr rfl), h, ok_bind]
  exact bind_congr_ok fun r _ => vsprintfLoop_enough (by omega) (by omega)

/-- **`%s`** copies a string, of which it can count the bytes. -/
theorem vsprintfFrom_s {s : List UInt8} :
    vsprintfFrom (ascii "%s" ++ fmt) (.str (some s) :: args) out =
      vsprintfFrom fmt args (out.put (s.take (2 ^ 32 - 1))) := by
  have hdir : parseDirective ('s'.toUInt8 :: fmt) (.str (some s) :: args) =
      .ok (⟨{}, -1, -1, none⟩, 's'.toUInt8 :: fmt, .str (some s) :: args) := rfl
  have hconv : convert 's'.toUInt8 ⟨{}, -1, -1, none⟩ (.str (some s) :: args) out =
      .ok (out.put (s.take (2 ^ 32 - 1)), args) := by
    have hcount : ((-1 : Int) % 2 ^ 32).toNat = 2 ^ 32 - 1 := by decide
    have hpad : ((-1 : Int) - (s.take (2 ^ 32 - 1)).length).toNat = 0 := by omega
    rw [convert, if_neg (by decide), if_pos rfl, nextString, ok_bind]
    simp only [Option.getD_some, hcount, field, hpad]
    rfl
  show vsprintfFrom ('%'.toUInt8 :: 's'.toUInt8 :: fmt) _ out = _
  rw [vsprintfFrom_directive hdir, hconv, ok_bind]

/-- **`%c`** writes a byte. -/
theorem vsprintfFrom_c {v : UInt32} :
    vsprintfFrom (ascii "%c" ++ fmt) (.word v :: args) out =
      vsprintfFrom fmt args (out.put [v.toUInt8]) := by
  have hdir : parseDirective ('c'.toUInt8 :: fmt) (.word v :: args) =
      .ok (⟨{}, -1, -1, none⟩, 'c'.toUInt8 :: fmt, .word v :: args) := rfl
  have hconv : convert 'c'.toUInt8 ⟨{}, -1, -1, none⟩ (.word v :: args) out =
      .ok (out.put [v.toUInt8], args) := rfl
  show vsprintfFrom ('%'.toUInt8 :: 'c'.toUInt8 :: fmt) _ out = _
  rw [vsprintfFrom_directive hdir, hconv, ok_bind]

/-- **`%d`** writes a signed number. -/
theorem vsprintfFrom_d {v : UInt32} :
    vsprintfFrom (ascii "%d" ++ fmt) (.word v :: args) out =
      vsprintfFrom fmt args (out.put (ascii (toString v.toInt32.toInt))) := by
  have hdir : parseDirective ('d'.toUInt8 :: fmt) (.word v :: args) =
      .ok (⟨{}, -1, -1, none⟩, 'd'.toUInt8 :: fmt, .word v :: args) := rfl
  have hconv : convert 'd'.toUInt8 ⟨{}, -1, -1, none⟩ (.word v :: args) out =
      .ok (out.put (ascii (toString v.toInt32.toInt)), args) := by
    show (do return (← putNumber out (number v 10 (-1) (-1) { sign := true }), args)) = _
    rw [number_signed]
    rfl
  show vsprintfFrom ('%'.toUInt8 :: 'd'.toUInt8 :: fmt) _ out = _
  rw [vsprintfFrom_directive hdir, hconv, ok_bind]

end Format

end MbBootTv

import MbBootTv.Lib.CText
import MbBootTv.Boot.Sha1
import MbBootTv.Boot.HandOff
import MbBootTv.Console.Vsprintf

/-!
# The kernel as a header (`gen_header.c`, `check_header.c`)

`gen_header` prints the kernel image as a string literal of C, with its length and its hash;
`check_header` is compiled with that text and hashes what the literal stands for. The machine is
one with a `long` of 64 bits, so that an image may have any length a file has.

`headerText` is what is printed, and `readHeader` what a compiler makes of it.
-/

namespace MbBootTv

/-! ## `gen_header` -/

/-- `fprintf (header, "\%03o", c)` for what cannot stand in a literal, `"%c"` for the rest. -/
def genByte (c : UInt8) : List UInt8 :=
  if c = 34 ∨ c = 92 ∨ c < 32 ∨ c > 126 then
    [92, UInt8.ofNat (48 + c.toNat / 64), UInt8.ofNat (48 + c.toNat / 8 % 8),
      UInt8.ofNat (48 + c.toNat % 8)]
  else [c]

/-- What is printed when `i` is 64: the literal is closed, and opened on the next line. -/
def reopen : List UInt8 := [34, 10, 34]

/-- `for (n = 0; n < lKernel; n++)`, with the bytes of the image from `n` on. The counter is an
`int`: behind 2^31 - 1 it is negative, still below `lKernel`, and no index. -/
def literalLoop (n : Int32) (i : Nat) (rest : List UInt8) : Except Fault (List UInt8) :=
  if n < 0 then .error .outOfBounds
  else match rest with
    | [] => .ok []
    | c :: rest =>
      if i + 1 = 64 then do
        let text ← literalLoop (n + 1) 0 rest
        return genByte c ++ reopen ++ text
      else do
        let text ← literalLoop (n + 1) (i + 1) rest
        return genByte c ++ text

/-- A digit of `%X`. -/
def upperDigit (d : Nat) : UInt8 := UInt8.ofNat (if d < 10 then 48 + d else 55 + d)

/-- `fprintf (header, "0x%02X, ", c)` -/
def genHashByte (c : UInt8) : List UInt8 :=
  ascii "0x" ++ [upperDigit (c.toNat / 16), upperDigit (c.toNat % 16)] ++ ascii ", "

/-- What is printed before the length, -/
def headerStart : List UInt8 :=
  ascii "#ifndef _BZIMAGE_\n" ++ ascii "#define _BZIMAGE_\n\n\n" ++ ascii "long lKernel = "

/-- between the length and the image, -/
def literalStart : List UInt8 := ascii ";\n" ++ ascii "unsigned char szKernel[] = \n" ++ [34]

/-- between the image and the hash, -/
def literalEnd : List UInt8 :=
  [34] ++ ascii "\n;\n" ++ ascii "unsigned char szKernelSHA1[] = \x7b\n"

/-- and behind the hash. -/
def headerEnd : List UInt8 := ascii "\x7d;\n" ++ ascii "\n\n#endif\n"

/-- What `gen_header` prints to `bzimage.h`; `digest` is what is in `sha_Message_Digest` before. -/
def headerText (digest : Vector UInt8 20) (szKernel : List UInt8) : Except Fault (List UInt8) := do
  let literal ← literalLoop 0 0 szKernel
  let digest ← shax digest szKernel (UInt32.ofNat szKernel.length)
  return headerStart ++ decimal (Int32.ofNat szKernel.length) ++ literalStart ++ literal ++
    literalEnd ++ digest.toList.flatMap genHashByte ++ headerEnd

/-- The length of the boot sector and the setup area, from the byte that counts its sectors. -/
def setupBytes (sectors : UInt8) : Nat := (sectors.toNat + 1) * 512

/-- The second hash, of what is behind the setup area. -/
def shaxBehindSetup (digest : Vector UInt8 20) (szKernel : List UInt8) (lKernel : UInt32) :
    Except Fault (Vector UInt8 20) :=
  match szKernel[0x1F1]? with
  | none => .error .outOfBounds
  | some c => shax digest (szKernel.drop (setupBytes c)) (lKernel - UInt32.ofNat (setupBytes c))

/-- `gen_header`, which prints the second hash on the terminal before it closes the header. -/
def genHeader (digest : Vector UInt8 20) (szKernel : List UInt8) : Except Fault (List UInt8) := do
  let text ← headerText digest szKernel
  let _ ← shaxBehindSetup digest szKernel (UInt32.ofNat szKernel.length)
  return text

/-! ## The header as C reads it -/

open CText

/-- What the declarations of `bzimage.h` declare. -/
structure BzimageHeader where
  lKernel : Nat
  szKernel : List UInt8
  szKernelSha1 : List UInt8
  deriving DecidableEq, Repr

/-- `long NAME = CONSTANT;` -/
def longDecl (name : List UInt8) : List Tok → Option (Nat × List Tok)
  | .word t :: .word n :: .punct e :: .word v :: .punct s :: ts =>
    if t = ascii "long" ∧ n = name ∧ e = 61 ∧ s = 59 then (constant v).map fun v => (v, ts)
    else none
  | _ => none

/-- The bytes of a list of constants, up to its closing brace. -/
def byteList : List Tok → Option (List UInt8 × List Tok)
  | .punct c :: ts => if c = 125 then some ([], ts) else none
  | .word w :: .punct c :: ts =>
    if c = 44 then
      (constant w).bind fun v => (byteList ts).map fun r => (UInt8.ofNat v :: r.1, r.2)
    else if c = 125 then (constant w).map fun v => ([UInt8.ofNat v], ts)
    else none
  | _ => none

/-- An initialiser of an array of `unsigned char` without a length. A literal comes with the byte
that ends it. -/
def arrayInit : List Tok → Option (List UInt8 × List Tok)
  | .str s :: ts => some (s ++ [0], ts)
  | .punct c :: ts => if c = 123 then byteList ts else none
  | _ => none

/-- `unsigned char NAME[] = INITIALISER;` -/
def arrayDecl (name : List UInt8) : List Tok → Option (List UInt8 × List Tok)
  | .word u :: .word c :: .word n :: .punct l :: .punct r :: .punct e :: ts =>
    if u = ascii "unsigned" ∧ c = ascii "char" ∧ n = name ∧ l = 91 ∧ r = 93 ∧ e = 61 then
      match arrayInit ts with
      | some (v, .punct s :: ts) => if s = 59 then some (v, ts) else none
      | _ => none
    else none
  | _ => none

/-- The declarations between the directives, of which the first holds as the name is not defined. -/
def readDecls (ts : List Tok) : Option BzimageHeader := do
  let (lKernel, ts) ← longDecl (ascii "lKernel") ts
  let (szKernel, ts) ← arrayDecl (ascii "szKernel") ts
  let (szKernelSha1, ts) ← arrayDecl (ascii "szKernelSHA1") ts
  if ts = [.directive (ascii "endif")] then return ⟨lKernel, szKernel, szKernelSha1⟩ else none

/-- `#include "bzimage.h"` -/
def readHeader (text : List UInt8) : Option BzimageHeader :=
  match (lex text).map joinStrs with
  | some (.directive i :: .directive d :: ts) =>
    if i = ascii "ifndef _BZIMAGE_" ∧ d = ascii "define _BZIMAGE_" then readDecls ts else none
  | _ => none

/-! ## `check_header` -/

/-- The first hash of `check_header`, and whether `memcmp` finds it in the header. -/
def checkHeader (digest : Vector UInt8 20) (h : BzimageHeader) :
    Except Fault (Vector UInt8 20 × Bool) := do
  let digest ← shax digest h.szKernel (UInt32.ofNat h.lKernel)
  return (digest, h.szKernelSha1.take 20 = digest.toList)

/-- The header that is printed can be read, its literal stands for the image and a NUL, and
`check_header` hashes the bytes that `gen_header` has hashed, and finds their hash. -/
def DenotesImage (image : List UInt8) : Prop :=
  ∀ digest digest' : Vector UInt8 20, ∃ text h hash,
    headerText digest image = .ok text ∧ readHeader text = some h ∧
      h.lKernel = image.length ∧ h.szKernel = image ++ [0] ∧
      shaxData h.szKernel (UInt32.ofNat h.lKernel) =
        shaxData image (UInt32.ofNat image.length) ∧
      shax digest image (UInt32.ofNat image.length) = .ok hash ∧
      checkHeader digest' h = .ok (hash, true)

/-! ## Reading the literal -/

theorem octalDigit_ofNat {d : Nat} (h : d < 8) : octalDigit (UInt8.ofNat (48 + d)) = some d := by
  have hall : ∀ d < 8, octalDigit (UInt8.ofNat (48 + d)) = some d := by decide
  exact hall d h

/-- **A byte of the image is read back as itself**, whatever comes behind it. -/
theorem run_genByte (s : List UInt8) (c : UInt8) :
    run (.str s) (genByte c) = some ([], .str (s ++ [c])) := by
  unfold genByte
  split_ifs with h
  · have hc := c.toNat_lt
    have hread := run_str_octal (s := s) (octalDigit_ofNat (show c.toNat / 64 < 8 by omega))
      (octalDigit_ofNat (show c.toNat / 8 % 8 < 8 by omega))
      (octalDigit_ofNat (show c.toNat % 8 < 8 by omega)) (by omega)
    rwa [show (c.toNat / 64 * 8 + c.toNat / 8 % 8) * 8 + c.toNat % 8 = c.toNat by omega,
      UInt8.ofNat_toNat] at hread
  · simp only [not_or] at h
    refine run_str_self h.1 h.2.1 fun hn => h.2.2.1 ?_
    rw [hn]
    decide

theorem whole_genByte (c : UInt8) : Whole (genByte c) := by
  unfold genByte
  split_ifs with h
  · have hc := c.toNat_lt
    have hall : ∀ d < 8, UInt8.ofNat (48 + d) ≠ 10 ∧ UInt8.ofNat (48 + d) ≠ 92 := by decide
    have hx := hall (c.toNat / 64) (by omega)
    have hy := hall (c.toNat / 8 % 8) (by omega)
    have hz := hall (c.toNat % 8) (by omega)
    constructor
    · simp only [splice, hx.1, hx.2, hy.2, and_false, false_and, if_false]
    · intro d hd
      obtain rfl : UInt8.ofNat (48 + c.toNat % 8) = d := by simpa using hd
      exact hz.2
  · simp only [not_or] at h
    exact Whole.singleton h.2.1

theorem int32_ofNat_succ (k : Nat) : Int32.ofNat k + 1 = Int32.ofNat (k + 1) := by
  rw [Int32.ofNat_add]
  rfl

/-- A counter that has not overflown. -/
theorem int32_ofNat_not_neg {k : Nat} (h : k < 2 ^ 31) : ¬Int32.ofNat k < 0 := by
  rw [Int32.lt_iff_toInt_lt, Int32.toInt_ofNat_of_lt h]
  exact Int.not_lt.mpr (Int.natCast_nonneg k)

/-- **The loop prints a row of literals** that together stand for the bytes from `k` on. -/
theorem literalLoop_reads (rest : List UInt8) {k : Nat} (hk : k + rest.length < 2 ^ 31) (i : Nat)
    (s : List UInt8) : ∃ (text : List UInt8) (ps : List (List UInt8)) (p : List UInt8),
      literalLoop (Int32.ofNat k) i rest = .ok text ∧ Whole text ∧
      run (.str s) text = some (ps.map .str, .str p) ∧ ps.flatten ++ p = s ++ rest := by
  induction rest generalizing k i s with
  | nil =>
    refine ⟨[], [], s, ?_, Whole.nil, rfl, (List.append_nil s).symm⟩
    rw [literalLoop, if_neg (int32_ofNat_not_neg (Nat.lt_of_le_of_lt (Nat.le_add_right k _) hk))]
  | cons c rest ih =>
    rw [List.length_cons] at hk
    have hn := int32_ofNat_not_neg (show k < 2 ^ 31 by omega)
    have hnext : k + 1 + rest.length < 2 ^ 31 := by omega
    have hbyte := run_genByte s c
    by_cases hi : i + 1 = 64
    · -- the line is full
      obtain ⟨text, ps, p, htext, hwhole, hrun, hbytes⟩ := ih hnext 0 []
      refine ⟨genByte c ++ reopen ++ text, (s ++ [c]) :: ps, p, ?_, ?_, ?_, ?_⟩
      · rw [literalLoop, if_neg hn]
        simp only [if_pos hi, int32_ofNat_succ, htext, ok_bind, pure_eq_ok]
      · exact ((whole_genByte c).append (Whole.of_not_mem (by decide))).append hwhole
      · exact run_append (run_append hbyte run_str_reopen) hrun
      · rw [List.flatten_cons, List.append_assoc, hbytes]
        simp
    · obtain ⟨text, ps, p, htext, hwhole, hrun, hbytes⟩ := ih hnext (i + 1) (s ++ [c])
      refine ⟨genByte c ++ text, ps, p, ?_, (whole_genByte c).append hwhole,
        run_append hbyte hrun, ?_⟩
      · rw [literalLoop, if_neg hn]
        simp only [if_neg hi, int32_ofNat_succ, htext, ok_bind, pure_eq_ok]
      · rw [hbytes, List.append_assoc, List.singleton_append]

/-- The counter overflows when there are 2^31 bytes or more. -/
theorem literalLoop_overflows (rest : List UInt8) {k : Nat} (hk : 2 ^ 31 ≤ k + rest.length)
    (hle : k ≤ 2 ^ 31) (i : Nat) : literalLoop (Int32.ofNat k) i rest = .error .outOfBounds := by
  induction rest generalizing k i with
  | nil =>
    obtain rfl : k = 2 ^ 31 := le_antisymm hle hk
    rw [literalLoop, if_pos (by decide)]
  | cons c rest ih =>
    rw [List.length_cons] at hk
    by_cases hend : k = 2 ^ 31
    · rw [hend, literalLoop, if_pos (by decide)]
    · have hnext : ∀ i, literalLoop (Int32.ofNat (k + 1)) i rest = .error .outOfBounds :=
        ih (by omega) (by omega)
      rw [literalLoop, if_neg (int32_ofNat_not_neg (by omega))]
      simp only [int32_ofNat_succ, hnext, error_bind, ite_self]

/-! ## Reading the numbers -/

theorem decimal_ofNat {n : Nat} (h : n < 2 ^ 31) :
    decimal (Int32.ofNat n) = ascii (Nat.repr n) := by
  rw [decimal, Int32.toInt_ofNat_of_lt h]
  rfl

/-- **A number in decimal is a constant**: one word, of digits, with no zero in front. -/
theorem repr_word (n : Nat) : ∃ c cs, ascii (Nat.repr n) = c :: cs ∧
    digits decimalDigit 10 0 (c :: cs) = some n ∧ (∀ d ∈ c :: cs, isWord d = true) ∧
      92 ∉ c :: cs ∧ (c = 48 → n = 0) := by
  have hone : ∀ d < 10, ∃ c, ascii (String.singleton (Nat.digitChar d)) = [c] ∧
      decimalDigit c = some d ∧ isWord c = true ∧ c ≠ 92 ∧ (c = 48 → d = 0) := by
    intro d hd
    refine ⟨UInt8.ofNat (48 + d), ?_⟩
    revert d
    decide
  induction n using Nat.strong_induction_on with
  | _ n ih =>
    by_cases hn : n < 10
    · obtain ⟨c, hc, hdigit, hword, hne, hzero⟩ := hone n hn
      refine ⟨c, [], by rw [Nat.repr_of_lt hn, hc], ?_, ?_, ?_, hzero⟩
      · rw [digits, hdigit, Option.bind_some, digits, Nat.zero_mul, Nat.zero_add]
      · simpa using hword
      · simpa using hne.symm
    · obtain ⟨c, cs, hcs, hdigits, hword, hne, hzero⟩ := ih (n / 10) (by omega)
      obtain ⟨d, hd, hdigit, hwordd, hned, -⟩ := hone (n % 10) (Nat.mod_lt n (by decide))
      refine ⟨c, cs ++ [d], ?_, ?_, ?_, ?_, fun h => ?_⟩
      · rw [Nat.repr_of_ge (n := n) (by omega), ascii_append, hcs, hd, List.cons_append]
      · rw [← List.cons_append, digits_append hdigits, digits, hdigit, Option.bind_some, digits,
          show n / 10 * 10 + n % 10 = n by omega]
      · simpa [or_imp, forall_and, hwordd] using hword
      · simpa [hned.symm] using hne
      · have := hzero h
        omega

/-- The word that `%02X` makes of a byte of the hash. -/
def hashWord (c : UInt8) : List UInt8 :=
  [48, 120, upperDigit (c.toNat / 16), upperDigit (c.toNat % 16)]

/-- The tokens of the hash. -/
def hashToks (l : List UInt8) : List Tok := l.flatMap fun c => [.word (hashWord c), .punct 44]

theorem upperDigit_spec {d : Nat} (h : d < 16) : hexDigit (upperDigit d) = some d ∧
    isWord (upperDigit d) = true ∧ upperDigit d ≠ 92 := by
  have hall : ∀ d < 16, hexDigit (upperDigit d) = some d ∧ isWord (upperDigit d) = true ∧
      upperDigit d ≠ 92 := by decide
  exact hall d h

theorem constant_hashWord (c : UInt8) : constant (hashWord c) = some c.toNat := by
  have hc := c.toNat_lt
  have hhigh := (upperDigit_spec (show c.toNat / 16 < 16 by omega)).1
  have hlow := (upperDigit_spec (show c.toNat % 16 < 16 by omega)).1
  have hvalue : digits hexDigit 16 0 [upperDigit (c.toNat / 16), upperDigit (c.toNat % 16)] =
      some c.toNat := by
    simp only [digits, hhigh, hlow, Option.bind_some, Nat.zero_mul, Nat.zero_add]
    congr 1
    omega
  exact hvalue

theorem run_genHashByte (start : Bool) (c : UInt8) : run (.gap start) (genHashByte c) =
    some ([.word (hashWord c), .punct 44], .gap false) := by
  have hc := c.toNat_lt
  have hhigh := (upperDigit_spec (show c.toNat / 16 < 16 by omega)).2.1
  have hlow := (upperDigit_spec (show c.toNat % 16 < 16 by omega)).2.1
  have hword : run (.gap start) (hashWord c) = some ([], .word (hashWord c)) := by
    refine run_gap_word fun d hd => ?_
    simp only [List.mem_cons, List.not_mem_nil, or_false] at hd
    obtain rfl | rfl | rfl | rfl := hd
    · decide
    · decide
    · exact hhigh
    · exact hlow
  have hcomma : run (.word (hashWord c)) (ascii ", ") =
      some ([.word (hashWord c), .punct 44], .gap false) := rfl
  exact run_append hword hcomma

theorem run_hash (l : List UInt8) (start : Bool) : ∃ start', run (.gap start)
    (l.flatMap genHashByte) = some (hashToks l, .gap start') := by
  induction l generalizing start with
  | nil => exact ⟨start, rfl⟩
  | cons c l ih =>
    obtain ⟨start', hl⟩ := ih false
    exact ⟨start', run_append (run_genHashByte start c) hl⟩

theorem whole_genHashByte (c : UInt8) : Whole (genHashByte c) := by
  have hc := c.toNat_lt
  have hhigh := (upperDigit_spec (show c.toNat / 16 < 16 by omega)).2.2
  have hlow := (upperDigit_spec (show c.toNat % 16 < 16 by omega)).2.2
  have hfront : Whole (ascii "0x") := Whole.of_not_mem (by decide)
  have hdigits := (Whole.singleton hhigh).append (Whole.singleton hlow)
  exact (hfront.append hdigits).append (Whole.of_not_mem (by decide))

theorem joinStrs_hashToks (l : List UInt8) (ts : List Tok) :
    joinStrs (hashToks l ++ ts) = hashToks l ++ joinStrs ts := by
  induction l with
  | nil => rfl
  | cons c l ih => exact congrArg ([Tok.word (hashWord c), .punct 44] ++ ·) ih

theorem byteList_hashToks (l : List UInt8) (ts : List Tok) :
    byteList (hashToks l ++ .punct 125 :: ts) = some (l, ts) := by
  induction l with
  | nil => rfl
  | cons c l ih =>
    show byteList (.word (hashWord c) :: .punct 44 :: (hashToks l ++ .punct 125 :: ts)) = _
    rw [byteList, if_pos rfl, constant_hashWord, Option.bind_some, ih, Option.map_some,
      UInt8.ofNat_toNat]

/-! ## Reading the header -/

/-- The tokens of `long lKernel = ...;` -/
def longToks (n : List UInt8) : List Tok :=
  [.word (ascii "long"), .word (ascii "lKernel"), .punct 61, .word n, .punct 59]

/-- The tokens of `unsigned char NAME[] =` -/
def arrayToks (name : List UInt8) : List Tok :=
  [.word (ascii "unsigned"), .word (ascii "char"), .word name, .punct 91, .punct 93, .punct 61]

/-- The tokens of the hash in its braces, and the last line. -/
def hashInit (hash : List UInt8) : List Tok :=
  .punct 123 :: (hashToks hash ++ [.punct 125, .punct 59, .directive (ascii "endif")])

/-- The tokens behind the first directives, with a row of literals. -/
def declToks (n : List UInt8) (ps : List (List UInt8)) (p hash : List UInt8) : List Tok :=
  longToks n ++ (arrayToks (ascii "szKernel") ++ (ps.map Tok.str ++ Tok.str p :: Tok.punct 59 ::
    (arrayToks (ascii "szKernelSHA1") ++ hashInit hash)))

/-- **What these tokens declare.** -/
theorem readDecls_declToks {n : List UInt8} {k : Nat} (hn : constant n = some k)
    (ps : List (List UInt8)) (p hash : List UInt8) :
    readDecls (joinStrs (declToks n ps p hash)) = some ⟨k, ps.flatten ++ p ++ [0], hash⟩ := by
  simp only [declToks, longToks, arrayToks, hashInit, List.cons_append, List.nil_append,
    joinStrs_directive, joinStrs_word, joinStrs_punct, joinStrs_strs, joinStrs_hashToks,
    joinStrs_nil]
  simp [readDecls, longDecl, arrayDecl, arrayInit, hn, byteList_hashToks]

theorem whole_fixed : Whole headerStart ∧ Whole literalStart ∧ Whole literalEnd ∧
    Whole headerEnd := by
  refine ⟨Whole.of_not_mem ?_, Whole.of_not_mem ?_, Whole.of_not_mem ?_, Whole.of_not_mem ?_⟩ <;>
    decide

/-- **The tokens of what is printed.** -/
theorem lex_header {n literal p : List UInt8} {ps : List (List UInt8)} (hash : List UInt8)
    (hword : run (.gap false) n = some ([], .word n)) (hn : Whole n) (hliteral : Whole literal)
    (hrun : run (.str []) literal = some (ps.map .str, .str p)) :
    lex (headerStart ++ n ++ literalStart ++ literal ++ literalEnd ++ hash.flatMap genHashByte ++
      headerEnd) = some (.directive (ascii "ifndef _BZIMAGE_") ::
        .directive (ascii "define _BZIMAGE_") :: declToks n ps p hash) := by
  obtain ⟨hws, hwl, hwe, hwh⟩ := whole_fixed
  obtain ⟨start, hhash⟩ := run_hash hash true
  have hfront : run (.gap true) headerStart = some ([.directive (ascii "ifndef _BZIMAGE_"),
      .directive (ascii "define _BZIMAGE_"), .word (ascii "long"), .word (ascii "lKernel"),
      .punct 61], .gap false) := by decide
  have hsemicolon : run (.word n) [59] = some ([.word n, .punct 59], .gap false) := rfl
  have hdecl : run (.gap false) (literalStart.drop 1) = some ([.word (ascii "unsigned"),
      .word (ascii "char"), .word (ascii "szKernel"), .punct 91, .punct 93, .punct 61],
      .str []) := by decide
  have hquote : run (.str p) [34] = some ([.str p], .gap false) := rfl
  have hhashDecl : run (.gap false) (literalEnd.drop 1) = some ([.punct 59,
      .word (ascii "unsigned"), .word (ascii "char"), .word (ascii "szKernelSHA1"), .punct 91,
      .punct 93, .punct 61, .punct 123], .gap true) := by decide
  have hend : run (.gap start) headerEnd =
      some ([.punct 125, .punct 59, .directive (ascii "endif")], .gap true) := by
    cases start <;> decide
  have hwhole := (((((hws.append hn).append hwl).append hliteral).append hwe).append
    (Whole.flatMap whole_genHashByte hash)).append hwh
  have hliterals := run_append (run_append hsemicolon hdecl) (run_append hrun hquote)
  have hall := run_append hfront (run_append hword (run_append hliterals (run_append hhashDecl
    (run_append hhash hend))))
  refine (lex_of_run hwhole ((congrArg (run (.gap true)) ?_).trans hall)).trans ?_
  · simp only [List.append_assoc]
    rfl
  · simp [declToks, longToks, arrayToks, hashInit]

/-- **What is printed for an image of fewer than 2^31 bytes** is read as its length, its bytes with
a NUL behind them, and its hash. -/
theorem readHeader_headerText {image : List UInt8} (h : image.length < 2 ^ 31)
    (digest : Vector UInt8 20) {hash : Vector UInt8 20}
    (hhash : shax digest image (UInt32.ofNat image.length) = .ok hash) :
    ∃ text, headerText digest image = .ok text ∧
      readHeader text = some ⟨image.length, image ++ [0], hash.toList⟩ := by
  obtain ⟨literal, ps, p, hliteral, hwhole, hrun, hbytes⟩ :=
    literalLoop_reads image (show 0 + image.length < 2 ^ 31 by omega) 0 []
  obtain ⟨c, cs, hrepr, hdigits, hword, hback, hzero⟩ := repr_word image.length
  have hconst : constant (c :: cs) = some image.length := by
    by_cases hc : c = 48
    · -- only 0 begins with a zero
      have h0 := hzero hc
      rw [h0] at hrepr ⊢
      rw [← hrepr]
      decide
    · exact constant_decimal hc hdigits
  have htext : headerText digest image = .ok (headerStart ++ (c :: cs) ++ literalStart ++ literal ++
      literalEnd ++ hash.toList.flatMap genHashByte ++ headerEnd) := by
    rw [headerText, show (0 : Int32) = Int32.ofNat 0 from rfl, hliteral, hhash, decimal_ofNat h,
      hrepr]
    rfl
  refine ⟨_, htext, ?_⟩
  have hlex := lex_header hash.toList (run_gap_word hword) (Whole.of_not_mem hback) hwhole hrun
  rw [readHeader, hlex, Option.map_some, joinStrs_directive, joinStrs_directive]
  have hdecls := readDecls_declToks hconst ps p hash.toList
  simp only [and_self, if_true, hdecls, hbytes, List.nil_append]

/-- The bytes that are hashed are those of the image. -/
theorem shaxData_image (image rest : List UInt8) :
    shaxData (image ++ rest) (UInt32.ofNat image.length) =
      shaxData image (UInt32.ofNat image.length) := by
  have hle : (UInt32.ofNat image.length).toNat ≤ image.length := by
    rw [UInt32.toNat_ofNat']
    exact Nat.mod_le _ _
  rw [shaxData, shaxData, if_pos hle, if_pos (by rw [List.length_append]; omega),
    List.take_append_of_le_length hle]

/-- The counter does not get to the end of a larger image. -/
theorem not_denotesImage_of_ge {image : List UInt8} (h : 2 ^ 31 ≤ image.length) :
    ¬DenotesImage image := by
  intro hdenotes
  obtain ⟨text, -, -, htext, -⟩ := hdenotes (Vector.replicate 20 0) (Vector.replicate 20 0)
  have hloop : literalLoop 0 0 image = .error .outOfBounds :=
    literalLoop_overflows image (show 2 ^ 31 ≤ 0 + image.length by omega) (Nat.zero_le _) 0
  rw [headerText, hloop] at htext
  exact absurd htext (by simp)

/-- A hash is had of as many bytes as there are. -/
theorem exists_shax_iff {digest : Vector UInt8 20} {data : List UInt8} {len : UInt32} :
    (∃ hash, shax digest data len = .ok hash) ↔ len.toNat ≤ data.length := by
  unfold shax shaxData
  split_ifs with h
  · exact iff_of_true ⟨_, rfl⟩ h
  · exact iff_of_false (fun hex => by simp at hex) h

theorem exists_shax_image (digest : Vector UInt8 20) (image : List UInt8) :
    ∃ hash, shax digest image (UInt32.ofNat image.length) = .ok hash := by
  rw [exists_shax_iff, UInt32.toNat_ofNat']
  exact Nat.mod_le _ _

/-- `gen_header` gets to its end when the image has all of the setup area that it announces; else
it crashes in the second hash. The header is printed by then, but not closed: what `stdio` still
holds of it is lost. -/
theorem genHeader_ends_iff {image : List UInt8} (h : image.length < 2 ^ 31)
    (digest : Vector UInt8 20) : (∃ text, genHeader digest image = .ok text) ↔
      ∃ c, image[0x1F1]? = some c ∧ setupBytes c ≤ image.length := by
  obtain ⟨hash, hhash⟩ := exists_shax_image digest image
  obtain ⟨text, htext, -⟩ := readHeader_headerText h digest hhash
  have hsecond : (∃ text, genHeader digest image = .ok text) ↔
      ∃ hash, shaxBehindSetup digest image (UInt32.ofNat image.length) = .ok hash := by
    simp [genHeader, htext, bind_eq_ok]
  rw [hsecond, shaxBehindSetup]
  cases hc : image[0x1F1]? with
  | none => simp
  | some c =>
    have hsetup : setupBytes c ≤ 256 * 512 := by
      have := c.toNat_lt
      unfold setupBytes
      omega
    have hlen : (UInt32.ofNat image.length).toNat = image.length :=
      UInt32.toNat_ofNat_of_lt' (Nat.lt_trans h (by decide))
    have hoff : (UInt32.ofNat (setupBytes c)).toNat = setupBytes c :=
      UInt32.toNat_ofNat_of_lt' (Nat.lt_of_le_of_lt hsetup (by decide))
    simp only [exists_shax_iff, UInt32.toNat_sub, hlen, hoff, List.length_drop,
      Option.some.injEq, exists_eq_left']
    omega

/-- **The header stands for the image** exactly when the image has fewer than 2^31 bytes. -/
theorem denotesImage_iff (image : List UInt8) : DenotesImage image ↔ image.length < 2 ^ 31 := by
  constructor
  · intro h
    by_contra hge
    exact not_denotesImage_of_ge (Nat.not_lt.mp hge) h
  · intro h digest digest'
    obtain ⟨hash, hhash⟩ := exists_shax_image digest image
    obtain ⟨text, htext, hread⟩ := readHeader_headerText h digest hhash
    have hdata := shaxData_image image [0]
    refine ⟨text, _, hash, htext, hread, rfl, rfl, hdata, hhash, ?_⟩
    have hcheck := (shax_congr hdata digest' digest).trans hhash
    have htake : hash.toList.take 20 = hash.toList :=
      List.take_of_length_le hash.length_toList.le
    rw [checkHeader, hcheck]
    simp [htake]

/-- An image of 2^31 bytes has one byte more than the counter can count. -/
theorem not_denotesImage_large : ¬DenotesImage (List.replicate (2 ^ 31) 0) :=
  not_denotesImage_of_ge List.length_replicate.ge

end MbBootTv

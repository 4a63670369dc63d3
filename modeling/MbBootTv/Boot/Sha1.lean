import MbBootTv.Strings

/-!
# SHA-1 (`sha1.c`)

The hash by which the kernel image is told from another. A context stops hashing when the length
of the message no longer fits in its two words; `sha1Fold_sound` says that this takes 2^61 bytes,
so `shax`, which counts in 32 bits, always gets a digest.
-/

namespace MbBootTv

/-- The five words of `Intermediate_Hash`, or `A` to `E` of a round. -/
structure HashWords where
  a : UInt32
  b : UInt32
  c : UInt32
  d : UInt32
  e : UInt32
  deriving DecidableEq, Repr

/-- `SHA1Context`. A context whose block has filled up has an index of 0. -/
structure Sha1Context where
  intermediateHash : HashWords
  lengthLow : UInt32
  lengthHigh : UInt32
  messageBlockIndex : Fin 64
  messageBlock : Vector UInt8 64
  computed : Bool
  corrupted : Nat
  deriving DecidableEq

/-- `shaStateError` -/
def shaStateError : Nat := 3

/-- `SHA1CircularShift` -/
def sha1CircularShift (bits word : UInt32) : UInt32 := word <<< bits ||| word >>> (32 - bits)

/-- `SHA1Reset` -/
def sha1Reset : Sha1Context where
  intermediateHash := ⟨0x67452301, 0xEFCDAB89, 0x98BADCFE, 0x10325476, 0xC3D2E1F0⟩
  lengthLow := 0
  lengthHigh := 0
  messageBlockIndex := 0
  messageBlock := Vector.replicate 64 0
  computed := false
  corrupted := 0

/-! ## Blocks -/

/-- `W[t]` of the first sixteen words. -/
def blockWord (m : Vector UInt8 64) (t : Fin 16) : UInt32 :=
  (m.get ⟨t * 4, by omega⟩).toUInt32 <<< 24 ||| (m.get ⟨t * 4 + 1, by omega⟩).toUInt32 <<< 16 |||
    (m.get ⟨t * 4 + 2, by omega⟩).toUInt32 <<< 8 ||| (m.get ⟨t * 4 + 3, by omega⟩).toUInt32

/-- `W`, of which there are `16 + n` words. -/
def wordSequence (m : Vector UInt8 64) : Nat → List UInt32
  | 0 => List.ofFn (blockWord m)
  | n + 1 =>
    let w := wordSequence m n
    w ++ [sha1CircularShift 1
      (w.getD (n + 13) 0 ^^^ w.getD (n + 8) 0 ^^^ w.getD (n + 2) 0 ^^^ w.getD n 0)]

/-- What round `t` does with `B`, `C` and `D`, and its constant. -/
def roundTerm (t : Nat) (h : HashWords) : UInt32 :=
  if t < 20 then (h.b &&& h.c ||| ~~~h.b &&& h.d) + 0x5A827999
  else if t < 40 then (h.b ^^^ h.c ^^^ h.d) + 0x6ED9EBA1
  else if t < 60 then (h.b &&& h.c ||| h.b &&& h.d ||| h.c &&& h.d) + 0x8F1BBCDC
  else (h.b ^^^ h.c ^^^ h.d) + 0xCA62C1D6

/-- The rounds from `t` on. -/
def rounds : Nat → List UInt32 → HashWords → HashWords
  | _, [], h => h
  | t, w :: ws, h =>
    let temp := sha1CircularShift 5 h.a + roundTerm t h + h.e + w
    rounds (t + 1) ws ⟨temp, h.a, sha1CircularShift 30 h.b, h.c, h.d⟩

/-- `SHA1ProcessMessageBlock` -/
def sha1ProcessMessageBlock (x : Sha1Context) : Sha1Context :=
  let h := x.intermediateHash
  let r := rounds 0 (wordSequence x.messageBlock 64) h
  { x with
    intermediateHash := ⟨h.a + r.a, h.b + r.b, h.c + r.c, h.d + r.d, h.e + r.e⟩
    messageBlockIndex := 0 }

/-! ## Input and result -/

/-- `Length_Low += 8`, with the carry. -/
def sha1AddLength (x : Sha1Context) : Sha1Context :=
  let low := x.lengthLow + 8
  let high := if low = 0 then x.lengthHigh + 1 else x.lengthHigh
  let corrupted := if low = 0 ∧ high = 0 then 1 else x.corrupted
  { x with lengthLow := low, lengthHigh := high, corrupted := corrupted }

/-- One byte of `SHA1Input`. -/
def sha1InputByte (x : Sha1Context) (c : UInt8) : Sha1Context :=
  let i := x.messageBlockIndex
  let y := sha1AddLength { x with messageBlock := x.messageBlock.set i.val c i.isLt }
  if h : i.val + 1 < 64 then { y with messageBlockIndex := ⟨i.val + 1, h⟩ }
  else sha1ProcessMessageBlock y

/-- The loop of `SHA1Input`, which ends when the context is corrupted. -/
def sha1Fold (x : Sha1Context) (data : List UInt8) : Sha1Context :=
  data.foldl (fun x c => if x.corrupted = 0 then sha1InputByte x c else x) x

/-- `SHA1Input` -/
def sha1Input (x : Sha1Context) (data : List UInt8) : Sha1Context :=
  if data.length = 0 then x
  else if x.computed then { x with corrupted := shaStateError }
  else sha1Fold x data

/-- A word, its high byte first. -/
def bigEndian (w : UInt32) : List UInt8 :=
  [(w >>> 24).toUInt8, (w >>> 16).toUInt8, (w >>> 8).toUInt8, w.toUInt8]

/-- `SHA1PadMessage` -/
def sha1PadMessage (x : Sha1Context) : Sha1Context :=
  let padded := fun (x : Sha1Context) (mark : Bool) (k : Fin 64) =>
    if k < x.messageBlockIndex then x.messageBlock.get k
    else if mark ∧ k = x.messageBlockIndex then 0x80
    else 0
  let lengths := bigEndian x.lengthHigh ++ bigEndian x.lengthLow
  let closing := fun (x : Sha1Context) (mark : Bool) => sha1ProcessMessageBlock
    { x with messageBlock := Vector.ofFn fun k =>
        if k.val < 56 then padded x mark k else lengths.getD (k - 56) 0 }
  if 55 < x.messageBlockIndex.val then
    -- the length goes into a block of its own
    closing (sha1ProcessMessageBlock { x with messageBlock := Vector.ofFn (padded x true) }) false
  else closing x true

/-- `SHA1Result`: a corrupted context leaves the digest as it was. -/
def sha1Result (x : Sha1Context) (digest : Vector UInt8 20) : Vector UInt8 20 :=
  if x.corrupted ≠ 0 then digest
  else
    let h := (if x.computed then x else sha1PadMessage x).intermediateHash
    let bytes := bigEndian h.a ++ bigEndian h.b ++ bigEndian h.c ++ bigEndian h.d ++ bigEndian h.e
    Vector.ofFn fun i => bytes.getD i 0

/-! ## What is hashed -/

/-- `len` bytes of `data`. -/
def shaxData (data : List UInt8) (len : UInt32) : Except Fault (List UInt8) :=
  if len.toNat ≤ data.length then .ok (data.take len.toNat) else .error .outOfBounds

/-- The four bytes of an `unsigned int` in memory. -/
def lengthBytes (len : UInt32) : List UInt8 := (bigEndian len).reverse

/-- `shax`, which is in `gen_header.c` and in `check_header.c`. -/
def shax (digest : Vector UInt8 20) (data : List UInt8) (len : UInt32) :
    Except Fault (Vector UInt8 20) := do
  let data ← shaxData data len
  return sha1Result (sha1Input (sha1Input sha1Reset (lengthBytes len)) data) digest

example : (sha1Result (sha1Input sha1Reset (ascii "abc")) (Vector.replicate 20 0)).toList =
    [0xa9, 0x99, 0x3e, 0x36, 0x47, 0x06, 0x81, 0x6a, 0xba, 0x3e,
      0x25, 0x71, 0x78, 0x50, 0xc2, 0x6c, 0x9c, 0xd0, 0xd8, 0x9d] := by
  decide +kernel

/-! ## The length -/

/-- The context is in order behind `n` bytes. -/
structure Sha1Context.Counts (x : Sha1Context) (n : Nat) : Prop where
  length : x.lengthHigh.toNat * 2 ^ 32 + x.lengthLow.toNat = 8 * n
  sound : x.corrupted = 0
  open_ : x.computed = false

theorem sha1Reset_counts : sha1Reset.Counts 0 := ⟨rfl, rfl, rfl⟩

@[simp] theorem sha1ProcessMessageBlock_lengthLow (x : Sha1Context) :
    (sha1ProcessMessageBlock x).lengthLow = x.lengthLow := by
  unfold sha1ProcessMessageBlock
  rfl

@[simp] theorem sha1ProcessMessageBlock_lengthHigh (x : Sha1Context) :
    (sha1ProcessMessageBlock x).lengthHigh = x.lengthHigh := by
  unfold sha1ProcessMessageBlock
  rfl

@[simp] theorem sha1ProcessMessageBlock_corrupted (x : Sha1Context) :
    (sha1ProcessMessageBlock x).corrupted = x.corrupted := by
  unfold sha1ProcessMessageBlock
  rfl

@[simp] theorem sha1ProcessMessageBlock_computed (x : Sha1Context) :
    (sha1ProcessMessageBlock x).computed = x.computed := by
  unfold sha1ProcessMessageBlock
  rfl

theorem Sha1Context.Counts.addLength {x : Sha1Context} {n : Nat} (h : x.Counts n)
    (hn : n + 1 < 2 ^ 61) : (sha1AddLength x).Counts (n + 1) := by
  have hlen := h.length
  have hlow := x.lengthLow.toNat_lt
  have hhigh := x.lengthHigh.toNat_lt
  have hadd : (x.lengthLow + 8).toNat = (x.lengthLow.toNat + 8) % 2 ^ 32 :=
    UInt32.toNat_add _ _
  unfold sha1AddLength
  by_cases hwrap : x.lengthLow + 8 = 0
  · have hnat : (x.lengthLow + 8).toNat = 0 := congrArg UInt32.toNat hwrap
    have hsucc : (x.lengthHigh + 1).toNat = x.lengthHigh.toNat + 1 :=
      (UInt32.toNat_add _ _).trans
        (Nat.mod_eq_of_lt (show x.lengthHigh.toNat + 1 < 2 ^ 32 by omega))
    have hne : x.lengthHigh + 1 ≠ 0 := fun hzero => by
      have : (x.lengthHigh + 1).toNat = 0 := congrArg UInt32.toNat hzero
      omega
    simp only [hwrap, if_true, true_and, if_neg hne]
    refine ⟨?_, h.sound, h.open_⟩
    dsimp only
    rw [hsucc, UInt32.toNat_zero, Nat.add_zero]
    omega
  · have hnat : (x.lengthLow + 8).toNat ≠ 0 := fun h0 => hwrap (UInt32.toNat_inj.mp h0)
    simp only [hwrap, false_and, if_false]
    refine ⟨?_, h.sound, h.open_⟩
    dsimp only
    rw [hadd]
    omega

/-- **One byte more.** -/
theorem Sha1Context.Counts.inputByte {x : Sha1Context} {n : Nat} (h : x.Counts n)
    (hn : n + 1 < 2 ^ 61) (c : UInt8) : (sha1InputByte x c).Counts (n + 1) := by
  have hset : ({ x with messageBlock :=
      x.messageBlock.set x.messageBlockIndex.val c x.messageBlockIndex.isLt } : Sha1Context).Counts
        n := ⟨h.length, h.sound, h.open_⟩
  have hadd := hset.addLength hn
  unfold sha1InputByte
  dsimp only
  split_ifs
  · exact ⟨hadd.length, hadd.sound, hadd.open_⟩
  · exact ⟨by simpa using hadd.length, by simpa using hadd.sound, by simpa using hadd.open_⟩

/-- **No message of fewer than 2^61 bytes is too long.** -/
theorem sha1Fold_sound {x : Sha1Context} {n : Nat} (h : x.Counts n) {data : List UInt8}
    (hn : n + data.length < 2 ^ 61) : (sha1Fold x data).Counts (n + data.length) := by
  unfold sha1Fold
  induction data generalizing x n with
  | nil => exact h
  | cons c data ih =>
    rw [List.length_cons] at hn ⊢
    rw [List.foldl_cons, if_pos h.sound, show n + (data.length + 1) = n + 1 + data.length by omega]
    exact ih (h.inputByte (by omega) c) (by omega)

theorem sha1Input_counts {x : Sha1Context} {n : Nat} (h : x.Counts n) (data : List UInt8)
    (hn : n + data.length < 2 ^ 61) : (sha1Input x data).Counts (n + data.length) := by
  unfold sha1Input
  split_ifs with h0 hc
  · rw [h0]
    exact h
  · rw [h.open_] at hc
    exact absurd hc Bool.false_ne_true
  · exact sha1Fold_sound h hn

/-- What was in the digest does not matter. -/
theorem sha1Result_eq {x : Sha1Context} {n : Nat} (h : x.Counts n) (d d' : Vector UInt8 20) :
    sha1Result x d = sha1Result x d' := by
  have hsound : ¬x.corrupted ≠ 0 := fun hne => hne h.sound
  rw [sha1Result, if_neg hsound, sha1Result, if_neg hsound]

/-- **`shax` gets its digest** from the bytes it is given, and from nothing else. -/
theorem shax_congr {data data' : List UInt8} {len : UInt32}
    (h : shaxData data len = shaxData data' len)
    (d d' : Vector UInt8 20) : shax d data len = shax d' data' len := by
  unfold shax
  rw [h]
  refine bind_congr_ok fun bytes hbytes => ?_
  have hlen : bytes.length < 2 ^ 32 := by
    unfold shaxData at hbytes
    split_ifs at hbytes with hle
    rw [Except.ok.injEq] at hbytes
    rw [← hbytes, List.length_take]
    have := len.toNat_lt
    omega
  have hprefix := sha1Input_counts sha1Reset_counts (lengthBytes len) (by
    rw [show (lengthBytes len).length = 4 from rfl]
    omega)
  have hcounts := sha1Input_counts hprefix bytes (by
    rw [show (lengthBytes len).length = 4 from rfl]
    omega)
  exact congrArg Except.ok (sha1Result_eq hcounts d d')

end MbBootTv

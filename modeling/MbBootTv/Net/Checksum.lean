import MbBootTv.Lib.OnesComplement
import Mathlib.Data.List.GetD
import Mathlib.Data.List.Induction

/-!
# The checksum of a packet (`eb/misc.c`)

`ipchksum` adds up the bytes of a packet as little-endian words, with the carry taken around the
end, and `add_ipchksums` puts together the checksums of two pieces. Both count modulo 65535
(`octetSum`): a piece that starts at an odd byte counts 256 times as much, which on a folded sum is
a swap of its two bytes.
-/

namespace MbBootTv

open OnesComplement

/-- `bswap_16` -/
def bswap16 (x : UInt16) : UInt16 := (x <<< 8) ||| (x >>> 8)

/-- The loop of `ipchksum`: `sum` after `i` bytes. It stays far below the width of a long. -/
def ipchksumLoop (data : Bytes) (pos : Nat) : Nat → Nat
  | 0 => 0
  | i + 1 =>
    let value := (data (pos + i)).toNat
    let value := if i % 2 = 1 then value <<< 8 else value
    let sum := ipchksumLoop data pos i + value
    if 0xFFFF < sum then (sum + sum >>> 16) % 2 ^ 16 else sum

/-- `ipchksum`, of the `length` bytes at `pos`. -/
def ipchksum (data : Bytes) (pos length : Nat) : UInt16 :=
  ~~~UInt16.ofNat (ipchksumLoop data pos length)

/-- `add_ipchksums` -/
def addIpchksums (offset : Nat) (sum new : UInt16) : UInt16 :=
  let sum := ~~~sum
  let new := ~~~new
  let new := if offset % 2 = 1 then bswap16 new else new
  let checksum := sum.toNat + new.toNat
  let checksum := if 0xFFFF < checksum then checksum - 0xFFFF else checksum
  ~~~UInt16.ofNat checksum

/-! ## The sum of the words -/

/-- The bytes from `pos` on, as digits of little-endian words. -/
def octetSum (data : Bytes) (pos : Nat) : Nat → Nat
  | 0 => 0
  | i + 1 => octetSum data pos i + 256 ^ (i % 2) * (data (pos + i)).toNat

theorem octetSum_congr {a b : Bytes} {p q n : Nat} (h : ∀ i < n, a (p + i) = b (q + i)) :
    octetSum a p n = octetSum b q n := by
  induction n with
  | zero => rfl
  | succ n ih =>
    rw [octetSum, octetSum, ih fun i hi => h i (hi.trans (Nat.lt_succ_self n)),
      h n (Nat.lt_succ_self n)]

/-- A piece behind `m` bytes counts as much as it does alone, or 256 times as much. -/
theorem octetSum_add (data : Bytes) (pos m n : Nat) :
    octetSum data pos (m + n) ≡
      octetSum data pos m + 256 ^ (m % 2) * octetSum data (pos + m) n [MOD 65535] := by
  induction n with
  | zero => simp [octetSum, Nat.ModEq.refl]
  | succ n ih =>
    rw [← Nat.add_assoc, octetSum, octetSum, Nat.mul_add, ← Nat.add_assoc (octetSum data pos m),
      ← Nat.mul_assoc, Nat.add_assoc pos m n]
    -- 256 times 256 is one more than the modulus.
    have hdigit : 256 ^ ((m + n) % 2) ≡ 256 ^ (m % 2) * 256 ^ (n % 2) [MOD 65535] := by
      rcases Nat.mod_two_eq_zero_or_one m with hm | hm <;>
        rcases Nat.mod_two_eq_zero_or_one n with hn | hn <;>
        rw [Nat.add_mod, hm, hn] <;> decide
    exact ih.add (hdigit.mul_right _)

theorem octetSum_add_eq_zero_iff (data : Bytes) (pos m n : Nat) :
    octetSum data pos (m + n) = 0 ↔ octetSum data pos m = 0 ∧ octetSum data (pos + m) n = 0 := by
  induction n with
  | zero => simp [octetSum]
  | succ n ih =>
    rw [← Nat.add_assoc, octetSum, octetSum, Nat.add_eq_zero_iff, ih, Nat.add_eq_zero_iff,
      Nat.add_assoc pos m n]
    simp [and_assoc]

/-- **The loop adds up the words** and takes the carry around the end. -/
theorem ipchksumLoop_eq (data : Bytes) (pos n : Nat) :
    ipchksumLoop data pos n = wrap 65535 (octetSum data pos n) := by
  induction n with
  | zero => rfl
  | succ n ih =>
    have hvalue : (if n % 2 = 1 then (data (pos + n)).toNat <<< 8 else (data (pos + n)).toNat) =
        256 ^ (n % 2) * (data (pos + n)).toNat := by
      rcases Nat.mod_two_eq_zero_or_one n with h | h
      · rw [h, if_neg (by decide), pow_zero, Nat.one_mul]
      · rw [h, if_pos rfl, Nat.shiftLeft_eq, Nat.mul_comm, pow_one]
    have hbyte : 256 ^ (n % 2) * (data (pos + n)).toNat ≤ 65280 := by
      have hb : (data (pos + n)).toNat < 256 := (data (pos + n)).toNat_lt
      rcases Nat.mod_two_eq_zero_or_one n with h | h <;> rw [h] <;> omega
    have hsum := wrap_le (by decide : 0 < 65535) (octetSum data pos n)
    unfold ipchksumLoop
    dsimp only
    rw [hvalue, ih, octetSum, ← wrap_wrap_add]
    generalize hs : wrap 65535 (octetSum data pos n) + 256 ^ (n % 2) * (data (pos + n)).toNat = sum
    rw [← carry_eq_wrap (by omega), carry, Nat.shiftRight_eq_div_pow]
    by_cases hover : 65535 < sum
    · rw [if_pos hover, if_pos hover]
      omega
    · rw [if_neg hover, if_neg hover]

/-! ## Putting pieces together -/

theorem toNat_bswap16 (x : UInt16) : (bswap16 x).toNat = x.toNat % 256 * 256 + x.toNat / 256 := by
  have hx := x.toNat_lt
  have hhigh : (x <<< 8).toNat = (x.toNat % 256) <<< 8 := by
    rw [UInt16.toNat_shiftLeft, Nat.shiftLeft_eq, Nat.shiftLeft_eq]
    show x.toNat * 2 ^ 8 % 2 ^ 16 = _
    omega
  have hlow : (x >>> 8).toNat = x.toNat / 256 := by
    rw [UInt16.toNat_shiftRight, Nat.shiftRight_eq_div_pow]
    rfl
  rw [bswap16, UInt16.toNat_or, hhigh, hlow, ← Nat.shiftLeft_add_eq_or_of_lt (by omega),
    Nat.shiftLeft_eq]

/-- A swap of the bytes is a product with 256. -/
theorem toNat_bswap16_eq_wrap (x : UInt16) : (bswap16 x).toNat = wrap 65535 (256 * x.toNat) := by
  have hx := x.toNat_lt
  rw [toNat_bswap16, ← wrap_of_le (by omega : x.toNat % 256 * 256 + x.toNat / 256 ≤ 65535),
    wrap_eq_wrap_iff]
  refine ⟨by omega, ?_⟩
  unfold Nat.ModEq
  omega

theorem toNat_not_ipchksum (data : Bytes) (pos n : Nat) :
    (~~~ipchksum data pos n).toNat = wrap 65535 (octetSum data pos n) := by
  have hle := wrap_le (by decide : 0 < 65535) (octetSum data pos n)
  rw [ipchksum, UInt16.not_not, ipchksumLoop_eq, UInt16.toNat_ofNat', Nat.mod_eq_of_lt (by omega)]

/-- **A sum of zero**: a packet with its checksum in it. -/
theorem ipchksum_eq_zero_iff (data : Bytes) (pos n : Nat) :
    ipchksum data pos n = 0 ↔ octetSum data pos n ≠ 0 ∧ 65535 ∣ octetSum data pos n := by
  rw [← wrap_eq_self_iff (by decide), ← toNat_not_ipchksum]
  constructor
  · intro h
    rw [h]
    rfl
  · intro h
    have hnot : ~~~ipchksum data pos n = 65535 := UInt16.toNat_inj.mp h
    rw [← UInt16.not_not (a := ipchksum data pos n), hnot]
    rfl

/-- **Two pieces**, the second behind `offset` bytes. -/
theorem not_addIpchksums (offset : Nat) (sum new : UInt16) :
    (~~~addIpchksums offset sum new).toNat =
      wrap 65535 ((~~~sum).toNat + 256 ^ (offset % 2) * (~~~new).toNat) := by
  have hnew : (if offset % 2 = 1 then bswap16 (~~~new) else ~~~new).toNat =
      wrap 65535 (256 ^ (offset % 2) * (~~~new).toNat) := by
    rcases Nat.mod_two_eq_zero_or_one offset with h | h
    · have := (~~~new).toNat_lt
      rw [h, if_neg (by decide), pow_zero, Nat.one_mul, wrap_of_le (by omega)]
    · rw [h, if_pos rfl, pow_one, toNat_bswap16_eq_wrap]
  have hs := (~~~sum).toNat_lt
  have hn := wrap_le (by decide : 0 < 65535) (256 ^ (offset % 2) * (~~~new).toNat)
  unfold addIpchksums
  dsimp only
  rw [UInt16.not_not, hnew, UInt16.toNat_ofNat']
  show carry 65535 _ % 2 ^ 16 = _
  have hsum : (~~~sum).toNat = wrap 65535 (~~~sum).toNat := (wrap_of_le (by omega)).symm
  rw [carry_eq_wrap (by omega), hsum, wrap_add_wrap, ← hsum]
  exact Nat.mod_eq_of_lt ((wrap_le (by decide) _).trans_lt (by decide))

theorem addIpchksums_ipchksum (data : Bytes) (pos m n : Nat) :
    addIpchksums m (ipchksum data pos m) (ipchksum data (pos + m) n) =
      ipchksum data pos (m + n) := by
  rw [← UInt16.not_inj, ← UInt16.toNat_inj, not_addIpchksums, toNat_not_ipchksum,
    toNat_not_ipchksum, toNat_not_ipchksum, wrap_wrap_add, wrap_eq_wrap_iff]
  constructor
  · rw [octetSum_add_eq_zero_iff, Nat.add_eq_zero_iff, Nat.mul_eq_zero, wrap_eq_zero_iff]
    simp
  · exact (((wrap_modEq _ _).mul_left _).add_left _).trans (octetSum_add data pos m n).symm

theorem ipchksum_congr {a b : Bytes} {p q n : Nat} (h : ∀ i < n, a (p + i) = b (q + i)) :
    ipchksum a p n = ipchksum b q n := by
  rw [ipchksum, ipchksum, ipchksumLoop_eq, ipchksumLoop_eq, octetSum_congr h]

/-- A piece of a packet, in memory. -/
def pieceAt (piece : List UInt8) : Bytes := fun i => piece.getD i 0

/-- The checksum of a packet that comes in pieces, each one added behind those before it. -/
def chksumOfPieces (pieces : List (List UInt8)) : Nat × UInt16 :=
  pieces.foldl (fun (offset, sum) piece => (offset + piece.length,
    addIpchksums offset sum (ipchksum (pieceAt piece) 0 piece.length))) (0, 0xFFFF)

theorem addIpchksums_append (a b : List UInt8) :
    addIpchksums a.length (ipchksum (pieceAt a) 0 a.length) (ipchksum (pieceAt b) 0 b.length) =
      ipchksum (pieceAt (a ++ b)) 0 (a ++ b).length := by
  have ha : ipchksum (pieceAt a) 0 a.length = ipchksum (pieceAt (a ++ b)) 0 a.length :=
    ipchksum_congr fun i hi => by
      rw [pieceAt, pieceAt, Nat.zero_add, List.getD_append _ _ _ _ hi]
  have hb : ipchksum (pieceAt b) 0 b.length = ipchksum (pieceAt (a ++ b)) (0 + a.length) b.length :=
    ipchksum_congr fun i _ => by
      rw [pieceAt, pieceAt, Nat.zero_add, Nat.zero_add,
        List.getD_append_right _ _ _ _ (Nat.le_add_right _ _), Nat.add_sub_cancel_left]
  rw [ha, hb, addIpchksums_ipchksum, List.length_append]

/-- **Pieces of any lengths.** However a packet is cut, the checksums of its pieces add up to its
own. -/
theorem chksumOfPieces_eq (pieces : List (List UInt8)) :
    chksumOfPieces pieces =
      (pieces.flatten.length, ipchksum (pieceAt pieces.flatten) 0 pieces.flatten.length) := by
  induction pieces using List.reverseRecOn with
  | nil => rfl
  | append_singleton pieces piece ih =>
    unfold chksumOfPieces at ih ⊢
    rw [List.foldl_append, ih, List.flatten_append, List.flatten_singleton]
    show (_ + _, addIpchksums _ _ _) = _
    rw [addIpchksums_append, List.length_append]

/-! ## A word that changed -/

/-- The sum after a store of a word. -/
theorem octetSum_putLe (data : Bytes) (pos k n v : Nat) (h : 2 * k + 2 ≤ n) :
    octetSum (data.putLe (pos + 2 * k) 2 v) pos n + data.leNat (pos + 2 * k) 2 =
      octetSum data pos n + v % 65536 := by
  induction n with
  | zero => omega
  | succ n ih =>
    by_cases hn : 2 * k + 2 ≤ n
    · have hsame : data.putLe (pos + 2 * k) 2 v (pos + n) = data (pos + n) :=
        Bytes.putLe_of_not_mem (by omega)
      rw [octetSum, octetSum, hsame]
      have := ih hn
      omega
    · obtain rfl : n = 2 * k + 1 := by omega
      have hbelow : octetSum (data.putLe (pos + 2 * k) 2 v) pos (2 * k) = octetSum data pos (2 * k) :=
        octetSum_congr fun i hi => Bytes.putLe_of_not_mem (by omega)
      have hnew := data.leNat_putLe (pos + 2 * k) 2 v
      have hodd : (2 * k + 1) % 2 = 1 := by omega
      have heven : 2 * k % 2 = 0 := by omega
      simp only [Bytes.leNat, Nat.mul_zero, Nat.add_zero] at hnew
      rw [octetSum, octetSum, octetSum, octetSum, hbelow, hodd, heven]
      simp only [Bytes.leNat, Nat.mul_zero, Nat.add_zero, pow_one, pow_zero, Nat.one_mul,
        ← Nat.add_assoc]
      rw [show (65536 : Nat) = 256 ^ 2 from rfl, ← hnew]
      omega

end MbBootTv

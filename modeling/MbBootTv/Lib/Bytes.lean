import Mathlib.Tactic.Ring
import Mathlib.Algebra.Order.Ring.Nat

/-!
# Byte memories

A region of memory, or of a medium, is a function from addresses to bytes. Copies and fills
change an interval and nothing else; little-endian numbers are read from and written to any
address. Nothing here knows how long a region is: bounds belong to whoever owns it.
-/

namespace MbBootTv

/-- A region of memory, addressed from its first byte. -/
abbrev Bytes := Nat → UInt8

namespace Bytes

/-! ## Copying and filling -/

/-- `memcpy (dst + at, src, n)`. -/
def copy (dst : Bytes) (pos : Nat) (src : Bytes) (n : Nat) : Bytes :=
  fun i => if pos ≤ i ∧ i < pos + n then src (i - pos) else dst i

/-- `memset (dst + at, v, n)`. -/
def fill (dst : Bytes) (pos : Nat) (v : UInt8) (n : Nat) : Bytes :=
  fun i => if pos ≤ i ∧ i < pos + n then v else dst i

theorem copy_of_mem {dst src : Bytes} {pos n i : Nat} (h : pos ≤ i) (h' : i < pos + n) :
    dst.copy pos src n i = src (i - pos) :=
  if_pos ⟨h, h'⟩

theorem copy_of_lt {dst src : Bytes} {pos n i : Nat} (h : i < pos) :
    dst.copy pos src n i = dst i :=
  if_neg (by omega)

theorem copy_of_ge {dst src : Bytes} {pos n i : Nat} (h : pos + n ≤ i) :
    dst.copy pos src n i = dst i :=
  if_neg (by omega)

theorem copy_zero_of_lt {dst src : Bytes} {n i : Nat} (h : i < n) :
    dst.copy 0 src n i = src i := by
  rw [copy_of_mem (Nat.zero_le i) (by omega), Nat.sub_zero]

theorem fill_of_mem {dst : Bytes} {pos n i : Nat} {v : UInt8} (h : pos ≤ i) (h' : i < pos + n) :
    dst.fill pos v n i = v :=
  if_pos ⟨h, h'⟩

theorem fill_of_ge {dst : Bytes} {pos n i : Nat} {v : UInt8} (h : pos + n ≤ i) :
    dst.fill pos v n i = dst i :=
  if_neg (by omega)

/-- The first `n` bytes, and zeros. -/
def clip (b : Bytes) (n : Nat) : Bytes := fun i => if i < n then b i else 0

theorem clip_of_lt {b : Bytes} {n i : Nat} (h : i < n) : b.clip n i = b i := if_pos h

theorem clip_congr {b c : Bytes} {n : Nat} (h : ∀ i < n, b i = c i) : b.clip n = c.clip n := by
  funext i
  by_cases hi : i < n
  · rw [clip_of_lt hi, clip_of_lt hi, h i hi]
  · rw [clip, clip, if_neg hi, if_neg hi]

theorem copy_clip (dst src : Bytes) (n : Nat) : dst.copy 0 (src.clip n) n = dst.copy 0 src n := by
  funext i
  by_cases hi : i < n
  · rw [copy_zero_of_lt hi, copy_zero_of_lt hi, clip_of_lt hi]
  · rw [copy_of_ge (by omega), copy_of_ge (by omega)]

theorem fill_eq_copy (dst : Bytes) (pos : Nat) (v : UInt8) (n : Nat) :
    dst.fill pos v n = dst.copy pos (fun _ => v) n := rfl

theorem copy_zero_len (dst src : Bytes) (pos : Nat) : dst.copy pos src 0 = dst := by
  funext i
  exact if_neg (by omega)

theorem copy_congr {dst src src' : Bytes} {pos n : Nat} (h : ∀ i < n, src i = src' i) :
    dst.copy pos src n = dst.copy pos src' n := by
  funext i
  by_cases hi : pos ≤ i ∧ i < pos + n
  · rw [copy_of_mem hi.1 hi.2, copy_of_mem hi.1 hi.2, h _ (by omega)]
  · rw [copy, copy, if_neg hi, if_neg hi]

/-- Two adjacent copies of adjacent parts of `f` are one copy. -/
theorem copy_copy_append (dst f : Bytes) (pos q m n : Nat) :
    (dst.copy pos (fun i => f (q + i)) m).copy (pos + m) (fun i => f (q + m + i)) n =
      dst.copy pos (fun i => f (q + i)) (m + n) := by
  funext i
  by_cases h : pos + m ≤ i ∧ i < pos + m + n
  · rw [copy_of_mem h.1 h.2, copy_of_mem (by omega) (by omega)]
    congr 1
    omega
  · by_cases h' : pos ≤ i ∧ i < pos + m
    · rw [copy_of_lt (by omega), copy_of_mem h'.1 h'.2, copy_of_mem (by omega) (by omega)]
    · rw [copy, if_neg h, copy, if_neg h', copy, if_neg (by omega)]

theorem clip_copy (dst src : Bytes) (n : Nat) : (dst.copy 0 src n).clip n = src.clip n :=
  clip_congr fun _ hi => copy_zero_of_lt hi

/-! ## Little-endian numbers -/

/-- The number whose `w` little-endian bytes start at `pos`. -/
def leNat (b : Bytes) (pos : Nat) : Nat → Nat
  | 0 => 0
  | w + 1 => (b pos).toNat + 256 * leNat b (pos + 1) w

/-- Store the low `w` bytes of `v` at `pos`. -/
def putLe (b : Bytes) (pos w v : Nat) : Bytes :=
  fun i => if pos ≤ i ∧ i < pos + w then UInt8.ofNat (v / 256 ^ (i - pos)) else b i

theorem leNat_lt (b : Bytes) (pos w : Nat) : b.leNat pos w < 256 ^ w := by
  induction w generalizing pos with
  | zero => simp [leNat]
  | succ w ih =>
    have hb : (b pos).toNat < 256 := (b pos).toNat_lt
    have := ih (pos + 1)
    rw [leNat, pow_succ]
    omega

theorem leNat_congr {b c : Bytes} {pos pos' w : Nat}
    (h : ∀ i < w, b (pos + i) = c (pos' + i)) : b.leNat pos w = c.leNat pos' w := by
  induction w generalizing pos pos' with
  | zero => rfl
  | succ w ih =>
    have h0 : b pos = c pos' := h 0 (Nat.succ_pos w)
    have hrest : b.leNat (pos + 1) w = c.leNat (pos' + 1) w := ih fun i hi => by
      have := h (i + 1) (Nat.succ_lt_succ hi)
      rwa [Nat.add_comm i 1, ← Nat.add_assoc, ← Nat.add_assoc] at this
    rw [leNat, leNat, h0, hrest]

theorem putLe_of_mem {b : Bytes} {pos w v i : Nat} (h : pos ≤ i) (h' : i < pos + w) :
    b.putLe pos w v i = UInt8.ofNat (v / 256 ^ (i - pos)) :=
  if_pos ⟨h, h'⟩

theorem putLe_of_not_mem {b : Bytes} {pos w v i : Nat} (h : i < pos ∨ pos + w ≤ i) :
    b.putLe pos w v i = b i :=
  if_neg (by omega)

/-- Reading back what was stored, up to the width of the store. -/
theorem leNat_of_digits {b : Bytes} {pos w v : Nat}
    (h : ∀ i < w, b (pos + i) = UInt8.ofNat (v / 256 ^ i)) : b.leNat pos w = v % 256 ^ w := by
  induction w generalizing pos v with
  | zero => simp [leNat, Nat.mod_one]
  | succ w ih =>
    have h0 : (b pos).toNat = v % 256 := by
      have := h 0 (Nat.succ_pos w)
      simp only [Nat.add_zero, pow_zero, Nat.div_one] at this
      simp [this]
    have hrest : b.leNat (pos + 1) w = v / 256 % 256 ^ w := ih fun i hi => by
      have := h (i + 1) (Nat.succ_lt_succ hi)
      rwa [Nat.add_comm i 1, ← Nat.add_assoc, Nat.add_comm 1 i, pow_succ', ← Nat.div_div_eq_div_mul]
        at this
    rw [leNat, h0, hrest, pow_succ', Nat.mod_mul]

theorem leNat_putLe (b : Bytes) (pos w v : Nat) :
    (b.putLe pos w v).leNat pos w = v % 256 ^ w :=
  leNat_of_digits fun i hi => by
    rw [putLe_of_mem (Nat.le_add_right pos i) (by omega), Nat.add_sub_cancel_left]

theorem leNat_putLe_of_disjoint {b : Bytes} {pos w v pos' w' : Nat}
    (h : pos' + w' ≤ pos ∨ pos + w ≤ pos') :
    (b.putLe pos w v).leNat pos' w' = b.leNat pos' w' :=
  leNat_congr fun i hi => putLe_of_not_mem (by omega)

/-- Digit `i` of the number read at `pos` is the byte there. -/
theorem leNat_digit (b : Bytes) {pos w i : Nat} (h : i < w) :
    UInt8.ofNat (b.leNat pos w / 256 ^ i) = b (pos + i) := by
  induction i generalizing pos w with
  | zero =>
    obtain ⟨w, rfl⟩ := Nat.exists_eq_succ_of_ne_zero (by omega : w ≠ 0)
    have hb : (b pos).toNat < 256 := (b pos).toNat_lt
    rw [leNat, pow_zero, Nat.div_one, ← UInt8.toNat_inj, UInt8.toNat_ofNat']
    show ((b pos).toNat + 256 * b.leNat (pos + 1) w) % 256 = _
    rw [Nat.add_mul_mod_self_left, Nat.mod_eq_of_lt hb]
    rfl
  | succ i ih =>
    obtain ⟨w, rfl⟩ := Nat.exists_eq_succ_of_ne_zero (by omega : w ≠ 0)
    have hb : (b pos).toNat < 256 := (b pos).toNat_lt
    have hdiv : b.leNat pos (w + 1) / 256 ^ (i + 1) = b.leNat (pos + 1) w / 256 ^ i := by
      rw [leNat, pow_succ', ← Nat.div_div_eq_div_mul, Nat.add_mul_div_left _ _ (by norm_num),
        Nat.div_eq_of_lt hb, Nat.zero_add]
    rw [hdiv, ih (by omega)]
    congr 1
    omega

/-- Storing back what was read changes nothing. -/
theorem putLe_leNat_self (b : Bytes) (pos w : Nat) : b.putLe pos w (b.leNat pos w) = b := by
  funext i
  by_cases h : pos ≤ i ∧ i < pos + w
  · rw [putLe_of_mem h.1 h.2, leNat_digit b (by omega), Nat.add_sub_cancel' h.1]
  · exact putLe_of_not_mem (by omega)

theorem putLe_putLe (b : Bytes) (pos w v v' : Nat) :
    (b.putLe pos w v).putLe pos w v' = b.putLe pos w v' := by
  funext i
  by_cases h : pos ≤ i ∧ i < pos + w
  · rw [putLe_of_mem h.1 h.2, putLe_of_mem h.1 h.2]
  · rw [putLe_of_not_mem (by omega), putLe_of_not_mem (by omega), putLe_of_not_mem (by omega)]

/-- A 16-bit little-endian field. -/
def le16 (b : Bytes) (pos : Nat) : UInt16 := UInt16.ofNat (b.leNat pos 2)

/-- A 32-bit little-endian field. -/
def le32 (b : Bytes) (pos : Nat) : UInt32 := UInt32.ofNat (b.leNat pos 4)

/-- A 64-bit little-endian field. -/
def le64 (b : Bytes) (pos : Nat) : UInt64 := UInt64.ofNat (b.leNat pos 8)

theorem le16_congr {b c : Bytes} {pos pos' : Nat} (h : ∀ i < 2, b (pos + i) = c (pos' + i)) :
    b.le16 pos = c.le16 pos' := by rw [le16, le16, leNat_congr h]

theorem le32_congr {b c : Bytes} {pos pos' : Nat} (h : ∀ i < 4, b (pos + i) = c (pos' + i)) :
    b.le32 pos = c.le32 pos' := by rw [le32, le32, leNat_congr h]

theorem le64_congr {b c : Bytes} {pos pos' : Nat} (h : ∀ i < 8, b (pos + i) = c (pos' + i)) :
    b.le64 pos = c.le64 pos' := by rw [le64, le64, leNat_congr h]

@[simp] theorem le16_putLe (b : Bytes) (pos : Nat) (v : UInt16) :
    (b.putLe pos 2 v.toNat).le16 pos = v := by
  have := v.toNat_lt
  rw [le16, leNat_putLe, Nat.mod_eq_of_lt (by omega), UInt16.ofNat_toNat]

@[simp] theorem le32_putLe (b : Bytes) (pos : Nat) (v : UInt32) :
    (b.putLe pos 4 v.toNat).le32 pos = v := by
  have := v.toNat_lt
  rw [le32, leNat_putLe, Nat.mod_eq_of_lt (by omega), UInt32.ofNat_toNat]

@[simp] theorem le64_putLe (b : Bytes) (pos : Nat) (v : UInt64) :
    (b.putLe pos 8 v.toNat).le64 pos = v := by
  have := v.toNat_lt
  rw [le64, leNat_putLe, Nat.mod_eq_of_lt (by omega), UInt64.ofNat_toNat]

theorem le32_clip {b : Bytes} {n pos : Nat} (h : pos + 4 ≤ n) : (b.clip n).le32 pos = b.le32 pos :=
  le32_congr fun i hi => clip_of_lt (by omega)

theorem toNat_le32 (b : Bytes) (pos : Nat) : (b.le32 pos).toNat = b.leNat pos 4 := by
  have := b.leNat_lt pos 4
  rw [le32, UInt32.toNat_ofNat', Nat.mod_eq_of_lt (by omega)]

section Disjoint

variable {b : Bytes} {pos w v pos' : Nat}

theorem le16_putLe_of_disjoint (h : pos' + 2 ≤ pos ∨ pos + w ≤ pos') :
    (b.putLe pos w v).le16 pos' = b.le16 pos' := by
  rw [le16, le16, leNat_putLe_of_disjoint h]

theorem le32_putLe_of_disjoint (h : pos' + 4 ≤ pos ∨ pos + w ≤ pos') :
    (b.putLe pos w v).le32 pos' = b.le32 pos' := by
  rw [le32, le32, leNat_putLe_of_disjoint h]

theorem le64_putLe_of_disjoint (h : pos' + 8 ≤ pos ∨ pos + w ≤ pos') :
    (b.putLe pos w v).le64 pos' = b.le64 pos' := by
  rw [le64, le64, leNat_putLe_of_disjoint h]

end Disjoint

/-! ## Slices -/

/-- The `n` bytes from `pos` on, as a list. -/
def slice (b : Bytes) (pos n : Nat) : List UInt8 := (List.range n).map fun i => b (pos + i)

@[simp] theorem slice_length (b : Bytes) (pos n : Nat) : (b.slice pos n).length = n := by
  simp [slice]

@[simp] theorem slice_zero (b : Bytes) (pos : Nat) : b.slice pos 0 = [] := rfl

theorem slice_succ (b : Bytes) (pos n : Nat) :
    b.slice pos (n + 1) = b pos :: b.slice (pos + 1) n := by
  unfold slice
  rw [List.range_succ_eq_map, List.map_cons, List.map_map, Nat.add_zero]
  congr 1
  exact List.map_congr_left fun i _ => by
    rw [Function.comp_apply, Nat.succ_eq_add_one, Nat.add_assoc, Nat.add_comm 1 i]

theorem slice_append (b : Bytes) (pos m n : Nat) :
    b.slice pos m ++ b.slice (pos + m) n = b.slice pos (m + n) := by
  simp only [slice, List.range_add, List.map_append, List.map_map]
  congr 1
  exact List.map_congr_left fun i _ => by simp [Nat.add_assoc]

theorem slice_congr {b c : Bytes} {pos pos' n : Nat} (h : ∀ i < n, b (pos + i) = c (pos' + i)) :
    b.slice pos n = c.slice pos' n :=
  List.map_congr_left fun i hi => h i (List.mem_range.mp hi)

/-- A list in memory. -/
theorem slice_getD (l : List UInt8) : slice (fun i => l.getD i 0) 0 l.length = l :=
  List.ext_getElem (slice_length _ _ _) fun i _ hi => by simp [slice, hi]

theorem slice_eq_iff {b c : Bytes} {pos pos' n : Nat} :
    b.slice pos n = c.slice pos' n ↔ ∀ i < n, b (pos + i) = c (pos' + i) := by
  simp [slice]

end Bytes

/-! ## Signed words -/

/-- A word as a signed number. -/
theorem toInt_toInt32 (a : UInt32) :
    a.toInt32.toInt = if a.toNat < 2 ^ 31 then (a.toNat : Int) else a.toNat - 2 ^ 32 := by
  show a.toBitVec.toInt = _
  rw [BitVec.toInt_eq_toNat_cond]
  have htwo : 2 * a.toBitVec.toNat < 2 ^ 32 ↔ a.toNat < 2 ^ 31 := by
    rw [UInt32.toNat_toBitVec]
    omega
  simp only [htwo]
  rfl

theorem toInt_toInt32_of_lt {a : UInt32} (h : a.toNat < 2 ^ 31) : a.toInt32.toInt = a.toNat := by
  rw [toInt_toInt32, if_pos h]

end MbBootTv

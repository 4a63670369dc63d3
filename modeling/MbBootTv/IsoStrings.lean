import Mathlib.Data.List.GetD
import Mathlib.Data.List.Induction
import MbBootTv.Strings

/-!
# The string functions of ISO C (`string.c`)

The compiler and the callers of `string.c` take `strncpy`, `strcat`, `strncmp`, `strchr` and
`strrchr` for the functions of the standard. These are stated here in their own terms, next to the
two of `string.c` that take an `int` for a character, and `isoStrings_iff` says where the functions
of `string.c` are the same.
-/

namespace MbBootTv

/-! ## Characters that are passed as numbers -/

/-- A `char` as an `int`; `char` is signed. -/
def charInt (x : UInt8) : Int32 := x.toInt8.toInt32

/-- `(char) c` -/
def toChar (c : Int32) : UInt8 := c.toInt8.toUInt8

/-- `strchr`, with the `int` that it takes. -/
def strchrInt (b : Bytes) (cap s : Nat) (c : Int32) : Except Fault (Option Nat) := do
  let e ← scan (fun x => x = 0 || c = charInt x) b s (cap - s)
  return if b e = 0 then none else some e

/-- `for (; e != s; e--)`, with `k` bytes between `s` and `e`, and an `int`. -/
def lastFromInt (b : Bytes) (c : Int32) (s : Nat) : Nat → Option Nat
  | 0 => none
  | k + 1 => if c = charInt (b (s + k + 1)) then some (s + k + 1) else lastFromInt b c s k

/-- `strrchr`, with the `int` that it takes. -/
def strrchrInt (b : Bytes) (cap s : Nat) (c : Int32) : Except Fault (Option Nat) := do
  let e ← scan (· = 0) b s (cap - s)
  return lastFromInt b c s (e - s)

theorem charInt_inj {x y : UInt8} : charInt x = charInt y ↔ x = y := by
  unfold charInt
  rw [← Int32.toInt_inj, Int8.toInt_toInt32, Int8.toInt_toInt32, Int8.toInt_inj]
  exact ⟨fun h => by simpa using congrArg Int8.toUInt8 h, fun h => by rw [h]⟩

/-- `strtok_simple` and the callers pass a `char`. -/
theorem strchrInt_char (b : Bytes) (cap s : Nat) (c : UInt8) :
    strchrInt b cap s (charInt c) = strchr b cap s c := by
  unfold strchrInt strchr
  simp only [charInt_inj, eq_comm]

theorem lastFromInt_char (b : Bytes) (c : UInt8) (s k : Nat) :
    lastFromInt b (charInt c) s k = lastFrom b c s k := by
  induction k with
  | zero => rfl
  | succ k ih =>
    rw [lastFromInt, lastFrom, ih]
    simp only [charInt_inj, eq_comm]

theorem strrchrInt_char (b : Bytes) (cap s : Nat) (c : UInt8) :
    strrchrInt b cap s (charInt c) = strrchr b cap s c := by
  unfold strrchrInt strrchr
  simp only [lastFromInt_char]

/-- The numbers that are characters. -/
theorem charInt_toChar_iff {c : Int32} :
    charInt (toChar c) = c ↔ -128 ≤ c.toInt ∧ c.toInt ≤ 127 := by
  have hround : (toChar c).toInt8 = c.toInt8 := by simp [toChar]
  rw [charInt, hround, ← Int32.toInt_inj, Int8.toInt_toInt32, Int32.toInt_toInt8]
  have hlo := c.minValue_le_toInt
  have hhi := c.toInt_lt
  constructor
  · intro h
    have hge := Int.le_bmod (x := c.toInt) (m := 2 ^ 8) (by decide)
    have hlt := Int.bmod_lt (x := c.toInt) (m := 2 ^ 8) (by decide)
    omega
  · rintro ⟨hge, hle⟩
    exact Int.bmod_eq_of_le (by omega) (by omega)

/-! ## The functions of the standard -/

/-- The string `l` stands at `s`, in an array of `cap` bytes. -/
structure StringAt (b : Bytes) (cap s : Nat) (l : List UInt8) : Prop where
  bytes : b.slice s l.length = l
  nul : b (s + l.length) = 0
  inside : s + l.length < cap
  no_nul : 0 ∉ l

/-- `strncpy`: `n` bytes are written, those behind a NUL as NULs. -/
def isoStrncpy (dst : Bytes) (d : Nat) (x : Nat → UInt8) (n : Nat) : Bytes :=
  dst.copy d (fun i => if ∃ j < i, x j = 0 then 0 else x i) n

/-- `strcat`: the string and its NUL are written over the NUL of the other. -/
def isoStrcat (dst : Bytes) (d : Nat) (m l : List UInt8) : Bytes :=
  dst.copy (d + m.length) (fun i => l.getD i 0) (l.length + 1)

/-- `strncmp`: the order of the first bytes that differ, as `unsigned char`, up to a NUL. -/
def isoStrncmp (x y : Nat → UInt8) : Nat → Nat → Ordering
  | _, 0 => .eq
  | i, n + 1 =>
    if x i = y i then if x i = 0 then .eq else isoStrncmp x y (i + 1) n
    else if x i < y i then .lt
    else .gt

/-- What a result of `strncmp` means. -/
def resultOrder (r : Int) : Ordering := if r < 0 then .lt else if r = 0 then .eq else .gt

/-- The index of the first `v`. -/
def firstIndex (v : UInt8) : List UInt8 → Option Nat
  | [] => none
  | c :: l => if c = v then some 0 else (firstIndex v l).map (· + 1)

/-- The index of the last `v`. -/
def lastIndex (v : UInt8) : List UInt8 → Option Nat
  | [] => none
  | c :: l => ((lastIndex v l).map (· + 1)).or (if c = v then some 0 else none)

/-- `strchr`: the NUL is part of the string. -/
def isoStrchr (l : List UInt8) (c : Int32) : Option Nat := firstIndex (toChar c) (l ++ [0])

/-- `strrchr` -/
def isoStrrchr (l : List UInt8) (c : Int32) : Option Nat := lastIndex (toChar c) (l ++ [0])

/-- What may be passed to `strncpy`: there is a byte as long as no NUL has come, or `n` bytes. -/
def Copyable (src : Nat → Except Fault UInt8) (x : Nat → UInt8) (n : Nat) : Prop :=
  ∀ j < n, (∀ k < j, x k ≠ 0) → src j = .ok (x j)

/-- What may be passed to `strncmp`: there are bytes as long as they are the same and no NUL, or
`n` bytes. -/
def Comparable (s1 s2 : Nat → Except Fault UInt8) (x y : Nat → UInt8) (n : Nat) : Prop :=
  ∀ j < n, (∀ k < j, x k = y k ∧ x k ≠ 0) → s1 j = .ok (x j) ∧ s2 j = .ok (y j)

/-- The first bytes that differ, if they are among the first `n`, are both below 128 or both not. -/
def SameHalf (x y : Nat → UInt8) (n : Nat) : Prop :=
  ∀ i < n, (∀ j < i, x j = y j ∧ x j ≠ 0) → x i ≠ y i → (x i < 128 ↔ y i < 128)

/-! ## `strncpy` -/

section Copying

variable {cap : Nat} {src : Nat → Except Fault UInt8} {x : Nat → UInt8}

/-- A source that ends in time is copied, and zeros fill up. -/
theorem strncpy_of_ends {i k n : Nat} (hk : k ≤ n) (hend : src (i + k) = .ok 0)
    (hsrc : ∀ j < k, src (i + j) = .ok (x (i + j)) ∧ x (i + j) ≠ 0) {d : Nat} (hd : d + n ≤ cap)
    (dst : Bytes) : strncpy dst cap d src i n =
      .ok (dst.copy d (fun j => if j < k then x (i + j) else 0) n) := by
  induction k generalizing i n d dst with
  | zero =>
    rw [Nat.add_zero] at hend
    cases n with
    | zero => simp [strncpy, hend, Bytes.copy_zero_len]
    | succ n =>
      have hzeros : dst.fill d 0 (n + 1) = dst.copy d (fun j => if j < 0 then x (i + j) else 0)
          (n + 1) := Bytes.fill_eq_copy dst d 0 (n + 1)
      simp [strncpy, hend, hd, hzeros]
  | succ k ih =>
    obtain ⟨n, rfl⟩ : ∃ n', n = n' + 1 := ⟨n - 1, by omega⟩
    obtain ⟨hc, h0⟩ := hsrc 0 (Nat.succ_pos k)
    rw [Nat.add_zero] at hc h0
    have hrest := ih (i := i + 1) (d := d + 1) (Nat.le_of_succ_le_succ hk)
      (by rw [Nat.add_assoc, Nat.add_comm 1]; exact hend)
      (fun j hj => by
        have := hsrc (j + 1) (Nat.succ_lt_succ hj)
        rwa [Nat.add_comm j, ← Nat.add_assoc] at this) (by omega) (dst.fill d (x i) 1)
    unfold strncpy
    simp only [hc, ok_bind, if_pos h0, if_pos (show d < cap by omega), hrest]
    -- the byte that was stored, and the rest
    refine congrArg Except.ok ?_
    have happend := Bytes.copy_copy_append dst (fun j => if j < k + 1 then x (i + j) else 0) d 0 1 n
    simp only [Nat.zero_add] at happend
    rw [Nat.add_comm n 1, ← happend, Bytes.fill_eq_copy]
    refine congrArg₂ (fun b f => Bytes.copy b (d + 1) f n) (Bytes.copy_congr fun j hj => ?_) ?_
    · obtain rfl : j = 0 := by omega
      simp
    · funext j
      simp only [Nat.add_comm 1 j, Nat.add_assoc, Nat.add_lt_add_iff_right]

/-- A source that goes on for longer is not. -/
theorem strncpy_of_longer {i n : Nat}
    (hsrc : ∀ j < n, src (i + j) = .ok (x (i + j)) ∧ x (i + j) ≠ 0) (hend : src (i + n) ≠ .ok 0)
    (d : Nat) (dst r : Bytes) : strncpy dst cap d src i n ≠ .ok r := by
  induction n generalizing i d dst with
  | zero =>
    intro h
    obtain ⟨c, hc, h⟩ := bind_eq_ok.mp h
    by_cases h0 : c = 0
    · exact hend (by rw [Nat.add_zero, hc, h0])
    · rw [if_pos h0] at h
      exact absurd h (by simp)
  | succ n ih =>
    intro h
    obtain ⟨hc, h0⟩ := hsrc 0 (Nat.succ_pos n)
    rw [Nat.add_zero] at hc h0
    unfold strncpy at h
    simp only [hc, ok_bind, if_pos h0] at h
    split_ifs at h
    refine ih (i := i + 1) (fun j hj => ?_) ?_ _ _ h
    · have := hsrc (j + 1) (Nat.succ_lt_succ hj)
      rwa [Nat.add_comm j, ← Nat.add_assoc] at this
    · rwa [Nat.add_assoc, Nat.add_comm 1]

/-- **`strncpy` is the function of the standard** exactly when the source ends within the first
`n + 1` bytes. -/
theorem strncpy_iso_iff {dst : Bytes} {d n : Nat} (hd : d + n ≤ cap) (h : Copyable src x n) :
    strncpy dst cap d src 0 n = .ok (isoStrncpy dst d x n) ↔ ∃ k ≤ n, src k = .ok 0 := by
  constructor
  · intro hcopy
    by_contra hno
    simp only [not_exists, not_and] at hno
    have hne : ∀ j < n, ∀ k < j, x k ≠ 0 := by
      intro j hj
      induction j with
      | zero => exact fun k hk => absurd hk (Nat.not_lt_zero k)
      | succ j ih =>
        intro k hk h0
        have hprev := ih (by omega)
        obtain hlt | rfl := Nat.lt_succ_iff_lt_or_eq.mp hk
        · exact hprev k hlt h0
        · exact hno k (by omega) (by rw [h k (by omega) hprev, h0])
    refine strncpy_of_longer (x := x) (fun j hj => ?_) ?_ d dst _ hcopy
    · rw [Nat.zero_add]
      have hj' := h j hj (hne j hj)
      exact ⟨hj', fun h0 => hno j (by omega) (by rw [hj', h0])⟩
    · rw [Nat.zero_add]
      exact hno n le_rfl
  · intro hex
    obtain ⟨hk, hend⟩ := Nat.find_spec hex
    have hfirst : ∀ j < Nat.find hex, src j = .ok (x j) ∧ x j ≠ 0 := by
      intro j
      induction j using Nat.strong_induction_on with
      | _ j ih =>
        intro hj
        have hx := h j (by omega) fun k hkj => (ih k hkj (by omega)).2
        exact ⟨hx, fun h0 => Nat.find_min hex hj ⟨by omega, by rw [hx, h0]⟩⟩
    have hcopy := strncpy_of_ends (i := 0) hk (by rw [Nat.zero_add]; exact hend)
      (fun j hj => by rw [Nat.zero_add]; exact hfirst j hj) hd dst
    rw [hcopy]
    refine congrArg Except.ok (Bytes.copy_congr fun j hj => ?_)
    rw [Nat.zero_add]
    by_cases hjk : j < Nat.find hex
    · rw [if_pos hjk, if_neg]
      rintro ⟨k, hkj, h0⟩
      exact (hfirst k (by omega)).2 h0
    · rw [if_neg hjk]
      by_cases hex' : ∃ k < j, x k = 0
      · rw [if_pos hex']
      · -- the NUL is byte `j` itself
        rw [if_neg hex']
        simp only [not_exists, not_and] at hex'
        have hlast := h (Nat.find hex) (by omega) fun k hk => (hfirst k hk).2
        rw [hend, Except.ok.injEq] at hlast
        obtain hlt | heq := Nat.lt_or_eq_of_le (Nat.not_lt.mp hjk)
        · exact absurd hlast.symm (hex' _ hlt)
        · rw [← heq]
          exact hlast

end Copying

/-! ## `strcat` -/

namespace StringAt

variable {b : Bytes} {cap s : Nat} {l : List UInt8}

theorem getD (h : StringAt b cap s l) {j : Nat} (hj : j ≤ l.length) : b (s + j) = l.getD j 0 := by
  obtain hlt | rfl := Nat.lt_or_eq_of_le hj
  · have hbytes := congrArg (fun m => m.getD j 0) h.bytes
    rw [← hbytes]
    simp [Bytes.slice, hlt]
  · rw [h.nul]
    simp

theorem ne_zero (h : StringAt b cap s l) {j : Nat} (hj : j < l.length) : b (s + j) ≠ 0 := by
  rw [h.getD hj.le, List.getD_eq_getElem?_getD, List.getElem?_eq_getElem hj, Option.getD_some]
  exact fun h0 => h.no_nul (h0 ▸ List.getElem_mem hj)

/-- The scan for the end of the string. -/
theorem scan_nul (h : StringAt b cap s l) :
    scan (· = 0) b s (cap - s) = .ok (s + l.length) := by
  have hin := h.inside
  refine scan_eq_ok_iff.mpr ⟨by omega, by omega, by simp [h.nul], fun j hs hj => ?_⟩
  have hne := h.ne_zero (show j - s < l.length by omega)
  rw [Nat.add_sub_cancel' hs] at hne
  simpa using hne

end StringAt

/-- **`strcat` is the function of the standard.** -/
theorem strcat_iso {dst src : Bytes} {cap d srcCap s : Nat} {m l : List UInt8}
    (hm : StringAt dst cap d m) (hl : StringAt src srcCap s l)
    (hroom : d + m.length + l.length < cap) :
    strcat dst cap d src srcCap s = .ok (isoStrcat dst d m l) := by
  have hlen : strlen src srcCap s = .ok l.length := by
    simp [strlen, hl.scan_nul]
  unfold strcat
  rw [hm.scan_nul, hlen]
  simp only [ok_bind, if_pos (show d + m.length + l.length + 1 ≤ cap by omega), pure_eq_ok]
  exact congrArg Except.ok (Bytes.copy_congr fun j hj => hl.getD (Nat.le_of_lt_succ hj))

/-! ## `strncmp` -/

/-- Two bytes are in the order of their signs and magnitudes when both are in the same half. -/
theorem toInt8_lt_iff {x y : UInt8} (hne : x ≠ y) :
    (x.toInt8 < y.toInt8 ↔ x < y) ↔ (x < 128 ↔ y < 128) := by
  have hx := x.toNat_lt
  have hy := y.toNat_lt
  have hne' : x.toNat ≠ y.toNat := fun h => hne (UInt8.toNat_inj.mp h)
  have hint : ∀ z : UInt8, z.toInt8.toInt = if z.toNat < 128 then (z.toNat : Int)
      else z.toNat - 256 := fun z => by
    have hz := z.toNat_lt
    have hbv : z.toInt8.toInt = z.toBitVec.toInt := rfl
    rw [hbv, BitVec.toInt_eq_toNat_cond]
    simp only [UInt8.toNat_toBitVec]
    split_ifs <;> omega
  have hhalf : ∀ z : UInt8, z < 128 ↔ z.toNat < 128 := fun z => by
    rw [UInt8.lt_iff_toNat_lt]
    rfl
  rw [Int8.lt_iff_toInt_lt, hint, hint, UInt8.lt_iff_toNat_lt, hhalf, hhalf]
  split_ifs <;> omega

/-- The sign of a comparison as signed bytes. -/
theorem resultOrder_iff {x y : UInt8} (hne : x ≠ y) :
    resultOrder (if y.toInt8 < x.toInt8 then 1 else -1) = (if x < y then .lt else .gt) ↔
      (x < 128 ↔ y < 128) := by
  have hsigned := toInt8_lt_iff hne.symm
  have hle : ¬x < y ↔ y < x := by
    have hne' : x.toNat ≠ y.toNat := fun h => hne (UInt8.toNat_inj.mp h)
    rw [UInt8.lt_iff_toNat_lt, UInt8.lt_iff_toNat_lt]
    omega
  rw [iff_comm (a := x < 128), ← hsigned, ← hle]
  by_cases h : y.toInt8 < x.toInt8
  · by_cases h' : x < y <;> simp [h, h', resultOrder]
  · by_cases h' : x < y <;> simp [h, h', resultOrder]

section Comparing

variable {x y : Nat → UInt8}

/-- **One byte** of a comparison. -/
theorem strncmp_succ (i n : Nat) : strncmp (fun i => .ok (x i)) (fun i => .ok (y i)) i (n + 1) =
    if x i = y i then
      if x i = 0 then .ok 0 else strncmp (fun i => .ok (x i)) (fun i => .ok (y i)) (i + 1) n
    else .ok (if (y i).toInt8 < (x i).toInt8 then 1 else -1) := by
  rw [strncmp]
  simp only [ok_bind, pure_eq_ok]
  by_cases heq : x i = y i
  · have hirr : ¬(y i).toInt8 < (y i).toInt8 := Int8.lt_irrefl
    rw [if_pos heq, heq, if_neg hirr, if_neg hirr]
  · have hint : (x i).toInt8 ≠ (y i).toInt8 := fun h => heq (by simpa using congrArg Int8.toUInt8 h)
    rw [if_neg heq]
    by_cases hgt : (y i).toInt8 < (x i).toInt8
    · rw [if_pos hgt, if_pos hgt]
    · have hlt : (x i).toInt8 < (y i).toInt8 := by
        by_contra hlt
        exact hint (Int8.le_antisymm (Int8.not_lt.mp hgt) (Int8.not_lt.mp hlt))
      rw [if_neg hgt, if_pos hlt, if_neg hgt]

/-- Whether the sign is right is decided at the first difference. -/
theorem strncmp_sign_iff (i n : Nat) : (∃ r, strncmp (fun i => .ok (x i)) (fun i => .ok (y i)) i n
    = .ok r ∧ resultOrder r = isoStrncmp x y i n) ↔
      SameHalf (fun j => x (i + j)) (fun j => y (i + j)) n := by
  induction n generalizing i with
  | zero => exact iff_of_true ⟨0, rfl, rfl⟩ fun j hj => absurd hj (Nat.not_lt_zero j)
  | succ n ih =>
    rw [strncmp_succ, isoStrncmp]
    by_cases heq : x i = y i
    · by_cases h0 : x i = 0
      · rw [if_pos heq, if_pos h0, if_pos heq, if_pos h0]
        refine iff_of_true ⟨0, rfl, rfl⟩ fun j hj hpre hne => ?_
        cases j with
        | zero => exact absurd heq hne
        | succ j => exact absurd h0 (hpre 0 (Nat.succ_pos j)).2
      · rw [if_pos heq, if_neg h0, if_pos heq, if_neg h0, ih]
        constructor
        · intro h j hj hpre hne
          cases j with
          | zero => exact absurd heq hne
          | succ j =>
            have hnext := h j (Nat.lt_of_succ_lt_succ hj)
            simp only [Nat.add_assoc, Nat.add_comm 1] at hnext
            exact hnext (fun k hk => hpre (k + 1) (Nat.succ_lt_succ hk)) hne
        · intro h j hj hpre hne
          have hnext := h (j + 1) (Nat.succ_lt_succ hj)
          simp only [Nat.add_assoc, Nat.add_comm 1] at hpre hne ⊢
          refine hnext (fun k hk => ?_) hne
          cases k with
          | zero => exact ⟨heq, h0⟩
          | succ k => exact hpre k (Nat.lt_of_succ_lt_succ hk)
    · rw [if_neg heq, if_neg heq]
      simp only [Except.ok.injEq, exists_eq_left']
      rw [resultOrder_iff heq]
      constructor
      · intro h j hj hpre _
        cases j with
        | zero => exact h
        | succ j => exact absurd (hpre 0 (Nat.succ_pos j)).1 heq
      · intro h
        exact h 0 (Nat.succ_pos n) (fun k hk => absurd hk (Nat.not_lt_zero k)) heq

/-- **`strncmp` has the sign of the function of the standard** exactly when the bytes in question
are in the same half. -/
theorem strncmp_iso_iff {s1 s2 : Nat → Except Fault UInt8} {n : Nat}
    (h : Comparable s1 s2 x y n) :
    (∃ r, strncmp s1 s2 0 n = .ok r ∧ resultOrder r = isoStrncmp x y 0 n) ↔ SameHalf x y n := by
  have hcongr := strncmp_congr (i := 0) (n := n) (x := x) (y := y) fun j hj hpre => by
    simp only [Nat.zero_add] at hpre ⊢
    exact h j hj hpre
  rw [hcongr, strncmp_sign_iff]
  simp only [Nat.zero_add]

end Comparing

/-! ## `strchr` and `strrchr` -/

theorem firstIndex_eq_none_iff {v : UInt8} {l : List UInt8} : firstIndex v l = none ↔ v ∉ l := by
  induction l with
  | nil => simp [firstIndex]
  | cons c l ih =>
    rw [firstIndex, List.mem_cons]
    by_cases hc : c = v
    · simp [hc]
    · simp [hc, ih, Ne.symm hc]

theorem lastIndex_eq_none_iff {v : UInt8} {l : List UInt8} : lastIndex v l = none ↔ v ∉ l := by
  induction l with
  | nil => simp [lastIndex]
  | cons c l ih =>
    rw [lastIndex, List.mem_cons]
    by_cases hc : c = v
    · simp [hc]
    · simp [hc, ih, Ne.symm hc]

/-- A NUL at the end is found when there is nothing else to find. -/
theorem firstIndex_append_nul {v : UInt8} {l : List UInt8} (hv : v ≠ 0) :
    firstIndex v (l ++ [0]) = firstIndex v l := by
  induction l with
  | nil => simp [firstIndex, hv.symm]
  | cons c l ih => rw [List.cons_append, firstIndex, firstIndex, ih]

theorem lastIndex_append_singleton (v c : UInt8) (l : List UInt8) :
    lastIndex v (l ++ [c]) = if c = v then some l.length else lastIndex v l := by
  induction l with
  | nil =>
    simp [lastIndex]
  | cons x l ih =>
    rw [List.cons_append, lastIndex, ih, lastIndex]
    by_cases hc : c = v
    · simp [hc]
    · simp [hc]

namespace StringAt

variable {b : Bytes} {cap s : Nat} {l : List UInt8}

theorem tail {c : UInt8} (h : StringAt b cap s (c :: l)) : StringAt b cap (s + 1) l := by
  have hb := h.bytes
  have hnul := h.nul
  have hin := h.inside
  rw [List.length_cons] at hb hnul hin
  rw [Bytes.slice_succ] at hb
  exact ⟨(List.cons.inj hb).2, by rw [Nat.add_right_comm]; exact hnul, by omega,
    fun hmem => h.no_nul (List.mem_cons_of_mem c hmem)⟩

/-- `strchr` finds what stands before the NUL. -/
theorem strchr_eq (h : StringAt b cap s l) (v : UInt8) :
    strchr b cap s v = .ok ((firstIndex v l).map (s + ·)) := by
  unfold strchr
  have hin := h.inside
  induction l generalizing s with
  | nil =>
    have hnul : b s = 0 := h.nul
    obtain ⟨n, hn⟩ : ∃ n, cap - s = n + 1 := ⟨cap - s - 1, by have := h.inside; simp at this; omega⟩
    simp [hn, scan, hnul, firstIndex]
  | cons c l ih =>
    have hhead : b s = c := by
      have hb := h.bytes
      rw [List.length_cons, Bytes.slice_succ] at hb
      exact (List.cons.inj hb).1
    have h0 : c ≠ 0 := fun h0 => h.no_nul (by simp [h0])
    obtain ⟨n, hn⟩ : ∃ n, cap - s = n + 1 := ⟨cap - s - 1, by omega⟩
    rw [hn, scan, firstIndex, hhead]
    by_cases hc : c = v
    · simp [hc, hhead, hc ▸ h0]
    · have hrest := ih h.tail (h.tail).inside
      rw [show cap - (s + 1) = n by omega] at hrest
      simp only [h0, hc, decide_false, Bool.or_self, Bool.false_eq_true, if_false]
      rw [hrest]
      cases firstIndex v l with
      | none => rfl
      | some i => simp [Nat.add_comm, Nat.add_left_comm]

end StringAt

/-- A number that is no character is equal to none. -/
theorem ne_charInt_of_not_range {c : Int32} (h : ¬(-128 ≤ c.toInt ∧ c.toInt ≤ 127)) (x : UInt8) :
    c ≠ charInt x := by
  rintro rfl
  have hx : toChar (charInt x) = x := by simp [toChar, charInt]
  exact h (charInt_toChar_iff.mp (by rw [hx]))

theorem toChar_eq_zero_of_range {c : Int32} (h : -128 ≤ c.toInt ∧ c.toInt ≤ 127) :
    toChar c = 0 ↔ c = 0 := by
  have hc := charInt_toChar_iff.mpr h
  constructor
  · intro h0
    rw [← hc, h0]
    rfl
  · rintro rfl
    rfl

/-- **`strchr` is the function of the standard** exactly for the characters other than the NUL, and
where there is nothing to find. -/
theorem strchr_iso_iff {b : Bytes} {cap s : Nat} {l : List UInt8} (h : StringAt b cap s l)
    (c : Int32) : strchrInt b cap s c = .ok ((isoStrchr l c).map (s + ·)) ↔
      (-128 ≤ c.toInt ∧ c.toInt ≤ 127) ∧ c ≠ 0 ∨ toChar c ∉ l ++ [0] := by
  unfold isoStrchr
  by_cases hrange : -128 ≤ c.toInt ∧ c.toInt ≤ 127
  · have hcode : strchrInt b cap s c = .ok ((firstIndex (toChar c) l).map (s + ·)) := by
      rw [← h.strchr_eq, ← strchrInt_char, charInt_toChar_iff.mpr hrange]
    rw [hcode, Except.ok.injEq]
    by_cases h0 : c = 0
    · -- the NUL is not found
      have hchar := (toChar_eq_zero_of_range hrange).mpr h0
      rw [hchar, firstIndex_eq_none_iff.mpr h.no_nul]
      have hsome : firstIndex 0 (l ++ [0]) ≠ none := fun hnone =>
        firstIndex_eq_none_iff.mp hnone (by simp)
      obtain ⟨i, hi⟩ := Option.ne_none_iff_exists'.mp hsome
      simp [hi, h0]
    · have hchar : toChar c ≠ 0 := fun hz => h0 ((toChar_eq_zero_of_range hrange).mp hz)
      rw [firstIndex_append_nul hchar]
      exact iff_of_true rfl (Or.inl ⟨hrange, h0⟩)
  · have hcode : strchrInt b cap s c = .ok none := by
      have hscan : scan (fun x => x = 0 || c = charInt x) b s (cap - s) =
          .ok (s + l.length) := by
        rw [← h.scan_nul]
        refine congrArg (fun p => scan p b s (cap - s)) (funext fun x => ?_)
        simp [ne_charInt_of_not_range hrange x]
      unfold strchrInt
      rw [hscan]
      simp [h.nul]
    rw [hcode, Except.ok.injEq, eq_comm, Option.map_eq_none_iff, firstIndex_eq_none_iff]
    simp [hrange]

/-- `strrchr` looks from behind, as far as the second byte. -/
theorem lastFrom_eq {b : Bytes} {s : Nat} {t : List UInt8} (v : UInt8)
    (h : ∀ j < t.length, b (s + 1 + j) = t.getD j 0) :
    lastFrom b v s t.length = (lastIndex v t).map (s + 1 + ·) := by
  induction t using List.reverseRecOn with
  | nil => rfl
  | append_singleton t x ih =>
    have hx : b (s + t.length + 1) = x := by
      have := h t.length (by simp)
      rw [Nat.add_right_comm] at this
      simpa using this
    rw [List.length_append, List.length_singleton, lastFrom, lastIndex_append_singleton, hx]
    by_cases hxv : x = v
    · simp [hxv, Nat.add_right_comm]
    · rw [if_neg hxv, if_neg hxv]
      refine ih fun j hj => ?_
      rw [h j (by simp; omega), List.getD_append _ _ _ _ hj]

/-- **`strrchr` is the function of the standard** exactly for the characters that are found behind
the first byte, and where there is nothing to find. -/
theorem strrchr_iso_iff {b : Bytes} {cap s : Nat} {l : List UInt8} (h : StringAt b cap s l)
    (c : Int32) : strrchrInt b cap s c = .ok ((isoStrrchr l c).map (s + ·)) ↔
      (-128 ≤ c.toInt ∧ c.toInt ≤ 127) ∧ toChar c ∈ (l ++ [0]).tail ∨ toChar c ∉ l ++ [0] := by
  have hscan : strrchrInt b cap s c = .ok (lastFromInt b c s l.length) := by
    unfold strrchrInt
    rw [h.scan_nul, ok_bind, Nat.add_sub_cancel_left, pure_eq_ok]
  rw [hscan, Except.ok.injEq, isoStrrchr]
  obtain ⟨x, t, hxt⟩ : ∃ x t, l ++ [0] = x :: t := by
    cases l with
    | nil => exact ⟨0, [], rfl⟩
    | cons x l => exact ⟨x, l ++ [0], rfl⟩
  have hlen : l.length = t.length := by
    have := congrArg List.length hxt
    simpa using this
  rw [hxt, List.tail_cons]
  by_cases hrange : -128 ≤ c.toInt ∧ c.toInt ≤ 127
  · have hcode : lastFromInt b c s l.length = (lastIndex (toChar c) t).map (s + 1 + ·) := by
      rw [← charInt_toChar_iff.mpr hrange, lastFromInt_char, charInt_toChar_iff.mpr hrange, hlen]
      refine lastFrom_eq _ fun j hj => ?_
      have hget := h.getD (show j + 1 ≤ l.length by omega)
      rw [Nat.add_assoc, Nat.add_comm 1, hget]
      have happ := congrArg (fun m => m.getD (j + 1) 0) hxt
      simp only [List.getD_cons_succ] at happ
      rw [← happ]
      obtain hlt | heq := Nat.lt_or_eq_of_le (show j + 1 ≤ l.length by omega)
      · rw [List.getD_append _ _ _ _ hlt]
      · simp [heq]
    rw [hcode, lastIndex]
    cases hlast : lastIndex (toChar c) t with
    | none =>
      have hnot := lastIndex_eq_none_iff.mp hlast
      by_cases hx : x = toChar c
      · simp [hx, hnot]
      · simp [hx, hnot, Ne.symm hx]
    | some i =>
      have hmem : toChar c ∈ t := by
        by_contra hnot
        rw [lastIndex_eq_none_iff.mpr hnot] at hlast
        exact absurd hlast (by simp)
      simp [hmem, hrange, Nat.add_assoc, Nat.add_comm 1]
  · have hnone : ∀ k, lastFromInt b c s k = none := by
      intro k
      induction k with
      | zero => rfl
      | succ k ih => rw [lastFromInt, if_neg (ne_charInt_of_not_range hrange _), ih]
    rw [hnone, eq_comm, Option.map_eq_none_iff, lastIndex_eq_none_iff]
    simp [hrange]

/-! ## All of them -/

/-- **Where the functions of `string.c` are those of the standard**: `strcat` on every input that it
may be given; `strncpy` when the source ends in time; `strncmp` when the bytes that decide are in
the same half; `strchr` and `strrchr` for characters that they look for where they stand. -/
theorem isoStrings_iff (dst src : Bytes) (cap d srcCap s n : Nat) (m l : List UInt8)
    (s1 s2 : Nat → Except Fault UInt8) (x y : Nat → UInt8) (c : Int32) :
    (d + n ≤ cap → Copyable s1 x n →
      (strncpy dst cap d s1 0 n = .ok (isoStrncpy dst d x n) ↔ ∃ k ≤ n, s1 k = .ok 0)) ∧
    (StringAt dst cap d m → StringAt src srcCap s l → d + m.length + l.length < cap →
      strcat dst cap d src srcCap s = .ok (isoStrcat dst d m l)) ∧
    (Comparable s1 s2 x y n →
      ((∃ r, strncmp s1 s2 0 n = .ok r ∧ resultOrder r = isoStrncmp x y 0 n) ↔ SameHalf x y n)) ∧
    (StringAt src srcCap s l →
      (strchrInt src srcCap s c = .ok ((isoStrchr l c).map (s + ·)) ↔
        (-128 ≤ c.toInt ∧ c.toInt ≤ 127) ∧ c ≠ 0 ∨ toChar c ∉ l ++ [0])) ∧
    (StringAt src srcCap s l →
      (strrchrInt src srcCap s c = .ok ((isoStrrchr l c).map (s + ·)) ↔
        (-128 ≤ c.toInt ∧ c.toInt ≤ 127) ∧ toChar c ∈ (l ++ [0]).tail ∨ toChar c ∉ l ++ [0])) :=
  ⟨strncpy_iso_iff, strcat_iso, strncmp_iso_iff, fun h => strchr_iso_iff h c,
    fun h => strrchr_iso_iff h c⟩

/-- The string of a list of bytes that are not NUL. -/
theorem stringAt_getD {l : List UInt8} (h : 0 ∉ l) :
    StringAt (fun i => l.getD i 0) (l.length + 1) 0 l := by
  refine ⟨Bytes.slice_getD l, ?_, by omega, h⟩
  simp

/-- A short path. -/
def slashText : Bytes := fun i => (ascii "a/b").getD i 0

theorem isoStrings_iff_link :
    strncpy slashText 8 0 (fun i => .ok (slashText i)) 0 4 =
      .ok (isoStrncpy slashText 0 slashText 4) ∧
    strcat slashText 8 0 slashText 4 0 =
      .ok (isoStrcat slashText 0 (ascii "a/b") (ascii "a/b")) ∧
    (∃ r, strncmp (fun i => .ok (slashText i)) (fun i => .ok (slashText i)) 0 4 = .ok r ∧
      resultOrder r = isoStrncmp slashText slashText 0 4) ∧
    strchrInt slashText 4 0 47 = .ok (some 1) ∧ strrchrInt slashText 4 0 47 = .ok (some 1) := by
  have hlink : StringAt slashText 4 0 (ascii "a/b") := stringAt_getD (by decide)
  have hwide : StringAt slashText 8 0 (ascii "a/b") :=
    ⟨hlink.bytes, hlink.nul, by decide, hlink.no_nul⟩
  obtain ⟨hcpy, hcat, hcmp, hchr, hrchr⟩ := isoStrings_iff slashText slashText 8 0 4 0 4
    (ascii "a/b") (ascii "a/b") (fun i => .ok (slashText i)) (fun i => .ok (slashText i)) slashText
    slashText 47
  refine ⟨(hcpy (by decide) fun _ _ _ => rfl).mpr ⟨3, by decide, rfl⟩,
    hcat hwide hlink (by decide), ?_, (hchr hlink).mpr (Or.inl (by decide)),
    (hrchr hlink).mpr (Or.inl (by decide))⟩
  exact (hcmp fun _ _ _ => ⟨rfl, rfl⟩).mpr fun _ _ _ hne => absurd rfl hne

/-- A slash at the start is not found, and half a string is not copied. -/
theorem not_isoStrings_link :
    StringAt (fun i => (ascii "/b").getD i 0) 3 0 (ascii "/b") ∧
    strrchrInt (fun i => (ascii "/b").getD i 0) 3 0 47 ≠
      .ok ((isoStrrchr (ascii "/b") 47).map (0 + ·)) ∧
    ∀ dst : Bytes, strncpy dst 8 0 (fun i => .ok ((ascii "/b").getD i 0)) 0 1 ≠
      .ok (isoStrncpy dst 0 (fun i => (ascii "/b").getD i 0) 1) := by
  refine ⟨stringAt_getD (by decide), by decide, fun dst h => ?_⟩
  have hover : strncpy dst 8 0 (fun i => .ok ((ascii "/b").getD i 0)) 0 1 = .error .overrun := rfl
  rw [hover] at h
  exact absurd h (by simp)

end MbBootTv

import MbBootTv.Lib.Bytes
import Mathlib.Data.Nat.ModEq

/-!
# Sums with end-around carry

Ones' complement arithmetic in `w` bits counts modulo `m = 2^w - 1` and has two zeros: `m` stands
for every positive multiple of `m`, and `0` for zero alone. `wrap m x` is the number that stands for
`x`; one carry that is taken around the end computes it (`carry_eq_wrap`), and it may be taken at
any point of a sum (`wrap_add_wrap`). Two sums have the same representative when they agree modulo
`m` and vanish together (`wrap_eq_wrap_iff`).
-/

namespace MbBootTv

namespace OnesComplement

variable {m x y : Nat}

/-- What stands for `x` among the numbers up to `m`. -/
def wrap (m x : Nat) : Nat := if x = 0 then 0 else (x - 1) % m + 1

/-- A carry out of the top, added at the bottom. -/
def carry (m x : Nat) : Nat := if m < x then x - m else x

@[simp] theorem wrap_zero (m : Nat) : wrap m 0 = 0 := rfl

theorem wrap_of_pos (h : x ≠ 0) : wrap m x = (x - 1) % m + 1 := if_neg h

theorem wrap_eq_zero_iff : wrap m x = 0 ↔ x = 0 := by
  unfold wrap
  split_ifs with h <;> simp [h]

theorem wrap_le (hm : 0 < m) (x : Nat) : wrap m x ≤ m := by
  by_cases h : x = 0
  · rw [h, wrap_zero]
    exact Nat.zero_le m
  · rw [wrap_of_pos h]
    exact Nat.mod_lt _ hm

theorem wrap_modEq (m x : Nat) : wrap m x ≡ x [MOD m] := by
  by_cases h : x = 0
  · rw [h, wrap_zero]
  · rw [wrap_of_pos h]
    calc (x - 1) % m + 1 ≡ x - 1 + 1 [MOD m] := (Nat.mod_modEq _ _).add_right 1
      _ = x := by omega

/-- **Two sums with one representative.** -/
theorem wrap_eq_wrap_iff :
    wrap m x = wrap m y ↔ (x = 0 ↔ y = 0) ∧ x ≡ y [MOD m] := by
  constructor
  · intro h
    refine ⟨?_, ?_⟩
    · rw [← wrap_eq_zero_iff (m := m) (x := x), h, wrap_eq_zero_iff]
    · exact (wrap_modEq m x).symm.trans (h ▸ wrap_modEq m y)
  · rintro ⟨hzero, hmod⟩
    by_cases hx : x = 0
    · rw [hx, hzero.mp hx]
    · have hy : y ≠ 0 := fun h => hx (hzero.mpr h)
      rw [wrap_of_pos hx, wrap_of_pos hy]
      have hpred : x - 1 ≡ y - 1 [MOD m] := by
        refine Nat.ModEq.add_right_cancel' 1 ?_
        rwa [Nat.sub_add_cancel (Nat.pos_of_ne_zero hx),
          Nat.sub_add_cancel (Nat.pos_of_ne_zero hy)]
      rw [hpred]

theorem wrap_of_le (h : x ≤ m) : wrap m x = x := by
  by_cases hx : x = 0
  · rw [hx, wrap_zero]
  · rw [wrap_of_pos hx, Nat.mod_eq_of_lt (by omega)]
    omega

/-- **One carry is enough** after the addition of two numbers in range. -/
theorem carry_eq_wrap (h : x ≤ 2 * m) : carry m x = wrap m x := by
  unfold carry
  by_cases hx : m < x
  · rw [if_pos hx, ← wrap_of_le (by omega : x - m ≤ m), wrap_eq_wrap_iff]
    refine ⟨by omega, ?_⟩
    refine Nat.ModEq.add_right_cancel' m ?_
    rw [Nat.sub_add_cancel hx.le]
    exact (Nat.add_modEq_right).symm
  · rw [if_neg hx, wrap_of_le (not_lt.mp hx)]

/-- The carry may be taken before the rest is added. -/
theorem wrap_add_wrap (m x y : Nat) : wrap m (wrap m x + wrap m y) = wrap m (x + y) := by
  rw [wrap_eq_wrap_iff]
  refine ⟨?_, (wrap_modEq m x).add (wrap_modEq m y)⟩
  rw [Nat.add_eq_zero_iff, wrap_eq_zero_iff, wrap_eq_zero_iff, Nat.add_eq_zero_iff]

theorem wrap_wrap_add (m x y : Nat) : wrap m (wrap m x + y) = wrap m (x + y) := by
  rw [wrap_eq_wrap_iff]
  refine ⟨?_, (wrap_modEq m x).add_right y⟩
  rw [Nat.add_eq_zero_iff, wrap_eq_zero_iff, Nat.add_eq_zero_iff]

/-- The other zero. -/
theorem wrap_eq_self_iff (hm : 0 < m) : wrap m x = m ↔ x ≠ 0 ∧ m ∣ x := by
  rw [← Nat.modEq_zero_iff_dvd]
  constructor
  · intro h
    refine ⟨fun hx => ?_, ?_⟩
    · rw [hx, wrap_zero] at h
      omega
    · have hmod := wrap_modEq m x
      rw [h] at hmod
      exact hmod.symm.trans (by simp [Nat.ModEq])
  · rintro ⟨hx, hmod⟩
    conv_rhs => rw [← wrap_of_le (le_refl m)]
    rw [wrap_eq_wrap_iff]
    exact ⟨by omega, hmod.trans (by simp [Nat.ModEq])⟩

end OnesComplement

end MbBootTv

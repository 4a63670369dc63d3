import MbBootTv.Lib.Bytes

/-!
# A ring of bytes as a queue of records

Positions count on without end and are taken modulo the size `n` of the ring. `put` writes a record
from a position on; what lies outside its window stays (`get_put_of_ge`). `Stored` says that some
records lie one behind the other between a reading and a writing position, and a record that fits
in between goes to the end of them (`Stored.put`).
-/

namespace MbBootTv

namespace Ring

variable {mem : Bytes} {n pos i : Nat} {l : List UInt8}

/-- The byte at a position. -/
def get (mem : Bytes) (n pos : Nat) : UInt8 := mem (pos % n)

/-- A record, from a position on. -/
def put (mem : Bytes) (n pos : Nat) (l : List UInt8) : Bytes := fun a =>
  let i := (a + n - pos % n) % n
  if a < n ∧ i < l.length then l.getD i 0 else mem a

/-- How far a byte lies behind a position. -/
theorem index_eq (pos : Nat) (hi : i < n) : ((pos + i) % n + n - pos % n) % n = i := by
  have hr := Nat.mod_lt pos (by omega : 0 < n)
  rw [Nat.add_mod, Nat.mod_eq_of_lt hi]
  by_cases h : pos % n + i < n
  · rw [Nat.mod_eq_of_lt h, show pos % n + i + n - pos % n = i + n by omega, Nat.add_mod_right,
      Nat.mod_eq_of_lt hi]
  · have hwrap : (pos % n + i) % n = pos % n + i - n := by
      rw [Nat.mod_eq_sub_mod (by omega), Nat.mod_eq_of_lt (by omega)]
    rw [hwrap, show pos % n + i - n + n - pos % n = i by omega, Nat.mod_eq_of_lt hi]

theorem get_put (hi : i < n) :
    get (put mem n pos l) n (pos + i) =
      if i < l.length then l.getD i 0 else get mem n (pos + i) := by
  have ha := Nat.mod_lt (pos + i) (by omega : 0 < n)
  unfold get put
  dsimp only
  rw [index_eq pos hi]
  by_cases h : i < l.length
  · rw [if_pos ⟨ha, h⟩, if_pos h]
  · rw [if_neg (by omega), if_neg h]

/-- What lies behind the record is not touched. -/
theorem get_put_of_ge (hge : l.length ≤ i) (hi : i < n) :
    get (put mem n pos l) n (pos + i) = get mem n (pos + i) := by
  rw [get_put hi, if_neg (by omega)]

theorem get_add_size (mem : Bytes) (n pos : Nat) : get mem n (pos + n) = get mem n pos := by
  rw [get, get, Nat.add_mod_right]

/-! ## Records -/

/-- The record `l` lies at `pos`. -/
def Holds (mem : Bytes) (n pos : Nat) (l : List UInt8) : Prop :=
  ∀ i < l.length, get mem n (pos + i) = l.getD i 0

/-- These records lie between `rd` and `wr`. -/
def Stored (mem : Bytes) (n : Nat) : Nat → List (List UInt8) → Nat → Prop
  | rd, [], wr => rd = wr
  | rd, l :: ls, wr => Holds mem n rd l ∧ Stored mem n (rd + l.length) ls wr

variable {rd wr : Nat} {ls : List (List UInt8)}

theorem Stored.le (h : Stored mem n rd ls wr) : rd ≤ wr := by
  induction ls generalizing rd with
  | nil => exact le_of_eq h
  | cons l ls ih => exact (Nat.le_add_right _ _).trans (ih h.2)

/-- The records fill the space between the two positions. -/
theorem Stored.eq_add_sum (h : Stored mem n rd ls wr) : wr = rd + (ls.map List.length).sum := by
  induction ls generalizing rd with
  | nil => simpa using h.symm
  | cons l ls ih =>
    rw [ih h.2, List.map_cons, List.sum_cons, Nat.add_assoc]

/-- A record is written behind the others, around the end of the ring if need be. -/
theorem Holds.put_of_le {l' : List UInt8} (h : Holds mem n rd l) (hl : rd + l.length ≤ wr)
    (hroom : wr - rd + l'.length ≤ n) : Holds (Ring.put mem n wr l') n rd l := by
  intro i hi
  rw [← h i hi, ← get_add_size, ← get_add_size mem]
  -- Seen from the writing position, the old record lies at the far end of the window.
  have hpos : rd + i + n = wr + (n - (wr - rd) + i) := by omega
  rw [hpos]
  exact get_put_of_ge (by omega) (by omega)

theorem Stored.frame {l' : List UInt8} {mid : Nat} (h : Stored mem n rd ls mid) (hmid : mid ≤ wr)
    (hroom : wr - rd + l'.length ≤ n) : Stored (Ring.put mem n wr l') n rd ls mid := by
  induction ls generalizing rd with
  | nil => exact h
  | cons l ls ih =>
    have hle := h.2.le
    exact ⟨h.1.put_of_le (by omega) hroom, ih h.2 (by omega)⟩

theorem Stored.append {mid : Nat} (h : Stored mem n rd ls mid) (hl : Holds mem n mid l) :
    Stored mem n rd (ls ++ [l]) (mid + l.length) := by
  induction ls generalizing rd with
  | nil =>
    obtain rfl : rd = mid := h
    exact ⟨hl, rfl⟩
  | cons a ls ih => exact ⟨h.1, ih h.2⟩

/-- **A record that fits** goes to the end of the queue. -/
theorem Stored.put (h : Stored mem n rd ls wr) (hroom : wr - rd + l.length ≤ n) :
    Stored (Ring.put mem n wr l) n rd (ls ++ [l]) (wr + l.length) := by
  refine (h.frame le_rfl hroom).append fun i hi => ?_
  rw [get_put (by omega), if_pos hi]

end Ring

end MbBootTv

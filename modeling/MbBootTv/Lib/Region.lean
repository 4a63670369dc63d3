import MbBootTv.Lib.Bytes

/-!
# Regions of a memory

One memory with several regions in it. `Holds` says what a region holds, and `SameOff` that a step
changes one region at most; what a region holds is kept by every step off it (`Holds.frame`).
`copyUp` is the byte loop of a copy, which agrees with `copy` unless it runs over its own source.
-/

namespace MbBootTv

namespace Bytes

/-- The `n` bytes from `base` on are those of `b`. -/
def Holds (mem : Bytes) (base : Nat) (b : Bytes) (n : Nat) : Prop := ∀ i < n, mem (base + i) = b i

/-- Nothing has changed off the `n` bytes from `pos` on. -/
def SameOff (mem mem' : Bytes) (pos n : Nat) : Prop :=
  ∀ a, a < pos ∨ pos + n ≤ a → mem' a = mem a

variable {mem mem' mem'' b b' src : Bytes} {base pos m n : Nat}

/-! ## Steps -/

namespace SameOff

theorem copy : SameOff mem (mem.copy pos src n) pos n := fun _ ha => if_neg (by omega)

theorem fill {v : UInt8} : SameOff mem (mem.fill pos v n) pos n := fun _ ha => if_neg (by omega)

theorem putLe {v : Nat} : SameOff mem (mem.putLe pos n v) pos n := fun _ ha => if_neg (by omega)

theorem trans (h : SameOff mem mem' pos n) (h' : SameOff mem' mem'' pos n) :
    SameOff mem mem'' pos n := fun a ha => (h' a ha).trans (h a ha)

theorem mono {pos' n' : Nat} (h : SameOff mem mem' pos n) (hlo : pos' ≤ pos)
    (hhi : pos + n ≤ pos' + n') : SameOff mem mem' pos' n' :=
  fun a ha => h a (by omega)

end SameOff

/-! ## Regions -/

namespace Holds

theorem self : Holds mem base (fun i => mem (base + i)) n := fun _ _ => rfl

/-- What was copied to a region. -/
theorem of_copy : Holds (mem.copy base src n) base src n := fun i hi => by
  rw [copy_of_mem (Nat.le_add_right base i) (by omega), Nat.add_sub_cancel_left]

/-- What a region was filled with. -/
theorem of_fill {v : UInt8} : Holds (mem.fill base v n) base (fun _ => v) n := by
  rw [fill_eq_copy]
  exact of_copy

/-- **A step off a region** keeps what the region holds. -/
theorem frame (h : Holds mem base b n) (hs : SameOff mem mem' pos m)
    (hoff : base + n ≤ pos ∨ pos + m ≤ base) : Holds mem' base b n :=
  fun i hi => (hs (base + i) (by omega)).trans (h i hi)

theorem congr (h : Holds mem base b n) (hb : ∀ i < n, b i = b' i) : Holds mem base b' n :=
  fun i hi => (h i hi).trans (hb i hi)

theorem of_le (h : Holds mem base b n) (hm : m ≤ n) : Holds mem base b m :=
  fun i hi => h i (hi.trans_le hm)

/-- A part of a region. -/
theorem drop (h : Holds mem base b n) (hm : m ≤ n) :
    Holds mem (base + m) (fun i => b (m + i)) (n - m) := fun i hi => by
  rw [Nat.add_assoc]
  exact h (m + i) (by omega)

/-- A copy into a region. -/
theorem copy (h : Holds mem base b n) :
    Holds (mem.copy (base + pos) src m) base (b.copy pos src m) n := by
  intro i hi
  by_cases hin : pos ≤ i ∧ i < pos + m
  · rw [copy_of_mem (by omega) (by omega), copy_of_mem hin.1 hin.2]
    congr 1
    omega
  · rw [Bytes.copy, Bytes.copy, if_neg (by omega), if_neg hin]
    exact h i hi

theorem fill (h : Holds mem base b n) {v : UInt8} :
    Holds (mem.fill (base + pos) v m) base (b.fill pos v m) n := by
  rw [fill_eq_copy, fill_eq_copy]
  exact h.copy

theorem putLe_eq_copy (mem : Bytes) (pos w v : Nat) :
    mem.putLe pos w v = mem.copy pos (fun i => UInt8.ofNat (v / 256 ^ i)) w := rfl

/-- A store into a region. -/
theorem putLe (h : Holds mem base b n) {w v : Nat} :
    Holds (mem.putLe (base + pos) w v) base (b.putLe pos w v) n := by
  rw [putLe_eq_copy, putLe_eq_copy]
  exact h.copy

theorem leNat (h : Holds mem base b n) {w : Nat} (hin : pos + w ≤ n) :
    mem.leNat (base + pos) w = b.leNat pos w :=
  leNat_congr fun i hi => by
    rw [Nat.add_assoc]
    exact h (pos + i) (by omega)

end Holds

/-! ## Copying byte by byte -/

/-- `while (n--) *t++ = *f++` -/
def copyUp (mem : Bytes) (dst src : Nat) : Nat → Bytes
  | 0 => mem
  | n + 1 => (copyUp mem dst src n).fill (dst + n) (copyUp mem dst src n (src + n)) 1

/-- The loop copies what the source holds, if it is not over it or runs ahead of it. -/
theorem copyUp_eq_copy (mem : Bytes) {dst src : Nat} (n : Nat)
    (h : dst ≤ src ∨ src + n ≤ dst) :
    mem.copyUp dst src n = mem.copy dst (fun i => mem (src + i)) n := by
  induction n with
  | zero => exact (copy_zero_len mem _ dst).symm
  | succ n ih =>
    rw [copyUp, ih (by omega)]
    funext a
    by_cases hlast : a = dst + n
    · subst hlast
      -- The byte that is read has not been written.
      have hread : mem.copy dst (fun i => mem (src + i)) n (src + n) = mem (src + n) :=
        if_neg (by omega)
      rw [fill_of_mem le_rfl (Nat.lt_succ_self _), hread,
        copy_of_mem (Nat.le_add_right dst n) (by omega), Nat.add_sub_cancel_left]
    · rw [Bytes.fill, if_neg (by omega), Bytes.copy, Bytes.copy]
      by_cases hin : dst ≤ a ∧ a < dst + n
      · rw [if_pos hin, if_pos (by omega)]
      · rw [if_neg hin, if_neg (by omega)]

end Bytes

end MbBootTv

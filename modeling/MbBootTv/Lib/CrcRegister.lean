import Mathlib.Data.List.GetD
import Mathlib.Data.List.Lemmas

/-!
# The register of a reflected CRC

A register of `w` bits that is shifted to the right, and to which a polynomial is added when a one
falls out. Messages are fed to it bit by bit, the lowest bit of a byte first. The register is
linear, and when its polynomial has its highest bit, no state but zero is shifted to zero. So a
burst, which is a difference within `w` consecutive bits, always shows: `run_ne_zero_of_burst`.
-/

namespace MbBootTv.CrcRegister

variable {w : Nat}

/-- One shift. -/
def shift (P x : BitVec w) : BitVec w := x >>> 1 ^^^ if x.getLsbD 0 then P else 0

/-- A bit as a state. -/
def bit (b : Bool) : BitVec w := if b then 1 else 0

/-- A bit is added to the lowest one, and the register shifted. -/
def feed (P x : BitVec w) (b : Bool) : BitVec w := shift P (x ^^^ bit b)

/-- A message. -/
def run (P : BitVec w) : BitVec w → List Bool → BitVec w := List.foldl (feed P)

/-! ## Linearity -/

@[simp] theorem shift_zero (P : BitVec w) : shift P 0 = 0 := by
  simp [shift]

theorem shift_xor (P x y : BitVec w) : shift P (x ^^^ y) = shift P x ^^^ shift P y := by
  unfold shift
  rw [BitVec.getLsbD_xor, BitVec.ushiftRight_xor_distrib]
  apply BitVec.eq_of_getLsbD_eq
  intro i _
  simp only [BitVec.getLsbD_xor]
  -- the polynomial is added twice, once or not at all
  generalize (x >>> 1).getLsbD i = a, (y >>> 1).getLsbD i = b
  cases x.getLsbD 0 <;> cases y.getLsbD 0 <;> cases a <;> cases b <;> cases hP : P.getLsbD i <;>
    simp [hP]

@[simp] theorem bit_false : (bit false : BitVec w) = 0 := rfl

/-- A zero is fed. -/
theorem feed_false (P x : BitVec w) : feed P x false = shift P x :=
  congrArg (shift P) (BitVec.xor_zero (x := x))

theorem bit_xor (a b : Bool) : (bit (a ^^ b) : BitVec w) = bit a ^^^ bit b := by
  cases a <;> cases b <;> simp [bit]

theorem feed_xor (P x y : BitVec w) (a b : Bool) :
    feed P (x ^^^ y) (a ^^ b) = feed P x a ^^^ feed P y b := by
  rw [feed, feed, feed, ← shift_xor, bit_xor]
  congr 1
  ac_rfl

@[simp] theorem run_nil (P x : BitVec w) : run P x [] = x := rfl

@[simp] theorem run_cons (P x : BitVec w) (b : Bool) (bs : List Bool) :
    run P x (b :: bs) = run P (feed P x b) bs := rfl

theorem run_append (P x : BitVec w) (bs cs : List Bool) :
    run P x (bs ++ cs) = run P (run P x bs) cs := List.foldl_append

/-- **Two runs of one length**, added. -/
theorem run_xor (P : BitVec w) {bs cs : List Bool} (h : bs.length = cs.length) (x y : BitVec w) :
    run P (x ^^^ y) (List.zipWith xor bs cs) = run P x bs ^^^ run P y cs := by
  induction bs generalizing cs x y with
  | nil =>
    cases cs with
    | nil => rfl
    | cons c cs => simp at h
  | cons b bs ih =>
    cases cs with
    | nil => simp at h
    | cons c cs =>
      rw [List.zipWith_cons_cons, run_cons, feed_xor, ih (Nat.succ.inj h)]
      rfl

/-! ## States and messages -/

theorem shift_of_even (P : BitVec w) {x : BitVec w} (h : x.getLsbD 0 = false) :
    shift P x = x >>> 1 := by
  simp [shift, h]

/-- The bit that falls out is the highest one afterwards. -/
theorem getLsbD_shift_top {P : BitVec w} (hP : P.getLsbD (w - 1) = true) (x : BitVec w) :
    (shift P x).getLsbD (w - 1) = x.getLsbD 0 := by
  have hw : 0 < w := by
    by_contra h
    rw [BitVec.getLsbD_of_ge P (w - 1) (by omega)] at hP
    exact Bool.false_ne_true hP
  have hout : x.getLsbD (1 + (w - 1)) = false := BitVec.getLsbD_of_ge x _ (by omega)
  unfold shift
  rw [BitVec.getLsbD_xor, BitVec.getLsbD_ushiftRight, hout]
  cases x.getLsbD 0 <;> simp [hP]

/-- **A state is shifted to zero only if it is zero.** -/
theorem shift_eq_zero {P : BitVec w} (hP : P.getLsbD (w - 1) = true) {x : BitVec w}
    (h : shift P x = 0) : x = 0 := by
  have heven : x.getLsbD 0 = false := by
    rw [← getLsbD_shift_top hP, h]
    simp
  rw [shift_of_even P heven] at h
  refine BitVec.eq_of_getLsbD_eq fun i hi => ?_
  show x.getLsbD i = (0#w).getLsbD i
  rw [BitVec.getLsbD_zero]
  cases i with
  | zero => exact heven
  | succ i =>
    have hbit := congrArg (fun y => y.getLsbD i) h
    simpa [BitVec.getLsbD_ushiftRight, Nat.add_comm] using hbit

theorem getLsbD_bit_succ (b : Bool) (i : Nat) : (bit b : BitVec w).getLsbD (i + 1) = false := by
  cases b with
  | false => simp
  | true => simp [bit, BitVec.getLsbD_one]

theorem getLsbD_bit_zero (hw : 0 < w) (b : Bool) : (bit b : BitVec w).getLsbD 0 = b := by
  cases b with
  | false => simp
  | true => simp [bit, hw]

/-- **A message of up to `w` bits takes one state to zero**: the one that has its bits. -/
theorem run_eq_zero_iff {P : BitVec w} (hP : P.getLsbD (w - 1) = true) {x : BitVec w}
    {bs : List Bool} (hlen : bs.length ≤ w) :
    run P x bs = 0 ↔ ∀ i, x.getLsbD i = bs.getD i false := by
  induction bs generalizing x with
  | nil =>
    rw [run_nil]
    constructor
    · rintro rfl i
      simp
    · intro h
      refine BitVec.eq_of_getLsbD_eq fun i _ => ?_
      rw [h i]
      simp
  | cons b bs ih =>
    rw [List.length_cons] at hlen
    have hw : 0 < w := by omega
    have hlow : (x ^^^ bit b).getLsbD 0 = (x.getLsbD 0 ^^ b) := by
      rw [BitVec.getLsbD_xor, getLsbD_bit_zero hw]
    have hhigh : ∀ i, (x ^^^ bit b).getLsbD (i + 1) = x.getLsbD (i + 1) := fun i => by
      rw [BitVec.getLsbD_xor, getLsbD_bit_succ, Bool.xor_false]
    have hshift : (x ^^^ bit b).getLsbD 0 = false →
        ∀ i, (feed P x b).getLsbD i = x.getLsbD (i + 1) := fun heven i => by
      rw [feed, shift_of_even P heven, BitVec.getLsbD_ushiftRight, Nat.add_comm, hhigh]
    rw [run_cons, ih (by omega)]
    constructor
    · intro h
      have heven : (x ^^^ bit b).getLsbD 0 = false := by
        rw [← getLsbD_shift_top hP]
        have htop := h (w - 1)
        rwa [List.getD_eq_default _ _ (by omega)] at htop
      intro i
      cases i with
      | zero =>
        rw [hlow] at heven
        rw [List.getD_cons_zero]
        simpa using heven
      | succ i => rw [List.getD_cons_succ, ← h i, hshift heven]
    · intro h i
      have heven : (x ^^^ bit b).getLsbD 0 = false := by
        rw [hlow, h 0, List.getD_cons_zero]
        simp
      rw [hshift heven, h (i + 1), List.getD_cons_succ]

/-! ## Bursts -/

theorem run_zeros (P : BitVec w) {bs : List Bool} (h : ∀ b ∈ bs, b = false) : run P 0 bs = 0 := by
  induction bs with
  | nil => rfl
  | cons b bs ih =>
    have hb : feed P 0 b = 0 := by
      rw [h b List.mem_cons_self, feed_false, shift_zero]
    rw [run_cons, hb]
    exact ih fun c hc => h c (List.mem_cons_of_mem b hc)

/-- Zeros do not take a state to zero. -/
theorem run_ne_zero {P : BitVec w} (hP : P.getLsbD (w - 1) = true) {bs : List Bool}
    (h : ∀ b ∈ bs, b = false) {x : BitVec w} (hx : x ≠ 0) : run P x bs ≠ 0 := by
  induction bs generalizing x with
  | nil => exact hx
  | cons b bs ih =>
    have hb : feed P x b = shift P x := by
      rw [h b List.mem_cons_self, feed_false]
    rw [run_cons, hb]
    exact ih (fun c hc => h c (List.mem_cons_of_mem b hc)) fun h0 => hx (shift_eq_zero hP h0)

/-- **A burst shows**: a message whose ones stand within `w` consecutive places is not taken to
zero. -/
theorem run_ne_zero_of_burst {P : BitVec w} (hP : P.getLsbD (w - 1) = true) {bs : List Bool}
    {a : Nat} (hburst : ∀ k, bs.getD k false = true → a ≤ k ∧ k < a + w) (hone : true ∈ bs) :
    run P 0 bs ≠ 0 := by
  have hget : ∀ {cs : List Bool}, (∀ k, cs.getD k false = false) → ∀ b ∈ cs, b = false := by
    intro cs hcs b hb
    obtain ⟨k, hk, rfl⟩ := List.getElem_of_mem hb
    have := hcs k
    rwa [List.getD_eq_getElem _ _ hk] at this
  -- before the burst, the burst, and behind it
  have hfront : ∀ b ∈ bs.take a, b = false := hget fun k => by
    by_cases hk : k < a
    · rw [List.getD_eq_getElem?_getD, List.getElem?_take_of_lt hk, ← List.getD_eq_getElem?_getD]
      exact Bool.eq_false_of_not_eq_true fun h => absurd (hburst k h).1 (by omega)
    · rw [List.getD_eq_default _ _ ((List.length_take_le a bs).trans (by omega))]
  have hback : ∀ b ∈ (bs.drop a).drop w, b = false := hget fun k => by
    rw [List.drop_drop, List.getD_eq_getElem?_getD, List.getElem?_drop,
      ← List.getD_eq_getElem?_getD]
    exact Bool.eq_false_of_not_eq_true fun h => absurd (hburst _ h).2 (by omega)
  have hmiddle : run P 0 ((bs.drop a).take w) ≠ 0 := by
    intro h0
    have hzero := (run_eq_zero_iff hP (List.length_take_le w _)).mp h0
    have hfalse := hget fun k => by rw [← hzero k]; simp
    rw [← List.take_append_drop a bs, ← List.take_append_drop w (bs.drop a)] at hone
    simp only [List.mem_append] at hone
    obtain h | h | h := hone
    · exact absurd (hfront _ h) (by decide)
    · exact absurd (hfalse _ h) (by decide)
    · exact absurd (hback _ h) (by decide)
  rw [← List.take_append_drop a bs, ← List.take_append_drop w (bs.drop a), run_append, run_append,
    run_zeros P hfront]
  exact run_ne_zero hP hback hmiddle

/-- **Two messages of one length whose differences are a burst** end in different states. -/
theorem run_ne_of_burst {P : BitVec w} (hP : P.getLsbD (w - 1) = true) (x : BitVec w)
    {bs cs : List Bool} (hlen : bs.length = cs.length) {a : Nat}
    (hburst : ∀ k, (List.zipWith xor bs cs).getD k false = true → a ≤ k ∧ k < a + w)
    (hone : true ∈ List.zipWith xor bs cs) : run P x bs ≠ run P x cs := by
  intro h
  have hxor := run_xor P hlen x x
  rw [h, BitVec.xor_self, BitVec.xor_self] at hxor
  exact run_ne_zero_of_burst hP hburst hone hxor

end MbBootTv.CrcRegister

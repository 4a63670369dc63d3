import MbBootTv.Lib.Bytes
import MbBootTv.Lib.Except

/-!
# Strings in memory (`string.c`)

With `strcpy`, which is in `loader_init.c`. A string lives in an array of `cap` bytes and is named
by the index of its first byte. The loops of `string.c` look for a byte that may not be there, so
each function can leave its array; what can go wrong in the rest of the program is named here as
well.
-/

namespace MbBootTv

/-- What ends a run without a result. -/
inductive Fault
  /-- A division or a remainder by zero. -/
  | divByZero
  /-- A write past the end of a buffer. -/
  | overrun
  /-- A group descriptor beyond those that were loaded. -/
  | groupIndex
  /-- Any other access outside an array. -/
  | outOfBounds
  /-- The loop has not come to an end. -/
  | fuel
  deriving DecidableEq, Repr

/-- `b[i]` -/
def loadByte (b : Bytes) (cap i : Nat) : Except Fault UInt8 :=
  if i < cap then .ok (b i) else .error .outOfBounds

/-- `while (!stop (*s)) s++`, with `n` bytes from `i` on. -/
def scan (stop : UInt8 → Bool) (b : Bytes) : Nat → Nat → Except Fault Nat
  | _, 0 => .error .outOfBounds
  | i, n + 1 => if stop (b i) then .ok i else scan stop b (i + 1) n

/-- `strlen` -/
def strlen (b : Bytes) (cap s : Nat) : Except Fault Nat := do
  let e ← scan (· = 0) b s (cap - s)
  return e - s

/-- `strchr` -/
def strchr (b : Bytes) (cap s : Nat) (c : UInt8) : Except Fault (Option Nat) := do
  let e ← scan (fun x => x = 0 || x = c) b s (cap - s)
  return if b e = 0 then none else some e

/-- `for (; e != s; e--)`, with `k` bytes between `s` and `e`. -/
def lastFrom (b : Bytes) (c : UInt8) (s : Nat) : Nat → Option Nat
  | 0 => none
  | k + 1 => if b (s + k + 1) = c then some (s + k + 1) else lastFrom b c s k

/-- `strrchr`: it does not look at the first byte. -/
def strrchr (b : Bytes) (cap s : Nat) (c : UInt8) : Except Fault (Option Nat) := do
  let e ← scan (· = 0) b s (cap - s)
  return lastFrom b c s (e - s)

/-- `strncmp`, from byte `i` on; `char` is signed. -/
def strncmp (s1 s2 : Nat → Except Fault UInt8) : Nat → Nat → Except Fault Int
  | _, 0 => .ok 0
  | i, n + 1 => do
    let x ← s1 i
    let y ← s2 i
    if y.toInt8 < x.toInt8 then return 1
    else if x.toInt8 < y.toInt8 then return -1
    else if x = 0 then return 0
    else strncmp s1 s2 (i + 1) n

/-- `strncpy`. When the source is longer than `n`, the count has wrapped before the padding loop,
which then runs off the array. -/
def strncpy (dst : Bytes) (cap d : Nat) (src : Nat → Except Fault UInt8) :
    Nat → Nat → Except Fault Bytes
  | i, 0 => do
    let c ← src i
    if c ≠ 0 then .error .overrun else return dst
  | i, n + 1 => do
    let c ← src i
    if c ≠ 0 then
      if d < cap then strncpy (dst.fill d c 1) cap (d + 1) src (i + 1) n else .error .overrun
    else if d + (n + 1) ≤ cap then return dst.fill d 0 (n + 1)
    else .error .overrun

/-- `strcat` -/
def strcat (dst : Bytes) (cap d : Nat) (src : Bytes) (srcCap s : Nat) : Except Fault Bytes := do
  let e ← scan (· = 0) dst d (cap - d)
  let len ← strlen src srcCap s
  if e + len + 1 ≤ cap then return dst.copy e (fun i => src (s + i)) (len + 1)
  else .error .overrun

/-- `strtok_simple`: the token, the static `last`, and the array. -/
def strtokSimple (b : Bytes) (cap : Nat) (input last : Option Nat) (c : UInt8) :
    Except Fault (Option Nat × Option Nat × Bytes) :=
  match input <|> last with
  | none => .ok (none, last, b)
  | some s => do
    let x ← loadByte b cap s
    let s := if x = c then s + 1 else s
    match ← strchr b cap s c with
    | some t => return (some s, some (t + 1), b.fill t 0 1)
    | none => return (some s, none, b)

/-- `is_space` -/
def isSpace (l : UInt8) : Bool := l = 32 || l = 9 || l = 10 || l = 13

/-- `match`: where the string at `l` goes on after the keyword `m`. -/
def matchWord (b : Bytes) (cap l : Nat) : List UInt8 → Except Fault (Option Nat)
  | [] => .ok (some l)
  | c :: m => do
    let x ← loadByte b cap l
    if x ≠ c then return none else matchWord b cap (l + 1) m

/-- `strcpy` to the start of an array of `dstCap` bytes. -/
def strcpy (dst : Bytes) (dstCap : Nat) (src : Bytes) (cap s : Nat) : Except Fault Bytes := do
  let len ← strlen src cap s
  if len + 1 ≤ dstCap then return dst.copy 0 (fun i => src (s + i)) (len + 1)
  else .error .overrun

/-- The bytes of a string literal. -/
def ascii (s : String) : List UInt8 := s.toList.map fun c => UInt8.ofNat c.toNat

/-- `%d` -/
def decimal (n : Int32) : List UInt8 := ascii (toString n.toInt)

/-- The string in an array of `n` bytes. -/
def cString (b : Bytes) (n : Nat) : List UInt8 := (b.slice 0 n).takeWhile (· ≠ 0)

/-! ## Lengths -/

theorem ascii_length (s : String) : (ascii s).length = s.length := by
  unfold ascii
  rw [List.length_map, String.length_toList]

theorem decimal_length (n : Int32) : (decimal n).length ≤ 11 := by
  have hhi := n.toInt_lt
  have hlo : -2147483648 ≤ n.toInt := n.minValue_le_toInt
  unfold decimal
  rw [ascii_length]
  cases hn : n.toInt with
  | ofNat m =>
    rw [hn] at hhi
    have hm : (m : Int) < 2 ^ 31 := hhi
    exact (Nat.length_repr_le_iff (by decide)).2 (by omega)
  | negSucc m =>
    have hm : m + 1 < 10 ^ 10 := by omega
    have hrepr := (Nat.length_repr_le_iff (k := 10) (by decide)).2 hm
    show ("-" ++ Nat.repr (m + 1)).length ≤ 11
    rw [String.length_append]
    have hsign : "-".length = 1 := by decide
    omega

/-! ## Scanning -/

theorem scan_eq_ok_iff {stop : UInt8 → Bool} {b : Bytes} {i n e : Nat} :
    scan stop b i n = .ok e ↔
      i ≤ e ∧ e < i + n ∧ stop (b e) = true ∧ ∀ j, i ≤ j → j < e → stop (b j) = false := by
  induction n generalizing i with
  | zero =>
    simp only [scan, reduceCtorEq, false_iff]
    omega
  | succ n ih =>
    rw [scan]
    by_cases hstop : stop (b i) = true
    · rw [if_pos hstop, Except.ok.injEq]
      constructor
      · rintro rfl
        exact ⟨le_rfl, by omega, hstop, fun j hij hji => absurd (hij.trans_lt hji) (lt_irrefl _)⟩
      · rintro ⟨hie, -, -, hmin⟩
        by_contra hne
        have := hmin i le_rfl (by omega)
        rw [hstop] at this
        exact Bool.false_ne_true this.symm
    · rw [if_neg hstop, ih]
      constructor
      · rintro ⟨hie, hlt, he, hmin⟩
        refine ⟨by omega, by omega, he, fun j hij hje => ?_⟩
        by_cases hj : j = i
        · subst hj
          simpa using hstop
        · exact hmin j (by omega) hje
      · rintro ⟨hie, hlt, he, hmin⟩
        have hne : e ≠ i := by
          rintro rfl
          exact hstop he
        exact ⟨by omega, by omega, he, fun j hij hje => hmin j (by omega) hje⟩

/-- A scan ends where it has to, or before. -/
theorem exists_scan {stop : UInt8 → Bool} {b : Bytes} {i n e : Nat} (hie : i ≤ e) (hlt : e < i + n)
    (hstop : stop (b e) = true) : ∃ t, i ≤ t ∧ t ≤ e ∧ scan stop b i n = .ok t := by
  have hex : ∃ t, i ≤ t ∧ stop (b t) = true := ⟨e, hie, hstop⟩
  obtain ⟨hit, ht⟩ := Nat.find_spec hex
  have hte : Nat.find hex ≤ e := Nat.find_min' hex ⟨hie, hstop⟩
  refine ⟨Nat.find hex, hit, hte,
    scan_eq_ok_iff.mpr ⟨hit, hte.trans_lt hlt, ht, fun j hij hj => ?_⟩⟩
  exact Bool.eq_false_of_not_eq_true fun hstop => Nat.find_min hex hj ⟨hij, hstop⟩

/-! ## Comparing -/

theorem strncmp_total (x y : Nat → UInt8) (i n : Nat) :
    ∃ r, strncmp (fun i => .ok (x i)) (fun i => .ok (y i)) i n = .ok r := by
  induction n generalizing i with
  | zero => exact ⟨0, rfl⟩
  | succ n ih =>
    unfold strncmp
    simp only [ok_bind]
    split_ifs
    · exact ⟨1, rfl⟩
    · exact ⟨-1, rfl⟩
    · exact ⟨0, rfl⟩
    · exact ih (i + 1)

/-- A comparison looks at a byte only behind equal ones. -/
theorem strncmp_congr {s1 s2 : Nat → Except Fault UInt8} {x y : Nat → UInt8} {i n : Nat}
    (h : ∀ j < n, (∀ j' < j, x (i + j') = y (i + j') ∧ x (i + j') ≠ 0) →
      s1 (i + j) = .ok (x (i + j)) ∧ s2 (i + j) = .ok (y (i + j))) :
    strncmp s1 s2 i n = strncmp (fun i => .ok (x i)) (fun i => .ok (y i)) i n := by
  induction n generalizing i with
  | zero => rfl
  | succ n ih =>
    obtain ⟨h1, h2⟩ := h 0 (Nat.succ_pos n) fun j' hj' => absurd hj' (Nat.not_lt_zero j')
    rw [Nat.add_zero] at h1 h2
    unfold strncmp
    rw [h1, h2]
    simp only [ok_bind]
    split_ifs with hgt hlt h0
    · rfl
    · rfl
    · rfl
    · have hsame : x i = y i := by
        have hint : (x i).toInt8 = (y i).toInt8 :=
          Int8.le_antisymm (Int8.not_lt.mp hgt) (Int8.not_lt.mp hlt)
        simpa using congrArg Int8.toUInt8 hint
      refine ih fun j hj hpre => ?_
      have hnext := h (j + 1) (Nat.succ_lt_succ hj) fun j' hj' => ?_
      · rwa [← Nat.add_assoc, Nat.add_right_comm] at hnext
      · cases j' with
        | zero => exact ⟨hsame, h0⟩
        | succ j' =>
          have := hpre j' (Nat.lt_of_succ_lt_succ hj')
          rwa [Nat.add_right_comm, Nat.add_assoc] at this

/-- What a comparison yields does not depend on where its bytes stand. -/
theorem strncmp_of_ok {s1 s2 : Nat → Except Fault UInt8} {x y : Nat → UInt8} {i n : Nat} {r : Int}
    (h1 : ∀ j c, s1 j = .ok c → c = x j) (h2 : ∀ j c, s2 j = .ok c → c = y j)
    (h : strncmp s1 s2 i n = .ok r) :
    strncmp (fun i => .ok (x i)) (fun i => .ok (y i)) i n = .ok r := by
  induction n generalizing i with
  | zero => exact h
  | succ n ih =>
    unfold strncmp at h ⊢
    obtain ⟨c1, hc1, h⟩ := bind_eq_ok.mp h
    obtain ⟨c2, hc2, h⟩ := bind_eq_ok.mp h
    rw [h1 _ _ hc1, h2 _ _ hc2] at h
    simp only [ok_bind]
    split_ifs at h ⊢
    · exact h
    · exact h
    · exact h
    · exact ih h

end MbBootTv

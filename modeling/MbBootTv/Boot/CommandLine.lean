import MbBootTv.Boot.HandOff
import MbBootTv.Console.Vsprintf

/-!
# The command line (`loader_init.c`)

`boot_kernel` appends the place of the framebuffer to the options, with `%d`. The kernel reads the
four numbers back as unsigned ones, which `commandLineRight_iff` says when it can.
-/

namespace MbBootTv

/-! ## What `sprintf` makes of the format -/

/-- The format of the command line. -/
def cmdlineFormat : List UInt8 :=
  ascii "%s video=imacfb:appletv,width:%d,height:%d,linelength:%d,base:%d"

/-- Its arguments. -/
def cmdlineArgs (hw : BootParms) (options : List UInt8) : List Arg :=
  [.str (some options), .word hw.width.toUInt32, .word hw.height.toUInt32,
    .word hw.rowb.toUInt32, .word hw.addr.toUInt32]

/-- **The format engine** makes the options and what the format says behind them. -/
theorem vsprintf_cmdline (hw : BootParms) {options : List UInt8} (h : options.length < 2 ^ 32) :
    vsprintf cmdlineFormat (cmdlineArgs hw options) = .ok ⟨options ++ videoOptions hw, []⟩ := by
  have hformat : cmdlineFormat = ascii "%s" ++ (ascii " video=imacfb:appletv,width:" ++
      (ascii "%d" ++ (ascii ",height:" ++ (ascii "%d" ++ (ascii ",linelength:" ++
        (ascii "%d" ++ (ascii ",base:" ++ (ascii "%d" ++ [])))))))) := by decide
  unfold vsprintf cmdlineArgs
  rw [hformat, vsprintfFrom_s, List.take_of_length_le (by omega), vsprintfFrom_text (by decide),
    vsprintfFrom_d, vsprintfFrom_text (by decide), vsprintfFrom_d, vsprintfFrom_text (by decide),
    vsprintfFrom_d, vsprintfFrom_text (by decide), vsprintfFrom_d, vsprintfFrom_nil]
  simp only [Printed.put, videoOptions, decimal, List.nil_append, List.append_assoc,
    Int32.toInt32_toUInt32]

/-! ## Reading the numbers back -/

/-- The numbers behind the keys, which stand in this order in a text of keys and numbers. -/
def readNumbers : List (List UInt8) → List UInt8 → Option (List UInt32)
  | [], text => if text = [] then some [] else none
  | key :: keys, text =>
    if key <+: text then
      let (v, rest) := simpleStrtoul (text.drop key.length) 10
      (readNumbers keys rest).map (v :: ·)
    else none

/-- What stands in front of the numbers. -/
def videoKeys : List (List UInt8) :=
  [ascii " video=imacfb:appletv,width:", ascii ",height:", ascii ",linelength:", ascii ",base:"]

/-- Keys with numbers behind them. -/
def numbersText (entries : List (List UInt8 × UInt32)) : List UInt8 :=
  entries.flatMap fun e => e.1 ++ decimal e.2.toInt32

/-- The keys and numbers of the command line. -/
def videoEntries (hw : BootParms) : List (List UInt8 × UInt32) :=
  [(ascii " video=imacfb:appletv,width:", hw.width.toUInt32),
    (ascii ",height:", hw.height.toUInt32), (ascii ",linelength:", hw.rowb.toUInt32),
    (ascii ",base:", hw.addr.toUInt32)]

theorem videoOptions_eq (hw : BootParms) : videoOptions hw = numbersText (videoEntries hw) := by
  simp [videoOptions, numbersText, videoEntries]

theorem decimal_of_lt {v : UInt32} (h : v.toNat < 2 ^ 31) :
    decimal v.toInt32 = ascii (Nat.repr v.toNat) := by
  rw [decimal, toInt_toInt32_of_lt h]
  rfl

theorem decimal_of_ge {v : UInt32} (h : ¬ v.toNat < 2 ^ 31) :
    ∃ digits, decimal v.toInt32 = '-'.toUInt8 :: digits := by
  have hlt := v.toNat_lt
  obtain ⟨k, hk⟩ : ∃ k : Nat, (v.toNat : Int) - 2 ^ 32 = Int.negSucc k :=
    ⟨2 ^ 32 - v.toNat - 1, by omega⟩
  rw [decimal, toInt_toInt32, if_neg h, hk]
  exact ⟨ascii (Nat.repr (k + 1)), ascii_append "-" (Nat.repr (k + 1))⟩

/-- The key begins with a byte that neither goes on with a number nor is a sign. -/
def Separates (key : List UInt8) : Prop :=
  ∃ c s, key = c :: s ∧ isXDigit c = false ∧ c ≠ '-'.toUInt8

theorem simpleStrtoul_decimal {v : UInt32} (h : v.toNat < 2 ^ 31) {rest : List UInt8}
    (hrest : rest = [] ∨ Separates rest) :
    simpleStrtoul (decimal v.toInt32 ++ rest) 10 = (v, rest) := by
  unfold simpleStrtoul
  rw [if_pos (by decide), decimal_of_lt h, strtoulLoop_repr, UInt32.ofNat_toNat]
  rcases hrest with rfl | ⟨c, s, rfl, hc, -⟩
  · rfl
  · exact strtoulLoop_end hc s v 10

theorem numbersText_separates {entries : List (List UInt8 × UInt32)}
    (h : ∀ e ∈ entries, Separates e.1) :
    numbersText entries = [] ∨ Separates (numbersText entries) := by
  cases entries with
  | nil => exact Or.inl rfl
  | cons e entries =>
    obtain ⟨c, s, hkey, hc⟩ := h e List.mem_cons_self
    refine Or.inr ⟨c, s ++ decimal e.2.toInt32 ++ numbersText entries, ?_, hc⟩
    rw [numbersText, List.flatMap_cons, hkey]
    simp [numbersText]

/-- A negative number ends the reading. -/
theorem readNumbers_of_sign {keys : List (List UInt8)} (h : ∀ k ∈ keys, Separates k)
    (s : List UInt8) : readNumbers keys ('-'.toUInt8 :: s) = none := by
  cases keys with
  | nil => rfl
  | cons key keys =>
    obtain ⟨c, t, rfl, -, hc⟩ := h key List.mem_cons_self
    rw [readNumbers, if_neg fun hpre => hc (List.cons_prefix_cons.mp hpre).1]

/-- **The numbers are read back** exactly when none of them looks negative. -/
theorem readNumbers_numbersText {entries : List (List UInt8 × UInt32)}
    (h : ∀ e ∈ entries.tail, Separates e.1) :
    readNumbers (entries.map Prod.fst) (numbersText entries) = some (entries.map Prod.snd) ↔
      ∀ e ∈ entries, e.2.toNat < 2 ^ 31 := by
  induction entries with
  | nil => exact iff_of_true rfl fun _ he => nomatch he
  | cons e entries ih =>
    obtain ⟨key, v⟩ := e
    rw [List.tail_cons] at h
    have htext : numbersText ((key, v) :: entries) =
        key ++ (decimal v.toInt32 ++ numbersText entries) := by
      rw [numbersText, List.flatMap_cons, List.append_assoc]
      rfl
    rw [htext, List.map_cons, List.map_cons, readNumbers, if_pos (List.prefix_append _ _),
      List.drop_left, List.forall_mem_cons]
    by_cases hv : v.toNat < 2 ^ 31
    · rw [simpleStrtoul_decimal hv (numbersText_separates h)]
      dsimp only
      rw [and_iff_right hv, ← ih fun e he => h e (List.mem_of_mem_tail he)]
      cases readNumbers (entries.map Prod.fst) (numbersText entries) with
      | none => exact iff_of_false (fun h => nomatch h) fun h => nomatch h
      | some vs => simp
    · obtain ⟨digits, hdec⟩ := decimal_of_ge hv
      have hread : simpleStrtoul (decimal v.toInt32 ++ numbersText entries) 10 =
          (0, '-'.toUInt8 :: (digits ++ numbersText entries)) := by
        have hsign : isXDigit '-'.toUInt8 = false := by decide
        rw [hdec, List.cons_append, simpleStrtoul, if_pos (by decide), strtoulLoop_end hsign]
      rw [hread]
      dsimp only
      rw [readNumbers_of_sign fun k hk => by
        obtain ⟨e, he, rfl⟩ := List.mem_map.mp hk
        exact h e he]
      exact iff_of_false (fun h => nomatch h) fun h => hv h.1

/-! ## The command line in the parameter block -/

/-- What is asked of the command line for the options at `o`, in the parameters at `bp`. -/
structure CommandLineRight (hw : BootParms) (mem : Bytes) (bp o oLen : Nat)
    (text : List UInt8) (mem' : Bytes) : Prop where
  /-- It is what `sprintf` makes of the format. -/
  formatted : vsprintf cmdlineFormat (cmdlineArgs hw (mem.slice o oLen)) = .ok ⟨text, []⟩
  /-- With its NUL it lies at the end of the block. -/
  inside : cmdlineOffset + (text.length + 1) ≤ bootParamMemsize
  stored : mem'.Holds (bp + cmdlineOffset) (fun i => text.getD i 0) (text.length + 1)
  terminated : 0 ∉ text
  /-- Nothing else is written. -/
  frame : mem.SameOff mem' (bp + cmdlineOffset) (text.length + 1)
  /-- The fields of the parameters are elsewhere. -/
  apart : ∀ r rLen, (sysdepsCreateBootParams hw mem' bp r rLen (bp + cmdlineOffset)).Holds
    (bp + cmdlineOffset) (fun i => text.getD i 0) (text.length + 1)
  options : mem.slice o oLen <+: text
  /-- The numbers can be read back. -/
  numbers : readNumbers videoKeys (text.drop oLen) =
    some [hw.width.toUInt32, hw.height.toUInt32, hw.rowb.toUInt32, hw.addr.toUInt32]

/-- No number of the command line looks negative. -/
def SmallNumbers (hw : BootParms) : Prop :=
  hw.width.toUInt32.toNat < 2 ^ 31 ∧ hw.height.toUInt32.toNat < 2 ^ 31 ∧
    hw.rowb.toUInt32.toNat < 2 ^ 31 ∧ hw.addr.toUInt32.toNat < 2 ^ 31

theorem readNumbers_videoOptions (hw : BootParms) :
    readNumbers videoKeys (videoOptions hw) =
        some [hw.width.toUInt32, hw.height.toUInt32, hw.rowb.toUInt32, hw.addr.toUInt32] ↔
      SmallNumbers hw := by
  have hcomma : isXDigit ','.toUInt8 = false ∧ ','.toUInt8 ≠ '-'.toUInt8 := by decide
  have hsep : ∀ e ∈ (videoEntries hw).tail, Separates e.1 := by
    intro e he
    simp only [videoEntries, List.tail_cons, List.mem_cons, List.not_mem_nil, or_false] at he
    rcases he with rfl | rfl | rfl
    · exact ⟨','.toUInt8, ascii "height:", rfl, hcomma⟩
    · exact ⟨','.toUInt8, ascii "linelength:", rfl, hcomma⟩
    · exact ⟨','.toUInt8, ascii "base:", rfl, hcomma⟩
  rw [videoOptions_eq]
  refine (readNumbers_numbersText hsep).trans ?_
  simp [videoEntries, SmallNumbers]

theorem zero_not_mem_decimal (n : Int32) : 0 ∉ decimal n := by
  have hdigit : ∀ d < 10, 0 ∉ ascii (String.singleton (Nat.digitChar d)) := by decide
  have hrepr : ∀ k : Nat, 0 ∉ ascii (Nat.repr k) := by
    intro k
    induction k using Nat.strong_induction_on with
    | _ k ih =>
      by_cases hk : k < 10
      · rw [Nat.repr_of_lt hk]
        exact hdigit k hk
      · rw [Nat.repr_of_ge (n := k) (by omega), ascii_append, List.mem_append, not_or]
        exact ⟨ih _ (by omega), hdigit _ (Nat.mod_lt k (by decide))⟩
  unfold decimal
  cases n.toInt with
  | ofNat k => exact hrepr k
  | negSucc k =>
    show 0 ∉ ascii ("-" ++ Nat.repr (k + 1))
    rw [ascii_append, List.mem_append, not_or]
    exact ⟨by decide, hrepr _⟩

theorem zero_not_mem_videoOptions (hw : BootParms) : 0 ∉ videoOptions hw := by
  have hlits : 0 ∉ ascii " video=imacfb:appletv,width:" ∧ 0 ∉ ascii ",height:" ∧
      0 ∉ ascii ",linelength:" ∧ 0 ∉ ascii ",base:" := by decide
  unfold videoOptions
  simp only [List.mem_append, not_or]
  exact ⟨⟨⟨⟨⟨⟨⟨hlits.1, zero_not_mem_decimal _⟩, hlits.2.1⟩, zero_not_mem_decimal _⟩,
    hlits.2.2.1⟩, zero_not_mem_decimal _⟩, hlits.2.2.2⟩, zero_not_mem_decimal _⟩

theorem zero_not_mem_slice {mem : Bytes} {cap o oLen : Nat} (h : strlen mem cap o = .ok oLen) :
    0 ∉ mem.slice o oLen := by
  obtain ⟨e, hscan, hlen⟩ := bind_eq_ok.mp h
  cases hlen
  obtain ⟨hle, -, -, hmin⟩ := scan_eq_ok_iff.mp hscan
  intro hmem
  obtain ⟨i, hi, h0⟩ := List.mem_map.mp hmem
  have hi := List.mem_range.mp hi
  have := hmin (o + i) (Nat.le_add_right o i) (by omega)
  simp [h0] at this

theorem drop_commandLine (hw : BootParms) (mem : Bytes) (o oLen : Nat) :
    (commandLine hw mem o oLen).drop oLen = videoOptions hw :=
  List.drop_left' (Bytes.slice_length _ _ _)

theorem vsprintf_commandLine (hw : BootParms) (mem : Bytes) (o : Nat) {oLen : Nat}
    (h : oLen ≤ 1023) : vsprintf cmdlineFormat (cmdlineArgs hw (mem.slice o oLen)) =
      .ok ⟨commandLine hw mem o oLen, []⟩ :=
  vsprintf_cmdline hw (by rw [Bytes.slice_length]; omega)

/-- Numbers that can be read back are small. -/
theorem CommandLineRight.smallNumbers {hw : BootParms} {mem mem' : Bytes} {bp o oLen : Nat}
    {text : List UInt8} (h : CommandLineRight hw mem bp o oLen text mem') (hoLen : oLen ≤ 1023) :
    SmallNumbers hw := by
  have htext : text = commandLine hw mem o oLen := by
    have heq := h.formatted.symm.trans (vsprintf_commandLine hw mem o hoLen)
    cases heq
    rfl
  have hnumbers := h.numbers
  rw [htext, drop_commandLine] at hnumbers
  exact (readNumbers_videoOptions hw).mp hnumbers

/-- **The command line is right** exactly when the width, the height, the line length and the
address of the framebuffer are below 2^31. -/
theorem commandLineRight_iff (hw : BootParms) {mem : Bytes} {o oLen : Nat}
    (ho : strlen mem (2 ^ 32) o = .ok oLen) (hoLen : oLen ≤ 1023) (bp : Nat) :
    ∃ mem', sprintfCmdline hw mem (bp + cmdlineOffset) o = .ok mem' ∧
      ((∃ text, CommandLineRight hw mem bp o oLen text mem') ↔ SmallNumbers hw) := by
  have hlen := commandLine_length hw mem (o := o) hoLen
  refine ⟨_, sprintfCmdline_eq ho hoLen fun _ _ => rfl, ?_⟩
  constructor
  · rintro ⟨text, h⟩
    exact h.smallNumbers hoLen
  · intro hsmall
    refine ⟨commandLine hw mem o oLen, ?_⟩
    have hstored : (mem.copy (bp + cmdlineOffset)
        (fun i => (commandLine hw mem o oLen).getD i 0)
        ((commandLine hw mem o oLen).length + 1)).Holds (bp + cmdlineOffset)
          (fun i => (commandLine hw mem o oLen).getD i 0)
            ((commandLine hw mem o oLen).length + 1) := Bytes.Holds.of_copy
    have hfields : 0x230 ≤ cmdlineOffset := by decide
    exact {
      formatted := vsprintf_commandLine hw mem o hoLen
      inside := by
        have hroom : cmdlineOffset + 2048 = bootParamMemsize := by decide
        omega
      stored := hstored
      terminated := by
        rw [commandLine, List.mem_append, not_or]
        exact ⟨zero_not_mem_slice ho, zero_not_mem_videoOptions hw⟩
      frame := Bytes.SameOff.copy
      apart := fun r rLen => by
        refine hstored.frame (storeAll_sameOff (n := 0x230) ?_) (.inr (by omega))
        rw [Nat.add_sub_cancel_left]
        exact bootParamsStores_inside hw
      options := List.prefix_append _ _
      numbers := by
        rw [drop_commandLine]
        exact (readNumbers_videoOptions hw).mpr hsmall }

/-- The options `quiet` at address 0. -/
def quietMemory : Bytes := fun i => (ascii "quiet").getD i 0

/-- A framebuffer of 1280 times 720 pixels at `addr`. -/
def screenAt (addr : UInt32) : BootParms := ⟨1280, 720, 5120, addr.toInt32, 0, 0, 0, 0, 0⟩

theorem strlen_quietMemory : strlen quietMemory (2 ^ 32) 0 = .ok 5 :=
  bind_eq_ok.mpr ⟨5, scan_eq_ok_iff.mpr ⟨by decide, by decide, by decide, by decide⟩, rfl⟩

theorem commandLineRight_iff_quiet :
    ∃ text mem', CommandLineRight (screenAt 0x40000000) quietMemory 0x100 0 5 text mem' := by
  obtain ⟨mem', -, hiff⟩ := commandLineRight_iff (screenAt 0x40000000) strlen_quietMemory
    (by decide) 0x100
  obtain ⟨text, h⟩ := hiff.mpr ⟨by decide, by decide, by decide, by decide⟩
  exact ⟨text, mem', h⟩

/-- A framebuffer at 2 GiB is at a negative number. -/
theorem not_commandLineRight_high :
    ∃ mem', sprintfCmdline (screenAt 0x80000000) quietMemory (0x100 + cmdlineOffset) 0 = .ok mem' ∧
      ¬ ∃ text, CommandLineRight (screenAt 0x80000000) quietMemory 0x100 0 5 text mem' := by
  refine ⟨_, sprintfCmdline_eq strlen_quietMemory (by decide) fun _ _ => rfl, ?_⟩
  rintro ⟨text, h⟩
  exact absurd (h.smallNumbers (by decide)).2.2.2 (by decide)

end MbBootTv

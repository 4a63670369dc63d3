import MbBootTv.Boot.Config
import Mathlib.Data.List.TakeWhile

/-!
# What a configuration means

`configOf` reads a configuration line by line, on the text as it is. `parseConfig_lines_iff` says that
`parse_config`, which cuts the text up while it goes on, comes to the same when no line is too long to
be printed: a line acts for at most one keyword, and what is cut off it is behind that keyword.
-/

namespace MbBootTv

/-! ## The meaning of a text -/

/-- What a configuration says. -/
structure Config where
  kernel : List UInt8
  options : List UInt8
  ramdisk : List UInt8
  tryNetBoot : Option Nat
  forceDiskBoot : Option Nat
  deriving DecidableEq

/-- A newline or a NUL ends a line. -/
def isEnd (c : UInt8) : Bool := c = 10 || c = 0

/-- The lines of a text. -/
def lines (text : List UInt8) : List (List UInt8) := text.splitOnP isEnd

/-- What follows the keyword `m` in a line that begins with it. -/
def afterWord (m l : List UInt8) : Option (List UInt8) :=
  if m <+: l then some (l.drop m.length) else none

/-- The first word after the keyword. -/
def fileArg (m l : List UInt8) : Option (List UInt8) :=
  (afterWord m l).map fun r => (r.dropWhile isSpace).takeWhile fun c => !isSpace c

/-- The rest of the line after the keyword, from the first word on. -/
def lineArg (m l : List UInt8) : Option (List UInt8) := (afterWord m l).map (List.dropWhile isSpace)

/-- The kernel that a line names. -/
def kernelArg (l : List UInt8) : Option (List UInt8) := fileArg (ascii "kernel") l

/-- The options that a line sets. -/
def optionsArg (l : List UInt8) : Option (List UInt8) :=
  (lineArg (ascii "append") l).or (lineArg (ascii "options") l)

/-- The ramdisk that a line names. -/
def ramdiskArg (l : List UInt8) : Option (List UInt8) :=
  (fileArg (ascii "initrd") l).or (fileArg (ascii "ramdisk") l)

/-- What the last line says that says anything. -/
def lastArg (arg : List UInt8 → Option (List UInt8)) (ls : List (List UInt8))
    (initial : List UInt8) : List UInt8 :=
  (ls.filterMap arg).getLast?.getD initial

/-- The number of lines that begin with the keyword `m`. -/
def countWord (m : List UInt8) (ls : List (List UInt8)) : Nat := ls.countP fun l => m <+: l

/-- What the lines say, on top of what was said before. -/
def configOf (ls : List (List UInt8)) (c : Config) : Config where
  kernel := lastArg kernelArg ls c.kernel
  options := lastArg optionsArg ls c.options
  ramdisk := lastArg ramdiskArg ls c.ramdisk
  tryNetBoot := c.tryNetBoot.map (· + countWord (ascii "try-net-boot") ls)
  forceDiskBoot := c.forceDiskBoot.map (· + countWord (ascii "force-disk-boot") ls)

/-- What a text says, with the counters that are asked for. -/
def textConfig (text : List UInt8) (tryNetBoot forceDiskBoot : Option Nat) : Config :=
  configOf (lines text) ⟨[], [], [], tryNetBoot, forceDiskBoot⟩

/-- What `parse_config` has filled in. -/
def Parsed.config (p : Parsed) : Config where
  kernel := cString p.kernel optionSize
  options := cString p.options optionSize
  ramdisk := cString p.ramdisk optionSize
  tryNetBoot := p.tryNetBoot
  forceDiskBoot := p.forceDiskBoot

theorem cString_eq_nil_iff {b : Bytes} {n : Nat} (hn : n ≠ 0) : cString b n = [] ↔ b 0 = 0 := by
  obtain ⟨n, rfl⟩ := Nat.exists_eq_succ_of_ne_zero hn
  unfold cString
  rw [Bytes.slice_succ, List.takeWhile_cons]
  by_cases h : b 0 = 0
  · simp [h]
  · simp [h]

theorem fresh_config (t f : Option Nat) : (Parsed.fresh t f).config = ⟨[], [], [], t, f⟩ := by
  have hnil : cString (fun _ => 0) optionSize = [] := (cString_eq_nil_iff (by decide)).mpr rfl
  unfold Parsed.config Parsed.fresh
  simp only [hnil]

/-! ## A line in memory -/

/-- The line `l` stands at `i`, with its NUL, in a block of `cap` bytes. -/
structure LineAt (b : Bytes) (cap i : Nat) (l : List UInt8) : Prop where
  bytes : b.slice i l.length = l
  nul : b (i + l.length) = 0
  inside : i + l.length < cap
  noEnd : ∀ c ∈ l, isEnd c = false

theorem drop_length_takeWhile (q : UInt8 → Bool) (l : List UInt8) :
    l.drop (l.takeWhile q).length = l.dropWhile q := by
  induction l with
  | nil => rfl
  | cons c l ih =>
    rw [List.takeWhile_cons, List.dropWhile_cons]
    cases q c with
    | false => rfl
    | true => simpa using ih

theorem ne_zero_of_not_isEnd {c : UInt8} (h : isEnd c = false) : c ≠ 0 := by
  rintro rfl
  exact absurd h (by decide)

namespace LineAt

variable {b b' : Bytes} {cap i : Nat} {c : UInt8} {l : List UInt8}

theorem head (h : LineAt b cap i (c :: l)) : b i = c := by
  have hb := h.bytes
  rw [List.length_cons, Bytes.slice_succ] at hb
  exact (List.cons.inj hb).1

theorem tail (h : LineAt b cap i (c :: l)) : LineAt b cap (i + 1) l := by
  obtain ⟨hb, hnul, hin, hend⟩ := h
  rw [List.length_cons, Bytes.slice_succ] at hb
  rw [List.length_cons] at hnul hin
  exact ⟨(List.cons.inj hb).2, by rw [Nat.add_right_comm]; exact hnul, by omega,
    fun x hx => hend x (List.mem_cons_of_mem c hx)⟩

theorem drop (h : LineAt b cap i l) {k : Nat} (hk : k ≤ l.length) :
    LineAt b cap (i + k) (l.drop k) := by
  induction k generalizing i l with
  | zero => exact h
  | succ k ih =>
    cases l with
    | nil => exact absurd hk (by simp)
    | cons c l =>
      have := ih h.tail (Nat.le_of_succ_le_succ hk)
      rwa [Nat.add_right_comm] at this

theorem congr (h : LineAt b cap i l) (hb : ∀ k, i ≤ k → k ≤ i + l.length → b' k = b k) :
    LineAt b' cap i l :=
  ⟨by
    rw [← h.bytes, Bytes.slice_length]
    exact Bytes.slice_congr fun k hk => hb _ (by omega) (by omega),
    by rw [hb _ (by omega) le_rfl]; exact h.nul, h.inside, h.noEnd⟩

/-- Cutting a line after `n` bytes. -/
theorem take (h : LineAt b cap i l) {n : Nat} (hn : n ≤ l.length) :
    LineAt (b.fill (i + n) 0 1) cap i (l.take n) := by
  have hlen : (l.take n).length = n := List.length_take_of_le hn
  refine ⟨?_, ?_, by rw [hlen]; have := h.inside; omega,
    fun c hc => h.noEnd c (List.mem_of_mem_take hc)⟩
  · rw [hlen]
    have hsplit := Bytes.slice_append b i n (l.length - n)
    rw [Nat.add_sub_cancel' hn, h.bytes] at hsplit
    rw [← hsplit, List.take_left' (Bytes.slice_length _ _ _)]
    exact Bytes.slice_congr fun k hk => if_neg (by omega)
  · rw [hlen]
    exact Bytes.fill_of_mem le_rfl (by omega)

theorem loadByte (h : LineAt b cap i (c :: l)) : loadByte b cap i = .ok c := by
  have := h.inside
  rw [List.length_cons] at this
  rw [MbBootTv.loadByte, if_pos (by omega), h.head]

/-- A scan ends at the first byte that stops it, or at the end of the line. -/
theorem scan (h : LineAt b cap i l) {stop q : UInt8 → Bool} (hnul : stop 0 = true)
    (hq : ∀ c, isEnd c = false → stop c = !q c) :
    scan stop b i (cap - i) = .ok (i + (l.takeWhile q).length) := by
  induction l generalizing i with
  | nil =>
    have hin : i < cap := h.inside
    obtain ⟨n, hn⟩ := Nat.exists_eq_succ_of_ne_zero (Nat.sub_ne_zero_of_lt hin)
    have h0 : b i = 0 := h.nul
    rw [hn, MbBootTv.scan, h0, if_pos hnul]
    rfl
  | cons c l ih =>
    have hin := h.inside
    rw [List.length_cons] at hin
    obtain ⟨n, hn⟩ := Nat.exists_eq_succ_of_ne_zero (show cap - i ≠ 0 by omega)
    rw [hn, MbBootTv.scan, h.head, hq c (h.noEnd c List.mem_cons_self)]
    cases hc : q c with
    | false => simp [hc]
    | true =>
      have hrest := ih h.tail
      rw [show cap - (i + 1) = n by omega] at hrest
      rw [List.takeWhile_cons, if_pos hc, List.length_cons, Bool.not_true,
        if_neg Bool.false_ne_true, hrest]
      congr 1
      omega

theorem skipSpaces (h : LineAt b cap i l) :
    skipSpaces b cap i = .ok (i + (l.takeWhile isSpace).length) :=
  h.scan (by decide) fun c hc => by simp [ne_zero_of_not_isEnd hc]

theorem skipWord (h : LineAt b cap i l) :
    skipWord b cap i = .ok (i + (l.takeWhile fun c => !isSpace c).length) :=
  h.scan (by decide) fun c hc => by simp [ne_zero_of_not_isEnd hc]

theorem strlen (h : LineAt b cap i l) : strlen b cap i = .ok l.length := by
  have hend : MbBootTv.scan (· = 0) b i (cap - i) = .ok (i + l.length) := by
    have hall : l.takeWhile (fun c => !decide (c = 0)) = l :=
      List.takeWhile_eq_self_iff.mpr fun c hc => by
        simpa using ne_zero_of_not_isEnd (h.noEnd c hc)
    rw [h.scan (q := fun c => !decide (c = 0)) (by decide) fun c _ => by simp, hall]
  rw [MbBootTv.strlen, hend, ok_bind, Nat.add_sub_cancel_left]
  rfl

theorem matchWord (h : LineAt b cap i l) {m : List UInt8} (hm : ∀ c ∈ m, c ≠ 0) :
    matchWord b cap i m = .ok (if m <+: l then some (i + m.length) else none) := by
  induction m generalizing i l with
  | nil =>
    rw [if_pos List.nil_prefix]
    rfl
  | cons x m ih =>
    rw [MbBootTv.matchWord]
    cases l with
    | nil =>
      have h0 : b i = 0 := h.nul
      have hin : i < cap := h.inside
      rw [MbBootTv.loadByte, if_pos hin, h0, ok_bind,
        if_pos (Ne.symm (hm x List.mem_cons_self)), if_neg (by simp)]
      rfl
    | cons c l =>
      rw [h.loadByte, ok_bind]
      by_cases hc : c = x
      · subst hc
        rw [if_neg (not_not.mpr rfl), ih h.tail fun y hy => hm y (List.mem_cons_of_mem c hy)]
        simp only [List.prefix_cons_inj, List.length_cons]
        congr 2
        congr 1
        omega
      · rw [if_pos hc, if_neg fun hpre => hc (List.cons_prefix_cons.mp hpre).1.symm]
        rfl

/-- A string that fits arrives as it is. -/
theorem strcpy_short (h : LineAt b cap i l) (hlen : l.length < optionSize) (dst : Bytes) :
    ∃ dst', strcpy dst optionSize b cap i = .ok dst' ∧ cString dst' optionSize = l := by
  unfold MbBootTv.strcpy
  rw [h.strlen, ok_bind, if_pos (show l.length + 1 ≤ optionSize from hlen)]
  refine ⟨_, rfl, ?_⟩
  unfold cString
  -- The array is the line, its NUL, and what was there before.
  obtain ⟨n, hn⟩ := Nat.exists_eq_add_of_le (show l.length + 1 ≤ optionSize from hlen)
  have hline : (dst.copy 0 (fun k => b (i + k)) (l.length + 1)).slice 0 l.length = l := by
    conv_rhs => rw [← h.bytes]
    exact Bytes.slice_congr fun k hk => by rw [Nat.zero_add, Bytes.copy_zero_of_lt (by omega)]
  have hend : (dst.copy 0 (fun k => b (i + k)) (l.length + 1)) l.length = 0 := by
    rw [Bytes.copy_zero_of_lt (Nat.lt_succ_self _)]
    exact h.nul
  rw [hn, Nat.add_assoc, ← Bytes.slice_append, hline, Nat.zero_add, Nat.add_comm 1 n,
    Bytes.slice_succ, hend, List.takeWhile_append_of_pos fun c hc => by
      simpa using ne_zero_of_not_isEnd (h.noEnd c hc)]
  simp

/-- One that does not runs over the array. -/
theorem strcpy_long (h : LineAt b cap i l) (hlen : optionSize ≤ l.length) (dst : Bytes) :
    strcpy dst optionSize b cap i = .error .overrun := by
  unfold MbBootTv.strcpy
  rw [h.strlen, ok_bind, if_neg (show ¬ l.length + 1 ≤ optionSize by omega)]

end LineAt

/-! ## One keyword -/

/-- What is left of the line `l` when the keywords `ms` have had their turn. -/
def CutBy (ms : List (List UInt8)) (l l' : List UInt8) : Prop :=
  l' = l ∨ l' <+: l ∧ ∃ m ∈ ms, m <+: l

/-- Neither of two keywords begins with the other. -/
def Apart (m m' : List UInt8) : Prop := ¬ m <+: m' ∧ ¬ m' <+: m

instance (m m' : List UInt8) : Decidable (Apart m m') := inferInstanceAs (Decidable (_ ∧ _))

theorem CutBy.trans {ms : List (List UInt8)} {m l l' l'' : List UInt8} (h : CutBy ms l l')
    (hm : m <+: l') (hl : l'' <+: l') : CutBy (m :: ms) l l'' := by
  rcases h with rfl | ⟨hl', x, hx, hxl⟩
  · exact Or.inr ⟨hl, m, List.mem_cons_self, hm⟩
  · exact Or.inr ⟨hl.trans hl', x, List.mem_cons_of_mem m hx, hxl⟩

/-- A keyword that is apart from those that had their turn acts as on the whole line. -/
theorem CutBy.afterWord {ms : List (List UInt8)} {m l l' : List UInt8} (h : CutBy ms l l')
    (ha : ∀ x ∈ ms, Apart x m) : afterWord m l' = afterWord m l := by
  rcases h with rfl | ⟨hl', x, hx, hxl⟩
  · rfl
  · have hnot : ¬ m <+: l := by
      intro hm
      rcases List.prefix_or_prefix_of_prefix hxl hm with h | h
      · exact (ha x hx).1 h
      · exact (ha x hx).2 h
    rw [MbBootTv.afterWord, MbBootTv.afterWord, if_neg hnot, if_neg fun h => hnot (h.trans hl')]

/-- Of the line `l` at `i` in `b₀`, the keywords `ms` have left something, and nothing else has
changed. -/
def Left (b₀ : Bytes) (cap i : Nat) (l : List UInt8) (ms : List (List UInt8)) (b : Bytes) : Prop :=
  ∃ l', LineAt b cap i l' ∧ CutBy ms l l' ∧ ∀ k, k < i ∨ i + l.length < k → b k = b₀ k

section Keyword

variable {b₀ b : Bytes} {cap i : Nat} {l m : List UInt8} {ms : List (List UInt8)} {s : Bytes}

theorem Left.afterWord (h : Left b₀ cap i l ms b) (hm : 0 ∉ m) (ha : ∀ x ∈ ms, Apart x m) :
    ∃ l', LineAt b cap i l' ∧ CutBy ms l l' ∧
      (∀ k, k < i ∨ i + l.length < k → b k = b₀ k) ∧ afterWord m l' = afterWord m l ∧
      matchWord b cap i m = .ok (if m <+: l' then some (i + m.length) else none) := by
  obtain ⟨l', hl, hcut, hrest⟩ := h
  exact ⟨l', hl, hcut, hrest, hcut.afterWord ha, hl.matchWord fun c hc h0 => hm (h0 ▸ hc)⟩

theorem CutBy.length_le {l' : List UInt8} (hcut : CutBy ms l l') : l'.length ≤ l.length := by
  rcases hcut with rfl | ⟨h, -⟩
  · exact le_rfl
  · exact h.length_le

/-- **`do_line`** sets the value that the line gives. -/
theorem doLine_left (h : Left b₀ cap i l ms b) (hlen : l.length < optionSize) (hm : 0 ∉ m)
    (ha : ∀ x ∈ ms, Apart x m) :
    ∃ s', doLine b cap i m s = .ok s' ∧
      cString s' optionSize = (lineArg m l).getD (cString s optionSize) := by
  obtain ⟨l', hl, hcut, -, hword, hmatch⟩ := h.afterWord hm ha
  unfold doLine lineArg
  rw [← hword, hmatch, MbBootTv.afterWord]
  by_cases hpre : m <+: l'
  · rw [if_pos hpre, if_pos hpre]
    have hrest := hl.drop hpre.length_le
    have hval := hrest.drop (List.takeWhile_prefix isSpace).length_le
    rw [drop_length_takeWhile] at hval
    have hshort : ((l'.drop m.length).dropWhile isSpace).length < optionSize := by
      have hdrop := (List.dropWhile_sublist (l := l'.drop m.length) isSpace).length_le
      have := hcut.length_le
      rw [List.length_drop] at hdrop
      omega
    simp only [ok_bind, Option.map_some, hrest.skipSpaces]
    exact hval.strcpy_short hshort s
  · rw [if_neg hpre, if_neg hpre]
    simp only [ok_bind, Option.map_none, Option.getD_none]
    exact ⟨s, rfl, rfl⟩

/-- **`do_file`** sets the word that the line gives, and cuts the line behind it. -/
theorem doFile_left (h : Left b₀ cap i l ms b) (hlen : l.length < optionSize) (hm : 0 ∉ m)
    (ha : ∀ x ∈ ms, Apart x m) :
    ∃ b' s', doFile b cap i m s = .ok (b', s') ∧
      cString s' optionSize = (fileArg m l).getD (cString s optionSize) ∧
        Left b₀ cap i l (m :: ms) b' := by
  obtain ⟨l', hl, hcut, hout, hword, hmatch⟩ := h.afterWord hm ha
  unfold doFile fileArg
  rw [← hword, hmatch, MbBootTv.afterWord]
  by_cases hpre : m <+: l'
  · rw [if_pos hpre, if_pos hpre]
    -- The word starts behind the keyword and the spaces.
    have hrest := hl.drop hpre.length_le
    have hstart := hrest.drop (List.takeWhile_prefix isSpace).length_le
    rw [drop_length_takeWhile] at hstart
    have hw := List.takeWhile_prefix (l := (l'.drop m.length).dropWhile isSpace) fun c => !isSpace c
    have htake := hstart.take hw.length_le
    rw [← List.prefix_iff_eq_take.mp hw] at htake
    -- It ends behind `n` bytes of the line.
    obtain ⟨n, hn, hle⟩ : ∃ n, i + m.length + ((l'.drop m.length).takeWhile isSpace).length +
        (((l'.drop m.length).dropWhile isSpace).takeWhile fun c => !isSpace c).length = i + n ∧
          n ≤ l'.length := by
      have hlen := hpre.length_le
      have := hw.length_le
      have hsplit : _ = (l'.drop m.length).length := congrArg List.length
        (List.takeWhile_append_dropWhile (p := isSpace) (l := l'.drop m.length))
      rw [List.length_append, List.length_drop] at hsplit
      exact ⟨_, by rw [Nat.add_assoc, Nat.add_assoc], by omega⟩
    rw [hn] at htake
    have hl' := hcut.length_le
    simp only [ok_bind, Option.map_some, hrest.skipSpaces, hstart.skipWord, hn]
    obtain ⟨s', hs', hc⟩ := htake.strcpy_short (by omega) s
    rw [hs']
    refine ⟨_, s', rfl, hc, l'.take n, hl.take hle,
      hcut.trans hpre (List.take_prefix n l'), fun k hk => ?_⟩
    rw [← hout k hk]
    exact if_neg (by omega)
  · rw [if_neg hpre, if_neg hpre]
    simp only [ok_bind, Option.map_none, Option.getD_none]
    refine ⟨b, s, rfl, rfl, l', hl, ?_, hout⟩
    rcases hcut with rfl | ⟨hl', x, hx, hxl⟩
    · exact Or.inl rfl
    · exact Or.inr ⟨hl', x, List.mem_cons_of_mem m hx, hxl⟩

/-- Counting a keyword. -/
theorem countLine_left (h : Left b₀ cap i l ms b) (hm : 0 ∉ m)
    (ha : ∀ x ∈ ms, Apart x m) (counter : Option Nat) :
    countLine b cap i m counter = .ok (counter.map (· + countWord m [l])) := by
  obtain ⟨l', hl, -, -, hword, hmatch⟩ := h.afterWord hm ha
  rw [MbBootTv.afterWord, MbBootTv.afterWord] at hword
  unfold countLine countWord
  cases counter with
  | none => rfl
  | some n =>
    simp only [hmatch, ok_bind, Option.map_some, List.countP_singleton]
    by_cases hpre : m <+: l'
    · have hpre' : m <+: l := by
        by_contra hno
        rw [if_pos hpre, if_neg hno] at hword
        cases hword
      rw [if_pos hpre, if_pos (decide_eq_true hpre')]
      rfl
    · have hpre' : ¬ m <+: l := by
        intro hyes
        rw [if_neg hpre, if_pos hyes] at hword
        cases hword
      rw [if_neg hpre, if_neg (by simpa using hpre')]
      rfl

/-! ## A line -/

theorem lastArg_cons (arg : List UInt8 → Option (List UInt8)) (ls : List (List UInt8))
    (initial : List UInt8) :
    lastArg arg (l :: ls) initial = lastArg arg ls ((arg l).getD initial) := by
  unfold lastArg
  rw [List.filterMap_cons]
  cases arg l with
  | none => rfl
  | some w =>
    rw [List.getLast?_cons]
    rfl

theorem configOf_nil (c : Config) : configOf [] c = c := by
  obtain ⟨kernel, options, ramdisk, tryNetBoot, forceDiskBoot⟩ := c
  cases tryNetBoot <;> cases forceDiskBoot <;> rfl

theorem configOf_cons (ls : List (List UInt8)) (c : Config) :
    configOf (l :: ls) c = configOf ls ⟨(kernelArg l).getD c.kernel, (optionsArg l).getD c.options,
      (ramdiskArg l).getD c.ramdisk, c.tryNetBoot.map (· + countWord (ascii "try-net-boot") [l]),
      c.forceDiskBoot.map (· + countWord (ascii "force-disk-boot") [l])⟩ := by
  have hcount : ∀ (m : List UInt8) (n : Option Nat),
      n.map (· + countWord m (l :: ls)) =
        (n.map (· + countWord m [l])).map (· + countWord m ls) := by
    intro m n
    have hadd : countWord m (l :: ls) = countWord m [l] + countWord m ls := by
      unfold countWord
      rw [← List.countP_append, List.singleton_append]
    rw [Option.map_map, hadd]
    congr 1
    funext k
    exact (Nat.add_assoc k _ _).symm
  unfold configOf
  rw [lastArg_cons, lastArg_cons, lastArg_cons, hcount, hcount]

/-- A line of up to 1014 bytes can be printed. -/
theorem lineCall_run : (lineCall l).run =
    if l.length ≤ 1014 then .ok () else .error .overrun := by
  have hlabel : ascii "config: %s\n" = ascii "config: " ++ ascii "%s\n" := by decide
  have hlen : (ascii "config: ").length = 8 := by decide
  unfold lineCall
  rw [hlabel, PrintkCall.run_s (by decide), hlen, szBufferSize]
  exact if_congr (by omega) rfl rfl

/-- **`parse_line`** does what the line says, and stays inside the line, when it can print it. -/
theorem parseLine_line (h : LineAt b cap i l) (p : Parsed) :
    Ends (fun f => f = .overrun ∧ 1014 < l.length) (parseLine b cap i p) fun r =>
      l.length ≤ 1014 ∧ r.2.config = configOf [l] p.config ∧
        ∀ k, k < i ∨ i + l.length < k → r.1 k = b k := by
  unfold parseLine
  rw [h.strlen, ok_bind, h.bytes, lineCall_run]
  by_cases hlen : l.length ≤ 1014
  · have hshort : l.length < optionSize := hlen.trans_lt (by decide)
    have h₀ : Left b cap i l [] b := ⟨l, h, Or.inl rfl, fun _ _ => rfl⟩
    rw [if_pos hlen, ok_bind]
    -- The keywords have their turns one after another.
    obtain ⟨b₁, kernel, hdo, hkernel, h₁⟩ :=
      doFile_left (s := p.kernel) h₀ hshort (m := ascii "kernel") (by decide) (by decide)
    rw [hdo, ok_bind]
    dsimp only
    obtain ⟨options₁, hdo, hoptions₁⟩ :=
      doLine_left (s := p.options) h₁ hshort (m := ascii "options") (by decide) (by decide)
    rw [hdo, ok_bind]
    obtain ⟨options, hdo, hoptions⟩ :=
      doLine_left (s := options₁) h₁ hshort (m := ascii "append") (by decide) (by decide)
    rw [hdo, ok_bind]
    obtain ⟨b₂, ramdisk₁, hdo, hramdisk₁, h₂⟩ :=
      doFile_left (s := p.ramdisk) h₁ hshort (m := ascii "ramdisk") (by decide) (by decide)
    rw [hdo, ok_bind]
    dsimp only
    obtain ⟨b₃, ramdisk, hdo, hramdisk, h₃⟩ :=
      doFile_left (s := ramdisk₁) h₂ hshort (m := ascii "initrd") (by decide) (by decide)
    rw [hdo, ok_bind, countLine_left h₃ (by decide) (by decide),
      countLine_left h₃ (by decide) (by decide)]
    obtain ⟨-, -, -, hout⟩ := h₃
    refine ⟨hlen, ?_, hout⟩
    rw [configOf_cons]
    unfold Parsed.config kernelArg optionsArg ramdiskArg
    rw [Option.getD_or, Option.getD_or]
    rw [hkernel, hoptions, hoptions₁, hramdisk, hramdisk₁, configOf_nil]
  · rw [if_neg hlen]
    exact ⟨rfl, Nat.not_le.mp hlen⟩

end Keyword

/-! ## The text -/

/-- The loop is at `i` in a line that starts at `j`: `cur` of the line is behind it, and `rest` of the
text, with its NUL, is before it. -/
structure Scanning (b : Bytes) (cap i j : Nat) (cur rest : List UInt8) : Prop where
  start : j + cur.length = i
  behind : b.slice j cur.length = cur
  before : b.slice i rest.length = rest
  nul : b (i + rest.length) = 0
  inside : i + rest.length < cap
  noEnd : ∀ c ∈ cur, isEnd c = false

namespace Scanning

variable {b b' : Bytes} {cap i j : Nat} {c : UInt8} {cur rest : List UInt8}

/-- The line, once it is cut off. -/
theorem line (h : Scanning b cap i j cur rest) : LineAt (b.fill i 0 1) cap j cur := by
  obtain ⟨rfl, hcur, -, -, hin, hend⟩ := h
  refine ⟨?_, Bytes.fill_of_mem le_rfl (Nat.lt_succ_self _), by omega, hend⟩
  conv_rhs => rw [← hcur]
  exact Bytes.slice_congr fun k hk => if_neg (by omega)

theorem load_nul (h : Scanning b cap i j cur []) : loadByte b cap i = .ok 0 := by
  have h0 : b i = 0 := h.nul
  have hi : i < cap := h.inside
  rw [loadByte, if_pos hi, h0]

theorem load_cons (h : Scanning b cap i j cur (c :: rest)) : loadByte b cap i = .ok c := by
  have hrest := h.before
  rw [List.length_cons, Bytes.slice_succ] at hrest
  have hin := h.inside
  rw [List.length_cons] at hin
  rw [loadByte, if_pos (by omega), (List.cons.inj hrest).1]

/-- Behind the end of the line. -/
theorem next (h : Scanning b cap i j cur (c :: rest))
    (hb : ∀ k, k < j ∨ j + cur.length < k → b' k = (b.fill i 0 1) k) :
    Scanning b' cap (i + 1) (i + 1) [] rest := by
  obtain ⟨hj, -, hrest, hnul, hin, -⟩ := h
  rw [List.length_cons] at hrest hnul hin
  rw [Bytes.slice_succ] at hrest
  have hsame : ∀ k, i < k → b' k = b k := fun k hk => by
    rw [hb k (by omega)]
    exact if_neg (by omega)
  refine ⟨rfl, rfl, ?_, ?_, by omega, fun _ hc => nomatch hc⟩
  · conv_rhs => rw [← (List.cons.inj hrest).2]
    exact Bytes.slice_congr fun k _ => hsame _ (by omega)
  · rw [hsame _ (by omega), ← hnul]
    congr 1
    omega

/-- Further on in the line. -/
theorem more (h : Scanning b cap i j cur (c :: rest)) (hc : isEnd c = false) :
    Scanning b cap (i + 1) j (cur ++ [c]) rest := by
  obtain ⟨hj, hcur, hrest, hnul, hin, hend⟩ := h
  rw [List.length_cons] at hrest hnul hin
  rw [Bytes.slice_succ] at hrest
  obtain ⟨hhead, htail⟩ := List.cons.inj hrest
  refine ⟨by rw [List.length_append, List.length_singleton]; omega, ?_, htail, ?_, by omega, ?_⟩
  · rw [List.length_append, List.length_singleton, ← Bytes.slice_append, hcur, hj,
      Bytes.slice_succ, hhead, Bytes.slice_zero]
  · rw [← hnul]
    congr 1
    omega
  · intro x hx
    rcases List.mem_append.mp hx with hx | hx
    · exact hend x hx
    · rw [List.mem_singleton.mp hx]
      exact hc

theorem lines_nil (h : Scanning b cap i j cur []) : lines (cur ++ []) = [cur] := by
  rw [List.append_nil]
  exact List.splitOnP_eq_singleton h.noEnd

theorem lines_cons (h : Scanning b cap i j cur (c :: rest)) (hc : isEnd c = true) :
    lines (cur ++ c :: rest) = cur :: lines rest :=
  List.splitOnP_append_cons_of_forall_mem h.noEnd c hc rest

/-- A text at the start of its block. -/
theorem of_text {text : List UInt8} (htext : b.slice 0 text.length = text)
    (hcap : text.length < cap) : Scanning (b.fill text.length 0 1) cap 0 0 [] text := by
  refine ⟨rfl, rfl, ?_, Bytes.fill_of_mem (by omega) (by omega), by omega, fun _ hc => nomatch hc⟩
  conv_rhs => rw [← htext]
  exact Bytes.slice_congr fun k hk => if_neg (by omega)

end Scanning

/-- **The loop** does what the lines say, when they can be printed. -/
theorem parseLoop_lines {b : Bytes} {cap i j : Nat} {cur rest : List UInt8}
    (h : Scanning b cap i j cur rest) (p : Parsed) :
    Ends (fun f => f = .overrun ∧ ∃ l ∈ lines (cur ++ rest), 1014 < l.length)
      (parseLoop cap (rest.length + 1) i j b p) fun r =>
        (∀ l ∈ lines (cur ++ rest), l.length ≤ 1014) ∧
          r.2.config = configOf (lines (cur ++ rest)) p.config := by
  -- By induction on the text before it; a line that ends is cut off and acts.
  induction rest generalizing b i j cur p with
  | nil =>
    rw [h.lines_nil, List.length_nil, parseLoop, h.load_nul, ok_bind, if_pos (by decide)]
    refine ((parseLine_line h.line p).weaken fun f hf => ?_).bind fun r _ hr => ?_
    · exact ⟨hf.1, cur, List.mem_singleton_self cur, hf.2⟩
    · obtain ⟨hlen, hconfig, -⟩ := hr
      exact ⟨List.forall_mem_singleton.mpr hlen, hconfig⟩
  | cons c rest ih =>
    rw [List.length_cons, parseLoop, h.load_cons, ok_bind]
    by_cases hc : isEnd c = true
    · have htest : (c = 10 || c = 0) = true := hc
      rw [if_pos htest, h.lines_cons hc]
      refine ((parseLine_line h.line p).weaken fun f hf => ?_).bind fun r _ hr => ?_
      · exact ⟨hf.1, cur, List.mem_cons_self, hf.2⟩
      · obtain ⟨b', p'⟩ := r
        dsimp only at hr ⊢
        obtain ⟨hlen, hconfig, hout⟩ := hr
        have hnext := ih (h.next hout) p'
        rw [List.nil_append] at hnext
        refine (hnext.weaken fun f hf => ?_).mono fun r _ hr => ?_
        · obtain ⟨l, hl, hlong⟩ := hf.2
          exact ⟨hf.1, l, List.mem_cons_of_mem cur hl, hlong⟩
        · refine ⟨List.forall_mem_cons.mpr ⟨hlen, hr.1⟩, ?_⟩
          rw [hr.2, hconfig, configOf_cons, configOf_cons, configOf_nil]
    · have hnext := ih (h.more (Bool.not_eq_true _ ▸ hc)) p
      rw [List.append_assoc, List.singleton_append] at hnext
      have htest : ¬ (c = 10 || c = 0) = true := hc
      rw [if_neg htest]
      exact hnext

/-! ## The lengths of what a line sets -/

theorem length_afterWord {m l r : List UInt8} (h : afterWord m l = some r) :
    r.length + m.length = l.length := by
  unfold afterWord at h
  by_cases hpre : m <+: l
  · rw [if_pos hpre] at h
    cases h
    rw [List.length_drop]
    exact Nat.sub_add_cancel hpre.length_le
  · rw [if_neg hpre] at h
    cases h

theorem length_fileArg_le {m l w : List UInt8} (h : fileArg m l = some w) :
    w.length + m.length ≤ l.length := by
  obtain ⟨r, hr, rfl⟩ := Option.map_eq_some_iff.mp h
  have hsub := ((List.takeWhile_sublist fun c => !isSpace c).trans
    (List.dropWhile_sublist (l := r) isSpace)).length_le
  exact (Nat.add_le_add_right hsub _).trans (length_afterWord hr).le

theorem length_lineArg_le {m l w : List UInt8} (h : lineArg m l = some w) :
    w.length + m.length ≤ l.length := by
  obtain ⟨r, hr, rfl⟩ := Option.map_eq_some_iff.mp h
  exact (Nat.add_le_add_right (List.dropWhile_sublist isSpace).length_le _).trans
    (length_afterWord hr).le

/-- What a printable line sets is shorter still. -/
theorem length_values_le {l w : List UInt8} (h : l.length ≤ 1014) :
    (kernelArg l = some w → w.length ≤ 1013) ∧ (optionsArg l = some w → w.length ≤ 1013) ∧
      (ramdiskArg l = some w → w.length ≤ 1013) := by
  have hfile : ∀ m, 0 < m.length → fileArg m l = some w → w.length ≤ 1013 := fun m hm hw => by
    have := length_fileArg_le hw
    omega
  have hline : ∀ m, 0 < m.length → lineArg m l = some w → w.length ≤ 1013 := fun m hm hw => by
    have := length_lineArg_le hw
    omega
  refine ⟨hfile _ (by decide), fun hw => ?_, fun hw => ?_⟩
  · rcases Option.or_eq_some_iff.mp hw with hw | ⟨-, hw⟩
    · exact hline _ (by decide) hw
    · exact hline _ (by decide) hw
  · rcases Option.or_eq_some_iff.mp hw with hw | ⟨-, hw⟩
    · exact hfile _ (by decide) hw
    · exact hfile _ (by decide) hw

theorem length_lastArg_le {arg : List UInt8 → Option (List UInt8)} {ls : List (List UInt8)}
    (h : ∀ l ∈ ls, ∀ w, arg l = some w → w.length ≤ 1013) : (lastArg arg ls []).length ≤ 1013 := by
  unfold lastArg
  cases hlast : (ls.filterMap arg).getLast? with
  | none => exact Nat.zero_le _
  | some w =>
    obtain ⟨l, hl, hw⟩ := List.mem_filterMap.mp (List.mem_of_getLast? hlast)
    exact h l hl w hw

/-! ## The values that are printed -/

/-- The calls behind the loop can only run over the buffer. -/
theorem resultPrint_run {p : Parsed} {c : PrintkCall} (hc : c ∈ resultPrints p) :
    c.run = .ok () ∨ c.run = .error .overrun := by
  unfold resultPrints at hc
  rw [show ascii "kernel: %s\n" = ascii "kernel: " ++ ascii "%s\n" by decide,
    show ascii "options: %s\n" = ascii "options: " ++ ascii "%s\n" by decide,
    show ascii "ramdisk: %s\n" = ascii "ramdisk: " ++ ascii "%s\n" by decide,
    show ascii "trynetboot: %d\n" = ascii "trynetboot: " ++ ascii "%d\n" by decide,
    show ascii "forcediskboot: %d\n" = ascii "forcediskboot: " ++ ascii "%d\n" by decide] at hc
  generalize cString p.kernel optionSize = kernel, cString p.options optionSize = options,
    cString p.ramdisk optionSize = ramdisk at hc
  rcases List.mem_append.mp hc with hc | hforce
  · rcases List.mem_append.mp hc with hstring | htry
    · simp only [List.mem_cons, List.not_mem_nil, or_false] at hstring
      rcases hstring with rfl | rfl | rfl
      · exact PrintkCall.run_s_cases (by decide)
      · exact PrintkCall.run_s_cases (by decide)
      · exact PrintkCall.run_s_cases (by decide)
    · obtain ⟨n, -, rfl⟩ := List.mem_map.mp htry
      exact Or.inl (PrintkCall.run_d (by decide) (by decide) _)
  · obtain ⟨n, -, rfl⟩ := List.mem_map.mp hforce
    exact Or.inl (PrintkCall.run_d (by decide) (by decide) _)

/-- **The results fit**, when the strings are at most 1013 bytes long. -/
theorem resultPrints_fit {p : Parsed} (hkernel : p.config.kernel.length ≤ 1013)
    (hoptions : p.config.options.length ≤ 1013) (hramdisk : p.config.ramdisk.length ≤ 1013) :
    ∀ c ∈ resultPrints p, c.Fits := by
  have hvalue : ∀ {label s : List UInt8}, '%'.toUInt8 ∉ label → label.length ≤ 9 →
      s.length ≤ 1013 → PrintkCall.Fits ⟨label ++ ascii "%s\n", [.str (some s)]⟩ := by
    intro label s hlabel hlen hs
    rw [PrintkCall.fits_iff, PrintkCall.run_s hlabel, szBufferSize, if_pos (by omega)]
  dsimp only [Parsed.config] at hkernel hoptions hramdisk
  unfold resultPrints
  generalize cString p.kernel optionSize = kernel, cString p.options optionSize = options,
    cString p.ramdisk optionSize = ramdisk at hkernel hoptions hramdisk ⊢
  rw [show ascii "kernel: %s\n" = ascii "kernel: " ++ ascii "%s\n" by decide,
    show ascii "options: %s\n" = ascii "options: " ++ ascii "%s\n" by decide,
    show ascii "ramdisk: %s\n" = ascii "ramdisk: " ++ ascii "%s\n" by decide,
    show ascii "trynetboot: %d\n" = ascii "trynetboot: " ++ ascii "%d\n" by decide,
    show ascii "forcediskboot: %d\n" = ascii "forcediskboot: " ++ ascii "%d\n" by decide]
  intro c hc
  rcases List.mem_append.mp hc with hc | hforce
  · rcases List.mem_append.mp hc with hstring | htry
    · simp only [List.mem_cons, List.not_mem_nil, or_false] at hstring
      rcases hstring with rfl | rfl | rfl
      · exact hvalue (by decide) (by decide) hkernel
      · exact hvalue (by decide) (by decide) hoptions
      · exact hvalue (by decide) (by decide) hramdisk
    · obtain ⟨n, -, rfl⟩ := List.mem_map.mp htry
      exact PrintkCall.fits_iff.mpr (PrintkCall.run_d (by decide) (by decide) _)
  · obtain ⟨n, -, rfl⟩ := List.mem_map.mp hforce
    exact PrintkCall.fits_iff.mpr (PrintkCall.run_d (by decide) (by decide) _)

/-! ## The whole run -/

/-- Behind the loop, the values are printed. -/
theorem parseConfig_after {b : Bytes} {cap : Nat} {text : List UInt8} (p : Parsed)
    (htext : b.slice 0 text.length = text) (hcap : text.length < cap) :
    Ends (fun f => f = .overrun ∧ ((∃ l ∈ lines text, 1014 < l.length) ∨
        (∀ l ∈ lines text, l.length ≤ 1014) ∧ ∃ p' : Parsed,
          p'.config = configOf (lines text) p.config ∧ ∃ c ∈ resultPrints p', ¬ c.Fits))
      (parseConfig b cap text.length p) fun r =>
        (∀ l ∈ lines text, l.length ≤ 1014) ∧ r.2.config = configOf (lines text) p.config := by
  unfold parseConfig
  rw [if_pos hcap]
  refine ((parseLoop_lines (.of_text htext hcap) p).weaken fun f hf => ?_).bind fun r _ hr => ?_
  · exact ⟨hf.1, Or.inl hf.2⟩
  · obtain ⟨b', p'⟩ := r
    rw [List.nil_append] at hr
    dsimp only at hr ⊢
    have hcalls : ∀ c ∈ resultPrints p', c.run = .ok () ∨ c.run = .error .overrun :=
      fun c hc => resultPrint_run hc
    generalize hcs : resultPrints p' = cs at hcalls ⊢
    refine ((PrintkCall.forM_ends hcalls).weaken fun f hf => ?_).bind fun _ _ _ => hr
    exact ⟨hf.1, Or.inr ⟨hr.1, p', hr.2, hcs ▸ hf.2⟩⟩

/-- The only way in which `parse_config` can fail is to run over an array. -/
theorem parseConfig_overrun {b : Bytes} {cap : Nat} {text : List UInt8} (p : Parsed)
    (htext : b.slice 0 text.length = text) (hcap : text.length < cap) :
    Ends (· = .overrun) (parseConfig b cap text.length p) fun _ => True :=
  ((parseConfig_after p htext hcap).weaken fun _ hf => hf.1).mono fun _ _ _ => trivial

/-- What lines of up to 1014 bytes say can be printed, on top of empty strings. -/
theorem resultPrints_of_lines {text : List UInt8} {t f : Option Nat} {p : Parsed}
    (hp : p.config = textConfig text t f) (hshort : ∀ l ∈ lines text, l.length ≤ 1014) :
    ∀ c ∈ resultPrints p, c.Fits := by
  refine resultPrints_fit ?_ ?_ ?_ <;> rw [hp]
  · exact length_lastArg_le fun l hl w hw => (length_values_le (hshort l hl)).1 hw
  · exact length_lastArg_le fun l hl w hw => (length_values_le (hshort l hl)).2.1 hw
  · exact length_lastArg_le fun l hl w hw => (length_values_le (hshort l hl)).2.2 hw

/-- **What `parse_config` computes** for its two callers: what the text says, if every line can be
printed. -/
theorem parseConfig_ends {b : Bytes} (cap : Nat) (text : List UInt8) (t f : Option Nat)
    (htext : b.slice 0 text.length = text) (hcap : text.length < cap) :
    Ends (fun e => e = .overrun ∧ ∃ l ∈ lines text, 1014 < l.length)
      (parseConfig b cap text.length (.fresh t f)) fun r =>
        (∀ l ∈ lines text, l.length ≤ 1014) ∧ r.2.config = textConfig text t f := by
  have h := parseConfig_after (.fresh t f) htext hcap
  rw [fresh_config] at h
  refine h.weaken fun e he => ⟨he.1, ?_⟩
  rcases he.2 with hlong | ⟨hshort, p', hp, c, hc, hno⟩
  · exact hlong
  · exact absurd (resultPrints_of_lines hp hshort c hc) hno

/-- A text is parsed when every line can be printed, and overruns the buffer otherwise. -/
theorem parseConfig_cases {b : Bytes} {cap : Nat} {text : List UInt8}
    (htext : b.slice 0 text.length = text) (hcap : text.length < cap) (t f : Option Nat) :
    ((∀ l ∈ lines text, l.length ≤ 1014) ∧ ∃ b' p,
        parseConfig b cap text.length (.fresh t f) = .ok (b', p) ∧
          p.config = textConfig text t f) ∨
      (¬ ∀ l ∈ lines text, l.length ≤ 1014) ∧
        parseConfig b cap text.length (.fresh t f) = .error .overrun := by
  have hends := parseConfig_ends cap text t f htext hcap
  rcases hrun : parseConfig b cap text.length (.fresh t f) with e | ⟨b', p⟩
  · obtain ⟨rfl, l, hl, hlong⟩ := hends.error_of_eq hrun
    exact Or.inr ⟨fun hall => absurd (hall l hl) (Nat.not_le.mpr hlong), rfl⟩
  · obtain ⟨hall, hconfig⟩ := hends.ok_of_eq hrun
    exact Or.inl ⟨hall, b', p, rfl, hconfig⟩

/-- A text of lines that can be printed is parsed. -/
theorem parseConfig_of_short {b : Bytes} {cap : Nat} {text : List UInt8}
    (htext : b.slice 0 text.length = text) (hcap : text.length < cap) (t f : Option Nat)
    (hshort : ∀ l ∈ lines text, l.length ≤ 1014) :
    ∃ b' p, parseConfig b cap text.length (.fresh t f) = .ok (b', p) ∧
      p.config = textConfig text t f := by
  rcases parseConfig_cases htext hcap t f with ⟨-, hrun⟩ | ⟨hnot, -⟩
  · exact hrun
  · exact absurd hshort hnot

/-- **`parse_config` reads the configuration line by line** exactly when no line is longer than 1014
bytes. -/
theorem parseConfig_lines_iff {b : Bytes} (cap : Nat) (text : List UInt8)
    (tryNetBoot forceDiskBoot : Option Nat) (htext : b.slice 0 text.length = text)
    (hcap : text.length < cap) :
    (∃ b' p', parseConfig b cap text.length (.fresh tryNetBoot forceDiskBoot) = .ok (b', p') ∧
        p'.config = textConfig text tryNetBoot forceDiskBoot) ↔
      ∀ l ∈ lines text, l.length ≤ 1014 := by
  rcases parseConfig_cases htext hcap tryNetBoot forceDiskBoot with
    ⟨hall, hrun⟩ | ⟨hnot, hrun⟩
  · exact iff_of_true hrun hall
  · refine iff_of_false (fun ⟨b', p', h, _⟩ => ?_) hnot
    rw [hrun] at h
    cases h

/-- A text with two kernels, a NUL inside, and no newline at its end. -/
def exampleText : List UInt8 :=
  ascii "kernel /old\nkernel\t/mach_kernel extra\nappend quiet  x" ++ [0] ++
    ascii "try-net-boot\ninitrd /rd\noptions last"

/-- The witness: what it says. -/
theorem parseConfig_lines_example :
    ∃ b' p', parseConfig (fun i => exampleText.getD i 0) 128 exampleText.length
        (.fresh (some 0) none) = .ok (b', p') ∧
      p'.config = ⟨ascii "/mach_kernel", ascii "last", ascii "/rd", some 1, none⟩ := by
  obtain ⟨b', p', hrun, hconfig⟩ := (parseConfig_lines_iff (b := fun i => exampleText.getD i 0) 128
    exampleText (some 0) none (by decide) (by decide)).mpr (by decide +kernel)
  refine ⟨b', p', hrun, hconfig.trans ?_⟩
  decide

/-- A line of 1015 bytes. -/
def longLine : List UInt8 := List.replicate 1015 120

theorem lines_longLine : lines longLine = [longLine] :=
  List.splitOnP_eq_singleton fun c hc => by
    rw [List.eq_of_mem_replicate hc]
    decide

/-- With `config: `, its newline and the NUL it takes 1025 bytes. -/
theorem longLine_unread :
    (∀ l ∈ lines longLine, l.length < 1024) ∧
      parseConfig (fun i => longLine.getD i 0) 2048 longLine.length (.fresh (some 0) none) =
        .error .overrun := by
  have hlen : longLine.length = 1015 := List.length_replicate
  rw [lines_longLine]
  refine ⟨List.forall_mem_singleton.mpr (by omega), ?_⟩
  have hcap : longLine.length < 2048 := by omega
  rcases parseConfig_cases (Bytes.slice_getD longLine) hcap (some 0) none with
    ⟨hall, -⟩ | ⟨-, hrun⟩
  · rw [lines_longLine] at hall
    have := hall longLine (List.mem_singleton_self longLine)
    omega
  · exact hrun

end MbBootTv

import MbBootTv.Boot.Agreement

/-!
# What a line of the configuration can do

Three consequences of the meaning of a configuration. Lines are printed and values copied without a
look at the length of the arrays, and the line is the first to be too long (`diskboot_arrays_iff`). A
keyword is recognised by its letters alone, so a longer word acts as well (`actsByKeyword_iff`). And
a value that goes to the end of its line takes a carriage return with it (`parseConfig_crlf_iff`).
-/

namespace MbBootTv

/-! ## The arrays -/

section Arrays

variable {config : Bytes} {text : List UInt8}

theorem diskboot_overrun_iff (htext : config.slice 0 text.length = text) (load : Loader)
    (allowed : Bool) (u : Uninit) :
    diskboot load config text.length allowed u = .error .overrun ↔
      ¬ ∀ l ∈ lines text, l.length ≤ 1014 := by
  unfold diskboot
  rcases parseConfig_cases htext (Nat.lt_succ_self _) (some 0) none with ⟨hall, b, p, hrun, -⟩ | ⟨hnot, hrun⟩
  · rw [hrun, ok_bind]
    refine iff_of_false (fun h => ?_) fun h => h hall
    -- Behind the parser nothing fails.
    dsimp only at h
    repeat' split at h
    all_goals cases h
  · rw [hrun]
    exact iff_of_true rfl hnot

theorem dhcpCallback_overrun_iff (htext : config.slice 0 text.length = text) (load : Loader)
    (u : Uninit) :
    dhcpCallback load (some config) text.length u = .error .overrun ↔
      ¬ ∀ l ∈ lines text, l.length ≤ 1014 := by
  unfold dhcpCallback
  simp only [Int.toNat_natCast, if_neg (Int.not_lt.mpr (Int.natCast_nonneg _))]
  rcases parseConfig_cases htext (Nat.lt_succ_self _) none (some 0) with ⟨hall, b, p, hrun, -⟩ | ⟨hnot, hrun⟩
  · rw [hrun, ok_bind]
    refine iff_of_false (fun h => ?_) fun h => h hall
    dsimp only at h
    repeat' split at h
    all_goals cases h
  · rw [hrun]
    exact iff_of_true rfl hnot

/-- **Nothing is written past an array**, on either path, exactly when no line is longer than 1014
bytes. -/
theorem diskboot_arrays_iff (htext : config.slice 0 text.length = text) (load load' : Loader)
    (allowed : Bool) (u u' : Uninit) :
    (diskboot load config text.length allowed u ≠ .error .overrun ∧
        dhcpCallback load' (some config) text.length u' ≠ .error .overrun) ↔
      ∀ l ∈ lines text, l.length ≤ 1014 := by
  rw [ne_eq, ne_eq, diskboot_overrun_iff htext, dhcpCallback_overrun_iff htext, not_not, and_self]

end Arrays

/-- A kernel whose name has 1024 letters. -/
def longText : List UInt8 := ascii "kernel" ++ 32 :: List.replicate 1024 97

theorem diskboot_arrays_iff_kernelText :
    diskboot kernelLoader kernelConfig kernelText.length true stray ≠ .error .overrun ∧
      dhcpCallback kernelLoader (some kernelConfig) kernelText.length stray ≠ .error .overrun :=
  (diskboot_arrays_iff (by decide) kernelLoader kernelLoader true stray stray).mpr (by decide)

theorem isEnd_longText : ∀ c ∈ longText, isEnd c = false := by
  intro c hc
  rcases List.mem_append.mp hc with hc | hc
  · exact (by decide +kernel : ∀ c ∈ ascii "kernel", isEnd c = false) c hc
  · rcases List.mem_cons.mp hc with rfl | hc
    · rfl
    · rw [List.eq_of_mem_replicate hc]
      rfl

theorem longText_length : longText.length = 1031 := by
  unfold longText
  rw [List.length_append, List.length_cons, List.length_replicate]
  rfl

theorem not_short_longText : ¬ ∀ l ∈ lines longText, l.length ≤ 1014 := by
  have hlines : lines longText = [longText] := List.splitOnP_eq_singleton isEnd_longText
  rw [hlines]
  intro h
  have := h longText (List.mem_singleton_self _)
  rw [longText_length] at this
  omega

/-- The line in memory. -/
theorem longText_at : LineAt (fun i => longText.getD i 0) 1032 0 longText :=
  ⟨Bytes.slice_getD longText, by simp, by rw [longText_length]; decide, isEnd_longText⟩

/-- The name and its terminator are 1025 bytes. -/
theorem doFile_longText (kernel : Bytes) :
    doFile (fun i => longText.getD i 0) 1032 0 (ascii "kernel") kernel = .error .overrun := by
  have hpre : ascii "kernel" <+: longText := List.prefix_append _ _
  have hrest := longText_at.drop hpre.length_le
  have hdrop : longText.drop (ascii "kernel").length = 32 :: List.replicate 1024 97 :=
    List.drop_left
  rw [hdrop] at hrest
  -- There is one blank, and nothing but the name behind it.
  have hblank : ((32 :: List.replicate 1024 97 : List UInt8).takeWhile isSpace).length = 1 := by
    rw [List.takeWhile_cons, if_pos (by decide), List.takeWhile_replicate, if_neg (by decide)]
    rfl
  have hword : (List.replicate 1024 (97 : UInt8)).takeWhile (fun c => !isSpace c) =
      List.replicate 1024 97 := by
    rw [List.takeWhile_replicate, if_pos (by decide)]
  have hname := hrest.tail
  have hcut := hname.take (n := 1024) (by rw [List.length_replicate])
  rw [List.take_of_length_le (by rw [List.length_replicate])] at hcut
  unfold doFile
  rw [longText_at.matchWord (by decide +kernel), if_pos hpre, ok_bind]
  dsimp only
  rw [hrest.skipSpaces, ok_bind, hblank, hname.skipWord, ok_bind, hword, List.length_replicate,
    hcut.strcpy_long (by rw [List.length_replicate]; exact le_rfl), error_bind]

/-- Its call of `printk` runs over a buffer already, and the name over its array. -/
theorem longText_overruns :
    diskboot kernelLoader (fun i => longText.getD i 0) longText.length true stray =
        .error .overrun ∧
      dhcpCallback kernelLoader (some fun i => longText.getD i 0) longText.length stray =
        .error .overrun ∧
      ∀ kernel, doFile (fun i => longText.getD i 0) 1032 0 (ascii "kernel") kernel =
        .error .overrun :=
  have htext := Bytes.slice_getD longText
  ⟨(diskboot_overrun_iff htext kernelLoader true stray).mpr not_short_longText,
    (dhcpCallback_overrun_iff htext kernelLoader stray).mpr not_short_longText, doFile_longText⟩

/-! ## Keywords -/

/-- The words with which a line says something. -/
def keywords : List (List UInt8) :=
  [ascii "kernel", ascii "options", ascii "append", ascii "ramdisk", ascii "initrd",
    ascii "try-net-boot", ascii "force-disk-boot"]

/-- The first word of a line. -/
def firstWord (l : List UInt8) : List UInt8 := (l.dropWhile isSpace).takeWhile fun c => !isSpace c

/-- Unless its first word is a keyword, the line changes nothing, whatever was said before it. -/
def ActsByKeyword (l : List UInt8) : Prop :=
  firstWord l ∉ keywords → ∀ b cap i p, LineAt b cap i l →
    ∃ b' p', parseLine b cap i p = .ok (b', p') ∧ p'.config = p.config

section Keywords

variable {l m : List UInt8}

theorem afterWord_eq_none_iff : afterWord m l = none ↔ ¬ m <+: l := by
  unfold afterWord
  by_cases h : m <+: l
  · rw [if_pos h]
    exact iff_of_false (Option.some_ne_none _) (not_not.mpr h)
  · rw [if_neg h]
    exact iff_of_true rfl h

theorem fileArg_eq_none_iff : fileArg m l = none ↔ ¬ m <+: l :=
  Option.map_eq_none_iff.trans afterWord_eq_none_iff

theorem lineArg_eq_none_iff : lineArg m l = none ↔ ¬ m <+: l :=
  Option.map_eq_none_iff.trans afterWord_eq_none_iff

theorem countWord_singleton : countWord m [l] = 0 ↔ ¬ m <+: l := by
  rw [countWord, List.countP_eq_zero]
  simp

/-- A line says nothing when it begins with no keyword. -/
theorem forall_not_prefix_iff : (∀ m ∈ keywords, ¬ m <+: l) ↔
    kernelArg l = none ∧ optionsArg l = none ∧ ramdiskArg l = none ∧
      countWord (ascii "try-net-boot") [l] = 0 ∧ countWord (ascii "force-disk-boot") [l] = 0 := by
  unfold kernelArg optionsArg ramdiskArg
  rw [Option.or_eq_none_iff, Option.or_eq_none_iff, lineArg_eq_none_iff, lineArg_eq_none_iff,
    fileArg_eq_none_iff, fileArg_eq_none_iff, fileArg_eq_none_iff, countWord_singleton,
    countWord_singleton]
  simp only [keywords, List.forall_mem_cons, List.not_mem_nil, false_imp_iff, implies_true,
    and_true]
  exact ⟨fun ⟨hk, ho, ha, hr, hi, ht, hf⟩ => ⟨hk, ⟨ha, ho⟩, ⟨hi, hr⟩, ht, hf⟩,
    fun ⟨hk, ⟨ha, ho⟩, ⟨hi, hr⟩, ht, hf⟩ => ⟨hk, ho, ha, hr, hi, ht, hf⟩⟩

theorem configOf_singleton (c : Config) : configOf [l] c =
    ⟨(kernelArg l).getD c.kernel, (optionsArg l).getD c.options, (ramdiskArg l).getD c.ramdisk,
      c.tryNetBoot.map (· + countWord (ascii "try-net-boot") [l]),
      c.forceDiskBoot.map (· + countWord (ascii "force-disk-boot") [l])⟩ := by
  rw [configOf_cons, configOf_nil]

/-- A line that says nothing leaves everything as it is. -/
theorem configOf_of_inert (h : ∀ m ∈ keywords, ¬ m <+: l) (c : Config) : configOf [l] c = c := by
  obtain ⟨hkernel, hoptions, hramdisk, htry, hforce⟩ := forall_not_prefix_iff.mp h
  rw [configOf_singleton, hkernel, hoptions, hramdisk, htry, hforce]
  obtain ⟨kernel, options, ramdisk, tryNetBoot, forceDiskBoot⟩ := c
  cases tryNetBoot <;> cases forceDiskBoot <;> rfl

/-- Three empty strings, or three that are not. -/
def sameStrings (w : List UInt8) : Config := ⟨w, w, w, some 0, some 0⟩

/-- To tell whether a line says something it is enough to look at two configurations. -/
theorem inert_of_configOf (h : configOf [l] (sameStrings []) = sameStrings [])
    (h' : configOf [l] (sameStrings [120]) = sameStrings [120]) :
    ∀ m ∈ keywords, ¬ m <+: l := by
  rw [configOf_singleton] at h h'
  obtain ⟨hkernel, hoptions, hramdisk, htry, hforce⟩ := Config.mk.inj h
  obtain ⟨hkernel', hoptions', hramdisk', -, -⟩ := Config.mk.inj h'
  have hnone {a : Option (List UInt8)} (h0 : a.getD [] = []) (h1 : a.getD [120] = [120]) :
      a = none := by
    cases a with
    | none => rfl
    | some w =>
      rw [Option.getD_some] at h0 h1
      rw [h0] at h1
      cases h1
  refine forall_not_prefix_iff.mpr ⟨hnone hkernel hkernel', hnone hoptions hoptions',
    hnone hramdisk hramdisk', ?_, ?_⟩
  · simpa [sameStrings] using htry
  · simpa [sameStrings] using hforce

/-- Arrays with the same string. -/
theorem exists_sameStrings (w : UInt8) :
    ∃ p : Parsed, p.config = sameStrings (if w = 0 then [] else [w]) := by
  have hcstring : cString (fun i => if i = 0 then w else 0) optionSize =
      if w = 0 then [] else [w] := by
    have hsplit : Bytes.slice (fun i => if i = 0 then w else 0) 0 optionSize =
        w :: 0 :: Bytes.slice (fun i => if i = 0 then w else 0) 2 1022 := by
      rw [show optionSize = 1022 + 1 + 1 from rfl, Bytes.slice_succ, Bytes.slice_succ]
      rfl
    unfold cString
    rw [hsplit]
    by_cases hw : w = 0
    · rw [hw]
      rfl
    · simp [hw]
  refine ⟨⟨fun i => if i = 0 then w else 0, fun i => if i = 0 then w else 0,
    fun i => if i = 0 then w else 0, some 0, some 0⟩, ?_⟩
  unfold Parsed.config sameStrings
  simp only [hcstring]

/-- **A line acts by its first word** exactly when that is a keyword, or no keyword goes on in a longer
word and the line can be printed. -/
theorem actsByKeyword_iff (hend : ∀ c ∈ l, isEnd c = false) :
    ActsByKeyword l ↔
      (firstWord l ∉ keywords → l.length ≤ 1014 ∧ ∀ m ∈ keywords, ¬ m <+: l) := by
  refine forall_congr' fun hword => ?_
  constructor
  · intro hacts
    -- The line is without effect on any two configurations.
    have hline : LineAt (fun i => l.getD i 0) (l.length + 1) 0 l :=
      ⟨Bytes.slice_getD l, by simp, by omega, hend⟩
    have hrun : ∀ w, l.length ≤ 1014 ∧
        configOf [l] (sameStrings (if w = 0 then [] else [w])) =
          sameStrings (if w = 0 then [] else [w]) := by
      intro w
      obtain ⟨p, hp⟩ := exists_sameStrings w
      obtain ⟨b', p', hrun, hconfig⟩ := hacts _ _ _ p hline
      obtain ⟨hlen, hsays, -⟩ := (parseLine_line hline p).ok_of_eq hrun
      exact ⟨hlen, by rw [← hp, ← hsays, hconfig]⟩
    exact ⟨(hrun 0).1, inert_of_configOf (hrun 0).2 (hrun 120).2⟩
  · rintro ⟨hlen, hinert⟩ b cap i p hline
    have hends := parseLine_line hline p
    rcases hrun : parseLine b cap i p with e | ⟨b', p'⟩
    · exact absurd hlen (Nat.not_le.mpr (hends.error_of_eq hrun).2)
    · exact ⟨b', p', rfl, (hends.ok_of_eq hrun).2.1.trans (configOf_of_inert hinert _)⟩

end Keywords

/-- The word of this line only begins with a keyword. -/
def longerWord : List UInt8 := ascii "kernels /k"

/-- It names a kernel all the same: the letter that is left. -/
theorem longerWord_acts :
    firstWord longerWord ∉ keywords ∧
      ∃ b' p', parseConfig (fun i => longerWord.getD i 0) 11 longerWord.length
          (.fresh (some 0) none) = .ok (b', p') ∧
        p'.config = { sameStrings [] with kernel := ascii "s", forceDiskBoot := none } := by
  have hcap : longerWord.length < 11 := by decide
  obtain ⟨b', p', hrun, hconfig⟩ :=
    parseConfig_of_short (Bytes.slice_getD longerWord) hcap (some 0) none (by decide)
  refine ⟨by decide, b', p', hrun, hconfig.trans ?_⟩
  decide

/-! ## Line endings -/

/-- A text with a carriage return in front of each newline. -/
def crlf (text : List UInt8) : List UInt8 :=
  text.flatMap fun c => if c = 10 then [13, 10] else [c]

/-- The lines of a text, and of each whether a newline ends it. -/
def endedLines : List UInt8 → List (List UInt8 × Bool)
  | [] => [([], false)]
  | c :: text =>
    if isEnd c then ([], c = 10) :: endedLines text
    else (endedLines text).modifyHead fun l => (c :: l.1, l.2)

/-- What the options are set to last, and whether a newline ends the line. -/
def lastOptions (text : List UInt8) : Option (List UInt8 × Bool) :=
  ((endedLines text).filterMap fun l => (optionsArg l.1).map (·, l.2)).getLast?

section LineEndings

variable {l m text : List UInt8}

theorem lines_cons (c : UInt8) (text : List UInt8) :
    lines (c :: text) =
      if isEnd c then [] :: lines text else (lines text).modifyHead (List.cons c) :=
  List.splitOnP_cons_eq_if_modifyHead _ _

theorem lines_eq (text : List UInt8) : lines text = (endedLines text).map Prod.fst := by
  induction text with
  | nil => rfl
  | cons c text ih =>
    rw [lines_cons, endedLines, ih]
    split_ifs
    · rfl
    · cases endedLines text <;> rfl

/-- A line has no end in it. -/
theorem isEnd_of_mem_lines (hl : l ∈ lines text) : ∀ c ∈ l, isEnd c = false := by
  induction text generalizing l with
  | nil =>
    rw [List.mem_singleton.mp hl]
    exact fun c hc => absurd hc List.not_mem_nil
  | cons c text ih =>
    rw [lines_cons] at hl
    split_ifs at hl with hc
    · rcases List.mem_cons.mp hl with rfl | hl
      · exact fun c hc => absurd hc List.not_mem_nil
      · exact ih hl
    · cases hlines : lines text with
      | nil =>
        rw [hlines] at hl
        cases hl
      | cons first rest =>
        rw [hlines] at hl ih
        rcases List.mem_cons.mp hl with rfl | hl
        · exact List.forall_mem_cons.mpr ⟨Bool.not_eq_true _ ▸ hc, ih List.mem_cons_self⟩
        · exact ih (List.mem_cons_of_mem _ hl)

/-- A line with its carriage return, if a newline ends it. -/
def withCr (l : List UInt8 × Bool) : List UInt8 := if l.2 then l.1 ++ [13] else l.1

theorem crlf_cons (c : UInt8) (text : List UInt8) :
    crlf (c :: text) = (if c = 10 then [13, 10] else [c]) ++ crlf text :=
  List.flatMap_cons

theorem lines_crlf (text : List UInt8) : lines (crlf text) = (endedLines text).map withCr := by
  induction text with
  | nil => rfl
  | cons c text ih =>
    rw [crlf_cons, endedLines]
    by_cases hc : isEnd c = true
    · rw [if_pos hc]
      by_cases h10 : c = 10
      · rw [if_pos h10]
        show lines (13 :: 10 :: crlf text) = _
        rw [lines_cons, lines_cons, if_neg (by decide), if_pos (by decide), ih, h10]
        rfl
      · rw [if_neg h10]
        show lines (c :: crlf text) = _
        rw [lines_cons, if_pos hc, ih, List.map_cons, withCr]
        simp [h10]
    · have h10 : c ≠ 10 := by
        rintro rfl
        exact hc rfl
      rw [if_neg h10, if_neg hc]
      show lines (c :: crlf text) = _
      rw [lines_cons, if_neg hc, ih]
      rcases endedLines text with _ | ⟨⟨l, nl⟩, rest⟩
      · rfl
      · cases nl <;> rfl

/-- A carriage return does not complete a keyword. -/
theorem prefix_append_cr (hm : 13 ∉ m) : m <+: l ++ [13] ↔ m <+: l := by
  refine ⟨fun h => ?_, fun h => h.trans (List.prefix_append _ _)⟩
  rcases List.prefix_concat_iff.mp h with rfl | h
  · exact absurd (List.mem_append_right _ (List.mem_singleton_self _)) hm
  · exact h

theorem afterWord_append_cr (hm : 13 ∉ m) :
    afterWord m (l ++ [13]) = (afterWord m l).map (· ++ [13]) := by
  unfold afterWord
  by_cases hpre : m <+: l
  · rw [if_pos hpre, if_pos ((prefix_append_cr hm).mpr hpre), Option.map_some,
      List.drop_append_of_le_length hpre.length_le]
  · rw [if_neg hpre, if_neg (mt (prefix_append_cr hm).mp hpre), Option.map_none]

/-- White space at the end goes away with what is skipped. -/
theorem dropWhile_append_cr (r : List UInt8) : (r ++ [13]).dropWhile isSpace =
    if r.dropWhile isSpace = [] then [] else r.dropWhile isSpace ++ [13] := by
  simp only [List.dropWhile_append, List.isEmpty_iff]
  rfl

/-- **A word does not take the carriage return with it.** -/
theorem fileArg_append_cr (hm : 13 ∉ m) : fileArg m (l ++ [13]) = fileArg m l := by
  unfold fileArg
  rw [afterWord_append_cr hm, Option.map_map]
  refine congrFun (congrArg Option.map (funext fun r => ?_)) _
  show ((r ++ [13]).dropWhile isSpace).takeWhile _ = _
  rw [dropWhile_append_cr]
  split_ifs with h
  · rw [h]
  · rw [List.takeWhile_append]
    split_ifs with hlen
    · exact (List.append_nil _).trans (List.takeWhile_prefix _ |>.eq_of_length hlen).symm
    · rfl

/-- A value with the carriage return that ends it, unless it is empty. -/
def valueWithCr (w : List UInt8 × Bool) : List UInt8 :=
  if w.2 = true ∧ w.1 ≠ [] then w.1 ++ [13] else w.1

/-- The rest of a line does. -/
theorem lineArg_append_cr (hm : 13 ∉ m) :
    lineArg m (l ++ [13]) = (lineArg m l).map fun w => valueWithCr (w, true) := by
  unfold lineArg
  rw [afterWord_append_cr hm, Option.map_map, Option.map_map]
  refine congrFun (congrArg Option.map (funext fun r => ?_)) _
  show (r ++ [13]).dropWhile isSpace = valueWithCr (r.dropWhile isSpace, true)
  rw [dropWhile_append_cr, valueWithCr]
  by_cases h : r.dropWhile isSpace = []
  · rw [if_pos h, if_neg fun hno => hno.2 h, h]
  · rw [if_neg h, if_pos ⟨rfl, h⟩]

theorem kernelArg_withCr (l : List UInt8 × Bool) : kernelArg (withCr l) = kernelArg l.1 := by
  obtain ⟨l, _ | _⟩ := l
  · rfl
  · exact fileArg_append_cr (by decide)

theorem ramdiskArg_withCr (l : List UInt8 × Bool) : ramdiskArg (withCr l) = ramdiskArg l.1 := by
  obtain ⟨l, _ | _⟩ := l
  · rfl
  · show (fileArg _ (l ++ [13])).or (fileArg _ (l ++ [13])) = _
    rw [fileArg_append_cr (by decide), fileArg_append_cr (by decide)]
    rfl

theorem optionsArg_withCr (l : List UInt8 × Bool) :
    optionsArg (withCr l) = (optionsArg l.1).map fun w => valueWithCr (w, l.2) := by
  obtain ⟨l, _ | _⟩ := l
  · show optionsArg l = (optionsArg l).map fun w => valueWithCr (w, false)
    cases optionsArg l <;> rfl
  · show (lineArg _ (l ++ [13])).or (lineArg _ (l ++ [13])) = _
    rw [lineArg_append_cr (by decide), lineArg_append_cr (by decide)]
    unfold optionsArg
    cases lineArg (ascii "append") l <;> rfl

theorem countWord_crlf (hm : 13 ∉ m) (text : List UInt8) :
    countWord m (lines (crlf text)) = countWord m (lines text) := by
  unfold countWord
  rw [lines_crlf, lines_eq, List.countP_map, List.countP_map]
  refine List.countP_congr fun ⟨l, nl⟩ _ => ?_
  cases nl with
  | false => exact Iff.rfl
  | true => simpa [withCr] using prefix_append_cr hm

/-- What is set by a word is set to the same. -/
theorem lastArg_crlf {arg : List UInt8 → Option (List UInt8)}
    (harg : ∀ l, arg (withCr l) = arg l.1) (text initial : List UInt8) :
    lastArg arg (lines (crlf text)) initial = lastArg arg (lines text) initial := by
  unfold lastArg
  rw [lines_crlf, lines_eq, List.filterMap_map, List.filterMap_map]
  have hsame : arg ∘ withCr = arg ∘ Prod.fst := funext harg
  rw [hsame]

theorem lastArg_options (text initial : List UInt8) :
    lastArg optionsArg (lines text) initial = ((lastOptions text).map Prod.fst).getD initial := by
  unfold lastArg lastOptions
  rw [lines_eq, List.filterMap_map, ← List.getLast?_map, List.map_filterMap]
  have hsame (l : List UInt8 × Bool) :
      ((optionsArg l.1).map (·, l.2)).map Prod.fst = optionsArg l.1 := by
    rw [Option.map_map]
    exact Option.map_id'
  simp only [hsame]
  rfl

theorem lastArg_options_crlf (text initial : List UInt8) :
    lastArg optionsArg (lines (crlf text)) initial =
      ((lastOptions text).map valueWithCr).getD initial := by
  unfold lastArg lastOptions
  rw [lines_crlf, List.filterMap_map, ← List.getLast?_map, List.map_filterMap]
  have hsame (l : List UInt8 × Bool) :
      ((optionsArg l.1).map (·, l.2)).map valueWithCr = optionsArg (withCr l) := by
    rw [Option.map_map, optionsArg_withCr]
    rfl
  simp only [hsame]
  rfl

/-- The two texts say the same unless the options take a carriage return with them. -/
theorem configOf_crlf_iff (text : List UInt8) (c : Config) :
    configOf (lines (crlf text)) c = configOf (lines text) c ↔
      ∀ w, lastOptions text = some (w, true) → w = [] := by
  have hcr : ∀ m ∈ keywords, 13 ∉ m := by decide
  unfold configOf
  rw [lastArg_crlf kernelArg_withCr, lastArg_crlf ramdiskArg_withCr, lastArg_options_crlf,
    lastArg_options, countWord_crlf (hcr _ (by decide)), countWord_crlf (hcr _ (by decide))]
  simp only [Config.mk.injEq, true_and, and_true]
  rcases lastOptions text with _ | ⟨w, _ | _⟩
  · exact iff_of_true rfl fun w hw => nomatch hw
  · exact iff_of_true rfl fun w hw => nomatch hw
  · show valueWithCr (w, true) = w ↔ _
    by_cases hw : w = []
    · subst hw
      exact iff_of_true rfl fun w hw => by cases hw; rfl
    · refine iff_of_false (fun h => ?_) fun h => hw (h w rfl)
      have hlen := congrArg List.length h
      rw [valueWithCr, if_pos ⟨rfl, hw⟩, List.length_append] at hlen
      exact absurd hlen (by simp)

/-- A line is not longer than with its carriage return. -/
theorem short_of_crlf {n : Nat} (h : ∀ l ∈ lines (crlf text), l.length ≤ n) :
    ∀ l ∈ lines text, l.length ≤ n := by
  intro l hl
  rw [lines_eq] at hl
  obtain ⟨⟨l, nl⟩, hmem, rfl⟩ := List.mem_map.mp hl
  have hcr := h (withCr (l, nl)) (by rw [lines_crlf]; exact List.mem_map_of_mem hmem)
  refine le_trans ?_ hcr
  cases nl with
  | false => exact le_rfl
  | true => exact (List.prefix_append l [13]).length_le

/-- **Line endings do not matter** exactly when each line can be printed with its carriage return,
and the options that count are empty, or not ended by a newline, or not set. -/
theorem parseConfig_crlf_iff {b b' : Bytes} (cap cap' : Nat) (text : List UInt8)
    (tryNetBoot forceDiskBoot : Option Nat)
    (htext : b.slice 0 text.length = text) (hcap : text.length < cap)
    (htext' : b'.slice 0 (crlf text).length = crlf text) (hcap' : (crlf text).length < cap') :
    (∃ r r', parseConfig b cap text.length (.fresh tryNetBoot forceDiskBoot) = .ok r ∧
        parseConfig b' cap' (crlf text).length (.fresh tryNetBoot forceDiskBoot) = .ok r' ∧
        r'.2.config = r.2.config) ↔
      (∀ l ∈ lines (crlf text), l.length ≤ 1014) ∧
        ∀ w, lastOptions text = some (w, true) → w = [] := by
  rcases parseConfig_cases htext' hcap' tryNetBoot forceDiskBoot with
    ⟨hall', b₂, p₂, hrun', hconfig'⟩ | ⟨hnot, hrun'⟩
  · obtain ⟨b₁, p₁, hrun, hconfig⟩ := parseConfig_of_short htext hcap tryNetBoot forceDiskBoot
      (short_of_crlf hall')
    rw [← configOf_crlf_iff text ⟨[], [], [], tryNetBoot, forceDiskBoot⟩, hrun, hrun']
    rw [textConfig] at hconfig hconfig'
    rw [← hconfig, ← hconfig']
    constructor
    · rintro ⟨r₁, r₂, h₁, h₂, heq⟩
      cases h₁
      cases h₂
      exact ⟨hall', heq⟩
    · exact fun heq => ⟨_, _, rfl, rfl, heq.2⟩
  · refine iff_of_false ?_ fun h => hnot h.1
    rintro ⟨r₁, r₂, -, h₂, -⟩
    rw [hrun'] at h₂
    cases h₂

/-- **Every line acts by its first word** exactly when those that do not begin with a keyword of their
own neither begin with its letters nor are too long to be printed. -/
theorem actsByKeyword_lines_iff (text : List UInt8) :
    (∀ l ∈ lines text, ActsByKeyword l) ↔
      ∀ l ∈ lines text, firstWord l ∉ keywords →
        l.length ≤ 1014 ∧ ∀ m ∈ keywords, ¬ m <+: l :=
  forall₂_congr fun _ hl => actsByKeyword_iff (isEnd_of_mem_lines hl)

end LineEndings

/-- Options that end with their line. -/
def quietText : List UInt8 := ascii "options quiet\n"

theorem parseConfig_crlf_iff_kernelText : ∃ r r',
    parseConfig kernelConfig 16 kernelText.length (.fresh (some 0) none) = .ok r ∧
      parseConfig (fun i => (crlf kernelText).getD i 0) 16 (crlf kernelText).length
        (.fresh (some 0) none) = .ok r' ∧ r'.2.config = r.2.config :=
  (parseConfig_crlf_iff 16 16 kernelText (some 0) none (Bytes.slice_getD kernelText)
    (by decide) (Bytes.slice_getD _) (by decide)).mpr ⟨by decide, fun w hw => by
      have hnone : lastOptions kernelText = none := by decide
      rw [hnone] at hw
      cases hw⟩

/-- With a carriage return in front of the newline, that is the last byte of the options. -/
theorem quietText_crlf :
    (∀ l ∈ lines quietText, l.length < 1023) ∧ (13 : UInt8) ∉ quietText ∧
      ∃ r r', parseConfig (fun i => quietText.getD i 0) 16 quietText.length
          (.fresh (some 0) none) = .ok r ∧
        parseConfig (fun i => (crlf quietText).getD i 0) 16 (crlf quietText).length
          (.fresh (some 0) none) = .ok r' ∧
        r.2.config.options = ascii "quiet" ∧ r'.2.config.options = ascii "quiet\r" := by
  refine ⟨by decide, by decide, ?_⟩
  have hread (text : List UInt8) (hcap : text.length < 16)
      (hshort : ∀ l ∈ lines text, l.length ≤ 1014) :
      ∃ r, parseConfig (fun i => text.getD i 0) 16 text.length (.fresh (some 0) none) = .ok r ∧
        r.2.config.options = lastArg optionsArg (lines text) [] := by
    obtain ⟨b', p, hrun, hconfig⟩ :=
      parseConfig_of_short (Bytes.slice_getD text) hcap (some 0) none hshort
    exact ⟨(b', p), hrun, congrArg Config.options hconfig⟩
  obtain ⟨r, hrun, hoptions⟩ := hread quietText (by decide) (by decide)
  obtain ⟨r', hrun', hoptions'⟩ := hread (crlf quietText) (by decide) (by decide)
  refine ⟨r, r', hrun, hrun', hoptions.trans ?_, hoptions'.trans ?_⟩
  · decide
  · decide

end MbBootTv

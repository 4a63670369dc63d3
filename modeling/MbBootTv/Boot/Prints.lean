import MbBootTv.Boot.ConfigMeaning

/-!
# What `parse_config` prints (`main.c`)

`parse_config` prints every line, and at the end every value. `printk` has 1024 bytes for the text
that it makes; `parseConfigPrints_fit_iff` says which configurations stay inside them.
-/

namespace MbBootTv

/-! ## The calls -/

/-- The calls in the loop of `parse_config`, as long as it goes on. -/
def parseLoopPrints (cap : Nat) : Nat → Nat → Nat → Bytes → Parsed → List PrintkCall
  | 0, _, _, _, _ => []
  | n + 1, i, j, b, p =>
    match loadByte b cap i with
    | .error _ => []
    | .ok x =>
      if x = 10 || x = 0 then
        let b := b.fill i 0 1
        match strlen b cap j with
        | .error _ => []
        | .ok len => lineCall (b.slice j len) ::
          match parseLine b cap j p with
          | .error _ => []
          | .ok (b, p) => parseLoopPrints cap n (i + 1) (i + 1) b p
      else parseLoopPrints cap n (i + 1) j b p

/-- The calls of `printk` in `parse_config`. -/
def parseConfigPrints (config : Bytes) (cap len : Nat) (p : Parsed) : List PrintkCall :=
  if len < cap then
    parseLoopPrints cap (len + 1) 0 0 (config.fill len 0 1) p ++
      match parseLoop cap (len + 1) 0 0 (config.fill len 0 1) p with
      | .error _ => []
      | .ok (_, p) => resultPrints p
  else []

/-! ## The run -/

/-- A line of up to 1014 bytes fits behind `config: `. -/
theorem lineCall_fits_iff {l : List UInt8} : (lineCall l).Fits ↔ l.length ≤ 1014 := by
  rw [PrintkCall.fits_iff, lineCall_run]
  split_ifs with h
  · exact iff_of_true rfl h
  · exact iff_of_false (fun h => nomatch h) h

/-- **The calls of the loop fit** exactly when the lines before it are short. -/
theorem parseLoopPrints_fit_iff {b : Bytes} {cap i j : Nat} {cur rest : List UInt8}
    (h : Scanning b cap i j cur rest) (p : Parsed) :
    (∀ c ∈ parseLoopPrints cap (rest.length + 1) i j b p, c.Fits) ↔
      ∀ l ∈ lines (cur ++ rest), l.length ≤ 1014 := by
  -- By induction on the text; the call for a line is made before anything is done with it.
  induction rest generalizing b i j cur p with
  | nil =>
    rw [h.lines_nil, List.length_nil, parseLoopPrints, h.load_nul]
    simp only [decide_true, Bool.or_true, if_true, h.line.strlen, h.line.bytes]
    cases parseLine (b.fill i 0 1) cap j p with
    | error _ => simp [lineCall_fits_iff]
    | ok r => simp [lineCall_fits_iff, parseLoopPrints]
  | cons c rest ih =>
    rw [List.length_cons, parseLoopPrints, h.load_cons]
    by_cases hc : isEnd c = true
    · have htest : (c = 10 || c = 0) = true := hc
      rw [h.lines_cons hc, List.forall_mem_cons]
      simp only [htest, if_true, h.line.strlen, h.line.bytes, List.forall_mem_cons,
        lineCall_fits_iff]
      refine and_congr_right fun hshort => ?_
      have hline := parseLine_line h.line p
      rcases hr : parseLine (b.fill i 0 1) cap j p with f | ⟨b', p'⟩
      · exact absurd hshort (Nat.not_le.mpr (hline.error_of_eq hr).2)
      · obtain ⟨-, -, hout⟩ := hline.ok_of_eq hr
        exact ih (h.next hout) p'
    · have htest : ¬ (c = 10 || c = 0) = true := hc
      have hnext := ih (h.more (Bool.not_eq_true _ ▸ hc)) p
      rw [List.append_assoc, List.singleton_append] at hnext
      simp only [if_neg htest]
      exact hnext

/-- **`printk` stays inside its buffer** while `parse_config` runs exactly when no line is longer
than 1014 bytes. -/
theorem parseConfigPrints_fit_iff {b : Bytes} (cap : Nat) (text : List UInt8)
    (tryNetBoot forceDiskBoot : Option Nat) (htext : b.slice 0 text.length = text)
    (hcap : text.length < cap) :
    (∀ c ∈ parseConfigPrints b cap text.length (.fresh tryNetBoot forceDiskBoot), c.Fits) ↔
      ∀ l ∈ lines text, l.length ≤ 1014 := by
  have hloop := parseLoopPrints_fit_iff (.of_text htext hcap) (.fresh tryNetBoot forceDiskBoot)
  rw [List.nil_append] at hloop
  unfold parseConfigPrints
  rw [if_pos hcap, List.forall_mem_append, hloop]
  refine and_iff_left_of_imp fun hshort => ?_
  have hends := parseLoop_lines (.of_text htext hcap) (.fresh tryNetBoot forceDiskBoot)
  rw [List.nil_append, fresh_config] at hends
  rcases hrun : parseLoop cap (text.length + 1) 0 0 (b.fill text.length 0 1)
    (.fresh tryNetBoot forceDiskBoot) with f | ⟨b', p⟩
  · exact fun c hc => absurd hc List.not_mem_nil
  · exact resultPrints_of_lines (hends.ok_of_eq hrun).2 hshort

/-- A configuration with a kernel and options. -/
theorem parseConfigPrints_fit_example :
    ¬ ∃ c ∈ parseConfigPrints (fun i => exampleText.getD i 0) 128 exampleText.length
      (.fresh (some 0) none), ¬ c.Fits := by
  rintro ⟨c, hc, hno⟩
  exact hno ((parseConfigPrints_fit_iff 128 exampleText (some 0) none
    (Bytes.slice_getD exampleText) (by decide)).mpr (by decide) c hc)

/-- With `config: `, its newline and the NUL it takes 1025 bytes. -/
theorem longLine_overflows :
    ¬ ∀ c ∈ parseConfigPrints (fun i => longLine.getD i 0) 2048 longLine.length
      (.fresh (some 0) none), c.Fits := by
  have hlen : longLine.length = 1015 := List.length_replicate
  have hscan : Scanning _ 2048 0 0 [] longLine :=
    Scanning.of_text (Bytes.slice_getD longLine) (by rw [hlen]; decide)
  intro hfits
  have hloop := (parseLoopPrints_fit_iff hscan (.fresh (some 0) none)).mp fun c hc => by
    refine hfits c ?_
    unfold parseConfigPrints
    rw [if_pos (by rw [hlen]; decide)]
    exact List.mem_append_left _ hc
  rw [List.nil_append, lines_longLine] at hloop
  have := hloop longLine (List.mem_singleton_self longLine)
  omega

end MbBootTv

import MbBootTv.Console.Video
import MbBootTv.Lib.Reach
import Mathlib.Data.Finset.Lattice.Fold
import Mathlib.Data.Finset.Prod
import Mathlib.Order.Lattice.Nat

/-!
# What is drawn on the screen

The console keeps its cursor on the screen, clears lines and scrolls inside it, but draws a text
wherever it leads. `chunkedPrint_inside` says when every byte that is written or copied lies in the
framebuffer, in terms of the place of each glyph and of its reach.
-/

namespace MbBootTv

/-! ## Where a text goes -/

/-- Whether a character has a glyph. -/
def hasGlyph (c : UInt8) : Bool := '!'.toUInt8 ≤ c && c ≤ '~'.toUInt8

/-- How many pixels of the screen a pixel of the bitmap makes, across and down. -/
def scale (fDouble : Bool) : Nat := if fDouble then 2 else 1

/-- The pixel in row `y` and column `n` of a glyph. -/
def glyphPixel (c : UInt8) (fDouble : Bool) (y n : Nat) : Nat :=
  charsetPixel (glyphStart c + uiPixelsX * (y / scale fDouble) + n / scale fDouble)

/-- The number of bytes from where a glyph is drawn to the end of its last pixel, on lines of
`lineBytes` bytes. -/
def glyphReach (lineBytes : Nat) (c : UInt8) (fDouble : Bool) : Nat :=
  (Finset.range (scale fDouble * uiPixelsY) ×ˢ Finset.range (scale fDouble * glyphWidth c)).sup
    fun yn => if glyphPixel c fDouble yn.1 yn.2 ≠ 0 then yn.1 * lineBytes + 4 * yn.2 + 4 else 0

/-- The width of a character that is drawn at `p`, in pixels. -/
def charWidth (lineBytes p : UInt32) (c : UInt8) (fDouble : Bool) : UInt32 :=
  if c = '\t'.toUInt8 then (128 - (p % lineBytes + 1) % 128) >>> 2
  else if hasGlyph c then UInt32.ofNat (scale fDouble * glyphWidth c)
  else if fDouble then 8 else 5

/-- A character can be drawn at `p`: its glyph ends in the framebuffer, and there are lines for a
tab to be counted in. -/
def CharFits (m : Vmode) (p : UInt32) (c : UInt8) (fDouble : Bool) : Prop :=
  (c = '\t'.toUInt8 → m.lineBytes ≠ 0) ∧
    (hasGlyph c = true →
      (p - m.addr).toNat + glyphReach m.lineBytes.toNat c fDouble ≤ m.size)

/-- The characters of a line can be drawn, from `p` on, when `w` pixels are done. -/
def LineFits (m : Vmode) (p : UInt32) : List UInt8 → Bool → UInt32 → Prop
  | [], _, _ => True
  | c :: s, fDouble, w =>
    if c = '\n'.toUInt8 then True
    else if c = 2 then LineFits m p s (!fDouble) w
    else CharFits m (p + 4 * w) c fDouble ∧
      LineFits m p s fDouble (w + charWidth m.lineBytes (p + 4 * w) c fDouble)

/-- The width of a line. -/
def lineWidth (lineBytes p : UInt32) : List UInt8 → Bool → UInt32 → UInt32
  | [], _, w => w
  | c :: s, fDouble, w =>
    if c = '\n'.toUInt8 then w
    else if c = 2 then lineWidth lineBytes p s (!fDouble) w
    else lineWidth lineBytes p s fDouble (w + charWidth lineBytes (p + 4 * w) c fDouble)

/-- The pointer to line `y`, byte `x`. -/
def Vmode.at (m : Vmode) (x y : UInt32) : UInt32 := m.addr + y * m.lineBytes + x

/-- The text line below line `y`, if it is not the last one. -/
def Vmode.nextLine (m : Vmode) (y : UInt32) : UInt32 :=
  if m.height - 16 < y + 16 then y + 16 - 16 else y + 16

/-- When the text scrolls from line `y`, `scroll_memcpy` can count the bytes. -/
def ScrollFits (m : Vmode) (y : UInt32) : Prop :=
  m.height - 16 < y + 16 → y.toNat * m.lineBytes.toNat < 2 ^ 31

/-- A string can be printed at `(x, y)`, when `undone` is what is to be drawn of it next. -/
def TextFits (m : Vmode) : List UInt8 → List UInt8 → UInt32 → UInt32 → Prop
  | [], undone, x, y => undone ≠ [] → LineFits m (m.at x y) undone false 0 ∧
      (m.width <<< 2 < x + lineWidth m.lineBytes (m.at x y) undone false 0 <<< 2 →
        ScrollFits m y)
  | c :: s, undone, x, y =>
    if c = '\n'.toUInt8 then LineFits m (m.at x y) undone false 0 ∧ ScrollFits m y ∧
      TextFits m s s 0 (m.nextLine y)
    else TextFits m s undone x y

instance (m : Vmode) (p : UInt32) (c : UInt8) (fDouble : Bool) :
    Decidable (CharFits m p c fDouble) := inferInstanceAs (Decidable (_ ∧ _))

instance LineFits.decidable (m : Vmode) (p : UInt32) :
    ∀ s fDouble w, Decidable (LineFits m p s fDouble w)
  | [], _, _ => isTrue trivial
  | c :: s, fDouble, w =>
    have := LineFits.decidable m p s (!fDouble) w
    have := LineFits.decidable m p s fDouble (w + charWidth m.lineBytes (p + 4 * w) c fDouble)
    inferInstanceAs (Decidable (if c = '\n'.toUInt8 then True else if c = 2 then _ else _ ∧ _))

instance (m : Vmode) (y : UInt32) : Decidable (ScrollFits m y) :=
  inferInstanceAs (Decidable (_ → _))

instance TextFits.decidable (m : Vmode) : ∀ s undone x y, Decidable (TextFits m s undone x y)
  | [], _, _, _ => inferInstanceAs (Decidable (_ → _ ∧ (_ → _)))
  | c :: s, undone, x, y =>
    have := TextFits.decidable m s s 0 (m.nextLine y)
    have := TextFits.decidable m s undone x y
    inferInstanceAs (Decidable (if c = '\n'.toUInt8 then _ ∧ _ ∧ _ else _))

/-- A string can be printed at the cursor. -/
def Video.Fits (m : Vmode) (v : Video) (s : List UInt8) : Prop := TextFits m s s v.posX v.posY

instance (m : Vmode) (v : Video) (s : List UInt8) : Decidable (v.Fits m s) :=
  TextFits.decidable m s s v.posX v.posY

/-! ## The framebuffer -/

/-- A framebuffer of whole lines in the address space, with a line of text at least. -/
structure Vmode.Sound (m : Vmode) : Prop where
  placed : m.addr.toNat + m.size ≤ 2 ^ 32
  tall : 16 ≤ m.height.toNat
  margin : m.xmargin = 0
  line : m.lineBytes.toNat = 4 * m.width.toNat
  lines : m.lineBytes.toNat * m.height.toNat ≤ m.size

/-- The cursor is on the screen. -/
structure Video.OnScreen (m : Vmode) (v : Video) : Prop where
  row : v.posY.toNat + 16 ≤ m.height.toNat
  column : v.posX.toNat ≤ 4 * m.width.toNat

section Geometry

variable {addr rowb height : UInt32} (pixels : Bytes)

theorem loaderInit_sound (hheight : 16 ≤ height.toNat)
    (hplace : addr.toNat + rowb.toNat * height.toNat ≤ 2 ^ 32) :
    (loaderInit addr rowb height pixels).1.Sound := by
  have hrowb := rowb.toNat_lt
  have hwidth : (rowb / 4).toNat = rowb.toNat / 4 := UInt32.toNat_div rowb 4
  have hline : ((rowb / 4) * 4).toNat = 4 * (rowb / 4).toNat := by
    rw [UInt32.toNat_mul, hwidth, Nat.mul_comm, show (4 : UInt32).toNat = 4 from rfl,
      Nat.mod_eq_of_lt (by omega)]
  have hle : ((rowb / 4) * 4).toNat ≤ rowb.toNat := by
    rw [hline, hwidth]
    exact Nat.mul_div_le _ _
  exact ⟨hplace, hheight, rfl, hline, Nat.mul_le_mul_right _ hle⟩

theorem loaderInit_onScreen (hheight : 16 ≤ height.toNat) :
    (loaderInit addr rowb height pixels).2.OnScreen (loaderInit addr rowb height pixels).1 :=
  ⟨by show 0 + 16 ≤ height.toNat; omega, Nat.zero_le _⟩

end Geometry

section Bounds

variable {m : Vmode} {p q rgba : UInt32} {fDouble : Bool} {c : UInt8} {s undone : List UInt8}
  {pixels : Bytes} {v : Video}

theorem Vmode.offset_of_le {n : Nat} (h : (p - m.addr).toNat + n ≤ m.size) :
    m.offset p n = .ok (p - m.addr).toNat := if_pos h

/-- Further on in the framebuffer. -/
theorem Vmode.Sound.offset_add (hm : m.Sound) {k n : Nat} (hn : 0 < n)
    (h : (p - m.addr).toNat + k + n ≤ m.size) :
    m.offset (p + UInt32.ofNat k) n = .ok ((p - m.addr).toNat + k) := by
  have hplaced := hm.placed
  have hk : (p + UInt32.ofNat k - m.addr).toNat = (p - m.addr).toNat + k := by
    have hcomm : p + UInt32.ofNat k - m.addr = p - m.addr + UInt32.ofNat k := by
      rw [UInt32.sub_eq_add_neg, UInt32.sub_eq_add_neg, UInt32.add_assoc, UInt32.add_assoc,
        UInt32.add_comm (UInt32.ofNat k)]
    rw [hcomm, UInt32.toNat_add, UInt32.toNat_ofNat', Nat.add_mod_mod, Nat.mod_eq_of_lt (by omega)]
  rw [← hk]
  exact Vmode.offset_of_le (by omega)

/-! ## Drawing a glyph -/

/-- The next column, or row, is another one of the bitmap, or not. -/
theorem succ_div_scale (fDouble : Bool) (n k : Nat) :
    (if fDouble then if n % 2 = 1 then k + 1 else k else k + 1) + n / scale fDouble =
      k + (n + 1) / scale fDouble := by
  cases fDouble with
  | false => simp [scale]; omega
  | true =>
    simp only [scale, if_true]
    split_ifs <;> omega

theorem ofNat_add_four (p : UInt32) (k n : Nat) :
    p + UInt32.ofNat (k + 4 * n) + 4 = p + UInt32.ofNat (k + 4 * (n + 1)) := by
  rw [UInt32.add_assoc, show (4 : UInt32) = UInt32.ofNat 4 from rfl, ← UInt32.ofNat_add]
  rfl

/-- A row of a glyph is drawn when its pixels are in the framebuffer. -/
theorem overlayColumns_ok (hm : m.Sound) {nStart row : Nat} {k n n1 : Nat} {dest : UInt32}
    (hn1 : n1 = nStart + n / scale fDouble) (hdest : dest = p + UInt32.ofNat (row + 4 * n))
    (h : ∀ j, n ≤ j → j < n + k → charsetPixel (nStart + j / scale fDouble) ≠ 0 →
      (p - m.addr).toNat + (row + 4 * j) + 4 ≤ m.size) :
    ∃ pixels', overlayColumns m rgba fDouble k n n1 dest pixels = .ok pixels' := by
  induction k generalizing n n1 dest pixels with
  | zero => exact ⟨pixels, rfl⟩
  | succ k ih =>
    have hn1' : (if fDouble then if n % 2 = 1 then n1 + 1 else n1 else n1 + 1) =
        nStart + (n + 1) / scale fDouble := by
      have := succ_div_scale fDouble n nStart
      rw [← this, hn1]
      split_ifs <;> omega
    have hdest' : dest + 4 = p + UInt32.ofNat (row + 4 * (n + 1)) := by
      rw [hdest, ofNat_add_four]
    have hrest : ∀ j, n + 1 ≤ j → j < n + 1 + k → charsetPixel (nStart + j / scale fDouble) ≠ 0 →
        (p - m.addr).toNat + (row + 4 * j) + 4 ≤ m.size := fun j hj hj' =>
      h j (by omega) (by omega)
    unfold overlayColumns
    by_cases hb : charsetPixel n1 = 0
    · simp only [hb, ne_eq, not_true_eq_false, if_false, pure_eq_ok, ok_bind]
      exact ih hn1' hdest' hrest
    · have hin := h n le_rfl (by omega) (hn1 ▸ hb)
      rw [hdest] at *
      simp only [ne_eq, hb, not_false_eq_true, if_true, hm.offset_add (by decide) hin, ok_bind,
        pure_eq_ok]
      exact ih hn1' hdest' hrest

/-- A glyph is drawn when its pixels are in the framebuffer. -/
theorem overlayRows_ok (hm : m.Sound) {lineBytes : UInt32} {nStart nWidth k y n1 : Nat}
    {dest : UInt32} (hn1 : n1 = nStart + uiPixelsX * (y / scale fDouble))
    (hdest : dest = p + UInt32.ofNat (y * lineBytes.toNat))
    (h : ∀ i j, y ≤ i → i < y + k → j < nWidth →
      charsetPixel (nStart + uiPixelsX * (i / scale fDouble) + j / scale fDouble) ≠ 0 →
      (p - m.addr).toNat + (i * lineBytes.toNat + 4 * j) + 4 ≤ m.size) :
    ∃ pixels', overlayRows m lineBytes rgba fDouble nWidth k y n1 dest pixels = .ok pixels' := by
  induction k generalizing y n1 dest pixels with
  | zero => exact ⟨pixels, rfl⟩
  | succ k ih =>
    have hn1' : (if fDouble then if y % 2 = 1 then n1 + uiPixelsX else n1 else n1 + uiPixelsX) =
        nStart + uiPixelsX * ((y + 1) / scale fDouble) := by
      have := succ_div_scale fDouble y 0
      have hmul := congrArg (uiPixelsX * ·) this
      simp only [Nat.mul_add, Nat.zero_add] at hmul
      rw [← hmul, hn1]
      split_ifs <;> simp <;> omega
    have hdest' : dest + lineBytes = p + UInt32.ofNat ((y + 1) * lineBytes.toNat) := by
      rw [hdest, UInt32.add_assoc, Nat.succ_mul, UInt32.ofNat_add, UInt32.ofNat_toNat]
    have hcolumn : n1 = n1 + 0 / scale fDouble := by rw [Nat.zero_div, Nat.add_zero]
    have hstart : dest = p + UInt32.ofNat (y * lineBytes.toNat + 4 * 0) := hdest
    obtain ⟨pixels₁, hrow⟩ : ∃ pixels₁,
        overlayColumns m rgba fDouble nWidth 0 n1 dest pixels = .ok pixels₁ :=
      overlayColumns_ok hm hcolumn hstart fun j _ hj hpix =>
        h y j le_rfl (by omega) (by omega) (hn1 ▸ hpix)
    unfold overlayRows
    rw [hrow, ok_bind]
    exact ih hn1' hdest' fun i j hi hi' => h i j (by omega) (by omega)

theorem le_glyphReach {lineBytes y n : Nat} (hy : y < scale fDouble * uiPixelsY)
    (hn : n < scale fDouble * glyphWidth c) (h : glyphPixel c fDouble y n ≠ 0) :
    y * lineBytes + 4 * n + 4 ≤ glyphReach lineBytes c fDouble := by
  have hmem : (y, n) ∈ Finset.range (scale fDouble * uiPixelsY) ×ˢ
      Finset.range (scale fDouble * glyphWidth c) :=
    Finset.mem_product.mpr ⟨Finset.mem_range.mpr hy, Finset.mem_range.mpr hn⟩
  have hle := Finset.le_sup (f := fun yn : Nat × Nat =>
    if glyphPixel c fDouble yn.1 yn.2 ≠ 0 then yn.1 * lineBytes + 4 * yn.2 + 4 else 0) hmem
  rwa [if_pos h] at hle

/-- **A character that fits is drawn.** -/
theorem overlayCharacter_ok (hm : m.Sound) (h : CharFits m p c fDouble) :
    ∃ pixels', overlayCharacter m p m.lineBytes rgba c fDouble pixels =
      .ok (charWidth m.lineBytes p c fDouble, pixels') := by
  unfold overlayCharacter charWidth
  by_cases htab : c = '\t'.toUInt8
  · rw [if_pos htab, if_pos htab, if_neg (h.1 htab)]
    exact ⟨pixels, rfl⟩
  · rw [if_neg htab, if_neg htab]
    dsimp only
    by_cases hlow : c < '!'.toUInt8
    · have hnone : hasGlyph c = false := by
        rw [hasGlyph, decide_eq_false (UInt8.not_le.mpr hlow), Bool.false_and]
      rw [if_pos hlow, hnone]
      exact ⟨pixels, rfl⟩
    · by_cases hhigh : '~'.toUInt8 < c
      · have hnone : hasGlyph c = false := by
          rw [hasGlyph, decide_eq_false (UInt8.not_le.mpr hhigh), Bool.and_false]
        rw [if_neg hlow, if_pos hhigh, hnone]
        exact ⟨pixels, rfl⟩
      · have hglyph : hasGlyph c = true := by
          rw [hasGlyph, decide_eq_true (UInt8.not_lt.mp hlow),
            decide_eq_true (UInt8.not_lt.mp hhigh), Bool.and_self]
        have hwidth : (if fDouble then 2 * glyphWidth c else glyphWidth c) =
            scale fDouble * glyphWidth c := by cases fDouble <;> simp [scale]
        have hheight : (if fDouble then 2 * uiPixelsY else uiPixelsY) =
            scale fDouble * uiPixelsY := by cases fDouble <;> simp [scale]
        rw [if_neg hlow, if_neg hhigh, hwidth, hheight, if_pos hglyph]
        have hreach := h.2 hglyph
        have hcolumn : glyphStart c = glyphStart c + uiPixelsX * (0 / scale fDouble) := by simp
        have hrow : p = p + UInt32.ofNat (0 * m.lineBytes.toNat) := by simp
        obtain ⟨pixels', hrows⟩ : ∃ pixels', overlayRows m m.lineBytes rgba fDouble
            (scale fDouble * glyphWidth c) (scale fDouble * uiPixelsY) 0 (glyphStart c) p pixels =
              .ok pixels' :=
          overlayRows_ok hm hcolumn hrow fun i j _ hi hj hpix => by
            rw [Nat.zero_add] at hi
            have hle : i * m.lineBytes.toNat + 4 * j + 4 ≤ _ := le_glyphReach hi hj hpix
            omega
        rw [hrows]
        exact ⟨pixels', rfl⟩

/-- **A line that fits is drawn.** -/
theorem overlayString_ok (hm : m.Sound) {w : UInt32} (h : LineFits m p s fDouble w) :
    ∃ pixels', overlayString m p m.lineBytes rgba s fDouble w pixels =
      .ok (lineWidth m.lineBytes p s fDouble w, pixels') := by
  induction s generalizing fDouble w pixels with
  | nil => exact ⟨pixels, rfl⟩
  | cons c s ih =>
    unfold LineFits at h
    unfold overlayString lineWidth
    by_cases hend : c = '\n'.toUInt8
    · rw [if_pos hend, if_pos hend]
      exact ⟨pixels, rfl⟩
    · rw [if_neg hend] at h
      rw [if_neg hend, if_neg hend]
      by_cases htoggle : c = 2
      · rw [if_pos htoggle] at h
        rw [if_pos htoggle, if_pos htoggle]
        exact ih h
      · rw [if_neg htoggle] at h
        rw [if_neg htoggle, if_neg htoggle]
        obtain ⟨pixels₁, hchar⟩ : ∃ pixels₁, overlayCharacter m (p + 4 * w) m.lineBytes rgba c
            fDouble pixels = .ok (charWidth m.lineBytes (p + 4 * w) c fDouble, pixels₁) :=
          overlayCharacter_ok hm h.1
        rw [hchar, ok_bind]
        exact ih h.2

theorem drawText_ok (hm : m.Sound) (h : LineFits m (m.at v.posX v.posY) s false 0) :
    ∃ pixels', drawText m s v = .ok (lineWidth m.lineBytes (m.at v.posX v.posY) s false 0,
      { v with pixels := pixels' }) := by
  obtain ⟨pixels', hdraw⟩ : ∃ pixels', overlayString m (m.at v.posX v.posY) m.lineBytes v.attr s
      false 0 v.pixels =
        .ok (lineWidth m.lineBytes (m.at v.posX v.posY) s false 0, pixels') :=
    overlayString_ok hm h
  refine ⟨pixels', ?_⟩
  unfold drawText
  show (overlayString m (m.at v.posX v.posY) m.lineBytes v.attr s false 0 v.pixels >>= _) = _
  rw [hdraw]
  rfl

/-! ## The next line -/

/-- A pointer at most `k` bytes into the framebuffer. -/
theorem Vmode.offset_ok {k n : Nat} {d : UInt32} (hd : d.toNat ≤ k) (h : k + n ≤ m.size) :
    ∃ off, m.offset (m.addr + d) n = .ok off ∧ off ≤ k := by
  have hsub : m.addr + d - m.addr = d := by
    rw [UInt32.add_comm, UInt32.add_sub_cancel]
  refine ⟨(m.addr + d - m.addr).toNat, Vmode.offset_of_le ?_, ?_⟩
  · rw [hsub]
    omega
  · rw [hsub]
    exact hd

theorem toNat_mul_le (a b : UInt32) : (a * b).toNat ≤ a.toNat * b.toNat := by
  rw [UInt32.toNat_mul]
  exact Nat.mod_le _ _

/-- The next line is on the screen too, and it is this one when the text scrolls. -/
theorem Vmode.Sound.nextLine (hm : m.Sound) {y : UInt32} (hy : y.toNat + 16 ≤ m.height.toNat) :
    (m.nextLine y).toNat + 16 ≤ m.height.toNat ∧
      (m.height - 16 < y + 16 → m.nextLine y = y ∧ y + 16 - 16 = y) ∧
      (¬ m.height - 16 < y + 16 → m.nextLine y = y + 16) := by
  have htall := hm.tall
  have hheight := m.height.toNat_lt
  have hback : y + 16 - 16 = y := UInt32.add_sub_cancel y 16
  have hadd : (y + 16).toNat = y.toNat + 16 ∨ 2 ^ 32 ≤ y.toNat + 16 := by
    rw [UInt32.toNat_add, show (16 : UInt32).toNat = 16 from rfl]
    omega
  have hsub : (m.height - 16).toNat = m.height.toNat - 16 :=
    UInt32.toNat_sub_of_le _ _ (UInt32.le_iff_toNat_le.mpr htall)
  unfold Vmode.nextLine
  by_cases hlast : m.height - 16 < y + 16
  · rw [if_pos hlast, hback]
    exact ⟨hy, fun _ => ⟨rfl, rfl⟩, fun h => absurd hlast h⟩
  · rw [if_neg hlast]
    refine ⟨?_, fun h => absurd h hlast, fun _ => rfl⟩
    rw [UInt32.lt_iff_toNat_lt, hsub] at hlast
    omega

/-- **The next line** is reached inside the framebuffer. -/
theorem newLine_ok (hm : m.Sound) (hv : v.posY.toNat + 16 ≤ m.height.toNat)
    (hscroll : ScrollFits m v.posY) :
    ∃ pixels', newLine m v =
      .ok { v with posX := 0, posY := m.nextLine v.posY, pixels := pixels' } := by
  obtain ⟨hrow, hlast, hnext⟩ := hm.nextLine hv
  have hlines : ∀ k, k ≤ m.height.toNat → m.lineBytes.toNat * k ≤ m.size := fun k hk =>
    (Nat.mul_le_mul_left _ hk).trans hm.lines
  -- The new line is cleared.
  have hclean : ∀ pixels, ∃ pixels', cleanLine m (m.addr + m.nextLine v.posY * m.lineBytes)
      m.width pixels = .ok pixels' := by
    intro pixels
    have hend := hlines _ hrow
    rw [Nat.mul_add] at hend
    obtain ⟨off, hoff, -⟩ := Vmode.offset_ok (toNat_mul_le (m.nextLine v.posY) m.lineBytes)
      (m := m) (n := uiPixelsY * (4 * m.width.toNat)) (by
        rw [← hm.line, uiPixelsY, Nat.mul_comm (m.nextLine v.posY).toNat, Nat.mul_comm 16]
        exact hend)
    unfold cleanLine
    dsimp only
    rw [hoff]
    exact ⟨_, rfl⟩
  unfold newLine
  dsimp only
  rw [hm.margin]
  by_cases hbottom : m.height - 16 < v.posY + 16
  · obtain ⟨hsame, hback⟩ := hlast hbottom
    rw [hsame] at hclean ⊢
    rw [if_pos hbottom, hback]
    have hcount := toNat_mul_le v.posY m.lineBytes
    have hlt := hscroll hbottom
    have hend := hlines _ hv
    rw [Nat.mul_add, Nat.mul_comm _ v.posY.toNat, Nat.mul_comm _ 16] at hend
    have hdst : (m.addr - m.addr).toNat + (v.posY * m.lineBytes).toNat ≤ m.size := by
      rw [UInt32.sub_self, UInt32.toNat_zero]
      omega
    obtain ⟨off, hsrc, -⟩ := Vmode.offset_ok (toNat_mul_le 16 m.lineBytes) (m := m)
      (n := (v.posY * m.lineBytes).toNat) (by rw [show (16 : UInt32).toNat = 16 from rfl]; omega)
    have hpos : ¬ (v.posY * m.lineBytes).toInt32 < 0 := by
      rw [Int32.lt_iff_toInt_lt, toInt_toInt32_of_lt (by omega), Int32.toInt_zero]
      omega
    have hcopy : scrollMemcpy m m.addr (m.addr + 16 * m.lineBytes) (v.posY * m.lineBytes)
        v.pixels = .ok (v.pixels.copyUp (m.addr - m.addr).toNat off
          (v.posY * m.lineBytes).toNat) := by
      unfold scrollMemcpy
      rw [if_neg hpos, Vmode.offset_of_le hdst, ok_bind, hsrc]
      rfl
    obtain ⟨pixels', hclean⟩ := hclean (v.pixels.copyUp (m.addr - m.addr).toNat off
      (v.posY * m.lineBytes).toNat)
    rw [hcopy]
    simp only [ok_bind, pure_eq_ok, hclean]
    exact ⟨pixels', rfl⟩
  · obtain ⟨pixels', hclean⟩ := hclean v.pixels
    rw [if_neg hbottom, ← hnext hbottom]
    simp only [ok_bind, pure_eq_ok, hclean]
    exact ⟨pixels', rfl⟩

/-! ## Printing -/

theorem chunkLoop_ok (hm : m.Sound) (hv : v.OnScreen m)
    (h : TextFits m s undone v.posX v.posY) :
    ∃ undone' v', chunkLoop m s undone v = .ok (undone', v') ∧ v'.OnScreen m ∧
      TextFits m [] undone' v'.posX v'.posY := by
  induction s generalizing undone v with
  | nil => exact ⟨undone, v, rfl, hv, h⟩
  | cons c s ih =>
    unfold TextFits at h
    unfold chunkLoop
    by_cases hend : c = '\n'.toUInt8
    · rw [if_pos hend] at h
      obtain ⟨hline, hscroll, hrest⟩ := h
      obtain ⟨pixels₁, hdraw⟩ := drawText_ok hm hline
      obtain ⟨pixels₂, hnew⟩ := newLine_ok (v := { v with pixels := pixels₁ }) hm hv.row hscroll
      rw [if_pos hend, hdraw]
      simp only [ok_bind, hnew]
      exact ih ⟨(hm.nextLine hv.row).1, Nat.zero_le _⟩ hrest
    · rw [if_neg hend] at h
      rw [if_neg hend]
      exact ih hv h

/-- **A string that fits is printed**, and leaves the cursor on the screen. -/
theorem chunkedPrint_ok (hm : m.Sound) (hv : v.OnScreen m) (h : v.Fits m s) :
    ∃ v', chunkedPrint m s v = .ok v' ∧ v'.OnScreen m := by
  obtain ⟨undone, v₁, hloop, hv₁, hlast⟩ := chunkLoop_ok hm hv h
  unfold chunkedPrint
  rw [hloop, ok_bind]
  dsimp only
  by_cases hdone : undone = []
  · rw [if_neg (not_not.mpr hdone)]
    exact ⟨v₁, rfl, hv₁⟩
  · rw [if_pos hdone]
    obtain ⟨hline, hscroll⟩ := hlast hdone
    obtain ⟨pixels₁, hdraw⟩ := drawText_ok hm hline
    simp only [hdraw, ok_bind, hm.margin, UInt32.sub_zero]
    split_ifs with hwrap
    · obtain ⟨pixels₂, hnew⟩ := newLine_ok (v := { v₁ with
        posX := v₁.posX + lineWidth m.lineBytes (m.at v₁.posX v₁.posY) undone false 0 <<< 2,
        pixels := pixels₁ }) hm hv₁.row (hscroll hwrap)
      rw [hnew]
      exact ⟨_, rfl, (hm.nextLine hv₁.row).1, Nat.zero_le _⟩
    · refine ⟨_, rfl, hv₁.row, ?_⟩
      have hwidth : (m.width <<< 2).toNat ≤ 4 * m.width.toNat := by
        rw [UInt32.toNat_shiftLeft]
        show m.width.toNat <<< 2 % 2 ^ 32 ≤ _
        rw [Nat.shiftLeft_eq, Nat.mul_comm]
        exact Nat.mod_le _ _
      exact (UInt32.le_iff_toNat_le.mp (UInt32.not_lt.mp hwrap)).trans hwidth

end Bounds

/-! ## Sessions -/

/-- A string that fits is printed. -/
def PrintStep (m : Vmode) (v : Video) (s : List UInt8) (v' : Video) : Prop :=
  v.Fits m s ∧ chunkedPrint m s v = .ok v'

/-- **Everything that is drawn lies on the screen**, and so does the cursor behind each call, from
the cleared screen on, whatever has been printed, as long as the strings fit. -/
theorem chunkedPrint_inside {addr rowb height : UInt32} (pixels : Bytes)
    (hheight : 16 ≤ height.toNat) (hplace : addr.toNat + rowb.toNat * height.toNat ≤ 2 ^ 32)
    {v : Video} (hrun : Reaches (PrintStep (loaderInit addr rowb height pixels).1)
      (loaderInit addr rowb height pixels).2 v) :
    v.OnScreen (loaderInit addr rowb height pixels).1 ∧
      ∀ s, v.Fits (loaderInit addr rowb height pixels).1 s →
        ∃ v', chunkedPrint (loaderInit addr rowb height pixels).1 s v = .ok v' ∧
          v'.OnScreen (loaderInit addr rowb height pixels).1 := by
  have hm := loaderInit_sound pixels hheight hplace
  have hv : v.OnScreen (loaderInit addr rowb height pixels).1 :=
    hrun.invariant (loaderInit_onScreen pixels hheight) fun x s y hx hstep => by
      obtain ⟨y', hy', hon⟩ := chunkedPrint_ok hm hx hstep.1
      cases hy'.symm.trans hstep.2
      exact hon
  exact ⟨hv, fun s hs => chunkedPrint_ok hm hv hs⟩

/-- A screen of 128 times 16 pixels, with one line of text. -/
def lineScreen : Vmode × Video := loaderInit 0x40000000 512 16 fun _ => 0

/-- A text of four characters on it. -/
theorem chunkedPrint_inside_line :
    ∃ v', chunkedPrint lineScreen.1 (ascii "a\tb\n") lineScreen.2 = .ok v' ∧
      v'.OnScreen lineScreen.1 :=
  (chunkedPrint_inside (fun _ => 0) (by decide) (by decide) (Reaches.refl lineScreen.2)).2
    (ascii "a\tb\n") (by decide +kernel)

/-- A glyph of double size is 32 lines high. -/
theorem doubleSize_outside :
    ¬ ∃ v', chunkedPrint lineScreen.1 [2, 'A'.toUInt8] lineScreen.2 = .ok v' := by
  rintro ⟨v', h⟩
  have hfault : (chunkedPrint lineScreen.1 [2, 'A'.toUInt8] lineScreen.2).isOk = false := by
    decide +kernel
  rw [h] at hfault
  cases hfault

end MbBootTv

import MbBootTv.Console.Screen

/-!
# Printing in pieces

A piece of a line that is printed leaves the cursor behind it, so the rest of the line can be
printed by another call; only a piece that ends beyond the line wraps. When no line of a text is
that long, it does not matter where the text is cut (`chunkedPrint_append`).
-/

namespace MbBootTv

/-- `(vmode.width - vmode.xmargin) << 2`: how far a line goes, in bytes. -/
def Vmode.lineEnd (m : Vmode) : UInt32 := (m.width - m.xmargin) <<< 2

/-- The width in pixels of the line that is drawn at `p`, when `w` of them are done. -/
def textWidth (lineBytes p : UInt32) : List UInt8 → Nat → Nat
  | [], w => w
  | c :: s, w =>
    if c = '\n'.toUInt8 then w
    else textWidth lineBytes p s (w + (charWidth lineBytes (p + 4 * UInt32.ofNat w) c false).toNat)

/-- No line of a text at `(x, y)` is too long; `line` is where the line in hand begins. -/
def LinesFit (m : Vmode) : List UInt8 → List UInt8 → UInt32 → UInt32 → Prop
  | [], line, x, y => x.toNat + 4 * textWidth m.lineBytes (m.at x y) line 0 ≤ m.lineEnd.toNat
  | c :: s, line, x, y =>
    if c = '\n'.toUInt8 then
      x.toNat + 4 * textWidth m.lineBytes (m.at x y) line 0 ≤ m.lineEnd.toNat ∧
        LinesFit m s s (m.xmargin <<< 2) (m.nextLine y)
    else LinesFit m s line x y

/-- No line of the screen text is too long when `s` is printed at the cursor. -/
def Video.LinesFit (m : Vmode) (v : Video) (s : List UInt8) : Prop :=
  MbBootTv.LinesFit m s s v.posX v.posY

instance LinesFit.decidable (m : Vmode) : ∀ s line x y, Decidable (LinesFit m s line x y)
  | [], _, _, _ => inferInstanceAs (Decidable (_ ≤ _))
  | c :: s, line, x, y =>
    have := LinesFit.decidable m s s (m.xmargin <<< 2) (m.nextLine y)
    have := LinesFit.decidable m s line x y
    inferInstanceAs (Decidable (if c = '\n'.toUInt8 then _ ∧ _ else _))

instance (m : Vmode) (v : Video) (s : List UInt8) : Decidable (v.LinesFit m s) :=
  LinesFit.decidable m s s v.posX v.posY

/-- The cursor behind `w` more pixels. -/
def Video.advance (v : Video) (w : UInt32) : Video := { v with posX := v.posX + w <<< 2 }

/-- The wrap behind the text. -/
def wrapLine (m : Vmode) (v : Video) : Except Fault Video :=
  if m.lineEnd < v.posX then newLine m v else .ok v

/-- What `BootVideoChunkedPrint` does behind its loop. -/
def finishPrint (m : Vmode) (undone : List UInt8) (v : Video) : Except Fault Video :=
  if undone ≠ [] then drawText m undone v >>= fun r => wrapLine m (r.2.advance r.1) else .ok v

section Pieces

variable {m : Vmode} {p lineBytes rgba : UInt32} {fDouble : Bool} {c : UInt8}
  {a b s t l : List UInt8} {pixels pixels' : Bytes} {v v' : Video}

/-! ## Pieces of a line -/

theorem four_mul_add (w u : UInt32) : p + 4 * (w + u) = p + 4 * w + 4 * u := by
  rw [UInt32.mul_add, UInt32.add_assoc]

theorem overlayString_cons (hend : c ≠ '\n'.toUInt8) (htoggle : c ≠ 2) (w : UInt32) :
    overlayString m p lineBytes rgba (c :: s) fDouble w pixels =
      overlayCharacter m (p + 4 * w) lineBytes rgba c fDouble pixels >>= fun r =>
        overlayString m p lineBytes rgba s fDouble (w + r.1) r.2 := by
  rw [overlayString, if_neg hend, if_neg htoggle]

/-- A text is drawn the same from where it stands. -/
theorem overlayString_shift (w u : UInt32) :
    overlayString m p lineBytes rgba s fDouble (w + u) pixels =
      (overlayString m (p + 4 * w) lineBytes rgba s fDouble u pixels).map
        fun r => (w + r.1, r.2) := by
  induction s generalizing fDouble u pixels with
  | nil => rfl
  | cons c s ih =>
    unfold overlayString
    by_cases hend : c = '\n'.toUInt8
    · rw [if_pos hend, if_pos hend]
      rfl
    · rw [if_neg hend, if_neg hend]
      by_cases htoggle : c = 2
      · rw [if_pos htoggle, if_pos htoggle]
        exact ih u
      · rw [if_neg htoggle, if_neg htoggle, four_mul_add]
        cases overlayCharacter m (p + 4 * w + 4 * u) lineBytes rgba c fDouble pixels with
        | error e => rfl
        | ok r =>
          obtain ⟨w', pixels₁⟩ := r
          simp only [ok_bind]
          rw [UInt32.add_assoc]
          exact ih (u + w')

/-- Two pieces of a line are drawn one after the other. -/
theorem overlayString_append (hend : '\n'.toUInt8 ∉ a) (htoggle : 2 ∉ a) (w : UInt32) :
    overlayString m p lineBytes rgba (a ++ b) false w pixels =
      overlayString m p lineBytes rgba a false w pixels >>= fun r =>
        overlayString m p lineBytes rgba b false r.1 r.2 := by
  induction a generalizing w pixels with
  | nil => rfl
  | cons c a ih =>
    obtain ⟨hc, hend⟩ := not_or.mp (List.mem_cons.not.mp hend)
    obtain ⟨hc2, htoggle⟩ := not_or.mp (List.mem_cons.not.mp htoggle)
    rw [List.cons_append, overlayString_cons (Ne.symm hc) (Ne.symm hc2),
      overlayString_cons (Ne.symm hc) (Ne.symm hc2)]
    cases overlayCharacter m (p + 4 * w) lineBytes rgba c false pixels with
    | error e => rfl
    | ok r => exact ih hend htoggle _

/-- What stands behind a newline is not drawn with the line. -/
theorem overlayString_of_mem (hend : '\n'.toUInt8 ∈ a) (w : UInt32) :
    overlayString m p lineBytes rgba (a ++ b) fDouble w pixels =
      overlayString m p lineBytes rgba a fDouble w pixels := by
  induction a generalizing fDouble w pixels with
  | nil => cases hend
  | cons c a ih =>
    rw [List.cons_append]
    unfold overlayString
    by_cases hc : c = '\n'.toUInt8
    · rw [if_pos hc, if_pos hc]
    · have hend' : '\n'.toUInt8 ∈ a := (List.mem_cons.mp hend).resolve_left (Ne.symm hc)
      rw [if_neg hc, if_neg hc]
      split_ifs with htoggle
      · exact ih hend' w
      · cases overlayCharacter m (p + 4 * w) lineBytes rgba c fDouble pixels with
        | error e => rfl
        | ok r => exact ih hend' _

/-! ## Its width -/

theorem overlayCharacter_width {w : UInt32}
    (h : overlayCharacter m p lineBytes rgba c fDouble pixels = .ok (w, pixels')) :
    w = charWidth lineBytes p c fDouble := by
  unfold overlayCharacter at h
  unfold charWidth
  by_cases htab : c = '\t'.toUInt8
  · rw [if_pos htab] at h ⊢
    split_ifs at h
    cases h
    rfl
  · rw [if_neg htab] at h ⊢
    dsimp only at h
    by_cases hlow : c < '!'.toUInt8
    · rw [if_pos hlow] at h
      cases h
      rw [hasGlyph, decide_eq_false (UInt8.not_le.mpr hlow), Bool.false_and]
      rfl
    · by_cases hhigh : '~'.toUInt8 < c
      · rw [if_neg hlow, if_pos hhigh] at h
        cases h
        rw [hasGlyph, decide_eq_false (UInt8.not_le.mpr hhigh), Bool.and_false]
        rfl
      · have hglyph : hasGlyph c = true := by
          rw [hasGlyph, decide_eq_true (UInt8.not_lt.mp hlow),
            decide_eq_true (UInt8.not_lt.mp hhigh), Bool.and_self]
        rw [if_neg hlow, if_neg hhigh] at h
        obtain ⟨pixels₁, -, h⟩ := bind_eq_ok.mp h
        cases h
        rw [if_pos hglyph]
        cases fDouble <;> simp [scale]

theorem overlayString_width {w : UInt32} {k : Nat} (htoggle : 2 ∉ s)
    (h : overlayString m p lineBytes rgba s false (UInt32.ofNat k) pixels = .ok (w, pixels')) :
    w = UInt32.ofNat (textWidth lineBytes p s k) := by
  induction s generalizing k pixels with
  | nil =>
    cases h
    rfl
  | cons c s ih =>
    obtain ⟨hc2, htoggle⟩ := not_or.mp (List.mem_cons.not.mp htoggle)
    unfold overlayString at h
    unfold textWidth
    by_cases hend : c = '\n'.toUInt8
    · rw [if_pos hend] at h ⊢
      cases h
      rfl
    · rw [if_neg hend, if_neg (Ne.symm hc2)] at h
      rw [if_neg hend]
      obtain ⟨⟨cw, pixels₁⟩, hchar, h⟩ := bind_eq_ok.mp h
      rw [overlayCharacter_width hchar] at h
      refine @ih pixels₁ _ htoggle ?_
      rw [UInt32.ofNat_add, UInt32.ofNat_toNat]
      exact h

theorem textWidth_cons (hend : c ≠ '\n'.toUInt8) (k : Nat) :
    textWidth lineBytes p (c :: s) k = textWidth lineBytes p s
      (k + (charWidth lineBytes (p + 4 * UInt32.ofNat k) c false).toNat) := if_neg hend

theorem le_textWidth (k : Nat) : k ≤ textWidth lineBytes p s k := by
  induction s generalizing k with
  | nil => exact le_rfl
  | cons c s ih =>
    unfold textWidth
    split_ifs
    · exact le_rfl
    · exact (Nat.le_add_right k _).trans (ih _)

theorem textWidth_append (hend : '\n'.toUInt8 ∉ a) (k : Nat) :
    textWidth lineBytes p (a ++ b) k = textWidth lineBytes p b (textWidth lineBytes p a k) := by
  induction a generalizing k with
  | nil => rfl
  | cons c a ih =>
    obtain ⟨hc, hend⟩ := not_or.mp (List.mem_cons.not.mp hend)
    rw [List.cons_append, textWidth_cons (Ne.symm hc), textWidth_cons (Ne.symm hc)]
    exact ih hend _

/-- The line in hand is not too long. -/
theorem LinesFit.line {x y : UInt32} (h : LinesFit m s l x y) :
    x.toNat + 4 * textWidth m.lineBytes (m.at x y) l 0 ≤ m.lineEnd.toNat := by
  induction s with
  | nil => exact h
  | cons c s ih =>
    unfold LinesFit at h
    split_ifs at h
    · exact h.1
    · exact ih h

/-! ## The cursor -/

theorem shiftLeft_two (w : UInt32) : w <<< 2 = 4 * w := by
  refine UInt32.toNat_inj.mp ?_
  rw [UInt32.toNat_shiftLeft, UInt32.toNat_mul, Nat.shiftLeft_eq, Nat.mul_comm]
  rfl

theorem cursor_advance (w : UInt32) : m.cursor (v.advance w) = m.cursor v + 4 * w := by
  unfold Vmode.cursor Video.advance
  rw [shiftLeft_two, UInt32.add_assoc, UInt32.add_assoc, UInt32.add_assoc]

theorem advance_advance (w u : UInt32) : (v.advance w).advance u = v.advance (w + u) := by
  unfold Video.advance
  dsimp only
  rw [shiftLeft_two, shiftLeft_two, shiftLeft_two, UInt32.mul_add, UInt32.add_assoc]

@[simp] theorem advance_zero : v.advance 0 = v := by
  unfold Video.advance
  rw [shiftLeft_two, UInt32.mul_zero, UInt32.add_zero]

theorem newLine_spec (h : newLine m v = .ok v') :
    v'.posX = m.xmargin <<< 2 ∧ v'.posY = m.nextLine v.posY := by
  unfold newLine at h
  unfold Vmode.nextLine
  dsimp only at h
  split_ifs at h ⊢ with hbottom
  · obtain ⟨pixels₁, -, h⟩ := bind_eq_ok.mp h
    rw [pure_eq_ok, ok_bind] at h
    obtain ⟨pixels₂, -, h⟩ := bind_eq_ok.mp h
    cases h
    exact ⟨rfl, rfl⟩
  · rw [pure_eq_ok, ok_bind] at h
    obtain ⟨pixels₂, -, h⟩ := bind_eq_ok.mp h
    cases h
    exact ⟨rfl, rfl⟩

theorem drawText_spec {r : UInt32 × Video} (h : drawText m s v = .ok r) :
    r.2 = { v with pixels := r.2.pixels } := by
  obtain ⟨⟨w, pixels₁⟩, -, h⟩ := bind_eq_ok.mp h
  cases h
  rfl

/-- Nothing is drawn of no text. -/
theorem drawText_nil : drawText m [] v = .ok (0, v) := rfl

/-- **Two pieces of a line** are drawn one behind the other. -/
theorem drawText_append {f : Video → Except Fault Video} (hend : '\n'.toUInt8 ∉ a)
    (htoggle : 2 ∉ a) :
    (drawText m (a ++ b) v >>= fun r => f (r.2.advance r.1)) =
      drawText m a v >>= fun r => drawText m b (r.2.advance r.1) >>= fun r =>
        f (r.2.advance r.1) := by
  unfold drawText
  rw [overlayString_append hend htoggle]
  cases overlayString m (m.cursor v) m.lineBytes v.attr a false 0 v.pixels with
  | error e => rfl
  | ok r =>
    obtain ⟨w, pixels₁⟩ := r
    have hshift : overlayString m (m.cursor v) m.lineBytes v.attr b false w pixels₁ =
        (overlayString m (m.cursor (v.advance w)) m.lineBytes v.attr b false 0 pixels₁).map
          fun r => (w + r.1, r.2) := by
      rw [cursor_advance, ← overlayString_shift, UInt32.add_zero]
    simp only [ok_bind, hshift]
    show ((overlayString m (m.cursor (v.advance w)) m.lineBytes v.attr b false 0 pixels₁).map _ >>= _)
      >>= _ = (overlayString m (m.cursor (v.advance w)) m.lineBytes v.attr b false 0 pixels₁ >>= _)
        >>= _
    cases overlayString m (m.cursor (v.advance w)) m.lineBytes v.attr b false 0 pixels₁ with
    | error e => rfl
    | ok r =>
      obtain ⟨u, pixels₂⟩ := r
      exact congrArg f (advance_advance (v := { v with pixels := pixels₂ }) w u).symm

theorem drawText_of_mem (hend : '\n'.toUInt8 ∈ a) : drawText m (a ++ b) v = drawText m a v := by
  unfold drawText
  rw [overlayString_of_mem hend]

/-! ## Pieces of a text -/

/-- **A piece in front of the next newline** can be drawn first. -/
theorem chunkLoop_join (ht : t ≠ []) (hend : '\n'.toUInt8 ∉ a) (htoggle : 2 ∉ a)
    (pre : List UInt8) (hpre : '\n'.toUInt8 ∉ pre) (h : pre ++ s = t) :
    (chunkLoop m s (a ++ t) v >>= fun r => finishPrint m r.1 r.2) =
      drawText m a v >>= fun r =>
        chunkLoop m s t (r.2.advance r.1) >>= fun r => finishPrint m r.1 r.2 := by
  induction s generalizing pre with
  | nil =>
    have hne : a ++ t ≠ [] := List.append_ne_nil_of_right_ne_nil a ht
    show finishPrint m (a ++ t) v = drawText m a v >>= fun r => finishPrint m t (r.2.advance r.1)
    unfold finishPrint
    rw [if_pos hne, drawText_append hend htoggle]
    simp only [if_pos ht]
  | cons c s ih =>
    unfold chunkLoop
    by_cases hc : c = '\n'.toUInt8
    · simp only [if_pos hc, bind_assoc]
      exact drawText_append (f := fun v => newLine m v >>= fun v =>
        chunkLoop m s s v >>= fun r => finishPrint m r.1 r.2) hend htoggle
    · simp only [if_neg hc]
      refine ih (pre ++ [c]) ?_ (by rw [← h, List.append_assoc, List.singleton_append])
      rw [List.mem_append, List.mem_singleton, not_or]
      exact ⟨hpre, Ne.symm hc⟩

/-- A piece of a line that is not too long leaves the cursor behind it. -/
theorem finishPrint_of_line (hend : '\n'.toUInt8 ∉ a) (htoggle : 2 ∉ a)
    (hline : v.posX.toNat + 4 * textWidth m.lineBytes (m.at v.posX v.posY) (a ++ b) 0 ≤
      m.lineEnd.toNat) :
    finishPrint m a v = drawText m a v >>= fun r => .ok (r.2.advance r.1) := by
  unfold finishPrint
  by_cases ha : a = []
  · rw [ha, if_neg (not_not.mpr rfl), drawText_nil, ok_bind, advance_zero]
  · rw [if_pos ha]
    refine bind_congr_ok fun r hr => if_neg (UInt32.not_lt.mpr (UInt32.le_iff_toNat_le.mpr ?_))
    obtain ⟨⟨w, pixels₁⟩, hdraw, h⟩ := bind_eq_ok.mp hr
    have hwidth : w = UInt32.ofNat (textWidth m.lineBytes (m.at v.posX v.posY) a 0) :=
      overlayString_width htoggle hdraw
    cases h
    rw [textWidth_append hend] at hline
    have hle : textWidth m.lineBytes (m.at v.posX v.posY) a 0 ≤ textWidth m.lineBytes
        (m.at v.posX v.posY) b (textWidth m.lineBytes (m.at v.posX v.posY) a 0) := le_textWidth _
    have hlt := m.lineEnd.toNat_lt
    show (v.posX + w <<< 2).toNat ≤ m.lineEnd.toNat
    rw [shiftLeft_two, hwidth, UInt32.toNat_add, UInt32.toNat_mul, UInt32.toNat_ofNat']
    show (v.posX.toNat + 4 * (_ % 2 ^ 32) % 2 ^ 32) % 2 ^ 32 ≤ _
    omega

/-- The first piece, up to its last line, and the rest. -/
theorem chunkLoop_append (pre : List UInt8) (htoggle : 2 ∉ pre ++ s) (hpre : '\n'.toUInt8 ∉ pre)
    (hfit : LinesFit m (s ++ t) (pre ++ s ++ t) v.posX v.posY) :
    (chunkLoop m (s ++ t) (pre ++ s ++ t) v >>= fun r => finishPrint m r.1 r.2) =
      (chunkLoop m s (pre ++ s) v >>= fun r => finishPrint m r.1 r.2) >>= chunkedPrint m t := by
  induction s generalizing pre v with
  | nil =>
    rw [List.append_nil] at *
    by_cases ht : t = []
    · have hnone : chunkedPrint m [] = fun v => Except.ok v := rfl
      rw [ht, hnone, List.append_nil, List.append_nil]
      exact (bind_pure _).symm
    · show (chunkLoop m t (pre ++ t) v >>= _) = finishPrint m pre v >>= _
      rw [chunkLoop_join ht hpre htoggle [] List.not_mem_nil (List.nil_append t),
        finishPrint_of_line hpre htoggle hfit.line, bind_assoc]
      rfl
  | cons c s ih =>
    rw [List.cons_append] at hfit ⊢
    unfold chunkLoop
    unfold LinesFit at hfit
    by_cases hc : c = '\n'.toUInt8
    · have hmem : '\n'.toUInt8 ∈ pre ++ c :: s := by simp [hc]
      rw [if_pos hc] at hfit
      simp only [if_pos hc, drawText_of_mem hmem, bind_assoc]
      refine bind_congr_ok fun r hr => bind_congr_ok fun v' hnew => ?_
      obtain ⟨hx, hy⟩ := newLine_spec hnew
      rw [drawText_spec hr] at hy
      have hrest := hfit.2
      rw [← hx, ← show v'.posY = m.nextLine v.posY from hy] at hrest
      have hs : 2 ∉ s := fun h2 =>
        htoggle (List.mem_append_right pre (List.mem_cons_of_mem c h2))
      exact (ih [] hs List.not_mem_nil hrest).trans (bind_assoc _ _ _)
    · rw [if_neg hc] at hfit
      simp only [if_neg hc]
      have hcons : pre ++ c :: s = pre ++ [c] ++ s := by simp
      rw [hcons] at hfit htoggle ⊢
      refine ih _ htoggle ?_ hfit
      rw [List.mem_append, List.mem_singleton, not_or]
      exact ⟨hpre, Ne.symm hc⟩

end Pieces

/-- **Printing in pieces is printing at once**, on every framebuffer and from every cursor, when no
line of the text is too long. -/
theorem chunkedPrint_append {m : Vmode} {v : Video} {s t : List UInt8} (htoggle : 2 ∉ s ++ t)
    (hfit : v.LinesFit m (s ++ t)) :
    chunkedPrint m (s ++ t) v = chunkedPrint m s v >>= chunkedPrint m t :=
  chunkLoop_append [] (fun h2 => htoggle (List.mem_append_left t h2)) List.not_mem_nil hfit

/-- A line in two pieces, and the next one. -/
theorem chunkedPrint_append_line :
    chunkedPrint lineScreen.1 (ascii "a\tb" ++ ascii "c\nd") lineScreen.2 =
      chunkedPrint lineScreen.1 (ascii "a\tb") lineScreen.2 >>=
        chunkedPrint lineScreen.1 (ascii "c\nd") :=
  chunkedPrint_append (by decide) (by decide +kernel)

end MbBootTv

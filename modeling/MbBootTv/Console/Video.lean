import MbBootTv.Console.Font
import MbBootTv.Console.Vsprintf
import MbBootTv.Lib.Region

/-!
# The console (`BootVideoHelpers.c`)

Text goes to the framebuffer, which is the `size` bytes from `addr` on; pointers are 32-bit words.
The cursor is a line of pixels and an offset in bytes in it. A string is the bytes in front of its
NUL.
-/

namespace MbBootTv

/-! ## The framebuffer -/

/-- `vmode`, with the place of the framebuffer. -/
structure Vmode where
  addr : UInt32
  size : Nat
  width : UInt32
  height : UInt32
  xmargin : UInt32

/-- `VIDEO_CURSOR_POSX`, `VIDEO_CURSOR_POSY` and `VIDEO_ATTR`, and what the framebuffer holds. -/
structure Video where
  posX : UInt32
  posY : UInt32
  attr : UInt32
  pixels : Bytes

/-- `vmode.width * 4` -/
def Vmode.lineBytes (m : Vmode) : UInt32 := m.width * 4

/-- Where the `n` bytes at the pointer `p` are in the framebuffer. -/
def Vmode.offset (m : Vmode) (p : UInt32) (n : Nat) : Except Fault Nat :=
  let off := (p - m.addr).toNat
  if off + n ≤ m.size then .ok off else .error .outOfBounds

/-- `loader_init` up to the first message, on a framebuffer of `height` lines of `rowb` bytes. -/
def loaderInit (addr rowb height : UInt32) (pixels : Bytes) : Vmode × Video :=
  let m : Vmode := ⟨addr, rowb.toNat * height.toNat, rowb / 4, height, 0⟩
  (m, ⟨0, 0, 0xffc8c8c8, pixels.fill 0 0 (m.width * m.height * 4).toNat⟩)

/-- `scroll_memcpy`; the count is an `int`. -/
def scrollMemcpy (m : Vmode) (dst src n : UInt32) (pixels : Bytes) : Except Fault Bytes :=
  if n.toInt32 < 0 then .error .outOfBounds
  else do
    let dst ← m.offset dst n.toNat
    let src ← m.offset src n.toNat
    return pixels.copyUp dst src n.toNat

/-! ## Characters -/

/-- The bytes of a pixel with `b1` parts of 16 of the colour. -/
def shade (rgba : UInt32) (b1 : Nat) : Bytes := fun i =>
  if i < 3 then UInt8.ofNat (b1 * (rgba.toNat / 256 ^ i % 256) / 16) else 0xff

/-- The loop over the columns of a glyph, with `k` of them from column `n` on. -/
def overlayColumns (m : Vmode) (rgba : UInt32) (fDouble : Bool) :
    Nat → Nat → Nat → UInt32 → Bytes → Except Fault Bytes
  | 0, _, _, _, pixels => .ok pixels
  | k + 1, n, n1, pbaDest, pixels => do
    let b1 := charsetPixel n1
    let n1 := if fDouble then if n % 2 = 1 then n1 + 1 else n1 else n1 + 1
    let pixels ← if b1 ≠ 0 then do
        let off ← m.offset pbaDest 4
        pure (pixels.copy off (shade rgba b1) 4)
      else pure pixels
    overlayColumns m rgba fDouble k (n + 1) n1 (pbaDest + 4) pixels

/-- The loop over the rows of a glyph, with `k` of them from row `y` on. -/
def overlayRows (m : Vmode) (lineBytes rgba : UInt32) (fDouble : Bool) (nWidth : Nat) :
    Nat → Nat → Nat → UInt32 → Bytes → Except Fault Bytes
  | 0, _, _, _, pixels => .ok pixels
  | k + 1, y, nStart, pbaDestStart, pixels => do
    let pixels ← overlayColumns m rgba fDouble nWidth 0 nStart pbaDestStart pixels
    let nStart := if fDouble then if y % 2 = 1 then nStart + uiPixelsX else nStart
      else nStart + uiPixelsX
    overlayRows m lineBytes rgba fDouble nWidth k (y + 1) nStart (pbaDestStart + lineBytes) pixels

/-- `BootVideoOverlayCharacter`: the width of the character in pixels. -/
def overlayCharacter (m : Vmode) (p lineBytes rgba : UInt32) (c : UInt8) (fDouble : Bool)
    (pixels : Bytes) : Except Fault (UInt32 × Bytes) :=
  if c = '\t'.toUInt8 then
    if lineBytes = 0 then .error .divByZero
    else
      let dw := p % lineBytes
      let dw1 := (dw + 1) % 128
      .ok ((128 - dw1) >>> 2, pixels)
  else
    let nSpace := if fDouble then 8 else 5
    if c < '!'.toUInt8 then .ok (nSpace, pixels)
    else if '~'.toUInt8 < c then .ok (nSpace, pixels)
    else do
      let nWidth := if fDouble then 2 * glyphWidth c else glyphWidth c
      let nHeight := if fDouble then 2 * uiPixelsY else uiPixelsY
      let pixels ← overlayRows m lineBytes rgba fDouble nWidth nHeight 0 (glyphStart c) p pixels
      return (UInt32.ofNat nWidth, pixels)

/-- `BootVideoOverlayString`, when `uiWidth` pixels are done. -/
def overlayString (m : Vmode) (p lineBytes rgba : UInt32) :
    List UInt8 → Bool → UInt32 → Bytes → Except Fault (UInt32 × Bytes)
  | [], _, uiWidth, pixels => .ok (uiWidth, pixels)
  | c :: s, fDouble, uiWidth, pixels =>
    if c = '\n'.toUInt8 then .ok (uiWidth, pixels)
    else if c = 2 then overlayString m p lineBytes rgba s (!fDouble) uiWidth pixels
    else do
      let (w, pixels) ← overlayCharacter m (p + 4 * uiWidth) lineBytes rgba c fDouble pixels
      overlayString m p lineBytes rgba s fDouble (uiWidth + w) pixels

/-! ## Lines -/

/-- `clean_line`: 16 lines of black pixels. -/
def cleanLine (m : Vmode) (s ppr : UInt32) (pixels : Bytes) : Except Fault Bytes := do
  let n := uiPixelsY * (4 * ppr.toNat)
  let off ← m.offset s n
  return pixels.copy off (fun i => if i % 4 = 3 then 0xff else 0) n

/-- The pointer to the cursor. -/
def Vmode.cursor (m : Vmode) (v : Video) : UInt32 := m.addr + v.posY * m.lineBytes + v.posX

/-- The next line: the text scrolls when there is none. -/
def newLine (m : Vmode) (v : Video) : Except Fault Video := do
  let posY := v.posY + 16
  let posX := m.xmargin <<< 2
  let (posY, pixels) ← if m.height - 16 < posY then do
      let posY := posY - 16
      let pixels ← scrollMemcpy m m.addr (m.addr + 16 * m.lineBytes) (posY * m.lineBytes) v.pixels
      pure (posY, pixels)
    else pure (posY, v.pixels)
  let pixels ← cleanLine m (m.addr + posY * m.lineBytes) m.width pixels
  return { v with posX := posX, posY := posY, pixels := pixels }

/-- Draw the text at the cursor. -/
def drawText (m : Vmode) (s : List UInt8) (v : Video) : Except Fault (UInt32 × Video) := do
  let (w, pixels) ← overlayString m (m.cursor v) m.lineBytes v.attr s false 0 v.pixels
  return (w, { v with pixels := pixels })

/-- The loop of `BootVideoChunkedPrint`, at `&szBuffer[n]`; `&szBuffer[nDone]` is where what is not
drawn begins. -/
def chunkLoop (m : Vmode) : List UInt8 → List UInt8 → Video → Except Fault (List UInt8 × Video)
  | [], undone, v => .ok (undone, v)
  | c :: s, undone, v =>
    if c = '\n'.toUInt8 then do
      let (_, v) ← drawText m undone v
      let v ← newLine m v
      chunkLoop m s s v
    else chunkLoop m s undone v

/-- `BootVideoChunkedPrint` -/
def chunkedPrint (m : Vmode) (szBuffer : List UInt8) (v : Video) : Except Fault Video := do
  let (undone, v) ← chunkLoop m szBuffer szBuffer v
  if undone ≠ [] then do
    let (w, v) ← drawText m undone v
    let v := { v with posX := v.posX + w <<< 2 }
    if (m.width - m.xmargin) <<< 2 < v.posX then newLine m v else return v
  else return v

/-! ## `printk` -/

/-- `sizeof (szBuffer)` -/
def szBufferSize : Nat := 1024

/-- The string that `printk` makes. The whole text is written to `szBuffer` before its length is
looked at. -/
def printkText (szFormat : List UInt8) (args : List Arg) : Except Fault (List UInt8) := do
  let out ← vsprintf szFormat args
  if szBufferSize < out.text.length + 1 then .error .overrun
  else
    let wLength := min (out.text.length % 65536) (szBufferSize - 1)
    return (out.text.take wLength).takeWhile (· ≠ 0)

/-- `printk` -/
def printk (m : Vmode) (szFormat : List UInt8) (args : List Arg) (v : Video) :
    Except Fault Video := do
  let szBuffer ← printkText szFormat args
  chunkedPrint m szBuffer v

/-- `putchar` -/
def putchar (m : Vmode) (c : UInt32) (v : Video) : Except Fault Video :=
  chunkedPrint m (if c.toUInt8 = 0 then [] else [c.toUInt8]) v

end MbBootTv

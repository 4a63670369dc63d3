import MbBootTv.Console.Printk

/-!
# The configuration file (`main.c`)

`parse_config` takes the text apart in place: it ends each line with a NUL, and `do_file` ends the
word that it takes with another one. The text stands in a block of `cap` bytes, of which `len` are
counted; the terminator goes behind them. The three strings are arrays of 1024 bytes, and either
counter may be `NULL`. With its terminator the text is one object, so `len` and its successor fit an
`int`.

Every line is printed before anything is done with it, and the values at the end. Of that the text
is followed, which has to fit the buffer of `printk`, and not what is drawn.
-/

namespace MbBootTv

/-- The length of `kernel`, `options` and `ramdisk`. -/
def optionSize : Nat := 1024

/-- What `parse_config` fills in. -/
structure Parsed where
  kernel : Bytes
  options : Bytes
  ramdisk : Bytes
  tryNetBoot : Option Nat
  forceDiskBoot : Option Nat

/-- The three arrays, initialised to `""`, and the counters. -/
def Parsed.fresh (tryNetBoot forceDiskBoot : Option Nat) : Parsed :=
  ⟨fun _ => 0, fun _ => 0, fun _ => 0, tryNetBoot, forceDiskBoot⟩

/-- `while (*ptr && is_space (*ptr)) ptr++` -/
def skipSpaces (b : Bytes) (cap ptr : Nat) : Except Fault Nat :=
  scan (fun x => x = 0 || !isSpace x) b ptr (cap - ptr)

/-- `while (*ptr && !is_space (*ptr)) ptr++` -/
def skipWord (b : Bytes) (cap ptr : Nat) : Except Fault Nat :=
  scan (fun x => x = 0 || isSpace x) b ptr (cap - ptr)

/-- `do_file`: the text, and the string `s`. -/
def doFile (b : Bytes) (cap l : Nat) (m : List UInt8) (s : Bytes) :
    Except Fault (Bytes × Bytes) := do
  match ← matchWord b cap l m with
  | none => return (b, s)
  | some ptr => do
    let ret ← skipSpaces b cap ptr
    let ptr ← skipWord b cap ret
    let b := b.fill ptr 0 1
    let s ← strcpy s optionSize b cap ret
    return (b, s)

/-- `do_line` -/
def doLine (b : Bytes) (cap l : Nat) (m : List UInt8) (s : Bytes) : Except Fault Bytes := do
  match ← matchWord b cap l m with
  | none => return s
  | some ptr => do
    let ptr ← skipSpaces b cap ptr
    strcpy s optionSize b cap ptr

/-- `if (counter && match (line, m)) (*counter)++` -/
def countLine (b : Bytes) (cap l : Nat) (m : List UInt8) (counter : Option Nat) :
    Except Fault (Option Nat) :=
  match counter with
  | none => .ok none
  | some n => do
    match ← matchWord b cap l m with
    | none => return some n
    | some _ => return some (n + 1)

/-- The call of `printk` for a line. -/
def lineCall (l : List UInt8) : PrintkCall := ⟨ascii "config: %s\n", [.str (some l)]⟩

/-- `parse_line` -/
def parseLine (b : Bytes) (cap line : Nat) (p : Parsed) : Except Fault (Bytes × Parsed) := do
  let len ← strlen b cap line
  (lineCall (b.slice line len)).run
  let (b, kernel) ← doFile b cap line (ascii "kernel") p.kernel
  let options ← doLine b cap line (ascii "options") p.options
  let options ← doLine b cap line (ascii "append") options
  let (b, ramdisk) ← doFile b cap line (ascii "ramdisk") p.ramdisk
  let (b, ramdisk) ← doFile b cap line (ascii "initrd") ramdisk
  let tryNetBoot ← countLine b cap line (ascii "try-net-boot") p.tryNetBoot
  let forceDiskBoot ← countLine b cap line (ascii "force-disk-boot") p.forceDiskBoot
  return (b, ⟨kernel, options, ramdisk, tryNetBoot, forceDiskBoot⟩)

/-- `for (i = 0; i < len; ++i)`, with `n` bytes from `i` on; the line starts at `j`. -/
def parseLoop (cap : Nat) : Nat → Nat → Nat → Bytes → Parsed → Except Fault (Bytes × Parsed)
  | 0, _, _, b, p => .ok (b, p)
  | n + 1, i, j, b, p => do
    let x ← loadByte b cap i
    if x = 10 || x = 0 then do
      let (b, p) ← parseLine (b.fill i 0 1) cap j p
      parseLoop cap n (i + 1) (i + 1) b p
    else parseLoop cap n (i + 1) j b p

/-- The calls of `printk` behind the loop. -/
def resultPrints (p : Parsed) : List PrintkCall :=
  [⟨ascii "kernel: %s\n", [.str (some (cString p.kernel optionSize))]⟩,
    ⟨ascii "options: %s\n", [.str (some (cString p.options optionSize))]⟩,
    ⟨ascii "ramdisk: %s\n", [.str (some (cString p.ramdisk optionSize))]⟩] ++
  p.tryNetBoot.toList.map (fun n => ⟨ascii "trynetboot: %d\n", [.word (UInt32.ofNat n)]⟩) ++
  p.forceDiskBoot.toList.map fun n => ⟨ascii "forcediskboot: %d\n", [.word (UInt32.ofNat n)]⟩

/-- `parse_config`: the text as it is left, and what it says. -/
def parseConfig (config : Bytes) (cap len : Nat) (p : Parsed) : Except Fault (Bytes × Parsed) :=
  if len < cap then do
    let (b, p) ← parseLoop cap (len + 1) 0 0 (config.fill len 0 1) p
    forM (resultPrints p) PrintkCall.run
    return (b, p)
  else .error .outOfBounds

end MbBootTv

import MbBootTv.Lib.Except
import MbBootTv.Lib.Region
import MbBootTv.Strings

/-!
# The hand-off to the kernel (`loader_init.c`, `system.c`, `sysdeps.h`)

`boot_kernel` works on one memory: it unpacks the kernel image at 1 MiB, fills in the boot
parameters on its stack, and `start_kernel` moves the ramdisk, the parameters and the descriptor
table to where the kernel looks for them. Addresses are those of a 32-bit machine.

`bootKernel` stops at the jump, and gives the memory as the kernel finds it.
-/

namespace MbBootTv

/-! ## `sysdeps_create_boot_params` -/

/-- What `bootparms`, which comes from the first loader, says. -/
structure BootParms where
  width : Int32
  height : Int32
  rowb : Int32
  addr : Int32
  efiMemMap : UInt32
  efiMemMapSize : UInt32
  efiMemDescSize : UInt32
  efiMemDescVer : UInt32
  efiSysTbl : UInt32

/-- An assignment to a field of `boot_params_t`, or a `MEMSET` of one. -/
structure Store where
  pos : Nat
  width : Nat
  val : Nat

/-- `kernel_start` -/
def kernelStart : Nat := 0x100000

/-- The offset of `initrd_start` in `boot_params_t`. -/
def initrdStartOffset : Nat := 0x218

/-- The offset of `initrd_size` in `boot_params_t`. -/
def initrdSizeOffset : Nat := 0x21C

/-- The offset of `cmdline_offset` in `boot_params_t`. -/
def cmdlineOffsetOffset : Nat := 0x22

/-- The assignments before those that concern the ramdisk. `cmdline` is an offset already. -/
def bootParamsHead (cmdline : Nat) : List Store :=
  let highExtMem := 32 * 1024 * 1024
  [⟨0x08, 2, 0⟩, ⟨0x0C, 2, 0⟩, -- unused_1, unused_2
    ⟨0x54, 0x2C, 0⟩, ⟨0xB2, 0x10E, 0⟩, ⟨0x1E4, 0x0D, 0⟩, -- unused_3, unused_4, unused_5
    ⟨0x1FE, 1, 0⟩, ⟨0x226, 2, 0⟩, -- unused_6, unused_7
    ⟨0x210, 1, 0x50⟩, -- loader_type
    ⟨0x20, 2, 0xA33F⟩, ⟨cmdlineOffsetOffset, 2, cmdline⟩, -- cmdline_magik, cmdline_offset
    ⟨0x228, 4, 0⟩, -- cmdline_addr
    ⟨0x80, 0x10, 0⟩, ⟨0x90, 0x10, 0⟩, -- hd0_info, hd1_info
    ⟨0x1E0, 4, highExtMem / 1024⟩, -- alt_mem_k
    ⟨0x02, 2, min (highExtMem / 1024) 65535⟩, -- ext_mem_k
    ⟨0x1F8, 2, 0⟩] -- ramdisk_flags

/-- The assignments that concern the ramdisk. -/
def bootParamsRamdisk (ramdisk ramdiskSize : Nat) : List Store :=
  if ramdisk ≠ 0 ∧ ramdiskSize ≠ 0 then
    [⟨initrdStartOffset, 4, ramdisk⟩, ⟨initrdSizeOffset, 4, ramdiskSize⟩,
      ⟨0x1FC, 2, 0x0100⟩] -- orig_root_dev
  else [⟨initrdStartOffset, 4, 0⟩, ⟨initrdSizeOffset, 4, 0⟩]

/-- The assignments behind those. -/
def bootParamsTail (hw : BootParms) : List Store :=
  [⟨0x40, 2, 0⟩, ⟨0x42, 2, 0⟩, ⟨0x44, 4, 0⟩, -- apm_bios_ver, bios_code_seg, bios_entry_point
    ⟨0x48, 2, 0⟩, ⟨0x4A, 2, 0⟩, ⟨0x4C, 2, 0⟩, -- bios_code_seg16, bios_data_seg, apm_bios_flags
    ⟨0x4E, 4, 0⟩, ⟨0x52, 2, 0⟩, -- bios_code_len, bios_data_len
    ⟨0xA0, 2, 0⟩, ⟨0xA2, 0x10, 0⟩, -- mca_info_len, mca_info_buf
    ⟨0x1FF, 1, 0⟩, -- aux_dev_info
    ⟨0x1C0, 4, 0x4C494645⟩, -- efi_loader_sig
    ⟨0x214, 4, kernelStart⟩, -- kernel_start
    ⟨0x00, 1, 0⟩, ⟨0x01, 1, 24⟩, -- orig_cursor_col, orig_cursor_row
    ⟨0x04, 2, 0⟩, ⟨0x06, 1, 3⟩, -- orig_video_page, orig_video_mode
    ⟨0x07, 1, 80⟩, ⟨0x0E, 1, 25⟩, -- orig_video_cols, orig_video_rows
    ⟨0x0A, 2, 0⟩, ⟨0x0F, 1, 0⟩, ⟨0x10, 2, 16⟩, -- orig_ega_bx, is_vga, orig_video_points
    ⟨0x12, 2, 0⟩, ⟨0x14, 2, 0⟩, ⟨0x16, 2, 0⟩, -- lfb_width, lfb_height, lfb_depth
    ⟨0x18, 4, 0⟩, ⟨0x1C, 4, 0⟩, ⟨0x24, 2, 0⟩, -- lfb_base, lfb_size, lfb_line_len
    ⟨0x26, 1, 0⟩, ⟨0x27, 1, 0⟩, ⟨0x28, 1, 0⟩, ⟨0x29, 1, 0⟩, -- lfb_red, lfb_green
    ⟨0x2A, 1, 0⟩, ⟨0x2B, 1, 0⟩, ⟨0x2C, 1, 0⟩, ⟨0x2D, 1, 0⟩, -- lfb_blue, lfb_rsvd
    ⟨0x32, 2, 0⟩, ⟨0x2E, 2, 0⟩, ⟨0x30, 2, 0⟩, -- lfb_pages, vesa_seg, vesa_off
    ⟨0x1D0, 4, hw.efiMemMap.toNat⟩, ⟨0x1D4, 4, hw.efiMemMapSize.toNat⟩,
    ⟨0x1C8, 4, hw.efiMemDescSize.toNat⟩, ⟨0x1CC, 4, hw.efiMemDescVer.toNat⟩,
    ⟨0x1C4, 4, hw.efiSysTbl.toNat⟩]

/-- Carry out assignments to the fields of the structure at `bp`. -/
def storeAll (bp : Nat) (stores : List Store) (mem : Bytes) : Bytes :=
  stores.foldl (fun mem s => mem.putLe (bp + s.pos) s.width s.val) mem

/-- `sysdeps_create_boot_params` -/
def sysdepsCreateBootParams (hw : BootParms) (mem : Bytes) (bp ramdisk ramdiskSize cmdline : Nat) :
    Bytes :=
  storeAll bp (bootParamsHead (cmdline - bp) ++ bootParamsRamdisk ramdisk ramdiskSize ++
    bootParamsTail hw) mem

/-! ## `start_kernel` -/

/-- Where the ramdisk goes. -/
def initrdTarget : Nat := 15 * 1024 * 1024

/-- `high_base_mem` -/
def highBaseMem : Nat := 0x90000

/-- `gdt_addr.base` -/
def gdtBase : Nat := 0x94000

/-- `gdt_addr.limit` -/
def gdtLimit : Nat := 0x800

/-- `init_gdt` -/
def initGdt : List Nat :=
  [0, 0, 0, 0, 0, 0, 0, 0, 0xFFFF, 0x0000, 0x9A00, 0x00CF, 0xFFFF, 0x0000, 0x9200, 0x00CF]

/-- The bytes of `init_gdt`. -/
def initGdtBytes : Bytes := fun i => UInt8.ofNat (initGdt.getD (i / 2) 0 / 256 ^ (i % 2))

/-- `sizeof_init_gdt` -/
def sizeofInitGdt : Nat := 2 * initGdt.length

/-- `BOOT_PARAM_MEMSIZE` -/
def bootParamMemsize : Nat := 16384

/-- The part of `start_kernel` that moves the ramdisk. -/
def relocateInitrd (mem : Bytes) (bp : Nat) : Bytes :=
  let start := mem.leNat (bp + initrdStartOffset) 4
  if start ≠ 0 then
    (mem.copyUp initrdTarget start (mem.leNat (bp + initrdSizeOffset) 4)).putLe
      (bp + initrdStartOffset) 4 initrdTarget
  else mem

/-- `start_kernel` up to the jump; `gdt` is the address of `init_gdt`. -/
def startKernel (mem : Bytes) (bp gdt : Nat) : Bytes :=
  let mem := relocateInitrd mem bp
  let mem := mem.copyUp highBaseMem bp bootParamMemsize
  let mem := mem.fill gdtBase 0 gdtLimit
  mem.copyUp gdtBase gdt sizeofInitGdt

/-! ## `boot_kernel` -/

/-- `KERNEL_BUFFER` -/
def kernelBuffer : Nat := 0x400000

/-- `BOOT_PARAM_MEMSIZE - 2048`, where the command line goes. -/
def cmdlineOffset : Nat := bootParamMemsize - 2048

/-- What the format says behind the options. -/
def videoOptions (hw : BootParms) : List UInt8 :=
  ascii " video=imacfb:appletv,width:" ++ decimal hw.width ++ ascii ",height:" ++
    decimal hw.height ++ ascii ",linelength:" ++ decimal hw.rowb ++ ascii ",base:" ++
    decimal hw.addr

/-- The `sprintf` of the command line to `dst`, from the options at `o`. -/
def sprintfCmdline (hw : BootParms) (mem : Bytes) (dst o : Nat) : Except Fault Bytes := do
  let len ← strlen mem (2 ^ 32) o
  let text := mem.slice o len ++ videoOptions hw
  if 2048 < text.length + 1 then .error .overrun
  else return mem.copy dst (fun i => text.getD i 0) (text.length + 1)

/-- The length of the boot sector and the setup area of the image at `k`. -/
def setupSize (mem : Bytes) (k : Nat) : Nat := ((mem (k + 0x1F1)).toNat + 1) * 512

/-- `boot_kernel` up to the jump, with its `szBootSect` at `bp`; nothing when it returns. -/
def bootKernel (hw : BootParms) (mem : Bytes) (bp gdt k kLen r rLen o : Nat) :
    Except Fault (Option Bytes) :=
  if mem (k + 0x1FE) ≠ 0x55 ∨ mem (k + 0x1FF) ≠ 0xAA then .ok none
  else do
    let mem := mem.fill kernelStart 0 kernelBuffer
    let setup := setupSize mem k
    if kLen < setup then .error .overrun
    let mem := mem.copy kernelStart (fun i => mem (k + setup + i)) (kLen - setup)
    let mem := mem.fill bp 0 bootParamMemsize
    let mem := mem.copy bp (fun i => mem (k + i)) 0x2000
    let mem ← sprintfCmdline hw mem (bp + cmdlineOffset) o
    let mem := sysdepsCreateBootParams hw mem bp r rLen (bp + cmdlineOffset)
    return some (startKernel mem bp gdt)

/-! ## The assignments -/

section Stores

variable {bp pos w n : Nat} {stores stores' : List Store} {mem b : Bytes}

theorem storeAll_append :
    storeAll bp (stores ++ stores') mem = storeAll bp stores' (storeAll bp stores mem) :=
  List.foldl_append

theorem storeAll_sameOff (h : ∀ s ∈ stores, s.pos + s.width ≤ n) :
    mem.SameOff (storeAll bp stores mem) bp n := by
  induction stores generalizing mem with
  | nil => exact fun _ _ => rfl
  | cons s stores ih =>
    have hs := h s List.mem_cons_self
    refine Bytes.SameOff.trans ?_ (ih fun x hx => h x (List.mem_cons_of_mem s hx))
    exact Bytes.SameOff.putLe.mono (Nat.le_add_right bp s.pos) (by omega)

/-- The assignments act on the structure wherever it stands. -/
theorem Bytes.Holds.storeAll (h : mem.Holds bp b n) :
    (storeAll bp stores mem).Holds bp (storeAll 0 stores b) n := by
  induction stores generalizing mem b with
  | nil => exact h
  | cons s stores ih =>
    have hput : storeAll 0 (s :: stores) b = storeAll 0 stores (b.putLe s.pos s.width s.val) := by
      unfold storeAll
      rw [List.foldl_cons, Nat.zero_add]
    rw [hput]
    exact ih h.putLe

/-- A field that the assignments leave alone. -/
theorem leNat_storeAll (h : ∀ s ∈ stores, pos + w ≤ s.pos ∨ s.pos + s.width ≤ pos) :
    (storeAll 0 stores b).leNat pos w = b.leNat pos w := by
  induction stores generalizing b with
  | nil => rfl
  | cons s stores ih =>
    have hs := h s List.mem_cons_self
    have hrest := ih (b := b.putLe (0 + s.pos) s.width s.val)
      fun x hx => h x (List.mem_cons_of_mem s hx)
    exact hrest.trans (Bytes.leNat_putLe_of_disjoint (by rw [Nat.zero_add]; exact hs))

/-- The last assignment to a field is what it holds. -/
theorem leNat_storeAll_last (stores : List Store) {v : Nat}
    (h : ∀ s ∈ stores', pos + w ≤ s.pos ∨ s.pos + s.width ≤ pos) :
    (storeAll 0 (stores ++ ⟨pos, w, v⟩ :: stores') b).leNat pos w = v % 256 ^ w := by
  rw [storeAll_append]
  show (storeAll 0 stores' ((storeAll 0 stores b).putLe (0 + pos) w v)).leNat pos w = _
  rw [leNat_storeAll h, Nat.zero_add, Bytes.leNat_putLe]

end Stores

/-- `sysdeps_create_boot_params` on a block at address 0. -/
def bootParamsStores (hw : BootParms) (ramdisk ramdiskSize : Nat) : List Store :=
  bootParamsHead cmdlineOffset ++ bootParamsRamdisk ramdisk ramdiskSize ++ bootParamsTail hw

section Fields

variable (hw : BootParms) {r rLen : Nat}

/-- The fields lie in front of the command line. -/
theorem bootParamsStores_inside : ∀ s ∈ bootParamsStores hw r rLen, s.pos + s.width ≤ 0x230 := by
  intro s hs
  unfold bootParamsStores at hs
  rw [List.mem_append, List.mem_append] at hs
  rcases hs with (hhead | hramdisk) | htail
  · revert s
    simp [bootParamsHead, cmdlineOffsetOffset]
  · unfold bootParamsRamdisk at hramdisk
    split_ifs at hramdisk <;> revert s <;> simp [initrdStartOffset, initrdSizeOffset]
  · revert s
    simp [bootParamsTail]

theorem bootParamsTail_apart {pos w : Nat} (h : pos = cmdlineOffsetOffset ∧ w = 2 ∨
    pos = initrdStartOffset ∧ w = 4 ∨ pos = initrdSizeOffset ∧ w = 4) :
    ∀ s ∈ bootParamsTail hw, pos + w ≤ s.pos ∨ s.pos + s.width ≤ pos := by
  rcases h with ⟨rfl, rfl⟩ | ⟨rfl, rfl⟩ | ⟨rfl, rfl⟩ <;>
    simp [bootParamsTail, cmdlineOffsetOffset, initrdStartOffset, initrdSizeOffset]

theorem leNat_cmdlineOffset {b : Bytes} :
    (storeAll 0 (bootParamsStores hw r rLen) b).leNat cmdlineOffsetOffset 2 = cmdlineOffset := by
  have hramdisk : ∀ s ∈ bootParamsRamdisk r rLen,
      cmdlineOffsetOffset + 2 ≤ s.pos ∨ s.pos + s.width ≤ cmdlineOffsetOffset := by
    unfold bootParamsRamdisk
    split_ifs <;> simp [cmdlineOffsetOffset, initrdStartOffset, initrdSizeOffset]
  unfold bootParamsStores
  rw [storeAll_append, leNat_storeAll (bootParamsTail_apart hw (.inl ⟨rfl, rfl⟩)), storeAll_append,
    leNat_storeAll hramdisk]
  refine (leNat_storeAll_last ((bootParamsHead cmdlineOffset).take 9) ?_).trans rfl
  simp [cmdlineOffsetOffset]

theorem leNat_initrdStart {b : Bytes} (hr : r < 2 ^ 32) :
    (storeAll 0 (bootParamsStores hw r rLen) b).leNat initrdStartOffset 4 =
      if r ≠ 0 ∧ rLen ≠ 0 then r else 0 := by
  unfold bootParamsStores
  rw [storeAll_append,
    leNat_storeAll (bootParamsTail_apart hw (.inr (.inl ⟨rfl, rfl⟩))), storeAll_append]
  unfold bootParamsRamdisk
  split_ifs
  · refine (leNat_storeAll_last [] ?_).trans (Nat.mod_eq_of_lt hr)
    simp [initrdStartOffset, initrdSizeOffset]
  · refine (leNat_storeAll_last [] ?_).trans rfl
    simp [initrdStartOffset, initrdSizeOffset]

theorem leNat_initrdSize {b : Bytes} (hrLen : r ≠ 0 → rLen < 2 ^ 32) :
    (storeAll 0 (bootParamsStores hw r rLen) b).leNat initrdSizeOffset 4 =
      if r ≠ 0 ∧ rLen ≠ 0 then rLen else 0 := by
  unfold bootParamsStores
  rw [storeAll_append,
    leNat_storeAll (bootParamsTail_apart hw (.inr (.inr ⟨rfl, rfl⟩))), storeAll_append]
  unfold bootParamsRamdisk
  split_ifs with h
  · refine (leNat_storeAll_last [⟨initrdStartOffset, 4, r⟩] ?_).trans
      (Nat.mod_eq_of_lt (hrLen h.1))
    simp [initrdSizeOffset]
  · refine (leNat_storeAll_last [⟨initrdStartOffset, 4, 0⟩] ?_).trans rfl
    simp

end Fields

/-! ## The command line -/

theorem videoOptions_length (hw : BootParms) : (videoOptions hw).length ≤ 98 := by
  have hwidth := decimal_length hw.width
  have hheight := decimal_length hw.height
  have hrowb := decimal_length hw.rowb
  have haddr := decimal_length hw.addr
  have hlits : (ascii " video=imacfb:appletv,width:").length = 28 ∧
      (ascii ",height:").length = 8 ∧ (ascii ",linelength:").length = 12 ∧
      (ascii ",base:").length = 6 := by decide
  unfold videoOptions
  simp only [List.length_append]
  omega

/-- The command line, from the options at `o`. -/
def commandLine (hw : BootParms) (mem : Bytes) (o oLen : Nat) : List UInt8 :=
  mem.slice o oLen ++ videoOptions hw

theorem commandLine_length (hw : BootParms) (mem : Bytes) {o oLen : Nat} (h : oLen ≤ 1023) :
    (commandLine hw mem o oLen).length ≤ 1121 := by
  have := videoOptions_length hw
  unfold commandLine
  rw [List.length_append, Bytes.slice_length]
  omega

/-- A string is as long wherever its bytes and its end are the same. -/
theorem strlen_holds {mem mem' : Bytes} {cap s len : Nat} (h : strlen mem cap s = .ok len)
    (hs : mem'.Holds s (fun i => mem (s + i)) (len + 1)) : strlen mem' cap s = .ok len := by
  obtain ⟨e, hscan, hlen⟩ := bind_eq_ok.1 h
  cases hlen
  obtain ⟨hse, hlt, hend, hmin⟩ := scan_eq_ok_iff.1 hscan
  have hsame : ∀ j, s ≤ j → j ≤ e → mem' j = mem j := fun j hsj hje => by
    have hj : mem' (s + (j - s)) = mem (s + (j - s)) := hs (j - s) (by omega)
    rwa [Nat.add_sub_cancel' hsj] at hj
  have hscan' : scan (· = 0) mem' s (cap - s) = .ok e := by
    refine scan_eq_ok_iff.2 ⟨hse, hlt, ?_, fun j hsj hje => ?_⟩
    · rw [hsame e hse le_rfl]
      exact hend
    · rw [hsame j hsj hje.le]
      exact hmin j hsj hje
  unfold strlen
  rw [hscan']
  rfl

/-- The command line is written where the options are what they were, if it fits. -/
theorem sprintfCmdline_eq {hw : BootParms} {mem mem' : Bytes} {dst o oLen : Nat}
    (ho : strlen mem (2 ^ 32) o = .ok oLen) (hoLen : oLen ≤ 1023)
    (hs : mem'.Holds o (fun i => mem (o + i)) (oLen + 1)) :
    sprintfCmdline hw mem' dst o =
      .ok (mem'.copy dst (fun i => (commandLine hw mem o oLen).getD i 0)
        ((commandLine hw mem o oLen).length + 1)) := by
  have htext : mem'.slice o oLen = mem.slice o oLen :=
    Bytes.slice_congr fun i hi => hs i (Nat.lt_succ_of_lt hi)
  have hfits := commandLine_length hw mem (o := o) hoLen
  unfold sprintfCmdline
  rw [strlen_holds ho hs]
  show (if 2048 < (mem'.slice o oLen ++ videoOptions hw).length + 1 then _ else _) = _
  rw [htext]
  exact if_neg (by unfold commandLine at hfits; omega)

/-! ## The moves -/

section StartKernel

variable {mem b ramdisk : Bytes} {bp gdt r size : Nat}

/-- What moving the ramdisk does to the block of parameters. -/
def patched (b : Bytes) : Bytes :=
  if b.leNat initrdStartOffset 4 ≠ 0 then b.putLe initrdStartOffset 4 initrdTarget else b

theorem relocateInitrd_eq (hb : mem.Holds bp b bootParamMemsize)
    (hstart : b.leNat initrdStartOffset 4 = r) (hsize : b.leNat initrdSizeOffset 4 = size)
    (habove : r ≠ 0 → initrdTarget + size ≤ r) :
    relocateInitrd mem bp =
      if r ≠ 0 then (mem.copy initrdTarget (fun i => mem (r + i)) size).putLe
        (bp + initrdStartOffset) 4 initrdTarget
      else mem := by
  unfold relocateInitrd
  rw [hb.leNat (by decide), hstart, hb.leNat (by decide), hsize]
  dsimp only
  split_ifs with hr
  · rw [Bytes.copyUp_eq_copy mem size (.inl (by have := habove hr; omega))]
  · rfl

/-- A region apart from the place of the ramdisk and from the parameters stays. -/
theorem relocateInitrd_frame {base n : Nat} {c : Bytes} (hb : mem.Holds bp b bootParamMemsize)
    (hstart : b.leNat initrdStartOffset 4 = r) (hsize : b.leNat initrdSizeOffset 4 = size)
    (habove : r ≠ 0 → initrdTarget + size ≤ r) (hc : mem.Holds base c n)
    (hoff : base + n ≤ initrdTarget ∨ (r ≠ 0 → initrdTarget + size ≤ base))
    (happart : base + n ≤ bp ∨ bp + bootParamMemsize ≤ base) :
    (relocateInitrd mem bp).Holds base c n := by
  have hfield : initrdStartOffset + 4 ≤ bootParamMemsize := by decide
  rw [relocateInitrd_eq hb hstart hsize habove]
  split_ifs with hr
  · refine (hc.frame Bytes.SameOff.copy ?_).frame Bytes.SameOff.putLe (by omega)
    exact hoff.imp_right fun h => h hr
  · exact hc

theorem relocateInitrd_params (hb : mem.Holds bp b bootParamMemsize)
    (hstart : b.leNat initrdStartOffset 4 = r) (hsize : b.leNat initrdSizeOffset 4 = size)
    (habove : r ≠ 0 → initrdTarget + size ≤ r) (hbp : r ≠ 0 → initrdTarget + size ≤ bp) :
    (relocateInitrd mem bp).Holds bp (patched b) bootParamMemsize := by
  rw [relocateInitrd_eq hb hstart hsize habove]
  unfold patched
  rw [hstart]
  split_ifs with hr
  · exact (hb.frame Bytes.SameOff.copy (.inr (hbp hr))).putLe
  · exact hb

theorem relocateInitrd_ramdisk (hb : mem.Holds bp b bootParamMemsize)
    (hstart : b.leNat initrdStartOffset 4 = r) (hsize : b.leNat initrdSizeOffset 4 = size)
    (habove : r ≠ 0 → initrdTarget + size ≤ r) (hbp : r ≠ 0 → initrdTarget + size ≤ bp)
    (hr : r ≠ 0) (hram : mem.Holds r ramdisk size) :
    (relocateInitrd mem bp).Holds initrdTarget ramdisk size := by
  rw [relocateInitrd_eq hb hstart hsize habove, if_pos hr]
  exact (Bytes.Holds.of_copy.congr hram).frame Bytes.SameOff.putLe (.inl (by have := hbp hr; omega))

/-- What the moves behind the ramdisk's leave: the parameters and the descriptor table. -/
theorem startKernel_eq (hb : (relocateInitrd mem bp).Holds bp b bootParamMemsize)
    (hgdt : (relocateInitrd mem bp).Holds gdt initGdtBytes sizeofInitGdt)
    (hbp : initrdTarget ≤ bp) (hgdt' : initrdTarget ≤ gdt) :
    startKernel mem bp gdt = (((relocateInitrd mem bp).copy highBaseMem b bootParamMemsize).fill
      gdtBase 0 gdtLimit).copy gdtBase initGdtBytes sizeofInitGdt := by
  have hplaces : highBaseMem + bootParamMemsize ≤ initrdTarget ∧ gdtBase + gdtLimit ≤ initrdTarget ∧
      gdtBase + sizeofInitGdt ≤ initrdTarget := by decide
  unfold startKernel
  dsimp only
  rw [Bytes.copyUp_eq_copy _ _ (.inl (by omega)), Bytes.copyUp_eq_copy _ _ (.inl (by omega)),
    Bytes.copy_congr hb]
  refine Bytes.copy_congr fun i hi => ?_
  exact ((hgdt.frame Bytes.SameOff.copy (.inr (by omega))).frame Bytes.SameOff.fill
    (.inr (by omega))) i hi

/-- What lies above the places that `start_kernel` fills last stays meanwhile. -/
theorem fill_low_frame {m b c : Bytes} {base n : Nat} (hc : m.Holds base c n)
    (habove : kernelStart ≤ base) :
    (((m.copy highBaseMem b bootParamMemsize).fill gdtBase 0 gdtLimit).copy gdtBase initGdtBytes
      sizeofInitGdt).Holds base c n := by
  have hlow : highBaseMem + bootParamMemsize ≤ kernelStart ∧ gdtBase + gdtLimit ≤ kernelStart ∧
      gdtBase + sizeofInitGdt ≤ kernelStart := by decide
  exact ((hc.frame Bytes.SameOff.copy (.inr (by omega))).frame Bytes.SameOff.fill
    (.inr (by omega))).frame Bytes.SameOff.copy (.inr (by omega))

/-- **What `start_kernel` leaves**, when a ramdisk of `size` bytes, if any, stands above its place,
and the parameters and the descriptor table above that place too. -/
theorem startKernel_holds {kernel : Bytes} (hb : mem.Holds bp b bootParamMemsize)
    (hstart : b.leNat initrdStartOffset 4 = if size = 0 then 0 else r)
    (hsize : b.leNat initrdSizeOffset 4 = size)
    (hr : size ≠ 0 → initrdTarget + size ≤ r) (hram : size ≠ 0 → mem.Holds r ramdisk size)
    (hgdt : mem.Holds gdt initGdtBytes sizeofInitGdt)
    (hkernel : mem.Holds kernelStart kernel kernelBuffer)
    (hbp : initrdTarget + size ≤ bp) (hgdtAbove : initrdTarget + size ≤ gdt)
    (hgdtApart : gdt + sizeofInitGdt ≤ bp ∨ bp + bootParamMemsize ≤ gdt) :
    (startKernel mem bp gdt).Holds kernelStart kernel kernelBuffer ∧
      (startKernel mem bp gdt).Holds highBaseMem (patched b) bootParamMemsize ∧
      (startKernel mem bp gdt).Holds initrdTarget ramdisk size ∧
      (startKernel mem bp gdt).Holds gdtBase (Bytes.copy (fun _ => 0) 0 initGdtBytes sizeofInitGdt)
        gdtLimit := by
  have hkernelEnd : kernelStart + kernelBuffer ≤ initrdTarget := by decide
  have habove : (if size = 0 then 0 else r) ≠ 0 → initrdTarget + size ≤ if size = 0 then 0 else r := by
    intro hne
    split_ifs at hne ⊢ with h0
    · exact absurd rfl hne
    · exact hr h0
  -- First the ramdisk moves, which changes one field of the parameters.
  have hparams := relocateInitrd_params hb hstart hsize habove fun _ => hbp
  have hgdt' := relocateInitrd_frame hb hstart hsize habove hgdt (.inr fun _ => hgdtAbove) hgdtApart
  have hkernel' := relocateInitrd_frame hb hstart hsize habove hkernel (.inl hkernelEnd)
    (.inl (by omega))
  have hramdisk : (relocateInitrd mem bp).Holds initrdTarget ramdisk size := by
    by_cases h0 : size = 0
    · rw [h0]
      exact fun i hi => absurd hi (Nat.not_lt_zero i)
    · rw [if_neg h0] at hstart habove
      have hr0 : r ≠ 0 := by
        have := hr h0
        omega
      exact relocateInitrd_ramdisk hb hstart hsize habove (fun _ => hbp) hr0 (hram h0)
  -- Then the places below the kernel are filled, from the top of the parameters on upwards.
  rw [startKernel_eq hparams hgdt' (by omega) (by omega)]
  refine ⟨fill_low_frame hkernel' le_rfl, ?_, fill_low_frame hramdisk (by decide), ?_⟩
  · exact (Bytes.Holds.of_copy.frame Bytes.SameOff.fill (.inl (by decide))).frame
      Bytes.SameOff.copy (.inl (by decide))
  · show (Bytes.copy _ (gdtBase + 0) _ _).Holds _ _ _
    exact Bytes.Holds.of_fill.copy

end StartKernel

/-! ## What the kernel finds -/

section HandOff

/-- The length of the ramdisk, if there is one. -/
def ramdiskLength (r rLen : Nat) : Nat := if r = 0 then 0 else rLen

/-- Where things are: `bp` on the stack and `gdt` in the loader image, the image at `k`, the
ramdisk at `r`, if there is one, and the options at `o` in their buffers. -/
structure Placement (bp gdt k kLen r rLen o oLen : Nat) : Prop where
  bp_above : initrdTarget + ramdiskLength r rLen ≤ bp
  gdt_above : initrdTarget + ramdiskLength r rLen ≤ gdt
  image_above : initrdTarget + ramdiskLength r rLen ≤ k
  options_above : initrdTarget + ramdiskLength r rLen ≤ o
  ramdisk_above : r ≠ 0 → initrdTarget + rLen ≤ r
  gdt_apart : gdt + sizeofInitGdt ≤ bp ∨ bp + bootParamMemsize ≤ gdt
  image_apart : k + kLen ≤ bp ∨ bp + bootParamMemsize ≤ k
  options_apart : o + oLen + 1 ≤ bp ∨ bp + bootParamMemsize ≤ o
  ramdisk_apart : r ≠ 0 → r + rLen ≤ bp ∨ bp + bootParamMemsize ≤ r
  ramdisk_end : r ≠ 0 → r + rLen < 2 ^ 32

/-- The payload of the image, and zeros behind it. -/
def kernelImage (mem : Bytes) (k kLen : Nat) : Bytes :=
  Bytes.copy (fun _ => 0) 0 (fun i => mem (k + setupSize mem k + i)) (kLen - setupSize mem k)

/-- The block of parameters before the ramdisk is moved: the first 0x2000 bytes of the image, the
command line, and the assignments. -/
def bootBlock (hw : BootParms) (image : Bytes) (text : List UInt8) (r rLen : Nat) : Bytes :=
  storeAll 0 (bootParamsStores hw r rLen) ((Bytes.copy (fun _ => 0) 0 image 0x2000).copy
    cmdlineOffset (fun i => text.getD i 0) (text.length + 1))

variable {hw : BootParms} {mem : Bytes} {bp gdt k kLen r rLen o oLen : Nat}

/-- The memory with the image unpacked. -/
def unpacked (mem : Bytes) (k kLen : Nat) : Bytes :=
  (mem.fill kernelStart 0 kernelBuffer).copy kernelStart (fun i => mem (k + setupSize mem k + i))
    (kLen - setupSize mem k)

/-- The memory with the parameters in place. -/
def prepared (hw : BootParms) (mem : Bytes) (bp k kLen r rLen o oLen : Nat) : Bytes :=
  storeAll bp (bootParamsStores hw r rLen)
    ((((unpacked mem k kLen).fill bp 0 bootParamMemsize).copy bp (fun i => mem (k + i)) 0x2000).copy
      (bp + cmdlineOffset) (fun i => (commandLine hw mem o oLen).getD i 0)
      ((commandLine hw mem o oLen).length + 1))

theorem unpacked_sameOff (hpayload : kLen - setupSize mem k ≤ kernelBuffer) :
    mem.SameOff (unpacked mem k kLen) kernelStart kernelBuffer :=
  Bytes.SameOff.fill.trans (Bytes.SameOff.copy.mono le_rfl (by omega))

theorem unpacked_kernel :
    (unpacked mem k kLen).Holds kernelStart (kernelImage mem k kLen) kernelBuffer := by
  show (Bytes.copy _ (kernelStart + 0) _ _).Holds _ _ _
  exact Bytes.Holds.of_fill.copy

/-- The parameters and the command line stay in their block. -/
theorem prepared_sameOff (hoLen : oLen ≤ 1023) :
    (unpacked mem k kLen).SameOff (prepared hw mem bp k kLen r rLen o oLen) bp
      bootParamMemsize := by
  have htext := commandLine_length hw mem (o := o) hoLen
  have hsize : cmdlineOffset + 2048 = bootParamMemsize ∧ 0x2000 ≤ bootParamMemsize := by decide
  unfold prepared
  refine Bytes.SameOff.trans ?_ (storeAll_sameOff fun s hs => ?_)
  · refine Bytes.SameOff.trans ?_ (Bytes.SameOff.copy.mono (by omega) (by omega))
    exact Bytes.SameOff.trans Bytes.SameOff.fill (Bytes.SameOff.copy.mono le_rfl (by omega))
  · have := bootParamsStores_inside hw s hs
    omega

theorem prepared_block :
    (prepared hw mem bp k kLen r rLen o oLen).Holds bp
      (bootBlock hw (fun i => mem (k + i)) (commandLine hw mem o oLen) r rLen)
      bootParamMemsize := by
  have himage : (((unpacked mem k kLen).fill bp 0 bootParamMemsize).copy (bp + 0)
      (fun i => mem (k + i)) 0x2000).Holds bp (Bytes.copy (fun _ => 0) 0 (fun i => mem (k + i))
        0x2000) bootParamMemsize := Bytes.Holds.of_fill.copy
  exact himage.copy.storeAll

/-- What lies above the place of the ramdisk and off the block is still what it was. -/
theorem prepared_frame {base n : Nat} (hpayload : kLen - setupSize mem k ≤ kernelBuffer)
    (hoLen : oLen ≤ 1023) (habove : initrdTarget ≤ base)
    (happart : base + n ≤ bp ∨ bp + bootParamMemsize ≤ base) :
    (prepared hw mem bp k kLen r rLen o oLen).Holds base (fun i => mem (base + i)) n := by
  have hkernel : kernelStart + kernelBuffer ≤ initrdTarget := by decide
  exact (Bytes.Holds.self.frame (unpacked_sameOff hpayload) (.inr (by omega))).frame
    (prepared_sameOff hoLen) happart

/-- What `boot_kernel` gets: an image that it accepts, with its setup area inside it and a payload
that fits, options, and the descriptor table of the loader. -/
structure Bootable (mem : Bytes) (gdt k kLen o oLen : Nat) : Prop where
  signature : mem (k + 0x1FE) = 0x55 ∧ mem (k + 0x1FF) = 0xAA
  length : 0x2000 ≤ kLen
  setup : setupSize mem k ≤ kLen
  payload : kLen - setupSize mem k ≤ kernelBuffer
  options : strlen mem (2 ^ 32) o = .ok oLen
  options_length : oLen ≤ 1023
  gdt : mem.Holds gdt initGdtBytes sizeofInitGdt

/-- `boot_kernel` gets to the jump. -/
theorem bootKernel_eq (hm : Bootable mem gdt k kLen o oLen)
    (hp : Placement bp gdt k kLen r rLen o oLen) :
    bootKernel hw mem bp gdt k kLen r rLen o =
      .ok (some (startKernel (prepared hw mem bp k kLen r rLen o oLen) bp gdt)) := by
  have hkernel : kernelStart + kernelBuffer ≤ initrdTarget := by decide
  have hlength := hm.length
  have habove := hp.image_above
  -- The image and the options are read where they still are what they were.
  have hclear : (mem.fill kernelStart 0 kernelBuffer).Holds k (fun i => mem (k + i)) kLen :=
    Bytes.Holds.self.frame Bytes.SameOff.fill (.inr (by omega))
  have himage : ((unpacked mem k kLen).fill bp 0 bootParamMemsize).Holds k (fun i => mem (k + i))
      kLen := (Bytes.Holds.self.frame (unpacked_sameOff hm.payload) (.inr (by omega))).frame
    Bytes.SameOff.fill hp.image_apart
  have hsetup : setupSize (mem.fill kernelStart 0 kernelBuffer) k = setupSize mem k := by
    unfold setupSize
    rw [hclear 0x1F1 (by omega)]
  have hpayload : Bytes.copy (mem.fill kernelStart 0 kernelBuffer) kernelStart
      (fun i => mem.fill kernelStart 0 kernelBuffer (k + setupSize mem k + i))
      (kLen - setupSize mem k) = unpacked mem k kLen := Bytes.copy_congr fun i hi => by
    rw [Nat.add_assoc, hclear (setupSize mem k + i) (by omega)]
  have hhead : Bytes.copy ((unpacked mem k kLen).fill bp 0 bootParamMemsize) bp
      (fun i => (unpacked mem k kLen).fill bp 0 bootParamMemsize (k + i)) 0x2000 =
      Bytes.copy ((unpacked mem k kLen).fill bp 0 bootParamMemsize) bp (fun i => mem (k + i))
        0x2000 := Bytes.copy_congr fun i hi => himage i (hi.trans_le hlength)
  have hoptions : (Bytes.copy ((unpacked mem k kLen).fill bp 0 bootParamMemsize) bp
      (fun i => mem (k + i)) 0x2000).Holds o (fun i => mem (o + i)) (oLen + 1) := by
    have hsize : 0x2000 ≤ bootParamMemsize := by decide
    have hoptions_above := hp.options_above
    have hunpacked := Bytes.Holds.self.frame (n := oLen + 1) (unpacked_sameOff hm.payload)
      (.inr (show kernelStart + kernelBuffer ≤ o by omega))
    exact (hunpacked.frame Bytes.SameOff.fill hp.options_apart).frame
      (Bytes.SameOff.copy.mono le_rfl (by omega)) hp.options_apart
  have hcmdline : bp + cmdlineOffset - bp = cmdlineOffset := Nat.add_sub_cancel_left bp _
  unfold bootKernel
  rw [if_neg (by simp [hm.signature])]
  dsimp only
  rw [hsetup, if_neg (Nat.not_lt.2 hm.setup), hpayload, hhead,
    sprintfCmdline_eq hm.options hm.options_length hoptions]
  unfold sysdepsCreateBootParams
  rw [hcmdline]
  rfl

/-- What the kernel finds in the memory `mem'`, where `mem` was the memory before. -/
structure HandedOff (hw : BootParms) (mem mem' : Bytes) (k kLen r rLen o oLen : Nat) : Prop where
  /-- The payload, with zeros behind it up to the end of its buffer. -/
  kernel : mem'.Holds kernelStart (kernelImage mem k kLen) kernelBuffer
  /-- The block of parameters. -/
  params : mem'.Holds highBaseMem (patched (bootBlock hw (fun i => mem (k + i))
    (commandLine hw mem o oLen) r rLen)) bootParamMemsize
  /-- The block names the offset of the command line, -/
  cmdline_offset : mem'.leNat (highBaseMem + cmdlineOffsetOffset) 2 = cmdlineOffset
  /-- and the command line is there, with its end. -/
  cmdline : mem'.Holds (highBaseMem + cmdlineOffset)
    (fun i => (commandLine hw mem o oLen).getD i 0) ((commandLine hw mem o oLen).length + 1)
  initrd_start : mem'.leNat (highBaseMem + initrdStartOffset) 4 =
    if ramdiskLength r rLen = 0 then 0 else initrdTarget
  initrd_size : mem'.leNat (highBaseMem + initrdSizeOffset) 4 = ramdiskLength r rLen
  /-- The bytes that the ramdisk had. -/
  ramdisk : mem'.Holds initrdTarget (fun i => mem (r + i)) (ramdiskLength r rLen)
  /-- The descriptor table, with zeros behind it up to its limit. -/
  gdt : mem'.Holds gdtBase (Bytes.copy (fun _ => 0) 0 initGdtBytes sizeofInitGdt) gdtLimit

section Block

variable {image : Bytes} {text : List UInt8}

theorem ramdiskLength_eq_zero_iff : ramdiskLength r rLen = 0 ↔ ¬(r ≠ 0 ∧ rLen ≠ 0) := by
  unfold ramdiskLength
  split_ifs with hr <;> simp [hr]

theorem bootBlock_initrdStart (hr : r < 2 ^ 32) :
    (bootBlock hw image text r rLen).leNat initrdStartOffset 4 =
      if ramdiskLength r rLen = 0 then 0 else r := by
  unfold bootBlock
  rw [leNat_initrdStart hw hr]
  simp only [ramdiskLength_eq_zero_iff, ite_not]

theorem bootBlock_initrdSize (hrLen : r ≠ 0 → rLen < 2 ^ 32) :
    (bootBlock hw image text r rLen).leNat initrdSizeOffset 4 = ramdiskLength r rLen := by
  unfold bootBlock ramdiskLength
  rw [leNat_initrdSize hw hrLen]
  by_cases hr : r = 0
  · rw [if_neg (fun h => h.1 hr), if_pos hr]
  · by_cases hlen : rLen = 0
    · rw [if_neg (fun h => h.2 hlen), if_neg hr, hlen]
    · rw [if_pos ⟨hr, hlen⟩, if_neg hr]

theorem patched_leNat {b : Bytes} {pos w : Nat}
    (h : pos + w ≤ initrdStartOffset ∨ initrdStartOffset + 4 ≤ pos) :
    (patched b).leNat pos w = b.leNat pos w := by
  unfold patched
  split_ifs
  · exact Bytes.leNat_putLe_of_disjoint h
  · rfl

theorem patched_initrdStart {b : Bytes} :
    (patched b).leNat initrdStartOffset 4 =
      if b.leNat initrdStartOffset 4 = 0 then 0 else initrdTarget := by
  unfold patched
  by_cases h0 : b.leNat initrdStartOffset 4 = 0
  · rw [if_neg (not_not.2 h0), if_pos h0, h0]
  · rw [if_pos h0, if_neg h0, Bytes.leNat_putLe]
    rfl

theorem patched_sameOff {b : Bytes} : b.SameOff (patched b) initrdStartOffset 4 := by
  unfold patched
  split_ifs
  · exact Bytes.SameOff.putLe
  · exact fun _ _ => rfl

/-- The command line stands in the block, behind all fields. -/
theorem bootBlock_cmdline :
    (patched (bootBlock hw image text r rLen)).Holds cmdlineOffset (fun i => text.getD i 0)
      (text.length + 1) := by
  have hfields : 0 + 0x230 ≤ cmdlineOffset ∧ initrdStartOffset + 4 ≤ cmdlineOffset := by decide
  have hstores : ((Bytes.copy (fun _ => 0) 0 image 0x2000).copy cmdlineOffset
      (fun i => text.getD i 0) (text.length + 1)).SameOff (bootBlock hw image text r rLen) 0
      0x230 := storeAll_sameOff (bootParamsStores_inside hw)
  exact (Bytes.Holds.of_copy.frame hstores (.inr hfields.1)).frame patched_sameOff
    (.inr hfields.2)

end Block

/-- What `start_kernel` leaves of what `boot_kernel` prepared. -/
theorem startKernel_handedOff (hm : Bootable mem gdt k kLen o oLen)
    (hp : Placement bp gdt k kLen r rLen o oLen) :
    HandedOff hw mem (startKernel (prepared hw mem bp k kLen r rLen o oLen) bp gdt) k kLen r rLen o
      oLen := by
  have hkernelEnd : kernelStart + kernelBuffer ≤ initrdTarget := by decide
  have hbpAbove := hp.bp_above
  have hgdtAbove := hp.gdt_above
  have hpresent : ramdiskLength r rLen ≠ 0 → r ≠ 0 ∧ ramdiskLength r rLen = rLen := by
    unfold ramdiskLength
    split_ifs with hr
    · exact fun h => absurd rfl h
    · exact fun _ => ⟨hr, rfl⟩
  have hrEnd : r < 2 ^ 32 := by
    by_cases hr : r = 0
    · omega
    · exact (Nat.le_add_right r rLen).trans_lt (hp.ramdisk_end hr)
  have hlenEnd : r ≠ 0 → rLen < 2 ^ 32 := fun hr =>
    (Nat.le_add_left rLen r).trans_lt (hp.ramdisk_end hr)
  -- The parameters are ready, and the other regions are as they were.
  have hgdt : (prepared hw mem bp k kLen r rLen o oLen).Holds gdt initGdtBytes sizeofInitGdt :=
    (prepared_frame hm.payload hm.options_length (by omega) hp.gdt_apart).congr hm.gdt
  have hkernel : (prepared hw mem bp k kLen r rLen o oLen).Holds kernelStart
      (kernelImage mem k kLen) kernelBuffer :=
    unpacked_kernel.frame (prepared_sameOff hm.options_length) (.inl (by omega))
  have hram : ramdiskLength r rLen ≠ 0 → (prepared hw mem bp k kLen r rLen o oLen).Holds r
      (fun i => mem (r + i)) (ramdiskLength r rLen) := by
    intro h
    obtain ⟨hr, hlen⟩ := hpresent h
    have habove := hp.ramdisk_above hr
    rw [hlen]
    exact prepared_frame hm.payload hm.options_length (by omega) (hp.ramdisk_apart hr)
  have hr : ramdiskLength r rLen ≠ 0 → initrdTarget + ramdiskLength r rLen ≤ r := by
    intro h
    obtain ⟨hr, hlen⟩ := hpresent h
    rw [hlen]
    exact hp.ramdisk_above hr
  obtain ⟨hkernel', hparams, hramdisk, hgdt'⟩ := startKernel_holds prepared_block
    (bootBlock_initrdStart hrEnd) (bootBlock_initrdSize hlenEnd) hr hram hgdt hkernel hbpAbove
    hgdtAbove hp.gdt_apart
  have hcmdline : bootParamMemsize = cmdlineOffset + 2048 := by decide
  have hfits := commandLine_length hw mem (o := o) hm.options_length
  exact {
    kernel := hkernel'
    params := hparams
    cmdline_offset := by
      rw [hparams.leNat (by decide), patched_leNat (.inl (by decide))]
      exact leNat_cmdlineOffset hw
    cmdline := ((hparams.drop (m := cmdlineOffset) (by omega)).of_le (by omega)).congr
      bootBlock_cmdline
    initrd_start := by
      rw [hparams.leNat (by decide), patched_initrdStart, bootBlock_initrdStart hrEnd]
      by_cases h0 : ramdiskLength r rLen = 0
      · rw [if_pos h0, if_pos rfl, if_pos h0]
      · rw [if_neg h0, if_neg (hpresent h0).1, if_neg h0]
    initrd_size := by
      rw [hparams.leNat (by decide), patched_leNat (.inr (by decide)), bootBlock_initrdSize hlenEnd]
    ramdisk := hramdisk
    gdt := hgdt' }

/-- **The kernel finds everything in its place**, for every image that `boot_kernel` accepts, every
ramdisk, and every line of options that is short enough. An empty ramdisk counts as none. -/
theorem bootKernel_handedOff (hm : Bootable mem gdt k kLen o oLen)
    (hp : Placement bp gdt k kLen r rLen o oLen) :
    ∃ mem', bootKernel hw mem bp gdt k kLen r rLen o = .ok (some mem') ∧
      HandedOff hw mem mem' k kLen r rLen o oLen :=
  ⟨_, bootKernel_eq hm hp, startKernel_handedOff hm hp⟩

end HandOff

/-- A memory with an image at 32 MiB, the options "rrrr" at 48 MiB, and `init_gdt` at 50 MiB. -/
def loadedMem : Bytes := fun a =>
  if a = 0x20001F1 then 4
  else if a = 0x20001FE then 0x55
  else if a = 0x20001FF then 0xAA
  else if 0x3000000 ≤ a ∧ a < 0x3000004 then 0x72
  else if 0x3200000 ≤ a ∧ a < 0x3200020 then initGdtBytes (a - 0x3200000)
  else 0

/-- What the first loader says when it says nothing. -/
def noParms : BootParms := ⟨0, 0, 0, 0, 0, 0, 0, 0, 0⟩

theorem loadedMem_bootable : Bootable loadedMem 0x3200000 0x2000000 0x2000 0x3000000 4 where
  signature := by decide
  length := le_rfl
  setup := by decide
  payload := by decide
  options := by
    have hscan : scan (· = 0) loadedMem 0x3000000 (2 ^ 32 - 0x3000000) = .ok 0x3000004 := by
      refine scan_eq_ok_iff.2 ⟨by decide, by decide, by decide, fun j hlo hhi => ?_⟩
      unfold loadedMem
      rw [if_neg (by omega), if_neg (by omega), if_neg (by omega), if_pos ⟨hlo, hhi⟩]
      decide
    unfold strlen
    rw [hscan]
    rfl
  options_length := by decide
  gdt := by
    intro i hi
    have hsize : sizeofInitGdt = 32 := by decide
    unfold loadedMem
    rw [if_neg (by omega), if_neg (by omega), if_neg (by omega), if_neg (by omega),
      if_pos (by omega), Nat.add_sub_cancel_left]

theorem loadedMem_placement {rLen : Nat} (h : rLen ≤ 0x1000000) :
    Placement 0x3100000 0x3200000 0x2000000 0x2000 0x4000000 rLen 0x3000000 4 := by
  have hsize : initrdTarget = 0xF00000 ∧ sizeofInitGdt = 32 ∧ bootParamMemsize = 16384 := by decide
  have hlen : ramdiskLength 0x4000000 rLen = rLen := if_neg (by decide)
  constructor <;> omega

theorem bootKernel_handedOff_five :
    ∃ mem', bootKernel noParms loadedMem 0x3100000 0x3200000 0x2000000 0x2000 0x4000000 5
        0x3000000 = .ok (some mem') ∧
      HandedOff noParms loadedMem mem' 0x2000000 0x2000 0x4000000 5 0x3000000 4 :=
  bootKernel_handedOff loadedMem_bootable (loadedMem_placement (by decide))

/-- A ramdisk of no bytes is not announced at 15 MiB. -/
theorem initrdStart_empty :
    ∃ mem', bootKernel noParms loadedMem 0x3100000 0x3200000 0x2000000 0x2000 0x4000000 0
        0x3000000 = .ok (some mem') ∧
      mem'.leNat (highBaseMem + initrdStartOffset) 4 ≠ initrdTarget := by
  have hp := loadedMem_placement (Nat.zero_le 0x1000000)
  refine ⟨_, bootKernel_eq loadedMem_bootable hp, ?_⟩
  rw [(startKernel_handedOff loadedMem_bootable hp).initrd_start]
  decide

end MbBootTv

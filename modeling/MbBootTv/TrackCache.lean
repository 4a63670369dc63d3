import MbBootTv.Lib.Except
import MbBootTv.Lib.Reach
import MbBootTv.Strings

/-!
# The track cache (`disk.c`)

`disk_read` keeps the sectors of the last successful read of the driver. The start of that window
is not remembered but computed again from the sector asked for, so everything rests on the windows
being aligned (`Disk.Window`). The driver may be another one in each call, as long as it keeps to
the contract (`Keeps`).
-/

namespace MbBootTv

/-- `DISK_BUFFER_SIZE` -/
def diskBufferSize : Nat := 18 * 512

/-- `struct disk`, as far as `disk_read` looks at it. -/
structure Disk where
  sectorsPerRead : UInt32
  bytes : UInt32
  sector : UInt64
  buffer : Bytes

/-- `disk->read`: what it returns, and what it makes of the disk. -/
abbrev DiskDriver := Disk → UInt64 → Int × Disk

/-- `memcpy (buffer, disk->buffer + ((sector - base_sector) << 9), SECTOR_SIZE)` -/
def serve (disk : Disk) (buffer : Bytes) (sector base : UInt64) :
    Except Fault (Int × Bytes × Disk) :=
  let offset := ((sector - base) <<< 9).toNat
  if diskBufferSize < offset + 512 then .error .outOfBounds
  else .ok (0, buffer.copy 0 (fun i => disk.buffer (offset + i)) 512, disk)

/-- The start of the track; an `unsigned long` has 32 bits. -/
def baseSector (disk : Disk) (sector : UInt64) : UInt64 :=
  if 1 < disk.sectorsPerRead then sector - (sector.toUInt32 % disk.sectorsPerRead).toUInt64
  else sector

/-- `do_disk_read`: what it returns, and the caller's buffer. -/
def doDiskRead (read : DiskDriver) (disk : Disk) (buffer : Bytes) (sector : UInt64) :
    Except Fault (Int × Bytes × Disk) :=
  let base := baseSector disk sector
  if sector < disk.sector || disk.sector + (disk.bytes >>> 9).toUInt64 ≤ sector then
    let (result, disk) := read disk base
    if result < 0 then .ok (result, buffer, disk) else serve disk buffer sector base
  else serve disk buffer sector base

/-- `disk_read` -/
def diskRead (read : DiskDriver) (disk : Disk) (buf : Bytes) (sector : Int64) :
    Except Fault (Int × Bytes × Disk) :=
  doDiskRead read disk buf sector.toUInt64

/-- The disk after `disk_open`: cleared, but for what the probe sets and the bytes in the static
buffer. -/
def diskOpen (sectorsPerRead : UInt32) (diskBuffer : Bytes) : Disk :=
  ⟨sectorsPerRead, 0, 0, diskBuffer⟩

/-! ## The contract with the driver -/

/-- The number of sectors that one read fetches. -/
def Disk.width (d : Disk) : Nat := max 1 d.sectorsPerRead.toNat

/-- On a disk with that `sectors_per_read`, the driver fetches the sectors from the base on, or
fails and leaves the buffer empty. -/
structure Keeps (medium : UInt64 → Bytes) (spr : UInt32) (read : DiskDriver) : Prop where
  sectorsPerRead : ∀ d base, d.sectorsPerRead = spr → (read d base).2.sectorsPerRead = spr
  sector : ∀ d base, d.sectorsPerRead = spr → 0 ≤ (read d base).1 → (read d base).2.sector = base
  bytes : ∀ d base, d.sectorsPerRead = spr → 0 ≤ (read d base).1 →
    (read d base).2.bytes.toNat = 512 * d.width
  buffer : ∀ d base, d.sectorsPerRead = spr → 0 ≤ (read d base).1 → ∀ j < d.width, ∀ i < 512,
    (read d base).2.buffer (512 * j + i) = medium (base + UInt64.ofNat j) i
  failed : ∀ d base, d.sectorsPerRead = spr → (read d base).1 < 0 → (read d base).2.bytes = 0

/-- One `disk_read`, with the driver as it behaves in this call. -/
structure DiskCall where
  read : DiskDriver
  buf : Bytes
  sector : Int64

/-- A call for a sector below 2^32, of a driver that keeps the contract. -/
structure DiskCall.Proper (medium : UInt64 → Bytes) (spr : UInt32) (e : DiskCall) : Prop where
  keeps : Keeps medium spr e.read
  sector : e.sector.toUInt64.toNat < 2 ^ 32

/-- One call, from `d` to `d'`. -/
def Disk.Step (medium : UInt64 → Bytes) (spr : UInt32) (d : Disk) (e : DiskCall) (d' : Disk) :
    Prop :=
  e.Proper medium spr ∧ ∃ ret buf, diskRead e.read d e.buf e.sector = .ok (ret, buf, d')

/-! ## The window -/

/-- The buffer is empty, or holds the sectors of an aligned window. -/
structure Disk.Window (medium : UInt64 → Bytes) (spr : UInt32) (d : Disk) : Prop where
  sectorsPerRead : d.sectorsPerRead = spr
  content : d.bytes = 0 ∨
    d.bytes.toNat = 512 * d.width ∧ d.sector.toNat < 2 ^ 32 ∧ d.width ∣ d.sector.toNat ∧
      ∀ j < d.width, ∀ i < 512, d.buffer (512 * j + i) = medium (d.sector + UInt64.ofNat j) i

section Window

variable {medium : UInt64 → Bytes} {spr : UInt32} {d : Disk} {sector : UInt64}

theorem window_diskOpen (medium : UInt64 → Bytes) (spr : UInt32) (diskBuffer : Bytes) :
    (diskOpen spr diskBuffer).Window medium spr :=
  ⟨rfl, Or.inl rfl⟩

theorem width_pos (d : Disk) : 0 < d.width := Nat.lt_of_lt_of_le Nat.zero_lt_one (le_max_left _ _)

/-- The base is the sector, rounded down to a multiple of the width. -/
theorem toNat_baseSector (h : sector.toNat < 2 ^ 32) :
    (baseSector d sector).toNat = d.width * (sector.toNat / d.width) := by
  unfold baseSector Disk.width
  by_cases h1 : 1 < d.sectorsPerRead
  · rw [if_pos h1]
    rw [UInt32.lt_iff_toNat_lt, UInt32.toNat_one] at h1
    have hoff : (sector.toUInt32 % d.sectorsPerRead).toUInt64.toNat =
        sector.toNat % d.sectorsPerRead.toNat := by
      rw [UInt32.toNat_toUInt64, UInt32.toNat_mod, UInt64.toNat_toUInt32, Nat.mod_eq_of_lt h]
    have hle := Nat.mod_le sector.toNat d.sectorsPerRead.toNat
    have hdiv := Nat.div_add_mod sector.toNat d.sectorsPerRead.toNat
    rw [UInt64.toNat_sub_of_le _ _ (UInt64.le_iff_toNat_le.mpr (by rw [hoff]; exact hle)), hoff,
      Nat.max_eq_right h1.le]
    omega
  · rw [if_neg h1]
    rw [UInt32.lt_iff_toNat_lt, UInt32.toNat_one, not_lt] at h1
    rw [Nat.max_eq_left h1, Nat.div_one, Nat.one_mul]

/-- A sector of the window is served from it. -/
theorem serve_of_mem (hspr : d.width ≤ 18) {base : UInt64} (hbase : d.sector = base)
    (hle : base ≤ sector) (hlt : sector.toNat < base.toNat + d.width)
    (hbuf : ∀ j < d.width, ∀ i < 512,
      d.buffer (512 * j + i) = medium (d.sector + UInt64.ofNat j) i) (buf : Bytes) :
    serve d buf sector base = .ok (0, buf.copy 0 (medium sector) 512, d) := by
  rw [UInt64.le_iff_toNat_le] at hle
  have hsub : (sector - base).toNat = sector.toNat - base.toNat :=
    UInt64.toNat_sub_of_le _ _ (UInt64.le_iff_toNat_le.mpr hle)
  have hoff : ((sector - base) <<< 9).toNat = 512 * (sector.toNat - base.toNat) := by
    rw [UInt64.toNat_shiftLeft, hsub, Nat.shiftLeft_eq]
    show (sector.toNat - base.toNat) * 2 ^ 9 % 2 ^ 64 = _
    rw [Nat.mod_eq_of_lt (by omega)]
    omega
  have hsector : d.sector + UInt64.ofNat (sector.toNat - base.toNat) = sector := by
    rw [hbase, ← UInt64.toNat_inj, UInt64.toNat_add, UInt64.toNat_ofNat']
    have := sector.toNat_lt
    omega
  unfold serve
  rw [hoff, if_neg (by rw [diskBufferSize]; omega)]
  have hcopy : buf.copy 0 (fun i => d.buffer (512 * (sector.toNat - base.toNat) + i)) 512 =
      buf.copy 0 (medium sector) 512 :=
    Bytes.copy_congr fun i hi => by rw [hbuf _ (by omega) i hi, hsector]
  rw [hcopy]

/-- **One call, with the window as it was left**: the sector arrives, or nothing happens. -/
theorem diskRead_window (h : d.Window medium spr) (hspr : spr.toNat ≤ 18) {e : DiskCall}
    (he : e.Proper medium spr) :
    ∃ ret buf d', diskRead e.read d e.buf e.sector = .ok (ret, buf, d') ∧
      d'.Window medium spr ∧
      (ret = 0 ∧ buf = e.buf.copy 0 (medium e.sector.toUInt64) 512 ∨ ret < 0 ∧ buf = e.buf) := by
  obtain ⟨hkeeps, hsector⟩ := he
  unfold diskRead doDiskRead
  generalize e.sector.toUInt64 = sector at hsector ⊢
  have hpos := width_pos d
  have hwidth : d.width ≤ 18 := by
    rw [Disk.width, h.sectorsPerRead]
    omega
  have hbase := toNat_baseSector (d := d) hsector
  have hle : baseSector d sector ≤ sector := by
    rw [UInt64.le_iff_toNat_le, hbase]
    exact Nat.mul_div_le _ _
  have hlt : sector.toNat < (baseSector d sector).toNat + d.width := by
    rw [hbase]
    exact Nat.lt_mul_div_succ _ hpos
  dsimp only
  by_cases hmiss : (sector < d.sector || d.sector + (d.bytes >>> 9).toUInt64 ≤ sector) = true
  · rw [if_pos hmiss]
    by_cases hneg : (e.read d (baseSector d sector)).1 < 0
    · rw [if_pos hneg]
      exact ⟨_, _, _, rfl, ⟨hkeeps.sectorsPerRead _ _ h.sectorsPerRead,
        Or.inl (hkeeps.failed _ _ h.sectorsPerRead hneg)⟩, Or.inr ⟨hneg, rfl⟩⟩
    · rw [if_neg hneg]
      rw [not_lt] at hneg
      have hspr' := hkeeps.sectorsPerRead d (baseSector d sector) h.sectorsPerRead
      have hsec := hkeeps.sector _ _ h.sectorsPerRead hneg
      have hbuf := hkeeps.buffer _ _ h.sectorsPerRead hneg
      have hbytes := hkeeps.bytes _ _ h.sectorsPerRead hneg
      generalize (e.read d (baseSector d sector)).2 = d' at hspr' hsec hbuf hbytes ⊢
      have hw : d'.width = d.width := by rw [Disk.width, Disk.width, hspr', h.sectorsPerRead]
      rw [← hw] at hwidth hlt hbuf hbytes
      rw [← hsec] at hbuf
      refine ⟨_, _, _, serve_of_mem hwidth hsec hle hlt hbuf e.buf, ⟨hspr',
        Or.inr ⟨hbytes, ?_, ?_, hbuf⟩⟩, Or.inl ⟨rfl, rfl⟩⟩
      · rw [hsec]
        exact (UInt64.le_iff_toNat_le.mp hle).trans_lt hsector
      · rw [hsec, hbase, hw]
        exact Nat.dvd_mul_right _ _
  · rw [if_neg hmiss]
    rw [Bool.or_eq_true, decide_eq_true_iff, decide_eq_true_iff, not_or, UInt64.not_lt,
      UInt64.not_le] at hmiss
    obtain ⟨hge, hin⟩ := hmiss
    rw [UInt64.le_iff_toNat_le] at hge
    rw [UInt64.lt_iff_toNat_lt, UInt64.toNat_add, UInt32.toNat_toUInt64, UInt32.toNat_shiftRight,
      Nat.shiftRight_eq_div_pow] at hin
    rcases h.content with hempty | ⟨hbytes, hsmall, ⟨q, hq⟩, hbuf⟩
    · -- An empty window has no sector.
      rw [hempty] at hin
      simp at hin
      have := d.sector.toNat_lt
      omega
    · -- The base that is computed again is the start of the window.
      have hend : sector.toNat < d.sector.toNat + d.width := by
        rw [hbytes] at hin
        have hmod : (9 : UInt32).toNat % 32 = 9 := rfl
        rw [hmod] at hin
        omega
      have hdiv : sector.toNat / d.width = q := by
        refine Nat.div_eq_of_lt_le ?_ ?_
        · rw [Nat.mul_comm, ← hq]
          exact hge
        · rw [Nat.add_mul, Nat.one_mul, Nat.mul_comm, ← hq]
          exact hend
      have hstart : d.sector = baseSector d sector := by
        rw [← UInt64.toNat_inj, hbase, hdiv, hq]
      exact ⟨_, _, _, serve_of_mem hwidth hstart hle hlt hbuf e.buf,
        ⟨h.sectorsPerRead, Or.inr ⟨hbytes, hsmall, ⟨q, hq⟩, hbuf⟩⟩, Or.inl ⟨rfl, rfl⟩⟩

end Window

/-! ## The IDE driver -/

/-- `ide_read` of a drive with `sectors` sectors. `transfer` is the read in the drive's address mode:
what it leaves in the buffer, and whether it ends well. -/
def ideRead (sectors : UInt64) (transfer : UInt64 → Bytes → Bytes × Bool) : DiskDriver :=
  fun disk sector =>
    -- the buffer is reported empty
    let disk := { disk with sector := 0, bytes := 0 }
    if sectors < sector then (-1, disk)
    else
      let (buffer, ok) := transfer sector disk.buffer
      if ok then (0, { disk with buffer, bytes := 512, sector }) else (-1, { disk with buffer })

/-- A drive that delivers what is on the medium keeps the contract, one sector at a time. -/
theorem keeps_ideRead {medium : UInt64 → Bytes} {sectors : UInt64}
    {transfer : UInt64 → Bytes → Bytes × Bool}
    (h : ∀ n buf, (transfer n buf).2 = true → ∀ i < 512, (transfer n buf).1 i = medium n i) :
    Keeps medium 1 (ideRead sectors transfer) := by
  -- Either it fails with an empty buffer, or the transfer has ended well.
  have hcases : ∀ d base, (ideRead sectors transfer d base).2.sectorsPerRead = d.sectorsPerRead ∧
      ((ideRead sectors transfer d base).1 = -1 ∧ (ideRead sectors transfer d base).2.bytes = 0 ∨
        (ideRead sectors transfer d base).1 = 0 ∧
        (ideRead sectors transfer d base).2.bytes = 512 ∧
        (ideRead sectors transfer d base).2.sector = base ∧
        ∀ i < 512, (ideRead sectors transfer d base).2.buffer i = medium base i) := by
    intro d base
    unfold ideRead
    by_cases hout : sectors < base
    · rw [if_pos hout]
      exact ⟨rfl, Or.inl ⟨rfl, rfl⟩⟩
    · simp only [if_neg hout]
      cases hok : (transfer base d.buffer).2 with
      | false => exact ⟨rfl, Or.inl ⟨rfl, rfl⟩⟩
      | true => exact ⟨rfl, Or.inr ⟨rfl, rfl, rfl, h base d.buffer hok⟩⟩
  have hok : ∀ d base, 0 ≤ (ideRead sectors transfer d base).1 →
      (ideRead sectors transfer d base).2.bytes = 512 ∧
        (ideRead sectors transfer d base).2.sector = base ∧
        ∀ i < 512, (ideRead sectors transfer d base).2.buffer i = medium base i := by
    intro d base hret
    rcases (hcases d base).2 with ⟨hneg, -⟩ | ⟨-, hrest⟩
    · rw [hneg] at hret
      exact absurd hret (by decide)
    · exact hrest
  refine ⟨fun d base hd => (hcases d base).1.trans hd, fun d base _ hret => (hok d base hret).2.1,
    fun d base hd hret => ?_, fun d base hd hret j hj i hi => ?_, fun d base _ hfail => ?_⟩
  · rw [(hok d base hret).1, Disk.width, hd]
    rfl
  · rw [Disk.width, hd] at hj
    obtain rfl : j = 0 := Nat.lt_one_iff.mp hj
    rw [Nat.mul_zero, Nat.zero_add, (hok d base hret).2.2 i hi]
    simp
  · rcases (hcases d base).2 with ⟨-, hempty⟩ | ⟨hret, -⟩
    · exact hempty
    · rw [hret] at hfail
      exact absurd hfail (by decide)

/-! ## Whole runs -/

/-- **The cache is never stale.** After any calls on an opened disk, whatever failed among them, a
call returns 0 and delivers the sector as it is on the medium, or returns a negative number and
leaves the caller's buffer alone. -/
theorem diskRead_delivers {medium : UInt64 → Bytes} {spr : UInt32} (diskBuffer : Bytes) {d : Disk}
    (hspr : spr.toNat * 512 ≤ diskBufferSize)
    (hrun : Reaches (Disk.Step medium spr) (diskOpen spr diskBuffer) d) {e : DiskCall}
    (he : e.Proper medium spr) :
    ∃ ret buf d', diskRead e.read d e.buf e.sector = .ok (ret, buf, d') ∧
      (ret = 0 ∧ buf = e.buf.copy 0 (medium e.sector.toUInt64) 512 ∨ ret < 0 ∧ buf = e.buf) := by
  have hspr' : spr.toNat ≤ 18 := by
    rw [diskBufferSize] at hspr
    omega
  have hwin : d.Window medium spr := by
    refine hrun.invariant (window_diskOpen medium spr diskBuffer) ?_
    rintro x e y hx ⟨he, ret, buf, hread⟩
    obtain ⟨ret', buf', y', hread', hy, -⟩ := diskRead_window hx hspr' he
    rw [hread] at hread'
    cases hread'
    exact hy
  obtain ⟨ret, buf, d', hread, -, hout⟩ := diskRead_window hwin hspr' he
  exact ⟨ret, buf, d', hread, hout⟩

/-- A driver that reads two sectors at a time and fails from sector 4 on. -/
def pairDriver : DiskDriver := fun d base =>
  if base < 4 then
    (0, { d with
      bytes := 1024
      sector := base
      buffer := fun i => UInt8.ofNat (base.toNat + i / 512) })
  else (-1, { d with bytes := 0 })

/-- The medium it reads: every byte of a sector is its number. -/
def numbered : UInt64 → Bytes := fun n _ => UInt8.ofNat n.toNat

/-- It fails, or it fetches from one of the sectors 0 to 3 on. -/
theorem pairDriver_cases (d : Disk) (base : UInt64) :
    (pairDriver d base).1 = -1 ∧ (pairDriver d base).2 = { d with bytes := 0 } ∨
      base.toNat < 4 ∧ (pairDriver d base).1 = 0 ∧ (pairDriver d base).2 =
        { d with bytes := 1024, sector := base
                 buffer := fun i => UInt8.ofNat (base.toNat + i / 512) } := by
  unfold pairDriver
  by_cases h : base < 4
  · rw [if_pos h]
    exact Or.inr ⟨UInt64.lt_iff_toNat_lt.mp h, rfl, rfl⟩
  · rw [if_neg h]
    exact Or.inl ⟨rfl, rfl⟩

theorem keeps_pairDriver : Keeps numbered 2 pairDriver where
  sectorsPerRead d base hd := by
    rcases pairDriver_cases d base with ⟨-, h⟩ | ⟨-, -, h⟩ <;> rw [h] <;> exact hd
  sector d base _ hok := by
    rcases pairDriver_cases d base with ⟨hret, -⟩ | ⟨-, -, h⟩
    · rw [hret] at hok
      exact absurd hok (by decide)
    · rw [h]
  bytes d base hd hok := by
    rcases pairDriver_cases d base with ⟨hret, -⟩ | ⟨-, -, h⟩
    · rw [hret] at hok
      exact absurd hok (by decide)
    · rw [h, Disk.width, hd]
      rfl
  buffer d base hd hok j hj i hi := by
    rcases pairDriver_cases d base with ⟨hret, -⟩ | ⟨hlt, -, h⟩
    · rw [hret] at hok
      exact absurd hok (by decide)
    · rw [Disk.width, hd] at hj
      have hj' : j < 2 := hj
      rw [h, numbered, UInt64.toNat_add, UInt64.toNat_ofNat']
      dsimp only
      congr 1
      omega
  failed d base _ hfail := by
    rcases pairDriver_cases d base with ⟨-, h⟩ | ⟨-, hret, -⟩
    · rw [h]
    · rw [hret] at hfail
      exact absurd hfail (by decide)

/-- Sector 3 after a call for sector 2: it comes from the window. -/
theorem diskRead_delivers_pair :
    ∃ d ret buf d', Reaches (Disk.Step numbered 2) (diskOpen 2 fun _ => 0) d ∧
      diskRead pairDriver d (fun _ => 0) 3 = .ok (ret, buf, d') ∧
      (ret = 0 ∧ buf = Bytes.copy (fun _ => 0) 0 (numbered 3) 512 ∨ ret < 0 ∧ buf = fun _ => 0) := by
  have hfirst : DiskCall.Proper numbered 2 ⟨pairDriver, fun _ => 0, 2⟩ :=
    ⟨keeps_pairDriver, by decide⟩
  obtain ⟨ret, buf, d, hread, -⟩ := diskRead_delivers (fun _ => 0) (by decide)
    (Reaches.refl _) hfirst
  have hrun : Reaches (Disk.Step numbered 2) (diskOpen 2 fun _ => 0) d :=
    (Reaches.refl _).tail ⟨hfirst, ret, buf, hread⟩
  obtain ⟨ret', buf', d', hread', hout⟩ := diskRead_delivers _ (by decide) hrun
    (e := ⟨pairDriver, fun _ => 0, 3⟩) ⟨keeps_pairDriver, by decide⟩
  exact ⟨d, ret', buf', d', hrun, hread', hout⟩

end MbBootTv

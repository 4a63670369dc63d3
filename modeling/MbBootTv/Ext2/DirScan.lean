import MbBootTv.Ext2.Possible
import MbBootTv.Ext2.Slots

/-!
# Scanning a directory

`ext2_readdiri` finds its place again by two static offsets and by the block that was left in
`blkbuf`. `Bufs.At` says what they mean: a block number and an offset. `readdiriNext_cases` says
where a call leads from there, in terms of what reading the blocks of the directory can yield
(`DirReads`), so that nothing further on depends on how the blocks are found.
-/

namespace MbBootTv

/-! ## Where the scan is -/

/-- A block in `blkbuf`, over whatever stands behind it. -/
def page (tail c : Bytes) (bs : Nat) : Bytes := tail.copy 0 c bs

theorem page_page (tail c c' : Bytes) (bs : Nat) : page (page tail c bs) c' bs = page tail c' bs := by
  unfold page
  funext i
  by_cases hi : i < bs
  · rw [Bytes.copy_zero_of_lt hi, Bytes.copy_zero_of_lt hi]
  · rw [Bytes.copy_of_ge (by omega), Bytes.copy_of_ge (by omega), Bytes.copy_of_ge (by omega)]

/-- The scan is at byte `o` of block `k` of its directory, which holds `c`. -/
structure Bufs.At (m : Mount) (R : UInt32 → Bytes → Prop) (tail : Bytes) (b : Bufs) (k o : Nat)
    (c : Bytes) : Prop where
  hold : b.Hold m R
  blkbuf : b.blkbuf = page tail c m.bs
  diroffset : b.diroffset.toNat = k * m.bs
  blockoffset : b.blockoffset.toNat = o

/-- What reading the blocks of the directory `ip` can yield: `P k (some c)` when block `k` may
arrive as `c`, `P k none` when it may fail. -/
def DirReads (env : Env) (m : Mount) (R : UInt32 → Bytes → Prop) (ip : Inode)
    (P : Nat → Option Bytes → Prop) : Prop :=
  ∀ (b : Bufs) (k : UInt32), b.Hold m R → k.toNat * m.bs ≤ ip.iSize.toNat →
    ∃ o b', readDirBlock env m b ip k = .ok (o.isSome, b') ∧ P k.toNat o ∧ b'.Hold m R ∧
      b'.diroffset = b.diroffset ∧ b'.blockoffset = b.blockoffset ∧
      b'.blkbuf = o.elim b.blkbuf fun c => page b.blkbuf c m.bs

/-- Where the scan goes from byte `o` of block `k`. -/
inductive NextRecord (m : Mount) (R : UInt32 → Bytes → Prop) (ip : Inode)
    (P : Nat → Option Bytes → Prop) (tail : Bytes) (k o : Nat) (c : Bytes) :
    Except Fault (Option Nat × Bufs) → Prop
  /-- The record there. -/
  | here (b' : Bufs) (hlt : o < m.bs)
      (hat : b'.At m R tail k (o + (DirEntry.recLen (page tail c m.bs) o).toNat) c) :
      NextRecord m R ip P tail k o c (.ok (some o, b'))
  /-- The first record of the next block. -/
  | block (b' : Bufs) (c' : Bytes) (hge : m.bs ≤ o) (hmore : (k + 1) * m.bs < ip.iSize.toNat)
      (hint : (k + 1) * m.bs < 2 ^ 31) (hread : P (k + 1) (some c'))
      (hat : b'.At m R tail (k + 1) (DirEntry.recLen (page tail c' m.bs) 0).toNat c') :
      NextRecord m R ip P tail k o c (.ok (some 0, b'))
  /-- No more blocks. -/
  | finished (b' : Bufs) (hge : m.bs ≤ o) (hend : ip.iSize.toNat ≤ (k + 1) * m.bs) :
      NextRecord m R ip P tail k o c (.ok (none, b'))
  /-- The next block cannot be read. -/
  | unreadable (b' : Bufs) (hge : m.bs ≤ o) (hmore : (k + 1) * m.bs < ip.iSize.toNat)
      (hread : P (k + 1) none) : NextRecord m R ip P tail k o c (.ok (none, b'))
  /-- Past the end of the buffer, or of what an `int` can hold. -/
  | outside (h : o < m.bs ∧ ext2MaxBlockSize < o + 6 ∨
        2 ^ 31 ≤ (k + 1) * m.bs ∧ (k + 1) * m.bs < ip.iSize.toNat) :
      NextRecord m R ip P tail k o c (.error .outOfBounds)

section Scan

variable {env : Env} {m : Mount} {R : UInt32 → Bytes → Prop} {ip : Inode}
  {P : Nat → Option Bytes → Prop} {tail c : Bytes} {b : Bufs} {k o : Nat}

/-- The record at the offset is returned, and the offset steps over it. -/
theorem nextDirEntry_at (h : b.At m R tail k o c) (ho : o < ext2MaxBlockSize) :
    (o + 6 ≤ ext2MaxBlockSize ∧ ∃ b', nextDirEntry b = .ok (some o, b') ∧
        b'.At m R tail k (o + (DirEntry.recLen (page tail c m.bs) o).toNat) c) ∨
      (ext2MaxBlockSize < o + 6 ∧ nextDirEntry b = .error .outOfBounds) := by
  have hlen := (DirEntry.recLen (page tail c m.bs) o).toNat_lt
  unfold nextDirEntry
  dsimp only
  rw [h.blockoffset]
  by_cases hin : o + 6 ≤ ext2MaxBlockSize
  · rw [if_pos hin]
    refine Or.inl ⟨hin, _, rfl, ⟨h.hold.iblk, h.hold.diblk⟩, h.blkbuf, h.diroffset, ?_⟩
    dsimp only
    rw [ext2MaxBlockSize] at ho
    rw [h.blkbuf, UInt32.toNat_add, h.blockoffset, UInt16.toNat_toUInt32,
      Nat.mod_eq_of_lt (by omega)]
  · rw [if_neg hin]
    exact Or.inr ⟨by omega, rfl⟩

/-- The signed division by which `ext2_readdiri` gets back to a block number. -/
theorem toUInt32_div_blocksize (hm : m.Sound) {d : UInt32} (hd : d.toNat < 2 ^ 31) :
    (d.toInt32 / m.blocksize.toInt32).toUInt32.toNat = d.toNat / m.bs := by
  have hbs : m.blocksize.toNat < 2 ^ 31 := by
    rcases hm.blocksize with h | h | h <;> rw [h] <;> decide
  have hword (a : UInt32) : a.toInt32 = Int32.ofNat a.toNat := by
    rw [← UInt32.toInt32_ofNat', UInt32.ofNat_toNat]
  have hlt : d.toNat / m.blocksize.toNat < 2 ^ 32 := (Nat.div_le_self _ _).trans_lt (by omega)
  rw [hword, hword, ← Int32.ofNat_div hd hbs, Int32.toUInt32_ofNat', UInt32.toNat_ofNat',
    Nat.mod_eq_of_lt hlt]
  rfl

theorem ext2Blkno_negative (hm : m.Sound) {blkno : UInt32} (h : 2 ^ 31 ≤ blkno.toNat) :
    ext2Blkno env m b ip blkno = .error .outOfBounds := by
  have hlt := blkno.toNat_lt
  have hneg : sle blkno m.directlim = true := by
    rw [sle, hm.directlim, decide_eq_true_iff, Int32.le_iff_toInt_le]
    have hval : blkno.toInt32.toInt = (blkno.toNat : Int) - 2 ^ 32 := by
      show blkno.toBitVec.toInt = _
      rw [BitVec.toInt_eq_toNat_cond, UInt32.toNat_toBitVec, if_neg (by omega)]
      rfl
    rw [hval]
    show _ ≤ (11 : Int)
    omega
  unfold ext2Blkno
  rw [if_pos hneg, if_neg (by rw [ext2NBlocks]; omega)]

/-- A block number that has become negative is no index into `i_block`. -/
theorem readDirBlock_negative (hm : m.Sound) {blkno : UInt32}
    (h : 2 ^ 31 + 2 ^ 30 ≤ blkno.toNat) :
    readDirBlock env m b ip blkno = .error .outOfBounds := by
  have hloop (n : Nat) (nblks : UInt32) (hn : nblks.toNat = n + 1) :
      breadiLoop env m ip ext2MaxBlockSize nblks.toNat
        ⟨blkno, nblks.toNat, b.blkbuf, 0, 0, b⟩ = .error .outOfBounds := by
    rw [hn, breadiLoop]
    simp only [ext2Blkno_negative hm (by omega : 2 ^ 31 ≤ blkno.toNat), error_bind]
  have hb0 : m.blocksize ≠ 0 := by
    rcases hm.blocksize with h | h | h <;> rw [h] <;> decide
  unfold readDirBlock ext2Breadi
  dsimp only
  by_cases hclamp : (blkno + 1) * m.blocksize > ip.iSize
  · rw [if_pos hclamp, if_neg hb0]
    -- The count is not 0: the quotient is far below the block number.
    have hquot : ((ip.iSize + m.blocksize) / m.blocksize).toNat < 2 ^ 30 := by
      have hsum := (ip.iSize + m.blocksize).toNat_lt
      rw [UInt32.toNat_div]
      rcases hm.blocksize with h | h | h <;> rw [h] at hsum ⊢ <;> simp at hsum ⊢ <;> omega
    have hcount : ((ip.iSize + m.blocksize) / m.blocksize - blkno).toNat ≠ 0 := by
      have hlt := blkno.toNat_lt
      rw [UInt32.toNat_sub]
      omega
    obtain ⟨n, hn⟩ := Nat.exists_eq_succ_of_ne_zero hcount
    rw [hloop n _ hn]
    rfl
  · rw [if_neg hclamp, hloop 0 1 rfl]
    rfl

theorem readdiriNext_here (h : b.At m R tail k o c) (hm : m.Sound) (ho : o < m.bs) :
    readdiriNext env m b ip = nextDirEntry b := by
  have hbs := hm.cases
  unfold readdiriNext
  refine if_neg ?_
  rw [sle_iff (show m.blocksize.toNat < 2 ^ 31 from by simp only [Mount.bs] at hbs; omega)
    (by rw [h.blockoffset]; omega), h.blockoffset]
  exact not_le.mpr ho

/-- **Where a call of `ext2_readdiri` leads.** -/
theorem readdiriNext_cases (hm : m.Sound) (hP : DirReads env m R ip P) (h : b.At m R tail k o c)
    (hk : k * m.bs < 2 ^ 31) (ho : o < 2 ^ 31) :
    NextRecord m R ip P tail k o c (readdiriNext env m b ip) := by
  have hbs := hm.cases
  have hmax : m.bs ≤ ext2MaxBlockSize := hm.fits
  by_cases hlt : o < m.bs
  · rw [readdiriNext_here h hm hlt]
    rcases nextDirEntry_at h (lt_of_lt_of_le hlt hmax) with ⟨-, b', heq, hat⟩ | ⟨hout, heq⟩
    · rw [heq]
      exact .here b' hlt hat
    · rw [heq]
      exact .outside (Or.inl ⟨hlt, hout⟩)
  have hge : m.bs ≤ o := not_lt.mp hlt
  have hused : sle m.blocksize b.blockoffset = true := by
    rw [sle_iff (show m.blocksize.toNat < 2 ^ 31 from by simp only [Mount.bs] at hbs; omega)
      (by rw [h.blockoffset]; exact ho), h.blockoffset]
    exact hge
  have hdir : (b.diroffset + m.blocksize).toNat = (k + 1) * m.bs := by
    rw [UInt32.toNat_add, h.diroffset, Nat.add_mul, Nat.one_mul]
    exact Nat.mod_eq_of_lt (by simp only [Mount.bs] at hbs hk ⊢; omega)
  have hb0 : m.blocksize ≠ 0 := by
    rcases hm.blocksize with h | h | h <;> rw [h] <;> decide
  unfold readdiriNext
  rw [if_pos hused]
  dsimp only
  by_cases hend : ip.iSize ≤ b.diroffset + m.blocksize
  · rw [if_pos hend]
    rw [UInt32.le_iff_toNat_le, hdir] at hend
    exact .finished _ hge hend
  rw [if_neg hend, if_neg hb0]
  rw [UInt32.le_iff_toNat_le, hdir, not_le] at hend
  by_cases hint : (k + 1) * m.bs < 2 ^ 31
  · have hblk : ((b.diroffset + m.blocksize).toInt32 / m.blocksize.toInt32).toUInt32.toNat =
        k + 1 := by
      rw [toUInt32_div_blocksize hm (by rw [hdir]; exact hint), hdir]
      exact Nat.mul_div_cancel _ (by omega)
    obtain ⟨r, b', hread, hyield, hhold, hoff, -, hbuf⟩ :=
      hP { b with diroffset := b.diroffset + m.blocksize } _ ⟨h.hold.iblk, h.hold.diblk⟩
        (by rw [hblk]; exact hend.le)
    rw [hread]
    rw [hblk] at hyield
    cases r with
    | none => exact .unreadable b' hge hend hyield
    | some c' =>
      have hat : Bufs.At m R tail { b' with blockoffset := 0 } (k + 1) 0 c' := by
        refine ⟨⟨hhold.iblk, hhold.diblk⟩, ?_, by rw [hoff]; exact hdir, rfl⟩
        dsimp only at hbuf ⊢
        rw [hbuf, h.blkbuf]
        exact page_page tail c c' m.bs
      rcases nextDirEntry_at hat (by rw [ext2MaxBlockSize]; omega) with
        ⟨-, b'', heq, hat'⟩ | ⟨hout, -⟩
      · simp only [ok_bind, Option.isSome_some, Bool.not_true, Bool.false_eq_true, if_false, heq]
        rw [Nat.zero_add] at hat'
        exact .block b'' c' hge hend hint hyield hat'
      · rw [ext2MaxBlockSize] at hout
        omega
  · -- The offset has become 2^31, which is negative as an `int`.
    have heq : b.diroffset + m.blocksize = 0x80000000 := by
      rw [← UInt32.toNat_inj, hdir]
      show _ = 2 ^ 31
      rcases hbs with ⟨hb, -⟩ | ⟨hb, -⟩ | ⟨hb, -⟩ <;> rw [hb] at hk hint ⊢ <;> omega
    have hneg : 2 ^ 31 + 2 ^ 30 ≤
        ((b.diroffset + m.blocksize).toInt32 / m.blocksize.toInt32).toUInt32.toNat := by
      rw [heq]
      rcases hm.blocksize with h | h | h <;> rw [h] <;> decide
    rw [readDirBlock_negative hm hneg]
    exact .outside (Or.inr ⟨not_lt.mp hint, hend⟩)

/-- The first call reads block 0 and goes on from its first byte. -/
theorem ext2Readdiri_rewind (hP : DirReads env m R ip P) (hb : b.Hold m R) :
    (P 0 none ∧ ∃ b', ext2Readdiri env m b ip true = .ok (none, b')) ∨
      ∃ c b', P 0 (some c) ∧ b'.At m R b.blkbuf 0 0 c ∧
        ext2Readdiri env m b ip true = readdiriNext env m b' ip := by
  obtain ⟨r, b', hread, hyield, hhold, hoff, hoff', hbuf⟩ :=
    hP { b with diroffset := 0, blockoffset := 0 } 0 ⟨hb.iblk, hb.diblk⟩ (by simp)
  unfold ext2Readdiri
  rw [if_pos rfl, hread]
  cases r with
  | none => exact Or.inl ⟨hyield, b', rfl⟩
  | some c =>
    refine Or.inr ⟨c, b', hyield, ⟨hhold, hbuf, ?_, ?_⟩, rfl⟩
    · rw [hoff, Nat.zero_mul]
      rfl
    · rw [hoff']
      rfl

end Scan

/-! ## What reading the blocks can yield -/

theorem Mount.Sound.sneg_blocksize {m : Mount} (hm : m.Sound) : sneg m.blocksize = false := by
  rcases hm.blocksize with h | h | h <;> rw [h] <;> decide

/-- On a medium of which nothing is known. -/
theorem dirReads_canRead {env : Env} {m : Mount} {R : UInt32 → Bytes → Prop} (hm : m.Sound)
    (hR : Delivers env m R) (ip : Inode) : DirReads env m R ip (CanRead env m R ip) := by
  intro b k hb hin
  obtain ⟨o, b', hread, hcan⟩ := ext2Breadi_possible hm hb hR hin b.blkbuf
  have hstep := ext2Breadi_step hread
  unfold readDirBlock
  rw [hread]
  refine ⟨o, { b' with blkbuf := o.elim b.blkbuf fun c => page b.blkbuf c m.bs }, ?_, hcan,
    ⟨(hstep.hold R hR hb).iblk, (hstep.hold R hR hb).diblk⟩, hstep.diroffset, hstep.blockoffset,
    rfl⟩
  cases o with
  | none => rfl
  | some c =>
    simp only [Option.isSome_some, if_true, ok_bind, hm.sneg_blocksize]
    rfl

end MbBootTv

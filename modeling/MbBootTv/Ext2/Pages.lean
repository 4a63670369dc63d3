import MbBootTv.Ext2.DirScan
import MbBootTv.Ext2.Mount
import MbBootTv.Ext2.ReadBlock

/-!
# The blocks of a directory, one after another

`ext2_readdiri` keeps its place in two static offsets, which no function below it looks at
(`readDirBlock_seek`). So the blocks that a scan gets to see are those that come when the blocks
of the directory are read in order: `dirPages`. They depend on the disk, the inode and the caches
at the start, and on nothing that the scan does in between.
-/

namespace MbBootTv

/-! ## The static offsets -/

/-- The buffers with the static offsets at `d` and `o`. -/
def Bufs.seek (b : Bufs) (d o : UInt32) : Bufs := { b with diroffset := d, blockoffset := o }

/-- The same in what a read of blocks returns. -/
def seekBufs {α : Type} (d o : UInt32) (r : α × Bufs) : α × Bufs := (r.1, r.2.seek d o)

section Seek

variable {env : Env} {m : Mount} {b : Bufs} {ip : Inode} {d o n i k : UInt32}

theorem readBytes_seek (offset size : UInt32) :
    readBytes env (b.seek d o) offset size =
      seekBufs d o (readBytes env b offset size) := by
  unfold readBytes
  dsimp only
  split_ifs <;> rfl

theorem loadIblk_seek : loadIblk env m (b.seek d o) n = (loadIblk env m b n).map (seekBufs d o) := by
  unfold loadIblk
  rw [readBytes_seek]
  rcases readBytes env b (n * m.blocksize) m.blocksize with ⟨_ | data, b'⟩
  · show (if b.cachedIblkno ≠ n then _ else _) = _
    split_ifs <;> rfl
  · show (if b.cachedIblkno ≠ n then _ else _) = _
    dsimp only
    split_ifs <;> rfl

theorem loadDiblk_seek : loadDiblk env m (b.seek d o) n = (loadDiblk env m b n).map (seekBufs d o) := by
  unfold loadDiblk
  rw [readBytes_seek]
  rcases readBytes env b (n * m.blocksize) m.blocksize with ⟨_ | data, b'⟩
  · show (if b.cachedDiblkno ≠ n then _ else _) = _
    split_ifs <;> rfl
  · show (if b.cachedDiblkno ≠ n then _ else _) = _
    dsimp only
    split_ifs <;> rfl

theorem indEntry_seek : indEntry env m (b.seek d o) n i = (indEntry env m b n i).map (seekBufs d o) := by
  unfold indEntry
  split_ifs with h0
  · rfl
  · rw [loadIblk_seek]
    refine map_bind fun ⟨ok, b'⟩ _ => ?_
    cases ok with
    | false => rfl
    | true =>
      show (ptrAt b'.iblkbuf i >>= _) = (ptrAt b'.iblkbuf i >>= _).map _
      cases ptrAt b'.iblkbuf i <;> rfl

theorem dindEntry_seek :
    dindEntry env m (b.seek d o) n i = (dindEntry env m b n i).map (seekBufs d o) := by
  unfold dindEntry
  split_ifs with h0
  · rfl
  · rw [loadDiblk_seek]
    refine map_bind fun ⟨ok, b'⟩ _ => ?_
    cases ok with
    | false => rfl
    | true =>
      show (ptrAt b'.diblkbuf i >>= _) = (ptrAt b'.diblkbuf i >>= _).map _
      cases ptrAt b'.diblkbuf i <;> rfl

theorem ext2Blkno_seek :
    ext2Blkno env m (b.seek d o) ip k = (ext2Blkno env m b ip k).map (seekBufs d o) := by
  unfold ext2Blkno
  split_ifs
  · rfl
  · rfl
  · exact indEntry_seek
  · rfl
  · dsimp only
    rw [dindEntry_seek]
    exact map_bind fun _ _ => indEntry_seek
  · rfl

/-- The buffers in the inner loop. -/
def ContigLoop.seek (l : ContigLoop) (d o : UInt32) : ContigLoop :=
  { l with bufs := l.bufs.seek d o }

theorem contigLoop_seek {dev : UInt32} {c : Nat} {l : ContigLoop} :
    contigLoop env m ip dev c (l.seek d o) =
      (contigLoop env m ip dev c l).map (ContigLoop.seek · d o) := by
  induction c generalizing l with
  | zero => rfl
  | succ c ih =>
    unfold contigLoop
    show (ext2Blkno env m (l.bufs.seek d o) ip (l.blkno + 1) >>= _) = _
    rw [ext2Blkno_seek]
    refine map_bind fun x _ => ?_
    obtain ⟨r, b'⟩ := x
    show (if r = dev + (l.ncontig + 1) then _ else _) = Except.map _ (if _ then _ else _)
    split_ifs
    · exact ih (l := ⟨l.blkno + 1, c + 1, l.ncontig + 1, l.nbytes + m.blocksize, b'⟩)
    · rfl

/-- The buffers in the outer loop. -/
def BreadiLoop.seek (l : BreadiLoop) (d o : UInt32) : BreadiLoop :=
  { l with bufs := l.bufs.seek d o }

/-- The buffers in what `ext2_breadi` returns. -/
def seekRead (d o : UInt32) (r : UInt32 × Bytes × Bufs) : UInt32 × Bytes × Bufs :=
  (r.1, r.2.1, r.2.2.seek d o)

theorem breadiLoop_seek {cap f : Nat} {l : BreadiLoop} :
    breadiLoop env m ip cap f (l.seek d o) =
      (breadiLoop env m ip cap f l).map (seekRead d o) := by
  induction f generalizing l with
  | zero => rfl
  | succ f ih =>
    obtain ⟨blkno, nblks, buffer, pos, tot, b⟩ := l
    cases nblks with
    | zero => rfl
    | succ c =>
      unfold breadiLoop
      show (ext2Blkno env m (b.seek d o) ip blkno >>= _) = _
      rw [ext2Blkno_seek]
      refine map_bind fun r _ => ?_
      obtain ⟨dev, b₁⟩ := r
      show (contigLoop env m ip dev c (ContigLoop.seek ⟨blkno, c + 1, 0, 0, b₁⟩ d o) >>= _) = _
      rw [contigLoop_seek]
      refine map_bind fun l _ => ?_
      by_cases h0 : dev = 0
      · show (if dev = 0 then _ else _) = Except.map _ (if dev = 0 then _ else _)
        rw [if_pos h0, if_pos h0]
        show (if cap < pos + l.nbytes.toNat then _ else _) =
          Except.map _ (if cap < pos + l.nbytes.toNat then _ else _)
        split_ifs
        · rfl
        · exact ih (l := ⟨l.blkno, l.nblks, buffer.fill pos 0 l.nbytes.toNat,
            pos + l.nbytes.toNat, tot + l.nbytes, l.bufs⟩)
      · show (if dev = 0 then _ else _) = Except.map _ (if dev = 0 then _ else _)
        rw [if_neg h0, if_neg h0]
        dsimp only [ContigLoop.seek]
        rw [readBytes_seek]
        rcases readBytes env l.bufs (dev * m.blocksize) l.nbytes with ⟨_ | data, b₂⟩
        · rfl
        · show (if cap < pos + l.nbytes.toNat then _ else _) =
            Except.map _ (if cap < pos + l.nbytes.toNat then _ else _)
          split_ifs
          · rfl
          · exact ih (l := ⟨l.blkno, l.nblks, buffer.copy pos data l.nbytes.toNat,
              pos + l.nbytes.toNat, tot + l.nbytes, b₂⟩)

theorem ext2Breadi_seek {nblks : UInt32} {buffer : Bytes} {cap : Nat} :
    ext2Breadi env m (b.seek d o) ip k nblks buffer cap =
      (ext2Breadi env m b ip k nblks buffer cap).map (seekRead d o) := by
  unfold ext2Breadi
  dsimp only
  split_ifs
  · rfl
  · exact breadiLoop_seek (l := ⟨k, _, buffer, 0, 0, b⟩)
  · exact breadiLoop_seek (l := ⟨k, _, buffer, 0, 0, b⟩)

/-- **Reading a block of a directory does not look at the static offsets.** -/
theorem readDirBlock_seek :
    readDirBlock env m (b.seek d o) ip k = (readDirBlock env m b ip k).map (seekBufs d o) := by
  unfold readDirBlock
  rw [ext2Breadi_seek]
  exact map_bind fun _ _ => rfl

end Seek

/-! ## The blocks in order -/

/-- Read the blocks 0 to `k` of a directory, in order, and stop at one that cannot be read. -/
def dirPages (env : Env) (m : Mount) (ip : Inode) (b : Bufs) : Nat → Except Fault (Bool × Bufs)
  | 0 => readDirBlock env m b ip 0
  | k + 1 => do
    let (ok, b) ← dirPages env m ip b k
    if !ok then return (false, b)
    readDirBlock env m b ip (UInt32.ofNat (k + 1))

/-- Where a scan is at byte `o` of block `k`. -/
def Bufs.scanAt (b : Bufs) (m : Mount) (k o : Nat) : Bufs :=
  b.seek (UInt32.ofNat (k * m.bs)) (UInt32.ofNat o)

section Scan

variable {env : Env} {m : Mount} {b p : Bufs} {ip : Inode} {k o : Nat}

theorem toNat_ofNat_of_lt {n : Nat} (h : n < 2 ^ 32) : (UInt32.ofNat n).toNat = n := by
  rw [UInt32.toNat_ofNat', Nat.mod_eq_of_lt h]

/-- The test for the end of the block. -/
theorem sle_scanAt (hm : m.Sound) (ho : o < 2 ^ 31) :
    sle m.blocksize (UInt32.ofNat o) = true ↔ m.bs ≤ o := by
  have hbs : m.blocksize.toNat < 2 ^ 31 := by
    rcases hm.blocksize with h | h | h <;> rw [h] <;> decide
  rw [sle_iff hbs (by rw [toNat_ofNat_of_lt (by omega)]; exact ho), toNat_ofNat_of_lt (by omega)]
  rfl

theorem nextDirEntry_scanAt (ho : o < 2 ^ 31) :
    nextDirEntry (p.scanAt m k o) =
      if o + 6 ≤ ext2MaxBlockSize then
        .ok (some o, p.scanAt m k (o + (DirEntry.recLen p.blkbuf o).toNat))
      else .error .outOfBounds := by
  have hnat : (p.scanAt m k o).blockoffset.toNat = o := toNat_ofNat_of_lt (by omega)
  unfold nextDirEntry
  dsimp only
  rw [hnat]
  split_ifs
  · have hadd : UInt32.ofNat o + (DirEntry.recLen p.blkbuf o).toUInt32 =
        UInt32.ofNat (o + (DirEntry.recLen p.blkbuf o).toNat) := by
      rw [UInt32.ofNat_add]
      congr 1
      rw [← UInt32.toNat_inj, UInt16.toNat_toUInt32, UInt32.toNat_ofNat', Nat.mod_eq_of_lt]
      exact (DirEntry.recLen p.blkbuf o).toNat_lt.trans (by decide)
    show Except.ok (some o, p.seek _ (UInt32.ofNat o + (DirEntry.recLen p.blkbuf o).toUInt32)) = _
    rw [hadd]
    rfl
  · rfl

/-- Inside a block, the next record is the one there. -/
theorem readdiriNext_inside (hm : m.Sound) (ho : o < m.bs) :
    readdiriNext env m (p.scanAt m k o) ip = nextDirEntry (p.scanAt m k o) := by
  have hbs := hm.cases
  refine if_neg fun h => ?_
  exact absurd ((sle_scanAt hm (by omega)).mp h) (not_le.mpr ho)

/-- Behind a block, the scan ends or goes on with the next one. -/
theorem readdiriNext_behind (hm : m.Sound) (hk : k * m.bs < 2 ^ 31) (hge : m.bs ≤ o)
    (ho : o < 2 ^ 31) :
    (ip.iSize.toNat ≤ (k + 1) * m.bs ∧
        ∃ b', readdiriNext env m (p.scanAt m k o) ip = .ok (none, b')) ∨
      ((k + 1) * m.bs < ip.iSize.toNat ∧ 2 ^ 31 ≤ (k + 1) * m.bs ∧
        readdiriNext env m (p.scanAt m k o) ip = .error .outOfBounds) ∨
      ((k + 1) * m.bs < ip.iSize.toNat ∧ (k + 1) * m.bs < 2 ^ 31 ∧
        readdiriNext env m (p.scanAt m k o) ip = (do
          let (ok, b) ← readDirBlock env m (p.scanAt m (k + 1) o) ip (UInt32.ofNat (k + 1))
          if !ok then return (none, b)
          nextDirEntry { b with blockoffset := 0 })) := by
  have hbs := hm.cases
  have hpos : 0 < m.bs := by omega
  have hb0 : m.blocksize ≠ 0 := by
    rcases hm.blocksize with h | h | h <;> rw [h] <;> decide
  have hdir : UInt32.ofNat (k * m.bs) + m.blocksize = UInt32.ofNat ((k + 1) * m.bs) := by
    rw [Nat.succ_mul, UInt32.ofNat_add]
    exact congrArg _ UInt32.ofNat_toNat.symm
  have hnat : (UInt32.ofNat ((k + 1) * m.bs)).toNat = (k + 1) * m.bs :=
    toNat_ofNat_of_lt (by rw [Nat.succ_mul]; omega)
  have hstep : readdiriNext env m (p.scanAt m k o) ip =
      (let b := p.scanAt m (k + 1) o
      if ip.iSize ≤ b.diroffset then .ok (none, b)
      else if m.blocksize = 0 then .error .divByZero
      else do
        let blkno := (b.diroffset.toInt32 / m.blocksize.toInt32).toUInt32
        let (ok, b) ← readDirBlock env m b ip blkno
        if !ok then return (none, b)
        nextDirEntry { b with blockoffset := 0 }) := by
    refine (if_pos ((sle_scanAt hm ho).mpr hge)).trans ?_
    have hb : { p.scanAt m k o with diroffset := (p.scanAt m k o).diroffset + m.blocksize } =
        p.scanAt m (k + 1) o := by
      show p.seek (UInt32.ofNat (k * m.bs) + m.blocksize) _ = _
      rw [hdir]
      rfl
    rw [hb]
  rw [hstep]
  dsimp only [Bufs.scanAt, Bufs.seek]
  simp only [UInt32.le_iff_toNat_le, hnat, if_neg hb0]
  by_cases hend : ip.iSize.toNat ≤ (k + 1) * m.bs
  · rw [if_pos hend]
    exact .inl ⟨hend, _, rfl⟩
  rw [if_neg hend]
  rw [not_le] at hend
  by_cases hint : (k + 1) * m.bs < 2 ^ 31
  · have hblk : ((UInt32.ofNat ((k + 1) * m.bs)).toInt32 / m.blocksize.toInt32).toUInt32 =
        UInt32.ofNat (k + 1) := by
      rw [← UInt32.toNat_inj, toUInt32_div_blocksize hm (by rw [hnat]; exact hint), hnat,
        Nat.mul_div_cancel _ hpos, toNat_ofNat_of_lt]
      exact (Nat.le_mul_of_pos_right (k + 1) hpos).trans_lt (hint.trans (by decide))
    rw [hblk]
    exact .inr (.inr ⟨hend, hint, rfl⟩)
  · -- The offset has become 2^31, which is negative as an `int`.
    have heq : UInt32.ofNat ((k + 1) * m.bs) = 0x80000000 := by
      rw [← UInt32.toNat_inj, hnat]
      show _ = 2 ^ 31
      rcases hbs with ⟨hb, -⟩ | ⟨hb, -⟩ | ⟨hb, -⟩ <;> rw [hb] at hk hint ⊢ <;> omega
    have hneg : 2 ^ 31 + 2 ^ 30 ≤
        ((UInt32.ofNat ((k + 1) * m.bs)).toInt32 / m.blocksize.toInt32).toUInt32.toNat := by
      rw [heq]
      rcases hm.blocksize with h | h | h <;> rw [h] <;> decide
    rw [readDirBlock_negative hm hneg]
    exact .inr (.inl ⟨hend, not_lt.mp hint, rfl⟩)

/-- The scan starts at the first byte of block 0. -/
theorem ext2Readdiri_start :
    ext2Readdiri env m b ip true = (do
      let (ok, p) ← dirPages env m ip b 0
      if !ok then return (none, p.seek 0 0)
      readdiriNext env m (p.scanAt m 0 0) ip) := by
  unfold ext2Readdiri dirPages
  rw [if_pos rfl]
  show (readDirBlock env m (b.seek 0 0) ip 0 >>= _) = _
  rw [readDirBlock_seek]
  cases readDirBlock env m b ip 0 with
  | error e => rfl
  | ok r =>
    have hzero : UInt32.ofNat (0 * m.bs) = 0 := by rw [Nat.zero_mul]; rfl
    obtain ⟨ok, p⟩ := r
    cases ok with
    | false => rfl
    | true =>
      show readdiriNext env m (p.seek 0 0) ip = readdiriNext env m (p.scanAt m 0 0) ip
      unfold Bufs.scanAt
      rw [hzero]
      rfl

/-- **Where a scan goes behind a block**, in terms of the blocks in order. -/
theorem readdiriNext_next (hm : m.Sound) (hp : dirPages env m ip b k = .ok (true, p))
    (hk : k * m.bs < 2 ^ 31) (hge : m.bs ≤ o) (ho : o < 2 ^ 31) :
    (ip.iSize.toNat ≤ (k + 1) * m.bs ∧
        ∃ b', readdiriNext env m (p.scanAt m k o) ip = .ok (none, b')) ∨
      ((k + 1) * m.bs < ip.iSize.toNat ∧ 2 ^ 31 ≤ (k + 1) * m.bs ∧
        readdiriNext env m (p.scanAt m k o) ip = .error .outOfBounds) ∨
      ((k + 1) * m.bs < ip.iSize.toNat ∧ (k + 1) * m.bs < 2 ^ 31 ∧
        readdiriNext env m (p.scanAt m k o) ip = (do
          let (ok, p) ← dirPages env m ip b (k + 1)
          if !ok then return (none, p.scanAt m (k + 1) o)
          nextDirEntry (p.scanAt m (k + 1) 0))) := by
  refine (readdiriNext_behind hm hk hge ho).imp_right (Or.imp_right fun ⟨hmore, hint, heq⟩ =>
    ⟨hmore, hint, heq.trans ?_⟩)
  have hpage : dirPages env m ip b (k + 1) = readDirBlock env m p ip (UInt32.ofNat (k + 1)) := by
    rw [dirPages, hp]
    rfl
  rw [hpage]
  show (readDirBlock env m (p.seek _ _) ip _ >>= _) = _
  rw [readDirBlock_seek]
  cases readDirBlock env m p ip (UInt32.ofNat (k + 1)) with
  | error e => rfl
  | ok r =>
    obtain ⟨ok, p'⟩ := r
    cases ok <;> rfl

end Scan

end MbBootTv

import MbBootTv.Ext2.Cache

/-!
# The block map

`blknoOf` maps a block of a file to a block of the file system by what the indirect blocks hold,
with no cache in sight. `ext2Blkno_spec` connects `ext2_blkno` to it.
-/

namespace MbBootTv

/-! ## The mount -/

/-- What the mount computes from a block size that fits the buffers. -/
structure Mount.Sound (m : Mount) : Prop where
  blocksize : m.blocksize = 1024 ∨ m.blocksize = 2048 ∨ m.blocksize = 4096
  directlim : m.directlim = 11
  ptrsPerBlk : m.ptrsPerBlk = m.blocksize / 4
  ind1lim : m.ind1lim = m.ptrsPerBlk + 11
  ind2lim : m.ind2lim = m.ptrsPerBlk * m.ptrsPerBlk + 11

namespace Mount

/-- Pointers per block, as a number. -/
def ptrs (m : Mount) : Nat := m.blocksize.toNat / 4

/-- Bytes per block, as a number. -/
def bs (m : Mount) : Nat := m.blocksize.toNat

theorem Sound.cases {m : Mount} (h : m.Sound) :
    m.bs = 1024 ∧ m.ptrs = 256 ∨ m.bs = 2048 ∧ m.ptrs = 512 ∨ m.bs = 4096 ∧ m.ptrs = 1024 := by
  rcases h.blocksize with hb | hb | hb <;> simp [bs, ptrs, hb]

/-- The limits of the block map as numbers; the last one can have wrapped. -/
structure Limits (m : Mount) (q : Nat) : Prop where
  directlim : m.directlim = 11
  ptrsPerBlk : m.ptrsPerBlk.toNat = m.ptrs
  pos : 0 < m.ptrs
  ind1lim : m.ind1lim.toNat = m.ptrs + 11
  ind2lim : m.ind2lim.toNat = q + 11
  le : q ≤ m.ptrs * m.ptrs
  small : m.ptrs + 11 < 2 ^ 31
  small' : q + 11 < 2 ^ 31

theorem Sound.limits {m : Mount} (h : m.Sound) : m.Limits (m.ptrs * m.ptrs) := by
  obtain ⟨hb, hd, hp, h1, h2⟩ := h
  rcases hb with hb | hb | hb <;> constructor <;> simp [h1, h2, hd, hp, ptrs, hb]

end Mount

/-! ## The map without caches -/

/-- Pointer `i` of indirect block `n`; 0 when there is no such block or it is not known. -/
def pointer (truth : UInt32 → Option Bytes) (n : UInt32) (i : Nat) : UInt32 :=
  if n = 0 then 0
  else
    match truth n with
    | none => 0
    | some c => c.le32 (4 * i)

/-- The block that `ext2_blkno` names for block `k` of a file, by what `truth` says of the
indirect blocks. -/
def blknoOf (m : Mount) (truth : UInt32 → Option Bytes) (ip : Inode) (k : Nat) : UInt32 :=
  if k < 12 then ip.iBlock k
  else if k < 12 + m.ptrs then pointer truth (ip.iBlock ext2IndBlock) (k - 12)
  else if k < 12 + m.ptrs * m.ptrs then
    pointer truth (pointer truth (ip.iBlock ext2DindBlock) ((k - 12 - m.ptrs) / m.ptrs))
      ((k - 12 - m.ptrs) % m.ptrs)
  else 0

/-- No pointer to an indirect block is the word that marks a cache as empty. -/
structure NoSentinel (m : Mount) (truth : UInt32 → Option Bytes) (ip : Inode) : Prop where
  ind : ip.iBlock ext2IndBlock ≠ -1
  dind : ip.iBlock ext2DindBlock ≠ -1
  entries : ∀ i < m.ptrs, pointer truth (ip.iBlock ext2DindBlock) i ≠ -1

/-- None of the pointers that are followed for block `k` is. -/
structure NoSentinelAt (m : Mount) (truth : UInt32 → Option Bytes) (ip : Inode) (k : Nat) :
    Prop where
  ind : 12 ≤ k → k < 12 + m.ptrs → ip.iBlock ext2IndBlock ≠ -1
  dind : 12 + m.ptrs ≤ k → k < 12 + m.ptrs * m.ptrs → ip.iBlock ext2DindBlock ≠ -1
  entry : 12 + m.ptrs ≤ k → k < 12 + m.ptrs * m.ptrs →
    pointer truth (ip.iBlock ext2DindBlock) ((k - 12 - m.ptrs) / m.ptrs) ≠ -1

theorem NoSentinel.at {m : Mount} {truth : UInt32 → Option Bytes} {ip : Inode}
    (h : NoSentinel m truth ip) (k : Nat) : NoSentinelAt m truth ip k where
  ind _ _ := h.ind
  dind _ _ := h.dind
  entry hlo hlt := h.entries _ (Nat.div_lt_of_lt_mul (by omega))

/-! ## `ext2_blkno` -/

section Blkno

variable {env : Env} {m : Mount} {b b' : Bufs} {ip : Inode} {r n i blkoff : UInt32}
  {truth : UInt32 → Option Bytes}

theorem indEntry_step (h : indEntry env m b n i = .ok (r, b')) : MapStep env m b b' := by
  unfold indEntry at h
  split_ifs at h
  · obtain ⟨-, rfl⟩ := Prod.mk.inj (Except.ok.inj h)
    exact MapStep.refl _
  · obtain ⟨⟨ok, b₁⟩, hload, h⟩ := bind_eq_ok.mp h
    have hstep := (loadIblk_spec hload).1.step
    cases ok with
    | false =>
      obtain ⟨-, rfl⟩ := Prod.mk.inj (Except.ok.inj h)
      exact hstep
    | true =>
      obtain ⟨x, -, h⟩ := bind_eq_ok.mp h
      obtain ⟨-, rfl⟩ := Prod.mk.inj (Except.ok.inj h)
      exact hstep

theorem dindEntry_step (h : dindEntry env m b n i = .ok (r, b')) : MapStep env m b b' := by
  unfold dindEntry at h
  split_ifs at h
  · obtain ⟨-, rfl⟩ := Prod.mk.inj (Except.ok.inj h)
    exact MapStep.refl _
  · obtain ⟨⟨ok, b₁⟩, hload, h⟩ := bind_eq_ok.mp h
    have hstep := (loadDiblk_spec hload).1.step
    cases ok with
    | false =>
      obtain ⟨-, rfl⟩ := Prod.mk.inj (Except.ok.inj h)
      exact hstep
    | true =>
      obtain ⟨x, -, h⟩ := bind_eq_ok.mp h
      obtain ⟨-, rfl⟩ := Prod.mk.inj (Except.ok.inj h)
      exact hstep

theorem ext2Blkno_step (h : ext2Blkno env m b ip blkoff = .ok (r, b')) : MapStep env m b b' := by
  unfold ext2Blkno at h
  split_ifs at h
  · obtain ⟨-, rfl⟩ := Prod.mk.inj (Except.ok.inj h)
    exact MapStep.refl _
  · exact indEntry_step h
  · obtain ⟨⟨iblkno, b₁⟩, hdind, h⟩ := bind_eq_ok.mp h
    exact (dindEntry_step hdind).trans (indEntry_step h)
  · obtain ⟨-, rfl⟩ := Prod.mk.inj (Except.ok.inj h)
    exact MapStep.refl _

theorem Mount.Sound.fits (hm : m.Sound) : m.blocksize.toNat ≤ ext2MaxBlockSize := by
  rcases hm.blocksize with h | h | h <;> rw [h] <;> decide

theorem Mount.Sound.ptr_fits (hm : m.Sound) {j : Nat} (hj : j < m.ptrs) :
    4 * j < ext2MaxBlockSize := by
  have := hm.cases
  rw [ext2MaxBlockSize]
  omega

theorem indEntry_total (env : Env) (hm : m.Sound) (b : Bufs) (n : UInt32) (hi : i.toNat < m.ptrs) :
    ∃ r b', indEntry env m b n i = .ok (r, b') := by
  unfold indEntry
  by_cases h0 : n = 0
  · exact ⟨_, _, if_pos h0⟩
  · rw [if_neg h0]
    obtain ⟨ok, b', hload⟩ := loadIblk_total env hm.fits b n
    rw [hload]
    cases ok with
    | false => exact ⟨_, _, rfl⟩
    | true => exact ⟨b'.iblkbuf.le32 (4 * i.toNat), b', by
        simp [ptrAt, if_pos (hm.ptr_fits hi)]⟩

theorem dindEntry_total (env : Env) (hm : m.Sound) (b : Bufs) (n : UInt32)
    (hi : i.toNat < m.ptrs) : ∃ r b', dindEntry env m b n i = .ok (r, b') := by
  unfold dindEntry
  by_cases h0 : n = 0
  · exact ⟨_, _, if_pos h0⟩
  · rw [if_neg h0]
    obtain ⟨ok, b', hload⟩ := loadDiblk_total env hm.fits b n
    rw [hload]
    cases ok with
    | false => exact ⟨_, _, rfl⟩
    | true => exact ⟨b'.diblkbuf.le32 (4 * i.toNat), b', by
        simp [ptrAt, if_pos (hm.ptr_fits hi)]⟩

/-- A pointer taken through the single-indirect cache is the one `truth` knows. -/
theorem indEntry_spec (hm : m.Sound) (hc : b.Coherent m truth) (ha : Agrees env m truth)
    (hn : n ≠ -1) (hi : i.toNat < m.ptrs) :
    ∃ r b', indEntry env m b n i = .ok (r, b') ∧
      (r = pointer truth n i.toNat ∨ Missed env m truth b b') := by
  unfold indEntry pointer
  by_cases h0 : n = 0
  · exact ⟨0, b, if_pos h0, Or.inl (if_pos h0).symm⟩
  · rw [if_neg h0, if_neg h0]
    obtain ⟨ok, b', hload⟩ := loadIblk_total env hm.fits b n
    obtain ⟨⟨-, hmemo, hmissed⟩, -⟩ := loadIblk_spec hload
    rw [hload]
    cases ok with
    | false =>
      refine ⟨0, b', rfl, ?_⟩
      cases ht : truth n with
      | none => exact Or.inl rfl
      | some c => exact Or.inr (hmissed rfl truth (by rw [ht]; exact Option.some_ne_none c))
    | true =>
      have hval := Memo.load_val hc.iblk hn (ha n) (congrArg Prod.fst hmemo)
      rw [hmemo] at hval
      refine ⟨b'.iblkbuf.le32 (4 * i.toNat), b', ?_, Or.inl ?_⟩
      · simp only [ok_bind, Bool.not_true, Bool.false_eq_true, if_false, ptrAt,
          if_pos (hm.ptr_fits hi), pure_eq_ok]
      · rw [hval]
        have hbs := hm.cases
        simp only [Mount.bs] at hbs
        exact (Bytes.le32_clip (by omega)).symm

/-- A pointer taken through the double-indirect cache is the one `truth` knows. -/
theorem dindEntry_spec (hm : m.Sound) (hc : b.Coherent m truth) (ha : Agrees env m truth)
    (hn : n ≠ -1) (hi : i.toNat < m.ptrs) :
    ∃ r b', dindEntry env m b n i = .ok (r, b') ∧
      (r = pointer truth n i.toNat ∨ r = 0 ∧ Missed env m truth b b') := by
  unfold dindEntry pointer
  by_cases h0 : n = 0
  · exact ⟨0, b, if_pos h0, Or.inl (if_pos h0).symm⟩
  · rw [if_neg h0, if_neg h0]
    obtain ⟨ok, b', hload⟩ := loadDiblk_total env hm.fits b n
    obtain ⟨⟨-, hmemo, hmissed⟩, -⟩ := loadDiblk_spec hload
    rw [hload]
    cases ok with
    | false =>
      refine ⟨0, b', rfl, ?_⟩
      cases ht : truth n with
      | none => exact Or.inl rfl
      | some c => exact Or.inr ⟨rfl, hmissed rfl truth (by rw [ht]; exact Option.some_ne_none c)⟩
    | true =>
      have hval := Memo.load_val hc.diblk hn (ha n) (congrArg Prod.fst hmemo)
      rw [hmemo] at hval
      refine ⟨b'.diblkbuf.le32 (4 * i.toNat), b', ?_, Or.inl ?_⟩
      · simp only [ok_bind, Bool.not_true, Bool.false_eq_true, if_false, ptrAt,
          if_pos (hm.ptr_fits hi), pure_eq_ok]
      · rw [hval]
        have hbs := hm.cases
        simp only [Mount.bs] at hbs
        exact (Bytes.le32_clip (by omega)).symm

/-- The four ranges of the block map, with its indices as numbers. -/
theorem ext2Blkno_cases (env : Env) (b : Bufs) (ip : Inode) {q : Nat} (hm : m.Limits q) {k : Nat}
    (hk : blkoff.toNat = k) (hlt : k < 2 ^ 31) :
    (k < 12 ∧ ext2Blkno env m b ip blkoff = .ok (ip.iBlock k, b)) ∨
    (12 ≤ k ∧ k < 12 + m.ptrs ∧ ∃ i : UInt32, i.toNat = k - 12 ∧
      ext2Blkno env m b ip blkoff = indEntry env m b (ip.iBlock ext2IndBlock) i) ∨
    (12 + m.ptrs ≤ k ∧ k < 12 + q ∧ (k - 12 - m.ptrs) / m.ptrs < m.ptrs ∧
      ∃ i j : UInt32, i.toNat = (k - 12 - m.ptrs) / m.ptrs ∧ j.toNat = (k - 12 - m.ptrs) % m.ptrs ∧
        j.toNat < m.ptrs ∧ ext2Blkno env m b ip blkoff = (do
          let (iblkno, b) ← dindEntry env m b (ip.iBlock ext2DindBlock) i
          indEntry env m b iblkno j)) ∨
    (12 + m.ptrs ≤ k ∧ 12 + q ≤ k ∧ ext2Blkno env m b ip blkoff = .ok (0, b)) := by
  subst hk
  obtain ⟨hdir, hptrs, hpos, h1, h2, hq, hsmall, hsmall'⟩ := hm
  have hdir' : m.directlim.toNat = 11 := by rw [hdir]; rfl
  unfold ext2Blkno
  simp only [sle_iff hlt (show m.directlim.toNat < 2 ^ 31 by omega),
    sle_iff hlt (show m.ind1lim.toNat < 2 ^ 31 by omega),
    sle_iff hlt (show m.ind2lim.toNat < 2 ^ 31 by omega), hdir', h1, h2]
  by_cases hk0 : blkoff.toNat ≤ 11
  · rw [if_pos hk0, if_pos (show blkoff.toNat < ext2NBlocks by rw [ext2NBlocks]; omega)]
    exact Or.inl ⟨by omega, rfl⟩
  rw [if_neg hk0]
  by_cases hk1 : blkoff.toNat ≤ m.ptrs + 11
  · rw [if_pos hk1]
    refine Or.inr (Or.inl ⟨by omega, by omega, blkoff - (m.directlim + 1), ?_, rfl⟩)
    rw [hdir, UInt32.toNat_sub_of_le _ _ (UInt32.le_iff_toNat_le.mpr (by simp; omega))]
    rfl
  rw [if_neg hk1]
  by_cases hk2 : blkoff.toNat ≤ q + 11
  · have hp0 : m.ptrsPerBlk ≠ 0 := by
      intro h
      rw [h] at hptrs
      simp only [UInt32.toNat_zero] at hptrs
      omega
    rw [if_pos hk2, if_neg hp0]
    have hoff : (blkoff - (m.ind1lim + 1)).toNat = blkoff.toNat - 12 - m.ptrs := by
      have hadd : (m.ind1lim + 1).toNat = m.ptrs + 12 := by
        rw [UInt32.toNat_add, h1]
        simp
        omega
      rw [UInt32.toNat_sub_of_le _ _ (UInt32.le_iff_toNat_le.mpr (by omega)), hadd]
      omega
    have hmod : ((blkoff - (m.ind1lim + 1)) % m.ptrsPerBlk).toNat =
        (blkoff.toNat - 12 - m.ptrs) % m.ptrs := by rw [UInt32.toNat_mod, hoff, hptrs]
    refine Or.inr (Or.inr (Or.inl ⟨by omega, by omega, Nat.div_lt_of_lt_mul (by omega),
      (blkoff - (m.ind1lim + 1)) / m.ptrsPerBlk, (blkoff - (m.ind1lim + 1)) % m.ptrsPerBlk,
      by rw [UInt32.toNat_div, hoff, hptrs], hmod, ?_, rfl⟩))
    rw [hmod]
    exact Nat.mod_lt _ hpos
  · rw [if_neg hk2]
    exact Or.inr (Or.inr (Or.inr ⟨by omega, by omega, rfl⟩))

/-- **The block map is that of the format as far as the code goes**, unless a block that `truth`
knows cannot be read. -/
theorem ext2Blkno_spec (hm : m.Sound) (hc : b.Coherent m truth) (ha : Agrees env m truth)
    (hs : NoSentinelAt m truth ip blkoff.toNat) (hk : blkoff.toNat < 2 ^ 31) :
    ∃ r b', ext2Blkno env m b ip blkoff = .ok (r, b') ∧ MapStep env m b b' ∧
      (r = blknoOf m truth ip blkoff.toNat ∨ Missed env m truth b b') := by
  suffices h : ∃ r b', ext2Blkno env m b ip blkoff = .ok (r, b') ∧
      (r = blknoOf m truth ip blkoff.toNat ∨ Missed env m truth b b') by
    obtain ⟨r, b', hok, hr⟩ := h
    exact ⟨r, b', hok, ext2Blkno_step hok, hr⟩
  have hge : m.ptrs ≤ m.ptrs * m.ptrs := Nat.le_mul_self m.ptrs
  unfold blknoOf
  rcases ext2Blkno_cases env b ip hm.limits rfl hk with
    ⟨hlt, heq⟩ | ⟨hlo, hlt, i, hi, heq⟩ | ⟨hlo, hlt, hdiv, i, j, hi, hj, hjlt, heq⟩ |
    ⟨hlo, hlo', heq⟩
  · rw [heq, if_pos hlt]
    exact ⟨_, b, rfl, Or.inl rfl⟩
  · rw [heq, if_neg (by omega), if_pos hlt, ← hi]
    exact indEntry_spec hm hc ha (hs.ind hlo hlt) (by omega)
  · rw [if_neg (by omega), if_neg (by omega), if_pos hlt, ← hi, ← hj]
    -- The double-indirect block names a single-indirect one, which names the block.
    obtain ⟨iblkno, b₁, hd, hr₁⟩ := dindEntry_spec hm hc ha (hs.dind hlo hlt)
      (by omega : i.toNat < m.ptrs)
    have hstep₁ := dindEntry_step hd
    have hne : iblkno ≠ -1 := by
      rcases hr₁ with rfl | ⟨rfl, -⟩
      · exact hi ▸ hs.entry hlo hlt
      · decide
    obtain ⟨r, b', hok, hr⟩ := indEntry_spec hm (hstep₁.coherent ha hc) ha hne hjlt
    refine ⟨r, b', by rw [heq, hd]; exact hok, ?_⟩
    rcases hr₁ with rfl | ⟨-, hmiss⟩
    · exact hr.imp id fun h => h.mono hstep₁.toBufStep (BufStep.refl b')
    · exact Or.inr (hmiss.mono (BufStep.refl b) (indEntry_step hok).toBufStep)
  · rw [heq, if_neg (by omega), if_neg (by omega), if_neg (by omega)]
    exact ⟨0, b, rfl, Or.inl rfl⟩

end Blkno

end MbBootTv

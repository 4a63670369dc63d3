import MbBootTv.Ext2.ReadBlock

/-!
# What a read can yield

On a medium of which nothing is known, the word that marks a cache as empty can be a pointer like
any other, and then what the block map says depends on what was read before. So here the map is a
relation: what it can say of a block, when `R` says what the caches and the blocks can hold.
`ext2Breadi_possible` says that no read of a block in its file yields anything else, or fails in
any other way than by -1.
-/

namespace MbBootTv

section Possible

variable (env : Env) (m : Mount) (R : UInt32 → Bytes → Prop)

/-- Pointer `i` of indirect block `n` can be `p`. -/
def CanPoint (n : UInt32) (i : Nat) (p : UInt32) : Prop :=
  p = 0 ∧ (n = 0 ∨ blockAt env m n = none) ∨ n ≠ 0 ∧ ∃ c, R n c ∧ p = c.le32 (4 * i)

/-- Block `k` of a file can be block `n` of the file system. -/
def CanMap (ip : Inode) (k : Nat) (n : UInt32) : Prop :=
  if k < 12 then n = ip.iBlock k
  else if k < 12 + m.ptrs then CanPoint env m R (ip.iBlock ext2IndBlock) (k - 12) n
  else if k < 12 + m.ptrs * m.ptrs then
    ∃ p, CanPoint env m R (ip.iBlock ext2DindBlock) ((k - 12 - m.ptrs) / m.ptrs) p ∧
      CanPoint env m R p ((k - 12 - m.ptrs) % m.ptrs) n
  else n = 0

/-- Block `k` of a file can arrive as `o`, or fail to when that is nothing. -/
def CanRead (ip : Inode) (k : Nat) (o : Option Bytes) : Prop :=
  ∃ n, CanMap env m R ip k n ∧ o = if n = 0 then some fun _ => 0 else blockAt env m n

end Possible

section Reads

variable {env : Env} {m : Mount} {R : UInt32 → Bytes → Prop} {b : Bufs} {ip : Inode}
  {n i blkoff : UInt32}

theorem indEntry_possible (hm : m.Sound) (hb : b.Hold m R) (hR : Delivers env m R)
    (hi : i.toNat < m.ptrs) :
    ∃ p b', indEntry env m b n i = .ok (p, b') ∧ CanPoint env m R n i.toNat p := by
  unfold indEntry CanPoint
  by_cases h0 : n = 0
  · exact ⟨0, b, if_pos h0, Or.inl ⟨rfl, Or.inl h0⟩⟩
  · rw [if_neg h0]
    obtain ⟨ok, b', hload⟩ := loadIblk_total env hm.fits b n
    obtain ⟨⟨-, hmemo, -⟩, -⟩ := loadIblk_spec hload
    rw [hload]
    cases ok with
    | false =>
      have hnone := Memo.fetch_of_load_false (congrArg Prod.fst hmemo)
      exact ⟨0, b', rfl, Or.inl ⟨rfl, Or.inr hnone⟩⟩
    | true =>
      have hval := Memo.load_rel hb.iblk (hR n) (congrArg Prod.fst hmemo)
      rw [hmemo] at hval
      refine ⟨b'.iblkbuf.le32 (4 * i.toNat), b', ?_, Or.inr ⟨h0, _, hval, ?_⟩⟩
      · simp only [ok_bind, Bool.not_true, Bool.false_eq_true, if_false, ptrAt,
          if_pos (hm.ptr_fits hi), pure_eq_ok]
      · have hbs := hm.cases
        simp only [Mount.bs] at hbs
        exact (Bytes.le32_clip (by omega)).symm

theorem dindEntry_possible (hm : m.Sound) (hb : b.Hold m R) (hR : Delivers env m R)
    (hi : i.toNat < m.ptrs) :
    ∃ p b', dindEntry env m b n i = .ok (p, b') ∧ CanPoint env m R n i.toNat p := by
  unfold dindEntry CanPoint
  by_cases h0 : n = 0
  · exact ⟨0, b, if_pos h0, Or.inl ⟨rfl, Or.inl h0⟩⟩
  · rw [if_neg h0]
    obtain ⟨ok, b', hload⟩ := loadDiblk_total env hm.fits b n
    obtain ⟨⟨-, hmemo, -⟩, -⟩ := loadDiblk_spec hload
    rw [hload]
    cases ok with
    | false =>
      have hnone := Memo.fetch_of_load_false (congrArg Prod.fst hmemo)
      exact ⟨0, b', rfl, Or.inl ⟨rfl, Or.inr hnone⟩⟩
    | true =>
      have hval := Memo.load_rel hb.diblk (hR n) (congrArg Prod.fst hmemo)
      rw [hmemo] at hval
      refine ⟨b'.diblkbuf.le32 (4 * i.toNat), b', ?_, Or.inr ⟨h0, _, hval, ?_⟩⟩
      · simp only [ok_bind, Bool.not_true, Bool.false_eq_true, if_false, ptrAt,
          if_pos (hm.ptr_fits hi), pure_eq_ok]
      · have hbs := hm.cases
        simp only [Mount.bs] at hbs
        exact (Bytes.le32_clip (by omega)).symm

theorem ext2Blkno_possible (ip : Inode) (hm : m.Sound) (hb : b.Hold m R) (hR : Delivers env m R)
    (hk : blkoff.toNat < 2 ^ 31) :
    ∃ n b', ext2Blkno env m b ip blkoff = .ok (n, b') ∧ CanMap env m R ip blkoff.toNat n := by
  have hge : m.ptrs ≤ m.ptrs * m.ptrs := Nat.le_mul_self m.ptrs
  unfold CanMap
  rcases ext2Blkno_cases env b ip hm.limits rfl hk with
    ⟨hlt, heq⟩ | ⟨hlo, hlt, i, hi, heq⟩ | ⟨hlo, hlt, hdiv, i, j, hi, hj, hjlt, heq⟩ |
    ⟨hlo, hlo', heq⟩
  · simp only [heq, if_pos hlt]
    exact ⟨_, b, rfl, rfl⟩
  · simp only [heq, if_neg (show ¬ blkoff.toNat < 12 by omega), if_pos hlt, ← hi]
    exact indEntry_possible hm hb hR (by omega)
  · simp only [heq, if_neg (show ¬ blkoff.toNat < 12 by omega),
      if_neg (show ¬ blkoff.toNat < 12 + m.ptrs by omega), if_pos hlt, ← hi, ← hj]
    obtain ⟨p, b₁, hd, hp⟩ := dindEntry_possible (n := ip.iBlock ext2DindBlock) hm hb hR
      (by omega : i.toNat < m.ptrs)
    obtain ⟨n, b', hok, hn⟩ := indEntry_possible (n := p) hm
      ((dindEntry_step hd).hold R hR hb) hR hjlt
    exact ⟨n, b', by rw [hd]; exact hok, p, hp, hn⟩
  · simp only [heq, if_neg (show ¬ blkoff.toNat < 12 by omega),
      if_neg (show ¬ blkoff.toNat < 12 + m.ptrs by omega),
      if_neg (show ¬ blkoff.toNat < 12 + m.ptrs * m.ptrs by omega)]
    exact ⟨0, b, rfl, rfl⟩

/-- **What a read of a block in its file can yield.** -/
theorem ext2Breadi_possible (hm : m.Sound) (hb : b.Hold m R) (hR : Delivers env m R)
    {blkno : UInt32} (hin : blkno.toNat * m.bs ≤ ip.iSize.toNat) (buffer : Bytes) :
    ∃ o b', ext2Breadi env m b ip blkno 1 buffer ext2MaxBlockSize =
        .ok (if o.isSome then m.blocksize else -1, o.elim buffer fun c => buffer.copy 0 c m.bs, b') ∧
      CanRead env m R ip blkno.toNat o := by
  have hk : blkno.toNat < 2 ^ 31 := by
    have := ip.iSize.toNat_lt
    rcases hm.cases with ⟨hb, -⟩ | ⟨hb, -⟩ | ⟨hb, -⟩ <;> rw [hb] at hin <;> omega
  obtain ⟨n, b₁, hmap, hn⟩ := ext2Blkno_possible ip hm hb hR hk
  rw [ext2Breadi_one hm b hin, breadiOne, hmap]
  simp only [ok_bind]
  by_cases h0 : n = 0
  · rw [if_pos h0]
    exact ⟨some fun _ => 0, b₁, rfl, n, hn, (if_pos h0).symm⟩
  · rw [if_neg h0]
    cases hblk : blockAt env m n with
    | none =>
      rw [readBytes_of_none b₁ hblk]
      exact ⟨none, _, rfl, n, hn, by rw [if_neg h0, hblk]⟩
    | some c =>
      obtain ⟨data, hdata, hclip⟩ := readBytes_of_some b₁ hblk
      rw [hdata]
      have hcopy : buffer.copy 0 c m.bs = buffer.copy 0 data m.bs := by
        rw [← hclip]
        exact Bytes.copy_clip _ _ _
      refine ⟨some c, b₁.fetch env (n * m.blocksize) m.blocksize, ?_, n, hn,
        by rw [if_neg h0, hblk]⟩
      rw [Option.elim_some, hcopy]
      rfl

end Reads

end MbBootTv

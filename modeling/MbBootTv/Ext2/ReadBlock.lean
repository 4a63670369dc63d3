import MbBootTv.Ext2.Map

/-!
# Reading one block of a file

Every caller of `ext2_breadi` asks for one block that starts inside the file, or at its end. Then
the grouping of contiguous blocks plays no part: the call maps the block and reads it
(`ext2Breadi_one`). `fileBlock` is the block without caches, and `ext2Breadi_spec` connects the
two.
-/

namespace MbBootTv

section Steps

variable {env : Env} {m : Mount} {ip : Inode}

theorem contigLoop_step {dev : UInt32} {n : Nat} {l l' : ContigLoop}
    (h : contigLoop env m ip dev n l = .ok l') : MapStep env m l.bufs l'.bufs := by
  induction n generalizing l with
  | zero =>
    obtain rfl := Except.ok.inj h
    exact MapStep.refl _
  | succ n ih =>
    unfold contigLoop at h
    obtain ⟨⟨r, b⟩, hmap, h⟩ := bind_eq_ok.mp h
    have hstep := ext2Blkno_step hmap
    dsimp only at h
    split_ifs at h
    · exact hstep.trans (ih h)
    · obtain rfl := Except.ok.inj h
      exact hstep

theorem breadiLoop_step {cap f : Nat} {l : BreadiLoop} {r : UInt32} {buf : Bytes} {b' : Bufs}
    (h : breadiLoop env m ip cap f l = .ok (r, buf, b')) : MapStep env m l.bufs b' := by
  induction f generalizing l with
  | zero =>
    obtain ⟨-, -, rfl⟩ := by simpa [breadiLoop] using h
    exact MapStep.refl _
  | succ f ih =>
    unfold breadiLoop at h
    split at h
    · obtain ⟨-, -, rfl⟩ := by simpa using h
      exact MapStep.refl _
    · obtain ⟨⟨dev, b₁⟩, hmap, h⟩ := bind_eq_ok.mp h
      obtain ⟨c, hcontig, h⟩ := bind_eq_ok.mp h
      have hstep := (ext2Blkno_step hmap).trans (contigLoop_step hcontig)
      dsimp only at h
      by_cases h0 : dev = 0
      · rw [if_pos h0] at h
        split_ifs at h
        exact hstep.trans (ih h)
      · rw [if_neg h0] at h
        have hread := (readBytes_eq env c.bufs (dev * m.blocksize) c.nbytes).1
        rcases hb : readBytes env c.bufs (dev * m.blocksize) c.nbytes with ⟨_ | data, b₂⟩
        · rw [hb] at h hread
          obtain ⟨-, -, rfl⟩ := by simpa using h
          rw [show b₂ = _ from hread]
          exact hstep.trans (mapStep_fetch env m _ _ _)
        · rw [hb] at h hread
          dsimp only at h hread
          split_ifs at h
          have hrest := ih h
          dsimp only at hrest
          rw [hread] at hrest
          exact hstep.trans ((mapStep_fetch env m _ _ _).trans hrest)

/-- `ext2_breadi` leaves `blkbuf` to its caller. -/
theorem ext2Breadi_step {b b' : Bufs} {blkno nblks r : UInt32} {buffer buf : Bytes} {cap : Nat}
    (h : ext2Breadi env m b ip blkno nblks buffer cap = .ok (r, buf, b')) : MapStep env m b b' := by
  unfold ext2Breadi at h
  dsimp only at h
  split_ifs at h
  · exact breadiLoop_step h
  · exact breadiLoop_step h

end Steps

/-! ## One block -/

/-- Read one block of a file: map it, then read it or fill it with zeros. -/
def breadiOne (env : Env) (m : Mount) (b : Bufs) (ip : Inode) (blkno : UInt32) (buffer : Bytes) :
    Except Fault (UInt32 × Bytes × Bufs) := do
  let (devBlkno, b) ← ext2Blkno env m b ip blkno
  if devBlkno = 0 then return (m.blocksize, buffer.fill 0 0 m.bs, b)
  else
    match readBytes env b (devBlkno * m.blocksize) m.blocksize with
    | (none, b) => return (-1, buffer, b)
    | (some data, b) => return (m.blocksize, buffer.copy 0 data m.bs, b)

/-- A block that starts in the file or at its end is one block after the clamp, too. -/
theorem clamped_one {m : Mount} (hm : m.Sound) {ip : Inode} {blkno : UInt32}
    (hin : blkno.toNat * m.bs ≤ ip.iSize.toNat)
    (hclamp : (blkno + 1) * m.blocksize > ip.iSize) :
    (ip.iSize + m.blocksize) / m.blocksize - blkno = 1 := by
  have hlt := ip.iSize.toNat_lt
  rw [gt_iff_lt, UInt32.lt_iff_toNat_lt, UInt32.toNat_mul, UInt32.toNat_add] at hclamp
  rw [← UInt32.toNat_inj, UInt32.toNat_sub, UInt32.toNat_div, UInt32.toNat_add]
  simp only [Mount.bs] at hin
  simp only [UInt32.toNat_one] at hclamp ⊢
  rcases hm.blocksize with hb | hb | hb <;> rw [hb] at hin hclamp ⊢ <;> simp at hin hclamp ⊢ <;>
    omega

theorem breadiLoop_one {env : Env} {m : Mount} (hm : m.Sound) (b : Bufs) (ip : Inode)
    (blkno : UInt32) (buffer : Bytes) :
    breadiLoop env m ip ext2MaxBlockSize 1 ⟨blkno, 1, buffer, 0, 0, b⟩ =
      breadiOne env m b ip blkno buffer := by
  have hcap : ¬ ext2MaxBlockSize < m.blocksize.toNat := by
    have := hm.cases
    simp only [Mount.bs] at this
    rw [ext2MaxBlockSize]
    omega
  unfold breadiLoop breadiOne
  cases ext2Blkno env m b ip blkno with
  | error e => simp only [error_bind]
  | ok x =>
    obtain ⟨dev, b₁⟩ := x
    simp only [ok_bind, contigLoop, UInt32.zero_add, Nat.zero_add]
    by_cases h0 : dev = 0
    · rw [if_pos h0, if_pos h0, if_neg hcap]
      rfl
    · rw [if_neg h0, if_neg h0]
      rcases readBytes env b₁ (dev * m.blocksize) m.blocksize with ⟨_ | data, b₂⟩
      · rfl
      · dsimp only
        rw [if_neg hcap]
        rfl

/-- One block that starts in the file or at its end is one pass of the loop. -/
theorem ext2Breadi_single {env : Env} {m : Mount} (hm : m.Sound) (b : Bufs) {ip : Inode}
    {blkno : UInt32} (hin : blkno.toNat * m.bs ≤ ip.iSize.toNat) (buffer : Bytes) (cap : Nat) :
    ext2Breadi env m b ip blkno 1 buffer cap =
      breadiLoop env m ip cap 1 ⟨blkno, 1, buffer, 0, 0, b⟩ := by
  have hb0 : m.blocksize ≠ 0 := by
    rcases hm.blocksize with h | h | h <;> rw [h] <;> decide
  unfold ext2Breadi
  by_cases hclamp : (blkno + 1) * m.blocksize > ip.iSize
  · rw [if_pos hclamp, if_neg hb0]
    simp only [clamped_one hm hin hclamp]
    rfl
  · rw [if_neg hclamp]
    rfl

/-- **One block is mapped and read.** -/
theorem ext2Breadi_one {env : Env} {m : Mount} (hm : m.Sound) (b : Bufs) {ip : Inode}
    {blkno : UInt32} (hin : blkno.toNat * m.bs ≤ ip.iSize.toNat) (buffer : Bytes) :
    ext2Breadi env m b ip blkno 1 buffer ext2MaxBlockSize =
      breadiOne env m b ip blkno buffer :=
  (ext2Breadi_single hm b hin buffer _).trans (breadiLoop_one hm b ip blkno buffer)

/-! ## The block without caches -/

/-- Block `k` of a file as it is delivered: a hole is zeros. -/
def fileBlock (env : Env) (m : Mount) (truth : UInt32 → Option Bytes) (ip : Inode) (k : Nat) :
    Option Bytes :=
  if blknoOf m truth ip k = 0 then some fun _ => 0 else blockAt env m (blknoOf m truth ip k)

/-- A block that starts in a file has a small number. -/
theorem blkno_lt {m : Mount} (hm : m.Sound) {ip : Inode} {blkno : UInt32}
    (hin : blkno.toNat * m.bs ≤ ip.iSize.toNat) : blkno.toNat < 2 ^ 31 := by
  have := ip.iSize.toNat_lt
  rcases hm.cases with ⟨hb, -⟩ | ⟨hb, -⟩ | ⟨hb, -⟩ <;> rw [hb] at hin <;> omega

/-- **One block of a file is read as if there were no caches**: it arrives, or it cannot be read
and -1 is returned; unless an indirect block that `truth` knows cannot be read. -/
theorem ext2Breadi_spec {env : Env} {m : Mount} (hm : m.Sound) {b : Bufs} {ip : Inode}
    {truth : UInt32 → Option Bytes} (hc : b.Coherent m truth) (ha : Agrees env m truth)
    {blkno : UInt32} (hs : NoSentinelAt m truth ip blkno.toNat)
    (hin : blkno.toNat * m.bs ≤ ip.iSize.toNat) (buffer : Bytes) :
    ∃ r buf b', ext2Breadi env m b ip blkno 1 buffer ext2MaxBlockSize = .ok (r, buf, b') ∧
      MapStep env m b b' ∧
      ((∃ c, fileBlock env m truth ip blkno.toNat = some c ∧ r = m.blocksize ∧
          buf = buffer.copy 0 c m.bs) ∨
        (fileBlock env m truth ip blkno.toNat = none ∧ r = -1 ∧ buf = buffer ∧
          FetchFailed env b b') ∨
        Missed env m truth b b') := by
  obtain ⟨dev, b₁, hmap, hstep, hdev⟩ := ext2Blkno_spec hm hc ha hs (blkno_lt hm hin)
  rw [ext2Breadi_one hm b hin, breadiOne, hmap]
  simp only [ok_bind]
  unfold fileBlock
  by_cases h0 : dev = 0
  · rw [if_pos h0]
    refine ⟨_, _, b₁, rfl, hstep, ?_⟩
    rcases hdev with hdev | hmiss
    · rw [← hdev, if_pos h0]
      exact Or.inl ⟨_, rfl, rfl, Bytes.fill_eq_copy _ _ _ _⟩
    · exact Or.inr (Or.inr hmiss)
  · rw [if_neg h0]
    cases hblk : blockAt env m dev with
    | none =>
      rw [readBytes_of_none b₁ hblk]
      have hfetch := mapStep_fetch env m b₁ (dev * m.blocksize) m.blocksize
      refine ⟨_, _, _, rfl, hstep.trans hfetch, ?_⟩
      rcases hdev with hdev | hmiss
      · rw [← hdev, if_neg h0, hblk]
        exact Or.inr (Or.inl ⟨rfl, rfl, rfl,
          (fetchFailed_fetch b₁ hblk).mono hstep.toBufStep (BufStep.refl (m := m) _)⟩)
      · exact Or.inr (Or.inr (hmiss.mono (BufStep.refl b) hfetch.toBufStep))
    | some c =>
      obtain ⟨data, hdata, hclip⟩ := readBytes_of_some b₁ hblk
      rw [hdata]
      have hfetch := mapStep_fetch env m b₁ (dev * m.blocksize) m.blocksize
      refine ⟨_, _, _, rfl, hstep.trans hfetch, ?_⟩
      rcases hdev with hdev | hmiss
      · rw [← hdev, if_neg h0, hblk]
        exact Or.inl ⟨c, rfl, rfl, by rw [← hclip]; exact (Bytes.copy_clip _ _ _).symm⟩
      · exact Or.inr (Or.inr (hmiss.mono (BufStep.refl b) hfetch.toBufStep))

end MbBootTv

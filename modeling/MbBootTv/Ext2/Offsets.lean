import MbBootTv.Ext2.Medium
import MbBootTv.Ext2.Mount
import MbBootTv.Ext2.Slots

/-!
# Where the sectors come from

A block number becomes a byte offset in a 32-bit word before `read_bytes` divides it by the size
of a sector. `startsAt_fetchAt_iff` is the one fact about that word; the rest of the module finds
the fetches that `ext2_breadi`, `ext2_blkno` and `ext2_iget` make and applies it to each.
-/

namespace MbBootTv

/-! ## One fetch -/

/-- A fetch of `n` sectors, from the one that holds byte `x` of the partition on. -/
structure Fetch.StartsAt (f : Fetch) (x n : Nat) : Prop where
  base : f.base.toNat = x / 512
  count : f.count.toNat = n

/-- **The offset of a fetch is right exactly when it fits 32 bits.** -/
theorem startsAt_fetchAt_iff {env : Env} {offset size : UInt32} {x : Nat}
    (hoffset : offset.toNat = x % 2 ^ 32) :
    (fetchAt env offset size).StartsAt x ((size + 512 - 1) / 512).toNat ↔ x < 2 ^ 32 := by
  have hbase : (fetchAt env offset size).base.toNat = x % 2 ^ 32 / 512 := by
    show (offset / 512).toUInt64.toNat = _
    rw [UInt32.toNat_toUInt64, UInt32.toNat_div, hoffset]
    rfl
  have hcount : (fetchAt env offset size).count.toNat = ((size + 512 - 1) / 512).toNat :=
    UInt32.toNat_toUInt64 _
  constructor
  · intro h
    have := hbase.symm.trans h.base
    omega
  · intro h
    exact ⟨by rw [hbase, Nat.mod_eq_of_lt h], hcount⟩

/-- The fetches made between two moments are all `n` sectors from byte `x` on. -/
def FetchesOnly (b b' : Bufs) (x n : Nat) : Prop :=
  ∃ fetches, b'.fetches = b.fetches ++ fetches ∧ ∀ f ∈ fetches, f.StartsAt x n

/-- The one fetch of a `read_bytes`, which is not made when no memory can be had. -/
theorem fetchesOnly_fetch_iff {env : Env} {b b' : Bufs} {offset size : UInt32} {x : Nat}
    (hfetches : b'.fetches = (b.fetch env offset size).fetches)
    (hoffset : offset.toNat = x % 2 ^ 32) :
    FetchesOnly b b' x ((size + 512 - 1) / 512).toNat ↔
      env.blMalloc ((size + 512 - 1) / 512 * 512) = false ∨ x < 2 ^ 32 := by
  unfold FetchesOnly
  rw [hfetches, Bufs.fetch]
  cases hmalloc : env.blMalloc ((size + 512 - 1) / 512 * 512) with
  | false =>
    rw [if_neg Bool.false_ne_true]
    exact iff_of_true ⟨[], by simp, by simp⟩ (Or.inl rfl)
  | true =>
    have hone : (fetchAt env offset size).StartsAt x _ ↔ _ := startsAt_fetchAt_iff hoffset
    rw [if_pos rfl, ← hone]
    constructor
    · rintro ⟨fs, hfs, hall⟩
      obtain rfl := List.append_cancel_left hfs
      exact Or.inr (hall _ (List.mem_singleton_self _))
    · rintro (h | h)
      · cases h
      · exact ⟨_, rfl, fun f hf => by rw [List.mem_singleton.mp hf]; exact h⟩

/-! ## Blocks -/

/-- What is fetched between two moments is block `n`: the sectors from byte `n * blocksize` on. -/
def FetchesBlock (m : Mount) (b b' : Bufs) (n : UInt32) : Prop :=
  FetchesOnly b b' (n.toNat * m.bs) (m.bs / 512)

/-- The condition for that. -/
def BlockInReach (env : Env) (m : Mount) (n : UInt32) : Prop :=
  env.blMalloc m.blocksize = false ∨ n.toNat * m.bs < 2 ^ 32

section Blocks

variable {env : Env} {m : Mount} {b b' : Bufs} {n i : UInt32}

theorem fetchesBlock_iff (hm : m.Sound)
    (hfetches : b'.fetches = (b.fetch env (n * m.blocksize) m.blocksize).fetches) :
    FetchesBlock m b b' n ↔ BlockInReach env m n := by
  have hiff := fetchesOnly_fetch_iff (x := n.toNat * m.bs) hfetches (UInt32.toNat_mul _ _)
  have hsize : ((m.blocksize + 512 - 1) / 512).toNat = m.bs / 512 ∧
      (m.blocksize + 512 - 1) / 512 * 512 = m.blocksize := by
    rcases hm.blocksize with hb | hb | hb <;> simp only [Mount.bs, hb] <;> decide
  rw [hsize.1, hsize.2] at hiff
  exact hiff

/-- Neither cache changes the record of fetches; a block that is not in it is fetched. -/
theorem loadIblk_fetches {ok : Bool} (h : loadIblk env m b n = .ok (ok, b'))
    (hmiss : b.cachedIblkno ≠ n) :
    b'.fetches = (b.fetch env (n * m.blocksize) m.blocksize).fetches := by
  unfold loadIblk at h
  rw [if_pos hmiss] at h
  have hfetch := (readBytes_eq env b (n * m.blocksize) m.blocksize).1
  rcases hread : readBytes env b (n * m.blocksize) m.blocksize with ⟨_ | data, b₁⟩
  · rw [hread] at h hfetch
    obtain ⟨-, rfl⟩ := Prod.mk.inj (Except.ok.inj h)
    exact congrArg Bufs.fetches hfetch
  · rw [hread] at h hfetch
    dsimp only at h
    split_ifs at h
    obtain ⟨-, rfl⟩ := Prod.mk.inj (Except.ok.inj h)
    show b₁.fetches = _
    exact congrArg Bufs.fetches hfetch

theorem loadDiblk_fetches {ok : Bool} (h : loadDiblk env m b n = .ok (ok, b'))
    (hmiss : b.cachedDiblkno ≠ n) :
    b'.fetches = (b.fetch env (n * m.blocksize) m.blocksize).fetches := by
  unfold loadDiblk at h
  rw [if_pos hmiss] at h
  have hfetch := (readBytes_eq env b (n * m.blocksize) m.blocksize).1
  rcases hread : readBytes env b (n * m.blocksize) m.blocksize with ⟨_ | data, b₁⟩
  · rw [hread] at h hfetch
    obtain ⟨-, rfl⟩ := Prod.mk.inj (Except.ok.inj h)
    exact congrArg Bufs.fetches hfetch
  · rw [hread] at h hfetch
    dsimp only at h
    split_ifs at h
    obtain ⟨-, rfl⟩ := Prod.mk.inj (Except.ok.inj h)
    show b₁.fetches = _
    exact congrArg Bufs.fetches hfetch

/-- What is fetched for a pointer of the single-indirect block `n`. -/
theorem indEntry_fetchesBlock_iff (hm : m.Sound) (h0 : n ≠ 0) (hmiss : b.cachedIblkno ≠ n)
    {r : UInt32} (h : indEntry env m b n i = .ok (r, b')) :
    FetchesBlock m b b' n ↔ BlockInReach env m n := by
  unfold indEntry at h
  rw [if_neg h0] at h
  obtain ⟨⟨ok, b₁⟩, hload, h⟩ := bind_eq_ok.mp h
  refine fetchesBlock_iff hm ?_
  rw [← loadIblk_fetches hload hmiss]
  cases ok with
  | false =>
    obtain ⟨-, rfl⟩ := Prod.mk.inj (Except.ok.inj h)
    rfl
  | true =>
    obtain ⟨x, -, h⟩ := bind_eq_ok.mp h
    obtain ⟨-, rfl⟩ := Prod.mk.inj (Except.ok.inj h)
    rfl

/-- What is fetched for a pointer of the double-indirect block `n`. -/
theorem dindEntry_fetchesBlock_iff (hm : m.Sound) (h0 : n ≠ 0) (hmiss : b.cachedDiblkno ≠ n)
    {r : UInt32} (h : dindEntry env m b n i = .ok (r, b')) :
    FetchesBlock m b b' n ↔ BlockInReach env m n := by
  unfold dindEntry at h
  rw [if_neg h0] at h
  obtain ⟨⟨ok, b₁⟩, hload, h⟩ := bind_eq_ok.mp h
  refine fetchesBlock_iff hm ?_
  rw [← loadDiblk_fetches hload hmiss]
  cases ok with
  | false =>
    obtain ⟨-, rfl⟩ := Prod.mk.inj (Except.ok.inj h)
    rfl
  | true =>
    obtain ⟨x, -, h⟩ := bind_eq_ok.mp h
    obtain ⟨-, rfl⟩ := Prod.mk.inj (Except.ok.inj h)
    rfl

/-- In the range of the single-indirect block, `ext2_blkno` looks at one pointer. -/
theorem ext2Blkno_single (env : Env) (hm : m.Sound) (b : Bufs) (ip : Inode) {k : UInt32}
    (h₁ : 12 ≤ k.toNat) (h₂ : k.toNat < 12 + m.ptrs) :
    ∃ i : UInt32, i.toNat < m.ptrs ∧
      ext2Blkno env m b ip k = indEntry env m b (ip.iBlock ext2IndBlock) i := by
  have hptrs := hm.cases
  rcases ext2Blkno_cases env b ip hm.limits rfl (show k.toNat < 2 ^ 31 by omega) with
    ⟨hlt, -⟩ | ⟨-, -, i, hi, heq⟩ | ⟨hlo, -⟩ | ⟨hlo, -⟩
  · omega
  · exact ⟨i, by omega, heq⟩
  · omega
  · omega

/-- In the range of the double-indirect block it looks at one pointer there, and at one in the
block that this names. -/
theorem ext2Blkno_double (env : Env) (hm : m.Sound) (b : Bufs) (ip : Inode) {k : UInt32}
    (h₁ : 12 + m.ptrs ≤ k.toNat) (h₂ : k.toNat < 12 + m.ptrs * m.ptrs) :
    ∃ i j : UInt32, i.toNat = (k.toNat - 12 - m.ptrs) / m.ptrs ∧ j.toNat < m.ptrs ∧
      ext2Blkno env m b ip k = (do
        let (n, b) ← dindEntry env m b (ip.iBlock ext2DindBlock) i
        indEntry env m b n j) := by
  have hsmall := hm.limits.small'
  rcases ext2Blkno_cases env b ip hm.limits rfl (show k.toNat < 2 ^ 31 by omega) with
    ⟨hlt, -⟩ | ⟨-, hlt, -⟩ | ⟨-, -, -, i, j, hi, -, hj, heq⟩ | ⟨-, hlo, -⟩
  · omega
  · omega
  · exact ⟨i, j, hi, hj, heq⟩
  · omega

/-- A block of a file, once it is mapped to block `n`, is fetched as that block. -/
theorem ext2Breadi_fetchesBlock_iff (hm : m.Sound) {ip : Inode} {k : UInt32}
    (hin : k.toNat * m.bs ≤ ip.iSize.toNat) {b₁ : Bufs}
    (hmap : ext2Blkno env m b ip k = .ok (n, b₁)) (h0 : n ≠ 0) (buffer : Bytes) :
    ∃ r buf b', ext2Breadi env m b ip k 1 buffer ext2MaxBlockSize = .ok (r, buf, b') ∧
      (FetchesBlock m b₁ b' n ↔ BlockInReach env m n) := by
  rw [ext2Breadi_one hm b hin, breadiOne, hmap]
  simp only [ok_bind, if_neg h0]
  have hfetch := (readBytes_eq env b₁ (n * m.blocksize) m.blocksize).1
  rcases hread : readBytes env b₁ (n * m.blocksize) m.blocksize with ⟨_ | data, b₂⟩
  · rw [hread] at hfetch
    exact ⟨_, _, b₂, rfl, fetchesBlock_iff hm (congrArg Bufs.fetches hfetch)⟩
  · rw [hread] at hfetch
    exact ⟨_, _, b₂, rfl, fetchesBlock_iff hm (congrArg Bufs.fetches hfetch)⟩

end Blocks

/-! ## Inodes -/

/-- The byte where inode `ino` starts, as a number. -/
def Mount.inodePos (m : Mount) (ino : UInt32) : Nat :=
  (bgInodeTable m.gds ((ino.toNat - 1) / m.sb.sInodesPerGroup.toNat)).toNat * m.bs +
    (ino.toNat - 1) % m.sb.sInodesPerGroup.toNat * m.sb.ext2InodeSize.toNat

theorem Mount.toNat_inodeOffset {m : Mount} {ino : UInt32} (h : 1 ≤ ino.toNat) :
    (m.inodeOffset (m.groupOf ino) ino).toNat = m.inodePos ino % 2 ^ 32 := by
  have hsub : (ino - 1).toNat = ino.toNat - 1 :=
    UInt32.toNat_sub_of_le _ _ (UInt32.le_iff_toNat_le.mpr h)
  unfold inodeOffset inodePos groupOf
  rw [UInt32.toNat_add, UInt32.toNat_mul, UInt32.toNat_mul, UInt32.toNat_mod, UInt32.toNat_div,
    hsub, ← Nat.add_mod]
  rfl

/-- What is fetched for inode `ino` is the sector that holds the byte where it starts. -/
theorem ext2Iget_fetchesOnly_iff {env : Env} {m : Mount} {b : Bufs} {t : Table} {ino : UInt32}
    {i : Slot} (hfree : t.firstFree = some i) (hipg : m.sb.sInodesPerGroup ≠ 0)
    (h1 : 1 ≤ ino.toNat) (hgroup : m.groupOf ino < m.gdsCount) :
    ∃ out b' t', ext2Iget env m b t ino = .ok (out, b', t') ∧
      (FetchesOnly b b' (m.inodePos ino) 1 ↔
        env.blMalloc 512 = false ∨ m.inodePos ino < 2 ^ 32) := by
  rw [ext2Iget_of_free hfree hipg hgroup]
  have hfetch := (readBytes_eq env b (m.inodeOffset (m.groupOf ino) ino) inodeSize).1
  have hiff {b' : Bufs} (h : b'.fetches =
      (b.fetch env (m.inodeOffset (m.groupOf ino) ino) inodeSize).fetches) :=
    fetchesOnly_fetch_iff h (Mount.toNat_inodeOffset h1)
  rcases hread : readBytes env b (m.inodeOffset (m.groupOf ino) ino) inodeSize with
    ⟨_ | data, b₁⟩
  · rw [hread] at hfetch
    exact ⟨_, b₁, _, rfl, hiff (congrArg Bufs.fetches hfetch)⟩
  · rw [hread] at hfetch
    exact ⟨_, b₁, _, rfl, hiff (congrArg Bufs.fetches hfetch)⟩

/-! ## Every fetch of the three functions -/

/-- **Which sectors are fetched.** On a mounted file system with blocks of 1024, 2048 or 4096
bytes: `ext2_breadi` fetches the block that it maps to, `ext2_blkno` the indirect blocks that are
not in its caches, and `ext2_iget` the sector of the inode, exactly when the byte where they start
is below 2^32 (or there is no memory, and nothing is fetched at all). -/
theorem fetches_iff {env₀ : Env} {w : Option St} {s₀ : St}
    (hopen : ext2fsFsOpen env₀ w = .ok (0, some s₀))
    (hbs : s₀.mount.blocksize.toNat ≤ ext2MaxBlockSize) (env : Env) (b : Bufs) :
    (∀ (ip : Inode) (k n : UInt32) (b₁ : Bufs) (buffer : Bytes),
      k.toNat * s₀.mount.bs ≤ ip.iSize.toNat →
      ext2Blkno env s₀.mount b ip k = .ok (n, b₁) → n ≠ 0 →
      ∃ r buf b', ext2Breadi env s₀.mount b ip k 1 buffer ext2MaxBlockSize = .ok (r, buf, b') ∧
        (FetchesBlock s₀.mount b₁ b' n ↔ BlockInReach env s₀.mount n)) ∧
    (∀ (ip : Inode) (k : UInt32), 12 ≤ k.toNat → k.toNat < 12 + s₀.mount.ptrs →
      ip.iBlock ext2IndBlock ≠ 0 → b.cachedIblkno ≠ ip.iBlock ext2IndBlock →
      ∃ r b', ext2Blkno env s₀.mount b ip k = .ok (r, b') ∧
        (FetchesBlock s₀.mount b b' (ip.iBlock ext2IndBlock) ↔
          BlockInReach env s₀.mount (ip.iBlock ext2IndBlock))) ∧
    (∀ (ip : Inode) (k : UInt32), 12 + s₀.mount.ptrs ≤ k.toNat →
      k.toNat < 12 + s₀.mount.ptrs * s₀.mount.ptrs →
      ∃ i n b₁ r b', i.toNat = (k.toNat - 12 - s₀.mount.ptrs) / s₀.mount.ptrs ∧
        dindEntry env s₀.mount b (ip.iBlock ext2DindBlock) i = .ok (n, b₁) ∧
        ext2Blkno env s₀.mount b ip k = .ok (r, b') ∧
        (ip.iBlock ext2DindBlock ≠ 0 → b.cachedDiblkno ≠ ip.iBlock ext2DindBlock →
          (FetchesBlock s₀.mount b b₁ (ip.iBlock ext2DindBlock) ↔
            BlockInReach env s₀.mount (ip.iBlock ext2DindBlock))) ∧
        (n ≠ 0 → b₁.cachedIblkno ≠ n →
          (FetchesBlock s₀.mount b₁ b' n ↔ BlockInReach env s₀.mount n))) ∧
    ∀ (t : Table) (ino : UInt32) (i : Slot), t.firstFree = some i →
      s₀.mount.sb.sInodesPerGroup ≠ 0 → 1 ≤ ino.toNat →
      s₀.mount.groupOf ino < s₀.mount.gdsCount →
      ∃ out b' t', ext2Iget env s₀.mount b t ino = .ok (out, b', t') ∧
        (FetchesOnly b b' (s₀.mount.inodePos ino) 1 ↔
          env.blMalloc 512 = false ∨ s₀.mount.inodePos ino < 2 ^ 32) := by
  have hm := (ext2fsFsOpen_spec hopen).sound hbs
  refine ⟨fun ip k n b₁ buffer hin hmap h0 => ext2Breadi_fetchesBlock_iff hm hin hmap h0 buffer,
    fun ip k h₁ h₂ h0 hmiss => ?_, fun ip k h₁ h₂ => ?_, fun t ino i hfree hipg h1 hgroup =>
      ext2Iget_fetchesOnly_iff hfree hipg h1 hgroup⟩
  · obtain ⟨i, hi, hmap⟩ := ext2Blkno_single env hm b ip h₁ h₂
    obtain ⟨r, b', hind⟩ := indEntry_total env hm b (ip.iBlock ext2IndBlock) hi
    exact ⟨r, b', hmap.trans hind, indEntry_fetchesBlock_iff hm h0 hmiss hind⟩
  · obtain ⟨i, j, hi, hj, hmap⟩ := ext2Blkno_double env hm b ip h₁ h₂
    have hi' : i.toNat < s₀.mount.ptrs := by
      rw [hi]
      exact Nat.div_lt_of_lt_mul (by omega)
    obtain ⟨n, b₁, hdind⟩ := dindEntry_total env hm b (ip.iBlock ext2DindBlock) hi'
    obtain ⟨r, b', hind⟩ := indEntry_total env hm b₁ n hj
    refine ⟨i, n, b₁, r, b', hi, hdind, ?_,
      fun h0 hmiss => dindEntry_fetchesBlock_iff hm h0 hmiss hdind,
      fun h0 hmiss => indEntry_fetchesBlock_iff hm h0 hmiss hind⟩
    rw [hmap, hdind]
    exact hind

theorem reach_check :
    holds (ext2fsFsOpen (wholeEnv smallPart (fileDisk zeros)) none) (fun
      | (r, some s) => r = 0 && s.mount.blocksize.toNat ≤ ext2MaxBlockSize &&
        s.table.firstFree = some 0 && s.mount.sb.sInodesPerGroup ≠ 0 &&
        s.mount.groupOf ext2RootIno < s.mount.gdsCount
      | _ => false) = true := by
  decide +kernel

theorem fetches_iff_small :
    ∃ s₀ out b' t', ext2fsFsOpen (wholeEnv smallPart (fileDisk zeros)) none = .ok (0, some s₀) ∧
      ext2Iget (wholeEnv smallPart (fileDisk zeros)) s₀.mount s₀.bufs s₀.table ext2RootIno =
        .ok (out, b', t') ∧
      (FetchesOnly s₀.bufs b' (s₀.mount.inodePos ext2RootIno) 1 ↔
        s₀.mount.inodePos ext2RootIno < 2 ^ 32) := by
  obtain ⟨⟨r, w⟩, hopen, hp⟩ := holds_iff.mp reach_check
  rcases w with _ | s
  · exact absurd hp Bool.false_ne_true
  simp only [Bool.and_eq_true, decide_eq_true_iff] at hp
  obtain ⟨⟨⟨⟨rfl, hbs⟩, hfree⟩, hipg⟩, hgroup⟩ := hp
  obtain ⟨out, b', t', higet, hiff⟩ :=
    (fetches_iff hopen hbs (wholeEnv smallPart (fileDisk zeros)) s.bufs).2.2.2 s.table
      ext2RootIno 0 hfree hipg (by decide) hgroup
  exact ⟨s, out, b', t', hopen, higet, by simpa [wholeEnv] using hiff⟩

/-! ### A block past 4 GiB -/

/-- A file in block 2^22, with blocks of 1024 bytes. -/
def farInode : Inode := smallInode 0x81A4 1024 0 4194304

/-- A partition that holds this block. -/
def farEnv : Env :=
  wholeEnv ⟨0, 8388610⟩ (smallDisk (smallSuper 4194305 8388608 8) farInode (smallDir 3 102) zeros)

theorem far_check :
    holds (do
      let (r, w) ← ext2fsFsOpen farEnv none
      match w with
      | none => .error .fuel
      | some s =>
        let x ← ext2Breadi farEnv s.mount s.bufs farInode 0 1 zeros ext2MaxBlockSize
        return (r, s, x)) (fun (r, s, _, _, b') => r = 0 && s.mount.blocksize = 1024 &&
          4194304 < s.mount.sb.sBlocksCount && b'.fetches = s.bufs.fetches ++ [⟨0, 2, true⟩]) =
      true := by decide +kernel

/-- The sectors that are fetched for it are the first two of the partition. -/
theorem not_fetchesBlock_far :
    ∃ s₀ r buf b', ext2fsFsOpen farEnv none = .ok (0, some s₀) ∧ s₀.mount.blocksize = 1024 ∧
      4194304 < s₀.mount.sb.sBlocksCount ∧
      ext2Breadi farEnv s₀.mount s₀.bufs farInode 0 1 zeros ext2MaxBlockSize = .ok (r, buf, b') ∧
      ¬ FetchesBlock s₀.mount s₀.bufs b' 4194304 := by
  obtain ⟨⟨r, s, r', buf, b'⟩, hrun, hp⟩ := holds_iff.mp far_check
  obtain ⟨⟨r, w⟩, hopen, hrun⟩ := bind_eq_ok.mp hrun
  rcases w with _ | s
  · cases hrun
  obtain ⟨x, hread, hrun⟩ := bind_eq_ok.mp hrun
  cases hrun
  simp only [Bool.and_eq_true, decide_eq_true_iff] at hp
  obtain ⟨⟨⟨rfl, hbs⟩, hcount⟩, hfetches⟩ := hp
  refine ⟨s, r', buf, b', hopen, hbs, hcount, hread, fun ⟨fs, hfs, hall⟩ => ?_⟩
  obtain rfl := List.append_cancel_left (hfetches.symm.trans hfs)
  have hbase := (hall _ (List.mem_singleton_self _)).base
  rw [Mount.bs, hbs] at hbase
  exact absurd hbase (by decide)

end MbBootTv

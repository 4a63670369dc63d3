import MbBootTv.Ext2.Possible
import MbBootTv.Ext2.ReadBytes
import MbBootTv.Ext2.Remap

/-!
# Reading several blocks at once

`ext2_breadi` reads blocks with consecutive numbers in one go. For that it asks `ext2_blkno` for one
block more than it takes, and for that one again on its next pass. So the blocks it goes through are
those that single calls would go through, whatever the caches hold, and both ways deliver the same:
`ext2Breadi_grouped`.
-/

namespace MbBootTv

/-! ## The map of several blocks -/

/-- The numbers that `ext2_blkno` returns for `n` blocks from `blkno` on, one call after another. -/
def mapBlocks (env : Env) (m : Mount) (ip : Inode) :
    Nat → UInt32 → Bufs → Except Fault (List UInt32 × Bufs)
  | 0, _, b => .ok ([], b)
  | n + 1, blkno, b => do
    let (dev, b) ← ext2Blkno env m b ip blkno
    let (ds, b) ← mapBlocks env m ip n (blkno + 1) b
    return (dev :: ds, b)

/-- From `b` on, the blocks from `k` on are `ds`. Once they are mapped, the buffers are `e` but for
the record, and it has the complete fetches `fs` in some order. -/
structure Maps (env : Env) (m : Mount) (ip : Inode) (b : Bufs) (k : UInt32) (ds : List UInt32)
    (e : Bufs) (fs : List Fetch) : Prop where
  maps : ∃ b', mapBlocks env m ip ds.length k b = .ok (ds, b') ∧ b'.bare = e ∧
    b'.delivered.Perm fs

section Maps

variable {env : Env} {m : Mount} {b b' e : Bufs} {ip : Inode} {k d : UInt32} {ds : List UInt32}
  {fs gs : List Fetch} {n : Nat}

theorem mapBlocks_logged : mapBlocks env m ip n k (b.logged fs) =
    (mapBlocks env m ip n k b).map fun x => (x.1, x.2.logged fs) := by
  induction n generalizing k b with
  | zero => rfl
  | succ n ih =>
    unfold mapBlocks
    rw [ext2Blkno_logged]
    refine map_bind fun x _ => ?_
    show (mapBlocks env m ip n (k + 1) (x.2.logged fs) >>= _) = _
    rw [ih]
    exact map_bind fun _ _ => rfl

theorem Bufs.logged_bare (b : Bufs) : b = b.bare.logged b.fetches := by
  simp [Bufs.bare, Bufs.logged]

/-- More on the record does not matter. -/
theorem Maps.congr (h : Maps env m ip b k ds e fs) {c : Bufs} (hbare : c.bare = b.bare)
    (hperm : c.delivered.Perm (gs ++ b.delivered)) : Maps env m ip c k ds e (gs ++ fs) := by
  obtain ⟨b', hmap, hbare', hperm'⟩ := h.maps
  rw [b.logged_bare, mapBlocks_logged] at hmap
  cases hrun : mapBlocks env m ip ds.length k b.bare with
  | error e =>
    rw [hrun] at hmap
    cases hmap
  | ok x =>
    rw [hrun] at hmap
    obtain ⟨hds, rfl⟩ := Prod.mk.inj (Except.ok.inj hmap)
    refine ⟨x.2.logged c.fetches, ?_, hbare', ?_⟩
    · have hsame : c = b.bare.logged c.fetches := hbare ▸ c.logged_bare
      rw [congrArg (mapBlocks env m ip ds.length k) hsame, mapBlocks_logged, hrun]
      exact congrArg (fun l => Except.ok (l, x.2.logged c.fetches)) hds
    · have hold : (b.delivered ++ x.2.delivered).Perm fs := by
        simpa [Bufs.delivered, Bufs.logged] using hperm'
      have hnew : (x.2.logged c.fetches).delivered = c.delivered ++ x.2.delivered := by
        simp [Bufs.delivered, Bufs.logged]
      rw [hnew]
      refine (hperm.append_right _).trans ?_
      rw [List.append_assoc]
      exact hold.append_left gs

theorem AllFailed.filter (h : AllFailed gs) : gs.filter (·.ok) = [] := by
  refine List.filter_eq_nil_iff.mpr fun f hf => ?_
  rw [h f hf]
  exact Bool.false_ne_true

/-- **One block.** It can be mapped once more before the others are. -/
theorem Maps.cons (h : Maps env m ip b k (d :: ds) e fs) :
    ∃ b₁, ext2Blkno env m b ip k = .ok (d, b₁) ∧ Maps env m ip b₁ (k + 1) ds e fs ∧
      Maps env m ip b₁ k (d :: ds) e fs := by
  obtain ⟨b', hmap, hbare, hperm⟩ := h.maps
  rw [List.length_cons, mapBlocks] at hmap
  obtain ⟨⟨d', b₁⟩, hfirst, hmap⟩ := bind_eq_ok.mp hmap
  obtain ⟨⟨ds', b₂⟩, hrest, hmap⟩ := bind_eq_ok.mp hmap
  obtain ⟨hcons, rfl⟩ := Prod.mk.inj (Except.ok.inj hmap)
  obtain ⟨rfl, rfl⟩ := List.cons.inj hcons
  have htail : Maps env m ip b₁ (k + 1) ds' e fs := ⟨b₂, hrest, hbare, hperm⟩
  refine ⟨b₁, hfirst, htail, ?_⟩
  obtain ⟨gs, hagain, hfail⟩ := ext2Blkno_again hfirst
  have hmore : (b₁.more gs).delivered.Perm ([] ++ b₁.delivered) := by
    simp [Bufs.delivered, Bufs.more, hfail.filter]
  have hsame : (b₁.more gs).bare = b₁.bare := rfl
  obtain ⟨b₃, hrest', hbare', hperm'⟩ := (htail.congr hsame hmore).maps
  refine ⟨b₃, ?_, hbare', hperm'⟩
  rw [List.length_cons, mapBlocks, hagain]
  simp [hrest']

end Maps

/-! ## Runs of blocks -/

/-- How many of the blocks behind block `d` have the numbers that follow. -/
def following (d : UInt32) : List UInt32 → Nat
  | [] => 0
  | x :: xs => if x = d + 1 then following x xs + 1 else 0

/-- The runs of consecutive numbers, each as long as it can be: the first number of each, and how
many there are. -/
def runs : List UInt32 → List (UInt32 × Nat)
  | [] => []
  | d :: ds =>
    match runs ds with
    | [] => [(d, 1)]
    | (x, n) :: rest => if x = d + 1 then (d, n + 1) :: rest else (d, 1) :: (x, n) :: rest

/-- One fetch for each run that is no hole. -/
def runFetches (env : Env) (m : Mount) (ds : List UInt32) : List Fetch :=
  ((runs ds).filter fun r => r.1 != 0).map fun r =>
    fetchAt env (r.1 * m.blocksize) (UInt32.ofNat (r.2 * m.bs))

/-- Byte `i` of block `d`; a hole is zeros. -/
def blockByte (env : Env) (m : Mount) (d : UInt32) (i : Nat) : UInt8 :=
  if d = 0 then 0 else (partByte env ((d * m.blocksize).toNat + i)).getD 0

/-- The blocks `ds` one behind the other. -/
def blocksContent (env : Env) (m : Mount) (ds : List UInt32) : Bytes := fun i =>
  blockByte env m (ds.getD (i / m.bs) 0) (i % m.bs)

/-- A hole, or a block other than the first two that can be read. -/
def Mapped (env : Env) (m : Mount) (d : UInt32) : Prop :=
  d = 0 ∨ 2 ≤ d.toNat ∧ env.CanFetch (d * m.blocksize) m.blocksize

section Runs

variable {env : Env} {m : Mount} {d : UInt32} {ds : List UInt32} {j : Nat}

/-- The first run, and the others. -/
theorem runs_cons (d : UInt32) (ds : List UInt32) :
    runs (d :: ds) = (d, following d ds + 1) :: runs (ds.drop (following d ds)) := by
  induction ds generalizing d with
  | nil => rfl
  | cons x xs ih =>
    rw [runs, ih, following]
    by_cases hx : x = d + 1
    · simp [hx]
    · simp [hx, ih]

theorem following_le (d : UInt32) (ds : List UInt32) : following d ds ≤ ds.length := by
  induction ds generalizing d with
  | nil => exact le_rfl
  | cons x xs ih =>
    rw [following]
    split_ifs
    · exact Nat.succ_le_succ (ih x)
    · exact Nat.zero_le _

/-- Behind a hole is no block 1. -/
theorem following_hole (h : ∀ x ∈ ds, Mapped env m x) : following 0 ds = 0 := by
  cases ds with
  | nil => rfl
  | cons x xs =>
    rw [following, if_neg]
    rintro rfl
    rcases h _ List.mem_cons_self with h1 | ⟨h2, -⟩
    · exact absurd h1 (by decide)
    · exact absurd h2 (by decide)

theorem blocksContent_drop (hm : m.Sound) (i : Nat) :
    blocksContent env m ds (j * m.bs + i) = blocksContent env m (ds.drop j) i := by
  have hbs : 0 < m.bs := by
    have := hm.cases
    omega
  unfold blocksContent
  rw [Nat.mul_comm, Nat.mul_add_div hbs, Nat.mul_add_mod]
  simp [List.getD_eq_getElem?_getD]

/-- Sectors from `s` on are in the partition and can be read. -/
def Env.HasSectors (env : Env) (s n : Nat) : Prop :=
  s + n ≤ env.part.size.toNat ∧
    ∀ i < n, (env.dev.diskRead (env.part.start + UInt64.ofNat (s + i))).isSome

theorem Env.HasSectors.append {s n n' : Nat} (h : env.HasSectors s n)
    (h' : env.HasSectors (s + n) n') : env.HasSectors s (n + n') := by
  refine ⟨by rw [← Nat.add_assoc]; exact h'.1, fun i hi => ?_⟩
  by_cases hlt : i < n
  · exact h.2 i hlt
  · have := h'.2 (i - n) (by omega)
    rwa [show s + n + (i - n) = s + i by omega] at this

theorem Mount.Sound.sectors (hm : m.Sound) : 512 * (m.bs / 512) = m.bs ∧ 0 < m.bs := by
  have := hm.cases
  omega

theorem Mount.Sound.sector_mod (hm : m.Sound) : m.blocksize.toNat % 512 = 0 := by
  have := hm.sectors
  simp only [Mount.bs] at this
  omega

/-- The sectors of `n` blocks. -/
theorem sectorCount_blocks (hm : m.Sound) {size : UInt32} {n : Nat}
    (hsize : size.toNat = n * m.bs) (hn : n * m.bs < 2 ^ 31) :
    sectorCount size = n * (m.bs / 512) := by
  obtain ⟨hbs, -⟩ := hm.sectors
  have hround : (size + 512 - 1).toNat = size.toNat + 511 := by
    rw [UInt32.toNat_sub, UInt32.toNat_add]
    simp
    omega
  have hbytes : n * m.bs = 512 * (n * (m.bs / 512)) := by
    rw [Nat.mul_left_comm, hbs]
  unfold sectorCount
  rw [UInt32.toNat_div, hround]
  show (size.toNat + 511) / 512 = _
  omega

/-- On a partition below 4 GiB, the block behind one that can be read is behind it. -/
theorem next_offset (hm : m.Sound) (hpart : 512 * env.part.size.toNat < 2 ^ 32)
    (h : env.CanFetch (d * m.blocksize) m.blocksize) :
    ((d + 1) * m.blocksize).toNat = (d * m.blocksize).toNat + m.bs := by
  have hbs := hm.sector_mod
  have hsmall : 1 * m.bs < 2 ^ 31 := by
    have := hm.cases
    omega
  have hin := h.1
  rw [sectorCount_blocks hm (Nat.one_mul m.bs).symm hsmall] at hin
  have hmod := toNat_mul_blocksize_mod hbs d
  have hblock : m.bs % 512 = 0 := hbs
  rw [UInt32.add_mul, UInt32.one_mul, UInt32.toNat_add]
  show ((d * m.blocksize).toNat + m.bs) % 2 ^ 32 = _
  omega

/-- **A run can be read in one go**, and its blocks stand one behind the other. -/
theorem run_sectors (hm : m.Sound) (hpart : 512 * env.part.size.toNat < 2 ^ 32) (h0 : d ≠ 0)
    (hd : env.CanFetch (d * m.blocksize) m.blocksize) (hds : ∀ x ∈ ds, Mapped env m x) :
    env.HasSectors ((d * m.blocksize).toNat / 512) ((following d ds + 1) * (m.bs / 512)) ∧
      ∀ q ≤ following d ds, ∀ i, blockByte env m ((d :: ds).getD q 0) i =
        (partByte env ((d * m.blocksize).toNat + (q * m.bs + i))).getD 0 := by
  have hsmall : 1 * m.bs < 2 ^ 31 := by
    have := hm.cases
    omega
  have hone : env.HasSectors ((d * m.blocksize).toNat / 512) (1 * (m.bs / 512)) :=
    sectorCount_blocks hm (Nat.one_mul m.bs).symm hsmall ▸ hd
  have hfirst : ∀ i, blockByte env m d i =
      (partByte env ((d * m.blocksize).toNat + (0 * m.bs + i))).getD 0 := fun i => by
    rw [blockByte, if_neg h0, Nat.zero_mul, Nat.zero_add]
  induction ds generalizing d with
  | nil =>
    refine ⟨hone, fun q hq i => ?_⟩
    obtain rfl := Nat.le_zero.mp hq
    exact hfirst i
  | cons x xs ih =>
    rw [following]
    by_cases hx : x = d + 1
    · rw [if_pos hx]
      -- The next block is not number 0, which would be 4 GiB behind the first.
      have hnext := next_offset hm hpart hd
      rw [← hx] at hnext
      have hx0 : x ≠ 0 := by
        rintro rfl
        rw [UInt32.zero_mul, UInt32.toNat_zero] at hnext
        have := hm.cases
        omega
      obtain ⟨-, hread⟩ := (hds x List.mem_cons_self).resolve_left hx0
      obtain ⟨hsectors, hbytes⟩ := ih hx0 hread
        (fun y hy => hds y (List.mem_cons_of_mem x hy))
        (sectorCount_blocks hm (Nat.one_mul m.bs).symm hsmall ▸ hread) (fun i => by
          rw [blockByte, if_neg hx0, Nat.zero_mul, Nat.zero_add])
      have hdiv : (x * m.blocksize).toNat / 512 =
          (d * m.blocksize).toNat / 512 + 1 * (m.bs / 512) := by
        have := hm.cases
        omega
      rw [hdiv] at hsectors
      refine ⟨?_, fun q hq i => ?_⟩
      · rw [Nat.add_mul (following x xs + 1), Nat.add_comm]
        exact hone.append hsectors
      · cases q with
        | zero => exact hfirst i
        | succ q =>
          rw [List.getD_cons_succ, hbytes q (Nat.le_of_succ_le_succ hq), hnext, Nat.add_mul]
          congr 2
          omega
    · rw [if_neg hx]
      refine ⟨hone, fun q hq i => ?_⟩
      obtain rfl := Nat.le_zero.mp hq
      exact hfirst i

end Runs

/-! ## The loops of `ext2_breadi` -/

section Loops

variable {env : Env} {m : Mount} {ip : Inode} {e : Bufs} {d : UInt32} {ds : List UInt32}
  {fs : List Fetch} {cap : Nat}

/-- **The inner loop takes one run.** -/
theorem contigLoop_run {dev : UInt32} {l : ContigLoop}
    (h : Maps env m ip l.bufs (l.blkno + 1) ds e fs) :
    ∃ c, contigLoop env m ip dev ds.length l = .ok c ∧
      c.blkno = l.blkno + UInt32.ofNat (following (dev + l.ncontig) ds + 1) ∧
      c.nblks = (ds.drop (following (dev + l.ncontig) ds)).length ∧
      c.nbytes = l.nbytes + UInt32.ofNat (following (dev + l.ncontig) ds + 1) * m.blocksize ∧
      Maps env m ip c.bufs c.blkno (ds.drop (following (dev + l.ncontig) ds)) e fs := by
  induction ds generalizing l with
  | nil => exact ⟨_, rfl, rfl, rfl, by simp [following], h⟩
  | cons x xs ih =>
    have hsucc (n : Nat) : UInt32.ofNat (n + 1) = UInt32.ofNat n + 1 := UInt32.ofNat_add n 1
    obtain ⟨b₁, hmap, hnext, hagain⟩ := h.cons
    rw [List.length_cons, contigLoop]
    simp only [hmap, ok_bind]
    have hcond : x = dev + (l.ncontig + 1) ↔ x = dev + l.ncontig + 1 := by
      rw [UInt32.add_assoc]
    rw [following]
    by_cases hx : x = dev + (l.ncontig + 1)
    · rw [if_pos hx, if_pos (hcond.mp hx)]
      obtain ⟨c, hrun, hblkno, hnblks, hnbytes, hrest⟩ := ih (l := {
        blkno := l.blkno + 1, nblks := xs.length + 1, ncontig := l.ncontig + 1
        nbytes := l.nbytes + m.blocksize, bufs := b₁ }) hnext
      dsimp only at hblkno hnblks hnbytes hrest
      rw [← hx] at hblkno hnblks hnbytes hrest
      refine ⟨c, hrun, ?_, hnblks, ?_, hrest⟩
      · rw [hblkno, hsucc (following x xs + 1), UInt32.add_assoc, UInt32.add_comm 1]
      · rw [hnbytes, hsucc (following x xs + 1), UInt32.add_mul, UInt32.one_mul, UInt32.add_assoc,
          UInt32.add_comm m.blocksize]
    · rw [if_neg hx, if_neg (hcond.not.mp hx)]
      exact ⟨_, rfl, rfl, rfl, by simp, hagain⟩

/-- The pass behind the first run. -/
theorem copy_blocks (hm : m.Sound) (buffer : Bytes) (pos j : Nat) (hj : j ≤ ds.length) :
    (buffer.copy pos (blocksContent env m ds) (j * m.bs)).copy (pos + j * m.bs)
        (blocksContent env m (ds.drop j)) ((ds.drop j).length * m.bs) =
      buffer.copy pos (blocksContent env m ds) (ds.length * m.bs) := by
  have happend := Bytes.copy_copy_append buffer (blocksContent env m ds) pos 0 (j * m.bs)
    ((ds.drop j).length * m.bs)
  simp only [Nat.zero_add, blocksContent_drop hm] at happend
  rw [happend, ← Nat.add_mul, List.length_drop, Nat.add_sub_cancel' hj]

/-- **One device read for a run.** -/
theorem run_read (hm : m.Sound) (hmem : ∀ n, env.blMalloc n = true)
    (hpart : 512 * env.part.size.toNat < 2 ^ 32) (h0 : d ≠ 0)
    (hd : env.CanFetch (d * m.blocksize) m.blocksize) (hds : ∀ x ∈ ds, Mapped env m x)
    {size : UInt32} (hsize : size.toNat = (following d ds + 1) * m.bs)
    (hsmall : (following d ds + 1) * m.bs < 2 ^ 31) (b : Bufs) :
    ∃ data, readBytes env b (d * m.blocksize) size =
        (some data, b.more [fetchAt env (d * m.blocksize) size]) ∧
      (fetchAt env (d * m.blocksize) size).ok = true ∧
      ∀ i < size.toNat, data i = blocksContent env m (d :: ds) i := by
  obtain ⟨hsectors, hbytes⟩ := run_sectors hm hpart h0 hd hds
  rw [← sectorCount_blocks hm hsize hsmall] at hsectors
  have hfetch : env.CanFetch (d * m.blocksize) size := hsectors
  obtain ⟨data, hread, hdata⟩ := readBytes_data (hmem _) hfetch b
  have hmore : b.fetch env (d * m.blocksize) size =
      b.more [fetchAt env (d * m.blocksize) size] := if_pos (hmem _)
  rw [hmore] at hread
  refine ⟨data, hread, fetchAt_ok_iff_canFetch.mpr hfetch, fun i hi => ?_⟩
  obtain ⟨hbs, hpos⟩ := hm.sectors
  have hin : (d * m.blocksize).toNat % 512 + i < 512 * sectorCount size := by
    rw [sectorCount_blocks hm hsize hsmall, toNat_mul_blocksize_mod hm.sector_mod,
      Nat.mul_left_comm, hbs]
    omega
  have hq : i / m.bs ≤ following d ds := by
    rw [hsize] at hi
    exact Nat.le_of_lt_succ ((Nat.div_lt_iff_lt_mul hpos).mpr hi)
  rw [hdata, if_pos hin, blocksContent, hbytes _ hq, Nat.div_add_mod']

theorem runFetches_cons (d : UInt32) (ds : List UInt32) :
    runFetches env m (d :: ds) = (if d = 0 then [] else [fetchAt env (d * m.blocksize)
      (UInt32.ofNat ((following d ds + 1) * m.bs))]) ++
        runFetches env m (ds.drop (following d ds)) := by
  unfold runFetches
  rw [runs_cons]
  by_cases h0 : d = 0 <;> simp [h0]

section Pass

variable {f n : Nat} {l : BreadiLoop} {b₁ : Bufs} {c : ContigLoop}

/-- One pass over a hole. -/
theorem breadiLoop_hole (hn : l.nblks = n + 1)
    (hmap : ext2Blkno env m l.bufs ip l.blkno = .ok (0, b₁))
    (hrun : contigLoop env m ip 0 n ⟨l.blkno, n + 1, 0, 0, b₁⟩ = .ok c)
    (hroom : ¬ cap < l.pos + c.nbytes.toNat) :
    breadiLoop env m ip cap (f + 1) l = breadiLoop env m ip cap f {
      blkno := c.blkno, nblks := c.nblks
      buffer := l.buffer.fill l.pos 0 c.nbytes.toNat, pos := l.pos + c.nbytes.toNat
      totBytes := l.totBytes + c.nbytes, bufs := c.bufs } := by
  rw [breadiLoop, hn]
  simp only [hmap, ok_bind, hrun, if_true, if_neg hroom]

/-- One pass over a run that can be read. -/
theorem breadiLoop_read (hn : l.nblks = n + 1)
    (hmap : ext2Blkno env m l.bufs ip l.blkno = .ok (d, b₁)) (h0 : d ≠ 0)
    (hrun : contigLoop env m ip d n ⟨l.blkno, n + 1, 0, 0, b₁⟩ = .ok c)
    (hroom : ¬ cap < l.pos + c.nbytes.toNat) {data : Bytes} {b₂ : Bufs}
    (hdata : readBytes env c.bufs (d * m.blocksize) c.nbytes = (some data, b₂)) :
    breadiLoop env m ip cap (f + 1) l = breadiLoop env m ip cap f {
      blkno := c.blkno, nblks := c.nblks
      buffer := l.buffer.copy l.pos data c.nbytes.toNat, pos := l.pos + c.nbytes.toNat
      totBytes := l.totBytes + c.nbytes, bufs := b₂ } := by
  rw [breadiLoop, hn]
  simp only [hmap, ok_bind, hrun, if_neg h0, hdata, if_neg hroom]

end Pass

theorem Maps.nil {b : Bufs} {k : UInt32} (h : Maps env m ip b k [] e fs) :
    b.bare = e ∧ b.delivered.Perm fs := by
  obtain ⟨b', hmap, hbare, hperm⟩ := h.maps
  obtain ⟨-, rfl⟩ := Prod.mk.inj (Except.ok.inj hmap)
  exact ⟨hbare, hperm⟩

/-- **`ext2_breadi` takes run after run**: the blocks are delivered, with one device read for each
run. -/
theorem breadiLoop_run (hm : m.Sound) (hmem : ∀ n, env.blMalloc n = true)
    (hpart : 512 * env.part.size.toNat < 2 ^ 32) {l : BreadiLoop}
    (h : Maps env m ip l.bufs l.blkno ds e fs) (hn : l.nblks = ds.length)
    (hds : ∀ x ∈ ds, Mapped env m x) (hcap : l.pos + ds.length * m.bs ≤ cap)
    (hsmall : ds.length * m.bs < 2 ^ 31) :
    ∃ b', (∀ f, ds.length ≤ f → breadiLoop env m ip cap f l =
        .ok (l.totBytes + UInt32.ofNat (ds.length * m.bs),
          l.buffer.copy l.pos (blocksContent env m ds) (ds.length * m.bs), b')) ∧
      b'.bare = e ∧ b'.delivered.Perm (runFetches env m ds ++ fs) := by
  induction hk : ds.length using Nat.strong_induction_on generalizing ds l fs with
  | _ k ih =>
    subst hk
    cases ds with
    | nil =>
      refine ⟨l.bufs, fun f _ => ?_, h.nil⟩
      cases f with
      | zero => simp [breadiLoop, Bytes.copy_zero_len]
      | succ f => simp [breadiLoop, hn, Bytes.copy_zero_len]
    | cons d ds =>
      obtain ⟨b₁, hmap, hnext, -⟩ := h.cons
      obtain ⟨c, hrun, hblkno, hnblks, hnbytes, hrest⟩ := @contigLoop_run env m ip e ds fs d
        ⟨l.blkno, ds.length + 1, 0, 0, b₁⟩ hnext
      dsimp only at hblkno hnblks hnbytes hrest
      rw [UInt32.add_zero] at hblkno hnblks hnbytes hrest
      rw [UInt32.zero_add] at hnbytes
      have hj := following_le d ds
      rw [List.length_cons] at hcap hsmall ⊢
      have hrunle : (following d ds + 1) * m.bs ≤ (ds.length + 1) * m.bs :=
        Nat.mul_le_mul_right _ (Nat.succ_le_succ hj)
      have hword : c.nbytes = UInt32.ofNat ((following d ds + 1) * m.bs) := by
        rw [hnbytes, UInt32.ofNat_mul, Mount.bs, UInt32.ofNat_toNat]
      have hsize : c.nbytes.toNat = (following d ds + 1) * m.bs := by
        rw [hword, UInt32.toNat_ofNat_of_lt' (hrunle.trans_lt (hsmall.trans (by decide)))]
      -- What is left when the run has been taken.
      have hleft : ∀ b₂ gs, Maps env m ip b₂ c.blkno (ds.drop (following d ds)) e (gs ++ fs) →
          ∃ b', (∀ f, ds.length ≤ f → breadiLoop env m ip cap f {
              blkno := c.blkno, nblks := c.nblks
              buffer := l.buffer.copy l.pos (blocksContent env m (d :: ds)) c.nbytes.toNat
              pos := l.pos + c.nbytes.toNat, totBytes := l.totBytes + c.nbytes, bufs := b₂ } =
            .ok (l.totBytes + UInt32.ofNat ((ds.length + 1) * m.bs),
              l.buffer.copy l.pos (blocksContent env m (d :: ds)) ((ds.length + 1) * m.bs), b')) ∧
            b'.bare = e ∧
            b'.delivered.Perm (runFetches env m (ds.drop (following d ds)) ++ (gs ++ fs)) := by
        intro b₂ gs hmaps
        have hlen : (ds.drop (following d ds)).length = ds.length - following d ds :=
          List.length_drop
        have hbytes : (following d ds + 1) * m.bs + (ds.drop (following d ds)).length * m.bs =
            (ds.length + 1) * m.bs := by
          rw [← Nat.add_mul, hlen]
          congr 1
          omega
        obtain ⟨b', hloop, hbare, hperm⟩ := ih _ (by rw [hlen, List.length_cons]; omega) (l := {
            blkno := c.blkno, nblks := c.nblks
            buffer := l.buffer.copy l.pos (blocksContent env m (d :: ds)) c.nbytes.toNat
            pos := l.pos + c.nbytes.toNat, totBytes := l.totBytes + c.nbytes, bufs := b₂ })
          hmaps hnblks (fun x hx => hds x (List.mem_cons_of_mem d (List.mem_of_mem_drop hx)))
          (by dsimp only; omega) (by omega) rfl
        refine ⟨b', fun f hf => (hloop f (by omega)).trans ?_, hbare, hperm⟩
        have hcopy := @copy_blocks env m (d :: ds) hm l.buffer l.pos (following d ds + 1)
          (Nat.succ_le_succ hj)
        rw [List.drop_succ_cons, List.length_cons] at hcopy
        dsimp only
        rw [hsize, hcopy, hword, UInt32.add_assoc, ← UInt32.ofNat_add, hbytes]
      have hroom : ¬ cap < l.pos + c.nbytes.toNat := by omega
      rw [runFetches_cons, ← hword]
      by_cases h0 : d = 0
      · rw [if_pos h0, List.nil_append]
        have hnone : following d ds = 0 := by
          rw [h0]
          exact following_hole fun x hx => hds x (List.mem_cons_of_mem d hx)
        have hzeros : l.buffer.fill l.pos 0 c.nbytes.toNat =
            l.buffer.copy l.pos (blocksContent env m (d :: ds)) c.nbytes.toNat := by
          rw [Bytes.fill_eq_copy]
          refine Bytes.copy_congr fun i hi => ?_
          rw [hsize, hnone, Nat.zero_add, Nat.one_mul] at hi
          rw [blocksContent, Nat.div_eq_of_lt hi, List.getD_cons_zero, blockByte, if_pos h0]
        obtain ⟨b', hloop, hbare, hperm⟩ := hleft c.bufs [] hrest
        refine ⟨b', fun f hf => ?_, hbare, hperm⟩
        obtain ⟨f, rfl⟩ := Nat.exists_eq_add_of_le' (Nat.one_le_of_lt hf)
        rw [breadiLoop_hole hn (h0 ▸ hmap) (h0 ▸ hrun) hroom, hzeros]
        exact hloop f (Nat.le_of_succ_le_succ hf)
      · rw [if_neg h0]
        obtain ⟨-, hread⟩ := (hds d List.mem_cons_self).resolve_left h0
        obtain ⟨data, hdata, hok, hbytes⟩ := run_read hm hmem hpart h0 hread
          (fun x hx => hds x (List.mem_cons_of_mem d hx)) hsize (hrunle.trans_lt hsmall) c.bufs
        have hmaps : Maps env m ip (c.bufs.more [fetchAt env (d * m.blocksize) c.nbytes]) c.blkno
            (ds.drop (following d ds)) e ([fetchAt env (d * m.blocksize) c.nbytes] ++ fs) := by
          refine hrest.congr rfl ?_
          simp only [Bufs.delivered, Bufs.more, List.filter_append, List.filter_singleton, hok]
          exact List.perm_append_comm
        obtain ⟨b', hloop, hbare, hperm⟩ := hleft _ _ hmaps
        refine ⟨b', fun f hf => ?_, hbare, hperm.trans ?_⟩
        · obtain ⟨f, rfl⟩ := Nat.exists_eq_add_of_le' (Nat.one_le_of_lt hf)
          rw [breadiLoop_read hn hmap h0 hrun hroom hdata, Bytes.copy_congr hbytes]
          exact hloop f (Nat.le_of_succ_le_succ hf)
        · rw [← List.append_assoc]
          exact List.perm_append_comm.append_right fs

end Loops

/-! ## Single calls -/

/-- `n` calls of `ext2_breadi` for one block each, one after another: each block goes behind the one
before it. They end when one returns -1; what they return is added up. -/
def breadiEach (env : Env) (m : Mount) (ip : Inode) (cap : Nat) :
    Nat → BreadiLoop → Except Fault (UInt32 × Bytes × Bufs)
  | 0, l => .ok (l.totBytes, l.buffer, l.bufs)
  | n + 1, l => do
    let (r, buf, b) ← ext2Breadi env m l.bufs ip l.blkno 1 (fun i => l.buffer (l.pos + i))
      (cap - l.pos)
    let buffer := l.buffer.copy l.pos buf (cap - l.pos)
    if r = -1 then return (-1, buffer, b)
    else breadiEach env m ip cap n {
      blkno := l.blkno + 1, nblks := n
      buffer := buffer, pos := l.pos + r.toNat
      totBytes := l.totBytes + r, bufs := b }

/-- The part of an array from `pos` on, changed in its first bytes and put back. -/
theorem Bytes.copy_window (dst src : Bytes) (pos n k : Nat) (h : n ≤ k) :
    dst.copy pos (Bytes.copy (fun i => dst (pos + i)) 0 src n) k = dst.copy pos src n := by
  funext i
  unfold Bytes.copy
  by_cases hn : pos ≤ i ∧ i < pos + n
  · rw [if_pos (by omega), if_pos (by omega), if_pos hn]
    rfl
  · rw [if_neg hn]
    by_cases hk : pos ≤ i ∧ i < pos + k
    · rw [if_pos hk, if_neg (by omega)]
      show dst (pos + (i - pos)) = dst i
      rw [Nat.add_sub_cancel' hk.1]
    · rw [if_neg hk]

section Single

variable {env : Env} {m : Mount} {ip : Inode} {e : Bufs} {ds : List UInt32} {fs : List Fetch}
  {cap : Nat}

/-- **Single calls take block after block**, with one device read for each that is no hole. -/
theorem breadiEach_run (hm : m.Sound) (hmem : ∀ n, env.blMalloc n = true)
    (hpart : 512 * env.part.size.toNat < 2 ^ 32) {l : BreadiLoop}
    (h : Maps env m ip l.bufs l.blkno ds e fs) (hds : ∀ x ∈ ds, Mapped env m x)
    (hcap : l.pos + ds.length * m.bs ≤ cap)
    (hin : ∀ q < ds.length, (l.blkno.toNat + q) * m.bs ≤ ip.iSize.toNat) :
    ∃ b', breadiEach env m ip cap ds.length l =
        .ok (l.totBytes + UInt32.ofNat (ds.length * m.bs),
          l.buffer.copy l.pos (blocksContent env m ds) (ds.length * m.bs), b') ∧
      b'.bare = e ∧ b'.delivered.Perm (ds.flatMap (fun d => runFetches env m [d]) ++ fs) := by
  induction ds generalizing l fs with
  | nil => exact ⟨l.bufs, by simp [breadiEach, Bytes.copy_zero_len], h.nil⟩
  | cons d ds ih =>
    obtain ⟨b₁, hmap, hnext, -⟩ := h.cons
    have hone : Maps env m ip l.bufs l.blkno [d] b₁.bare b₁.delivered := by
      refine ⟨b₁, ?_, rfl, List.Perm.refl _⟩
      simp [mapBlocks, hmap]
    have hsmall : 1 * m.bs < 2 ^ 31 := by
      have := hm.cases
      omega
    rw [List.length_cons, Nat.add_mul, Nat.one_mul] at hcap
    obtain ⟨b₂, hloop, hbare, hperm⟩ := breadiLoop_run (l := {
        blkno := l.blkno, nblks := 1, buffer := fun i => l.buffer (l.pos + i), pos := 0
        totBytes := 0, bufs := l.bufs }) hm hmem hpart hone rfl
      (fun x hx => hds x (by simp_all)) (show 0 + 1 * m.bs ≤ cap - l.pos by omega) hsmall
    have hfirst : l.blkno.toNat * m.bs ≤ ip.iSize.toNat := hin 0 (Nat.succ_pos _)
    have hsucc : (l.blkno + 1).toNat = l.blkno.toNat + 1 := by
      have hlt := ip.iSize.toNat_lt
      have hle : l.blkno.toNat * 1024 ≤ l.blkno.toNat * m.bs :=
        Nat.mul_le_mul_left _ (by have := hm.cases; omega)
      rw [UInt32.toNat_add, UInt32.toNat_one, Nat.mod_eq_of_lt (by omega)]
    replace hloop := hloop 1 le_rfl
    dsimp only at hloop
    rw [UInt32.zero_add, List.length_singleton, Nat.one_mul, Mount.bs, UInt32.ofNat_toNat] at hloop
    have hret : m.blocksize ≠ -1 := by
      rcases hm.blocksize with hb | hb | hb <;> rw [hb] <;> decide
    have hblock : l.buffer.copy l.pos (blocksContent env m [d]) m.blocksize.toNat =
        l.buffer.copy l.pos (blocksContent env m (d :: ds)) (1 * m.bs) := by
      rw [Nat.one_mul]
      refine Bytes.copy_congr fun i hi => ?_
      have hdiv : i / m.bs = 0 := Nat.div_eq_of_lt hi
      rw [blocksContent, blocksContent, hdiv, List.getD_cons_zero, List.getD_cons_zero]
    rw [List.length_cons, breadiEach, ext2Breadi_single hm l.bufs hfirst, hloop]
    simp only [ok_bind, if_neg hret]
    rw [Bytes.copy_window _ _ _ _ _ (by simp only [Mount.bs] at hcap; omega)]
    have hmaps : Maps env m ip b₂ (l.blkno + 1) ds e (runFetches env m [d] ++ fs) :=
      hnext.congr hbare hperm
    obtain ⟨b', hrest, hbare', hperm'⟩ := ih (l := {
        blkno := l.blkno + 1, nblks := ds.length
        buffer := l.buffer.copy l.pos (blocksContent env m [d]) m.blocksize.toNat
        pos := l.pos + m.blocksize.toNat, totBytes := l.totBytes + m.blocksize, bufs := b₂ })
      hmaps (fun x hx => hds x (List.mem_cons_of_mem d hx))
      (by simp only [Mount.bs] at hcap ⊢; omega) (fun q hq => by
        have := hin (q + 1) (Nat.succ_lt_succ hq)
        dsimp only
        rwa [hsucc, Nat.add_assoc, Nat.add_comm 1])
    refine ⟨b', hrest.trans ?_, hbare', hperm'.trans ?_⟩
    · have hcopy := @copy_blocks env m (d :: ds) hm l.buffer l.pos 1
        (Nat.succ_le_succ (Nat.zero_le _))
      rw [← hblock, List.drop_succ_cons, List.drop_zero, List.length_cons, Nat.one_mul] at hcopy
      have hsum : m.blocksize + UInt32.ofNat (ds.length * m.bs) =
          UInt32.ofNat ((ds.length + 1) * m.bs) := by
        rw [Nat.add_mul, Nat.one_mul, Nat.add_comm, UInt32.ofNat_add, Mount.bs, UInt32.ofNat_toNat]
      dsimp only
      rw [UInt32.add_assoc, hsum, ← hcopy]
      rfl
    · rw [List.flatMap_cons, ← List.append_assoc]
      exact List.perm_append_comm.append_right fs

end Single

/-! ## Both ways -/

section Both

variable {env : Env} {m : Mount} {ip : Inode} {blkno nblks : UInt32}

theorem mapBlocks_total (hm : m.Sound) (b : Bufs) {k : UInt32} {n : Nat}
    (hk : k.toNat + n ≤ 2 ^ 31) :
    ∃ ds b', mapBlocks env m ip n k b = .ok (ds, b') ∧ ds.length = n := by
  induction n generalizing k b with
  | zero => exact ⟨[], b, rfl, rfl⟩
  | succ n ih =>
    have hany : b.Hold m fun _ _ => True := ⟨trivial, trivial⟩
    obtain ⟨d, b₁, hmap, -⟩ := ext2Blkno_possible ip hm hany (fun _ _ _ => trivial)
      (show k.toNat < 2 ^ 31 by omega)
    have hsucc : (k + 1).toNat = k.toNat + 1 := by
      rw [UInt32.toNat_add, UInt32.toNat_one, Nat.mod_eq_of_lt (by omega)]
    obtain ⟨ds, b', hrest, hlen⟩ := ih b₁ (k := k + 1) (by omega)
    refine ⟨d :: ds, b', ?_, congrArg (· + 1) hlen⟩
    rw [mapBlocks, hmap]
    simp [hrest]

/-- The number of blocks that are read: up to the end of the file, and one more when that is the end
of a block. -/
theorem ext2Breadi_clamped (hm : m.Sound) (hstart : blkno.toNat ≤ ip.iSize.toNat / m.bs)
    (hend : (blkno.toNat + nblks.toNat) * m.bs < 2 ^ 31) {count : Nat}
    (hcount : count = min nblks.toNat (ip.iSize.toNat / m.bs + 1 - blkno.toNat))
    (b : Bufs) (buffer : Bytes) (cap : Nat) :
    ext2Breadi env m b ip blkno nblks buffer cap =
      breadiLoop env m ip cap count ⟨blkno, count, buffer, 0, 0, b⟩ := by
  obtain ⟨-, hbs⟩ := hm.sectors
  have hb0 : m.blocksize ≠ 0 := by
    rcases hm.blocksize with h | h | h <;> rw [h] <;> decide
  have hsum : blkno.toNat + nblks.toNat < 2 ^ 31 := by
    have := Nat.le_mul_of_pos_right (blkno.toNat + nblks.toNat) hbs
    omega
  have hbytes : ((blkno + nblks) * m.blocksize).toNat = (blkno.toNat + nblks.toNat) * m.bs := by
    have hadd : (blkno + nblks).toNat = blkno.toNat + nblks.toNat := by
      rw [UInt32.toNat_add, Nat.mod_eq_of_lt (by omega)]
    rw [UInt32.toNat_mul, hadd]
    exact Nat.mod_eq_of_lt (hend.trans (by decide))
  unfold ext2Breadi
  by_cases hclamp : (blkno + nblks) * m.blocksize > ip.iSize
  · rw [if_pos hclamp, if_neg hb0]
    rw [gt_iff_lt, UInt32.lt_iff_toNat_lt, hbytes] at hclamp
    have hlt := (Nat.div_lt_iff_lt_mul hbs).mpr hclamp
    have hdiv : ((ip.iSize + m.blocksize) / m.blocksize).toNat = ip.iSize.toNat / m.bs + 1 := by
      have hcases := hm.cases
      rw [UInt32.toNat_div, UInt32.toNat_add, Nat.mod_eq_of_lt]
      · exact Nat.add_div_right _ hbs
      · simp only [Mount.bs] at hcases
        omega
    have hleft : ((ip.iSize + m.blocksize) / m.blocksize - blkno).toNat = count := by
      rw [UInt32.toNat_sub_of_le _ _ (UInt32.le_iff_toNat_le.mpr (by omega)), hdiv]
      omega
    dsimp only
    rw [hleft]
  · rw [if_neg hclamp]
    rw [gt_iff_lt, UInt32.lt_iff_toNat_lt, hbytes, Nat.not_lt] at hclamp
    have hle := (Nat.le_div_iff_mul_le hbs).mpr hclamp
    have hall : nblks.toNat = count := by omega
    rw [hall]

/-- **Grouped reads and single reads agree.** Where the blocks of a file are holes, or blocks from
number 2 on that can be read, `ext2_breadi` comes to an end, whatever passes it is given. It
delivers what single calls would deliver, returns as many bytes, leaves the same caches, and reads
each run of consecutive blocks at once. -/
theorem ext2Breadi_grouped {b : Bufs} {count cap : Nat} (buffer : Bytes) (hm : m.Sound)
    (hmem : ∀ n, env.blMalloc n = true) (hpart : 512 * env.part.size.toNat < 2 ^ 32)
    (hstart : blkno.toNat ≤ ip.iSize.toNat / m.bs)
    (hend : (blkno.toNat + nblks.toNat) * m.bs < 2 ^ 31)
    (hcount : count = min nblks.toNat (ip.iSize.toNat / m.bs + 1 - blkno.toNat))
    (hcap : count * m.bs ≤ cap)
    (hblocks : ∀ ds b₁, mapBlocks env m ip count blkno b = .ok (ds, b₁) →
      ∀ d ∈ ds, Mapped env m d) :
    ∃ ds b₁ b₂ b₃ r, mapBlocks env m ip count blkno b = .ok (ds, b₁) ∧ r.toNat = count * m.bs ∧
      ext2Breadi env m b ip blkno nblks buffer cap =
        .ok (r, buffer.copy 0 (blocksContent env m ds) (count * m.bs), b₂) ∧
      breadiEach env m ip cap count ⟨blkno, count, buffer, 0, 0, b⟩ =
        .ok (r, buffer.copy 0 (blocksContent env m ds) (count * m.bs), b₃) ∧
      b₂.bare = b₃.bare ∧ b₂.delivered.Perm (runFetches env m ds ++ b₁.delivered) ∧
      ∀ passes, count ≤ passes →
        breadiLoop env m ip cap passes ⟨blkno, count, buffer, 0, 0, b⟩ =
          ext2Breadi env m b ip blkno nblks buffer cap := by
  obtain ⟨-, hbs⟩ := hm.sectors
  have hle : count ≤ nblks.toNat := by omega
  have hsmall : count * m.bs < 2 ^ 31 :=
    (Nat.mul_le_mul_right _ (by omega)).trans_lt hend
  have hsum : blkno.toNat + count ≤ 2 ^ 31 := by
    have := Nat.le_mul_of_pos_right (blkno.toNat + nblks.toNat) hbs
    omega
  obtain ⟨ds, b₁, hmap, hlen⟩ := mapBlocks_total hm b hsum
  have hds := hblocks ds b₁ hmap
  subst hlen
  have hmaps : Maps env m ip b blkno ds b₁.bare b₁.delivered :=
    ⟨b₁, hmap, rfl, List.Perm.refl _⟩
  obtain ⟨b₂, hloop, hbare, hperm⟩ := breadiLoop_run (l := ⟨blkno, ds.length, buffer, 0, 0, b⟩)
    hm hmem hpart hmaps rfl hds (show 0 + ds.length * m.bs ≤ cap by omega) hsmall
  obtain ⟨b₃, heach, hbare', -⟩ := breadiEach_run (l := ⟨blkno, ds.length, buffer, 0, 0, b⟩)
    hm hmem hpart hmaps hds (show 0 + ds.length * m.bs ≤ cap by omega) fun q hq => by
      refine (Nat.mul_le_mul_right _ ?_).trans (Nat.div_mul_le_self ip.iSize.toNat m.bs)
      show blkno.toNat + q ≤ _
      omega
  have hclamped : ext2Breadi env m b ip blkno nblks buffer cap = _ :=
    ext2Breadi_clamped hm hstart hend hcount b buffer cap
  refine ⟨ds, b₁, b₂, b₃, 0 + UInt32.ofNat (ds.length * m.bs), hmap, ?_,
    hclamped.trans (hloop _ le_rfl), heach, hbare.trans hbare'.symm, hperm, fun f hf => ?_⟩
  · rw [UInt32.zero_add, UInt32.toNat_ofNat_of_lt' (hsmall.trans (by decide))]
  · rw [hloop f hf, hclamped, hloop _ le_rfl]

end Both

/-- A mount with blocks of 1024 bytes. -/
def runsMount : Mount where
  sb := zeros
  gds := zeros
  ngroups := 1
  directlim := 11
  ind1lim := 267
  ind2lim := 65547
  ptrsPerBlk := 256
  blocksize := 1024

/-- Four blocks: two in a row, a hole, and one more. -/
def runsInode : Inode :=
  ((((zeros.putLe 4 4 4096).putLe 40 4 2).putLe 44 4 3).putLe 52 4 5)

theorem runs_check :
    holds (mapBlocks (wholeEnv smallPart letters) runsMount runsInode 4 0 (emptyBufs []))
      (fun x => x.1 = [2, 3, 0, 5]) = true := by decide +kernel

example : runs [2, 3, 0, 5] = [(2, 2), (0, 1), (5, 1)] := by decide

theorem ext2Breadi_grouped_runs :
    ∃ ds b₁ b₂ b₃ r, mapBlocks (wholeEnv smallPart letters) runsMount runsInode 4 0
        (emptyBufs []) = .ok (ds, b₁) ∧ r.toNat = 4 * runsMount.bs ∧
      ext2Breadi (wholeEnv smallPart letters) runsMount (emptyBufs []) runsInode 0 4 zeros 4096 =
        .ok (r, zeros.copy 0 (blocksContent (wholeEnv smallPart letters) runsMount ds)
          (4 * runsMount.bs), b₂) ∧
      breadiEach (wholeEnv smallPart letters) runsMount runsInode 4096 4
          ⟨0, 4, zeros, 0, 0, emptyBufs []⟩ =
        .ok (r, zeros.copy 0 (blocksContent (wholeEnv smallPart letters) runsMount ds)
          (4 * runsMount.bs), b₃) ∧
      b₂.bare = b₃.bare ∧
      b₂.delivered.Perm (runFetches (wholeEnv smallPart letters) runsMount ds ++ b₁.delivered) ∧
      ∀ passes, 4 ≤ passes →
        breadiLoop (wholeEnv smallPart letters) runsMount runsInode 4096 passes
            ⟨0, 4, zeros, 0, 0, emptyBufs []⟩ =
          ext2Breadi (wholeEnv smallPart letters) runsMount (emptyBufs []) runsInode 0 4 zeros
            4096 := by
  refine ext2Breadi_grouped zeros ⟨Or.inl rfl, rfl, rfl, rfl, rfl⟩ (fun _ => rfl) (by decide)
    (by decide) (by decide) (by decide) (by decide) fun ds b₁ hmap d hd => ?_
  obtain ⟨x, hrun, hx⟩ := holds_iff.mp runs_check
  rw [hmap] at hrun
  obtain rfl := Except.ok.inj hrun
  obtain rfl : ds = [2, 3, 0, 5] := of_decide_eq_true hx
  simp only [List.mem_cons, List.not_mem_nil, or_false] at hd
  rcases hd with rfl | rfl | rfl | rfl
  · exact Or.inr ⟨by decide, by decide, fun _ _ => rfl⟩
  · exact Or.inr ⟨by decide, by decide, fun _ _ => rfl⟩
  · exact Or.inl rfl
  · exact Or.inr ⟨by decide, by decide, fun _ _ => rfl⟩

end MbBootTv

import MbBootTv.Ext2.Medium
import MbBootTv.Ext2.ReadErrors

/-!
# The block map of the format

The format finds a block of a file by following pointers: one in the inode, or one more in each
indirect block on the way. `pointerPath` are the pointers followed, until one is 0.

`ext2_blkno` follows the same pointers, but its last limit counts the blocks behind the
double-indirect block only, not those before: the last `p` blocks of that range are taken for holes.
And it reads another block in place of an indirect one that begins behind the first 4 GiB
(`ext2Blkno_format_iff`).
-/

namespace MbBootTv

/-! ## Following pointers -/

/-- The pointers met from `n` on, at index `i` of the block `n`, and so on; none behind a 0. -/
def follow (content : UInt32 → Bytes) (n : UInt32) : List Nat → List UInt32
  | [] => [n]
  | i :: is => if n = 0 then [0] else n :: follow content ((content n).le32 (4 * i)) is

theorem follow_ne_nil (content : UInt32 → Bytes) (n : UInt32) (is : List Nat) :
    follow content n is ≠ [] := by
  cases is with
  | nil => exact List.cons_ne_nil _ _
  | cons i is =>
    unfold follow
    split <;> exact List.cons_ne_nil _ _

/-- The last pointer. -/
def lastOf (content : UInt32 → Bytes) (n : UInt32) (is : List Nat) : UInt32 :=
  (follow content n is).getLast (follow_ne_nil content n is)

section Follow

variable {content : UInt32 → Bytes} {n : UInt32} {i : Nat} {is : List Nat}

theorem follow_zero : follow content 0 (i :: is) = [0] := if_pos rfl

theorem follow_of_ne (h : n ≠ 0) :
    follow content n (i :: is) = n :: follow content ((content n).le32 (4 * i)) is := if_neg h

theorem lastOf_nil : lastOf content n [] = n := rfl

theorem lastOf_zero : lastOf content 0 is = 0 := by
  cases is with
  | nil => rfl
  | cons i is =>
    unfold lastOf
    simp only [follow_zero, List.getLast_singleton]

theorem lastOf_of_ne (h : n ≠ 0) :
    lastOf content n (i :: is) = lastOf content ((content n).le32 (4 * i)) is := by
  unfold lastOf
  simp only [follow_of_ne h]
  exact List.getLast_cons (follow_ne_nil _ _ _)

/-- The last pointer is 0 exactly when one of them is. -/
theorem lastOf_eq_zero_iff : lastOf content n is = 0 ↔ 0 ∈ follow content n is := by
  induction is generalizing n with
  | nil =>
    rw [lastOf_nil, follow, List.mem_singleton]
    exact eq_comm
  | cons i is ih =>
    by_cases h : n = 0
    · subst h
      rw [lastOf_zero, follow_zero]
      simp
    · rw [lastOf_of_ne h, follow_of_ne h, ih, List.mem_cons]
      exact (or_iff_right (Ne.symm h)).symm

end Follow

/-! ## The map of the format -/

/-- Where block `k` starts in `i_block`, and the indices in the indirect blocks, with `p` pointers
to a block. -/
def pathIndices (p k : Nat) : Nat × List Nat :=
  if k < 12 then (k, [])
  else if k < 12 + p then (ext2IndBlock, [k - 12])
  else (ext2DindBlock, [(k - 12 - p) / p, (k - 12 - p) % p])

/-- The pointers that lead to block `k` of a file. -/
def pointerPath (p : Nat) (content : UInt32 → Bytes) (ip : Inode) (k : Nat) : List UInt32 :=
  follow content (ip.iBlock (pathIndices p k).1) (pathIndices p k).2

/-- The block that the format names for block `k` of a file. -/
def pathBlkno (p : Nat) (content : UInt32 → Bytes) (ip : Inode) (k : Nat) : UInt32 :=
  lastOf content (ip.iBlock (pathIndices p k).1) (pathIndices p k).2

/-- `ext2_blkno` returns the block that the format names, which is 0 exactly when a pointer on the
way is. -/
def MapsAsFormat (env : Env) (m : Mount) (b : Bufs) (content : UInt32 → Bytes) (ip : Inode)
    (k : UInt32) : Prop :=
  (∃ b', ext2Blkno env m b ip k = .ok (pathBlkno m.ptrs content ip k.toNat, b')) ∧
    (pathBlkno m.ptrs content ip k.toNat = 0 ↔ 0 ∈ pointerPath m.ptrs content ip k.toNat)

/-- The pointers from `n` on are followed as the format has it: each block on the way is in reach,
and fits the buffer. -/
def CanFollow (m : Mount) (content : UInt32 → Bytes) (n : UInt32) : List Nat → Prop
  | [] => True
  | i :: is => n = 0 ∨ n.toNat * m.bs < 2 ^ 32 ∧ m.bs ≤ ext2MaxBlockSize ∧
      CanFollow m content ((content n).le32 (4 * i)) is

/-- The blocks on the way are in reach. -/
def ReachesAll (m : Mount) (content : UInt32 → Bytes) (n : UInt32) (is : List Nat) : Prop :=
  ∀ p ∈ (follow content n is).dropLast, p.toNat * m.bs < 2 ^ 32

theorem CanFollow.reaches {m : Mount} {content : UInt32 → Bytes} {n : UInt32} {is : List Nat}
    (h : CanFollow m content n is) : ReachesAll m content n is := by
  unfold ReachesAll
  induction is generalizing n with
  | nil =>
    intro p hp
    cases hp
  | cons i is ih =>
    intro p hp
    by_cases h0 : n = 0
    · subst h0
      rw [follow_zero] at hp
      cases hp
    · obtain ⟨hreach, -, hrest⟩ := h.resolve_left h0
      rw [follow_of_ne h0, List.dropLast_cons_of_ne_nil (follow_ne_nil _ _ _), List.mem_cons] at hp
      rcases hp with rfl | hp
      · exact hreach
      · exact ih hrest p hp

/-- The number of blocks behind the double-indirect block, as the mount has it. -/
def Mount.ind2count (m : Mount) : Nat := m.ptrs * m.ptrs % 2 ^ 32

/-- Where a limit of the code lies in front of block `k` no pointer is followed; otherwise the
indirect blocks on the way are in reach. -/
def WayInReach (m : Mount) (content : UInt32 → Bytes) (ip : Inode) (k : Nat) : Prop :=
  k < 12 + m.ptrs ∨ k < 12 + m.ind2count →
    ReachesAll m content (ip.iBlock (pathIndices m.ptrs k).1) (pathIndices m.ptrs k).2

/-- Block `k` is in front of the last limit, and its pointers can be followed; or it is behind, and
a hole. -/
def WithinMap (m : Mount) (content : UInt32 → Bytes) (ip : Inode) (k : Nat) : Prop :=
  if k < 12 + m.ptrs ∨ k < 12 + m.ind2count then
    CanFollow m content (ip.iBlock (pathIndices m.ptrs k).1) (pathIndices m.ptrs k).2
  else pathBlkno m.ptrs content ip k = 0

/-! ## A fresh mount -/

/-- The block size is a power of 2, from 2^10 to 2^31. -/
theorem Mounted.ptrs_bounds {s : St} (h : Mounted s) :
    (0 < s.mount.ptrs ∧ s.mount.ptrs + 11 < 2 ^ 31 ∧ s.mount.ind2count + 11 < 2 ^ 31) ∧
      1024 ≤ s.mount.bs ∧ s.mount.bs % 512 = 0 := by
  have hshift : s.mount.blocksize.toNat =
      1024 <<< (s.mount.sb.sLogBlockSize.toNat % 32) % 2 ^ 32 := by
    rw [h.blocksize]
    exact UInt32.toNat_shiftLeft _ _
  have hne : s.mount.blocksize.toNat ≠ 0 := fun h0 => h.blocksize_ne (UInt32.toNat_inj.mp h0)
  have hlt : s.mount.sb.sLogBlockSize.toNat % 32 < 32 := Nat.mod_lt _ (by decide)
  unfold Mount.ind2count Mount.ptrs Mount.bs
  rw [hshift] at hne ⊢
  generalize s.mount.sb.sLogBlockSize.toNat % 32 = l at hne hlt ⊢
  interval_cases l <;> first | exact absurd rfl hne | decide

/-- The limits of a mounted file system, whatever its block size. -/
theorem Mounted.limits {s : St} (h : Mounted s) : s.mount.Limits s.mount.ind2count := by
  obtain ⟨⟨hpos, hp11, hq11⟩, -⟩ := h.ptrs_bounds
  have hp : s.mount.ptrsPerBlk.toNat = s.mount.ptrs := by
    rw [h.ptrsPerBlk, UInt32.toNat_div]
    rfl
  have heleven : (11 : UInt32).toNat = 11 := rfl
  refine ⟨h.directlim, hp, hpos, ?_, ?_, Nat.mod_le _ _, hp11, hq11⟩
  · rw [h.ind1lim, UInt32.toNat_add, hp, heleven]
    exact Nat.mod_eq_of_lt (by omega)
  · rw [h.ind2lim, UInt32.toNat_add, UInt32.toNat_mul, hp, heleven]
    exact Nat.mod_eq_of_lt (by unfold Mount.ind2count at hq11; omega)

/-- A cache that holds no block; its bytes are 0. -/
def emptyCache : Memo UInt32 Bytes := ⟨-1, fun _ => 0⟩

theorem clip_zeros (n : Nat) : Bytes.clip (fun _ => 0) n = fun _ => 0 := by
  funext i
  unfold Bytes.clip
  split <;> rfl

theorem Mounted.iblk {s : St} (h : Mounted s) : s.bufs.iblk s.mount = emptyCache := by
  obtain ⟨fetches, hb⟩ := h.bufs
  rw [hb, Bufs.iblk]
  exact congrArg (Memo.mk _) (clip_zeros _)

theorem Mounted.diblk {s : St} (h : Mounted s) : s.bufs.diblk s.mount = emptyCache := by
  obtain ⟨fetches, hb⟩ := h.bufs
  rw [hb, Bufs.diblk]
  exact congrArg (Memo.mk _) (clip_zeros _)

section Fresh

variable {env : Env} {m : Mount} {b : Bufs} {n i : UInt32} {c : Bytes}

theorem loadIblk_overrun (hk : b.cachedIblkno ≠ n) (hblk : blockAt env m n = some c)
    (hbs : ext2MaxBlockSize < m.bs) : loadIblk env m b n = .error .overrun := by
  unfold loadIblk
  obtain ⟨data, hdata, -⟩ := readBytes_of_some b hblk
  rw [if_pos hk, hdata]
  exact if_pos hbs

theorem loadDiblk_overrun (hk : b.cachedDiblkno ≠ n) (hblk : blockAt env m n = some c)
    (hbs : ext2MaxBlockSize < m.bs) : loadDiblk env m b n = .error .overrun := by
  unfold loadDiblk
  obtain ⟨data, hdata, -⟩ := readBytes_of_some b hblk
  rw [if_pos hk, hdata]
  exact if_pos hbs

theorem entry_of_view {buf : Bytes} {view : Bytes} (h : buf.clip m.blocksize.toNat = view)
    (hi : i.toNat < m.ptrs) : buf.le32 (4 * i.toNat) = view.le32 (4 * i.toNat) := by
  rw [← h]
  refine (Bytes.le32_clip ?_).symm
  unfold Mount.ptrs at hi
  omega

/-- What an entry of an indirect block is through an empty cache; `ok` is what a success leaves. -/
inductive FreshEntry (m : Mount) (n i : UInt32) (c : Bytes) (ok : Bufs → Prop) :
    Except Fault (UInt32 × Bufs) → Prop
  | null (b' : Bufs) (h : n = 0) (hok : ok b') : FreshEntry m n i c ok (.ok (0, b'))
  | loaded (b' : Bufs) (h0 : n ≠ 0) (hbs : m.bs ≤ ext2MaxBlockSize) (hok : ok b') :
      FreshEntry m n i c ok (.ok (c.le32 (4 * i.toNat), b'))
  /-- The block does not fit the buffer. -/
  | fault (e : Fault) (h0 : n ≠ 0) (hbs : ext2MaxBlockSize < m.bs) :
      FreshEntry m n i c ok (.error e)

theorem ptrAt_of_lt (buf : Bytes) (hi : i.toNat < m.ptrs) (hbs : m.bs ≤ ext2MaxBlockSize) :
    ptrAt buf i = .ok (buf.le32 (4 * i.toNat)) := by
  unfold ptrAt
  refine if_pos ?_
  unfold Mount.ptrs at hi
  unfold Mount.bs at hbs
  omega

theorem indEntry_fresh (hi : i.toNat < m.ptrs) (hb : b.iblk m = emptyCache)
    (hread : n ≠ 0 → n ≠ -1 ∧ blockAt env m n = some c) :
    FreshEntry m n i c (fun _ => True) (indEntry env m b n i) := by
  have hkey : b.cachedIblkno = -1 := congrArg Memo.key hb
  unfold indEntry
  by_cases h0 : n = 0
  · rw [if_pos h0]
    exact .null b h0 trivial
  rw [if_neg h0]
  obtain ⟨h1, hblk⟩ := hread h0
  have hne : b.cachedIblkno ≠ n := fun h => h1 (h.symm.trans hkey)
  by_cases hbs : m.bs ≤ ext2MaxBlockSize
  · obtain ⟨ok, b', hload⟩ := loadIblk_total env hbs b n
    obtain ⟨⟨-, hmemo, -⟩, -⟩ := loadIblk_spec hload
    rw [Memo.load, if_neg (show (b.iblk m).key ≠ n from hne), hblk] at hmemo
    obtain ⟨rfl, hview⟩ := Prod.mk.inj hmemo
    have hval := entry_of_view (congrArg Memo.val hview.symm) hi
    rw [hload]
    simp only [ok_bind, Bool.not_true, Bool.false_eq_true, if_false, ptrAt_of_lt _ hi hbs,
      pure_eq_ok, hval]
    exact .loaded b' h0 hbs trivial
  · rw [loadIblk_overrun hne hblk (not_le.mp hbs)]
    exact .fault _ h0 (not_le.mp hbs)

theorem dindEntry_fresh (hi : i.toNat < m.ptrs) (hb : b.diblk m = emptyCache)
    (hread : n ≠ 0 → n ≠ -1 ∧ blockAt env m n = some c) :
    FreshEntry m n i c (fun b' => b'.iblk m = b.iblk m) (dindEntry env m b n i) := by
  have hkey : b.cachedDiblkno = -1 := congrArg Memo.key hb
  unfold dindEntry
  by_cases h0 : n = 0
  · rw [if_pos h0]
    exact .null b h0 rfl
  rw [if_neg h0]
  obtain ⟨h1, hblk⟩ := hread h0
  have hne : b.cachedDiblkno ≠ n := fun h => h1 (h.symm.trans hkey)
  by_cases hbs : m.bs ≤ ext2MaxBlockSize
  · obtain ⟨ok, b', hload⟩ := loadDiblk_total env hbs b n
    obtain ⟨⟨-, hmemo, -⟩, hother⟩ := loadDiblk_spec hload
    rw [Memo.load, if_neg (show (b.diblk m).key ≠ n from hne), hblk] at hmemo
    obtain ⟨rfl, hview⟩ := Prod.mk.inj hmemo
    have hval := entry_of_view (congrArg Memo.val hview.symm) hi
    rw [hload]
    simp only [ok_bind, Bool.not_true, Bool.false_eq_true, if_false, ptrAt_of_lt _ hi hbs,
      pure_eq_ok, hval]
    exact .loaded b' h0 hbs hother
  · rw [loadDiblk_overrun hne hblk (not_le.mp hbs)]
    exact .fault _ h0 (not_le.mp hbs)

/-- The indirect blocks on the way from `n` are read as what `content` says, and none has the number
that marks a cache as empty. -/
def Readable (env : Env) (m : Mount) (content : UInt32 → Bytes) (n : UInt32) (is : List Nat) :
    Prop :=
  ∀ p ∈ (follow content n is).dropLast, p ≠ -1 ∧ blockAt env m p = some (content p)

theorem Readable.cons {content : UInt32 → Bytes} {k : Nat} {is : List Nat}
    (h : Readable env m content n (k :: is)) (h0 : n ≠ 0) :
    (n ≠ -1 ∧ blockAt env m n = some (content n)) ∧
      Readable env m content ((content n).le32 (4 * k)) is := by
  unfold Readable at h ⊢
  rw [follow_of_ne h0, List.dropLast_cons_of_ne_nil (follow_ne_nil _ _ _)] at h
  exact ⟨h n List.mem_cons_self, fun p hp => h p (List.mem_cons_of_mem n hp)⟩

theorem ReachesAll.head {content : UInt32 → Bytes} {k : Nat} {is : List Nat}
    (h : ReachesAll m content n (k :: is)) (h0 : n ≠ 0) : n.toNat * m.bs < 2 ^ 32 := by
  refine h n ?_
  rw [follow_of_ne h0, List.dropLast_cons_of_ne_nil (follow_ne_nil _ _ _)]
  exact List.mem_cons_self

theorem ReachesAll.rest {content : UInt32 → Bytes} {k : Nat} {is : List Nat}
    (h : ReachesAll m content n (k :: is)) (h0 : n ≠ 0) :
    ReachesAll m content ((content n).le32 (4 * k)) is := by
  intro p hp
  refine h p ?_
  rw [follow_of_ne h0, List.dropLast_cons_of_ne_nil (follow_ne_nil _ _ _)]
  exact List.mem_cons_of_mem n hp

/-- **One entry, and whatever follows it**: the last pointer is the format's exactly when every
pointer on the way can be followed. -/
theorem FreshEntry.follow {content : UInt32 → Bytes} {ok : Bufs → Prop}
    {x : Except Fault (UInt32 × Bufs)} (is : List Nat)
    (f : UInt32 → Bufs → Except Fault (UInt32 × Bufs))
    (h : FreshEntry m n i (content n) ok x) (hreach : ReachesAll m content n (i.toNat :: is))
    (hzero : ∀ b', ok b' → ∃ b'', f 0 b' = .ok (0, b''))
    (hrest : n ≠ 0 → ∀ b', ok b' → ((∃ b'', f ((content n).le32 (4 * i.toNat)) b' =
        .ok (lastOf content ((content n).le32 (4 * i.toNat)) is, b'')) ↔
      CanFollow m content ((content n).le32 (4 * i.toNat)) is)) :
    (∃ b'', (do
        let (p, b) ← x
        f p b) = .ok (lastOf content n (i.toNat :: is), b'')) ↔
      CanFollow m content n (i.toNat :: is) := by
  unfold CanFollow
  cases h with
  | null b' h0 hok =>
    subst h0
    rw [lastOf_zero]
    exact iff_of_true (hzero b' hok) (Or.inl rfl)
  | loaded b' h0 hbs hok =>
    rw [lastOf_of_ne h0]
    simp only [ok_bind, hrest h0 b' hok, h0, hreach.head h0, hbs, false_or, true_and]
  | fault e h0 hbad =>
    refine iff_of_false (fun ⟨b'', hb⟩ => by cases hb) ?_
    rintro (h | ⟨-, hbs, -⟩)
    · exact h0 h
    · exact absurd hbs (not_le.mpr hbad)

theorem indEntry_format (hi : i.toNat < m.ptrs) (hb : b.iblk m = emptyCache)
    {content : UInt32 → Bytes} (hread : Readable env m content n [i.toNat])
    (hreach : ReachesAll m content n [i.toNat]) :
    (∃ b', indEntry env m b n i = .ok (lastOf content n [i.toNat], b')) ↔
      CanFollow m content n [i.toNat] := by
  have hentry := indEntry_fresh hi hb fun h0 => (hread.cons h0).1
  have := hentry.follow [] (fun p b => .ok (p, b)) hreach (fun b' _ => ⟨b', rfl⟩)
    (fun _ b' _ => iff_of_true ⟨b', rfl⟩ trivial)
  rw [← this]
  cases indEntry env m b n i <;> rfl

theorem dindEntry_format {j : UInt32} (hi : i.toNat < m.ptrs) (hj : j.toNat < m.ptrs)
    (hb : b.iblk m = emptyCache) (hb' : b.diblk m = emptyCache) {content : UInt32 → Bytes}
    (hread : Readable env m content n [i.toNat, j.toNat])
    (hreach : ReachesAll m content n [i.toNat, j.toNat]) :
    (∃ b', (do
        let (p, b) ← dindEntry env m b n i
        indEntry env m b p j) = .ok (lastOf content n [i.toNat, j.toNat], b')) ↔
      CanFollow m content n [i.toNat, j.toNat] :=
  (dindEntry_fresh hi hb' fun h0 => (hread.cons h0).1).follow [j.toNat]
    (fun p b => indEntry env m b p j) hreach (fun b' _ => ⟨b', if_pos rfl⟩)
    fun h0 _ hok => indEntry_format hj (hok.trans hb) (hread.cons h0).2 (hreach.rest h0)

end Fresh

/-! ## The map of the code and the map of the format -/

section Format

variable {env : Env} {s : St} {ip : Inode} {content : UInt32 → Bytes} {k : UInt32}

/-- Blocks in reach are read as they are on the disk. -/
theorem Mounted.readable (h : Mounted s) {n : UInt32} {is : List Nat}
    (hread : ∀ p ∈ (follow content n is).dropLast, diskBlock env s.mount p = some (content p))
    (hreach : ReachesAll s.mount content n is) : Readable env s.mount content n is := by
  obtain ⟨-, hbs, hsectors⟩ := h.ptrs_bounds
  intro p hp
  refine ⟨?_, (blockAt_eq_diskBlock hsectors (by omega) (hreach p hp)).trans (hread p hp)⟩
  rintro rfl
  have hlt := hreach _ hp
  have hle : (-1 : UInt32).toNat * 1024 ≤ (-1 : UInt32).toNat * s.mount.bs :=
    Nat.mul_le_mul_left _ hbs
  exact absurd (hle.trans_lt hlt) (by decide)

/-- On a file system that was just mounted, with the indirect blocks on the way in reach. -/
theorem Mounted.mapsAsFormat_iff (h : Mounted s) (hk : k.toNat < 2 ^ 31)
    (hread : ∀ n ∈ (pointerPath s.mount.ptrs content ip k.toNat).dropLast,
      diskBlock env s.mount n = some (content n))
    (hreach : WayInReach s.mount content ip k.toNat) :
    MapsAsFormat env s.mount s.bufs content ip k ↔ WithinMap s.mount content ip k.toNat := by
  have hlimits := h.limits
  have hzero : pathBlkno s.mount.ptrs content ip k.toNat = 0 ↔
      0 ∈ pointerPath s.mount.ptrs content ip k.toNat := lastOf_eq_zero_iff
  unfold MapsAsFormat WithinMap
  rw [and_iff_left hzero]
  unfold WayInReach at hreach
  unfold pathBlkno pointerPath pathIndices at *
  rcases ext2Blkno_cases env s.bufs ip hlimits rfl hk with
    ⟨hlt, heq⟩ | ⟨hlo, hlt, i, hi, heq⟩ | ⟨hlo, hlt, hdiv, i, j, hi, hj, hjlt, heq⟩ |
    ⟨hlo, hlo', heq⟩
  · rw [if_pos (show k.toNat < 12 + s.mount.ptrs ∨ _ from Or.inl (by omega)), if_pos hlt, heq]
    exact iff_of_true ⟨_, rfl⟩ trivial
  · rw [if_neg (by omega), if_pos hlt, ← hi] at hread hreach ⊢
    have hreach := hreach (Or.inl hlt)
    rw [if_pos (Or.inl hlt), heq]
    exact indEntry_format (by omega) h.iblk (h.readable hread hreach) hreach
  · rw [if_neg (by omega), if_neg (by omega), ← hi, ← hj] at hread hreach ⊢
    have hreach := hreach (Or.inr hlt)
    rw [if_pos (Or.inr hlt), heq]
    exact dindEntry_format (by omega) hjlt h.iblk h.diblk (h.readable hread hreach) hreach
  · rw [if_neg (show ¬ (k.toNat < 12 + s.mount.ptrs ∨ k.toNat < 12 + s.mount.ind2count) by omega),
      heq]
    simp only [Except.ok.injEq, Prod.mk.injEq, exists_eq_right']
    exact eq_comm

theorem WithinMap.inReach {m : Mount} {k : Nat} (h : WithinMap m content ip k) :
    WayInReach m content ip k := by
  intro hlt
  rw [WithinMap, if_pos hlt] at h
  exact h.reaches

/-- **Where `ext2_blkno` agrees with the format.** On a file system that was just mounted, with the
indirect blocks on the way readable, it returns the format's block when block `k` is within the last
limit and the pointers to it can be followed, or is a hole behind that limit; and, if the indirect
blocks on the way are in reach, only then. -/
theorem ext2Blkno_format_iff {env₀ : Env} {w : Option St}
    (hopen : ext2fsFsOpen env₀ w = .ok (0, some s)) (hk : k.toNat < 2 ^ 31)
    (hread : ∀ n ∈ (pointerPath s.mount.ptrs content ip k.toNat).dropLast,
      diskBlock env s.mount n = some (content n)) :
    (WithinMap s.mount content ip k.toNat → MapsAsFormat env s.mount s.bufs content ip k) ∧
      (WayInReach s.mount content ip k.toNat → MapsAsFormat env s.mount s.bufs content ip k →
        WithinMap s.mount content ip k.toNat) := by
  have hmounted := ext2fsFsOpen_spec hopen
  exact ⟨fun h => (hmounted.mapsAsFormat_iff hk hread h.inReach).mpr h,
    fun hreach => (hmounted.mapsAsFormat_iff hk hread hreach).mp⟩

end Format

/-! ### A block of pointers to itself -/

/-- The small file system with every pointer in block 5 to block 5. -/
def pointersDisk : UInt64 → Bytes := fun l =>
  if l = 10 ∨ l = 11 then fun i => if i % 4 = 0 then 5 else 0 else letters l

def pointersEnv : Env := wholeEnv smallPart pointersDisk

/-- The inode of a file with block 5 as its double-indirect block. -/
def pointersInode : Inode := smallInode 0x81A4 0xFFFFFFFF ext2DindBlock 5

/-- What the blocks hold. -/
def contentOn (env : Env) (m : Mount) (n : UInt32) : Bytes := (diskBlock env m n).getD zeros

theorem pointersEnv_check :
    holds (ext2fsFsOpen pointersEnv none) (fun
      | (r, some s) => r = 0 && s.mount.ptrs = 256 && (diskBlock pointersEnv s.mount 5).isSome &&
        (contentOn pointersEnv s.mount 5).le32 (4 * 0) = 5 &&
        (contentOn pointersEnv s.mount 5).le32 (4 * 255) = 5 &&
        holds (ext2Blkno pointersEnv s.mount s.bufs pointersInode 65548) (fun r => r.1 = 0)
      | _ => false) = true := by decide +kernel

/-- The first block of the double-indirect range, 12 + 256, and the first one behind the limit,
12 + 256 * 256. -/
theorem pointers_check :
    ∃ s, ext2fsFsOpen pointersEnv none = .ok (0, some s) ∧ s.mount.ptrs = 256 ∧
      diskBlock pointersEnv s.mount 5 = some (contentOn pointersEnv s.mount 5) ∧
      (contentOn pointersEnv s.mount 5).le32 (4 * 0) = 5 ∧
      (contentOn pointersEnv s.mount 5).le32 (4 * 255) = 5 ∧
      holds (ext2Blkno pointersEnv s.mount s.bufs pointersInode 65548) (fun r => r.1 = 0) = true := by
  obtain ⟨⟨r, w⟩, hopen, hp⟩ := holds_iff.mp pointersEnv_check
  rcases w with _ | s
  · exact absurd hp Bool.false_ne_true
  simp only [Bool.and_eq_true, decide_eq_true_iff] at hp
  obtain ⟨⟨⟨⟨⟨rfl, hptrs⟩, hsome⟩, hfirst⟩, hlast⟩, hmap⟩ := hp
  obtain ⟨c, hc⟩ := Option.isSome_iff_exists.mp hsome
  exact ⟨s, hopen, hptrs, by rw [contentOn, hc]; rfl, hfirst, hlast, hmap⟩

theorem iBlock_pointersInode : pointersInode.iBlock ext2DindBlock = 5 := by decide +kernel

/-- The pointers to a block whose way leads through block 5 to block 5. -/
theorem follow_pointers {content : UInt32 → Bytes} (i j : Nat)
    (hi : (content 5).le32 (4 * i) = 5) (hj : (content 5).le32 (4 * j) = 5) :
    follow content 5 [i, j] = [5, 5, 5] := by
  rw [follow_of_ne (by decide), hi, follow_of_ne (by decide), hj]
  rfl

theorem ext2Blkno_format_pointers :
    ∃ s, ext2fsFsOpen pointersEnv none = .ok (0, some s) ∧
      MapsAsFormat pointersEnv s.mount s.bufs (contentOn pointersEnv s.mount) pointersInode 268 := by
  obtain ⟨s, hopen, hptrs, hread, hfirst, -, -⟩ := pointers_check
  have hidx : pathIndices s.mount.ptrs (268 : UInt32).toNat = (ext2DindBlock, [0, 0]) := by
    rw [hptrs]
    rfl
  refine ⟨s, hopen, (ext2Blkno_format_iff hopen (by decide) ?_).1 ?_⟩
  · intro n hn
    rw [pointerPath, hidx, iBlock_pointersInode, follow_pointers 0 0 hfirst hfirst] at hn
    have hn5 : n = 5 := by simpa using hn
    rw [hn5]
    exact hread
  · have hbs : s.mount.bs ≤ ext2MaxBlockSize ∧ (5 : UInt32).toNat * s.mount.bs < 2 ^ 32 := by
      rw [Mount.ptrs] at hptrs
      show s.mount.blocksize.toNat ≤ 4096 ∧ 5 * s.mount.blocksize.toNat < 2 ^ 32
      omega
    have hcount : s.mount.ind2count = 65536 := by
      rw [Mount.ind2count, hptrs]
      rfl
    rw [WithinMap, if_pos (Or.inr (by rw [hcount]; decide)), hidx, iBlock_pointersInode]
    have hfollow : CanFollow s.mount (contentOn pointersEnv s.mount) 5 [0] :=
      Or.inr ⟨hbs.2, hbs.1, trivial⟩
    exact Or.inr ⟨hbs.2, hbs.1, by rw [hfirst]; exact hfollow⟩

/-- The first block behind the limit: the format names block 5, and `ext2_blkno` returns 0. -/
theorem not_mapsAsFormat_behind :
    ∃ (s : St) (ip : Inode) (content : UInt32 → Bytes) (k : UInt32),
      ext2fsFsOpen pointersEnv none = .ok (0, some s) ∧
      k.toNat < 12 + s.mount.ptrs + s.mount.ptrs * s.mount.ptrs ∧
      (∀ n ∈ (pointerPath s.mount.ptrs content ip k.toNat).dropLast,
        diskBlock pointersEnv s.mount n = some (content n)) ∧
      ¬ MapsAsFormat pointersEnv s.mount s.bufs content ip k := by
  obtain ⟨s, hopen, hptrs, hread, hfirst, hlast, hmap⟩ := pointers_check
  have hidx : pathIndices s.mount.ptrs (65548 : UInt32).toNat = (ext2DindBlock, [255, 0]) := by
    rw [hptrs]
    rfl
  refine ⟨s, pointersInode, contentOn pointersEnv s.mount, 65548, hopen, ?_, ?_, ?_⟩
  · rw [hptrs]
    decide
  · intro n hn
    rw [pointerPath, hidx, iBlock_pointersInode, follow_pointers 255 0 hlast hfirst] at hn
    have hn5 : n = 5 := by simpa using hn
    rw [hn5]
    exact hread
  · rintro ⟨⟨b', hblkno⟩, -⟩
    obtain ⟨⟨r, b⟩, hok, hr⟩ := holds_iff.mp hmap
    rw [decide_eq_true_iff] at hr
    have hlastOf : pathBlkno s.mount.ptrs (contentOn pointersEnv s.mount) pointersInode
        (65548 : UInt32).toNat = 5 := by
      rw [pathBlkno, hidx, iBlock_pointersInode, lastOf_of_ne (by decide), hlast,
        lastOf_of_ne (by decide), hfirst, lastOf_nil]
    rw [hlastOf, hok] at hblkno
    have h5 : r = 5 := (Prod.mk.inj (Except.ok.inj hblkno)).1
    exact absurd (h5.symm.trans hr) (by decide)

end MbBootTv

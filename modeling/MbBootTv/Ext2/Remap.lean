import MbBootTv.Ext2.Map

/-!
# Mapping a block again

`ext2_blkno` may be asked for the same block twice in a row. The second answer is the first one,
whatever the caches hold, and nothing is read for it (`ext2Blkno_again`): what was loaded is in a
cache now, and what could not be read cannot be read now either.
-/

namespace MbBootTv

/-! ## The record of fetches

It is written and not read. -/

/-- The buffers, with `fs` on record before what is there. -/
def Bufs.logged (b : Bufs) (fs : List Fetch) : Bufs := { b with fetches := fs ++ b.fetches }

/-- The buffers, with `fs` on record behind what is there. -/
def Bufs.more (b : Bufs) (fs : List Fetch) : Bufs := { b with fetches := b.fetches ++ fs }

/-- The buffers without their record. -/
def Bufs.bare (b : Bufs) : Bufs := { b with fetches := [] }

/-- The fetches on record that were complete. -/
def Bufs.delivered (b : Bufs) : List Fetch := b.fetches.filter (·.ok)

section Logged

variable {env : Env} {m : Mount} {b b' : Bufs} {ip : Inode} {n i k : UInt32} {fs gs : List Fetch}

theorem readBytes_logged (offset size : UInt32) : readBytes env (b.logged fs) offset size =
    ((readBytes env b offset size).1, (readBytes env b offset size).2.logged fs) := by
  unfold readBytes
  dsimp only
  split_ifs
  · rfl
  · exact Prod.ext rfl (by simp [Bufs.logged])
  · exact Prod.ext rfl (by simp [Bufs.logged])

theorem loadIblk_logged : loadIblk env m (b.logged fs) n =
    (loadIblk env m b n).map fun x => (x.1, x.2.logged fs) := by
  unfold loadIblk
  rw [readBytes_logged]
  show (if b.cachedIblkno ≠ n then _ else _) = _
  by_cases hk : b.cachedIblkno ≠ n
  · rw [if_pos hk, if_pos hk]
    rcases readBytes env b (n * m.blocksize) m.blocksize with ⟨_ | data, b₁⟩
    · rfl
    · dsimp only
      split_ifs <;> rfl
  · rw [if_neg hk, if_neg hk]
    rfl

theorem loadDiblk_logged : loadDiblk env m (b.logged fs) n =
    (loadDiblk env m b n).map fun x => (x.1, x.2.logged fs) := by
  unfold loadDiblk
  rw [readBytes_logged]
  show (if b.cachedDiblkno ≠ n then _ else _) = _
  by_cases hk : b.cachedDiblkno ≠ n
  · rw [if_pos hk, if_pos hk]
    rcases readBytes env b (n * m.blocksize) m.blocksize with ⟨_ | data, b₁⟩
    · rfl
    · dsimp only
      split_ifs <;> rfl
  · rw [if_neg hk, if_neg hk]
    rfl

theorem indEntry_logged : indEntry env m (b.logged fs) n i =
    (indEntry env m b n i).map fun x => (x.1, x.2.logged fs) := by
  unfold indEntry
  split_ifs
  · rfl
  · rw [loadIblk_logged]
    refine map_bind fun x _ => ?_
    obtain ⟨ok, b₁⟩ := x
    cases ok with
    | false => rfl
    | true =>
      show (ptrAt b₁.iblkbuf i >>= _) = _
      cases hptr : ptrAt b₁.iblkbuf i <;> simp [hptr, Except.map]

theorem dindEntry_logged : dindEntry env m (b.logged fs) n i =
    (dindEntry env m b n i).map fun x => (x.1, x.2.logged fs) := by
  unfold dindEntry
  split_ifs
  · rfl
  · rw [loadDiblk_logged]
    refine map_bind fun x _ => ?_
    obtain ⟨ok, b₁⟩ := x
    cases ok with
    | false => rfl
    | true =>
      show (ptrAt b₁.diblkbuf i >>= _) = _
      cases hptr : ptrAt b₁.diblkbuf i <;> simp [hptr, Except.map]

theorem ext2Blkno_logged : ext2Blkno env m (b.logged fs) ip k =
    (ext2Blkno env m b ip k).map fun x => (x.1, x.2.logged fs) := by
  unfold ext2Blkno
  split_ifs
  · rfl
  · rfl
  · exact indEntry_logged
  · rfl
  · dsimp only
    rw [dindEntry_logged]
    exact map_bind fun x _ => indEntry_logged
  · rfl

end Logged

/-! ## The same block again -/

/-- Nothing of this was complete. -/
def AllFailed (fs : List Fetch) : Prop := ∀ f ∈ fs, f.ok = false

section Again

variable {env : Env} {m : Mount} {b b' c : Bufs} {ip : Inode} {n i k r : UInt32}

/-- A block that cannot be read adds a failed fetch, or none when there is no memory for it. -/
theorem fetch_of_none {offset size : UInt32} (h : bytesAt env offset size = none) :
    ∃ fs, b.fetch env offset size = b.more fs ∧ AllFailed fs := by
  unfold Bufs.fetch
  by_cases hmem : env.blMalloc ((size + 512 - 1) / 512 * 512) = true
  · rw [if_pos hmem]
    refine ⟨_, rfl, fun f hf => ?_⟩
    obtain rfl := List.mem_singleton.mp hf
    rw [bytesAt, hmem, Bool.true_and] at h
    by_contra hok
    rw [if_pos (Bool.eq_true_of_not_eq_false hok)] at h
    exact Option.some_ne_none _ h
  · rw [if_neg hmem]
    exact ⟨[], by simp [Bufs.more], fun f hf => absurd hf List.not_mem_nil⟩

/-- Loading leaves the other cache alone. -/
theorem loadIblk_frame {ok : Bool} (h : loadIblk env m b n = .ok (ok, b')) :
    b'.cachedDiblkno = b.cachedDiblkno ∧ b'.diblkbuf = b.diblkbuf := by
  have hfetch : (b.fetch env (n * m.blocksize) m.blocksize).cachedDiblkno = b.cachedDiblkno ∧
      (b.fetch env (n * m.blocksize) m.blocksize).diblkbuf = b.diblkbuf := by
    unfold Bufs.fetch
    split_ifs <;> exact ⟨rfl, rfl⟩
  unfold loadIblk at h
  by_cases hk : b.cachedIblkno ≠ n
  · rw [if_pos hk] at h
    have hread := (readBytes_eq env b (n * m.blocksize) m.blocksize).1
    rcases hb : readBytes env b (n * m.blocksize) m.blocksize with ⟨_ | data, b₁⟩
    · rw [hb] at h hread
      obtain ⟨-, rfl⟩ := Prod.mk.inj (Except.ok.inj h)
      rw [show b₁ = _ from hread]
      exact hfetch
    · rw [hb] at h hread
      dsimp only at h hread
      split_ifs at h
      obtain ⟨-, rfl⟩ := Prod.mk.inj (Except.ok.inj h)
      rw [hread]
      exact hfetch
  · rw [if_neg hk] at h
    obtain ⟨-, rfl⟩ := Prod.mk.inj (Except.ok.inj h)
    exact ⟨rfl, rfl⟩

/-- What was loaded is a hit; what could not be read cannot be read again. -/
theorem loadIblk_again {ok : Bool} (h : loadIblk env m b n = .ok (ok, b'))
    (hc : c.cachedIblkno = b'.cachedIblkno) :
    ∃ fs, loadIblk env m c n = .ok (ok, c.more fs) ∧ AllFailed fs := by
  have hspec := (loadIblk_spec h).1.memo
  cases ok with
  | true =>
    have hkey := Memo.load_key (congrArg Prod.fst hspec)
    rw [hspec] at hkey
    have hhit : c.cachedIblkno = n := hc.trans hkey
    refine ⟨[], ?_, fun f hf => absurd hf List.not_mem_nil⟩
    unfold loadIblk
    rw [if_neg (not_not.mpr hhit)]
    simp [Bufs.more]
  | false =>
    have hnone : blockAt env m n = none := Memo.fetch_of_load_false (congrArg Prod.fst hspec)
    have hmiss : c.cachedIblkno ≠ n := by
      intro hhit
      rw [hc] at hhit
      unfold loadIblk at h
      by_cases hk : b.cachedIblkno ≠ n
      · rw [if_pos hk, readBytes_of_none b hnone] at h
        obtain ⟨-, rfl⟩ := Prod.mk.inj (Except.ok.inj h)
        refine hk (Eq.trans ?_ hhit)
        unfold Bufs.fetch
        split_ifs <;> rfl
      · rw [if_neg hk] at h
        cases h
    obtain ⟨fs, hfs, hfail⟩ := fetch_of_none (b := c) hnone
    refine ⟨fs, ?_, hfail⟩
    unfold loadIblk
    rw [if_pos hmiss, readBytes_of_none c hnone, hfs]

theorem loadDiblk_again {ok : Bool} (h : loadDiblk env m b n = .ok (ok, b'))
    (hc : c.cachedDiblkno = b'.cachedDiblkno) :
    ∃ fs, loadDiblk env m c n = .ok (ok, c.more fs) ∧ AllFailed fs := by
  have hspec := (loadDiblk_spec h).1.memo
  cases ok with
  | true =>
    have hkey := Memo.load_key (congrArg Prod.fst hspec)
    rw [hspec] at hkey
    have hhit : c.cachedDiblkno = n := hc.trans hkey
    refine ⟨[], ?_, fun f hf => absurd hf List.not_mem_nil⟩
    unfold loadDiblk
    rw [if_neg (not_not.mpr hhit)]
    simp [Bufs.more]
  | false =>
    have hnone : blockAt env m n = none := Memo.fetch_of_load_false (congrArg Prod.fst hspec)
    have hmiss : c.cachedDiblkno ≠ n := by
      intro hhit
      rw [hc] at hhit
      unfold loadDiblk at h
      by_cases hk : b.cachedDiblkno ≠ n
      · rw [if_pos hk, readBytes_of_none b hnone] at h
        obtain ⟨-, rfl⟩ := Prod.mk.inj (Except.ok.inj h)
        refine hk (Eq.trans ?_ hhit)
        unfold Bufs.fetch
        split_ifs <;> rfl
      · rw [if_neg hk] at h
        cases h
    obtain ⟨fs, hfs, hfail⟩ := fetch_of_none (b := c) hnone
    refine ⟨fs, ?_, hfail⟩
    unfold loadDiblk
    rw [if_pos hmiss, readBytes_of_none c hnone, hfs]

/-- A pointer is found again, in buffers with the same single-indirect cache. -/
theorem indEntry_again (h : indEntry env m b n i = .ok (r, b'))
    (hkey : c.cachedIblkno = b'.cachedIblkno) (hbuf : c.iblkbuf = b'.iblkbuf) :
    ∃ fs, indEntry env m c n i = .ok (r, c.more fs) ∧ AllFailed fs := by
  unfold indEntry at h ⊢
  by_cases h0 : n = 0
  · rw [if_pos h0] at h ⊢
    obtain ⟨rfl, rfl⟩ := Prod.mk.inj (Except.ok.inj h)
    exact ⟨[], by simp [Bufs.more], fun f hf => absurd hf List.not_mem_nil⟩
  · rw [if_neg h0] at h ⊢
    obtain ⟨⟨ok, b₁⟩, hload, h⟩ := bind_eq_ok.mp h
    cases ok with
    | false =>
      obtain ⟨rfl, rfl⟩ := Prod.mk.inj (Except.ok.inj h)
      obtain ⟨fs, hagain, hfail⟩ := loadIblk_again hload hkey
      rw [hagain]
      exact ⟨fs, rfl, hfail⟩
    | true =>
      obtain ⟨x, hptr, h⟩ := bind_eq_ok.mp h
      obtain ⟨rfl, rfl⟩ := Prod.mk.inj (Except.ok.inj h)
      obtain ⟨fs, hagain, hfail⟩ := loadIblk_again hload hkey
      have hptr' : ptrAt (c.more fs).iblkbuf i = .ok x := hbuf ▸ hptr
      rw [hagain]
      refine ⟨fs, ?_, hfail⟩
      simp [hptr']

/-- So is one of the double-indirect block. -/
theorem dindEntry_again (h : dindEntry env m b n i = .ok (r, b'))
    (hkey : c.cachedDiblkno = b'.cachedDiblkno) (hbuf : c.diblkbuf = b'.diblkbuf) :
    ∃ fs, dindEntry env m c n i = .ok (r, c.more fs) ∧ AllFailed fs := by
  unfold dindEntry at h ⊢
  by_cases h0 : n = 0
  · rw [if_pos h0] at h ⊢
    obtain ⟨rfl, rfl⟩ := Prod.mk.inj (Except.ok.inj h)
    exact ⟨[], by simp [Bufs.more], fun f hf => absurd hf List.not_mem_nil⟩
  · rw [if_neg h0] at h ⊢
    obtain ⟨⟨ok, b₁⟩, hload, h⟩ := bind_eq_ok.mp h
    cases ok with
    | false =>
      obtain ⟨rfl, rfl⟩ := Prod.mk.inj (Except.ok.inj h)
      obtain ⟨fs, hagain, hfail⟩ := loadDiblk_again hload hkey
      rw [hagain]
      exact ⟨fs, rfl, hfail⟩
    | true =>
      obtain ⟨x, hptr, h⟩ := bind_eq_ok.mp h
      obtain ⟨rfl, rfl⟩ := Prod.mk.inj (Except.ok.inj h)
      obtain ⟨fs, hagain, hfail⟩ := loadDiblk_again hload hkey
      have hptr' : ptrAt (c.more fs).diblkbuf i = .ok x := hbuf ▸ hptr
      rw [hagain]
      refine ⟨fs, ?_, hfail⟩
      simp [hptr']

/-- A pointer of a single-indirect block leaves the other cache alone. -/
theorem indEntry_frame (h : indEntry env m b n i = .ok (r, b')) :
    b'.cachedDiblkno = b.cachedDiblkno ∧ b'.diblkbuf = b.diblkbuf := by
  unfold indEntry at h
  split_ifs at h
  · obtain ⟨-, rfl⟩ := Prod.mk.inj (Except.ok.inj h)
    exact ⟨rfl, rfl⟩
  · obtain ⟨⟨ok, b₁⟩, hload, h⟩ := bind_eq_ok.mp h
    have hframe := loadIblk_frame hload
    cases ok with
    | false =>
      obtain ⟨-, rfl⟩ := Prod.mk.inj (Except.ok.inj h)
      exact hframe
    | true =>
      obtain ⟨x, -, h⟩ := bind_eq_ok.mp h
      obtain ⟨-, rfl⟩ := Prod.mk.inj (Except.ok.inj h)
      exact hframe

/-- **A block that was mapped is mapped again** to the same number, and nothing is read. -/
theorem ext2Blkno_again (h : ext2Blkno env m b ip k = .ok (r, b')) :
    ∃ fs, ext2Blkno env m b' ip k = .ok (r, b'.more fs) ∧ AllFailed fs := by
  have hsame (c : Bufs) : c = c.more [] := by simp [Bufs.more]
  have hnil : AllFailed [] := fun f hf => absurd hf List.not_mem_nil
  unfold ext2Blkno at h ⊢
  split_ifs at h ⊢
  · obtain ⟨rfl, rfl⟩ := Prod.mk.inj (Except.ok.inj h)
    exact ⟨[], by rw [← hsame], hnil⟩
  · exact indEntry_again h rfl rfl
  · obtain ⟨⟨n, b₁⟩, hdind, h⟩ := bind_eq_ok.mp h
    obtain ⟨hkey, hbuf⟩ := indEntry_frame h
    obtain ⟨fs, hdind', hfail⟩ := dindEntry_again (c := b') hdind hkey hbuf
    obtain ⟨gs, hind', hfail'⟩ := indEntry_again (c := b'.more fs) h rfl rfl
    refine ⟨fs ++ gs, ?_, fun f hf => (List.mem_append.mp hf).elim (hfail f) (hfail' f)⟩
    dsimp only
    rw [hdind', ok_bind]
    exact hind'.trans (by simp [Bufs.more])
  · obtain ⟨rfl, rfl⟩ := Prod.mk.inj (Except.ok.inj h)
    exact ⟨[], by rw [← hsame], hnil⟩

end Again

end MbBootTv

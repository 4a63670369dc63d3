import MbBootTv.Boot.DiskFile
import MbBootTv.Ext2.ReadErrors

/-!
# Whole files (`diskboot.c`)

`disk_read_file` does not look at what `ext2fs_read` returns: once the file is open and its block is
there, the block is returned, with as much in it as could be read, and with what `ext2fs_read`
takes for the bytes of the file. `diskReadFile_whole_iff` says when that is the whole file.
-/

namespace MbBootTv

/-- What `disk_read_file` is to do with the file that was opened, if any: it returns a block only
when there is one with all of the file in it. -/
def WholeOrNull (env : Env) (s : St) (fd : Option Slot) (f : Option FileBlock) : Prop :=
  ∀ g, f = some g → ∃ i, fd = some i ∧ env.blMalloc (ext2fsLen s i) = true ∧
    g.size = ext2fsLen s i ∧ ∀ j < (ext2fsLen s i).toNat, ∃ c,
      formatBlock env s.mount (s.table.inodeTable i).inode (j / s.mount.bs) = some c ∧
        g.buf j = c (j % s.mount.bs)

/-- Every block of the file is in reach and can be read, and what the block map of the code does not
reach is zeros. -/
def WhollyReadable (env : Env) (m : Mount) (ip : Inode) : Prop :=
  RangeInReach env m ip 0 ip.iSize.toNat ∧ ∀ j < ip.iSize.toNat,
    formatBlock env m ip (j / m.bs) ≠ none ∧
    (12 + m.ptrs * m.ptrs ≤ j / m.bs → contentOf (formatBlock env m ip) m.bs j = 0)

theorem contentOf_of_some {blk : Nat → Option Bytes} {bs j : Nat} {c : Bytes}
    (h : blk (j / bs) = some c) : contentOf blk bs j = c (j % bs) := by
  rw [contentOf, h]

section Loading

variable {env : Env} {s : St} {i : Slot}

/-- Closing the descriptor that was read from never fails. -/
theorem ext2fsClose_ofNat (s : St) (i : Slot) :
    ∃ ret w, ext2fsClose (some s) (UInt32.ofNat i) = .ok (ret, w) :=
  ⟨_, _, ext2fsClose_of_eq (toNat_ofNat_slot i).symm⟩

/-- A file is read whole when all of it can be read. -/
theorem SlotOutcome.whole {s' : St} {buf : Bytes} {r : ReadResult}
    (h : SlotOutcome env (blockAt env s.mount) s s' i buf (ext2fsLen s i).toNat r)
    (hm : s.mount.Sound) (hpos : (s.table.inodeTable i).pos = 0)
    (hmem : env.blMalloc (ext2fsLen s i) = true)
    (hall : WhollyReadable env s.mount (s.table.inodeTable i).inode) (cap : Nat) :
    WholeOrNull env s (some i) (some ⟨r.buf, cap, r.size⟩) := by
  obtain ⟨hreach, hall⟩ := hall
  cases h with
  | missed h => exact absurd h not_missed_self
  | failed j hge hlt hblk _ _ _ =>
    rw [hpos, UInt32.toNat_zero, Nat.zero_add] at hlt
    exact absurd ((hreach j (Nat.zero_le j) (by rw [Nat.zero_add]; exact hlt)).formatBlock_of_none
      hm hblk) (hall j hlt).1
  | done hblk hret hsize hbuf =>
    rintro g hg
    cases hg
    refine ⟨i, rfl, hmem, UInt32.toNat_inj.mp hsize, fun j hj => ?_⟩
    obtain ⟨hsome, hlimit⟩ := hall j hj
    obtain ⟨c, hc⟩ := Option.ne_none_iff_exists'.mp hsome
    have hin := hreach j (Nat.zero_le j) (by rw [Nat.zero_add]; exact hj)
    refine ⟨c, hc, ?_⟩
    dsimp only
    rw [hbuf, Bytes.copy_zero_of_lt hj, hpos, UInt32.toNat_zero, Nat.zero_add,
      (contentOf_fileBlock hm hin hsome).mpr hlimit, contentOf_of_some hc]

/-- In reach, only then. -/
theorem SlotOutcome.readable {s' : St} {buf : Bytes} {r : ReadResult}
    (h : SlotOutcome env (blockAt env s.mount) s s' i buf (ext2fsLen s i).toNat r)
    (hm : s.mount.Sound) (hpos : (s.table.inodeTable i).pos = 0)
    (hreach : RangeInReach env s.mount (s.table.inodeTable i).inode 0 (ext2fsLen s i).toNat)
    {cap : Nat} (hwhole : WholeOrNull env s (some i) (some ⟨r.buf, cap, r.size⟩)) :
    WhollyReadable env s.mount (s.table.inodeTable i).inode := by
  obtain ⟨i', hi, -, -, hall⟩ := hwhole _ rfl
  cases hi
  refine ⟨hreach, fun j hj => ?_⟩
  have hin := hreach j (Nat.zero_le j) (by rw [Nat.zero_add]; exact hj)
  obtain ⟨c, hc, hbyte⟩ := hall j hj
  have hsome : formatBlock env s.mount (s.table.inodeTable i).inode (j / s.mount.bs) ≠ none := by
    rw [hc]
    exact Option.some_ne_none c
  refine ⟨hsome, ?_⟩
  cases h with
  | missed h => exact absurd h not_missed_self
  | failed j' hge hlt hblk _ _ _ =>
    -- The block that is missing is missed in either way.
    rw [hpos, UInt32.toNat_zero, Nat.zero_add] at hlt
    obtain ⟨c', hc', -⟩ := hall j' hlt
    rw [(hreach j' (Nat.zero_le j') (by rw [Nat.zero_add]; exact hlt)).formatBlock_of_none hm
      hblk] at hc'
    cases hc'
  | done hblk hret hsize hbuf =>
    refine (contentOf_fileBlock hm hin hsome).mp ?_
    rw [contentOf_of_some hc, ← hbyte]
    dsimp only
    rw [hbuf, Bytes.copy_zero_of_lt (show j < (ext2fsLen s i).toNat from hj), hpos,
      UInt32.toNat_zero, Nat.zero_add]

/-- **What is made of an open file is the whole of it** when there is no memory for it, or all of it
can be read; and, in reach, only then. -/
theorem loadOpened_whole (hm : s.mount.Sound)
    (hc : s.bufs.Coherent s.mount (blockAt env s.mount))
    (hpos : (s.table.inodeTable i).pos = 0) :
    ∃ f w, loadOpened env s i = .ok (f, w) ∧
      ((env.blMalloc (ext2fsLen s i) = true →
          WhollyReadable env s.mount (s.table.inodeTable i).inode) →
        WholeOrNull env s (some i) f) ∧
      (RangeInReach env s.mount (s.table.inodeTable i).inode 0 (ext2fsLen s i).toNat →
        WholeOrNull env s (some i) f → env.blMalloc (ext2fsLen s i) = true →
          WhollyReadable env s.mount (s.table.inodeTable i).inode) := by
  unfold loadOpened
  dsimp only
  by_cases hmem : env.blMalloc (ext2fsLen s i) = true
  · rw [if_pos hmem, ext2fsRead_of_eq (toNat_ofNat_slot i).symm]
    have hle : (s.table.inodeTable i).pos.toNat ≤ (s.table.inodeTable i).inode.iSize.toNat := by
      rw [hpos]
      exact Nat.zero_le _
    have hcount : (ext2fsLen s i).toNat = min (ext2fsLen s i).toNat
        ((s.table.inodeTable i).inode.iSize.toNat - (s.table.inodeTable i).pos.toNat) := by
      rw [hpos]
      exact (Nat.min_self _).symm
    obtain ⟨r, s', hread⟩ := readSlot_total env hm hle env.heap (ext2fsLen s i)
    have hout (hreach : RangeInReach env s.mount (s.table.inodeTable i).inode 0
        (ext2fsLen s i).toNat) :
        SlotOutcome env (blockAt env s.mount) s s' i env.heap (ext2fsLen s i).toNat r := by
      have hplain := hreach.plain hm
      obtain ⟨r', s'', hread', h⟩ := readSlot_spec hm hc (Agrees.refl env s.mount) hle env.heap
        (ext2fsLen s i) hcount (by rw [hpos]; exact hplain)
      rw [hread] at hread'
      cases hread'
      exact h
    obtain ⟨ret, w, hclose⟩ := ext2fsClose_ofNat s' i
    simp only [hread, ok_bind, pure_eq_ok, hclose]
    refine ⟨_, _, rfl, fun hall => ?_, fun hreach hwhole _ => ?_⟩
    · exact (hout (hall hmem).1).whole hm hpos hmem (hall hmem) _
    · exact (hout hreach).readable hm hpos hreach hwhole
  · rw [if_neg hmem]
    obtain ⟨ret, w, hclose⟩ := ext2fsClose_ofNat s i
    simp only [hclose, ok_bind, pure_eq_ok]
    refine ⟨none, w, rfl, fun _ => ?_, fun _ _ h => absurd h hmem⟩
    exact fun g hg => nomatch hg

end Loading

/-- **A file is returned whole or not at all** when it cannot be opened, or there is no memory for
it, or all of it can be read; and, if its blocks are in reach, only then: on a mounted file system
with blocks that fit the buffers, after any calls on open descriptors, whatever sectors the disk
refuses. -/
theorem diskReadFile_whole_iff {env env₀ : Env} {w : Option St} {s₀ : St}
    (hmount : ext2fsFsOpen env₀ w = .ok (0, some s₀))
    (hbs : s₀.mount.blocksize.toNat ≤ ext2MaxBlockSize) {x : Session}
    (hrun : Reaches (Session.Step (OnDisk env)) ⟨s₀, ∅⟩ x) {fuel cap : Nat}
    {namebuf name namebuf' : Bytes} (hname : strcpy namebuf namebufSize name cap 0 = .ok namebuf')
    {fd : Option Slot} {s : St}
    (hopen : ext2fsOpen env fuel (some x.st) namebuf' namebufSize = .ok (fd, some s)) :
    ∃ f w', diskReadFile env fuel (some x.st) namebuf name cap = .ok (f, w') ∧
      ((∀ i, fd = some i → env.blMalloc (ext2fsLen s i) = true →
          WhollyReadable env s₀.mount (s.table.inodeTable i).inode) → WholeOrNull env s fd f) ∧
      ((∀ i, fd = some i →
          RangeInReach env s₀.mount (s.table.inodeTable i).inode 0 (ext2fsLen s i).toNat) →
        WholeOrNull env s fd f → ∀ i, fd = some i → env.blMalloc (ext2fsLen s i) = true →
          WhollyReadable env s₀.mount (s.table.inodeTable i).inode) := by
  have hmounted := ext2fsFsOpen_spec hmount
  have hinv := onDisk_inv hmounted hrun
  have hm := hmounted.sound hbs
  have hafter := hinv.openFile (Agrees.refl env s₀.mount).delivers hopen
  have hsame : s.mount = s₀.mount := hafter.mount
  unfold diskReadFile
  rw [hname, ok_bind, hopen, ok_bind]
  cases fd with
  | none =>
    refine ⟨none, some s, rfl, fun _ => ?_, fun _ _ i hi => nomatch hi⟩
    exact fun g hg => nomatch hg
  | some i =>
    rw [← hsame] at hm ⊢
    obtain ⟨f, w', hload, hwhole, honly⟩ := loadOpened_whole hm (hsame ▸ hafter.hold)
      (ext2fsOpen_pos hopen)
    refine ⟨f, w', hload, fun h => hwhole (h i rfl), fun hreach h i' hi => ?_⟩
    cases hi
    exact honly (hreach i rfl) h

/-! ## A file of two blocks -/

/-- A disk with a file of two blocks, a hole and block 5; the disk refuses to read block 5. -/
def halfEnv : Env where
  dev := ⟨fun l => if l = 10 then none else some (fileDisk (smallInode 0x81A4 2048 1 5) l), 64⟩
  part := smallPart
  blMalloc := fun _ => true
  heap := zeros

theorem half_check :
    holds (do
      let (r, w) ← ext2fsFsOpen halfEnv none
      let nb ← strcpy zeros namebufSize pathF 2 0
      let (fd, w₁) ← ext2fsOpen halfEnv 9 w nb namebufSize
      let (f, _) ← diskReadFile halfEnv 9 w zeros pathF 2
      return (r, w, fd, w₁, f)) (fun
        | (r, some s₀, fd, some s, some f) => r = 0 && s₀.mount.blocksize = 1024 &&
          fd = some 1 && ext2fsLen s 1 = 2048 && f.size = 1024
        | _ => false) = true := by decide +kernel

theorem halfEnv_run :
    ∃ s₀ nb s f w', ext2fsFsOpen halfEnv none = .ok (0, some s₀) ∧
      s₀.mount.blocksize = 1024 ∧ strcpy zeros namebufSize pathF 2 0 = .ok nb ∧
      ext2fsOpen halfEnv 9 (some s₀) nb namebufSize = .ok (some 1, some s) ∧
      diskReadFile halfEnv 9 (some s₀) zeros pathF 2 = .ok (some f, w') ∧
      ext2fsLen s 1 = 2048 ∧ f.size = 1024 := by
  obtain ⟨⟨r, w, fd, w₁, f⟩, hrun, hp⟩ := holds_iff.mp half_check
  obtain ⟨⟨r, w⟩, hmount, hrun⟩ := bind_eq_ok.mp hrun
  obtain ⟨nb, hname, hrun⟩ := bind_eq_ok.mp hrun
  obtain ⟨⟨fd, w₁⟩, hopen, hrun⟩ := bind_eq_ok.mp hrun
  obtain ⟨⟨f, w₂⟩, hfile, hrun⟩ := bind_eq_ok.mp hrun
  cases hrun
  rcases w with _ | s₀
  · exact absurd hp Bool.false_ne_true
  rcases w₁ with _ | s
  · exact absurd hp Bool.false_ne_true
  rcases f with _ | f
  · exact absurd hp Bool.false_ne_true
  simp only [Bool.and_eq_true, decide_eq_true_iff] at hp
  obtain ⟨⟨⟨⟨rfl, hbs⟩, rfl⟩, hlen⟩, hsize⟩ := hp
  exact ⟨s₀, nb, s, f, w₂, hmount, hbs, hname, hopen, hfile, hlen, hsize⟩

theorem diskReadFile_whole_iff_half :
    ∃ (s₀ s : St) (f : Option FileBlock) (w' : Option St),
      diskReadFile halfEnv 9 (some s₀) zeros pathF 2 = .ok (f, w') ∧
      ((∀ i, some (1 : Slot) = some i → halfEnv.blMalloc (ext2fsLen s i) = true →
          WhollyReadable halfEnv s₀.mount (s.table.inodeTable i).inode) →
        WholeOrNull halfEnv s (some 1) f) ∧
      ((∀ i, some (1 : Slot) = some i →
          RangeInReach halfEnv s₀.mount (s.table.inodeTable i).inode 0 (ext2fsLen s i).toNat) →
        WholeOrNull halfEnv s (some 1) f → ∀ i, some (1 : Slot) = some i →
          halfEnv.blMalloc (ext2fsLen s i) = true →
          WhollyReadable halfEnv s₀.mount (s.table.inodeTable i).inode) := by
  obtain ⟨s₀, nb, s, -, -, hmount, hbs, hname, hopen, -⟩ := halfEnv_run
  obtain ⟨f, w', hfile, hboth⟩ := diskReadFile_whole_iff hmount (by rw [hbs]; decide)
    (x := ⟨s₀, ∅⟩) (Reaches.refl _) hname hopen
  exact ⟨s₀, s, f, w', hfile, hboth⟩

/-- The first block of the two is returned, as a file of 1024 bytes. -/
theorem not_wholeOrNull_half :
    ∃ s₀ nb s f w', ext2fsFsOpen halfEnv none = .ok (0, some s₀) ∧
      strcpy zeros namebufSize pathF 2 0 = .ok nb ∧
      ext2fsOpen halfEnv 9 (some s₀) nb namebufSize = .ok (some 1, some s) ∧
      diskReadFile halfEnv 9 (some s₀) zeros pathF 2 = .ok (f, w') ∧
      ¬ WholeOrNull halfEnv s (some 1) f := by
  obtain ⟨s₀, nb, s, f, w', hmount, -, hname, hopen, hfile, hlen, hsize⟩ := halfEnv_run
  refine ⟨s₀, nb, s, some f, w', hmount, hname, hopen, hfile, fun h => ?_⟩
  obtain ⟨i, hi, -, hwhole, -⟩ := h f rfl
  cases hi
  rw [hlen, hsize] at hwhole
  exact absurd hwhole (by decide)

end MbBootTv

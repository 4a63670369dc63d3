import MbBootTv.Boot.ConfigMeaning
import MbBootTv.Ext2.Medium
import MbBootTv.Ext2.Session

/-!
# Loading a file (`diskboot.c`)

`disk_read_file` allocates as many bytes as the file has and reports how many were read.
`parse_config` stores a NUL behind the bytes that were reported. The two go together only when the
file could not be read to its end.
-/

namespace MbBootTv

/-! ## `disk_read_file` -/

/-- A string literal: its bytes and a NUL. -/
def literal (s : String) : Bytes := fun i => (ascii s).getD i 0

/-- The length of `namebuf`. -/
def namebufSize : Nat := 1024

/-- The block that `disk_read_file` returns, of `cap` bytes, and `*size`. -/
structure FileBlock where
  buf : Bytes
  cap : Nat
  size : UInt32

/-- `ext2fs_len` of an open file. -/
def ext2fsLen (s : St) (i : Slot) : UInt32 := (s.table.inodeTable i).inode.iSize

/-- `disk_read_file` of an open file. -/
def loadOpened (env : Env) (s : St) (i : Slot) : Except Fault (Option FileBlock × Option St) := do
  let fd := UInt32.ofNat i
  let sz := ext2fsLen s i
  if env.blMalloc sz then
    let (r, w) ← ext2fsRead env (some s) fd env.heap sz
    let (_, w) ← ext2fsClose w fd
    return (some ⟨r.buf, sz.toNat, r.size⟩, w)
  else
    -- `ext2fs_read` refuses the null pointer, which is returned
    let (_, w) ← ext2fsClose (some s) fd
    return (none, w)

/-- `disk_read_file` of the string `name`, in an array of `cap` bytes. -/
def diskReadFile (env : Env) (fuel : Nat) (w : Option St) (namebuf name : Bytes) (cap : Nat) :
    Except Fault (Option FileBlock × Option St) := do
  let namebuf ← strcpy namebuf namebufSize name cap 0
  let (fd, w) ← ext2fsOpen env fuel w namebuf namebufSize
  match fd, w with
  | some i, some s => loadOpened env s i
  | _, w => return (none, w)

/-- `parse_config` of a block that `disk_read_file` returned: `len` is an `int`, and `config[len]`
is outside the block when it is negative. -/
def parseFile (f : FileBlock) (p : Parsed) : Except Fault (Bytes × Parsed) :=
  if f.size.toNat < 2 ^ 31 then parseConfig f.buf f.cap f.size.toNat p else .error .outOfBounds

/-! ## Where the terminator goes -/

/-- `parse_config` stays inside the block. -/
def FileBlock.Inside (f : FileBlock) (p : Parsed) : Prop := parseFile f p ≠ .error .outOfBounds

/-- It does when there is room for the terminator. -/
theorem FileBlock.inside_iff (f : FileBlock) (p : Parsed) :
    f.Inside p ↔ f.size.toNat < 2 ^ 31 ∧ f.size.toNat < f.cap := by
  unfold Inside parseFile
  by_cases hint : f.size.toNat < 2 ^ 31
  · rw [if_pos hint]
    by_cases hcap : f.size.toNat < f.cap
    · refine iff_of_true (fun hrun => ?_) ⟨hint, hcap⟩
      have htext : f.buf.slice 0 (f.buf.slice 0 f.size.toNat).length =
          f.buf.slice 0 f.size.toNat := by rw [Bytes.slice_length]
      have hends := parseConfig_overrun p htext (by rw [Bytes.slice_length]; exact hcap)
      rw [Bytes.slice_length] at hends
      exact absurd (hends.error_of_eq hrun) (by decide)
    · refine iff_of_false (fun h => h ?_) fun h => hcap h.2
      rw [parseConfig, if_neg hcap]
  · rw [if_neg hint]
    exact iff_of_false (fun h => h rfl) fun h => hint h.1

/-- From the buffers `b` on, `n` blocks of a file arrive one after another, from block `k` on. -/
def Arrive (env : Env) (m : Mount) (ip : Inode) : Nat → UInt32 → Bufs → Prop
  | 0, _, _ => True
  | n + 1, k, b => ∃ r blk b', ext2Breadi env m b ip k 1 b.blkbuf ext2MaxBlockSize =
      .ok (r, blk, b') ∧ r ≠ -1 ∧ Arrive env m ip n (k + 1) { b' with blkbuf := blk }

theorem Arrive.of_le {env : Env} {m : Mount} {ip : Inode} {n n' : Nat} {k : UInt32} {b : Bufs}
    (h : Arrive env m ip n k b) (hle : n' ≤ n) : Arrive env m ip n' k b := by
  induction n generalizing n' k b with
  | zero =>
    obtain rfl := Nat.le_zero.mp hle
    trivial
  | succ n ih =>
    cases n' with
    | zero => trivial
    | succ n' =>
      obtain ⟨r, blk, b', hread, hr, hrest⟩ := h
      exact ⟨r, blk, b', hread, hr, ih hrest (Nat.le_of_succ_le_succ hle)⟩

section Loop

variable {env : Env} {m : Mount} {ip : Inode}

/-- The first block arrives, and then the others. -/
theorem arrive_succ_iff {n : Nat} {k : UInt32} {b b' : Bufs} {r : UInt32} {blk : Bytes}
    (hread : ext2Breadi env m b ip k 1 b.blkbuf ext2MaxBlockSize = .ok (r, blk, b')) :
    Arrive env m ip (n + 1) k b ↔
      r ≠ -1 ∧ Arrive env m ip n (k + 1) { b' with blkbuf := blk } := by
  constructor
  · rintro ⟨r', blk', b'', hread', hr, harr⟩
    cases hread.symm.trans hread'
    exact ⟨hr, harr⟩
  · rintro ⟨hr, harr⟩
    exact ⟨r, blk, b', hread, hr, harr⟩

/-- **The loop of `ext2fs_read`** counts the blocks that arrive before the first that does not. -/
theorem readLoop_arrive {n : Nat} {k : UInt32} {l l' : ReadLoop} {ok : Bool}
    (h : readLoop env m ip n l = .ok (ok, l')) (hn : l.count.toNat ≤ n)
    (hk : l.count ≠ 0 → l.pos.toNat = k.toNat * m.bs)
    (hpos : l.pos.toNat + l.count.toNat < 2 ^ 32) (hsize : l.size.toNat + l.count.toNat < 2 ^ 32) :
    (ok = true ∧ l'.size.toNat = l.size.toNat + l.count.toNat ∧
        ∀ j, j * m.bs < l.count.toNat → Arrive env m ip (j + 1) k l.bufs) ∨
      ok = false ∧ ∃ j, j * m.bs < l.count.toNat ∧ l'.size.toNat = l.size.toNat + j * m.bs ∧
        Arrive env m ip j k l.bufs ∧ ¬ Arrive env m ip (j + 1) k l.bufs := by
  induction n generalizing k l with
  | zero =>
    obtain ⟨rfl, rfl⟩ := Prod.mk.inj (Except.ok.inj h)
    exact Or.inl ⟨rfl, by omega, fun j hj => by omega⟩
  | succ n ih =>
    unfold readLoop at h
    by_cases h0 : l.count = 0
    · rw [if_pos h0] at h
      obtain ⟨rfl, rfl⟩ := Prod.mk.inj (Except.ok.inj h)
      rw [h0] at hn hpos hsize ⊢
      exact Or.inl ⟨rfl, rfl, fun j hj => absurd hj (Nat.not_lt_zero _)⟩
    by_cases hbs : m.blocksize = 0
    · rw [if_neg h0, if_pos hbs] at h
      cases h
    rw [if_neg h0, if_neg hbs] at h
    dsimp only at h
    -- The pass starts at the head of block `k`.
    have hbs' : 0 < m.bs := Nat.pos_of_ne_zero fun h => hbs (UInt32.toNat_inj.mp h)
    have hk' := hk h0
    have hbnum : l.pos / m.blocksize = k := by
      rw [← UInt32.toNat_inj, UInt32.toNat_div, hk']
      exact Nat.mul_div_cancel _ hbs'
    have hbofs : l.pos % m.blocksize = 0 := by
      rw [← UInt32.toNat_inj, UInt32.toNat_mod, hk']
      exact Nat.mul_mod_left _ _
    rw [hbnum, hbofs, UInt32.sub_zero] at h
    have hnc : (cMin l.count m.blocksize).toNat = min l.count.toNat m.bs := toNat_cMin _ _
    generalize cMin l.count m.blocksize = nc at hnc h
    have hcount : l.count.toNat ≠ 0 := fun h => h0 (UInt32.toNat_inj.mp h)
    obtain ⟨⟨r, blk, b⟩, hread, h⟩ := bind_eq_ok.mp h
    dsimp only at h
    by_cases hr : r = -1
    · rw [if_pos hr] at h
      obtain ⟨rfl, rfl⟩ := Prod.mk.inj (Except.ok.inj h)
      exact Or.inr ⟨rfl, 0, by omega, by simp, trivial,
        fun harr => ((arrive_succ_iff hread).mp harr).1 hr⟩
    · rw [if_neg hr] at h
      split_ifs at h
      have hcount₂ : (l.count - nc).toNat = l.count.toNat - nc.toNat :=
        UInt32.toNat_sub_of_le _ _ (UInt32.le_iff_toNat_le.mpr (by omega))
      have hsize₂ : (l.size + nc).toNat = l.size.toNat + nc.toNat := by
        rw [UInt32.toNat_add, Nat.mod_eq_of_lt (by omega)]
      have hpos₂ : (l.pos + nc).toNat = l.pos.toNat + nc.toNat := by
        rw [UInt32.toNat_add, Nat.mod_eq_of_lt (by omega)]
      have hhead (j : Nat) : Arrive env m ip (j + 1) k l.bufs ↔
          Arrive env m ip j (k + 1) { b with blkbuf := blk } :=
        (arrive_succ_iff hread).trans (and_iff_right hr)
      have hnext : l.count - nc ≠ 0 → (l.pos + nc).toNat = (k + 1).toNat * m.bs := by
        intro hne
        have hlt : l.count.toNat - nc.toNat ≠ 0 := fun h =>
          hne (UInt32.toNat_inj.mp (hcount₂.trans h))
        have hone : (k + 1).toNat = k.toNat + 1 := by
          rw [UInt32.toNat_add, Nat.mod_eq_of_lt]
          · rfl
          · have hle : k.toNat * 1 ≤ k.toNat * m.bs := Nat.mul_le_mul_left _ hbs'
            show k.toNat + 1 < _
            omega
        rw [hpos₂, hone, hk', Nat.succ_mul]
        omega
      rcases ih h (by dsimp only; omega) hnext (by dsimp only; omega) (by dsimp only; omega) with
        ⟨hok, hlen, harr⟩ | ⟨hok, j, hj, hlen, harr, hnot⟩
      · dsimp only at hlen harr
        refine Or.inl ⟨hok, by omega, fun j hj => (hhead j).mpr ?_⟩
        cases j with
        | zero => trivial
        | succ j =>
          rw [Nat.succ_mul] at hj
          exact harr j (by omega)
      · dsimp only at hj hlen harr hnot
        refine Or.inr ⟨hok, j + 1, ?_, ?_, (hhead j).mpr harr, fun h => hnot ((hhead _).mp h)⟩
        · rw [Nat.succ_mul]
          omega
        · rw [Nat.succ_mul]
          omega

/-- When nothing has been read of a mounted file system but by its own calls, the blocks that
arrive are those that the disk delivers. -/
theorem arrive_iff (hm : m.Sound) (hs : NoSentinel m (blockAt env m) ip) {n : Nat} {k : UInt32}
    {b : Bufs} (hc : b.Coherent m (blockAt env m))
    (hin : ∀ j < n, (k.toNat + j) * m.bs ≤ ip.iSize.toNat) :
    Arrive env m ip n k b ↔ ∀ j < n, fileBlock env m (blockAt env m) ip (k.toNat + j) ≠ none := by
  have ha := Agrees.refl env m
  induction n generalizing k b with
  | zero => exact iff_of_true trivial fun j hj => absurd hj (Nat.not_lt_zero j)
  | succ n ih =>
    obtain ⟨r, blk, b', hread, hstep, hcase⟩ :=
      ext2Breadi_spec hm hc ha (hs.at _) (hin 0 (Nat.succ_pos n)) b.blkbuf
    rcases hcase with ⟨c, hblk, hr, -⟩ | ⟨hblk, hr, -⟩ | hmiss
    · have hne : r ≠ -1 := by
        rw [hr]
        rcases hm.blocksize with h | h | h <;> rw [h] <;> decide
      have hstep' : BufStep env m b { b' with blkbuf := blk } :=
        hstep.toBufStep.trans (bufStep_of_eq rfl rfl rfl)
      have hcoh := hstep'.coherent ha hc
      have hhead : Arrive env m ip (n + 1) k b ↔
          Arrive env m ip n (k + 1) { b' with blkbuf := blk } := by
        constructor
        · rintro ⟨r', blk', b'', hread', -, harr⟩
          rw [hread] at hread'
          cases hread'
          exact harr
        · exact fun harr => ⟨r, blk, b', hread, hne, harr⟩
      have hone : ∀ j < n, (k + 1).toNat + j = k.toNat + (j + 1) := by
        intro j hj
        have hlast := hin n (Nat.lt_succ_self n)
        have hlt := ip.iSize.toNat_lt
        have hbs : (k.toNat + n) * 1 ≤ (k.toNat + n) * m.bs := by
          refine Nat.mul_le_mul_left _ ?_
          rcases hm.cases with ⟨h, -⟩ | ⟨h, -⟩ | ⟨h, -⟩ <;> rw [h] <;> decide
        have hsucc : (k + 1).toNat = k.toNat + 1 := by
          rw [UInt32.toNat_add, Nat.mod_eq_of_lt]
          · rfl
          · show k.toNat + 1 < _
            omega
        omega
      have hrest := ih (k := k + 1) hcoh fun j hj => by
        rw [hone j hj]
        exact hin _ (Nat.succ_lt_succ hj)
      refine hhead.trans (hrest.trans ?_)
      constructor
      · intro h j hj
        cases j with
        | zero =>
          rw [Nat.add_zero, hblk]
          exact Option.some_ne_none c
        | succ j =>
          rw [← hone j (Nat.lt_of_succ_lt_succ hj)]
          exact h j (Nat.lt_of_succ_lt_succ hj)
      · intro h j hj
        rw [hone j hj]
        exact h _ (Nat.succ_lt_succ hj)
    · refine iff_of_false ?_ fun h => h 0 (Nat.succ_pos n) hblk
      rintro ⟨r', blk', b'', hread', hne, -⟩
      rw [hread] at hread'
      cases hread'
      exact hne hr
    · exact absurd hmiss not_missed_self

end Loop

/-! ## Files that fit their block with a terminator -/

/-- A block of the open file does not arrive, and what is before it can be counted by an `int`. -/
def BreaksOff (env : Env) (s : St) (i : Slot) : Prop :=
  ∃ n, n * s.mount.bs < (s.table.inodeTable i).inode.iSize.toNat ∧ n * s.mount.bs < 2 ^ 31 ∧
    ¬ Arrive env s.mount (s.table.inodeTable i).inode (n + 1) 0 s.bufs

theorem breaksOff_iff {env : Env} {s : St} {i : Slot} (hm : s.mount.Sound)
    (hc : s.bufs.Coherent s.mount (blockAt env s.mount))
    (hs : NoSentinel s.mount (blockAt env s.mount) (s.table.inodeTable i).inode) :
    BreaksOff env s i ↔ ∃ k, k * s.mount.bs < (s.table.inodeTable i).inode.iSize.toNat ∧
      k * s.mount.bs < 2 ^ 31 ∧
        fileBlock env s.mount (blockAt env s.mount) (s.table.inodeTable i).inode k = none := by
  have hle : ∀ {j n L : Nat}, j < n + 1 → n * s.mount.bs < L → j * s.mount.bs < L :=
    fun hj hn => (Nat.mul_le_mul_right _ (Nat.le_of_lt_succ hj)).trans_lt hn
  have hzero : (0 : UInt32).toNat = 0 := rfl
  have harr : ∀ n, n * s.mount.bs < (s.table.inodeTable i).inode.iSize.toNat →
      (Arrive env s.mount (s.table.inodeTable i).inode (n + 1) 0 s.bufs ↔ ∀ j < n + 1,
        fileBlock env s.mount (blockAt env s.mount) (s.table.inodeTable i).inode j ≠ none) := by
    intro n hn
    rw [arrive_iff hm hs hc fun j hj => by rw [hzero, Nat.zero_add]; exact (hle hj hn).le]
    simp only [hzero, Nat.zero_add]
  constructor
  · rintro ⟨n, hsize, hint, hnot⟩
    rw [harr n hsize] at hnot
    push Not at hnot
    obtain ⟨j, hj, hblk⟩ := hnot
    exact ⟨j, hle hj hsize, hle hj hint, hblk⟩
  · rintro ⟨k, hsize, hint, hblk⟩
    exact ⟨k, hsize, hint, fun h => (harr k hsize).mp h k (Nat.lt_succ_self k) hblk⟩

theorem ext2fsOpen_pos {env : Env} {fuel cap : Nat} {w : Option St} {name : Bytes} {i : Slot}
    {s : St} (h : ext2fsOpen env fuel w name cap = .ok (some i, some s)) :
    (s.table.inodeTable i).pos = 0 := by
  unfold ext2fsOpen at h
  cases w with
  | none => cases h
  | some s₀ =>
    obtain ⟨len, -, h⟩ := bind_eq_ok.mp h
    split_ifs at h
    · cases h
    · obtain ⟨⟨out, s₁⟩, -, h⟩ := bind_eq_ok.mp h
      cases out with
      | none => cases h
      | some j =>
        cases h
        simp only [Table.set_same]

/-- A slot as the descriptor that `ext2fs_open` returns for it. -/
theorem toNat_ofNat_slot (i : Slot) : (UInt32.ofNat i).toNat = i := by
  rw [UInt32.toNat_ofNat', Nat.mod_eq_of_lt]
  exact i.isLt.trans (by decide)

/-- What `disk_read_file` makes of an open file. -/
theorem loadOpened_block {env : Env} {s : St} {i : Slot} {f : FileBlock} {w : Option St}
    (h : loadOpened env s i = .ok (some f, w)) (hpos : (s.table.inodeTable i).pos = 0) :
    f.cap = (ext2fsLen s i).toNat ∧
      ((f.size.toNat = f.cap ∧ ∀ n, n * s.mount.bs < f.cap →
          Arrive env s.mount (s.table.inodeTable i).inode (n + 1) 0 s.bufs) ∨
        ∃ n, n * s.mount.bs < f.cap ∧ f.size.toNat = n * s.mount.bs ∧
          Arrive env s.mount (s.table.inodeTable i).inode n 0 s.bufs ∧
          ¬ Arrive env s.mount (s.table.inodeTable i).inode (n + 1) 0 s.bufs) := by
  have hfd := (toNat_ofNat_slot i).symm
  unfold loadOpened at h
  dsimp only at h
  split_ifs at h with hmalloc
  · obtain ⟨⟨r, w₁⟩, hread, h⟩ := bind_eq_ok.mp h
    obtain ⟨⟨ret, w₂⟩, -, h⟩ := bind_eq_ok.mp h
    cases h
    rw [ext2fsRead_of_eq hfd] at hread
    obtain ⟨⟨r', s₁⟩, hslot, hread⟩ := bind_eq_ok.mp hread
    cases hread
    refine ⟨rfl, ?_⟩
    have hcount :
        cMin (ext2fsLen s i) ((s.table.inodeTable i).inode.iSize - 0) = ext2fsLen s i := by
      rw [UInt32.sub_zero, ← UInt32.toNat_inj, toNat_cMin]
      exact Nat.min_self _
    have hlt := (ext2fsLen s i).toNat_lt
    unfold readSlot at hslot
    dsimp only at hslot ⊢
    rw [hpos, hcount] at hslot
    split_ifs at hslot with h0
    · cases hslot
      rw [h0]
      exact Or.inl ⟨rfl, fun n hn => absurd hn (Nat.not_lt_zero _)⟩
    · obtain ⟨⟨ok, l⟩, hloop, hslot⟩ := bind_eq_ok.mp hslot
      rcases readLoop_arrive (k := 0) hloop le_rfl (fun _ => by simp) (by simpa using hlt)
        (by simpa using hlt) with ⟨rfl, hlen, harr⟩ | ⟨rfl, n, hn, hlen, harr, hnot⟩
      · cases hslot
        exact Or.inl ⟨by simpa using hlen, harr⟩
      · cases hslot
        exact Or.inr ⟨n, hn, by simpa using hlen, harr, hnot⟩
  · obtain ⟨⟨ret, w₂⟩, -, h⟩ := bind_eq_ok.mp h
    cases h

/-- **A file is read into its block, and the terminator goes behind what was read**: it is inside
the block exactly when the file breaks off. -/
theorem diskReadFile_inside_iff {env : Env} {fuel : Nat} {w : Option St}
    {namebuf name namebuf' : Bytes} {cap : Nat} {i : Slot} {s : St} {f : FileBlock} {w' : Option St}
    (hname : strcpy namebuf namebufSize name cap 0 = .ok namebuf')
    (hopen : ext2fsOpen env fuel w namebuf' namebufSize = .ok (some i, some s))
    (hfile : diskReadFile env fuel w namebuf name cap = .ok (some f, w')) (p : Parsed) :
    f.Inside p ↔ BreaksOff env s i := by
  unfold diskReadFile at hfile
  rw [hname, ok_bind, hopen] at hfile
  obtain ⟨hcap, hblock⟩ := loadOpened_block hfile (ext2fsOpen_pos hopen)
  have hsize : (s.table.inodeTable i).inode.iSize.toNat = f.cap := hcap.symm
  rw [FileBlock.inside_iff, BreaksOff, hsize]
  rcases hblock with ⟨hfull, harr⟩ | ⟨n, hn, hread, harr, hnot⟩
  · refine iff_of_false (fun h => absurd h.2 (by omega)) ?_
    rintro ⟨n, hn, -, hnot⟩
    exact hnot (harr n hn)
  · constructor
    · exact fun h => ⟨n, hn, hread ▸ h.1, hnot⟩
    · rintro ⟨k, hk, hint, hnot'⟩
      refine ⟨?_, by omega⟩
      -- A block before the first that is missing cannot be missing.
      have hle : n ≤ k := by
        by_contra hlt
        exact hnot' (harr.of_le (by omega))
      exact hread ▸ (Nat.mul_le_mul_right _ hle).trans_lt hint

/-! ## A configuration of five bytes -/

/-- `BOOTCONF` -/
def bootconf : String := "/mb_boot_tv.conf"

/-- The small file system with the file `ip` under the name of the configuration. -/
def confEnv (ip : Inode) (data : Bytes) : Env :=
  wholeEnv smallPart <| smallDisk (smallSuper 32 8192 8) ip
    (((((zeros.putLe 0 4 3).putLe 4 2 1024).putLe 6 1 15)).copy DirEntry.nameOffset
      (fun i => literal bootconf (i + 1)) 15) data

/-- A configuration of five bytes. -/
def fiveEnv : Env := confEnv (smallInode 0x81A4 5 0 5) zeros

theorem five_check :
    holds (do
      let (r, w) ← ext2fsFsOpen fiveEnv none
      let nb ← strcpy zeros namebufSize (literal bootconf) 17 0
      let (fd, w₁) ← ext2fsOpen fiveEnv 9 w nb namebufSize
      let (f, _) ← diskReadFile fiveEnv 9 w zeros
        (literal bootconf) 17
      return (r, w, fd, w₁, f)) (fun
        | (r, some _, fd, some s, some f) =>
          r = 0 && fd = some 1 && ext2fsLen s 1 = 5 && f.size.toNat = f.cap
        | _ => false) = true := by decide +kernel

theorem fiveEnv_run :
    ∃ s₀ nb s f w', ext2fsFsOpen fiveEnv none = .ok (0, some s₀) ∧
      strcpy zeros namebufSize (literal bootconf) 17 0 = .ok nb ∧
      ext2fsOpen fiveEnv 9 (some s₀) nb namebufSize =
        .ok (some 1, some s) ∧
      diskReadFile fiveEnv 9 (some s₀) zeros (literal bootconf) 17 =
        .ok (some f, w') ∧ ext2fsLen s 1 = 5 ∧ f.size.toNat = f.cap := by
  obtain ⟨⟨r, w, fd, w₁, f⟩, hrun, hp⟩ := holds_iff.mp five_check
  obtain ⟨⟨r, w⟩, hmount, hrun⟩ := bind_eq_ok.mp hrun
  obtain ⟨nb, hname, hrun⟩ := bind_eq_ok.mp hrun
  obtain ⟨⟨fd, w₁⟩, hopen, hrun⟩ := bind_eq_ok.mp hrun
  obtain ⟨⟨f, w₂⟩, hfile, hrun⟩ := bind_eq_ok.mp hrun
  cases hrun
  rcases w with _ | s₀
  · exact absurd hp Bool.false_ne_true
  rcases w₁ with _ | s
  · exact absurd hp Bool.false_ne_true
  rcases f with _ | f
  · exact absurd hp Bool.false_ne_true
  simp only [Bool.and_eq_true, decide_eq_true_iff] at hp
  obtain ⟨⟨⟨rfl, rfl⟩, hlen⟩, hsize⟩ := hp
  exact ⟨s₀, nb, s, f, w₂, hmount, hname, hopen, hfile, hlen, hsize⟩

theorem diskReadFile_inside_iff_five :
    ∃ (s : St) (f : FileBlock), ext2fsLen s 1 = 5 ∧
      (f.Inside (.fresh (some 0) none) ↔ BreaksOff fiveEnv s 1) := by
  obtain ⟨s₀, nb, s, f, w', -, hname, hopen, hfile, hlen, -⟩ := fiveEnv_run
  exact ⟨s, f, hlen, diskReadFile_inside_iff hname hopen hfile _⟩

/-- The terminator of a file of five bytes is the sixth byte of five. -/
theorem not_inside_five :
    ∃ s₀ f w', ext2fsFsOpen fiveEnv none = .ok (0, some s₀) ∧
      diskReadFile fiveEnv 9 (some s₀) zeros (literal bootconf) 17 =
        .ok (some f, w') ∧ ¬ f.Inside (.fresh (some 0) none) := by
  obtain ⟨s₀, nb, s, f, w', hmount, -, -, hfile, -, hsize⟩ := fiveEnv_run
  exact ⟨s₀, f, w', hmount, hfile, fun h => absurd ((f.inside_iff _).mp h).2 (by omega)⟩

end MbBootTv

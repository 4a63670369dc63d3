import MbBootTv.Ext2.OnDisk
import MbBootTv.Ext2.Session

/-!
# What a read does with blocks that cannot be read

`ext2_blkno` answers 0 for a hole, for an indirect block that cannot be read and for an index past
its limit, so the caller takes all three for a hole; the map of the format (`formatBlkno`) fails
where an indirect block cannot be read. Besides, a block from the first 4 GiB of the partition is
read in place of one that begins behind them (`InReach`). `ext2fsRead_reportsErrors_iff` says when a
read reports what it should.
-/

namespace MbBootTv

/-! ## What a read reports -/

/-- What a read of `count` bytes from `pos` on is to do: fail and leave the position when a block
of the range cannot be had, and deliver nothing but the bytes of the file otherwise. -/
structure ReportsErrors (env : Env) (s s' : St) (i : Slot) (count : Nat) (r : ReadResult) :
    Prop where
  fails : (∃ j, (s.table.inodeTable i).pos.toNat ≤ j ∧
      j < (s.table.inodeTable i).pos.toNat + count ∧
      formatBlock env s.mount (s.table.inodeTable i).inode (j / s.mount.bs) = none) →
    r.ret = -1 ∧ (s'.table.inodeTable i).pos = (s.table.inodeTable i).pos
  bytes : r.ret = 0 → ∀ k < r.size.toNat,
    r.buf k = contentOf (formatBlock env s.mount (s.table.inodeTable i).inode) s.mount.bs
      ((s.table.inodeTable i).pos.toNat + k)

/-- Every block of a range is in reach. -/
def RangeInReach (env : Env) (m : Mount) (ip : Inode) (pos count : Nat) : Prop :=
  ∀ j, pos ≤ j → j < pos + count → InReach env m ip (j / m.bs)

/-- The range holds an unreadable data block that the map of the code reaches, and everything up to
it is in reach; or every block of the range is in reach and can be had, and what lies past the
code's limit is zero. -/
def ErrorsVisible (env : Env) (m : Mount) (ip : Inode) (pos count : Nat) : Prop :=
  (∃ j, pos ≤ j ∧ j < pos + count ∧ RangeInReach env m ip pos (j + 1 - pos) ∧
    j / m.bs < 12 + m.ptrs * m.ptrs ∧
    ∃ n, n ≠ 0 ∧ formatBlkno m (diskBlock env m) ip (j / m.bs) = some n ∧
      diskBlock env m n = none) ∨
  RangeInReach env m ip pos count ∧ ∀ j, pos ≤ j → j < pos + count →
    formatBlock env m ip (j / m.bs) ≠ none ∧
    (12 + m.ptrs * m.ptrs ≤ j / m.bs → contentOf (formatBlock env m ip) m.bs j = 0)

section Range

variable {env : Env} {m : Mount} {ip : Inode} {pos count j : Nat}

theorem contentOf_fileBlock (hm : m.Sound) (hreach : InReach env m ip (j / m.bs))
    (h : formatBlock env m ip (j / m.bs) ≠ none) :
    contentOf (fileBlock env m (blockAt env m) ip) m.bs j =
        contentOf (formatBlock env m ip) m.bs j ↔
      (12 + m.ptrs * m.ptrs ≤ j / m.bs → contentOf (formatBlock env m ip) m.bs j = 0) := by
  by_cases hlt : j / m.bs < 12 + m.ptrs * m.ptrs
  · simp only [contentOf, hreach.fileBlock_of_format hm hlt h, true_iff]
    exact fun hge => absurd hge (not_le.mpr hlt)
  · have hge : 12 + m.ptrs * m.ptrs ≤ j / m.bs := by omega
    have hzero : contentOf (fileBlock env m (blockAt env m) ip) m.bs j = 0 := by
      rw [contentOf, fileBlock_of_ge hge]
    rw [hzero]
    exact ⟨fun h0 _ => h0.symm, fun h0 => (h0 hge).symm⟩

theorem RangeInReach.plain (h : RangeInReach env m ip pos count) (hm : m.Sound) :
    ReadsPlain env m (blockAt env m) ip pos count :=
  fun j hge hlt _ => (h j hge hlt).noSentinel hm

/-- What comes behind a block that does not arrive plays no part. -/
theorem RangeInReach.plain_of_none (h : RangeInReach env m ip pos (j + 1 - pos)) (hm : m.Sound)
    (hge : pos ≤ j) (hnone : fileBlock env m (blockAt env m) ip (j / m.bs) = none) :
    ReadsPlain env m (blockAt env m) ip pos count := by
  intro i hi _ hbefore
  by_cases hij : i ≤ j
  · exact (h i hi (by omega)).noSentinel hm
  · rcases (Nat.div_le_div_right (not_le.mp hij).le : j / m.bs ≤ i / m.bs).eq_or_lt with heq | hlt
    · rw [← heq]
      exact (h j hge (by omega)).noSentinel hm
    · exact absurd hnone (hbefore j hge hlt)

end Range

section Slot

variable {env : Env} {s s' : St} {i : Slot} {buf : Bytes} {count : Nat} {r : ReadResult}

/-- A visible error is reported; where there is none, the bytes are those of the file. -/
theorem SlotOutcome.reports (h : SlotOutcome env (blockAt env s.mount) s s' i buf count r)
    (hm : s.mount.Sound)
    (hvisible : ErrorsVisible env s.mount (s.table.inodeTable i).inode
      (s.table.inodeTable i).pos.toNat count) : ReportsErrors env s s' i count r := by
  cases h with
  | missed h => exact absurd h not_missed_self
  | failed j hge hlt hblk hfails htable _ =>
    refine ⟨fun _ => ⟨hfails, by rw [htable]⟩, fun h0 => ?_⟩
    rw [hfails] at h0
    exact absurd h0 (by decide)
  | done hblk hzero hsize hbuf =>
    rcases hvisible with ⟨j, hge, hlt, hreach, hunread⟩ | ⟨hreach, hall⟩
    · exact absurd (((hreach j hge (by omega)).fileBlock_eq_none_iff hm).mpr hunread)
        (hblk j hge hlt)
    · refine ⟨?_, fun _ k hk => ?_⟩
      · rintro ⟨j, hge, hlt, hnone⟩
        exact absurd hnone (hall j hge hlt).1
      · rw [hsize] at hk
        obtain ⟨hsome, hz⟩ := hall ((s.table.inodeTable i).pos.toNat + k) (by omega) (by omega)
        rw [hbuf, Bytes.copy_zero_of_lt hk]
        exact (contentOf_fileBlock hm (hreach _ (by omega) (by omega)) hsome).mpr hz

/-- In reach, no error is reported but a visible one, and no other is kept quiet. -/
theorem SlotOutcome.visible (h : SlotOutcome env (blockAt env s.mount) s s' i buf count r)
    (hm : s.mount.Sound)
    (hreach : RangeInReach env s.mount (s.table.inodeTable i).inode
      (s.table.inodeTable i).pos.toNat count) (hreports : ReportsErrors env s s' i count r) :
    ErrorsVisible env s.mount (s.table.inodeTable i).inode (s.table.inodeTable i).pos.toNat
      count := by
  cases h with
  | missed h => exact absurd h not_missed_self
  | failed j hge hlt hblk _ _ _ =>
    refine Or.inl ⟨j, hge, hlt, fun i hi hij => hreach i hi (by omega), ?_⟩
    exact ((hreach j hge hlt).fileBlock_eq_none_iff hm).mp hblk
  | done hblk hzero hsize hbuf =>
    refine Or.inr ⟨hreach, fun j hge hlt => ?_⟩
    have hsome : formatBlock env s.mount (s.table.inodeTable i).inode (j / s.mount.bs) ≠
        none := by
      intro hnone
      have := (hreports.fails ⟨j, hge, hlt, hnone⟩).1
      rw [hzero] at this
      exact absurd this (by decide)
    refine ⟨hsome, (contentOf_fileBlock hm (hreach j hge hlt) hsome).mp ?_⟩
    have hj : j - (s.table.inodeTable i).pos.toNat < count := by omega
    have hbyte := hreports.bytes hzero _ (hsize ▸ hj)
    rw [hbuf, Bytes.copy_zero_of_lt hj] at hbyte
    simpa only [Nat.add_sub_cancel' hge] using hbyte

theorem readSlot_reportsErrors (hm : s.mount.Sound)
    (hc : s.bufs.Coherent s.mount (blockAt env s.mount))
    (hpos : (s.table.inodeTable i).pos.toNat ≤ (s.table.inodeTable i).inode.iSize.toNat)
    (buf : Bytes) (size : UInt32)
    (hcount : count = min size.toNat
      ((s.table.inodeTable i).inode.iSize.toNat - (s.table.inodeTable i).pos.toNat)) :
    ∃ r s', readSlot env s i buf size = .ok (r, s') ∧
      (ErrorsVisible env s.mount (s.table.inodeTable i).inode
        (s.table.inodeTable i).pos.toNat count → ReportsErrors env s s' i count r) ∧
      (RangeInReach env s.mount (s.table.inodeTable i).inode (s.table.inodeTable i).pos.toNat
        count → ReportsErrors env s s' i count r → ErrorsVisible env s.mount
          (s.table.inodeTable i).inode (s.table.inodeTable i).pos.toNat count) := by
  obtain ⟨r, s', hread⟩ := readSlot_total env hm hpos buf size
  have hout (hs : ReadsPlain env s.mount (blockAt env s.mount) (s.table.inodeTable i).inode
      (s.table.inodeTable i).pos.toNat count) :
      SlotOutcome env (blockAt env s.mount) s s' i buf count r := by
    obtain ⟨r', s'', hread', h⟩ := readSlot_spec hm hc (Agrees.refl env s.mount) hpos buf size
      hcount hs
    rw [hread] at hread'
    cases hread'
    exact h
  refine ⟨r, s', hread, fun hvisible => ?_, fun hreach => (hout (hreach.plain hm)).visible hm hreach⟩
  refine (hout ?_).reports hm hvisible
  rcases hvisible with ⟨j, hge, -, hreach, hunread⟩ | ⟨hreach, -⟩
  · exact hreach.plain_of_none hm hge
      (((hreach j hge (by omega)).fileBlock_eq_none_iff hm).mpr hunread)
  · exact hreach.plain hm

end Slot

/-- A call on open descriptors, on a disk that refuses the same sectors throughout. -/
def OnDisk (disk : Env) (x : Session) (e : Event) : Prop :=
  e.env = disk ∧ e.call.OnOpen x.fds

theorem onDisk_inv {env : Env} {s₀ : St} (h : Mounted s₀) {x : Session}
    (hrun : Reaches (Session.Step (OnDisk env)) ⟨s₀, ∅⟩ x) :
    x.Inv s₀.mount (Memo.Known (-1) (blockAt env s₀.mount)) :=
  (h.inv (Or.inl rfl)).run hrun fun _ _ h =>
    ⟨h.1 ▸ (Agrees.refl env s₀.mount).delivers, h.2.admissible⟩

/-- **When a read reports errors.** On a mounted file system with blocks that fit the buffers,
after any calls on open descriptors: a read of an open file reports what cannot be read when
`ErrorsVisible` says so of the blocks that it asks for; and, if all these are in reach, only
then. -/
theorem ext2fsRead_reportsErrors_iff {env env₀ : Env} {w : Option St} {s₀ : St}
    (hopen : ext2fsFsOpen env₀ w = .ok (0, some s₀))
    (hbs : s₀.mount.blocksize.toNat ≤ ext2MaxBlockSize) {x : Session}
    (hrun : Reaches (Session.Step (OnDisk env)) ⟨s₀, ∅⟩ x) {i : Slot} (hi : i ∈ x.fds)
    {fd : UInt32} (hfd : (i : Nat) = fd.toNat) (buf : Bytes) (size : UInt32) {ip : Inode}
    {pos count : Nat} (hip : ip = (x.st.table.inodeTable i).inode)
    (hpos : pos = (x.st.table.inodeTable i).pos.toNat)
    (hcount : count = min size.toNat (ip.iSize.toNat - pos)) :
    ∃ r s', ext2fsRead env (some x.st) fd buf size = .ok (r, some s') ∧
      (ErrorsVisible env s₀.mount ip pos count → ReportsErrors env x.st s' i count r) ∧
      (RangeInReach env s₀.mount ip pos count → ReportsErrors env x.st s' i count r →
        ErrorsVisible env s₀.mount ip pos count) := by
  have hmounted := ext2fsFsOpen_spec hopen
  have hinv := onDisk_inv hmounted hrun
  have hm := hmounted.sound hbs
  have hmount := hinv.mount
  subst hip hpos
  rw [← hmount] at hm ⊢
  obtain ⟨r, s', hread, hboth⟩ := readSlot_reportsErrors hm (hmount ▸ hinv.hold)
    (hinv.isOpen i hi).pos buf size hcount
  exact ⟨r, s', by rw [ext2fsRead_of_eq hfd, hread]; rfl, hboth⟩

/-! ### An unreadable indirect block -/

/-- A disk with a file whose only block beyond the direct ones is a pointer away, in block 7; the
disk refuses to read that block. -/
def refusing : Env where
  dev := ⟨fun l => if l = 14 then none else some (fileDisk (smallInode 0x81A4 13312 12 7) l), 64⟩
  part := smallPart
  blMalloc := fun _ => true
  heap := zeros

theorem refusing_check :
    holds (do
      let (r, w) ← ext2fsFsOpen refusing none
      let (fd, w₁) ← ext2fsOpen refusing 9 w pathF 2
      let (p, w₂) ← ext2fsSeek w₁ 1 12288
      let (d, w₃) ← ext2fsRead refusing w₂ 1 zeros 1
      return (r, w, fd, w₁, p, w₂, d, w₃)) (fun
        | (r, some s₀, fd, some _, p, some s, d, some _) => r = 0 &&
          s₀.mount.blocksize = 1024 && fd = some 1 && p = 0 &&
          (s.table.inodeTable 1).inode.iBlock ext2IndBlock = 7 &&
          (s.table.inodeTable 1).pos = 12288 && (s.table.inodeTable 1).inode.iSize = 13312 &&
          d.ret = 0
        | _ => false) = true := by decide +kernel

/-- The session that opens the file and seeks to that block. -/
theorem refusing_session :
    ∃ s₀ s, ext2fsFsOpen refusing none = .ok (0, some s₀) ∧ s₀.mount.blocksize = 1024 ∧
      Reaches (Session.Step (OnDisk refusing)) ⟨s₀, ∅⟩ ⟨s, {1}⟩ ∧
      (s.table.inodeTable 1).inode.iBlock ext2IndBlock = 7 ∧
      (s.table.inodeTable 1).pos = 12288 ∧ (s.table.inodeTable 1).inode.iSize = 13312 ∧
      ∃ r s', ext2fsRead refusing (some s) 1 zeros 1 = .ok (r, some s') ∧ r.ret = 0 := by
  obtain ⟨⟨r, w, fd, w₁, p, w₂, d, w₃⟩, hrun, hp⟩ := holds_iff.mp refusing_check
  obtain ⟨⟨r, w⟩, hopen, hrun⟩ := bind_eq_ok.mp hrun
  obtain ⟨⟨fd, w₁⟩, hfile, hrun⟩ := bind_eq_ok.mp hrun
  obtain ⟨⟨p, w₂⟩, hseek, hrun⟩ := bind_eq_ok.mp hrun
  obtain ⟨⟨d, w₃⟩, hread, hrun⟩ := bind_eq_ok.mp hrun
  cases hrun
  rcases w with _ | s₀
  · exact absurd hp Bool.false_ne_true
  rcases w₁ with _ | s₁
  · exact absurd hp Bool.false_ne_true
  rcases w₂ with _ | s
  · exact absurd hp Bool.false_ne_true
  rcases w₃ with _ | s'
  · exact absurd hp Bool.false_ne_true
  simp only [Bool.and_eq_true, decide_eq_true_iff] at hp
  obtain ⟨⟨⟨⟨⟨⟨⟨rfl, hbs⟩, rfl⟩, rfl⟩, hind⟩, hpos⟩, hsize⟩, hret⟩ := hp
  have hstep₁ : Session.Step (OnDisk refusing) ⟨s₀, ∅⟩ ⟨refusing, 9, .openFile pathF 2⟩
      ⟨s₁, {1}⟩ :=
    ⟨⟨rfl, trivial⟩, .opened (some 1), by simp only [perform, hfile, ok_bind, pure_eq_ok], rfl⟩
  have hstep₂ : Session.Step (OnDisk refusing) ⟨s₁, {1}⟩ ⟨refusing, 9, .seek 1 12288⟩
      ⟨s, {1}⟩ :=
    ⟨⟨rfl, 1, Finset.mem_singleton_self 1, rfl⟩, .status 0, by
      simp only [perform, hseek, ok_bind, pure_eq_ok], rfl⟩
  exact ⟨s₀, s, hopen, hbs, ((Reaches.refl _).tail hstep₁).tail hstep₂, hind, hpos, hsize, d, s',
    hread, hret⟩

theorem ext2fsRead_reportsErrors_iff_refusing :
    ∃ (s₀ : St) (x : Session) (r : ReadResult) (s' : St),
      ext2fsRead refusing (some x.st) 1 zeros 1 = .ok (r, some s') ∧
      (ErrorsVisible refusing s₀.mount (x.st.table.inodeTable 1).inode 12288 1 →
        ReportsErrors refusing x.st s' 1 1 r) ∧
      (RangeInReach refusing s₀.mount (x.st.table.inodeTable 1).inode 12288 1 →
        ReportsErrors refusing x.st s' 1 1 r →
        ErrorsVisible refusing s₀.mount (x.st.table.inodeTable 1).inode 12288 1) := by
  obtain ⟨s₀, s, hopen, hbs, hrun, -, hpos, hsize, -⟩ := refusing_session
  obtain ⟨r, s', hread, hboth⟩ := ext2fsRead_reportsErrors_iff hopen (by rw [hbs]; decide) hrun
    (Finset.mem_singleton_self (1 : Slot)) (show ((1 : Slot) : Nat) = (1 : UInt32).toNat from rfl)
    zeros 1 rfl (show 12288 = _ by dsimp only; rw [hpos]; rfl)
    (show 1 = _ by dsimp only; rw [hsize]; rfl)
  exact ⟨s₀, _, r, s', hread, hboth⟩

/-- The read returns 0, with a byte that is not the file's. -/
theorem not_reportsErrors_refusing :
    ∃ s₀ x r s', ext2fsFsOpen refusing none = .ok (0, some s₀) ∧
      Reaches (Session.Step (OnDisk refusing)) ⟨s₀, ∅⟩ x ∧ (1 : Slot) ∈ x.fds ∧
      ext2fsRead refusing (some x.st) 1 zeros 1 = .ok (r, some s') ∧ r.ret = 0 ∧
      ¬ ReportsErrors refusing x.st s' 1 1 r := by
  obtain ⟨s₀, s, hopen, hbs, hrun, hind, hpos, -, r, s', hread, hret⟩ := refusing_session
  refine ⟨s₀, ⟨s, {1}⟩, r, s', hopen, hrun, Finset.mem_singleton_self 1, hread, hret, fun h => ?_⟩
  have hmounted := ext2fsFsOpen_spec hopen
  have hmount : s.mount = s₀.mount := (onDisk_inv hmounted hrun).mount
  have hm := hmounted.sound (by rw [hbs]; decide)
  have hfails := h.fails ⟨12288, by dsimp only; rw [hpos]; decide,
    by dsimp only; rw [hpos]; decide, ?_⟩
  · rw [hret] at hfails
    exact absurd hfails.1 (by decide)
  · have hblock : diskBlock refusing s₀.mount 7 = none := by
      have hread : bytesAt refusing (7 * 1024) 1024 = none :=
        Option.isNone_iff_eq_none.mp (by decide +kernel)
      rw [← hm.blockAt_eq (by rw [Mount.bs, hbs]; decide), blockAt, hbs, hread]
    dsimp only
    rw [formatBlock, formatBlkno, hmount, Mount.bs, Mount.ptrs, hbs, if_neg (by decide),
      if_pos (by decide), hind, formatPointer, if_neg (by decide), hblock]
    rfl

end MbBootTv

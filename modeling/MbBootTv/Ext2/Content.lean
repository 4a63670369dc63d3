import MbBootTv.Ext2.Medium
import MbBootTv.Ext2.Session

/-!
# What a read delivers

All descriptors share one block buffer and the two indirect-block caches, and a call may fail in
the middle. Even so a read of an open file delivers a slice of the file's logical content, which
is defined by the block map with empty caches on a disk that refuses nothing: neither what was
read before, nor by whom, nor which sectors were refused meanwhile plays a part.
-/

namespace MbBootTv

/-! ## The logical content -/

/-- Block `k` of a file: the block that `ext2_blkno` names from empty caches, a hole being zeros,
and the bytes that `read_bytes` delivers for it. -/
def logicalBlock (env : Env) (m : Mount) (ip : Inode) (k : Nat) : Option Bytes :=
  match ext2Blkno env m (emptyBufs []) ip (UInt32.ofNat k) with
  | .error _ => none
  | .ok (n, b) =>
    if n = 0 then some fun _ => 0
    else (readBytes env b (n * m.blocksize) m.blocksize).1.map (Bytes.clip · m.bs)

/-- The content of a file on a medium, through one partition. -/
def logicalContent (part : Partition) (medium : UInt64 → Bytes) (m : Mount) (ip : Inode) : Bytes :=
  contentOf (logicalBlock (wholeEnv part medium) m ip) m.bs

theorem logicalBlock_eq {env : Env} {m : Mount} (hm : m.Sound) {ip : Inode}
    (hs : NoSentinel m (blockAt env m) ip) {k : Nat} (hk : k < 2 ^ 31) :
    logicalBlock env m ip k = fileBlock env m (blockAt env m) ip k := by
  have hk' : (UInt32.ofNat k).toNat = k := by
    rw [UInt32.toNat_ofNat', Nat.mod_eq_of_lt (by omega)]
  have hlt : (UInt32.ofNat k).toNat < 2 ^ 31 := by omega
  obtain ⟨n, b, hmap, -, hn⟩ := ext2Blkno_spec hm (hold_emptyBufs (Or.inl rfl) [])
    (Agrees.refl env m) (hs.at _) hlt
  rw [hk'] at hn
  obtain rfl := hn.resolve_right not_missed_self
  unfold logicalBlock fileBlock
  rw [hmap]
  dsimp only
  by_cases h0 : blknoOf m (blockAt env m) ip k = 0
  · rw [if_pos h0, if_pos h0]
  · rw [if_neg h0, if_neg h0]
    exact (readBytes_eq env b _ _).2

/-- A block that arrives is a block of the logical content. -/
theorem fileBlock_whole {part : Partition} {medium : UInt64 → Bytes} {env : Env}
    (hon : env.On part medium) {m : Mount} (hm : m.Sound) {ip : Inode}
    (hs : NoSentinel m (blockAt (wholeEnv part medium) m) ip) {k : Nat} (hk : k < 2 ^ 31)
    (h : fileBlock env m (blockAt (wholeEnv part medium) m) ip k ≠ none) :
    fileBlock env m (blockAt (wholeEnv part medium) m) ip k =
      logicalBlock (wholeEnv part medium) m ip k := by
  rw [logicalBlock_eq hm hs hk]
  unfold fileBlock at h ⊢
  split_ifs at h ⊢ with h0
  · rfl
  · obtain ⟨c, hc⟩ := Option.ne_none_iff_exists'.mp h
    rw [hc, agrees_whole hon hm _ c hc]

/-! ## Reading in a session -/

/-- A call on open descriptors of a file system on `medium`. -/
def OnMedium (part : Partition) (medium : UInt64 → Bytes) (x : Session) (e : Event) : Prop :=
  e.env.On part medium ∧ e.call.OnOpen x.fds

/-- What `ext2fs_read` is to do for the descriptor `i`: deliver the next `size` bytes of the
content, or what is left of it, and move the position of this descriptor behind them. -/
structure DeliversSlice (content : Bytes) (s s' : St) (i : Slot) (buf : Bytes) (size : UInt32)
    (r : ReadResult) : Prop where
  ret : r.ret = 0
  size : r.size.toNat = min size.toNat
    ((s.table.inodeTable i).inode.iSize.toNat - (s.table.inodeTable i).pos.toNat)
  bytes : r.buf = buf.copy 0
    (fun k => content ((s.table.inodeTable i).pos.toNat + k)) r.size.toNat
  state : s' = s.moved s'.bufs i ((s.table.inodeTable i).pos + r.size)

/-- Every fetch of a call was complete: no sector was refused to it, or lay outside the
partition. -/
def NoFetchFailed (b b' : Bufs) : Prop :=
  ∃ fetches, b'.fetches = b.fetches ++ fetches ∧ ∀ f ∈ fetches, f.ok = true

theorem NoFetchFailed.not_failed {env : Env} {b b' : Bufs} (h : NoFetchFailed b b')
    (hmalloc : ∀ size, env.blMalloc size = true) : ¬ FetchFailed env b b' := by
  intro hfail
  obtain ⟨fs, hfs, hall⟩ := h
  obtain ⟨gs, hgs, f, hf, hok⟩ := hfail hmalloc
  obtain rfl := List.append_cancel_left (hfs.symm.trans hgs)
  rw [hall f hf] at hok
  cases hok

/-- A read of an open file, when no sector is refused to it, delivers the slice. -/
theorem ext2fsRead_slice {part : Partition} {medium : UInt64 → Bytes} {env : Env}
    (hon : env.On part medium) {m : Mount} (hm : m.Sound) {x : Session}
    (hinv : x.Inv m (Memo.Known (-1) (blockAt (wholeEnv part medium) m))) {i : Slot} (hi : i ∈ x.fds)
    (hs : NoSentinel m (blockAt (wholeEnv part medium) m) (x.st.table.inodeTable i).inode)
    {fd : UInt32} (hfd : (i : Nat) = fd.toNat) (buf : Bytes) (size : UInt32) :
    ∃ r s', ext2fsRead env (some x.st) fd buf size = .ok (r, some s') ∧
      (NoFetchFailed x.st.bufs s'.bufs →
        DeliversSlice (logicalContent part medium m (x.st.table.inodeTable i).inode) x.st s' i buf
          size r) := by
  have hmount := hinv.mount
  have hpos := (hinv.isOpen i hi).pos
  subst hmount
  obtain ⟨r, s', hread, hout⟩ := readSlot_spec hm hinv.hold (agrees_whole hon hm) hpos buf
    size rfl (hs.plain _ _)
  refine ⟨r, s', by rw [ext2fsRead_of_eq hfd, hread]; rfl, fun hno => ?_⟩
  have hnot := hno.not_failed hon.blMalloc
  cases hout with
  | missed h =>
    obtain ⟨n, -, -, hfail⟩ := h
    exact absurd hfail hnot
  | failed j _ _ _ _ _ hfail => exact absurd hfail hnot
  | done hblk hret hsize hbuf =>
    have hstate := (readSlot_step hread hpos).2
    rcases hstate with ⟨-, -, hstate⟩ | ⟨hneg, -⟩
    · refine ⟨hret, hsize, ?_, hstate⟩
      rw [hbuf, hsize]
      refine Bytes.copy_congr fun k hk => ?_
      have hlt := (x.st.table.inodeTable i).inode.iSize.toNat_lt
      have hdiv : ((x.st.table.inodeTable i).pos.toNat + k) / x.st.mount.bs < 2 ^ 31 := by
        rcases hm.cases with ⟨hb, -⟩ | ⟨hb, -⟩ | ⟨hb, -⟩ <;> rw [hb] <;> omega
      rw [logicalContent, contentOf, contentOf,
        fileBlock_whole hon hm hs hdiv (hblk _ (by omega) (by omega))]
    · rw [hret] at hneg
      exact absurd hneg (by decide)

/-- **Every read delivers its slice of the file.** On a mounted file system with blocks that fit
the buffers, after any calls on open descriptors, with sectors refused at will: the position of
every open descriptor is in its file, and a read that no sector is refused to delivers the slice of
the file's logical content at the position. -/
theorem ext2fsRead_delivers {part : Partition} {medium : UInt64 → Bytes} {env₀ : Env}
    {w : Option St} {s₀ : St} (hopen : ext2fsFsOpen env₀ w = .ok (0, some s₀))
    (hbs : s₀.mount.blocksize.toNat ≤ ext2MaxBlockSize) {x : Session}
    (hrun : Reaches (Session.Step (OnMedium part medium)) ⟨s₀, ∅⟩ x) :
    (∀ i ∈ x.fds, (x.st.table.inodeTable i).pos.toNat ≤
      (x.st.table.inodeTable i).inode.iSize.toNat) ∧
    ∀ i ∈ x.fds, NoSentinel s₀.mount (blockAt (wholeEnv part medium) s₀.mount)
        (x.st.table.inodeTable i).inode →
      ∀ (env : Env) (fd : UInt32) (buf : Bytes) (size : UInt32), env.On part medium →
        (i : Nat) = fd.toNat →
        ∃ r s', ext2fsRead env (some x.st) fd buf size = .ok (r, some s') ∧
          (NoFetchFailed x.st.bufs s'.bufs →
            DeliversSlice (logicalContent part medium s₀.mount (x.st.table.inodeTable i).inode)
              x.st s' i buf size r) := by
  have hmounted := ext2fsFsOpen_spec hopen
  have hm := hmounted.sound hbs
  have hinv : x.Inv s₀.mount (Memo.Known (-1) (blockAt (wholeEnv part medium) s₀.mount)) :=
    (hmounted.inv (Or.inl rfl)).run hrun
      fun _ _ h => ⟨(agrees_whole h.1 hm).delivers, h.2.admissible⟩
  exact ⟨fun i hi => (hinv.isOpen i hi).pos, fun i hi hs env fd buf size hon hfd =>
    ext2fsRead_slice hon hm hinv hi hs hfd buf size⟩

theorem small_check :
    holds (do
      let (r, w) ← ext2fsFsOpen (wholeEnv smallPart letters) none
      let (fd, w') ← ext2fsOpen (wholeEnv smallPart letters) 9 w pathF 2
      return (r, w, fd, w')) (fun
        | (r, some s₀, fd, some s) => r = 0 && s₀.mount.blocksize.toNat ≤ ext2MaxBlockSize &&
          fd = some 1 && (s.table.inodeTable 1).inode.iBlock ext2IndBlock = 0 &&
          (s.table.inodeTable 1).inode.iBlock ext2DindBlock = 0
        | _ => false) = true := by decide +kernel

theorem ext2fsRead_delivers_small :
    ∃ s₀ x env, ext2fsFsOpen env none = .ok (0, some s₀) ∧ (1 : Slot) ∈ x.fds ∧
      Reaches (Session.Step (OnMedium smallPart letters)) ⟨s₀, ∅⟩ x ∧
      ∃ r s', ext2fsRead env (some x.st) 1 zeros 3 = .ok (r, some s') ∧
        (NoFetchFailed x.st.bufs s'.bufs →
          DeliversSlice (logicalContent smallPart letters s₀.mount
            (x.st.table.inodeTable 1).inode) x.st s' 1 zeros 3 r) := by
  obtain ⟨⟨r, w, fd, w'⟩, hrun, hp⟩ := holds_iff.mp small_check
  obtain ⟨⟨r, w⟩, hopen, hrun⟩ := bind_eq_ok.mp hrun
  obtain ⟨⟨fd, w'⟩, hfile, hrun⟩ := bind_eq_ok.mp hrun
  cases hrun
  rcases w with _ | s₀
  · exact absurd hp Bool.false_ne_true
  rcases w' with _ | s
  · exact absurd hp Bool.false_ne_true
  simp only [Bool.and_eq_true, decide_eq_true_iff] at hp
  obtain ⟨⟨⟨⟨rfl, hbs⟩, rfl⟩, hind⟩, hdind⟩ := hp
  have hstep : Session.Step (OnMedium smallPart letters) ⟨s₀, ∅⟩
      ⟨wholeEnv smallPart letters, 9, .openFile pathF 2⟩ ⟨s, {1}⟩ :=
    ⟨⟨wholeEnv_on _ _, trivial⟩, .opened (some 1), by
      simp only [perform, hfile, ok_bind, pure_eq_ok], rfl⟩
  have hrun := (Reaches.refl _).tail hstep
  refine ⟨s₀, _, wholeEnv smallPart letters, hopen, Finset.mem_singleton_self 1, hrun, ?_⟩
  refine (ext2fsRead_delivers hopen hbs hrun).2 1 (Finset.mem_singleton_self 1) ?_
    (wholeEnv smallPart letters) 1 zeros 3 (wholeEnv_on _ _) rfl
  refine ⟨?_, ?_, fun i hi => ?_⟩
  · rw [hind]; decide
  · rw [hdind]; decide
  · rw [hdind, pointer, if_pos rfl]; decide

end MbBootTv

import MbBootTv.Ext2.Files
import MbBootTv.Ext2.Possible

/-!
# Reading a file

The loop of `ext2fs_read` chops a request into parts of blocks. `readLoop_spec` puts the parts
together again: what arrives is the slice of the file's content, as `fileBlock` has it, unless a
block cannot be read.
-/

namespace MbBootTv

/-- The content of a file by its blocks; 0 where there is no block. -/
def contentOf (blk : Nat → Option Bytes) (bs : Nat) : Bytes := fun j =>
  match blk (j / bs) with
  | some c => c (j % bs)
  | none => 0

theorem toNat_cMin (a b : UInt32) : (cMin a b).toNat = min a.toNat b.toNat := by
  unfold cMin
  by_cases h : a ≤ b
  · rw [if_pos h, Nat.min_eq_left (UInt32.le_iff_toNat_le.mp h)]
  · have hlt : b.toNat ≤ a.toNat := by
      rw [UInt32.le_iff_toNat_le] at h
      omega
    rw [if_neg h, Nat.min_eq_right hlt]

section Loop

variable {env : Env} {m : Mount} {ip : Inode} {truth : UInt32 → Option Bytes}

/-- Whatever the blocks hold, a loop that ends well has counted every byte of the request. -/
theorem readLoop_step {n : Nat} {l l' : ReadLoop} {ok : Bool}
    (h : readLoop env m ip n l = .ok (ok, l')) (hn : l.count.toNat ≤ n)
    (hsize : l.size.toNat + l.count.toNat < 2 ^ 32) :
    BufStep env m l.bufs l'.bufs ∧
      (ok = true → l'.size.toNat = l.size.toNat + l.count.toNat) := by
  induction n generalizing l with
  | zero =>
    obtain ⟨rfl, rfl⟩ := Prod.mk.inj (Except.ok.inj h)
    exact ⟨BufStep.refl _, fun _ => by omega⟩
  | succ n ih =>
    unfold readLoop at h
    by_cases h0 : l.count = 0
    · rw [if_pos h0] at h
      obtain ⟨rfl, rfl⟩ := Prod.mk.inj (Except.ok.inj h)
      exact ⟨BufStep.refl _, fun _ => by simp [h0]⟩
    by_cases hbs : m.blocksize = 0
    · rw [if_neg h0, if_pos hbs] at h
      cases h
    rw [if_neg h0, if_neg hbs] at h
    have hbs' : 0 < m.blocksize.toNat := Nat.pos_of_ne_zero fun h => hbs (UInt32.toNat_inj.mp h)
    have hbofs : (l.pos % m.blocksize).toNat < m.blocksize.toNat := by
      rw [UInt32.toNat_mod]
      exact Nat.mod_lt _ hbs'
    have hnc := toNat_cMin l.count (m.blocksize - l.pos % m.blocksize)
    rw [UInt32.toNat_sub_of_le _ _ (UInt32.le_iff_toNat_le.mpr hbofs.le)] at hnc
    have hcount : l.count.toNat ≠ 0 := fun h => h0 (UInt32.toNat_inj.mp h)
    dsimp only at h
    generalize cMin l.count (m.blocksize - l.pos % m.blocksize) = nc at hnc h
    obtain ⟨⟨r, blk, b⟩, hread, h⟩ := bind_eq_ok.mp h
    have hstep : BufStep env m l.bufs { b with blkbuf := blk } :=
      (ext2Breadi_step hread).toBufStep.trans (bufStep_of_eq rfl rfl rfl)
    by_cases hr : r = -1
    · rw [if_pos hr] at h
      obtain ⟨rfl, rfl⟩ := Prod.mk.inj (Except.ok.inj h)
      exact ⟨hstep, fun h => absurd h Bool.false_ne_true⟩
    · rw [if_neg hr] at h
      split_ifs at h
      -- The rest of the request has at least one byte less.
      have hcount₂ : (l.count - nc).toNat = l.count.toNat - nc.toNat :=
        UInt32.toNat_sub_of_le _ _ (UInt32.le_iff_toNat_le.mpr (by omega))
      have hsize₂ : (l.size + nc).toNat = l.size.toNat + nc.toNat := by
        rw [UInt32.toNat_add, Nat.mod_eq_of_lt (by omega)]
      obtain ⟨hrest, hlen⟩ := ih h (by dsimp only; omega) (by dsimp only; omega)
      refine ⟨hstep.trans hrest, fun hok => ?_⟩
      have := hlen hok
      dsimp only at this
      omega

/-- What part of a block is read next, when the loop stands at byte `pos` of the file with `count`
bytes to go. -/
theorem toNat_part (hm : m.Sound) (count pos : UInt32) :
    (cMin count (m.blocksize - pos % m.blocksize)).toNat =
      min count.toNat (m.bs - pos.toNat % m.bs) := by
  have hbs := hm.cases
  have hmod : pos.toNat % m.bs < m.bs := Nat.mod_lt _ (by omega)
  have hbofs : (pos % m.blocksize).toNat = pos.toNat % m.bs := UInt32.toNat_mod _ _
  rw [toNat_cMin, UInt32.toNat_sub_of_le _ _ (UInt32.le_iff_toNat_le.mpr (by
    rw [hbofs]; exact hmod.le)), hbofs]
  rfl

/-- The blocks of a request are in the file, so each is one block for its buffer. -/
theorem readLoop_total (hm : m.Sound) {n : Nat} {l : ReadLoop}
    (hpos : l.pos.toNat + l.count.toNat ≤ ip.iSize.toNat) :
    ∃ ok l', readLoop env m ip n l = .ok (ok, l') := by
  induction n generalizing l with
  | zero => exact ⟨true, l, rfl⟩
  | succ n ih =>
    have hb0 : m.blocksize ≠ 0 := by
      rcases hm.blocksize with h | h | h <;> rw [h] <;> decide
    have hbs := hm.cases
    unfold readLoop
    by_cases h0 : l.count = 0
    · exact ⟨true, l, if_pos h0⟩
    · rw [if_neg h0, if_neg hb0]
      have hblock : (l.pos / m.blocksize).toNat * m.bs ≤ ip.iSize.toNat := by
        rw [UInt32.toNat_div]
        exact (Nat.div_mul_le_self _ _).trans (by omega)
      have hany : Delivers env m fun _ _ => True := fun _ _ _ => trivial
      have hbufs : l.bufs.Hold m fun _ _ => True := ⟨trivial, trivial⟩
      obtain ⟨o, b', hread, -⟩ := ext2Breadi_possible hm hbufs hany hblock l.bufs.blkbuf
      have hnc := toNat_part hm l.count l.pos
      have hbofs : (l.pos % m.blocksize).toNat = l.pos.toNat % m.bs := UInt32.toNat_mod _ _
      have hmod : l.pos.toNat % m.bs < m.bs := Nat.mod_lt _ (by omega)
      simp only [hread, ok_bind]
      generalize cMin l.count (m.blocksize - l.pos % m.blocksize) = nc at hnc ⊢
      generalize (if o.isSome = true then m.blocksize else -1) = r
      by_cases hr : r = -1
      · exact ⟨false, _, if_pos hr⟩
      · have hfit : ¬ ext2MaxBlockSize < (l.pos % m.blocksize).toNat + nc.toNat := by
          rw [ext2MaxBlockSize, hbofs]
          omega
        rw [if_neg hr, if_neg hfit]
        refine ih ?_
        have hlt := ip.iSize.toNat_lt
        dsimp only
        rw [UInt32.toNat_add, UInt32.toNat_sub_of_le _ _ (UInt32.le_iff_toNat_le.mpr (by omega)),
          Nat.mod_eq_of_lt (by omega)]
        omega

/-- No pointer that is followed for a request is the word that marks a cache as empty, up to a block
that does not arrive. -/
def ReadsPlain (env : Env) (m : Mount) (truth : UInt32 → Option Bytes) (ip : Inode)
    (pos count : Nat) : Prop :=
  ∀ j, pos ≤ j → j < pos + count →
    (∀ i, pos ≤ i → i / m.bs < j / m.bs → fileBlock env m truth ip (i / m.bs) ≠ none) →
    NoSentinelAt m truth ip (j / m.bs)

theorem NoSentinel.plain (hs : NoSentinel m truth ip) (pos count : Nat) :
    ReadsPlain env m truth ip pos count := fun _ _ _ _ => hs.at _

theorem ReadsPlain.head {pos count : Nat} (h : ReadsPlain env m truth ip pos count)
    (hcount : 0 < count) : NoSentinelAt m truth ip (pos / m.bs) :=
  h pos le_rfl (Nat.lt_add_of_pos_right hcount) fun _ hge hlt =>
    absurd (Nat.div_le_div_right hge) (not_le.mpr hlt)

/-- The bytes up to the end of a block are in it. -/
theorem div_eq_of_part {bs pos n j : Nat} (hn : pos % bs + n ≤ bs) (hge : pos ≤ j)
    (hlt : j < pos + n) : j / bs = pos / bs := by
  have := Nat.div_add_mod pos bs
  refine Nat.div_eq_of_lt_le ?_ ?_
  · rw [Nat.mul_comm]
    omega
  · rw [Nat.add_mul, Nat.mul_comm]
    omega

theorem ReadsPlain.tail {pos count n : Nat} (h : ReadsPlain env m truth ip pos count)
    (hn : pos % m.bs + n ≤ m.bs) (hle : n ≤ count)
    (hblk : fileBlock env m truth ip (pos / m.bs) ≠ none) :
    ReadsPlain env m truth ip (pos + n) (count - n) := by
  intro j hge hlt hbefore
  refine h j (by omega) (by omega) fun i hi hdiv => ?_
  by_cases hin : i < pos + n
  · rw [div_eq_of_part hn hi hin]
    exact hblk
  · exact hbefore i (not_lt.mp hin) hdiv

/-- How a pass over `count` bytes from `pos` on ends, from `l` to `l'`. -/
inductive ReadOutcome (env : Env) (m : Mount) (truth : UInt32 → Option Bytes) (ip : Inode)
    (l l' : ReadLoop) : Bool → Prop
  /-- Every block arrives. -/
  | done (hblk : ∀ j, l.pos.toNat ≤ j → j < l.pos.toNat + l.count.toNat →
        fileBlock env m truth ip (j / m.bs) ≠ none)
      (hbuf : l'.buf = l.buf.copy l.size.toNat
        (fun i => contentOf (fileBlock env m truth ip) m.bs (l.pos.toNat + i)) l.count.toNat) :
      ReadOutcome env m truth ip l l' true
  /-- A block cannot be read. -/
  | failed (j : Nat) (hge : l.pos.toNat ≤ j) (hlt : j < l.pos.toNat + l.count.toNat)
      (hblk : fileBlock env m truth ip (j / m.bs) = none)
      (hfail : FetchFailed env l.bufs l'.bufs) : ReadOutcome env m truth ip l l' false
  /-- An indirect block that `truth` knows cannot be read. -/
  | missed (ok : Bool) (h : Missed env m truth l.bufs l'.bufs) : ReadOutcome env m truth ip l l' ok

/-- The part of a block that a pass copies is a part of the file's content. -/
theorem copy_block_part {blk : Nat → Option Bytes} {bs pos n : Nat} {c buffer dst : Bytes}
    {at' : Nat} (hc : blk (pos / bs) = some c) (hn : pos % bs + n ≤ bs) :
    dst.copy at' (fun i => buffer.copy 0 c bs (pos % bs + i)) n =
      dst.copy at' (fun i => contentOf blk bs (pos + i)) n := by
  refine Bytes.copy_congr fun i hi => ?_
  have hlt : pos % bs + i < bs := by omega
  have hdiv : (pos + i) / bs = pos / bs := by
    have := Nat.div_add_mod pos bs
    rw [← this, Nat.add_assoc, Nat.mul_add_div (by omega), Nat.div_eq_of_lt hlt, this, Nat.add_zero]
  have hmod : (pos + i) % bs = pos % bs + i := by
    rw [Nat.add_mod, Nat.mod_eq_of_lt (show i < bs by omega), Nat.mod_eq_of_lt hlt]
  rw [Bytes.copy_zero_of_lt hlt, contentOf, hdiv, hc, hmod]

/-- **The loop delivers the slice, or meets a block that cannot be read.** -/
theorem readLoop_spec (hm : m.Sound) (ha : Agrees env m truth) {n : Nat} {l : ReadLoop}
    (hs : ReadsPlain env m truth ip l.pos.toNat l.count.toNat)
    (hc : l.bufs.Coherent m truth) (hn : l.count.toNat ≤ n)
    (hpos : l.pos.toNat + l.count.toNat ≤ ip.iSize.toNat)
    (hsize : l.size.toNat + l.count.toNat < 2 ^ 32) :
    ∃ ok l', readLoop env m ip n l = .ok (ok, l') ∧ ReadOutcome env m truth ip l l' ok := by
  induction n generalizing l with
  | zero =>
    have h0 : l.count.toNat = 0 := by omega
    exact ⟨true, l, rfl, .done (fun j _ _ => by omega)
      (by rw [h0]; exact (Bytes.copy_zero_len _ _ _).symm)⟩
  | succ n ih =>
    unfold readLoop
    by_cases h0 : l.count = 0
    · have h0' : l.count.toNat = 0 := by rw [h0]; rfl
      rw [if_pos h0]
      exact ⟨true, l, rfl, .done (fun j _ _ => by omega)
        (by rw [h0']; exact (Bytes.copy_zero_len _ _ _).symm)⟩
    have hbs0 : m.blocksize ≠ 0 := by
      rcases hm.blocksize with h | h | h <;> rw [h] <;> decide
    have hbs := hm.cases
    have hcount : l.count.toNat ≠ 0 := fun h => h0 (UInt32.toNat_inj.mp h)
    rw [if_neg h0, if_neg hbs0]
    -- This pass: block `bnum`, from byte `bofs` on, `nc` bytes.
    have hbnum : (l.pos / m.blocksize).toNat = l.pos.toNat / m.bs := UInt32.toNat_div _ _
    have hbofs : (l.pos % m.blocksize).toNat = l.pos.toNat % m.bs := UInt32.toNat_mod _ _
    have hmod : l.pos.toNat % m.bs < m.bs := Nat.mod_lt _ (by omega)
    have hnc := toNat_part hm l.count l.pos
    have hin : (l.pos / m.blocksize).toNat * m.bs ≤ ip.iSize.toNat := by
      rw [hbnum]
      exact (Nat.div_mul_le_self _ _).trans (by omega)
    have hhead : NoSentinelAt m truth ip (l.pos / m.blocksize).toNat := by
      rw [hbnum]
      exact hs.head (Nat.pos_of_ne_zero hcount)
    obtain ⟨r, blk, b, hread, hstep, hout⟩ := ext2Breadi_spec hm hc ha hhead hin l.bufs.blkbuf
    simp only [hread, ok_bind]
    generalize cMin l.count (m.blocksize - l.pos % m.blocksize) = nc at hnc ⊢
    have hkeep : BufStep env m b { b with blkbuf := blk } := bufStep_of_eq rfl rfl rfl
    have hstep₁ : BufStep env m l.bufs { b with blkbuf := blk } := hstep.toBufStep.trans hkeep
    by_cases hr : r = -1
    · rw [if_pos hr]
      refine ⟨false, _, rfl, ?_⟩
      rcases hout with ⟨c, -, hrb, -⟩ | ⟨hnone, -, -, hfail⟩ | hmiss
      · rcases hm.blocksize with h | h | h <;> rw [hrb, h] at hr <;> exact absurd hr (by decide)
      · rw [hbnum] at hnone
        exact .failed l.pos.toNat le_rfl (by omega) hnone
          (hfail.mono (BufStep.refl _) hkeep)
      · exact .missed false (hmiss.mono (BufStep.refl _) hkeep)
    have hfit : ¬ ext2MaxBlockSize < (l.pos % m.blocksize).toNat + nc.toNat := by
      rw [ext2MaxBlockSize, hbofs]
      omega
    rw [if_neg hr, if_neg hfit]
    -- The rest of the request, after this pass.
    have hcount₂ : (l.count - nc).toNat = l.count.toNat - nc.toNat :=
      UInt32.toNat_sub_of_le _ _ (UInt32.le_iff_toNat_le.mpr (by omega))
    have hisize := ip.iSize.toNat_lt
    have hpos₂ : (l.pos + nc).toNat = l.pos.toNat + nc.toNat := by
      rw [UInt32.toNat_add, Nat.mod_eq_of_lt (by omega)]
    have hsize₂ : (l.size + nc).toNat = l.size.toNat + nc.toNat := by
      rw [UInt32.toNat_add, Nat.mod_eq_of_lt (by omega)]
    obtain ⟨l₂, hl₂⟩ : ∃ l₂ : ReadLoop, l₂ = {
        count := l.count - nc, pos := l.pos + nc, size := l.size + nc
        buf := l.buf.copy l.size.toNat (fun i => blk ((l.pos % m.blocksize).toNat + i)) nc.toNat
        bufs := { b with blkbuf := blk } } := ⟨_, rfl⟩
    have hin₂ : l₂.pos.toNat + l₂.count.toNat ≤ ip.iSize.toNat := by
      rw [hl₂]
      dsimp only
      omega
    rw [← hl₂]
    rcases hout with ⟨c, hblk, -, hbuf⟩ | ⟨-, hrb, -, -⟩ | hmiss
    · rw [hbnum] at hblk
      have hs₂ : ReadsPlain env m truth ip l₂.pos.toNat l₂.count.toNat := by
        rw [hl₂]
        dsimp only
        rw [hpos₂, hcount₂]
        exact hs.tail (by omega) (by omega) (by rw [hblk]; exact Option.some_ne_none c)
      obtain ⟨ok, l', hl', hout₂⟩ := ih hs₂ (by rw [hl₂]; exact hstep₁.coherent ha hc)
        (by rw [hl₂]; dsimp only; omega) hin₂ (by rw [hl₂]; dsimp only; omega)
      refine ⟨ok, l', hl', ?_⟩
      subst hl₂
      cases hout₂ with
      | done hall hcopy =>
        dsimp only at hall hcopy
        refine .done (fun j hge hlt => ?_) ?_
        · by_cases hj : j < l.pos.toNat + nc.toNat
          · rw [div_eq_of_part (by omega) hge hj, hblk]
            exact Option.some_ne_none c
          · exact hall j (by omega) (by omega)
        · rw [hcopy, hsize₂, hpos₂, hcount₂, hbofs, hbuf,
            copy_block_part hblk (by omega : l.pos.toNat % m.bs + nc.toNat ≤ m.bs),
            Bytes.copy_copy_append]
          congr 1
          omega
      | failed j hge hlt hnone hfail =>
        dsimp only at hge hlt hfail
        exact .failed j (by omega) (by omega) hnone
          (hfail.mono hstep₁ (BufStep.refl _))
      | missed ok hmiss => exact .missed ok (hmiss.mono hstep₁ (BufStep.refl _))
    · exact absurd hrb hr
    · obtain ⟨ok, l', hl'⟩ : ∃ ok l', readLoop env m ip n l₂ = .ok (ok, l') :=
        readLoop_total hm hin₂
      subst hl₂
      have hstep₂ := (readLoop_step hl' (by dsimp only; omega) (by dsimp only; omega)).1
      exact ⟨ok, l', hl', .missed ok (hmiss.mono (BufStep.refl _) (hkeep.trans hstep₂))⟩

end Loop

/-! ## `ext2fs_read` on an open file -/

/-- How reading a file ends, from `s` to `s'`; `count` is what is left of the request before the
end of the file. -/
inductive SlotOutcome (env : Env) (truth : UInt32 → Option Bytes) (s s' : St) (i : Slot)
    (buf : Bytes) (count : Nat) (r : ReadResult) : Prop
  /-- The whole slice arrives, and the position moves behind it. -/
  | done (hblk : ∀ j, (s.table.inodeTable i).pos.toNat ≤ j →
        j < (s.table.inodeTable i).pos.toNat + count →
        fileBlock env s.mount truth (s.table.inodeTable i).inode (j / s.mount.bs) ≠ none)
      (hret : r.ret = 0) (hsize : r.size.toNat = count)
      (hbuf : r.buf = buf.copy 0
        (fun k => contentOf (fileBlock env s.mount truth (s.table.inodeTable i).inode) s.mount.bs
          ((s.table.inodeTable i).pos.toNat + k)) count)
  /-- A block cannot be read: -1, and the position stays. -/
  | failed (j : Nat) (hge : (s.table.inodeTable i).pos.toNat ≤ j)
      (hlt : j < (s.table.inodeTable i).pos.toNat + count)
      (hblk : fileBlock env s.mount truth (s.table.inodeTable i).inode (j / s.mount.bs) = none)
      (hret : r.ret = -1) (htable : s'.table = s.table)
      (hfail : FetchFailed env s.bufs s'.bufs)
  /-- An indirect block that `truth` knows cannot be read. -/
  | missed (h : Missed env s.mount truth s.bufs s'.bufs)

/-- The state with the buffers `b` and the position of entry `i` moved to `pos`. -/
def St.moved (s : St) (b : Bufs) (i : Slot) (pos : UInt32) : St :=
  { s with bufs := b, table := s.table.set i { s.table.inodeTable i with pos := pos } }

theorem Table.set_self (t : Table) (i : Slot) : t.set i (t.inodeTable i) = t := by
  unfold Table.set
  rw [Function.update_eq_self]

theorem St.moved_self (s : St) (b : Bufs) (i : Slot) :
    s.moved b i (s.table.inodeTable i).pos = { s with bufs := b } := by
  unfold St.moved
  rw [Table.set_self]

/-- What a read of an open file changes: the buffers, and the position when it returns 0. -/
theorem readSlot_step {env : Env} {s s' : St} {i : Slot} {buf : Bytes} {size : UInt32}
    {r : ReadResult} (h : readSlot env s i buf size = .ok (r, s'))
    (hpos : (s.table.inodeTable i).pos.toNat ≤ (s.table.inodeTable i).inode.iSize.toNat) :
    BufStep env s.mount s.bufs s'.bufs ∧
      (r.ret = 0 ∧ r.size.toNat = min size.toNat
            ((s.table.inodeTable i).inode.iSize.toNat - (s.table.inodeTable i).pos.toNat) ∧
          s' = s.moved s'.bufs i ((s.table.inodeTable i).pos + r.size) ∨
        r.ret = -1 ∧ s' = { s with bufs := s'.bufs }) := by
  have hcnt := toNat_cMin size ((s.table.inodeTable i).inode.iSize - (s.table.inodeTable i).pos)
  rw [UInt32.toNat_sub_of_le _ _ (UInt32.le_iff_toNat_le.mpr hpos)] at hcnt
  unfold readSlot at h
  dsimp only at h
  generalize cMin size ((s.table.inodeTable i).inode.iSize - (s.table.inodeTable i).pos) = c
    at hcnt h
  rw [← hcnt]
  by_cases h0 : c = 0
  · rw [if_pos h0] at h
    obtain ⟨rfl, rfl⟩ := Prod.mk.inj (Except.ok.inj h)
    refine ⟨BufStep.refl _, Or.inl ⟨rfl, by rw [h0], ?_⟩⟩
    dsimp only
    rw [UInt32.add_zero, St.moved_self]
  · rw [if_neg h0] at h
    obtain ⟨⟨ok, l⟩, hloop, h⟩ := bind_eq_ok.mp h
    have hlt := c.toNat_lt
    obtain ⟨hstep, hlen⟩ := readLoop_step hloop le_rfl (by simpa using hlt)
    cases ok with
    | false =>
      obtain ⟨rfl, rfl⟩ := Prod.mk.inj (Except.ok.inj h)
      exact ⟨hstep, Or.inr ⟨rfl, rfl⟩⟩
    | true =>
      obtain ⟨rfl, rfl⟩ := Prod.mk.inj (Except.ok.inj h)
      exact ⟨hstep, Or.inl ⟨rfl, by simpa using hlen rfl, rfl⟩⟩

theorem readSlot_total (env : Env) {s : St} {i : Slot} (hm : s.mount.Sound)
    (hpos : (s.table.inodeTable i).pos.toNat ≤ (s.table.inodeTable i).inode.iSize.toNat)
    (buf : Bytes) (size : UInt32) : ∃ r s', readSlot env s i buf size = .ok (r, s') := by
  have hcnt := toNat_cMin size ((s.table.inodeTable i).inode.iSize - (s.table.inodeTable i).pos)
  rw [UInt32.toNat_sub_of_le _ _ (UInt32.le_iff_toNat_le.mpr hpos)] at hcnt
  unfold readSlot
  dsimp only
  generalize cMin size ((s.table.inodeTable i).inode.iSize - (s.table.inodeTable i).pos) = c
    at hcnt ⊢
  by_cases h0 : c = 0
  · exact ⟨_, s, if_pos h0⟩
  · obtain ⟨ok, l, hloop⟩ : ∃ ok l, readLoop env s.mount (s.table.inodeTable i).inode c.toNat
        ⟨c, (s.table.inodeTable i).pos, 0, buf, s.bufs⟩ = .ok (ok, l) :=
      readLoop_total hm (by dsimp only; omega)
    rw [if_neg h0, hloop]
    cases ok with
    | false => exact ⟨_, _, rfl⟩
    | true => exact ⟨_, _, rfl⟩

theorem readSlot_spec {env : Env} {s : St} {i : Slot} {truth : UInt32 → Option Bytes}
    (hm : s.mount.Sound) (hc : s.bufs.Coherent s.mount truth) (ha : Agrees env s.mount truth)
    (hpos : (s.table.inodeTable i).pos.toNat ≤ (s.table.inodeTable i).inode.iSize.toNat)
    (buf : Bytes) (size : UInt32) {count : Nat}
    (hcount : count = min size.toNat
      ((s.table.inodeTable i).inode.iSize.toNat - (s.table.inodeTable i).pos.toNat))
    (hs : ReadsPlain env s.mount truth (s.table.inodeTable i).inode
      (s.table.inodeTable i).pos.toNat count) :
    ∃ r s', readSlot env s i buf size = .ok (r, s') ∧
      SlotOutcome env truth s s' i buf count r := by
  have hcnt : (cMin size ((s.table.inodeTable i).inode.iSize - (s.table.inodeTable i).pos)).toNat =
      count := by
    rw [toNat_cMin, UInt32.toNat_sub_of_le _ _ (UInt32.le_iff_toNat_le.mpr hpos), hcount]
  have hsz := size.toNat_lt
  unfold readSlot
  dsimp only
  generalize cMin size ((s.table.inodeTable i).inode.iSize - (s.table.inodeTable i).pos) = c
    at hcnt ⊢
  by_cases h0 : c = 0
  · have hcount0 : count = 0 := by rw [← hcnt, h0]; rfl
    rw [if_pos h0]
    refine ⟨⟨0, 0, buf⟩, s, rfl, .done (fun j _ _ => by omega) rfl hcount0.symm ?_⟩
    rw [hcount0]
    exact (Bytes.copy_zero_len _ _ _).symm
  · rw [if_neg h0]
    obtain ⟨ok, l, hloop, hout⟩ := readLoop_spec hm ha
      (l := ⟨c, (s.table.inodeTable i).pos, 0, buf, s.bufs⟩) (hcnt ▸ hs) hc (n := c.toNat) le_rfl
      (by dsimp only; omega) (by dsimp only; rw [UInt32.toNat_zero]; omega)
    have hlen := (readLoop_step hloop le_rfl (by simpa using c.toNat_lt)).2
    dsimp only at hlen
    simp only [hloop, ok_bind]
    rw [UInt32.toNat_zero, Nat.zero_add, hcnt] at hlen
    cases ok with
    | false =>
      refine ⟨_, _, rfl, ?_⟩
      cases hout with
      | failed j hge hlt hblk hfail =>
        dsimp only at hge hlt hfail
        exact .failed j hge (by omega) hblk rfl rfl hfail
      | missed _ h => exact .missed h
    | true =>
      refine ⟨_, _, rfl, ?_⟩
      cases hout with
      | done hblk hbuf =>
        dsimp only at hblk hbuf
        rw [hcnt] at hblk hbuf
        exact .done hblk rfl (hlen rfl) hbuf
      | missed _ h => exact .missed h

end MbBootTv

import MbBootTv.Ext2.Medium
import MbBootTv.Ext2.OnDisk
import MbBootTv.Ext2.Search

/-!
# Well-formed directories

In a well-formed directory the records tile each block. If the code can go through it
(`Scannable`), the search of `ext2_namei` is the search of a list: `DirHolds.search` says that it
ends with the number in the first record that bears the name, whatever that number is.
-/

namespace MbBootTv

/-! ## Records -/

/-- The name in the record at `o`. -/
def recName (c : Bytes) (o : Nat) : List UInt8 :=
  c.slice (o + DirEntry.nameOffset) (DirEntry.nameLen c o).toNat

/-- What a directory says: a name, and the number of an inode. It is 0 in a deleted record. -/
structure Entry where
  name : List UInt8
  ino : UInt32
  deriving DecidableEq

/-- The entry in the record at `o`. -/
def recEntry (c : Bytes) (o : Nat) : Entry := ⟨recName c o, DirEntry.inode c o⟩

/-- The records that follow each other from byte `o` of the block `c` on fill it to its end. -/
inductive Tiles (c : Bytes) (bs : Nat) : Nat → List Nat → Prop
  | done : Tiles c bs bs []
  | record {o : Nat} {os : List Nat} (halign : (DirEntry.recLen c o).toNat % 4 = 0)
      (hpos : DirEntry.recLen c o ≠ 0)
      (hname : o + DirEntry.nameOffset + (DirEntry.nameLen c o).toNat ≤ bs)
      (rest : Tiles c bs (o + (DirEntry.recLen c o).toNat) os) : Tiles c bs o (o :: os)

theorem Tiles.le {c : Bytes} {bs o : Nat} {os : List Nat} (h : Tiles c bs o os) : o ≤ bs := by
  induction h with
  | done => exact le_rfl
  | record _ _ _ _ ih => exact (Nat.le_add_right _ _).trans ih

/-- Whether the records at `os` do can be computed. -/
def Tiles.decide (c : Bytes) (bs : Nat) : (o : Nat) → (os : List Nat) → Decidable (Tiles c bs o os)
  | o, [] => decidable_of_iff (o = bs)
      ⟨fun h => h ▸ .done, fun h => by cases h; rfl⟩
  | o, a :: os =>
    have := Tiles.decide c bs (o + (DirEntry.recLen c o).toNat) os
    decidable_of_iff (a = o ∧ (DirEntry.recLen c o).toNat % 4 = 0 ∧ DirEntry.recLen c o ≠ 0 ∧
        o + DirEntry.nameOffset + (DirEntry.nameLen c o).toNat ≤ bs ∧
        Tiles c bs (o + (DirEntry.recLen c o).toNat) os)
      ⟨fun ⟨ha, halign, hpos, hname, rest⟩ => by
        subst ha
        exact .record halign hpos hname rest, fun h => by
        cases h with
        | record halign hpos hname rest => exact ⟨rfl, halign, hpos, hname, rest⟩⟩

instance {c : Bytes} {bs o : Nat} {os : List Nat} : Decidable (Tiles c bs o os) :=
  Tiles.decide c bs o os

/-- The entries of the `n` blocks `c` from block `k` on, whose records stand at `os`. -/
def entriesFrom (c : Nat → Bytes) (os : Nat → List Nat) : Nat → Nat → List Entry
  | _, 0 => []
  | k, n + 1 => (os k).map (recEntry (c k)) ++ entriesFrom c os (k + 1) n

/-- The number of blocks of a file. -/
def blockCount (m : Mount) (ip : Inode) : Nat := (ip.iSize.toNat + m.bs - 1) / m.bs

theorem lt_blockCount_iff {m : Mount} (hm : m.Sound) {ip : Inode} {k : Nat} :
    k < blockCount m ip ↔ k * m.bs < ip.iSize.toNat := by
  unfold blockCount
  have hpos : 0 < m.bs := by
    have := hm.cases
    omega
  rw [Nat.lt_iff_add_one_le, Nat.le_div_iff_mul_le hpos, Nat.succ_mul]
  omega

/-- The directory `ip` is well formed and holds these entries, those of deleted records among
them. Nothing is said of blocks that the double-indirect pointers do not reach. -/
def DirHolds (env : Env) (m : Mount) (ip : Inode) (ents : List Entry) : Prop :=
  ∃ c os, (∀ k < blockCount m ip, k < 12 + m.ptrs + m.ptrs * m.ptrs →
      formatBlock env m ip k = some (c k) ∧ Tiles (c k) m.bs 0 (os k)) ∧
    ents = entriesFrom c os 0 (blockCount m ip)

/-- The code can go through this directory: it has a block, its offsets are not negative as an
`int`, and its blocks are below the limit of `ext2_blkno` and in reach. -/
structure Scannable (env : Env) (m : Mount) (ip : Inode) : Prop where
  nonempty : ip.iSize ≠ 0
  int : ip.iSize.toNat ≤ 2 ^ 31
  limit : blockCount m ip ≤ 12 + m.ptrs * m.ptrs
  reach : ∀ k < blockCount m ip, InReach env m ip k

theorem Scannable.blockCount_pos {env : Env} {m : Mount} {ip : Inode} (h : Scannable env m ip)
    (hm : m.Sound) : 0 < blockCount m ip := by
  refine (lt_blockCount_iff hm).mpr ?_
  rw [Nat.zero_mul]
  exact Nat.pos_of_ne_zero fun h0 => h.nonempty (UInt32.toNat_inj.mp h0)

/-- Of a well-formed directory that the code can go through, it gets the blocks as they are. -/
theorem DirHolds.blocks {env : Env} {m : Mount} {ip : Inode} {ents : List Entry}
    (h : DirHolds env m ip ents) (hm : m.Sound) (hscan : Scannable env m ip) :
    ∃ c os, (∀ k < blockCount m ip, fileBlock env m (blockAt env m) ip k = some (c k)) ∧
      (∀ k < blockCount m ip, Tiles (c k) m.bs 0 (os k)) ∧
      ents = entriesFrom c os 0 (blockCount m ip) := by
  obtain ⟨c, os, hblocks, hents⟩ := h
  have hlimit := hscan.limit
  have hblock {k : Nat} (hk : k < blockCount m ip) := hblocks k hk (by omega)
  refine ⟨c, os, fun k hk => ?_, fun k hk => (hblock hk).2, hents⟩
  rw [← (hblock hk).1]
  refine (hscan.reach k hk).fileBlock_of_format hm (hk.trans_le hlimit) ?_
  rw [(hblock hk).1]
  exact Option.some_ne_none _

section OneBlock

variable {env : Env} {m : Mount} {ip : Inode}

/-- A directory of one block. -/
theorem blockCount_of_block (hm : m.Sound) (hsize : ip.iSize.toNat = m.bs) :
    blockCount m ip = 1 := by
  have hbs := hm.cases
  unfold blockCount
  rw [hsize]
  exact Nat.div_eq_of_lt_le (by omega) (by omega)

theorem dirHolds_of_block {c : Bytes} {os : List Nat} (hm : m.Sound)
    (hsize : ip.iSize.toNat = m.bs) (hread : formatBlock env m ip 0 = some c)
    (ht : Tiles c m.bs 0 os) : DirHolds env m ip (os.map (recEntry c)) := by
  have hcount := blockCount_of_block hm hsize
  refine ⟨fun _ => c, fun _ => os, fun k hk _ => ?_, ?_⟩
  · obtain rfl : k = 0 := by omega
    exact ⟨hread, ht⟩
  · rw [hcount, entriesFrom, entriesFrom, List.append_nil]

theorem scannable_of_block (hm : m.Sound) (hsize : ip.iSize.toNat = m.bs)
    (hreach : (ip.iBlock 0).toNat * m.bs < 2 ^ 32) : Scannable env m ip := by
  have hbs := hm.cases
  have hcount := blockCount_of_block hm hsize
  refine ⟨fun h0 => ?_, by omega, by omega, fun k hk => ?_⟩
  · rw [h0] at hsize
    have : (0 : UInt32).toNat = 0 := rfl
    omega
  · obtain rfl : k = 0 := by omega
    exact inReach_of_lt (by decide) hreach

end OneBlock

/-! ## Names -/

section Names

variable {c t tail : Bytes} {component len bs o : Nat}

/-- Two strings without NULs compare equal when they are. -/
theorem strncmp_eq_zero_iff {x y : Nat → UInt8} {i n : Nat} (hx : ∀ j < n, x (i + j) ≠ 0) :
    strncmp (fun i => .ok (x i)) (fun i => .ok (y i)) i n = .ok 0 ↔
      ∀ j < n, x (i + j) = y (i + j) := by
  induction n generalizing i with
  | zero => exact iff_of_true rfl fun j hj => absurd hj (Nat.not_lt_zero j)
  | succ n ih =>
    have h0 := hx 0 (Nat.succ_pos n)
    rw [Nat.add_zero] at h0
    have hrest := ih (i := i + 1) fun j hj => by
      rw [Nat.add_right_comm, Nat.add_assoc]
      exact hx (j + 1) (Nat.succ_lt_succ hj)
    rw [Nat.forall_lt_succ_left]
    simp only [Nat.add_zero]
    have hshift : (∀ j < n, x (i + (j + 1)) = y (i + (j + 1))) ↔
        ∀ j < n, x (i + 1 + j) = y (i + 1 + j) := by
      simp only [Nat.add_assoc, Nat.add_comm 1]
    rw [hshift]
    unfold strncmp
    simp only [ok_bind]
    split_ifs with hgt hlt
    · refine iff_of_false (fun h => by cases h) fun h => ?_
      rw [h.1] at hgt
      exact Int8.lt_irrefl hgt
    · refine iff_of_false (fun h => by cases h) fun h => ?_
      rw [h.1] at hlt
      exact Int8.lt_irrefl hlt
    · have hsame : x i = y i := by
        have hint : (x i).toInt8 = (y i).toInt8 :=
          Int8.le_antisymm (Int8.not_lt.mp hgt) (Int8.not_lt.mp hlt)
        simpa using congrArg Int8.toUInt8 hint
      rw [hrest]
      exact ⟨fun h => ⟨hsame, h⟩, And.right⟩

/-- The record that is searched is the one with the name. -/
theorem hit_iff (ht : ∀ x ∈ t.slice component len, x ≠ 0) :
    Hit (fun _ => t) component len c o ↔ recName c o = t.slice component len := by
  have hx : ∀ j < len, t (component + (0 + j)) ≠ 0 := fun j hj => by
    rw [Nat.zero_add]
    exact ht _ (List.mem_map_of_mem (List.mem_range.mpr hj))
  unfold Hit recName
  rw [strncmp_eq_zero_iff (x := fun i => t (component + i))
    (y := fun i => c (o + DirEntry.nameOffset + i)) hx]
  simp only [Nat.zero_add]
  constructor
  · rintro ⟨hlen, hsame⟩
    rw [hlen]
    exact (Bytes.slice_eq_iff.mpr hsame).symm
  · intro h
    have hlen := congrArg List.length h
    rw [Bytes.slice_length, Bytes.slice_length] at hlen
    rw [hlen] at h
    exact ⟨hlen, fun j hj => (Bytes.slice_eq_iff.mp h j hj).symm⟩

theorem recLen_page (h : o + 6 ≤ bs) :
    DirEntry.recLen (page tail c bs) o = DirEntry.recLen c o :=
  Bytes.le16_congr fun i hi => Bytes.copy_zero_of_lt (by omega)

theorem recEntry_page (h : o + DirEntry.nameOffset + (DirEntry.nameLen c o).toNat ≤ bs) :
    recEntry (page tail c bs) o = recEntry c o := by
  have hoff : DirEntry.nameOffset = 8 := rfl
  have hlen : DirEntry.nameLen (page tail c bs) o = DirEntry.nameLen c o :=
    Bytes.copy_zero_of_lt (by omega)
  unfold recEntry recName
  rw [hlen]
  congr 1
  · exact Bytes.slice_congr fun i hi => Bytes.copy_zero_of_lt (by omega)
  · exact Bytes.le32_congr fun i hi => Bytes.copy_zero_of_lt (by omega)

/-- Of a record with its name in the block, nothing outside the block is looked at. -/
theorem inspects_lt {text : Bytes → Bytes} {a : Nat}
    (hin : o + DirEntry.nameOffset + (DirEntry.nameLen c o).toNat ≤ bs)
    (h : Inspects text component len c o a) : a < bs := by
  have hoff : DirEntry.nameOffset = 8 := rfl
  cases h with
  | recLen i hi => omega
  | nameLen => omega
  | name i hlen hi hsame => omega

end Names

/-! ## Scanning the records -/

section Scan

variable {env : Env} {m : Mount} {ip : Inode} {b p : Bufs} {t c tail : Bytes}
  {cap component len k o : Nat} {os : List Nat}

/-- One record of a block: it is the one, or the scan goes on behind it. -/
theorem nameiSearch_record (env : Env) (ip : Inode) (k fuel : Nat) (hm : m.Sound) (hcap : component + len ≤ cap)
    (ht : ∀ x ∈ t.slice component len, x ≠ 0) (hp : p.blkbuf = page tail c m.bs)
    (hname : o + DirEntry.nameOffset + (DirEntry.nameLen c o).toNat ≤ m.bs) :
    nameiSearch env m ip (fun _ => t) cap component len (fuel + 1) false (p.scanAt m k o) =
      if recName c o = t.slice component len then
        .ok (DirEntry.inode c o, p.scanAt m k (o + (DirEntry.recLen c o).toNat))
      else nameiSearch env m ip (fun _ => t) cap component len fuel false
        (p.scanAt m k (o + (DirEntry.recLen c o).toNat)) := by
  have hoff : DirEntry.nameOffset = 8 := rfl
  have hbs := hm.cases
  have hmax : ext2MaxBlockSize = 4096 := rfl
  have hent : recEntry p.blkbuf o = recEntry c o := by
    rw [hp]
    exact recEntry_page hname
  have hrec : DirEntry.recLen p.blkbuf o = DirEntry.recLen c o := by
    rw [hp]
    exact recLen_page (by omega)
  have hnameEq : recName p.blkbuf o = recName c o := congrArg Entry.name hent
  have hlen : DirEntry.nameLen p.blkbuf o = DirEntry.nameLen c o := by
    rw [hp]
    exact Bytes.copy_zero_of_lt (by omega)
  have hnext : ext2Readdiri env m (p.scanAt m k o) ip false =
      .ok (some o, p.scanAt m k (o + (DirEntry.recLen c o).toNat)) := by
    refine (readdiriNext_inside hm (by omega)).trans ?_
    rw [nextDirEntry_scanAt (by omega), if_pos (by omega), hrec]
  have hinside : ∀ a, Inspects (fun _ => t) component len p.blkbuf o a → a < ext2MaxBlockSize :=
    fun a ha => (inspects_lt (by rw [hlen]; exact hname) ha).trans_le hm.fits
  obtain ⟨found, hfound⟩ := nameMatches_of_inside hcap hinside
  have hiff := (nameMatches_iff hfound).trans (hit_iff ht)
  rw [hnameEq] at hiff
  rw [nameiSearch, hnext]
  simp only [ok_bind]
  show (nameMatches _ cap component len p.blkbuf o >>= _) = _
  rw [hfound]
  by_cases hit : recName c o = t.slice component len
  · rw [if_pos hit, hiff.mpr hit]
    show Except.ok (DirEntry.inode p.blkbuf o, _) = _
    rw [show DirEntry.inode p.blkbuf o = DirEntry.inode c o from congrArg Entry.ino hent]
  · rw [if_neg hit, Bool.eq_false_iff.mpr fun h => hit (hiff.mp h)]
    rfl

/-- What the search makes of the entries that it comes to. -/
def findEntry (name : List UInt8) (ents : List Entry) : Option Entry :=
  ents.find? fun e => e.name = name

/-- The records of a block, from one of them on. -/
theorem nameiSearch_tiles (env : Env) (ip : Inode) (k : Nat) (hm : m.Sound) (hcap : component + len ≤ cap)
    (ht : ∀ x ∈ t.slice component len, x ≠ 0) (hp : p.blkbuf = page tail c m.bs)
    (h : Tiles c m.bs o os) :
    (∃ e o', findEntry (t.slice component len) (os.map (recEntry c)) = some e ∧
        ∀ fuel, os.length ≤ fuel →
          nameiSearch env m ip (fun _ => t) cap component len fuel false (p.scanAt m k o) =
            .ok (e.ino, p.scanAt m k o')) ∨
      findEntry (t.slice component len) (os.map (recEntry c)) = none ∧
        ∀ fuel, nameiSearch env m ip (fun _ => t) cap component len (os.length + fuel) false
            (p.scanAt m k o) =
          nameiSearch env m ip (fun _ => t) cap component len fuel false (p.scanAt m k m.bs) := by
  induction h with
  | done => exact .inr ⟨rfl, fun fuel => by rw [List.length_nil, Nat.zero_add]⟩
  | @record o os halign hpos hname rest ih =>
    have hstep (fuel : Nat) := nameiSearch_record env ip k fuel hm hcap ht hp hname
    unfold findEntry at ih ⊢
    rw [List.map_cons, List.find?_cons]
    by_cases hit : recName c o = t.slice component len
    · refine .inl ⟨recEntry c o, o + (DirEntry.recLen c o).toNat, ?_, fun fuel hfuel => ?_⟩
      · rw [decide_eq_true (show (recEntry c o).name = t.slice component len from hit)]
      · rw [List.length_cons] at hfuel
        obtain ⟨fuel, rfl⟩ := Nat.exists_eq_add_of_le' (Nat.one_le_of_lt hfuel)
        rw [hstep, if_pos hit]
        rfl
    · rw [decide_eq_false (show ¬ (recEntry c o).name = t.slice component len from hit)]
      simp only [List.length_cons]
      rcases ih with ⟨e, o', he, hrun⟩ | ⟨he, hrun⟩
      · refine .inl ⟨e, o', he, fun fuel hfuel => ?_⟩
        obtain ⟨fuel, rfl⟩ := Nat.exists_eq_add_of_le' (Nat.one_le_of_lt hfuel)
        rw [hstep, if_neg hit]
        exact hrun fuel (by omega)
      · refine .inr ⟨he, fun fuel => ?_⟩
        rw [Nat.add_right_comm, hstep, if_neg hit]
        exact hrun fuel

/-- The blocks of a well-formed directory arrive in order. -/
theorem dirPages_of_blocks {C : Nat → Bytes} (hm : m.Sound)
    (hc : b.Coherent m (blockAt env m))
    (hs : ∀ k < blockCount m ip, NoSentinelAt m (blockAt env m) ip k)
    (hread : ∀ k < blockCount m ip, fileBlock env m (blockAt env m) ip k = some (C k))
    (hk : k < blockCount m ip) :
    ∃ p, dirPages env m ip b k = .ok (true, p) ∧ p.blkbuf = page b.blkbuf (C k) m.bs ∧
      p.Coherent m (blockAt env m) := by
  have ha := Agrees.refl env m
  have hsize := ip.iSize.toNat_lt
  -- One block, from buffers that a block was read into before, or not.
  have hone {b' : Bufs} {j : Nat} (hc' : b'.Coherent m (blockAt env m))
      (hj : j < blockCount m ip) :
      ∃ p, readDirBlock env m b' ip (UInt32.ofNat j) = .ok (true, p) ∧
        p.blkbuf = page b'.blkbuf (C j) m.bs ∧ p.Coherent m (blockAt env m) := by
    have hin := (lt_blockCount_iff hm).mp hj
    have hbs := hm.cases
    have hnat : (UInt32.ofNat j).toNat = j :=
      toNat_ofNat_of_lt ((Nat.le_mul_of_pos_right j (show 0 < m.bs by omega)).trans_lt
        (hin.trans hsize))
    obtain ⟨r, buf, b₁, hok, hstep, hcase⟩ := ext2Breadi_spec hm hc' ha
      (by rw [hnat]; exact hs j hj) (show (UInt32.ofNat j).toNat * m.bs ≤ _ by rw [hnat]; exact hin.le) b'.blkbuf
    rw [hnat] at hcase
    rcases hcase with ⟨c', hblk, rfl, hbuf⟩ | ⟨hblk, -⟩ | hmiss
    · obtain rfl := Option.some.inj ((hread j hj).symm.trans hblk)
      unfold readDirBlock
      rw [hok]
      refine ⟨{ b₁ with blkbuf := buf }, ?_, hbuf, ?_⟩
      · simp only [ok_bind, hm.sneg_blocksize]
        rfl
      · have hkeep : BufStep env m b₁ { b₁ with blkbuf := buf } := bufStep_of_eq rfl rfl rfl
        exact (hstep.toBufStep.trans hkeep).coherent ha hc'
    · rw [hread j hj] at hblk
      cases hblk
    · exact absurd hmiss not_missed_self
  induction k with
  | zero => exact hone hc hk
  | succ k ih =>
    obtain ⟨p, hp, hbuf, hcoh⟩ := ih (Nat.lt_of_succ_lt hk)
    obtain ⟨p', hp', hbuf', hcoh'⟩ := hone hcoh hk
    refine ⟨p', ?_, ?_, hcoh'⟩
    · rw [dirPages, hp]
      exact hp'
    · rw [hbuf', hbuf, page_page]

/-- The blocks from `k` on. -/
theorem nameiSearch_blocks {C : Nat → Bytes} {os : Nat → List Nat} (hm : m.Sound)
    (hcap : component + len ≤ cap) (ht : ∀ x ∈ t.slice component len, x ≠ 0)
    (hc : b.Coherent m (blockAt env m))
    (hs : ∀ k < blockCount m ip, NoSentinelAt m (blockAt env m) ip k)
    (hint : ip.iSize.toNat ≤ 2 ^ 31)
    (hread : ∀ k < blockCount m ip, fileBlock env m (blockAt env m) ip k = some (C k))
    (htiles : ∀ k < blockCount m ip, Tiles (C k) m.bs 0 (os k)) {n : Nat}
    (hk : k + n + 1 = blockCount m ip) (hp : dirPages env m ip b k = .ok (true, p))
    (hbuf : p.blkbuf = page b.blkbuf (C k) m.bs) :
    ∃ N b', ∀ fuel, N ≤ fuel →
      nameiSearch env m ip (fun _ => t) cap component len fuel false (p.scanAt m k 0) =
        .ok (((findEntry (t.slice component len) (entriesFrom C os k (n + 1))).elim (-1) Entry.ino),
          b') := by
  have hbs := hm.cases
  induction n generalizing k p with
  | zero =>
    rw [entriesFrom, entriesFrom, List.append_nil]
    rcases nameiSearch_tiles env ip k hm hcap ht hbuf
      (htiles k (by omega)) with ⟨e, o', he, hrun⟩ | ⟨he, hrun⟩
    · exact ⟨_, _, fun fuel hfuel => by rw [hrun fuel hfuel, he]; rfl⟩
    · -- There is no block behind this one.
      have hend : ip.iSize.toNat ≤ (k + 1) * m.bs := by
        rw [← not_lt, ← lt_blockCount_iff hm]
        omega
      have hlt : k * m.bs < ip.iSize.toNat := (lt_blockCount_iff hm).mp (by omega)
      rcases readdiriNext_next hm hp (hlt.trans_le hint) le_rfl (show m.bs < 2 ^ 31 by omega) with
        ⟨-, b', heq⟩ | ⟨hmore, -⟩ | ⟨hmore, -⟩
      · have hnone : ext2Readdiri env m (p.scanAt m k m.bs) ip false = .ok (none, b') := heq
        refine ⟨(os k).length + 1, b', fun fuel hfuel => ?_⟩
        obtain ⟨fuel, rfl⟩ := Nat.exists_eq_add_of_le hfuel
        rw [Nat.add_assoc, hrun, Nat.add_comm 1, nameiSearch, hnone, he]
        rfl
      · omega
      · omega
  | succ n ih =>
    rw [entriesFrom]
    unfold findEntry
    rw [List.find?_append]
    rcases nameiSearch_tiles env ip k hm hcap ht hbuf
      (htiles k (by omega)) with ⟨e, o', he, hrun⟩ | ⟨he, hrun⟩
    · unfold findEntry at he
      exact ⟨_, _, fun fuel hfuel => by rw [hrun fuel hfuel, he]; rfl⟩
    · obtain ⟨p', hp', hbuf', -⟩ := dirPages_of_blocks hm hc hs hread
        (show k + 1 < blockCount m ip by omega)
      obtain ⟨N, b', hN⟩ := ih (by omega) hp' hbuf'
      refine ⟨(os k).length + N, b', fun fuel hfuel => ?_⟩
      obtain ⟨fuel, rfl⟩ := Nat.exists_eq_add_of_le hfuel
      have hrest := hN (N + fuel) (Nat.le_add_right N fuel)
      have hmore : (k + 1) * m.bs < ip.iSize.toNat := (lt_blockCount_iff hm).mp (by omega)
      have hlt : k * m.bs < ip.iSize.toNat := (lt_blockCount_iff hm).mp (by omega)
      have hnext : ext2Readdiri env m (p.scanAt m k m.bs) ip false =
          ext2Readdiri env m (p'.scanAt m (k + 1) 0) ip false := by
        rcases readdiriNext_next hm hp (hlt.trans_le hint) le_rfl (show m.bs < 2 ^ 31 by omega) with
          ⟨hend, -⟩ | ⟨-, hneg, -⟩ | ⟨-, -, heq⟩
        · omega
        · omega
        · refine heq.trans ?_
          rw [hp']
          exact (readdiriNext_inside hm (show 0 < m.bs by omega)).symm
      unfold findEntry at he hrest
      rw [Nat.add_assoc, hrun, nameiSearch_congr hnext, hrest, he]
      rfl

/-- **The search of a well-formed directory** ends with the number in the first record that bears
the name, or with -1 when there is none. -/
theorem DirHolds.search {ents : List Entry} (h : DirHolds env m ip ents)
    (hscan : Scannable env m ip) (hm : m.Sound) (hc : b.Coherent m (blockAt env m))
    (hcap : component + len ≤ cap) (ht : ∀ x ∈ t.slice component len, x ≠ 0) :
    ∃ N b', ∀ fuel, N ≤ fuel →
      nameiSearch env m ip (fun _ => t) cap component len fuel true b =
        .ok ((findEntry (t.slice component len) ents).elim (-1) Entry.ino, b') := by
  obtain ⟨c, os, hread, htiles, rfl⟩ := h.blocks hm hscan
  have hs (k : Nat) (hk : k < blockCount m ip) := (hscan.reach k hk).noSentinel hm
  have hpos := hscan.blockCount_pos hm
  obtain ⟨n, hn⟩ := Nat.exists_eq_add_of_le' hpos
  obtain ⟨p, hp, hbuf, -⟩ := dirPages_of_blocks hm hc hs hread hpos
  obtain ⟨N, b', hN⟩ := nameiSearch_blocks hm hcap ht hc hs hscan.int hread htiles (n := n)
    (by omega) hp hbuf
  have hstart : ext2Readdiri env m b ip true = ext2Readdiri env m (p.scanAt m 0 0) ip false := by
    rw [ext2Readdiri_start, hp]
    rfl
  refine ⟨N, b', fun fuel hfuel => ?_⟩
  rw [nameiSearch_congr hstart, hN fuel hfuel, hn]

end Scan

end MbBootTv
